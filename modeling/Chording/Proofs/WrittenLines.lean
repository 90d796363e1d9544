import Chording.Proofs.Names
import Mathlib.Data.List.Forall2

/-!
# Lines that are written

The ways in which a line of a chord file may be written.  Names stand in any case, everything has blanks around it, and
a comment may follow (`Sides`, `Line`).  Whichever way is taken, the line says what it was written for
(`readLine_of_line`).
-/

namespace Chording.ChordFile

/-! ### What may be written -/

/-- Blanks within a line. -/
def Pad (blanks : List Char) : Prop := AllBlank blanks ∧ '\n' ∉ blanks

/-- A word with blanks around it. -/
def Padded (word text : List Char) : Prop :=
  ∃ before behind, Pad before ∧ Pad behind ∧ text = before ++ word ++ behind

/-- A name in any case, with blanks around it. -/
def Named (name : String) (text : List Char) : Prop :=
  ∃ word, sameIgnoringCase name.toList word = true ∧ Padded word text

/-- Parts that are written one after another, with a mark between each two of them. -/
def Listed {α : Type} (mark : Char) (Writes : α → List Char → Prop) (parts : List α) (text : List Char) : Prop :=
  ∃ items, List.Forall₂ Writes parts items ∧ text = [mark].intercalate items

/-- What stands on the two sides of the equals sign. -/
inductive Sides : Directive → List Char → List Char → Prop
  | timeout {millis : UInt64} {left right : List Char} (hl : Named Setting.timeout.name left)
      (hr : Padded (Radix.decimal.write millis.toNat) right) : Sides (.timeout millis) left right
  | capacity {count : UInt64} {left right : List Char} (hl : Named Setting.capacity.name left)
      (hr : Padded (Radix.decimal.write count.toNat) right) : Sides (.capacity count) left right
  | overflow {policy : OverflowPolicy} {left right : List Char} (hl : Named Setting.overflow.name left)
      (hr : Padded policy.name.toList right) : Sides (.overflow policy) left right
  | disabledLayers {layers : LayerSet} {members : List UInt8} {left list right : List Char}
      (hl : Named Setting.disabledLayers.name left) (hm : ∀ layer, layer ∈ members ↔ layers.contains layer = true)
      (hr : Listed ',' (fun layer : UInt8 => Padded (Radix.decimal.write layer.toNat)) members list)
      (hp : Padded list right) : Sides (.disabledLayers layers) left right
  | chord {d : ChordDef} {left right : List Char} (hl : Listed '+' (fun key : KeyCode => Named key.display) d.keys left)
      (hr : Named d.action.display right) : Sides (.chord d) left right

/-- Blanks, and then a comment if there is one. -/
inductive Trailer : List Char → Prop
  | blanks {blanks : List Char} (h : Pad blanks) : Trailer blanks
  | comment {blanks comment : List Char} {mark : Char} (h : Pad blanks) (hm : mark = '#' ∨ mark = ';')
      (hc : '\n' ∉ comment) : Trailer (blanks ++ mark :: comment)

/-- A line that says something, or nothing. -/
inductive Line : Option Directive → List Char → Prop
  | empty {text : List Char} (h : Trailer text) : Line none text
  | directive {d : Directive} {left right text : List Char} (h : Sides d left right) (ht : Trailer text) :
      Line (some d) (left ++ '=' :: right ++ text)

/-! ### Characters of a line -/

/-- The characters on the two sides of the equals sign. -/
def OnSide (c : Char) : Prop := isPlain c = true ∨ (isBlank c = true ∧ c ≠ '\n') ∨ c = '+' ∨ c = ','

variable {word text left right : List Char} {c mark : Char} {name : String}

/-- The marks that take a text apart are on neither side. -/
theorem OnSide.ne_mark (h : OnSide c) : c ≠ '\n' ∧ c ≠ '#' ∧ c ≠ ';' ∧ c ≠ '=' := by
  rcases h with h | ⟨h, hn⟩ | rfl | rfl
  · refine ⟨?_, ?_, ?_, ?_⟩ <;> rintro rfl <;> exact absurd h (by decide)
  · refine ⟨hn, ?_, ?_, ?_⟩ <;> rintro rfl <;> exact absurd h (by decide)
  · decide
  · decide

private theorem Padded.onSide (h : Padded word text) (hw : ∀ c ∈ word, OnSide c) : ∀ c ∈ text, OnSide c := by
  obtain ⟨before, behind, hbefore, hbehind, rfl⟩ := h
  intro c hc
  rcases List.mem_append.1 hc with hc | hc
  · rcases List.mem_append.1 hc with hc | hc
    · exact Or.inr (Or.inl ⟨hbefore.1 c hc, fun e => hbefore.2 (e ▸ hc)⟩)
    · exact hw c hc
  · exact Or.inr (Or.inl ⟨hbehind.1 c hc, fun e => hbehind.2 (e ▸ hc)⟩)

private theorem Named.onSide (h : Named name text) (hn : ∀ c ∈ name.toList, isPlain c = true) :
    ∀ c ∈ text, OnSide c := by
  obtain ⟨word, hw, hp⟩ := h
  exact hp.onSide fun c hc => Or.inl (isPlain_of_sameIgnoringCase hw hn c hc)

private theorem Listed.onSide {α : Type} {Writes : α → List Char → Prop} {parts : List α}
    (h : Listed mark Writes parts text)
    (hm : OnSide mark) (hw : ∀ part item, Writes part item → ∀ c ∈ item, OnSide c) : ∀ c ∈ text, OnSide c := by
  obtain ⟨items, hitems, rfl⟩ := h
  have hall : ∀ item ∈ items, ∀ c ∈ item, OnSide c := by
    induction hitems with
    | nil => exact fun _ hmem => absurd hmem List.not_mem_nil
    | cons hpart _ ih => exact List.forall_mem_cons.2 ⟨hw _ _ hpart, ih⟩
  intro c hc
  rcases mem_intercalate hc with rfl | ⟨item, hmem, hc⟩
  · exact hm
  · exact hall item hmem c hc

private theorem isPlain_of_mem_settingName (setting : Setting) : ∀ c ∈ setting.name.toList, isPlain c = true :=
  List.all_eq_true.1 (by cases setting <;> decide +kernel)

private theorem isPlain_of_mem_policyName (policy : OverflowPolicy) : ∀ c ∈ policy.name.toList, isPlain c = true :=
  List.all_eq_true.1 (by cases policy <;> decide +kernel)

private theorem onSide_of_padded_write {n : Nat} (h : Padded (Radix.decimal.write n) text) : ∀ c ∈ text, OnSide c :=
  h.onSide fun _ hc => Or.inl (isPlain_of_mem_write hc)

private theorem onSide_of_named_setting {setting : Setting} (h : Named setting.name text) : ∀ c ∈ text, OnSide c :=
  h.onSide (isPlain_of_mem_settingName setting)

private theorem onSide_of_named_key {key : KeyCode} (h : Named key.display text) : ∀ c ∈ text, OnSide c :=
  h.onSide fun _ hc => isPlain_of_mem_display hc

theorem Sides.onSide {d : Directive} (h : Sides d left right) :
    (∀ c ∈ left, OnSide c) ∧ ∀ c ∈ right, OnSide c := by
  cases h with
  | timeout hl hr => exact ⟨onSide_of_named_setting hl, onSide_of_padded_write hr⟩
  | capacity hl hr => exact ⟨onSide_of_named_setting hl, onSide_of_padded_write hr⟩
  | overflow hl hr =>
    exact ⟨onSide_of_named_setting hl, hr.onSide fun c hc => Or.inl (isPlain_of_mem_policyName _ c hc)⟩
  | disabledLayers hl hm hr hp =>
    refine ⟨onSide_of_named_setting hl, hp.onSide (hr.onSide (by simp [OnSide]) fun _ _ => onSide_of_padded_write)⟩
  | chord hl hr =>
    exact ⟨hl.onSide (by simp [OnSide]) fun _ _ => onSide_of_named_key, onSide_of_named_key hr⟩

/-! ### Reading the two sides -/

private theorem Padded.trim_eq (h : Padded word text) : trim text = trim word := by
  obtain ⟨before, behind, hbefore, hbehind, rfl⟩ := h
  rw [trim_append_right hbehind.1, trim_append_left hbefore.1]

private theorem Padded.trim_eq_of_plain (h : Padded word text) (hw : ∀ c ∈ word, isPlain c = true) :
    trim text = word := by
  rw [h.trim_eq]
  exact trim_of_forall_not_blank fun c hc => not_blank_of_isPlain (hw c hc)

/-- What is left of a name when it is trimmed. -/
private theorem Named.sameIgnoringCase (h : Named name text) (hn : ∀ c ∈ name.toList, isPlain c = true) :
    Chording.sameIgnoringCase name.toList (trim text) = true := by
  obtain ⟨word, hw, hp⟩ := h
  rwa [hp.trim_eq_of_plain (isPlain_of_sameIgnoringCase hw hn)]

private theorem ofName?_of_named {setting : Setting} (h : Named setting.name text) :
    Setting.ofName? (trim text) = some setting := by
  have hsame := sameIgnoringCase_iff.1 (h.sameIgnoringCase (isPlain_of_mem_settingName setting))
  have hlower : setting.name.toList.map Char.toLower = setting.name.toList := by cases setting <;> decide +kernel
  rw [Setting.ofName?, ← hsame, hlower, ← Setting.ofName?_name setting, Setting.ofName?, hlower]

private theorem readKey_of_named {key : KeyCode} (h : Named key.display text) : readKey text = .ok key := by
  have hsame := h.sameIgnoringCase fun _ hc => isPlain_of_mem_display hc
  rw [readKey, if_neg (ne_nil_of_sameIgnoringCase hsame (display_ne_nil key)), ofName?_of_recased hsame]

/-- Reading a key does not depend on the blanks around it. -/
private theorem readKey_trim (text : List Char) : readKey (trim text) = readKey text := by
  rw [readKey, readKey, KeyCode.ofName?, KeyCode.ofName?, trim_trim]

/-- Items that are read one after another, each as the part for which it was written. -/
private theorem mapM_of_forall₂ {α β ε : Type} {read : β → Except ε α} {parts : List α} {items : List β}
    (h : List.Forall₂ (fun part item => read item = .ok part) parts items) : items.mapM read = .ok parts := by
  induction h with
  | nil => rfl
  | cons hpart _ ih =>
    rw [List.mapM_cons, hpart, ih]
    rfl

/-- It does not matter whether the keys of a chord are trimmed before they are split. -/
private theorem mapM_readKey_trim (text : List Char) :
    ((trim text).splitOn '+').mapM readKey = (text.splitOn '+').mapM readKey := by
  have htrim : ∀ items : List (List Char), items.mapM readKey = (items.map trim).mapM readKey := by
    intro items
    rw [List.mapM_map]
    exact congrArg (items.mapM ·) (funext fun item => (readKey_trim item).symm)
  rw [htrim, htrim (text.splitOn '+'), map_trim_splitOn_trim (by decide)]

/-- Marks that stand in no item take the items apart again. -/
private theorem splitOn_of_forall₂ {α : Type} {Writes : α → List Char → Prop} {parts : List α}
    {items : List (List Char)}
    (h : List.Forall₂ Writes parts items) (hw : ∀ part item, Writes part item → mark ∉ item) (hne : parts ≠ []) :
    ([mark].intercalate items).splitOn mark = items := by
  refine List.splitOn_intercalate mark ?_ fun hnil => hne ?_
  · clear hne
    induction h with
    | nil => exact fun _ hmem => absurd hmem List.not_mem_nil
    | cons hpart _ ih => exact List.forall_mem_cons.2 ⟨hw _ _ hpart, ih⟩
  · subst hnil
    cases h
    rfl

/-- A word without a certain mark does not get one by the blanks around it. -/
private theorem Padded.not_mem (h : Padded word text) (hb : isBlank mark = false) (hw : mark ∉ word) : mark ∉ text := by
  obtain ⟨before, behind, hbefore, hbehind, rfl⟩ := h
  intro hmem
  rcases List.mem_append.1 hmem with hmem | hmem
  · rcases List.mem_append.1 hmem with hmem | hmem
    · exact absurd (hbefore.1 mark hmem) (by simp [hb])
    · exact hw hmem
  · exact absurd (hbehind.1 mark hmem) (by simp [hb])

private theorem mapM_readKey_of_listed {keys : List KeyCode} (hne : keys ≠ [])
    (h : Listed '+' (fun key : KeyCode => Named key.display) keys text) : (text.splitOn '+').mapM readKey = .ok keys := by
  obtain ⟨items, hitems, rfl⟩ := h
  have hplus : ∀ (key : KeyCode) (item : List Char), Named key.display item → '+' ∉ item := by
    intro key item hitem
    obtain ⟨word, hw, hp⟩ := hitem
    refine hp.not_mem (by decide) fun hmem => ?_
    exact absurd (isPlain_of_sameIgnoringCase hw (fun _ hc => isPlain_of_mem_display hc) '+' hmem) (by decide)
  rw [splitOn_of_forall₂ hitems hplus hne]
  exact mapM_of_forall₂ (hitems.imp fun _ _ => readKey_of_named)

/-- Two keys or more are written with a plus sign, which is part of no name of a setting. -/
private theorem ofName?_of_listed {keys : List KeyCode} (hlen : 2 ≤ keys.length)
    (h : Listed '+' (fun key : KeyCode => Named key.display) keys text) : Setting.ofName? (trim text) = none := by
  obtain ⟨items, hitems, rfl⟩ := h
  have hmem : '+' ∈ trim (['+'].intercalate items) := by
    match items, hitems.length_eq ▸ hlen with
    | first :: second :: rest, _ =>
      rw [List.intercalate_cons_cons, List.append_assoc, List.singleton_append]
      obtain ⟨left, right, htrim, -⟩ :=
        exists_trim_append_cons (show isBlank '+' = false by decide) first (['+'].intercalate (second :: rest))
      rw [htrim]
      simp
  cases hs : Setting.ofName? (trim (['+'].intercalate items)) with
  | none => rfl
  | some setting =>
    have hname : setting.name.toList = (trim (['+'].intercalate items)).map Char.toLower := by
      simpa using List.find?_some hs
    have hplus : '+' ∈ setting.name.toList := by
      rw [hname]
      exact List.mem_map.2 ⟨'+', hmem, by decide⟩
    exact absurd (isPlain_of_mem_settingName setting '+' hplus) (by decide)

private theorem readWord_write (n : UInt64) : readWord (Radix.decimal.write n.toNat) = .ok n := by
  have hle : n.toNat ≤ UInt64.size - 1 := Nat.le_sub_one_of_lt n.toNat_lt
  rw [readWord, Radix.read_write hle]
  simp [Except.map]

private theorem readLayer_write (layer : UInt8) : readLayer (Radix.decimal.write layer.toNat) = .ok layer := by
  have hle : layer.toNat ≤ UInt8.size - 1 := Nat.le_sub_one_of_lt layer.toNat_lt
  rw [readLayer, Radix.read_write hle]
  simp [Except.map, Except.mapError]

/-- The items of a list of layers, without the blanks around them. -/
private theorem items_of_listed {members : List UInt8} {list : List Char}
    (h : Listed ',' (fun layer : UInt8 => Padded (Radix.decimal.write layer.toNat)) members list) :
    ((list.splitOn ',').map trim).filter (· ≠ []) = members.map fun layer => Radix.decimal.write layer.toNat := by
  obtain ⟨items, hitems, rfl⟩ := h
  have hcomma : ∀ (layer : UInt8) (item : List Char), Padded (Radix.decimal.write layer.toNat) item → ',' ∉ item :=
    fun layer item hp => hp.not_mem (by decide) fun hmem => absurd (isPlain_of_mem_write hmem) (by decide)
  have htrim : items.map trim = members.map fun layer => Radix.decimal.write layer.toNat := by
    clear hcomma
    induction hitems with
    | nil => rfl
    | cons hp _ ih =>
      rw [List.map_cons, List.map_cons, ih, hp.trim_eq_of_plain fun _ hc => isPlain_of_mem_write hc]
  cases members with
  | nil =>
    cases hitems
    rfl
  | cons first others =>
    rw [splitOn_of_forall₂ hitems hcomma (List.cons_ne_nil _ _), htrim]
    refine List.filter_eq_self.2 fun item hitem => ?_
    obtain ⟨layer, -, rfl⟩ := List.mem_map.1 hitem
    simpa using Radix.write_ne_nil _ _

private theorem readLayers_of_listed {layers : LayerSet} {members : List UInt8} {list : List Char}
    (hm : ∀ layer, layer ∈ members ↔ layers.contains layer = true)
    (h : Listed ',' (fun layer : UInt8 => Padded (Radix.decimal.write layer.toNat)) members list) :
    readLayers (trim list) = .ok layers := by
  have hread : (members.map fun layer => Radix.decimal.write layer.toNat).mapM readLayer = .ok members := by
    refine mapM_of_forall₂ ?_
    rw [List.forall₂_map_right_iff]
    exact List.forall₂_same.2 fun layer _ => readLayer_write layer
  rw [readLayers, map_trim_splitOn_trim (by decide), items_of_listed h, hread]
  show (LayerSet.ofList members).mapError _ = _
  rw [LayerSet.ofList_eq_ok hm]
  rfl

/-- A directive that can be told from a setting: a chord of two keys or more, or a setting. -/
def Tellable : Directive → Prop
  | .chord d => 2 ≤ d.keys.length
  | _ => True

private theorem readSides_of_sides {d : Directive} (h : Sides d left right) (hd : Tellable d) :
    readSides (trim left) (trim right) = .ok d := by
  rw [readSides]
  cases h with
  | timeout hl hr =>
    rw [ofName?_of_named hl, hr.trim_eq_of_plain fun _ hc => isPlain_of_mem_write hc]
    simp only [readSetting, readWord_write]
    rfl
  | capacity hl hr =>
    rw [ofName?_of_named hl, hr.trim_eq_of_plain fun _ hc => isPlain_of_mem_write hc]
    simp only [readSetting, readWord_write]
    rfl
  | overflow hl hr =>
    rw [ofName?_of_named hl, hr.trim_eq_of_plain (isPlain_of_mem_policyName _)]
    simp only [readSetting, OverflowPolicy.ofName?_name]
  | disabledLayers hl hm hr hp =>
    rw [ofName?_of_named hl, hp.trim_eq]
    simp only [readSetting, readLayers_of_listed hm hr]
    rfl
  | @chord d _ _ hl hr =>
    have hne : d.keys ≠ [] := List.ne_nil_of_length_pos (Nat.lt_of_lt_of_le Nat.zero_lt_two hd)
    rw [ofName?_of_listed hd hl]
    simp only [readChord, mapM_readKey_trim, mapM_readKey_of_listed hne hl, readKey_trim, readKey_of_named hr]
    rfl

/-! ### Reading a line -/

/-- What stands in front of a comment and the blanks before it. -/
private theorem content_append (hl : ∀ c ∈ left, c ≠ '#' ∧ c ≠ ';') (ht : Trailer text) :
    content (left ++ text) = trim left := by
  have hkeep : ∀ blanks : List Char, Pad blanks → ∀ c ∈ left ++ blanks, (c ≠ '#' && c ≠ ';') = true := by
    intro blanks hb c hc
    rcases List.mem_append.1 hc with hc | hc
    · simpa using hl c hc
    · have hblank := hb.1 c hc
      simp only [ne_eq, Bool.and_eq_true, decide_eq_true_eq]
      constructor <;> rintro rfl <;> exact absurd hblank (by decide)
  cases ht with
  | blanks hb =>
    rw [content, List.takeWhile_eq_self_iff.2 (hkeep text hb), trim_append_right hb.1]
  | @comment blanks comment mark hb hm hc =>
    have hstop : (mark :: comment).takeWhile (fun c => c ≠ '#' && c ≠ ';') = [] := by
      rcases hm with rfl | rfl <;> rfl
    rw [content, ← List.append_assoc, List.takeWhile_append_of_pos (hkeep blanks hb), hstop, List.append_nil,
      trim_append_right hb.1]

/-- A line says what it was written for. -/
theorem readLine_of_line {d? : Option Directive} {line : List Char} (h : Line d? line) (hd : ∀ d ∈ d?, Tellable d) :
    readLine line = .ok d? := by
  cases h with
  | empty ht =>
    have hc : content ([] ++ line) = trim [] := content_append (by simp) ht
    rw [readLine, if_pos (show content line = [] from hc)]
  | @directive d left right text h ht =>
    obtain ⟨hleft, hright⟩ := h.onSide
    have hmarks : ∀ c ∈ left ++ '=' :: right, c ≠ '#' ∧ c ≠ ';' := by
      intro c hc
      rcases List.mem_append.1 hc with hc | hc
      · exact ⟨(hleft c hc).ne_mark.2.1, (hleft c hc).ne_mark.2.2.1⟩
      · rcases List.mem_cons.1 hc with rfl | hc
        · decide
        · exact ⟨(hright c hc).ne_mark.2.1, (hright c hc).ne_mark.2.2.1⟩
    obtain ⟨left', right', htrim, hl, hr, hsub⟩ := exists_trim_append_cons (show isBlank '=' = false by decide) left right
    have hcontent : content (left ++ '=' :: right ++ text) = left' ++ '=' :: right' :=
      (content_append hmarks ht).trans htrim
    have hcut : cutAt? '=' (left' ++ '=' :: right') = some (left', right') :=
      cutAt?_eq_some_iff.2 ⟨rfl, fun hmem => (hleft _ (hsub hmem)).ne_mark.2.2.2 rfl⟩
    rw [readLine, hcontent, if_neg (by simp), hcut]
    show (readSides (trim left') (trim right')).map some = _
    rw [hl, hr, readSides_of_sides h (hd d rfl)]
    rfl

end Chording.ChordFile
