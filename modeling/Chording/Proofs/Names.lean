import Chording.ChordFile.Line
import Chording.Proofs.Blanks

/-!
# Words and names

The words of a chord file are made of plain characters, which are neither blanks nor marks of any kind.  Whether a
character is plain does not depend on its case, and neither does what a name is read as (`ofName?_congr`).  How a key
is shown reads back as that key (`ofName?_display`), and so it does in any case and with blanks around it
(`ofName?_of_recased`).
-/

namespace Chording

/-! ### Plain characters -/

/-- The characters of names and numbers: the letters and digits of ASCII, the low line and the hyphen. -/
def isPlain (c : Char) : Bool := c.isAlphanum || c == '_' || c == '-'

variable {c : Char}

/-- What can be checked for each of the 128 characters of ASCII. -/
theorem forall_ascii (P : Char → Bool) (h : (List.range 128).all fun n => P (Char.ofNat n)) (hc : c.toNat < 128) :
    P c = true := by
  have hn := List.all_eq_true.1 h c.toNat (List.mem_range.2 hc)
  rwa [Char.ofNat_toNat] at hn

theorem lt_of_isPlain (h : isPlain c = true) : c.toNat < 128 := by
  delta isPlain Char.isAlphanum Char.isAlpha Char.isUpper Char.isLower Char.isDigit at h
  simp only [Bool.or_eq_true, Bool.and_eq_true, decide_eq_true_eq, beq_iff_eq, ge_iff_le, UInt32.le_iff_toNat_le] at h
  rcases h with ((((⟨-, h⟩ | ⟨-, h⟩) | ⟨-, h⟩)) | rfl) | rfl
  · exact Nat.lt_of_le_of_lt h (by decide)
  · exact Nat.lt_of_le_of_lt h (by decide)
  · exact Nat.lt_of_le_of_lt h (by decide)
  · decide
  · decide

private theorem toLower_of_le (h : 128 ≤ c.toNat) : c.toLower = c := by
  refine dif_neg fun hu => ?_
  have hle : c.toNat ≤ 90 := UInt32.le_iff_toNat_le.1 hu.2
  omega

theorem not_blank_of_isPlain (h : isPlain c = true) : isBlank c = false := by
  have hc := forall_ascii (fun c => !isPlain c || !isBlank c) (by decide +kernel) (lt_of_isPlain h)
  simpa [h] using hc

/-- What tells no letters apart by their case can be checked for ASCII as well. -/
private theorem apply_toLower {α : Type} [DecidableEq α] (f : Char → α)
    (h : (List.range 128).all fun n => f (Char.ofNat n).toLower = f (Char.ofNat n)) (c : Char) : f c.toLower = f c := by
  rcases Nat.lt_or_ge c.toNat 128 with hc | hc
  · exact of_decide_eq_true (forall_ascii (fun c => f c.toLower = f c) h hc)
  · rw [toLower_of_le hc]

/-- The case of a letter does not matter for what it is, as which digit it counts, and whether it is a sign. -/
private theorem classes_toLower (c : Char) : isPlain c.toLower = isPlain c ∧ isBlank c.toLower = isBlank c ∧
    Radix.hexadecimal.digit? c.toLower = Radix.hexadecimal.digit? c ∧ (c.toLower = '+' ↔ c = '+') := by
  have h := apply_toLower (fun c => (isPlain c, isBlank c, Radix.hexadecimal.digit? c, decide (c = '+')))
    (by decide +kernel) c
  simpa only [Prod.mk.injEq, decide_eq_decide] using h

theorem isPlain_toLower (c : Char) : isPlain c.toLower = isPlain c := (classes_toLower c).1

private theorem isBlank_toLower (c : Char) : isBlank c.toLower = isBlank c := (classes_toLower c).2.1

/-- Hexadecimal digits count in either case. -/
private theorem digit?_toLower (c : Char) : Radix.hexadecimal.digit? c.toLower = Radix.hexadecimal.digit? c :=
  (classes_toLower c).2.2.1

private theorem toLower_eq_plus_iff : c.toLower = '+' ↔ c = '+' := (classes_toLower c).2.2.2

/-- The two cases of a character. -/
private theorem eq_toLower_or_eq_toUpper (c : Char) : c = c.toLower ∨ c = c.toLower.toUpper := by
  rcases Nat.lt_or_ge c.toNat 128 with hc | hc
  · have hall := forall_ascii (fun c => c == c.toLower || c == c.toLower.toUpper) (by decide +kernel) hc
    simpa using hall
  · exact Or.inl (toLower_of_le hc).symm

/-- The digits of numbers are plain. -/
theorem isPlain_of_mem_write {r : Radix} {n : Nat} (h : c ∈ r.write n) : isPlain c = true := by
  obtain ⟨d, hd, rfl⟩ := Radix.mem_write h
  have hall : ∀ d ∈ List.range 16, isPlain (Radix.digitChar d) = true := by decide
  have hbase : r.base ≤ 16 := by cases r <;> decide
  exact hall d (List.mem_range.2 (Nat.lt_of_lt_of_le hd hbase))

/-! ### Texts in another case -/

variable {name word text : List Char}

theorem sameIgnoringCase_iff : sameIgnoringCase name word = true ↔ name.map Char.toLower = word.map Char.toLower :=
  beq_iff_eq

/-- A text is as plain in one case as in another. -/
theorem isPlain_of_sameIgnoringCase (h : sameIgnoringCase name word = true) (hn : ∀ c ∈ name, isPlain c = true) :
    ∀ c ∈ word, isPlain c = true := by
  intro c hc
  have hmem : c.toLower ∈ name.map Char.toLower := by
    rw [sameIgnoringCase_iff.1 h]
    exact List.mem_map_of_mem hc
  obtain ⟨c', hc', heq⟩ := List.mem_map.1 hmem
  rw [← isPlain_toLower c, ← heq, isPlain_toLower]
  exact hn c' hc'

theorem ne_nil_of_sameIgnoringCase (h : sameIgnoringCase name word = true) (hn : name ≠ []) : word ≠ [] := by
  intro hw
  have hlen := congrArg List.length (sameIgnoringCase_iff.1 h)
  rw [List.length_map, List.length_map, hw] at hlen
  exact hn (List.eq_nil_of_length_eq_zero hlen)

private theorem sameIgnoringCase_congr (h : sameIgnoringCase name word = true) (other : List Char) :
    sameIgnoringCase other word = sameIgnoringCase other name := by
  rw [sameIgnoringCase, sameIgnoringCase, sameIgnoringCase_iff.1 h]

private theorem trim_map_toLower (text : List Char) : trim (text.map Char.toLower) = (trim text).map Char.toLower := by
  have hblank : isBlank ∘ Char.toLower = isBlank := funext isBlank_toLower
  rw [trim, List.dropWhile_map, hblank, ← List.map_reverse, List.dropWhile_map, hblank, ← List.map_reverse]
  rfl

private theorem sameIgnoringCase_trim (h : sameIgnoringCase name word = true) :
    sameIgnoringCase (trim name) (trim word) = true := by
  rw [sameIgnoringCase_iff] at h ⊢
  rw [← trim_map_toLower, h, trim_map_toLower]

private theorem readFrom_map_toLower (largest n : Nat) (text : List Char) :
    Radix.hexadecimal.readFrom largest n (text.map Char.toLower) = Radix.hexadecimal.readFrom largest n text := by
  induction text generalizing n with
  | nil => rfl
  | cons c text ih =>
    rw [List.map_cons, Radix.readFrom, Radix.readFrom, digit?_toLower]
    simp only [ih]

private theorem read_map_toLower (largest : Nat) (text : List Char) :
    Radix.hexadecimal.read largest (text.map Char.toLower) = Radix.hexadecimal.read largest text := by
  cases text with
  | nil => rfl
  | cons c cs =>
    have hread := readFrom_map_toLower largest 0 (c :: cs)
    rw [List.map_cons] at hread ⊢
    simp only [Radix.read_cons, toLower_eq_plus_iff, List.map_eq_nil_iff, hread, readFrom_map_toLower]

theorem read_of_not_mem {r : Radix} {largest : Nat} (hne : text ≠ []) (h : '+' ∉ text) :
    r.read largest text = r.readFrom largest 0 text := by
  cases text with
  | nil => exact absurd rfl hne
  | cons c cs =>
    have hc : c ≠ '+' := fun e => h (e ▸ List.mem_cons_self)
    rw [Radix.read_cons, if_neg hc]

/-- Zeros in front change nothing. -/
private theorem readFrom_replicate (r : Radix) (largest k : Nat) (text : List Char) :
    r.readFrom largest 0 (List.replicate k '0' ++ text) = r.readFrom largest 0 text := by
  induction k with
  | zero => rfl
  | succ k ih =>
    have hzero : r.digit? '0' = some 0 := by cases r <;> decide
    rw [List.replicate_succ, List.cons_append, Radix.readFrom, hzero]
    simpa using ih

/-! ### Key names -/

variable {key : KeyCode}

/-- A word that starts like a hexadecimal number. -/
def IsMarked (word : List Char) : Prop := (word.map Char.toLower).take 2 = ['0', 'x']

instance (word : List Char) : Decidable (IsMarked word) :=
  inferInstanceAs (Decidable ((word.map Char.toLower).take 2 = ['0', 'x']))

private theorem isMarked_congr (h : sameIgnoringCase name word = true) : IsMarked name ↔ IsMarked word := by
  unfold IsMarked
  rw [sameIgnoringCase_iff.1 h]

theorem isMarked_iff :
    IsMarked word ↔ ∃ letter digits, word = '0' :: letter :: digits ∧ (letter = 'x' ∨ letter = 'X') := by
  constructor
  · intro h
    match word, h with
    | [], h => cases h
    | [_], h => exact absurd (List.cons.inj h).2 (by simp)
    | first :: letter :: digits, h =>
      obtain ⟨hfirst, h⟩ := List.cons.inj h
      have hzero := eq_toLower_or_eq_toUpper first
      have hx := eq_toLower_or_eq_toUpper letter
      rw [hfirst] at hzero
      rw [(List.cons.inj h).1] at hx
      obtain rfl : first = '0' := or_self_iff.1 hzero
      exact ⟨letter, digits, rfl, hx⟩
  · rintro ⟨letter, digits, rfl, rfl | rfl⟩ <;> rfl

/-- A name has characters and only plain ones, does not start like a hexadecimal number, and is looked up under its
own key: no two keys share a name. -/
theorem of_mem_keyNames : ∀ entry ∈ keyNames, entry.2.toList ≠ [] ∧ entry.2.toList.all isPlain = true ∧
    ¬IsMarked entry.2.toList ∧ KeyCode.ofListedName? entry.2.toList = some entry.1 := by
  decide +kernel

private theorem name?_eq_some {s : String} (h : key.name? = some s) : (key, s) ∈ keyNames := by
  obtain ⟨entry, hfind, rfl⟩ := Option.map_eq_some_iff.1 h
  have hkey : entry.1 = key := by simpa using List.find?_some hfind
  exact hkey ▸ List.mem_of_find?_eq_some hfind

private theorem isPlain_of_mem_literal (h : c ∈ key.literal) : isPlain c = true := by
  simp only [KeyCode.literal, List.mem_cons, List.mem_append] at h
  rcases h with rfl | rfl | h | h
  · decide
  · decide
  · rw [List.eq_of_mem_replicate h]
    decide
  · exact isPlain_of_mem_write h

/-- Keys are shown by plain characters. -/
theorem isPlain_of_mem_display (h : c ∈ key.display.toList) : isPlain c = true := by
  cases hn : key.name? with
  | some s =>
    simp only [KeyCode.display, hn] at h
    obtain ⟨-, hplain, -, -⟩ := of_mem_keyNames (key, s) (name?_eq_some hn)
    exact List.all_eq_true.1 hplain c h
  | none =>
    simp only [KeyCode.display, hn, String.toList_ofList] at h
    exact isPlain_of_mem_literal h

theorem display_ne_nil (key : KeyCode) : key.display.toList ≠ [] := by
  cases hn : key.name? with
  | some s =>
    simp only [KeyCode.display, hn]
    exact (of_mem_keyNames (key, s) (name?_eq_some hn)).1
  | none => simp [KeyCode.display, hn, KeyCode.literal]

theorem ofName?_eq_ite (text : List Char) : KeyCode.ofName? text =
    if IsMarked (trim text) then KeyCode.ofDigits? ((trim text).drop 2) else KeyCode.ofListedName? (trim text) := by
  rw [KeyCode.ofName?]
  split
  · rename_i digits h
    rw [if_pos (isMarked_iff.2 ⟨_, digits, h, Or.inl rfl⟩), h]
    rfl
  · rename_i digits h
    rw [if_pos (isMarked_iff.2 ⟨_, digits, h, Or.inr rfl⟩), h]
    rfl
  · rename_i hlower hupper
    rw [if_neg]
    rintro hmarked
    obtain ⟨letter, digits, h, rfl | rfl⟩ := isMarked_iff.1 hmarked
    · exact hlower digits h
    · exact hupper digits h

theorem ofName?_trim (text : List Char) : KeyCode.ofName? (trim text) = KeyCode.ofName? text := by
  rw [ofName?_eq_ite, ofName?_eq_ite, trim_trim]

private theorem ofDigits?_congr (h : sameIgnoringCase name word = true) :
    KeyCode.ofDigits? name = KeyCode.ofDigits? word := by
  rw [KeyCode.ofDigits?, KeyCode.ofDigits?, ← read_map_toLower, sameIgnoringCase_iff.1 h, read_map_toLower]

theorem ofListedName?_congr (h : sameIgnoringCase name word = true) :
    KeyCode.ofListedName? name = KeyCode.ofListedName? word := by
  simp only [KeyCode.ofListedName?, sameIgnoringCase_congr h]

/-- Keys are read without regard to case. -/
theorem ofName?_congr (h : sameIgnoringCase name word = true) : KeyCode.ofName? name = KeyCode.ofName? word := by
  have htrim := sameIgnoringCase_trim h
  have hdigits : sameIgnoringCase ((trim name).drop 2) ((trim word).drop 2) = true := by
    rw [sameIgnoringCase_iff] at htrim ⊢
    rw [List.map_drop, htrim, List.map_drop]
  simp only [ofName?_eq_ite, isMarked_congr htrim, ofDigits?_congr hdigits, ofListedName?_congr htrim]

/-- The digits of a key without a name. -/
private theorem ofDigits?_literal (key : KeyCode) : KeyCode.ofDigits? (key.literal.drop 2) = some key := by
  have hplus : '+' ∉ key.literal.drop 2 := fun hmem =>
    absurd (isPlain_of_mem_literal (List.mem_of_mem_drop hmem)) (by decide)
  have hne : key.literal.drop 2 ≠ [] := by
    simp only [KeyCode.literal, List.drop_succ_cons, List.drop_zero]
    exact List.append_ne_nil_of_right_ne_nil _ (Radix.write_ne_nil _ _)
  have hle : key.usage.toNat ≤ 0xFFFF := Nat.le_of_lt_succ key.usage.toNat_lt
  have hread : Radix.hexadecimal.read 0xFFFF (key.literal.drop 2) = .ok key.usage.toNat := by
    calc Radix.hexadecimal.read 0xFFFF (key.literal.drop 2)
        = Radix.hexadecimal.readFrom 0xFFFF 0 (key.literal.drop 2) := read_of_not_mem hne hplus
      _ = Radix.hexadecimal.readFrom 0xFFFF 0 (Radix.hexadecimal.write key.usage.toNat) := readFrom_replicate _ _ _ _
      _ = .ok key.usage.toNat := by
        have hwrite := Radix.readFrom_write_append .hexadecimal hle []
        rwa [List.append_nil] at hwrite
  rw [KeyCode.ofDigits?, hread]
  simp

/-- How a key is shown reads back as the key. -/
theorem ofName?_display (key : KeyCode) : KeyCode.ofName? key.display.toList = some key := by
  have htrim : trim key.display.toList = key.display.toList :=
    trim_of_forall_not_blank fun c hc => not_blank_of_isPlain (isPlain_of_mem_display hc)
  rw [ofName?_eq_ite, htrim]
  cases hn : key.name? with
  | some s =>
    have hdisplay : key.display = s := by rw [KeyCode.display, hn]
    obtain ⟨-, -, hnot, howned⟩ := of_mem_keyNames (key, s) (name?_eq_some hn)
    rw [hdisplay, if_neg hnot, howned]
  | none =>
    have hdisplay : key.display.toList = key.literal := by rw [KeyCode.display, hn, String.toList_ofList]
    have hmarked : IsMarked key.literal := isMarked_iff.2 ⟨_, _, rfl, Or.inl rfl⟩
    rw [hdisplay, if_pos hmarked, ofDigits?_literal]

/-- How a key is shown reads back as the key, in any case and with blanks around it. -/
theorem ofName?_of_recased (h : sameIgnoringCase key.display.toList (trim text) = true) :
    KeyCode.ofName? text = some key := by
  rw [← ofName?_trim, ← ofName?_congr h, ofName?_display]

end Chording
