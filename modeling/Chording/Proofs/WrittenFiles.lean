import Chording.ChordFile.Parse
import Chording.Proofs.WrittenLines

/-!
# Chord files that are written

A configuration is written as a chord file by one line for each setting and each chord; the chords stand in their order,
and the settings anywhere among them (`Config.WrittenAs`).  Every such file of a configuration that can be used reads
back as that configuration, and there is one (`written_reads_back`).
-/

namespace Chording

namespace ChordFile

namespace Directive

def timeout? : Directive → Option UInt64
  | timeout millis => some millis
  | _ => none

def capacity? : Directive → Option UInt64
  | capacity count => some count
  | _ => none

def overflow? : Directive → Option OverflowPolicy
  | overflow policy => some policy
  | _ => none

def disabledLayers? : Directive → Option LayerSet
  | disabledLayers layers => some layers
  | _ => none

def chord? : Directive → Option ChordDef
  | chord d => some d
  | _ => none

/-- What stands to the left of the equals sign, without blanks at its ends. -/
def left : Directive → List Char
  | timeout _ => Setting.timeout.name.toList
  | capacity _ => Setting.capacity.name.toList
  | overflow _ => Setting.overflow.name.toList
  | disabledLayers _ => Setting.disabledLayers.name.toList
  | chord d => [' ', '+', ' '].intercalate (d.keys.map fun key => key.display.toList)

def right : Directive → List Char
  | timeout millis => Radix.decimal.write millis.toNat
  | capacity count => Radix.decimal.write count.toNat
  | overflow policy => policy.name.toList
  | disabledLayers layers => [',', ' '].intercalate (layers.toList.map fun layer => Radix.decimal.write layer.toNat)
  | chord d => d.action.display.toList

/-- The plainest line for a directive. -/
def write (d : Directive) : List Char := d.left ++ [' ', '=', ' '] ++ d.right

end Directive

/-- The configuration that directives give: all their chords in order, and of each setting the last value.  A setting
without one is that of the default configuration. -/
def configOf (ds : List Directive) : Config :=
  let unset : Config := {}
  { chords := ds.filterMap Directive.chord?
    timeout := (ds.filterMap Directive.timeout?).getLast?.getD unset.timeout
    capacity := (ds.filterMap Directive.capacity?).getLast?.getD unset.capacity
    disabledLayers := (ds.filterMap Directive.disabledLayers?).getLast?.getD unset.disabledLayers
    overflow := (ds.filterMap Directive.overflow?).getLast?.getD unset.overflow }

/-- Lines with their ends, of which the last may be missing. -/
inductive Lines : List Directive → List Char → Prop
  | nil : Lines [] []
  | last {d? : Option Directive} {line : List Char} (h : Line d? line) : Lines d?.toList line
  | cons {d? : Option Directive} {ds : List Directive} {line ending text : List Char} (h : Line d? line)
      (he : ending = ['\n'] ∨ ending = ['\r', '\n']) (ht : Lines ds text) :
      Lines (d?.toList ++ ds) (line ++ ending ++ text)

end ChordFile

open ChordFile

attribute [ext] Config

/-- What a chord file has to say of a configuration. -/
def Config.directives (c : Config) : List Directive :=
  [.timeout c.timeout, .capacity c.capacity, .overflow c.overflow, .disabledLayers c.disabledLayers] ++
    c.chords.map .chord

/-- The text says all of the configuration, each setting once and the chords in their order. -/
def Config.WrittenAs (c : Config) (text : List Char) : Prop :=
  ∃ ds : List Directive, ds.Perm c.directives ∧ ds.filterMap Directive.chord? = c.chords ∧ Lines ds text

/-- The plainest way to write a configuration. -/
def Config.write (c : Config) : List Char := c.directives.flatMap fun d => d.write ++ ['\n']

namespace ChordFile

variable {c : Config} {ds : List Directive} {line text : List Char}

/-! ### From lines to directives -/

private theorem Trailer.not_mem (h : Trailer text) : '\n' ∉ text := by
  cases h with
  | blanks hb => exact hb.2
  | comment hb hm hc =>
    rw [List.mem_append, List.mem_cons, not_or, not_or]
    refine ⟨hb.2, ?_, hc⟩
    rcases hm with rfl | rfl <;> decide

private theorem Line.not_mem {d? : Option Directive} (h : Line d? line) : '\n' ∉ line := by
  cases h with
  | empty ht => exact ht.not_mem
  | directive h ht =>
    obtain ⟨hl, hr⟩ := h.onSide
    rw [List.mem_append, List.mem_append, List.mem_cons]
    rintro ((hmem | hmem | hmem) | hmem)
    · exact (hl _ hmem).ne_mark.1 rfl
    · exact absurd hmem (by decide)
    · exact (hr _ hmem).ne_mark.1 rfl
    · exact ht.not_mem hmem

private theorem Line.ne_nil {d : Directive} (h : Line (some d) line) : line ≠ [] := by
  cases h with
  | directive h ht => simp

/-- A carriage return at the end is a blank, or part of the comment. -/
private theorem Trailer.concat_return (h : Trailer text) : Trailer (text ++ ['\r']) := by
  cases h with
  | blanks hb =>
    refine .blanks ⟨?_, by simpa using hb.2⟩
    intro c hc
    rcases List.mem_append.1 hc with hc | hc
    · exact hb.1 c hc
    · rw [List.mem_singleton.1 hc]
      decide
  | comment hb hm hc =>
    rw [List.append_assoc]
    exact .comment hb hm (by simpa using hc)

private theorem Line.concat_return {d? : Option Directive} (h : Line d? line) : Line d? (line ++ ['\r']) := by
  cases h with
  | empty ht => exact .empty ht.concat_return
  | directive h ht =>
    rw [List.append_assoc]
    exact .directive h ht.concat_return

private theorem lines_append (h : '\n' ∉ line) (text : List Char) :
    lines (line ++ '\n' :: text) = line :: lines text := by
  induction line with
  | nil => rw [List.nil_append, lines, if_pos rfl]
  | cons c line ih =>
    have hc : c ≠ '\n' := fun e => h (e ▸ List.mem_cons_self)
    rw [List.cons_append, lines, if_neg hc, ih fun hmem => h (List.mem_cons_of_mem _ hmem)]

private theorem lines_of_not_mem (h : '\n' ∉ line) (hne : line ≠ []) : lines line = [line] := by
  induction line with
  | nil => exact absurd rfl hne
  | cons c line ih =>
    have hc : c ≠ '\n' := fun e => h (e ▸ List.mem_cons_self)
    rw [lines, if_neg hc]
    cases line with
    | nil => rfl
    | cons c' line => rw [ih (fun hmem => h (List.mem_cons_of_mem _ hmem)) (List.cons_ne_nil _ _)]

private theorem readLines_cons_of_line {d? : Option Directive} (h : Line d? line) (hd : ∀ d ∈ d?, Tellable d)
    (number : Nat) (c : Config) (rest : List (List Char)) :
    readLines number c (line :: rest) = readLines (number + 1) (d?.toList.foldl Directive.apply c) rest := by
  rw [readLines, readLine_of_line h hd]
  cases d? <;> rfl

/-- Reading lines puts their directives into effect, one after another. -/
private theorem readLines_of_lines (h : Lines ds text) (hd : ∀ d ∈ ds, Tellable d) (number : Nat) (c : Config) :
    readLines number c (lines text) = .ok (ds.foldl Directive.apply c) := by
  induction h generalizing number c with
  | nil => rfl
  | @last d? line h =>
    have hd' : ∀ d ∈ d?, Tellable d := fun d hmem => hd d (Option.mem_toList.2 hmem)
    cases hl : line with
    | nil =>
      cases d? with
      | none => rfl
      | some d => exact absurd hl h.ne_nil
    | cons x xs =>
      rw [← hl, lines_of_not_mem h.not_mem (hl ▸ List.cons_ne_nil x xs), readLines_cons_of_line h hd']
      rfl
  | @cons d? ds line ending text h he ht ih =>
    obtain ⟨hd', hds⟩ := List.forall_mem_append.1 hd
    have hline : ∃ line', Line d? line' ∧ line ++ ending ++ text = line' ++ '\n' :: text := by
      rcases he with rfl | rfl
      · exact ⟨line, h, by simp⟩
      · exact ⟨line ++ ['\r'], h.concat_return, by simp⟩
    obtain ⟨line', h', heq⟩ := hline
    rw [heq, lines_append h'.not_mem, readLines_cons_of_line h' fun d hmem => hd' d (Option.mem_toList.2 hmem),
      ih hds, List.foldl_append]

/-! ### From directives to the configuration -/

/-- A field has the last value that it was given. -/
private theorem field_foldl_apply {α : Type} {field : Config → α} {value? : Directive → Option α}
    (h : ∀ c d, field (Directive.apply c d) = (value? d).getD (field c)) (ds : List Directive) (c : Config) :
    field (ds.foldl Directive.apply c) = (ds.filterMap value?).getLast?.getD (field c) := by
  induction ds generalizing c with
  | nil => rfl
  | cons d ds ih =>
    rw [List.foldl_cons, ih, h]
    cases hv : value? d with
    | none => rw [List.filterMap_cons_none hv, Option.getD_none]
    | some v => rw [List.filterMap_cons_some hv, List.getLast?_cons, Option.getD_some, Option.getD_some]

private theorem chords_foldl_apply (ds : List Directive) (c : Config) :
    (ds.foldl Directive.apply c).chords = c.chords ++ ds.filterMap Directive.chord? := by
  induction ds generalizing c with
  | nil => simp
  | cons d ds ih =>
    rw [List.foldl_cons, ih]
    cases d <;> simp [Directive.apply, Directive.chord?, List.filterMap_cons]

theorem foldl_apply_eq (ds : List Directive) : ds.foldl Directive.apply {} = configOf ds := by
  have htimeout := @field_foldl_apply _ Config.timeout Directive.timeout? (by rintro c (_ | _ | _ | _ | _) <;> rfl)
  have hcapacity := @field_foldl_apply _ Config.capacity Directive.capacity? (by rintro c (_ | _ | _ | _ | _) <;> rfl)
  have hlayers := @field_foldl_apply _ Config.disabledLayers Directive.disabledLayers?
    (by rintro c (_ | _ | _ | _ | _) <;> rfl)
  have hoverflow := @field_foldl_apply _ Config.overflow Directive.overflow? (by rintro c (_ | _ | _ | _ | _) <;> rfl)
  exact Config.ext (chords_foldl_apply ds {}) (htimeout ds {}) (hcapacity ds {}) (hlayers ds {}) (hoverflow ds {})

/-- A value that no chord gives, and one setting does, is the only one, wherever the setting stands. -/
private theorem getLast?_of_perm {α : Type} (value? : Directive → Option α) (hchord : ∀ d, value? (.chord d) = none)
    {value : α} (hset : [Directive.timeout c.timeout, .capacity c.capacity, .overflow c.overflow,
      .disabledLayers c.disabledLayers].filterMap value? = [value])
    (hp : ds.Perm c.directives) : (ds.filterMap value?).getLast? = some value := by
  have hchords : (c.chords.map Directive.chord).filterMap value? = [] := by
    rw [List.filterMap_map]
    exact List.filterMap_eq_nil_iff.2 fun d _ => hchord d
  have hall : c.directives.filterMap value? = [value] := by
    rw [Config.directives, List.filterMap_append, hset, hchords, List.append_nil]
  have hds : ds.filterMap value? = [value] := List.perm_singleton.1 (hall ▸ hp.filterMap value?)
  rw [hds]
  rfl

private theorem foldl_apply_directives (hp : ds.Perm c.directives) (hc : ds.filterMap Directive.chord? = c.chords) :
    ds.foldl Directive.apply {} = c := by
  have htimeout := getLast?_of_perm Directive.timeout? (fun _ => rfl) rfl hp
  have hcapacity := getLast?_of_perm Directive.capacity? (fun _ => rfl) rfl hp
  have hlayers := getLast?_of_perm Directive.disabledLayers? (fun _ => rfl) rfl hp
  have hoverflow := getLast?_of_perm Directive.overflow? (fun _ => rfl) rfl hp
  rw [foldl_apply_eq, configOf, hc, htimeout, hcapacity, hlayers, hoverflow]
  rfl

/-! ### Files -/

/-- The chords of a configuration that can be used have two keys or more. -/
private theorem tellable_of_validate {t : ChordTable} (h : c.validate = .ok t) : ∀ d ∈ c.directives, Tellable d := by
  obtain ⟨-, hdefs⟩ := Config.validate_eq_ok_iff.1 h
  intro d hd
  rw [Config.directives, List.mem_append] at hd
  rcases hd with hd | hd
  · simp only [List.mem_cons, List.not_mem_nil, or_false] at hd
    rcases hd with rfl | rfl | rfl | rfl <;> trivial
  · obtain ⟨d, hmem, rfl⟩ := List.mem_map.1 hd
    rw [← ChordTable.map_toDef_of_ofDefs hdefs] at hmem
    obtain ⟨chord, -, rfl⟩ := List.mem_map.1 hmem
    exact chord.min_le_length

private theorem parse_of_writtenAs {t : ChordTable} (h : c.validate = .ok t) (hw : c.WrittenAs text) :
    parse text = .ok c := by
  obtain ⟨ds, hp, hc, hlines⟩ := hw
  have hd : ∀ d ∈ ds, Tellable d := fun d hmem => tellable_of_validate h d (hp.mem_iff.1 hmem)
  rw [parse, readLines_of_lines hlines hd, foldl_apply_directives hp hc]
  show checked c = .ok c
  rw [checked, h]

/-! ### One way of writing -/

private theorem pad_nil : Pad [] := ⟨fun _ hc => absurd hc List.not_mem_nil, List.not_mem_nil⟩

private theorem pad_space : Pad [' '] := by
  refine ⟨?_, by decide⟩
  simp only [AllBlank, List.forall_mem_singleton]
  decide

/-- Parts that may have blanks around them are written with blanks around their marks. -/
private theorem listed_intercalate {α : Type} {mark : Char} {Writes : α → List Char → Prop} {word : α → List Char}
    (hw : ∀ part before behind, Pad before → Pad behind → Writes part (before ++ word part ++ behind))
    {before behind : List Char} (hb : Pad before) (hb' : Pad behind) {parts : List α} (hne : parts ≠ [])
    {front back : List Char} (hfront : Pad front) (hback : Pad back) :
    Listed mark Writes parts (front ++ (before ++ mark :: behind).intercalate (parts.map word) ++ back) := by
  induction parts generalizing front with
  | nil => exact absurd rfl hne
  | cons part parts ih =>
    cases parts with
    | nil => exact ⟨[front ++ word part ++ back], .cons (hw part front back hfront hback) .nil, by simp⟩
    | cons part' parts =>
      obtain ⟨items, hitems, heq⟩ := ih (List.cons_ne_nil _ _) hb'
      refine ⟨(front ++ word part ++ before) :: items, .cons (hw part front before hfront hb) hitems, ?_⟩
      cases hitems with
      | cons hitem hitems =>
        rw [List.intercalate_cons_cons, ← heq]
        simp [List.intercalate_cons_cons]

private theorem sides_write {d : Directive} (hd : Tellable d) : Sides d (d.left ++ [' ']) (' ' :: d.right) := by
  have hname : ∀ name : String, Named name (name.toList ++ [' ']) := fun name =>
    ⟨name.toList, sameIgnoringCase_iff.2 rfl, [], [' '], pad_nil, pad_space, rfl⟩
  have hpad : ∀ word : List Char, Padded word (' ' :: word) := fun word =>
    ⟨[' '], [], pad_space, pad_nil, by simp⟩
  cases d with
  | timeout millis => exact .timeout (hname _) (hpad _)
  | capacity count => exact .capacity (hname _) (hpad _)
  | overflow policy => exact .overflow (hname _) (hpad _)
  | disabledLayers layers =>
    refine .disabledLayers (hname _) (fun layer => LayerSet.mem_toList) ?_ (hpad _)
    rw [Directive.right]
    cases hl : layers.toList with
    | nil => exact ⟨[], .nil, rfl⟩
    | cons first others =>
      have hlist : Listed ',' (fun layer : UInt8 => Padded (Radix.decimal.write layer.toNat)) (first :: others)
          ([] ++ ([] ++ ',' :: [' ']).intercalate ((first :: others).map fun layer : UInt8 =>
            Radix.decimal.write layer.toNat) ++ []) :=
        listed_intercalate (fun _ before behind hb hb' => ⟨before, behind, hb, hb', rfl⟩) pad_nil pad_space
          (List.cons_ne_nil _ _) pad_nil pad_nil
      simpa using hlist
  | chord d =>
    have hne : d.keys ≠ [] := List.ne_nil_of_length_pos (Nat.lt_of_lt_of_le Nat.zero_lt_two hd)
    have hlist : Listed '+' (fun key : KeyCode => Named key.display) d.keys
        ([] ++ ([' '] ++ '+' :: [' ']).intercalate (d.keys.map fun key => key.display.toList) ++ [' ']) :=
      listed_intercalate (fun key before behind hb hb' =>
        ⟨key.display.toList, sameIgnoringCase_iff.2 rfl, before, behind, hb, hb', rfl⟩) pad_space pad_space hne pad_nil
        pad_space
    refine .chord ?_ ⟨d.action.display.toList, sameIgnoringCase_iff.2 rfl, hpad _⟩
    simpa [Directive.left] using hlist

private theorem lines_write {ds : List Directive} (hd : ∀ d ∈ ds, Tellable d) :
    Lines ds (ds.flatMap fun d => d.write ++ ['\n']) := by
  induction ds with
  | nil => exact .nil
  | cons d ds ih =>
    obtain ⟨hd, hds⟩ := List.forall_mem_cons.1 hd
    have hline : Line (some d) d.write := by
      have h := Line.directive (sides_write hd) (.blanks pad_nil)
      simpa [Directive.write] using h
    exact .cons hline (Or.inl rfl) (ih hds)

private theorem writtenAs_write {t : ChordTable} (h : c.validate = .ok t) : c.WrittenAs c.write := by
  refine ⟨c.directives, .refl _, ?_, lines_write (tellable_of_validate h)⟩
  have hchords : (c.chords.map Directive.chord).filterMap Directive.chord? = c.chords := by
    rw [List.filterMap_map]
    exact List.filterMap_some
  rw [Config.directives, List.filterMap_append, hchords]
  rfl

/-- A configuration that can be used is written as a chord file, and however it is written, it reads back. -/
theorem written_reads_back {t : ChordTable} (h : c.validate = .ok t) :
    c.WrittenAs c.write ∧ ∀ text, c.WrittenAs text → parse text = .ok c :=
  ⟨writtenAs_write h, fun _ => parse_of_writtenAs h⟩

/-- Two chords, one of them with a key that has no name. -/
def twoChords : Config where
  chords := [⟨[⟨0x09⟩, ⟨0x15⟩], ⟨0x2B⟩⟩, ⟨[⟨0x04⟩, ⟨0xAB⟩], ⟨0x1A⟩⟩]
  timeout := 24
  disabledLayers := ⟨0b1010⟩
  overflow := .dropNewest

theorem written_reads_back_twoChords :
    ∃ t, twoChords.validate = .ok t ∧
      twoChords.write = ("timeout = 24\nqueue = 10\noverflow = drop-newest\ndisable_layers = 1, 3\n" ++
        "F + R = Tab\nA + 0xAB = W\n").toList ∧
      parse twoChords.write = .ok twoChords := by
  obtain ⟨hwritten, hread⟩ := written_reads_back (c := twoChords) rfl
  exact ⟨_, rfl, by decide +kernel, hread _ hwritten⟩

example : parse ("f+r=TAB;\r\n TimeOut =\t24 # short\na + 0Xab =w\nOVERFLOW=drop-newest\n\n" ++
    "disable_layers=3 ,1\r\nqueue=10").toList = .ok twoChords := by
  decide +kernel

end ChordFile

end Chording
