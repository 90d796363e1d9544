import Chording.Proofs.Names
import Mathlib.Data.Nat.Digits.Defs

/-!
# Words that are read as keys

A numeral has the value of its digits, whatever their number and case (`Radix.value`), and is read as this value unless
it is too large (`read_eq_ok_iff`).  So the words that are read as a key are the hexadecimal numerals of its code,
behind their mark and with a plus sign or without, and its names in any case (`KeyCode.Spells`).  Just these words are
read as the key, with any blanks around them (`ofName?_reads_words`).
-/

namespace Chording

/-! ### The value of a numeral -/

/-- The value of a digit is its place among all digits, in either case.  Characters that are no digits have the
value 16. -/
def digitValue (c : Char) : Nat := "0123456789abcdef".toList.idxOf c.toLower

private theorem isPlain_of_digitValue {c : Char} (h : digitValue c < 16) : isPlain c = true := by
  have hall : "0123456789abcdef".toList.all isPlain = true := by decide
  rw [← isPlain_toLower]
  exact List.all_eq_true.1 hall _ (List.idxOf_lt_length_iff.1 h)

namespace Radix

/-- The value of a numeral, whose most significant digit comes first. -/
def value (r : Radix) (digits : List Char) : Nat := Nat.ofDigits r.base (digits.reverse.map digitValue)

/-- The text consists of digits, and has at least one. -/
def IsNumeral (r : Radix) (digits : List Char) : Prop := digits ≠ [] ∧ ∀ c ∈ digits, digitValue c < r.base

variable {r : Radix} {c : Char} {largest n m : Nat} {text : List Char}

private theorem digit?_of_le (h : 128 ≤ c.toNat) : r.digit? c = none := by
  have hnot : ∀ d : Char, d.toNat < 128 → ¬c ≤ d := fun d hd hcd =>
    absurd (UInt32.le_iff_toNat_le.1 hcd) (Nat.not_le.2 (Nat.lt_of_lt_of_le hd h))
  simp [digit?, hnot '9' (by decide), hnot 'F' (by decide), hnot 'f' (by decide)]

private theorem digit?_eq (r : Radix) (c : Char) :
    r.digit? c = if digitValue c < r.base then some (digitValue c) else none := by
  rcases Nat.lt_or_ge c.toNat 128 with hc | hc
  · have hall := forall_ascii (fun c => [decimal, hexadecimal].all fun r =>
      r.digit? c = if digitValue c < r.base then some (digitValue c) else none) (by decide +kernel) hc
    exact of_decide_eq_true (List.all_eq_true.1 hall r (by cases r <;> decide))
  · have hbase : r.base ≤ 16 := by cases r <;> decide
    have hnot : ¬digitValue c < r.base := fun h =>
      Nat.not_le.2 (lt_of_isPlain (isPlain_of_digitValue (Nat.lt_of_lt_of_le h hbase))) hc
    rw [digit?_of_le hc, if_neg hnot]

private theorem value_cons (r : Radix) (c : Char) (text : List Char) :
    r.value (c :: text) = digitValue c * r.base ^ text.length + r.value text := by
  rw [value, List.reverse_cons, List.map_append, Nat.ofDigits_append]
  simp [value, Nat.mul_comm, Nat.add_comm]

/-- What is read behind a number is the number of all digits, which is not smaller than that of the digits so far. -/
private theorem readFrom_eq_ok_iff (h : n ≤ largest) :
    r.readFrom largest n text = .ok m ↔
      (∀ c ∈ text, digitValue c < r.base) ∧ n * r.base ^ text.length + r.value text = m ∧ m ≤ largest := by
  induction text generalizing n with
  | nil =>
    have hvalue : n * r.base ^ ([] : List Char).length + r.value [] = n := by simp [value]
    rw [hvalue, readFrom, Except.ok.injEq]
    exact ⟨fun heq => ⟨fun c hc => absurd hc List.not_mem_nil, heq, heq ▸ h⟩, fun hall => hall.2.1⟩
  | cons c text ih =>
    have hvalue : n * r.base ^ (c :: text).length + r.value (c :: text) =
        (n * r.base + digitValue c) * r.base ^ text.length + r.value text := by
      rw [value_cons, List.length_cons, Nat.pow_succ', Nat.add_mul, Nat.mul_assoc, Nat.add_assoc]
    rw [hvalue, readFrom, digit?_eq, List.forall_mem_cons]
    by_cases hd : digitValue c < r.base
    · simp only [if_pos hd]
      split
      · rename_i hle
        rw [ih hle, and_iff_right hd]
      · rename_i hlarge
        refine iff_of_false (by simp) fun hall => hlarge ?_
        obtain ⟨-, hm, hmle⟩ := hall
        have hpow : 0 < r.base ^ text.length := Nat.pow_pos (Nat.lt_of_lt_of_le Nat.zero_lt_two r.two_le_base)
        calc n * r.base + digitValue c
            ≤ (n * r.base + digitValue c) * r.base ^ text.length := Nat.le_mul_of_pos_right _ hpow
          _ ≤ m := hm ▸ Nat.le_add_right _ _
          _ ≤ largest := hmle
    · simp only [if_neg hd]
      exact iff_of_false (by simp) fun h => hd h.1.1

private theorem readFrom_zero_eq_ok_iff :
    r.readFrom largest 0 text = .ok m ↔ (∀ c ∈ text, digitValue c < r.base) ∧ r.value text = m ∧ m ≤ largest := by
  rw [readFrom_eq_ok_iff (Nat.zero_le _), Nat.zero_mul, Nat.zero_add]

/-- Just the numerals are read, with a plus sign before them or without, and as their value. -/
theorem read_eq_ok_iff :
    r.read largest text = .ok m ↔
      ∃ sign digits, text = sign ++ digits ∧ (sign = [] ∨ sign = ['+']) ∧ r.IsNumeral digits ∧ r.value digits = m ∧
        m ≤ largest := by
  constructor
  · intro h
    cases text with
    | nil => cases h
    | cons c cs =>
      rw [read_cons] at h
      split at h
      · rename_i hc
        split at h
        · cases h
        · rename_i hne
          obtain ⟨hd, hm⟩ := readFrom_zero_eq_ok_iff.1 h
          exact ⟨['+'], cs, congrArg (· :: cs) hc, Or.inr rfl, ⟨hne, hd⟩, hm⟩
      · obtain ⟨hd, hm⟩ := readFrom_zero_eq_ok_iff.1 h
        exact ⟨[], c :: cs, rfl, Or.inl rfl, ⟨List.cons_ne_nil _ _, hd⟩, hm⟩
  · rintro ⟨sign, digits, rfl, rfl | rfl, ⟨hne, hd⟩, hm⟩
    · -- the sign is no digit
      have hplus : '+' ∉ digits := fun hmem => absurd (hd '+' hmem) (by cases r <;> decide)
      rw [List.nil_append, read_of_not_mem hne hplus]
      exact readFrom_zero_eq_ok_iff.2 ⟨hd, hm⟩
    · rw [List.singleton_append, read_cons, if_pos rfl, if_neg hne]
      exact readFrom_zero_eq_ok_iff.2 ⟨hd, hm⟩

end Radix

/-! ### Words -/

/-- The words that stand for a key: a hexadecimal numeral of its code behind its mark, with a plus sign between them or
without, or one of its names, in any case, which must not start like such a numeral. -/
inductive KeyCode.Spells (key : KeyCode) : List Char → Prop
  | number {letter : Char} {sign digits : List Char} : letter = 'x' ∨ letter = 'X' → sign = [] ∨ sign = ['+'] →
      Radix.hexadecimal.IsNumeral digits → Radix.hexadecimal.value digits = key.usage.toNat →
        key.Spells ('0' :: letter :: (sign ++ digits))
  | name {name : String} {word : List Char} :
      (¬∃ letter digits, word = '0' :: letter :: digits ∧ (letter = 'x' ∨ letter = 'X')) → (key, name) ∈ keyNames →
        sameIgnoringCase name.toList word = true → key.Spells word

variable {key : KeyCode} {word text : List Char}

private theorem ofDigits?_eq_some_iff : KeyCode.ofDigits? text = some key ↔
    ∃ sign digits, text = sign ++ digits ∧ (sign = [] ∨ sign = ['+']) ∧ Radix.hexadecimal.IsNumeral digits ∧
      Radix.hexadecimal.value digits = key.usage.toNat := by
  have hle : key.usage.toNat ≤ 0xFFFF := Nat.le_of_lt_succ key.usage.toNat_lt
  have hread : KeyCode.ofDigits? text = some key ↔ Radix.hexadecimal.read 0xFFFF text = .ok key.usage.toNat := by
    rw [KeyCode.ofDigits?]
    split
    · rename_i n hn
      obtain ⟨-, -, -, -, -, -, hnle⟩ := Radix.read_eq_ok_iff.1 hn
      have hback : n.toUInt16.toNat = n := UInt16.toNat_ofNat_of_lt' (Nat.lt_succ_of_le hnle)
      rw [hn, Option.some.injEq, Except.ok.injEq]
      constructor
      · rintro rfl
        exact hback.symm
      · rintro rfl
        simp
    · rename_i e he
      simp [he]
  simp only [hread, Radix.read_eq_ok_iff, hle, and_true]

/-- Keys that share a name, in any case, are the same. -/
private theorem eq_of_sameIgnoringCase :
    ∀ e ∈ keyNames, ∀ e' ∈ keyNames, sameIgnoringCase e.2.toList e'.2.toList = true → e.1 = e'.1 := by
  intro e he e' he' h
  obtain ⟨-, -, -, howned⟩ := of_mem_keyNames e he
  obtain ⟨-, -, -, howned'⟩ := of_mem_keyNames e' he'
  exact Option.some.inj (howned.symm.trans ((ofListedName?_congr h).trans howned'))

private theorem ofListedName?_eq_some_iff : KeyCode.ofListedName? word = some key ↔
    ∃ name, (key, name) ∈ keyNames ∧ sameIgnoringCase name.toList word = true := by
  constructor
  · intro h
    obtain ⟨e, hfind, rfl⟩ := Option.map_eq_some_iff.1 h
    have hname : sameIgnoringCase e.2.toList word = true := by simpa using List.find?_some hfind
    exact ⟨e.2, List.mem_of_find?_eq_some hfind, hname⟩
  · rintro ⟨name, hmem, hname⟩
    obtain ⟨-, -, -, howned⟩ := of_mem_keyNames (key, name) hmem
    rw [← ofListedName?_congr hname, howned]

private theorem ofName?_eq_some_iff : KeyCode.ofName? text = some key ↔ key.Spells (trim text) := by
  rw [ofName?_eq_ite]
  generalize trim text = word
  by_cases hmarked : IsMarked word
  · rw [if_pos hmarked, ofDigits?_eq_some_iff]
    constructor
    · rintro ⟨sign, digits, hrest, hsign, hnumeral, hvalue⟩
      obtain ⟨letter, rest, rfl, hletter⟩ := isMarked_iff.1 hmarked
      obtain rfl : rest = sign ++ digits := hrest
      exact .number hletter hsign hnumeral hvalue
    · intro h
      cases h with
      | number _ hsign hnumeral hvalue => exact ⟨_, _, rfl, hsign, hnumeral, hvalue⟩
      | name hnot => exact absurd (isMarked_iff.1 hmarked) hnot
  · rw [if_neg hmarked, ofListedName?_eq_some_iff]
    constructor
    · rintro ⟨name, hmem, hname⟩
      exact .name (fun h => hmarked (isMarked_iff.2 h)) hmem hname
    · intro h
      cases h with
      | number hletter => exact absurd (isMarked_iff.2 ⟨_, _, rfl, hletter⟩) hmarked
      | name _ hmem hname => exact ⟨_, hmem, hname⟩

/-- A word that stands for a key has no blanks. -/
private theorem KeyCode.Spells.not_blank (h : key.Spells word) : ∀ c ∈ word, isBlank c = false := by
  intro c hc
  cases h with
  | number hletter hsign hnumeral =>
    simp only [List.mem_cons, List.mem_append] at hc
    rcases hc with rfl | rfl | hc | hc
    · decide
    · rcases hletter with rfl | rfl <;> decide
    · rcases hsign with rfl | rfl
      · exact absurd hc List.not_mem_nil
      · obtain rfl := List.mem_singleton.1 hc
        decide
    · exact not_blank_of_isPlain (isPlain_of_digitValue (hnumeral.2 c hc))
  | name _ hmem hname =>
    obtain ⟨-, hplain, -, -⟩ := of_mem_keyNames _ hmem
    exact not_blank_of_isPlain (isPlain_of_sameIgnoringCase hname (List.all_eq_true.1 hplain) c hc)

private theorem ofName?_append_blanks {before behind : List Char} (text : List Char) (hbefore : AllBlank before)
    (hbehind : AllBlank behind) : KeyCode.ofName? (before ++ text ++ behind) = KeyCode.ofName? text := by
  rw [← ofName?_trim, trim_append_right hbehind, trim_append_left hbefore, ofName?_trim]

/-- A word between blanks is read as a key just if it stands for it. -/
private theorem ofName?_eq_some_iff_exists : KeyCode.ofName? text = some key ↔
    ∃ before word behind, text = before ++ word ++ behind ∧ AllBlank before ∧ AllBlank behind ∧ key.Spells word := by
  constructor
  · intro h
    obtain ⟨before, behind, hbefore, hbehind, htext⟩ := exists_blanks text
    exact ⟨before, trim text, behind, htext, hbefore, hbehind, ofName?_eq_some_iff.1 h⟩
  · rintro ⟨before, word, behind, rfl, hbefore, hbehind, h⟩
    rw [ofName?_append_blanks word hbefore hbehind, ofName?_eq_some_iff, trim_of_forall_not_blank h.not_blank]
    exact h

/-- A text is read as a key just if it is a word that stands for the key, between blanks.  The names of different keys
differ in more than case, so neither the case of letters nor the blanks around a text matter, and every key is read from
what is shown for it. -/
theorem ofName?_reads_words (text : List Char) :
    (∀ key, KeyCode.ofName? text = some key ↔
      ∃ before word behind, text = before ++ word ++ behind ∧ AllBlank before ∧ AllBlank behind ∧ key.Spells word) ∧
    (∀ e ∈ keyNames, ∀ e' ∈ keyNames, sameIgnoringCase e.2.toList e'.2.toList = true → e.1 = e'.1) ∧
    (∀ text', sameIgnoringCase text text' = true → KeyCode.ofName? text' = KeyCode.ofName? text) ∧
    (∀ before behind, AllBlank before → AllBlank behind →
      KeyCode.ofName? (before ++ text ++ behind) = KeyCode.ofName? text) ∧
    ∀ key : KeyCode, KeyCode.ofName? key.display.toList = some key :=
  ⟨fun _ => ofName?_eq_some_iff_exists, eq_of_sameIgnoringCase, fun _ h => (ofName?_congr h).symm,
    fun _ _ => ofName?_append_blanks text, ofName?_display⟩

/-- A numeral with a sign and zeros in front, between two kinds of blanks, and a name in capitals or before a line
feed. -/
theorem ofName?_reads_words_signed :
    KeyCode.ofName? " 0X+00f0\u3000".toList = some ⟨0xF0⟩ ∧
    KeyCode.ofName? "ESC".toList = some ⟨0x29⟩ ∧ KeyCode.ofName? "Esc\n".toList = some ⟨0x29⟩ ∧
    KeyCode.ofName? (KeyCode.display ⟨0xF0⟩).toList = some ⟨0xF0⟩ := by
  obtain ⟨hnumbers, -, -, -, hdisplay⟩ := ofName?_reads_words " 0X+00f0\u3000".toList
  obtain ⟨hnames, -, hcase, hblanks, -⟩ := ofName?_reads_words "Esc".toList
  have hblank : AllBlank [' '] ∧ AllBlank ['\u3000'] ∧ AllBlank ['\n'] :=
    ⟨List.all_eq_true.1 rfl, List.all_eq_true.1 rfl, List.all_eq_true.1 rfl⟩
  have hnone : AllBlank [] := fun c hc => absurd hc List.not_mem_nil
  have hunmarked : ¬IsMarked "Esc".toList := by decide
  have hesc : KeyCode.ofName? "Esc".toList = some ⟨0x29⟩ :=
    (hnames _).2 ⟨[], "Esc".toList, [], rfl, hnone, hnone,
      .name (fun h => hunmarked (isMarked_iff.2 h)) (show (_, "Esc") ∈ keyNames by decide) rfl⟩
  refine ⟨(hnumbers _).2 ⟨[' '], "0X+00f0".toList, ['\u3000'], rfl, hblank.1, hblank.2.1, ?_⟩,
    (hcase _ rfl).trans hesc, (hblanks [] ['\n'] hnone hblank.2.2).trans hesc, hdisplay _⟩
  have hdigits : "00f0".toList.all (fun c => digitValue c < 16) = true := by decide
  exact .number (Or.inr rfl) (Or.inr rfl)
    ⟨by decide, fun c hc => of_decide_eq_true (List.all_eq_true.1 hdigits c hc)⟩ (by decide)

end Chording
