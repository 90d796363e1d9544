import Chording.Text.Encoding.Detect
import Mathlib

/-!
# What decoders leave out

The decoders read any bytes, but a character that they yield was written as such: its bytes stand in front of the rest
(`Utf8.exists_of_decode_eq_cons`).  So bytes are valid UTF-8 if and only if some text is encoded by them
(`Utf8.decode?_eq_some_iff`), and a decoder of UTF-16 yields no more units than it is given
(`Utf16.unitCount_decode_le`).
-/

namespace Chording

/-- The text for what a decoder yields, with U+FFFD for each malformed part. -/
def textOf (items : List (Option Char)) : List Char := items.map fun item => item.getD '\uFFFD'

private theorem textOf_append (first rest : List (Option Char)) :
    textOf (first ++ rest) = textOf first ++ textOf rest :=
  List.map_append

theorem textOf_map_some (text : List Char) : textOf (text.map some) = text := by
  rw [textOf, List.map_map]
  exact List.map_id text

namespace Utf8

variable {c : Char} {items : List (Option Char)} {bytes : List UInt8}

/-! ### Characters of one to four bytes -/

private theorem encodeChar_one {b : UInt8} (h : b.toNat < 0x80) : String.utf8EncodeChar (Char.ofNat b.toNat) = [b] := by
  have hv : (Char.ofNat b.toNat).val.toNat = b.toNat := (Char.toNat_ofNat _).trans (if_pos (Or.inl (by omega)))
  rw [String.utf8EncodeChar, hv, if_pos (by omega), UInt8.ofNat_toNat]

private theorem encodeChar_two {b₁ b₂ : UInt8} (h₁ : 0xC2 ≤ b₁.toNat ∧ b₁.toNat < 0xE0)
    (h₂ : 0x80 ≤ b₂.toNat ∧ b₂.toNat ≤ 0xBF) :
    String.utf8EncodeChar (Char.ofNat ((b₁.toNat - 0xC0) * 64 + (b₂.toNat - 0x80))) = [b₁, b₂] := by
  generalize hn : (b₁.toNat - 0xC0) * 64 + (b₂.toNat - 0x80) = n
  have hv : (Char.ofNat n).val.toNat = n := (Char.toNat_ofNat n).trans (if_pos (Or.inl (by omega)))
  have e₁ : UInt8.ofNat (n / 64 % 32 + 192) = b₁ := UInt8.toNat_inj.1 (by simp; omega)
  have e₂ : UInt8.ofNat (n % 64 + 128) = b₂ := UInt8.toNat_inj.1 (by simp; omega)
  rw [String.utf8EncodeChar, hv, if_neg (by omega), if_pos (by omega), e₁, e₂]

private theorem encodeChar_three {b₁ b₂ b₃ : UInt8} (h₁ : 0xE0 ≤ b₁.toNat ∧ b₁.toNat < 0xF0)
    (h₂ : (if b₁.toNat = 0xE0 then 0xA0 else 0x80) ≤ b₂.toNat ∧ b₂.toNat ≤ if b₁.toNat = 0xED then 0x9F else 0xBF)
    (h₃ : 0x80 ≤ b₃.toNat ∧ b₃.toNat ≤ 0xBF) :
    String.utf8EncodeChar
      (Char.ofNat (((b₁.toNat - 0xE0) * 64 + (b₂.toNat - 0x80)) * 64 + (b₃.toNat - 0x80))) = [b₁, b₂, b₃] := by
  have h₂' : 0x80 ≤ b₂.toNat ∧ b₂.toNat ≤ 0xBF := by split at h₂ <;> split at h₂ <;> omega
  generalize hn : ((b₁.toNat - 0xE0) * 64 + (b₂.toNat - 0x80)) * 64 + (b₃.toNat - 0x80) = n
  have hge : 0x800 ≤ n := by split at h₂ <;> omega
  -- what is kept out of the second byte keeps out surrogates
  have hvalid : n.isValidChar := by
    rcases Nat.lt_or_ge n 0xD800 with hlt | hge'
    · exact Or.inl hlt
    · refine Or.inr ⟨?_, by omega⟩
      by_cases hd : b₁.toNat = 0xED
      · rw [if_pos hd] at h₂
        omega
      · omega
  have hv : (Char.ofNat n).val.toNat = n := (Char.toNat_ofNat n).trans (if_pos hvalid)
  have e₁ : UInt8.ofNat (n / 4096 % 16 + 224) = b₁ := UInt8.toNat_inj.1 (by simp; omega)
  have e₂ : UInt8.ofNat (n / 64 % 64 + 128) = b₂ := UInt8.toNat_inj.1 (by simp; omega)
  have e₃ : UInt8.ofNat (n % 64 + 128) = b₃ := UInt8.toNat_inj.1 (by simp; omega)
  rw [String.utf8EncodeChar, hv, if_neg (by omega), if_neg (by omega), if_pos (by omega), e₁, e₂, e₃]

private theorem encodeChar_four {b₁ b₂ b₃ b₄ : UInt8} (h₁ : 0xF0 ≤ b₁.toNat ∧ b₁.toNat < 0xF5)
    (h₂ : (if b₁.toNat = 0xF0 then 0x90 else 0x80) ≤ b₂.toNat ∧ b₂.toNat ≤ if b₁.toNat = 0xF4 then 0x8F else 0xBF)
    (h₃ : 0x80 ≤ b₃.toNat ∧ b₃.toNat ≤ 0xBF) (h₄ : 0x80 ≤ b₄.toNat ∧ b₄.toNat ≤ 0xBF) :
    String.utf8EncodeChar (Char.ofNat
      ((((b₁.toNat - 0xF0) * 64 + (b₂.toNat - 0x80)) * 64 + (b₃.toNat - 0x80)) * 64 + (b₄.toNat - 0x80))) =
      [b₁, b₂, b₃, b₄] := by
  have h₂' : 0x80 ≤ b₂.toNat ∧ b₂.toNat ≤ 0xBF := by split at h₂ <;> split at h₂ <;> omega
  generalize hn : (((b₁.toNat - 0xF0) * 64 + (b₂.toNat - 0x80)) * 64 + (b₃.toNat - 0x80)) * 64 + (b₄.toNat - 0x80) = n
  have hge : 0x10000 ≤ n := by split at h₂ <;> omega
  have hlt : n < 0x110000 := by
    by_cases hd : b₁.toNat = 0xF4
    · rw [if_pos hd] at h₂
      omega
    · omega
  have hv : (Char.ofNat n).val.toNat = n := (Char.toNat_ofNat n).trans (if_pos (Or.inr ⟨by omega, hlt⟩))
  have e₁ : UInt8.ofNat (n / 262144 % 8 + 240) = b₁ := UInt8.toNat_inj.1 (by simp; omega)
  have e₂ : UInt8.ofNat (n / 4096 % 64 + 128) = b₂ := UInt8.toNat_inj.1 (by simp; omega)
  have e₃ : UInt8.ofNat (n / 64 % 64 + 128) = b₃ := UInt8.toNat_inj.1 (by simp; omega)
  have e₄ : UInt8.ofNat (n % 64 + 128) = b₄ := UInt8.toNat_inj.1 (by simp; omega)
  rw [String.utf8EncodeChar, hv, if_neg (by omega), if_neg (by omega), if_neg (by omega), e₁, e₂, e₃, e₄]

/-! ### What was read -/

/-- An unfinished character that is yielded goes on with a byte in its range. -/
private theorem exists_of_decodeFrom_some {p : Unfinished} (h : decodeFrom (some p) bytes = some c :: items) :
    ∃ b bs, bytes = b :: bs ∧ (p.lowest ≤ b.toNat ∧ b.toNat ≤ p.highest) ∧
      (p.extend b.toNat).1 ++ decodeFrom (p.extend b.toNat).2 bs = some c :: items := by
  cases bytes with
  | nil => cases h
  | cons b bs =>
    rw [decodeFrom_cons, next] at h
    by_cases hb : p.lowest ≤ b.toNat ∧ b.toNat ≤ p.highest
    · rw [if_pos hb] at h
      exact ⟨b, bs, rfl, hb, h⟩
    · rw [if_neg hb] at h
      cases h

/-- The last byte of a character. -/
private theorem exists_last {value lowest highest : Nat}
    (h : decodeFrom (some ⟨1, value, lowest, highest⟩) bytes = some c :: items) :
    ∃ b bs, bytes = b :: bs ∧ (lowest ≤ b.toNat ∧ b.toNat ≤ highest) ∧
      c = Char.ofNat (value * 64 + (b.toNat - 0x80)) ∧ items = decodeFrom none bs := by
  obtain ⟨b, bs, hbytes, hb, hitems⟩ := exists_of_decodeFrom_some h
  rw [Unfinished.extend, if_pos (Nat.le_refl 1)] at hitems
  simp only [List.singleton_append, List.cons.injEq, Option.some.injEq] at hitems
  exact ⟨b, bs, hbytes, hb, hitems.1.symm, hitems.2.symm⟩

/-- The character that is yielded first was written as such. -/
theorem exists_of_decode_eq_cons (h : decode bytes = some c :: items) :
    ∃ rest, bytes = String.utf8EncodeChar c ++ rest ∧ items = decode rest := by
  cases bytes with
  | nil => cases h
  | cons b₁ bs₁ =>
    rw [decode, decodeFrom_cons, next, start] at h
    by_cases h80 : b₁.toNat < 0x80
    · rw [if_pos h80] at h
      simp only [List.singleton_append, List.cons.injEq, Option.some.injEq] at h
      exact ⟨bs₁, by rw [← h.1, encodeChar_one h80]; rfl, h.2.symm⟩
    rw [if_neg h80] at h
    by_cases hC2 : b₁.toNat < 0xC2
    · rw [if_pos hC2] at h
      cases h
    rw [if_neg hC2] at h
    by_cases hE0 : b₁.toNat < 0xE0
    · rw [if_pos hE0] at h
      obtain ⟨b₂, bs₂, rfl, hb₂, hc, hitems⟩ := exists_last h
      exact ⟨bs₂, by rw [hc, encodeChar_two ⟨by omega, hE0⟩ hb₂]; rfl, hitems⟩
    rw [if_neg hE0] at h
    by_cases hF0 : b₁.toNat < 0xF0
    · rw [if_pos hF0] at h
      obtain ⟨b₂, bs₂, rfl, hb₂, h⟩ := exists_of_decodeFrom_some h
      obtain ⟨b₃, bs₃, rfl, hb₃, hc, hitems⟩ := exists_last h
      exact ⟨bs₃, by rw [hc, encodeChar_three ⟨by omega, hF0⟩ hb₂ hb₃]; rfl, hitems⟩
    rw [if_neg hF0] at h
    by_cases hF5 : b₁.toNat < 0xF5
    · rw [if_pos hF5] at h
      obtain ⟨b₂, bs₂, rfl, hb₂, h⟩ := exists_of_decodeFrom_some h
      obtain ⟨b₃, bs₃, rfl, hb₃, h⟩ := exists_of_decodeFrom_some h
      obtain ⟨b₄, bs₄, rfl, hb₄, hc, hitems⟩ := exists_last h
      exact ⟨bs₄, by rw [hc, encodeChar_four ⟨by omega, hF5⟩ hb₂ hb₃ hb₄]; rfl, hitems⟩
    · rw [if_neg hF5] at h
      cases h

private theorem decodeFrom_some_ne_nil (p : Unfinished) (bytes : List UInt8) : decodeFrom (some p) bytes ≠ [] := by
  induction bytes generalizing p with
  | nil => exact List.cons_ne_nil _ _
  | cons b bs ih =>
    rw [decodeFrom_cons, next]
    by_cases hb : p.lowest ≤ b.toNat ∧ b.toNat ≤ p.highest
    · rw [if_pos hb, Unfinished.extend]
      by_cases hn : p.needed ≤ 1
      · rw [if_pos hn]
        exact List.cons_ne_nil _ _
      · rw [if_neg hn]
        exact ih _
    · rw [if_neg hb]
      exact List.cons_ne_nil _ _

/-- There is nothing to yield only where there is nothing to read. -/
private theorem eq_nil_of_decode_eq_nil (h : decode bytes = []) : bytes = [] := by
  cases bytes with
  | nil => rfl
  | cons b bs =>
    rw [decode, decodeFrom_cons, next, start] at h
    repeat' split at h
    all_goals first
      | exact absurd h (List.cons_ne_nil _ _)
      | exact absurd h (decodeFrom_some_ne_nil _ _)

private theorem mapM_id_eq_some_iff {text : List Char} : items.mapM id = some text ↔ items = text.map some := by
  induction items generalizing text with
  | nil => cases text <;> simp
  | cons item items ih =>
    cases item with
    | none => cases text <;> simp [List.mapM_cons]
    | some c =>
      cases text with
      | nil => simp [List.mapM_cons, Option.bind_eq_some_iff]
      | cons c' text =>
        simp only [List.mapM_cons, id, Option.bind_eq_bind, Option.bind_some, Option.bind_eq_some_iff, ih, List.map_cons,
          List.cons.injEq, Option.some.injEq, Option.pure_def]
        constructor
        · rintro ⟨_, hitems, hc, rfl⟩
          exact ⟨hc, hitems⟩
        · rintro ⟨hc, hitems⟩
          exact ⟨text, hitems, hc, rfl⟩

/-- Valid bytes are those of a text. -/
theorem decode?_eq_some_iff {text : List Char} : decode? bytes = some text ↔ bytes = encode text := by
  rw [decode?, mapM_id_eq_some_iff]
  constructor
  · intro h
    induction text generalizing bytes with
    | nil => exact eq_nil_of_decode_eq_nil h
    | cons c text ih =>
      obtain ⟨rest, hbytes, hitems⟩ := exists_of_decode_eq_cons h
      rw [hbytes, ih hitems.symm, encode, encode, List.flatMap_cons]
  · rintro rfl
    exact decode_encode text

end Utf8

/-! ### Units of UTF-16 -/

namespace Utf16

/-- How many units a text has. -/
def unitCount (text : List Char) : Nat := (text.flatMap units).length

private theorem length_units_le (c : Char) : (units c).length ≤ 2 := by
  rw [units]
  split <;> simp

private theorem length_units_ofNat {unit : Nat} (h : unit < 0x10000) : (units (Char.ofNat unit)).length = 1 := by
  have hlt : (Char.ofNat unit).toNat < 0x10000 := by
    by_cases hv : unit.isValidChar
    · rwa [Char.toNat_ofNat, if_pos hv]
    · rw [Char.ofNat, dif_neg hv]
      decide
  rw [units, if_pos hlt]
  rfl

theorem length_encode (order : ByteOrder) (text : List Char) : (encode order text).length = 2 * unitCount text := by
  have hbytes : ∀ us : List Nat, (us.flatMap order.bytes).length = 2 * us.length := by
    intro us
    induction us with
    | nil => rfl
    | cons u us ih =>
      have hu : (order.bytes u).length = 2 := by cases order <;> rfl
      rw [List.flatMap_cons, List.length_append, ih, hu, List.length_cons]
      omega
  rw [encode, ← List.flatMap_assoc, hbytes, unitCount]

private theorem unit_lt (order : ByteOrder) (a b : UInt8) : order.unit a b < 0x10000 := by
  have ha := a.toNat_lt
  have hb := b.toNat_lt
  cases order <;> simp only [ByteOrder.unit] <;> omega

private theorem unitCount_append (text text' : List Char) :
    unitCount (text ++ text') = unitCount text + unitCount text' := by
  rw [unitCount, List.flatMap_append, List.length_append, unitCount, unitCount]

private theorem unitCount_textOf_some (c : Char) : unitCount (textOf [some c]) = (units c).length := by
  simp [unitCount, textOf]

private theorem unitCount_textOf_none : unitCount (textOf [none]) = 1 := by decide

/-- What a unit yields on its own, and a high surrogate that waits for its partner, is one unit. -/
private theorem unitCount_start {unit : Nat} (h : unit < 0x10000) :
    unitCount (textOf (start unit).1) + (start unit).2.toList.length = 1 := by
  rw [start]
  split
  · rfl
  split
  · exact unitCount_textOf_none
  · simp [textOf, unitCount, length_units_ofNat h]

/-- A high surrogate that waits makes a character of two units, or is left without its partner. -/
private theorem next_some_cases (high unit : Nat) :
    (∃ c, next (some high) unit = ([some c], none)) ∨
      next (some high) unit = (none :: (start unit).1, (start unit).2) := by
  rw [next]
  split
  · exact Or.inl ⟨_, rfl⟩
  · exact Or.inr rfl

private theorem unitCount_next_le (high? : Option Nat) {unit : Nat} (h : unit < 0x10000) :
    unitCount (textOf (next high? unit).1) + (next high? unit).2.toList.length ≤ 1 + high?.toList.length := by
  have hstart := unitCount_start h
  cases high? with
  | none =>
    rw [next, hstart]
    exact Nat.le_add_right _ _
  | some high =>
    rcases next_some_cases high unit with ⟨c, hnext⟩ | hnext
    · rw [hnext, unitCount_textOf_some, Option.toList_none, List.length_nil, Option.toList_some, List.length_singleton]
      exact length_units_le c
    · rw [hnext, ← List.singleton_append, textOf_append, unitCount_append, unitCount_textOf_none, Nat.add_assoc, hstart]
      exact Nat.le_refl _

/-- A decoder yields no more units than it is given; half a unit at the end counts as one, and so does a high surrogate
that waits. -/
private theorem unitCount_decodeFrom_le (order : ByteOrder) (high? : Option Nat) (bytes : List UInt8) :
    2 * unitCount (textOf (decodeFrom order high? bytes)) ≤ bytes.length + 1 + 2 * high?.toList.length := by
  fun_induction decodeFrom order high? bytes with
  | case1 => exact Nat.zero_le _
  | case2 high =>
    rw [unitCount_textOf_none]
    exact Nat.le_of_ble_eq_true rfl
  | case3 high? b =>
    rw [unitCount_textOf_none, List.length_singleton]
    omega
  | case4 high? a b bs ih =>
    have hnext := unitCount_next_le high? (unit_lt order a b)
    rw [textOf_append, unitCount_append, List.length_cons, List.length_cons]
    omega

theorem unitCount_decode_le (order : ByteOrder) (bytes : List UInt8) :
    2 * unitCount (textOf (decode order bytes)) ≤ bytes.length + 1 :=
  unitCount_decodeFrom_le order none bytes

end Utf16

end Chording
