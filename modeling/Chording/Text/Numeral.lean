/-!
# Numerals

Unsigned numbers in decimal and hexadecimal.  `Radix.write` puts down the digits of a number, most significant
first and in upper case; `Radix.read` accepts one leading plus sign and digits in either case, up to a largest
value, and says why it refuses anything else: the first character that is no digit, or the first digit that takes the
number over the largest value, whichever comes first.  The key fact: a number that was written reads back
(`read_write`).
-/

namespace Chording

/-- The two radices that numbers are written in. -/
inductive Radix
  | decimal
  | hexadecimal
deriving DecidableEq

/-- Why a text is no number of the wanted range. -/
inductive NumeralError
  | empty
  | invalidDigit
  | tooLarge
deriving DecidableEq

namespace NumeralError

def message : NumeralError → String
  | empty => "cannot parse integer from empty string"
  | invalidDigit => "invalid digit found in string"
  | tooLarge => "number too large to fit in target type"

end NumeralError

namespace Radix

def base : Radix → Nat
  | decimal => 10
  | hexadecimal => 16

theorem two_le_base (r : Radix) : 2 ≤ r.base := by
  cases r <;> decide

/-- The value of a digit.  Hexadecimal digits count in either case. -/
def digit? (r : Radix) (c : Char) : Option Nat :=
  let value? :=
    if '0' ≤ c ∧ c ≤ '9' then some (c.toNat - '0'.toNat)
    else if 'A' ≤ c ∧ c ≤ 'F' then some (c.toNat - 'A'.toNat + 10)
    else if 'a' ≤ c ∧ c ≤ 'f' then some (c.toNat - 'a'.toNat + 10)
    else none
  value?.filter (· < r.base)

/-- The upper case digit of the value `d`. -/
def digitChar (d : Nat) : Char :=
  if d < 10 then Char.ofNat ('0'.toNat + d) else Char.ofNat ('A'.toNat + (d - 10))

/-- The digits of `n`, most significant first, without leading zeros. -/
def write (r : Radix) (n : Nat) : List Char :=
  if n < r.base then [digitChar n] else r.write (n / r.base) ++ [digitChar (n % r.base)]
termination_by n
decreasing_by
  have := r.two_le_base
  exact Nat.div_lt_self (by omega) (by omega)

/-- Reads the digits that follow a number `n` read so far.  Each digit is looked at before the size of the number
that it makes. -/
def readFrom (r : Radix) (largest n : Nat) : List Char → Except NumeralError Nat
  | [] => .ok n
  | c :: cs =>
    match r.digit? c with
    | none => .error .invalidDigit
    | some d => if n * r.base + d ≤ largest then r.readFrom largest (n * r.base + d) cs else .error .tooLarge

/-- Reads a number of at most `largest`: an optional plus sign, then at least one digit. -/
def read (r : Radix) (largest : Nat) : List Char → Except NumeralError Nat
  | [] => .error .empty
  | ['+'] => .error .invalidDigit
  | '+' :: cs => r.readFrom largest 0 cs
  | cs => r.readFrom largest 0 cs

theorem read_cons (r : Radix) (largest : Nat) (c : Char) (cs : List Char) :
    r.read largest (c :: cs) =
      if c = '+' then if cs = [] then .error .invalidDigit else r.readFrom largest 0 cs
      else r.readFrom largest 0 (c :: cs) := by
  by_cases hc : c = '+'
  · subst hc
    cases cs <;> rfl
  · rw [if_neg hc, read]
    all_goals simp [hc]

theorem digit?_digitChar {r : Radix} {d : Nat} (h : d < r.base) : r.digit? (digitChar d) = some d := by
  have hall : ∀ r ∈ [decimal, hexadecimal], ∀ d ∈ List.range r.base, r.digit? (digitChar d) = some d := by
    decide
  exact hall r (by cases r <;> simp) d (List.mem_range.2 h)

theorem readFrom_write_append (r : Radix) {largest n : Nat} (h : n ≤ largest) (rest : List Char) :
    r.readFrom largest 0 (r.write n ++ rest) = r.readFrom largest n rest := by
  fun_induction write r n generalizing rest with
  | case1 n hn => simp [readFrom, digit?_digitChar hn, h]
  | case2 n hn ih =>
    have hb := r.two_le_base
    have hd : n % r.base < r.base := Nat.mod_lt _ (by omega)
    have e : n / r.base * r.base + n % r.base = n := Nat.div_add_mod' n r.base
    rw [List.append_assoc, ih (Nat.le_trans (Nat.div_le_self _ _) h)]
    simp [readFrom, digit?_digitChar hd, e, h]

theorem write_ne_nil (r : Radix) (n : Nat) : r.write n ≠ [] := by
  rw [write]
  split <;> simp

private theorem digitChar_ne_plus {r : Radix} {d : Nat} (h : d < r.base) : digitChar d ≠ '+' := by
  intro e
  have := digit?_digitChar h
  rw [e] at this
  cases r <;> exact absurd this (by simp [digit?])

theorem mem_write {r : Radix} {n : Nat} {c : Char} (h : c ∈ r.write n) : ∃ d < r.base, c = digitChar d := by
  fun_induction write r n with
  | case1 n hn => exact ⟨n, hn, by simpa using h⟩
  | case2 n hn ih =>
    rcases List.mem_append.1 h with h | h
    · exact ih h
    · have hb := r.two_le_base
      exact ⟨n % r.base, Nat.mod_lt _ (by omega), by simpa using h⟩

/-- A number that was written reads back. -/
theorem read_write {r : Radix} {largest n : Nat} (h : n ≤ largest) : r.read largest (r.write n) = .ok n := by
  have hread := r.readFrom_write_append h []
  rw [List.append_nil] at hread
  cases hw : r.write n with
  | nil => exact absurd hw (r.write_ne_nil n)
  | cons c cs =>
    have hc : c ≠ '+' := by
      obtain ⟨d, hd, rfl⟩ := mem_write (r := r) (n := n) (c := c) (by simp [hw])
      exact digitChar_ne_plus hd
    rw [read_cons, if_neg hc, ← hw, hread]
    rfl

end Radix

end Chording
