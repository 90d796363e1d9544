/-!
# UTF-16

Decoding of arbitrary bytes and encoding of characters, with the two orders of the bytes of a unit.  As for UTF-8 the
decoder yields one item for each character and one `none` for each malformed part: a surrogate without its partner,
or what is left at the end, a half unit with or without a high surrogate before it.  The key fact: what was encoded
is decoded without loss (`decode_encode`).
-/

namespace Chording.Utf16

/-- The order of the two bytes of a unit. -/
inductive ByteOrder
  | littleEndian
  | bigEndian
deriving DecidableEq

def ByteOrder.unit (order : ByteOrder) (first second : UInt8) : Nat :=
  match order with
  | .littleEndian => second.toNat * 256 + first.toNat
  | .bigEndian => first.toNat * 256 + second.toNat

def ByteOrder.bytes (order : ByteOrder) (unit : Nat) : List UInt8 :=
  match order with
  | .littleEndian => [(unit % 256).toUInt8, (unit / 256).toUInt8]
  | .bigEndian => [(unit / 256).toUInt8, (unit % 256).toUInt8]

def isHigh (unit : Nat) : Bool := 0xD800 ≤ unit && unit < 0xDC00

def isLow (unit : Nat) : Bool := 0xDC00 ≤ unit && unit < 0xE000

/-- The character of a pair of surrogates. -/
def joined (high low : Nat) : Char :=
  Char.ofNat (0x10000 + (high - 0xD800) * 0x400 + (low - 0xDC00))

/-- What a unit yields on its own: an item, or a high surrogate that waits for its partner. -/
def start (unit : Nat) : List (Option Char) × Option Nat :=
  if isHigh unit then ([], some unit)
  else if isLow unit then ([none], none)
  else ([some (Char.ofNat unit)], none)

/-- What the next unit yields.  One that is not the partner of a waiting surrogate is read on its own. -/
def next : Option Nat → Nat → List (Option Char) × Option Nat
  | none, unit => start unit
  | some high, unit =>
    if isLow unit then ([some (joined high unit)], none)
    else (none :: (start unit).1, (start unit).2)

/-- Reads on after a high surrogate, if one is waiting. -/
def decodeFrom (order : ByteOrder) : Option Nat → List UInt8 → List (Option Char)
  | none, [] => []
  | some _, [] => [none]
  | _, [_] => [none]
  | high?, a :: b :: bs =>
    (next high? (order.unit a b)).1 ++ decodeFrom order (next high? (order.unit a b)).2 bs

def decode (order : ByteOrder) (bytes : List UInt8) : List (Option Char) :=
  decodeFrom order none bytes

/-- The units of a character: one, or a pair of surrogates above U+FFFF. -/
def units (c : Char) : List Nat :=
  if c.toNat < 0x10000 then [c.toNat]
  else [0xD800 + (c.toNat - 0x10000) / 0x400, 0xDC00 + (c.toNat - 0x10000) % 0x400]

def encode (order : ByteOrder) (text : List Char) : List UInt8 :=
  text.flatMap fun c => (units c).flatMap order.bytes

private theorem decodeFrom_cons (order : ByteOrder) (high? : Option Nat) (a b : UInt8) (bs : List UInt8) :
    decodeFrom order high? (a :: b :: bs) =
      (next high? (order.unit a b)).1 ++ decodeFrom order (next high? (order.unit a b)).2 bs := by
  cases high? <;> rfl

private theorem decodeFrom_bytes (order : ByteOrder) (high? : Option Nat) {unit : Nat} (h : unit < 0x10000)
    (bs : List UInt8) :
    decodeFrom order high? (order.bytes unit ++ bs) =
      (next high? unit).1 ++ decodeFrom order (next high? unit).2 bs := by
  have h1 : (unit % 256).toUInt8.toNat = unit % 256 := by simp
  have h2 : (unit / 256).toUInt8.toNat = unit / 256 := by simp; omega
  cases order with
  | littleEndian =>
    have hu : ByteOrder.littleEndian.unit (unit % 256).toUInt8 (unit / 256).toUInt8 = unit := by
      simp only [ByteOrder.unit, h1, h2]; omega
    simp only [ByteOrder.bytes, List.cons_append, List.nil_append, decodeFrom_cons, hu]
  | bigEndian =>
    have hu : ByteOrder.bigEndian.unit (unit / 256).toUInt8 (unit % 256).toUInt8 = unit := by
      simp only [ByteOrder.unit, h1, h2]; omega
    simp only [ByteOrder.bytes, List.cons_append, List.nil_append, decodeFrom_cons, hu]

/-- The bytes of a character are read as that character. -/
private theorem decodeFrom_encode_char (order : ByteOrder) (c : Char) (bs : List UInt8) :
    decodeFrom order none ((units c).flatMap order.bytes ++ bs) = some c :: decodeFrom order none bs := by
  have hc : c.toNat < 0xD800 ∨ 0xDFFF < c.toNat ∧ c.toNat < 0x110000 := c.valid
  have hofNat := Char.ofNat_toNat c
  simp only [units]
  generalize c.toNat = v at *
  subst hofNat
  split
  · have s : next none v = ([some (Char.ofNat v)], none) := by
      grind [next, start, isHigh, isLow]
    simp only [List.flatMap_cons, List.flatMap_nil, List.append_nil]
    rw [decodeFrom_bytes _ _ (by assumption), s]
    rfl
  · have hhigh : isHigh (0xD800 + (v - 0x10000) / 0x400) = true := by
      simp only [isHigh, Bool.and_eq_true, decide_eq_true_eq]; omega
    have hlow : isLow (0xDC00 + (v - 0x10000) % 0x400) = true := by
      simp only [isLow, Bool.and_eq_true, decide_eq_true_eq]; omega
    have hjoined : joined (0xD800 + (v - 0x10000) / 0x400) (0xDC00 + (v - 0x10000) % 0x400) = Char.ofNat v := by
      rw [joined, show 0x10000 + (0xD800 + (v - 0x10000) / 0x400 - 0xD800) * 0x400 +
        (0xDC00 + (v - 0x10000) % 0x400 - 0xDC00) = v by omega]
    have s1 : next none (0xD800 + (v - 0x10000) / 0x400) = ([], some (0xD800 + (v - 0x10000) / 0x400)) := by
      simp only [next, start, hhigh, if_true]
    have s2 : next (some (0xD800 + (v - 0x10000) / 0x400)) (0xDC00 + (v - 0x10000) % 0x400) =
        ([some (Char.ofNat v)], none) := by
      simp only [next, hlow, if_true, hjoined]
    simp only [List.flatMap_cons, List.flatMap_nil, List.append_nil, List.append_assoc]
    rw [decodeFrom_bytes _ _ (by omega), s1, decodeFrom_bytes _ _ (by omega), s2]
    rfl

theorem decode_encode (order : ByteOrder) (text : List Char) : decode order (encode order text) = text.map some := by
  induction text with
  | nil => rfl
  | cons c cs ih =>
    rw [encode, List.flatMap_cons, decode, decodeFrom_encode_char]
    exact congrArg _ ih

end Chording.Utf16
