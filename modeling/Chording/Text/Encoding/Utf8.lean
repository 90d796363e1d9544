/-!
# UTF-8

Decoding of arbitrary bytes and encoding of characters.  The decoder yields one item for each character and one
`none` for each malformed part: a lead byte with as many continuation bytes as fit it, or one byte that starts
nothing.  So a byte sequence is valid when no item is `none`, and the lenient reading of any byte sequence puts
U+FFFD for each `none`.  The key fact: what was encoded is decoded without loss (`decode_encode`).
-/

namespace Chording.Utf8

/-- A character that is still read: how many continuation bytes it needs, the value of the bytes so far, and the
range of the next byte. -/
structure Unfinished where
  needed : Nat
  value : Nat
  lowest : Nat
  highest : Nat

/-- What a byte yields at the start of a character: an item, or a character that needs more bytes.  The range of the
second byte keeps out overlong forms, surrogates and values over 0x10FFFF. -/
def start (byte : Nat) : List (Option Char) × Option Unfinished :=
  if byte < 0x80 then ([some (Char.ofNat byte)], none)
  else if byte < 0xC2 then ([none], none)
  else if byte < 0xE0 then ([], some ⟨1, byte - 0xC0, 0x80, 0xBF⟩)
  else if byte < 0xF0 then
    ([], some ⟨2, byte - 0xE0, if byte = 0xE0 then 0xA0 else 0x80, if byte = 0xED then 0x9F else 0xBF⟩)
  else if byte < 0xF5 then
    ([], some ⟨3, byte - 0xF0, if byte = 0xF0 then 0x90 else 0x80, if byte = 0xF4 then 0x8F else 0xBF⟩)
  else ([none], none)

/-- What a byte in its range yields as the next one of a character. -/
def Unfinished.extend (p : Unfinished) (byte : Nat) : List (Option Char) × Option Unfinished :=
  let value := p.value * 64 + (byte - 0x80)
  if p.needed ≤ 1 then ([some (Char.ofNat value)], none)
  else ([], some ⟨p.needed - 1, value, 0x80, 0xBF⟩)

/-- What the next byte yields.  A byte out of its range ends the part before it, and is read as a start. -/
def next : Option Unfinished → Nat → List (Option Char) × Option Unfinished
  | none, byte => start byte
  | some p, byte =>
    if p.lowest ≤ byte ∧ byte ≤ p.highest then p.extend byte
    else (none :: (start byte).1, (start byte).2)

/-- Reads on after what the bytes so far left unfinished. -/
def decodeFrom : Option Unfinished → List UInt8 → List (Option Char)
  | none, [] => []
  | some _, [] => [none]
  | p?, b :: bs => (next p? b.toNat).1 ++ decodeFrom (next p? b.toNat).2 bs

def decode (bytes : List UInt8) : List (Option Char) :=
  decodeFrom none bytes

/-- The text of a valid byte sequence. -/
def decode? (bytes : List UInt8) : Option (List Char) :=
  (decode bytes).mapM id

def encode (text : List Char) : List UInt8 :=
  text.flatMap String.utf8EncodeChar

theorem decodeFrom_cons (p? : Option Unfinished) (b : UInt8) (bs : List UInt8) :
    decodeFrom p? (b :: bs) = (next p? b.toNat).1 ++ decodeFrom (next p? b.toNat).2 bs := by
  cases p? <;> rfl

/-- The bytes of a character are read as that character. -/
theorem decodeFrom_encode_char (c : Char) (bs : List UInt8) :
    decodeFrom none (String.utf8EncodeChar c ++ bs) = some c :: decodeFrom none bs := by
  have hc : c.toNat < 0xD800 ∨ 0xDFFF < c.toNat ∧ c.toNat < 0x110000 := c.valid
  have e : c.val.toNat = c.toNat := rfl
  have hofNat := Char.ofNat_toNat c
  simp only [String.utf8EncodeChar, e]
  generalize c.toNat = v at *
  subst hofNat
  split
  · have h0 : next none v = ([some (Char.ofNat v)], none) := by
      simp only [next, start]; rw [if_pos (by omega)]
    have hb : (UInt8.ofNat v).toNat = v := by simp; omega
    simp only [List.cons_append, List.nil_append, decodeFrom_cons, hb, h0]
  split
  · have h1 : (UInt8.ofNat (v / 64 % 32 + 192)).toNat = v / 64 + 192 := by simp; omega
    have h2 : (UInt8.ofNat (v % 64 + 128)).toNat = v % 64 + 128 := by simp; omega
    have s1 : next none (v / 64 + 192) = ([], some ⟨1, v / 64, 0x80, 0xBF⟩) := by
      grind [next, start]
    have s2 : next (some ⟨1, v / 64, 0x80, 0xBF⟩) (v % 64 + 128) = ([some (Char.ofNat v)], none) := by
      grind [next, Unfinished.extend]
    simp only [List.cons_append, List.nil_append, decodeFrom_cons, h1, h2, s1, s2]
  split
  · have h1 : (UInt8.ofNat (v / 4096 % 16 + 224)).toNat = v / 4096 + 224 := by simp; omega
    have h2 : (UInt8.ofNat (v / 64 % 64 + 128)).toNat = v / 64 % 64 + 128 := by simp; omega
    have h3 : (UInt8.ofNat (v % 64 + 128)).toNat = v % 64 + 128 := by simp; omega
    let p : Unfinished :=
      ⟨2, v / 4096, if v / 4096 = 0 then 0xA0 else 0x80, if v / 4096 = 13 then 0x9F else 0xBF⟩
    have s1 : next none (v / 4096 + 224) = ([], some p) := by
      grind [next, start]
    have s2 : next (some p) (v / 64 % 64 + 128) =
        ([], some ⟨1, v / 64, 0x80, 0xBF⟩) := by
      grind [next, Unfinished.extend]
    have s3 : next (some ⟨1, v / 64, 0x80, 0xBF⟩) (v % 64 + 128) = ([some (Char.ofNat v)], none) := by
      grind [next, Unfinished.extend]
    simp only [List.cons_append, List.nil_append, decodeFrom_cons, h1, h2, h3, s1, s2, s3]
  · have h1 : (UInt8.ofNat (v / 262144 % 8 + 240)).toNat = v / 262144 + 240 := by simp; omega
    have h2 : (UInt8.ofNat (v / 4096 % 64 + 128)).toNat = v / 4096 % 64 + 128 := by simp; omega
    have h3 : (UInt8.ofNat (v / 64 % 64 + 128)).toNat = v / 64 % 64 + 128 := by simp; omega
    have h4 : (UInt8.ofNat (v % 64 + 128)).toNat = v % 64 + 128 := by simp; omega
    let p : Unfinished :=
      ⟨3, v / 262144, if v / 262144 = 0 then 0x90 else 0x80, if v / 262144 = 4 then 0x8F else 0xBF⟩
    have s1 : next none (v / 262144 + 240) = ([], some p) := by
      grind [next, start]
    have s2 : next (some p) (v / 4096 % 64 + 128) =
        ([], some ⟨2, v / 4096, 0x80, 0xBF⟩) := by
      grind [next, Unfinished.extend]
    have s3 : next (some ⟨2, v / 4096, 0x80, 0xBF⟩) (v / 64 % 64 + 128) = ([], some ⟨1, v / 64, 0x80, 0xBF⟩) := by
      grind [next, Unfinished.extend]
    have s4 : next (some ⟨1, v / 64, 0x80, 0xBF⟩) (v % 64 + 128) = ([some (Char.ofNat v)], none) := by
      grind [next, Unfinished.extend]
    simp only [List.cons_append, List.nil_append, decodeFrom_cons, h1, h2, h3, h4, s1, s2, s3, s4]

theorem decode_encode (text : List Char) : decode (encode text) = text.map some := by
  induction text with
  | nil => rfl
  | cons c cs ih =>
    rw [encode, List.flatMap_cons, decode, decodeFrom_encode_char]
    exact congrArg _ ih

end Chording.Utf8
