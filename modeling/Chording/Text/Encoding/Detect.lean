import Chording.Text.Encoding.Utf8
import Chording.Text.Encoding.Utf16
import Chording.Text.Encoding.Windows1252

/-!
# Detecting the encoding of a text

A byte order mark at the start says which encoding follows.  It is removed, and one more mark directly after it is
removed too and takes over the choice; a third one is text.  Bytes without a mark are UTF-8 if they are valid as a
whole, and Windows-1252 otherwise.
-/

namespace Chording

/-- The encodings that have a byte order mark. -/
inductive MarkedEncoding
  | utf8
  | utf16 (order : Utf16.ByteOrder)
deriving DecidableEq

namespace MarkedEncoding

def mark : MarkedEncoding → List UInt8
  | utf8 => [0xEF, 0xBB, 0xBF]
  | utf16 .littleEndian => [0xFF, 0xFE]
  | utf16 .bigEndian => [0xFE, 0xFF]

/-- Decodes any bytes, with U+FFFD for each malformed part. -/
def decode (e : MarkedEncoding) (bytes : List UInt8) : List Char :=
  let items := match e with
    | utf8 => Utf8.decode bytes
    | utf16 order => Utf16.decode order bytes
  items.map fun item => item.getD '\uFFFD'

def encode (e : MarkedEncoding) (text : List Char) : List UInt8 :=
  match e with
  | utf8 => Utf8.encode text
  | utf16 order => Utf16.encode order text

end MarkedEncoding

/-- The byte order mark at the start, and the bytes after it. -/
def stripMark? : List UInt8 → Option (MarkedEncoding × List UInt8)
  | 0xEF :: 0xBB :: 0xBF :: rest => some (.utf8, rest)
  | 0xFF :: 0xFE :: rest => some (.utf16 .littleEndian, rest)
  | 0xFE :: 0xFF :: rest => some (.utf16 .bigEndian, rest)
  | _ => none

/-- The text of a file, whatever its encoding. -/
def decodeText (bytes : List UInt8) : List Char :=
  match stripMark? bytes with
  | some (e, rest) =>
    match stripMark? rest with
    | some (e', rest') => e'.decode rest'
    | none => e.decode rest
  | none => (Utf8.decode? bytes).getD (Windows1252.decode bytes)

theorem stripMark?_mark_append (e : MarkedEncoding) (rest : List UInt8) :
    stripMark? (e.mark ++ rest) = some (e, rest) := by
  rcases e with _ | _ | _ <;> rfl

end Chording
