/-!
# Windows-1252

The single-byte encoding in which every byte is a character: ASCII below 0x80, Latin-1 from 0xA0, and between them
the characters of a table, where a byte without a character of its own stands for the control of its value.
-/

namespace Chording.Windows1252

/-- The characters of the bytes 0x80 to 0x9F. -/
def high : List Char :=
  ['\u20AC', '\u0081', '\u201A', '\u0192', '\u201E', '\u2026', '\u2020', '\u2021',
    '\u02C6', '\u2030', '\u0160', '\u2039', '\u0152', '\u008D', '\u017D', '\u008F',
    '\u0090', '\u2018', '\u2019', '\u201C', '\u201D', '\u2022', '\u2013', '\u2014',
    '\u02DC', '\u2122', '\u0161', '\u203A', '\u0153', '\u009D', '\u017E', '\u0178']

def character (b : UInt8) : Char :=
  if 0x80 ≤ b ∧ b < 0xA0 then high.getD (b.toNat - 0x80) '\uFFFD' else Char.ofNat b.toNat

def decode (bytes : List UInt8) : List Char :=
  bytes.map character

theorem length_high : high.length = 0xA0 - 0x80 := rfl

end Chording.Windows1252
