import Chording.Key.Code
import Chording.Text.Blank
import Chording.Text.Numeral
import Chording.Text.Split

/-!
# Key names

The names under which keys are written and shown.  A key may have several names; the first one listed is the one
shown, and a key without a name is shown as a hexadecimal number.  Both forms are read, names without regard to the
case of their letters.
-/

namespace Chording

/-- All keys with a name, in the order of their codes. -/
def keyNames : List (KeyCode × String) :=
  [(⟨0x04⟩, "A"), (⟨0x05⟩, "B"), (⟨0x06⟩, "C"), (⟨0x07⟩, "D"), (⟨0x08⟩, "E"), (⟨0x09⟩, "F"), (⟨0x0A⟩, "G"),
    (⟨0x0B⟩, "H"), (⟨0x0C⟩, "I"), (⟨0x0D⟩, "J"), (⟨0x0E⟩, "K"), (⟨0x0F⟩, "L"), (⟨0x10⟩, "M"), (⟨0x11⟩, "N"),
    (⟨0x12⟩, "O"), (⟨0x13⟩, "P"), (⟨0x14⟩, "Q"), (⟨0x15⟩, "R"), (⟨0x16⟩, "S"), (⟨0x17⟩, "T"), (⟨0x18⟩, "U"),
    (⟨0x19⟩, "V"), (⟨0x1A⟩, "W"), (⟨0x1B⟩, "X"), (⟨0x1C⟩, "Y"), (⟨0x1D⟩, "Z"), (⟨0x1E⟩, "1"), (⟨0x1F⟩, "2"),
    (⟨0x20⟩, "3"), (⟨0x21⟩, "4"), (⟨0x22⟩, "5"), (⟨0x23⟩, "6"), (⟨0x24⟩, "7"), (⟨0x25⟩, "8"), (⟨0x26⟩, "9"),
    (⟨0x27⟩, "0"), (⟨0x28⟩, "Enter"), (⟨0x28⟩, "Return"), (⟨0x29⟩, "Escape"), (⟨0x29⟩, "Esc"),
    (⟨0x2A⟩, "Backspace"), (⟨0x2B⟩, "Tab"), (⟨0x2C⟩, "Space"), (⟨0x2D⟩, "Minus"), (⟨0x2E⟩, "Equals"),
    (⟨0x2F⟩, "LeftBracket"), (⟨0x30⟩, "RightBracket"), (⟨0x31⟩, "Backslash"), (⟨0x33⟩, "Semicolon"),
    (⟨0x34⟩, "Quote"), (⟨0x35⟩, "Backtick"), (⟨0x36⟩, "Comma"), (⟨0x37⟩, "Period"), (⟨0x38⟩, "Slash"),
    (⟨0x39⟩, "CapsLock"), (⟨0x3A⟩, "F1"), (⟨0x3B⟩, "F2"), (⟨0x3C⟩, "F3"), (⟨0x3D⟩, "F4"), (⟨0x3E⟩, "F5"),
    (⟨0x3F⟩, "F6"), (⟨0x40⟩, "F7"), (⟨0x41⟩, "F8"), (⟨0x42⟩, "F9"), (⟨0x43⟩, "F10"), (⟨0x44⟩, "F11"),
    (⟨0x45⟩, "F12"), (⟨0x49⟩, "Insert"), (⟨0x4A⟩, "Home"), (⟨0x4B⟩, "PageUp"), (⟨0x4C⟩, "Delete"),
    (⟨0x4D⟩, "End"), (⟨0x4E⟩, "PageDown"), (⟨0x4F⟩, "RightArrow"), (⟨0x50⟩, "LeftArrow"), (⟨0x51⟩, "DownArrow"),
    (⟨0x52⟩, "UpArrow"), (⟨0xE0⟩, "LeftControl"), (⟨0xE1⟩, "LeftShift"), (⟨0xE2⟩, "LeftAlt"),
    (⟨0xE3⟩, "LeftGui"), (⟨0xE4⟩, "RightControl"), (⟨0xE5⟩, "RightShift"), (⟨0xE6⟩, "RightAlt"),
    (⟨0xE7⟩, "RightGui")]

namespace KeyCode

/-- The first name of a key. -/
def name? (key : KeyCode) : Option String :=
  (keyNames.find? fun entry => entry.1 = key).map (·.2)

/-- A hexadecimal number with the mark `0x` and at least two digits. -/
def literal (key : KeyCode) : List Char :=
  let digits := Radix.hexadecimal.write key.usage.toNat
  '0' :: 'x' :: (List.replicate (2 - digits.length) '0' ++ digits)

/-- How a key is shown: by its name, or by its number if it has none. -/
def display (key : KeyCode) : String :=
  match key.name? with
  | some name => name
  | none => String.ofList key.literal

/-- Reads the digits of a hexadecimal key code. -/
def ofDigits? (digits : List Char) : Option KeyCode :=
  match Radix.hexadecimal.read 0xFFFF digits with
  | .ok usage => some ⟨usage.toUInt16⟩
  | .error _ => none

/-- The key of that name. -/
def ofListedName? (name : List Char) : Option KeyCode :=
  (keyNames.find? fun entry => sameIgnoringCase entry.2.toList name).map (·.1)

/-- Reads a key, with blanks around it.  What starts like a hexadecimal number is never looked up as a name. -/
def ofName? (text : List Char) : Option KeyCode :=
  match trim text with
  | '0' :: 'x' :: digits => ofDigits? digits
  | '0' :: 'X' :: digits => ofDigits? digits
  | name => ofListedName? name

end KeyCode

end Chording
