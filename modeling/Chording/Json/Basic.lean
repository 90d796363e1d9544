import Chording.Text.Encoding.Utf16
import Chording.Text.Numeral

/-!
# JSON values

Values as they are written: a number keeps its literal, an object the order of its members and members of the same
name, and a string the escapes that are halves of characters.  What a reader makes of them is its own choice.
-/

namespace Chording

/-- Part of a string: a character, or an escaped UTF-16 unit that is half of one. -/
inductive Json.StringPart
  | char (c : Char)
  | surrogate (unit : Nat)
deriving DecidableEq

namespace Json.StringPart

def ofText (text : List Char) : List StringPart :=
  text.map char

/-- The part that an escaped unit stands for. -/
def ofUnit (unit : Nat) : StringPart :=
  if Utf16.isHigh unit || Utf16.isLow unit then surrogate unit else char (Char.ofNat unit)

/-- The text of a string.  One with a surrogate that has no partner is no text. -/
def text? : List StringPart → Option (List Char)
  | [] => some []
  | char c :: rest => (text? rest).map (c :: ·)
  | surrogate high :: surrogate low :: rest =>
    if Utf16.isHigh high && Utf16.isLow low then (text? rest).map (Utf16.joined high low :: ·) else none
  | surrogate _ :: _ => none

@[simp]
theorem text?_ofText (text : List Char) : text? (ofText text) = some text := by
  induction text with
  | nil => rfl
  | cons c cs ih =>
    rw [ofText] at ih
    simp [ofText, text?, ih]

end Json.StringPart

/-- A JSON value as it is written. -/
inductive Json
  | null
  | bool (b : Bool)
  | number (literal : List Char)
  | string (parts : List Json.StringPart)
  | array (items : List Json)
  | object (members : List (List Json.StringPart × Json))

namespace Json

def ofNat (n : Nat) : Json :=
  number (Radix.decimal.write n)

def ofText (text : List Char) : Json :=
  string (StringPart.ofText text)

/-- A whole number up to `largest`.  It has no sign, no fraction and no exponent. -/
def toNat? (largest : Nat) : Json → Option Nat
  | number literal =>
    if literal.all Char.isDigit then (Radix.decimal.read largest literal).toOption else none
  | _ => none

def toText? : Json → Option (List Char)
  | string parts => StringPart.text? parts
  | _ => none

/-- A list of values that are all read alike. -/
def toList? {α : Type} (read? : Json → Option α) : Json → Option (List α)
  | array items => items.mapM read?
  | _ => none

/-- The value of the member with that name: `none` if there are several of them. -/
def member? (members : List (List Char × Json)) (name : String) : Option (Option Json) :=
  match members.filter fun m => m.1 = name.toList with
  | [] => some none
  | [m] => some (some m.2)
  | _ => none

/-- The members of a record in the order of their names, each of which may be missing.  A record is an object, whose
other members do not count but have to have names, or an array of the values of a front of the names. -/
def members? (names : List String) : Json → Option (List (Option Json))
  | object members => do
    let members ← members.mapM fun m => (StringPart.text? m.1).map (·, m.2)
    names.mapM (member? members)
  | array items =>
    if items.length ≤ names.length then
      some (items.map some ++ List.replicate (names.length - items.length) none)
    else none
  | _ => none

end Json

end Chording
