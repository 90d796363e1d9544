import Chording.Json.Basic

/-!
# JSON tokens

The pieces of a JSON text between its blanks.  `Token.lex?` takes a text apart and `Token.render` writes a token;
tokens can follow one another without blanks between them, except that no two of the numbers and words may touch.
-/

namespace Chording.Json

inductive Token
  | openArray
  | closeArray
  | openObject
  | closeObject
  | comma
  | colon
  | null
  | bool (b : Bool)
  | number (literal : List Char)
  | string (parts : List StringPart)
deriving DecidableEq

namespace Token

/-! ### Numbers -/

/-- What follows the digits at the start, of which there is at least one. -/
def afterDigits? (cs : List Char) : Option (List Char) :=
  if cs.takeWhile Char.isDigit = [] then none else some (cs.dropWhile Char.isDigit)

/-- What follows the whole part of a number, which has no leading zeros. -/
def afterWhole? : List Char → Option (List Char)
  | '0' :: cs => some cs
  | cs => afterDigits? cs

def afterFraction? : List Char → Option (List Char)
  | '.' :: cs => afterDigits? cs
  | cs => some cs

def afterSign : List Char → List Char
  | '+' :: cs => cs
  | '-' :: cs => cs
  | cs => cs

def afterExponent? : List Char → Option (List Char)
  | 'e' :: cs => afterDigits? (afterSign cs)
  | 'E' :: cs => afterDigits? (afterSign cs)
  | cs => some cs

def afterMinus : List Char → List Char
  | '-' :: cs => cs
  | cs => cs

/-- A number: a whole part, perhaps with a minus sign, a fraction and an exponent. -/
def isNumber (literal : List Char) : Bool :=
  ((afterWhole? (afterMinus literal)).bind afterFraction?).bind afterExponent? == some []

/-- The characters that a number may have in it; it ends before the first other one. -/
def isNumberChar (c : Char) : Bool :=
  c.isDigit || c == '-' || c == '+' || c == '.' || c == 'e' || c == 'E'

/-! ### Strings -/

/-- The character of an escape with a letter or mark. -/
def escaped? : Char → Option Char
  | '"' => some '"'
  | '\\' => some '\\'
  | '/' => some '/'
  | 'b' => some '\x08'
  | 'f' => some '\x0c'
  | 'n' => some '\n'
  | 'r' => some '\r'
  | 't' => some '\t'
  | _ => none

/-- The unit of an escape with four hexadecimal digits. -/
def unit? (a b c d : Char) : Option Nat := do
  let a ← Radix.hexadecimal.digit? a
  let b ← Radix.hexadecimal.digit? b
  let c ← Radix.hexadecimal.digit? c
  let d ← Radix.hexadecimal.digit? d
  return ((a * 16 + b) * 16 + c) * 16 + d

/-- Control characters have to be escaped. -/
def isControl (c : Char) : Bool := c.toNat < 0x20

/-- Reads a string after its opening quote: its parts, and what follows the closing quote. -/
def readString? : List Char → Option (List StringPart × List Char)
  | [] => none
  | '"' :: cs => some ([], cs)
  | '\\' :: 'u' :: a :: b :: c :: d :: cs => do
    let u ← unit? a b c d
    let (parts, rest) ← readString? cs
    return (.ofUnit u :: parts, rest)
  | '\\' :: mark :: cs => do
    let c ← escaped? mark
    let (parts, rest) ← readString? cs
    return (.char c :: parts, rest)
  | c :: cs =>
    if c = '\\' ∨ isControl c then none
    else (readString? cs).map fun (parts, rest) => (.char c :: parts, rest)

private theorem length_readString? {cs rest : List Char} {parts : List StringPart}
    (h : readString? cs = some (parts, rest)) : rest.length < cs.length := by
  fun_induction readString? cs generalizing parts rest with
  | case1 => cases h
  | case2 cs => cases h; simp
  | case3 a b c d cs ih =>
    simp only [Option.bind_eq_bind, Option.bind_eq_some_iff, Option.pure_def, Option.some.injEq, Prod.mk.injEq] at h
    obtain ⟨u, _, ⟨parts', rest'⟩, hr, _, rfl⟩ := h
    have := ih hr
    simp only [List.length_cons]; omega
  | case4 mark cs _ ih =>
    simp only [Option.bind_eq_bind, Option.bind_eq_some_iff, Option.pure_def, Option.some.injEq, Prod.mk.injEq] at h
    obtain ⟨c, _, ⟨parts', rest'⟩, hr, _, rfl⟩ := h
    have := ih hr
    simp only [List.length_cons]; omega
  | case5 => cases h
  | case6 c cs _ _ _ _ ih =>
    obtain ⟨⟨parts', rest'⟩, hr, he⟩ := Option.map_eq_some_iff.1 h
    cases he
    have := ih hr
    simp only [List.length_cons]; omega

/-! ### Texts -/

/-- The blanks between tokens. -/
def isSpace (c : Char) : Bool :=
  c == ' ' || c == '\n' || c == '\r' || c == '\t'

def mark? : Char → Option Token
  | '[' => some openArray
  | ']' => some closeArray
  | '\x7b' => some openObject
  | '\x7d' => some closeObject
  | ',' => some comma
  | ':' => some colon
  | _ => none

def word? (word : List Char) : Option Token :=
  if word = "null".toList then some null
  else if word = "true".toList then some (bool true)
  else if word = "false".toList then some (bool false)
  else none

private theorem length_dropWhile_lt (p : Char → Bool) (c : Char) (cs : List Char) :
    (cs.dropWhile p).length < (c :: cs).length :=
  Nat.lt_succ_of_le (List.dropWhile_sublist p).length_le

/-- The tokens of a text.  Numbers and words reach as far as they can. -/
def lex? : List Char → Option (List Token)
  | [] => some []
  | c :: cs =>
    if isSpace c then lex? cs
    else if c = '"' then
      match _ : readString? cs with
      | none => none
      | some (parts, rest) => (lex? rest).map (string parts :: ·)
    else if c.isDigit || c == '-' then
      let literal := c :: cs.takeWhile isNumberChar
      if isNumber literal then (lex? (cs.dropWhile isNumberChar)).map (number literal :: ·) else none
    else match mark? c with
      | some token => (lex? cs).map (token :: ·)
      | none =>
        match word? (c :: cs.takeWhile Char.isAlpha) with
        | some token => (lex? (cs.dropWhile Char.isAlpha)).map (token :: ·)
        | none => none
termination_by cs => cs.length
decreasing_by
  · simp
  · exact Nat.lt_succ_of_lt (length_readString? (by assumption))
  · exact length_dropWhile_lt isNumberChar c cs
  · simp
  · exact length_dropWhile_lt Char.isAlpha c cs

/-- A unit as four hexadecimal digits, with leading zeros. -/
def unitDigits (u : Nat) : List Char :=
  [u / 4096 % 16, u / 256 % 16, u / 16 % 16, u % 16].map Radix.digitChar

/-- Quotes, backslashes and control characters are escaped. -/
def renderPart : StringPart → List Char
  | .char c =>
    if c = '"' ∨ c = '\\' then ['\\', c]
    else if isControl c then '\\' :: 'u' :: unitDigits c.toNat
    else [c]
  | .surrogate unit => '\\' :: 'u' :: unitDigits unit

def render : Token → List Char
  | openArray => ['[']
  | closeArray => [']']
  | openObject => ['\x7b']
  | closeObject => ['\x7d']
  | comma => [',']
  | colon => [':']
  | null => "null".toList
  | bool true => "true".toList
  | bool false => "false".toList
  | number literal => literal
  | string parts => '"' :: (parts.flatMap renderPart ++ ['"'])

end Token

end Chording.Json
