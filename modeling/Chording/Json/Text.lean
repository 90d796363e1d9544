import Chording.Json.Token

/-!
# JSON texts

Values are read from tokens one token at a time, with the arrays and objects that are still open on a stack, and
written as tokens without blanks between them.
-/

namespace Chording.Json

/-- An array or object that is still open, with what has been read of it. -/
inductive Frame
  | items (done : List Json)
  | members (done : List (List StringPart × Json)) (name : List StringPart)

/-- How far a text has been read; the frames are the open arrays and objects, innermost first. -/
inductive Progress
  /-- A value has to follow. -/
  | value (frames : List Frame)
  /-- An array was opened. -/
  | arrayStart (frames : List Frame)
  /-- An object was opened. -/
  | objectStart (frames : List Frame)
  /-- A further member has to follow. -/
  | member (done : List (List StringPart × Json)) (frames : List Frame)
  /-- The colon after the name of a member has to follow. -/
  | name (done : List (List StringPart × Json)) (name : List StringPart) (frames : List Frame)
  /-- A value has just ended. -/
  | ended (v : Json) (frames : List Frame)

namespace Progress

/-- Starts a value. -/
def startValue (frames : List Frame) : Token → Option Progress
  | .openArray => some (arrayStart frames)
  | .openObject => some (objectStart frames)
  | .null => some (ended .null frames)
  | .bool b => some (ended (.bool b) frames)
  | .number literal => some (ended (.number literal) frames)
  | .string parts => some (ended (.string parts) frames)
  | _ => none

/-- Reads one more token. -/
def next? : Progress → Token → Option Progress
  | value frames, token => startValue frames token
  | arrayStart frames, .closeArray => some (ended (.array []) frames)
  | arrayStart frames, token => startValue (.items [] :: frames) token
  | objectStart frames, .closeObject => some (ended (.object []) frames)
  | objectStart frames, .string n => some (name [] n frames)
  | member done frames, .string n => some (name done n frames)
  | name done n frames, .colon => some (value (.members done n :: frames))
  | ended v (.items done :: frames), .comma => some (value (.items (done ++ [v]) :: frames))
  | ended v (.items done :: frames), .closeArray => some (ended (.array (done ++ [v])) frames)
  | ended v (.members done n :: frames), .comma => some (member (done ++ [(n, v)]) frames)
  | ended v (.members done n :: frames), .closeObject => some (ended (.object (done ++ [(n, v)])) frames)
  | _, _ => none

/-- The value that was read, if nothing is open. -/
def result? : Progress → Option Json
  | ended v [] => some v
  | _ => none

end Progress

/-- The value of a sequence of tokens. -/
def ofTokens? (tokens : List Token) : Option Json :=
  (tokens.foldlM Progress.next? (.value [])).bind Progress.result?

/-- The value of a text. -/
def parse? (text : List Char) : Option Json :=
  (Token.lex? text).bind ofTokens?

mutual

/-- The tokens of a value. -/
def tokens : Json → List Token
  | .null => [.null]
  | .bool b => [.bool b]
  | .number literal => [.number literal]
  | .string parts => [.string parts]
  | .array [] => [.openArray, .closeArray]
  | .array (v :: vs) => .openArray :: (tokens v ++ furtherItems vs)
  | .object [] => [.openObject, .closeObject]
  | .object ((n, v) :: ms) => .openObject :: .string n :: .colon :: (tokens v ++ furtherMembers ms)

/-- The items of an array after the first one, and its end. -/
def furtherItems : List Json → List Token
  | [] => [.closeArray]
  | v :: vs => .comma :: (tokens v ++ furtherItems vs)

/-- The members of an object after the first one, and its end. -/
def furtherMembers : List (List StringPart × Json) → List Token
  | [] => [.closeObject]
  | (n, v) :: ms => .comma :: .string n :: .colon :: (tokens v ++ furtherMembers ms)

end

/-- The text of a value, without blanks. -/
def render (v : Json) : List Char :=
  v.tokens.flatMap Token.render

end Chording.Json
