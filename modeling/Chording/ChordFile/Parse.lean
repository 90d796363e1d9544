import Chording.ChordFile.Line
import Chording.Text.Encoding.Detect

/-!
# Reading chord files

A chord file gives a configuration line by line, starting from the default one.  The first faulty line counts; only
a file without one is checked as a whole.
-/

namespace Chording.ChordFile

/-- What the lines say of a configuration `c`; the first of them has that number. -/
def readLines (number : Nat) (c : Config) : List (List Char) → Except Error Config
  | [] => .ok c
  | line :: rest =>
    match readLine line with
    | .error cause => .error (.atLine number cause)
    | .ok none => readLines (number + 1) c rest
    | .ok (some directive) => readLines (number + 1) (directive.apply c) rest

/-- A configuration that can be used. -/
def checked (c : Config) : Except Error Config :=
  match c.validate with
  | .error e => .error (.invalid e)
  | .ok _ => .ok c

/-- The configuration that a chord file gives. -/
def parse (text : List Char) : Except Error Config := do
  let c ← readLines 1 {} (lines text)
  checked c

/-- The configuration of a file with those bytes; `none` stands for a file that cannot be read. -/
def load : Option (List UInt8) → Except LoadError Config
  | none => .error .unreadable
  | some bytes => (parse (decodeText bytes)).mapError .unparsable

theorem readLines_append (number : Nat) (c : Config) (first second : List (List Char)) :
    readLines number c (first ++ second) =
      (readLines number c first).bind fun c' => readLines (number + first.length) c' second := by
  induction first generalizing number c with
  | nil => rfl
  | cons line rest ih =>
    have e : number + 1 + rest.length = number + (line :: rest).length := by simp only [List.length_cons]; omega
    simp only [List.cons_append, readLines]
    split
    · rfl
    · rw [ih, e]
    · rw [ih, e]

end Chording.ChordFile
