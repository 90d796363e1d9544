import Chording.Config
import Chording.Text.Numeral

/-!
# Errors in chord files

What can be wrong with one line of a chord file, with the file as a whole, and with loading it.
-/

namespace Chording.ChordFile

/-- What is wrong with a line.  Texts are the offending parts without the blanks around them. -/
inductive LineError
  | missingEquals (line : List Char)
  | emptyKeyName
  | unknownKey (name : List Char)
  | unknownOverflow (text : List Char)
  | badTimeout (text : List Char) (why : NumeralError)
  | badCapacity (text : List Char) (why : NumeralError)
  | badLayer (text : List Char) (why : NumeralError)
  | layerOutOfRange (e : LayerOutOfRange)
deriving DecidableEq

def quoted (text : List Char) : String :=
  "\"" ++ String.ofList text ++ "\""

def LineError.message : LineError → String
  | missingEquals line => "expected '=' in " ++ quoted line
  | emptyKeyName => "empty key name"
  | unknownKey name => "unknown key " ++ quoted name
  | unknownOverflow text => "unknown overflow policy " ++ quoted text
  | badTimeout text why => "invalid timeout " ++ quoted text ++ ": " ++ why.message
  | badCapacity text why => "invalid queue size " ++ quoted text ++ ": " ++ why.message
  | badLayer text why => "invalid layer list: " ++ quoted text ++ ": " ++ why.message
  | layerOutOfRange e => "invalid layer list: " ++ e.message

/-- Why a text is no chord file: a faulty line, counted from 1, or a configuration that cannot be used. -/
inductive Error
  | atLine (number : Nat) (cause : LineError)
  | invalid (e : ConfigError)
deriving DecidableEq

def Error.message : Error → String
  | atLine number cause => s!"line {number}: " ++ cause.message
  | invalid e => e.message

/-- Why a chord file cannot be loaded: it cannot be read, or its text is no chord file. -/
inductive LoadError
  | unreadable
  | unparsable (e : Error)
deriving DecidableEq

/-- The message names the file. -/
def LoadError.message (path : String) : LoadError → String
  | unreadable => "reading " ++ path
  | unparsable e => "parsing " ++ path ++ ": " ++ e.message

end Chording.ChordFile
