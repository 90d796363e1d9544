import Chording.ChordFile.Error
import Chording.Key.Name

/-!
# Lines of a chord file

A line says one thing: the value of a setting, or a chord as its keys and its action key.  A comment runs from `#` or
`;` to the end of the line, and blanks count nowhere but inside a name.
-/

namespace Chording.ChordFile

/-- What a line says. -/
inductive Directive
  | timeout (millis : UInt64)
  | capacity (count : UInt64)
  | overflow (policy : OverflowPolicy)
  | disabledLayers (layers : LayerSet)
  | chord (d : ChordDef)
deriving DecidableEq

/-- A setting takes the place of its earlier value, and a chord is added at the end. -/
def Directive.apply (c : Config) : Directive → Config
  | timeout millis => { c with timeout := millis }
  | capacity count => { c with capacity := count }
  | overflow policy => { c with overflow := policy }
  | disabledLayers layers => { c with disabledLayers := layers }
  | chord d => { c with chords := c.chords ++ [d] }

/-- The settings that a line can give a value. -/
inductive Setting
  | timeout
  | capacity
  | overflow
  | disabledLayers
deriving DecidableEq

namespace Setting

def name : Setting → String
  | timeout => "timeout"
  | capacity => "queue"
  | overflow => "overflow"
  | disabledLayers => "disable_layers"

/-- The setting of that name, without regard to the case of its letters. -/
def ofName? (text : List Char) : Option Setting :=
  [timeout, capacity, overflow, disabledLayers].find? fun setting =>
    setting.name.toList = text.map Char.toLower

@[simp]
theorem ofName?_name (setting : Setting) : ofName? setting.name.toList = some setting := by
  cases setting <;> decide

end Setting

def readWord (text : List Char) : Except NumeralError UInt64 :=
  (Radix.decimal.read (UInt64.size - 1) text).map Nat.toUInt64

def readLayer (text : List Char) : Except LineError UInt8 :=
  ((Radix.decimal.read (UInt8.size - 1) text).map Nat.toUInt8).mapError (.badLayer text)

/-- Reads layers between commas.  Empty items count for nothing; all numbers are read before any is looked up. -/
def readLayers (text : List Char) : Except LineError LayerSet := do
  let items := ((text.splitOn ',').map trim).filter (· ≠ [])
  let layers ← items.mapM readLayer
  (LayerSet.ofList layers).mapError .layerOutOfRange

def readSetting (setting : Setting) (text : List Char) : Except LineError Directive :=
  match setting with
  | .timeout => ((readWord text).mapError (.badTimeout text)).map .timeout
  | .capacity => ((readWord text).mapError (.badCapacity text)).map .capacity
  | .overflow =>
    match OverflowPolicy.ofName? text with
    | some policy => .ok (.overflow policy)
    | none => .error (.unknownOverflow text)
  | .disabledLayers => (readLayers text).map .disabledLayers

def readKey (text : List Char) : Except LineError KeyCode :=
  if trim text = [] then .error .emptyKeyName
  else match KeyCode.ofName? text with
    | some key => .ok key
    | none => .error (.unknownKey (trim text))

/-- Reads the keys of a chord, which stand between plus signs, and then its action key. -/
def readChord (keys action : List Char) : Except LineError Directive := do
  let keys ← (keys.splitOn '+').mapM readKey
  let action ← readKey action
  return .chord ⟨keys, action⟩

/-- Reads what stands on the two sides of an equals sign. -/
def readSides (left right : List Char) : Except LineError Directive :=
  match Setting.ofName? left with
  | some setting => readSetting setting right
  | none => readChord left right

/-- The line without its comment and the blanks around it. -/
def content (line : List Char) : List Char :=
  trim (line.takeWhile fun c => c ≠ '#' && c ≠ ';')

/-- Reads a line; one without content says nothing. -/
def readLine (line : List Char) : Except LineError (Option Directive) :=
  if content line = [] then .ok none
  else match cutAt? '=' (content line) with
    | none => .error (.missingEquals (content line))
    | some (left, right) => (readSides (trim left) (trim right)).map some

end Chording.ChordFile
