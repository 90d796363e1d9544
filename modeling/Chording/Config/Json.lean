import Chording.Config
import Chording.Json.Text

/-!
# Configurations as JSON

A configuration is a record of five members, all of which may be missing, and a chord a record of two, both of which
are needed.  Reading takes no value for another: numbers are whole and in range, and an overflow policy is its name,
or an object with the name as its only member and `null` as the value.  `Config.renderJson` writes all five members.
-/

namespace Chording

namespace KeyCode

def toJson (key : KeyCode) : Json := .ofNat key.usage.toNat

def ofJson? (v : Json) : Option KeyCode :=
  (v.toNat? (UInt16.size - 1)).map fun usage => ⟨usage.toUInt16⟩

end KeyCode

namespace ChordDef

def memberNames : List String := ["keys", "action"]

def toJson (d : ChordDef) : Json :=
  .object ((memberNames.map fun name => Json.StringPart.ofText name.toList).zip
    [.array (d.keys.map KeyCode.toJson), d.action.toJson])

def ofJson? (v : Json) : Option ChordDef :=
  match v.members? memberNames with
  | some [some keys, some action] => do
    return ⟨← keys.toList? KeyCode.ofJson?, ← KeyCode.ofJson? action⟩
  | _ => none

end ChordDef

namespace OverflowPolicy

def toJson (policy : OverflowPolicy) : Json := .ofText policy.name.toList

def ofJson? : Json → Option OverflowPolicy
  | .object [(name, .null)] => (Json.StringPart.text? name).bind ofName?
  | v => v.toText?.bind ofName?

end OverflowPolicy

namespace LayerSet

def toJson (s : LayerSet) : Json := .ofNat s.bits.toNat

def ofJson? (v : Json) : Option LayerSet :=
  (v.toNat? (UInt32.size - 1)).map fun bits => ⟨BitVec.ofNat layerCount bits⟩

end LayerSet

namespace Config

def memberNames : List String := ["chords", "timeout_ms", "queue_capacity", "disabled_layers", "overflow"]

def wordOfJson? (v : Json) : Option UInt64 :=
  (v.toNat? (UInt64.size - 1)).map Nat.toUInt64

def toJson (c : Config) : Json :=
  .object ((memberNames.map fun name => Json.StringPart.ofText name.toList).zip
    [.array (c.chords.map ChordDef.toJson), .ofNat c.timeout.toNat, .ofNat c.capacity.toNat, c.disabledLayers.toJson,
      c.overflow.toJson])

/-- A member that may be missing. -/
def memberOr {α : Type} (default : α) (read? : Json → Option α) : Option Json → Option α
  | none => some default
  | some v => read? v

def ofJson? (v : Json) : Option Config :=
  let default : Config := {}
  match v.members? memberNames with
  | some [chords, timeout, capacity, disabledLayers, overflow] => do
    let chords ← memberOr default.chords (·.toList? ChordDef.ofJson?) chords
    let timeout ← memberOr default.timeout wordOfJson? timeout
    let capacity ← memberOr default.capacity wordOfJson? capacity
    let disabledLayers ← memberOr default.disabledLayers LayerSet.ofJson? disabledLayers
    let overflow ← memberOr default.overflow OverflowPolicy.ofJson? overflow
    return { chords, timeout, capacity, disabledLayers, overflow }
  | _ => none

/-- The configuration that a JSON text gives. -/
def parseJson? (text : List Char) : Option Config :=
  (Json.parse? text).bind ofJson?

/-- The JSON text of a configuration. -/
def renderJson (c : Config) : List Char := c.toJson.render

end Config

end Chording
