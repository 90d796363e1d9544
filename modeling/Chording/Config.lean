import Chording.Chord.Table
import Chording.Layer
import Chording.Pending

/-!
# Configurations

Everything that a user chooses: the chords, how long a press may wait for the rest of its chord, how many presses may
wait, what gives way when there are more, and the layers on which no chords are recognized.  A configuration can be
used if its queue has room for a press and all its chords are well formed.
-/

namespace Chording

/-- The choices of a user.  `timeout` is in milliseconds, and zero means that presses wait without end. -/
structure Config where
  chords : List ChordDef := []
  timeout : UInt64 := 1000
  capacity : UInt64 := 10
  disabledLayers : LayerSet := ∅
  overflow : OverflowPolicy := .evictOldest
deriving DecidableEq

/-- Why a configuration cannot be used. -/
inductive ConfigError
  | zeroCapacity
  | badChord (e : BadChord)
deriving DecidableEq

def ConfigError.message : ConfigError → String
  | zeroCapacity => "pending queue capacity must be at least 1"
  | badChord e => e.message

namespace Config

/-- The chord table of a configuration that can be used. -/
def validate (c : Config) : Except ConfigError ChordTable :=
  if c.capacity = 0 then .error .zeroCapacity
  else (ChordTable.ofDefs c.chords).mapError .badChord

variable {c : Config} {t : ChordTable}

theorem validate_of_ok (h : c.capacity ≠ 0) (ht : ChordTable.ofDefs c.chords = .ok t) : c.validate = .ok t := by
  rw [validate, if_neg h, ht]
  rfl

theorem validate_of_error {e : BadChord} (h : c.capacity ≠ 0) (he : ChordTable.ofDefs c.chords = .error e) :
    c.validate = .error (.badChord e) := by
  rw [validate, if_neg h, he]
  rfl

theorem validate_eq_ok_iff : c.validate = .ok t ↔ c.capacity ≠ 0 ∧ ChordTable.ofDefs c.chords = .ok t := by
  by_cases h : c.capacity = 0
  · simp [validate, h]
  · cases ht : ChordTable.ofDefs c.chords with
    | ok t' => simp [validate_of_ok h ht, h]
    | error e => simp [validate_of_error h ht]

end Config

end Chording
