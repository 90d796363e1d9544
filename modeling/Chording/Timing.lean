import Chording.Key.Event

/-!
# Key timings

The intervals between presses of the raw stream, as a help in choosing the timeout of chords.  Two presses close
together, with no release between them, look like an attempt at a chord.
-/

namespace Chording

/-- Presses less than this many milliseconds apart may be meant as a chord. -/
def chordHintMillis : Nat := 15

/-- What is recorded of a press: its key, the time since the press before it or zero if it is the first, and whether
the two may be meant as a chord. -/
structure TimingSample where
  key : KeyCode
  sinceLast : Nat
  chordHint : Bool
deriving DecidableEq

/-- Whether presses are recorded, the time of the last one, and whether the last event was a press. -/
structure KeyTimings where
  tracking : Bool := false
  lastPress? : Option Nat := none
  lastDown : Bool := false
deriving DecidableEq

namespace KeyTimings

/-- Starts afresh: no press has been seen yet. -/
def start : KeyTimings where
  tracking := true

def stop (k : KeyTimings) : KeyTimings :=
  { k with tracking := false }

/-- The sample of a press at that time. -/
def sample (k : KeyTimings) (key : KeyCode) (time : Nat) : TimingSample :=
  match k.lastPress? with
  | none => ⟨key, 0, false⟩
  | some last => ⟨key, time - last, k.lastDown && time - last < chordHintMillis⟩

/-- Records an event.  Only presses give a sample. -/
def observe (k : KeyTimings) (e : KeyEvent) : Option TimingSample × KeyTimings :=
  if !k.tracking then (none, k)
  else match e.edge with
    | .down => (some (k.sample e.key e.time), { k with lastPress? := some e.time, lastDown := true })
    | .up => (none, { k with lastDown := false })

end KeyTimings

end Chording
