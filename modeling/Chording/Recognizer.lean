import Chording.Active
import Chording.Config
import Chording.Resolution

/-!
# Recognizing chords

The recognizer turns a stream of key events into the stream that goes on downstream.  Presses of keys that take part
in chords are held back until they have become a chord or cannot become one any more, have waited too long, or are
released; then they go on in the order in which they came.  An address is at any time idle, pending or consumed.

Every call answers with emissions, which say why an event goes on: as the resolution of held presses, as the release
of an action key, or unchanged.
-/

namespace Chording

/-- Why an event goes on downstream. -/
inductive Emission
  /-- Held presses were resolved at that time. -/
  | resolved (r : Resolution) (now : Nat)
  /-- The action key of a chord was let go. -/
  | released (e : KeyEvent)
  /-- The event of the call goes on as it came. -/
  | passed (e : KeyEvent)

/-- The event that goes on.  A replayed press keeps its own time, and a chord is pressed at the address of its first
press. -/
def Emission.event : Emission → KeyEvent
  | resolved (.replay p) _ => p.event
  | resolved (.chord e first _) now => ⟨first.addr, e.chord.action, .down, now⟩
  | released e => e
  | passed e => e

/-- A recognizer of chords with its choices, and the state of the addresses that are not idle. -/
structure Recognizer where
  table : ChordTable
  timeout : UInt64
  disabledLayers : LayerSet
  pending : PendingQueue
  active : ActiveChords

/-- The recognizer after a call, and what goes on downstream. -/
structure Outcome where
  recognizer : Recognizer
  emissions : List Emission

namespace Outcome

def events (o : Outcome) : List KeyEvent := o.emissions.map (·.event)

/-- The outcome with earlier emissions put in front. -/
def after (earlier : List Emission) (o : Outcome) : Outcome :=
  { o with emissions := earlier ++ o.emissions }

@[simp]
theorem events_after (earlier : List Emission) (o : Outcome) :
    (o.after earlier).events = earlier.map (·.event) ++ o.events :=
  List.map_append

end Outcome

namespace Recognizer

/-- A recognizer with nothing in flight, for a configuration that can be used. -/
def ofConfig (c : Config) : Except ConfigError Recognizer :=
  c.validate.map fun table =>
    ⟨table, c.timeout, c.disabledLayers, .empty c.capacity.toNat c.overflow, ∅⟩

def isPending (r : Recognizer) (a : Address) : Bool := r.pending.contains a

def isConsumed (r : Recognizer) (a : Address) : Bool := r.active.isConsumed a

/-- How many action keys are held downstream. -/
def heldCount (r : Recognizer) : Nat := r.active.held.length

/-- Chords are not recognized while a disabled layer is active. -/
def isSuppressed (r : Recognizer) (layers : ActiveLayers) : Bool :=
  r.disabledLayers.anyActive layers

/-- The active chords after a resolution. -/
def activeAfter (now : Nat) (active : ActiveChords) : Resolution → ActiveChords
  | .replay _ => active
  | .chord e first others => (active.activate e.id e.chord.action (first :: others) now).active

/-- Puts the outcome of resolving the queue into effect. -/
def resolve (r : Recognizer) (now : Nat) (resolved : Resolved) : Outcome where
  recognizer := { r with
    pending := { r.pending with entries := resolved.queue }
    active := resolved.resolutions.foldl (activeAfter now) r.active }
  emissions := resolved.resolutions.map (.resolved · now)

/-- Resolves the queue as far as it is no longer worth waiting for. -/
def recheck (r : Recognizer) (now : Nat) : Outcome :=
  r.resolve now (r.table.recheck r.pending.entries)

/-- Holds back a press of a key that takes part in a chord. -/
def hold (r : Recognizer) (event : KeyEvent) : Outcome :=
  let (result, pending) := r.pending.push (.ofEvent event)
  let held := { r with pending := pending }
  match result with
  | .queued => held.recheck event.time
  | .evicted oldest => (held.recheck event.time).after [.resolved (.replay oldest) event.time]
  | .dropped => ⟨r, []⟩

/-- A press on a suppressing layer, or of a key in no chord, goes on behind all presses before it; on a suppressing
layer these form no chords.  A press at an address that is pending or consumed has no effect. -/
def press (r : Recognizer) (event : KeyEvent) (layers : ActiveLayers) : Outcome :=
  if r.isSuppressed layers then
    let o := r.resolve event.time ⟨r.pending.entries.map .replay, []⟩
    { o with emissions := o.emissions ++ [.passed event] }
  else if !r.table.isParticipant event.key then
    let o := r.resolve event.time ⟨r.table.resolveAll r.pending.entries, []⟩
    { o with emissions := o.emissions ++ [.passed event] }
  else if r.isPending event.addr || r.isConsumed event.addr then ⟨r, []⟩
  else r.hold event

/-- A release at an address that is not pending: of a chord, if the address is consumed. -/
def releaseIdle (r : Recognizer) (event : KeyEvent) : Outcome :=
  match r.active.release? event.addr event.time with
  | some change => ⟨{ r with active := change.active }, change.events.map .released⟩
  | none => ⟨r, [.passed event]⟩

/-- A release at a pending address: the presses up to that address go on, then the release, and what is left of the
queue is looked at again. -/
def releasePending (r : Recognizer) (event : KeyEvent) : Outcome :=
  let ahead := r.pending.entries.takeWhile fun p => p.addr ≠ event.addr
  let behind := r.pending.entries.dropWhile fun p => p.addr ≠ event.addr
  let replayed := r.resolve event.time ⟨(ahead ++ behind.take 1).map .replay, behind.drop 1⟩
  (replayed.recognizer.recheck event.time).after (replayed.emissions ++ [.passed event])

/-- A release.  At a pending address it first ends the wait for longer chords, which may consume the address. -/
def release (r : Recognizer) (event : KeyEvent) : Outcome :=
  if r.isPending event.addr then
    let settled := r.resolve event.time (r.table.settleOnce r.pending.entries)
    let rest :=
      if settled.recognizer.isPending event.addr then settled.recognizer.releasePending event
      else settled.recognizer.releaseIdle event
    rest.after settled.emissions
  else r.releaseIdle event

def key (r : Recognizer) (event : KeyEvent) (layers : ActiveLayers) : Outcome :=
  match event.edge with
  | .down => r.press event layers
  | .up => r.release event

/-- Resolves presses that have waited for too long.  Without a timeout there are none. -/
def tick (r : Recognizer) (now : Nat) : Outcome :=
  if r.timeout = 0 then ⟨r, []⟩
  else r.resolve now (r.table.expire r.timeout.toNat now r.pending.entries)

/-- Resolves everything in flight: all held presses, and then every held action key. -/
def flush (r : Recognizer) (now : Nat) : Outcome :=
  let o := r.resolve now ⟨r.table.resolveAll r.pending.entries, []⟩
  let change := o.recognizer.active.releaseAll now
  { recognizer := { o.recognizer with active := change.active }
    emissions := o.emissions ++ change.events.map .released }

/-- Forgets everything in flight. -/
def reset (r : Recognizer) : Recognizer :=
  { r with pending := r.pending.clear, active := ∅ }

/-- The calls that change a recognizer. -/
inductive Call
  | key (event : KeyEvent) (layers : ActiveLayers)
  | tick (now : Nat)
  | flush (now : Nat)
  | reset

def step (r : Recognizer) : Call → Outcome
  | .key event layers => r.key event layers
  | .tick now => r.tick now
  | .flush now => r.flush now
  | .reset => ⟨r.reset, []⟩

/-- One call after another. -/
def run (r : Recognizer) : List Call → Outcome
  | [] => ⟨r, []⟩
  | call :: calls => ((r.step call).recognizer.run calls).after (r.step call).emissions

end Recognizer

end Chording
