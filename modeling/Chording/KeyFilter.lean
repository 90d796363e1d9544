import Chording.Recognizer
import Chording.Timing

/-!
# Filtering keys for a host

The filter stands between a host and its keys: it takes one raw event at a time and says whether the host should
forward it, swallow it, or send other events in its place.  It can be switched off, when every key passes, and can
change its configuration while it runs; in both cases what is in flight is resolved first, and the answer holds the
events that are owed.
-/

namespace Chording

/-- What the host should do with the event that it handed over. -/
inductive Verdict
  | pass
  | block
  /-- Swallow the event and send these in its place. -/
  | inject (events : List KeyEvent)
deriving DecidableEq

namespace Verdict

/-- The verdict by which just these events go on in place of `event`. -/
def ofEvents (event : KeyEvent) (events : List KeyEvent) : Verdict :=
  if events = [] then .block
  else if events = [event] then .pass
  else .inject events

/-- What a host sends that obeys the verdict on `event`. -/
def sent (event : KeyEvent) : Verdict → List KeyEvent
  | pass => [event]
  | block => []
  | inject events => events

@[simp]
theorem sent_ofEvents (event : KeyEvent) (events : List KeyEvent) : (ofEvents event events).sent event = events := by
  unfold ofEvents
  split
  · simp_all [sent]
  · split <;> simp_all [sent]

end Verdict

/-- A filter: the recognizer at work and its configuration, whether it is switched on, the layers, the timing of the
raw keys, and whether the host wants to be told about switching. -/
structure KeyFilter where
  recognizer : Recognizer
  config : Config
  enabled : Bool
  layers : ActiveLayers
  timings : KeyTimings
  lastSample? : Option TimingSample
  watched : Bool

/-- What a call answers: a verdict on a key, events to be sent, a refused configuration, or nothing. -/
inductive Reply
  | verdict (v : Verdict)
  | events (events : List KeyEvent)
  | refused (e : ConfigError)
  | done
deriving DecidableEq

/-- The filter after a call, its reply, and the new state if the host is told that the filter was switched. -/
structure Answer where
  filter : KeyFilter
  reply : Reply
  notice? : Option Bool := none

namespace KeyFilter

/-- A filter that is switched on, with no layer active, no timing and nobody told about switching. -/
def ofConfig (c : Config) : Except ConfigError KeyFilter :=
  (Recognizer.ofConfig c).map fun recognizer =>
    { recognizer := recognizer
      config := c
      enabled := true
      layers := fun _ => false
      timings := {}
      lastSample? := none
      watched := false }

/-- Takes a raw event.  While the filter is off it passes and is not timed. -/
def key (f : KeyFilter) (event : KeyEvent) : Answer :=
  if !f.enabled then ⟨f, .verdict .pass, none⟩
  else
    let (sample?, timings) := f.timings.observe event
    let o := f.recognizer.key event f.layers
    { filter := { f with
        recognizer := o.recognizer
        timings := timings
        lastSample? := sample? <|> f.lastSample? }
      reply := .verdict (.ofEvents event o.events) }

/-- Resolves presses that have waited for too long. -/
def tick (f : KeyFilter) (now : Nat) : Answer :=
  if !f.enabled then ⟨f, .events [], none⟩
  else
    let o := f.recognizer.tick now
    ⟨{ f with recognizer := o.recognizer }, .events o.events, none⟩

/-- Switches the filter.  Switching it off resolves what is in flight, and then forgets it, because releases no
longer come by. -/
def setEnabled (f : KeyFilter) (on : Bool) (now : Nat) : Answer :=
  if f.enabled = on then ⟨f, .events [], none⟩
  else
    let notice? := if f.watched then some on else none
    if on then ⟨{ f with enabled := true }, .events [], notice?⟩
    else
      let o := f.recognizer.flush now
      ⟨{ f with enabled := false, recognizer := o.recognizer.reset }, .events o.events, notice?⟩

/-- Changes to another configuration.  One that cannot be used changes nothing. -/
def loadConfig (f : KeyFilter) (c : Config) (now : Nat) : Answer :=
  match Recognizer.ofConfig c with
  | .error e => ⟨f, .refused e, none⟩
  | .ok next => ⟨{ f with recognizer := next, config := c }, .events (f.recognizer.flush now).events, none⟩

/-- The calls that a host makes. -/
inductive Call
  | key (event : KeyEvent)
  | tick (now : Nat)
  | setEnabled (on : Bool) (now : Nat)
  | loadConfig (c : Config) (now : Nat)
  | setLayers (layers : ActiveLayers)
  | startTiming
  | stopTiming
  | watch

def step (f : KeyFilter) : Call → Answer
  | .key event => f.key event
  | .tick now => f.tick now
  | .setEnabled on now => f.setEnabled on now
  | .loadConfig c now => f.loadConfig c now
  | .setLayers layers => ⟨{ f with layers := layers }, .done, none⟩
  | .startTiming => ⟨{ f with timings := .start }, .done, none⟩
  | .stopTiming => ⟨{ f with timings := f.timings.stop }, .done, none⟩
  | .watch => ⟨{ f with watched := true }, .done, none⟩

/-- What a host sends after a call. -/
def sent (f : KeyFilter) (call : Call) : List KeyEvent :=
  match call, (f.step call).reply with
  | .key event, .verdict v => v.sent event
  | _, .events events => events
  | _, _ => []

end KeyFilter

end Chording
