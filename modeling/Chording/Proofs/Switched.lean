import Chording.Proofs.NothingStuck

/-!
# A filter is a recognizer behind a switch

Without verdicts, timing and notices, what is left of a filter is a recognizer behind a switch (`Switched`).  While it
is on, the recognizer takes the events and the ticks, under the layers that were set last.  Going off flushes and resets
it.  A configuration that can be used flushes it and puts a recognizer of its own in its place.  A filter is in step
with its switched recognizer through every call (`step_switched`), and sends just what that one sends, although a
verdict may report the release of an action key as the event of the call (`refines_switched`).
-/

namespace Chording

/-- A recognizer that is on or off, and the layers under which it is asked. -/
structure Switched where
  recognizer : Recognizer
  on : Bool
  layers : ActiveLayers

namespace Switched

/-- The recognizer takes calls, one after another. -/
def ask (s : Switched) (calls : List Recognizer.Call) : Switched × List KeyEvent :=
  ({ s with recognizer := (s.recognizer.run calls).recognizer }, (s.recognizer.run calls).events)

/-- What a call of a host makes of a switched recognizer, and what goes on downstream. -/
def step (s : Switched) : KeyFilter.Call → Switched × List KeyEvent
  | .key event => if s.on then s.ask [.key event s.layers] else (s, [event])
  | .tick now => if s.on then s.ask [.tick now] else (s, [])
  | .setEnabled true _ => ({ s with on := true }, [])
  | .setEnabled false now =>
    if s.on then ({ (s.ask [.flush now, .reset]).1 with on := false }, (s.ask [.flush now, .reset]).2) else (s, [])
  | .loadConfig c now =>
    match Recognizer.ofConfig c with
    | .ok r => ({ s with recognizer := r }, (s.ask [.flush now]).2)
    | .error _ => (s, [])
  | .setLayers layers => ({ s with layers := layers }, [])
  | .startTiming | .stopTiming | .watch => (s, [])

/-- One call after another, and all that goes on. -/
def run (s : Switched) : List KeyFilter.Call → Switched × List KeyEvent
  | [] => (s, [])
  | call :: calls => (((s.step call).1.run calls).1, (s.step call).2 ++ ((s.step call).1.run calls).2)

end Switched

namespace KeyFilter

variable {f : KeyFilter}

/-- The filter without all that does not matter downstream. -/
def switched (f : KeyFilter) : Switched := ⟨f.recognizer, f.enabled, f.layers⟩

/-- What a host is told that makes these calls. -/
def answers (f : KeyFilter) : List Call → List (Reply × Option Bool)
  | [] => []
  | call :: calls => ((f.step call).reply, (f.step call).notice?) :: (f.step call).filter.answers calls

private theorem answers_append (f : KeyFilter) (calls calls' : List Call) :
    f.answers (calls ++ calls') = f.answers calls ++ (f.after calls).answers calls' := by
  induction calls generalizing f with
  | nil => rfl
  | cons call calls ih => exact congrArg (List.cons _) (ih _)

/-- In every call the filter and its switched recognizer do the same. -/
theorem step_switched (f : KeyFilter) (call : Call) :
    f.switched.step call = ((f.step call).filter.switched, f.sent call) := by
  cases call with
  | key event =>
    cases h : f.enabled with
    | true => simp [Switched.step, Switched.ask, switched, sent, KeyFilter.step, key, h, Recognizer.run_singleton,
        Recognizer.step]
    | false => simp [Switched.step, switched, sent, KeyFilter.step, key, h, Verdict.sent]
  | tick now =>
    cases h : f.enabled with
    | true => simp [Switched.step, Switched.ask, switched, sent, KeyFilter.step, tick, h, Recognizer.run_singleton,
        Recognizer.step]
    | false => simp [Switched.step, switched, sent, KeyFilter.step, tick, h]
  | setEnabled on now =>
    cases on with
    | true => cases h : f.enabled <;> simp [Switched.step, switched, sent, KeyFilter.step, setEnabled, h]
    | false =>
      cases h : f.enabled with
      | true =>
        simp [Switched.step, Switched.ask, switched, sent, KeyFilter.step, setEnabled, h, Recognizer.events_run_cons,
          Recognizer.recognizer_run_cons, Recognizer.step]
      | false => simp [Switched.step, switched, sent, KeyFilter.step, setEnabled, h]
  | loadConfig c now =>
    cases h : Recognizer.ofConfig c with
    | ok r => simp [Switched.step, Switched.ask, switched, sent, KeyFilter.step, loadConfig, h,
        Recognizer.run_singleton, Recognizer.step]
    | error e => simp [Switched.step, switched, sent, KeyFilter.step, loadConfig, h]
  | setLayers | startTiming | stopTiming | watch => rfl

private theorem run_switched (f : KeyFilter) (calls : List Call) :
    f.switched.run calls = ((f.after calls).switched, f.stream calls) := by
  induction calls generalizing f with
  | nil => rfl
  | cons call calls ih =>
    rw [Switched.run, step_switched, ih]
    rfl

private theorem fresh_of_off_after (h : f.enabled = false → f.recognizer.Fresh) (calls : List Call) :
    (f.after calls).enabled = false → (f.after calls).recognizer.Fresh := by
  induction calls generalizing f with
  | nil => exact h
  | cons call calls ih => exact ih (fresh_of_off_step h call)

/-- A configuration that cannot be used leaves the filter as it was. -/
private theorem step_of_refused {c : Config} {e : ConfigError} (h : Recognizer.ofConfig c = .error e) (f : KeyFilter)
    (now : Nat) : f.step (.loadConfig c now) = ⟨f, .refused e, none⟩ := by
  simp [KeyFilter.step, loadConfig, h]

/-- With nothing in flight nothing is sent when a configuration is loaded. -/
private theorem sent_of_fresh (h : f.recognizer.Fresh) (c : Config) (now : Nat) : f.sent (.loadConfig c now) = [] := by
  have hflush : (f.recognizer.flush now).events = [] := by
    simp [Recognizer.flush, Recognizer.resolve, h.entries, h.active, ChordTable.resolveAll, Outcome.events,
      ActiveChords.releaseAll, ActiveChords.held, EmptyCollection.emptyCollection, ActiveChords.empty]
  cases hc : Recognizer.ofConfig c with
  | ok r => simp [sent, KeyFilter.step, loadConfig, hc, hflush]
  | error e => simp [sent, KeyFilter.step, loadConfig, hc]

/-- Whatever calls a host makes, it sends what the switched recognizer sends, and leaves it in the same state.  A
configuration that is refused is answered with the reason, and everything behind it is answered as if it had not been
there.  A filter that is off has nothing in flight, so that nothing is sent when it changes its configuration. -/
theorem refines_switched {c : Config} (hc : ofConfig c = .ok f) (calls : List Call) :
    let g := f.after calls
    (∃ r, Recognizer.ofConfig c = .ok r ∧
      (Switched.mk r true fun _ => false).run calls = (g.switched, f.stream calls)) ∧
    (∀ c' e now later, Recognizer.ofConfig c' = .error e → ∃ told,
      f.answers (calls ++ .loadConfig c' now :: later) = f.answers calls ++ (.refused e, none) :: told ∧
      f.answers (calls ++ later) = f.answers calls ++ told) ∧
    (g.enabled = false →
      g.recognizer.pending.entries = [] ∧ g.recognizer.active.held = [] ∧
      (∀ a, g.recognizer.isConsumed a = false) ∧ ∀ c' now, g.sent (.loadConfig c' now) = []) := by
  intro g
  obtain ⟨hon, hr⟩ := ofConfig_eq_ok hc
  refine ⟨⟨f.recognizer, hr, ?_⟩, fun c' e now later he => ?_, fun hoff => ?_⟩
  · have hstart : f.switched = ⟨f.recognizer, true, fun _ => false⟩ := by
      rw [ofConfig, hr] at hc
      exact (congrArg switched (Except.ok.inj hc)).symm
    rw [← hstart]
    exact f.run_switched calls
  · refine ⟨g.answers later, ?_, f.answers_append calls later⟩
    rw [answers_append, answers, step_of_refused he]
  · have hfresh : g.recognizer.Fresh :=
      fresh_of_off_after (fun h => absurd (hon.symm.trans h) (by simp)) calls hoff
    refine ⟨hfresh.entries, ?_, hfresh.isConsumed, sent_of_fresh hfresh⟩
    rw [hfresh.active]
    rfl

/-- A chord is deferred when a configuration without room is refused, and the filter goes off; another configuration
is loaded before it goes on again. -/
def nestedReload : List Call :=
  [.key ⟨⟨0, 1⟩, ⟨4⟩, .down, 0⟩, .key ⟨⟨0, 2⟩, ⟨22⟩, .down, 1⟩, .loadConfig { capacity := 0 } 2, .setEnabled false 3,
    .key ⟨⟨0, 1⟩, ⟨4⟩, .up, 4⟩, .loadConfig .nested 5, .setEnabled true 6, .key ⟨⟨0, 2⟩, ⟨22⟩, .up, 7⟩]

/-- The refused configuration leaves the deferred chord alone, which goes on when the filter goes off. -/
theorem refines_switched_nestedReload :
    ∃ f r, ofConfig .nested = .ok f ∧ Recognizer.ofConfig .nested = .ok r ∧
      ((Switched.mk r true fun _ => false).run nestedReload).2 = [⟨⟨0, 1⟩, ⟨20⟩, .down, 3⟩, ⟨⟨0, 1⟩, ⟨20⟩, .up, 3⟩,
        ⟨⟨0, 1⟩, ⟨4⟩, .up, 4⟩, ⟨⟨0, 2⟩, ⟨22⟩, .up, 7⟩] ∧
      (∃ told, f.answers nestedReload =
          f.answers (nestedReload.take 2) ++ (.refused .zeroCapacity, none) :: told ∧
        f.answers (nestedReload.take 2 ++ nestedReload.drop 3) = f.answers (nestedReload.take 2) ++ told) ∧
      (f.after (nestedReload.take 5)).recognizer.pending.entries = [] ∧
      (f.after (nestedReload.take 5)).sent (.loadConfig .nested 5) = [] := by
  obtain ⟨f, hc⟩ : ∃ f, ofConfig .nested = .ok f := ⟨_, rfl⟩
  obtain ⟨⟨r, hr, hrun⟩, -, -⟩ := refines_switched hc nestedReload
  obtain ⟨-, hrefused, -⟩ := refines_switched hc (nestedReload.take 2)
  obtain ⟨-, -, hoff⟩ := refines_switched hc (nestedReload.take 5)
  obtain ⟨hentries, -, -, hsent⟩ := hoff (by cases hc; rfl)
  refine ⟨f, r, hc, hr, ?_, hrefused { capacity := 0 } .zeroCapacity 2 (nestedReload.drop 3) rfl, hentries, hsent _ _⟩
  rw [hrun]
  cases hc
  decide +kernel

end KeyFilter

end Chording
