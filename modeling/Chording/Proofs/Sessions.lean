import Chording.KeyFilter
import Chording.Proofs.Calls

/-!
# Sessions of a filter

What a host sends that makes one call to a filter after another (`stream`), and the filter behind them (`after`), told
by the recognizers that work for it.  A call asks the recognizer at work for something (`asks`), and what the host
sends is what the recognizer answers, behind the event of the call if the filter is off (`sent_eq`).  A configuration
that is loaded brings a recognizer of its own (`recognizer_step`).
-/

namespace Chording

namespace KeyFilter

/-- The raw events that a call hands over. -/
def Call.events : Call → List KeyEvent
  | key event => [event]
  | _ => []

/-- The recognizer that a call brings, if it loads a configuration that can be used. -/
def Call.loaded? : Call → Option Recognizer
  | loadConfig c _ => (Recognizer.ofConfig c).toOption
  | _ => none

/-- What a call asks of the recognizer at work.  It is asked for everything in flight when it is given up, and when
the filter is switched off. -/
def asks (f : KeyFilter) : Call → List Recognizer.Call
  | .key event => if f.enabled then [.key event f.layers] else []
  | .tick now => if f.enabled then [.tick now] else []
  | .setEnabled on now => if f.enabled && !on then [.flush now, .reset] else []
  | .loadConfig c now => if (Recognizer.ofConfig c).isOk then [.flush now] else []
  | _ => []

/-- What a host sends that makes these calls. -/
def stream (f : KeyFilter) : List Call → List KeyEvent
  | [] => []
  | call :: calls => f.sent call ++ (f.step call).filter.stream calls

/-- The filter after calls, one after another. -/
def after (f : KeyFilter) : List Call → KeyFilter
  | [] => f
  | call :: calls => (f.step call).filter.after calls

/-- What calls ask, one after another, of the recognizers at work. -/
def asked (f : KeyFilter) : List Call → List Recognizer.Call
  | [] => []
  | call :: calls => f.asks call ++ (f.step call).filter.asked calls

/-- What the recognizer at work answers in a call. -/
def emissions (f : KeyFilter) (call : Call) : List Emission :=
  (f.recognizer.run (f.asks call)).emissions

variable {f : KeyFilter}

theorem after_append (f : KeyFilter) (calls calls' : List Call) :
    f.after (calls ++ calls') = (f.after calls).after calls' := by
  induction calls generalizing f with
  | nil => rfl
  | cons call calls ih => exact ih _

theorem ofConfig_eq_ok {c : Config} (h : ofConfig c = .ok f) :
    f.enabled = true ∧ Recognizer.ofConfig c = .ok f.recognizer := by
  unfold ofConfig at h
  cases hr : Recognizer.ofConfig c with
  | error e => rw [hr] at h; cases h
  | ok r =>
    rw [hr] at h
    cases h
    exact ⟨rfl, rfl⟩

/-- A loaded recognizer takes over from the one at work. -/
theorem recognizer_step (f : KeyFilter) (call : Call) :
    (f.step call).filter.recognizer = call.loaded?.getD (f.recognizer.run (f.asks call)).recognizer := by
  cases call with
  | key event =>
    cases h : f.enabled <;>
      simp [step, key, asks, h, Call.loaded?, Recognizer.recognizer_run_cons, Recognizer.step]
  | tick now =>
    cases h : f.enabled <;>
      simp [step, tick, asks, h, Call.loaded?, Recognizer.recognizer_run_cons, Recognizer.step]
  | setEnabled on now =>
    cases h : f.enabled <;> cases on <;>
      simp [step, setEnabled, asks, h, Call.loaded?, Recognizer.recognizer_run_cons, Recognizer.step]
  | loadConfig c now =>
    cases h : Recognizer.ofConfig c <;>
      simp [step, loadConfig, asks, h, Call.loaded?, Except.toOption, Except.isOk, Except.toBool]
  | setLayers | startTiming | stopTiming | watch => rfl

theorem enabled_step (f : KeyFilter) (call : Call) :
    (f.step call).filter.enabled = match call with
      | .setEnabled on _ => on
      | _ => f.enabled := by
  cases call with
  | key event => cases h : f.enabled <;> simp [step, key, h]
  | tick now => cases h : f.enabled <;> simp [step, tick, h]
  | setEnabled on now => cases on <;> cases h : f.enabled <;> simp [step, setEnabled, h]
  | loadConfig c now => cases h : Recognizer.ofConfig c <;> simp [step, loadConfig, h]
  | setLayers | startTiming | stopTiming | watch => rfl

/-- The event of a call goes on if the filter is off, and then what the recognizer at work answers. -/
theorem sent_eq (f : KeyFilter) (call : Call) :
    f.sent call = (if f.enabled then [] else call.events) ++ (f.recognizer.run (f.asks call)).events := by
  cases call with
  | key event =>
    cases h : f.enabled with
    | false => simp [sent, step, key, asks, h, Call.events, Verdict.sent]
    | true => simp [sent, step, key, asks, h, Recognizer.run_singleton, Recognizer.step]
  | tick now =>
    cases h : f.enabled with
    | false => simp [sent, step, tick, asks, h, Call.events]
    | true => simp [sent, step, tick, asks, h, Recognizer.run_singleton, Recognizer.step]
  | setEnabled on now =>
    cases h : f.enabled <;> cases on <;>
      simp [sent, step, setEnabled, asks, h, Call.events, Recognizer.events_run_cons, Recognizer.step]
  | loadConfig c now =>
    cases h : Recognizer.ofConfig c with
    | error e => simp [sent, step, loadConfig, asks, h, Call.events, Except.isOk, Except.toBool]
    | ok r =>
      simp [sent, step, loadConfig, asks, h, Call.events, Except.isOk, Except.toBool, Recognizer.run_singleton,
        Recognizer.step]
  | setLayers | startTiming | stopTiming | watch => simp [sent, step, asks, Call.events]

/-- Until another recognizer is loaded, the one at work takes all that the calls ask. -/
theorem recognizer_after {calls : List Call} (hl : ∀ call ∈ calls, call.loaded? = none) :
    (f.after calls).recognizer = (f.recognizer.run (f.asked calls)).recognizer := by
  induction calls generalizing f with
  | nil => rfl
  | cons call calls ih =>
    obtain ⟨hcall, hl⟩ := List.forall_mem_cons.1 hl
    rw [after, ih hl, recognizer_step, hcall, asked, Recognizer.recognizer_run_append]
    rfl

/-! ### Filters that stay on -/

/-- The call does not switch the filter off. -/
def Call.KeepsOn : Call → Prop
  | setEnabled on _ => on = true
  | _ => True

instance : (call : Call) → Decidable call.KeepsOn
  | .setEnabled on _ => inferInstanceAs (Decidable (on = true))
  | .key _ | .tick _ | .loadConfig _ _ | .setLayers _ | .startTiming | .stopTiming | .watch =>
    inferInstanceAs (Decidable True)

theorem enabled_step_of_on (hon : f.enabled = true) {call : Call} (hk : call.KeepsOn) :
    (f.step call).filter.enabled = true := by
  rw [enabled_step]
  cases call with
  | setEnabled on now => exact hk
  | key | tick | loadConfig | setLayers | startTiming | stopTiming | watch => exact hon

theorem enabled_after (hon : f.enabled = true) {calls : List Call} (hk : ∀ call ∈ calls, call.KeepsOn) :
    (f.after calls).enabled = true := by
  induction calls generalizing f with
  | nil => exact hon
  | cons call calls ih =>
    obtain ⟨hcall, hk⟩ := List.forall_mem_cons.1 hk
    exact ih (enabled_step_of_on hon hcall) hk

end KeyFilter

end Chording
