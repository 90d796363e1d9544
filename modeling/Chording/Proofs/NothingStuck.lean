import Chording.Proofs.CleanRuns
import Chording.Proofs.Sessions

/-!
# No key is stuck

A filter may be switched off and on, and its configuration changed, in the middle of a chord.  A recognizer is given up
only after everything in flight was resolved, and what remains of the presses that it took are releases at addresses
where no key is down.  So at any time a key that is down downstream is down in the raw stream (`stream_down`).
-/

namespace Chording

namespace KeyFilter

variable {f : KeyFilter}

/-- How many chords are activated in a call. -/
def activated (f : KeyFilter) (call : Call) : Nat :=
  activations (f.recognizer.run (f.asks call)).emissions

/-- No recognizer runs out of slots before another one is loaded: it activates fewer than 2^32 chords.  The one at
work has activated `used`. -/
def FewActivations (f : KeyFilter) (used : Nat) : List Call → Prop
  | [] => True
  | call :: calls =>
    used + f.activated call < UInt32.size ∧
      (f.step call).filter.FewActivations (if call.loaded?.isSome then 0 else used + f.activated call) calls

instance decidableFewActivations (f : KeyFilter) (used : Nat) : (calls : List Call) →
    Decidable (f.FewActivations used calls)
  | [] => inferInstanceAs (Decidable True)
  | call :: calls =>
    have := decidableFewActivations (f.step call).filter
      (if call.loaded?.isSome then 0 else used + f.activated call) calls
    inferInstanceAs (Decidable (_ ∧ _))

/-- While the filter is off nothing is in flight. -/
structure InStep (n : Nat) (raw sent : List KeyEvent) (f : KeyFilter) : Prop where
  recognizer : Recognizer.InStep True n raw sent f.recognizer
  fresh_of_off : f.enabled = false → f.recognizer.Fresh

theorem fresh_of_off_step (h : f.enabled = false → f.recognizer.Fresh) (call : Call) :
    (f.step call).filter.enabled = false → (f.step call).filter.recognizer.Fresh := by
  rw [enabled_step, recognizer_step]
  cases call with
  | key | tick =>
    intro hoff
    simp only [asks, hoff]
    exact h hoff
  | setEnabled on now =>
    -- a filter that goes off forgets what was in flight, and one that was off had nothing
    rintro rfl
    cases hon : f.enabled with
    | false =>
      simp only [asks, hon]
      exact h hon
    | true =>
      simp only [asks, hon]
      exact Recognizer.fresh_reset _
  | loadConfig c now =>
    intro hoff
    cases hc : Recognizer.ofConfig c with
    | error e =>
      simp only [asks, Call.loaded?, hc]
      exact h hoff
    | ok r =>
      simp only [Call.loaded?, hc]
      exact Recognizer.fresh_ofConfig hc
  | setLayers | startTiming | stopTiming | watch => exact h

/-- A call by which no recognizer is given up. -/
private theorem InStep.goOn {n : Nat} {raw sent : List KeyEvent} (h : InStep n raw sent f) {call : Call}
    (hl : call.loaded? = none) (hr : ∀ ask ∈ f.asks call, ask ≠ .reset)
    (hev : (f.asks call).flatMap Recognizer.Call.events = call.events)
    (hsent : f.sent call = (f.recognizer.run (f.asks call)).events) (hclean : Clean (raw ++ call.events))
    (hlt : n + f.activated call < UInt32.size) :
    Recognizer.InStep True (n + f.activated call) (raw ++ call.events) (sent ++ f.sent call)
      (f.step call).filter.recognizer := by
  rw [recognizer_step, hl, hsent, ← hev]
  exact h.recognizer.run (Or.inl trivial) hr (hev ▸ hclean) hlt

/-- A call by which the recognizer at work is given up, after a flush. -/
private theorem InStep.giveUp {n : Nat} {raw sent : List KeyEvent} (h : InStep n raw sent f) {call : Call} {now : Nat}
    (hev : call.events = []) (hrun : (f.recognizer.run (f.asks call)).emissions = (f.recognizer.flush now).emissions)
    (hfresh : (f.step call).filter.recognizer.Fresh) (hclean : Clean (raw ++ call.events))
    (hlt : n + f.activated call < UInt32.size) (m : Nat) :
    Recognizer.InStep True m (raw ++ call.events) (sent ++ f.sent call) (f.step call).filter.recognizer := by
  have hsent : f.sent call = (f.recognizer.flush now).events := by
    rw [sent_eq, hev, ite_self, List.nil_append, Outcome.events, hrun]
    rfl
  rw [activated, hrun] at hlt
  rw [hev, List.append_nil] at hclean ⊢
  rw [hsent]
  exact h.recognizer.takeOver_flush hclean hlt hfresh m

/-- Every call keeps the streams in step. -/
private theorem InStep.step {n : Nat} {raw sent : List KeyEvent} (h : InStep n raw sent f) {call : Call}
    (hclean : Clean (raw ++ call.events)) (hlt : n + f.activated call < UInt32.size) :
    InStep (if call.loaded?.isSome then 0 else n + f.activated call) (raw ++ call.events) (sent ++ f.sent call)
      (f.step call).filter := by
  refine ⟨?_, fresh_of_off_step h.fresh_of_off call⟩
  cases call with
  | key event =>
    cases hon : f.enabled with
    | true =>
      have hasks : f.asks (.key event) = [.key event f.layers] := by simp [asks, hon]
      exact h.goOn rfl (by simp [hasks]) (by simp [hasks]; rfl) (by simp [sent_eq, hon]) hclean hlt
    | false =>
      -- the event passes by a recognizer that knows of no press
      have hasks : f.asks (.key event) = [] := by simp [asks, hon]
      have hsent : f.sent (.key event) = [event] := by simp [sent_eq, hasks, hon, Call.events]
      have hact : f.activated (.key event) = 0 := by simp [activated, hasks]
      have hfresh := h.fresh_of_off hon
      rw [recognizer_step, hasks, hsent, hact]
      exact h.recognizer.pass hclean (hfresh.isPending event.addr) (hfresh.isConsumed event.addr)
  | tick now =>
    have hasks : f.asks (.tick now) = [] ∨ f.asks (.tick now) = [.tick now] := by
      cases hon : f.enabled <;> simp [asks, hon]
    refine h.goOn rfl ?_ ?_ (by simp [sent_eq, Call.events]) hclean hlt
    · rcases hasks with ha | ha <;> simp [ha]
    · rcases hasks with ha | ha <;> simp [ha] <;> rfl
  | setEnabled on now =>
    by_cases hoff : f.enabled = true ∧ on = false
    · obtain ⟨hon, rfl⟩ := hoff
      have hasks : f.asks (.setEnabled false now) = [.flush now, .reset] := by simp [asks, hon]
      have hfresh : (f.step (.setEnabled false now)).filter.recognizer.Fresh := by
        rw [recognizer_step, hasks]
        exact Recognizer.fresh_reset _
      have hrun : (f.recognizer.run (f.asks (.setEnabled false now))).emissions =
          (f.recognizer.flush now).emissions := by
        rw [hasks, Recognizer.emissions_run_cons, Recognizer.run_singleton]
        exact List.append_nil _
      exact h.giveUp rfl hrun hfresh hclean hlt _
    · have hasks : f.asks (.setEnabled on now) = [] := by
        cases hon : f.enabled <;> cases on <;> simp_all [asks]
      exact h.goOn rfl (by simp [hasks]) (by simp [hasks, Call.events]) (by simp [sent_eq, Call.events]) hclean hlt
  | loadConfig c now =>
    cases hc : Recognizer.ofConfig c with
    | error e =>
      have hl : (Call.loadConfig c now).loaded? = none := by simp [Call.loaded?, hc, Except.toOption]
      have hasks : f.asks (.loadConfig c now) = [] := by simp [asks, hc, Except.isOk, Except.toBool]
      rw [hl]
      exact h.goOn hl (by simp [hasks]) (by simp [hasks, Call.events]) (by simp [sent_eq, Call.events]) hclean hlt
    | ok r =>
      have hl : (Call.loadConfig c now).loaded? = some r := by simp [Call.loaded?, hc, Except.toOption]
      have hasks : f.asks (.loadConfig c now) = [.flush now] := by simp [asks, hc, Except.isOk, Except.toBool]
      have hfresh : (f.step (.loadConfig c now)).filter.recognizer.Fresh := by
        rw [recognizer_step, hl]
        exact Recognizer.fresh_ofConfig hc
      have hrun : (f.recognizer.run (f.asks (.loadConfig c now))).emissions =
          (f.recognizer.flush now).emissions := by
        rw [hasks, Recognizer.run_singleton]
        rfl
      exact h.giveUp rfl hrun hfresh hclean hlt _
  | setLayers | startTiming | stopTiming | watch =>
    exact h.goOn rfl (by simp [asks]) (by simp [asks, Call.events]) (by simp [sent_eq, Call.events]) hclean hlt

/-- Any part of the calls keeps the streams in step, and leaves slots for the rest of them. -/
theorem InStep.after {n : Nat} {raw sent : List KeyEvent} (h : InStep n raw sent f) {front rest : List Call}
    (hclean : Clean (raw ++ front.flatMap Call.events)) (hfew : f.FewActivations n (front ++ rest)) :
    ∃ n', InStep n' (raw ++ front.flatMap Call.events) (sent ++ f.stream front) (f.after front) ∧
      (f.after front).FewActivations n' rest := by
  induction front generalizing n raw sent f with
  | nil =>
    refine ⟨n, ?_, hfew⟩
    rw [KeyFilter.stream, List.flatMap_nil, List.append_nil, List.append_nil]
    exact h
  | cons call front ih =>
    obtain ⟨hlt, hfew⟩ := hfew
    rw [List.flatMap_cons, ← List.append_assoc] at hclean ⊢
    rw [KeyFilter.stream, ← List.append_assoc]
    exact ih (h.step hclean.of_append hlt) hclean hfew

private theorem InStep.stream {n : Nat} {raw sent : List KeyEvent} (h : InStep n raw sent f) {calls : List Call}
    (hclean : Clean (raw ++ calls.flatMap Call.events)) (hfew : f.FewActivations n calls) :
    ∃ n' f', InStep n' (raw ++ calls.flatMap Call.events) (sent ++ f.stream calls) f' := by
  rw [← List.append_nil calls] at hfew
  obtain ⟨n', hafter, -⟩ := h.after hclean hfew
  exact ⟨n', _, hafter⟩

/-- Whatever a host does with a filter, a key that is down downstream is down in the raw stream.  In particular,
nothing is held downstream once every key was released. -/
theorem stream_down {c : Config} (hc : ofConfig c = .ok f) {calls : List Call}
    (hclean : Clean (calls.flatMap Call.events)) (hfew : f.FewActivations 0 calls) :
    (∀ a, heldAt (f.stream calls) a ≠ none → heldAt (calls.flatMap Call.events) a ≠ none) ∧
    ((∀ a, heldAt (calls.flatMap Call.events) a = none) → ∀ a, heldAt (f.stream calls) a = none) := by
  obtain ⟨hon, hr⟩ := ofConfig_eq_ok hc
  have hfresh := Recognizer.fresh_ofConfig hr
  have hstart : InStep 0 [] [] f := ⟨.start hfresh True, fun _ => hfresh⟩
  obtain ⟨n, f', hf'⟩ := hstart.stream hclean hfew
  have hdown : ∀ a, heldAt (f.stream calls) a ≠ none → heldAt (calls.flatMap Call.events) a ≠ none := fun a =>
    hf'.recognizer.down_of_sent
  exact ⟨hdown, fun hup a => by_contra fun ha => hdown a ha (hup a)⟩

/-- The keys of a chord are down when the filter is switched off, and come up before and after it is switched on. -/
def nestedSwitch : List Call :=
  [.key ⟨⟨0, 1⟩, ⟨4⟩, .down, 0⟩, .key ⟨⟨0, 2⟩, ⟨22⟩, .down, 1⟩, .setEnabled false 2, .key ⟨⟨0, 1⟩, ⟨4⟩, .up, 3⟩,
    .setEnabled true 4, .key ⟨⟨0, 2⟩, ⟨22⟩, .up, 5⟩]

/-- The chord is pressed and released at once, and the releases of its keys go on. -/
theorem stream_nestedSwitch :
    ∃ f, ofConfig .nested = .ok f ∧
      f.stream nestedSwitch = [⟨⟨0, 1⟩, ⟨20⟩, .down, 2⟩, ⟨⟨0, 1⟩, ⟨20⟩, .up, 2⟩, ⟨⟨0, 1⟩, ⟨4⟩, .up, 3⟩,
        ⟨⟨0, 2⟩, ⟨22⟩, .up, 5⟩] ∧
      ∀ a, heldAt (f.stream nestedSwitch) a = none := by
  refine ⟨_, rfl, by decide +kernel, ?_⟩
  have hclean : Clean (nestedSwitch.flatMap Call.events) := by decide
  have hup : ∀ a, heldAt (nestedSwitch.flatMap Call.events) a = none := forall_heldAt_eq_none.2 (by decide)
  exact (stream_down (c := .nested) rfl hclean (by decide +kernel)).2 hup

end KeyFilter

end Chording
