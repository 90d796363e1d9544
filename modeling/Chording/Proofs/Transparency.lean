import Chording.Proofs.AddressStates
import Chording.Proofs.InStep

/-!
# Keys outside chording

A key that is in no chord, or is pressed on a suppressing layer, goes on as it came, behind all presses before it.
Its release is told by the address alone, and so goes on untouched only because the address is idle all the time: it
is idle when it is pressed, because an address where a press is in flight is down in the raw stream
(`down_of_busy`), and it stays idle until it is pressed again (`Idle.run`).
-/

namespace Chording

namespace Recognizer

variable {r : Recognizer} {event : KeyEvent} {layers : ActiveLayers}

/-! ### Addresses where a press is in flight -/

theorem down_of_busy_step (h : r.Coherent) {raw : List KeyEvent} (hdown : ∀ a, ¬r.Idle a → heldAt raw a ≠ none)
    (call : Call) : ∀ a, ¬(r.step call).recognizer.Idle a → heldAt (raw ++ call.events) a ≠ none := by
  intro a ha
  have hkept : (∀ e ∈ call.events, e.edge = .down → e.addr ≠ a) → heldAt raw a ≠ none := fun hcall =>
    hdown a fun hi => ha (hi.step h hcall)
  cases call with
  | tick | flush | reset =>
    show heldAt (raw ++ []) a ≠ none
    rw [List.append_nil]
    exact hkept (by simp [Call.events])
  | key event layers =>
    rw [Call.events, heldAt_concat]
    by_cases haddr : event.addr = a
    · subst haddr
      cases he : event.edge with
      | down => simp [KeyEvent.held?, he]
      | up =>
        -- a release leaves its address idle
        refine absurd ?_ ha
        rw [show r.step (.key event layers) = r.release event from key_of_up he layers]
        exact idle_release h event
    · rw [if_neg haddr]
      refine hkept fun e hm _ => ?_
      rw [List.mem_singleton.1 hm]
      exact haddr

/-- Where a press is in flight, the key is down in the raw stream. -/
theorem down_of_busy_run (h : r.Coherent) (raw : List KeyEvent) (hdown : ∀ a, ¬r.Idle a → heldAt raw a ≠ none)
    (calls : List Call) :
    ∀ a, ¬(r.run calls).recognizer.Idle a → heldAt (raw ++ calls.flatMap Call.events) a ≠ none := by
  induction calls generalizing r raw with
  | nil =>
    rw [List.flatMap_nil, List.append_nil]
    exact hdown
  | cons call calls ih =>
    rw [List.flatMap_cons, ← List.append_assoc]
    exact ih (h.run [call]) _ (down_of_busy_step h hdown call)

theorem down_of_busy (hf : r.Fresh) (calls : List Call) :
    ∀ a, ¬(r.run calls).recognizer.Idle a → heldAt (calls.flatMap Call.events) a ≠ none :=
  down_of_busy_run (coherent_of_fresh hf) [] (fun a ha => absurd (hf.idle a) ha) calls

/-- In a clean stream an address is idle when it is pressed. -/
private theorem idle_of_clean_press (hf : r.Fresh) {front : List Call} (he : event.edge = .down)
    (hclean : Clean (front.flatMap Call.events ++ [event])) : (r.run front).recognizer.Idle event.addr := by
  have hup : heldAt (front.flatMap Call.events) event.addr = none := (clean_concat.1 hclean).2.1 he
  exact Decidable.not_not.1 fun hbusy => down_of_busy hf front event.addr hbusy hup

/-- A release at an idle address goes on as it came, and changes nothing. -/
theorem key_of_idle_release (he : event.edge = .up) (hi : r.Idle event.addr) (layers : ActiveLayers) :
    r.key event layers = ⟨r, [.passed event]⟩ := by
  rw [key_of_up he, release_of_not_pending hi.1, releaseIdle_of_not_consumed hi.2]
  rfl

/-! ### Presses that are not held -/

/-- The event goes on as it came, behind all held presses, and no address becomes busy. -/
structure GoesOn (r : Recognizer) (event : KeyEvent) (o : Outcome) : Prop where
  last : o.events.getLast? = some event
  entries : o.recognizer.pending.entries = []
  idle : ∀ a, r.Idle a → o.recognizer.Idle a

/-- The whole queue is resolved, and then the event goes on. -/
private theorem goesOn_after (h : r.Coherent) {resolutions : List Resolution} (event : KeyEvent)
    (hr : r.table.Resolves r.pending.entries ⟨resolutions, []⟩) :
    r.GoesOn event (((r.resolve event.time ⟨resolutions, []⟩).recognizer.pass event).after
      (r.resolve event.time ⟨resolutions, []⟩).emissions) where
  last := by
    rw [Outcome.events_after]
    exact List.getLast?_concat
  entries := rfl
  idle := fun _ hi => hi.moves h (moves_resolve hr) (by simp)

private theorem goesOn_of_suppressed (h : r.Coherent) (hs : r.isSuppressed layers = true) :
    r.GoesOn event (r.press event layers) := by
  rw [press_of_suppressed hs]
  have hr := r.table.resolves_replay r.pending.entries []
  rw [List.append_nil] at hr
  exact goesOn_after h event hr

private theorem goesOn_of_foreign (h : r.Coherent) (hs : r.isSuppressed layers = false)
    (hf : r.table.isParticipant event.key = false) : r.GoesOn event (r.press event layers) := by
  rw [press_of_foreign hs hf]
  exact goesOn_after h event (r.table.resolves_resolveAll _)

/-- On a suppressing layer the held presses go on as they came. -/
private theorem replayed_of_suppressed (hs : r.isSuppressed layers = true) :
    (r.press event layers).events = r.pending.entries.map (·.event) ++ [event] ∧
    activations (r.press event layers).emissions = 0 := by
  rw [press_of_suppressed hs]
  constructor
  · rw [Outcome.events_after]
    simp [replay, resolve, pass, Outcome.events, Emission.event]
  · show activations ((r.pending.entries.map Resolution.replay).map (Emission.resolved · event.time) ++
      [.passed event]) = 0
    rw [activations_append, activations_replays]
    rfl

/-! ### Whole runs -/

/-- A key that is in no chord of the configuration takes part in none. -/
private theorem isParticipant_eq_false {c : Config} (hc : ofConfig c = .ok r) {key : KeyCode}
    (hkey : ∀ d ∈ c.chords, key ∉ d.keys) : r.table.isParticipant key = false := by
  obtain ⟨-, t, ht, rfl⟩ := ofConfig_eq_ok hc
  refine Bool.eq_false_iff.2 fun hp => ?_
  obtain ⟨d, hd, hk⟩ := (ChordTable.isParticipant_iff_of_ofDefs ht).1 hp
  exact hkey d hd hk

/-- In every state of a run just the layers that the configuration names suppress chords. -/
private theorem isSuppressed_run_iff {c : Config} (hc : ofConfig c = .ok r) (calls : List Call) :
    (r.run calls).recognizer.isSuppressed layers = true ↔
      ∃ layer, c.disabledLayers.contains layer = true ∧ layers layer = true := by
  have hset := (r.sameSettings_run calls).disabledLayers
  obtain ⟨-, t, -, rfl⟩ := ofConfig_eq_ok hc
  rw [isSuppressed, hset]
  exact LayerSet.anyActive_iff

/-- In a clean stream, a press that is made on a suppressing layer or is of a key in no chord goes on as it came,
behind all presses before it, and leaves the queue empty; on a suppressing layer no chord is activated by it.  The
release that ends this press goes on as it came, and changes nothing. -/
theorem outside_goes_on {c : Config} (hc : ofConfig c = .ok r) (front rest : List Call) (event : KeyEvent)
    (layers : ActiveLayers) (hclean : Clean ((front ++ .key event layers :: rest).flatMap Call.events))
    (he : event.edge = .down)
    (hout : (∃ layer, c.disabledLayers.contains layer = true ∧ layers layer = true) ∨
      ∀ d ∈ c.chords, event.key ∉ d.keys) :
    let s := (r.run front).recognizer
    let o := s.key event layers
    o.events.getLast? = some event ∧ o.recognizer.pending.entries = [] ∧
    ((∃ layer, c.disabledLayers.contains layer = true ∧ layers layer = true) →
      o.events = s.pending.entries.map (·.event) ++ [event] ∧ activations o.emissions = 0) ∧
    ∀ between event' layers' rest', rest = between ++ .key event' layers' :: rest' → event'.edge = .up →
      event'.addr = event.addr → (∀ e ∈ between.flatMap Call.events, e.addr ≠ event.addr) →
      let s' := (o.recognizer.run between).recognizer
      s'.key event' layers' = ⟨s', [.passed event']⟩ := by
  intro s o
  have hfresh := fresh_ofConfig hc
  have hcoh : s.Coherent := (coherent_of_fresh hfresh).run front
  have ho : o = s.press event layers := key_of_down he layers
  have hgoes : s.GoesOn event o := by
    rw [ho]
    cases hs : s.isSuppressed layers with
    | true => exact goesOn_of_suppressed hcoh hs
    | false =>
      refine goesOn_of_foreign hcoh hs ?_
      rw [(r.sameSettings_run front).table]
      refine isParticipant_eq_false hc (hout.resolve_left fun hactive => ?_)
      exact Bool.false_ne_true (hs.symm.trans ((isSuppressed_run_iff hc front).2 hactive))
  refine ⟨hgoes.last, hgoes.entries, fun hactive => ?_, ?_⟩
  · rw [ho]
    exact replayed_of_suppressed ((isSuppressed_run_iff hc front).2 hactive)
  · rintro between event' layers' rest' - he' haddr hquiet s'
    -- the address was idle before the press, which starts nothing there, and so it is idle at the release
    rw [List.flatMap_append, List.flatMap_cons, ← List.append_assoc] at hclean
    have hidle : s.Idle event.addr := idle_of_clean_press hfresh he hclean.of_append
    have hcoh' : o.recognizer.Coherent := hcoh.run [.key event layers]
    have hidle' : s'.Idle event.addr := (hgoes.idle _ hidle).run hcoh' fun e hm _ => hquiet e hm
    exact key_of_idle_release he' (haddr ▸ hidle') layers'

/-- The keys of the shorter chord are pressed, then a key in no chord, then a key of a chord on a suppressing layer;
and these two are released. -/
def foreignRoll : List Call :=
  nestedRoll.take 2 ++
    [.key ⟨⟨0, 5⟩, ⟨9⟩, .down, 3⟩ fun _ => false, .key ⟨⟨0, 3⟩, ⟨7⟩, .down, 4⟩ (· = 1), .tick 5,
      .key ⟨⟨0, 5⟩, ⟨9⟩, .up, 6⟩ fun _ => false, .key ⟨⟨0, 3⟩, ⟨7⟩, .up, 7⟩ fun _ => false]

/-- The press of the key in no chord comes behind the chord that it ends, that of the key on the suppressing layer is
not held, and the releases of both go on untouched. -/
theorem outside_goes_on_foreignRoll :
    ∃ r, ofConfig { Config.nested with disabledLayers := ⟨2⟩ } = .ok r ∧
      (r.run foreignRoll).events =
        [⟨⟨0, 1⟩, ⟨20⟩, .down, 3⟩, ⟨⟨0, 5⟩, ⟨9⟩, .down, 3⟩, ⟨⟨0, 3⟩, ⟨7⟩, .down, 4⟩, ⟨⟨0, 5⟩, ⟨9⟩, .up, 6⟩,
          ⟨⟨0, 3⟩, ⟨7⟩, .up, 7⟩] ∧
      (let o := (r.run (foreignRoll.take 2)).recognizer.key ⟨⟨0, 5⟩, ⟨9⟩, .down, 3⟩ fun _ => false
      let s := (o.recognizer.run [.key ⟨⟨0, 3⟩, ⟨7⟩, .down, 4⟩ (· = 1), .tick 5]).recognizer
      o.events.getLast? = some ⟨⟨0, 5⟩, ⟨9⟩, .down, 3⟩ ∧
      s.key ⟨⟨0, 5⟩, ⟨9⟩, .up, 6⟩ (fun _ => false) = ⟨s, [.passed ⟨⟨0, 5⟩, ⟨9⟩, .up, 6⟩]⟩) ∧
      let o := (r.run (foreignRoll.take 3)).recognizer.key ⟨⟨0, 3⟩, ⟨7⟩, .down, 4⟩ (· = 1)
      o.events.getLast? = some ⟨⟨0, 3⟩, ⟨7⟩, .down, 4⟩ ∧ activations o.emissions = 0 := by
  refine ⟨_, rfl, by decide +kernel, ?_, ?_⟩
  · obtain ⟨hlast, -, -, hrelease⟩ := outside_goes_on (c := { Config.nested with disabledLayers := ⟨2⟩ }) rfl
      (foreignRoll.take 2) (foreignRoll.drop 3) ⟨⟨0, 5⟩, ⟨9⟩, .down, 3⟩ (fun _ => false) (by decide) rfl
      (Or.inr (by decide))
    exact ⟨hlast, hrelease [.key ⟨⟨0, 3⟩, ⟨7⟩, .down, 4⟩ (· = 1), .tick 5] ⟨⟨0, 5⟩, ⟨9⟩, .up, 6⟩ (fun _ => false) _
      rfl rfl rfl (by decide)⟩
  · have hactive : ∃ layer : UInt8, (⟨2⟩ : LayerSet).contains layer = true ∧ decide (layer = 1) = true :=
      ⟨1, by decide, rfl⟩
    obtain ⟨hlast, -, hreplayed, -⟩ := outside_goes_on (c := { Config.nested with disabledLayers := ⟨2⟩ }) rfl
      (foreignRoll.take 3) (foreignRoll.drop 4) ⟨⟨0, 3⟩, ⟨7⟩, .down, 4⟩ (· = 1) (by decide) rfl (Or.inl hactive)
    exact ⟨hlast, (hreplayed hactive).2⟩

end Recognizer

end Chording
