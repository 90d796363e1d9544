import Chording.Proofs.NothingStuck
import Chording.Proofs.TakenAddresses
import Chording.Proofs.Transparency

/-!
# Releases behind a change of the configuration

As long as the configuration stays, the release of an address that a chord took goes on as the release of its action
key, or not at all.  A recognizer that is loaded knows nothing of the addresses that the one before it took.  Behind a
change of the configuration their keys are still down, and their releases go on as they come, although their presses
never did (`release_of_taken`).
-/

namespace Chording

namespace KeyFilter

variable {f : KeyFilter} {raw : List KeyEvent} {call : Call} {calls : List Call} {a : Address}

/-! ### What a filter that stays on asks -/

/-- It asks for its own event, if the call has one, and never to forget everything; only for a new configuration it
asks to let go. -/
private theorem asks_of_on (hon : f.enabled = true) (hk : call.KeepsOn) :
    f.asks call = [] ∧ call.events = [] ∨
      ∃ ask, f.asks call = [ask] ∧ ask.events = call.events ∧ ask ≠ .reset ∧
        (call.loaded? = none → ∀ now, ask ≠ .flush now) := by
  cases call with
  | key event => exact Or.inr ⟨_, by rw [asks, if_pos hon], rfl, by simp, by simp⟩
  | tick now => exact Or.inr ⟨_, by rw [asks, if_pos hon], rfl, by simp, by simp⟩
  | setEnabled on now =>
    obtain rfl : on = true := hk
    exact Or.inl ⟨by simp [asks], rfl⟩
  | loadConfig c now =>
    cases hc : Recognizer.ofConfig c with
    | error e => exact Or.inl ⟨by simp [asks, hc, Except.isOk, Except.toBool], rfl⟩
    | ok r =>
      refine Or.inr ⟨.flush now, by simp [asks, hc, Except.isOk, Except.toBool], rfl, by simp, fun hl => ?_⟩
      simp [Call.loaded?, hc, Except.toOption] at hl
  | setLayers | startTiming | stopTiming | watch => exact Or.inl ⟨rfl, rfl⟩

private theorem exists_ask_of_mem (hon : f.enabled = true) (hk : call.KeepsOn) {em : Emission}
    (hem : em ∈ f.emissions call) : ∃ ask, f.asks call = [ask] ∧ ask.events = call.events ∧ ask ≠ .reset ∧
      em ∈ (f.recognizer.step ask).emissions := by
  unfold emissions at hem
  obtain ⟨ha, -⟩ | ⟨ask, ha, hev, hreset, -⟩ := asks_of_on hon hk
  · rw [ha] at hem
    exact absurd hem List.not_mem_nil
  · rw [ha, Recognizer.run_singleton] at hem
    exact ⟨ask, ha, hev, hreset, hem⟩

private theorem events_asks (hon : f.enabled = true) (hk : call.KeepsOn) :
    (f.asks call).flatMap Recognizer.Call.events = call.events := by
  obtain ⟨ha, hev⟩ | ⟨ask, ha, hev, -, -⟩ := asks_of_on hon hk
  · rw [ha, hev]
    rfl
  · rw [ha, List.flatMap_singleton, hev]

private theorem events_asked (hon : f.enabled = true) (hk : ∀ call ∈ calls, call.KeepsOn) :
    (f.asked calls).flatMap Recognizer.Call.events = calls.flatMap Call.events := by
  induction calls generalizing f with
  | nil => rfl
  | cons call calls ih =>
    obtain ⟨hcall, hk⟩ := List.forall_mem_cons.1 hk
    rw [asked, List.flatMap_append, events_asks hon hcall, ih (enabled_step_of_on hon hcall) hk, List.flatMap_cons]

private theorem quiet_asked (hon : f.enabled = true) (hk : ∀ call ∈ calls, call.KeepsOn)
    (hl : ∀ call ∈ calls, call.loaded? = none) :
    ∀ ask ∈ f.asked calls, ask ≠ .reset ∧ ∀ now, ask ≠ .flush now := by
  induction calls generalizing f with
  | nil => exact fun ask hm => absurd hm List.not_mem_nil
  | cons call calls ih =>
    obtain ⟨hcall, hk⟩ := List.forall_mem_cons.1 hk
    obtain ⟨hlcall, hl⟩ := List.forall_mem_cons.1 hl
    refine List.forall_mem_append.2 ⟨fun ask hm => ?_, ih (enabled_step_of_on hon hcall) hk hl⟩
    obtain ⟨ha, -⟩ | ⟨ask', ha, -, hreset, hflush⟩ := asks_of_on hon hcall
    · exact absurd (ha ▸ hm) List.not_mem_nil
    · rw [ha, List.mem_singleton] at hm
      exact hm ▸ ⟨hreset, hflush hlcall⟩

private theorem activations_asked_lt {n : Nat} (hn : n < UInt32.size) (hl : ∀ call ∈ calls, call.loaded? = none)
    (hfew : f.FewActivations n calls) : n + activations (f.recognizer.run (f.asked calls)).emissions < UInt32.size := by
  induction calls generalizing n f with
  | nil => exact hn
  | cons call calls ih =>
    obtain ⟨hlcall, hl⟩ := List.forall_mem_cons.1 hl
    obtain ⟨hlt, hfew⟩ := hfew
    rw [hlcall] at hfew
    have hrec := recognizer_step f call
    rw [hlcall] at hrec
    rw [asked, Recognizer.emissions_run_append, activations_append, ← Nat.add_assoc,
      show (f.recognizer.run (f.asks call)).recognizer = (f.step call).filter.recognizer from hrec.symm]
    exact ih hlt hl hfew

/-! ### Addresses over a change of the configuration -/

private theorem fresh_of_loaded? {r : Recognizer} (h : call.loaded? = some r) : r.Fresh := by
  cases call with
  | loadConfig c now =>
    cases hc : Recognizer.ofConfig c with
    | error e => simp [Call.loaded?, hc, Except.toOption] at h
    | ok r' =>
      simp only [Call.loaded?, hc, Except.toOption, Option.some.injEq] at h
      exact h ▸ Recognizer.fresh_ofConfig hc
  | key | tick | setEnabled | setLayers | startTiming | stopTiming | watch => cases h

/-- The recognizer at work is coherent, and where a press is in flight the key is down in the raw stream. -/
structure Tracks (raw : List KeyEvent) (f : KeyFilter) : Prop where
  coherent : f.recognizer.Coherent
  down : ∀ a, ¬f.recognizer.Idle a → heldAt raw a ≠ none

private theorem tracks_of_fresh (h : f.recognizer.Fresh) (raw : List KeyEvent) : Tracks raw f where
  coherent := Recognizer.coherent_of_fresh h
  down := fun a ha => absurd (h.idle a) ha

private theorem fresh_step (hl : call.loaded?.isSome) : (f.step call).filter.recognizer.Fresh := by
  obtain ⟨r, hr⟩ := Option.isSome_iff_exists.1 hl
  rw [recognizer_step, hr]
  exact fresh_of_loaded? hr

private theorem Tracks.step (h : Tracks raw f) (hon : f.enabled = true) (hk : call.KeepsOn) :
    Tracks (raw ++ call.events) (f.step call).filter := by
  cases hl : call.loaded? with
  | some r => exact tracks_of_fresh (fresh_step (by rw [hl]; rfl)) _
  | none =>
    have hrec := recognizer_step f call
    rw [hl, Option.getD_none] at hrec
    rw [← events_asks hon hk]
    constructor
    · rw [hrec]
      exact h.coherent.run _
    · rw [hrec]
      exact Recognizer.down_of_busy_run h.coherent raw h.down (f.asks call)

private theorem Tracks.after (h : Tracks raw f) (hon : f.enabled = true) (hk : ∀ call ∈ calls, call.KeepsOn) :
    Tracks (raw ++ calls.flatMap Call.events) (f.after calls) := by
  induction calls generalizing f raw with
  | nil => exact (List.append_nil raw).symm ▸ h
  | cons call calls ih =>
    obtain ⟨hcall, hk⟩ := List.forall_mem_cons.1 hk
    rw [List.flatMap_cons, ← List.append_assoc]
    exact ih (h.step hon hcall) (enabled_step_of_on hon hcall) hk

/-- An idle address stays idle where no event comes, whatever is loaded. -/
private theorem Tracks.idle_after (h : Tracks raw f) (hon : f.enabled = true) (hk : ∀ call ∈ calls, call.KeepsOn)
    (hi : f.recognizer.Idle a) (hquiet : ∀ e ∈ calls.flatMap Call.events, e.addr ≠ a) :
    (f.after calls).recognizer.Idle a := by
  induction calls generalizing f raw with
  | nil => exact hi
  | cons call calls ih =>
    obtain ⟨hcall, hk⟩ := List.forall_mem_cons.1 hk
    rw [List.flatMap_cons, List.forall_mem_append] at hquiet
    refine ih (h.step hon hcall) (enabled_step_of_on hon hcall) hk ?_ hquiet.2
    cases hl : call.loaded? with
    | some r => exact Recognizer.Fresh.idle (fresh_step (by rw [hl]; rfl)) a
    | none =>
      rw [recognizer_step, hl]
      refine hi.run h.coherent fun e he _ => hquiet.1 e ?_
      rwa [events_asks hon hcall] at he

variable {e : Entry} {first : Press} {others : List Press} {now : Nat}

/-- The addresses of an activated chord are down in the raw stream. -/
private theorem Tracks.down_of_taken (h : Tracks raw f) (hon : f.enabled = true) (hk : call.KeepsOn)
    (hact : .resolved (.chord e first others) now ∈ f.emissions call) (hmem : a ∈ (first :: others).map (·.addr))
    (hnew : a ∉ releasedIn call.events) : heldAt (raw ++ call.events) a ≠ none := by
  obtain ⟨p, hp, rfl⟩ := List.mem_map.1 hmem
  obtain ⟨ask, -, hev, hreset, hact⟩ := exists_ask_of_mem hon hk hact
  rw [← hev] at hnew ⊢
  have hconsumed := Recognizer.isConsumed_of_step h.coherent hreset hact hp hnew
  refine Recognizer.down_of_busy_step h.coherent h.down ask p.addr fun hi => ?_
  exact Bool.false_ne_true (hi.2.symm.trans hconsumed)

/-- A recognizer that was loaded does not know of the addresses that the one before it took. -/
private theorem Tracks.idle_of_reload (h : Tracks raw f) (hon : f.enabled = true)
    (hk : ∀ call' ∈ call :: calls, call'.KeepsOn) (hclean : Clean (raw ++ (call :: calls).flatMap Call.events))
    (hact : .resolved (.chord e first others) now ∈ f.emissions call) (hmem : a ∈ (first :: others).map (·.addr))
    (hnew : a ∉ releasedIn ((call :: calls).flatMap Call.events))
    (hload : ∃ call' ∈ call :: calls, call'.loaded?.isSome) : (f.after (call :: calls)).recognizer.Idle a := by
  rw [List.flatMap_cons, releasedIn_append, List.mem_append, not_or] at hnew
  rw [List.flatMap_cons, ← List.append_assoc] at hclean
  have hdown := h.down_of_taken hon (hk call List.mem_cons_self) hact hmem hnew.1
  have hquiet := addr_ne_of_not_released hclean hdown hnew.2
  obtain ⟨load, hm, hl⟩ := hload
  obtain ⟨front, rest, hsplit⟩ := List.append_of_mem hm
  have hrest : rest ⊆ calls := by
    cases front with
    | nil => exact (List.cons.inj hsplit).2 ▸ List.Subset.refl _
    | cons x front =>
      rw [(List.cons.inj hsplit).2]
      exact fun y hy => List.mem_append_right _ (List.mem_cons_of_mem _ hy)
  rw [hsplit, List.forall_mem_append, List.forall_mem_cons] at hk
  rw [hsplit, after_append]
  -- a loaded recognizer begins with all addresses idle, and no event comes at this one
  have hon' : (f.after front).enabled = true := enabled_after hon hk.1
  have hfresh : ((f.after front).step load).filter.recognizer.Fresh := fresh_step hl
  refine (tracks_of_fresh hfresh []).idle_after (enabled_step_of_on hon' hk.2.1) hk.2.2 (hfresh.idle a) fun e he => ?_
  obtain ⟨x, hx, hex⟩ := List.mem_flatMap.1 he
  exact hquiet e (List.mem_flatMap.2 ⟨x, hrest hx, hex⟩)

/-! ### The release of a taken address -/

private theorem emissions_key (hon : f.enabled = true) (event : KeyEvent) :
    f.emissions (.key event) = (f.recognizer.key event f.layers).emissions := by
  rw [emissions, asks, if_pos hon, Recognizer.run_singleton]
  rfl

/-- A release at an idle address passes. -/
private theorem passes_of_idle (hon : f.enabled = true) {event : KeyEvent} (he : event.edge = .up)
    (hi : f.recognizer.Idle event.addr) :
    f.emissions (.key event) = [.passed event] ∧ (f.step (.key event)).reply = .verdict .pass := by
  have hkey := Recognizer.key_of_idle_release he hi f.layers
  refine ⟨by rw [emissions_key hon, hkey], ?_⟩
  have hreply : (f.step (.key event)).reply = .verdict (.ofEvents event (f.recognizer.key event f.layers).events) := by
    simp [KeyFilter.step, KeyFilter.key, hon]
  rw [hreply, hkey]
  simp [Outcome.events, Emission.event, Verdict.ofEvents]

/-- As long as no other configuration is loaded, the addresses of an activated chord stay consumed until they are
released. -/
private theorem Tracks.isConsumed_after (h : Tracks raw f) (hon : f.enabled = true)
    (hk : ∀ call' ∈ call :: calls, call'.KeepsOn) (hl : ∀ call' ∈ call :: calls, call'.loaded? = none)
    (hact : .resolved (.chord e first others) now ∈ f.emissions call) (hmem : a ∈ (first :: others).map (·.addr))
    (hnew : a ∉ releasedIn ((call :: calls).flatMap Call.events)) :
    (f.after (call :: calls)).recognizer.isConsumed a = true := by
  obtain ⟨p, hp, rfl⟩ := List.mem_map.1 hmem
  rw [← events_asked hon hk] at hnew
  have hquiet := quiet_asked hon hk hl
  obtain ⟨ask, ha, -, hreset, hact⟩ := exists_ask_of_mem hon (hk call List.mem_cons_self) hact
  rw [recognizer_after hl]
  rw [asked, ha, List.singleton_append] at hnew hquiet ⊢
  rw [List.flatMap_cons, releasedIn_append, List.mem_append, not_or] at hnew
  have hconsumed := Recognizer.isConsumed_of_step h.coherent hreset hact hp hnew.1
  have hrest := (List.forall_mem_cons.1 hquiet).2
  exact Recognizer.isConsumed_run (h.coherent.run [ask]) (fun ask' hm => (hrest ask' hm).1) hconsumed hnew.2

private theorem InStep.exists_owed {n : Nat} {sent : List KeyEvent} (h : InStep n raw sent f) (hon : f.enabled = true)
    (hk : ∀ call' ∈ call :: calls, call'.KeepsOn) (hl : ∀ call' ∈ call :: calls, call'.loaded? = none)
    (hclean : Clean (raw ++ (call :: calls).flatMap Call.events)) (hfew : f.FewActivations n (call :: calls))
    (hact : .resolved (.chord e first others) now ∈ f.emissions call) :
    ∃ slot, (f.after (call :: calls)).recognizer.active.Owed slot (some ⟨e.id, e.chord.action, first.addr, true⟩)
      ((first :: others).map (·.addr)) (releasedIn ((call :: calls).flatMap Call.events)) := by
  have hlt := activations_asked_lt (Nat.lt_of_le_of_lt (Nat.le_add_right _ _) hfew.1) hl hfew
  have hquiet := quiet_asked hon hk hl
  obtain ⟨ask, ha, -, -, hact⟩ := exists_ask_of_mem hon (hk call List.mem_cons_self) hact
  rw [← events_asked hon hk] at hclean ⊢
  rw [recognizer_after hl]
  rw [asked, ha, List.singleton_append] at hclean hlt hquiet ⊢
  obtain ⟨⟨hreset, hflush⟩, hrest⟩ := List.forall_mem_cons.1 hquiet
  rw [Recognizer.emissions_run_cons, activations_append, ← Nat.add_assoc] at hlt
  rw [List.flatMap_cons, ← List.append_assoc] at hclean
  rw [List.flatMap_cons, releasedIn_append]
  -- the chord owes its release after the call that activates it, and through all the other calls
  have hr := h.recognizer
  have hle := hr.nextSlot_le
  obtain ⟨slot, howed⟩ := Recognizer.exists_owed_step hr.coherent hr.wellKept hreset hflush (by omega) hact
  have hstep := hr.step hreset (fun _ => trivial) hclean.of_append (by omega)
  exact ⟨slot, Recognizer.owed_run hstep hrest hclean hlt howed⟩

/-- An address whose press a chord took is released for the first time since then, while the filter was on all the
time.  If a configuration was loaded since the activation, the release passes as it came.  If none was, it is
swallowed, and at most the release of an action key goes on: that of this chord, if the address is the first of its
addresses that is released. -/
theorem release_of_taken {c : Config} (hc : ofConfig c = .ok f) (before rest : List Call) (call : Call)
    (event : KeyEvent) (hk : ∀ call' ∈ before ++ call :: rest, call'.KeepsOn)
    (hclean : Clean ((before ++ call :: rest).flatMap Call.events ++ [event])) (he : event.edge = .up)
    (hact : .resolved (.chord e first others) now ∈ (f.after before).emissions call)
    (hmem : event.addr ∈ (first :: others).map (·.addr))
    (hnew : event.addr ∉ releasedIn ((call :: rest).flatMap Call.events)) :
    let g := f.after (before ++ call :: rest)
    ((∃ call' ∈ call :: rest, call'.loaded?.isSome) →
      g.emissions (.key event) = [.passed event] ∧ (g.step (.key event)).reply = .verdict .pass) ∧
    ((∀ call' ∈ call :: rest, call'.loaded? = none) →
      (∃ chord? : Option ActiveChord,
        g.emissions (.key event) = (chord?.map fun chord => .released (chord.release event.time)).toList) ∧
      (f.FewActivations 0 (before ++ call :: rest) →
        g.sent (.key event) =
          if ∀ p ∈ first :: others, p.addr ∉ releasedIn ((call :: rest).flatMap Call.events) then
            [⟨first.addr, e.chord.action, .up, event.time⟩]
          else [])) := by
  intro g
  obtain ⟨hon, hr⟩ := ofConfig_eq_ok hc
  have hfresh := Recognizer.fresh_ofConfig hr
  have hong : g.enabled = true := enabled_after hon hk
  have hkb := (List.forall_mem_append.1 hk).1
  have hkr := (List.forall_mem_append.1 hk).2
  have hfar : g = (f.after before).after (call :: rest) := f.after_append before (call :: rest)
  have honb : (f.after before).enabled = true := enabled_after hon hkb
  have htracks : Tracks (before.flatMap Call.events) (f.after before) :=
    (tracks_of_fresh hfresh []).after hon hkb
  have hclean' : Clean (before.flatMap Call.events ++ (call :: rest).flatMap Call.events) := by
    rw [← List.flatMap_append]
    exact hclean.of_append
  refine ⟨fun hload => ?_, fun hl => ?_⟩
  · refine passes_of_idle hong he ?_
    rw [hfar]
    exact htracks.idle_of_reload honb hkr hclean' hact hmem hnew hload
  have hcoh : g.recognizer.Coherent := by
    rw [hfar]
    exact (htracks.after honb hkr).coherent
  constructor
  · have hconsumed : g.recognizer.isConsumed event.addr = true := by
      rw [hfar]
      exact htracks.isConsumed_after honb hkr hl hact hmem hnew
    obtain ⟨change, hrel, hkey⟩ := Recognizer.key_of_consumed hcoh he hconsumed g.layers
    obtain ⟨slot, -, hev, -⟩ := ActiveChords.exists_slot_of_release? hrel
    refine ⟨g.recognizer.active.heldAt? slot, ?_⟩
    rw [emissions_key hong, hkey, hev, Option.toList_map, Option.toList_map, List.map_map]
    rfl
  · intro hfew
    have hstart : InStep 0 [] [] f := ⟨.start hfresh True, fun _ => hfresh⟩
    obtain ⟨n, hstep, hfew⟩ := hstart.after hclean'.of_append hfew
    obtain ⟨slot, howed⟩ := hstep.exists_owed honb hkr hl hclean' hfew hact
    rw [← hfar] at howed
    have hevents := Recognizer.events_key_of_owed hcoh howed he hmem hnew g.layers
    have hsent : g.sent (.key event) = (g.recognizer.key event g.layers).events := by
      rw [sent_eq, if_pos hong, List.nil_append, Outcome.events]
      exact congrArg (List.map _) (emissions_key hong event)
    rw [hsent, hevents]
    exact if_congr List.forall_mem_map rfl rfl

/-- Two keys of the longer chord are pressed. -/
def nestedPair : List Call :=
  [.key ⟨⟨0, 1⟩, ⟨4⟩, .down, 0⟩, .key ⟨⟨0, 2⟩, ⟨22⟩, .down, 1⟩]

/-- The third one. -/
def nestedThird : Call := .key ⟨⟨0, 3⟩, ⟨7⟩, .down, 2⟩

private theorem exists_taken_nested (hc : ofConfig .nested = .ok f) :
    ∃ e first others now, .resolved (.chord e first others) now ∈ (f.after nestedPair).emissions nestedThird ∧
      e.chord.action = ⟨26⟩ ∧ (first :: others).map (·.addr) = [⟨0, 1⟩, ⟨0, 2⟩, ⟨0, 3⟩] := by
  have hpos : 0 < activations ((f.after nestedPair).emissions nestedThird) := by
    cases hc
    decide +kernel
  have hall : ∀ em ∈ (f.after nestedPair).emissions nestedThird,
      em.event.key = ⟨26⟩ ∧ em.taken.map (·.addr) = [⟨0, 1⟩, ⟨0, 2⟩, ⟨0, 3⟩] := by
    cases hc
    decide +kernel
  obtain ⟨e, first, others, now, hact⟩ := exists_chord_of_activations hpos
  exact ⟨e, first, others, now, hact, hall _ hact⟩

/-- The release of the second key lets the action key go.  If a configuration was loaded before, it passes, although
the action key was let go already and the press never went on. -/
theorem release_of_taken_nested :
    ∃ f, ofConfig .nested = .ok f ∧
      (f.after (nestedPair ++ [nestedThird])).sent (.key ⟨⟨0, 2⟩, ⟨22⟩, .up, 4⟩) = [⟨⟨0, 1⟩, ⟨26⟩, .up, 4⟩] ∧
      f.stream (nestedPair ++ [nestedThird, .loadConfig .nested 3]) =
        [⟨⟨0, 1⟩, ⟨26⟩, .down, 2⟩, ⟨⟨0, 1⟩, ⟨26⟩, .up, 3⟩] ∧
      ((f.after (nestedPair ++ [nestedThird, .loadConfig .nested 3])).step
        (.key ⟨⟨0, 2⟩, ⟨22⟩, .up, 4⟩)).reply = .verdict .pass := by
  obtain ⟨f, hc⟩ : ∃ f, ofConfig .nested = .ok f := ⟨_, rfl⟩
  obtain ⟨e, first, others, now, hact, haction, haddrs⟩ := exists_taken_nested hc
  have hfirst : first.addr = ⟨0, 1⟩ := (List.cons.inj haddrs).1
  have hmem : (⟨0, 2⟩ : Address) ∈ (first :: others).map (·.addr) := by
    rw [haddrs]
    decide
  refine ⟨f, hc, ?_, by cases hc; decide +kernel, ?_⟩
  · obtain ⟨-, hkept⟩ := release_of_taken hc nestedPair [] nestedThird ⟨⟨0, 2⟩, ⟨22⟩, .up, 4⟩ (by decide) (by decide)
      rfl hact hmem (by decide)
    have hnone : releasedIn ([nestedThird].flatMap Call.events) = [] := by decide
    rw [(hkept (by decide)).2 (by cases hc; decide +kernel), hnone, if_pos fun _ _ => List.not_mem_nil, hfirst, haction]
  · obtain ⟨hreload, -⟩ := release_of_taken hc nestedPair [.loadConfig .nested 3] nestedThird
      ⟨⟨0, 2⟩, ⟨22⟩, .up, 4⟩ (by decide) (by decide) rfl hact hmem (by decide)
    exact (hreload ⟨.loadConfig .nested 3, by simp, rfl⟩).2

/-- So it is not true of every release at an address that a chord took that it sends nothing, or just the release of
the action key of the chord. -/
theorem not_all_releases_swallowed :
    ¬∀ (c : Config) (f : KeyFilter) (before rest : List Call) (call : Call) (event : KeyEvent) (e : Entry)
        (first : Press) (others : List Press) (now : Nat), ofConfig c = .ok f →
      (∀ call' ∈ before ++ call :: rest, call'.KeepsOn) →
      Clean ((before ++ call :: rest).flatMap Call.events ++ [event]) → event.edge = .up →
      .resolved (.chord e first others) now ∈ (f.after before).emissions call →
      event.addr ∈ (first :: others).map (·.addr) →
      event.addr ∉ releasedIn ((call :: rest).flatMap Call.events) →
      let g := f.after (before ++ call :: rest)
      g.sent (.key event) = [] ∨ g.sent (.key event) = [⟨first.addr, e.chord.action, .up, event.time⟩] := by
  intro h
  obtain ⟨f, hc⟩ : ∃ f, ofConfig .nested = .ok f := ⟨_, rfl⟩
  obtain ⟨e, first, others, now, hact, haction, haddrs⟩ := exists_taken_nested hc
  have hmem : (⟨0, 2⟩ : Address) ∈ (first :: others).map (·.addr) := by
    rw [haddrs]
    decide
  have hsent : (f.after (nestedPair ++ [nestedThird, .loadConfig .nested 3])).sent (.key ⟨⟨0, 2⟩, ⟨22⟩, .up, 4⟩) =
      [⟨⟨0, 2⟩, ⟨22⟩, .up, 4⟩] := by
    cases hc
    decide +kernel
  have hor := h .nested f nestedPair [.loadConfig .nested 3] nestedThird ⟨⟨0, 2⟩, ⟨22⟩, .up, 4⟩ e first others now hc
    (by decide) (by decide) rfl hact hmem (by decide)
  rcases hor with hnil | hrelease
  · cases hsent.symm.trans hnil
  · have haction' := (List.cons.inj (hsent.symm.trans hrelease)).1
    rw [haction] at haction'
    exact absurd haction' (by simp)

end KeyFilter

end Chording
