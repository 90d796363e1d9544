import Chording.Proofs.Calls
import Chording.Proofs.Registry

/-!
# Held presses are conserved

No press that the queue accepts is lost, doubled or moved.  A call cuts the queue, with the press it accepts put
behind it, into parts: a single press that goes on as it came, or the presses of one chord, which go on as one press
of its action key.  What is behind the last part is still held (`calls_conserve_presses`).

The law composes (`Conserved.trans`), so it is shown for the few things that calls are made of.
-/

namespace Chording

/-- How presses that leave the queue together go on: one as it came, or two and more, which are the keys of a chord
in some order, as a press of its action key at the address of the first of them. -/
inductive GoesOnAs (t : ChordTable) (now : Nat) : List Press → KeyEvent → Prop
  | single (p : Press) : GoesOnAs t now [p] p.event
  | chord {c : Chord} {first : Press} {others : List Press} (hc : c ∈ t.chords) (hn : 2 ≤ (first :: others).length)
      (hk : ((first :: others).map (·.key)).Perm c.keys) :
      GoesOnAs t now (first :: others) ⟨first.addr, c.action, .down, now⟩

/-- The law of conservation for a queue that accepts presses while events go on: the parts of the queue go on one
after another, and behind them the presses `own`, which were never held. -/
def Conserved (t : ChordTable) (now : Nat) (queue accepted : List Press) (events own : List KeyEvent)
    (queue' : List Press) : Prop :=
  ∃ parts : List (List Press × KeyEvent), (∀ part ∈ parts, GoesOnAs t now part.1 part.2) ∧
    queue ++ accepted = parts.flatMap (·.1) ++ queue' ∧
    events.filter (·.edge = .down) = parts.map (·.2) ++ own

namespace Conserved

variable {t : ChordTable} {now : Nat} {queue queue' : List Press}

private theorem refl (t : ChordTable) (now : Nat) (queue : List Press) : Conserved t now queue [] [] [] queue :=
  ⟨[], by simp⟩

theorem trans {queue'' accepted accepted' : List Press} {events events' own : List KeyEvent}
    (h : Conserved t now queue accepted events [] queue')
    (h' : Conserved t now queue' accepted' events' own queue'') :
    Conserved t now queue (accepted ++ accepted') (events ++ events') own queue'' := by
  obtain ⟨parts, hp, hq, he⟩ := h
  obtain ⟨parts', hp', hq', he'⟩ := h'
  refine ⟨parts ++ parts', List.forall_mem_append.2 ⟨hp, hp'⟩, ?_, ?_⟩
  · rw [← List.append_assoc, hq, List.append_assoc, hq', List.flatMap_append, List.append_assoc]
  · rw [List.filter_append, he, he', List.append_nil, List.map_append, List.append_assoc]

private theorem accept (t : ChordTable) (now : Nat) (queue : List Press) (p : Press) :
    Conserved t now queue [p] [] [] (queue ++ [p]) :=
  ⟨[], by simp⟩

private theorem passPress {e : KeyEvent} (he : e.edge = .down) : Conserved t now queue [] [e] [e] queue :=
  ⟨[], by simp [he]⟩

/-- Releases have no part in the law. -/
private theorem ofReleases {events : List KeyEvent} (he : ∀ e ∈ events, e.edge = .up) :
    Conserved t now queue [] events [] queue := by
  refine ⟨[], by simp, by simp, ?_⟩
  rw [List.filter_eq_nil_iff.2 fun e h => by simp [he e h]]
  rfl

private theorem goesOnAs_of_spelled {s : Resolution} (hs : s.Spelled t) :
    GoesOnAs t now s.presses (Emission.resolved s now).event := by
  cases s with
  | replay p => exact .single p
  | chord e first others =>
    obtain ⟨hc, hk⟩ := ChordTable.perm_of_spelled? hs
    refine .chord hc ?_ hk
    calc 2 ≤ e.chord.keys.length := e.chord.min_le_length
      _ = (first :: others).length := by rw [← hk.length_eq, List.length_map]

private theorem edge_resolved (s : Resolution) : (Emission.resolved s now).event.edge = .down := by
  cases s <;> rfl

private theorem ofResolves {r : Resolved} (h : t.Resolves queue r) :
    Conserved t now queue [] ((r.resolutions.map (Emission.resolved · now)).map (·.event)) [] r.queue := by
  refine ⟨r.resolutions.map fun s => (s.presses, (Emission.resolved s now).event), ?_, ?_, ?_⟩
  · rintro _ hp
    obtain ⟨s, hs, rfl⟩ := List.mem_map.1 hp
    exact goesOnAs_of_spelled (h.spelled s hs)
  · rw [List.append_nil, List.flatMap_map, ← h.presses_eq]
    rfl
  · rw [List.filter_eq_self.2, List.map_map, List.map_map, List.append_nil]
    · rfl
    · intro e he
      simp only [List.map_map, List.mem_map] at he
      obtain ⟨s, -, rfl⟩ := he
      simp [edge_resolved]

end Conserved

namespace Recognizer

/-- The press that the queue accepts from an event: a press that is not suppressed, of a key that takes part in
chords, at an idle address, unless the queue is full and drops it. -/
def accepted? (r : Recognizer) (event : KeyEvent) (layers : ActiveLayers) : Option Press :=
  if event.edge = .down ∧ r.isSuppressed layers = false ∧ r.table.isParticipant event.key = true ∧
      r.isPending event.addr = false ∧ r.isConsumed event.addr = false ∧ r.pending.Admits
  then some (.ofEvent event) else none

/-- The event itself, if it is a press that is never held. -/
def unheld? (r : Recognizer) (event : KeyEvent) (layers : ActiveLayers) : Option KeyEvent :=
  if event.edge = .down ∧ (r.isSuppressed layers = true ∨ r.table.isParticipant event.key = false)
  then some event else none

/-- A call that answers with this outcome conserves presses. -/
def Conserves (r : Recognizer) (now : Nat) (accepted : List Press) (own : List KeyEvent) (o : Outcome) : Prop :=
  Conserved r.table now r.pending.entries accepted o.events own o.recognizer.pending.entries

/-- One thing after another; both happen at the same time, and only the second may pass a press that was not held. -/
private theorem Conserves.after {r : Recognizer} {now : Nat} {accepted accepted' : List Press} {own : List KeyEvent}
    {o o' : Outcome} (h : r.Conserves now accepted [] o) (ht : o.recognizer.table = r.table)
    (h' : o.recognizer.Conserves now accepted' own o') :
    r.Conserves now (accepted ++ accepted') own (o'.after o.emissions) := by
  unfold Conserves at h h' ⊢
  rw [ht] at h'
  rw [Outcome.events_after]
  exact h.trans h'

private theorem conserves_nothing (r : Recognizer) (now : Nat) : r.Conserves now [] [] ⟨r, []⟩ :=
  .refl _ _ _

private theorem conserves_resolve {r : Recognizer} {resolved : Resolved} (now : Nat)
    (h : r.table.Resolves r.pending.entries resolved) : r.Conserves now [] [] (r.resolve now resolved) :=
  .ofResolves h

private theorem conserves_replay {r : Recognizer} {front queue : List Press} (now : Nat)
    (h : r.pending.entries = front ++ queue) : r.Conserves now [] [] (r.replay now front queue) :=
  conserves_resolve now (h ▸ r.table.resolves_replay front queue)

private theorem conserves_recheck (r : Recognizer) (now : Nat) : r.Conserves now [] [] (r.recheck now) :=
  conserves_resolve now (r.table.resolves_recheck _)

private theorem conserves_resolveAll (r : Recognizer) (now : Nat) :
    r.Conserves now [] [] (r.resolve now ⟨r.table.resolveAll r.pending.entries, []⟩) :=
  conserves_resolve now (r.table.resolves_resolveAll _)

private theorem conserves_pass_press (r : Recognizer) {event : KeyEvent} (now : Nat) (he : event.edge = .down) :
    r.Conserves now [] [event] (r.pass event) :=
  .passPress he

private theorem conserves_pass_release (r : Recognizer) {event : KeyEvent} (now : Nat) (he : event.edge = .up) :
    r.Conserves now [] [] (r.pass event) :=
  .ofReleases (List.forall_mem_singleton.2 he)

/-- Holding a press and rechecking the queue. -/
private theorem conserves_accept (r : Recognizer) (p : Press) (now : Nat) :
    r.Conserves now [p] [] ((r.withQueue (r.pending.entries ++ [p])).recheck now) :=
  (Conserved.accept r.table now r.pending.entries p).trans
    (conserves_recheck (r.withQueue (r.pending.entries ++ [p])) now)

private theorem conserves_hold (r : Recognizer) (event : KeyEvent) :
    r.Conserves event.time (if r.pending.Admits then [.ofEvent event] else []) [] (r.hold event) := by
  by_cases hlt : r.pending.size < r.pending.capacity
  · have ha : r.pending.Admits := Or.inl hlt
    rw [if_pos ha, hold_of_lt hlt]
    exact r.conserves_accept _ _
  by_cases ha : r.pending.Admits
  · obtain ⟨oldest, rest, he, hh⟩ := hold_of_not_lt event hlt ha
    rw [if_pos ha, hh]
    exact (conserves_replay event.time he).after rfl ((r.withQueue rest).conserves_accept _ _)
  · rw [if_neg ha, hold_of_not_admits ha]
    exact r.conserves_nothing _

private theorem conserves_press (r : Recognizer) {event : KeyEvent} (layers : ActiveLayers) (he : event.edge = .down) :
    r.Conserves event.time (r.accepted? event layers).toList (r.unheld? event layers).toList
      (r.press event layers) := by
  unfold accepted? unheld?
  cases hs : r.isSuppressed layers with
  | true =>
    rw [press_of_suppressed hs]
    simpa [he] using (conserves_replay event.time (List.append_nil _).symm).after rfl (conserves_pass_press _ _ he)
  | false =>
    cases hp : r.table.isParticipant event.key with
    | false =>
      rw [press_of_foreign hs hp]
      simpa [he] using (r.conserves_resolveAll event.time).after rfl (conserves_pass_press _ _ he)
    | true =>
      by_cases hb : r.isPending event.addr = true ∨ r.isConsumed event.addr = true
      · rw [press_of_busy hs hp hb]
        have hna : ¬(r.isPending event.addr = false ∧ r.isConsumed event.addr = false ∧ r.pending.Admits) := by
          rintro ⟨h1, h2, -⟩
          simp [h1, h2] at hb
        simpa [he, hna] using r.conserves_nothing event.time
      · simp only [not_or, Bool.not_eq_true] at hb
        rw [press_of_idle hs hp hb.1 hb.2]
        have h := r.conserves_hold event
        by_cases ha : r.pending.Admits <;> simpa [he, hb, ha] using h

private theorem conserves_releaseIdle (r : Recognizer) {event : KeyEvent} (he : event.edge = .up) :
    r.Conserves event.time [] [] (r.releaseIdle event) := by
  cases h : r.active.release? event.addr event.time with
  | none =>
    rw [releaseIdle_of_not_consumed (ActiveChords.release?_eq_none_iff.1 h)]
    exact r.conserves_pass_release _ he
  | some change =>
    obtain ⟨slot, -, -, hev⟩ := ActiveChords.holds_release? h
    rw [releaseIdle_of_release? h]
    refine .ofReleases fun e hm => ?_
    rw [Outcome.events, map_event_released, hev] at hm
    exact ActiveChords.edge_of_mem_releases hm

private theorem conserves_releasePending (r : Recognizer) {event : KeyEvent} (he : event.edge = .up)
    (hp : r.isPending event.addr = true) : r.Conserves event.time [] [] (r.releasePending event) := by
  obtain ⟨ahead, p, behind, hq, hpa, ha⟩ := exists_split_of_isPending hp
  rw [releasePending_of_split hq hpa ha]
  refine (conserves_replay event.time (by simpa using hq)).after rfl ?_
  exact (conserves_pass_release _ _ he).after rfl (conserves_recheck _ _)

private theorem conserves_release (r : Recognizer) {event : KeyEvent} (he : event.edge = .up) :
    r.Conserves event.time [] [] (r.release event) := by
  cases hp : r.isPending event.addr with
  | false =>
    rw [release_of_not_pending hp]
    exact r.conserves_releaseIdle he
  | true =>
    have hc : r.Conserves event.time [] [] (r.settle event.time) :=
      conserves_resolve event.time (r.table.resolves_settleOnce _)
    cases hs : (r.settle event.time).recognizer.isPending event.addr with
    | false =>
      rw [release_of_settled hp hs]
      exact hc.after rfl (conserves_releaseIdle _ he)
    | true =>
      rw [release_of_unsettled hp hs]
      exact hc.after rfl (conserves_releasePending _ he hs)

private theorem conserves_tick (r : Recognizer) (now : Nat) : r.Conserves now [] [] (r.tick now) := by
  by_cases h : r.timeout = 0
  · rw [tick, if_pos h]
    exact r.conserves_nothing now
  · rw [tick_of_ne_zero h]
    exact conserves_resolve now (r.table.resolves_expire _ _ _)

private theorem conserves_letGo (r : Recognizer) (now : Nat) : r.Conserves now [] [] (r.letGo now) := by
  refine .ofReleases fun e hm => ?_
  rw [letGo, Outcome.events, map_event_released] at hm
  exact ActiveChords.edge_of_mem_releases hm

/-- Every call conserves held presses.  With the press that it accepts behind it, the queue is cut into parts, each
of which goes on as one press, and what is still held; besides, only a press that is never held goes on, after all
others. -/
theorem calls_conserve_presses (r : Recognizer) :
    (∀ event layers, r.Conserves event.time (r.accepted? event layers).toList (r.unheld? event layers).toList
      (r.key event layers)) ∧
    (∀ now, r.Conserves now [] [] (r.tick now)) ∧ ∀ now, r.Conserves now [] [] (r.flush now) := by
  refine ⟨fun event layers => ?_, r.conserves_tick, fun now => ?_⟩
  · unfold key
    split
    · rename_i he
      exact r.conserves_press layers he
    · rename_i he
      simpa [accepted?, unheld?, he] using r.conserves_release he
  · rw [flush_eq]
    exact (r.conserves_resolveAll now).after rfl (conserves_letGo _ _)

end Recognizer

end Chording
