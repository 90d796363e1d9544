import Chording.Proofs.Calls
import Chording.Proofs.Registry

/-!
# Calls as sequences of moves

A call resolves fronts of the queue, holds a press, lets an event pass, frees an address or releases action keys.
`Move` lists these with all that is known when they happen, and every call that does not drop its press is a sequence
of them (`moves_step`).  A property that all moves keep is thus kept by all calls; the first of this kind is that
every address is idle, pending or consumed, and not two of these (`Coherent`).
-/

namespace Chording

namespace Recognizer

/-- No address is twice in the queue, none is taken twice, none is both pending and taken, and the queue is no longer
than it may be. -/
structure Coherent (r : Recognizer) : Prop where
  nodup_pending : (r.pending.entries.map (·.addr)).Nodup
  nodup_consumed : (r.active.consumed.map (·.1)).Nodup
  not_consumed : ∀ p ∈ r.pending.entries, r.isConsumed p.addr = false
  size_le : r.pending.size ≤ r.pending.capacity

/-- One thing that a recognizer does, with the raw events that it takes and the emissions that it answers. -/
inductive Move : Recognizer → List KeyEvent → List Emission → Recognizer → Prop
  | resolve {r : Recognizer} {s : Resolution} {rest : List Press} {now : Nat}
      (hq : r.pending.entries = s.presses ++ rest) (hs : s.Spelled r.table) :
      Move r [] [.resolved s now] ((r.withQueue rest).withActive (activeAfter now r.active s))
  | hold {r : Recognizer} {event : KeyEvent} (he : event.edge = .down)
      (hp : r.table.isParticipant event.key = true) (hi : r.isPending event.addr = false)
      (hc : r.isConsumed event.addr = false) (hlt : r.pending.size < r.pending.capacity) :
      Move r [event] [] (r.withQueue (r.pending.entries ++ [.ofEvent event]))
  | ignore {r : Recognizer} {event : KeyEvent} (he : event.edge = .down)
      (hb : r.isPending event.addr = true ∨ r.isConsumed event.addr = true) : Move r [event] [] r
  | passPress {r : Recognizer} {event : KeyEvent} (he : event.edge = .down) (hq : r.pending.entries = [])
      (hf : (∃ layers, r.isSuppressed layers = true) ∨ r.table.isParticipant event.key = false) :
      Move r [event] [.passed event] r
  | passRelease {r : Recognizer} {event : KeyEvent} (he : event.edge = .up) (hi : r.isPending event.addr = false)
      (hc : r.isConsumed event.addr = false) : Move r [event] [.passed event] r
  | free {r : Recognizer} {event : KeyEvent} {change : ActiveChange} (he : event.edge = .up)
      (hi : r.isPending event.addr = false) (hr : r.active.release? event.addr event.time = some change) :
      Move r [event] (change.events.map .released) (r.withActive change.active)
  | letGo {r : Recognizer} {now : Nat} :
      Move r [] ((r.active.releaseAll now).events.map .released) (r.withActive (r.active.releaseAll now).active)

/-- One move after another. -/
inductive Moves : Recognizer → List KeyEvent → List Emission → Recognizer → Prop
  | nil (r : Recognizer) : Moves r [] [] r
  | cons {r s r' : Recognizer} {raw raw' : List KeyEvent} {emissions emissions' : List Emission}
      (h : Move r raw emissions s) (h' : Moves s raw' emissions' r') :
      Moves r (raw ++ raw') (emissions ++ emissions') r'

private theorem Move.moves {r r' : Recognizer} {raw : List KeyEvent} {emissions : List Emission}
    (h : Move r raw emissions r') : Moves r raw emissions r' := by
  simpa using Moves.cons h (.nil r')

private theorem Moves.append {r s r' : Recognizer} {raw raw' : List KeyEvent} {emissions emissions' : List Emission}
    (h : Moves r raw emissions s) (h' : Moves s raw' emissions' r') :
    Moves r (raw ++ raw') (emissions ++ emissions') r' := by
  induction h with
  | nil r => exact h'
  | cons hm _ ih =>
    rw [List.append_assoc, List.append_assoc]
    exact .cons hm (ih h')

/-! ### Coherence -/

variable {r : Recognizer} {event : KeyEvent}

theorem isPending_eq_false {a : Address} : r.isPending a = false ↔ ∀ p ∈ r.pending.entries, p.addr ≠ a := by
  rw [isPending, ← Bool.not_eq_true, PendingQueue.contains_iff]
  simp

theorem isPending_of_mem {p : Press} (h : p ∈ r.pending.entries) : r.isPending p.addr = true :=
  PendingQueue.contains_iff.2 (List.mem_map_of_mem h)

theorem isConsumed_eq_false {a : Address} : r.isConsumed a = false ↔ a ∉ r.active.consumed.map (·.1) := by
  rw [← ActiveChords.isConsumed_iff, Bool.not_eq_true]
  rfl

theorem addr_ne_of_isConsumed {a b : Address} (ha : r.isConsumed a = false) (hb : r.isConsumed b = true) : a ≠ b := by
  rintro rfl
  exact Bool.false_ne_true (ha.symm.trans hb)

/-- The address is neither pending nor consumed. -/
def Idle (r : Recognizer) (a : Address) : Prop :=
  r.isPending a = false ∧ r.isConsumed a = false

instance (r : Recognizer) (a : Address) : Decidable (r.Idle a) :=
  inferInstanceAs (Decidable (_ ∧ _))

theorem Fresh.idle (h : r.Fresh) (a : Address) : r.Idle a := ⟨h.isPending a, h.isConsumed a⟩

/-- A queue of fewer presses, with the same active chords. -/
theorem Coherent.sublist (h : r.Coherent) {queue : List Press} (hq : queue.Sublist r.pending.entries) :
    (r.withQueue queue).Coherent where
  nodup_pending := h.nodup_pending.sublist (hq.map _)
  nodup_consumed := h.nodup_consumed
  not_consumed := fun p hp => h.not_consumed p (hq.subset hp)
  size_le := Nat.le_trans hq.length_le h.size_le

/-- The addresses of presses at the front may be taken. -/
theorem Coherent.consumed_activate (h : r.Coherent) {first : Press} {others rest : List Press}
    (hq : r.pending.entries = first :: others ++ rest) (id : Nat) (action : KeyCode) (now : Nat) :
    (r.active.activate id action (first :: others) now).active.consumed =
      r.active.consumed ++ (first :: others).map fun p => (p.addr, r.active.nextSlot) := by
  have hn := h.nodup_pending
  rw [hq, List.map_append] at hn
  refine ActiveChords.consumed_activate hn.of_append_left (fun p hp => ?_) id action now
  exact h.not_consumed p (hq ▸ List.mem_append_left rest hp)

theorem Coherent.isConsumed_activate (h : r.Coherent) {first : Press} {others rest : List Press}
    (hq : r.pending.entries = first :: others ++ rest) (id : Nat) (action : KeyCode) (now : Nat) {a : Address} :
    (r.active.activate id action (first :: others) now).active.isConsumed a = true ↔
      r.isConsumed a = true ∨ ∃ p ∈ first :: others, p.addr = a := by
  rw [ActiveChords.isConsumed_iff, h.consumed_activate hq, List.map_append, List.mem_append, List.map_map]
  exact or_congr ActiveChords.isConsumed_iff.symm List.mem_map

theorem Coherent.activate (h : r.Coherent) {first : Press} {others rest : List Press}
    (hq : r.pending.entries = first :: others ++ rest) (id : Nat) (action : KeyCode) (now : Nat) :
    ((r.withQueue rest).withActive (r.active.activate id action (first :: others) now).active).Coherent := by
  have hcon := h.consumed_activate hq id action now
  have hn := h.nodup_pending
  rw [hq, List.map_append, List.nodup_append] at hn
  have hkeys : (r.active.activate id action (first :: others) now).active.consumed.map (·.1) =
      r.active.consumed.map (·.1) ++ (first :: others).map (·.addr) := by
    rw [hcon, List.map_append, List.map_map]
    rfl
  -- the addresses that become taken are those that are pending no longer
  constructor
  · exact hn.2.1
  · show ((r.active.activate id action (first :: others) now).active.consumed.map (·.1)).Nodup
    rw [hkeys, List.nodup_append]
    refine ⟨h.nodup_consumed, hn.1, ?_⟩
    rintro a ha _ hm rfl
    obtain ⟨p, hp, rfl⟩ := List.mem_map.1 hm
    exact isConsumed_eq_false.1 (h.not_consumed p (hq ▸ List.mem_append_left rest hp)) ha
  · intro p hp
    refine isConsumed_eq_false.2 ?_
    show p.addr ∉ (r.active.activate id action (first :: others) now).active.consumed.map (·.1)
    rw [hkeys, List.mem_append, not_or]
    refine ⟨isConsumed_eq_false.1 (h.not_consumed p (hq ▸ List.mem_append_right _ hp)), fun hm => ?_⟩
    exact hn.2.2 _ hm _ (List.mem_map_of_mem hp) rfl
  · exact (h.sublist (hq ▸ List.sublist_append_right _ _)).size_le

theorem Coherent.hold (h : r.Coherent) (hi : r.isPending event.addr = false) (hc : r.isConsumed event.addr = false)
    (hlt : r.pending.size < r.pending.capacity) :
    (r.withQueue (r.pending.entries ++ [.ofEvent event])).Coherent := by
  constructor
  · show ((r.pending.entries ++ [Press.ofEvent event]).map (·.addr)).Nodup
    rw [List.map_append, List.nodup_append]
    refine ⟨h.nodup_pending, List.nodup_singleton _, ?_⟩
    rintro a ha _ hm rfl
    obtain ⟨p, hp, rfl⟩ := List.mem_map.1 ha
    exact isPending_eq_false.1 hi p hp (List.mem_singleton.1 hm)
  · exact h.nodup_consumed
  · intro p hp
    rcases List.mem_append.1 hp with hp | hp
    · exact h.not_consumed p hp
    · rw [List.mem_singleton.1 hp]
      exact hc
  · show (r.pending.entries ++ [Press.ofEvent event]).length ≤ r.pending.capacity
    rw [List.length_append]
    exact hlt

/-- Without its oldest press the queue has room for another one. -/
theorem Coherent.room (h : r.Coherent) {oldest : Press} {rest : List Press} (hq : r.pending.entries = oldest :: rest)
    (hi : r.isPending event.addr = false) :
    (r.withQueue rest).isPending event.addr = false ∧ (r.withQueue rest).pending.size < r.pending.capacity := by
  constructor
  · exact isPending_eq_false.2 fun p hm => isPending_eq_false.1 hi p (hq ▸ List.mem_cons_of_mem _ hm)
  · have hle := h.size_le
    rw [PendingQueue.size, hq] at hle
    exact hle

theorem Coherent.free (h : r.Coherent) {a : Address} {now : Nat} {change : ActiveChange}
    (hr : r.active.release? a now = some change) : (r.withActive change.active).Coherent := by
  have hcon := ActiveChords.consumed_release? hr
  have hsub : (change.active.consumed.map (·.1)).Sublist (r.active.consumed.map (·.1)) := by
    rw [hcon]
    exact List.filter_sublist.map _
  constructor
  · exact h.nodup_pending
  · exact h.nodup_consumed.sublist hsub
  · intro p hp
    exact isConsumed_eq_false.2 fun hm => isConsumed_eq_false.1 (h.not_consumed p hp) (hsub.subset hm)
  · exact h.size_le

theorem Coherent.move (h : r.Coherent) {raw : List KeyEvent} {emissions : List Emission} {r' : Recognizer}
    (hm : Move r raw emissions r') : r'.Coherent := by
  cases hm with
  | @resolve s rest now hq hs =>
    cases s with
    | replay p => exact h.sublist (hq ▸ List.sublist_append_right _ _)
    | chord e first others => exact h.activate hq e.id e.chord.action now
  | hold he hp hi hc hlt => exact h.hold hi hc hlt
  | ignore he hb => exact h
  | passPress he hq hf => exact h
  | passRelease he hi hc => exact h
  | free he hi hr => exact h.free hr
  | letGo => exact ⟨h.nodup_pending, h.nodup_consumed, h.not_consumed, h.size_le⟩

theorem Coherent.moves (h : r.Coherent) {raw : List KeyEvent} {emissions : List Emission} {r' : Recognizer}
    (hm : Moves r raw emissions r') : r'.Coherent := by
  induction hm with
  | nil r => exact h
  | cons hm _ ih => exact ih (h.move hm)

/-! ### Every call is a sequence of moves -/

/-- The raw events that a call hands over. -/
def Call.events : Call → List KeyEvent
  | key event _ => [event]
  | _ => []

/-- The queue is full and drops the press of this call. -/
def Drops (r : Recognizer) : Call → Prop
  | .key event layers => event.edge = .down ∧ r.isSuppressed layers = false ∧
      r.table.isParticipant event.key = true ∧ r.isPending event.addr = false ∧
      r.isConsumed event.addr = false ∧ ¬r.pending.Admits
  | _ => False

theorem step_of_drops {call : Call} (h : r.Drops call) : r.step call = ⟨r, []⟩ := by
  cases call with
  | key event layers =>
    obtain ⟨he, hs, hp, hi, hc, ha⟩ := h
    show r.key event layers = _
    unfold key
    rw [he]
    show r.press event layers = _
    rw [press_of_idle hs hp hi hc, hold_of_not_admits ha]
  | tick | flush | reset => exact h.elim

private theorem moves_resolutions {now : Nat} {ss : List Resolution} {queue : List Press}
    (hq : r.pending.entries = ss.flatMap Resolution.presses ++ queue) (hs : ∀ s ∈ ss, s.Spelled r.table) :
    Moves r [] (ss.map (.resolved · now)) (r.resolve now ⟨ss, queue⟩).recognizer := by
  -- each resolution takes its presses from the front of what the ones before it left
  induction ss generalizing r with
  | nil =>
    obtain rfl : r.pending.entries = queue := hq
    exact .nil r
  | cons s ss ih =>
    obtain ⟨hs, hss⟩ := List.forall_mem_cons.1 hs
    rw [List.flatMap_cons, List.append_assoc] at hq
    have hrest := ih (r := (r.withQueue (ss.flatMap Resolution.presses ++ queue)).withActive
      (activeAfter now r.active s)) rfl hss
    exact .cons (.resolve hq hs) hrest

theorem moves_resolve {now : Nat} {resolved : Resolved} (h : r.table.Resolves r.pending.entries resolved) :
    Moves r [] (r.resolve now resolved).emissions (r.resolve now resolved).recognizer :=
  moves_resolutions h.presses_eq.symm h.spelled

private theorem moves_replay {now : Nat} {front queue : List Press} (h : r.pending.entries = front ++ queue) :
    Moves r [] (r.replay now front queue).emissions (r.replay now front queue).recognizer :=
  moves_resolve (h ▸ r.table.resolves_replay front queue)

theorem moves_recheck (r : Recognizer) (now : Nat) :
    Moves r [] (r.recheck now).emissions (r.recheck now).recognizer :=
  moves_resolve (r.table.resolves_recheck _)

private theorem moves_hold (h : r.Coherent) (he : event.edge = .down) (hp : r.table.isParticipant event.key = true)
    (hi : r.isPending event.addr = false) (hc : r.isConsumed event.addr = false) (ha : r.pending.Admits) :
    Moves r [event] (r.hold event).emissions (r.hold event).recognizer := by
  by_cases hlt : r.pending.size < r.pending.capacity
  · rw [hold_of_lt hlt]
    exact .cons (.hold he hp hi hc hlt) (moves_recheck _ _)
  · obtain ⟨oldest, rest, hq, hh⟩ := hold_of_not_lt event hlt ha
    rw [hh]
    obtain ⟨hi', hlt'⟩ := h.room hq hi
    exact .cons (.resolve (s := .replay oldest) hq trivial)
      (.cons (.hold (r := r.withQueue rest) he hp hi' hc hlt') (moves_recheck _ _))

private theorem moves_press (h : r.Coherent) {layers : ActiveLayers} (he : event.edge = .down)
    (hd : ¬r.Drops (.key event layers)) :
    Moves r [event] (r.press event layers).emissions (r.press event layers).recognizer := by
  cases hs : r.isSuppressed layers with
  | true =>
    rw [press_of_suppressed hs]
    have hpass : Move (r.replay event.time r.pending.entries []).recognizer [event] [.passed event] _ :=
      .passPress he rfl (Or.inl ⟨layers, hs⟩)
    exact (moves_replay (List.append_nil _).symm).append hpass.moves
  | false =>
    cases hp : r.table.isParticipant event.key with
    | false =>
      rw [press_of_foreign hs hp]
      have hpass : Move (r.resolve event.time ⟨r.table.resolveAll r.pending.entries, []⟩).recognizer [event]
          [.passed event] _ :=
        .passPress he rfl (Or.inr hp)
      exact (moves_resolve (r.table.resolves_resolveAll _)).append hpass.moves
    | true =>
      by_cases hb : r.isPending event.addr = true ∨ r.isConsumed event.addr = true
      · rw [press_of_busy hs hp hb]
        exact (Move.ignore he hb).moves
      · simp only [not_or, Bool.not_eq_true] at hb
        rw [press_of_idle hs hp hb.1 hb.2]
        exact moves_hold h he hp hb.1 hb.2 (Decidable.not_not.1 fun ha => hd ⟨he, hs, hp, hb.1, hb.2, ha⟩)

private theorem moves_releaseIdle (he : event.edge = .up) (hi : r.isPending event.addr = false) :
    Moves r [event] (r.releaseIdle event).emissions (r.releaseIdle event).recognizer := by
  cases hr : r.active.release? event.addr event.time with
  | none =>
    have hc : r.isConsumed event.addr = false := ActiveChords.release?_eq_none_iff.1 hr
    rw [releaseIdle_of_not_consumed hc]
    exact (Move.passRelease he hi hc).moves
  | some change =>
    rw [releaseIdle_of_release? hr]
    exact (Move.free he hi hr).moves

/-- A replay up to the press at an address leaves the address idle: its only press is gone from the queue, and no
chord took it. -/
theorem Coherent.idle_replay (h : r.Coherent) {ahead behind : List Press} {p : Press}
    (hq : r.pending.entries = ahead ++ p :: behind) (now : Nat) :
    (r.replay now (ahead ++ [p]) behind).recognizer.Idle p.addr := by
  constructor
  · refine isPending_eq_false.2 fun q hqb heq => ?_
    have hn := h.nodup_pending
    rw [hq, List.map_append, List.nodup_append, List.map_cons, List.nodup_cons] at hn
    exact hn.2.1.1 (heq ▸ List.mem_map_of_mem hqb)
  · rw [isConsumed, active_replay]
    exact h.not_consumed p (hq ▸ List.mem_append_right _ List.mem_cons_self)

private theorem moves_releasePending (h : r.Coherent) (he : event.edge = .up) (hp : r.isPending event.addr = true) :
    Moves r [event] (r.releasePending event).emissions (r.releasePending event).recognizer := by
  obtain ⟨ahead, p, behind, hq, hpa, ha⟩ := exists_split_of_isPending hp
  rw [releasePending_of_split hq hpa ha]
  have hreplay : Moves r [] (r.replay event.time (ahead ++ [p]) behind).emissions _ :=
    moves_replay (by simpa using hq)
  have hidle := h.idle_replay hq event.time
  rw [hpa] at hidle
  exact hreplay.append (.cons (.passRelease he hidle.1 hidle.2) (moves_recheck _ _))

private theorem moves_release (h : r.Coherent) (he : event.edge = .up) :
    Moves r [event] (r.release event).emissions (r.release event).recognizer := by
  cases hp : r.isPending event.addr with
  | false =>
    rw [release_of_not_pending hp]
    exact moves_releaseIdle he hp
  | true =>
    have hm : Moves r [] (r.settle event.time).emissions (r.settle event.time).recognizer :=
      moves_resolve (r.table.resolves_settleOnce _)
    cases hs : (r.settle event.time).recognizer.isPending event.addr with
    | false =>
      rw [release_of_settled hp hs]
      exact hm.append (moves_releaseIdle he hs)
    | true =>
      rw [release_of_unsettled hp hs]
      exact hm.append (moves_releasePending (h.moves hm) he hs)

/-- A call that neither drops its press nor forgets everything is a sequence of moves. -/
theorem moves_step (h : r.Coherent) {call : Call} (hr : call ≠ .reset) (hd : ¬r.Drops call) :
    Moves r call.events (r.step call).emissions (r.step call).recognizer := by
  cases call with
  | key event layers =>
    show Moves r [event] (r.key event layers).emissions (r.key event layers).recognizer
    unfold key
    cases he : event.edge with
    | down => exact moves_press h he hd
    | up => exact moves_release h he
  | tick now =>
    show Moves r [] (r.tick now).emissions (r.tick now).recognizer
    unfold tick
    split
    · exact .nil r
    · exact moves_resolve (r.table.resolves_expire _ _ _)
  | flush now =>
    show Moves r [] (r.flush now).emissions (r.flush now).recognizer
    rw [flush_eq]
    exact (moves_resolve (r.table.resolves_resolveAll _)).append Move.letGo.moves
  | reset => exact absurd rfl hr

/-! ### What runs keep -/

theorem coherent_of_fresh (hf : r.Fresh) : r.Coherent := by
  constructor
  · rw [hf.entries]
    exact List.nodup_nil
  · rw [hf.active]
    exact List.nodup_nil
  · rw [hf.entries]
    exact fun p hp => absurd hp List.not_mem_nil
  · rw [PendingQueue.size, hf.entries]
    exact Nat.zero_le _

/-- What holds when nothing is in flight, and is kept by every move of a coherent recognizer, is kept by every run. -/
theorem run_induction {P : Recognizer → Prop} (hfresh : ∀ {r : Recognizer}, r.Fresh → P r)
    (hmoves : ∀ {r r' : Recognizer} {raw : List KeyEvent} {emissions : List Emission}, r.Coherent → P r →
      Moves r raw emissions r' → P r') (h : r.Coherent) (hr : P r) (calls : List Call) :
    (r.run calls).recognizer.Coherent ∧ P (r.run calls).recognizer := by
  induction calls generalizing r with
  | nil => exact ⟨h, hr⟩
  | cons call calls ih =>
    rw [recognizer_run_cons]
    by_cases hreset : call = .reset
    · subst hreset
      exact ih (coherent_of_fresh r.fresh_reset) (hfresh r.fresh_reset)
    · by_cases hd : r.Drops call
      · rw [step_of_drops hd]
        exact ih h hr
      · have hm := moves_step h hreset hd
        exact ih (h.moves hm) (hmoves h hr hm)

theorem Coherent.run (h : r.Coherent) (calls : List Call) : (r.run calls).recognizer.Coherent :=
  (run_induction (P := fun _ => True) (fun _ => trivial) (fun _ _ _ => trivial) h trivial calls).1

end Recognizer

end Chording
