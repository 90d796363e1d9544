import Chording.Proofs.ActionKeys

/-!
# A deferred chord is not lost

A queue that spells a chord is still held back if a longer chord is possible.  Every call that ends this wait first
turns the whole queue into the chord that it spells, and then does what it does with an empty queue
(`step_of_endsWait`): the presses do not go on one by one, and none of them is left behind.
-/

namespace Chording

namespace ChordTable

variable {t : ChordTable} {e : Entry} {first : Press} {others behind : List Press}

theorem resolveFront_of_settle? {s : Resolution} (h : t.settle? (first :: others) = some (s, behind)) :
    t.resolveFront first others = (s, behind) := by
  rw [resolveFront, h]
  rfl

private theorem resolveAll_of_spelled (h : t.spelled? ((first :: others).map (·.key)) = some e) :
    t.resolveAll (first :: others) = [.chord e first others] := by
  rw [resolveAll, resolveFront_of_settle? (settle?_of_spelled h), resolveAll]

private theorem settleOnce_of_spelled (h : t.spelled? ((first :: others).map (·.key)) = some e) :
    t.settleOnce (first :: others) = ⟨[.chord e first others], []⟩ := by
  rw [settleOnce, settle?_of_spelled h]
  show (t.recheck []).after _ = _
  rw [recheck]
  rfl

private theorem expire_of_spelled (h : t.spelled? ((first :: others).map (·.key)) = some e) {timeout now : Nat}
    (hold : timeout < now - first.time) :
    t.expire timeout now (first :: others) = ⟨[.chord e first others], []⟩ := by
  rw [expire, if_neg (Nat.not_le_of_lt hold), resolveFrontAndRecheck, resolveFront_of_settle? (settle?_of_spelled h),
    recheck]
  show (t.expire timeout now []).after _ = _
  rw [expire]
  rfl

/-- A key that makes every chord impossible leaves the front that spells one to that chord, and waits for itself. -/
private theorem recheck_of_misfit (h : t.spelled? ((first :: others).map (·.key)) = some e) {p : Press}
    (himp : t.classify ((first :: others ++ [p]).map (·.key)) = .impossible) (hp : t.isParticipant p.key = true) :
    t.recheck (first :: others ++ [p]) = ⟨[.chord e first others], [p]⟩ := by
  have hfront := longestFront?_concat (by simpa using spelled?_of_impossible himp) h
  have hsettle : t.settle? (first :: (others ++ [p])) = some (.chord e first others, [p]) :=
    settle?_of_longestFront? (by simpa using hfront)
  rw [List.cons_append] at himp ⊢
  rw [recheck, himp, resolveFront_of_settle? hsettle]
  show (t.recheck [p]).after [.chord e first others] = _
  rw [recheck_of_viable (viable_singleton hp)]
  rfl

end ChordTable

namespace Recognizer

variable {r : Recognizer} {call : Call} {e : Entry} {first : Press} {others : List Press} {now : Nat}

/-- The calls that end the wait of a queue for longer chords, and the time at which they do: a tick when the oldest
press is too old, a flush, a press of a key in no chord, a release of a pending address, and a press with which all
keys are part of no chord. -/
inductive EndsWait (r : Recognizer) : Call → Nat → Prop
  | expiry {oldest : Press} {now : Nat} (h0 : r.timeout ≠ 0) (hq : r.pending.entries.head? = some oldest)
      (hold : r.timeout.toNat < now - oldest.time) : EndsWait r (.tick now) now
  | flush (now : Nat) : EndsWait r (.flush now) now
  | foreign {event : KeyEvent} {layers : ActiveLayers} (he : event.edge = .down)
      (hs : r.isSuppressed layers = false) (hp : r.table.isParticipant event.key = false) :
      EndsWait r (.key event layers) event.time
  | release {event : KeyEvent} {layers : ActiveLayers} (he : event.edge = .up)
      (hp : r.isPending event.addr = true) : EndsWait r (.key event layers) event.time
  | misfit {event : KeyEvent} {layers : ActiveLayers} (he : event.edge = .down)
      (hs : r.isSuppressed layers = false) (hp : r.table.isParticipant event.key = true) (hi : r.Idle event.addr)
      (hlt : r.pending.size < r.pending.capacity)
      (hc : r.table.classify (r.pending.keys ++ [event.key]) = .impossible) :
      EndsWait r (.key event layers) event.time

/-- With an empty queue there is nothing to resolve. -/
private theorem resolveAll_formed (r : Recognizer) (e : Entry) (first : Press) (others : List Press) (now now' : Nat) :
    (r.formed e first others now).resolve now'
      ⟨(r.formed e first others now).table.resolveAll (r.formed e first others now).pending.entries, []⟩ =
      ⟨r.formed e first others now, []⟩ := by
  show (r.formed e first others now).resolve now' ⟨r.table.resolveAll [], []⟩ = _
  rw [ChordTable.resolveAll]
  rfl

/-- What a call does that ends the wait of a queue that spells a chord: the whole queue becomes the chord, and the
rest is what the call does then. -/
theorem step_of_endsWait (hcoh : r.Coherent) (hq : r.pending.entries = first :: others)
    (hs : r.table.spelled? r.pending.keys = some e) (hw : r.EndsWait call now) :
    r.step call = ((r.formed e first others now).step call).after [.resolved (.chord e first others) now] := by
  have hkeys : r.table.spelled? ((first :: others).map (·.key)) = some e := by rwa [← hq]
  cases hw with
  | @expiry oldest now h0 hhead hold =>
    obtain rfl : first = oldest := by simpa [hq] using hhead
    show r.tick now = ((r.formed e first others now).tick now).after _
    rw [tick_of_ne_zero h0, hq, ChordTable.expire_of_spelled hkeys hold, resolve_formed,
      tick_of_young (Or.inr fun p hp => absurd hp (by simp [formed, withQueue, withActive]))]
    rfl
  | flush now =>
    show r.flush now = ((r.formed e first others now).flush now).after _
    rw [flush_eq, hq, ChordTable.resolveAll_of_spelled hkeys, resolve_formed, flush_eq, resolveAll_formed]
    rfl
  | @foreign event layers he hsup hp =>
    show r.key event layers = ((r.formed e first others event.time).key event layers).after _
    have hthen := press_of_foreign (r := r.formed e first others event.time) hsup hp
    rw [key_of_down he, key_of_down he, press_of_foreign hsup hp, hq, ChordTable.resolveAll_of_spelled hkeys,
      resolve_formed, hthen, resolveAll_formed]
    rfl
  | @release event layers he hp =>
    show r.key event layers = ((r.formed e first others event.time).key event layers).after _
    have hsettle : r.settle event.time =
        ⟨r.formed e first others event.time, [.resolved (.chord e first others) event.time]⟩ := by
      rw [settle, hq, ChordTable.settleOnce_of_spelled hkeys, resolve_formed]
    have hnot : (r.formed e first others event.time).isPending event.addr = false := rfl
    rw [key_of_up he, key_of_up he, release_of_settled hp (by rw [hsettle]; rfl), hsettle, release_of_not_pending hnot]
  | @misfit event layers he hsup hp hi hlt hc =>
    show r.key event layers = ((r.formed e first others event.time).key event layers).after _
    have hrecheck : r.table.recheck (r.pending.entries ++ [.ofEvent event]) =
        ⟨[.chord e first others], [.ofEvent event]⟩ := by
      rw [hq]
      refine ChordTable.recheck_of_misfit hkeys ?_ hp
      rw [PendingQueue.keys, hq] at hc
      rw [List.map_append]
      exact hc
    -- the address of the press is not among those of the chord
    have hi' : (r.formed e first others event.time).Idle event.addr := by
      refine ⟨rfl, isConsumed_eq_false.2 ?_⟩
      rw [hcoh.consumed_formed hq, List.map_append, List.mem_append, not_or, List.map_map]
      refine ⟨isConsumed_eq_false.1 hi.2, fun hm => ?_⟩
      obtain ⟨p, hp, heq⟩ := List.mem_map.1 hm
      exact isPending_eq_false.1 hi.1 p (hq ▸ hp) heq
    have hheld := press_of_viable (r := r.formed e first others event.time) hsup hp hi'
      (Nat.lt_of_le_of_lt (Nat.zero_le _) hlt) (ChordTable.viable_singleton hp)
    rw [key_of_down he, key_of_down he, press_of_lt hsup hp hi hlt, hrecheck, hheld]
    rfl

/-- If the queue spells a chord when a call ends its wait for longer ones, the chord is not lost.  The call first
presses the action key at the address of the oldest press, and all presses that were held become consumed for the
slot of this one chord; only after that it does what it does with an empty queue.  A release lets the action key go
again. -/
theorem deferred_activates {c : Config} {r₀ : Recognizer} (hc : ofConfig c = .ok r₀) (past : List Call) :
    let r := (r₀.run past).recognizer
    r.table.classify r.pending.keys = .deferred e → r.EndsWait call now →
    ∃ first others, r.pending.entries = first :: others ∧
      let s := r.formed e first others now
      (r.step call).events.head? = some ⟨first.addr, e.chord.action, .down, now⟩ ∧
      r.step call = (s.step call).after [.resolved (.chord e first others) now] ∧
      s.active.consumed = r.active.consumed ++ r.pending.entries.map (fun p => (p.addr, r.active.nextSlot)) ∧
      s.active.heldAt? r.active.nextSlot = some ⟨e.id, e.chord.action, first.addr, true⟩ ∧
      ∀ event layers, call = .key event layers → event.edge = .up →
        (r.step call).events = [⟨first.addr, e.chord.action, .down, now⟩, ⟨first.addr, e.chord.action, .up, now⟩] := by
  intro r hdef hw
  have hcoh : r.Coherent := (coherent_of_fresh (fresh_ofConfig hc)).run past
  have hs := ChordTable.spelled?_of_deferred hdef
  obtain ⟨first, others, hq⟩ : ∃ first others, r.pending.entries = first :: others := by
    refine List.exists_cons_of_ne_nil fun hnil => ?_
    exact absurd (ChordTable.two_le_of_spelled? hs) (by simp [PendingQueue.keys, hnil])
  have hstep := step_of_endsWait hcoh hq hs hw
  have hgo := LettingGo.start hcoh hq e now
  refine ⟨first, others, hq, by rw [hstep, Outcome.events_after]; rfl, hstep, hq ▸ hcoh.consumed_formed hq e now,
    hgo.heldAt, ?_⟩
  rintro event layers rfl hup
  cases hw with
  | foreign he | misfit he => exact absurd (hup.symm.trans he) (by simp)
  | release he hp =>
    obtain ⟨ahead, p, behind, hsplit, hpa, -⟩ := exists_split_of_isPending hp
    have hmem : event.addr ∈ (first :: others).map (·.addr) := by
      rw [← hq, hsplit, ← hpa]
      exact List.mem_map_of_mem (by simp)
    have hlet := (hgo.release (hcoh.formed hq e event.time) hup hmem List.not_mem_nil layers).1
    rw [hstep, Outcome.events_after, show (r.formed e first others event.time).step (.key event layers) =
      (r.formed e first others event.time).key event layers from rfl, hlet]
    rfl

private theorem classify_nestedRoll {r₀ : Recognizer} (h : ofConfig .nested = .ok r₀) :
    ∃ e, e.chord.action = ⟨20⟩ ∧
      (r₀.run (nestedRoll.take 2)).recognizer.table.classify (r₀.run (nestedRoll.take 2)).recognizer.pending.keys =
        .deferred e := by
  have hkeys : (r₀.run (nestedRoll.take 2)).recognizer.pending.keys = [⟨4⟩, ⟨22⟩] := by
    cases h
    decide +kernel
  rw [hkeys, (r₀.sameSettings_run _).table]
  cases h
  exact ⟨_, rfl, rfl⟩

private theorem endsWait_nestedRoll {r₀ : Recognizer} (h : ofConfig .nested = .ok r₀) :
    let r := (r₀.run (nestedRoll.take 2)).recognizer
    r.EndsWait (.key ⟨⟨0, 2⟩, ⟨22⟩, .up, 7⟩ fun _ => false) 7 ∧
      r.EndsWait (.key ⟨⟨0, 3⟩, ⟨4⟩, .down, 7⟩ fun _ => false) 7 := by
  cases h
  refine ⟨.release rfl (by decide +kernel), .misfit rfl ?_ ?_ ?_ ?_ (if_pos (Or.inr ?_))⟩
  all_goals decide +kernel

/-- The shorter chord is there after two presses.  It goes on with a release of the second key, and with a second
press of its first key elsewhere. -/
theorem deferred_activates_nestedRoll :
    ∃ r₀, ofConfig .nested = .ok r₀ ∧
      let r := (r₀.run (nestedRoll.take 2)).recognizer
      (r.key ⟨⟨0, 2⟩, ⟨22⟩, .up, 7⟩ fun _ => false).events =
        [⟨⟨0, 1⟩, ⟨20⟩, .down, 7⟩, ⟨⟨0, 1⟩, ⟨20⟩, .up, 7⟩] ∧
      (r.key ⟨⟨0, 3⟩, ⟨4⟩, .down, 7⟩ fun _ => false).events.head? = some ⟨⟨0, 1⟩, ⟨20⟩, .down, 7⟩ := by
  refine ⟨_, rfl, ?_⟩
  obtain ⟨e, haction, hdef⟩ := classify_nestedRoll rfl
  obtain ⟨hrelease, hmisfit⟩ := endsWait_nestedRoll rfl
  obtain ⟨first, others, hq, -, -, -, -, hlet⟩ := deferred_activates (c := .nested) rfl _ hdef hrelease
  obtain ⟨first', others', hq', hhead, -⟩ := deferred_activates (c := .nested) rfl _ hdef hmisfit
  obtain ⟨rfl, rfl⟩ := List.cons_eq_cons.1 (hq.symm.trans hq')
  obtain rfl : first = ⟨⟨0, 1⟩, ⟨4⟩, 0⟩ :=
    Option.some.inj ((congrArg List.head? hq).symm.trans (by decide +kernel))
  rw [haction] at hlet hhead
  exact ⟨hlet _ _ rfl rfl, hhead⟩

end Recognizer

end Chording
