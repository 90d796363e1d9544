import Chording.Proofs.Moves
import Chording.Proofs.Spelling

/-!
# What a release finds in the queue

A release of a pending address first lets the longest front that spells a chord become it, and then the presses up to
the address go on as they came.  Only one front is settled before that.  As chords have at most five keys, a second
one is overlooked in one situation only: the queue consists of two pairs of presses that spell a chord each
(`settle_overlooks_iff`).
-/

namespace Chording

namespace ChordTable

variable {t : ChordTable} {keys : List KeyCode} {e : Entry} {queue : List Press}

private theorem settleOnce_of_longestFront?_eq_none (h : t.longestFront? (queue.map (·.key)) = none) :
    t.settleOnce queue = .rest queue := by
  have hs : t.settle? queue = none := by
    cases queue with
    | nil => rfl
    | cons p ps => exact Option.map_eq_none_iff.2 h
  rw [settleOnce, hs]

/-- Behind the front that is settled the queue stays as it was, because it was worth waiting for already. -/
private theorem settleOnce_of_viable {p : Press} {ps : List Press} (hv : t.Viable ((p :: ps).map (·.key))) {n : Nat}
    (h : t.longestFront? ((p :: ps).map (·.key)) = some (e, n + 1)) :
    t.settleOnce (p :: ps) = ⟨[.chord e p (ps.take n)], ps.drop n⟩ := by
  have hs : t.settle? (p :: ps) = some (.chord e p (ps.take n), ps.drop n) := Option.map_eq_some_iff.2 ⟨_, h, rfl⟩
  have hrest : t.recheck (ps.drop n) = .rest (ps.drop n) :=
    recheck_of_viable (hv.sublist (((List.drop_sublist n ps).cons p).map _))
  rw [settleOnce, hs]
  show (t.recheck (ps.drop n)).after _ = _
  rw [hrest]
  rfl

private theorem queue_settleOnce (hv : t.Viable (queue.map (·.key))) {n : Nat}
    (h : t.longestFront? (queue.map (·.key)) = some (e, n)) : (t.settleOnce queue).queue = queue.drop n := by
  obtain ⟨hn, hle, -⟩ := longestFrontUpTo?_eq_some h
  cases queue with
  | nil => exact absurd (Nat.lt_of_lt_of_le hn hle) (Nat.lt_irrefl 0)
  | cons p ps =>
    obtain ⟨m, rfl⟩ : ∃ m, n = m + 1 := ⟨n - 1, by omega⟩
    rw [settleOnce_of_viable hv h]
    rfl

end ChordTable

namespace Recognizer

variable {r : Recognizer} {event : KeyEvent}

/-- The queue is two pairs of presses that spell a chord each, while neither its first three presses nor all of them
spell one. -/
structure Paired (r : Recognizer) (p q p' q' : Press) : Prop where
  entries : r.pending.entries = [p, q, p', q']
  front : (r.table.spelled? [p.key, q.key]).isSome
  three : r.table.spelled? [p.key, q.key, p'.key] = none
  four : r.table.spelled? [p.key, q.key, p'.key, q'.key] = none
  behind : (r.table.spelled? [p'.key, q'.key]).isSome

/-- The first pair becomes its chord, and the second one is left. -/
private theorem Paired.settle (hr : r.Rested) {p q p' q' : Press} (h : r.Paired p q p' q') (now : Nat) :
    ∃ e, r.table.spelled? [p.key, q.key] = some e ∧
      r.settle now =
        ⟨(r.withQueue [p', q']).withActive (r.active.activate e.id e.chord.action [p, q] now).active,
          [.resolved (.chord e p [q]) now]⟩ := by
  obtain ⟨e, he⟩ := Option.isSome_iff_exists.1 h.front
  have hv : r.table.Viable ([p, q, p', q'].map (·.key)) := by
    rw [← h.entries]
    exact hr
  have hfront : r.table.longestFront? ([p, q, p', q'].map (·.key)) = some (e, 2) := by
    show r.table.longestFrontUpTo? [p.key, q.key, p'.key, q'.key] 4 = some (e, 2)
    simp only [ChordTable.longestFrontUpTo?, List.take_succ_cons, List.take_zero, h.four, h.three, he]
  refine ⟨e, he, ?_⟩
  rw [Recognizer.settle, h.entries, ChordTable.settleOnce_of_viable hv hfront]
  rfl

/-- The presses up to a pending address go on as they came, then its release, and nothing else. -/
private theorem events_releasePending (hr : r.Rested) {ahead behind : List Press} {p : Press}
    (hq : r.pending.entries = ahead ++ p :: behind) (hp : p.addr = event.addr)
    (ha : ∀ q ∈ ahead, q.addr ≠ event.addr) :
    (r.releasePending event).events = ahead.map (·.event) ++ [p.event, event] := by
  have hv : r.table.Viable (behind.map (·.key)) := by
    refine ChordTable.Viable.sublist hr ?_
    rw [PendingQueue.keys, hq]
    exact ((List.sublist_cons_self p behind).trans (List.sublist_append_right ahead _)).map _
  rw [releasePending_of_split hq hp ha, Outcome.events_after, Outcome.events_after]
  have hrecheck : ((r.replay event.time (ahead ++ [p]) behind).recognizer.recheck event.time).events = [] := by
    show (Recognizer.resolve _ event.time (r.table.recheck behind)).events = []
    rw [ChordTable.recheck_of_viable hv]
    rfl
  rw [hrecheck]
  simp [replay, resolve, pass, Emission.event]

/-- A release that is left after settling: what was settled, the presses up to its own, and the release. -/
private theorem events_release_of_left (hr : r.Rested) {ahead behind : List Press} {p : Press}
    (hp : p ∈ r.pending.entries)
    (hq : (r.settle event.time).recognizer.pending.entries = ahead ++ p :: behind) (hpa : p.addr = event.addr)
    (ha : ∀ q ∈ ahead, q.addr ≠ event.addr) :
    (r.release event).events = (r.settle event.time).events ++ (ahead.map (·.event) ++ [p.event, event]) := by
  have hpending : r.isPending event.addr = true := hpa ▸ isPending_of_mem hp
  have hleft : (r.settle event.time).recognizer.isPending event.addr = true :=
    hpa ▸ isPending_of_mem (hq ▸ List.mem_append_right ahead List.mem_cons_self)
  have hrest : (r.settle event.time).recognizer.Rested := ChordTable.viable_settleOnce hr
  rw [release_of_unsettled hpending hleft, Outcome.events_after, events_releasePending hrest hq hpa ha]
  rfl

private theorem Paired.isPending_settle_iff (hr : r.Rested) {p q p' q' : Press} (h : r.Paired p q p' q') (now : Nat)
    {a : Address} : (r.settle now).recognizer.isPending a = true ↔ a = p'.addr ∨ a = q'.addr := by
  obtain ⟨e, -, hs⟩ := h.settle hr now
  rw [hs]
  show [p', q'].any (fun x => x.addr = a) = true ↔ _
  simp only [List.any_cons, List.any_nil, Bool.or_false, Bool.or_eq_true, decide_eq_true_eq]
  exact or_congr eq_comm eq_comm

/-- A release of the second pair lets the first pair become its chord, and after that the presses of the second one
go on as they came. -/
private theorem Paired.events_release (hr : r.Rested) (hcoh : r.Coherent) {p q p' q' : Press} (h : r.Paired p q p' q') :
    ∃ e, r.table.spelled? [p.key, q.key] = some e ∧
      (event.addr = p'.addr → (r.release event).events =
        [⟨p.addr, e.chord.action, .down, event.time⟩, p'.event, event]) ∧
      (event.addr = q'.addr → (r.release event).events =
        [⟨p.addr, e.chord.action, .down, event.time⟩, p'.event, q'.event, event]) := by
  obtain ⟨e, he, hs⟩ := h.settle hr event.time
  have hq : (r.settle event.time).recognizer.pending.entries = [p', q'] := congrArg (·.recognizer.pending.entries) hs
  have hevents : (r.settle event.time).events = [⟨p.addr, e.chord.action, .down, event.time⟩] :=
    congrArg Outcome.events hs
  refine ⟨e, he, fun ha => ?_, fun ha => ?_⟩
  · have hnone : ∀ y ∈ ([] : List Press), y.addr ≠ event.addr := fun y hy => absurd hy List.not_mem_nil
    rw [events_release_of_left hr (h.entries ▸ by simp) hq ha.symm hnone, hevents]
    rfl
  · -- the addresses of the queue are distinct
    have hn := hcoh.nodup_pending
    rw [h.entries] at hn
    have hahead : ∀ y ∈ [p'], y.addr ≠ event.addr := by
      intro y hy
      rw [List.mem_singleton.1 hy, ha]
      intro heq
      simp [heq] at hn
    rw [events_release_of_left hr (h.entries ▸ by simp) hq ha.symm hahead, hevents]
    rfl

/-- If a front that spells a chord is left, then the queue was two pairs. -/
private theorem exists_paired (hr : r.Rested) {now n : Nat}
    (hn : (r.table.spelled? ((r.settle now).recognizer.pending.keys.take n)).isSome) :
    ∃ p q p' q', r.Paired p q p' q' := by
  obtain ⟨e', he'⟩ := Option.isSome_iff_exists.1 hn
  have hkeys : (r.settle now).recognizer.pending.keys =
      (r.table.settleOnce r.pending.entries).queue.map (·.key) := rfl
  cases hf : r.table.longestFront? r.pending.keys with
  | none =>
    -- no front of the queue spells a chord, and nothing was settled
    have hnone := ChordTable.longestFrontUpTo?_eq_none_iff.1 hf (min n r.pending.keys.length) (Nat.min_le_right _ _)
    rw [hkeys, ChordTable.settleOnce_of_longestFront?_eq_none hf, List.take_eq_take_min] at he'
    exact absurd (he'.symm.trans hnone) (Option.some_ne_none e')
  | some front =>
    obtain ⟨e, m⟩ := front
    obtain ⟨-, -, hs⟩ := ChordTable.longestFrontUpTo?_eq_some hf
    rw [hkeys, ChordTable.queue_settleOnce hr hf, List.map_drop] at he'
    -- both fronts have two keys at least, and there are four keys at most
    have hfour : r.pending.keys.length < 5 := ChordTable.Viable.length_lt_max hr
    have hm := ChordTable.two_le_of_spelled? hs
    have hrest := ChordTable.two_le_of_spelled? he'
    rw [List.length_take] at hm
    rw [List.length_take, List.length_drop] at hrest
    rw [PendingQueue.keys, List.length_map] at hm hfour
    rw [List.length_map] at hrest
    have hlen : r.pending.entries.length = 4 := by omega
    obtain rfl : m = 2 := by omega
    have hn2 : 2 ≤ n := by omega
    obtain ⟨p, q, p', q', hq⟩ := List.length_eq_four.1 hlen
    rw [PendingQueue.keys, hq] at hf hs
    rw [hq, List.take_of_length_le (by simpa using hn2)] at he'
    exact ⟨p, q, p', q', hq, Option.isSome_iff_exists.2 ⟨e, hs⟩,
      ChordTable.spelled?_of_longestFrontUpTo? hf (Nat.lt_succ_self 2) (Nat.le_succ 3),
      ChordTable.spelled?_of_longestFrontUpTo? hf (Nat.lt_of_sub_eq_succ rfl) (Nat.le_refl 4),
      Option.isSome_iff_exists.2 ⟨e', he'⟩⟩

/-- A release settles the longest front that spells a chord, and nothing more.  When the presses up to the released
address then go on as they came, a front that spells a chord is among what is left just if the queue was two pairs of
presses that spell a chord each, and one of the second pair is released.  In that case the first pair becomes its
chord, but the second one goes on press by press. -/
theorem settle_overlooks_iff {c : Config} {r₀ : Recognizer} (hc : ofConfig c = .ok r₀) (past : List Call)
    (event : KeyEvent) :
    let r := (r₀.run past).recognizer
    let s := (r.settle event.time).recognizer
    ((s.isPending event.addr = true ∧ ∃ n, (s.table.spelled? (s.pending.keys.take n)).isSome) ↔
      ∃ p q p' q', r.Paired p q p' q' ∧ (event.addr = p'.addr ∨ event.addr = q'.addr)) ∧
    ∀ p q p' q', r.Paired p q p' q' →
      ∃ e, r.table.spelled? [p.key, q.key] = some e ∧
        (event.addr = p'.addr → (r.release event).events =
          [⟨p.addr, e.chord.action, .down, event.time⟩, p'.event, event]) ∧
        (event.addr = q'.addr → (r.release event).events =
          [⟨p.addr, e.chord.action, .down, event.time⟩, p'.event, q'.event, event]) := by
  intro r s
  have hfresh := fresh_ofConfig hc
  have hr : r.Rested := Rested.run (rested_of_nil hfresh.entries) past
  have hcoh : r.Coherent := (coherent_of_fresh hfresh).run past
  refine ⟨⟨?_, ?_⟩, fun p q p' q' hpairs => hpairs.events_release hr hcoh⟩
  · rintro ⟨hp, n, hn⟩
    obtain ⟨p, q, p', q', hpairs⟩ := exists_paired hr hn
    exact ⟨p, q, p', q', hpairs, (hpairs.isPending_settle_iff hr event.time).1 hp⟩
  · rintro ⟨p, q, p', q', hpairs, haddr⟩
    refine ⟨(hpairs.isPending_settle_iff hr event.time).2 haddr, 2, ?_⟩
    obtain ⟨e, -, hs⟩ := hpairs.settle hr event.time
    rw [show s = _ from congrArg Outcome.recognizer hs]
    exact hpairs.behind

/-- Two chords of two keys each, and one of all these keys and a fifth. -/
def twoPairs : Config where
  chords := [⟨[⟨4⟩, ⟨22⟩], ⟨20⟩⟩, ⟨[⟨7⟩, ⟨9⟩], ⟨26⟩⟩, ⟨[⟨4⟩, ⟨22⟩, ⟨7⟩, ⟨9⟩, ⟨10⟩], ⟨8⟩⟩]

/-- The keys of the two shorter chords are pressed. -/
def pairsPressed : List Call :=
  [.key ⟨⟨0, 0⟩, ⟨4⟩, .down, 0⟩ fun _ => false, .key ⟨⟨0, 1⟩, ⟨22⟩, .down, 1⟩ fun _ => false,
    .key ⟨⟨0, 2⟩, ⟨7⟩, .down, 2⟩ fun _ => false, .key ⟨⟨0, 3⟩, ⟨9⟩, .down, 3⟩ fun _ => false]

private theorem paired_twoPairs {r₀ : Recognizer} (h : ofConfig twoPairs = .ok r₀) :
    (r₀.run pairsPressed).recognizer.Paired ⟨⟨0, 0⟩, ⟨4⟩, 0⟩ ⟨⟨0, 1⟩, ⟨22⟩, 1⟩ ⟨⟨0, 2⟩, ⟨7⟩, 2⟩ ⟨⟨0, 3⟩, ⟨9⟩, 3⟩ := by
  cases h
  refine ⟨?_, ?_, Option.isNone_iff_eq_none.1 ?_, Option.isNone_iff_eq_none.1 ?_, ?_⟩
  all_goals decide +kernel

/-- The last key is released.  The first two presses become their chord, and the other two do not, although they are
just the keys of one. -/
theorem settle_overlooks_twoPairs :
    ∃ r₀, ofConfig twoPairs = .ok r₀ ∧
      let r := (r₀.run pairsPressed).recognizer
      let s := (r.settle 10).recognizer
      s.isPending ⟨0, 3⟩ = true ∧ (∃ n, (s.table.spelled? (s.pending.keys.take n)).isSome) ∧
      ∃ e, r.table.spelled? [⟨4⟩, ⟨22⟩] = some e ∧
        (r.release ⟨⟨0, 3⟩, ⟨9⟩, .up, 10⟩).events =
          [⟨⟨0, 0⟩, e.chord.action, .down, 10⟩, ⟨⟨0, 2⟩, ⟨7⟩, .down, 2⟩, ⟨⟨0, 3⟩, ⟨9⟩, .down, 3⟩,
            ⟨⟨0, 3⟩, ⟨9⟩, .up, 10⟩] := by
  refine ⟨_, rfl, ?_⟩
  have hpairs := paired_twoPairs rfl
  obtain ⟨hiff, hevents⟩ := settle_overlooks_iff (c := twoPairs) rfl pairsPressed ⟨⟨0, 3⟩, ⟨9⟩, .up, 10⟩
  obtain ⟨hleft, hspelled⟩ := hiff.2 ⟨_, _, _, _, hpairs, Or.inr rfl⟩
  obtain ⟨e, he, -, hlast⟩ := hevents _ _ _ _ hpairs
  exact ⟨hleft, hspelled, e, he, hlast rfl⟩

/-- So it is not true of every release that nothing is left in the queue that spells a chord. -/
theorem not_all_fronts_settled :
    ¬∀ (c : Config) (r₀ : Recognizer) (past : List Call) (event : KeyEvent), ofConfig c = .ok r₀ →
      event.edge = .up →
      let r := (r₀.run past).recognizer
      let s := (r.settle event.time).recognizer
      r.isPending event.addr = true → s.isPending event.addr = true →
        ∀ n, s.table.spelled? (s.pending.keys.take n) = none := by
  intro h
  have hnone := h twoPairs _ pairsPressed ⟨⟨0, 3⟩, ⟨9⟩, .up, 10⟩ rfl rfl (by decide +kernel) (by decide +kernel) 2
  exact absurd (Option.isNone_iff_eq_none.2 hnone) (by decide +kernel)

end Recognizer

end Chording
