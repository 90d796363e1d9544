import Chording.Resolution
import Mathlib.Data.List.Perm.Basic

/-!
# What resolving may do to a queue

All functions that resolve a queue obey one law, `ChordTable.Resolves`: the presses that were resolved and the
presses still held are the queue in its order, and the presses that became a chord spell it.  What follows about
the recognizer uses only this law, not the way in which the functions choose the fronts of the queue.
-/

namespace Chording

/-- The presses that became a chord spell it. -/
def Resolution.Spelled (t : ChordTable) : Resolution → Prop
  | replay _ => True
  | chord e first others => t.spelled? ((first :: others).map (·.key)) = some e

namespace ChordTable

/-- The law of resolving: no press is lost or moved, and chords are made of presses that spell them. -/
structure Resolves (t : ChordTable) (queue : List Press) (r : Resolved) : Prop where
  presses_eq : r.presses = queue
  spelled : ∀ s ∈ r.resolutions, s.Spelled t

variable {t : ChordTable}

/-! ### Fronts that spell a chord -/

/-- Keys that spell a chord are its keys in some order. -/
theorem perm_of_spelled? {keys : List KeyCode} {e : Entry} (h : t.spelled? keys = some e) :
    e.chord ∈ t.chords ∧ keys.Perm e.chord.keys := by
  obtain ⟨he, hn, hm, hl⟩ := of_spelled?_eq_some h
  exact ⟨List.mem_of_getElem? (mem_entries.1 he), (List.subperm_of_subset hn hm).perm_of_length_le (Nat.le_of_eq hl)⟩

theorem longestFrontUpTo?_eq_some {keys : List KeyCode} {e : Entry} {n m : Nat}
    (h : t.longestFrontUpTo? keys n = some (e, m)) : 0 < m ∧ m ≤ n ∧ t.spelled? (keys.take m) = some e := by
  induction n with
  | zero => cases h
  | succ n ih =>
    unfold longestFrontUpTo? at h
    split at h
    · rename_i hs
      cases h
      exact ⟨Nat.succ_pos n, Nat.le_refl _, hs⟩
    · obtain ⟨h1, h2, h3⟩ := ih h
      exact ⟨h1, Nat.le_succ_of_le h2, h3⟩

theorem spelled_settle? {queue queue' : List Press} {s : Resolution} (h : t.settle? queue = some (s, queue')) :
    s.Spelled t := by
  cases queue with
  | nil => cases h
  | cons p ps =>
    obtain ⟨⟨e, n⟩, hf, h⟩ := Option.map_eq_some_iff.1 h
    cases h
    -- the front is not empty, so it is the first press and those of its chord behind it
    obtain ⟨hn, -, hs⟩ := longestFrontUpTo?_eq_some hf
    obtain ⟨m, rfl⟩ : ∃ m, n = m + 1 := ⟨n - 1, by omega⟩
    simpa [Resolution.Spelled, List.map_take] using hs

theorem spelled_resolveFront (t : ChordTable) (p : Press) (ps : List Press) : (t.resolveFront p ps).1.Spelled t := by
  unfold resolveFront
  cases h : t.settle? (p :: ps) with
  | none => trivial
  | some r => exact spelled_settle? h

theorem spelled_recheck (t : ChordTable) (queue : List Press) : ∀ s ∈ (t.recheck queue).resolutions, s.Spelled t := by
  fun_induction recheck t queue with
  | case1 => exact fun _ hs => absurd hs List.not_mem_nil
  | case2 p ps e h =>
    intro s hs
    obtain rfl := List.mem_singleton.1 hs
    show (t.classify ((p :: ps).map (·.key))).spelled? = some e
    rw [h]
    rfl
  | case3 => exact fun _ hs => absurd hs List.not_mem_nil
  | case4 => exact fun _ hs => absurd hs List.not_mem_nil
  | case5 p ps h ih => exact List.forall_mem_cons.2 ⟨t.spelled_resolveFront p ps, ih⟩

/-! ### The law for each way of resolving -/

private theorem resolves_rest (t : ChordTable) (queue : List Press) : t.Resolves queue (.rest queue) :=
  ⟨rfl, fun _ hs => absurd hs List.not_mem_nil⟩

/-- Any number of the oldest presses may go on as they came. -/
theorem resolves_replay (t : ChordTable) (front queue : List Press) :
    t.Resolves (front ++ queue) ⟨front.map .replay, queue⟩ := by
  constructor
  · simp [Resolved.presses, Resolution.presses, List.flatMap_map]
  · intro s hs
    obtain ⟨p, -, rfl⟩ := List.mem_map.1 hs
    trivial

theorem resolves_recheck (t : ChordTable) (queue : List Press) : t.Resolves queue (t.recheck queue) :=
  ⟨t.presses_recheck queue, t.spelled_recheck queue⟩

theorem resolves_expire (t : ChordTable) (timeout now : Nat) (queue : List Press) :
    t.Resolves queue (t.expire timeout now queue) := by
  refine ⟨t.presses_expire timeout now queue, ?_⟩
  fun_induction expire t timeout now queue with
  | case1 => exact (t.resolves_rest []).spelled
  | case2 => exact (t.resolves_rest _).spelled
  | case3 p ps h r ih =>
    have hr : ∀ s ∈ r.resolutions, s.Spelled t :=
      List.forall_mem_cons.2 ⟨t.spelled_resolveFront p ps, t.spelled_recheck _⟩
    exact List.forall_mem_append.2 ⟨hr, ih⟩

theorem resolves_resolveAll (t : ChordTable) (queue : List Press) :
    t.Resolves queue ⟨t.resolveAll queue, []⟩ := by
  refine ⟨by simp [Resolved.presses, presses_resolveAll], ?_⟩
  fun_induction resolveAll t queue with
  | case1 => exact (t.resolves_rest []).spelled
  | case2 p ps ih => exact List.forall_mem_cons.2 ⟨t.spelled_resolveFront p ps, ih⟩

theorem resolves_settleOnce (t : ChordTable) (queue : List Press) : t.Resolves queue (t.settleOnce queue) := by
  refine ⟨t.presses_settleOnce queue, ?_⟩
  unfold settleOnce
  split
  · rename_i s queue' h
    exact List.forall_mem_cons.2 ⟨spelled_settle? h, t.spelled_recheck queue'⟩
  · exact (t.resolves_rest queue).spelled

end ChordTable

end Chording
