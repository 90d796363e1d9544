import Chording.Chord.Matching
import Chording.Key.Event

/-!
# Resolving held presses

How a queue of held presses comes to rest.  A front of the queue that spells a chord becomes that chord, the longest
one if there are several, and otherwise the oldest press goes on as it was.  The functions here differ only in when
they stop: `recheck` as soon as the queue is worth waiting for, `expire` as soon as its front is young enough,
`resolveAll` when it is empty.

The key facts: what is resolved and what is left is the queue, in its order (`presses_recheck`, `presses_expire`,
`presses_resolveAll`), and every resolution takes at least one press, so that each loop ends.
-/

namespace Chording

/-- What becomes of the presses at the front of a queue: one goes on as it was, or two or more become a chord. -/
inductive Resolution
  | replay (p : Press)
  | chord (e : Entry) (first : Press) (others : List Press)

/-- The presses that a resolution takes from the queue. -/
def Resolution.presses : Resolution → List Press
  | replay p => [p]
  | chord _ first others => first :: others

/-- The outcome of resolving a queue: what became of the presses that left it, and the presses still held. -/
structure Resolved where
  resolutions : List Resolution
  queue : List Press

namespace Resolved

/-- Nothing is resolved. -/
def rest (queue : List Press) : Resolved := ⟨[], queue⟩

/-- The outcome with earlier resolutions put in front. -/
def after (earlier : List Resolution) (r : Resolved) : Resolved :=
  ⟨earlier ++ r.resolutions, r.queue⟩

/-- All presses of the outcome, those that left the queue and those still in it. -/
def presses (r : Resolved) : List Press :=
  r.resolutions.flatMap Resolution.presses ++ r.queue

@[simp]
theorem presses_after (earlier : List Resolution) (r : Resolved) :
    (r.after earlier).presses = earlier.flatMap Resolution.presses ++ r.presses := by
  simp [presses, after, List.append_assoc]

end Resolved

namespace ChordTable

/-- Ends the wait for longer chords: the longest front of the queue that spells a chord becomes that chord. -/
def settle? (t : ChordTable) : List Press → Option (Resolution × List Press)
  | [] => none
  | p :: ps =>
    (t.longestFront? ((p :: ps).map (·.key))).map fun (e, n) => (.chord e p (ps.take (n - 1)), ps.drop (n - 1))

/-- Resolves the front `p` of the queue `p :: ps`: by a chord if it can be settled, else by itself. -/
def resolveFront (t : ChordTable) (p : Press) (ps : List Press) : Resolution × List Press :=
  (t.settle? (p :: ps)).getD (.replay p, ps)

theorem presses_settle? {t : ChordTable} {queue queue' : List Press} {r : Resolution}
    (h : t.settle? queue = some (r, queue')) : r.presses ++ queue' = queue := by
  cases queue with
  | nil => cases h
  | cons p ps =>
    obtain ⟨⟨e, n⟩, _, h⟩ := Option.map_eq_some_iff.1 h
    cases h
    simp [Resolution.presses]

theorem presses_resolveFront (t : ChordTable) (p : Press) (ps : List Press) :
    (t.resolveFront p ps).1.presses ++ (t.resolveFront p ps).2 = p :: ps := by
  unfold resolveFront
  cases h : t.settle? (p :: ps) with
  | none => rfl
  | some r => exact presses_settle? h

theorem length_resolveFront (t : ChordTable) (p : Press) (ps : List Press) :
    (t.resolveFront p ps).2.length < (p :: ps).length := by
  have h := congrArg List.length (t.presses_resolveFront p ps)
  have hpos : 0 < (t.resolveFront p ps).1.presses.length := by
    cases (t.resolveFront p ps).1 <;> simp [Resolution.presses]
  rw [List.length_append] at h
  omega

/-- Resolves the queue until it is empty or worth waiting for.  Keys that spell a chord become it at once if no
longer one is possible; keys that belong to no chord together lose their front. -/
def recheck (t : ChordTable) : List Press → Resolved
  | [] => .rest []
  | p :: ps =>
    match t.classify ((p :: ps).map (·.key)) with
    | .complete e => ⟨[.chord e p ps], []⟩
    | .incomplete | .deferred _ => .rest (p :: ps)
    | .impossible => (t.recheck (t.resolveFront p ps).2).after [(t.resolveFront p ps).1]
termination_by queue => queue.length
decreasing_by exact t.length_resolveFront p ps

theorem presses_recheck (t : ChordTable) (queue : List Press) : (t.recheck queue).presses = queue := by
  fun_induction recheck t queue with
  | case1 => rfl
  | case2 p ps e h => simp [Resolved.presses, Resolution.presses]
  | case3 => rfl
  | case4 => rfl
  | case5 p ps h ih => simp [ih, presses_resolveFront]

theorem length_recheck (t : ChordTable) (queue : List Press) : (t.recheck queue).queue.length ≤ queue.length := by
  have h := congrArg List.length (t.presses_recheck queue)
  rw [Resolved.presses, List.length_append] at h
  omega

/-- Resolves the front of the queue, and then what is no longer worth waiting for. -/
def resolveFrontAndRecheck (t : ChordTable) (p : Press) (ps : List Press) : Resolved :=
  (t.recheck (t.resolveFront p ps).2).after [(t.resolveFront p ps).1]

/-- Resolves the queue while its front has waited for more than `timeout`.  A clock that goes back makes no press
old. -/
def expire (t : ChordTable) (timeout now : Nat) : List Press → Resolved
  | [] => .rest []
  | p :: ps =>
    if now - p.time ≤ timeout then .rest (p :: ps)
    else
      let r := t.resolveFrontAndRecheck p ps
      (t.expire timeout now r.queue).after r.resolutions
termination_by queue => queue.length
decreasing_by exact Nat.lt_of_le_of_lt (t.length_recheck _) (t.length_resolveFront p ps)

/-- Resolves the whole queue. -/
def resolveAll (t : ChordTable) : List Press → List Resolution
  | [] => []
  | p :: ps => (t.resolveFront p ps).1 :: t.resolveAll (t.resolveFront p ps).2
termination_by queue => queue.length
decreasing_by exact t.length_resolveFront p ps

/-- Settles the front of the queue if it can be, and then what is no longer worth waiting for. -/
def settleOnce (t : ChordTable) (queue : List Press) : Resolved :=
  match t.settle? queue with
  | some (r, queue') => (t.recheck queue').after [r]
  | none => .rest queue

theorem presses_resolveFrontAndRecheck (t : ChordTable) (p : Press) (ps : List Press) :
    (t.resolveFrontAndRecheck p ps).presses = p :: ps := by
  simp [resolveFrontAndRecheck, presses_recheck, presses_resolveFront]

theorem presses_expire (t : ChordTable) (timeout now : Nat) (queue : List Press) :
    (t.expire timeout now queue).presses = queue := by
  fun_induction expire t timeout now queue with
  | case1 => rfl
  | case2 => rfl
  | case3 p ps h r ih =>
    rw [Resolved.presses_after, ih]
    exact t.presses_resolveFrontAndRecheck p ps

theorem presses_resolveAll (t : ChordTable) (queue : List Press) :
    (t.resolveAll queue).flatMap Resolution.presses = queue := by
  fun_induction resolveAll t queue with
  | case1 => rfl
  | case2 p ps ih => rw [List.flatMap_cons, ih, presses_resolveFront]

theorem presses_settleOnce (t : ChordTable) (queue : List Press) : (t.settleOnce queue).presses = queue := by
  unfold settleOnce
  split
  · rename_i r queue' h
    simpa [presses_recheck] using presses_settle? h
  · rfl

end ChordTable

end Chording
