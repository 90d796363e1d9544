import Chording.Proofs.ActionKeys
import Chording.Proofs.TimeWindow

/-!
# No press waits for longer than the timeout

A tick looks at the front of the queue only.  That is enough, because the queue holds some of the presses that came, in
their order (`entries_run_sublist`): if no press comes with an earlier time than the one before it, the front is the
oldest of them, whatever calls have taken presses out of the queue.
-/

namespace Chording

/-- A press of the queue, and none is earlier. -/
structure IsOldest (queue : List Press) (p : Press) : Prop where
  mem : p ∈ queue
  time_le : ∀ q ∈ queue, p.time ≤ q.time

private theorem isOldest_of_head? {queue : List Press} (h : queue.Pairwise (·.time ≤ ·.time)) :
    ∀ p ∈ queue.head?, IsOldest queue p := by
  intro p hp
  cases queue with
  | nil => cases hp
  | cons first others =>
    obtain rfl := Option.some.inj hp
    refine ⟨List.mem_cons_self, fun q hq => ?_⟩
    rcases List.mem_cons.1 hq with rfl | hq
    · exact Nat.le_refl _
    · exact (List.pairwise_cons.1 h).1 q hq

namespace Recognizer

variable {r : Recognizer}

/-- What is held after some calls was held before them, or is some of the presses that came, in their order. -/
theorem entries_run_sublist (h : r.Coherent) (calls : List Call) :
    (r.run calls).recognizer.pending.entries.Sublist
      (r.pending.entries ++ pressesIn (calls.flatMap Call.events)) := by
  induction calls generalizing r with
  | nil => exact List.sublist_append_left _ _
  | cons call calls ih =>
    have hfirst := (draws_step h call).1
    have hothers := ih (h.run [call])
    rw [run_singleton] at hothers
    rw [recognizer_run_cons, List.flatMap_cons, pressesIn_append, ← List.append_assoc]
    exact hothers.trans (hfirst.append_right _)

/-- If there is a timeout and no press comes with an earlier time than the one before it, the queue is always in the
order of the times, a tick leaves no press in it that has waited for longer than the timeout, and a tick does nothing
just when the oldest press has not. -/
theorem waits_for_timeout {c : Config} (hc : ofConfig c = .ok r) (h0 : c.timeout ≠ 0) {calls : List Call}
    (htimes : (pressesIn (calls.flatMap Call.events)).Pairwise (·.time ≤ ·.time)) (now : Nat) :
    let s := (r.run calls).recognizer
    s.pending.entries.Pairwise (·.time ≤ ·.time) ∧
    (∀ p ∈ (s.tick now).recognizer.pending.entries, now - p.time ≤ c.timeout.toNat) ∧
    (s.tick now = ⟨s, []⟩ ↔ ∀ p, IsOldest s.pending.entries p → now - p.time ≤ c.timeout.toNat) := by
  intro s
  have hfresh := fresh_ofConfig hc
  have hcoh : s.Coherent := (coherent_of_fresh hfresh).run calls
  have htimeout : s.timeout = c.timeout := timeout_run hc calls
  have hsorted : s.pending.entries.Pairwise (·.time ≤ ·.time) := by
    have hsub := entries_run_sublist (coherent_of_fresh hfresh) calls
    rw [hfresh.entries, List.nil_append] at hsub
    exact htimes.sublist hsub
  have hyoung : ∀ p ∈ (s.tick now).recognizer.pending.entries, now - p.time ≤ c.timeout.toNat := by
    -- a tick brings no press, so that what it leaves is in order too
    have hsub : (s.tick now).recognizer.pending.entries.Sublist (s.pending.entries ++ []) :=
      (draws_step hcoh (.tick now)).1
    rw [List.append_nil] at hsub
    refine young_of_head? (hsorted.sublist hsub) ?_
    rw [← htimeout]
    exact head?_tick (htimeout ▸ h0) now
  refine ⟨hsorted, hyoung, fun hsame p hp => ?_, fun hold => ?_⟩
  · rw [hsame] at hyoung
    exact hyoung p hp.mem
  · refine tick_of_young (Or.inr fun p hp => ?_)
    rw [htimeout]
    exact hold p (isOldest_of_head? hsorted p hp)

/-- Two keys of the longer chord, which spell none. -/
def halfRoll : List Call :=
  [.key ⟨⟨0, 1⟩, ⟨22⟩, .down, 0⟩ fun _ => false, .key ⟨⟨0, 2⟩, ⟨7⟩, .down, 10⟩ fun _ => false]

/-- A tick at 24 finds the first press not too old yet, and one at 30 leaves just the second. -/
theorem waits_for_timeout_halfRoll :
    ∃ r, ofConfig { Config.nested with timeout := 24 } = .ok r ∧
      let s := (r.run halfRoll).recognizer
      s.tick 24 = ⟨s, []⟩ ∧ (s.tick 30).events = [⟨⟨0, 1⟩, ⟨22⟩, .down, 0⟩] ∧
      (s.tick 30).recognizer.pending.entries = [⟨⟨0, 2⟩, ⟨7⟩, 10⟩] ∧
      ∀ p ∈ (s.tick 30).recognizer.pending.entries, 30 - p.time ≤ 24 := by
  have hsorted : (pressesIn (halfRoll.flatMap Call.events)).Pairwise (·.time ≤ ·.time) := by decide
  refine ⟨_, rfl, ?_⟩
  obtain ⟨-, -, hquiet⟩ := waits_for_timeout (c := { Config.nested with timeout := 24 }) rfl (by decide) hsorted 24
  obtain ⟨-, hyoung, -⟩ := waits_for_timeout (c := { Config.nested with timeout := 24 }) rfl (by decide) hsorted 30
  exact ⟨hquiet.2 fun p _ => Nat.sub_le 24 p.time, by decide +kernel, by decide +kernel, hyoung⟩

end Recognizer

end Chording
