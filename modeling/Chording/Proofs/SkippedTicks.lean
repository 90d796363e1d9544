import Chording.Proofs.ActionKeys
import Chording.Proofs.TimeWindow

/-!
# Ticks that are left out

A tick reads the clock only to see whether the oldest press has waited for too long, and what is too old at one time is
too old at every later one.  So what a tick resolves is the beginning of what a later tick would resolve in its place
(`ChordTable.expire_expire`): a tick before another one changes nothing but the time of the action keys that it presses
(`tick_tick`).
-/

namespace Chording

/-- Expiring presses first at an earlier time does not change what becomes of the queue. -/
theorem ChordTable.expire_expire (t : ChordTable) {timeout now later : Nat} (h : now ≤ later) (queue : List Press) :
    t.expire timeout later queue =
      (t.expire timeout later (t.expire timeout now queue).queue).after (t.expire timeout now queue).resolutions := by
  fun_induction expire t timeout now queue with
  | case1 => rfl
  | case2 => rfl
  | case3 p ps hold r ih =>
    -- the front is too old at both times, so that both ticks resolve it alike
    have hold' : ¬later - p.time ≤ timeout := by omega
    rw [expire, if_neg hold']
    show (t.expire timeout later r.queue).after r.resolutions = _
    rw [ih]
    simp only [Resolved.after, List.append_assoc]

/-- The event, had it been made at that time.  Only presses of action keys have the time at which they are made. -/
def Emission.eventAt (now : Nat) (em : Emission) : KeyEvent :=
  if em.isActivation then { em.event with time := now } else em.event

private theorem Emission.eventAt_resolved (s : Resolution) (now later : Nat) :
    (resolved s now).eventAt later = (resolved s later).event := by
  cases s <;> rfl

namespace Recognizer

variable {r : Recognizer} {now later : Nat}

/-- The chords that become active do not depend on the clock. -/
private theorem activeAfter_eq (now later : Nat) : activeAfter now = activeAfter later := by
  funext active s
  cases s <;> rfl

/-- Resolving the queue in two steps is resolving it in one, at the later time. -/
private theorem recognizer_resolve_resolve (r : Recognizer) (now later : Nat) (resolved resolved' : Resolved) :
    ((r.resolve now resolved).recognizer.resolve later resolved').recognizer =
      (r.resolve later (resolved'.after resolved.resolutions)).recognizer := by
  have hactive : resolved'.resolutions.foldl (activeAfter later) (resolved.resolutions.foldl (activeAfter now) r.active) =
      (resolved.resolutions ++ resolved'.resolutions).foldl (activeAfter later) r.active := by
    rw [activeAfter_eq now later, List.foldl_append]
  simp only [resolve, Resolved.after, hactive]

private theorem events_resolve_after (r s : Recognizer) (now later : Nat) (resolved resolved' : Resolved) :
    (r.resolve later (resolved'.after resolved.resolutions)).events =
      (r.resolve now resolved).emissions.map (Emission.eventAt later) ++ (s.resolve later resolved').events := by
  simp only [Outcome.events, resolve, Resolved.after, List.map_append, List.map_map]
  congr 1
  exact List.map_congr_left fun s _ => (Emission.eventAt_resolved s now later).symm

private theorem time_of_activation {resolved : Resolved} {em : Emission} (hem : em ∈ (r.resolve now resolved).emissions)
    (hact : em.isActivation = true) : em.event.time = now := by
  obtain ⟨s, -, rfl⟩ := List.mem_map.1 hem
  cases s with
  | replay p => exact absurd hact Bool.false_ne_true
  | chord e first others => rfl

/-- A tick does nothing if there was one at the same time. -/
private theorem tick_again (r : Recognizer) (now : Nat) :
    (r.tick now).recognizer.tick now = ⟨(r.tick now).recognizer, []⟩ := by
  refine tick_of_young ?_
  by_cases h0 : r.timeout = 0
  · left
    rw [tick, if_pos h0]
    exact h0
  · right
    have hyoung := head?_tick h0 now
    rwa [tick_of_ne_zero h0] at hyoung ⊢

/-- What two ticks resolve, and that the later one alone resolves all of it. -/
private theorem exists_tick_tick (r : Recognizer) (h : now ≤ later) :
    ∃ resolved resolved', r.tick now = r.resolve now resolved ∧
      (r.tick now).recognizer.tick later = (r.tick now).recognizer.resolve later resolved' ∧
      r.tick later = r.resolve later (resolved'.after resolved.resolutions) := by
  by_cases h0 : r.timeout = 0
  · have hnone : ∀ time, r.tick time = r.resolve time (.rest r.pending.entries) := fun _ => if_pos h0
    refine ⟨.rest r.pending.entries, .rest r.pending.entries, hnone now, ?_, hnone later⟩
    rw [hnone now]
    exact hnone later
  · have hfirst := tick_of_ne_zero h0 now
    have hsecond : (r.tick now).recognizer.tick later = (r.tick now).recognizer.resolve later
        (r.table.expire r.timeout.toNat later (r.table.expire r.timeout.toNat now r.pending.entries).queue) := by
      rw [hfirst]
      refine tick_of_ne_zero ?_ later
      exact h0
    refine ⟨_, _, hfirst, hsecond, ?_⟩
    rw [tick_of_ne_zero h0 later, ← r.table.expire_expire h]

/-- A tick before another one leaves no trace in the recognizer, and the same events go on in the same order as if only
the later one had been made, except that the action keys that are pressed by the earlier one have its time.  At one
time a second tick does nothing. -/
theorem tick_tick (r : Recognizer) (h : now ≤ later) :
    let first := r.tick now
    let second := first.recognizer.tick later
    second.recognizer = (r.tick later).recognizer ∧
    (r.tick later).events = first.emissions.map (Emission.eventAt later) ++ second.events ∧
    (∀ em ∈ first.emissions, em.isActivation = true → em.event.time = now) ∧
    first.recognizer.tick now = ⟨first.recognizer, []⟩ := by
  intro first second
  obtain ⟨resolved, resolved', hfirst, hsecond, hlater⟩ := r.exists_tick_tick h
  have hfirst : first = r.resolve now resolved := hfirst
  have hsecond : second = first.recognizer.resolve later resolved' := hsecond
  refine ⟨?_, ?_, fun em hem hact => ?_, r.tick_again now⟩
  · rw [hsecond, hfirst, hlater]
    exact r.recognizer_resolve_resolve now later resolved resolved'
  · rw [hlater, hsecond, hfirst]
    exact r.events_resolve_after _ now later resolved resolved'
  · rw [hfirst] at hem
    exact time_of_activation hem hact

/-- The two presses of the shorter chord are too old at 30 already, and a tick at 40 finds nothing left to do. -/
theorem tick_tick_slowRoll :
    ∃ r₀, ofConfig { Config.nested with timeout := 24 } = .ok r₀ ∧
      let r := (r₀.run (slowRoll.take 4)).recognizer
      (r.tick 30).events = [⟨⟨0, 1⟩, ⟨20⟩, .down, 30⟩] ∧
      ((r.tick 30).recognizer.tick 40).recognizer = (r.tick 40).recognizer ∧
      (r.tick 40).events = [⟨⟨0, 1⟩, ⟨20⟩, .down, 40⟩] := by
  refine ⟨_, rfl, by decide +kernel, ?_⟩
  obtain ⟨hsame, hevents, -, -⟩ := tick_tick _ (show 30 ≤ 40 by decide)
  exact ⟨hsame, hevents.trans (by decide +kernel)⟩

end Recognizer

end Chording
