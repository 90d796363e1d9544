import Chording.Proofs.Viability

/-!
# Room for the longest chord

A queue at rest is shorter than the longest chord, so a queue with room for the longest chord never overflows.  Its
capacity and its overflow policy can then not be seen from outside: with others in their place every call does the
same (`step_withRoom`), and so does every run (`run_withRoom`).
-/

namespace Chording

/-- The recognizer with a queue of another capacity and another overflow policy. -/
def Recognizer.withRoom (r : Recognizer) (capacity : Nat) (policy : OverflowPolicy) : Recognizer :=
  { r with pending := { r.pending with capacity := capacity, policy := policy } }

def Outcome.withRoom (o : Outcome) (capacity : Nat) (policy : OverflowPolicy) : Outcome :=
  { o with recognizer := o.recognizer.withRoom capacity policy }

namespace Recognizer

variable {r : Recognizer} {capacity : Nat} {policy : OverflowPolicy}

private theorem hold_withRoom (h : r.pending.size < r.pending.capacity) (h' : r.pending.size < capacity)
    (event : KeyEvent) : (r.withRoom capacity policy).hold event = (r.hold event).withRoom capacity policy := by
  have hs : (r.withRoom capacity policy).pending.size < (r.withRoom capacity policy).pending.capacity := h'
  rw [hold_of_lt h, hold_of_lt hs]
  rfl

private theorem press_withRoom (h : r.pending.size < r.pending.capacity) (h' : r.pending.size < capacity)
    (event : KeyEvent) (layers : ActiveLayers) :
    (r.withRoom capacity policy).press event layers = (r.press event layers).withRoom capacity policy := by
  have hs : (r.withRoom capacity policy).isSuppressed layers = r.isSuppressed layers := rfl
  have hp : (r.withRoom capacity policy).isPending event.addr = r.isPending event.addr := rfl
  have hc : (r.withRoom capacity policy).isConsumed event.addr = r.isConsumed event.addr := rfl
  have ht : (r.withRoom capacity policy).table = r.table := rfl
  unfold press
  rw [hs, hp, hc, ht, hold_withRoom h h']
  split
  · rfl
  split
  · rfl
  split <;> rfl

private theorem releaseIdle_withRoom (r : Recognizer) (event : KeyEvent) :
    (r.withRoom capacity policy).releaseIdle event = (r.releaseIdle event).withRoom capacity policy := by
  have ha : (r.withRoom capacity policy).active = r.active := rfl
  unfold releaseIdle
  rw [ha]
  split <;> rfl

private theorem release_withRoom (r : Recognizer) (event : KeyEvent) :
    (r.withRoom capacity policy).release event = (r.release event).withRoom capacity policy := by
  have hw : (r.withRoom capacity policy).isPending event.addr = r.isPending event.addr := rfl
  cases hp : r.isPending event.addr with
  | false => rw [release_of_not_pending hp, release_of_not_pending (hw.trans hp), releaseIdle_withRoom]
  | true =>
    have hsw : ((r.withRoom capacity policy).settle event.time).recognizer.isPending event.addr =
        (r.settle event.time).recognizer.isPending event.addr := rfl
    cases hs : (r.settle event.time).recognizer.isPending event.addr with
    | false =>
      rw [release_of_settled hp hs, release_of_settled (hw.trans hp) (hsw.trans hs)]
      show ((((r.settle event.time).recognizer.withRoom capacity policy).releaseIdle event).after
        (r.settle event.time).emissions) = _
      rw [releaseIdle_withRoom]
      rfl
    | true =>
      rw [release_of_unsettled hp hs, release_of_unsettled (hw.trans hp) (hsw.trans hs)]
      rfl

/-- No call shows the capacity and the policy of a queue that has room for a press. -/
theorem step_withRoom (h : r.pending.size < r.pending.capacity) (h' : r.pending.size < capacity) (call : Call) :
    (r.withRoom capacity policy).step call = (r.step call).withRoom capacity policy := by
  cases call with
  | key event layers =>
    show (r.withRoom capacity policy).key event layers = (r.key event layers).withRoom capacity policy
    unfold key
    split
    · exact press_withRoom h h' event layers
    · exact r.release_withRoom event
  | tick now =>
    have ht : (r.withRoom capacity policy).timeout = r.timeout := rfl
    show (r.withRoom capacity policy).tick now = (r.tick now).withRoom capacity policy
    unfold tick
    rw [ht]
    split <;> rfl
  | flush now => rfl
  | reset => rfl

theorem run_withRoom (hr : r.Rested) (h0 : 0 < r.pending.capacity) (hl : r.table.longest ≤ r.pending.capacity)
    (h0' : 0 < capacity) (hl' : r.table.longest ≤ capacity) (calls : List Call) :
    (r.withRoom capacity policy).run calls = (r.run calls).withRoom capacity policy := by
  -- the queue is at rest before each call, so that it has room for the press of the call
  induction calls generalizing r with
  | nil => rfl
  | cons call calls ih =>
    have hs := r.sameSettings_step call
    rw [run, run, step_withRoom (hr.size_lt h0 hl) (hr.size_lt h0' hl')]
    have ih' := ih (hr.step call) (hs.capacity ▸ h0) (hs.capacity ▸ hs.table ▸ hl) (hs.table ▸ hl')
    show ((r.step call).recognizer.withRoom capacity policy |>.run calls).after _ = _
    rw [ih']
    rfl

/-- Between calls the queue is empty, or its keys are distinct, a proper part of the keys of a chord, and fewer than
the longest chord has.  Hence a queue with room for the longest chord takes every press without giving one up, and
two recognizers that differ only in such queues do the same in every run. -/
theorem run_viable_and_room_unseen {c : Config} (hc : ofConfig c = .ok r) (calls : List Call) :
    let s := (r.run calls).recognizer
    s.table.Viable s.pending.keys ∧
    (s.pending.entries ≠ [] → s.pending.size < s.table.longest) ∧
    (r.table.longest ≤ c.capacity.toNat →
      (∀ p, (s.pending.push p).1 = .queued) ∧
      ∀ (c' : Config) (r' : Recognizer), ofConfig c' = .ok r' → c'.chords = c.chords → c'.timeout = c.timeout →
        c'.disabledLayers = c.disabledLayers → r'.table.longest ≤ c'.capacity.toNat →
        (r'.run calls).events = (r.run calls).events ∧
        (r'.run calls).recognizer.pending.entries = s.pending.entries ∧
        (r'.run calls).recognizer.active = s.active) := by
  intro s
  obtain ⟨h0, t, ht, hr⟩ := ofConfig_eq_ok hc
  have hset : r.SameSettings s := r.sameSettings_run calls
  have hfresh : r.Rested := rested_of_nil (by rw [hr]; rfl)
  have hrest : s.Rested := hfresh.run calls
  have hcap : r.pending.capacity = c.capacity.toNat := by rw [hr]; rfl
  refine ⟨hrest, fun hne => ?_, fun hl => ⟨fun p => ?_, ?_⟩⟩
  · have hlt := hrest.length_lt_longest (by simpa [PendingQueue.keys] using hne)
    rwa [PendingQueue.keys, List.length_map] at hlt
  · have hlt : s.pending.size < s.pending.capacity := by
      rw [hset.capacity, hcap]
      exact hrest.size_lt h0 (hset.table ▸ hl)
    rw [PendingQueue.push_of_lt hlt]
  · intro c' r' hc' hchords htimeout hlayers hl'
    obtain ⟨h0', t', ht', hr'⟩ := ofConfig_eq_ok hc'
    have htt : t' = t := by
      rw [hchords, ht] at ht'
      exact (Except.ok.inj ht').symm
    have hroom : r' = r.withRoom c'.capacity.toNat c'.overflow := by
      rw [hr', hr, htt, htimeout, hlayers]
      rfl
    have htab : r.table.longest ≤ c'.capacity.toNat := by
      rw [hroom] at hl'
      exact hl'
    rw [hroom, run_withRoom hfresh (hcap ▸ h0) (hcap ▸ hl) h0' htab]
    exact ⟨rfl, rfl, rfl⟩

/-- Two keys of a chord of three are held, one less than there is room for, and with more room they are the same. -/
theorem nested_viable_and_room_unseen :
    ∃ r r', ofConfig .nested = .ok r ∧ ofConfig { Config.nested with capacity := 5, overflow := .evictOldest } = .ok r' ∧
      (r.run (nestedRoll.take 2)).recognizer.pending.entries ≠ [] ∧
      (r.run (nestedRoll.take 2)).recognizer.pending.size < (r.run (nestedRoll.take 2)).recognizer.table.longest ∧
      (r.run (nestedRoll.take 2)).recognizer.table.Viable (r.run (nestedRoll.take 2)).recognizer.pending.keys ∧
      (∀ p, ((r.run (nestedRoll.take 2)).recognizer.pending.push p).1 = .queued) ∧
      (r'.run (nestedRoll.take 2)).recognizer.pending.entries =
        (r.run (nestedRoll.take 2)).recognizer.pending.entries := by
  refine ⟨_, _, rfl, rfl, by decide +kernel, ?_⟩
  obtain ⟨hviable, hsize, hroom⟩ := run_viable_and_room_unseen (c := .nested) rfl (nestedRoll.take 2)
  obtain ⟨hqueued, hsame⟩ := hroom (by decide)
  have hmore := hsame { Config.nested with capacity := 5, overflow := .evictOldest } _ rfl rfl rfl rfl (by decide)
  exact ⟨hsize (by decide +kernel), hviable, hqueued, hmore.2.1⟩

end Recognizer

end Chording
