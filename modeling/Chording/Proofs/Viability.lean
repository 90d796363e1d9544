import Chording.Proofs.Calls

/-!
# What is still held may still become a chord

Between calls the queue is empty, or its keys are distinct and belong to a longer chord (`Rested.run`): every call
that resolves something ends with a recheck, and a recheck stops nowhere else.  So a queue at rest is shorter than
the longest chord (`Viable.length_lt_longest`).
-/

namespace Chording

namespace ChordTable

/-- Keys that are worth waiting for: none at all, or distinct keys that are some but not all keys of a chord. -/
def Viable (t : ChordTable) (keys : List KeyCode) : Prop :=
  keys = [] ∨ keys.Nodup ∧ ∃ chord ∈ t.chords, keys ⊆ chord.keys ∧ ∃ key ∈ chord.keys, key ∉ keys

/-- The number of keys of the longest chord. -/
def longest (t : ChordTable) : Nat :=
  (t.chords.map (·.keys.length)).max?.getD 0

variable {t : ChordTable}

private theorem length_le_longest {chord : Chord} (h : chord ∈ t.chords) : chord.keys.length ≤ t.longest :=
  List.le_max?_getD_of_mem (List.mem_map_of_mem h)

/-- Distinct keys of a chord that has one more are fewer. -/
theorem length_lt_of_missing {keys : List KeyCode} {chord : Chord} (hn : keys.Nodup) (hsub : keys ⊆ chord.keys)
    {key : KeyCode} (hk : key ∈ chord.keys) (hnk : key ∉ keys) : keys.length < chord.keys.length := by
  have hcons : (key :: keys).Nodup := List.nodup_cons.2 ⟨hnk, hn⟩
  exact (List.subperm_of_subset hcons (List.cons_subset.2 ⟨hk, hsub⟩)).length_le

theorem Viable.length_lt_longest {keys : List KeyCode} (h : t.Viable keys) (hne : keys ≠ []) :
    keys.length < t.longest := by
  obtain ⟨hn, chord, hc, hsub, key, hk, hnk⟩ := h.resolve_left hne
  exact Nat.lt_of_lt_of_le (length_lt_of_missing hn hsub hk hnk) (length_le_longest hc)

theorem Viable.length_lt_max {keys : List KeyCode} (h : t.Viable keys) : keys.length < maxChordKeys := by
  rcases h with rfl | ⟨hn, chord, -, hsub, key, hk, hnk⟩
  · decide
  · exact Nat.lt_of_lt_of_le (length_lt_of_missing hn hsub hk hnk) chord.length_le_max

/-! ### Resolving ends with viable keys -/

private theorem viable_of_hasLonger {keys : List KeyCode} (hn : keys.Nodup) (h : t.hasLonger keys = true) :
    t.Viable keys := by
  obtain ⟨e, he, hlt⟩ := List.any_eq_true.1 h
  obtain ⟨he, hsub⟩ := mem_candidates.1 he
  have hlt : keys.length < e.chord.keys.length := by simpa using hlt
  refine Or.inr ⟨hn, e.chord, List.mem_of_getElem? (mem_entries.1 he), hsub, ?_⟩
  -- were every key of the chord held, the chord would have no more keys than are held
  by_contra hall
  have hle := (List.subperm_of_subset e.chord.nodup_keys fun k hk => by_contra fun hnk => hall ⟨k, hk, hnk⟩).length_le
  omega

private theorem viable_of_waiting {keys : List KeyCode}
    (h : t.classify keys = .incomplete ∨ ∃ e, t.classify keys = .deferred e) : t.Viable keys := by
  unfold classify at h
  split at h
  · simp at h
  · rename_i hk
    have hn : keys.Nodup := Decidable.not_not.1 fun hn => hk (Or.inr hn)
    split at h
    · simp at h
    · rename_i hl
      exact viable_of_hasLonger hn hl
    · rename_i hl
      exact viable_of_hasLonger hn hl
    · simp at h

private theorem viable_recheck (t : ChordTable) (queue : List Press) :
    t.Viable ((t.recheck queue).queue.map (·.key)) := by
  fun_induction recheck t queue with
  | case1 => exact Or.inl rfl
  | case2 => exact Or.inl rfl
  | case3 p ps h => exact viable_of_waiting (Or.inl h)
  | case4 p ps e h => exact viable_of_waiting (Or.inr ⟨e, h⟩)
  | case5 p ps h ih => exact ih

private theorem viable_expire {timeout now : Nat} {queue : List Press} (h : t.Viable (queue.map (·.key))) :
    t.Viable ((t.expire timeout now queue).queue.map (·.key)) := by
  fun_induction expire t timeout now queue with
  | case1 => exact h
  | case2 => exact h
  | case3 p ps hold r ih => exact ih (t.viable_recheck _)

theorem viable_settleOnce {queue : List Press} (h : t.Viable (queue.map (·.key))) :
    t.Viable ((t.settleOnce queue).queue.map (·.key)) := by
  unfold settleOnce
  split
  · exact t.viable_recheck _
  · exact h

end ChordTable

namespace Recognizer

variable {r : Recognizer}

/-- The keys that are held are worth waiting for. -/
def Rested (r : Recognizer) : Prop := r.table.Viable r.pending.keys

theorem rested_of_nil (h : r.pending.entries = []) : r.Rested := Or.inl (by simp [PendingQueue.keys, h])

private theorem rested_recheck (r : Recognizer) (now : Nat) : (r.recheck now).recognizer.Rested :=
  r.table.viable_recheck r.pending.entries

private theorem Rested.hold (h : r.Rested) (event : KeyEvent) : (r.hold event).recognizer.Rested := by
  by_cases hlt : r.pending.size < r.pending.capacity
  · rw [hold_of_lt hlt]
    exact rested_recheck _ _
  by_cases ha : r.pending.Admits
  · obtain ⟨oldest, rest, -, hh⟩ := hold_of_not_lt event hlt ha
    rw [hh]
    exact rested_recheck _ _
  · rw [hold_of_not_admits ha]
    exact h

private theorem Rested.press (h : r.Rested) (event : KeyEvent) (layers : ActiveLayers) :
    (r.press event layers).recognizer.Rested := by
  unfold Recognizer.press
  split
  · exact rested_of_nil rfl
  split
  · exact rested_of_nil rfl
  split
  · exact h
  · exact h.hold event

private theorem Rested.releaseIdle (h : r.Rested) (event : KeyEvent) : (r.releaseIdle event).recognizer.Rested := by
  unfold Recognizer.releaseIdle
  split <;> exact h

private theorem Rested.release (h : r.Rested) (event : KeyEvent) : (r.release event).recognizer.Rested := by
  cases hp : r.isPending event.addr with
  | false =>
    rw [release_of_not_pending hp]
    exact h.releaseIdle event
  | true =>
    have hr : (r.settle event.time).recognizer.Rested := ChordTable.viable_settleOnce h
    cases hs : (r.settle event.time).recognizer.isPending event.addr with
    | false =>
      rw [release_of_settled hp hs]
      exact hr.releaseIdle event
    | true =>
      rw [release_of_unsettled hp hs]
      exact rested_recheck _ _

theorem Rested.step (h : r.Rested) (call : Call) : (r.step call).recognizer.Rested := by
  cases call with
  | key event layers =>
    show (r.key event layers).recognizer.Rested
    unfold key
    split
    · exact h.press event layers
    · exact h.release event
  | tick now =>
    show (r.tick now).recognizer.Rested
    unfold tick
    split
    · exact h
    · exact ChordTable.viable_expire h
  | flush now => exact rested_of_nil rfl
  | reset => exact rested_of_nil rfl

theorem Rested.run (h : r.Rested) (calls : List Call) : (r.run calls).recognizer.Rested := by
  induction calls generalizing r with
  | nil => exact h
  | cons call calls ih => exact ih (h.step call)

/-- Room for the longest chord is room for one more press. -/
theorem Rested.size_lt (h : r.Rested) {n : Nat} (h0 : 0 < n) (hl : r.table.longest ≤ n) : r.pending.size < n := by
  by_cases he : r.pending.entries = []
  · rw [PendingQueue.size, he]
    exact h0
  · have hlt : r.pending.keys.length < r.table.longest := h.length_lt_longest (by simpa [PendingQueue.keys] using he)
    rw [PendingQueue.keys, List.length_map] at hlt
    exact Nat.lt_of_lt_of_le hlt hl

end Recognizer

end Chording
