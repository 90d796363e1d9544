import Chording.Proofs.InStep
import Chording.Proofs.Viability

/-!
# Clean streams stay clean

If presses and releases alternate at every address of the raw stream, they do so downstream (`run_clean`), as long as
the queue never drops a press: it gives up its oldest one (`OverflowPolicy.evictOldest`), or has room for the longest
chord.
-/

namespace Chording

namespace Recognizer

variable {r : Recognizer}

/-- A queue at rest takes a press, because it would give one up or has room for the longest chord. -/
structure Roomy (r : Recognizer) : Prop where
  capacity_pos : 0 < r.pending.capacity
  evicts_or_le : r.pending.policy = .evictOldest ∨ r.table.longest ≤ r.pending.capacity

private theorem Roomy.of_sameSettings (h : r.Roomy) {r' : Recognizer} (hs : r.SameSettings r') : r'.Roomy := by
  refine ⟨hs.capacity ▸ h.capacity_pos, ?_⟩
  rw [hs.policy, hs.table, hs.capacity]
  exact h.evicts_or_le

private theorem Rested.admits (h : r.Rested) (hr : r.Roomy) : r.pending.Admits := by
  rcases hr.evicts_or_le with he | hl
  · by_cases hlt : r.pending.size < r.pending.capacity
    · exact Or.inl hlt
    · -- a full queue is not empty, because it has room for a press
      refine Or.inr ⟨he, fun hnil => hlt ?_⟩
      rw [PendingQueue.size, hnil]
      exact hr.capacity_pos
  · exact Or.inl (h.size_lt hr.capacity_pos hl)

private theorem Rested.not_drops (h : r.Rested) (hr : r.Roomy) (call : Call) : ¬r.Drops call := by
  cases call with
  | key event layers => exact fun hd => hd.2.2.2.2.2 (h.admits hr)
  | tick | flush | reset => exact id

/-- A run without resets keeps the streams in step, if presses may be lost or none is dropped. -/
theorem InStep.run {lossy : Prop} {n : Nat} {raw sent : List KeyEvent} (h : InStep lossy n raw sent r)
    (hd : lossy ∨ r.Rested ∧ r.Roomy) {calls : List Call} (hr : ∀ call ∈ calls, call ≠ .reset)
    (hclean : Clean (raw ++ calls.flatMap Call.events)) (hlt : n + activations (r.run calls).emissions < UInt32.size) :
    InStep lossy (n + activations (r.run calls).emissions) (raw ++ calls.flatMap Call.events)
      (sent ++ (r.run calls).events) (r.run calls).recognizer := by
  -- that the queue is at rest and has room is carried along, because it is what rules out the next drop
  induction calls generalizing n raw sent r with
  | nil =>
    rw [run_nil, events_nothing, List.flatMap_nil, List.append_nil, List.append_nil]
    exact h
  | cons call calls ih =>
    obtain ⟨hcall, hcalls⟩ := List.forall_mem_cons.1 hr
    rw [emissions_run_cons, activations_append, ← Nat.add_assoc] at hlt ⊢
    rw [List.flatMap_cons, ← List.append_assoc] at hclean ⊢
    rw [events_run_cons, ← List.append_assoc]
    have hdrops : r.Drops call → lossy := fun hdrop =>
      hd.resolve_right fun hroom => hroom.1.not_drops hroom.2 call hdrop
    have hd' : lossy ∨ (r.step call).recognizer.Rested ∧ (r.step call).recognizer.Roomy :=
      hd.imp_right fun hroom => ⟨hroom.1.step call, hroom.2.of_sameSettings (r.sameSettings_step call)⟩
    exact ih (h.step hcall hdrops hclean.of_append (by omega)) hd' hcalls hclean hlt

/-- If presses and releases alternate at every address of the raw stream, beginning with a press, they do so
downstream, and if there each release is of the key that was pressed, it is so downstream.  At an address where
nothing is in flight, the same key is down in both streams. -/
theorem run_clean {c : Config} (hc : ofConfig c = .ok r)
    (hroom : c.overflow = .evictOldest ∨ r.table.longest ≤ c.capacity.toNat) {calls : List Call}
    (hr : ∀ call ∈ calls, call ≠ .reset) (hclean : Clean (calls.flatMap Call.events))
    (hfew : activations (r.run calls).emissions < UInt32.size) :
    Clean (r.run calls).events ∧
    (Keyed (calls.flatMap Call.events) → Keyed (r.run calls).events) ∧
    ∀ a, (r.run calls).recognizer.isPending a = false → (r.run calls).recognizer.isConsumed a = false →
      heldAt (r.run calls).events a = heldAt (calls.flatMap Call.events) a := by
  have hfresh := fresh_ofConfig hc
  have hroomy : r.Roomy := by
    obtain ⟨h0, t, -, rfl⟩ := ofConfig_eq_ok hc
    exact ⟨h0, hroom⟩
  have hrun : InStep False (0 + activations (r.run calls).emissions) ([] ++ calls.flatMap Call.events)
      ([] ++ (r.run calls).events) (r.run calls).recognizer :=
    (InStep.start hfresh False).run (Or.inr ⟨rested_of_nil hfresh.entries, hroomy⟩) hr hclean (by omega)
  obtain ⟨hsent, hkeyed⟩ := hrun.sound.resolve_left id
  refine ⟨hsent, hkeyed, fun a hi hcon => ?_⟩
  exact (hrun.sent_idle a hi hcon).resolve_right fun hlost => hlost.1

/-- Of the chord that is recognized while its keys roll, the action key is pressed and released, in the place of the
key pressed first. -/
theorem run_clean_nestedRoll :
    ∃ r, ofConfig .nested = .ok r ∧
      (r.run nestedRoll).events = [⟨⟨0, 1⟩, ⟨20⟩, .down, 5⟩, ⟨⟨0, 1⟩, ⟨20⟩, .up, 5⟩] ∧
      Clean (r.run nestedRoll).events ∧ Keyed (r.run nestedRoll).events := by
  have hr : ∀ call ∈ nestedRoll, call ≠ .reset := by simp [nestedRoll]
  refine ⟨_, rfl, by decide +kernel, ?_⟩
  obtain ⟨hclean, hkeyed, -⟩ := run_clean (c := .nested) rfl (Or.inr (by decide)) hr (by decide) (by decide +kernel)
  exact ⟨hclean, hkeyed (by decide)⟩

end Recognizer

end Chording
