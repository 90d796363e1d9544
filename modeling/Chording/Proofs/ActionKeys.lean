import Chording.Proofs.Moves
import Chording.Proofs.Spelling

/-!
# From the last key of a chord to its last release

When the whole queue has become a chord (`formed`), nothing is held back any more, and the action key of the new slot
is held downstream at the address of the first press.  Its first release lets the action key go, and the releases of
its other addresses are swallowed (`LettingGo`).
-/

namespace Chording

/-! ### The action key of one slot -/

namespace ActiveChords

variable {a : ActiveChords} {addr : Address} {slot : Slot} {now : Nat}

private theorem find?_insertAt {c : ActiveChord} (hc : c.held = true) (registered : List (Slot × ActiveChord)) :
    (insertAt slot c registered).find? (fun entry => entry.1 = slot && entry.2.held) = some (slot, c) := by
  induction registered with
  | nil => simp [insertAt, hc]
  | cons x registered ih =>
    unfold insertAt
    split
    · rename_i hlt
      rw [List.find?_cons_of_neg (by simp [UInt32.ne_of_lt hlt]), ih]
    · split <;> exact List.find?_cons_of_pos (by simp [hc])

/-- A chord that was activated just now holds its action key, even if its slot was in use. -/
theorem heldAt?_activate (a : ActiveChords) (id : Nat) (action : KeyCode) (first : Press) (others : List Press)
    (now : Nat) :
    (a.activate id action (first :: others) now).active.heldAt? a.nextSlot = some ⟨id, action, first.addr, true⟩ := by
  show ((insertAt a.nextSlot _ a.registered).find? _).map (·.2) = _
  rw [find?_insertAt rfl]
  rfl

theorem heldAt?_eq_none (h : ∀ c, ¬a.Holds slot c) : a.heldAt? slot = none := by
  refine Option.map_eq_none_iff.2 (List.find?_eq_none.2 fun x hx hheld => ?_)
  obtain ⟨rfl, hc⟩ : x.1 = slot ∧ x.2.held = true := by simpa using hheld
  exact h x.2 ⟨hx, hc⟩

theorem slotOf?_of_mem (hn : (a.consumed.map (·.1)).Nodup) (h : (addr, slot) ∈ a.consumed) :
    a.slotOf? addr = some slot := by
  cases hs : a.slotOf? addr with
  | none => simpa using List.find?_eq_none.1 (Option.map_eq_none_iff.1 hs) _ h
  | some slot' => rw [slot_unique hn (mem_consumed_of_slotOf? hs) h]

/-- A release of an address lets the action key of its slot go, and no action key is held there after that. -/
theorem exists_release? (hn : (a.consumed.map (·.1)).Nodup) (h : (addr, slot) ∈ a.consumed) (now : Nat) :
    ∃ change, a.release? addr now = some change ∧
      change.events = ((a.heldAt? slot).map (·.release now)).toList ∧ change.active.heldAt? slot = none ∧
      change.active.consumed = a.consumed.filter (fun entry => entry.1 ≠ addr) := by
  obtain ⟨change, hr⟩ : ∃ change, a.release? addr now = some change :=
    Option.isSome_iff_exists.1 (by simp [release?, slotOf?_of_mem hn h])
  obtain ⟨slot', hs', hev, -, hcon, -, -⟩ := exists_slot_of_release? hr
  obtain rfl := slot_unique hn hs' h
  obtain ⟨slot'', hs'', hholds, -⟩ := holds_release? hr
  obtain rfl := slot_unique hn hs'' h
  exact ⟨change, hr, hev, heldAt?_eq_none fun c hc => ((hholds _ c).1 hc).2 rfl, hcon⟩

end ActiveChords

namespace Recognizer

variable {r s : Recognizer} {event : KeyEvent} {layers : ActiveLayers} {front : List Call}

/-! ### When the queue becomes a chord -/

/-- The whole queue has become a chord. -/
def formed (r : Recognizer) (e : Entry) (first : Press) (others : List Press) (now : Nat) : Recognizer :=
  (r.withQueue []).withActive (r.active.activate e.id e.chord.action (first :: others) now).active

theorem resolve_formed (r : Recognizer) (e : Entry) (first : Press) (others : List Press) (now : Nat) :
    r.resolve now ⟨[.chord e first others], []⟩ =
      ⟨r.formed e first others now, [.resolved (.chord e first others) now]⟩ :=
  rfl

theorem Coherent.formed (h : r.Coherent) {first : Press} {others : List Press}
    (hq : r.pending.entries = first :: others) (e : Entry) (now : Nat) : (r.formed e first others now).Coherent :=
  h.activate (hq.trans (List.append_nil _).symm) e.id e.chord.action now

/-- Just the addresses of the presses that became the chord are consumed in addition, all of them for its slot. -/
theorem Coherent.consumed_formed (h : r.Coherent) {first : Press} {others : List Press}
    (hq : r.pending.entries = first :: others) (e : Entry) (now : Nat) :
    (r.formed e first others now).active.consumed =
      r.active.consumed ++ (first :: others).map fun p => (p.addr, r.active.nextSlot) :=
  h.consumed_activate (hq.trans (List.append_nil _).symm) e.id e.chord.action now

/-- A press at an idle address joins the queue if there is room, and the queue is looked at again. -/
theorem press_of_lt (hs : r.isSuppressed layers = false) (hp : r.table.isParticipant event.key = true)
    (hi : r.Idle event.addr) (hlt : r.pending.size < r.pending.capacity) :
    r.press event layers = r.resolve event.time (r.table.recheck (r.pending.entries ++ [.ofEvent event])) := by
  rw [press_of_idle hs hp hi.1 hi.2, hold_of_lt hlt]
  rfl

/-- A press that leaves the queue worth waiting for is held. -/
theorem press_of_viable (hs : r.isSuppressed layers = false) (hp : r.table.isParticipant event.key = true)
    (hi : r.Idle event.addr) (hlt : r.pending.size < r.pending.capacity)
    (hv : r.table.Viable ((r.pending.entries ++ [Press.ofEvent event]).map (·.key))) :
    r.press event layers = ⟨r.withQueue (r.pending.entries ++ [.ofEvent event]), []⟩ := by
  rw [press_of_lt hs hp hi hlt, ChordTable.recheck_of_viable hv]
  rfl

/-- The press that completes a chord turns the whole queue into it. -/
theorem press_of_complete (hs : r.isSuppressed layers = false) (hp : r.table.isParticipant event.key = true)
    (hi : r.Idle event.addr) (hlt : r.pending.size < r.pending.capacity) {first : Press} {others : List Press}
    (hq : r.pending.entries ++ [.ofEvent event] = first :: others) {e : Entry}
    (hc : r.table.classify ((first :: others).map (·.key)) = .complete e) :
    r.press event layers =
      ⟨r.formed e first others event.time, [.resolved (.chord e first others) event.time]⟩ := by
  rw [press_of_lt hs hp hi hlt, hq, ChordTable.recheck, hc]
  rfl

/-- A tick does nothing while the oldest press is young. -/
theorem tick_of_young {now : Nat} (h : r.timeout = 0 ∨ ∀ p ∈ r.pending.entries.head?, now - p.time ≤ r.timeout.toNat) :
    r.tick now = ⟨r, []⟩ := by
  by_cases h0 : r.timeout = 0
  · exact if_pos h0
  · have hyoung := h.resolve_left h0
    have hrest : r.table.expire r.timeout.toNat now r.pending.entries = .rest r.pending.entries := by
      cases hq : r.pending.entries with
      | nil => rw [ChordTable.expire]
      | cons p ps =>
        rw [hq] at hyoung
        rw [ChordTable.expire, if_pos (hyoung p rfl)]
    rw [tick_of_ne_zero h0, hrest]
    rfl

/-! ### Letting go -/

/-- The addresses of the events of calls. -/
def addrsOf (calls : List Call) : List Address :=
  (calls.flatMap Call.events).map (·.addr)

private theorem addrsOf_concat (front : List Call) (event : KeyEvent) (layers : ActiveLayers) :
    addrsOf (front ++ [.key event layers]) = addrsOf front ++ [event.addr] := by
  simp [addrsOf, Call.events]

/-- An address that is released next is one of those that are released, and was not released before. -/
theorem mem_of_split {addrs : List Address} {ups rest : List Call} (h : (addrsOf ups).Perm addrs) (hn : addrs.Nodup)
    (hsplit : ups = front ++ .key event layers :: rest) : event.addr ∈ addrs ∧ event.addr ∉ addrsOf front := by
  have heq : addrsOf ups = addrsOf front ++ event.addr :: addrsOf rest := by
    rw [hsplit]
    simp [addrsOf, Call.events]
  rw [heq] at h
  have hn' := h.nodup_iff.2 hn
  rw [List.nodup_append] at hn'
  exact ⟨h.subset (by simp), fun hm => hn'.2.2 _ hm _ List.mem_cons_self rfl⟩

/-- After some releases: the addresses that were not released wait for the slot, the others for none, and the action
key of the slot is held until the first release. -/
structure LettingGo (slot : Slot) (held : ActiveChord) (addrs : List Address) (front : List Call) (s : Recognizer) :
    Prop where
  entries : s.pending.entries = []
  waiting : ∀ a ∈ addrs, a ∉ addrsOf front → (a, slot) ∈ s.active.consumed
  freed : ∀ a ∈ addrsOf front, s.isConsumed a = false
  heldAt : s.active.heldAt? slot = if front = [] then some held else none

namespace LettingGo

variable {slot : Slot} {held : ActiveChord} {addrs : List Address}

/-- Before any release the new chord holds its action key, and all its addresses wait for it. -/
theorem start (hcoh : s.Coherent) {first : Press} {others : List Press} (hq : s.pending.entries = first :: others)
    (e : Entry) (now : Nat) :
    LettingGo s.active.nextSlot ⟨e.id, e.chord.action, first.addr, true⟩ ((first :: others).map (·.addr)) []
      (s.formed e first others now) where
  entries := rfl
  waiting := by
    intro a ha _
    obtain ⟨p, hp, rfl⟩ := List.mem_map.1 ha
    rw [hcoh.consumed_formed hq]
    exact List.mem_append_right _ (List.mem_map.2 ⟨p, hp, rfl⟩)
  freed := fun a ha => absurd ha List.not_mem_nil
  heldAt := s.active.heldAt?_activate e.id e.chord.action first others now

/-- The first release lets the action key go, and the others are swallowed. -/
theorem release (h : LettingGo slot held addrs front s) (hcoh : s.Coherent) (he : event.edge = .up)
    (hmem : event.addr ∈ addrs) (hnew : event.addr ∉ addrsOf front) (layers : ActiveLayers) :
    (s.key event layers).events = (if front = [] then [held.release event.time] else []) ∧
    LettingGo slot held addrs (front ++ [.key event layers]) (s.key event layers).recognizer := by
  obtain ⟨change, hr, hev, hnone, hcon⟩ :=
    ActiveChords.exists_release? hcoh.nodup_consumed (h.waiting _ hmem hnew) event.time
  have hi : s.isPending event.addr = false := isPending_eq_false.2 fun p hp => absurd (h.entries ▸ hp) List.not_mem_nil
  rw [key_of_up he, release_of_not_pending hi, releaseIdle_of_release? hr]
  constructor
  · rw [Outcome.events, map_event_released, hev, h.heldAt]
    split <;> rfl
  · refine ⟨h.entries, fun a ha hnot => ?_, fun a ha => ?_, ?_⟩
    · rw [addrsOf_concat, List.mem_append, not_or, List.mem_singleton] at hnot
      show (a, slot) ∈ change.active.consumed
      rw [hcon, List.mem_filter]
      exact ⟨h.waiting a ha hnot.1, by simpa using hnot.2⟩
    · refine isConsumed_eq_false.2 fun hm => ?_
      obtain ⟨x, hx, rfl⟩ := List.mem_map.1 (show a ∈ change.active.consumed.map (·.1) from hm)
      rw [hcon, List.mem_filter] at hx
      rw [addrsOf_concat, List.mem_append, List.mem_singleton] at ha
      rcases ha with ha | ha
      · exact isConsumed_eq_false.1 (h.freed x.1 ha) (List.mem_map_of_mem hx.1)
      · exact absurd ha (by simpa using hx.2)
    · rw [if_neg (by simp)]
      exact hnone

/-- What holds before the releases of all addresses holds after every part of them. -/
theorem run (h : LettingGo slot held addrs [] s) (hcoh : s.Coherent) {ups : List Call}
    (hups : ∀ call ∈ ups, ∃ event layers, call = .key event layers ∧ event.edge = .up)
    (haddrs : (addrsOf ups).Perm addrs) (hn : addrs.Nodup) {rest : List Call} (hfront : ups = front ++ rest) :
    LettingGo slot held addrs front (s.run front).recognizer := by
  refine front_induction (P := fun front s => LettingGo slot held addrs front s) h ?_ hfront
  intro front call rest hsplit hg
  obtain ⟨event, layers, rfl, he⟩ := hups call (by rw [hsplit]; simp)
  obtain ⟨hmem, hnew⟩ := mem_of_split haddrs hn hsplit
  exact (hg.release (hcoh.run front) he hmem hnew layers).2

end LettingGo

end Recognizer

end Chording
