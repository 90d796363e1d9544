import Chording.Active
import Mathlib.Data.List.Nodup

/-!
# The registry of active chords

Which action keys are held, said without the order of the registry: `a.Holds slot c`.  Activating a chord adds one of
them, a release takes away that of its slot, and releasing all takes away all (`holds_activate`, `holds_release?`,
`holds_releaseAll`).

As long as the slots have not started again, a registry is well kept (`WellKept`): slots are told apart, and a chord
whose action key is held still owns the address that stands for it.
-/

namespace Chording

namespace ActiveChords

variable {a : ActiveChords} {addr : Address} {now : Nat}

/-- The action key of the chord is held downstream. -/
def Holds (a : ActiveChords) (slot : Slot) (c : ActiveChord) : Prop :=
  (slot, c) ∈ a.registered ∧ c.held = true

/-- Slots in use are distinct and before the next one, and a held chord owns the address that stands for it. -/
structure WellKept (a : ActiveChords) : Prop where
  nodup_slots : (a.registered.map (·.1)).Nodup
  registered_lt : ∀ x ∈ a.registered, x.1 < a.nextSlot
  consumed_lt : ∀ x ∈ a.consumed, x.2 < a.nextSlot
  addr_consumed : ∀ slot c, a.Holds slot c → (c.addr, slot) ∈ a.consumed

theorem WellKept.empty : (∅ : ActiveChords).WellKept where
  nodup_slots := List.nodup_nil
  registered_lt := fun _ h => absurd h List.not_mem_nil
  consumed_lt := fun _ h => absurd h List.not_mem_nil
  addr_consumed := fun _ _ h => absurd h.1 List.not_mem_nil

private theorem Holds.unique (h : a.WellKept) {slot : Slot} {c c' : ActiveChord} (hc : a.Holds slot c)
    (hc' : a.Holds slot c') : c = c' :=
  congrArg Prod.snd (List.inj_on_of_nodup_map h.nodup_slots hc.1 hc'.1 rfl)

/-- An address is taken for one slot only. -/
theorem slot_unique (hn : (a.consumed.map (·.1)).Nodup) {slot slot' : Slot} (h : (addr, slot) ∈ a.consumed)
    (h' : (addr, slot') ∈ a.consumed) : slot = slot' :=
  congrArg Prod.snd (List.inj_on_of_nodup_map hn h h' rfl)

theorem edge_of_mem_releases {cs : List ActiveChord} {e : KeyEvent} (he : e ∈ cs.map (·.release now)) :
    e.edge = .up := by
  obtain ⟨c, -, rfl⟩ := List.mem_map.1 he
  rfl

/-! ### Activating a chord -/

private theorem insertAt_of_lt {slot : Slot} {registered : List (Slot × ActiveChord)} (c : ActiveChord)
    (h : ∀ x ∈ registered, x.1 < slot) : insertAt slot c registered = registered ++ [(slot, c)] := by
  induction registered with
  | nil => rfl
  | cons x registered ih =>
    obtain ⟨hx, h⟩ := List.forall_mem_cons.1 h
    rw [insertAt, if_pos hx, ih h]
    rfl

private theorem foldl_consume {slot : Slot} {addrs : List Address} {consumed : List (Address × Slot)} (hn : addrs.Nodup)
    (hd : ∀ b ∈ addrs, b ∉ consumed.map (·.1)) :
    addrs.foldl (consume slot) consumed = consumed ++ addrs.map (·, slot) := by
  induction addrs generalizing consumed with
  | nil => simp
  | cons b addrs ih =>
    obtain ⟨hb, hd⟩ := List.forall_mem_cons.1 hd
    rw [List.nodup_cons] at hn
    -- a new address is taken from no other slot
    have hfilter : consumed.filter (fun entry => entry.1 ≠ b) = consumed := by
      rw [List.filter_eq_self]
      intro x hx
      simpa using fun hxb : x.1 = b => hb (hxb ▸ List.mem_map_of_mem hx)
    have hd' : ∀ b' ∈ addrs, b' ∉ (consumed ++ [(b, slot)]).map (·.1) := by
      intro b' hb' hm
      rw [List.map_append, List.mem_append] at hm
      rcases hm with hm | hm
      · exact hd b' hb' hm
      · have heq : b' = b := List.mem_singleton.1 hm
        exact hn.1 (heq ▸ hb')
    rw [List.foldl_cons, consume, hfilter, ih hn.2 hd', List.map_cons, ← List.append_cons]

theorem consumed_activate {first : Press} {others : List Press} (hn : ((first :: others).map (·.addr)).Nodup)
    (hd : ∀ p ∈ first :: others, a.isConsumed p.addr = false) (id : Nat) (action : KeyCode) (now : Nat) :
    (a.activate id action (first :: others) now).active.consumed =
      a.consumed ++ (first :: others).map fun p => (p.addr, a.nextSlot) := by
  have hd' : ∀ b ∈ (first :: others).map (·.addr), b ∉ a.consumed.map (·.1) := by
    intro b hb hm
    obtain ⟨p, hp, rfl⟩ := List.mem_map.1 hb
    exact Bool.false_ne_true ((hd p hp).symm.trans (isConsumed_iff.2 hm))
  show ((first :: others).map (·.addr)).foldl (consume a.nextSlot) a.consumed = _
  rw [foldl_consume hn hd', List.map_map]
  rfl

theorem registered_activate (h : a.WellKept) (first : Press) (others : List Press) (id : Nat) (action : KeyCode)
    (now : Nat) :
    (a.activate id action (first :: others) now).active.registered =
      a.registered ++ [(a.nextSlot, ⟨id, action, first.addr, true⟩)] :=
  insertAt_of_lt _ h.registered_lt

theorem holds_activate (h : a.WellKept) {first : Press} {others : List Press} {id : Nat} {action : KeyCode}
    {slot : Slot} {c : ActiveChord} :
    (a.activate id action (first :: others) now).active.Holds slot c ↔
      a.Holds slot c ∨ slot = a.nextSlot ∧ c = ⟨id, action, first.addr, true⟩ := by
  unfold Holds
  rw [registered_activate h, List.mem_append, List.mem_singleton, Prod.mk.injEq, or_and_right]
  refine or_congr_right ⟨And.left, fun hc => ⟨hc, ?_⟩⟩
  rw [hc.2]

private theorem toNat_next {slot : Slot} (hlt : slot.toNat + 1 < UInt32.size) : (slot + 1).toNat = slot.toNat + 1 := by
  rw [UInt32.toNat_add]
  exact Nat.mod_eq_of_lt hlt

/-- The next slot is after this one, unless the slots start again. -/
theorem lt_next {slot slot' : Slot} (hlt : slot.toNat + 1 < UInt32.size) : slot' < slot + 1 ↔ slot' ≤ slot := by
  rw [UInt32.lt_iff_toNat_lt, UInt32.le_iff_toNat_le, toNat_next hlt]
  omega

theorem toNat_nextSlot_activate (hlt : a.nextSlot.toNat + 1 < UInt32.size) (id : Nat) (action : KeyCode) (first : Press)
    (others : List Press) (now : Nat) :
    (a.activate id action (first :: others) now).active.nextSlot.toNat = a.nextSlot.toNat + 1 :=
  toNat_next hlt

theorem WellKept.activate (h : a.WellKept) {first : Press} {others : List Press}
    (hn : ((first :: others).map (·.addr)).Nodup) (hd : ∀ p ∈ first :: others, a.isConsumed p.addr = false)
    (hlt : a.nextSlot.toNat + 1 < UInt32.size) (id : Nat) (action : KeyCode) (now : Nat) :
    (a.activate id action (first :: others) now).active.WellKept := by
  have hreg := registered_activate h first others id action now
  have hcon := consumed_activate hn hd id action now
  have hnext : (a.activate id action (first :: others) now).active.nextSlot = a.nextSlot + 1 := rfl
  constructor
  · rw [hreg, List.map_append, List.nodup_append]
    refine ⟨h.nodup_slots, List.nodup_singleton _, ?_⟩
    rintro slot hs _ hm rfl
    obtain rfl := List.mem_singleton.1 hm
    obtain ⟨x, hx, hxs⟩ := List.mem_map.1 hs
    exact absurd (h.registered_lt x hx) (hxs ▸ UInt32.lt_irrefl _)
  · rw [hreg, hnext]
    intro x hx
    rw [lt_next hlt]
    rcases List.mem_append.1 hx with hx | hx
    · exact UInt32.le_of_lt (h.registered_lt x hx)
    · rw [List.mem_singleton.1 hx]
      exact UInt32.le_refl _
  · rw [hcon, hnext]
    intro x hx
    rw [lt_next hlt]
    rcases List.mem_append.1 hx with hx | hx
    · exact UInt32.le_of_lt (h.consumed_lt x hx)
    · obtain ⟨p, -, rfl⟩ := List.mem_map.1 hx
      exact UInt32.le_refl _
  · intro slot c hc
    rw [hcon, List.mem_append]
    rcases (holds_activate h).1 hc with hc | ⟨rfl, rfl⟩
    · exact Or.inl (h.addr_consumed slot c hc)
    · exact Or.inr (List.mem_map_of_mem (f := fun p : Press => (p.addr, a.nextSlot)) List.mem_cons_self)

/-! ### Releasing an address -/

theorem mem_consumed_of_slotOf? {slot : Slot} (h : a.slotOf? addr = some slot) : (addr, slot) ∈ a.consumed := by
  obtain ⟨⟨b, s⟩, hf, rfl⟩ := Option.map_eq_some_iff.1 h
  have hb : b = addr := by simpa using List.find?_some hf
  exact hb ▸ List.mem_of_find?_eq_some hf

/-- The slot of a released address, and what the release does to it. -/
theorem exists_slot_of_release? {change : ActiveChange} (h : a.release? addr now = some change) :
    ∃ slot, (addr, slot) ∈ a.consumed ∧ change.events = ((a.heldAt? slot).map (·.release now)).toList ∧
      change.active.nextSlot = a.nextSlot ∧
      change.active.consumed = a.consumed.filter (fun entry => entry.1 ≠ addr) ∧
      change.active.registered.Sublist (letGo slot a.registered) ∧
      ∀ x ∈ letGo slot a.registered, x.1 ≠ slot → x ∈ change.active.registered := by
  obtain ⟨slot, hs, rfl⟩ := Option.map_eq_some_iff.1 h
  refine ⟨slot, mem_consumed_of_slotOf? hs, rfl, rfl, rfl, ?_⟩
  dsimp only
  split
  · exact ⟨List.Sublist.refl _, fun _ hx _ => hx⟩
  · exact ⟨List.filter_sublist, fun x hx hne => List.mem_filter.2 ⟨hx, by simpa using hne⟩⟩

theorem map_fst_letGo (slot : Slot) (registered : List (Slot × ActiveChord)) :
    (letGo slot registered).map (·.1) = registered.map (·.1) := by
  unfold letGo
  rw [List.map_map]
  refine List.map_congr_left fun x _ => ?_
  by_cases hx : x.1 = slot <;> simp [hx]

private theorem mem_letGo_held {slot slot' : Slot} {c : ActiveChord} {registered : List (Slot × ActiveChord)} :
    (slot', c) ∈ letGo slot registered ∧ c.held = true ↔
      ((slot', c) ∈ registered ∧ c.held = true) ∧ slot' ≠ slot := by
  unfold letGo
  rw [List.mem_map]
  constructor
  · rintro ⟨⟨⟨s, d⟩, hx, heq⟩, hc⟩
    dsimp only at heq
    split at heq
    · cases heq
      exact absurd hc Bool.false_ne_true
    · rename_i hs
      cases heq
      exact ⟨⟨hx, hc⟩, hs⟩
  · rintro ⟨⟨hx, hc⟩, hs⟩
    exact ⟨⟨(slot', c), hx, if_neg hs⟩, hc⟩

theorem mem_heldAt? (h : a.WellKept) {slot : Slot} {c : ActiveChord} : c ∈ a.heldAt? slot ↔ a.Holds slot c := by
  have hfound : ∀ c', c' ∈ a.heldAt? slot → a.Holds slot c' := by
    intro c' hc'
    obtain ⟨x, hf, rfl⟩ := Option.map_eq_some_iff.1 hc'
    have hx : x.1 = slot ∧ x.2.held = true := by simpa using List.find?_some hf
    exact ⟨hx.1 ▸ List.mem_of_find?_eq_some hf, hx.2⟩
  refine ⟨hfound c, fun hc => ?_⟩
  cases hf : a.heldAt? slot with
  | none => simpa [hc.2] using List.find?_eq_none.1 (Option.map_eq_none_iff.1 hf) _ hc.1
  | some c' => rw [(hfound c' hf).unique h hc, Option.mem_def]

theorem isConsumed_release? {change : ActiveChange} (h : a.release? addr now = some change) {b : Address} :
    change.active.isConsumed b = true ↔ a.isConsumed b = true ∧ addr ≠ b := by
  rw [isConsumed_iff, isConsumed_iff, consumed_release? h]
  simp only [List.mem_map, List.mem_filter]
  grind

/-- What a release takes away and what it answers: of the slot of the address only. -/
theorem holds_release? {change : ActiveChange} (h : a.release? addr now = some change) :
    ∃ slot, (addr, slot) ∈ a.consumed ∧
      (∀ slot' c, change.active.Holds slot' c ↔ a.Holds slot' c ∧ slot' ≠ slot) ∧
      change.events = (a.heldAt? slot).toList.map (·.release now) := by
  obtain ⟨slot, hs, he, -, -, hsub, hsup⟩ := exists_slot_of_release? h
  refine ⟨slot, hs, fun slot' c => ?_, ?_⟩
  · unfold Holds
    rw [← mem_letGo_held]
    constructor
    · rintro ⟨hm, hc⟩
      exact ⟨hsub.subset hm, hc⟩
    · intro hm
      exact ⟨hsup _ hm.1 (mem_letGo_held.1 hm).2, hm.2⟩
  · rw [he]
    cases a.heldAt? slot <;> rfl

theorem WellKept.release? (h : a.WellKept) (hn : (a.consumed.map (·.1)).Nodup) {change : ActiveChange}
    (hr : a.release? addr now = some change) : change.active.WellKept := by
  obtain ⟨slot, hs, -, hnext, hcon, hsub, -⟩ := exists_slot_of_release? hr
  obtain ⟨slot', hs', hholds, -⟩ := holds_release? hr
  obtain rfl := slot_unique hn hs hs'
  have hreg : (change.active.registered.map (·.1)).Sublist (a.registered.map (·.1)) := by
    rw [← map_fst_letGo slot a.registered]
    exact hsub.map _
  constructor
  · exact h.nodup_slots.sublist hreg
  · intro x hx
    obtain ⟨y, hy, hyx⟩ := List.mem_map.1 (hreg.subset (List.mem_map_of_mem hx))
    rw [hnext, ← hyx]
    exact h.registered_lt y hy
  · intro x hx
    rw [hcon] at hx
    rw [hnext]
    exact h.consumed_lt x (List.mem_filter.1 hx).1
  · intro slot' c hc
    obtain ⟨hc, hne⟩ := (hholds slot' c).1 hc
    have hm := h.addr_consumed slot' c hc
    rw [hcon, List.mem_filter]
    -- the address of a chord that is still held is not the released one, which belongs to another slot
    refine ⟨hm, ?_⟩
    simpa using fun ha : c.addr = addr => hne (slot_unique hn (ha ▸ hm) hs)

/-! ### Releasing every action key -/

theorem holds_releaseAll (a : ActiveChords) (now : Nat) (slot : Slot) (c : ActiveChord) :
    ¬(a.releaseAll now).active.Holds slot c := by
  rintro ⟨hm, hc⟩
  obtain ⟨x, -, hx⟩ := List.mem_map.1 hm
  cases hx
  exact Bool.false_ne_true hc

theorem WellKept.releaseAll (h : a.WellKept) (now : Nat) : (a.releaseAll now).active.WellKept := by
  have hreg : (a.releaseAll now).active.registered.map (·.1) = a.registered.map (·.1) := by
    unfold ActiveChords.releaseAll
    rw [List.map_map]
    rfl
  constructor
  · rw [hreg]
    exact h.nodup_slots
  · intro x hx
    obtain ⟨y, hy, rfl⟩ := List.mem_map.1 hx
    exact h.registered_lt y hy
  · exact h.consumed_lt
  · intro slot c hc
    exact absurd hc (a.holds_releaseAll now slot c)

theorem mem_held {c : ActiveChord} : c ∈ a.held ↔ ∃ slot, a.Holds slot c := by
  unfold held Holds
  rw [List.mem_filter, List.mem_map]
  constructor
  · rintro ⟨⟨x, hx, rfl⟩, hc⟩
    exact ⟨x.1, hx, hc⟩
  · rintro ⟨slot, hx, hc⟩
    exact ⟨⟨(slot, c), hx, rfl⟩, hc⟩

/-- Chords whose action keys are held stand at different addresses. -/
theorem nodup_addr_held (h : a.WellKept) (hn : (a.consumed.map (·.1)).Nodup) : (a.held.map (·.addr)).Nodup := by
  have heq : a.held.map (·.addr) = (a.registered.filter (·.2.held)).map (·.2.addr) := by
    unfold held
    rw [List.filter_map, List.map_map]
    rfl
  have hslots : ((a.registered.filter (·.2.held)).map (·.1)).Nodup :=
    h.nodup_slots.sublist (List.filter_sublist.map _)
  rw [heq]
  refine List.Nodup.map_on ?_ hslots.of_map
  rintro ⟨s, c⟩ hx ⟨s', c'⟩ hx' (haddr : c.addr = c'.addr)
  have hc : a.Holds s c := List.mem_filter.1 hx
  have hc' : a.Holds s' c' := List.mem_filter.1 hx'
  obtain rfl := slot_unique hn (h.addr_consumed s c hc) (haddr ▸ h.addr_consumed s' c' hc')
  rw [hc.unique h hc']

end ActiveChords

end Chording
