import Chording.Proofs.TakenAddresses

/-!
# Chords are registered in the order of their activation

Slots are given out one after another, so until they start again the slot of a chord is the number of the chords that
were activated before it (`ActiveChords.InOrder`), and a list in the order of the slots is in the order of the
activations.  This is kept by every move (`Ordered.move`), and a reset starts the count anew (`Ordered.run`).
-/

namespace Chording

/-! ### The history of activations -/

/-- The chord that becomes active with the emission. -/
def Emission.activated? : Emission → Option ActiveChord
  | resolved (.chord e first _) _ => some ⟨e.id, e.chord.action, first.addr, true⟩
  | _ => none

/-- The chords that become active, in the order in which they do. -/
def activated (emissions : List Emission) : List ActiveChord :=
  emissions.filterMap Emission.activated?

theorem activated_append (emissions emissions' : List Emission) :
    activated (emissions ++ emissions') = activated emissions ++ activated emissions' :=
  List.filterMap_append

theorem activated_released (events : List KeyEvent) : activated (events.map .released) = [] := by
  rw [activated, List.filterMap_map, List.filterMap_eq_nil_iff]
  exact fun _ _ => rfl

private theorem Emission.isSome_activated? (em : Emission) : em.activated?.isSome = em.isActivation := by
  rcases em with (_ | _) | _ | _ <;> rfl

theorem length_activated (emissions : List Emission) : (activated emissions).length = activations emissions := by
  rw [activated, List.length_filterMap_eq_countP, activations]
  exact congrArg (List.countP · emissions) (funext Emission.isSome_activated?)

namespace ActiveChords

variable {a : ActiveChords} {history : List ActiveChord}

/-- The chords of the history were given the slots from 0 on, and those that are still registered stand in the order
of their slots. -/
structure InOrder (a : ActiveChords) (history : List ActiveChord) : Prop where
  sorted : (a.registered.map (·.1)).Pairwise (· < ·)
  nextSlot_eq : a.nextSlot.toNat = history.length
  getElem?_eq : ∀ slot c, a.Holds slot c → history[slot.toNat]? = some c

private theorem InOrder.empty : (∅ : ActiveChords).InOrder [] where
  sorted := List.Pairwise.nil
  nextSlot_eq := rfl
  getElem?_eq := fun _ _ h => absurd h.1 List.not_mem_nil

private theorem InOrder.activate (h : a.InOrder history) (hw : a.WellKept) (hlt : history.length + 1 < UInt32.size)
    (id : Nat) (action : KeyCode) (first : Press) (others : List Press) (now : Nat) :
    (a.activate id action (first :: others) now).active.InOrder (history ++ [⟨id, action, first.addr, true⟩]) where
  sorted := by
    rw [registered_activate hw, List.map_append, List.pairwise_append]
    refine ⟨h.sorted, List.pairwise_singleton _ _, fun slot hs slot' hs' => ?_⟩
    obtain ⟨x, hx, rfl⟩ := List.mem_map.1 hs
    obtain rfl := List.mem_singleton.1 hs'
    exact hw.registered_lt x hx
  nextSlot_eq := by
    rw [toNat_nextSlot_activate (h.nextSlot_eq ▸ hlt) id action first others now, h.nextSlot_eq,
      List.length_append, List.length_singleton]
  getElem?_eq := by
    intro slot c hc
    rcases (holds_activate hw).1 hc with hc | ⟨rfl, rfl⟩
    · have hslot : slot.toNat < history.length :=
        h.nextSlot_eq ▸ UInt32.lt_iff_toNat_lt.1 (hw.registered_lt _ hc.1)
      rw [List.getElem?_append_left hslot]
      exact h.getElem?_eq slot c hc
    · rw [h.nextSlot_eq]
      exact List.getElem?_concat_length

/-- A registry of the same slots or fewer, in which no action key is held that was not. -/
private theorem InOrder.of_sublist (h : a.InOrder history) {a' : ActiveChords}
    (hreg : (a'.registered.map (·.1)).Sublist (a.registered.map (·.1))) (hnext : a'.nextSlot = a.nextSlot)
    (hholds : ∀ slot c, a'.Holds slot c → a.Holds slot c) : a'.InOrder history where
  sorted := h.sorted.sublist hreg
  nextSlot_eq := hnext ▸ h.nextSlot_eq
  getElem?_eq := fun slot c hc => h.getElem?_eq slot c (hholds slot c hc)

private theorem InOrder.release? (h : a.InOrder history) {addr : Address} {now : Nat} {change : ActiveChange}
    (hr : a.release? addr now = some change) : change.active.InOrder history := by
  obtain ⟨slot, -, -, hnext, -, hsub, -⟩ := exists_slot_of_release? hr
  obtain ⟨_, -, hholds, -⟩ := holds_release? hr
  refine h.of_sublist ?_ hnext fun slot' c hc => ((hholds slot' c).1 hc).1
  rw [← map_fst_letGo slot a.registered]
  exact hsub.map _

private theorem InOrder.releaseAll (h : a.InOrder history) (now : Nat) : (a.releaseAll now).active.InOrder history := by
  refine h.of_sublist ?_ rfl fun slot c hc => absurd hc (a.holds_releaseAll now slot c)
  rw [ActiveChords.releaseAll, List.map_map]
  exact List.Sublist.refl _

/-- Chords in the order of their slots are some of the history from there on, if each is the one of its slot. -/
private theorem sublist_drop_of_slots {chords : List (Slot × ActiveChord)} {n : Nat}
    (hs : (chords.map (·.1)).Pairwise (· < ·)) (hn : ∀ x ∈ chords, n ≤ x.1.toNat)
    (hget : ∀ x ∈ chords, history[x.1.toNat]? = some x.2) : (chords.map (·.2)).Sublist (history.drop n) := by
  induction chords generalizing n with
  | nil => exact List.nil_sublist _
  | cons x chords ih =>
    obtain ⟨hfirst, hs⟩ := List.pairwise_cons.1 hs
    obtain ⟨hx, hget⟩ := List.forall_mem_cons.1 hget
    obtain ⟨hlt, hx⟩ := List.getElem?_eq_some_iff.1 hx
    -- the other slots come after this one
    have hrest := ih (n := x.1.toNat + 1) hs
      (fun y hy => UInt32.lt_iff_toNat_lt.1 (hfirst _ (List.mem_map_of_mem hy))) hget
    have hfrom : (x.2 :: history.drop (x.1.toNat + 1)).Sublist (history.drop n) := by
      rw [← hx, ← List.drop_eq_getElem_cons hlt]
      exact List.drop_sublist_drop_left _ (hn x List.mem_cons_self)
    exact (hrest.cons_cons x.2).trans hfrom

/-- The chords whose action keys are held are some of the history, in its order. -/
theorem InOrder.held_sublist (h : a.InOrder history) : a.held.Sublist history := by
  have hsub : (a.registered.filter (·.2.held)).Sublist a.registered := List.filter_sublist
  have hall := sublist_drop_of_slots (n := 0) (h.sorted.sublist (hsub.map _)) (fun _ _ => Nat.zero_le _)
    fun x hx => h.getElem?_eq x.1 x.2 (List.mem_filter.1 hx)
  rw [held, List.filter_map]
  exact hall

end ActiveChords

namespace Recognizer

variable {r r' : Recognizer} {history : List ActiveChord} {raw : List KeyEvent} {emissions : List Emission}

/-- The state of a recognizer whose slots were given out to the chords of the history. -/
structure Ordered (r : Recognizer) (history : List ActiveChord) : Prop where
  coherent : r.Coherent
  wellKept : r.active.WellKept
  inOrder : r.active.InOrder history

theorem ordered_of_fresh (hf : r.Fresh) : r.Ordered [] where
  coherent := coherent_of_fresh hf
  wellKept := hf.active ▸ .empty
  inOrder := hf.active ▸ .empty

namespace Ordered

theorem move (h : r.Ordered history) (hm : Move r raw emissions r')
    (hlt : history.length + activations emissions < UInt32.size) : r'.Ordered (history ++ activated emissions) := by
  have hcoh := h.coherent.move hm
  cases hm with
  | @resolve s rest now hq hs =>
    cases s with
    | replay p => exact ⟨hcoh, h.wellKept, (List.append_nil history).symm ▸ h.inOrder⟩
    | chord e first others =>
      have hn := h.coherent.nodup_pending
      rw [hq, List.map_append, List.nodup_append] at hn
      have hidle : ∀ p ∈ first :: others, r.active.isConsumed p.addr = false := fun p hp =>
        h.coherent.not_consumed p (hq ▸ List.mem_append_left rest hp)
      have hslot : r.active.nextSlot.toNat + 1 < UInt32.size := h.inOrder.nextSlot_eq ▸ hlt
      exact ⟨hcoh, h.wellKept.activate hn.1 hidle hslot e.id e.chord.action now,
        h.inOrder.activate h.wellKept hlt e.id e.chord.action first others now⟩
  | hold | ignore | passPress | passRelease =>
    exact ⟨hcoh, h.wellKept, (List.append_nil history).symm ▸ h.inOrder⟩
  | free he hi hr =>
    rw [activated_released, List.append_nil]
    exact ⟨hcoh, h.wellKept.release? h.coherent.nodup_consumed hr, h.inOrder.release? hr⟩
  | @letGo now =>
    rw [activated_released, List.append_nil]
    exact ⟨hcoh, h.wellKept.releaseAll now, h.inOrder.releaseAll now⟩

theorem moves (h : r.Ordered history) (hm : Moves r raw emissions r')
    (hlt : history.length + activations emissions < UInt32.size) : r'.Ordered (history ++ activated emissions) := by
  induction hm generalizing history with
  | nil r => exact (List.append_nil history).symm ▸ h
  | @cons r s r' raw raw' emissions emissions' hm _ ih =>
    rw [activations_append, ← Nat.add_assoc] at hlt
    rw [activated_append, ← List.append_assoc]
    refine ih (h.move hm (Nat.lt_of_le_of_lt (Nat.le_add_right _ _) hlt)) ?_
    rwa [List.length_append, length_activated]

/-- After a run the slots belong to the chords that were activated since the last reset. -/
theorem run (h : r.Ordered history) {calls : List Call}
    (hlt : history.length + activations (r.run calls).emissions < UInt32.size) :
    ∃ history', history' <:+ history ++ activated (r.run calls).emissions ∧
      (r.run calls).recognizer.Ordered history' := by
  induction calls generalizing r history with
  | nil => exact ⟨history, (List.append_nil history).symm ▸ List.suffix_rfl, h⟩
  | cons call calls ih =>
    rw [emissions_run_cons, activations_append, ← Nat.add_assoc] at hlt
    rw [emissions_run_cons, activated_append, ← List.append_assoc, recognizer_run_cons]
    by_cases hreset : call = .reset
    · subst hreset
      obtain ⟨history', hsuffix, hordered⟩ := ih (ordered_of_fresh r.fresh_reset)
        (Nat.lt_of_le_of_lt (Nat.add_le_add_right (Nat.zero_le _) _) hlt)
      exact ⟨history', hsuffix.trans (List.suffix_append _ _), hordered⟩
    · refine ih ?_ ?_
      · by_cases hd : r.Drops call
        · rw [step_of_drops hd]
          exact (List.append_nil history).symm ▸ h
        · exact h.moves (moves_step h.coherent hreset hd) (Nat.lt_of_le_of_lt (Nat.le_add_right _ _) hlt)
      · rwa [List.length_append, length_activated]

end Ordered

end Recognizer

end Chording
