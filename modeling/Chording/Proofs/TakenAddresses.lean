import Chording.Proofs.ActionKeys
import Chording.Proofs.AddressStates
import Chording.Proofs.InStep

/-!
# Addresses that chords took

The addresses of an activated chord stay consumed until they are released, in whatever other calls come by
(`isConsumed_run`, `isConsumed_of_step`).  Until the slots start again they wait for the slot of this chord alone,
whose action key is released with the first of them (`ActiveChords.Owed`): the chord owes one release, and none once it
was made (`Owed.step`, `Owed.events_key`).
-/

namespace Chording

/-! ### What a chord owes -/

namespace ActiveChords

variable {a : ActiveChords} {slot : Slot} {held? : Option ActiveChord} {addrs released : List Address}

/-- After its activation, and the release of some addresses: those addresses of the chord that were not released wait
for its slot, and the action key is held there, if it was, until the first of them is released. -/
structure Owed (a : ActiveChords) (slot : Slot) (held? : Option ActiveChord) (addrs released : List Address) : Prop where
  slot_lt : slot < a.nextSlot
  waiting_iff : ∀ addr, (addr, slot) ∈ a.consumed ↔ addr ∈ addrs ∧ addr ∉ released
  heldAt?_eq : a.heldAt? slot = if ∀ addr ∈ addrs, addr ∉ released then held? else none

/-- What a slot holds is told by the action keys that are held there. -/
private theorem heldAt?_congr {a' : ActiveChords} (h : a.WellKept) (h' : a'.WellKept)
    (hholds : ∀ c, a'.Holds slot c ↔ a.Holds slot c) : a'.heldAt? slot = a.heldAt? slot := by
  ext c
  rw [← Option.mem_def, ← Option.mem_def, mem_heldAt? h', mem_heldAt? h, hholds]

private theorem owed_activate (h : a.WellKept) {first : Press} {others : List Press}
    (hn : ((first :: others).map (·.addr)).Nodup) (hd : ∀ p ∈ first :: others, a.isConsumed p.addr = false)
    (hlt : a.nextSlot.toNat + 1 < UInt32.size) (id : Nat) (action : KeyCode) (now : Nat) :
    (a.activate id action (first :: others) now).active.Owed a.nextSlot (some ⟨id, action, first.addr, true⟩)
      ((first :: others).map (·.addr)) [] where
  slot_lt := (lt_next hlt).2 (UInt32.le_refl _)
  waiting_iff := by
    intro addr
    have hnew : (addr, a.nextSlot) ∉ a.consumed := fun hm => absurd (h.consumed_lt _ hm) (UInt32.lt_irrefl _)
    rw [consumed_activate hn hd id action now, List.mem_append, or_iff_right hnew]
    simp
  heldAt?_eq := by
    rw [heldAt?_activate, if_pos fun _ _ => List.not_mem_nil]

/-- The next chord gets another slot. -/
private theorem Owed.activate (ho : a.Owed slot held? addrs released) (h : a.WellKept) {first : Press}
    {others : List Press}
    (hn : ((first :: others).map (·.addr)).Nodup) (hd : ∀ p ∈ first :: others, a.isConsumed p.addr = false)
    (hlt : a.nextSlot.toNat + 1 < UInt32.size) (id : Nat) (action : KeyCode) (now : Nat) :
    (a.activate id action (first :: others) now).active.Owed slot held? addrs released where
  slot_lt := (lt_next hlt).2 (UInt32.le_of_lt ho.slot_lt)
  waiting_iff := by
    intro addr
    have hother : (addr, slot) ∉ (first :: others).map fun p => (p.addr, a.nextSlot) := by
      intro hm
      obtain ⟨p, -, hp⟩ := List.mem_map.1 hm
      exact UInt32.ne_of_lt ho.slot_lt (Prod.mk.inj hp).2.symm
    rw [consumed_activate hn hd id action now, List.mem_append, or_iff_left hother]
    exact ho.waiting_iff addr
  heldAt?_eq := by
    rw [← ho.heldAt?_eq]
    refine heldAt?_congr h (h.activate hn hd hlt id action now) fun c => ?_
    rw [holds_activate h, or_iff_left fun hc => UInt32.ne_of_lt ho.slot_lt hc.1]

/-- The release of an address that is not consumed is none of the chord. -/
private theorem Owed.skip (ho : a.Owed slot held? addrs released) {addr : Address} (hc : a.isConsumed addr = false) :
    a.Owed slot held? addrs (released ++ [addr]) := by
  have hreleased : addr ∈ addrs → addr ∈ released := fun hm => by_contra fun hr =>
    Bool.false_ne_true (hc.symm.trans (isConsumed_iff.2 (List.mem_map_of_mem ((ho.waiting_iff addr).2 ⟨hm, hr⟩))))
  have hiff : ∀ b ∈ addrs, (b ∉ released ↔ b ∉ released ++ [addr]) := by
    intro b hb
    rw [List.mem_append, not_or, List.mem_singleton]
    refine (and_iff_left_of_imp fun hr => ?_).symm
    rintro rfl
    exact hr (hreleased hb)
  refine ⟨ho.slot_lt, fun b => ?_, ?_⟩
  · rw [ho.waiting_iff b]
    exact and_congr_right (hiff b)
  · rw [ho.heldAt?_eq]
    exact if_congr (forall₂_congr hiff) rfl rfl

/-- The release of an address lets the action key go if the address waits for the slot of the chord. -/
private theorem Owed.release? (ho : a.Owed slot held? addrs released) (h : a.WellKept)
    (hn : (a.consumed.map (·.1)).Nodup)
    {addr : Address} {now : Nat} {change : ActiveChange} (hr : a.release? addr now = some change) :
    change.active.Owed slot held? addrs (released ++ [addr]) := by
  obtain ⟨slot', hs', -, hnext, hcon, -, -⟩ := exists_slot_of_release? hr
  obtain ⟨slot'', hs'', hholds, -⟩ := holds_release? hr
  obtain rfl := slot_unique hn hs' hs''
  by_cases hslot : slot' = slot
  · subst hslot
    -- the address is one of the chord, and was not released before
    have hmem := (ho.waiting_iff addr).1 hs'
    refine ⟨hnext ▸ ho.slot_lt, fun b => ?_, ?_⟩
    · rw [hcon, List.mem_filter, ho.waiting_iff b]
      simp [and_assoc]
    · rw [heldAt?_eq_none fun c hc => ((hholds _ c).1 hc).2 rfl,
        if_neg fun hall => hall addr hmem.1 (List.mem_append_right _ (List.mem_singleton_self _))]
  · -- nothing changes for the chord, and the address is idle now
    have hother : (addr, slot) ∉ a.consumed := fun hm => hslot (slot_unique hn hs' hm)
    have hsame : change.active.Owed slot held? addrs released := by
      refine ⟨hnext ▸ ho.slot_lt, fun b => ?_, ?_⟩
      · rw [hcon, List.mem_filter, ← ho.waiting_iff b]
        exact and_iff_left_of_imp fun hb => by simpa using fun heq : b = addr => hother (heq ▸ hb)
      · rw [← ho.heldAt?_eq]
        refine heldAt?_congr h (h.release? hn hr) fun c => ?_
        rw [hholds, and_iff_left (Ne.symm hslot)]
    exact hsame.skip (Bool.eq_false_iff.2 fun hc => ((isConsumed_release? hr).1 hc).2 rfl)

/-! ### Several activations -/

/-- Chords that take idle addresses keep the registry well kept, as long as there are slots for them, and do not
touch what older chords owe. -/
private theorem WellKept.activateAll (h : a.WellKept) {emissions : List Emission} (ht : a.TakesIdle emissions)
    (hlt : a.nextSlot.toNat + activations emissions < UInt32.size) :
    (a.activateAll emissions).WellKept ∧
    (a.activateAll emissions).nextSlot.toNat = a.nextSlot.toNat + activations emissions ∧
    ∀ slot held? addrs released, a.Owed slot held? addrs released →
      (a.activateAll emissions).Owed slot held? addrs released := by
  induction emissions generalizing a with
  | nil => exact ⟨h, rfl, fun _ _ _ _ ho => ho⟩
  | cons em emissions ih =>
    cases em with
    | resolved s now =>
      cases s with
      | replay p => exact ih h ht.2 hlt
      | chord e first others =>
        obtain ⟨⟨-, hn, hd⟩, ht⟩ := ht
        have hone : activations (.resolved (.chord e first others) now :: emissions) = activations emissions + 1 :=
          List.countP_cons_of_pos rfl
        rw [hone] at hlt ⊢
        have hslot : a.nextSlot.toNat + 1 < UInt32.size := by omega
        have hnext := toNat_nextSlot_activate hslot e.id e.chord.action first others now
        obtain ⟨hwell, hnext', howed⟩ :=
          ih (h.activate hn hd hslot e.id e.chord.action now) ht (by rw [hnext]; omega)
        refine ⟨hwell, hnext'.trans (by rw [hnext]; omega), fun slot held? addrs released ho => ?_⟩
        exact howed _ _ _ _ (ho.activate h hn hd hslot e.id e.chord.action now)
    | released e => exact ih h ht hlt
    | passed e => exact ih h ht hlt

/-- A chord that is among those activated owes its release after all of them. -/
private theorem exists_owed_activateAll (h : a.WellKept) {emissions : List Emission} (ht : a.TakesIdle emissions)
    (hlt : a.nextSlot.toNat + activations emissions < UInt32.size) {e : Entry} {first : Press} {others : List Press}
    {now : Nat} (hem : .resolved (.chord e first others) now ∈ emissions) :
    ∃ slot, (a.activateAll emissions).Owed slot (some ⟨e.id, e.chord.action, first.addr, true⟩)
      ((first :: others).map (·.addr)) [] := by
  obtain ⟨before, after, rfl⟩ := List.append_of_mem hem
  have hone : activations (.resolved (.chord e first others) now :: after) = activations after + 1 :=
    List.countP_cons_of_pos rfl
  rw [activations_append, hone] at hlt
  obtain ⟨ht, ⟨-, hn, hd⟩, ht'⟩ := takesIdle_append.1 ht
  obtain ⟨hwell, hnext, -⟩ := h.activateAll ht (by omega)
  have hslot : (a.activateAll before).nextSlot.toNat + 1 < UInt32.size := by omega
  have hnext' := toNat_nextSlot_activate hslot e.id e.chord.action first others now
  have hstart := owed_activate hwell hn hd hslot e.id e.chord.action now
  obtain ⟨-, -, howed⟩ :=
    (hwell.activate hn hd hslot e.id e.chord.action now).activateAll ht' (by rw [hnext', hnext]; omega)
  refine ⟨(a.activateAll before).nextSlot, ?_⟩
  rw [activateAll, List.foldl_append]
  exact howed _ _ _ _ hstart

end ActiveChords

namespace Recognizer

variable {r r' : Recognizer} {raw : List KeyEvent} {emissions : List Emission} {call : Call} {a : Address}

/-! ### Addresses stay consumed -/

private theorem isConsumed_move (h : r.Coherent) (hm : Move r raw emissions r') (hc : r.isConsumed a = true)
    (ha : a ∉ releasedIn raw) : r'.isConsumed a = true := by
  cases hm with
  | @resolve s rest now hq hs =>
    cases s with
    | replay p => exact hc
    | chord e first others => exact (h.isConsumed_activate hq e.id e.chord.action now).2 (Or.inl hc)
  | hold | ignore | passPress | passRelease | letGo => exact hc
  | @free event change he hi hr =>
    have hne : event.addr ≠ a := fun heq => ha (mem_releasedIn.2 ⟨event, List.mem_singleton_self _, he, heq⟩)
    exact (ActiveChords.isConsumed_release? hr).2 ⟨hc, hne⟩

private theorem isConsumed_moves (h : r.Coherent) (hm : Moves r raw emissions r') (hc : r.isConsumed a = true)
    (ha : a ∉ releasedIn raw) : r'.isConsumed a = true := by
  induction hm with
  | nil r => exact hc
  | cons hm _ ih =>
    rw [releasedIn_append, List.mem_append, not_or] at ha
    exact ih (h.move hm) (isConsumed_move h hm hc ha.1) ha.2

/-- The presses of an activated chord are at consumed addresses after that. -/
private theorem isConsumed_of_moves (h : r.Coherent) (hm : Moves r raw emissions r') {e : Entry} {first : Press}
    {others : List Press} {now : Nat} (hem : .resolved (.chord e first others) now ∈ emissions) {p : Press}
    (hp : p ∈ first :: others) (ha : p.addr ∉ releasedIn raw) : r'.isConsumed p.addr = true := by
  induction hm with
  | nil r => exact absurd hem List.not_mem_nil
  | cons hm hms ih =>
    rw [releasedIn_append, List.mem_append, not_or] at ha
    rcases List.mem_append.1 hem with hem | hem
    · refine isConsumed_moves (h.move hm) hms ?_ ha.2
      -- of all moves only a resolution emits one
      cases hm with
      | @resolve s rest now' hq hs =>
        cases List.mem_singleton.1 hem
        exact (h.isConsumed_activate hq e.id e.chord.action now).2 (Or.inr ⟨p, hp, rfl⟩)
      | hold | ignore => exact absurd hem List.not_mem_nil
      | passPress | passRelease => exact absurd (List.mem_singleton.1 hem) (by simp)
      | free | letGo =>
        obtain ⟨x, -, hx⟩ := List.mem_map.1 hem
        cases hx
    · exact ih (h.move hm) hem ha.2

private theorem isConsumed_step (h : r.Coherent) (hr : call ≠ .reset) (hc : r.isConsumed a = true)
    (ha : a ∉ releasedIn call.events) : (r.step call).recognizer.isConsumed a = true := by
  by_cases hd : r.Drops call
  · rwa [step_of_drops hd]
  · exact isConsumed_moves h (moves_step h hr hd) hc ha

theorem isConsumed_run (h : r.Coherent) {calls : List Call} (hr : ∀ call ∈ calls, call ≠ .reset)
    (hc : r.isConsumed a = true) (ha : a ∉ releasedIn (calls.flatMap Call.events)) :
    (r.run calls).recognizer.isConsumed a = true := by
  induction calls generalizing r with
  | nil => exact hc
  | cons call calls ih =>
    obtain ⟨hcall, hr⟩ := List.forall_mem_cons.1 hr
    rw [List.flatMap_cons, releasedIn_append, List.mem_append, not_or] at ha
    exact ih (h.run [call]) hr (isConsumed_step h hcall hc ha.1) ha.2

theorem isConsumed_of_step (h : r.Coherent) (hr : call ≠ .reset) {e : Entry} {first : Press} {others : List Press}
    {now : Nat} (hem : .resolved (.chord e first others) now ∈ (r.step call).emissions) {p : Press}
    (hp : p ∈ first :: others) (ha : p.addr ∉ releasedIn call.events) :
    (r.step call).recognizer.isConsumed p.addr = true := by
  by_cases hd : r.Drops call
  · rw [step_of_drops hd] at hem
    exact absurd hem List.not_mem_nil
  · exact isConsumed_of_moves h (moves_step h hr hd) hem hp ha

/-- A release at a consumed address sends nothing but the release of an action key. -/
theorem key_of_consumed (h : r.Coherent) {event : KeyEvent} (he : event.edge = .up)
    (hc : r.isConsumed event.addr = true) (layers : ActiveLayers) :
    ∃ change, r.active.release? event.addr event.time = some change ∧
      r.key event layers = ⟨r.withActive change.active, change.events.map .released⟩ := by
  obtain ⟨change, hr⟩ : ∃ change, r.active.release? event.addr event.time = some change :=
    Option.ne_none_iff_exists'.1 fun hnone =>
      Bool.false_ne_true ((ActiveChords.release?_eq_none_iff.1 hnone).symm.trans hc)
  have hi : r.isPending event.addr = false :=
    isPending_eq_false.2 fun p hp heq => Bool.false_ne_true ((h.not_consumed p hp).symm.trans (heq ▸ hc))
  exact ⟨change, hr, by rw [key_of_up he, release_of_not_pending hi, releaseIdle_of_release? hr]⟩

/-! ### What a chord owes while other calls come by -/

private theorem activations_releaseIdle (r : Recognizer) (event : KeyEvent) :
    activations (r.releaseIdle event).emissions = 0 := by
  unfold releaseIdle
  split
  · exact activations_released _
  · rfl

private theorem owed_releaseIdle (h : r.Coherent) (hw : r.active.WellKept) {slot : Slot} {held? : Option ActiveChord}
    {addrs released : List Address} (ho : r.active.Owed slot held? addrs released) (event : KeyEvent) :
    (r.releaseIdle event).recognizer.active.Owed slot held? addrs (released ++ [event.addr]) := by
  cases hr : r.active.release? event.addr event.time with
  | none =>
    have hc : r.isConsumed event.addr = false := ActiveChords.release?_eq_none_iff.1 hr
    rw [releaseIdle_of_not_consumed hc]
    exact ho.skip hc
  | some change =>
    rw [releaseIdle_of_release? hr]
    exact ho.release? hw h.nodup_consumed hr

/-- A call that neither forgets nor lets go everything first activates chords.  If it is a release, the address counts
as released after that. -/
private theorem exists_activates_of_quiet (h : r.Coherent) (hr : call ≠ .reset) (hf : ∀ now, call ≠ .flush now) :
    ∃ o rest, Activates r.active o ∧ (r.step call).emissions = o.emissions ++ rest ∧ activations rest = 0 ∧
      (o.recognizer.active.WellKept → ∀ slot held? addrs released,
        o.recognizer.active.Owed slot held? addrs released →
          (r.step call).recognizer.active.Owed slot held? addrs (released ++ releasedIn call.events)) := by
  obtain ⟨o, ho, heq | ⟨event, hev, he, heq⟩ | ⟨now, hflush, -⟩ | ⟨hreset, -⟩⟩ := exists_activates h call
  · refine ⟨o, [], ho, by rw [heq, List.append_nil], rfl, fun _ slot held? addrs released howed => ?_⟩
    have howed' : (r.step call).recognizer.active.Owed slot held? addrs released := heq ▸ howed
    cases call with
    | tick now =>
      rw [show releasedIn (Call.tick now).events = [] from rfl, List.append_nil]
      exact howed'
    | flush now => exact absurd rfl (hf now)
    | reset => exact absurd rfl hr
    | key event layers =>
      cases he : event.edge with
      | down =>
        rw [show releasedIn (Call.key event layers).events = [] by simp [releasedIn, Call.events, he], List.append_nil]
        exact howed'
      | up =>
        rw [show releasedIn (Call.key event layers).events = [event.addr] by simp [releasedIn, Call.events, he]]
        refine howed'.skip ?_
        rw [show r.step (.key event layers) = r.release event from key_of_up he layers]
        exact (idle_release h event).2
  · refine ⟨o, _, ho, by rw [heq]; rfl, o.recognizer.activations_releaseIdle event,
      fun hw slot held? addrs released howed => ?_⟩
    have hcall : releasedIn call.events = [event.addr] := by
      cases call with
      | key event' layers =>
        obtain rfl := List.mem_singleton.1 hev
        simp [releasedIn, Call.events, he]
      | tick | flush | reset => exact absurd hev List.not_mem_nil
    rw [heq, hcall]
    exact owed_releaseIdle ho.coherent hw howed event
  · exact absurd hflush (hf now)
  · exact absurd hreset hr

variable {lossy : Prop} {n : Nat} {sent : List KeyEvent} {slot : Slot} {held? : Option ActiveChord}
  {addrs released : List Address}

private theorem owed_step (h : r.Coherent) (hw : r.active.WellKept) (hr : call ≠ .reset) (hf : ∀ now, call ≠ .flush now)
    (hlt : r.active.nextSlot.toNat + activations (r.step call).emissions < UInt32.size)
    (ho : r.active.Owed slot held? addrs released) :
    (r.step call).recognizer.active.Owed slot held? addrs (released ++ releasedIn call.events) := by
  obtain ⟨o, rest, hact, hem, hzero, howed⟩ := exists_activates_of_quiet h hr hf
  rw [hem, activations_append, hzero, Nat.add_zero] at hlt
  obtain ⟨hwell, -, hkept⟩ := hw.activateAll hact.takesIdle hlt
  rw [← hact.active_eq] at hwell hkept
  exact howed hwell _ _ _ _ (hkept _ _ _ _ ho)

/-- A chord that is activated in a call owes the release of its action key after the call, unless one of its addresses
was released in it. -/
theorem exists_owed_step (h : r.Coherent) (hw : r.active.WellKept) (hr : call ≠ .reset)
    (hf : ∀ now, call ≠ .flush now)
    (hlt : r.active.nextSlot.toNat + activations (r.step call).emissions < UInt32.size) {e : Entry} {first : Press}
    {others : List Press} {now : Nat} (hmem : .resolved (.chord e first others) now ∈ (r.step call).emissions) :
    ∃ slot, (r.step call).recognizer.active.Owed slot (some ⟨e.id, e.chord.action, first.addr, true⟩)
      ((first :: others).map (·.addr)) (releasedIn call.events) := by
  obtain ⟨o, rest, hact, hem, hzero, howed⟩ := exists_activates_of_quiet h hr hf
  rw [hem, activations_append, hzero, Nat.add_zero] at hlt
  rw [hem, List.mem_append] at hmem
  have hmem' := hmem.resolve_right fun hrest => List.countP_eq_zero.1 hzero _ hrest rfl
  obtain ⟨hwell, -, -⟩ := hw.activateAll hact.takesIdle hlt
  obtain ⟨slot, hstart⟩ := ActiveChords.exists_owed_activateAll hw hact.takesIdle hlt hmem'
  rw [← hact.active_eq] at hwell hstart
  exact ⟨slot, howed hwell _ _ _ _ hstart⟩

theorem owed_run (h : InStep True n raw sent r) {calls : List Call}
    (hquiet : ∀ call ∈ calls, call ≠ .reset ∧ ∀ now, call ≠ .flush now)
    (hclean : Clean (raw ++ calls.flatMap Call.events)) (hlt : n + activations (r.run calls).emissions < UInt32.size)
    (ho : r.active.Owed slot held? addrs released) :
    (r.run calls).recognizer.active.Owed slot held? addrs (released ++ releasedIn (calls.flatMap Call.events)) := by
  induction calls generalizing n raw sent r released with
  | nil => exact (List.append_nil released).symm ▸ ho
  | cons call calls ih =>
    obtain ⟨⟨hr, hf⟩, hquiet⟩ := List.forall_mem_cons.1 hquiet
    rw [emissions_run_cons, activations_append, ← Nat.add_assoc] at hlt
    rw [List.flatMap_cons, ← List.append_assoc] at hclean
    rw [List.flatMap_cons, releasedIn_append, ← List.append_assoc]
    have hle := h.nextSlot_le
    have hstep := h.step hr (fun _ => trivial) hclean.of_append (by omega)
    exact ih hstep hquiet hclean hlt (owed_step h.coherent h.wellKept hr hf (by omega) ho)

/-- What a release at an address sends for which the chord still waits: the release of the action key if it is the
first one, and nothing after that. -/
theorem events_key_of_owed (h : r.Coherent) (ho : r.active.Owed slot held? addrs released) {event : KeyEvent}
    (he : event.edge = .up) (hmem : event.addr ∈ addrs) (hnew : event.addr ∉ released) (layers : ActiveLayers) :
    (r.key event layers).events =
      if ∀ addr ∈ addrs, addr ∉ released then (held?.map (·.release event.time)).toList else [] := by
  have hwaits := (ho.waiting_iff event.addr).2 ⟨hmem, hnew⟩
  have hc : r.isConsumed event.addr = true := ActiveChords.isConsumed_iff.2 (List.mem_map_of_mem hwaits)
  obtain ⟨change, hr, hkey⟩ := key_of_consumed h he hc layers
  obtain ⟨change', hr', hev, -, -⟩ := ActiveChords.exists_release? h.nodup_consumed hwaits event.time
  obtain rfl : change = change' := Option.some.inj (hr.symm.trans hr')
  rw [hkey, Outcome.events, map_event_released, hev, ho.heldAt?_eq]
  split <;> rfl

end Recognizer

end Chording
