import Chording.Proofs.Moves
import Chording.Proofs.Streams

/-!
# What was sent keeps in step with what came

`InStep` ties together, address by address, the key that is down in the raw stream, what the recognizer holds of the
address, and the key that is down downstream.  A pending address is down in the raw stream only; a consumed one is
down in the raw stream, and downstream if it stands for a held chord; an idle one is the same in both.  Every move
keeps this (`InStep.move`), so that all calls do (`InStep.step`), as long as the slots have not started again.

Of a press that was dropped only the release comes by, and no key is left of what was forgotten.  A stream in which
this may happen is `lossy`: at an idle address the key may be up downstream although it is down in the raw stream.
-/

namespace Chording

/-- The event presses the action key of a chord. -/
def Emission.isActivation : Emission → Bool
  | resolved (.chord ..) _ => true
  | _ => false

/-- How many chords were activated. -/
def activations (emissions : List Emission) : Nat :=
  emissions.countP Emission.isActivation

@[simp]
theorem activations_nil : activations [] = 0 := rfl

@[simp]
theorem activations_append (emissions emissions' : List Emission) :
    activations (emissions ++ emissions') = activations emissions + activations emissions' :=
  List.countP_append

theorem activations_released (events : List KeyEvent) : activations (events.map .released) = 0 := by
  unfold activations
  rw [List.countP_map, List.countP_eq_zero]
  intro e _
  exact Bool.false_ne_true

theorem activations_replays (presses : List Press) (now : Nat) :
    activations ((presses.map Resolution.replay).map (Emission.resolved · now)) = 0 := by
  rw [activations, List.countP_eq_zero]
  intro em hem
  simp only [List.mem_map] at hem
  obtain ⟨_, ⟨p, -, rfl⟩, rfl⟩ := hem
  exact Bool.false_ne_true

theorem exists_chord_of_activations {emissions : List Emission} (h : 0 < activations emissions) :
    ∃ e first others now, .resolved (.chord e first others) now ∈ emissions := by
  obtain ⟨em, hem, hact⟩ := List.countP_pos_iff.1 h
  cases em with
  | released | passed => exact absurd hact Bool.false_ne_true
  | resolved s now =>
    cases s with
    | replay => exact absurd hact Bool.false_ne_true
    | chord e first others => exact ⟨e, first, others, now, hem⟩

/-- The presses that an emission takes from the queue. -/
def Emission.taken : Emission → List Press
  | resolved s _ => s.presses
  | released _ | passed _ => []

/-- Presses and releases alternate, and releases are of the keys pressed if those of `raw` are. -/
def Sound (raw sent : List KeyEvent) : Prop :=
  Clean sent ∧ (Keyed raw → Keyed sent)

private theorem Sound.raw_append {raw sent : List KeyEvent} (h : Sound raw sent) (raw' : List KeyEvent) :
    Sound (raw ++ raw') sent :=
  ⟨h.1, fun hk => h.2 hk.of_append⟩

/-- A key that is up may be pressed. -/
private theorem Sound.press {raw sent : List KeyEvent} {e : KeyEvent} (h : Sound raw sent) (he : e.edge = .down)
    (hup : heldAt sent e.addr = none) : Sound raw (sent ++ [e]) := by
  have hc : Clean (sent ++ [e]) := clean_concat.2 ⟨h.1, by simp [he, hup]⟩
  exact ⟨hc, fun hk => (keyed_concat hc).2 ⟨h.2 hk, by simp [he]⟩⟩

namespace Recognizer

/-- The raw stream, the state of a recognizer and the stream downstream fit together; at most `n` chords were
activated since the slots began. -/
structure InStep (lossy : Prop) (n : Nat) (raw sent : List KeyEvent) (r : Recognizer) : Prop where
  coherent : r.Coherent
  wellKept : r.active.WellKept
  nextSlot_le : r.active.nextSlot.toNat ≤ n
  raw_pending : ∀ p ∈ r.pending.entries, heldAt raw p.addr = some p.key
  sent_pending : ∀ p ∈ r.pending.entries, heldAt sent p.addr = none
  raw_consumed : ∀ a, r.isConsumed a = true → heldAt raw a ≠ none
  sent_held : ∀ slot c, r.active.Holds slot c → heldAt sent c.addr = some c.action
  sent_consumed : ∀ a, r.isConsumed a = true → heldAt sent a ≠ none → ∃ slot c, r.active.Holds slot c ∧ c.addr = a
  sent_idle : ∀ a, r.isPending a = false → r.isConsumed a = false →
    heldAt sent a = heldAt raw a ∨ lossy ∧ heldAt sent a = none
  sound : lossy ∨ Sound raw sent

namespace InStep

variable {lossy : Prop} {n : Nat} {raw sent : List KeyEvent} {r : Recognizer} {event : KeyEvent} {now : Nat}

/-- The address of a held chord is consumed. -/
private theorem isConsumed_of_holds (h : InStep lossy n raw sent r) {slot : Slot} {c : ActiveChord}
    (hc : r.active.Holds slot c) : r.isConsumed c.addr = true :=
  ActiveChords.isConsumed_iff.2 (List.mem_map_of_mem (h.wellKept.addr_consumed slot c hc))

/-! ### What an event leaves alone

An event at an idle address says nothing of the addresses where presses are in flight.
-/

private theorem raw_pending_concat (h : InStep lossy n raw sent r) (hi : r.isPending event.addr = false) :
    ∀ p ∈ r.pending.entries, heldAt (raw ++ [event]) p.addr = some p.key := by
  intro p hp
  rw [heldAt_concat_of_ne (isPending_eq_false.1 hi p hp).symm]
  exact h.raw_pending p hp

private theorem raw_consumed_concat (h : InStep lossy n raw sent r) (hc : r.isConsumed event.addr = false) :
    ∀ a, r.isConsumed a = true → heldAt (raw ++ [event]) a ≠ none := by
  intro a ha
  rw [heldAt_concat_of_ne (addr_ne_of_isConsumed hc ha)]
  exact h.raw_consumed a ha

private theorem sent_held_concat (h : InStep lossy n raw sent r) (hc : r.isConsumed event.addr = false) :
    ∀ slot c, r.active.Holds slot c → heldAt (sent ++ [event]) c.addr = some c.action := by
  intro slot c hs
  rw [heldAt_concat_of_ne (addr_ne_of_isConsumed hc (h.isConsumed_of_holds hs))]
  exact h.sent_held slot c hs

private theorem sent_consumed_concat (h : InStep lossy n raw sent r) (hc : r.isConsumed event.addr = false) :
    ∀ a, r.isConsumed a = true → heldAt (sent ++ [event]) a ≠ none → ∃ slot c, r.active.Holds slot c ∧ c.addr = a := by
  intro a ha hdown
  rw [heldAt_concat_of_ne (addr_ne_of_isConsumed hc ha)] at hdown
  exact h.sent_consumed a ha hdown

/-- An idle key that is up in the raw stream is up downstream. -/
private theorem sent_up_of_idle (h : InStep lossy n raw sent r) {a : Address} (hi : r.isPending a = false)
    (hc : r.isConsumed a = false) (hup : heldAt raw a = none) : heldAt sent a = none := by
  rcases h.sent_idle a hi hc with heq | ⟨-, hnone⟩
  · exact heq.trans hup
  · exact hnone

/-! ### Resolving presses -/

/-- The oldest press goes on as it came. -/
private theorem replay (h : InStep lossy n raw sent r) {p : Press} {rest : List Press}
    (hq : r.pending.entries = p :: rest) : InStep lossy n raw (sent ++ [p.event]) (r.withQueue rest) := by
  have hp : p ∈ r.pending.entries := hq ▸ List.mem_cons_self
  have hidle := h.coherent.not_consumed p hp
  have hsub : ∀ q ∈ rest, q ∈ r.pending.entries := fun q hm => hq ▸ List.mem_cons_of_mem p hm
  have hn := h.coherent.nodup_pending
  rw [hq, List.map_cons, List.nodup_cons] at hn
  refine
    { coherent := h.coherent.sublist (hq ▸ List.sublist_cons_self p rest)
      wellKept := h.wellKept
      nextSlot_le := h.nextSlot_le
      raw_pending := fun q hm => h.raw_pending q (hsub q hm)
      sent_pending := ?_
      raw_consumed := h.raw_consumed
      sent_held := h.sent_held_concat hidle
      sent_consumed := h.sent_consumed_concat hidle
      sent_idle := ?_
      sound := h.sound.imp_right fun hs => hs.press rfl (h.sent_pending p hp) }
  · intro q hm
    have hne : p.addr ≠ q.addr := fun heq => hn.1 (heq ▸ List.mem_map_of_mem hm)
    rw [heldAt_concat_of_ne (e := p.event) hne]
    exact h.sent_pending q (hsub q hm)
  · intro a hi hc
    by_cases hpa : p.addr = a
    · -- the address of the press is idle now, and its key is down in both streams
      subst hpa
      rw [h.raw_pending p hp]
      exact Or.inl (heldAt_concat_self sent p.event)
    · rw [heldAt_concat_of_ne hpa]
      refine h.sent_idle a (isPending_eq_false.2 fun q hm => ?_) hc
      rw [hq] at hm
      rcases List.mem_cons.1 hm with rfl | hm
      · exact hpa
      · exact isPending_eq_false.1 hi q hm

/-- Presses at the front become a chord. -/
private theorem activate (h : InStep lossy n raw sent r) {first : Press} {others rest : List Press}
    (hq : r.pending.entries = first :: others ++ rest) (hlt : n + 1 < UInt32.size) (id : Nat) (action : KeyCode) :
    InStep lossy (n + 1) raw (sent ++ [⟨first.addr, action, .down, now⟩])
      ((r.withQueue rest).withActive (r.active.activate id action (first :: others) now).active) := by
  have hfront : ∀ p ∈ first :: others, p ∈ r.pending.entries := fun p hm => hq ▸ List.mem_append_left rest hm
  have hsub : ∀ q ∈ rest, q ∈ r.pending.entries := fun q hm => hq ▸ List.mem_append_right _ hm
  have hfirst := hfront first List.mem_cons_self
  have hn := h.coherent.nodup_pending
  rw [hq, List.map_append, List.nodup_append] at hn
  have hslot : r.active.nextSlot.toNat + 1 < UInt32.size := by
    have hle := h.nextSlot_le
    omega
  have hconsumed : ∀ a, (r.active.activate id action (first :: others) now).active.isConsumed a = true ↔
      r.isConsumed a = true ∨ ∃ p ∈ first :: others, p.addr = a := fun _ =>
    h.coherent.isConsumed_activate hq id action now
  have hholds : ∀ slot c, (r.active.activate id action (first :: others) now).active.Holds slot c ↔
      r.active.Holds slot c ∨ slot = r.active.nextSlot ∧ c = ⟨id, action, first.addr, true⟩ := fun _ _ =>
    ActiveChords.holds_activate h.wellKept
  refine
    { coherent := h.coherent.activate hq id action now
      wellKept := h.wellKept.activate hn.1 (fun p hm => h.coherent.not_consumed p (hfront p hm)) hslot id action now
      nextSlot_le := ?_
      raw_pending := fun q hm => h.raw_pending q (hsub q hm)
      sent_pending := ?_
      raw_consumed := ?_
      sent_held := ?_
      sent_consumed := ?_
      sent_idle := ?_
      sound := h.sound.imp_right fun hs => hs.press rfl (h.sent_pending first hfirst) }
  · show (r.active.nextSlot + 1).toNat ≤ n + 1
    have hle := h.nextSlot_le
    rw [UInt32.toNat_add]
    exact Nat.le_trans (Nat.mod_le _ _) (Nat.add_le_add_right hle 1)
  · intro q hm
    have hne : first.addr ≠ q.addr :=
      hn.2.2 _ (List.mem_map_of_mem List.mem_cons_self) _ (List.mem_map_of_mem hm)
    rw [heldAt_concat_of_ne hne]
    exact h.sent_pending q (hsub q hm)
  · intro a ha
    rcases (hconsumed a).1 ha with ha | ⟨p, hp, rfl⟩
    · exact h.raw_consumed a ha
    · rw [h.raw_pending p (hfront p hp)]
      exact Option.some_ne_none _
  · intro slot c hc
    rcases (hholds slot c).1 hc with hc | ⟨-, rfl⟩
    · exact h.sent_held_concat (h.coherent.not_consumed first hfirst) slot c hc
    · exact heldAt_concat_self sent _
  · intro a ha hne
    by_cases hfa : first.addr = a
    · -- of the addresses that were taken only the first is down, and it stands for the chord
      exact ⟨_, _, (hholds _ _).2 (Or.inr ⟨rfl, rfl⟩), hfa⟩
    · rw [heldAt_concat_of_ne hfa] at hne
      rcases (hconsumed a).1 ha with ha | ⟨p, hp, rfl⟩
      · obtain ⟨slot, c, hc, hca⟩ := h.sent_consumed a ha hne
        exact ⟨slot, c, (hholds slot c).2 (Or.inl hc), hca⟩
      · exact absurd (h.sent_pending p (hfront p hp)) hne
  · intro a hi hc
    have hc' : ¬(r.isConsumed a = true ∨ ∃ p ∈ first :: others, p.addr = a) := fun hor =>
      Bool.false_ne_true (hc.symm.trans ((hconsumed a).2 hor))
    obtain ⟨hc, hf⟩ := not_or.1 hc'
    rw [heldAt_concat_of_ne fun hfa => hf ⟨first, List.mem_cons_self, hfa⟩]
    refine h.sent_idle a (isPending_eq_false.2 fun q hm => ?_) (Bool.eq_false_iff.2 hc)
    rw [hq] at hm
    rcases List.mem_append.1 hm with hm | hm
    · exact fun hqa => hf ⟨q, hm, hqa⟩
    · exact isPending_eq_false.1 hi q hm

/-! ### Events at idle addresses -/

/-- The event of a call goes on as it came. -/
theorem pass (h : InStep lossy n raw sent r) (hclean : Clean (raw ++ [event]))
    (hi : r.isPending event.addr = false) (hc : r.isConsumed event.addr = false) :
    InStep lossy n (raw ++ [event]) (sent ++ [event]) r := by
  refine
    { coherent := h.coherent
      wellKept := h.wellKept
      nextSlot_le := h.nextSlot_le
      raw_pending := h.raw_pending_concat hi
      sent_pending := ?_
      raw_consumed := h.raw_consumed_concat hc
      sent_held := h.sent_held_concat hc
      sent_consumed := h.sent_consumed_concat hc
      sent_idle := ?_
      sound := ?_ }
  · intro p hm
    rw [heldAt_concat_of_ne (isPending_eq_false.1 hi p hm).symm]
    exact h.sent_pending p hm
  · intro a hia hca
    rw [heldAt_concat, heldAt_concat]
    split
    · exact Or.inl rfl
    · exact h.sent_idle a hia hca
  · refine or_iff_not_imp_left.2 fun hl => ?_
    -- nothing was lost, so that the address is down downstream just if it is in the raw stream
    have hs := h.sound.resolve_left hl
    have heq : heldAt sent event.addr = heldAt raw event.addr :=
      (h.sent_idle _ hi hc).resolve_right fun hlost => hl hlost.1
    have hcs : Clean (sent ++ [event]) := clean_concat.2 ⟨hs.1, heq ▸ (clean_concat.1 hclean).2⟩
    refine ⟨hcs, fun hk => (keyed_concat hcs).2 ⟨hs.2 hk.of_append, ?_⟩⟩
    exact heq ▸ ((keyed_concat hclean).1 hk).2

/-- A press is held back. -/
private theorem hold (h : InStep lossy n raw sent r) (hclean : Clean (raw ++ [event])) (he : event.edge = .down)
    (hi : r.isPending event.addr = false) (hc : r.isConsumed event.addr = false)
    (hlt : r.pending.size < r.pending.capacity) :
    InStep lossy n (raw ++ [event]) sent (r.withQueue (r.pending.entries ++ [.ofEvent event])) := by
  have hup : heldAt raw event.addr = none := (clean_concat.1 hclean).2.1 he
  refine
    { coherent := h.coherent.hold hi hc hlt
      wellKept := h.wellKept
      nextSlot_le := h.nextSlot_le
      raw_pending := ?_
      sent_pending := ?_
      raw_consumed := h.raw_consumed_concat hc
      sent_held := h.sent_held
      sent_consumed := h.sent_consumed
      sent_idle := ?_
      sound := h.sound.imp_right fun hs => hs.raw_append [event] }
  · intro p hm
    rcases List.mem_append.1 hm with hm | hm
    · exact h.raw_pending_concat hi p hm
    · obtain rfl := List.mem_singleton.1 hm
      refine (heldAt_concat_self raw event).trans ?_
      rw [KeyEvent.held?, he]
      rfl
  · intro p hm
    rcases List.mem_append.1 hm with hm | hm
    · exact h.sent_pending p hm
    · obtain rfl := List.mem_singleton.1 hm
      exact h.sent_up_of_idle hi hc hup
  · intro a hia hca
    have hia := isPending_eq_false.1 hia
    have hea : event.addr ≠ a := hia (.ofEvent event) (List.mem_append_right _ List.mem_cons_self)
    rw [heldAt_concat_of_ne hea]
    exact h.sent_idle a (isPending_eq_false.2 fun p hm => hia p (List.mem_append_left _ hm)) hca

/-- A press is lost. -/
private theorem drop (h : InStep lossy n raw sent r) (hl : lossy) (hclean : Clean (raw ++ [event]))
    (he : event.edge = .down) (hi : r.isPending event.addr = false) (hc : r.isConsumed event.addr = false) :
    InStep lossy n (raw ++ [event]) sent r := by
  have hup : heldAt raw event.addr = none := (clean_concat.1 hclean).2.1 he
  refine
    { h with
      raw_pending := h.raw_pending_concat hi
      raw_consumed := h.raw_consumed_concat hc
      sent_idle := ?_
      sound := Or.inl hl }
  intro a hia hca
  by_cases hea : event.addr = a
  · subst hea
    exact Or.inr ⟨hl, h.sent_up_of_idle hi hc hup⟩
  · rw [heldAt_concat_of_ne hea]
    exact h.sent_idle a hia hca

/-- In a clean stream no press is ignored, because an address with a press in flight is down. -/
private theorem idle_of_press (h : InStep lossy n raw sent r) (hclean : Clean (raw ++ [event]))
    (he : event.edge = .down) : r.isPending event.addr = false ∧ r.isConsumed event.addr = false := by
  have hup : heldAt raw event.addr = none := (clean_concat.1 hclean).2.1 he
  constructor
  · refine isPending_eq_false.2 fun p hm heq => ?_
    have hdown := h.raw_pending p hm
    rw [heq, hup] at hdown
    cases hdown
  · exact Bool.eq_false_iff.2 fun hc => h.raw_consumed _ hc hup

/-! ### Releasing action keys -/

private theorem heldAt_append_map_release (cs : List ActiveChord) (now : Nat) (a : Address) :
    heldAt (sent ++ cs.map (·.release now)) a = if a ∈ cs.map (·.addr) then none else heldAt sent a := by
  rw [heldAt_append_releases fun e he => ActiveChords.edge_of_mem_releases he, List.map_map]
  rfl

/-- Held action keys may be released, each once. -/
private theorem sound_releases (h : InStep lossy n raw sent r) {cs : List ActiveChord}
    (hcs : ∀ c ∈ cs, ∃ slot, r.active.Holds slot c) (hn : (cs.map (·.addr)).Nodup) (now : Nat) :
    lossy ∨ Sound raw (sent ++ cs.map (·.release now)) := by
  refine h.sound.imp_right fun hs => ?_
  have hheld : ∀ e ∈ cs.map (·.release now), heldAt sent e.addr = some e.key := by
    intro e he
    obtain ⟨c, hc, rfl⟩ := List.mem_map.1 he
    obtain ⟨slot, hslot⟩ := hcs c hc
    exact h.sent_held slot c hslot
  have haddr : ((cs.map (·.release now)).map (·.addr)).Nodup := by
    rw [List.map_map]
    exact hn
  obtain ⟨hclean, hkeyed⟩ :=
    clean_append_releases hs.1 (fun e he => ActiveChords.edge_of_mem_releases he) hheld haddr
  exact ⟨hclean, fun hk => hkeyed (hs.2 hk)⟩

/-- Only at consumed addresses is an action key released. -/
private theorem heldAt_releases_of_idle (h : InStep lossy n raw sent r) {cs : List ActiveChord}
    (hcs : ∀ c ∈ cs, ∃ slot, r.active.Holds slot c) {a : Address} (ha : r.isConsumed a = false) (now : Nat) :
    heldAt (sent ++ cs.map (·.release now)) a = heldAt sent a := by
  rw [heldAt_append_map_release, if_neg]
  intro hm
  obtain ⟨c, hc, rfl⟩ := List.mem_map.1 hm
  obtain ⟨slot, hslot⟩ := hcs c hc
  exact addr_ne_of_isConsumed ha (h.isConsumed_of_holds hslot) rfl

/-- A consumed address becomes free, and the action key of its chord is released if it is held. -/
private theorem free (h : InStep lossy n raw sent r) {change : ActiveChange} (he : event.edge = .up)
    (hr : r.active.release? event.addr event.time = some change) :
    InStep lossy n (raw ++ [event]) (sent ++ change.events) (r.withActive change.active) := by
  obtain ⟨slot, hslot, hholds, hev⟩ := ActiveChords.holds_release? hr
  obtain ⟨-, -, -, hnext, -⟩ := ActiveChords.exists_slot_of_release? hr
  have hcs : ∀ c ∈ (r.active.heldAt? slot).toList, ∃ slot, r.active.Holds slot c := fun c hc =>
    ⟨slot, (ActiveChords.mem_heldAt? h.wellKept).1 (Option.mem_toList.1 hc)⟩
  have hfreed : r.isConsumed event.addr = true :=
    ActiveChords.isConsumed_iff.2 (List.mem_map_of_mem hslot)
  have hconsumed : ∀ a, change.active.isConsumed a = true ↔ r.isConsumed a = true ∧ event.addr ≠ a := fun _ =>
    ActiveChords.isConsumed_release? hr
  have hn : ((r.active.heldAt? slot).toList.map (·.addr)).Nodup := by
    cases r.active.heldAt? slot <;> simp
  rw [hev]
  refine
    { coherent := h.coherent.free hr
      wellKept := h.wellKept.release? h.coherent.nodup_consumed hr
      nextSlot_le := hnext ▸ h.nextSlot_le
      raw_pending := ?_
      sent_pending := ?_
      raw_consumed := ?_
      sent_held := ?_
      sent_consumed := ?_
      sent_idle := ?_
      sound := (h.sound_releases hcs hn event.time).imp_right fun hs => hs.raw_append [event] }
  · intro p hp
    rw [heldAt_concat_of_ne (addr_ne_of_isConsumed (h.coherent.not_consumed p hp) hfreed).symm]
    exact h.raw_pending p hp
  · intro p hp
    rw [h.heldAt_releases_of_idle hcs (h.coherent.not_consumed p hp)]
    exact h.sent_pending p hp
  · intro a ha
    obtain ⟨ha, hne⟩ := (hconsumed a).1 ha
    rw [heldAt_concat_of_ne hne]
    exact h.raw_consumed a ha
  · intro slot' c hc
    obtain ⟨hc, hne⟩ := (hholds slot' c).1 hc
    rw [heldAt_append_map_release, if_neg]
    · exact h.sent_held slot' c hc
    · -- two held chords do not share an address, because each address is taken for one slot
      intro hm
      obtain ⟨d, hd, hdc⟩ := List.mem_map.1 hm
      have hd := (ActiveChords.mem_heldAt? h.wellKept).1 (Option.mem_toList.1 hd)
      have hm := h.wellKept.addr_consumed slot d hd
      rw [hdc] at hm
      exact hne (ActiveChords.slot_unique h.coherent.nodup_consumed (h.wellKept.addr_consumed slot' c hc) hm)
  · intro a ha hdown
    rw [heldAt_append_map_release] at hdown
    split at hdown
    · exact absurd rfl hdown
    · rename_i hnot
      obtain ⟨slot', c, hc, rfl⟩ := h.sent_consumed a ((hconsumed a).1 ha).1 hdown
      refine ⟨slot', c, (hholds slot' c).2 ⟨hc, ?_⟩, rfl⟩
      rintro rfl
      exact hnot (List.mem_map_of_mem (Option.mem_toList.2 ((ActiveChords.mem_heldAt? h.wellKept).2 hc)))
  · intro a hi hc
    by_cases hea : event.addr = a
    · subst hea
      -- if the released address stood for a chord, then for that of its slot
      have hup : heldAt (sent ++ (r.active.heldAt? slot).toList.map (·.release event.time)) event.addr = none := by
        rw [heldAt_append_map_release]
        split
        · rfl
        · rename_i hnot
          by_contra hdown
          obtain ⟨slot', c, hc', hca⟩ := h.sent_consumed _ hfreed hdown
          have hm := hca ▸ h.wellKept.addr_consumed slot' c hc'
          obtain rfl := ActiveChords.slot_unique h.coherent.nodup_consumed hm hslot
          refine hnot (List.mem_map.2 ⟨c, ?_, hca⟩)
          exact Option.mem_toList.2 ((ActiveChords.mem_heldAt? h.wellKept).2 hc')
      refine Or.inl (hup.trans ?_)
      rw [heldAt_concat_self, KeyEvent.held?, he]
    · have hc' : r.isConsumed a = false :=
        Bool.eq_false_iff.2 fun ha => Bool.false_ne_true (hc.symm.trans ((hconsumed a).2 ⟨ha, hea⟩))
      rw [h.heldAt_releases_of_idle hcs hc', heldAt_concat_of_ne hea]
      exact h.sent_idle a hi hc'

/-- Every held action key is released. -/
private theorem letGo (h : InStep lossy n raw sent r) (now : Nat) :
    InStep lossy n raw (sent ++ (r.active.releaseAll now).events) (r.withActive (r.active.releaseAll now).active) := by
  have hcs : ∀ c ∈ r.active.held, ∃ slot, r.active.Holds slot c := fun c => ActiveChords.mem_held.1
  have hn := ActiveChords.nodup_addr_held h.wellKept h.coherent.nodup_consumed
  refine
    { coherent := h.coherent.move .letGo
      wellKept := h.wellKept.releaseAll now
      nextSlot_le := h.nextSlot_le
      raw_pending := h.raw_pending
      sent_pending := ?_
      raw_consumed := h.raw_consumed
      sent_held := fun slot c hc => absurd hc (r.active.holds_releaseAll now slot c)
      sent_consumed := ?_
      sent_idle := ?_
      sound := h.sound_releases hcs hn now }
  · intro p hp
    exact (h.heldAt_releases_of_idle hcs (h.coherent.not_consumed p hp) now).trans (h.sent_pending p hp)
  · intro a ha hdown
    refine absurd ?_ hdown
    refine (heldAt_append_map_release r.active.held now a).trans ?_
    split
    · rfl
    · rename_i hnot
      by_contra hdown
      obtain ⟨slot, c, hc, rfl⟩ := h.sent_consumed a ha hdown
      exact hnot (List.mem_map_of_mem (ActiveChords.mem_held.2 ⟨slot, hc⟩))
  · intro a hi hc
    rw [show heldAt (sent ++ (r.active.releaseAll now).events) a = heldAt sent a from
      h.heldAt_releases_of_idle hcs hc now]
    exact h.sent_idle a hi hc

/-! ### Moves and calls -/

theorem move (h : InStep lossy n raw sent r) {raw' : List KeyEvent} {emissions : List Emission} {r' : Recognizer}
    (hm : Move r raw' emissions r') (hclean : Clean (raw ++ raw')) (hlt : n + activations emissions < UInt32.size) :
    InStep lossy (n + activations emissions) (raw ++ raw') (sent ++ emissions.map (·.event)) r' := by
  cases hm with
  | @resolve s rest now hq hs =>
    rw [List.append_nil]
    cases s with
    | replay p => exact h.replay hq
    | chord e first others => exact h.activate hq hlt e.id e.chord.action
  | hold he hp hi hc hroom =>
    rw [List.map_nil, List.append_nil]
    exact h.hold hclean he hi hc hroom
  | ignore he hb =>
    -- a clean stream has no such press
    obtain ⟨hi, hc⟩ := h.idle_of_press hclean he
    simp [hi, hc] at hb
  | passPress he hq hf =>
    obtain ⟨hi, hc⟩ := h.idle_of_press hclean he
    exact h.pass hclean hi hc
  | passRelease he hi hc => exact h.pass hclean hi hc
  | free he hi hr =>
    rw [activations_released, map_event_released]
    exact h.free he hr
  | @letGo now =>
    rw [activations_released, map_event_released, List.append_nil]
    exact h.letGo now

private theorem moves (h : InStep lossy n raw sent r) {raw' : List KeyEvent} {emissions : List Emission}
    {r' : Recognizer}
    (hm : Moves r raw' emissions r') (hclean : Clean (raw ++ raw')) (hlt : n + activations emissions < UInt32.size) :
    InStep lossy (n + activations emissions) (raw ++ raw') (sent ++ emissions.map (·.event)) r' := by
  induction hm generalizing n raw sent with
  | nil r =>
    rw [List.append_nil, List.map_nil, List.append_nil]
    exact h
  | cons hm _ ih =>
    rw [← List.append_assoc] at hclean ⊢
    rw [activations_append, ← Nat.add_assoc] at hlt ⊢
    rw [List.map_append, ← List.append_assoc]
    exact ih (h.move hm hclean.of_append (by omega)) hclean hlt

/-- A call that is not a reset keeps everything in step; a press may be lost only if that is allowed. -/
theorem step (h : InStep lossy n raw sent r) {call : Call} (hr : call ≠ .reset) (hd : r.Drops call → lossy)
    (hclean : Clean (raw ++ call.events)) (hlt : n + activations (r.step call).emissions < UInt32.size) :
    InStep lossy (n + activations (r.step call).emissions) (raw ++ call.events) (sent ++ (r.step call).events)
      (r.step call).recognizer := by
  by_cases hdrops : r.Drops call
  · -- nothing changes but the raw stream
    have hlossy := hd hdrops
    cases call with
    | key event layers =>
      rw [step_of_drops hdrops, events_nothing, List.append_nil]
      obtain ⟨he, -, -, hi, hc, -⟩ := hdrops
      exact h.drop hlossy hclean he hi hc
    | tick | flush | reset => exact hdrops.elim
  · exact h.moves (moves_step h.coherent hr hdrops) hclean hlt

private theorem not_holds_of_fresh (hf : r.Fresh) (slot : Slot) (c : ActiveChord) : ¬r.active.Holds slot c := by
  rw [hf.active]
  exact fun hc => List.not_mem_nil hc.1

/-- A recognizer with nothing in flight is in step where every key that is down downstream is down in the raw
stream. -/
private theorem of_fresh (hf : r.Fresh) (hidle : ∀ a, heldAt sent a = heldAt raw a ∨ lossy ∧ heldAt sent a = none)
    (hs : lossy ∨ Sound raw sent) (n : Nat) : InStep lossy n raw sent r where
  coherent := coherent_of_fresh hf
  wellKept := hf.active ▸ .empty
  nextSlot_le := hf.active ▸ Nat.zero_le n
  raw_pending := fun _ hp => absurd (hf.entries ▸ hp) List.not_mem_nil
  sent_pending := fun _ hp => absurd (hf.entries ▸ hp) List.not_mem_nil
  raw_consumed := fun a ha => absurd ((hf.isConsumed a).symm.trans ha) Bool.false_ne_true
  sent_held := fun slot c hc => absurd hc (not_holds_of_fresh hf slot c)
  sent_consumed := fun a ha => absurd ((hf.isConsumed a).symm.trans ha) Bool.false_ne_true
  sent_idle := fun a _ _ => hidle a
  sound := hs

/-- At the beginning of both streams. -/
theorem start (hf : r.Fresh) (lossy : Prop) : InStep lossy 0 [] [] r :=
  of_fresh hf (fun _ => Or.inl rfl) (Or.inr ⟨clean_nil, id⟩) 0

/-- Every key that is down downstream is down in the raw stream. -/
theorem down_of_sent (h : InStep lossy n raw sent r) {a : Address} (ha : heldAt sent a ≠ none) :
    heldAt raw a ≠ none := by
  cases hc : r.isConsumed a with
  | true => exact h.raw_consumed a hc
  | false =>
    cases hi : r.isPending a with
    | true =>
      obtain ⟨_, p, _, hq, rfl, -⟩ := exists_split_of_isPending hi
      exact absurd (h.sent_pending p (hq ▸ List.mem_append_right _ List.mem_cons_self)) ha
    | false =>
      rcases h.sent_idle a hi hc with heq | ⟨-, hnone⟩
      · exact heq ▸ ha
      · exact absurd hnone ha

/-- Once nothing is held back and no action key is held, a recognizer with nothing in flight may take over.  The
presses that were taken are lost to it. -/
private theorem takeOver (h : InStep lossy n raw sent r) (hq : r.pending.entries = [])
    (hheld : ∀ slot c, ¬r.active.Holds slot c) {r' : Recognizer} (hf : r'.Fresh) (m : Nat) :
    InStep True m raw sent r' := by
  refine of_fresh hf (fun a => ?_) (Or.inl trivial) m
  have hi : r.isPending a = false := isPending_eq_false.2 fun p hp => absurd (hq ▸ hp) List.not_mem_nil
  cases hc : r.isConsumed a with
  | false => exact (h.sent_idle a hi hc).imp_right fun hlost => ⟨trivial, hlost.2⟩
  | true =>
    -- a consumed address is down downstream only for a held chord, and there is none
    refine Or.inr ⟨trivial, by_contra fun hdown => ?_⟩
    obtain ⟨slot, c, hslot, -⟩ := h.sent_consumed a hc hdown
    exact hheld slot c hslot

/-- After a flush a recognizer with nothing in flight may take over. -/
theorem takeOver_flush (h : InStep lossy n raw sent r) (hclean : Clean raw)
    (hlt : n + activations (r.flush now).emissions < UInt32.size) {r' : Recognizer} (hf : r'.Fresh) (m : Nat) :
    InStep True m raw (sent ++ (r.flush now).events) r' := by
  have hm : Moves r [] (r.flush now).emissions (r.flush now).recognizer :=
    moves_step h.coherent (fun hreset : Call.flush now = .reset => nomatch hreset) id
  have hflush := h.moves hm (by rwa [List.append_nil]) hlt
  rw [List.append_nil] at hflush
  exact hflush.takeOver rfl (fun slot c => ActiveChords.holds_releaseAll _ now slot c) hf m

end InStep

end Recognizer

end Chording
