import Chording.Proofs.Moves

/-!
# The states of addresses

An address is idle, pending or consumed, and not two of these, whatever stream of events comes in.  Addresses wait
just for the chords that are registered (`Linked`).  A call activates chords first and frees addresses after that
(`exists_activates`), so that every chord takes addresses that no chord has taken (`TakesIdle`).
-/

namespace Chording

/-! ### Addresses and the chords for which they wait -/

namespace ActiveChords

variable {a : ActiveChords}

/-- The slots for which addresses wait are those of the registered chords. -/
def Linked (a : ActiveChords) : Prop :=
  ∀ slot, slot ∈ a.consumed.map (·.2) ↔ slot ∈ a.registered.map (·.1)

private theorem Linked.empty : (∅ : ActiveChords).Linked := fun _ => Iff.rfl

private theorem mem_slots_insertAt {slot slot' : Slot} {c : ActiveChord} {registered : List (Slot × ActiveChord)} :
    slot' ∈ (insertAt slot c registered).map (·.1) ↔ slot' = slot ∨ slot' ∈ registered.map (·.1) := by
  induction registered with
  | nil => simp [insertAt]
  | cons x registered ih =>
    unfold insertAt
    split
    · rw [List.map_cons, List.mem_cons, ih, List.map_cons, List.mem_cons]
      exact or_left_comm
    · split
      · rename_i heq
        subst heq
        simp
      · simp

/-- Taking addresses for a new chord, or once more for an old slot, links them to it. -/
private theorem Linked.activate (h : a.Linked) {first : Press} {others : List Press}
    (hn : ((first :: others).map (·.addr)).Nodup) (hd : ∀ p ∈ first :: others, a.isConsumed p.addr = false)
    (id : Nat) (action : KeyCode) (now : Nat) : (a.activate id action (first :: others) now).active.Linked := by
  intro slot
  have hreg : (a.activate id action (first :: others) now).active.registered =
      insertAt a.nextSlot ⟨id, action, first.addr, true⟩ a.registered := rfl
  rw [consumed_activate hn hd id action now, hreg, mem_slots_insertAt, ← h slot, List.map_append, List.mem_append,
    List.map_map]
  have hslots : slot ∈ (first :: others).map (fun _ => a.nextSlot) ↔ slot = a.nextSlot := by simp
  exact (or_congr_right hslots).trans or_comm

/-- A chord leaves just when no address waits for it any more. -/
private theorem Linked.release? (h : a.Linked) (hn : (a.consumed.map (·.1)).Nodup) {addr : Address} {now : Nat}
    {change : ActiveChange} (hr : a.release? addr now = some change) : change.active.Linked := by
  obtain ⟨slot, hs, rfl⟩ := Option.map_eq_some_iff.1 hr
  have haddr := mem_consumed_of_slotOf? hs
  intro slot'
  dsimp only
  by_cases hslot : slot' = slot
  · subst hslot
    split
    · rename_i hany
      obtain ⟨x, hx, hxs⟩ := List.any_eq_true.1 hany
      have hmem : slot' ∈ a.registered.map (·.1) := (h slot').1 (List.mem_map_of_mem (f := (·.2)) haddr)
      exact iff_of_true (List.mem_map.2 ⟨x, hx, by simpa using hxs⟩) (by rwa [map_fst_letGo])
    · rename_i hany
      refine iff_of_false (fun hm => hany ?_) (fun hm => ?_)
      · obtain ⟨x, hx, hxs⟩ := List.mem_map.1 hm
        exact List.any_eq_true.2 ⟨x, hx, by simpa using hxs⟩
      · obtain ⟨x, hx, hxs⟩ := List.mem_map.1 hm
        simpa [hxs] using (List.mem_filter.1 hx).2
  · -- of other slots no address goes, because an address waits for one slot only
    have hcon : slot' ∈ (a.consumed.filter fun entry => entry.1 ≠ addr).map (·.2) ↔ slot' ∈ a.consumed.map (·.2) := by
      refine ⟨fun hm => (List.filter_sublist.map _).subset hm, fun hm => ?_⟩
      obtain ⟨⟨b, s⟩, hx, rfl⟩ := List.mem_map.1 hm
      have hb : b ≠ addr := fun heq => hslot (slot_unique hn (heq ▸ hx) haddr)
      exact List.mem_map.2 ⟨(b, s), List.mem_filter.2 ⟨hx, by simpa using hb⟩, rfl⟩
    rw [hcon, h slot', ← map_fst_letGo slot a.registered]
    split
    · exact Iff.rfl
    · refine ⟨fun hm => ?_, fun hm => (List.filter_sublist.map _).subset hm⟩
      obtain ⟨x, hx, rfl⟩ := List.mem_map.1 hm
      exact List.mem_map.2 ⟨x, List.mem_filter.2 ⟨hx, by simpa using hslot⟩, rfl⟩

private theorem Linked.releaseAll (h : a.Linked) (now : Nat) : (a.releaseAll now).active.Linked := by
  intro slot
  refine (h slot).trans ?_
  show _ ↔ slot ∈ (a.registered.map fun x => (x.1, { x.2 with held := false })).map (·.1)
  rw [List.map_map]
  rfl

/-! ### Activations -/

/-- The active chords with those that an emission presses. -/
def afterEmission (a : ActiveChords) : Emission → ActiveChords
  | .resolved s now => Recognizer.activeAfter now a s
  | .released _ | .passed _ => a

/-- The active chords once these emissions went on, if no address was freed meanwhile. -/
def activateAll (a : ActiveChords) (emissions : List Emission) : ActiveChords :=
  emissions.foldl afterEmission a

/-- The resolution takes no address twice, and none that is consumed. -/
def IdleFor (a : ActiveChords) : Resolution → Prop
  | .replay _ => True
  | .chord _ first others => 2 ≤ (first :: others).length ∧ ((first :: others).map (·.addr)).Nodup ∧
      ∀ p ∈ first :: others, a.isConsumed p.addr = false

/-- Every chord that is pressed by these emissions takes two addresses or more, none twice and none that is consumed
by then. -/
def TakesIdle (a : ActiveChords) : List Emission → Prop
  | [] => True
  | .resolved s now :: emissions => a.IdleFor s ∧ (Recognizer.activeAfter now a s).TakesIdle emissions
  | _ :: emissions => a.TakesIdle emissions

theorem takesIdle_append {emissions emissions' : List Emission} :
    a.TakesIdle (emissions ++ emissions') ↔
      a.TakesIdle emissions ∧ (a.activateAll emissions).TakesIdle emissions' := by
  induction emissions generalizing a with
  | nil => exact (true_and _).symm.to_iff
  | cons em emissions ih =>
    cases em with
    | resolved s now => exact (and_congr_right fun _ => ih).trans and_assoc.symm
    | released e => exact ih
    | passed e => exact ih

private theorem takesIdle_released (a : ActiveChords) (events : List KeyEvent) :
    a.TakesIdle (events.map .released) := by
  induction events with
  | nil => trivial
  | cons e events ih => exact ih

/-- What holds of all activations holds of the one behind the emissions `before`. -/
private theorem TakesIdle.idleFor {before after : List Emission} {s : Resolution} {now : Nat}
    (h : a.TakesIdle (before ++ .resolved s now :: after)) : (a.activateAll before).IdleFor s :=
  (takesIdle_append.1 h).2.1

end ActiveChords

namespace Recognizer

variable {r : Recognizer} {event : KeyEvent} {a : ActiveChords}

/-- An outcome that frees no address: the chords that it activates take idle addresses, and are all that is new. -/
structure Activates (a : ActiveChords) (o : Outcome) : Prop where
  coherent : o.recognizer.Coherent
  takesIdle : a.TakesIdle o.emissions
  active_eq : o.recognizer.active = a.activateAll o.emissions

private theorem Activates.after {o o' : Outcome} (h : Activates a o) (h' : Activates o.recognizer.active o') :
    Activates a (o'.after o.emissions) where
  coherent := h'.coherent
  takesIdle := ActiveChords.takesIdle_append.2 ⟨h.takesIdle, h.active_eq ▸ h'.takesIdle⟩
  active_eq := by
    rw [show (o'.after o.emissions).recognizer.active = o'.recognizer.active from rfl, h'.active_eq, h.active_eq]
    exact List.foldl_append.symm

private theorem activates_nothing (h : r.Coherent) : Activates r.active ⟨r, []⟩ := ⟨h, trivial, rfl⟩

private theorem activates_pass (h : r.Coherent) (event : KeyEvent) :
    Activates r.active (r.pass event) := ⟨h, trivial, rfl⟩

/-- Presses at the front of a coherent queue are at idle addresses. -/
theorem Coherent.idleFor (h : r.Coherent) {s : Resolution} {rest : List Press}
    (hq : r.pending.entries = s.presses ++ rest) (hs : s.Spelled r.table) : r.active.IdleFor s := by
  cases s with
  | replay p => trivial
  | chord e first others =>
    have hn := h.nodup_pending
    rw [hq, List.map_append] at hn
    refine ⟨?_, hn.of_append_left, fun p hp => h.not_consumed p (hq ▸ List.mem_append_left rest hp)⟩
    obtain ⟨-, hk⟩ := ChordTable.perm_of_spelled? hs
    calc 2 ≤ e.chord.keys.length := e.chord.min_le_length
      _ = (first :: others).length := by rw [← hk.length_eq, List.length_map]

private theorem takesIdle_resolutions (h : r.Coherent) {ss : List Resolution} {queue : List Press} {now : Nat}
    (hq : r.pending.entries = ss.flatMap Resolution.presses ++ queue) (hs : ∀ s ∈ ss, s.Spelled r.table) :
    r.active.TakesIdle (ss.map (.resolved · now)) := by
  induction ss generalizing r with
  | nil => trivial
  | cons s ss ih =>
    obtain ⟨hs, hss⟩ := List.forall_mem_cons.1 hs
    rw [List.flatMap_cons, List.append_assoc] at hq
    exact ⟨h.idleFor hq hs, ih (h.move (.resolve hq hs)) rfl hss⟩

theorem activates_resolve (h : r.Coherent) {resolved : Resolved} (hr : r.table.Resolves r.pending.entries resolved)
    (now : Nat) : Activates r.active (r.resolve now resolved) where
  coherent := h.moves (moves_resolve hr)
  takesIdle := takesIdle_resolutions h hr.presses_eq.symm hr.spelled
  active_eq := by
    show _ = (resolved.resolutions.map (Emission.resolved · now)).foldl ActiveChords.afterEmission r.active
    rw [List.foldl_map]
    rfl

private theorem activates_recheck (h : r.Coherent) (now : Nat) : Activates r.active (r.recheck now) :=
  activates_resolve h (r.table.resolves_recheck _) now

private theorem activates_replay (h : r.Coherent) {front queue : List Press} (hq : r.pending.entries = front ++ queue)
    (now : Nat) : Activates r.active (r.replay now front queue) :=
  activates_resolve h (hq ▸ r.table.resolves_replay front queue) now

private theorem activates_settle (h : r.Coherent) (now : Nat) : Activates r.active (r.settle now) :=
  activates_resolve h (r.table.resolves_settleOnce _) now

private theorem activates_hold (h : r.Coherent) (hi : r.Idle event.addr) : Activates r.active (r.hold event) := by
  by_cases hlt : r.pending.size < r.pending.capacity
  · rw [hold_of_lt hlt]
    exact activates_recheck (h.hold hi.1 hi.2 hlt) event.time
  by_cases ha : r.pending.Admits
  · obtain ⟨oldest, rest, hq, hh⟩ := hold_of_not_lt event hlt ha
    rw [hh]
    have hreplay : Activates r.active (r.replay event.time [oldest] rest) := activates_replay h hq event.time
    obtain ⟨hi', hlt'⟩ := h.room hq hi.1
    exact hreplay.after (activates_recheck (hreplay.coherent.hold hi' hi.2 hlt') event.time)
  · rw [hold_of_not_admits ha]
    exact activates_nothing h

private theorem activates_press (h : r.Coherent) (event : KeyEvent) (layers : ActiveLayers) :
    Activates r.active (r.press event layers) := by
  cases hs : r.isSuppressed layers with
  | true =>
    rw [press_of_suppressed hs]
    have hreplay := activates_replay h (List.append_nil _).symm event.time
    exact hreplay.after (activates_pass hreplay.coherent event)
  | false =>
    cases hp : r.table.isParticipant event.key with
    | false =>
      rw [press_of_foreign hs hp]
      have hall := activates_resolve h (r.table.resolves_resolveAll _) event.time
      exact hall.after (activates_pass hall.coherent event)
    | true =>
      by_cases hb : r.isPending event.addr = true ∨ r.isConsumed event.addr = true
      · rw [press_of_busy hs hp hb]
        exact activates_nothing h
      · simp only [not_or, Bool.not_eq_true] at hb
        rw [press_of_idle hs hp hb.1 hb.2]
        exact activates_hold h hb

private theorem activates_releasePending (h : r.Coherent) (hp : r.isPending event.addr = true) :
    Activates r.active (r.releasePending event) := by
  obtain ⟨ahead, p, behind, hq, hpa, ha⟩ := exists_split_of_isPending hp
  rw [releasePending_of_split hq hpa ha]
  have hreplay : Activates r.active (r.replay event.time (ahead ++ [p]) behind) :=
    activates_replay h (by simpa using hq) event.time
  have hpass := activates_pass hreplay.coherent event
  exact hreplay.after (hpass.after (activates_recheck hpass.coherent event.time))

/-- A call first activates chords and after that, if at all, frees an address, lets all action keys go, or forgets
everything. -/
theorem exists_activates (h : r.Coherent) (call : Call) :
    ∃ o, Activates r.active o ∧ (r.step call = o ∨
      (∃ event ∈ call.events, event.edge = .up ∧
        r.step call = (o.recognizer.releaseIdle event).after o.emissions) ∨
      (∃ now, call = .flush now ∧ r.step call = (o.recognizer.letGo now).after o.emissions) ∨
      call = .reset ∧ r.step call = ⟨r.reset, []⟩) := by
  cases call with
  | key event layers =>
    cases he : event.edge with
    | down =>
      exact ⟨_, activates_press h event layers, Or.inl (key_of_down he layers)⟩
    | up =>
      rw [show r.step (.key event layers) = r.release event from key_of_up he layers]
      have hs := activates_settle h event.time
      cases hp : r.isPending event.addr with
      | false =>
        exact ⟨_, activates_nothing h,
          Or.inr (Or.inl ⟨event, List.mem_singleton_self _, he, release_of_not_pending hp⟩)⟩
      | true =>
        cases hsp : (r.settle event.time).recognizer.isPending event.addr with
        | false =>
          exact ⟨_, hs, Or.inr (Or.inl ⟨event, List.mem_singleton_self _, he, release_of_settled hp hsp⟩)⟩
        | true =>
          exact ⟨_, hs.after (activates_releasePending hs.coherent hsp), Or.inl (release_of_unsettled hp hsp)⟩
  | tick now =>
    by_cases ht : r.timeout = 0
    · exact ⟨_, activates_nothing h, Or.inl (if_pos ht)⟩
    · exact ⟨_, activates_resolve h (r.table.resolves_expire _ _ _) now, Or.inl (tick_of_ne_zero ht now)⟩
  | flush now =>
    exact ⟨_, activates_resolve h (r.table.resolves_resolveAll _) now,
      Or.inr (Or.inr (Or.inl ⟨now, rfl, r.flush_eq now⟩))⟩
  | reset => exact ⟨_, activates_nothing h, Or.inr (Or.inr (Or.inr ⟨rfl, rfl⟩))⟩

private theorem takesIdle_releaseIdle (a : ActiveChords) (r : Recognizer) (event : KeyEvent) :
    a.TakesIdle (r.releaseIdle event).emissions := by
  unfold releaseIdle
  split
  · exact a.takesIdle_released _
  · trivial

private theorem takesIdle_step (h : r.Coherent) (call : Call) : r.active.TakesIdle (r.step call).emissions := by
  obtain ⟨o, ho, heq | ⟨event, -, -, heq⟩ | ⟨now, -, heq⟩ | ⟨-, heq⟩⟩ := exists_activates h call
  · rw [heq]
    exact ho.takesIdle
  · rw [heq]
    exact ActiveChords.takesIdle_append.2 ⟨ho.takesIdle, takesIdle_releaseIdle _ _ event⟩
  · rw [heq]
    exact ActiveChords.takesIdle_append.2 ⟨ho.takesIdle, ActiveChords.takesIdle_released _ _⟩
  · rw [heq]
    trivial

/-! ### A released address is idle -/

/-- An idle address stays idle, unless it is pressed. -/
private theorem Idle.move {addr : Address} (hi : r.Idle addr) (h : r.Coherent) {raw : List KeyEvent}
    {emissions : List Emission} {r' : Recognizer} (hm : Move r raw emissions r')
    (hraw : ∀ e ∈ raw, e.edge = .down → e.addr ≠ addr) : r'.Idle addr := by
  obtain ⟨hpend, hcons⟩ := hi
  cases hm with
  | @resolve s rest now hq hs =>
    have hpend' : ∀ p ∈ s.presses ++ rest, p.addr ≠ addr := hq ▸ isPending_eq_false.1 hpend
    refine ⟨isPending_eq_false.2 fun p hp => hpend' p (List.mem_append_right _ hp), ?_⟩
    cases s with
    | replay p => exact hcons
    | chord e first others =>
      rw [isConsumed_eq_false] at hcons ⊢
      show addr ∉ (r.active.activate e.id e.chord.action (first :: others) now).active.consumed.map (·.1)
      rw [h.consumed_activate hq, List.map_append, List.mem_append, not_or, List.map_map]
      refine ⟨hcons, fun hm => ?_⟩
      obtain ⟨p, hp, hpa⟩ := List.mem_map.1 hm
      exact hpend' p (List.mem_append_left rest hp) hpa
  | @hold event he hp hi hc hlt =>
    refine ⟨isPending_eq_false.2 fun p hm => ?_, hcons⟩
    rcases List.mem_append.1 hm with hm | hm
    · exact isPending_eq_false.1 hpend p hm
    · rw [List.mem_singleton.1 hm]
      exact hraw event (List.mem_singleton_self _) he
  | ignore | passPress | passRelease | letGo => exact ⟨hpend, hcons⟩
  | free he hi hr =>
    exact ⟨hpend, Bool.eq_false_iff.2 fun hc =>
      Bool.false_ne_true (hcons.symm.trans ((ActiveChords.isConsumed_release? hr).1 hc).1)⟩

theorem Idle.moves {addr : Address} (hi : r.Idle addr) (h : r.Coherent) {raw : List KeyEvent}
    {emissions : List Emission} {r' : Recognizer} (hm : Moves r raw emissions r')
    (hraw : ∀ e ∈ raw, e.edge = .down → e.addr ≠ addr) : r'.Idle addr := by
  induction hm with
  | nil r => exact hi
  | cons hm _ ih =>
    obtain ⟨hraw, hraw'⟩ := List.forall_mem_append.1 hraw
    exact ih (hi.move h hm hraw) (h.move hm) hraw'

/-- An idle address stays idle in a call that does not press it. -/
theorem Idle.step {addr : Address} (hi : r.Idle addr) (h : r.Coherent) {call : Call}
    (hcall : ∀ e ∈ call.events, e.edge = .down → e.addr ≠ addr) : (r.step call).recognizer.Idle addr := by
  by_cases hreset : call = .reset
  · subst hreset
    exact r.fresh_reset.idle addr
  · by_cases hd : r.Drops call
    · rw [step_of_drops hd]
      exact hi
    · exact hi.moves h (moves_step h hreset hd) hcall

theorem Idle.run {addr : Address} (hi : r.Idle addr) (h : r.Coherent) {calls : List Call}
    (hcalls : ∀ e ∈ calls.flatMap Call.events, e.edge = .down → e.addr ≠ addr) :
    (r.run calls).recognizer.Idle addr := by
  induction calls generalizing r with
  | nil => exact hi
  | cons call calls ih =>
    rw [List.flatMap_cons, List.forall_mem_append] at hcalls
    exact ih (hi.step h hcalls.1) (h.run [call]) hcalls.2

private theorem idle_releaseIdle (hi : r.isPending event.addr = false) :
    (r.releaseIdle event).recognizer.Idle event.addr := by
  cases hr : r.active.release? event.addr event.time with
  | none =>
    have hc : r.isConsumed event.addr = false := ActiveChords.release?_eq_none_iff.1 hr
    rw [releaseIdle_of_not_consumed hc]
    exact ⟨hi, hc⟩
  | some change =>
    rw [releaseIdle_of_release? hr]
    exact ⟨hi, Bool.eq_false_iff.2 fun hc => ((ActiveChords.isConsumed_release? hr).1 hc).2 rfl⟩

private theorem idle_releasePending (h : r.Coherent) (hp : r.isPending event.addr = true) :
    (r.releasePending event).recognizer.Idle event.addr := by
  obtain ⟨ahead, p, behind, hq, hpa, ha⟩ := exists_split_of_isPending hp
  rw [releasePending_of_split hq hpa ha]
  have hidle := h.idle_replay hq event.time
  rw [hpa] at hidle
  have hreplay : (r.replay event.time (ahead ++ [p]) behind).recognizer.Coherent :=
    (activates_replay h (by simpa using hq) event.time).coherent
  exact hidle.moves hreplay (moves_recheck _ _) (by simp)

/-- Whatever an address was, a release leaves it idle. -/
theorem idle_release (h : r.Coherent) (event : KeyEvent) : (r.release event).recognizer.Idle event.addr := by
  cases hp : r.isPending event.addr with
  | false =>
    rw [release_of_not_pending hp]
    exact idle_releaseIdle hp
  | true =>
    cases hs : (r.settle event.time).recognizer.isPending event.addr with
    | false =>
      rw [release_of_settled hp hs]
      exact idle_releaseIdle hs
    | true =>
      rw [release_of_unsettled hp hs]
      exact idle_releasePending (activates_settle h event.time).coherent hs

/-! ### Whole runs -/

/-- The queue holds presses of keys of chords only, and addresses wait just for registered chords. -/
structure Orderly (r : Recognizer) : Prop where
  participants : ∀ p ∈ r.pending.entries, r.table.isParticipant p.key = true
  linked : r.active.Linked

private theorem orderly_of_fresh (hf : r.Fresh) : r.Orderly where
  participants := fun _ hp => absurd (hf.entries ▸ hp) List.not_mem_nil
  linked := hf.active ▸ .empty

private theorem Orderly.move (ho : r.Orderly) (h : r.Coherent) {raw : List KeyEvent} {emissions : List Emission}
    {r' : Recognizer} (hm : Move r raw emissions r') : r'.Orderly := by
  obtain ⟨hpart, hlink⟩ := ho
  cases hm with
  | @resolve s rest now hq hs =>
    refine ⟨fun p hp => hpart p (hq ▸ List.mem_append_right _ hp), ?_⟩
    have hidle := h.idleFor hq hs
    cases s with
    | replay p => exact hlink
    | chord e first others => exact hlink.activate hidle.2.1 hidle.2.2 e.id e.chord.action now
  | hold he hp hi hc hlt =>
    refine ⟨fun p hm => ?_, hlink⟩
    rcases List.mem_append.1 hm with hm | hm
    · exact hpart p hm
    · rw [List.mem_singleton.1 hm]
      exact hp
  | ignore | passPress | passRelease => exact ⟨hpart, hlink⟩
  | free he hi hr => exact ⟨hpart, hlink.release? h.nodup_consumed hr⟩
  | @letGo now => exact ⟨hpart, hlink.releaseAll now⟩

private theorem Orderly.moves (ho : r.Orderly) (h : r.Coherent) {raw : List KeyEvent} {emissions : List Emission}
    {r' : Recognizer} (hm : Moves r raw emissions r') : r'.Orderly := by
  induction hm with
  | nil r => exact ho
  | cons hm _ ih => exact ih (ho.move h hm) (h.move hm)

/-- After any calls the addresses of the queue are distinct, none of them is consumed, its keys take part in chords,
and it is no longer than it may be; the addresses that are consumed wait just for the chords that are registered.
Hence every chord that a next call activates takes two addresses or more, none twice and none that is consumed by
then, and a release leaves its address idle. -/
theorem run_addresses {c : Config} (hc : ofConfig c = .ok r) (calls : List Call) :
    let s := (r.run calls).recognizer
    (s.pending.entries.map (·.addr)).Nodup ∧
    (∀ p ∈ s.pending.entries, s.isConsumed p.addr = false ∧ s.table.isParticipant p.key = true) ∧
    s.pending.size ≤ c.capacity.toNat ∧
    (∀ slot, (∃ addr, (addr, slot) ∈ s.active.consumed) ↔ ∃ chord, (slot, chord) ∈ s.active.registered) ∧
    (∀ call before e first others now after,
      (s.step call).emissions = before ++ .resolved (.chord e first others) now :: after →
        2 ≤ (first :: others).length ∧ ((first :: others).map (·.addr)).Nodup ∧
        ∀ p ∈ first :: others, (s.active.activateAll before).isConsumed p.addr = false) ∧
    ∀ event layers, event.edge = .up →
      (s.key event layers).recognizer.isPending event.addr = false ∧
      (s.key event layers).recognizer.isConsumed event.addr = false := by
  intro s
  have hfresh := fresh_ofConfig hc
  obtain ⟨hcoh, hord⟩ : s.Coherent ∧ s.Orderly :=
    run_induction orderly_of_fresh (fun h ho hm => ho.moves h hm) (coherent_of_fresh hfresh)
      (orderly_of_fresh hfresh) calls
  refine ⟨hcoh.nodup_pending, fun p hp => ⟨hcoh.not_consumed p hp, hord.participants p hp⟩,
    capacity_run hc calls ▸ hcoh.size_le, fun slot => ?_, fun call before e first others now after heq => ?_,
    fun event layers he => ?_⟩
  · have hslot := hord.linked slot
    simpa using hslot
  · have htakes := takesIdle_step hcoh call
    rw [heq] at htakes
    exact htakes.idleFor
  · rw [key_of_up he]
    exact idle_release hcoh event

/-- The address that is released first is idle again; the other one waits for the chord, which stays registered. -/
theorem run_addresses_nestedRoll :
    ∃ r, ofConfig .nested = .ok r ∧
      let s := (r.run (nestedRoll.take 3)).recognizer
      let s' := (r.run (nestedRoll.take 4)).recognizer
      s.isPending ⟨0, 1⟩ = true ∧ (s.pending.entries.map (·.addr)).Nodup ∧
      (s.key ⟨⟨0, 1⟩, ⟨4⟩, .up, 5⟩ fun _ => false).recognizer.isPending ⟨0, 1⟩ = false ∧
      (s.key ⟨⟨0, 1⟩, ⟨4⟩, .up, 5⟩ fun _ => false).recognizer.isConsumed ⟨0, 1⟩ = false ∧
      (⟨0, 2⟩, 0) ∈ s'.active.consumed ∧ ∃ chord, (0, chord) ∈ s'.active.registered := by
  obtain ⟨hnodup, -, -, -, -, hup⟩ := run_addresses (c := .nested) rfl (nestedRoll.take 3)
  obtain ⟨-, -, -, hslots, -, -⟩ := run_addresses (c := .nested) rfl (nestedRoll.take 4)
  obtain ⟨hpending, hconsumed⟩ := hup ⟨⟨0, 1⟩, ⟨4⟩, .up, 5⟩ (fun _ => false) rfl
  exact ⟨_, rfl, by decide +kernel, hnodup, hpending, hconsumed, by decide +kernel,
    (hslots 0).1 ⟨⟨0, 2⟩, by decide +kernel⟩⟩

end Recognizer

end Chording
