import Chording.Recognizer
import Chording.Proofs.Resolves
import Mathlib.Data.List.Induction

/-!
# What calls are made of

One equation for each way that a call can take, and what no call changes: the choices with which the recognizer was
made (`sameSettings_run`).  What is shown about recognizers elsewhere uses these equations and the law of resolving
(`ChordTable.Resolves`), not the definitions of the calls.
-/

namespace Chording

namespace Recognizer

variable {r : Recognizer} {event : KeyEvent} {layers : ActiveLayers}

/-- The recognizer with another queue. -/
def withQueue (r : Recognizer) (queue : List Press) : Recognizer :=
  { r with pending := { r.pending with entries := queue } }

/-- The recognizer with other active chords. -/
def withActive (r : Recognizer) (active : ActiveChords) : Recognizer :=
  { r with active := active }

/-- The event of the call goes on as it came. -/
def pass (r : Recognizer) (event : KeyEvent) : Outcome := ⟨r, [.passed event]⟩

/-- Held presses at the front go on as they came. -/
def replay (r : Recognizer) (now : Nat) (front queue : List Press) : Outcome :=
  r.resolve now ⟨front.map .replay, queue⟩

/-- Presses that go on as they came activate no chord. -/
theorem active_replay (r : Recognizer) (now : Nat) (front queue : List Press) :
    (r.replay now front queue).recognizer.active = r.active := by
  show (front.map Resolution.replay).foldl (activeAfter now) r.active = r.active
  induction front with
  | nil => rfl
  | cons p front ih => exact ih

theorem key_of_down (he : event.edge = .down) (layers : ActiveLayers) : r.key event layers = r.press event layers := by
  rw [key, he]

theorem key_of_up (he : event.edge = .up) (layers : ActiveLayers) : r.key event layers = r.release event := by
  rw [key, he]

/-! ### Presses -/

theorem press_of_suppressed (h : r.isSuppressed layers = true) :
    r.press event layers =
      ((r.replay event.time r.pending.entries []).recognizer.pass event).after
        (r.replay event.time r.pending.entries []).emissions := by
  rw [press, if_pos h]
  rfl

theorem press_of_foreign (h : r.isSuppressed layers = false) (hf : r.table.isParticipant event.key = false) :
    r.press event layers =
      ((r.resolve event.time ⟨r.table.resolveAll r.pending.entries, []⟩).recognizer.pass event).after
        (r.resolve event.time ⟨r.table.resolveAll r.pending.entries, []⟩).emissions := by
  rw [press, if_neg (by simp [h]), if_pos (by simp [hf])]
  rfl

theorem press_of_busy (h : r.isSuppressed layers = false) (hp : r.table.isParticipant event.key = true)
    (hb : r.isPending event.addr = true ∨ r.isConsumed event.addr = true) : r.press event layers = ⟨r, []⟩ := by
  rw [press, if_neg (by simp [h]), if_neg (by simp [hp]), if_pos (by simpa using hb)]

theorem press_of_idle (h : r.isSuppressed layers = false) (hp : r.table.isParticipant event.key = true)
    (hi : r.isPending event.addr = false) (hc : r.isConsumed event.addr = false) :
    r.press event layers = r.hold event := by
  rw [press, if_neg (by simp [h]), if_neg (by simp [hp]), if_neg (by simp [hi, hc])]

theorem hold_of_lt (h : r.pending.size < r.pending.capacity) :
    r.hold event = (r.withQueue (r.pending.entries ++ [.ofEvent event])).recheck event.time := by
  rw [hold, PendingQueue.push_of_lt h]
  rfl

/-- A full queue that takes a press lets the oldest one go on first. -/
theorem hold_of_not_lt (event : KeyEvent) (h : ¬r.pending.size < r.pending.capacity) (ha : r.pending.Admits) :
    ∃ oldest rest, r.pending.entries = oldest :: rest ∧
      r.hold event =
        ((r.withQueue (rest ++ [.ofEvent event])).recheck event.time).after
          (r.replay event.time [oldest] rest).emissions := by
  obtain ⟨oldest, rest, he, hp⟩ := PendingQueue.push_of_not_lt h ha (.ofEvent event)
  refine ⟨oldest, rest, he, ?_⟩
  rw [hold, hp]
  rfl

theorem hold_of_not_admits (h : ¬r.pending.Admits) : r.hold event = ⟨r, []⟩ := by
  rw [hold, PendingQueue.push_of_not_admits h]

/-! ### Releases -/

theorem releaseIdle_of_not_consumed (h : r.isConsumed event.addr = false) : r.releaseIdle event = r.pass event := by
  rw [releaseIdle, ActiveChords.release?_eq_none_iff.2 h]
  rfl

theorem releaseIdle_of_release? {change : ActiveChange} (h : r.active.release? event.addr event.time = some change) :
    r.releaseIdle event = ⟨r.withActive change.active, change.events.map .released⟩ := by
  rw [releaseIdle, h]
  rfl

/-- The queue around the address of a pending press. -/
theorem exists_split_of_isPending {a : Address} (h : r.isPending a = true) :
    ∃ ahead p behind, r.pending.entries = ahead ++ p :: behind ∧ p.addr = a ∧ ∀ q ∈ ahead, q.addr ≠ a := by
  obtain ⟨p, hp⟩ : ∃ p, r.pending.entries.find? (fun q => q.addr = a) = some p :=
    Option.isSome_iff_exists.1 (by rwa [List.find?_isSome, ← List.any_eq_true])
  obtain ⟨hpa, ahead, behind, hq, ha⟩ := List.find?_eq_some_iff_append.1 hp
  exact ⟨ahead, p, behind, hq, by simpa using hpa, by simpa using ha⟩

/-- The presses ahead of the first one at an address, and the others. -/
theorem takeWhile_dropWhile_of_split {a : Address} {queue ahead behind : List Press} {p : Press}
    (hq : queue = ahead ++ p :: behind) (hp : p.addr = a) (ha : ∀ q ∈ ahead, q.addr ≠ a) :
    queue.takeWhile (·.addr ≠ a) = ahead ∧ queue.dropWhile (·.addr ≠ a) = p :: behind := by
  rw [hq, List.takeWhile_append_of_pos (by simpa using ha), List.dropWhile_append_of_pos (by simpa using ha),
    List.takeWhile_cons_of_neg (by simp [hp]), List.dropWhile_cons_of_neg (by simp [hp]), List.append_nil]
  exact ⟨rfl, rfl⟩

theorem releasePending_of_split {ahead behind : List Press} {p : Press}
    (hq : r.pending.entries = ahead ++ p :: behind) (hp : p.addr = event.addr)
    (ha : ∀ q ∈ ahead, q.addr ≠ event.addr) :
    r.releasePending event =
      (((r.replay event.time (ahead ++ [p]) behind).recognizer.recheck event.time).after
        (r.pass event).emissions).after (r.replay event.time (ahead ++ [p]) behind).emissions := by
  obtain ⟨h1, h2⟩ := takeWhile_dropWhile_of_split hq hp ha
  rw [releasePending, h1, h2]
  simp only [Outcome.after, List.append_assoc]
  rfl

theorem release_of_not_pending (h : r.isPending event.addr = false) : r.release event = r.releaseIdle event := by
  rw [release, if_neg (by simp [h])]

/-- The wait for longer chords ends. -/
def settle (r : Recognizer) (now : Nat) : Outcome :=
  r.resolve now (r.table.settleOnce r.pending.entries)

theorem release_of_unsettled (h : r.isPending event.addr = true)
    (hs : (r.settle event.time).recognizer.isPending event.addr = true) :
    r.release event =
      ((r.settle event.time).recognizer.releasePending event).after (r.settle event.time).emissions := by
  rw [release, if_pos h]
  exact congrArg (Outcome.after _) (if_pos hs)

theorem release_of_settled (h : r.isPending event.addr = true)
    (hs : (r.settle event.time).recognizer.isPending event.addr = false) :
    r.release event =
      ((r.settle event.time).recognizer.releaseIdle event).after (r.settle event.time).emissions := by
  rw [release, if_pos h]
  exact congrArg (Outcome.after _) (if_neg (Bool.eq_false_iff.1 hs))

/-! ### Ticks and flushes -/

theorem tick_of_ne_zero (h : r.timeout ≠ 0) (now : Nat) :
    r.tick now = r.resolve now (r.table.expire r.timeout.toNat now r.pending.entries) :=
  if_neg h

/-- Every held action key is released. -/
def letGo (r : Recognizer) (now : Nat) : Outcome :=
  ⟨r.withActive (r.active.releaseAll now).active, (r.active.releaseAll now).events.map .released⟩

theorem map_event_released (events : List KeyEvent) : (events.map Emission.released).map (·.event) = events := by
  rw [List.map_map]
  exact List.map_id events

theorem flush_eq (r : Recognizer) (now : Nat) :
    r.flush now =
      ((r.resolve now ⟨r.table.resolveAll r.pending.entries, []⟩).recognizer.letGo now).after
        (r.resolve now ⟨r.table.resolveAll r.pending.entries, []⟩).emissions :=
  rfl

/-! ### Runs -/

@[simp]
theorem events_nothing (r : Recognizer) : (Outcome.mk r []).events = [] := rfl

@[simp]
theorem run_nil (r : Recognizer) : r.run [] = ⟨r, []⟩ := rfl

theorem run_singleton (r : Recognizer) (call : Call) : r.run [call] = r.step call := by
  simp [run, Outcome.after]

theorem recognizer_run_cons (r : Recognizer) (call : Call) (calls : List Call) :
    (r.run (call :: calls)).recognizer = ((r.step call).recognizer.run calls).recognizer :=
  rfl

theorem events_run_cons (r : Recognizer) (call : Call) (calls : List Call) :
    (r.run (call :: calls)).events = (r.step call).events ++ ((r.step call).recognizer.run calls).events :=
  List.map_append

theorem emissions_run_cons (r : Recognizer) (call : Call) (calls : List Call) :
    (r.run (call :: calls)).emissions = (r.step call).emissions ++ ((r.step call).recognizer.run calls).emissions :=
  rfl

theorem emissions_run_append (r : Recognizer) (calls calls' : List Call) :
    (r.run (calls ++ calls')).emissions = (r.run calls).emissions ++ ((r.run calls).recognizer.run calls').emissions := by
  induction calls generalizing r with
  | nil => rfl
  | cons call calls ih =>
    rw [List.cons_append, emissions_run_cons, ih, emissions_run_cons, List.append_assoc]
    rfl

/-- What a run answers is answered by one of its calls. -/
theorem exists_step_of_mem_run {em : Emission} {calls : List Call} (h : em ∈ (r.run calls).emissions) :
    ∃ front call rest, calls = front ++ call :: rest ∧ em ∈ ((r.run front).recognizer.step call).emissions := by
  induction calls generalizing r with
  | nil => exact absurd h List.not_mem_nil
  | cons call calls ih =>
    rw [emissions_run_cons, List.mem_append] at h
    rcases h with h | h
    · exact ⟨[], call, calls, rfl, h⟩
    · obtain ⟨front, call', rest, rfl, hem⟩ := ih h
      exact ⟨call :: front, call', rest, rfl, hem⟩

theorem recognizer_run_append (r : Recognizer) (calls calls' : List Call) :
    (r.run (calls ++ calls')).recognizer = ((r.run calls).recognizer.run calls').recognizer := by
  induction calls generalizing r with
  | nil => rfl
  | cons call calls ih => exact ih _

theorem recognizer_run_concat (r : Recognizer) (calls : List Call) (call : Call) :
    (r.run (calls ++ [call])).recognizer = ((r.run calls).recognizer.step call).recognizer := by
  rw [recognizer_run_append, run_singleton]

/-- What holds before all calls, and is carried on by each of them, holds after every front of the calls. -/
theorem front_induction {P : List Call → Recognizer → Prop} (h0 : P [] r)
    (hstep : ∀ front call rest, calls = front ++ call :: rest → P front (r.run front).recognizer →
      P (front ++ [call]) ((r.run front).recognizer.step call).recognizer) {rest : List Call}
    (h : calls = front ++ rest) : P front (r.run front).recognizer := by
  induction front using List.reverseRecOn generalizing rest with
  | nil => exact h0
  | append_singleton front call ih =>
    rw [recognizer_run_concat]
    rw [List.append_assoc] at h
    exact hstep front call rest h (ih h)

/-! ### What calls leave alone -/

/-- Two states of one recognizer: nothing differs that was chosen when it was made. -/
structure SameSettings (r r' : Recognizer) : Prop where
  table : r'.table = r.table
  timeout : r'.timeout = r.timeout
  disabledLayers : r'.disabledLayers = r.disabledLayers
  capacity : r'.pending.capacity = r.pending.capacity
  policy : r'.pending.policy = r.pending.policy

private theorem SameSettings.refl (r : Recognizer) : r.SameSettings r := ⟨rfl, rfl, rfl, rfl, rfl⟩

private theorem SameSettings.trans {r r' r'' : Recognizer} (h : r.SameSettings r') (h' : r'.SameSettings r'') :
    r.SameSettings r'' :=
  ⟨h'.table.trans h.table, h'.timeout.trans h.timeout, h'.disabledLayers.trans h.disabledLayers,
    h'.capacity.trans h.capacity, h'.policy.trans h.policy⟩

private theorem sameSettings_resolve (r : Recognizer) (now : Nat) (resolved : Resolved) :
    r.SameSettings (r.resolve now resolved).recognizer := ⟨rfl, rfl, rfl, rfl, rfl⟩

private theorem sameSettings_withQueue (r : Recognizer) (queue : List Press) : r.SameSettings (r.withQueue queue) :=
  ⟨rfl, rfl, rfl, rfl, rfl⟩

private theorem sameSettings_hold (r : Recognizer) (event : KeyEvent) : r.SameSettings (r.hold event).recognizer := by
  by_cases hlt : r.pending.size < r.pending.capacity
  · rw [hold_of_lt hlt]
    exact (r.sameSettings_withQueue _).trans (sameSettings_resolve _ _ _)
  by_cases ha : r.pending.Admits
  · obtain ⟨oldest, rest, -, hh⟩ := hold_of_not_lt event hlt ha
    rw [hh]
    exact (r.sameSettings_withQueue _).trans (sameSettings_resolve _ _ _)
  · rw [hold_of_not_admits ha]
    exact .refl r

private theorem sameSettings_press (r : Recognizer) (event : KeyEvent) (layers : ActiveLayers) :
    r.SameSettings (r.press event layers).recognizer := by
  unfold press
  split
  · exact r.sameSettings_resolve _ _
  split
  · exact r.sameSettings_resolve _ _
  split
  · exact .refl r
  · exact r.sameSettings_hold event

private theorem sameSettings_releaseIdle (r : Recognizer) (event : KeyEvent) :
    r.SameSettings (r.releaseIdle event).recognizer := by
  unfold releaseIdle
  split <;> exact ⟨rfl, rfl, rfl, rfl, rfl⟩

private theorem sameSettings_release (r : Recognizer) (event : KeyEvent) :
    r.SameSettings (r.release event).recognizer := by
  cases hp : r.isPending event.addr with
  | false =>
    rw [release_of_not_pending hp]
    exact r.sameSettings_releaseIdle event
  | true =>
    have hset : r.SameSettings (r.settle event.time).recognizer := r.sameSettings_resolve _ _
    cases hs : (r.settle event.time).recognizer.isPending event.addr with
    | false =>
      rw [release_of_settled hp hs]
      exact hset.trans (sameSettings_releaseIdle _ event)
    | true =>
      rw [release_of_unsettled hp hs]
      exact hset.trans ⟨rfl, rfl, rfl, rfl, rfl⟩

theorem sameSettings_step (r : Recognizer) (call : Call) : r.SameSettings (r.step call).recognizer := by
  cases call with
  | key event layers =>
    show r.SameSettings (r.key event layers).recognizer
    unfold key
    split
    · exact r.sameSettings_press event layers
    · exact r.sameSettings_release event
  | tick now =>
    show r.SameSettings (r.tick now).recognizer
    unfold tick
    split
    · exact .refl r
    · exact r.sameSettings_resolve _ _
  | flush now => exact ⟨rfl, rfl, rfl, rfl, rfl⟩
  | reset => exact ⟨rfl, rfl, rfl, rfl, rfl⟩

theorem sameSettings_run (r : Recognizer) (calls : List Call) : r.SameSettings (r.run calls).recognizer := by
  induction calls generalizing r with
  | nil => exact .refl r
  | cons call calls ih => exact (r.sameSettings_step call).trans (ih _)

/-! ### The beginning -/

/-- Nothing is held back, and no chord is active. -/
structure Fresh (r : Recognizer) : Prop where
  entries : r.pending.entries = []
  active : r.active = ∅

theorem Fresh.isPending (h : r.Fresh) (a : Address) : r.isPending a = false := by
  rw [Recognizer.isPending, PendingQueue.contains, h.entries]
  rfl

theorem Fresh.isConsumed (h : r.Fresh) (a : Address) : r.isConsumed a = false := by
  rw [Recognizer.isConsumed, h.active]
  rfl

theorem fresh_reset (r : Recognizer) : r.reset.Fresh := ⟨rfl, rfl⟩

/-- The recognizer of a configuration that can be used has the choices of the configuration, room in its queue, and
nothing in flight. -/
theorem ofConfig_eq_ok {c : Config} (h : ofConfig c = .ok r) :
    0 < c.capacity.toNat ∧ ∃ t, ChordTable.ofDefs c.chords = .ok t ∧
      r = ⟨t, c.timeout, c.disabledLayers, .empty c.capacity.toNat c.overflow, ∅⟩ := by
  unfold ofConfig at h
  cases hv : c.validate with
  | error e => rw [hv] at h; cases h
  | ok t =>
    rw [hv] at h
    cases h
    obtain ⟨hne, ht⟩ := Config.validate_eq_ok_iff.1 hv
    exact ⟨Nat.pos_of_ne_zero fun hz => hne (UInt64.toNat_inj.1 hz), t, ht, rfl⟩

theorem capacity_run {c : Config} (h : ofConfig c = .ok r) (calls : List Call) :
    (r.run calls).recognizer.pending.capacity = c.capacity.toNat := by
  obtain ⟨-, t, -, hr⟩ := ofConfig_eq_ok h
  rw [(r.sameSettings_run calls).capacity, hr]
  rfl

theorem timeout_run {c : Config} (h : ofConfig c = .ok r) (calls : List Call) :
    (r.run calls).recognizer.timeout = c.timeout := by
  obtain ⟨-, t, -, hr⟩ := ofConfig_eq_ok h
  rw [(r.sameSettings_run calls).timeout, hr]

theorem fresh_ofConfig {c : Config} (h : ofConfig c = .ok r) : r.Fresh := by
  obtain ⟨-, t, -, rfl⟩ := ofConfig_eq_ok h
  exact ⟨rfl, rfl⟩

end Recognizer

/-! ### A short run -/

/-- A chord of two keys, and one of the same keys and a third. -/
def Config.nested : Config where
  chords := [⟨[⟨4⟩, ⟨22⟩], ⟨20⟩⟩, ⟨[⟨4⟩, ⟨22⟩, ⟨7⟩], ⟨26⟩⟩]
  capacity := 3
  overflow := .dropNewest

/-- The keys of the shorter chord are pressed one after the other, and released in the same order. -/
def Recognizer.nestedRoll : List Recognizer.Call :=
  [.key ⟨⟨0, 1⟩, ⟨4⟩, .down, 0⟩ fun _ => false, .key ⟨⟨0, 2⟩, ⟨22⟩, .down, 1⟩ fun _ => false, .tick 3,
    .key ⟨⟨0, 1⟩, ⟨4⟩, .up, 5⟩ fun _ => false, .key ⟨⟨0, 2⟩, ⟨22⟩, .up, 6⟩ fun _ => false]

end Chording
