import Chording.Proofs.Calls
import Chording.Proofs.SameActions

/-!
# Configurations that say the same

A recognizer uses its chords only to tell which action key a set of keys stands for.  Two recognizers whose chords
agree in this, and whose other choices are the same, are alike after the same calls (`Alike.run`): their states differ
at most in the positions that active chords have in the two tables, and these go into no event.  So it matters
neither in which order chords with different keys were written, nor in which order the keys of a chord were, nor
whether there are further chords with the same keys (`runs_agree`).
-/

namespace Chording

/-! ### Active chords without their positions in the table -/

/-- The chord without its position in the table. -/
def ActiveChord.forgetId (c : ActiveChord) : ActiveChord := { c with id := 0 }

def ActiveChords.forgetIds (a : ActiveChords) : ActiveChords :=
  { a with registered := a.registered.map fun x => (x.1, x.2.forgetId) }

def ActiveChange.forgetIds (c : ActiveChange) : ActiveChange := ⟨c.active.forgetIds, c.events⟩

namespace ActiveChords

private theorem held_forgetIds (a : ActiveChords) : a.forgetIds.held = a.held.map ActiveChord.forgetId := by
  unfold held forgetIds
  rw [List.filter_map, List.filter_map, List.filter_map, List.map_map, List.map_map]
  rfl

private theorem heldAt?_forgetIds (a : ActiveChords) (slot : Slot) :
    a.forgetIds.heldAt? slot = (a.heldAt? slot).map ActiveChord.forgetId := by
  unfold heldAt? forgetIds
  rw [List.find?_map, Option.map_map, Option.map_map]
  rfl

private theorem insertAt_map_forgetId (slot : Slot) (c : ActiveChord) (registered : List (Slot × ActiveChord)) :
    insertAt slot c.forgetId (registered.map fun x => (x.1, x.2.forgetId)) =
      (insertAt slot c registered).map fun x => (x.1, x.2.forgetId) := by
  induction registered with
  | nil => rfl
  | cons x registered ih =>
    rw [List.map_cons, insertAt, insertAt, ih]
    split
    · rfl
    · split <;> rfl

private theorem letGo_map_forgetId (slot : Slot) (registered : List (Slot × ActiveChord)) :
    letGo slot (registered.map fun x => (x.1, x.2.forgetId)) =
      (letGo slot registered).map fun x => (x.1, x.2.forgetId) := by
  unfold letGo
  rw [List.map_map, List.map_map]
  refine List.map_congr_left fun x _ => ?_
  dsimp only [Function.comp_apply]
  split <;> rfl

private theorem activate_forgetIds (a : ActiveChords) (id : Nat) (action : KeyCode) (presses : List Press) (now : Nat) :
    (a.forgetIds.activate 0 action presses now).active = (a.activate id action presses now).active.forgetIds := by
  cases presses with
  | nil => rfl
  | cons first others =>
    have hreg := insertAt_map_forgetId a.nextSlot ⟨id, action, first.addr, true⟩ a.registered
    exact congrArg (ActiveChords.mk · _ _) hreg

private theorem release?_forgetIds (a : ActiveChords) (addr : Address) (now : Nat) :
    a.forgetIds.release? addr now = (a.release? addr now).map ActiveChange.forgetIds := by
  have hslot : a.forgetIds.slotOf? addr = a.slotOf? addr := rfl
  unfold release?
  rw [hslot, Option.map_map]
  refine congrArg (Option.map · _) (funext fun slot => ?_)
  dsimp only [Function.comp_apply]
  rw [heldAt?_forgetIds, Option.map_map]
  unfold forgetIds
  dsimp only
  rw [letGo_map_forgetId, List.filter_map, ← apply_ite (List.map _)]
  rfl

private theorem releaseAll_forgetIds (a : ActiveChords) (now : Nat) :
    a.forgetIds.releaseAll now = (a.releaseAll now).forgetIds := by
  unfold releaseAll
  rw [held_forgetIds, List.map_map]
  unfold forgetIds ActiveChange.forgetIds forgetIds
  dsimp only
  rw [List.map_map, List.map_map]
  rfl

/-- The same chord at another position of the table changes nothing else. -/
private theorem forgetIds_activeAfter {a a' : ActiveChords} (ha : a'.forgetIds = a.forgetIds) {f : Entry → Entry}
    (hf : ∀ e, (f e).chord.action = e.chord.action) (now : Nat) (s : Resolution) :
    (Recognizer.activeAfter now a' (s.map f)).forgetIds = (Recognizer.activeAfter now a s).forgetIds := by
  cases s with
  | replay p => exact ha
  | chord e first others =>
    show (a'.activate (f e).id (f e).chord.action (first :: others) now).active.forgetIds =
      (a.activate e.id e.chord.action (first :: others) now).active.forgetIds
    rw [hf, ← activate_forgetIds, ha, activate_forgetIds]

private theorem forgetIds_foldl_activeAfter {a a' : ActiveChords} (ha : a'.forgetIds = a.forgetIds) {f : Entry → Entry}
    (hf : ∀ e, (f e).chord.action = e.chord.action) (now : Nat) (ss : List Resolution) :
    ((ss.map (Resolution.map f)).foldl (Recognizer.activeAfter now) a').forgetIds =
      (ss.foldl (Recognizer.activeAfter now) a).forgetIds := by
  induction ss generalizing a a' with
  | nil => exact ha
  | cons s ss ih => exact ih (forgetIds_activeAfter ha hf now s)

end ActiveChords

/-! ### Alike recognizers -/

/-- Recognizers with the same choices whose chords say the same, in states that differ at most in the positions of
the active chords. -/
structure Recognizer.Alike (r r' : Recognizer) : Prop where
  table : r.table.SameActions r'.table
  timeout : r'.timeout = r.timeout
  disabledLayers : r'.disabledLayers = r.disabledLayers
  pending : r'.pending = r.pending
  active : r'.active.forgetIds = r.active.forgetIds

/-- The same events go on, and the recognizers behind them are alike. -/
structure Outcome.Alike (o o' : Outcome) : Prop where
  events : o'.events = o.events
  recognizer : o.recognizer.Alike o'.recognizer

private theorem Outcome.Alike.after {o o' p p' : Outcome} (h : o.Alike o') (h' : p.Alike p') :
    (p.after o.emissions).Alike (p'.after o'.emissions) where
  events := by
    rw [events_after, events_after, h'.events]
    exact congrArg (· ++ _) h.events
  recognizer := h'.recognizer

namespace Recognizer.Alike

variable {r r' : Recognizer} (h : r.Alike r')

include h

private theorem consumed : r'.active.consumed = r.active.consumed :=
  (congrArg ActiveChords.consumed h.active : _)

private theorem isPending (a : Address) : r'.isPending a = r.isPending a := by
  rw [Recognizer.isPending, h.pending, Recognizer.isPending]

private theorem isConsumed (a : Address) : r'.isConsumed a = r.isConsumed a := by
  rw [Recognizer.isConsumed, ActiveChords.isConsumed, h.consumed]
  rfl

private theorem isSuppressed (layers : ActiveLayers) : r'.isSuppressed layers = r.isSuppressed layers := by
  rw [Recognizer.isSuppressed, h.disabledLayers, Recognizer.isSuppressed]

private theorem heldCount : r'.heldCount = r.heldCount := by
  have hheld := congrArg (·.held.length) h.active
  simp only [ActiveChords.held_forgetIds, List.length_map] at hheld
  exact hheld

private theorem nothing : (Outcome.mk r []).Alike ⟨r', []⟩ := ⟨rfl, h⟩

private theorem pass (event : KeyEvent) : (r.pass event).Alike (r'.pass event) := ⟨rfl, h⟩

private theorem withQueue (queue : List Press) : (r.withQueue queue).Alike (r'.withQueue queue) :=
  ⟨h.table, h.timeout, h.disabledLayers, by rw [Recognizer.withQueue, h.pending, Recognizer.withQueue], h.active⟩

/-- The events of a change of the active chords go on. -/
private theorem withChange {c c' : ActiveChange} (hc : c'.forgetIds = c.forgetIds) :
    (Outcome.mk (r.withActive c.active) (c.events.map .released)).Alike
      ⟨r'.withActive c'.active, c'.events.map .released⟩ where
  events := by
    have hev : c'.events = c.events := (congrArg ActiveChange.events hc : _)
    rw [Outcome.events, hev]
    rfl
  recognizer := ⟨h.table, h.timeout, h.disabledLayers, h.pending, congrArg ActiveChange.active hc⟩

/-! #### Resolving presses -/

/-- What became of the presses is told with the chords of the other table. -/
private theorem resolve (now : Nat) (resolved : Resolved) :
    (r.resolve now resolved).Alike (r'.resolve now (resolved.map r'.table.counterpart)) where
  events := by
    show ((resolved.resolutions.map (Resolution.map _)).map (Emission.resolved · now)).map (·.event) =
      (resolved.resolutions.map (Emission.resolved · now)).map (·.event)
    rw [List.map_map, List.map_map, List.map_map]
    refine List.map_congr_left fun s _ => ?_
    cases s with
    | replay p => rfl
    | chord e first others =>
      show KeyEvent.mk first.addr (r'.table.counterpart e).chord.action .down now =
        ⟨first.addr, e.chord.action, .down, now⟩
      rw [ChordTable.action_counterpart]
  recognizer :=
    { table := h.table
      timeout := h.timeout
      disabledLayers := h.disabledLayers
      pending := by
        show { r'.pending with entries := resolved.queue } = { r.pending with entries := resolved.queue }
        rw [h.pending]
      active := ActiveChords.forgetIds_foldl_activeAfter h.active r'.table.action_counterpart now _ }

private theorem replay (now : Nat) (front queue : List Press) :
    (r.replay now front queue).Alike (r'.replay now front queue) := by
  have hmap : Resolved.map r'.table.counterpart ⟨front.map .replay, queue⟩ = ⟨front.map .replay, queue⟩ := by
    rw [Resolved.map, List.map_map]
    rfl
  have hr := h.resolve now ⟨front.map .replay, queue⟩
  rw [hmap] at hr
  exact hr

private theorem recheck (now : Nat) : (r.recheck now).Alike (r'.recheck now) := by
  rw [Recognizer.recheck, Recognizer.recheck, h.pending, h.table.recheck_eq]
  exact h.resolve now _

private theorem settle (now : Nat) : (r.settle now).Alike (r'.settle now) := by
  rw [Recognizer.settle, Recognizer.settle, h.pending, h.table.settleOnce_eq]
  exact h.resolve now _

private theorem resolveAll (now : Nat) :
    (r.resolve now ⟨r.table.resolveAll r.pending.entries, []⟩).Alike
      (r'.resolve now ⟨r'.table.resolveAll r'.pending.entries, []⟩) := by
  rw [h.pending, h.table.resolveAll_eq]
  exact h.resolve now ⟨r.table.resolveAll r.pending.entries, []⟩

/-! #### Calls -/

private theorem hold (event : KeyEvent) : (r.hold event).Alike (r'.hold event) := by
  by_cases hlt : r.pending.size < r.pending.capacity
  · rw [hold_of_lt hlt, hold_of_lt (h.pending ▸ hlt), h.pending]
    exact (h.withQueue _).recheck event.time
  by_cases ha : r.pending.Admits
  · obtain ⟨oldest, rest, hq, hh⟩ := hold_of_not_lt event hlt ha
    obtain ⟨oldest', rest', hq', hh'⟩ := hold_of_not_lt (r := r') event (h.pending ▸ hlt) (h.pending ▸ ha)
    obtain ⟨rfl, rfl⟩ : oldest = oldest' ∧ rest = rest' := by
      rw [h.pending, hq] at hq'
      exact List.cons.inj hq'
    rw [hh, hh']
    exact (h.replay event.time [oldest] rest).after ((h.withQueue _).recheck event.time)
  · rw [hold_of_not_admits ha, hold_of_not_admits (h.pending ▸ ha)]
    exact h.nothing

private theorem press (event : KeyEvent) (layers : ActiveLayers) :
    (r.press event layers).Alike (r'.press event layers) := by
  cases hs : r.isSuppressed layers with
  | true =>
    rw [press_of_suppressed hs, press_of_suppressed ((h.isSuppressed layers).trans hs), h.pending]
    have hreplay := h.replay event.time r.pending.entries []
    exact hreplay.after (hreplay.recognizer.pass event)
  | false =>
    have hs' := (h.isSuppressed layers).trans hs
    cases hp : r.table.isParticipant event.key with
    | false =>
      rw [press_of_foreign hs hp, press_of_foreign hs' ((h.table.isParticipant_eq event.key).trans hp)]
      have hall := h.resolveAll event.time
      exact hall.after (hall.recognizer.pass event)
    | true =>
      have hp' := (h.table.isParticipant_eq event.key).trans hp
      by_cases hb : r.isPending event.addr = true ∨ r.isConsumed event.addr = true
      · rw [press_of_busy hs hp hb, press_of_busy hs' hp' (by rwa [h.isPending, h.isConsumed])]
        exact h.nothing
      · simp only [not_or, Bool.not_eq_true] at hb
        rw [press_of_idle hs hp hb.1 hb.2,
          press_of_idle hs' hp' ((h.isPending _).trans hb.1) ((h.isConsumed _).trans hb.2)]
        exact h.hold event

private theorem releaseIdle (event : KeyEvent) : (r.releaseIdle event).Alike (r'.releaseIdle event) := by
  have hchange : (r'.active.release? event.addr event.time).map ActiveChange.forgetIds =
      (r.active.release? event.addr event.time).map ActiveChange.forgetIds := by
    rw [← ActiveChords.release?_forgetIds, h.active, ActiveChords.release?_forgetIds]
  cases hr : r.active.release? event.addr event.time with
  | none =>
    have hc : r.isConsumed event.addr = false := ActiveChords.release?_eq_none_iff.1 hr
    rw [releaseIdle_of_not_consumed hc, releaseIdle_of_not_consumed ((h.isConsumed _).trans hc)]
    exact h.pass event
  | some change =>
    rw [hr, Option.map_some, Option.map_eq_some_iff] at hchange
    obtain ⟨change', hr', hchange⟩ := hchange
    rw [releaseIdle_of_release? hr, releaseIdle_of_release? hr']
    exact h.withChange hchange

private theorem releasePending (event : KeyEvent) (hp : r.isPending event.addr = true) :
    (r.releasePending event).Alike (r'.releasePending event) := by
  obtain ⟨ahead, p, behind, hq, hpa, ha⟩ := exists_split_of_isPending hp
  rw [releasePending_of_split hq hpa ha, releasePending_of_split (h.pending ▸ hq) hpa ha]
  have hreplay := h.replay event.time (ahead ++ [p]) behind
  exact hreplay.after ((h.pass event).after (hreplay.recognizer.recheck event.time))

private theorem release (event : KeyEvent) : (r.release event).Alike (r'.release event) := by
  cases hp : r.isPending event.addr with
  | false =>
    rw [release_of_not_pending hp, release_of_not_pending ((h.isPending _).trans hp)]
    exact h.releaseIdle event
  | true =>
    have hp' := (h.isPending event.addr).trans hp
    have hs := h.settle event.time
    have hsp := hs.recognizer.isPending event.addr
    cases hsettled : (r.settle event.time).recognizer.isPending event.addr with
    | false =>
      rw [release_of_settled hp hsettled, release_of_settled hp' (hsp.trans hsettled)]
      exact hs.after (hs.recognizer.releaseIdle event)
    | true =>
      rw [release_of_unsettled hp hsettled, release_of_unsettled hp' (hsp.trans hsettled)]
      exact hs.after (hs.recognizer.releasePending event hsettled)

private theorem tick (now : Nat) : (r.tick now).Alike (r'.tick now) := by
  by_cases ht : r.timeout = 0
  · rw [Recognizer.tick, if_pos ht, Recognizer.tick, if_pos (h.timeout.trans ht)]
    exact h.nothing
  · rw [tick_of_ne_zero ht, tick_of_ne_zero (h.timeout ▸ ht), h.timeout, h.pending, h.table.expire_eq]
    exact h.resolve now _

private theorem letGo (now : Nat) : (r.letGo now).Alike (r'.letGo now) := by
  refine h.withChange ?_
  rw [← ActiveChords.releaseAll_forgetIds, h.active, ActiveChords.releaseAll_forgetIds]

private theorem step (call : Call) : (r.step call).Alike (r'.step call) := by
  cases call with
  | key event layers =>
    show (r.key event layers).Alike (r'.key event layers)
    cases he : event.edge with
    | down =>
      rw [key_of_down he, key_of_down he]
      exact h.press event layers
    | up =>
      rw [key_of_up he, key_of_up he]
      exact h.release event
  | tick now => exact h.tick now
  | flush now =>
    show (r.flush now).Alike (r'.flush now)
    rw [flush_eq, flush_eq]
    have hall := h.resolveAll now
    exact hall.after (hall.recognizer.letGo now)
  | reset =>
    refine ⟨rfl, h.table, h.timeout, h.disabledLayers, ?_, rfl⟩
    show r'.pending.clear = r.pending.clear
    rw [h.pending]

omit h in
/-- Recognizers that are alike answer the same calls alike. -/
theorem run (h : r.Alike r') (calls : List Call) : (r.run calls).Alike (r'.run calls) := by
  induction calls generalizing r r' with
  | nil => exact h.nothing
  | cons call calls ih =>
    have hstep := h.step call
    exact hstep.after (ih hstep.recognizer)

end Recognizer.Alike

/-! ### Configurations -/

namespace Recognizer

variable {r r' : Recognizer}

private theorem alike_ofConfig {c c' : Config} (hc : ofConfig c = .ok r) (hc' : ofConfig c' = .ok r')
    (ht : c'.timeout = c.timeout) (hn : c'.capacity = c.capacity) (ho : c'.overflow = c.overflow)
    (hl : c'.disabledLayers = c.disabledLayers) (hs : c.SameActions c') : r.Alike r' := by
  obtain ⟨-, t, hdefs, rfl⟩ := ofConfig_eq_ok hc
  obtain ⟨-, t', hdefs', rfl⟩ := ofConfig_eq_ok hc'
  refine ⟨fun keys => ?_, ht, hl, by rw [hn, ho], rfl⟩
  rw [ChordTable.actionOf?_of_ofDefs hdefs, ChordTable.actionOf?_of_ofDefs hdefs']
  exact hs keys

/-- Two configurations that differ at most in how their chords are written, and give the same action key to every set
of keys, cannot be told apart: after the same calls the same events went on, the same presses are held, the same
addresses are consumed and as many action keys are held, and every next call sends the same events. -/
theorem runs_agree {c c' : Config} (hc : ofConfig c = .ok r) (hc' : ofConfig c' = .ok r')
    (ht : c'.timeout = c.timeout) (hn : c'.capacity = c.capacity) (ho : c'.overflow = c.overflow)
    (hl : c'.disabledLayers = c.disabledLayers) (hs : c.SameActions c') (calls : List Call) :
    let s := (r.run calls).recognizer
    let s' := (r'.run calls).recognizer
    (r'.run calls).events = (r.run calls).events ∧ s'.pending = s.pending ∧
    (∀ a, s'.isPending a = s.isPending a ∧ s'.isConsumed a = s.isConsumed a) ∧
    s'.active.consumed = s.active.consumed ∧ s'.heldCount = s.heldCount ∧
    ∀ call, (s'.step call).events = (s.step call).events := by
  have hrun := (alike_ofConfig hc hc' ht hn ho hl hs).run calls
  have hafter := hrun.recognizer
  exact ⟨hrun.events, hafter.pending, fun a => ⟨hafter.isPending a, hafter.isConsumed a⟩, hafter.consumed,
    hafter.heldCount, fun call => (hafter.step call).events⟩

/-- The chords of `Config.nested` in the other order, with the keys of the longer one in another order and a further
chord with the keys of the shorter one, which comes behind it. -/
def reordered : Config :=
  { Config.nested with
    chords := [⟨[⟨7⟩, ⟨22⟩, ⟨4⟩], ⟨26⟩⟩, ⟨[⟨4⟩, ⟨22⟩], ⟨20⟩⟩, ⟨[⟨22⟩, ⟨4⟩], ⟨99⟩⟩] }

/-- In the other order the roll presses the same action key, whose chord is now the second of the table. -/
theorem runs_agree_reordered :
    ∃ r r', ofConfig .nested = .ok r ∧ ofConfig reordered = .ok r' ∧
      (r'.run nestedRoll).events = [⟨⟨0, 1⟩, ⟨20⟩, .down, 5⟩, ⟨⟨0, 1⟩, ⟨20⟩, .up, 5⟩] ∧
      (r'.run nestedRoll).events = (r.run nestedRoll).events ∧
      (r.run (nestedRoll.take 4)).recognizer.active.registered.map (·.2.id) = [0] ∧
      (r'.run (nestedRoll.take 4)).recognizer.active.registered.map (·.2.id) = [1] := by
  refine ⟨_, _, rfl, rfl, by decide +kernel, ?_, by decide +kernel, by decide +kernel⟩
  exact (runs_agree (show ofConfig .nested = .ok _ from rfl) (show ofConfig reordered = .ok _ from rfl) rfl rfl rfl rfl
    (by decide) nestedRoll).1

end Recognizer

end Chording
