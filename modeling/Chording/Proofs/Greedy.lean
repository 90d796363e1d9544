import Chording.Proofs.ActivationOrder
import Chording.Proofs.Conservation
import Chording.Proofs.DeferredChords
import Chording.Proofs.ReleasedFronts

/-!
# Queues are resolved greedily

However a queue is resolved, it is read in one way (`ChordTable.Greedy`): again and again the longest front that spells
a chord becomes that chord, and if there is none the oldest press goes on as it came.  Rechecking, expiring and
resolving all of a queue differ only in how far they read.  So ticks and presses read a front of the queue
(`resolves_greedily`), and a flush reads all of it before it releases the action keys.
-/

namespace Chording

/-- The addresses that a resolution consumes: those of the presses that became a chord. -/
def Resolution.consumes : Resolution → List Address
  | replay _ => []
  | chord _ first others => (first :: others).map (·.addr)

namespace ChordTable

/-- The keys are those of a chord, each of them once, in any order. -/
def Spells (t : ChordTable) (keys : List KeyCode) : Prop :=
  ∃ chord ∈ t.chords, keys.Perm chord.keys

/-- One step of the greedy reading of a queue.  The longest front that spells a chord becomes the first chord defined
with its keys, and the oldest press goes on only if no front spells any. -/
inductive Takes (t : ChordTable) (queue : List Press) : Resolution → List Press → Prop
  | chord {e : Entry} {first : Press} {others rest : List Press} (hq : queue = first :: others ++ rest)
      (he : t.IsFirstWith ((first :: others).map (·.key)) e)
      (hlongest : ∀ front, front <+: queue → t.Spells (front.map (·.key)) → front.length ≤ (first :: others).length) :
      Takes t queue (.chord e first others) rest
  | replay {p : Press} {rest : List Press} (hq : queue = p :: rest)
      (hnone : ∀ front, front <+: queue → ¬t.Spells (front.map (·.key))) : Takes t queue (.replay p) rest

/-- The greedy reading of a queue up to the presses that are left. -/
inductive Greedy (t : ChordTable) : List Press → List Resolution → List Press → Prop
  | done (queue : List Press) : Greedy t queue [] queue
  | step {queue rest left : List Press} {s : Resolution} {ss : List Resolution} (h : t.Takes queue s rest)
      (h' : Greedy t rest ss left) : Greedy t queue (s :: ss) left

variable {t : ChordTable} {queue rest left : List Press} {s : Resolution} {ss : List Resolution}

/-! ### The greedy reading is unique -/

private theorem spells_iff {keys : List KeyCode} : t.Spells keys ↔ ∃ e, t.spelled? keys = some e := by
  constructor
  · rintro ⟨chord, hc, hp⟩
    obtain ⟨e, he⟩ := exists_isFirstWith hc hp
    exact ⟨e, spelled?_eq_some_iff.2 he⟩
  · rintro ⟨e, he⟩
    obtain ⟨hc, hp⟩ := perm_of_spelled? he
    exact ⟨e.chord, hc, hp⟩

private theorem spelled?_eq_none_iff {keys : List KeyCode} : t.spelled? keys = none ↔ ¬t.Spells keys := by
  rw [spells_iff, Option.eq_none_iff_forall_ne_some, not_exists]

private theorem IsFirstWith.spells {keys : List KeyCode} {e : Entry} (h : t.IsFirstWith keys e) : t.Spells keys :=
  spells_iff.2 ⟨e, spelled?_eq_some_iff.2 h⟩

private theorem Takes.unique {s' : Resolution} {rest' : List Press} (h : t.Takes queue s rest)
    (h' : t.Takes queue s' rest') : s = s' ∧ rest = rest' := by
  cases h with
  | @chord e first others _ hq he hlongest =>
    have hfront : first :: others <+: queue := ⟨rest, hq.symm⟩
    cases h' with
    | @chord e' first' others' _ hq' he' hlongest' =>
      have hfront' : first' :: others' <+: queue := ⟨rest', hq'.symm⟩
      have hlen : (first :: others).length = (first' :: others').length :=
        Nat.le_antisymm (hlongest' _ hfront he.spells) (hlongest _ hfront' he'.spells)
      obtain ⟨hsame, rfl⟩ := List.append_inj (hq.symm.trans hq') hlen
      cases hsame
      have hee : e = e' :=
        Option.some.inj ((spelled?_eq_some_iff.2 he).symm.trans (spelled?_eq_some_iff.2 he'))
      exact ⟨hee ▸ rfl, rfl⟩
    | replay _ hnone => exact absurd he.spells (hnone _ hfront)
  | replay hq hnone =>
    cases h' with
    | chord hq' he' _ => exact absurd he'.spells (hnone _ ⟨rest', hq'.symm⟩)
    | replay hq' _ =>
      cases hq.symm.trans hq'
      exact ⟨rfl, rfl⟩

private theorem not_takes_nil : ¬t.Takes [] s rest := by
  rintro (⟨hq, -, -⟩ | ⟨hq, -⟩) <;> cases hq

/-- There is one way to read all of a queue. -/
private theorem Greedy.unique {ss' : List Resolution} (h : t.Greedy queue ss []) (h' : t.Greedy queue ss' []) :
    ss = ss' := by
  generalize hleft : ([] : List Press) = left at h
  induction h generalizing ss' with
  | done queue =>
    subst hleft
    cases h' with
    | done => rfl
    | step ht _ => exact absurd ht not_takes_nil
  | step ht _ ih =>
    subst hleft
    cases h' with
    | done => exact absurd ht not_takes_nil
    | step ht' h' =>
      obtain ⟨rfl, rfl⟩ := ht.unique ht'
      rw [ih h' rfl]

private theorem Greedy.trans {ss' : List Resolution} {left' : List Press} (h : t.Greedy queue ss left)
    (h' : t.Greedy left ss' left') : t.Greedy queue (ss ++ ss') left' := by
  induction h with
  | done queue => exact h'
  | step ht _ ih => exact .step ht (ih h')

/-! ### Every way of resolving is greedy -/

/-- A front of the queue is given by its length. -/
private theorem spelled?_of_isPrefix {front : List Press} (h : front <+: queue) :
    t.spelled? (front.map (·.key)) = t.spelled? ((queue.map (·.key)).take front.length) := by
  rw [← List.map_take, ← List.prefix_iff_eq_take.1 h]

private theorem takes_of_longestFront? {first : Press} {others : List Press} {e : Entry}
    (h : t.longestFront? ((first :: others ++ rest).map (·.key)) = some (e, (first :: others).length)) :
    t.Takes (first :: others ++ rest) (.chord e first others) rest := by
  obtain ⟨-, -, hs⟩ := longestFrontUpTo?_eq_some h
  refine .chord rfl ?_ fun front hfront hspells => Nat.le_of_not_lt fun hlt => ?_
  · rw [← spelled?_eq_some_iff, spelled?_of_isPrefix (List.prefix_append _ rest)]
    exact hs
  · have hle : front.length ≤ ((first :: others ++ rest).map (·.key)).length := by
      rw [List.length_map]
      exact hfront.length_le
    have hnone := spelled?_of_longestFrontUpTo? h hlt hle
    rw [← spelled?_of_isPrefix hfront] at hnone
    exact spelled?_eq_none_iff.1 hnone hspells

private theorem takes_of_longestFront?_eq_none {p : Press} {ps : List Press}
    (h : t.longestFront? ((p :: ps).map (·.key)) = none) : t.Takes (p :: ps) (.replay p) ps := by
  refine .replay rfl fun front hfront => spelled?_eq_none_iff.1 ?_
  rw [spelled?_of_isPrefix hfront]
  refine longestFrontUpTo?_eq_none_iff.1 h _ ?_
  rw [List.length_map]
  exact hfront.length_le

private theorem takes_resolveFront (t : ChordTable) (p : Press) (ps : List Press) :
    t.Takes (p :: ps) (t.resolveFront p ps).1 (t.resolveFront p ps).2 := by
  cases h : t.longestFront? ((p :: ps).map (·.key)) with
  | none =>
    have hs : t.settle? (p :: ps) = none := Option.map_eq_none_iff.2 h
    rw [resolveFront, hs]
    exact takes_of_longestFront?_eq_none h
  | some x =>
    obtain ⟨e, n⟩ := x
    obtain ⟨hpos, hle, -⟩ := longestFrontUpTo?_eq_some h
    rw [List.length_map, List.length_cons] at hle
    obtain ⟨others, rest, rfl, rfl⟩ : ∃ others rest, ps = others ++ rest ∧ n = (p :: others).length :=
      ⟨ps.take (n - 1), ps.drop (n - 1), by simp, by simp; omega⟩
    have hfront : t.resolveFront p (others ++ rest) = (.chord e p others, rest) :=
      resolveFront_of_settle? (settle?_of_longestFront? h)
    rw [hfront]
    exact takes_of_longestFront? h

/-- Keys that are complete spell a chord all together, and no front is longer. -/
private theorem takes_of_complete {p : Press} {ps : List Press} {e : Entry}
    (h : t.classify ((p :: ps).map (·.key)) = .complete e) : t.Takes (p :: ps) (.chord e p ps) [] := by
  have hs : t.spelled? ((p :: ps).map (·.key)) = some e := by
    rw [spelled?, h]
    rfl
  have hq : p :: ps = p :: ps ++ [] := (List.append_nil _).symm
  exact .chord hq (spelled?_eq_some_iff.1 hs) fun front hfront _ => hfront.length_le

private theorem greedy_recheck (t : ChordTable) (queue : List Press) :
    t.Greedy queue (t.recheck queue).resolutions (t.recheck queue).queue := by
  fun_induction recheck t queue with
  | case1 => exact .done []
  | case2 p ps e h => exact .step (takes_of_complete h) (.done [])
  | case3 p ps => exact .done (p :: ps)
  | case4 p ps => exact .done (p :: ps)
  | case5 p ps h ih => exact .step (t.takes_resolveFront p ps) ih

private theorem greedy_expire (t : ChordTable) (timeout now : Nat) (queue : List Press) :
    t.Greedy queue (t.expire timeout now queue).resolutions (t.expire timeout now queue).queue := by
  fun_induction expire t timeout now queue with
  | case1 => exact .done []
  | case2 p ps => exact .done (p :: ps)
  | case3 p ps h r ih =>
    have hfront : t.Greedy (p :: ps) r.resolutions r.queue :=
      .step (t.takes_resolveFront p ps) (t.greedy_recheck _)
    exact hfront.trans ih

private theorem greedy_resolveAll (t : ChordTable) (queue : List Press) : t.Greedy queue (t.resolveAll queue) [] := by
  fun_induction resolveAll t queue with
  | case1 => exact .done []
  | case2 p ps ih => exact .step (t.takes_resolveFront p ps) ih

end ChordTable

namespace Recognizer

variable {r r₀ : Recognizer} {event : KeyEvent} {layers : ActiveLayers} {ss : List Resolution} {now : Nat}

/-- The outcome is that of resolving a part of the queue that the greedy reading takes. -/
def ResolvesGreedily (r : Recognizer) (now : Nat) (o : Outcome) : Prop :=
  ∃ ss left, r.table.Greedy r.pending.entries ss left ∧ o = r.resolve now ⟨ss, left⟩

/-- A press that would be held finds the queue full. -/
def Overflows (r : Recognizer) (event : KeyEvent) : Prop :=
  r.table.isParticipant event.key = true ∧ r.Idle event.addr ∧ ¬r.pending.size < r.pending.capacity

instance (r : Recognizer) (event : KeyEvent) : Decidable (r.Overflows event) :=
  inferInstanceAs (Decidable (_ ∧ _))

/-! ### Ticks and presses -/

private theorem resolvesGreedily_nothing (r : Recognizer) (now : Nat) : r.ResolvesGreedily now ⟨r, []⟩ :=
  ⟨[], r.pending.entries, .done _, rfl⟩

private theorem resolvesGreedily_resolveAll (r : Recognizer) (now : Nat) :
    r.ResolvesGreedily now (r.resolve now ⟨r.table.resolveAll r.pending.entries, []⟩) :=
  ⟨_, [], r.table.greedy_resolveAll _, rfl⟩

private theorem resolvesGreedily_tick (r : Recognizer) (now : Nat) : r.ResolvesGreedily now (r.tick now) := by
  by_cases h0 : r.timeout = 0
  · rw [tick, if_pos h0]
    exact r.resolvesGreedily_nothing now
  · rw [tick_of_ne_zero h0]
    exact ⟨_, _, r.table.greedy_expire _ _ _, rfl⟩

/-- An unsuppressed press that finds room resolves a part of the queue, with itself behind it if it is accepted, and
then goes on if it is never held. -/
private theorem exists_resolvesGreedily_press (he : event.edge = .down) (hs : r.isSuppressed layers = false)
    (hroom : ¬r.Overflows event) :
    ∃ o, (r.withQueue (r.pending.entries ++ (r.accepted? event layers).toList)).ResolvesGreedily event.time o ∧
      r.key event layers = ⟨o.recognizer, o.emissions ++ (r.unheld? event layers).toList.map .passed⟩ := by
  rw [key_of_down he]
  cases hp : r.table.isParticipant event.key with
  | false =>
    have hnone : r.accepted? event layers = none := by simp [accepted?, hp]
    have hown : r.unheld? event layers = some event := by simp [unheld?, he, hp]
    rw [hnone, hown, press_of_foreign hs hp, Option.toList_none, List.append_nil]
    exact ⟨_, r.resolvesGreedily_resolveAll event.time, rfl⟩
  | true =>
    have hown : r.unheld? event layers = none := by simp [unheld?, hs, hp]
    rw [hown, Option.toList_none, List.map_nil]
    by_cases hb : r.isPending event.addr = true ∨ r.isConsumed event.addr = true
    · have hnone : r.accepted? event layers = none := by
        refine if_neg fun hall => ?_
        simp [hall] at hb
      rw [hnone, press_of_busy hs hp hb, Option.toList_none, List.append_nil]
      exact ⟨_, r.resolvesGreedily_nothing event.time, rfl⟩
    · simp only [not_or, Bool.not_eq_true] at hb
      have hlt : r.pending.size < r.pending.capacity := by
        by_contra hfull
        exact hroom ⟨hp, hb, hfull⟩
      have hsome : r.accepted? event layers = some (.ofEvent event) :=
        if_pos ⟨he, hs, hp, hb.1, hb.2, Or.inl hlt⟩
      rw [hsome, press_of_idle hs hp hb.1 hb.2, hold_of_lt hlt]
      refine ⟨_, ⟨_, _, r.table.greedy_recheck _, rfl⟩, ?_⟩
      rw [List.append_nil]
      rfl

/-! ### Flushes -/

/-- What a flush does to a queue that is read as these resolutions: they go on first, and then the releases of all
action keys that are held then.  Nothing is held any more, the addresses that chords took are still consumed, and there
is nothing left to flush. -/
structure Flushes (r : Recognizer) (ss : List Resolution) (now : Nat) (o : Outcome) : Prop where
  events_eq : o.events = (r.resolve now ⟨ss, []⟩).events ++
    (r.resolve now ⟨ss, []⟩).recognizer.active.held.map (·.release now)
  entries_eq : o.recognizer.pending.entries = []
  held_eq : o.recognizer.active.held = []
  isConsumed_iff : ∀ a, o.recognizer.isConsumed a = true ↔
    r.isConsumed a = true ∨ a ∈ ss.flatMap Resolution.consumes
  again : ∀ later, o.recognizer.flush later = ⟨o.recognizer, []⟩

private theorem isConsumed_resolve (h : r.Coherent) {queue : List Press}
    (hq : r.pending.entries = ss.flatMap Resolution.presses ++ queue) (now : Nat) (a : Address) :
    (r.resolve now ⟨ss, queue⟩).recognizer.isConsumed a = true ↔
      r.isConsumed a = true ∨ a ∈ ss.flatMap Resolution.consumes := by
  -- each resolution takes its presses from the front of what the ones before it left
  induction ss generalizing r with
  | nil => exact (or_iff_left List.not_mem_nil).symm
  | cons s ss ih =>
    rw [List.flatMap_cons, List.append_assoc] at hq
    rw [List.flatMap_cons, List.mem_append]
    cases s with
    | replay p =>
      have hcoh := h.sublist (hq ▸ List.sublist_append_right [p] _)
      refine (ih hcoh rfl).trans (or_congr_right ?_)
      exact (or_iff_right List.not_mem_nil).symm
    | chord e first others =>
      have hfirst := h.isConsumed_activate hq e.id e.chord.action now (a := a)
      rw [← List.mem_map] at hfirst
      exact (ih (h.activate hq e.id e.chord.action now) rfl).trans ((or_congr_left hfirst).trans or_assoc)

private theorem releaseAll_of_held_eq_nil {a : ActiveChords} (h : a.held = []) (now : Nat) :
    a.releaseAll now = ⟨a, []⟩ := by
  have hnone : ∀ x ∈ a.registered, x.2.held = false := by
    intro x hx
    simpa using List.filter_eq_nil_iff.1 h x.2 (List.mem_map_of_mem hx)
  have hsame : (a.releaseAll now).active.registered = a.registered := by
    refine (List.map_congr_left fun x hx => ?_).trans (List.map_id _)
    rw [id, ← hnone x hx]
  calc a.releaseAll now
      = ⟨{ a with registered := (a.releaseAll now).active.registered }, a.held.map (·.release now)⟩ := rfl
    _ = ⟨a, []⟩ := by rw [hsame, h, List.map_nil]

/-- Without presses and action keys that are held there is nothing to flush. -/
private theorem flush_of_quiet (hq : r.pending.entries = []) (hh : r.active.held = []) (now : Nat) :
    r.flush now = ⟨r, []⟩ := by
  have hnothing : r.resolve now ⟨r.table.resolveAll r.pending.entries, []⟩ = ⟨r, []⟩ := by
    rw [hq, ChordTable.resolveAll, ← hq]
    rfl
  rw [flush_eq, hnothing, letGo, releaseAll_of_held_eq_nil hh]
  rfl

private theorem flushes_flush (h : r.Coherent) (now : Nat) :
    r.Flushes (r.table.resolveAll r.pending.entries) now (r.flush now) := by
  have hall : r.pending.entries = (r.table.resolveAll r.pending.entries).flatMap Resolution.presses ++ [] := by
    rw [List.append_nil, ChordTable.presses_resolveAll]
  have hheld : (r.flush now).recognizer.active.held = [] := ActiveChords.held_releaseAll _ now
  refine ⟨?_, rfl, hheld, fun a => isConsumed_resolve h hall now a, fun later => flush_of_quiet rfl hheld later⟩
  rw [flush_eq, Outcome.events_after, letGo, Outcome.events, map_event_released]
  rfl

/-- The action keys that a flush releases are registered in the order in which their chords were activated. -/
private theorem exists_inOrder_flush (hf : r₀.Fresh) (past : List Call) (now : Nat) :
    let r := (r₀.run past).recognizer
    activations ((r₀.run past).emissions ++ (r.flush now).emissions) < UInt32.size →
      ∃ history, history <:+ activated ((r₀.run past).emissions ++ (r.flush now).emissions) ∧
        (r.resolve now ⟨r.table.resolveAll r.pending.entries, []⟩).recognizer.active.InOrder history := by
  intro r hlt
  obtain ⟨releases, hflush⟩ : ∃ releases : List KeyEvent, (r.flush now).emissions =
      (r.resolve now ⟨r.table.resolveAll r.pending.entries, []⟩).emissions ++ releases.map .released := ⟨_, rfl⟩
  rw [hflush, activations_append, activations_append, activations_released, Nat.add_zero] at hlt
  rw [hflush, activated_append, activated_append, activated_released, List.append_nil]
  have hstart : ([] : List ActiveChord).length + activations (r₀.run past).emissions < UInt32.size := by
    rw [List.length_nil]
    omega
  obtain ⟨history, hsuffix, hordered⟩ := (ordered_of_fresh hf).run hstart
  rw [List.nil_append] at hsuffix
  have hlen : history.length ≤ activations (r₀.run past).emissions :=
    length_activated (r₀.run past).emissions ▸ hsuffix.length_le
  have hmoves : Moves r [] (r.resolve now ⟨r.table.resolveAll r.pending.entries, []⟩).emissions _ :=
    moves_resolve (r.table.resolves_resolveAll r.pending.entries)
  obtain ⟨before, hbefore⟩ := hsuffix
  refine ⟨_, ⟨before, ?_⟩, (hordered.moves hmoves (by omega)).inOrder⟩
  rw [← List.append_assoc, hbefore]

/-- For every reachable state: ticks, and presses that are neither suppressed nor find the queue full, resolve it
greedily, and a press of a key in no chord and a flush read all of it.  There is one such reading.  A flush then releases
the action keys in the order in which their chords were activated, as long as the slots do not start again. -/
theorem resolves_greedily {c : Config} (hc : ofConfig c = .ok r₀) (past : List Call) :
    let r := (r₀.run past).recognizer
    (∀ now, r.ResolvesGreedily now (r.tick now)) ∧
    (∀ event layers, event.edge = .down → r.isSuppressed layers = false → ¬r.Overflows event →
      ∃ o, (r.withQueue (r.pending.entries ++ (r.accepted? event layers).toList)).ResolvesGreedily event.time o ∧
        r.key event layers = ⟨o.recognizer, o.emissions ++ (r.unheld? event layers).toList.map .passed⟩) ∧
    ∃ ss, (∀ ss', r.table.Greedy r.pending.entries ss' [] ↔ ss' = ss) ∧
      (∀ event layers, event.edge = .down → r.isSuppressed layers = false → r.table.isParticipant event.key = false →
        r.key event layers =
          ((r.resolve event.time ⟨ss, []⟩).recognizer.pass event).after (r.resolve event.time ⟨ss, []⟩).emissions) ∧
      ∀ now, r.Flushes ss now (r.flush now) ∧
        (activations ((r₀.run past).emissions ++ (r.flush now).emissions) < UInt32.size →
          ∃ history, history <:+ activated ((r₀.run past).emissions ++ (r.flush now).emissions) ∧
            (r.resolve now ⟨ss, []⟩).recognizer.active.InOrder history ∧
            (r.resolve now ⟨ss, []⟩).recognizer.active.held.Sublist history) := by
  intro r
  have hfresh := fresh_ofConfig hc
  have hcoh : r.Coherent := (coherent_of_fresh hfresh).run past
  have hall := r.table.greedy_resolveAll r.pending.entries
  refine ⟨r.resolvesGreedily_tick, fun event layers he hs hroom => exists_resolvesGreedily_press he hs hroom,
    r.table.resolveAll r.pending.entries, fun ss' => ⟨fun h => h.unique hall, fun h => h ▸ hall⟩,
    fun event layers he hs hp => (key_of_down he layers).trans (press_of_foreign hs hp), fun now => ?_⟩
  refine ⟨flushes_flush hcoh now, fun hlt => ?_⟩
  obtain ⟨history, hsuffix, horder⟩ := exists_inOrder_flush hfresh past now hlt
  exact ⟨history, hsuffix, horder, horder.held_sublist⟩

/-- All four keys of two shorter chords are held back for a longer one, and a flush turns them into the two chords. -/
theorem resolves_greedily_twoPairs :
    ∃ r₀, ofConfig twoPairs = .ok r₀ ∧
      let r := (r₀.run pairsPressed).recognizer
      r.ResolvesGreedily 2000 (r.tick 2000) ∧
      (∃ o, (r.withQueue (r.pending.entries ++ [⟨⟨0, 4⟩, ⟨10⟩, 4⟩])).ResolvesGreedily 4 o ∧
        r.key ⟨⟨0, 4⟩, ⟨10⟩, .down, 4⟩ (fun _ => false) = o) ∧
      (∃ ss, r.table.Greedy r.pending.entries ss [] ∧ r.Flushes ss 10 (r.flush 10) ∧
        (r.key ⟨⟨0, 4⟩, ⟨30⟩, .down, 10⟩ fun _ => false).emissions =
          ss.map (.resolved · 10) ++ [.passed ⟨⟨0, 4⟩, ⟨30⟩, .down, 10⟩] ∧
        ∃ history, history <:+ activated ((r₀.run pairsPressed).emissions ++ (r.flush 10).emissions) ∧
          (r.resolve 10 ⟨ss, []⟩).recognizer.active.InOrder history) ∧
      (r.flush 10).events =
        [⟨⟨0, 0⟩, ⟨20⟩, .down, 10⟩, ⟨⟨0, 2⟩, ⟨26⟩, .down, 10⟩, ⟨⟨0, 0⟩, ⟨20⟩, .up, 10⟩, ⟨⟨0, 2⟩, ⟨26⟩, .up, 10⟩] := by
  refine ⟨_, rfl, ?_⟩
  intro r
  obtain ⟨htick, hpress, ss, hread, hforeign, hflush⟩ := resolves_greedily (c := twoPairs) rfl pairsPressed
  obtain ⟨o, ho, hkey⟩ := hpress ⟨⟨0, 4⟩, ⟨10⟩, .down, 4⟩ (fun _ => false) rfl (by decide +kernel) (by decide +kernel)
  have hheld : r.accepted? ⟨⟨0, 4⟩, ⟨10⟩, .down, 4⟩ (fun _ => false) = some ⟨⟨0, 4⟩, ⟨10⟩, 4⟩ := by decide +kernel
  have hown : r.unheld? ⟨⟨0, 4⟩, ⟨10⟩, .down, 4⟩ (fun _ => false) = none := by decide +kernel
  rw [hheld] at ho
  rw [hown, Option.toList_none, List.map_nil, List.append_nil] at hkey
  obtain ⟨hflush, horder⟩ := hflush 10
  obtain ⟨history, hsuffix, hin, -⟩ := horder (by decide +kernel)
  have hpass := hforeign ⟨⟨0, 4⟩, ⟨30⟩, .down, 10⟩ (fun _ => false) rfl (by decide +kernel) (by decide +kernel)
  refine ⟨htick 2000, ⟨o, ho, hkey⟩, ⟨ss, (hread ss).2 rfl, hflush, ?_, history, hsuffix, hin⟩, by decide +kernel⟩
  rw [hpass]
  rfl

end Recognizer

end Chording
