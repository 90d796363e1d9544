import Chording.Proofs.ActionKeys

/-!
# Chords are recognized in any order

The keys of a chord that no other chord contains are pressed one after another, in any order, into an empty queue
(`Roll`).  As long as one of them is missing, the presses are worth waiting for, whatever other chords there are;
with the last of them the chord is complete.  After that its action key is released with the first of its addresses,
and the releases of the others are swallowed (`recognizes_roll`).
-/

namespace Chording

namespace Recognizer

variable {r s : Recognizer} {event : KeyEvent} {layers : ActiveLayers} {chord : Chord} {calls front : List Call}

/-! ### Rolls -/

/-- The presses among the events of calls. -/
def pressesOf (calls : List Call) : List KeyEvent :=
  (calls.flatMap Call.events).filter (·.edge = .down)

/-- What may come between the presses of a chord: presses while no disabled layer is active, releases elsewhere, and
ticks before the first press is too old. -/
inductive Allows (r : Recognizer) (presses : List KeyEvent) : Call → Prop
  | press {event : KeyEvent} {layers : ActiveLayers} (he : event.edge = .down) (hs : r.isSuppressed layers = false) :
      Allows r presses (.key event layers)
  | release {event : KeyEvent} {layers : ActiveLayers} (he : event.edge = .up)
      (ha : event.addr ∉ presses.map (·.addr)) : Allows r presses (.key event layers)
  | tick {now : Nat} (h : r.timeout = 0 ∨ ∀ first ∈ presses.head?, now - first.time ≤ r.timeout.toNat) :
      Allows r presses (.tick now)

/-- The keys of a chord are pressed one after another, in any order, at different addresses that are idle, and the
last call is the last press. -/
structure Roll (r : Recognizer) (chord : Chord) (calls : List Call) : Prop where
  keys_perm : ((pressesOf calls).map (·.key)).Perm chord.keys
  nodup_addr : ((pressesOf calls).map (·.addr)).Nodup
  idle : ∀ e ∈ pressesOf calls, r.Idle e.addr
  allowed : ∀ call ∈ calls, r.Allows (pressesOf calls) call
  ends_with_press : ∃ event layers, event.edge = .down ∧ calls.getLast? = some (.key event layers)

private theorem pressesOf_append (calls calls' : List Call) :
    pressesOf (calls ++ calls') = pressesOf calls ++ pressesOf calls' := by
  rw [pressesOf, List.flatMap_append, List.filter_append]
  rfl

private theorem pressesOf_cons_down (he : event.edge = .down) (layers : ActiveLayers) (calls : List Call) :
    pressesOf (.key event layers :: calls) = event :: pressesOf calls := by
  simp [pressesOf, Call.events, he]

private theorem pressesOf_down (he : event.edge = .down) (layers : ActiveLayers) :
    pressesOf [.key event layers] = [event] :=
  pressesOf_cons_down he layers []

private theorem pressesOf_up (he : event.edge = .up) (layers : ActiveLayers) : pressesOf [.key event layers] = [] := by
  simp [pressesOf, Call.events, he]

/-- The queue after some presses of a roll: all of them are held, and no address of the roll is consumed. -/
structure Gathered (presses pressed : List KeyEvent) (s : Recognizer) : Prop where
  entries : s.pending.entries = pressed.map .ofEvent
  unconsumed : ∀ e ∈ presses, s.isConsumed e.addr = false

/-- As long as a key is missing, the keys of a chord are worth waiting for. -/
private theorem viable_of_missing {t : ChordTable} (hc : chord ∈ t.chords) {pressed more : List KeyEvent}
    (hk : ((pressed ++ more).map (·.key)).Perm chord.keys) (hmore : more ≠ []) : t.Viable (pressed.map (·.key)) := by
  obtain ⟨next, more, rfl⟩ := List.exists_cons_of_ne_nil hmore
  have hn := hk.nodup_iff.2 chord.nodup_keys
  have hsub := hk.subset
  rw [List.map_append, List.nodup_append, List.map_cons] at hn
  rw [List.map_append, List.append_subset, List.map_cons, List.cons_subset] at hsub
  refine Or.inr ⟨hn.1, chord, hc, hsub.1, next.key, hsub.2.1, fun hm => ?_⟩
  exact hn.2.2 _ hm _ List.mem_cons_self rfl

private theorem Gathered.releaseIdle {presses pressed : List KeyEvent} (hg : Gathered presses pressed s)
    (event : KeyEvent) : Gathered presses pressed (s.releaseIdle event).recognizer := by
  cases hr : s.active.release? event.addr event.time with
  | none =>
    rw [releaseIdle_of_not_consumed (ActiveChords.release?_eq_none_iff.1 hr)]
    exact ⟨hg.entries, hg.unconsumed⟩
  | some change =>
    rw [releaseIdle_of_release? hr]
    refine ⟨hg.entries, fun e he => Bool.eq_false_iff.2 fun hc => ?_⟩
    exact Bool.false_ne_true ((hg.unconsumed e he).symm.trans ((ActiveChords.isConsumed_release? hr).1 hc).1)

namespace Roll

variable {pressed more : List KeyEvent}

/-- The next press of a roll finds its address idle and room in the queue, and is of a key that takes part in
chords. -/
private theorem next (h : r.Roll chord calls) (hc : chord ∈ r.table.chords)
    (hroom : chord.keys.length ≤ r.pending.capacity)
    (hset : r.SameSettings s) (hg : Gathered (pressesOf calls) pressed s)
    (hnext : pressesOf calls = pressed ++ event :: more) :
    s.Idle event.addr ∧ s.table.isParticipant event.key = true ∧ s.pending.size < s.pending.capacity := by
  have hmem : event ∈ pressesOf calls := hnext ▸ List.mem_append_right _ List.mem_cons_self
  refine ⟨⟨isPending_eq_false.2 fun p hp heq => ?_, hg.unconsumed event hmem⟩, ?_, ?_⟩
  · rw [hg.entries] at hp
    obtain ⟨e, he, rfl⟩ := List.mem_map.1 hp
    have hn := h.nodup_addr
    rw [hnext, List.map_append, List.nodup_append] at hn
    exact hn.2.2 _ (List.mem_map_of_mem he) _ List.mem_cons_self heq
  · rw [hset.table, ChordTable.isParticipant_iff]
    exact ⟨chord, hc, h.keys_perm.subset (List.mem_map_of_mem hmem)⟩
  · have hlen := h.keys_perm.length_eq
    rw [hnext, List.length_map, List.length_append, List.length_cons] at hlen
    rw [hset.capacity, PendingQueue.size, hg.entries, List.length_map]
    omega

private theorem isSuppressed_eq (hset : r.SameSettings s) (layers : ActiveLayers) :
    s.isSuppressed layers = r.isSuppressed layers := by
  rw [isSuppressed, hset.disabledLayers]
  rfl

/-- A press that is not the last one is held. -/
private theorem press_waits (h : r.Roll chord calls) (hc : chord ∈ r.table.chords)
    (hroom : chord.keys.length ≤ r.pending.capacity) (hset : r.SameSettings s)
    (hg : Gathered (pressesOf calls) pressed s) (hnext : pressesOf calls = pressed ++ event :: more)
    (hmore : more ≠ []) (hs : r.isSuppressed layers = false) :
    s.press event layers = ⟨s.withQueue (s.pending.entries ++ [.ofEvent event]), []⟩ := by
  obtain ⟨hi, hp, hlt⟩ := h.next hc hroom hset hg hnext
  refine press_of_viable ((isSuppressed_eq hset layers).trans hs) hp hi hlt ?_
  have hk := h.keys_perm
  rw [hnext, List.append_cons] at hk
  have hv := viable_of_missing hc hk hmore
  rw [hset.table, hg.entries]
  simpa [Function.comp_def] using hv

private theorem exists_last (h : r.Roll chord calls) :
    ∃ before last layers, last.edge = .down ∧ r.isSuppressed layers = false ∧ calls = before ++ [.key last layers] ∧
      pressesOf calls = pressesOf before ++ [last] := by
  obtain ⟨last, layers, hl, hlast⟩ := h.ends_with_press
  obtain ⟨before, hcalls⟩ := List.getLast?_eq_some_iff.1 hlast
  refine ⟨before, last, layers, hl, ?_, hcalls, by rw [hcalls, pressesOf_append, pressesOf_down hl]⟩
  cases h.allowed (.key last layers) (by rw [hcalls]; simp) with
  | press _ hs => exact hs
  | release he _ => exact absurd (hl.symm.trans he) (by simp)

/-- All presses before the last one are held, whatever else happens between them. -/
private theorem gathered (h : r.Roll chord calls) (hc : chord ∈ r.table.chords)
    (hroom : chord.keys.length ≤ r.pending.capacity) (hq : r.pending.entries = []) {last : KeyEvent}
    {before : List Call} (hcalls : calls = before ++ [.key last layers]) (hl : last.edge = .down)
    {rest : List Call} (hfront : before = front ++ rest) :
    Gathered (pressesOf calls) (pressesOf front) (r.run front).recognizer := by
  refine front_induction (P := fun front s => Gathered (pressesOf calls) (pressesOf front) s)
    ⟨hq, fun e he => (h.idle e he).2⟩ ?_ hfront
  intro front call rest hsplit hg
  have hset := r.sameSettings_run front
  have hpresses : pressesOf calls = pressesOf front ++ (pressesOf [call] ++ (pressesOf rest ++ [last])) := by
    rw [hcalls, hsplit, pressesOf_append, pressesOf_down hl, pressesOf_append, List.append_assoc,
      ← List.singleton_append, pressesOf_append, List.append_assoc]
  rw [pressesOf_append]
  cases h.allowed call (by rw [hcalls, hsplit]; simp) with
  | @press event layers he hs =>
    rw [pressesOf_down he] at hpresses ⊢
    show Gathered _ _ ((r.run front).recognizer.key event layers).recognizer
    rw [key_of_down he, h.press_waits hc hroom hset hg hpresses (by simp) hs]
    constructor
    · show (r.run front).recognizer.pending.entries ++ [Press.ofEvent event] = _
      rw [hg.entries, List.map_append]
      rfl
    · exact hg.unconsumed
  | @release event layers he ha =>
    rw [pressesOf_up he, List.append_nil]
    show Gathered _ _ ((r.run front).recognizer.key event layers).recognizer
    have hi : (r.run front).recognizer.isPending event.addr = false := by
      refine isPending_eq_false.2 fun p hp heq => ha ?_
      rw [hg.entries] at hp
      obtain ⟨e, he, rfl⟩ := List.mem_map.1 hp
      rw [hpresses, List.map_append]
      exact List.mem_append_left _ (heq ▸ List.mem_map_of_mem he)
    rw [key_of_up he, release_of_not_pending hi]
    exact hg.releaseIdle event
  | @tick now hyoung =>
    rw [show pressesOf [Call.tick now] = [] from rfl, List.append_nil]
    show Gathered _ _ ((r.run front).recognizer.tick now).recognizer
    rw [tick_of_young]
    · exact hg
    · rw [hset.timeout, hg.entries]
      refine hyoung.imp_right fun hyoung p hp => ?_
      rw [List.head?_map] at hp
      obtain ⟨first, hfirst, rfl⟩ := Option.map_eq_some_iff.1 hp
      refine hyoung first ?_
      rw [hpresses, List.head?_append, hfirst]
      rfl

/-- A press before the last one forwards nothing. -/
private theorem silent (h : r.Roll chord calls) (hc : chord ∈ r.table.chords)
    (hroom : chord.keys.length ≤ r.pending.capacity)
    (hq : r.pending.entries = []) {last : KeyEvent} {before rest : List Call} {layers' : ActiveLayers}
    (hcalls : calls = before ++ [.key last layers]) (hl : last.edge = .down)
    (hfront : before = front ++ .key event layers' :: rest) (he : event.edge = .down) :
    ((r.run front).recognizer.key event layers').events = [] := by
  have hg := h.gathered hc hroom hq hcalls hl hfront
  have hnext : pressesOf calls = pressesOf front ++ event :: (pressesOf rest ++ [last]) := by
    rw [hcalls, hfront, pressesOf_append, pressesOf_append, pressesOf_cons_down he, pressesOf_down hl,
      List.append_assoc]
    rfl
  have hs : r.isSuppressed layers' = false := by
    cases h.allowed (.key event layers') (by rw [hcalls, hfront]; simp) with
    | press _ hs => exact hs
    | release hup _ => exact absurd (he.symm.trans hup) (by simp)
  rw [key_of_down he, h.press_waits hc hroom (r.sameSettings_run front) hg hnext (by simp) hs]
  rfl

/-- The last press turns all presses of a roll into the first chord with their keys. -/
private theorem press_completes (h : r.Roll chord calls) (hc : chord ∈ r.table.chords)
    (hmax : ∀ other ∈ r.table.chords, chord.keys ⊆ other.keys → other.keys ⊆ chord.keys)
    (hroom : chord.keys.length ≤ r.pending.capacity) (hset : r.SameSettings s)
    (hg : Gathered (pressesOf calls) pressed s) (hlast : pressesOf calls = pressed ++ [event])
    (hs : r.isSuppressed layers = false) {e : Entry} (he : r.table.IsFirstWith chord.keys e) {first : Press}
    {others : List Press} (hq : s.pending.entries ++ [.ofEvent event] = first :: others) :
    s.press event layers = ⟨s.formed e first others event.time, [.resolved (.chord e first others) event.time]⟩ := by
  obtain ⟨hi, hp, hlt⟩ := h.next hc hroom hset hg hlast
  have hkeys : (first :: others).map (·.key) = (pressesOf calls).map (·.key) := by
    rw [← hq, hg.entries, hlast]
    simp [Function.comp_def]
  refine press_of_complete ((isSuppressed_eq hset layers).trans hs) hp hi hlt hq ?_
  rw [hkeys, hset.table]
  refine ChordTable.classify_of_maximal (he.of_perm h.keys_perm) fun other ho hsub => ?_
  -- another chord with all these keys has no further ones
  have hback := hmax other ho (List.Subset.trans h.keys_perm.symm.subset hsub)
  rw [h.keys_perm.length_eq]
  exact (List.subperm_of_subset other.nodup_keys hback).length_le

end Roll

/-! ### The whole gesture -/

/-- If the keys of a chord that no other chord strictly contains are pressed into an empty queue with room for them,
in any order, the presses before the last one forward nothing, and the last one forwards the press of the action key
of the first chord with these keys, at the address of the first press.  Whatever the order in which the addresses are
released after that, the first release forwards the release of the action key, the others forward nothing, and no
address stays consumed. -/
theorem recognizes_roll {c : Config} {r₀ : Recognizer} (hc : ofConfig c = .ok r₀) (past : List Call) {chord : Chord}
    {calls : List Call} :
    let r := (r₀.run past).recognizer
    r.pending.entries = [] → chord ∈ r.table.chords →
    (∀ other ∈ r.table.chords, chord.keys ⊆ other.keys → other.keys ⊆ chord.keys) →
    chord.keys.length ≤ c.capacity.toNat → r.Roll chord calls →
    ∃ first e, (pressesOf calls).head? = some first ∧ r.table.IsFirstWith chord.keys e ∧
      (∀ front event layers rest, calls = front ++ .key event layers :: rest → event.edge = .down →
        ((r.run front).recognizer.key event layers).events =
          if rest = [] then [⟨first.addr, e.chord.action, .down, event.time⟩] else []) ∧
      ∀ ups : List Call, (∀ call ∈ ups, ∃ event layers, call = .key event layers ∧ event.edge = .up) →
        (addrsOf ups).Perm ((pressesOf calls).map (·.addr)) →
        let s := (r.run calls).recognizer
        (∀ front event layers rest, ups = front ++ .key event layers :: rest →
          ((s.run front).recognizer.key event layers).events =
            if front = [] then [⟨first.addr, e.chord.action, .up, event.time⟩] else []) ∧
        ∀ event ∈ pressesOf calls, (s.run ups).recognizer.isConsumed event.addr = false := by
  intro r hq hchord hmax hcap hroll
  have hcoh : r.Coherent := (coherent_of_fresh (fresh_ofConfig hc)).run past
  have hroom : chord.keys.length ≤ r.pending.capacity := capacity_run hc past ▸ hcap
  obtain ⟨e, he⟩ := ChordTable.exists_isFirstWith hchord (.refl _)
  obtain ⟨before, last, layers, hl, hs, hcalls, hpresses⟩ := hroll.exists_last
  obtain ⟨first, more, hfirst⟩ : ∃ first more, pressesOf calls = first :: more :=
    List.exists_cons_of_ne_nil (by simp [hpresses])
  -- the last press finds all others in the queue, and makes the chord
  have hg := hroll.gathered hchord hroom hq hcalls hl (List.append_nil before).symm
  have hset := r.sameSettings_run before
  have hqueue : (r.run before).recognizer.pending.entries ++ [.ofEvent last] = .ofEvent first :: more.map .ofEvent := by
    rw [hg.entries, ← List.map_cons, ← hfirst, hpresses, List.map_append]
    rfl
  have hdone := (key_of_down hl layers).trans
    (hroll.press_completes hchord hmax hroom hset hg hpresses hs he hqueue)
  refine ⟨first, e, by rw [hfirst]; rfl, he, fun front event layers' rest hsplit hdown => ?_, fun ups hups haddrs => ?_⟩
  · rcases List.eq_nil_or_concat' rest with rfl | ⟨rest, call, rfl⟩
    · obtain ⟨rfl, hcall⟩ := List.append_inj' (hcalls.symm.trans hsplit) rfl
      obtain ⟨rfl, rfl⟩ : last = event ∧ layers = layers' := by simpa using hcall
      rw [hdone, if_pos rfl]
      rfl
    · rw [if_neg (by simp)]
      have hfront : before = front ++ .key event layers' :: rest := by
        have heq : before ++ [.key last layers] = (front ++ .key event layers' :: rest) ++ [call] := by
          rw [← hcalls, hsplit]
          simp
        exact (List.append_inj' heq rfl).1
      exact hroll.silent hchord hroom hq hcalls hl hfront hdown
  · intro s
    -- the queue with the last press in it is what the chord takes
    obtain ⟨hi, -, hlt⟩ := hroll.next hchord hroom hset hg hpresses
    have hheld := (hcoh.run before).hold hi.1 hi.2 hlt
    have hstart := LettingGo.start hheld hqueue e last.time
    have hs : s = ((r.run before).recognizer.key last layers).recognizer := by
      show (r.run calls).recognizer = _
      rw [hcalls, recognizer_run_concat]
      rfl
    have haddrs' : (pressesOf calls).map (·.addr) = (Press.ofEvent first :: more.map .ofEvent).map (·.addr) := by
      rw [hfirst]
      simp
    have hgo : LettingGo (r.run before).recognizer.active.nextSlot ⟨e.id, e.chord.action, first.addr, true⟩
        ((pressesOf calls).map (·.addr)) [] s := by
      rw [haddrs', hs, hdone]
      exact hstart
    have hscoh : s.Coherent := hcoh.run calls
    refine ⟨fun front event layers rest hsplit => ?_, fun event hevent => ?_⟩
    · obtain ⟨hmem, hnew⟩ := mem_of_split haddrs hroll.nodup_addr hsplit
      have hup : event.edge = .up := by
        obtain ⟨event', layers', heq, hup⟩ := hups (.key event layers) (by rw [hsplit]; simp)
        cases heq
        exact hup
      exact ((hgo.run hscoh hups haddrs hroll.nodup_addr hsplit).release (hscoh.run front) hup hmem hnew layers).1
    · have hend := hgo.run hscoh hups haddrs hroll.nodup_addr (List.append_nil ups).symm
      exact hend.freed _ (haddrs.symm.subset (List.mem_map_of_mem hevent))

/-- The chord with more keys of the two that begin alike. -/
def longerChord : Chord :=
  ⟨[⟨4⟩, ⟨22⟩, ⟨7⟩], ⟨26⟩, by decide, by decide, by decide⟩

/-- The shorter chord is pressed, and one of its keys is let go; the other one stays down. -/
def nestedPast : List Call :=
  [.key ⟨⟨1, 1⟩, ⟨4⟩, .down, 0⟩ fun _ => false, .key ⟨⟨1, 2⟩, ⟨22⟩, .down, 1⟩ fun _ => false,
    .key ⟨⟨1, 1⟩, ⟨4⟩, .up, 5⟩ fun _ => false]

/-- The keys of the longer chord are pressed in another order than it was written; the key that was still down is let
go meanwhile. -/
def nestedGesture : List Call :=
  [.key ⟨⟨0, 3⟩, ⟨7⟩, .down, 10⟩ fun _ => false, .tick 12, .key ⟨⟨0, 2⟩, ⟨22⟩, .down, 13⟩ fun _ => false,
    .key ⟨⟨1, 2⟩, ⟨22⟩, .up, 14⟩ fun _ => false, .tick 1010, .key ⟨⟨0, 1⟩, ⟨4⟩, .down, 1100⟩ fun _ => false]

def nestedReleases : List Call :=
  [.key ⟨⟨0, 2⟩, ⟨22⟩, .up, 1200⟩ fun _ => false, .key ⟨⟨0, 3⟩, ⟨7⟩, .up, 1201⟩ fun _ => false,
    .key ⟨⟨0, 1⟩, ⟨4⟩, .up, 1202⟩ fun _ => false]

private theorem roll_nestedGesture {r₀ : Recognizer} (h : ofConfig .nested = .ok r₀) :
    (r₀.run nestedPast).recognizer.Roll longerChord nestedGesture where
  keys_perm := by decide
  nodup_addr := by decide
  idle := by
    cases h
    decide +kernel
  allowed := by
    cases h
    intro call hcall
    simp only [nestedGesture, List.mem_cons, List.not_mem_nil, or_false] at hcall
    rcases hcall with rfl | rfl | rfl | rfl | rfl | rfl
    · exact .press rfl (by decide +kernel)
    · exact .tick (Or.inr (by decide +kernel))
    · exact .press rfl (by decide +kernel)
    · exact .release rfl (by decide)
    · exact .tick (Or.inr (by decide +kernel))
    · exact .press rfl (by decide +kernel)
  ends_with_press := ⟨_, _, rfl, rfl⟩

private theorem chords_nestedPast {r₀ : Recognizer} (h : ofConfig .nested = .ok r₀) :
    ∃ shorter : Chord, shorter.keys = [⟨4⟩, ⟨22⟩] ∧
      (r₀.run nestedPast).recognizer.table.chords = [shorter, longerChord] := by
  rw [(r₀.sameSettings_run nestedPast).table]
  cases h
  exact ⟨_, rfl, rfl⟩

/-- The longer chord is recognized with its last key, and let go with the key that is released first. -/
theorem recognizes_nestedGesture :
    ∃ r₀, ofConfig .nested = .ok r₀ ∧
      let r := (r₀.run nestedPast).recognizer
      let s := (r.run nestedGesture).recognizer
      r.isConsumed ⟨1, 2⟩ = true ∧ s.isConsumed ⟨0, 1⟩ = true ∧
      (r.key ⟨⟨0, 3⟩, ⟨7⟩, .down, 10⟩ fun _ => false).events = [] ∧
      (s.key ⟨⟨0, 2⟩, ⟨22⟩, .up, 1200⟩ fun _ => false).events = [⟨⟨0, 3⟩, ⟨26⟩, .up, 1200⟩] ∧
      (s.run nestedReleases).recognizer.isConsumed ⟨0, 1⟩ = false := by
  refine ⟨_, rfl, by decide +kernel, by decide +kernel, ?_⟩
  obtain ⟨shorter, hs, hchords⟩ := chords_nestedPast rfl
  obtain ⟨first, e, hfirst, he, hpresses, hups⟩ := recognizes_roll (c := .nested) rfl nestedPast (by decide +kernel)
    (by rw [hchords]; simp) (by rw [hchords]; simp [hs, longerChord]) (by decide) (roll_nestedGesture rfl)
  obtain ⟨hreleases, hidle⟩ := hups nestedReleases (by simp [nestedReleases]) (by decide)
  cases hfirst
  have hmem := List.mem_of_getElem? (ChordTable.mem_entries.1 he.mem)
  rw [hchords] at hmem
  rcases List.mem_pair.1 hmem with heq | heq
  · exact absurd he.perm.length_eq (by simp [heq, hs, longerChord])
  · have hlet := hreleases [] _ _ _ rfl
    rw [heq] at hlet
    exact ⟨hpresses [] _ _ _ rfl rfl, hlet, hidle ⟨⟨0, 1⟩, ⟨4⟩, .down, 1100⟩ (by decide)⟩

end Recognizer

end Chording
