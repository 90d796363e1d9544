import Chording.Proofs.Sessions

/-!
# Timed keys

The timing of keys remembers two things of the events that it has seen, when the last press was and whether a press came
last (`KeyTimings.Follows`), and they are all that a sample needs (`TimingSample.ofStream`).  A filter shows its timing
just the events that it is given while it is on (`timed`).  So its samples tell of the raw stream as long as it stays
on.  What happens while it is off is never seen: such a press has no sample, and the first press after that is timed as
if nothing had happened in between (`presses_timed`).
-/

namespace Chording

/-! ### Samples of a stream -/

/-- The time of the last press. -/
def lastPressTime? (past : List KeyEvent) : Option Nat :=
  (past.filter fun e => e.edge = .down).getLast?.map (·.time)

/-- Whether the last event is a press. -/
def endsDown (past : List KeyEvent) : Bool :=
  past.getLast?.any fun e => e.edge = .down

variable {past past' : List KeyEvent}

private theorem lastPressTime?_concat (past : List KeyEvent) (e : KeyEvent) :
    lastPressTime? (past ++ [e]) = if e.edge = .down then some e.time else lastPressTime? past := by
  by_cases he : e.edge = .down <;> simp [lastPressTime?, List.filter_append, he]

private theorem endsDown_concat (past : List KeyEvent) (e : KeyEvent) :
    endsDown (past ++ [e]) = decide (e.edge = .down) := by
  simp [endsDown]

/-- A stream without a press does not end with one. -/
private theorem endsDown_of_none (h : lastPressTime? past = none) : endsDown past = false := by
  rcases List.eq_nil_or_concat past with rfl | ⟨front, e, rfl⟩
  · rfl
  · rw [List.concat_eq_append, lastPressTime?_concat] at h
    rw [List.concat_eq_append, endsDown_concat, decide_eq_false_iff_not]
    intro he
    rw [if_pos he] at h
    cases h

namespace TimingSample

/-- The time since the last press of a stream, or zero if it has none. -/
def sinceLastPress (past : List KeyEvent) (time : Nat) : Nat :=
  (lastPressTime? past).elim 0 (time - ·)

/-- The sample of a press behind a stream.  It may belong to a chord if the last event of the stream is a press as well,
and came shortly before. -/
def ofStream (past : List KeyEvent) (press : KeyEvent) : TimingSample where
  key := press.key
  sinceLast := sinceLastPress past press.time
  chordHint := endsDown past && sinceLastPress past press.time < chordHintMillis

/-- The times since the last press, told for all times, tell when it was. -/
private theorem lastPressTime?_eq (h : ∀ time, sinceLastPress past time = sinceLastPress past' time) :
    lastPressTime? past = lastPressTime? past' := by
  cases hl : lastPressTime? past with
  | none =>
    cases hl' : lastPressTime? past' with
    | none => rfl
    | some last =>
      -- after the press of the other stream, this one still has no press to tell the time since
      have hlate := h (last + 1)
      simp [sinceLastPress, hl, hl'] at hlate
  | some last =>
    cases hl' : lastPressTime? past' with
    | none =>
      have hlate := h (last + 1)
      simp [sinceLastPress, hl, hl'] at hlate
    | some last' =>
      -- late enough for neither difference to be cut off at zero
      have hlate := h (last + last')
      have heq : last' = last := by simpa [sinceLastPress, hl, hl'] using hlate
      rw [heq]

/-- The samples of all presses behind two streams are the same just if the streams have their last press at the same
time, and end alike. -/
private theorem ofStream_eq_iff :
    (∀ press : KeyEvent, press.edge = .down → ofStream past press = ofStream past' press) ↔
      lastPressTime? past = lastPressTime? past' ∧ endsDown past = endsDown past' := by
  constructor
  · intro h
    have hsince : ∀ time, sinceLastPress past time = sinceLastPress past' time := fun time =>
      congrArg sinceLast (h ⟨⟨0, 0⟩, ⟨0⟩, .down, time⟩ rfl)
    refine ⟨lastPressTime?_eq hsince, ?_⟩
    -- at the time of the last press, and at any time if there is none, only the ends of the streams count
    obtain ⟨time, htime⟩ : ∃ time, sinceLastPress past time = 0 := by
      cases hl : lastPressTime? past with
      | none => exact ⟨0, by simp [sinceLastPress, hl]⟩
      | some last => exact ⟨last, by simp [sinceLastPress, hl]⟩
    have hhint := congrArg chordHint (h ⟨⟨0, 0⟩, ⟨0⟩, .down, time⟩ rfl)
    simpa [ofStream, ← hsince, htime, chordHintMillis] using hhint
  · rintro ⟨hlast, hend⟩ press -
    rw [ofStream, ofStream, sinceLastPress, sinceLastPress, hlast, hend]

end TimingSample

/-! ### What the timing remembers -/

namespace KeyTimings

/-- The timing runs, and has seen these events since it was started. -/
structure Follows (k : KeyTimings) (past : List KeyEvent) : Prop where
  tracking : k.tracking = true
  lastPress? : k.lastPress? = lastPressTime? past
  lastDown : k.lastDown = endsDown past

variable {k : KeyTimings}

private theorem follows_start : start.Follows [] := ⟨rfl, rfl, rfl⟩

private theorem Follows.sample (h : k.Follows past) (press : KeyEvent) :
    k.sample press.key press.time = .ofStream past press := by
  rw [KeyTimings.sample, h.lastPress?, h.lastDown]
  cases hl : lastPressTime? past with
  | none => simp [TimingSample.ofStream, TimingSample.sinceLastPress, hl, endsDown_of_none hl]
  | some last => simp [TimingSample.ofStream, TimingSample.sinceLastPress, hl]

private theorem observe_of_down {e : KeyEvent} (ht : k.tracking = true) (he : e.edge = .down) :
    k.observe e = (some (k.sample e.key e.time), { k with lastPress? := some e.time, lastDown := true }) := by
  simp [observe, ht, he]

private theorem observe_of_up {e : KeyEvent} (ht : k.tracking = true) (he : e.edge = .up) :
    k.observe e = (none, { k with lastDown := false }) := by
  simp [observe, ht, he]

/-- Presses are told by their samples, and releases are not told. -/
private theorem Follows.observe (h : k.Follows past) (e : KeyEvent) :
    (k.observe e).1 = (if e.edge = .down then some (.ofStream past e) else none) ∧
      (k.observe e).2.Follows (past ++ [e]) := by
  cases he : e.edge with
  | down =>
    rw [observe_of_down h.tracking he, h.sample]
    refine ⟨rfl, h.tracking, ?_, ?_⟩
    · rw [lastPressTime?_concat, if_pos he]
    · rw [endsDown_concat, he]
      rfl
  | up =>
    rw [observe_of_up h.tracking he]
    refine ⟨rfl, h.tracking, ?_, ?_⟩
    · rw [lastPressTime?_concat, if_neg (by simp [he]), ← h.lastPress?]
    · rw [endsDown_concat, he]
      rfl

end KeyTimings

namespace KeyFilter

/-- The call neither starts nor stops the timing. -/
def Call.KeepsTiming : Call → Prop
  | startTiming | stopTiming => False
  | _ => True

instance : (call : Call) → Decidable call.KeepsTiming
  | .startTiming | .stopTiming => inferInstanceAs (Decidable False)
  | .key _ | .tick _ | .setEnabled _ _ | .loadConfig _ _ | .setLayers _ | .watch => inferInstanceAs (Decidable True)

/-- The events that calls hand over while the filter is on. -/
def timed (f : KeyFilter) : List Call → List KeyEvent
  | [] => []
  | call :: calls => (if f.enabled then call.events else []) ++ (f.step call).filter.timed calls

variable {f : KeyFilter} {call : Call} {calls : List Call}

private theorem timed_of_on (hon : f.enabled = true) (hk : ∀ call ∈ calls, call.KeepsOn) :
    f.timed calls = calls.flatMap Call.events := by
  induction calls generalizing f with
  | nil => rfl
  | cons call calls ih =>
    obtain ⟨hcall, hk⟩ := List.forall_mem_cons.1 hk
    rw [timed, if_pos hon, ih (enabled_step_of_on hon hcall) hk, List.flatMap_cons]

/-- Only keys are shown to the timing. -/
private theorem timing_of_no_event (f : KeyFilter) (hcall : call.events = []) :
    (f.step call).filter.lastSample? = f.lastSample? ∧
      (call.KeepsTiming → (f.step call).filter.timings = f.timings) := by
  cases call with
  | key event => cases hcall
  | tick now => cases h : f.enabled <;> simp [step, tick, h]
  | setEnabled on now => cases h : f.enabled <;> cases on <;> simp [step, setEnabled, h]
  | loadConfig c now => cases h : Recognizer.ofConfig c <;> simp [step, loadConfig, h]
  | setLayers | watch => exact ⟨rfl, fun _ => rfl⟩
  | startTiming | stopTiming => exact ⟨rfl, fun hk => absurd hk id⟩

/-- Keys are timed while the filter is on. -/
private theorem timings_step (hf : f.timings.Follows past) (hk : call.KeepsTiming) :
    (f.step call).filter.timings.Follows (past ++ if f.enabled then call.events else []) := by
  cases call with
  | key event =>
    cases h : f.enabled with
    | false => simpa [step, key, h] using hf
    | true => simpa [step, key, h, Call.events] using (hf.observe event).2
  | tick | setEnabled | loadConfig | setLayers | startTiming | stopTiming | watch =>
    rw [(f.timing_of_no_event rfl).2 hk]
    simpa [Call.events] using hf

private theorem timings_after (hf : f.timings.Follows past) (hk : ∀ call ∈ calls, call.KeepsTiming) :
    (f.after calls).timings.Follows (past ++ f.timed calls) := by
  induction calls generalizing f past with
  | nil => rwa [timed, List.append_nil]
  | cons call calls ih =>
    obtain ⟨hcall, hk⟩ := List.forall_mem_cons.1 hk
    rw [timed, ← List.append_assoc]
    exact ih (timings_step hf hcall) hk

private theorem lastSample?_key (hf : f.timings.Follows past) {press : KeyEvent} (hp : press.edge = .down) :
    (f.step (.key press)).filter.lastSample? =
      if f.enabled then some (.ofStream past press) else f.lastSample? := by
  cases h : f.enabled with
  | false => simp [step, key, h]
  | true => simp [step, key, h, (hf.observe press).1, hp]

/-- Only presses change the last sample. -/
private theorem lastSample?_step (hf : f.timings.Follows past) (hcall : ∀ event ∈ call.events, event.edge = .up) :
    (f.step call).filter.lastSample? = f.lastSample? := by
  cases call with
  | key event =>
    have he : event.edge = .up := hcall event (List.mem_singleton_self event)
    cases h : f.enabled with
    | false => simp [step, key, h]
    | true => simp [step, key, h, (hf.observe event).1, he]
  | tick | setEnabled | loadConfig | setLayers | startTiming | stopTiming | watch =>
    exact (f.timing_of_no_event rfl).1

/-- Presses are sampled in another stream than the one that was seen just if the filter is on, and the streams do not
differ in what the timing remembers. -/
private theorem lastSample?_eq_ofStream_iff (hf : f.timings.Follows past) :
    (∀ press : KeyEvent, press.edge = .down →
      (f.step (.key press)).filter.lastSample? = some (.ofStream past' press)) ↔
        f.enabled = true ∧ lastPressTime? past = lastPressTime? past' ∧ endsDown past = endsDown past' := by
  cases h : f.enabled with
  | false =>
    -- presses of different keys have different samples, but the last sample stays the same
    refine iff_of_false (fun hall => ?_) (by simp)
    have hkey : ∀ key, f.lastSample?.map TimingSample.key = some key := by
      intro key
      have hpress := hall ⟨⟨0, 0⟩, key, .down, 0⟩ rfl
      rw [lastSample?_key hf rfl, h, if_neg (by simp)] at hpress
      rw [hpress]
      rfl
    exact absurd ((hkey ⟨0⟩).symm.trans (hkey ⟨1⟩)) (by decide)
  | true =>
    rw [and_iff_right rfl, ← TimingSample.ofStream_eq_iff]
    refine forall₂_congr fun press hp => ?_
    rw [lastSample?_key hf hp, h, if_pos rfl, Option.some.injEq]

/-- The last press and what came last are the same among the events that were timed and among all raw events. -/
def SeesRaw (f : KeyFilter) (calls : List Call) : Prop :=
  lastPressTime? (f.timed calls) = lastPressTime? (calls.flatMap Call.events) ∧
    endsDown (f.timed calls) = endsDown (calls.flatMap Call.events)

/-- After the timing was started, a press that comes while the filter is on has its sample in the stream of the events
that came while it was on, and one that comes while it is off has none.  So presses are sampled in the raw stream just
if the filter is on and the last press and what came last were seen, as they are in a filter that stays on.  No other
call changes the last sample. -/
theorem presses_timed (f : KeyFilter) {since : List Call} (hs : ∀ call ∈ since, call.KeepsTiming) :
    let start := (f.step .startTiming).filter
    let g := start.after since
    (∀ press : KeyEvent, press.edge = .down →
      (g.step (.key press)).filter.lastSample? =
        if g.enabled then some (.ofStream (start.timed since) press) else g.lastSample?) ∧
    (∀ call, (∀ event ∈ call.events, event.edge = .up) → (g.step call).filter.lastSample? = g.lastSample?) ∧
    ((∀ press : KeyEvent, press.edge = .down →
      (g.step (.key press)).filter.lastSample? = some (.ofStream (since.flatMap Call.events) press)) ↔
        g.enabled = true ∧ start.SeesRaw since) ∧
    (f.enabled = true → (∀ call ∈ since, call.KeepsOn) → g.enabled = true ∧ start.SeesRaw since) := by
  intro start g
  have hfollows : g.timings.Follows (start.timed since) := timings_after (f := start) KeyTimings.follows_start hs
  refine ⟨fun press => lastSample?_key hfollows, fun call => lastSample?_step hfollows,
    lastSample?_eq_ofStream_iff hfollows, fun hon hk => ?_⟩
  have hstart : start.enabled = true := hon
  rw [SeesRaw, timed_of_on hstart hk]
  exact ⟨enabled_after hstart hk, rfl, rfl⟩

/-- A key is pressed, and released while the filter is off. -/
def releasedWhileOff : List Call :=
  [.key ⟨⟨0, 1⟩, ⟨4⟩, .down, 0⟩, .setEnabled false 1, .key ⟨⟨0, 1⟩, ⟨4⟩, .up, 2⟩, .setEnabled true 3]

/-- Another key is pressed shortly afterwards. -/
def pressedNext : KeyEvent := ⟨⟨0, 2⟩, ⟨22⟩, .down, 6⟩

/-- The release is not seen, and the next press looks like a part of a chord with the key that is no longer held.
Without the release the raw stream has the same sample. -/
theorem presses_timed_releasedWhileOff :
    ∃ f, ofConfig .nested = .ok f ∧
      let start := (f.step .startTiming).filter
      let g := start.after releasedWhileOff
      (g.step (.key pressedNext)).filter.lastSample? = some ⟨⟨22⟩, 6, true⟩ ∧
      (g.step (.tick 6)).filter.lastSample? = g.lastSample? ∧ ¬start.SeesRaw releasedWhileOff ∧
      ((start.after (releasedWhileOff.take 1)).step (.key pressedNext)).filter.lastSample? =
        some (.ofStream ((releasedWhileOff.take 1).flatMap Call.events) pressedNext) := by
  obtain ⟨f, hc⟩ : ∃ f, ofConfig .nested = .ok f := ⟨_, rfl⟩
  obtain ⟨hsample, hother, hraw, -⟩ := presses_timed f (show ∀ call ∈ releasedWhileOff, call.KeepsTiming by decide)
  obtain ⟨-, -, hraw', hon⟩ := presses_timed f (show ∀ call ∈ releasedWhileOff.take 1, call.KeepsTiming by decide)
  have htold := hsample pressedNext rfl
  refine ⟨f, hc, ?_, hother (.tick 6) (by decide), fun h => ?_, hraw'.2 (hon ?_ (by decide)) pressedNext rfl⟩
  · rw [htold]
    cases hc
    decide +kernel
  · have hclaimed := (hraw.2 ⟨by cases hc; decide +kernel, h⟩) pressedNext rfl
    revert hclaimed
    rw [htold]
    cases hc
    decide +kernel
  · cases hc
    rfl

/-- So not every press that comes while the keys are timed is sampled in the raw stream. -/
theorem not_all_presses_timed :
    ¬∀ (c : Config) (f : KeyFilter) (since : List Call) (press : KeyEvent), ofConfig c = .ok f →
      (∀ call ∈ since, call.KeepsTiming) → press.edge = .down →
      (((f.step .startTiming).filter.after since).step (.key press)).filter.lastSample? =
        some (.ofStream (since.flatMap Call.events) press) := by
  intro h
  obtain ⟨f, hc⟩ : ∃ f, ofConfig .nested = .ok f := ⟨_, rfl⟩
  have hsample := h .nested f releasedWhileOff pressedNext hc (by decide) rfl
  revert hsample
  cases hc
  decide +kernel

end KeyFilter

end Chording
