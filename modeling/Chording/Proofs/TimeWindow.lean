import Chording.Proofs.InStep

/-!
# Chords form inside the timeout

A press joins the queue without a look at the clock, so that it is for the ticks to keep presses apart that are too
far apart in time.  If the clock never goes back and every press comes right after a tick of its time (`Ticked`), the
presses in the queue are in the order of their times, and none of them is later than another by more than the timeout
(`InWindow`).  What a chord takes is a part of such a queue (`chords_in_window`).
-/

namespace Chording

/-! ### Presses close together -/

/-- The presses come in the order of their times, and none comes more than `timeout` after an earlier one. -/
def InWindow (timeout : Nat) (presses : List Press) : Prop :=
  presses.Pairwise fun p q => p.time ≤ q.time ∧ q.time - p.time ≤ timeout

private theorem InWindow.sublist {timeout : Nat} {presses presses' : List Press} (h : InWindow timeout presses)
    (hs : presses'.Sublist presses) : InWindow timeout presses' :=
  List.Pairwise.sublist hs h

/-- Any two presses in a window are close together, in whichever order they came. -/
private theorem InWindow.sub_le {timeout : Nat} {presses : List Press} (h : InWindow timeout presses) :
    ∀ p ∈ presses, ∀ q ∈ presses, p.time - q.time ≤ timeout := by
  induction presses with
  | nil => exact fun _ hp => absurd hp List.not_mem_nil
  | cons first others ih =>
    obtain ⟨hfirst, hothers⟩ := List.pairwise_cons.1 h
    intro p hp q hq
    rcases List.mem_cons.1 hp with hp | hp <;> rcases List.mem_cons.1 hq with hq | hq
    · rw [hp, hq]
      omega
    · have hle := (hfirst q hq).1
      rw [hp]
      omega
    · rw [hq]
      exact (hfirst p hp).2
    · exact ih hothers p hp q hq

/-- A press that is not earlier than the others, and not too late for any of them, joins the window. -/
private theorem InWindow.concat {timeout : Nat} {presses : List Press} (h : InWindow timeout presses) {p : Press}
    (hle : ∀ q ∈ presses, q.time ≤ p.time) (hyoung : ∀ q ∈ presses, p.time - q.time ≤ timeout) :
    InWindow timeout (presses ++ [p]) := by
  refine List.pairwise_append.2 ⟨h, List.pairwise_singleton _ _, fun q hq p' hp' => ?_⟩
  obtain rfl := List.mem_singleton.1 hp'
  exact ⟨hle q hq, hyoung q hq⟩

/-- In a queue in the order of its times all presses are young if the first one is. -/
theorem young_of_head? {timeout now : Nat} {presses : List Press} (h : presses.Pairwise (·.time ≤ ·.time))
    (hfront : ∀ p ∈ presses.head?, now - p.time ≤ timeout) : ∀ p ∈ presses, now - p.time ≤ timeout := by
  cases presses with
  | nil => exact fun _ hp => absurd hp List.not_mem_nil
  | cons first others =>
    obtain ⟨hfirst, -⟩ := List.pairwise_cons.1 h
    have hyoung : now - first.time ≤ timeout := hfront first rfl
    intro p hp
    rcases List.mem_cons.1 hp with rfl | hp
    · exact hyoung
    · have hle := hfirst p hp
      omega

/-- Expiring ends with a queue whose front is young. -/
private theorem ChordTable.head?_expire (t : ChordTable) (timeout now : Nat) (queue : List Press) :
    ∀ p ∈ (t.expire timeout now queue).queue.head?, now - p.time ≤ timeout := by
  fun_induction expire t timeout now queue with
  | case1 =>
    intro _ hp
    cases hp
  | case2 p ps h =>
    intro q hq
    obtain rfl := Option.some.inj hq
    exact h
  | case3 p ps h r ih => exact ih

/-! ### Where presses go -/

/-- The presses among events, in the form in which a queue holds them. -/
def pressesIn (events : List KeyEvent) : List Press :=
  (events.filter (·.edge = .down)).map .ofEvent

theorem pressesIn_append (events events' : List KeyEvent) :
    pressesIn (events ++ events') = pressesIn events ++ pressesIn events' := by
  simp [pressesIn]

private theorem pressesIn_singleton {e : KeyEvent} (he : e.edge = .down) : pressesIn [e] = [.ofEvent e] := by
  simp [pressesIn, he]

namespace Recognizer

variable {r : Recognizer} {calls : List Call}

/-- The queue and the presses that come in, in their order, are where everything comes from that is taken or still
held. -/
def Draws (r : Recognizer) (raw : List KeyEvent) (o : Outcome) : Prop :=
  o.recognizer.pending.entries.Sublist (r.pending.entries ++ pressesIn raw) ∧
    ∀ em ∈ o.emissions, em.taken.Sublist (r.pending.entries ++ pressesIn raw)

private theorem draws_nothing (r : Recognizer) (raw : List KeyEvent) : r.Draws raw ⟨r, []⟩ :=
  ⟨List.sublist_append_left _ _, fun _ h => absurd h List.not_mem_nil⟩

private theorem taken_released {events : List KeyEvent} {em : Emission} (h : em ∈ events.map .released) :
    em.taken = [] := by
  obtain ⟨e, -, rfl⟩ := List.mem_map.1 h
  rfl

private theorem draws_move {raw : List KeyEvent} {emissions : List Emission} {r' : Recognizer}
    (h : Move r raw emissions r') : r.Draws raw ⟨r', emissions⟩ := by
  cases h with
  | @resolve s rest now hq hs =>
    constructor
    · show rest.Sublist _
      rw [hq]
      exact (List.sublist_append_right s.presses rest).trans (List.sublist_append_left _ _)
    · intro em hem
      rw [List.mem_singleton.1 hem, hq]
      exact (List.sublist_append_left s.presses rest).trans (List.sublist_append_left _ _)
  | @hold event he hp hi hc hlt =>
    refine ⟨?_, fun _ hem => absurd hem List.not_mem_nil⟩
    rw [pressesIn_singleton he]
    exact List.Sublist.refl _
  | ignore => exact r.draws_nothing _
  | passPress | passRelease =>
    refine ⟨List.sublist_append_left _ _, fun em hem => ?_⟩
    rw [List.mem_singleton.1 hem]
    exact List.nil_sublist _
  | free | letGo =>
    refine ⟨List.sublist_append_left _ _, fun em hem => ?_⟩
    rw [taken_released hem]
    exact List.nil_sublist _

private theorem draws_moves {raw : List KeyEvent} {emissions : List Emission} {r' : Recognizer}
    (h : Moves r raw emissions r') : r.Draws raw ⟨r', emissions⟩ := by
  induction h with
  | nil r => exact r.draws_nothing []
  | @cons r s r' raw raw' emissions emissions' hm _ ih =>
    obtain ⟨hqueue, htaken⟩ := draws_move hm
    obtain ⟨hqueue', htaken'⟩ := ih
    -- what the later moves draw from is drawn from the queue and the presses of the first one
    have hmore : (s.pending.entries ++ pressesIn raw').Sublist (r.pending.entries ++ pressesIn (raw ++ raw')) := by
      rw [pressesIn_append, ← List.append_assoc]
      exact hqueue.append_right _
    have hless : (r.pending.entries ++ pressesIn raw).Sublist (r.pending.entries ++ pressesIn (raw ++ raw')) := by
      rw [pressesIn_append]
      exact (List.sublist_append_left _ _).append_left _
    refine ⟨hqueue'.trans hmore, fun em hem => ?_⟩
    rcases List.mem_append.1 hem with hem | hem
    · exact (htaken em hem).trans hless
    · exact (htaken' em hem).trans hmore

theorem draws_step (h : r.Coherent) (call : Call) : r.Draws call.events (r.step call) := by
  by_cases hreset : call = .reset
  · subst hreset
    exact ⟨List.nil_sublist _, fun _ hem => absurd hem List.not_mem_nil⟩
  · by_cases hd : r.Drops call
    · rw [step_of_drops hd]
      exact r.draws_nothing _
    · exact draws_moves (moves_step h hreset hd)

/-- A tick leaves a queue whose front is young. -/
theorem head?_tick (h0 : r.timeout ≠ 0) (now : Nat) :
    ∀ p ∈ (r.tick now).recognizer.pending.entries.head?, now - p.time ≤ r.timeout.toNat := by
  rw [tick_of_ne_zero h0]
  exact r.table.head?_expire r.timeout.toNat now r.pending.entries

/-! ### Ticked runs -/

/-- The time of a call, if it has one. -/
def Call.time? : Call → Option Nat
  | key event _ => some event.time
  | tick now | flush now => some now
  | reset => none

def timesOf (calls : List Call) : List Nat :=
  calls.filterMap Call.time?

/-- The time of a call that is a tick. -/
def Call.tickTime? : Call → Option Nat
  | tick now => some now
  | _ => none

/-- Every press comes right after a tick of the same time. -/
def Ticked (calls : List Call) : Prop :=
  (∀ call ∈ calls.head?, pressesIn call.events = []) ∧
    calls.IsChain fun before call => ∀ p ∈ pressesIn call.events, before.tickTime? = some p.time

instance (calls : List Call) : Decidable (Ticked calls) :=
  inferInstanceAs (Decidable (_ ∧ _))

private theorem Ticked.exists_tick (h : Ticked calls) {front rest : List Call} {call : Call}
    (hsplit : calls = front ++ call :: rest) {p : Press} (hp : p ∈ pressesIn call.events) :
    front.getLast? = some (.tick p.time) := by
  obtain ⟨hhead, hchain⟩ := h
  rw [hsplit] at hhead hchain
  rcases List.eq_nil_or_concat' front with rfl | ⟨front, before, rfl⟩
  · rw [hhead call rfl] at hp
    exact absurd hp List.not_mem_nil
  · have htick := (List.isChain_append.1 hchain).2.2 before (by simp) call rfl p hp
    cases before with
    | tick now => rw [List.getLast?_concat, Option.some.inj htick]
    | key | flush | reset => cases htick

/-- After some calls of a ticked run: the queue is in a window, its presses came during these calls, and they are
young if the last call was a tick. -/
structure OnTime (timeout : Nat) (front : List Call) (s : Recognizer) : Prop where
  inWindow : InWindow timeout s.pending.entries
  mem_times : ∀ p ∈ s.pending.entries, p.time ∈ timesOf front
  young : ∀ now, front.getLast? = some (.tick now) → ∀ p ∈ s.pending.entries, now - p.time ≤ timeout

namespace OnTime

variable {timeout : Nat} {front rest : List Call} {s : Recognizer} {call : Call}

private theorem start (hf : r.Fresh) (timeout : Nat) : OnTime timeout [] r where
  inWindow := hf.entries ▸ List.Pairwise.nil
  mem_times := fun _ hp => absurd (hf.entries ▸ hp) List.not_mem_nil
  young := fun _ h => nomatch h

/-- The press of a call joins the window, because the tick before it left nothing that is old. -/
private theorem accept (h : OnTime timeout front s) (htimes : (timesOf calls).Pairwise (· ≤ ·)) (hticked : Ticked calls)
    (hsplit : calls = front ++ call :: rest) :
    InWindow timeout (s.pending.entries ++ pressesIn call.events) ∧
    ∀ p ∈ s.pending.entries ++ pressesIn call.events, p.time ∈ timesOf (front ++ [call]) := by
  have hmem : ∀ p ∈ s.pending.entries, p.time ∈ timesOf (front ++ [call]) := by
    intro p hp
    rw [timesOf, List.filterMap_append]
    exact List.mem_append_left _ (h.mem_times p hp)
  have hnone : pressesIn call.events = [] →
      InWindow timeout (s.pending.entries ++ pressesIn call.events) ∧
      ∀ p ∈ s.pending.entries ++ pressesIn call.events, p.time ∈ timesOf (front ++ [call]) := by
    intro hnil
    rw [hnil, List.append_nil]
    exact ⟨h.inWindow, hmem⟩
  cases call with
  | tick | flush | reset => exact hnone rfl
  | key event layers =>
    cases he : event.edge with
    | up => exact hnone (by simp [pressesIn, Call.events, he])
    | down =>
      have hpress : pressesIn (Call.events (.key event layers)) = [.ofEvent event] := pressesIn_singleton he
      have htick := hticked.exists_tick hsplit (hpress ▸ List.mem_singleton_self _)
      have hle : ∀ p ∈ s.pending.entries, p.time ≤ event.time := by
        intro p hp
        rw [hsplit, timesOf, List.filterMap_append, List.pairwise_append] at htimes
        exact htimes.2.2 _ (h.mem_times p hp) _ List.mem_cons_self
      rw [hpress]
      refine ⟨h.inWindow.concat hle (h.young _ htick), fun p hp => ?_⟩
      rcases List.mem_append.1 hp with hp | hp
      · exact hmem p hp
      · rw [List.mem_singleton.1 hp, timesOf, List.filterMap_append]
        exact List.mem_append_right _ (by simp [Call.time?])

private theorem step (h : OnTime timeout front s) (hcoh : s.Coherent) (h0 : s.timeout ≠ 0)
    (ht : s.timeout.toNat = timeout)
    (htimes : (timesOf calls).Pairwise (· ≤ ·)) (hticked : Ticked calls) (hsplit : calls = front ++ call :: rest) :
    OnTime timeout (front ++ [call]) (s.step call).recognizer := by
  obtain ⟨hwindow, hmem⟩ := h.accept htimes hticked hsplit
  have hsub := (draws_step hcoh call).1
  refine ⟨hwindow.sublist hsub, fun p hp => hmem p (hsub.subset hp), fun now hlast => ?_⟩
  rw [List.getLast?_concat] at hlast
  obtain rfl := Option.some.inj hlast
  -- a tick expires presses until the front is young, and the front is the oldest press
  refine young_of_head? ((hwindow.sublist hsub).imp And.left) ?_
  rw [← ht]
  exact head?_tick h0 now

end OnTime

private theorem onTime_run {c : Config} (hc : ofConfig c = .ok r) (h0 : c.timeout ≠ 0)
    (htimes : (timesOf calls).Pairwise (· ≤ ·)) (hticked : Ticked calls) {front rest : List Call}
    (hfront : calls = front ++ rest) : OnTime c.timeout.toNat front (r.run front).recognizer := by
  have hfresh := fresh_ofConfig hc
  refine front_induction (P := fun front s => OnTime c.timeout.toNat front s) (.start hfresh _) ?_ hfront
  intro front call rest hsplit h
  have htimeout := timeout_run hc front
  exact h.step ((coherent_of_fresh hfresh).run front) (htimeout ▸ h0) (congrArg _ htimeout) htimes hticked hsplit

/-- If there is a timeout, the clock never goes back and every press comes right after a tick of its time, then the
presses that become a chord are no further apart in time than the timeout, whatever call it is that makes them one
and however late it comes. -/
theorem chords_in_window {c : Config} (hc : ofConfig c = .ok r) (h0 : c.timeout ≠ 0)
    (htimes : (timesOf calls).Pairwise (· ≤ ·)) (hticked : Ticked calls) {e : Entry} {first : Press}
    {others : List Press} {now : Nat} (h : .resolved (.chord e first others) now ∈ (r.run calls).emissions) :
    ∀ p ∈ first :: others, ∀ q ∈ first :: others, p.time - q.time ≤ c.timeout.toNat := by
  obtain ⟨front, call, rest, hsplit, hem⟩ := exists_step_of_mem_run h
  have hcoh := (coherent_of_fresh (fresh_ofConfig hc)).run front
  obtain ⟨hwindow, -⟩ := (onTime_run hc h0 htimes hticked hsplit).accept htimes hticked hsplit
  exact (hwindow.sublist ((draws_step hcoh call).2 _ hem)).sub_le

/-- Two keys of a chord are pressed with ticks before them, and the third one does not come. -/
def slowRoll : List Call :=
  [.tick 0, .key ⟨⟨0, 1⟩, ⟨4⟩, .down, 0⟩ fun _ => false, .tick 10, .key ⟨⟨0, 2⟩, ⟨22⟩, .down, 10⟩ fun _ => false,
    .tick 40]

/-- The shorter chord is made long after its presses, by a tick, and its presses are close together. -/
theorem chords_in_window_slowRoll :
    ∃ r, ofConfig { Config.nested with timeout := 24 } = .ok r ∧
      (r.run slowRoll).events = [⟨⟨0, 1⟩, ⟨20⟩, .down, 40⟩] ∧
      ∃ e first others now, .resolved (.chord e first others) now ∈ (r.run slowRoll).emissions ∧
        ∀ p ∈ first :: others, ∀ q ∈ first :: others, p.time - q.time ≤ 24 := by
  refine ⟨_, rfl, by decide +kernel, ?_⟩
  refine (exists_chord_of_activations ?_).imp fun e => Exists.imp fun first => Exists.imp fun others =>
    Exists.imp fun now h => ⟨h, ?_⟩
  · decide +kernel
  · exact chords_in_window (c := { Config.nested with timeout := 24 }) rfl (by decide) (by decide) (by decide) h

end Recognizer

end Chording
