import Chording.Pending
import Mathlib.Data.List.Basic

/-!
# Runs of a queue

A log tells what a queue has taken in, given back and forgotten, by the results of the operations (`Log.step`).  What
has come in stays in its order and leaves once (`Log.Kept`): entries go out (`Kept.leave`), or a new one comes in behind
the others (`Kept.enter`).  So nothing is lost or made up in any run of operations, with room for any number of entries
or for none (`run_conserves`).
-/

namespace Chording

namespace PendingQueue

variable {q : PendingQueue} {p : Press}

/-! ### Single operations -/

private theorem push_eq_dropped_iff : (q.push p).1 = .dropped ↔ ¬q.Admits := by
  constructor
  · intro h ha
    by_cases hlt : q.size < q.capacity
    · rw [push_of_lt hlt] at h
      cases h
    · obtain ⟨oldest, rest, -, hpush⟩ := push_of_not_lt hlt ha p
      rw [hpush] at h
      cases h
  · intro h
    rw [push_of_not_admits h]

/-- A queue that holds no more than it may refuses a press just if it is full, and either gives nothing up or has
nothing to give up. -/
private theorem not_admits_iff (h : q.size ≤ q.capacity) :
    ¬q.Admits ↔ q.size = q.capacity ∧ (q.policy = .dropNewest ∨ q.capacity = 0) := by
  have hpolicy : q.policy ≠ .evictOldest ↔ q.policy = .dropNewest := by cases q.policy <;> simp
  have hentries : q.entries = [] ↔ q.size = 0 := List.length_eq_zero_iff.symm
  rw [Admits, not_or, not_and_or, not_ne_iff, hentries, ← ne_eq, hpolicy, Nat.not_lt]
  constructor
  · rintro ⟨hle, hor⟩
    have hfull : q.size = q.capacity := Nat.le_antisymm h hle
    exact ⟨hfull, hfull ▸ hor⟩
  · rintro ⟨hfull, hor⟩
    exact ⟨Nat.le_of_eq hfull.symm, hfull ▸ hor⟩

/-- What becomes of a queue when an entry is taken out by its address.  Either no entry has the address, and nothing
happens, or the oldest one that has it goes, from the place that is told for it, and the others stay as they are. -/
inductive Removal (q : PendingQueue) (a : Address) : Option Press × PendingQueue → Prop
  | absent : q.position? a = none → (∀ p ∈ q.entries, p.addr ≠ a) → Removal q a (none, q)
  | oldest {before behind : List Press} {p : Press} : q.entries = before ++ p :: behind →
      q.position? a = some before.length → p.addr = a → (∀ p' ∈ before, p'.addr ≠ a) →
        Removal q a (some p, { q with entries := before ++ behind })

private theorem removal_removeAt (q : PendingQueue) (a : Address) : q.Removal a (q.removeAt a) := by
  cases hfind : q.entries.find? fun p => p.addr = a with
  | none =>
    have hall : ∀ p ∈ q.entries, p.addr ≠ a := by simpa using hfind
    have hplace : q.position? a = none := List.findIdx?_eq_none_iff.2 (by simpa using hall)
    rw [removeAt, hfind, List.eraseP_of_forall_not (by simpa using hall)]
    exact .absent hplace hall
  | some p =>
    obtain ⟨hp, before, behind, heq, hbefore⟩ := List.find?_eq_some_iff_append.1 hfind
    have hplace : q.position? a = some before.length := by
      have hnone : before.findIdx? (fun p => p.addr = a) = none :=
        List.findIdx?_eq_none_iff.2 (by simpa using hbefore)
      rw [position?, heq, List.findIdx?_append, hnone, List.findIdx?_cons, if_pos hp]
      simp
    rw [removeAt, hfind, heq, List.eraseP_append_right _ (by simpa using hbefore), List.eraseP_cons, hp, cond_true]
    exact .oldest heq hplace (by simpa using hp) (by simpa using hbefore)

/-! ### The log of a queue -/

/-- The operations that change a queue. -/
inductive Call
  | push (p : Press)
  | popFront
  | removeAt (a : Address)
  | drainFront (n : Nat)
  | clear

def Call.pushed? : Call → Option Press
  | push p => some p
  | _ => none

/-- A queue, the presses that have entered it so far, those that operations have returned, and those that were in it
when it was cleared. -/
structure Log where
  queue : PendingQueue
  entered : List Press := []
  returned : List Press := []
  cleared : List Press := []

namespace Log

def step (l : Log) : Call → Log
  | .push p =>
    match l.queue.push p with
    | (.queued, queue) => { l with queue := queue, entered := l.entered ++ [p] }
    | (.evicted oldest, queue) =>
      { l with queue := queue, entered := l.entered ++ [p], returned := l.returned ++ [oldest] }
    | (.dropped, queue) => { l with queue := queue }
  | .popFront =>
    let (first?, queue) := l.queue.popFront
    { l with queue := queue, returned := l.returned ++ first?.toList }
  | .removeAt a =>
    let (removed?, queue) := l.queue.removeAt a
    { l with queue := queue, returned := l.returned ++ removed?.toList }
  | .drainFront n =>
    let (drained, queue) := l.queue.drainFront n
    { l with queue := queue, returned := l.returned ++ drained }
  | .clear => { l with queue := l.queue.clear, cleared := l.cleared ++ l.queue.entries }

/-- One operation after another. -/
def run (l : Log) : List Call → Log
  | [] => l
  | call :: calls => (l.step call).run calls

/-- Entries go and are returned, and the others stay. -/
def leave (l : Log) (out stay : List Press) : Log :=
  { l with queue := { l.queue with entries := stay }, returned := l.returned ++ out }

/-- A press comes behind the others. -/
def enter (l : Log) (p : Press) : Log :=
  { l with queue := { l.queue with entries := l.queue.entries ++ [p] }, entered := l.entered ++ [p] }

/-- What has entered is in the queue, in its order, or has left it once, and there is room for what is there. -/
structure Kept (l : Log) : Prop where
  size_le : l.queue.size ≤ l.queue.capacity
  entries_sublist : l.queue.entries.Sublist l.entered
  entered_perm : l.entered.Perm (l.returned ++ l.cleared ++ l.queue.entries)

variable {l : Log}

/-- A press enters a queue that has room, or that makes room by giving up its oldest entry, or is refused. -/
private theorem step_push (l : Log) (p : Press) :
    l.queue.size < l.queue.capacity ∧ l.step (.push p) = l.enter p ∨
    (∃ oldest rest, l.queue.entries = oldest :: rest ∧ l.step (.push p) = (l.leave [oldest] rest).enter p) ∨
    l.step (.push p) = l := by
  by_cases hlt : l.queue.size < l.queue.capacity
  · refine Or.inl ⟨hlt, ?_⟩
    rw [step, push_of_lt hlt]
    rfl
  by_cases ha : l.queue.Admits
  · obtain ⟨oldest, rest, he, hpush⟩ := push_of_not_lt hlt ha p
    refine Or.inr (Or.inl ⟨oldest, rest, he, ?_⟩)
    rw [step, hpush]
    rfl
  · refine Or.inr (Or.inr ?_)
    rw [step, push_of_not_admits ha]

private theorem kept_empty (capacity : Nat) (policy : OverflowPolicy) : Kept { queue := empty capacity policy } :=
  ⟨Nat.zero_le _, List.Sublist.refl _, List.Perm.refl _⟩

theorem Kept.leave (h : l.Kept) {out stay : List Press} (hs : stay.Sublist l.queue.entries)
    (hp : l.queue.entries.Perm (out ++ stay)) : (l.leave out stay).Kept where
  size_le := Nat.le_trans hs.length_le h.size_le
  entries_sublist := hs.trans h.entries_sublist
  entered_perm :=
    calc List.Perm l.entered (l.returned ++ l.cleared ++ l.queue.entries) := h.entered_perm
      List.Perm _ (l.returned ++ l.cleared ++ (out ++ stay)) := hp.append_left _
      List.Perm _ (l.returned ++ (l.cleared ++ (out ++ stay))) := .of_eq (List.append_assoc _ _ _)
      List.Perm _ (l.returned ++ (out ++ (l.cleared ++ stay))) := (List.perm_append_comm_assoc _ _ _).append_left _
      List.Perm _ ((l.returned ++ out) ++ l.cleared ++ stay) := .of_eq (by simp only [List.append_assoc])

theorem Kept.enter (h : l.Kept) (hlt : l.queue.size < l.queue.capacity) (p : Press) : (l.enter p).Kept where
  size_le := by
    show (l.queue.entries ++ [p]).length ≤ l.queue.capacity
    rw [List.length_append]
    exact hlt
  entries_sublist := h.entries_sublist.append_right [p]
  entered_perm := by
    show (l.entered ++ [p]).Perm (l.returned ++ l.cleared ++ (l.queue.entries ++ [p]))
    rw [← List.append_assoc]
    exact h.entered_perm.append_right [p]

private theorem Kept.step (h : l.Kept) (call : Call) : (l.step call).Kept := by
  cases call with
  | push p =>
    obtain ⟨hlt, hstep⟩ | ⟨oldest, rest, he, hstep⟩ | hstep := l.step_push p <;> rw [hstep]
    · exact h.enter hlt p
    · have hroom : rest.length < l.queue.capacity := by
        have hle : l.queue.entries.length ≤ l.queue.capacity := h.size_le
        rwa [he] at hle
      exact (h.leave (he ▸ List.sublist_cons_self oldest rest) (.of_eq he)).enter hroom p
    · exact h
  | popFront =>
    refine h.leave (List.tail_sublist _) ?_
    cases l.queue.entries <;> exact .refl _
  | removeAt a =>
    have hremoval := l.queue.removal_removeAt a
    rw [Log.step]
    generalize l.queue.removeAt a = result at hremoval ⊢
    cases hremoval with
    | absent => exact h.leave (List.Sublist.refl _) (.refl _)
    | oldest heq =>
      refine h.leave ?_ (heq ▸ List.perm_middle)
      rw [heq]
      exact (List.sublist_cons_self _ _).append_left _
  | drainFront n => exact h.leave (List.drop_sublist n _) (.of_eq (l.queue.drainFront_append n).symm)
  | clear =>
    refine ⟨Nat.zero_le _, List.nil_sublist _, ?_⟩
    show l.entered.Perm (l.returned ++ (l.cleared ++ l.queue.entries) ++ [])
    rw [List.append_nil, ← List.append_assoc]
    exact h.entered_perm

private theorem Kept.run (h : l.Kept) (calls : List Call) : (l.run calls).Kept := by
  induction calls generalizing l with
  | nil => exact h
  | cons call calls ih => exact ih (h.step call)

/-- The room of a queue and its policy stay as they were chosen. -/
private theorem settings_step (l : Log) (call : Call) :
    (l.step call).queue.capacity = l.queue.capacity ∧ (l.step call).queue.policy = l.queue.policy := by
  cases call with
  | push p =>
    obtain ⟨-, hstep⟩ | ⟨oldest, rest, -, hstep⟩ | hstep := l.step_push p <;> rw [hstep] <;> exact ⟨rfl, rfl⟩
  | popFront | removeAt | drainFront | clear => exact ⟨rfl, rfl⟩

private theorem settings_run (l : Log) (calls : List Call) :
    (l.run calls).queue.capacity = l.queue.capacity ∧ (l.run calls).queue.policy = l.queue.policy := by
  induction calls generalizing l with
  | nil => exact ⟨rfl, rfl⟩
  | cons call calls ih =>
    obtain ⟨hcapacity, hpolicy⟩ := ih (l.step call)
    exact ⟨hcapacity.trans (l.settings_step call).1, hpolicy.trans (l.settings_step call).2⟩

private theorem entered_step_sublist (l : Log) (call : Call) :
    (l.step call).entered.Sublist (l.entered ++ call.pushed?.toList) := by
  cases call with
  | push p =>
    obtain ⟨-, hstep⟩ | ⟨oldest, rest, -, hstep⟩ | hstep := l.step_push p <;> rw [hstep]
    · exact List.Sublist.refl _
    · exact List.Sublist.refl _
    · exact List.sublist_append_left _ _
  | popFront | removeAt | drainFront | clear => exact List.sublist_append_left _ _

/-- Presses enter in the order in which they are pushed. -/
private theorem entered_run_sublist (l : Log) (calls : List Call) :
    (l.run calls).entered.Sublist (l.entered ++ calls.filterMap Call.pushed?) := by
  induction calls generalizing l with
  | nil => exact List.sublist_append_left _ _
  | cons call calls ih =>
    have hpushed : (call :: calls).filterMap Call.pushed? = call.pushed?.toList ++ calls.filterMap Call.pushed? := by
      cases call <;> rfl
    rw [hpushed, ← List.append_assoc]
    exact (ih (l.step call)).trans ((l.entered_step_sublist call).append_right _)

end Log

/-- Whatever is done with a queue that was empty, it holds no more than it may, and all that it holds has entered it and
stands in the order in which it was pushed.  Of what has entered each press is still there, or was returned, or was
there when the queue was cleared, and just once.  A press is refused just if the queue is full, and drops the newest
press or has no room at all, and nothing happens then.  An address takes out the oldest of its entries only. -/
theorem run_conserves (capacity : Nat) (policy : OverflowPolicy) (calls : List Call) :
    let l := Log.run { queue := empty capacity policy } calls
    l.queue.size ≤ capacity ∧
    l.queue.entries.Sublist l.entered ∧ l.entered.Sublist (calls.filterMap Call.pushed?) ∧
    l.entered.Perm (l.returned ++ l.cleared ++ l.queue.entries) ∧
    (∀ p, ((l.queue.push p).1 = .dropped ↔ l.queue.size = capacity ∧ (policy = .dropNewest ∨ capacity = 0)) ∧
      ((l.queue.push p).1 = .dropped → (l.queue.push p).2 = l.queue)) ∧
    ∀ a, l.queue.Removal a (l.queue.removeAt a) := by
  intro l
  have hkept : l.Kept := (Log.kept_empty capacity policy).run calls
  obtain ⟨hcapacity, hpolicy⟩ : l.queue.capacity = capacity ∧ l.queue.policy = policy :=
    Log.settings_run { queue := empty capacity policy } calls
  refine ⟨hcapacity ▸ hkept.size_le, hkept.entries_sublist, Log.entered_run_sublist _ calls, hkept.entered_perm,
    fun p => ⟨?_, fun hd => ?_⟩, l.queue.removal_removeAt⟩
  · rw [push_eq_dropped_iff, not_admits_iff hkept.size_le, hcapacity, hpolicy]
  · rw [push_of_not_admits (push_eq_dropped_iff.1 hd)]

/-- Three presses for two places, of which two have the same address, and one that takes the place of the older one. -/
def crowded : List Call :=
  [.push ⟨⟨0, 1⟩, ⟨4⟩, 0⟩, .push ⟨⟨0, 2⟩, ⟨22⟩, 1⟩, .push ⟨⟨0, 2⟩, ⟨7⟩, 2⟩, .removeAt ⟨0, 2⟩,
    .push ⟨⟨0, 1⟩, ⟨4⟩, 3⟩]

/-- The first press is evicted, and the older one of the two is removed; a queue without room refuses the first. -/
theorem run_conserves_crowded :
    let l := Log.run { queue := empty 2 .evictOldest } crowded
    l.entered = [⟨⟨0, 1⟩, ⟨4⟩, 0⟩, ⟨⟨0, 2⟩, ⟨22⟩, 1⟩, ⟨⟨0, 2⟩, ⟨7⟩, 2⟩, ⟨⟨0, 1⟩, ⟨4⟩, 3⟩] ∧
      l.returned = [⟨⟨0, 1⟩, ⟨4⟩, 0⟩, ⟨⟨0, 2⟩, ⟨22⟩, 1⟩] ∧ l.queue.size ≤ 2 ∧
      l.entered.Perm (l.returned ++ l.cleared ++ l.queue.entries) ∧
      (l.queue.push ⟨⟨0, 3⟩, ⟨9⟩, 4⟩).1 ≠ .dropped ∧
      ((empty 0 .evictOldest).push ⟨⟨0, 1⟩, ⟨4⟩, 0⟩).2 = empty 0 .evictOldest := by
  obtain ⟨hsize, -, -, hperm, hpush, -⟩ := run_conserves 2 .evictOldest crowded
  obtain ⟨-, -, -, -, hnone, -⟩ := run_conserves 0 .evictOldest []
  obtain ⟨hrefused, hsame⟩ := hnone ⟨⟨0, 1⟩, ⟨4⟩, 0⟩
  refine ⟨by decide, by decide, hsize, hperm, fun h => ?_, hsame (hrefused.2 ⟨rfl, Or.inr rfl⟩)⟩
  exact absurd ((hpush _).1.1 h).2 (by decide)

end PendingQueue

end Chording
