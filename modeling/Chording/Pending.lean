import Chording.Key.Event

/-!
# The queue of held presses

A bounded queue of presses that are held back, oldest first.  What happens to a press that finds the queue full is
the choice of the overflow policy.  Every operation takes entries away or adds one at the end; none changes their
order.
-/

namespace Chording

/-- What gives way when a press finds the queue full. -/
inductive OverflowPolicy
  | evictOldest
  | dropNewest
deriving DecidableEq

namespace OverflowPolicy

def name : OverflowPolicy → String
  | evictOldest => "evict-oldest"
  | dropNewest => "drop-newest"

/-- The policy with that name; the case of letters counts. -/
def ofName? (text : List Char) : Option OverflowPolicy :=
  [evictOldest, dropNewest].find? fun policy => policy.name.toList = text

@[simp]
theorem ofName?_name (policy : OverflowPolicy) : ofName? policy.name.toList = some policy := by
  cases policy <;> decide

end OverflowPolicy

/-- Presses held back, oldest first, and how many of them there may be. -/
structure PendingQueue where
  entries : List Press
  capacity : Nat
  policy : OverflowPolicy
deriving DecidableEq

/-- What became of a press given to the queue. -/
inductive PushResult
  | queued
  /-- It was queued, and the oldest entry had to leave. -/
  | evicted (oldest : Press)
  | dropped
deriving DecidableEq

namespace PendingQueue

def empty (capacity : Nat) (policy : OverflowPolicy) : PendingQueue :=
  ⟨[], capacity, policy⟩

def size (q : PendingQueue) : Nat := q.entries.length

def isEmpty (q : PendingQueue) : Bool := q.entries.isEmpty

def keys (q : PendingQueue) : List KeyCode := q.entries.map (·.key)

def front? (q : PendingQueue) : Option Press := q.entries.head?

/-- The place of the oldest entry with that address, counted from the front. -/
def position? (q : PendingQueue) (a : Address) : Option Nat :=
  q.entries.findIdx? fun p => p.addr = a

def contains (q : PendingQueue) (a : Address) : Bool :=
  q.entries.any fun p => p.addr = a

/-- A full queue without room for any entry drops the press under either policy. -/
def push (q : PendingQueue) (p : Press) : PushResult × PendingQueue :=
  if q.size < q.capacity then (.queued, { q with entries := q.entries ++ [p] })
  else match q.policy, q.entries with
    | .evictOldest, oldest :: rest => (.evicted oldest, { q with entries := rest ++ [p] })
    | _, _ => (.dropped, q)

/-- Whether a press given to the queue enters it: there is room for it, or the oldest entry leaves. -/
def Admits (q : PendingQueue) : Prop :=
  q.size < q.capacity ∨ q.policy = .evictOldest ∧ q.entries ≠ []

instance (q : PendingQueue) : Decidable q.Admits :=
  inferInstanceAs (Decidable (_ ∨ _))

def popFront (q : PendingQueue) : Option Press × PendingQueue :=
  (q.entries.head?, { q with entries := q.entries.tail })

/-- Takes out the oldest entry with that address and leaves the others in their places. -/
def removeAt (q : PendingQueue) (a : Address) : Option Press × PendingQueue :=
  (q.entries.find? fun p => p.addr = a, { q with entries := q.entries.eraseP fun p => p.addr = a })

/-- Takes out the `n` oldest entries, or all of them if there are fewer. -/
def drainFront (q : PendingQueue) (n : Nat) : List Press × PendingQueue :=
  (q.entries.take n, { q with entries := q.entries.drop n })

def clear (q : PendingQueue) : PendingQueue :=
  { q with entries := [] }

theorem push_of_lt {q : PendingQueue} (h : q.size < q.capacity) (p : Press) :
    q.push p = (.queued, { q with entries := q.entries ++ [p] }) :=
  if_pos h

/-- A full queue that takes a press gives up its oldest entry. -/
theorem push_of_not_lt {q : PendingQueue} (h : ¬q.size < q.capacity) (ha : q.Admits) (p : Press) :
    ∃ oldest rest, q.entries = oldest :: rest ∧
      q.push p = (.evicted oldest, { q with entries := rest ++ [p] }) := by
  obtain ⟨hp, hne⟩ := ha.resolve_left h
  obtain ⟨oldest, rest, he⟩ := List.exists_cons_of_ne_nil hne
  refine ⟨oldest, rest, he, ?_⟩
  rw [push, if_neg h, hp, he]

theorem push_of_not_admits {q : PendingQueue} (h : ¬q.Admits) (p : Press) : q.push p = (.dropped, q) := by
  obtain ⟨hs, hp⟩ := not_or.1 h
  rw [push, if_neg hs]
  split
  · rename_i he hq
    exact absurd ⟨he, by simp [hq]⟩ hp
  · rfl

theorem contains_iff {q : PendingQueue} {a : Address} : q.contains a = true ↔ a ∈ q.entries.map (·.addr) := by
  simp [contains, List.any_eq_true]

theorem drainFront_append (q : PendingQueue) (n : Nat) :
    (q.drainFront n).1 ++ (q.drainFront n).2.entries = q.entries :=
  List.take_append_drop n q.entries

end PendingQueue

end Chording
