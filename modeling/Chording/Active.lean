import Chording.Key.Event

/-!
# Active chords

The chords whose action key was pressed downstream, and the addresses whose presses they took.  The action key is
released once, on the first release of one of these addresses; the others are swallowed, so a chord stays registered
until the last of its addresses is free.

Chords are told apart by slots, numbers that are given out one after another and start again after the largest.  The
key facts: `release?` frees just the released address (`consumed_release?`), and an address that was not taken is
not released (`release?_eq_none_iff`).
-/

namespace Chording

/-- The number under which an activated chord is registered. -/
abbrev Slot := UInt32

/-- An activated chord: its position in the table, its action key, the address that stands for it downstream, and
whether the action key is still held there. -/
structure ActiveChord where
  id : Nat
  action : KeyCode
  addr : Address
  held : Bool
deriving DecidableEq

namespace ActiveChord

def press (c : ActiveChord) (now : Nat) : KeyEvent :=
  ⟨c.addr, c.action, .down, now⟩

def release (c : ActiveChord) (now : Nat) : KeyEvent :=
  ⟨c.addr, c.action, .up, now⟩

end ActiveChord

/-- The registered chords in the order of their slots, the slot for which each consumed address waits, and the next
free slot. -/
structure ActiveChords where
  registered : List (Slot × ActiveChord)
  consumed : List (Address × Slot)
  nextSlot : Slot
deriving DecidableEq

/-- The chords after a change, and the events that it sends. -/
structure ActiveChange where
  active : ActiveChords
  events : List KeyEvent
deriving DecidableEq

namespace ActiveChords

def empty : ActiveChords := ⟨[], [], 0⟩

instance : EmptyCollection ActiveChords := ⟨empty⟩

/-- Enters a chord at the place of its slot, instead of one that has the slot already. -/
def insertAt (slot : Slot) (chord : ActiveChord) : List (Slot × ActiveChord) → List (Slot × ActiveChord)
  | [] => [(slot, chord)]
  | (s, c) :: rest =>
    if s < slot then (s, c) :: insertAt slot chord rest
    else if s = slot then (slot, chord) :: rest
    else (slot, chord) :: (s, c) :: rest

/-- Takes an address for a slot, from another slot if need be. -/
def consume (slot : Slot) (consumed : List (Address × Slot)) (a : Address) : List (Address × Slot) :=
  consumed.filter (fun entry => entry.1 ≠ a) ++ [(a, slot)]

/-- Registers a chord, takes the addresses of its presses and presses its action key at the first of them. -/
def activate (a : ActiveChords) (id : Nat) (action : KeyCode) (presses : List Press) (now : Nat) : ActiveChange :=
  match presses with
  | [] => ⟨a, []⟩
  | first :: _ =>
    let chord : ActiveChord := ⟨id, action, first.addr, true⟩
    { active := {
        registered := insertAt a.nextSlot chord a.registered
        consumed := (presses.map (·.addr)).foldl (consume a.nextSlot) a.consumed
        nextSlot := a.nextSlot + 1 }
      events := [chord.press now] }

/-- Marks the chord of a slot as no longer held. -/
def letGo (slot : Slot) (registered : List (Slot × ActiveChord)) : List (Slot × ActiveChord) :=
  registered.map fun (s, c) => if s = slot then (s, { c with held := false }) else (s, c)

/-- The chord of a slot, if its action key is still held. -/
def heldAt? (a : ActiveChords) (slot : Slot) : Option ActiveChord :=
  (a.registered.find? fun entry => entry.1 = slot && entry.2.held).map (·.2)

def slotOf? (a : ActiveChords) (addr : Address) : Option Slot :=
  (a.consumed.find? fun entry => entry.1 = addr).map (·.2)

/-- Releases a consumed address, and with it the action key of its chord if that is still held.  A chord leaves with
its last address. -/
def release? (a : ActiveChords) (addr : Address) (now : Nat) : Option ActiveChange :=
  (a.slotOf? addr).map fun slot =>
    let consumed := a.consumed.filter fun entry => entry.1 ≠ addr
    let registered := letGo slot a.registered
    { active := { a with
        registered :=
          if consumed.any fun entry => entry.2 = slot then registered
          else registered.filter fun entry => entry.1 ≠ slot
        consumed := consumed }
      events := ((a.heldAt? slot).map (·.release now)).toList }

/-- The chords whose action key is held downstream. -/
def held (a : ActiveChords) : List ActiveChord :=
  (a.registered.map (·.2)).filter (·.held)

/-- Releases every held action key in the order of the slots.  The addresses stay consumed. -/
def releaseAll (a : ActiveChords) (now : Nat) : ActiveChange where
  active := { a with registered := a.registered.map fun (s, c) => (s, { c with held := false }) }
  events := a.held.map (·.release now)

def isConsumed (a : ActiveChords) (addr : Address) : Bool :=
  a.consumed.any fun entry => entry.1 = addr

/-- How many chords are registered, held or not. -/
def size (a : ActiveChords) : Nat := a.registered.length

def isEmpty (a : ActiveChords) : Bool := a.registered.isEmpty

theorem isConsumed_iff {a : ActiveChords} {addr : Address} :
    a.isConsumed addr = true ↔ addr ∈ a.consumed.map (·.1) := by
  simp [isConsumed, List.any_eq_true]

theorem release?_eq_none_iff {a : ActiveChords} {addr : Address} {now : Nat} :
    a.release? addr now = none ↔ a.isConsumed addr = false := by
  simp [release?, slotOf?, isConsumed]

theorem consumed_release? {a : ActiveChords} {addr : Address} {now : Nat} {c : ActiveChange}
    (h : a.release? addr now = some c) : c.active.consumed = a.consumed.filter fun entry => entry.1 ≠ addr := by
  obtain ⟨slot, _, rfl⟩ := Option.map_eq_some_iff.1 h
  rfl

theorem held_releaseAll (a : ActiveChords) (now : Nat) : (a.releaseAll now).active.held = [] := by
  simp only [releaseAll, held, List.filter_eq_nil_iff, List.map_map, List.mem_map]
  rintro _ ⟨_, _, rfl⟩
  exact Bool.false_ne_true

end ActiveChords

end Chording
