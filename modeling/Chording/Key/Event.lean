import Chording.Key.Code

/-!
# Key events

Presses and releases as they come from the key matrix and as they go on downstream.  Events are told apart by where
they happen and not by what they mean, so that an event that stands for several keys can borrow the address of one
of them.
-/

namespace Chording

/-- Where a switch sits in the key matrix. -/
structure Address where
  row : UInt8
  col : UInt8
deriving DecidableEq

/-- The letter `r` and the row, then the letter `c` and the column. -/
def Address.display (a : Address) : String :=
  let row := a.row.toNat
  let col := a.col.toNat
  s!"r{row}c{col}"

/-- The direction of a key transition. -/
inductive Edge
  | down
  | up
deriving DecidableEq

/-- One key transition; `time` is the host's clock in milliseconds. -/
structure KeyEvent where
  addr : Address
  key : KeyCode
  edge : Edge
  time : Nat
deriving DecidableEq

/-- A press that is held back. -/
structure Press where
  addr : Address
  key : KeyCode
  time : Nat
deriving DecidableEq

namespace Press

/-- The press exactly as it was received. -/
def event (p : Press) : KeyEvent :=
  ⟨p.addr, p.key, .down, p.time⟩

def ofEvent (e : KeyEvent) : Press :=
  ⟨e.addr, e.key, e.time⟩

@[simp]
theorem addr_ofEvent (e : KeyEvent) : (ofEvent e).addr = e.addr := rfl

@[simp]
theorem key_ofEvent (e : KeyEvent) : (ofEvent e).key = e.key := rfl

@[simp]
theorem time_ofEvent (e : KeyEvent) : (ofEvent e).time = e.time := rfl

end Press

end Chording
