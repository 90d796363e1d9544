import Chording.Proofs.ActionKeys

/-!
# What calls say of active chords

What active chords keep in two lists and a counter is told by the calls that were made: by the activations among them,
each with the calls that came after it (`records`).  An address waits until it is released, and an action key is owed
its release until a call ends that: the first release of one of the addresses of its chord, or a release of all action
keys.

A registry keeps the books of those records in which addresses wait (`Books`), and a call leaves it with the books of
the same records with one call more (`Books.step`), sending the releases that it is the first to end
(`Books.events_step`).
-/

namespace Chording

namespace ActiveChords

/-! ### Calls and what they say -/

/-- A chord that becomes active: its position in the table, its action key, the presses that it takes, and when. -/
structure Activation where
  id : Nat
  action : KeyCode
  first : Press
  others : List Press
  time : Nat
deriving DecidableEq

namespace Activation

def addrs (x : Activation) : List Address := (x.first :: x.others).map (·.addr)

/-- The press of the action key, at the address of the first press. -/
def press (x : Activation) : KeyEvent := ⟨x.first.addr, x.action, .down, x.time⟩

def release (x : Activation) (now : Nat) : KeyEvent := ⟨x.first.addr, x.action, .up, now⟩

end Activation

/-- What may be done with active chords. -/
inductive Call
  | activate (x : Activation)
  | release (addr : Address) (now : Nat)
  | releaseAll (now : Nat)
deriving DecidableEq

/-- The release of an address that is not consumed does nothing. -/
def step (a : ActiveChords) : Call → ActiveChange
  | .activate x => a.activate x.id x.action (x.first :: x.others) x.time
  | .release addr now => (a.release? addr now).getD ⟨a, []⟩
  | .releaseAll now => a.releaseAll now

theorem step_release (a : ActiveChords) (addr : Address) (now : Nat) :
    a.step (.release addr now) = (a.release? addr now).getD ⟨a, []⟩ := rfl

/-- One call after another. -/
def run (a : ActiveChords) : List Call → ActiveChange
  | [] => ⟨a, []⟩
  | call :: calls =>
    let change := a.step call
    let rest := change.active.run calls
    ⟨rest.active, change.events ++ rest.events⟩

/-- A chord takes distinct addresses, and none that is consumed. -/
def Permits (a : ActiveChords) : Call → Prop
  | .activate x => x.addrs.Nodup ∧ ∀ addr ∈ x.addrs, a.isConsumed addr = false
  | .release .. | .releaseAll _ => True

instance (a : ActiveChords) : (call : Call) → Decidable (a.Permits call)
  | .activate x => inferInstanceAs (Decidable (x.addrs.Nodup ∧ ∀ addr ∈ x.addrs, a.isConsumed addr = false))
  | .release .. | .releaseAll _ => isTrue trivial

/-- Every call is permitted when it is made. -/
def PermitsAll (a : ActiveChords) : List Call → Prop
  | [] => True
  | call :: calls => a.Permits call ∧ (a.step call).active.PermitsAll calls

instance decidablePermitsAll (a : ActiveChords) : (calls : List Call) → Decidable (a.PermitsAll calls)
  | [] => isTrue trivial
  | call :: calls =>
    have := decidablePermitsAll (a.step call).active calls
    inferInstanceAs (Decidable (a.Permits call ∧ (a.step call).active.PermitsAll calls))

namespace Call

def time : Call → Nat
  | activate x => x.time
  | release _ now | releaseAll now => now

/-- The call releases the address. -/
def frees (addr : Address) : Call → Bool
  | release addr' _ => addr' = addr
  | activate _ | releaseAll _ => false

/-- The call releases the action key of the chord if that is still held: it releases an address of the chord, or all
action keys. -/
def ends (x : Activation) : Call → Bool
  | release addr _ => addr ∈ x.addrs
  | releaseAll _ => true
  | activate _ => false

def presses : Call → List KeyEvent
  | activate x => [x.press]
  | release .. | releaseAll _ => []

end Call

/-- An activation, and the calls that came after it. -/
structure Record where
  activation : Activation
  since : List Call
deriving DecidableEq

namespace Record

/-- The addresses of the chord that were not released since. -/
def waiting (r : Record) : List Address :=
  r.activation.addrs.filter fun addr => !r.since.any (Call.frees addr)

/-- No call since has released the action key. -/
def owed (r : Record) : Bool := !r.since.any (Call.ends r.activation)

/-- The release of the action key, by the first call that ends it. -/
def release? (r : Record) : Option KeyEvent :=
  (r.since.find? (Call.ends r.activation)).map fun call => r.activation.release call.time

/-- The chord as it is registered. -/
def chord (r : Record) : ActiveChord := ⟨r.activation.id, r.activation.action, r.activation.first.addr, r.owed⟩

/-- One call more. -/
def add (r : Record) (call : Call) : Record := { r with since := r.since ++ [call] }

variable {r : Record} {addr : Address} {now : Nat}

theorem waiting_add (r : Record) (call : Call) :
    (r.add call).waiting = r.waiting.filter fun addr => !call.frees addr := by
  simp [waiting, add, List.filter_filter, Bool.and_comm]

private theorem waiting_add_of_not_freed {call : Call} (h : ∀ b ∈ r.waiting, call.frees b = false) :
    (r.add call).waiting = r.waiting := by
  rw [waiting_add, List.filter_eq_self]
  intro b hb
  rw [h b hb, Bool.not_false]

private theorem waiting_add_release_of_not_mem (h : addr ∉ r.waiting) (now : Nat) :
    (r.add (.release addr now)).waiting = r.waiting :=
  waiting_add_of_not_freed fun _ hb => decide_eq_false fun heq => h (heq ▸ hb)

private theorem owed_add (r : Record) (call : Call) : (r.add call).owed = (r.owed && !call.ends r.activation) := by
  simp [owed, add]

theorem isSome_release? (r : Record) : r.release?.isSome = !r.owed := by
  rw [release?, Option.isSome_map, List.isSome_find?, owed, Bool.not_not]

theorem release?_add (r : Record) (call : Call) :
    (r.add call).release? =
      r.release?.or (if call.ends r.activation then some (r.activation.release call.time) else none) := by
  rw [release?, add, List.find?_append, List.find?_singleton, Option.map_or, release?]
  split <;> rfl

/-- As long as the release is owed, no address of the chord was released. -/
private theorem waiting_of_owed (h : r.owed = true) : r.waiting = r.activation.addrs := by
  rw [waiting, List.filter_eq_self]
  intro addr ha
  rw [owed, Bool.not_eq_true', List.any_eq_false] at h
  rw [Bool.not_eq_true', List.any_eq_false]
  intro call hcall hf
  refine h call hcall ?_
  cases call with
  | release addr' now =>
    obtain rfl : addr' = addr := by simpa [Call.frees] using hf
    simpa [Call.ends] using ha
  | activate | releaseAll => exact absurd hf Bool.false_ne_true

theorem waiting_ne_nil_of_owed (h : r.owed = true) : r.waiting ≠ [] := by
  rw [waiting_of_owed h]
  exact List.cons_ne_nil _ _

/-- The release of an address ends what is owed just if the address still waits. -/
private theorem owed_and_ends (r : Record) (addr : Address) (now : Nat) :
    (r.owed && (Call.release addr now).ends r.activation) = (r.owed && decide (addr ∈ r.waiting)) := by
  cases h : r.owed with
  | false => rfl
  | true => rw [waiting_of_owed h]; rfl

private theorem chord_add_release (r : Record) (addr : Address) (now : Nat) :
    (r.add (.release addr now)).chord = if addr ∈ r.waiting then { r.chord with held := false } else r.chord := by
  have howed : (r.add (.release addr now)).owed = (r.owed && !decide (addr ∈ r.waiting)) := by
    rw [owed_add]
    have h := r.owed_and_ends addr now
    revert h
    cases r.owed <;> simp
  rw [chord, howed]
  by_cases h : addr ∈ r.waiting <;> simp [h, chord, add]

end Record

/-- The activations among some calls in their order, each with the calls after it. -/
def records : List Call → List Record
  | [] => []
  | .activate x :: calls => ⟨x, calls⟩ :: records calls
  | .release .. :: calls | .releaseAll _ :: calls => records calls

theorem records_concat (calls : List Call) (call : Call) :
    records (calls ++ [call]) = (records calls).map (·.add call) ++ records [call] := by
  induction calls with
  | nil => rfl
  | cons first calls ih =>
    cases first with
    | activate x => exact congrArg (List.cons _) ih
    | release | releaseAll => exact ih

/-! ### The books -/

/-- The records of the chords that are registered, under their slots. -/
abbrev Ledger := List (Slot × Record)

namespace Ledger

def registered (l : Ledger) : List (Slot × ActiveChord) := l.map fun x => (x.1, x.2.chord)

def consumed (l : Ledger) : List (Address × Slot) := l.flatMap fun x => x.2.waiting.map (·, x.1)

/-- One call more for every record. -/
def add (l : Ledger) (call : Call) : Ledger := l.map fun x => (x.1, x.2.add call)

/-- The records with addresses that wait. -/
def live (l : Ledger) : Ledger := l.filter fun x => x.2.waiting ≠ []

variable {l : Ledger} {addr : Address} {slot : Slot} {call : Call}

private theorem mem_consumed : (addr, slot) ∈ l.consumed ↔ ∃ r, (slot, r) ∈ l ∧ addr ∈ r.waiting := by
  simp only [consumed, List.mem_flatMap, List.mem_map, Prod.mk.injEq, Prod.exists]
  grind

private theorem consumed_live (l : Ledger) : l.live.consumed = l.consumed := by
  induction l with
  | nil => rfl
  | cons x l ih =>
    have hcons : consumed (x :: l) = x.2.waiting.map (·, x.1) ++ consumed l := rfl
    rw [live, List.filter_cons, hcons, ← ih]
    by_cases h : x.2.waiting = []
    · rw [if_neg (by simpa using h), h]
      rfl
    · rw [if_pos (by simpa using h)]
      rfl

private theorem consumed_add (l : Ledger) (call : Call) :
    (l.add call).consumed = l.consumed.filter fun entry => !call.frees entry.1 := by
  rw [consumed, add, List.flatMap_map, consumed, List.filter_flatMap]
  refine List.flatMap_congr fun x _ => ?_
  rw [Record.waiting_add, List.filter_map]
  rfl

private theorem consumed_add_of_waiting_eq (hw : ∀ x ∈ l, (x.2.add call).waiting = x.2.waiting) :
    (l.add call).consumed = l.consumed := by
  rw [consumed, add, List.flatMap_map, consumed]
  exact List.flatMap_congr fun x hx => congrArg (List.map (·, x.1)) (hw x hx)

private theorem registered_add_of_chord_eq (hc : ∀ x ∈ l, (x.2.add call).chord = x.2.chord) :
    (l.add call).registered = l.registered := by
  rw [registered, add, List.map_map, registered]
  exact List.map_congr_left fun x hx => congrArg (Prod.mk x.1) (hc x hx)

private theorem consumed_add_release (l : Ledger) (addr : Address) (now : Nat) :
    (l.add (.release addr now)).consumed = l.consumed.filter fun entry => entry.1 ≠ addr := by
  rw [consumed_add]
  refine List.filter_congr fun entry _ => ?_
  rw [Call.frees, decide_not, Bool.not_inj_iff, decide_eq_decide, eq_comm]

end Ledger

/-- A registry keeps the books: it registers the chords of some records, of which addresses still wait, and those
addresses are taken. -/
structure Books (a : ActiveChords) (l : Ledger) : Prop where
  registered_eq : a.registered = l.registered
  consumed_eq : a.consumed = l.consumed
  waiting_ne_nil : ∀ x ∈ l, x.2.waiting ≠ []
  nodup_consumed : (a.consumed.map (·.1)).Nodup
  wellKept : a.WellKept

namespace Books

variable {a : ActiveChords} {l : Ledger} {addr : Address} {slot : Slot} {now : Nat} {call : Call}

theorem empty : (∅ : ActiveChords).Books [] where
  registered_eq := rfl
  consumed_eq := rfl
  waiting_ne_nil := fun _ h => absurd h List.not_mem_nil
  nodup_consumed := List.nodup_nil
  wellKept := WellKept.empty

private theorem nodup_slots (h : a.Books l) : (l.map (·.1)).Nodup := by
  have hn := h.wellKept.nodup_slots
  rwa [h.registered_eq, Ledger.registered, List.map_map] at hn

theorem eq_of_slot_eq (h : a.Books l) {x y : Slot × Record} (hx : x ∈ l) (hy : y ∈ l) (heq : x.1 = y.1) :
    x = y :=
  List.inj_on_of_nodup_map h.nodup_slots hx hy heq

theorem mem_consumed (h : a.Books l) {x : Slot × Record} (hx : x ∈ l) (hw : addr ∈ x.2.waiting) :
    (addr, x.1) ∈ a.consumed :=
  h.consumed_eq ▸ Ledger.mem_consumed.2 ⟨x.2, hx, hw⟩

/-- An address waits in the record at its slot, and in no other. -/
theorem slot_eq_iff (h : a.Books l) (hs : (addr, slot) ∈ a.consumed) {x : Slot × Record} (hx : x ∈ l) :
    x.1 = slot ↔ addr ∈ x.2.waiting := by
  constructor
  · rintro rfl
    obtain ⟨r, hr, hw⟩ := Ledger.mem_consumed.1 (h.consumed_eq ▸ hs)
    rwa [h.eq_of_slot_eq hx hr rfl]
  · intro hw
    exact slot_unique h.nodup_consumed (h.mem_consumed hx hw) hs

theorem isConsumed_iff_waiting (h : a.Books l) : a.isConsumed addr = true ↔ ∃ x ∈ l, addr ∈ x.2.waiting := by
  rw [isConsumed_iff]
  constructor
  · intro hm
    obtain ⟨entry, hs, rfl⟩ := List.mem_map.1 (h.consumed_eq ▸ hm)
    obtain ⟨r, hr, hw⟩ := Ledger.mem_consumed.1 hs
    exact ⟨(entry.2, r), hr, hw⟩
  · rintro ⟨x, hx, hw⟩
    exact List.mem_map_of_mem (h.mem_consumed hx hw)

private theorem not_mem_waiting (h : a.Books l) (hc : a.isConsumed addr = false) : ∀ x ∈ l, addr ∉ x.2.waiting :=
  fun x hx hw => Bool.false_ne_true (hc.symm.trans (h.isConsumed_iff_waiting.2 ⟨x, hx, hw⟩))

/-! ### What a call does to the books -/

/-- The books after a call that activates nothing. -/
private theorem of_eq (h : a.Books l) {a' : ActiveChords} (hreg : a'.registered = (l.add call).live.registered)
    (hcon : a'.consumed = (l.add call).consumed) (hwell : a'.WellKept) : a'.Books (l.add call).live where
  registered_eq := hreg
  consumed_eq := by rw [hcon, Ledger.consumed_live]
  waiting_ne_nil := fun x hx => by simpa using (List.mem_filter.1 hx).2
  nodup_consumed := by
    rw [hcon, Ledger.consumed_add, ← h.consumed_eq]
    exact h.nodup_consumed.sublist (List.filter_sublist.map _)
  wellKept := hwell

/-- A call that releases no address leaves every record in the books. -/
private theorem of_waiting_eq (h : a.Books l) (hw : ∀ x ∈ l, (x.2.add call).waiting = x.2.waiting) {a' : ActiveChords}
    (hreg : a'.registered = (l.add call).registered) (hcon : a'.consumed = a.consumed) (hwell : a'.WellKept) :
    a'.Books (l.add call).live := by
  have hlive : (l.add call).live = l.add call := by
    rw [Ledger.live, List.filter_eq_self]
    intro y hy
    obtain ⟨x, hx, rfl⟩ := List.mem_map.1 hy
    rw [decide_eq_true_iff, hw x hx]
    exact h.waiting_ne_nil x hx
  refine h.of_eq (hlive.symm ▸ hreg) ?_ hwell
  rw [hcon, h.consumed_eq, Ledger.consumed_add_of_waiting_eq hw]

/-- A call that releases neither an address nor an action key of the books changes nothing. -/
private theorem of_chord_eq (h : a.Books l) (hw : ∀ x ∈ l, (x.2.add call).waiting = x.2.waiting)
    (hc : ∀ x ∈ l, (x.2.add call).chord = x.2.chord) : a.Books (l.add call).live :=
  h.of_waiting_eq hw (h.registered_eq.trans (Ledger.registered_add_of_chord_eq hc).symm) rfl h.wellKept

private theorem activate (h : a.Books l) {x : Activation} (hp : a.Permits (.activate x))
    (hlt : a.nextSlot.toNat + 1 < UInt32.size) :
    (a.step (.activate x)).active.Books ((l.add (.activate x)).live ++ [(a.nextSlot, ⟨x, []⟩)]) := by
  have hwaiting : ∀ r : Record, (r.add (.activate x)).waiting = r.waiting := fun r =>
    Record.waiting_add_of_not_freed fun _ _ => rfl
  have hchord : ∀ r : Record, (r.add (.activate x)).chord = r.chord := by
    intro r
    rw [Record.chord, Record.owed_add]
    exact congrArg (ActiveChord.mk _ _ _) (Bool.and_true _)
  have hold := h.of_chord_eq (fun y _ => hwaiting y.2) fun y _ => hchord y.2
  have hd : ∀ p ∈ x.first :: x.others, a.isConsumed p.addr = false := List.forall_mem_map.1 hp.2
  have hwell := h.wellKept.activate hp.1 hd hlt x.id x.action x.time
  have hreg := registered_activate h.wellKept x.first x.others x.id x.action x.time
  have hcon : (a.step (.activate x)).active.consumed = a.consumed ++ x.addrs.map (·, a.nextSlot) := by
    rw [Activation.addrs, List.map_map]
    exact consumed_activate hp.1 hd x.id x.action x.time
  refine ⟨hreg.trans ?_, hcon.trans ?_, ?_, ?_, hwell⟩
  · rw [Ledger.registered, List.map_append, hold.registered_eq]
    rfl
  · rw [Ledger.consumed, List.flatMap_append, hold.consumed_eq]
    refine congrArg (_ ++ ·) ?_
    rw [List.flatMap_singleton, Record.waiting_of_owed rfl]
  · intro y hy
    rcases List.mem_append.1 hy with hy | hy
    · exact hold.waiting_ne_nil y hy
    · rw [List.mem_singleton.1 hy]
      exact Record.waiting_ne_nil_of_owed rfl
  · rw [hcon, List.map_append, List.map_map, List.nodup_append]
    refine ⟨h.nodup_consumed, by simpa [Function.comp_def] using hp.1, ?_⟩
    rintro addr hm _ hx rfl
    have hx' : addr ∈ x.addrs := by simpa [Function.comp_def] using hx
    exact Bool.false_ne_true ((hp.2 addr hx').symm.trans (isConsumed_iff.2 hm))

private theorem releaseAll (h : a.Books l) (now : Nat) :
    (a.step (.releaseAll now)).active.Books (l.add (.releaseAll now)).live := by
  have hwaiting : ∀ r : Record, (r.add (.releaseAll now)).waiting = r.waiting := fun r =>
    Record.waiting_add_of_not_freed fun _ _ => rfl
  refine h.of_waiting_eq (fun x _ => hwaiting x.2) ?_ rfl (h.wellKept.releaseAll now)
  show a.registered.map _ = _
  rw [h.registered_eq, Ledger.registered, Ledger.registered, Ledger.add, List.map_map, List.map_map]
  refine List.map_congr_left fun x _ => ?_
  rw [Function.comp_apply, Function.comp_apply, Record.chord, Record.chord, Record.owed_add]
  exact congrArg (fun b => (x.1, ActiveChord.mk _ _ _ b)) (Bool.and_false _).symm

/-- The release of an address that is not consumed is none of the chords in the books. -/
private theorem release_of_not_consumed (h : a.Books l) (hc : a.isConsumed addr = false) (now : Nat) :
    (a.step (.release addr now)).active.Books (l.add (.release addr now)).live := by
  have hstep : (a.step (.release addr now)).active = a := by
    rw [step_release, release?_eq_none_iff.2 hc, Option.getD_none]
  have hnot := h.not_mem_waiting hc
  rw [hstep]
  refine h.of_chord_eq (fun x hx => Record.waiting_add_release_of_not_mem (hnot x hx) now) fun x hx => ?_
  rw [Record.chord_add_release, if_neg (hnot x hx)]

/-- After the release of an address a record has addresses that wait, unless its slot was taken for none but this. -/
private theorem waiting_ne_nil_iff (h : a.Books l) (hs : (addr, slot) ∈ a.consumed) {x : Slot × Record}
    (hx : x ∈ l.add (.release addr now)) :
    x.2.waiting ≠ [] ↔
      (x.1 = slot → ∃ entry ∈ a.consumed.filter (fun entry => entry.1 ≠ addr), entry.2 = slot) := by
  rw [h.consumed_eq, ← Ledger.consumed_add_release l addr now]
  constructor
  · rintro hw rfl
    obtain ⟨b, hb⟩ := List.exists_mem_of_ne_nil _ hw
    exact ⟨(b, x.1), Ledger.mem_consumed.2 ⟨x.2, hx, hb⟩, rfl⟩
  · intro hother
    obtain ⟨y, hy, rfl⟩ := List.mem_map.1 hx
    by_cases hslot : y.1 = slot
    · obtain ⟨⟨b, s⟩, hm, rfl⟩ := hother hslot
      obtain ⟨r, hr, hb⟩ := Ledger.mem_consumed.1 hm
      obtain ⟨z, hz, heq⟩ := List.mem_map.1 hr
      obtain ⟨hzs, rfl⟩ := Prod.mk.inj heq
      obtain rfl := h.eq_of_slot_eq hy hz (hslot.trans hzs.symm)
      exact List.ne_nil_of_mem hb
    · -- the address waits in another record, so nothing changes in this one
      rw [Record.waiting_add_release_of_not_mem (fun hw => hslot ((h.slot_eq_iff hs hy).2 hw)) now]
      exact h.waiting_ne_nil y hy

private theorem release (h : a.Books l) (hs : (addr, slot) ∈ a.consumed) (now : Nat) :
    (a.step (.release addr now)).active.Books (l.add (.release addr now)).live := by
  have hslot := slotOf?_of_mem h.nodup_consumed hs
  obtain ⟨change, hr⟩ : ∃ change, a.release? addr now = some change :=
    Option.isSome_iff_exists.1 (by simp [release?, hslot])
  have hwell := h.wellKept.release? h.nodup_consumed hr
  have hcon := consumed_release? hr
  rw [step_release, hr, Option.getD_some]
  have hletGo : letGo slot a.registered = (l.add (.release addr now)).registered := by
    rw [letGo, h.registered_eq, Ledger.registered, Ledger.registered, Ledger.add, List.map_map, List.map_map]
    refine List.map_congr_left fun x hx => ?_
    rw [Function.comp_apply, Function.comp_apply, Record.chord_add_release]
    simp only [h.slot_eq_iff hs hx]
    split <;> rfl
  refine h.of_eq ?_ (hcon.trans (h.consumed_eq ▸ (Ledger.consumed_add_release l addr now).symm)) hwell
  rw [release?, hslot, Option.map_some, Option.some.injEq] at hr
  rw [← hr]
  simp only [hletGo, List.any_eq_true, decide_eq_true_eq]
  split
  · rename_i hother
    rw [Ledger.live, List.filter_eq_self.2]
    intro x hx
    rw [decide_eq_true_iff, h.waiting_ne_nil_iff hs hx]
    exact fun _ => hother
  · rename_i hlast
    rw [Ledger.live, Ledger.registered, Ledger.registered, List.filter_map]
    refine congrArg (List.map _) (List.filter_congr fun x hx => ?_)
    rw [Function.comp_apply, decide_eq_decide, h.waiting_ne_nil_iff hs hx]
    exact (imp_iff_not hlast).symm

/-! ### What a call sends -/

theorem held_eq (h : a.Books l) : a.held = ((l.map (·.2)).filter (·.owed)).map (·.chord) := by
  rw [held, h.registered_eq, Ledger.registered, List.map_map, List.filter_map, List.filter_map, List.map_map]
  rfl

private theorem heldAt?_eq (h : a.Books l) {x : Slot × Record} (hx : x ∈ l) :
    a.heldAt? x.1 = if x.2.owed then some x.2.chord else none := by
  split
  · rename_i howed
    refine (mem_heldAt? h.wellKept).2 ⟨?_, howed⟩
    rw [h.registered_eq]
    exact List.mem_map_of_mem hx
  · rename_i howed
    refine heldAt?_eq_none fun c hc => howed ?_
    obtain ⟨y, hy, heq⟩ := List.mem_map.1 (h.registered_eq ▸ hc.1)
    obtain ⟨hslot, rfl⟩ := Prod.mk.inj heq
    rw [h.eq_of_slot_eq hx hy hslot.symm]
    exact hc.2

/-- An address waits in one record. -/
private theorem filter_waiting (h : a.Books l) {x : Slot × Record} (hx : x ∈ l) (hw : addr ∈ x.2.waiting) :
    l.filter (fun y => addr ∈ y.2.waiting) = [x] := by
  have hiff : ∀ y ∈ l, decide (addr ∈ y.2.waiting) = decide (y = x) := by
    intro y hy
    rw [decide_eq_decide, ← h.slot_eq_iff (h.mem_consumed hx hw) hy]
    exact ⟨h.eq_of_slot_eq hy hx, congrArg Prod.fst⟩
  rw [List.filter_congr hiff, List.filter_eq, List.count_eq_one_of_mem h.nodup_slots.of_map hx, List.replicate_one]

/-- The release of an address that waits releases the action key of its chord if that is still owed. -/
theorem exists_release? (h : a.Books l) {x : Slot × Record} (hx : x ∈ l) (hw : addr ∈ x.2.waiting) (now : Nat) :
    ∃ change, a.release? addr now = some change ∧
      change.events = if x.2.owed then [x.2.activation.release now] else [] := by
  obtain ⟨change, hr, hev, -, -⟩ := ActiveChords.exists_release? h.nodup_consumed (h.mem_consumed hx hw) now
  refine ⟨change, hr, ?_⟩
  rw [hev, h.heldAt?_eq hx]
  split <;> rfl

/-- A call presses the action key of the chord that it activates, and releases those that are owed their release and
that it ends. -/
theorem events_step (h : a.Books l) (call : Call) :
    (a.step call).events = call.presses ++
      ((l.map (·.2)).filter fun r => r.owed && call.ends r.activation).map (·.activation.release call.time) := by
  cases call with
  | activate x =>
    rw [List.filter_eq_nil_iff.2 fun r _ => by simp [Call.ends], List.map_nil, List.append_nil]
    rfl
  | releaseAll now =>
    show a.held.map _ = _
    rw [h.held_eq, List.map_map]
    simp only [Call.ends, Bool.and_true]
    rfl
  | release addr now =>
    simp only [Record.owed_and_ends]
    rw [step_release]
    cases hc : a.isConsumed addr with
    | false =>
      rw [release?_eq_none_iff.2 hc, List.filter_eq_nil_iff.2]
      · rfl
      · intro r hr
        obtain ⟨x, hx, rfl⟩ := List.mem_map.1 hr
        simp [h.not_mem_waiting hc x hx]
    | true =>
      obtain ⟨x, hx, hw⟩ := h.isConsumed_iff_waiting.1 hc
      obtain ⟨change, hr, hev⟩ := h.exists_release? hx hw now
      have hone : (l.map (·.2)).filter (fun r => r.owed && decide (addr ∈ r.waiting)) = [x.2].filter (·.owed) := by
        rw [← List.filter_filter, List.filter_map]
        exact congrArg (fun l => (l.map Prod.snd).filter Record.owed) (h.filter_waiting hx hw)
      rw [hr, Option.getD_some, hev, hone]
      cases howed : x.2.owed <;> simp [howed, Call.presses, Call.time]

/-- The books after a call: every record with one call more, as long as addresses wait in it, and the chord that the
call activates. -/
theorem step (h : a.Books l) (hp : a.Permits call)
    (hlt : a.nextSlot.toNat + (records [call]).length < UInt32.size) :
    (a.step call).active.Books ((l.add call).live ++ (records [call]).map (a.nextSlot, ·)) := by
  cases call with
  | activate x => exact h.activate hp hlt
  | releaseAll now =>
    rw [show records [.releaseAll now] = [] from rfl, List.map_nil, List.append_nil]
    exact h.releaseAll now
  | release addr now =>
    rw [show records [.release addr now] = [] from rfl, List.map_nil, List.append_nil]
    cases hc : a.isConsumed addr with
    | false => exact h.release_of_not_consumed hc now
    | true =>
      obtain ⟨entry, hs, rfl⟩ := List.mem_map.1 (isConsumed_iff.1 hc)
      exact h.release hs now

end Books

end ActiveChords

end Chording
