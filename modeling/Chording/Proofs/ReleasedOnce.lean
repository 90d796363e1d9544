import Chording.Proofs.Records

/-!
# Each chord is released once

Whatever calls are made, a registry keeps the books of them (`Follows.run`), so what it shows and what it sends is told
by their records alone (`Accounts`).  Each activated chord presses its action key once and has it released once, by the
first call that ends it, and stays registered until the last of its addresses is released (`released_once`).
-/

namespace Chording

namespace ActiveChords

/-! ### Runs -/

section Runs

variable {a : ActiveChords} {past calls : List Call} {call : Call}

private theorem toNat_nextSlot_step (hlt : a.nextSlot.toNat + (records [call]).length < UInt32.size) :
    (a.step call).active.nextSlot.toNat = a.nextSlot.toNat + (records [call]).length := by
  cases call with
  | activate x => exact toNat_nextSlot_activate hlt x.id x.action x.first x.others x.time
  | releaseAll now => rfl
  | release addr now =>
    rw [step_release]
    cases hr : a.release? addr now with
    | none => rfl
    | some change =>
      obtain ⟨slot, -, -, hnext, -⟩ := exists_slot_of_release? hr
      exact congrArg UInt32.toNat hnext

private theorem length_records_append (calls calls' : List Call) :
    (records (calls ++ calls')).length = (records calls).length + (records calls').length := by
  induction calls with
  | nil => exact (Nat.zero_add _).symm
  | cons call calls ih =>
    cases call with
    | activate x => exact (congrArg (· + 1) ih).trans (Nat.add_right_comm _ _ _)
    | release | releaseAll => exact ih

private theorem permitsAll_append {front back : List Call} :
    a.PermitsAll (front ++ back) ↔ a.PermitsAll front ∧ (a.run front).active.PermitsAll back := by
  induction front generalizing a with
  | nil => exact (and_iff_right trivial).symm
  | cons call front ih => exact (and_congr_right fun _ => ih).trans and_assoc.symm

/-- The registry after some calls: it keeps the books of the records in which addresses wait, and slots were given out
one for each activation. -/
structure Follows (a : ActiveChords) (past : List Call) : Prop where
  toNat_nextSlot : a.nextSlot.toNat = (records past).length
  exists_books : ∃ l, a.Books l ∧ l.map (·.2) = (records past).filter (·.waiting ≠ [])

private theorem Follows.empty : (∅ : ActiveChords).Follows [] := ⟨rfl, [], Books.empty, rfl⟩

/-- Once no address waits in a record, none does after one call more. -/
private theorem filter_waiting_add (rs : List Record) (call : Call) :
    ((rs.filter (·.waiting ≠ [])).map (·.add call)).filter (·.waiting ≠ []) =
      (rs.map (·.add call)).filter (·.waiting ≠ []) := by
  rw [List.filter_map, List.filter_map, List.filter_filter]
  refine congrArg (List.map _) (List.filter_congr fun r _ => ?_)
  rw [Function.comp_apply, Bool.and_eq_left_iff_imp, decide_eq_true_iff, decide_eq_true_iff, Record.waiting_add]
  intro hne heq
  rw [heq] at hne
  exact hne rfl

private theorem Follows.step (h : a.Follows past) (hp : a.Permits call)
    (hlt : (records (past ++ [call])).length < UInt32.size) : (a.step call).active.Follows (past ++ [call]) := by
  obtain ⟨hnext, l, hl, hrecords⟩ := h
  rw [length_records_append, ← hnext] at hlt
  refine ⟨?_, _, hl.step hp hlt, ?_⟩
  · rw [toNat_nextSlot_step hlt, length_records_append, hnext]
  · have hnew : (records [call]).filter (·.waiting ≠ []) = records [call] := by
      cases call with
      | activate x => exact List.filter_cons_of_pos (decide_eq_true (Record.waiting_ne_nil_of_owed (r := ⟨x, []⟩) rfl))
      | release | releaseAll => rfl
    have hold : (l.add call).live.map (·.2) = ((l.map (·.2)).map (·.add call)).filter (·.waiting ≠ []) := by
      rw [Ledger.live, Ledger.add, List.filter_map, List.map_map, List.map_map, List.filter_map]
      rfl
    rw [List.map_append, hold, hrecords, filter_waiting_add, records_concat, List.filter_append, hnew, List.map_map]
    exact congrArg (_ ++ ·) (List.map_id _)

private theorem Follows.step_cons (h : a.Follows past) (hp : a.PermitsAll (call :: calls))
    (hlt : (records (past ++ call :: calls)).length < UInt32.size) :
    (a.step call).active.Follows (past ++ [call]) ∧ (records (past ++ [call] ++ calls)).length < UInt32.size := by
  rw [List.append_cons] at hlt
  refine ⟨h.step hp.1 (Nat.lt_of_le_of_lt ?_ hlt), hlt⟩
  rw [length_records_append (past ++ [call])]
  exact Nat.le_add_right _ _

theorem Follows.run (h : a.Follows past) (hp : a.PermitsAll calls)
    (hlt : (records (past ++ calls)).length < UInt32.size) : (a.run calls).active.Follows (past ++ calls) := by
  induction calls generalizing a past with
  | nil => exact (List.append_nil past).symm ▸ h
  | cons call calls ih =>
    obtain ⟨hstep, hlt⟩ := h.step_cons hp hlt
    rw [List.append_cons]
    exact ih hstep hp.2 hlt

end Runs

/-! ### What the registry shows and sends -/

/-- A registry accounts for some records: these are the chords that it registers and holds and the addresses that it
took, and of all releases it sends those that are owed. -/
structure Accounts (a : ActiveChords) (rs : List Record) : Prop where
  registered_eq : a.registered.map (·.2) = (rs.filter (·.waiting ≠ [])).map (·.chord)
  held_eq : a.held = (rs.filter (·.owed)).map (·.chord)
  isConsumed_iff : ∀ addr, a.isConsumed addr = true ↔ ∃ r ∈ rs, addr ∈ r.waiting
  events_step : ∀ call, (a.step call).events = call.presses ++
    (rs.filter fun r => r.owed && call.ends r.activation).map (·.activation.release call.time)
  events_releaseAll : ∀ now, (a.releaseAll now).events = (rs.filter (·.owed)).map (·.activation.release now)
  exists_release? : ∀ r ∈ rs, ∀ addr ∈ r.waiting, ∀ now, ∃ change, a.release? addr now = some change ∧
    change.events = (if r.owed then [r.activation.release now] else []) ∧
    (∀ b, change.active.isConsumed b = true ↔ a.isConsumed b = true ∧ addr ≠ b) ∧
    ∀ r' ∈ rs, addr ∈ r'.waiting → r' = r
  release_other : ∀ addr, (∀ r ∈ rs, addr ∉ r.waiting) → ∀ now,
    a.release? addr now = none ∧ a.step (.release addr now) = ⟨a, []⟩

section Accounts

variable {a : ActiveChords} {past calls : List Call} {rs : List Record}

/-- A record in which an address waits is in the books. -/
private theorem exists_entry {l : Ledger} (hl : l.map (·.2) = rs.filter (·.waiting ≠ [])) {r : Record} (hr : r ∈ rs)
    {addr : Address} (hw : addr ∈ r.waiting) : ∃ x ∈ l, x.2 = r := by
  have hmem : r ∈ rs.filter (·.waiting ≠ []) := List.mem_filter.2 ⟨hr, decide_eq_true (List.ne_nil_of_mem hw)⟩
  exact List.mem_map.1 (hl ▸ hmem)

/-- Records of chords whose release is owed are in the books. -/
private theorem filter_of_owed {l : Ledger} (hl : l.map (·.2) = rs.filter (·.waiting ≠ [])) {p : Record → Bool}
    (hp : ∀ r, p r = true → r.owed = true) : (l.map (·.2)).filter p = rs.filter p := by
  rw [hl, List.filter_filter]
  refine List.filter_congr fun r _ => Bool.and_eq_left_iff_imp.2 fun hr => ?_
  exact decide_eq_true (Record.waiting_ne_nil_of_owed (hp r hr))

private theorem Follows.isConsumed_iff (h : a.Follows past) {addr : Address} :
    a.isConsumed addr = true ↔ ∃ r ∈ records past, addr ∈ r.waiting := by
  obtain ⟨-, l, hl, hrecords⟩ := h
  rw [hl.isConsumed_iff_waiting]
  constructor
  · rintro ⟨x, hx, hw⟩
    exact ⟨x.2, (List.mem_filter.1 (hrecords ▸ List.mem_map_of_mem hx)).1, hw⟩
  · rintro ⟨r, hr, hw⟩
    obtain ⟨x, hx, rfl⟩ := exists_entry hrecords hr hw
    exact ⟨x, hx, hw⟩

private theorem Follows.events_step (h : a.Follows past) (call : Call) : (a.step call).events = call.presses ++
    ((records past).filter fun r => r.owed && call.ends r.activation).map (·.activation.release call.time) := by
  obtain ⟨-, l, hl, hrecords⟩ := h
  rw [hl.events_step, filter_of_owed hrecords fun r hr => (Bool.and_eq_true_iff.1 hr).1]

/-- An address waits in one record only, whose chord is let go with it if that is still owed. -/
private theorem Follows.exists_release? (h : a.Follows past) {r : Record} (hr : r ∈ records past) {addr : Address}
    (hw : addr ∈ r.waiting) (now : Nat) :
    ∃ change, a.release? addr now = some change ∧
      change.events = (if r.owed then [r.activation.release now] else []) ∧
      ∀ r' ∈ records past, addr ∈ r'.waiting → r' = r := by
  obtain ⟨-, l, hl, hrecords⟩ := h
  obtain ⟨x, hx, rfl⟩ := exists_entry hrecords hr hw
  obtain ⟨change, hchange, hev⟩ := hl.exists_release? hx hw now
  refine ⟨change, hchange, hev, fun r' hr' hw' => ?_⟩
  obtain ⟨y, hy, rfl⟩ := exists_entry hrecords hr' hw'
  have hslot := (hl.slot_eq_iff (hl.mem_consumed hx hw) hy).2 hw'
  rw [hl.eq_of_slot_eq hy hx hslot]

private theorem Follows.accounts (h : a.Follows past) : a.Accounts (records past) where
  registered_eq := by
    obtain ⟨-, l, hl, hrecords⟩ := h
    rw [hl.registered_eq, ← hrecords, Ledger.registered, List.map_map, List.map_map]
    rfl
  held_eq := by
    obtain ⟨-, l, hl, hrecords⟩ := h
    rw [hl.held_eq, filter_of_owed hrecords fun _ hr => hr]
  isConsumed_iff := fun _ => h.isConsumed_iff
  events_step := h.events_step
  events_releaseAll := by
    intro now
    refine (h.events_step (.releaseAll now)).trans ?_
    simp only [Call.ends, Bool.and_true]
    rfl
  exists_release? := by
    intro r hr addr hw now
    obtain ⟨change, hchange, hev, hone⟩ := h.exists_release? hr hw now
    exact ⟨change, hchange, hev, fun _ => isConsumed_release? hchange, hone⟩
  release_other := by
    intro addr hnot now
    have hnone : a.release? addr now = none := by
      rw [release?_eq_none_iff, Bool.eq_false_iff, ne_eq, h.isConsumed_iff]
      rintro ⟨r, hr, hw⟩
      exact hnot r hr hw
    exact ⟨hnone, by rw [step_release, hnone, Option.getD_none]⟩

private theorem edge_release {r : Record} {now : Nat} : (r.activation.release now).edge = .up := rfl

private theorem Accounts.filter_down (h : a.Accounts rs) (call : Call) :
    (a.step call).events.filter (·.edge = .down) = call.presses := by
  have hpresses : call.presses.filter (·.edge = .down) = call.presses := by cases call <;> rfl
  rw [h.events_step, List.filter_append, hpresses, List.append_right_eq_self, List.filter_eq_nil_iff]
  intro e he
  obtain ⟨r, -, rfl⟩ := List.mem_map.1 he
  simp [edge_release]

private theorem Accounts.filter_up (h : a.Accounts rs) (call : Call) :
    (a.step call).events.filter (·.edge = .up) =
      (rs.filter fun r => r.owed && call.ends r.activation).map (·.activation.release call.time) := by
  have hpresses : call.presses.filter (·.edge = .up) = [] := by cases call <;> rfl
  rw [h.events_step, List.filter_append, hpresses, List.nil_append, List.filter_eq_self]
  intro e he
  obtain ⟨r, -, rfl⟩ := List.mem_map.1 he
  exact decide_eq_true edge_release

/-- The action keys that a call releases are those that it was the first to end. -/
private theorem perm_release?_add (rs : List Record) (call : Call) :
    ((rs.map (·.add call)).filterMap (·.release?)).Perm (rs.filterMap (·.release?) ++
      (rs.filter fun r => r.owed && call.ends r.activation).map (·.activation.release call.time)) := by
  induction rs with
  | nil => exact List.Perm.refl _
  | cons r rs ih =>
    have hsome := r.isSome_release?
    rw [List.map_cons, List.filterMap_cons, List.filterMap_cons, List.filter_cons, r.release?_add call]
    cases hr : r.release? with
    | some e =>
      have howed : r.owed = false := by simpa [hr] using hsome
      rw [howed, Bool.false_and, if_neg Bool.false_ne_true]
      exact ih.cons e
    | none =>
      have howed : r.owed = true := by simpa [hr] using hsome
      rw [howed, Bool.true_and, Option.none_or]
      cases call.ends r.activation with
      | false => exact ih
      | true => exact (ih.cons _).trans List.perm_middle.symm

private theorem Follows.filter_down_run (h : a.Follows past) (hp : a.PermitsAll calls)
    (hlt : (records (past ++ calls)).length < UInt32.size) :
    (a.run calls).events.filter (·.edge = .down) = (records calls).map (·.activation.press) := by
  induction calls generalizing a past with
  | nil => rfl
  | cons call calls ih =>
    have hcons : (records (call :: calls)).map (·.activation.press) =
        call.presses ++ (records calls).map (·.activation.press) := by
      cases call <;> rfl
    obtain ⟨hstep, hlt⟩ := h.step_cons hp hlt
    show ((a.step call).events ++ _).filter _ = _
    rw [List.filter_append, h.accounts.filter_down, ih hstep hp.2 hlt, hcons]

/-- What was released before some calls and what they release is what is released in the end. -/
private theorem Follows.filter_up_run (h : a.Follows past) (hp : a.PermitsAll calls)
    (hlt : (records (past ++ calls)).length < UInt32.size) :
    ((records past).filterMap (·.release?) ++ (a.run calls).events.filter (·.edge = .up)).Perm
      ((records (past ++ calls)).filterMap (·.release?)) := by
  induction calls generalizing a past with
  | nil => simp [ActiveChords.run]
  | cons call calls ih =>
    have hnew : (records [call]).filterMap (·.release?) = [] := by cases call <;> rfl
    have hcall : ((records past).filterMap (·.release?) ++ (a.step call).events.filter (·.edge = .up)).Perm
        ((records (past ++ [call])).filterMap (·.release?)) := by
      rw [h.accounts.filter_up, records_concat, List.filterMap_append, hnew, List.append_nil]
      exact (perm_release?_add (records past) call).symm
    obtain ⟨hstep, hlt⟩ := h.step_cons hp hlt
    show (_ ++ ((a.step call).events ++ _).filter _).Perm _
    rw [List.filter_append, ← List.append_assoc, List.append_cons past]
    exact (hcall.append_right _).trans (ih hstep hp.2 hlt)

/-- As long as the slots have not started again, each activated chord presses its action key once and releases it once:
in the first call after that which releases one of its addresses or all action keys.  After every call, the chords that
are registered are those of which an address was not released yet, those whose release is owed are held, and the
release of an address frees just this one, if it was taken. -/
theorem released_once (calls : List Call) (hp : (∅ : ActiveChords).PermitsAll calls)
    (hlt : (records calls).length < UInt32.size) :
    ((∅ : ActiveChords).run calls).events.filter (·.edge = .down) = (records calls).map (·.activation.press) ∧
    (((∅ : ActiveChords).run calls).events.filter (·.edge = .up)).Perm ((records calls).filterMap (·.release?)) ∧
    ∀ front back, calls = front ++ back → ((∅ : ActiveChords).run front).active.Accounts (records front) := by
  refine ⟨Follows.empty.filter_down_run hp hlt, Follows.empty.filter_up_run hp hlt, ?_⟩
  rintro front back rfl
  rw [length_records_append] at hlt
  exact (Follows.empty.run (permitsAll_append.1 hp).1 (Nat.lt_of_le_of_lt (Nat.le_add_right _ _) hlt)).accounts

/-- Two chords, of which the second is let go with all; a third one takes an address that the first has released. -/
def reuse : List Call :=
  [.activate ⟨0, ⟨43⟩, ⟨⟨0, 1⟩, ⟨22⟩, 0⟩, [⟨⟨0, 2⟩, ⟨4⟩, 3⟩], 3⟩,
    .activate ⟨1, ⟨41⟩, ⟨⟨1, 1⟩, ⟨7⟩, 5⟩, [⟨⟨1, 2⟩, ⟨9⟩, 6⟩], 6⟩, .release ⟨0, 1⟩ 10,
    .activate ⟨2, ⟨40⟩, ⟨⟨0, 1⟩, ⟨22⟩, 20⟩, [⟨⟨0, 3⟩, ⟨5⟩, 21⟩], 21⟩, .releaseAll 30,
    .release ⟨0, 2⟩ 40, .release ⟨0, 1⟩ 50]

/-- The releases are at 10 and 30, and none is sent with the addresses that are released after that. -/
theorem released_once_reuse :
    (((∅ : ActiveChords).run reuse).events.filter (·.edge = .up)).Perm
      [⟨⟨0, 1⟩, ⟨43⟩, .up, 10⟩, ⟨⟨1, 1⟩, ⟨41⟩, .up, 30⟩, ⟨⟨0, 1⟩, ⟨40⟩, .up, 30⟩] ∧
    ((∅ : ActiveChords).run (reuse.take 4)).active.held = [⟨1, ⟨41⟩, ⟨1, 1⟩, true⟩, ⟨2, ⟨40⟩, ⟨0, 1⟩, true⟩] ∧
    ((∅ : ActiveChords).run (reuse.take 5)).active.Accounts (records (reuse.take 5)) := by
  obtain ⟨-, hups, haccounts⟩ := released_once reuse (by decide +kernel) (by decide)
  have hreleases : (records reuse).filterMap (·.release?) =
      [⟨⟨0, 1⟩, ⟨43⟩, .up, 10⟩, ⟨⟨1, 1⟩, ⟨41⟩, .up, 30⟩, ⟨⟨0, 1⟩, ⟨40⟩, .up, 30⟩] := by decide
  have hheld : ((records (reuse.take 4)).filter (·.owed)).map (·.chord) =
      [⟨1, ⟨41⟩, ⟨1, 1⟩, true⟩, ⟨2, ⟨40⟩, ⟨0, 1⟩, true⟩] := by decide
  exact ⟨hreleases ▸ hups, hheld ▸ (haccounts (reuse.take 4) (reuse.drop 4) rfl).held_eq,
    haccounts (reuse.take 5) (reuse.drop 5) rfl⟩

end Accounts

end ActiveChords

end Chording
