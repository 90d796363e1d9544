import Chording.Config

/-!
# Configurations that can be used

A configuration can be used if its queue has room for a press and each of its chords has two to five distinct keys.
The checks are made one after another and stop at the first that fails: of several chords that cannot be used the first
one is told (`chordsOfDefs_eq_error_iff`), of a chord the number of its keys before a key that is repeated
(`Chord.ofDef_eq_error_iff`), and of its keys the first that stands among those before it (`firstRepeat?_eq_some_iff`).
So a check accepts just the configurations that can be used, and what it refuses tells what is wrong with the others
(`validate_tells`).
-/

namespace Chording

/-- A chord that can be used has two to five distinct keys. -/
structure ChordDef.Usable (d : ChordDef) : Prop where
  two_le_length : 2 ≤ d.keys.length
  length_le_five : d.keys.length ≤ 5
  nodup_keys : d.keys.Nodup

/-- What is wrong with a chord: how many keys it has, or else the first key that stands among those before it. -/
inductive ChordDef.Has (d : ChordDef) : ChordDefect → Prop
  | tooFewKeys : d.keys.length < 2 → d.Has (.tooFewKeys d.keys.length)
  | tooManyKeys : 5 < d.keys.length → d.Has (.tooManyKeys d.keys.length)
  | repeatedKey {before behind : List KeyCode} {key : KeyCode} :
      2 ≤ d.keys.length → d.keys.length ≤ 5 → d.keys = before ++ key :: behind → before.Nodup → key ∈ before →
        d.Has (.repeatedKey key)

/-- The first chord that cannot be used, by its position, and what is wrong with it. -/
def FirstBad (defs : List ChordDef) (e : BadChord) : Prop :=
  ∃ before d behind, defs = before ++ d :: behind ∧ e.index = before.length ∧ d.Has e.defect ∧ ∀ d' ∈ before, d'.Usable

instance (d : ChordDef) : Decidable d.Usable :=
  decidable_of_iff (2 ≤ d.keys.length ∧ d.keys.length ≤ 5 ∧ d.keys.Nodup)
    ⟨fun ⟨hmin, hmax, hn⟩ => ⟨hmin, hmax, hn⟩, fun h => ⟨h.two_le_length, h.length_le_five, h.nodup_keys⟩⟩

/-! ### One chord -/

section OneChord

variable {d : ChordDef} {defect : ChordDefect} {seen keys : List KeyCode} {key : KeyCode}

private theorem firstRepeat?_append {before : List KeyCode} (h : firstRepeat? seen before = none)
    (keys : List KeyCode) : firstRepeat? seen (before ++ keys) = firstRepeat? (before.reverse ++ seen) keys := by
  induction before generalizing seen with
  | nil => rfl
  | cons first before ih =>
    rw [firstRepeat?] at h
    split at h
    · cases h
    · rename_i hseen
      rw [List.cons_append, firstRepeat?, if_neg hseen, ih h, List.reverse_cons, List.append_assoc,
        List.singleton_append]

/-- The key that is found stands behind keys that are not repeated, and is one of them or was seen before. -/
theorem firstRepeat?_eq_some_iff :
    firstRepeat? seen keys = some key ↔
      ∃ before behind, keys = before ++ key :: behind ∧ firstRepeat? seen before = none ∧
        (key ∈ before ∨ key ∈ seen) := by
  constructor
  · intro h
    induction keys generalizing seen with
    | nil => cases h
    | cons first keys ih =>
      rw [firstRepeat?] at h
      split at h
      · rename_i hseen
        obtain rfl := Option.some.inj h
        exact ⟨[], keys, rfl, rfl, Or.inr hseen⟩
      · rename_i hseen
        obtain ⟨before, behind, rfl, hbefore, hkey⟩ := ih h
        refine ⟨first :: before, behind, rfl, by rw [firstRepeat?, if_neg hseen, hbefore], ?_⟩
        rwa [List.mem_cons, or_assoc, or_left_comm, ← List.mem_cons]
  · rintro ⟨before, behind, rfl, hbefore, hkey⟩
    rw [firstRepeat?_append hbefore, firstRepeat?, if_pos]
    rwa [List.mem_append, List.mem_reverse]

private theorem firstRepeat?_nil_eq_some_iff :
    firstRepeat? [] keys = some key ↔
      ∃ before behind, keys = before ++ key :: behind ∧ before.Nodup ∧ key ∈ before := by
  simp [firstRepeat?_eq_some_iff, firstRepeat?_eq_none_iff]

theorem Chord.ofDef_eq_error_iff : Chord.ofDef d = .error defect ↔ d.Has defect := by
  constructor
  · intro h
    rw [Chord.ofDef] at h
    split at h
    · rename_i hmin
      obtain rfl := Except.error.inj h
      exact .tooFewKeys hmin
    split at h
    · rename_i hmax
      obtain rfl := Except.error.inj h
      exact .tooManyKeys hmax
    rename_i hmin hmax
    split at h
    · rename_i key hrepeat
      obtain rfl := Except.error.inj h
      obtain ⟨before, behind, heq, hn, hmem⟩ := firstRepeat?_nil_eq_some_iff.1 hrepeat
      exact .repeatedKey (Nat.le_of_not_lt hmin) (Nat.le_of_not_lt hmax) heq hn hmem
    · cases h
  · intro h
    cases h with
    | tooFewKeys hmin => exact dif_pos hmin
    | tooManyKeys hmax =>
      have hmin : ¬d.keys.length < minChordKeys := Nat.not_lt.2 (Nat.le_trans (by decide) (Nat.le_of_lt hmax))
      rw [Chord.ofDef, dif_neg hmin]
      exact dif_pos hmax
    | repeatedKey hmin hmax heq hn hmem =>
      have hmin : ¬d.keys.length < minChordKeys := Nat.not_lt.2 hmin
      have hmax : ¬maxChordKeys < d.keys.length := Nat.not_lt.2 hmax
      have hrepeat := firstRepeat?_nil_eq_some_iff.2 ⟨_, _, heq, hn, hmem⟩
      rw [Chord.ofDef, dif_neg hmin, dif_neg hmax]
      split
      · rename_i key hkey
        rw [Option.some.inj (hkey.symm.trans hrepeat)]
      · rename_i hnone
        cases hnone.symm.trans hrepeat

private theorem Chord.exists_ofDef_iff : (∃ chord, Chord.ofDef d = .ok chord) ↔ d.Usable := by
  constructor
  · rintro ⟨chord, h⟩
    obtain ⟨hkeys, -⟩ := Chord.ofDef_eq_ok h
    exact ⟨hkeys ▸ chord.min_le_length, hkeys ▸ chord.length_le_max, hkeys ▸ chord.nodup_keys⟩
  · intro h
    cases hd : Chord.ofDef d with
    | ok chord => exact ⟨chord, rfl⟩
    | error defect =>
      cases Chord.ofDef_eq_error_iff.1 hd with
      | tooFewKeys hmin => exact absurd h.two_le_length (Nat.not_le.2 hmin)
      | tooManyKeys hmax => exact absurd h.length_le_five (Nat.not_le.2 hmax)
      | repeatedKey _ _ heq _ hmem =>
        have hn := h.nodup_keys
        rw [heq] at hn
        exact absurd rfl ((List.nodup_append.1 hn).2.2 _ hmem _ List.mem_cons_self)

end OneChord

/-! ### All chords -/

namespace ChordTable

variable {defs : List ChordDef} {e : BadChord}

private theorem chordsOfDefs_cons_of_ok {d : ChordDef} {chord : Chord} (h : Chord.ofDef d = .ok chord) (index : Nat)
    (defs : List ChordDef) : chordsOfDefs index (d :: defs) = (chordsOfDefs (index + 1) defs).map (chord :: ·) := by
  rw [chordsOfDefs, h]

private theorem chordsOfDefs_of_has {before : List ChordDef} (hb : ∀ d' ∈ before, d'.Usable) {d : ChordDef}
    {defect : ChordDefect} (hd : d.Has defect) (index : Nat) (behind : List ChordDef) :
    chordsOfDefs index (before ++ d :: behind) = .error ⟨index + before.length, defect⟩ := by
  induction before generalizing index with
  | nil =>
    rw [List.nil_append, chordsOfDefs, Chord.ofDef_eq_error_iff.2 hd]
    rfl
  | cons first before ih =>
    obtain ⟨hfirst, hb⟩ := List.forall_mem_cons.1 hb
    obtain ⟨chord, hchord⟩ := Chord.exists_ofDef_iff.2 hfirst
    rw [List.cons_append, chordsOfDefs_cons_of_ok hchord, ih hb (index + 1), List.length_cons, Nat.succ_add_eq_add_succ]
    rfl

/-- Positions are counted from that of the first chord. -/
theorem chordsOfDefs_eq_error_iff {index : Nat} :
    chordsOfDefs index defs = .error e ↔
      ∃ before d behind, defs = before ++ d :: behind ∧ e.index = index + before.length ∧ d.Has e.defect ∧
        ∀ d' ∈ before, d'.Usable := by
  constructor
  · intro h
    induction defs generalizing index with
    | nil => cases h
    | cons first defs ih =>
      cases hfirst : Chord.ofDef first with
      | error defect =>
        rw [chordsOfDefs, hfirst] at h
        obtain rfl := Except.error.inj h
        exact ⟨[], first, defs, rfl, rfl, Chord.ofDef_eq_error_iff.1 hfirst, fun d hd => absurd hd List.not_mem_nil⟩
      | ok chord =>
        rw [chordsOfDefs_cons_of_ok hfirst] at h
        cases hdefs : chordsOfDefs (index + 1) defs with
        | ok chords => rw [hdefs] at h; cases h
        | error e' =>
          rw [hdefs] at h
          obtain rfl := Except.error.inj h
          obtain ⟨before, d, behind, rfl, hindex, hd, hbefore⟩ := ih hdefs
          refine ⟨first :: before, d, behind, rfl, ?_, hd, ?_⟩
          · rw [hindex, List.length_cons, Nat.succ_add_eq_add_succ]
          · exact List.forall_mem_cons.2 ⟨Chord.exists_ofDef_iff.1 ⟨chord, hfirst⟩, hbefore⟩
  · rintro ⟨before, d, behind, rfl, hindex, hd, hbefore⟩
    rw [chordsOfDefs_of_has hbefore hd, ← hindex]

private theorem exists_chordsOfDefs_iff (index : Nat) :
    (∃ chords, chordsOfDefs index defs = .ok chords) ↔ ∀ d ∈ defs, d.Usable := by
  induction defs generalizing index with
  | nil => exact iff_of_true ⟨[], rfl⟩ fun d hd => absurd hd List.not_mem_nil
  | cons d defs ih =>
    rw [List.forall_mem_cons, ← Chord.exists_ofDef_iff, ← ih (index + 1), chordsOfDefs]
    cases Chord.ofDef d with
    | error defect => simp
    | ok chord => cases chordsOfDefs (index + 1) defs <;> simp [Except.map]

private theorem ofDefs_eq_error_iff : ofDefs defs = .error e ↔ FirstBad defs e := by
  have h : chordsOfDefs 0 defs = .error e ↔ FirstBad defs e := by
    rw [chordsOfDefs_eq_error_iff, FirstBad]
    simp only [Nat.zero_add]
  rw [← h, ofDefs]
  cases chordsOfDefs 0 defs <;> simp [Except.map]

private theorem exists_ofDefs_iff : (∃ t, ofDefs defs = .ok t) ↔ ∀ d ∈ defs, d.Usable := by
  rw [← exists_chordsOfDefs_iff 0, ofDefs]
  cases chordsOfDefs 0 defs <;> simp [Except.map]

end ChordTable

/-! ### Configurations -/

namespace Config

variable {c : Config}

private theorem exists_validate_iff : (∃ t, c.validate = .ok t) ↔ 0 < c.capacity ∧ ∀ d ∈ c.chords, d.Usable := by
  rw [UInt64.pos_iff_ne_zero, ← ChordTable.exists_ofDefs_iff]
  simp only [validate_eq_ok_iff, exists_and_left]

private theorem validate_eq_zeroCapacity_iff : c.validate = .error .zeroCapacity ↔ c.capacity = 0 := by
  by_cases h : c.capacity = 0
  · simp [validate, h]
  · cases ht : ChordTable.ofDefs c.chords with
    | ok t => simp [validate_of_ok h ht, h]
    | error e => simp [validate_of_error h ht, h]

private theorem validate_eq_badChord_iff {e : BadChord} :
    c.validate = .error (.badChord e) ↔ 0 < c.capacity ∧ FirstBad c.chords e := by
  rw [UInt64.pos_iff_ne_zero, ← ChordTable.ofDefs_eq_error_iff]
  by_cases h : c.capacity = 0
  · simp [validate, h]
  · cases ht : ChordTable.ofDefs c.chords with
    | ok t => simp [validate_of_ok h ht]
    | error e' => simp [validate_of_error h ht, h]

/-- A configuration passes the check just if it can be used.  Its table then has the chords that were written, in their
order and with their keys and action keys, and a key takes part if one of them lists it.  Any other configuration lacks
room, or else is refused for the first of its chords that cannot be used, with what is wrong with that. -/
theorem validate_tells (c : Config) :
    ((∃ t, c.validate = .ok t) ↔ 0 < c.capacity ∧ ∀ d ∈ c.chords, d.Usable) ∧
    (∀ t, c.validate = .ok t → t.chords.map Chord.toDef = c.chords ∧
      ∀ key, t.isParticipant key = true ↔ ∃ d ∈ c.chords, key ∈ d.keys) ∧
    (c.validate = .error .zeroCapacity ↔ c.capacity = 0) ∧
    ∀ e, c.validate = .error (.badChord e) ↔ 0 < c.capacity ∧ FirstBad c.chords e :=
  ⟨exists_validate_iff,
    fun _ ht =>
      have hdefs := (validate_eq_ok_iff.1 ht).2
      ⟨ChordTable.map_toDef_of_ofDefs hdefs, fun _ => ChordTable.isParticipant_iff_of_ofDefs hdefs⟩,
    validate_eq_zeroCapacity_iff, fun _ => validate_eq_badChord_iff⟩

/-- Two chords with the key code 0, of which the second lists it twice, and one with six keys. -/
def repeating : Config where
  chords := [⟨[⟨0⟩, ⟨22⟩], ⟨20⟩⟩, ⟨[⟨5⟩, ⟨0⟩, ⟨22⟩, ⟨0⟩], ⟨26⟩⟩, ⟨[⟨4⟩, ⟨5⟩, ⟨6⟩, ⟨7⟩, ⟨8⟩, ⟨9⟩], ⟨8⟩⟩]

/-- The second chord is told and not the third one; without the two the configuration can be used, and with a capacity
of zero neither is looked at. -/
theorem validate_tells_repeating :
    repeating.validate = .error (.badChord ⟨1, .repeatedKey ⟨0⟩⟩) ∧
    { repeating with capacity := 0 }.validate = .error .zeroCapacity ∧
    ∃ t, { repeating with chords := repeating.chords.take 1 }.validate = .ok t ∧
      t.chords.map Chord.toDef = [⟨[⟨0⟩, ⟨22⟩], ⟨20⟩⟩] ∧ t.isParticipant ⟨0⟩ = true ∧ t.isParticipant ⟨5⟩ = false := by
  have hfirst : FirstBad repeating.chords ⟨1, .repeatedKey ⟨0⟩⟩ :=
    ⟨[⟨[⟨0⟩, ⟨22⟩], ⟨20⟩⟩], ⟨[⟨5⟩, ⟨0⟩, ⟨22⟩] ++ ⟨0⟩ :: [], ⟨26⟩⟩, _, rfl, rfl,
      .repeatedKey (by decide) (by decide) rfl (by decide) (by decide), by decide⟩
  obtain ⟨-, -, -, hbad⟩ := validate_tells repeating
  obtain ⟨-, -, hzero, -⟩ := validate_tells { repeating with capacity := 0 }
  obtain ⟨hok, htable, -, -⟩ := validate_tells { repeating with chords := repeating.chords.take 1 }
  obtain ⟨t, ht⟩ := hok.2 (by decide)
  obtain ⟨hchords, hkeys⟩ := htable t ht
  refine ⟨(hbad _).2 ⟨by decide, hfirst⟩, hzero.2 rfl, t, ht, hchords, (hkeys _).2 (by decide), ?_⟩
  rw [Bool.eq_false_iff, ne_eq, hkeys]
  decide

end Config

end Chording
