import Chording.Proofs.SameActions
import Mathlib.Data.Finset.Card
import Mathlib.Order.Bounds.Basic

/-!
# Matching compares sets of keys

The matcher compares lengths and looks for each key in the chords, in one scan of the table.  Because keys are distinct
on both sides, this compares the set of the keys with the sets of keys of the chords (`isFirstWith_iff`,
`hasLonger_iff`), so the order of the keys does not matter (`classify_perm`), and the place of a chord in the table
only where several chords have the same keys.
-/

namespace Chording

namespace ChordTable

/-- The positions of the chords with just these keys. -/
def exactIds (t : ChordTable) (keys : Finset KeyCode) : Set Nat :=
  {id | ∃ chord, t.get? id = some chord ∧ chord.keys.toFinset = keys}

/-- The positions of the chords with these keys and others. -/
def longerIds (t : ChordTable) (keys : Finset KeyCode) : Set Nat :=
  {id | ∃ chord, t.get? id = some chord ∧ keys ⊂ chord.keys.toFinset}

/-- The lengths of the fronts that spell a chord and leave out at least one key. -/
def spellingFronts (t : ChordTable) (keys : List KeyCode) : Set Nat :=
  {n | 2 ≤ n ∧ n < keys.length ∧ (keys.take n).Nodup ∧ (t.exactIds (keys.take n).toFinset).Nonempty}

variable {t : ChordTable} {keys keys' : List KeyCode} {e : Entry} {n : Nat}

/-! ### Sets of keys -/

private theorem mem_exactIds (hn : keys.Nodup) {id : Nat} :
    id ∈ t.exactIds keys.toFinset ↔ ∃ chord, t.get? id = some chord ∧ keys.Perm chord.keys :=
  exists_congr fun _ => and_congr_right fun _ => (perm_iff_toFinset_eq hn).symm

/-- The first chord with distinct keys is the one at the least position of a chord with this set of keys. -/
theorem isFirstWith_iff :
    t.IsFirstWith keys e ↔ keys.Nodup ∧ e ∈ t.entries ∧ IsLeast (t.exactIds keys.toFinset) e.id := by
  constructor
  · intro h
    refine ⟨h.nodup, h.mem, (mem_exactIds h.nodup).2 ⟨e.chord, mem_entries.1 h.mem, h.perm⟩, fun id hid => ?_⟩
    obtain ⟨chord, hget, hp⟩ := (mem_exactIds h.nodup).1 hid
    exact h.id_le ⟨id, chord⟩ (mem_entries.2 hget) hp
  · rintro ⟨hn, hmem, hid, hle⟩
    refine ⟨hmem, ?_, fun e' he' hp => hle ((mem_exactIds hn).2 ⟨e'.chord, mem_entries.1 he', hp⟩)⟩
    obtain ⟨chord, hget, hp⟩ := (mem_exactIds hn).1 hid
    rwa [Option.some.inj ((mem_entries.1 hmem).symm.trans hget)]

private theorem spelled?_eq_some_iff_isLeast (hn : keys.Nodup) :
    t.spelled? keys = some e ↔ e ∈ t.entries ∧ IsLeast (t.exactIds keys.toFinset) e.id := by
  rw [spelled?_eq_some_iff, isFirstWith_iff, and_iff_right hn]

private theorem spelled?_eq_none_iff_exactIds (hn : keys.Nodup) :
    t.spelled? keys = none ↔ t.exactIds keys.toFinset = ∅ := by
  rw [Set.eq_empty_iff_forall_notMem]
  constructor
  · intro h id hid
    obtain ⟨chord, hget, hp⟩ := (mem_exactIds hn).1 hid
    obtain ⟨e, he⟩ := exists_isFirstWith (List.mem_of_getElem? hget) hp
    exact Option.some_ne_none e ((spelled?_eq_some_iff.2 he).symm.trans h)
  · intro h
    refine Option.eq_none_iff_forall_ne_some.2 fun e he => ?_
    exact h e.id (isFirstWith_iff.1 (spelled?_eq_some_iff.1 he)).2.2.1

theorem hasLonger_iff (hn : keys.Nodup) : t.hasLonger keys = true ↔ (t.longerIds keys.toFinset).Nonempty := by
  have hsub : ∀ chord : Chord, keys.toFinset ⊆ chord.keys.toFinset ↔ keys ⊆ chord.keys := fun chord => by
    simp [Finset.subset_iff, List.subset_def]
  have hcard : ∀ chord : Chord, chord.keys.toFinset.card = chord.keys.length := fun chord =>
    List.toFinset_card_of_nodup chord.nodup_keys
  constructor
  · intro h
    obtain ⟨e, he, hlt⟩ := List.any_eq_true.1 h
    obtain ⟨he, hall⟩ := mem_candidates.1 he
    refine ⟨e.id, e.chord, mem_entries.1 he, Finset.ssubset_iff_subset_ne.2 ⟨(hsub _).2 hall, fun heq => ?_⟩⟩
    -- sets that are the same have the same size
    have hsize := congrArg Finset.card heq
    rw [hcard, List.toFinset_card_of_nodup hn] at hsize
    simp [hsize] at hlt
  · rintro ⟨id, chord, hget, hss⟩
    refine hasLonger_of_mem (List.mem_of_getElem? hget) ((hsub _).1 hss.subset) ?_
    rw [← hcard, ← List.toFinset_card_of_nodup hn]
    exact Finset.card_lt_card hss

/-- A chord contains all keys of a set if it has just these keys, or others too. -/
private theorem forall_not_subset_iff {keys : Finset KeyCode} :
    (∀ chord ∈ t.chords, ¬keys ⊆ chord.keys.toFinset) ↔ t.exactIds keys = ∅ ∧ t.longerIds keys = ∅ := by
  rw [Set.eq_empty_iff_forall_notMem, Set.eq_empty_iff_forall_notMem]
  constructor
  · refine fun h => ⟨?_, ?_⟩
    · rintro id ⟨chord, hget, rfl⟩
      exact h chord (List.mem_of_getElem? hget) (Finset.Subset.refl _)
    · rintro id ⟨chord, hget, hss⟩
      exact h chord (List.mem_of_getElem? hget) hss.subset
  · rintro ⟨hexact, hlonger⟩ chord hc hsub
    obtain ⟨id, hget⟩ := List.mem_iff_getElem?.1 hc
    rcases hsub.eq_or_ssubset with heq | hss
    · exact hexact id ⟨chord, hget, heq.symm⟩
    · exact hlonger id ⟨chord, hget, hss⟩

/-! ### What keys may become -/

private theorem classify_eq_impossible_iff :
    t.classify keys = .impossible ↔
      keys = [] ∨ ¬keys.Nodup ∨ ∀ chord ∈ t.chords, ¬keys.toFinset ⊆ chord.keys.toFinset := by
  by_cases hk : keys = [] ∨ ¬keys.Nodup
  · rw [← or_assoc, classify, if_pos hk]
    exact iff_of_true rfl (Or.inl hk)
  · obtain ⟨hne, hn⟩ := not_or.1 hk
    have hn := Decidable.not_not.1 hn
    rw [or_iff_right hne, or_iff_right (not_not_intro hn), forall_not_subset_iff, ← spelled?_eq_none_iff_exactIds hn,
      ← Set.not_nonempty_iff_eq_empty, ← hasLonger_iff hn, classify_of_spelled? hne hn]
    cases t.spelled? keys <;> cases t.hasLonger keys <;> simp

/-- The keys are distinct, and there are any, unless they are part of no chord. -/
private theorem nodup_of_classify (h : t.classify keys ≠ .impossible) : keys ≠ [] ∧ keys.Nodup := by
  have hk : ¬(keys = [] ∨ ¬keys.Nodup) := fun hk => h (if_pos hk)
  obtain ⟨hne, hn⟩ := not_or.1 hk
  exact ⟨hne, Decidable.not_not.1 hn⟩

private theorem classify_eq_complete_iff (h : t.classify keys ≠ .impossible) :
    t.classify keys = .complete e ↔
      e ∈ t.entries ∧ IsLeast (t.exactIds keys.toFinset) e.id ∧ t.longerIds keys.toFinset = ∅ := by
  obtain ⟨hne, hn⟩ := nodup_of_classify h
  rw [← and_assoc, ← spelled?_eq_some_iff_isLeast hn, ← Set.not_nonempty_iff_eq_empty, ← hasLonger_iff hn,
    classify_of_spelled? hne hn]
  cases t.spelled? keys <;> cases t.hasLonger keys <;> simp

private theorem classify_eq_deferred_iff (h : t.classify keys ≠ .impossible) :
    t.classify keys = .deferred e ↔
      e ∈ t.entries ∧ IsLeast (t.exactIds keys.toFinset) e.id ∧ (t.longerIds keys.toFinset).Nonempty := by
  obtain ⟨hne, hn⟩ := nodup_of_classify h
  rw [← and_assoc, ← spelled?_eq_some_iff_isLeast hn, ← hasLonger_iff hn, classify_of_spelled? hne hn]
  cases t.spelled? keys <;> cases t.hasLonger keys <;> simp

private theorem classify_eq_incomplete_iff (h : t.classify keys ≠ .impossible) :
    t.classify keys = .incomplete ↔ t.exactIds keys.toFinset = ∅ := by
  obtain ⟨hne, hn⟩ := nodup_of_classify h
  rw [← spelled?_eq_none_iff_exactIds hn]
  rw [classify_of_spelled? hne hn] at h ⊢
  cases hs : t.spelled? keys <;> cases hl : t.hasLonger keys <;> simp_all

/-- The order of the keys does not matter. -/
theorem classify_perm (h : keys'.Perm keys) : t.classify keys' = t.classify keys := by
  by_cases hk : keys = [] ∨ ¬keys.Nodup
  · have hk' : keys' = [] ∨ ¬keys'.Nodup := hk.imp (fun heq => (heq ▸ h).eq_nil) fun hn => mt h.nodup_iff.1 hn
    rw [classify, if_pos hk', classify, if_pos hk]
  · obtain ⟨hne, hn⟩ := not_or.1 hk
    have hn := Decidable.not_not.1 hn
    have hspelled : t.spelled? keys' = t.spelled? keys := by
      ext e
      rw [spelled?_eq_some_iff, spelled?_eq_some_iff]
      exact ⟨fun he => he.of_perm h.symm, fun he => he.of_perm h⟩
    have hlonger : t.hasLonger keys' = t.hasLonger keys := by
      rw [Bool.eq_iff_iff, hasLonger_iff hn, hasLonger_iff (h.nodup_iff.2 hn), List.toFinset_eq_of_perm _ _ h]
    rw [classify_of_spelled? (fun heq => hne (heq ▸ h).nil_eq.symm) (h.nodup_iff.2 hn), classify_of_spelled? hne hn,
      hspelled, hlonger]

/-! ### Fronts that spell a chord -/

private theorem mem_spellingFronts :
    n ∈ t.spellingFronts keys ↔ n ≤ keys.length - 1 ∧ ∃ e, t.spelled? (keys.take n) = some e := by
  constructor
  · rintro ⟨hmin, hlt, hn, hex⟩
    refine ⟨by omega, Option.ne_none_iff_exists'.1 fun hnone => ?_⟩
    rw [(spelled?_eq_none_iff_exactIds hn).1 hnone] at hex
    exact Set.not_nonempty_empty hex
  · rintro ⟨hle, e, he⟩
    have hfirst := isFirstWith_iff.1 (spelled?_eq_some_iff.1 he)
    have hlen := two_le_of_spelled? he
    rw [List.length_take] at hlen
    exact ⟨by omega, by omega, hfirst.1, e.id, hfirst.2.2.1⟩

private theorem longestProperFront?_eq_some_iff :
    t.longestProperFront? keys = some (e, n) ↔
      IsGreatest (t.spellingFronts keys) n ∧ e ∈ t.entries ∧ IsLeast (t.exactIds (keys.take n).toFinset) e.id := by
  rw [longestProperFront?, longestFrontUpTo?_eq_some_iff]
  constructor
  · rintro ⟨hle, hs, hlonger⟩
    obtain ⟨-, hfirst⟩ := isFirstWith_iff.1 (spelled?_eq_some_iff.1 hs)
    refine ⟨⟨mem_spellingFronts.2 ⟨hle, e, hs⟩, fun k hk => Nat.le_of_not_lt fun hlt => ?_⟩, hfirst⟩
    obtain ⟨hk, e', he'⟩ := mem_spellingFronts.1 hk
    exact Option.some_ne_none e' (he'.symm.trans (hlonger k hk hlt))
  · rintro ⟨⟨hmem, hgreatest⟩, hfirst⟩
    refine ⟨(mem_spellingFronts.1 hmem).1, (spelled?_eq_some_iff_isLeast hmem.2.2.1).2 hfirst, ?_⟩
    refine fun k hk hlt => Option.eq_none_iff_forall_ne_some.2 fun e' he' => ?_
    exact Nat.not_le_of_lt hlt (hgreatest (mem_spellingFronts.2 ⟨hk, e', he'⟩))

private theorem longestProperFront?_eq_none_iff : t.longestProperFront? keys = none ↔ t.spellingFronts keys = ∅ := by
  rw [longestProperFront?, longestFrontUpTo?_eq_none_iff, Set.eq_empty_iff_forall_notMem]
  refine forall_congr' fun n => ?_
  rw [mem_spellingFronts, not_and, not_exists, Option.eq_none_iff_forall_ne_some]

/-- What keys may become depends on the set of them only: they are part of no chord, they are those of some chord, of
which the first counts, or they are some of the keys of longer chords.  The longest front that is found is the longest
one whose set of keys is that of a chord. -/
theorem matches_sets (t : ChordTable) (keys : List KeyCode) :
    (t.classify keys = .impossible ↔
      keys = [] ∨ ¬keys.Nodup ∨ ∀ chord ∈ t.chords, ¬keys.toFinset ⊆ chord.keys.toFinset) ∧
    (t.classify keys ≠ .impossible →
      (∀ e, t.classify keys = .complete e ↔
        e ∈ t.entries ∧ IsLeast (t.exactIds keys.toFinset) e.id ∧ t.longerIds keys.toFinset = ∅) ∧
      (∀ e, t.classify keys = .deferred e ↔
        e ∈ t.entries ∧ IsLeast (t.exactIds keys.toFinset) e.id ∧ (t.longerIds keys.toFinset).Nonempty) ∧
      (t.classify keys = .incomplete ↔ t.exactIds keys.toFinset = ∅)) ∧
    (∀ e n, t.longestProperFront? keys = some (e, n) ↔
      IsGreatest (t.spellingFronts keys) n ∧ e ∈ t.entries ∧ IsLeast (t.exactIds (keys.take n).toFinset) e.id) ∧
    (t.longestProperFront? keys = none ↔ t.spellingFronts keys = ∅) ∧
    ∀ keys' : List KeyCode, keys'.Perm keys → t.classify keys' = t.classify keys :=
  ⟨classify_eq_impossible_iff,
    fun h => ⟨fun _ => classify_eq_complete_iff h, fun _ => classify_eq_deferred_iff h, classify_eq_incomplete_iff h⟩,
    fun _ _ => longestProperFront?_eq_some_iff, longestProperFront?_eq_none_iff, fun _ => classify_perm⟩

/-- The keys of the shorter of two nested chords, in both orders, and behind them a key of neither. -/
theorem matches_sets_nested :
    ∃ t e, ofDefs Config.nested.chords = .ok t ∧ e.id = 0 ∧
      t.classify [⟨4⟩, ⟨22⟩] = .deferred e ∧ t.classify [⟨22⟩, ⟨4⟩] = .deferred e ∧
      IsLeast (t.exactIds [⟨4⟩, ⟨22⟩].toFinset) 0 ∧ (t.longerIds [⟨4⟩, ⟨22⟩].toFinset).Nonempty ∧
      t.longestProperFront? [⟨22⟩, ⟨4⟩, ⟨9⟩] = some (e, 2) ∧
      IsGreatest (t.spellingFronts [⟨22⟩, ⟨4⟩, ⟨9⟩]) 2 := by
  obtain ⟨t, e, ht, he, hdeferred, hfront⟩ : ∃ t e, ofDefs Config.nested.chords = .ok t ∧ e.id = 0 ∧
      t.classify [⟨4⟩, ⟨22⟩] = .deferred e ∧ t.longestProperFront? [⟨22⟩, ⟨4⟩, ⟨9⟩] = some (e, 2) :=
    ⟨_, _, rfl, rfl, rfl, rfl⟩
  obtain ⟨-, hsets, -, -, hperm⟩ := matches_sets t [⟨4⟩, ⟨22⟩]
  obtain ⟨-, hdeferred', -⟩ := hsets (by simp [hdeferred])
  obtain ⟨-, hleast, hlonger⟩ := (hdeferred' e).1 hdeferred
  obtain ⟨-, -, hfronts, -, -⟩ := matches_sets t [⟨22⟩, ⟨4⟩, ⟨9⟩]
  exact ⟨t, e, ht, he, hdeferred, (hperm _ (by decide)).trans hdeferred, he ▸ hleast, hlonger, hfront,
    ((hfronts e 2).1 hfront).1⟩

end ChordTable

end Chording
