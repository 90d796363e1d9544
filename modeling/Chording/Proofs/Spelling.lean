import Chording.Proofs.Viability

/-!
# Spelling chords

The matcher told by the keys of chords and not by its scan of the table.  Keys spell the first chord that consists of
just these keys, in any order (`spelled?_eq_some_iff`).  Keys that are worth waiting for are left alone
(`recheck_of_viable`), so a queue at rest changes only when a call ends its wait, and then the longest front that
spells a chord is taken (`settle?_of_longestFront?`).
-/

namespace Chording

namespace ChordTable

/-- Of the chords that consist of just these keys, the one defined first. -/
structure IsFirstWith (t : ChordTable) (keys : List KeyCode) (e : Entry) : Prop where
  mem : e ∈ t.entries
  perm : keys.Perm e.chord.keys
  id_le : ∀ e' ∈ t.entries, keys.Perm e'.chord.keys → e.id ≤ e'.id

variable {t : ChordTable} {keys : List KeyCode} {e : Entry}

/-! ### The first chord with given keys -/

private theorem pairwise_id_entries (t : ChordTable) : t.entries.Pairwise (·.id < ·.id) := by
  have hids : t.entries.map (·.id) = List.range' 0 t.chords.length := by
    rw [entries, List.map_map, ← List.zipIdx_map_snd]
    rfl
  rw [← List.pairwise_map, hids]
  exact List.pairwise_lt_range'

/-- In a table the first match is the one with the least position. -/
theorem find?_entries_eq_some_iff {p : Entry → Bool} :
    t.entries.find? p = some e ↔ e ∈ t.entries ∧ p e = true ∧ ∀ e' ∈ t.entries, p e' = true → e.id ≤ e'.id := by
  have hsorted := t.pairwise_id_entries
  constructor
  · intro h
    obtain ⟨hpe, before, behind, heq, hnot⟩ := List.find?_eq_some_iff_append.1 h
    rw [heq] at hsorted ⊢
    refine ⟨by simp, hpe, fun e' he' hpe' => ?_⟩
    rcases List.mem_append.1 he' with he' | he'
    · exact absurd hpe' (by simpa using hnot e' he')
    · rcases List.mem_cons.1 he' with rfl | he'
      · exact Nat.le_refl _
      · exact Nat.le_of_lt ((List.pairwise_cons.1 (List.pairwise_append.1 hsorted).2.1).1 e' he')
  · rintro ⟨he, hpe, hle⟩
    obtain ⟨e₀, h₀⟩ : ∃ e₀, t.entries.find? p = some e₀ :=
      Option.isSome_iff_exists.1 (List.find?_isSome.2 ⟨e, he, hpe⟩)
    obtain ⟨hp₀, before, behind, heq, hnot⟩ := List.find?_eq_some_iff_append.1 h₀
    rw [h₀]
    rw [heq] at he hsorted
    rcases List.mem_append.1 he with he | he
    · exact absurd hpe (by simpa using hnot e he)
    · rcases List.mem_cons.1 he with rfl | he
      · rfl
      · have hlt := (List.pairwise_cons.1 (List.pairwise_append.1 hsorted).2.1).1 e he
        exact absurd (hle e₀ (heq ▸ by simp) hp₀) (Nat.not_le_of_lt hlt)

/-- Distinct keys of a chord are all of its keys if they are as many. -/
private theorem perm_iff_of_nodup (hn : keys.Nodup) {chord : Chord} :
    keys.Perm chord.keys ↔ (∀ key ∈ keys, key ∈ chord.keys) ∧ chord.keys.length = keys.length := by
  constructor
  · intro h
    exact ⟨fun _ hk => h.subset hk, h.length_eq.symm⟩
  · rintro ⟨hsub, hlen⟩
    exact (List.subperm_of_subset hn hsub).perm_of_length_le (Nat.le_of_eq hlen)

private theorem candidateOfSize?_eq_some_iff (hn : keys.Nodup) :
    t.candidateOfSize? keys = some e ↔ t.IsFirstWith keys e := by
  have hp : ∀ e : Entry, (keys.all (fun key => key ∈ e.chord.keys) = true ∧
      e.chord.keys.length = keys.length) ↔ keys.Perm e.chord.keys := by
    intro e
    rw [perm_iff_of_nodup hn]
    simp
  rw [candidateOfSize?, candidates, List.find?_filter, find?_entries_eq_some_iff]
  simp only [decide_eq_true_eq, hp]
  constructor
  · rintro ⟨hmem, hperm, hle⟩
    exact ⟨hmem, hperm, hle⟩
  · intro h
    exact ⟨h.mem, h.perm, h.id_le⟩

theorem exists_isFirstWith {chord : Chord} (hc : chord ∈ t.chords) (hp : keys.Perm chord.keys) :
    ∃ e, t.IsFirstWith keys e := by
  have hn : keys.Nodup := hp.nodup_iff.2 chord.nodup_keys
  obtain ⟨id, hid⟩ := List.mem_iff_getElem?.1 hc
  have hcand : (⟨id, chord⟩ : Entry) ∈ t.candidates keys :=
    mem_candidates.2 ⟨mem_entries.2 hid, fun _ hk => hp.subset hk⟩
  obtain ⟨e, he⟩ : ∃ e, t.candidateOfSize? keys = some e :=
    Option.isSome_iff_exists.1 (List.find?_isSome.2 ⟨_, hcand, by simp [hp.length_eq]⟩)
  exact ⟨e, (candidateOfSize?_eq_some_iff hn).1 he⟩

theorem IsFirstWith.of_perm (h : t.IsFirstWith keys e) {keys' : List KeyCode} (hp : keys'.Perm keys) :
    t.IsFirstWith keys' e :=
  ⟨h.mem, hp.trans h.perm, fun e' he' hk => h.id_le e' he' (hp.symm.trans hk)⟩

theorem IsFirstWith.nodup (h : t.IsFirstWith keys e) : keys.Nodup :=
  h.perm.nodup_iff.2 e.chord.nodup_keys

private theorem IsFirstWith.two_le_length (h : t.IsFirstWith keys e) : 2 ≤ keys.length :=
  h.perm.length_eq ▸ e.chord.min_le_length

private theorem IsFirstWith.ne_nil (h : t.IsFirstWith keys e) : keys ≠ [] :=
  List.ne_nil_of_length_pos (Nat.lt_of_lt_of_le Nat.zero_lt_two h.two_le_length)

/-- What keys may become, if they are distinct and there are any. -/
private theorem classify_of_nodup (hne : keys ≠ []) (hn : keys.Nodup) :
    t.classify keys =
      match t.candidateOfSize? keys, t.hasLonger keys with
      | some e, false => .complete e
      | some e, true => .deferred e
      | none, true => .incomplete
      | none, false => .impossible :=
  if_neg (not_or.2 ⟨hne, not_not_intro hn⟩)

/-- Keys spell the first chord that consists of just these keys. -/
theorem spelled?_eq_some_iff : t.spelled? keys = some e ↔ t.IsFirstWith keys e := by
  constructor
  · intro h
    obtain ⟨-, hn, -, hlen⟩ := of_spelled?_eq_some h
    have hne : keys ≠ [] := by
      rintro rfl
      exact absurd e.chord.min_le_length (by simp [hlen, minChordKeys])
    rw [spelled?, classify_of_nodup hne hn] at h
    refine (candidateOfSize?_eq_some_iff hn).1 ?_
    split at h <;> cases h <;> assumption
  · intro h
    rw [spelled?, classify_of_nodup h.ne_nil h.nodup, (candidateOfSize?_eq_some_iff h.nodup).2 h]
    cases t.hasLonger keys <;> rfl

/-- What distinct keys may become is told by the chord that they spell and by whether a longer one is possible. -/
theorem classify_of_spelled? (hne : keys ≠ []) (hn : keys.Nodup) :
    t.classify keys =
      match t.spelled? keys, t.hasLonger keys with
      | some e, false => .complete e
      | some e, true => .deferred e
      | none, true => .incomplete
      | none, false => .impossible := by
  have hsame : t.candidateOfSize? keys = t.spelled? keys := by
    ext e
    rw [candidateOfSize?_eq_some_iff hn, spelled?_eq_some_iff]
  rw [classify_of_nodup hne hn, hsame]

theorem two_le_of_spelled? (h : t.spelled? keys = some e) : 2 ≤ keys.length :=
  (spelled?_eq_some_iff.1 h).two_le_length

theorem spelled?_of_deferred (h : t.classify keys = .deferred e) : t.spelled? keys = some e := by
  rw [spelled?, h]
  rfl

theorem spelled?_of_impossible (h : t.classify keys = .impossible) : t.spelled? keys = none := by
  rw [spelled?, h]
  rfl

/-- Keys become a chord at once if no chord strictly contains them. -/
theorem classify_of_maximal (h : t.IsFirstWith keys e)
    (hmax : ∀ chord ∈ t.chords, keys ⊆ chord.keys → chord.keys.length ≤ keys.length) :
    t.classify keys = .complete e := by
  have hlong : t.hasLonger keys = false := by
    unfold hasLonger
    rw [List.any_eq_false]
    intro e' he'
    obtain ⟨he', hsub⟩ := mem_candidates.1 he'
    simpa using hmax e'.chord (List.mem_of_getElem? (mem_entries.1 he')) hsub
  rw [classify_of_nodup h.ne_nil h.nodup, (candidateOfSize?_eq_some_iff h.nodup).2 h, hlong]

/-! ### Keys that are worth waiting for -/

theorem hasLonger_of_mem {chord : Chord} (hc : chord ∈ t.chords) (hsub : keys ⊆ chord.keys)
    (hlt : keys.length < chord.keys.length) : t.hasLonger keys = true := by
  obtain ⟨id, hid⟩ := List.mem_iff_getElem?.1 hc
  have he : (⟨id, chord⟩ : Entry) ∈ t.candidates keys := mem_candidates.2 ⟨mem_entries.2 hid, hsub⟩
  exact List.any_eq_true.2 ⟨_, he, by simpa using hlt⟩

theorem Viable.sublist (h : t.Viable keys) {keys' : List KeyCode} (hs : keys'.Sublist keys) : t.Viable keys' := by
  rcases h with rfl | ⟨hn, chord, hc, hsub, key, hk, hnk⟩
  · exact Or.inl (List.sublist_nil.1 hs)
  · exact Or.inr ⟨hn.sublist hs, chord, hc, List.Subset.trans hs.subset hsub, key, hk, fun hm => hnk (hs.subset hm)⟩

/-- One key of a chord never is all of the chord. -/
theorem viable_singleton {key : KeyCode} (h : t.isParticipant key = true) : t.Viable [key] := by
  obtain ⟨chord, hc, hk⟩ := isParticipant_iff.1 h
  refine Or.inr ⟨by simp, chord, hc, by simpa using hk, ?_⟩
  by_contra hall
  have hsub : chord.keys ⊆ [key] := fun k hk => by_contra fun hnk => hall ⟨k, hk, hnk⟩
  have hle := (List.subperm_of_subset chord.nodup_keys hsub).length_le
  exact absurd (Nat.le_trans chord.min_le_length hle) (by simp [minChordKeys])

private theorem waiting_of_viable (h : t.Viable keys) (hne : keys ≠ []) :
    t.classify keys = .incomplete ∨ ∃ e, t.classify keys = .deferred e := by
  obtain ⟨hn, chord, hc, hsub, key, hk, hnk⟩ := h.resolve_left hne
  have hlong : t.hasLonger keys = true := hasLonger_of_mem hc hsub (length_lt_of_missing hn hsub hk hnk)
  rw [classify_of_nodup hne hn, hlong]
  cases t.candidateOfSize? keys with
  | none => exact Or.inl rfl
  | some e => exact Or.inr ⟨e, rfl⟩

/-- A queue that is worth waiting for is left alone. -/
theorem recheck_of_viable {queue : List Press} (h : t.Viable (queue.map (·.key))) : t.recheck queue = .rest queue := by
  cases queue with
  | nil => rw [recheck]
  | cons p ps =>
    rcases waiting_of_viable h (List.cons_ne_nil _ _) with hw | ⟨e, hw⟩
    · rw [recheck, hw]
    · rw [recheck, hw]

/-! ### Fronts of the queue -/

private theorem longestFrontUpTo?_of_spelled {n : Nat} (h : t.spelled? (keys.take n) = some e) :
    t.longestFrontUpTo? keys n = some (e, n) := by
  cases n with
  | zero => exact absurd (two_le_of_spelled? h) (by simp)
  | succ n => rw [longestFrontUpTo?, h]

/-- No front is found if and only if none spells a chord. -/
theorem longestFrontUpTo?_eq_none_iff {n : Nat} :
    t.longestFrontUpTo? keys n = none ↔ ∀ m ≤ n, t.spelled? (keys.take m) = none := by
  induction n with
  | zero =>
    refine ⟨fun _ m hm => ?_, fun _ => rfl⟩
    rw [Nat.le_zero.1 hm]
    rfl
  | succ n ih =>
    rw [longestFrontUpTo?]
    cases hs : t.spelled? (keys.take (n + 1)) with
    | some e =>
      refine ⟨fun h => (Option.some_ne_none _ h).elim, fun h => ?_⟩
      have hnone : t.spelled? (keys.take (n + 1)) = none := h (n + 1) (Nat.le_refl _)
      exact absurd (hs.symm.trans hnone) (Option.some_ne_none e)
    | none =>
      refine ih.trans ⟨fun h m hm => ?_, fun h m hm => h m (Nat.le_succ_of_le hm)⟩
      rcases Nat.le_succ_iff.1 hm with hm | rfl
      · exact h m hm
      · exact hs

/-- No front that is longer than the longest one spells a chord. -/
theorem spelled?_of_longestFrontUpTo? {n m k : Nat} (h : t.longestFrontUpTo? keys n = some (e, m)) (hmk : m < k)
    (hkn : k ≤ n) : t.spelled? (keys.take k) = none := by
  induction n with
  | zero => cases h
  | succ n ih =>
    rw [longestFrontUpTo?] at h
    cases hs : t.spelled? (keys.take (n + 1)) with
    | some e' =>
      rw [hs] at h
      cases h
      exact absurd hmk (Nat.not_lt_of_le hkn)
    | none =>
      rw [hs] at h
      rcases Nat.le_succ_iff.1 hkn with hkn | rfl
      · exact ih h hkn
      · exact hs

/-- The longest front that spells a chord is one that does, and none that is longer does. -/
theorem longestFrontUpTo?_eq_some_iff {n m : Nat} :
    t.longestFrontUpTo? keys n = some (e, m) ↔
      m ≤ n ∧ t.spelled? (keys.take m) = some e ∧ ∀ k ≤ n, m < k → t.spelled? (keys.take k) = none := by
  constructor
  · intro h
    obtain ⟨-, hle, hs⟩ := longestFrontUpTo?_eq_some h
    exact ⟨hle, hs, fun k hk hlt => spelled?_of_longestFrontUpTo? h hlt hk⟩
  · rintro ⟨hle, hs, hlonger⟩
    cases hf : t.longestFrontUpTo? keys n with
    | none => exact absurd (hs.symm.trans (longestFrontUpTo?_eq_none_iff.1 hf m hle)) (Option.some_ne_none e)
    | some x =>
      obtain ⟨e', m'⟩ := x
      obtain ⟨-, hle', hs'⟩ := longestFrontUpTo?_eq_some hf
      -- neither of the two fronts is longer than the other
      have hm : m' = m := by
        by_contra hne
        rcases Nat.lt_or_gt_of_ne hne with hlt | hlt
        · exact Option.some_ne_none e (hs.symm.trans (spelled?_of_longestFrontUpTo? hf hlt hle))
        · exact Option.some_ne_none e' (hs'.symm.trans (hlonger m' hle' hlt))
      subst hm
      rw [Option.some.inj (hs'.symm.trans hs)]

theorem longestFront?_of_spelled (h : t.spelled? keys = some e) : t.longestFront? keys = some (e, keys.length) :=
  longestFrontUpTo?_of_spelled (by rwa [List.take_length])

/-- A key more spoils the chord, but not its front. -/
theorem longestFront?_concat {key : KeyCode} (hnot : t.spelled? (keys ++ [key]) = none)
    (h : t.spelled? keys = some e) : t.longestFront? (keys ++ [key]) = some (e, keys.length) := by
  have hwhole : t.spelled? ((keys ++ [key]).take (keys.length + 1)) = none := by
    rwa [List.take_of_length_le (by simp)]
  rw [longestFront?, List.length_append, List.length_singleton, longestFrontUpTo?, hwhole]
  exact longestFrontUpTo?_of_spelled (by rwa [List.take_left])

/-- The longest front that spells a chord is what a settled queue gives up. -/
theorem settle?_of_longestFront? {first : Press} {others behind : List Press}
    (h : t.longestFront? ((first :: others ++ behind).map (·.key)) = some (e, (first :: others).length)) :
    t.settle? (first :: others ++ behind) = some (.chord e first others, behind) := by
  show (t.longestFront? ((first :: others ++ behind).map (·.key))).map _ = _
  rw [h]
  simp

/-- A queue that spells a chord is settled as a whole. -/
theorem settle?_of_spelled {first : Press} {others : List Press}
    (h : t.spelled? ((first :: others).map (·.key)) = some e) :
    t.settle? (first :: others) = some (.chord e first others, []) := by
  have hf := longestFront?_of_spelled h
  rw [List.length_map, ← List.append_nil (first :: others)] at hf
  rw [← List.append_nil (first :: others)]
  exact settle?_of_longestFront? (by simpa using hf)

end ChordTable

end Chording
