import Chording.Proofs.Spelling
import Mathlib.Data.Finset.Dedup

/-!
# What a list of chords says

All that the chords of a configuration say is for which set of keys which action key stands: that of the first chord
with these keys (`Config.actionOf?`).  Two tables that agree in this classify the same keys in the same way, and
resolve every queue in the same way; only the chord that they name may be another one with the same keys
(`counterpart`).
-/

namespace Chording

/-! ### Action keys of sets of keys -/

/-- The action key of the first chord that was written with just these keys. -/
def Config.actionOf? (c : Config) (keys : Finset KeyCode) : Option KeyCode :=
  (c.chords.find? fun d => d.keys.toFinset = keys).map (·.action)

/-- The chords of both configurations give the same action key to every set of keys. -/
def Config.SameActions (c c' : Config) : Prop :=
  ∀ keys, c.actionOf? keys = c'.actionOf? keys

/-- Of a set of keys with which no chord was written both know no action key. -/
private theorem Config.sameActions_iff {c c' : Config} : c.SameActions c' ↔
    ∀ d ∈ c.chords ++ c'.chords, c.actionOf? d.keys.toFinset = c'.actionOf? d.keys.toFinset := by
  refine ⟨fun h d _ => h _, fun h keys => ?_⟩
  by_cases hd : ∃ d ∈ c.chords ++ c'.chords, d.keys.toFinset = keys
  · obtain ⟨d, hd, rfl⟩ := hd
    exact h d hd
  · have hnone : ∀ defs, defs ⊆ c.chords ++ c'.chords → defs.find? (fun d => d.keys.toFinset = keys) = none := by
      intro defs hsub
      refine List.find?_eq_none.2 fun d hm hk => hd ⟨d, hsub hm, by simpa using hk⟩
    rw [actionOf?, actionOf?, hnone _ (List.subset_append_left _ _), hnone _ (List.subset_append_right _ _)]

instance (c c' : Config) : Decidable (c.SameActions c') :=
  decidable_of_iff' _ Config.sameActions_iff

namespace ChordTable

/-- The action key of the first chord with just these keys. -/
def actionOf? (t : ChordTable) (keys : Finset KeyCode) : Option KeyCode :=
  (t.chords.find? fun chord => chord.keys.toFinset = keys).map (·.action)

theorem actionOf?_of_ofDefs {c : Config} {t : ChordTable} (h : ofDefs c.chords = .ok t) :
    t.actionOf? = c.actionOf? := by
  funext keys
  rw [Config.actionOf?, ← map_toDef_of_ofDefs h, List.find?_map, Option.map_map]
  rfl

/-- Both tables give the same action key to every set of keys. -/
def SameActions (t t' : ChordTable) : Prop :=
  ∀ keys, t.actionOf? keys = t'.actionOf? keys

variable {t t' : ChordTable} {keys : List KeyCode}

theorem perm_iff_toFinset_eq (hn : keys.Nodup) {chord : Chord} :
    keys.Perm chord.keys ↔ chord.keys.toFinset = keys.toFinset :=
  ⟨fun h => (List.toFinset_eq_of_perm _ _ h).symm,
    fun h => List.perm_of_nodup_nodup_toFinset_eq hn chord.nodup_keys h.symm⟩

/-- The chord that distinct keys spell is the first one with this set of keys. -/
private theorem map_action_spelled? (hn : keys.Nodup) :
    (t.spelled? keys).map (·.chord.action) = t.actionOf? keys.toFinset := by
  have hfind : t.spelled? keys = t.entries.find? fun e => e.chord.keys.toFinset = keys.toFinset := by
    ext e
    rw [spelled?_eq_some_iff, find?_entries_eq_some_iff]
    simp only [decide_eq_true_eq, ← perm_iff_toFinset_eq hn]
    exact ⟨fun h => ⟨h.mem, h.perm, h.id_le⟩, fun ⟨hmem, hperm, hle⟩ => ⟨hmem, hperm, hle⟩⟩
  have hchords : t.chords = t.entries.map (·.chord) := by
    rw [entries, List.map_map]
    exact (List.zipIdx_map_fst 0 t.chords).symm
  rw [hfind, actionOf?, hchords, List.find?_map, Option.map_map]
  rfl

/-! ### Counterparts -/

/-- The first chord of a table with the same keys, if it stands for the same action key. -/
def counterpart (t : ChordTable) (e : Entry) : Entry :=
  ((t.spelled? e.chord.keys).filter fun e' => e'.chord.action = e.chord.action).getD e

theorem action_counterpart (t : ChordTable) (e : Entry) : (t.counterpart e).chord.action = e.chord.action := by
  unfold counterpart
  cases hs : (t.spelled? e.chord.keys).filter fun e' => e'.chord.action = e.chord.action with
  | none => rfl
  | some e' => simpa using (Option.filter_eq_some_iff.1 hs).2

namespace SameActions

private theorem symm (h : t.SameActions t') : t'.SameActions t := fun keys => (h keys).symm

private theorem spelled?_eq (h : t.SameActions t') (keys : List KeyCode) :
    t'.spelled? keys = (t.spelled? keys).map t'.counterpart := by
  by_cases hn : keys.Nodup
  · have haction : (t.spelled? keys).map (·.chord.action) = (t'.spelled? keys).map (·.chord.action) := by
      rw [map_action_spelled? hn, map_action_spelled? hn, h]
    cases hs : t.spelled? keys with
    | none => simpa [hs, eq_comm] using haction
    | some e =>
      rw [hs, Option.map_some, eq_comm, Option.map_eq_some_iff] at haction
      obtain ⟨e', he', hact⟩ := haction
      -- the keys of the chord are these keys, and so it has the chord as counterpart that they spell
      have hperm := (spelled?_eq_some_iff.1 hs).perm
      have hback : t'.spelled? e.chord.keys = some e' :=
        spelled?_eq_some_iff.2 ((spelled?_eq_some_iff.1 he').of_perm hperm.symm)
      rw [he', Option.map_some, counterpart, hback, Option.filter_some_pos (by simpa using hact)]
      rfl
  · have hnone : ∀ t : ChordTable, t.spelled? keys = none := fun t =>
      Option.eq_none_iff_forall_ne_some.2 fun e he => hn (spelled?_eq_some_iff.1 he).nodup
    rw [hnone, hnone]
    rfl

/-- Each table has a chord with the keys of each chord of the other. -/
private theorem exists_perm (h : t.SameActions t') {chord : Chord} (hc : chord ∈ t.chords) :
    ∃ chord' ∈ t'.chords, chord.keys.Perm chord'.keys := by
  obtain ⟨e, he⟩ := exists_isFirstWith hc (.refl _)
  have hs : t'.spelled? chord.keys = some (t'.counterpart e) := by
    rw [h.spelled?_eq, spelled?_eq_some_iff.2 he, Option.map_some]
  exact ⟨_, (perm_of_spelled? hs).1, (perm_of_spelled? hs).2⟩

private theorem hasLonger_of (h : t.SameActions t') (hl : t.hasLonger keys = true) : t'.hasLonger keys = true := by
  obtain ⟨e, he, hlt⟩ := List.any_eq_true.1 hl
  obtain ⟨he, hsub⟩ := mem_candidates.1 he
  obtain ⟨chord', hc', hperm⟩ := h.exists_perm (List.mem_of_getElem? (mem_entries.1 he))
  refine hasLonger_of_mem hc' (fun key hk => hperm.subset (hsub key hk)) ?_
  rw [← hperm.length_eq]
  simpa using hlt

private theorem hasLonger_eq (h : t.SameActions t') (keys : List KeyCode) : t'.hasLonger keys = t.hasLonger keys :=
  Bool.eq_iff_iff.2 ⟨h.symm.hasLonger_of, h.hasLonger_of⟩

private theorem isParticipant_of (h : t.SameActions t') {key : KeyCode} (hp : t.isParticipant key = true) :
    t'.isParticipant key = true := by
  obtain ⟨chord, hc, hk⟩ := isParticipant_iff.1 hp
  obtain ⟨chord', hc', hperm⟩ := h.exists_perm hc
  exact isParticipant_iff.2 ⟨chord', hc', hperm.subset hk⟩

theorem isParticipant_eq (h : t.SameActions t') (key : KeyCode) : t'.isParticipant key = t.isParticipant key :=
  Bool.eq_iff_iff.2 ⟨h.symm.isParticipant_of, h.isParticipant_of⟩

end SameActions

end ChordTable

/-! ### The same with other chords -/

/-- The match with other chords in place of those that it names. -/
def Match.map (f : Entry → Entry) : Match → Match
  | impossible => impossible
  | incomplete => incomplete
  | deferred e => deferred (f e)
  | complete e => complete (f e)

/-- The resolution with another chord in place of the one that it names. -/
def Resolution.map (f : Entry → Entry) : Resolution → Resolution
  | replay p => replay p
  | chord e first others => chord (f e) first others

def Resolved.map (f : Entry → Entry) (r : Resolved) : Resolved :=
  ⟨r.resolutions.map (Resolution.map f), r.queue⟩

private theorem Resolved.map_after (f : Entry → Entry) (earlier : List Resolution) (r : Resolved) :
    (r.after earlier).map f = (r.map f).after (earlier.map (Resolution.map f)) := by
  simp [Resolved.map, Resolved.after]

namespace ChordTable.SameActions

variable {t t' : ChordTable}

private theorem classify_eq (h : t.SameActions t') (keys : List KeyCode) :
    t'.classify keys = (t.classify keys).map t'.counterpart := by
  by_cases hk : keys = [] ∨ ¬keys.Nodup
  · rw [classify, if_pos hk, classify, if_pos hk]
    rfl
  · obtain ⟨hne, hn⟩ := not_or.1 hk
    have hn := Decidable.not_not.1 hn
    rw [classify_of_spelled? hne hn, classify_of_spelled? hne hn, h.spelled?_eq, h.hasLonger_eq]
    cases t.spelled? keys <;> cases t.hasLonger keys <;> rfl

private theorem longestFrontUpTo?_eq (h : t.SameActions t') (keys : List KeyCode) (n : Nat) :
    t'.longestFrontUpTo? keys n = (t.longestFrontUpTo? keys n).map fun x => (t'.counterpart x.1, x.2) := by
  induction n with
  | zero => rfl
  | succ n ih =>
    rw [longestFrontUpTo?, longestFrontUpTo?, h.spelled?_eq]
    cases t.spelled? (keys.take (n + 1)) with
    | none => exact ih
    | some e => rfl

private theorem settle?_eq (h : t.SameActions t') (queue : List Press) :
    t'.settle? queue = (t.settle? queue).map fun x => (x.1.map t'.counterpart, x.2) := by
  cases queue with
  | nil => rfl
  | cons p ps =>
    rw [settle?, settle?, longestFront?, h.longestFrontUpTo?_eq, Option.map_map, Option.map_map]
    rfl

private theorem resolveFront_eq (h : t.SameActions t') (p : Press) (ps : List Press) :
    t'.resolveFront p ps = ((t.resolveFront p ps).1.map t'.counterpart, (t.resolveFront p ps).2) := by
  rw [resolveFront, resolveFront, h.settle?_eq]
  cases t.settle? (p :: ps) <;> rfl

theorem recheck_eq (h : t.SameActions t') (queue : List Press) :
    t'.recheck queue = (t.recheck queue).map t'.counterpart := by
  fun_induction recheck t queue with
  | case1 => rw [recheck]; rfl
  | case2 p ps e hm => rw [recheck, h.classify_eq, hm]; rfl
  | case3 p ps hm => rw [recheck, h.classify_eq, hm]; rfl
  | case4 p ps e hm => rw [recheck, h.classify_eq, hm]; rfl
  | case5 p ps hm ih =>
    rw [recheck, h.classify_eq, hm, h.resolveFront_eq, Resolved.map_after, ← ih]
    rfl

private theorem resolveFrontAndRecheck_eq (h : t.SameActions t') (p : Press) (ps : List Press) :
    t'.resolveFrontAndRecheck p ps = (t.resolveFrontAndRecheck p ps).map t'.counterpart := by
  rw [resolveFrontAndRecheck, resolveFrontAndRecheck, h.resolveFront_eq, h.recheck_eq, Resolved.map_after]
  rfl

theorem expire_eq (h : t.SameActions t') (timeout now : Nat) (queue : List Press) :
    t'.expire timeout now queue = (t.expire timeout now queue).map t'.counterpart := by
  fun_induction expire t timeout now queue with
  | case1 => rw [expire]; rfl
  | case2 p ps hyoung => rw [expire, if_pos hyoung]; rfl
  | case3 p ps hold r ih =>
    rw [expire, if_neg hold, h.resolveFrontAndRecheck_eq, Resolved.map_after, ← ih]
    rfl

theorem resolveAll_eq (h : t.SameActions t') (queue : List Press) :
    t'.resolveAll queue = (t.resolveAll queue).map (Resolution.map t'.counterpart) := by
  fun_induction resolveAll t queue with
  | case1 => rw [resolveAll]; rfl
  | case2 p ps ih => rw [resolveAll, h.resolveFront_eq, List.map_cons, ← ih]

theorem settleOnce_eq (h : t.SameActions t') (queue : List Press) :
    t'.settleOnce queue = (t.settleOnce queue).map t'.counterpart := by
  rw [settleOnce, settleOnce, h.settle?_eq]
  cases t.settle? queue with
  | none => rfl
  | some x =>
    show (t'.recheck x.2).after _ = ((t.recheck x.2).after _).map _
    rw [h.recheck_eq, Resolved.map_after]
    rfl

end ChordTable.SameActions

end Chording
