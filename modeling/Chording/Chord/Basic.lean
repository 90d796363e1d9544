import Chording.Key.Name

/-!
# Chords

A chord is a set of two to five keys that stands for an action key when they are held together.  `Chord.ofDef`
checks a chord as it was written: the number of its keys first, then that no key is listed twice.
-/

namespace Chording

/-- A chord as it is written, before it is checked. -/
structure ChordDef where
  keys : List KeyCode
  action : KeyCode
deriving DecidableEq

/-- What is wrong with a chord as it is written. -/
inductive ChordDefect
  | tooFewKeys (count : Nat)
  | tooManyKeys (count : Nat)
  | repeatedKey (key : KeyCode)
deriving DecidableEq

def minChordKeys : Nat := 2

def maxChordKeys : Nat := 5

/-- A chord that can be recognized: two to five distinct keys, in the order in which they were written, and the key
that they stand for. -/
structure Chord where
  keys : List KeyCode
  action : KeyCode
  min_le_length : minChordKeys ≤ keys.length
  length_le_max : keys.length ≤ maxChordKeys
  nodup_keys : keys.Nodup

/-- The first key that is among `seen` or the keys before it. -/
def firstRepeat? (seen : List KeyCode) : List KeyCode → Option KeyCode
  | [] => none
  | key :: keys => if key ∈ seen then some key else firstRepeat? (key :: seen) keys

theorem firstRepeat?_eq_none_iff {seen keys : List KeyCode} :
    firstRepeat? seen keys = none ↔ keys.Nodup ∧ ∀ key ∈ keys, key ∉ seen := by
  induction keys generalizing seen with
  | nil => simp [firstRepeat?]
  | cons key keys ih =>
    unfold firstRepeat?
    split
    · rename_i h
      simp [h]
    · rename_i h
      rw [ih, List.nodup_cons]
      simp only [List.mem_cons, not_or, forall_eq_or_imp]
      constructor
      · rintro ⟨hn, hk⟩
        exact ⟨⟨fun hm => (hk key hm).1 rfl, hn⟩, h, fun k hm => (hk k hm).2⟩
      · rintro ⟨⟨hm, hn⟩, _, hk⟩
        exact ⟨hn, fun k hm' => ⟨fun e => hm (e ▸ hm'), hk k hm'⟩⟩

private theorem nodup_of_firstRepeat?_eq_none {keys : List KeyCode} (h : firstRepeat? [] keys = none) : keys.Nodup :=
  (firstRepeat?_eq_none_iff.1 h).1

def Chord.ofDef (d : ChordDef) : Except ChordDefect Chord :=
  if hmin : d.keys.length < minChordKeys then .error (.tooFewKeys d.keys.length)
  else if hmax : maxChordKeys < d.keys.length then .error (.tooManyKeys d.keys.length)
  else match h : firstRepeat? [] d.keys with
    | some key => .error (.repeatedKey key)
    | none => .ok ⟨d.keys, d.action, Nat.le_of_not_lt hmin, Nat.le_of_not_lt hmax, nodup_of_firstRepeat?_eq_none h⟩

/-- The chord as it was written. -/
def Chord.toDef (c : Chord) : ChordDef := ⟨c.keys, c.action⟩

theorem Chord.ofDef_eq_ok {d : ChordDef} {c : Chord} (h : Chord.ofDef d = .ok c) :
    c.keys = d.keys ∧ c.action = d.action := by
  unfold Chord.ofDef at h
  split at h
  · cases h
  split at h
  · cases h
  split at h <;> cases h
  exact ⟨rfl, rfl⟩

theorem Chord.toDef_of_ofDef {d : ChordDef} {c : Chord} (h : Chord.ofDef d = .ok c) : c.toDef = d := by
  obtain ⟨hk, ha⟩ := Chord.ofDef_eq_ok h
  rw [Chord.toDef, hk, ha]

end Chording
