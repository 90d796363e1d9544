import Chording.Chord.Table

/-!
# Matching keys against a chord table

Pressed keys may become a chord as long as they are distinct and all of them belong to it; the order does not
matter.  They spell the chord when no key of it is missing.  Of several chords with the same keys the first one
defined counts.
-/

namespace Chording

/-- What the pressed keys may become. -/
inductive Match
  /-- No chord contains all of them. -/
  | impossible
  /-- They belong to longer chords only. -/
  | incomplete
  /-- They spell a chord, and a longer one is still possible. -/
  | deferred (e : Entry)
  /-- They spell a chord, and there is none to wait for. -/
  | complete (e : Entry)

namespace Match

/-- The chord that the keys spell. -/
def spelled? : Match → Option Entry
  | impossible | incomplete => none
  | deferred e | complete e => some e

end Match

namespace ChordTable

/-- The chords that contain all the keys. -/
def candidates (t : ChordTable) (keys : List KeyCode) : List Entry :=
  t.entries.filter fun e => keys.all fun key => key ∈ e.chord.keys

/-- The first candidate without further keys. -/
def candidateOfSize? (t : ChordTable) (keys : List KeyCode) : Option Entry :=
  (t.candidates keys).find? fun e => e.chord.keys.length = keys.length

/-- Whether some candidate has further keys. -/
def hasLonger (t : ChordTable) (keys : List KeyCode) : Bool :=
  (t.candidates keys).any fun e => keys.length < e.chord.keys.length

/-- No keys and repeated keys are part of no chord. -/
def classify (t : ChordTable) (keys : List KeyCode) : Match :=
  if keys = [] ∨ ¬keys.Nodup then .impossible
  else match t.candidateOfSize? keys, t.hasLonger keys with
    | some e, false => .complete e
    | some e, true => .deferred e
    | none, true => .incomplete
    | none, false => .impossible

/-- The chord that the keys spell, whether or not a longer one is possible. -/
def spelled? (t : ChordTable) (keys : List KeyCode) : Option Entry :=
  (t.classify keys).spelled?

/-- The longest front of at most `n` keys that spells a chord, with its length. -/
def longestFrontUpTo? (t : ChordTable) (keys : List KeyCode) : Nat → Option (Entry × Nat)
  | 0 => none
  | n + 1 =>
    match t.spelled? (keys.take (n + 1)) with
    | some e => some (e, n + 1)
    | none => t.longestFrontUpTo? keys n

/-- The longest front that spells a chord, all keys included. -/
def longestFront? (t : ChordTable) (keys : List KeyCode) : Option (Entry × Nat) :=
  t.longestFrontUpTo? keys keys.length

/-- The longest front that spells a chord and leaves out at least one key. -/
def longestProperFront? (t : ChordTable) (keys : List KeyCode) : Option (Entry × Nat) :=
  t.longestFrontUpTo? keys (keys.length - 1)

theorem mem_candidates {t : ChordTable} {keys : List KeyCode} {e : Entry} :
    e ∈ t.candidates keys ↔ e ∈ t.entries ∧ ∀ key ∈ keys, key ∈ e.chord.keys := by
  simp [candidates, List.mem_filter]

/-- The chord that keys spell is one of the table, and consists of just these keys. -/
theorem of_spelled?_eq_some {t : ChordTable} {keys : List KeyCode} {e : Entry} (h : t.spelled? keys = some e) :
    e ∈ t.entries ∧ keys.Nodup ∧ (∀ key ∈ keys, key ∈ e.chord.keys) ∧ e.chord.keys.length = keys.length := by
  unfold spelled? classify at h
  split at h
  · cases h
  · rename_i hk
    have hn : keys.Nodup := Decidable.not_not.1 fun hn => hk (Or.inr hn)
    have hc : t.candidateOfSize? keys = some e := by
      split at h <;> cases h <;> assumption
    have hm := mem_candidates.1 (List.mem_of_find?_eq_some hc)
    exact ⟨hm.1, hn, hm.2, by simpa using List.find?_some hc⟩

end ChordTable

end Chording
