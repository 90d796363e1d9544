import Chording.Chord.Basic

/-!
# Chord tables

The chords in use, in the order in which they were defined.  A chord is known by its position in that order.
-/

namespace Chording

/-- The chords in use, in the order of their definition. -/
structure ChordTable where
  chords : List Chord

/-- A chord definition that cannot be used, and its position. -/
structure BadChord where
  index : Nat
  defect : ChordDefect
deriving DecidableEq

def BadChord.message (e : BadChord) : String :=
  let index := e.index
  match e.defect with
  | .tooFewKeys count => s!"chord #{index} has {count} keys, at least {minChordKeys} are required"
  | .tooManyKeys count => s!"chord #{index} has {count} keys, at most {maxChordKeys} are supported"
  | .repeatedKey key =>
    let name := key.display
    s!"chord #{index} lists {name} more than once"

/-- A chord together with its position in the table. -/
structure Entry where
  id : Nat
  chord : Chord

namespace ChordTable

/-- Checks definitions one after another; the first has the position `index`. -/
def chordsOfDefs (index : Nat) : List ChordDef → Except BadChord (List Chord)
  | [] => .ok []
  | d :: ds =>
    match Chord.ofDef d with
    | .error defect => .error ⟨index, defect⟩
    | .ok chord => (chordsOfDefs (index + 1) ds).map (chord :: ·)

/-- The table of the given definitions, or the first of them that cannot be used. -/
def ofDefs (defs : List ChordDef) : Except BadChord ChordTable :=
  (chordsOfDefs 0 defs).map (⟨·⟩)

def size (t : ChordTable) : Nat := t.chords.length

def isEmpty (t : ChordTable) : Bool := t.chords.isEmpty

def get? (t : ChordTable) (id : Nat) : Option Chord := t.chords[id]?

def entries (t : ChordTable) : List Entry :=
  t.chords.zipIdx.map fun (chord, id) => ⟨id, chord⟩

/-- Whether some chord contains the key. -/
def isParticipant (t : ChordTable) (key : KeyCode) : Bool :=
  t.chords.any fun chord => key ∈ chord.keys

/-- The chords that contain the key. -/
def idsWith (t : ChordTable) (key : KeyCode) : List Nat :=
  (t.entries.filter fun e => key ∈ e.chord.keys).map (·.id)

theorem mem_entries {t : ChordTable} {e : Entry} : e ∈ t.entries ↔ t.get? e.id = some e.chord := by
  unfold entries get?
  rw [List.mem_map]
  constructor
  · rintro ⟨⟨chord, id⟩, h, rfl⟩
    exact (List.mem_zipIdx_iff_getElem?.1 h)
  · intro h
    exact ⟨(e.chord, e.id), List.mem_zipIdx_iff_getElem?.2 h, rfl⟩

private theorem map_toDef_of_chordsOfDefs {index : Nat} {defs : List ChordDef} {chords : List Chord}
    (h : chordsOfDefs index defs = .ok chords) : chords.map Chord.toDef = defs := by
  induction defs generalizing index chords with
  | nil =>
    cases h
    rfl
  | cons d defs ih =>
    unfold chordsOfDefs at h
    cases hd : Chord.ofDef d with
    | error defect => rw [hd] at h; cases h
    | ok chord =>
      cases hrest : chordsOfDefs (index + 1) defs with
      | error e => rw [hd, hrest] at h; cases h
      | ok chords' =>
        rw [hd, hrest] at h
        cases h
        rw [List.map_cons, Chord.toDef_of_ofDef hd, ih hrest]

/-- A table has the chords that were written, in their order. -/
theorem map_toDef_of_ofDefs {defs : List ChordDef} {t : ChordTable} (h : ofDefs defs = .ok t) :
    t.chords.map Chord.toDef = defs := by
  unfold ofDefs at h
  cases hc : chordsOfDefs 0 defs with
  | error e => rw [hc] at h; cases h
  | ok chords =>
    rw [hc] at h
    cases h
    exact map_toDef_of_chordsOfDefs hc

theorem isParticipant_iff {t : ChordTable} {key : KeyCode} :
    t.isParticipant key = true ↔ ∃ chord ∈ t.chords, key ∈ chord.keys := by
  simp [isParticipant, List.any_eq_true]

/-- A key takes part if one of the chords that were written lists it. -/
theorem isParticipant_iff_of_ofDefs {defs : List ChordDef} {t : ChordTable} {key : KeyCode} (h : ofDefs defs = .ok t) :
    t.isParticipant key = true ↔ ∃ d ∈ defs, key ∈ d.keys := by
  rw [isParticipant_iff, ← map_toDef_of_ofDefs h]
  constructor
  · rintro ⟨chord, hmem, hkey⟩
    exact ⟨chord.toDef, List.mem_map_of_mem hmem, hkey⟩
  · rintro ⟨d, hmem, hkey⟩
    obtain ⟨chord, hchord, rfl⟩ := List.mem_map.1 hmem
    exact ⟨chord, hchord, hkey⟩

end ChordTable

end Chording
