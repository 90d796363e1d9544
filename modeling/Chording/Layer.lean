/-!
# Layers

Sets of the 32 keyboard layers, as words with one bit for each layer, and the question which layers are active.
The key facts: `contains_insert` and `mem_toList`, by which membership says everything about a set.
-/

namespace Chording

/-- How many layers there are; their numbers start at 0. -/
def layerCount : Nat := 32

/-- A set of layers; bit `n` says whether layer `n` is a member. -/
structure LayerSet where
  bits : BitVec layerCount
deriving DecidableEq

/-- The refusal of a number that names no layer. -/
structure LayerOutOfRange where
  layer : UInt8
deriving DecidableEq

def LayerOutOfRange.message (e : LayerOutOfRange) : String :=
  let layer := e.layer.toNat
  s!"layer {layer} is out of range (0..32)"

/-- Says of each layer whether it is active; the answer for numbers that name no layer does not matter. -/
abbrev ActiveLayers := UInt8 → Bool

namespace LayerSet

def empty : LayerSet := ⟨0⟩

instance : EmptyCollection LayerSet := ⟨empty⟩

def isEmpty (s : LayerSet) : Bool := s.bits == 0

/-- Numbers that name no layer are members of no set. -/
def contains (s : LayerSet) (layer : UInt8) : Bool :=
  s.bits.getLsbD layer.toNat

def insert (s : LayerSet) (layer : UInt8) : Except LayerOutOfRange LayerSet :=
  if layer.toNat < layerCount then .ok ⟨s.bits ||| BitVec.twoPow layerCount layer.toNat⟩ else .error ⟨layer⟩

/-- The set of the given layers, or the first number among them that names none. -/
def ofList (layers : List UInt8) : Except LayerOutOfRange LayerSet :=
  layers.foldlM insert ∅

/-- The members in ascending order. -/
def toList (s : LayerSet) : List UInt8 :=
  ((List.range layerCount).map Nat.toUInt8).filter s.contains

/-- Whether one of the members is active. -/
def anyActive (s : LayerSet) (active : ActiveLayers) : Bool :=
  s.toList.any active

@[simp]
theorem contains_empty (layer : UInt8) : (∅ : LayerSet).contains layer = false :=
  BitVec.getLsbD_zero

theorem contains_insert {s t : LayerSet} {layer : UInt8} (h : s.insert layer = .ok t) (other : UInt8) :
    t.contains other = (s.contains other || other == layer) := by
  unfold insert at h
  split at h
  · rename_i hlt
    cases h
    simp only [contains, BitVec.getLsbD_or, BitVec.getLsbD_twoPow, hlt, decide_true, Bool.true_and]
    congr 1
    by_cases e : layer = other
    · simp [e]
    · have : layer.toNat ≠ other.toNat := fun h => e (UInt8.toNat_inj.1 h)
      simp [this, Ne.symm e]
  · cases h

theorem lt_of_contains {s : LayerSet} {layer : UInt8} (h : s.contains layer = true) : layer.toNat < layerCount :=
  BitVec.lt_of_getLsbD h

/-- Sets with the same members are the same. -/
theorem eq_of_contains {s t : LayerSet} (h : ∀ layer, s.contains layer = t.contains layer) : s = t := by
  refine congrArg LayerSet.mk (BitVec.eq_of_getLsbD_eq fun i hi => ?_)
  have hi' : (UInt8.ofNat i).toNat = i := UInt8.toNat_ofNat_of_lt' (Nat.lt_trans hi (by decide))
  have hlayer := h (UInt8.ofNat i)
  rwa [contains, contains, hi'] at hlayer

theorem exists_foldlM_insert {layers : List UInt8} (h : ∀ layer ∈ layers, layer.toNat < layerCount) (s : LayerSet) :
    ∃ t, layers.foldlM insert s = .ok t ∧
      ∀ layer, t.contains layer = true ↔ s.contains layer = true ∨ layer ∈ layers := by
  induction layers generalizing s with
  | nil => exact ⟨s, rfl, fun layer => by simp⟩
  | cons first others ih =>
    obtain ⟨hfirst, hothers⟩ := List.forall_mem_cons.1 h
    obtain ⟨u, hu⟩ : ∃ u, s.insert first = .ok u := ⟨_, if_pos hfirst⟩
    obtain ⟨t, ht, hmem⟩ := ih hothers u
    refine ⟨t, by rw [List.foldlM_cons, hu]; exact ht, fun layer => ?_⟩
    rw [hmem, contains_insert hu, Bool.or_eq_true, beq_iff_eq, List.mem_cons, or_assoc]

/-- A set is that of all its members, in any order. -/
theorem ofList_eq_ok {s : LayerSet} {members : List UInt8}
    (h : ∀ layer, layer ∈ members ↔ s.contains layer = true) : ofList members = .ok s := by
  obtain ⟨t, ht, hmem⟩ := exists_foldlM_insert (fun layer hl => lt_of_contains ((h layer).1 hl)) ∅
  have hst : t = s := eq_of_contains fun layer => by
    rw [Bool.eq_iff_iff, hmem, contains_empty, h]
    simp
  rw [ofList, ht, hst]

@[simp]
theorem mem_toList {s : LayerSet} {layer : UInt8} : layer ∈ s.toList ↔ s.contains layer = true := by
  constructor
  · intro h
    exact (List.mem_filter.1 h).2
  · intro h
    refine List.mem_filter.2 ⟨List.mem_map.2 ⟨layer.toNat, List.mem_range.2 ?_, ?_⟩, h⟩
    · exact BitVec.lt_of_getLsbD h
    · simp

theorem anyActive_iff {s : LayerSet} {active : ActiveLayers} :
    s.anyActive active = true ↔ ∃ layer, s.contains layer = true ∧ active layer = true := by
  simp [anyActive, List.any_eq_true]

end LayerSet

end Chording
