import Chording.Recognizer

/-!
# Sets of layers and their words

A set of layers is kept in one word of 32 bits.  The operations on sets once more, carried out on the word in place
(`LayerWord`): a bit is shifted by the number of a layer, and a shift by as many places as the word has, or by more, has
no result.  No such shift is made, since numbers that name no layer are refused before, and so everything comes out as
for the sets (`insert_of_ok`, `insert_of_error`, `contains?_eq`, `toList?_eq`).  A list of numbers, the word, the
question of membership and the list of the members all tell the same set (`ofList_faithful`).
-/

namespace Chording

/-! ### Sets as words -/

namespace LayerSet

/-- The word that a set is kept in. -/
def word (s : LayerSet) : UInt32 := ⟨s.bits⟩

/-- The set whose only member is a layer. -/
def single (layer : UInt8) : LayerSet := ⟨BitVec.twoPow layerCount layer.toNat⟩

variable {layer : UInt8}

private theorem contains_single (h : layer.toNat < layerCount) : (single layer).contains layer = true := by
  rw [contains, single, BitVec.getLsbD_twoPow, decide_eq_true h, decide_eq_true rfl, Bool.true_and]

private theorem word_single_ne_zero (h : layer.toNat < layerCount) : (single layer).word ≠ 0 := by
  intro hzero
  have hclear := congrArg (fun w : UInt32 => w.toBitVec.getLsbD layer.toNat) hzero
  exact absurd ((contains_single h).symm.trans hclear) (by simp)

private theorem word_and_single (s : LayerSet) (layer : UInt8) :
    s.word &&& (single layer).word = if s.contains layer then (single layer).word else 0 := by
  have hand : s.word &&& (single layer).word = (LayerSet.mk (s.bits &&& (single layer).bits)).word := rfl
  rw [hand, single, BitVec.and_twoPow, ← contains]
  cases s.contains layer <;> rfl

end LayerSet

/-! ### Operations in place -/

namespace LayerWord

/-- Operations on a word in place.  What was done to the word before a refusal stays done, and a shift that is too far
leaves no result at all. -/
abbrev InPlace := ExceptT LayerOutOfRange (StateT UInt32 Option)

/-- The answer and the word that is left. -/
def InPlace.on {α : Type} (operation : InPlace α) (w : UInt32) : Option (Except LayerOutOfRange α × UInt32) :=
  operation.run.run w

/-- The lowest bit, shifted by the number of a layer. -/
def bit? (layer : UInt8) : Option UInt32 :=
  if layer.toNat < 32 then some (1 <<< layer.toUInt32) else none

def insert (layer : UInt8) : InPlace Unit := do
  if layerCount ≤ layer.toNat then throw ⟨layer⟩
  let bit ← bit? layer
  modify (· ||| bit)

def contains? (w : UInt32) (layer : UInt8) : Option Bool := do
  if layer.toNat < layerCount then return w &&& (← bit? layer) != 0 else return false

def toList? (w : UInt32) : Option (List UInt8) :=
  ((List.range layerCount).map Nat.toUInt8).filterM (contains? w)

/-- The layers are inserted into the word without bits, up to the first number that is refused. -/
def ofList? (layers : List UInt8) : Option (Except LayerOutOfRange UInt32) := do
  let (answer, w) ← InPlace.on (layers.forM insert) 0
  return answer.map fun _ => w

/-- What comes after a refusal is left out. -/
private theorem InPlace.on_bind {α β : Type} (first : InPlace α) (next : α → InPlace β) (w : UInt32) :
    InPlace.on (first >>= next) w = (first.on w).bind fun
      | (.ok a, w) => (next a).on w
      | (.error e, w) => some (.error e, w) := by
  show Option.bind (first.on w) _ = _
  congr 1
  -- the two sides look at the answer in different places, and agree once it is known
  funext ⟨answer, w⟩
  cases answer <;> rfl

variable {s t : LayerSet} {layer : UInt8} {e : LayerOutOfRange}

private theorem bit?_eq (h : layer.toNat < layerCount) : bit? layer = some (LayerSet.single layer).word := by
  have hmod : (layer.toUInt32.toBitVec % 32).toNat = layer.toNat := by
    rw [BitVec.toNat_umod, UInt32.toNat_toBitVec, UInt8.toNat_toUInt32]
    exact Nat.mod_eq_of_lt h
  refine (if_pos h).trans (congrArg some (UInt32.toBitVec_inj.1 ?_))
  rw [UInt32.toBitVec_shiftLeft, BitVec.shiftLeft_eq', hmod]
  exact (BitVec.twoPow_eq 32 layer.toNat).symm

theorem insert_of_ok (h : s.insert layer = .ok t) : (insert layer).on s.word = some (.ok (), t.word) := by
  unfold LayerSet.insert at h
  split at h
  · rename_i hlt
    cases h
    rw [insert, if_neg (Nat.not_le.2 hlt), bit?_eq hlt]
    rfl
  · cases h

/-- A word stays as it was when a number is refused. -/
theorem insert_of_error (h : s.insert layer = .error e) : (insert layer).on s.word = some (.error e, s.word) := by
  unfold LayerSet.insert at h
  split at h
  · cases h
  · rename_i hle
    cases h
    rw [insert, if_pos (Nat.not_lt.1 hle)]
    rfl

/-- One layer after another, up to a refusal: the answer is that for the sets, and without a refusal so is the word that
is left. -/
private theorem forM_insert (s : LayerSet) (layers : List UInt8) :
    ∃ answer w, InPlace.on (layers.forM insert) s.word = some (answer, w) ∧
      answer.map (fun _ => w) = (layers.foldlM LayerSet.insert s).map LayerSet.word := by
  induction layers generalizing s with
  | nil => exact ⟨.ok (), s.word, rfl, rfl⟩
  | cons first others ih =>
    have hbind := InPlace.on_bind (insert first) (fun _ => others.forM insert) s.word
    rw [List.foldlM_cons]
    cases hfirst : s.insert first with
    | ok t =>
      obtain ⟨answer, w, hrun, hmap⟩ := ih t
      rw [insert_of_ok hfirst] at hbind
      exact ⟨answer, w, hbind.trans hrun, hmap⟩
    | error e =>
      -- the others are not looked at, on either side
      rw [insert_of_error hfirst] at hbind
      exact ⟨.error e, s.word, hbind, rfl⟩

private theorem ofList?_eq (layers : List UInt8) :
    ofList? layers = some ((LayerSet.ofList layers).map LayerSet.word) := by
  obtain ⟨answer, w, hrun, hmap⟩ := forM_insert ∅ layers
  rw [LayerSet.ofList, ← hmap, ofList?]
  exact congrArg (Option.bind · _) hrun

theorem contains?_eq (s : LayerSet) (layer : UInt8) : contains? s.word layer = some (s.contains layer) := by
  by_cases hlt : layer.toNat < layerCount
  · rw [contains?, if_pos hlt, bit?_eq hlt]
    refine congrArg some ?_
    rw [LayerSet.word_and_single]
    cases s.contains layer with
    | false => rfl
    | true => exact bne_iff_ne.2 (LayerSet.word_single_ne_zero hlt)
  · have hnot : s.contains layer = false := Bool.eq_false_iff.2 fun hmem => hlt (LayerSet.lt_of_contains hmem)
    rw [contains?, if_neg hlt, hnot]
    rfl

/-- A test that always has a result filters as the result does; `kept` is what was kept before, the last one first. -/
private theorem filterAuxM_eq_some {α : Type} {p : α → Option Bool} {q : α → Bool} (h : ∀ a, p a = some (q a))
    (l kept : List α) : l.filterAuxM p kept = some ((l.filter q).reverse ++ kept) := by
  induction l generalizing kept with
  | nil => rfl
  | cons a l ih =>
    rw [List.filterAuxM, h]
    refine (ih _).trans ?_
    cases hq : q a with
    | false =>
      rw [List.filter_cons_of_neg (by simp [hq])]
      rfl
    | true =>
      rw [List.filter_cons_of_pos hq, List.reverse_cons, List.append_assoc]
      rfl

theorem toList?_eq (s : LayerSet) : toList? s.word = some s.toList := by
  rw [toList?, List.filterM, filterAuxM_eq_some (contains?_eq s)]
  refine congrArg some ?_
  rw [List.append_nil, List.reverse_reverse]
  rfl

end LayerWord

/-! ### Lists of numbers -/

namespace LayerSet

private theorem foldlM_insert_eq_error_iff {s : LayerSet} {layers : List UInt8} {e : LayerOutOfRange} :
    layers.foldlM insert s = .error e ↔ layers.find? (layerCount ≤ ·.toNat) = some e.layer := by
  induction layers generalizing s with
  | nil => simp [pure, Except.pure]
  | cons first others ih =>
    by_cases hlt : first.toNat < layerCount
    · have hfirst : s.insert first = .ok _ := if_pos hlt
      rw [List.foldlM_cons, hfirst, List.find?_cons_of_neg (by simpa using hlt)]
      exact ih
    · have hfirst : s.insert first = .error ⟨first⟩ := if_neg hlt
      rw [List.foldlM_cons, hfirst, List.find?_cons_of_pos (by simpa using hlt)]
      constructor
      · rintro ⟨⟩
        rfl
      · rintro ⟨⟩
        rfl

private theorem exists_ofList_iff {layers : List UInt8} :
    (∃ s, ofList layers = .ok s) ↔ ∀ layer ∈ layers, layer.toNat < layerCount := by
  constructor
  · rintro ⟨s, hs⟩
    have hnone : layers.find? (layerCount ≤ ·.toNat) = none := by
      refine Option.eq_none_iff_forall_ne_some.2 fun layer hfirst => ?_
      have herror : ofList layers = .error ⟨layer⟩ := foldlM_insert_eq_error_iff.2 hfirst
      cases hs.symm.trans herror
    simpa using hnone
  · intro h
    obtain ⟨s, hs, -⟩ := exists_foldlM_insert h ∅
    exact ⟨s, hs⟩

private theorem contains_ofList {s : LayerSet} {layers : List UInt8} (h : ofList layers = .ok s) (layer : UInt8) :
    s.contains layer = true ↔ layer ∈ layers := by
  obtain ⟨t, ht, hmem⟩ := exists_foldlM_insert (exists_ofList_iff.1 ⟨s, h⟩) ∅
  obtain rfl : t = s := Except.ok.inj (ht.symm.trans h)
  rw [hmem, contains_empty, Bool.false_eq_true, false_or]

private theorem toList_ascending (s : LayerSet) : s.toList.Pairwise (· < ·) := by
  have hall : ((List.range layerCount).map Nat.toUInt8).Pairwise (· < ·) := by decide
  exact hall.filter _

/-- A list of numbers makes a set just if all of them name layers.  Then these are the members of the set, which lists
each of them once and in ascending order; otherwise the refusal tells the first that names no layer.  Every set is that
of the members that it lists.  On the words that sets are kept in nothing is shifted too far, and all of this comes out
the same; a word stays as it was when a number is refused.  Chords are not recognized just while one of the disabled
layers is active. -/
theorem ofList_faithful (layers : List UInt8) :
    ((∃ s, ofList layers = .ok s) ↔ ∀ layer ∈ layers, layer.toNat < layerCount) ∧
    (∀ s, ofList layers = .ok s →
      (∀ layer, s.contains layer = true ↔ layer ∈ layers) ∧
      (∀ layer, layer ∈ s.toList ↔ layer ∈ layers) ∧ s.toList.Pairwise (· < ·)) ∧
    (∀ e, ofList layers = .error e ↔ layers.find? (layerCount ≤ ·.toNat) = some e.layer) ∧
    (∀ s, ofList (toList s) = .ok s) ∧
    LayerWord.ofList? layers = some ((ofList layers).map word) ∧
    (∀ s, LayerWord.toList? (word s) = some s.toList ∧
      ∀ layer, LayerWord.contains? s.word layer = some (s.contains layer) ∧
        (∀ t, s.insert layer = .ok t → (LayerWord.insert layer).on s.word = some (.ok (), t.word)) ∧
        ∀ e, s.insert layer = .error e → (LayerWord.insert layer).on s.word = some (.error e, s.word)) ∧
    ∀ (r : Recognizer) (active : ActiveLayers),
      r.isSuppressed active = true ↔ ∃ layer, r.disabledLayers.contains layer = true ∧ active layer = true := by
  refine ⟨exists_ofList_iff, fun s hs => ⟨contains_ofList hs, fun layer => ?_, s.toList_ascending⟩,
    fun e => foldlM_insert_eq_error_iff, fun s => ofList_eq_ok fun layer => mem_toList, LayerWord.ofList?_eq layers,
    fun s => ⟨LayerWord.toList?_eq s, fun layer => ⟨LayerWord.contains?_eq s layer,
      fun t => LayerWord.insert_of_ok, fun e => LayerWord.insert_of_error⟩⟩,
    fun r active => anyActive_iff⟩
  rw [mem_toList, contains_ofList hs]

/-- Numbers out of order and repeated, a number that a word refuses, two that no list may have, and a recognizer that
does not recognize chords on the layer 31. -/
theorem ofList_faithful_repeating :
    let s : LayerSet := ⟨0x80000009⟩
    (∀ layer ∈ ([31, 3, 0, 3] : List UInt8), layer.toNat < layerCount) ∧ ofList [31, 3, 0, 3] = .ok s ∧
      s.toList.Pairwise (· < ·) ∧ s.contains 31 = true ∧ s.contains 32 = false ∧ ofList s.toList = .ok s ∧
      s.insert 255 = .error ⟨255⟩ ∧ (LayerWord.insert 255).on s.word = some (.error ⟨255⟩, s.word) ∧
      (∃ t, s.insert 1 = .ok t ∧ (LayerWord.insert 1).on s.word = some (.ok (), t.word)) ∧
      ofList [2, 32, 40] = .error ⟨32⟩ ∧
      ∃ r, Recognizer.ofConfig { disabledLayers := s } = .ok r ∧ r.isSuppressed (· == 31) = true := by
  intro s
  obtain ⟨hok, hmade, -, hself, -, hwords, hsuppressed⟩ := ofList_faithful [31, 3, 0, 3]
  obtain ⟨-, -, hrefused, -⟩ := ofList_faithful [2, 32, 40]
  obtain ⟨hcontains, -, hascending⟩ := hmade s rfl
  refine ⟨hok.1 ⟨s, rfl⟩, rfl, hascending, (hcontains 31).2 (by decide), ?_, hself s, rfl, ?_,
    ⟨_, rfl, ?_⟩, (hrefused ⟨32⟩).2 rfl, _, rfl, ?_⟩
  · exact Bool.eq_false_iff.2 fun h => absurd ((hcontains 32).1 h) (by decide)
  · exact ((hwords s).2 255).2.2 _ rfl
  · exact ((hwords s).2 1).2.1 _ rfl
  · exact (hsuppressed _ _).2 ⟨31, (hcontains 31).2 (by decide), rfl⟩

end LayerSet

end Chording
