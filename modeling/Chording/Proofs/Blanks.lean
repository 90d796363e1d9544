import Chording.Text.Blank
import Mathlib.Data.List.TakeWhile

/-!
# Blanks around the parts of a text

What `trim` does to texts that are put together.  Blanks that are added at the ends do not count (`trim_append_left`,
`trim_append_right`), and a character that is not blank keeps what is on its two sides apart (`exists_trim_append_cons`).
So it does not matter whether a text is trimmed before it is split if its parts are trimmed behind it
(`map_trim_splitOn_trim`).
-/

namespace Chording

/-- A text of blanks only. -/
def AllBlank (text : List Char) : Prop := ∀ c ∈ text, isBlank c = true

variable {text blanks : List Char} {mark : Char}

theorem trim_append_left (h : AllBlank blanks) (text : List Char) : trim (blanks ++ text) = trim text := by
  rw [trim, List.dropWhile_append_of_pos h, trim]

theorem trim_append_right (h : AllBlank blanks) (text : List Char) : trim (text ++ blanks) = trim text := by
  have hrev : ∀ c ∈ blanks.reverse, isBlank c = true := fun c hc => h c (List.mem_reverse.1 hc)
  rw [trim, List.dropWhile_append]
  by_cases ht : (text.dropWhile isBlank).isEmpty
  · have hnil : text.dropWhile isBlank = [] := List.isEmpty_iff.1 ht
    rw [if_pos ht, trim, hnil, List.dropWhile_eq_nil_iff.2 h]
  · rw [if_neg ht, List.reverse_append, List.dropWhile_append_of_pos hrev, trim]

theorem trim_of_forall_not_blank (h : ∀ c ∈ text, isBlank c = false) : trim text = text := by
  have hdrop : ∀ l : List Char, (∀ c ∈ l, isBlank c = false) → l.dropWhile isBlank = l := by
    intro l hl
    refine List.dropWhile_eq_self_iff.2 fun hlen => ?_
    simpa using hl _ (List.getElem_mem hlen)
  rw [trim, hdrop text h, hdrop text.reverse fun c hc => h c (List.mem_reverse.1 hc), List.reverse_reverse]

/-- A text is what is left of it when it is trimmed, and the blanks around that. -/
theorem exists_blanks (text : List Char) :
    ∃ before behind, AllBlank before ∧ AllBlank behind ∧ text = before ++ trim text ++ behind := by
  refine ⟨text.takeWhile isBlank, ((text.dropWhile isBlank).reverse.takeWhile isBlank).reverse, ?_, ?_, ?_⟩
  · intro c hc
    exact List.mem_takeWhile_imp hc
  · intro c hc
    exact List.mem_takeWhile_imp (List.mem_reverse.1 hc)
  · have hback : trim text ++ ((text.dropWhile isBlank).reverse.takeWhile isBlank).reverse = text.dropWhile isBlank := by
      rw [trim, ← List.reverse_append, List.takeWhile_append_dropWhile, List.reverse_reverse]
    rw [List.append_assoc, hback, List.takeWhile_append_dropWhile]

theorem trim_trim (text : List Char) : trim (trim text) = trim text := by
  obtain ⟨before, behind, hbefore, hbehind, h⟩ := exists_blanks text
  calc trim (trim text) = trim (before ++ trim text ++ behind) := by
        rw [trim_append_right hbehind, trim_append_left hbefore]
    _ = trim text := by rw [← h]

private theorem dropWhile_append_cons (h : isBlank mark = false) (left right : List Char) :
    (left ++ mark :: right).dropWhile isBlank = left.dropWhile isBlank ++ mark :: right := by
  rw [List.dropWhile_append]
  by_cases he : (left.dropWhile isBlank).isEmpty
  · rw [if_pos he, List.isEmpty_iff.1 he, List.dropWhile_cons_of_neg (by simp [h]), List.nil_append]
  · rw [if_neg he]

/-- What stands on the two sides of a character that is not blank is trimmed at its far ends only. -/
theorem exists_trim_append_cons (h : isBlank mark = false) (left right : List Char) :
    ∃ left' right', trim (left ++ mark :: right) = left' ++ mark :: right' ∧ trim left' = trim left ∧
      trim right' = trim right ∧ left' ⊆ left := by
  refine ⟨left.dropWhile isBlank, (right.reverse.dropWhile isBlank).reverse, ?_, ?_, ?_, ?_⟩
  · rw [trim, dropWhile_append_cons h, List.reverse_append, List.reverse_cons, List.append_assoc,
      List.singleton_append, dropWhile_append_cons h]
    simp
  · have htake : AllBlank (left.takeWhile isBlank) := fun c hc => List.mem_takeWhile_imp hc
    rw [← trim_append_left htake, List.takeWhile_append_dropWhile]
  · have htake : AllBlank (right.reverse.takeWhile isBlank).reverse := fun c hc =>
      List.mem_takeWhile_imp (List.mem_reverse.1 hc)
    rw [← trim_append_right htake, ← List.reverse_append, List.takeWhile_append_dropWhile, List.reverse_reverse]
  · exact (List.dropWhile_suffix isBlank).subset

/-! ### Splitting -/

section Splitting

variable {α : Type}

theorem mem_intercalate {mark x : α} {parts : List (List α)} (h : x ∈ [mark].intercalate parts) :
    x = mark ∨ ∃ part ∈ parts, x ∈ part := by
  induction parts with
  | nil => exact absurd h (by simp)
  | cons part parts ih =>
    cases parts with
    | nil => exact Or.inr ⟨part, by simp, by simpa using h⟩
    | cons part' parts =>
      rw [List.intercalate_cons_cons, List.mem_append, List.mem_append, List.mem_singleton] at h
      rcases h with (h | h) | h
      · exact Or.inr ⟨part, by simp, h⟩
      · exact Or.inl h
      · rcases ih h with h | ⟨part'', hmem, hx⟩
        · exact Or.inl h
        · exact Or.inr ⟨part'', List.mem_cons_of_mem _ hmem, hx⟩

theorem subset_intercalate {mark : α} {parts : List (List α)} {part : List α} (h : part ∈ parts) :
    part ⊆ [mark].intercalate parts := by
  induction parts with
  | nil => exact absurd h List.not_mem_nil
  | cons first parts ih =>
    cases parts with
    | nil =>
      rw [List.mem_singleton.1 h, List.intercalate_singleton]
      exact List.Subset.refl first
    | cons second parts =>
      rw [List.intercalate_cons_cons]
      rcases List.mem_cons.1 h with rfl | h
      · exact fun x hx => List.mem_append_left _ (List.mem_append_left _ hx)
      · exact fun x hx => List.mem_append_right _ (ih h hx)

theorem not_mem_of_mem_splitOn [DecidableEq α] {mark : α} {text part : List α}
    (h : part ∈ text.splitOn mark) : mark ∉ part := by
  induction text generalizing part with
  | nil =>
    rw [List.mem_singleton.1 h]
    exact List.not_mem_nil
  | cons x text ih =>
    rw [List.splitOn_cons_eq_if_modifyHead] at h
    split at h
    · rcases List.mem_cons.1 h with rfl | h
      · exact List.not_mem_nil
      · exact ih h
    · rename_i hx
      obtain ⟨first, parts, hparts⟩ := List.exists_cons_of_ne_nil (text.splitOn_ne_nil mark)
      rw [hparts, List.modifyHead_cons] at h
      rcases List.mem_cons.1 h with rfl | h
      · rw [List.mem_cons, not_or]
        exact ⟨fun heq => hx (by simp [heq]), ih (hparts ▸ List.mem_cons_self)⟩
      · exact ih (hparts ▸ List.mem_cons_of_mem first h)

end Splitting

private theorem map_trim_splitOn_append_left (hm : isBlank mark = false) (h : AllBlank blanks) (text : List Char) :
    ((blanks ++ text).splitOn mark).map trim = (text.splitOn mark).map trim := by
  induction blanks with
  | nil => rfl
  | cons c cs ih =>
    have hc : isBlank c = true := h c List.mem_cons_self
    have hcm : c ≠ mark := fun e => by simp [e, hm] at hc
    rw [List.cons_append, List.splitOn_cons_eq_if_modifyHead, if_neg (by simpa using hcm),
      ← ih fun x hx => h x (List.mem_cons_of_mem _ hx)]
    cases (cs ++ text).splitOn mark with
    | nil => rfl
    | cons part parts =>
      have hone : AllBlank [c] := by simpa [AllBlank] using hc
      have hpart : trim (c :: part) = trim part := trim_append_left hone part
      rw [List.modifyHead_cons, List.map_cons, List.map_cons, hpart]

/-- What is added at the end is added to the last part. -/
private theorem exists_splitOn_append (h : mark ∉ blanks) (text : List Char) :
    ∃ parts last, text.splitOn mark = parts ++ [last] ∧ (text ++ blanks).splitOn mark = parts ++ [last ++ blanks] := by
  induction text with
  | nil => exact ⟨[], [], rfl, List.splitOn_eq_singleton h⟩
  | cons c text ih =>
    obtain ⟨parts, last, h1, h2⟩ := ih
    rw [List.cons_append, List.splitOn_cons_eq_if_modifyHead, List.splitOn_cons_eq_if_modifyHead, h1, h2]
    by_cases hc : (c == mark) = true
    · rw [if_pos hc, if_pos hc]
      exact ⟨[] :: parts, last, rfl, rfl⟩
    · rw [if_neg hc, if_neg hc]
      cases parts with
      | nil => exact ⟨[], c :: last, rfl, rfl⟩
      | cons part parts => exact ⟨(c :: part) :: parts, last, rfl, rfl⟩

private theorem map_trim_splitOn_append_right (hm : isBlank mark = false) (h : AllBlank blanks) (text : List Char) :
    ((text ++ blanks).splitOn mark).map trim = (text.splitOn mark).map trim := by
  have hb : mark ∉ blanks := fun hmem => by simp [h mark hmem] at hm
  obtain ⟨parts, last, h1, h2⟩ := exists_splitOn_append hb text
  rw [h1, h2, List.map_append, List.map_append, List.map_singleton, List.map_singleton, trim_append_right h]

theorem map_trim_splitOn_trim (hm : isBlank mark = false) (text : List Char) :
    ((trim text).splitOn mark).map trim = (text.splitOn mark).map trim := by
  obtain ⟨before, behind, hbefore, hbehind, h⟩ := exists_blanks text
  calc ((trim text).splitOn mark).map trim
      = ((trim text ++ behind).splitOn mark).map trim := (map_trim_splitOn_append_right hm hbehind _).symm
    _ = ((before ++ (trim text ++ behind)).splitOn mark).map trim := (map_trim_splitOn_append_left hm hbefore _).symm
    _ = (text.splitOn mark).map trim := by rw [← List.append_assoc, ← h]

end Chording
