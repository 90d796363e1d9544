import Chording.Json.Text

/-!
# JSON values and their tokens

Reading the tokens of a value gives the value back (`ofTokens?_tokens`).  The proof follows the value, with any frames
open around it and any tokens after it.
-/

namespace Chording.Json

open Progress

mutual

/-- The tokens of a value are read as that value, whatever is open around it. -/
private theorem foldlM_tokens (v : Json) (frames : List Frame) (rest : List Token) :
    (v.tokens ++ rest).foldlM next? (value frames) = rest.foldlM next? (ended v frames) := by
  cases v with
  | null => rfl
  | bool b => rfl
  | number literal => rfl
  | string parts => rfl
  | array items =>
    cases items with
    | nil => rfl
    | cons v vs =>
      have h1 := foldlM_arrayStart v frames (furtherItems vs ++ rest)
      have h2 := foldlM_furtherItems v vs [] frames rest
      simp only [tokens, List.cons_append, List.append_assoc]
      exact h1.trans h2
  | object members =>
    cases members with
    | nil => rfl
    | cons m ms =>
      obtain ⟨n, v⟩ := m
      have h1 := foldlM_tokens v (.members [] n :: frames) (furtherMembers ms ++ rest)
      have h2 := foldlM_furtherMembers n v ms [] frames rest
      simp only [tokens, List.cons_append, List.append_assoc]
      exact h1.trans h2
termination_by sizeOf v

private theorem foldlM_arrayStart (v : Json) (frames : List Frame) (rest : List Token) :
    (v.tokens ++ rest).foldlM next? (arrayStart frames) = rest.foldlM next? (ended v (.items [] :: frames)) := by
  rw [← foldlM_tokens v (.items [] :: frames) rest]
  cases v with
  | array items => cases items <;> rfl
  | object members => cases members <;> rfl
  | _ => rfl
termination_by sizeOf v + 1

private theorem foldlM_furtherItems (v : Json) (vs done : List Json) (frames : List Frame) (rest : List Token) :
    (furtherItems vs ++ rest).foldlM next? (ended v (.items done :: frames)) =
      rest.foldlM next? (ended (.array (done ++ v :: vs)) frames) := by
  cases vs with
  | nil => rfl
  | cons w vs =>
    have h1 := foldlM_tokens w (.items (done ++ [v]) :: frames) (furtherItems vs ++ rest)
    have h2 := foldlM_furtherItems w vs (done ++ [v]) frames rest
    rw [List.append_assoc] at h2
    simp only [furtherItems, List.cons_append, List.append_assoc]
    exact h1.trans h2
termination_by sizeOf vs + 1

private theorem foldlM_furtherMembers (n : List StringPart) (v : Json) (ms done : List (List StringPart × Json))
    (frames : List Frame) (rest : List Token) :
    (furtherMembers ms ++ rest).foldlM next? (ended v (.members done n :: frames)) =
      rest.foldlM next? (ended (.object (done ++ (n, v) :: ms)) frames) := by
  cases ms with
  | nil => rfl
  | cons m ms =>
    obtain ⟨k, w⟩ := m
    have h1 := foldlM_tokens w (.members (done ++ [(n, v)]) k :: frames) (furtherMembers ms ++ rest)
    have h2 := foldlM_furtherMembers k w ms (done ++ [(n, v)]) frames rest
    rw [List.append_assoc] at h2
    simp only [furtherMembers, List.cons_append, List.append_assoc]
    exact h1.trans h2
termination_by sizeOf ms + 1

end

theorem ofTokens?_tokens (v : Json) : ofTokens? v.tokens = some v := by
  have := foldlM_tokens v [] []
  rw [List.append_nil] at this
  rw [ofTokens?, this]
  rfl

end Chording.Json
