/-!
# Lines and cuts

Where a text is taken apart: into lines, and at the first occurrence of a character.
-/

namespace Chording

/-- The lines of a text.  A line ends at a line feed or at the end of the text, and no empty line follows the last
line feed.  A carriage return stays in its line, at whose end it is a blank. -/
def lines : List Char → List (List Char)
  | [] => []
  | c :: cs =>
    if c = '\n' then [] :: lines cs
    else match lines cs with
      | [] => [[c]]
      | line :: rest => (c :: line) :: rest

/-- The parts of a text before and after the first `mark`, if there is one. -/
def cutAt? (mark : Char) : List Char → Option (List Char × List Char)
  | [] => none
  | c :: cs => if c = mark then some ([], cs) else (cutAt? mark cs).map fun parts => (c :: parts.1, parts.2)

/-- Characters are compared without regard to the case of ASCII letters. -/
def sameIgnoringCase (a b : List Char) : Bool :=
  a.map Char.toLower == b.map Char.toLower

theorem cutAt?_eq_some_iff {mark : Char} {text before after : List Char} :
    cutAt? mark text = some (before, after) ↔ text = before ++ mark :: after ∧ mark ∉ before := by
  induction text generalizing before with
  | nil => simp [cutAt?]
  | cons c cs ih =>
    by_cases h : c = mark
    · subst h
      cases before with
      | nil => simp [cutAt?, eq_comm]
      | cons b bs => simp +contextual [cutAt?]
    · cases before with
      | nil => simp [cutAt?, h]
      | cons b bs =>
        simp only [cutAt?, h, if_false, Option.map_eq_some_iff, Prod.mk.injEq, List.cons.injEq, List.cons_append,
          List.mem_cons, not_or]
        constructor
        · rintro ⟨⟨x, y⟩, hxy, ⟨rfl, rfl⟩, rfl⟩
          have := ih.1 hxy
          exact ⟨⟨rfl, this.1⟩, fun e => h e.symm, this.2⟩
        · rintro ⟨⟨rfl, ht⟩, _, hm⟩
          exact ⟨(bs, after), ih.2 ⟨ht, hm⟩, ⟨rfl, rfl⟩, rfl⟩

end Chording
