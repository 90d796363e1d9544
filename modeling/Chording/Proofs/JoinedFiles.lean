import Chording.Proofs.WrittenFiles

/-!
# Chord files that are joined

A text whose last line has an end can be continued by another one: its lines are read as before, and those of the other
text after them (`lines_append_of_closed`).  The first faulty line of both counts, by its number in the whole text
(`FirstFault.append_left`).  Without a faulty line, the chords of the two texts stand one after another, and each setting
has the last of its values (`configOf`).  Only then is the configuration checked, so a text may give a setting a value
that cannot be used as long as the other one replaces it (`parse_joined`).
-/

namespace Chording

namespace ChordFile

/-- What is wrong with a line. -/
def fault? (line : List Char) : Option LineError :=
  match readLine line with
  | .error cause => some cause
  | .ok _ => none

/-- What a line says, if it can be read and says anything. -/
def directive? (line : List Char) : Option Directive :=
  match readLine line with
  | .error _ => none
  | .ok d? => d?

/-- What the lines of a text say, one after another. -/
def directivesOf (text : List Char) : List Directive := (lines text).filterMap directive?

/-- The first faulty line of a text, counted from 1, and what is wrong with it. -/
def FirstFault (text : List Char) (number : Nat) (cause : LineError) : Prop :=
  ∃ before line behind, lines text = before ++ line :: behind ∧ number = before.length + 1 ∧
    fault? line = some cause ∧ ∀ line' ∈ before, fault? line' = none

/-- What follows the text starts a new line. -/
def Closed (text : List Char) : Prop := text = [] ∨ text.getLast? = some '\n'

instance (text : List Char) : Decidable (Closed text) :=
  inferInstanceAs (Decidable (text = [] ∨ text.getLast? = some '\n'))

variable {first second text line : List Char} {ls before behind : List (List Char)} {number : Nat} {cause : LineError}

/-! ### The lines of both texts -/

private theorem lines_eq_nil_iff : lines text = [] ↔ text = [] := by
  cases text with
  | nil => exact iff_of_true rfl rfl
  | cons c text =>
    refine iff_of_false (fun h => ?_) (List.cons_ne_nil _ _)
    rw [lines] at h
    split at h
    · cases h
    · split at h <;> cases h

private theorem Closed.tail {c : Char} (h : Closed (c :: text)) : Closed text := by
  cases text with
  | nil => exact Or.inl rfl
  | cons c' text => exact Or.inr (List.getLast?_cons_cons ▸ h.resolve_left (List.cons_ne_nil _ _))

theorem lines_append_of_closed (h : Closed first) (second : List Char) :
    lines (first ++ second) = lines first ++ lines second := by
  induction first with
  | nil => rfl
  | cons c first ih =>
    rw [List.cons_append, lines, lines, ih h.tail]
    by_cases hc : c = '\n'
    · rw [if_pos hc, if_pos hc, List.cons_append]
    · rw [if_neg hc, if_neg hc]
      -- the line that begins here ends in the first text
      cases hl : lines first with
      | nil =>
        rw [lines_eq_nil_iff.1 hl] at h
        exact absurd (Option.some.inj (h.resolve_left (List.cons_ne_nil _ _))) hc
      | cons line rest => rfl

private theorem directivesOf_append (h : Closed first) (second : List Char) :
    directivesOf (first ++ second) = directivesOf first ++ directivesOf second := by
  rw [directivesOf, lines_append_of_closed h, List.filterMap_append]
  rfl

/-! ### Reading lines -/

private theorem readLine_of_fault? (h : fault? line = some cause) : readLine line = .error cause := by
  unfold fault? at h
  split at h
  · rename_i hr
    rw [hr, Option.some.inj h]
  · cases h

private theorem readLine_of_fault?_eq_none (h : fault? line = none) : readLine line = .ok (directive? line) := by
  unfold fault? at h
  unfold directive?
  split at h
  · cases h
  · rename_i hr
    rw [hr]

private theorem readLines_of_no_fault (h : ∀ line ∈ ls, fault? line = none) (number : Nat) (c : Config) :
    readLines number c ls = .ok ((ls.filterMap directive?).foldl Directive.apply c) := by
  induction ls generalizing number c with
  | nil => rfl
  | cons line ls ih =>
    obtain ⟨hline, h⟩ := List.forall_mem_cons.1 h
    rw [readLines, readLine_of_fault?_eq_none hline]
    cases hd : directive? line with
    | none =>
      rw [List.filterMap_cons_none hd]
      exact ih h (number + 1) c
    | some d =>
      rw [List.filterMap_cons_some hd]
      exact ih h (number + 1) (d.apply c)

/-- Reading stops at the first faulty line. -/
private theorem readLines_of_fault (hb : ∀ line ∈ before, fault? line = none) (hl : fault? line = some cause)
    (number : Nat) (c : Config) (behind : List (List Char)) :
    readLines number c (before ++ line :: behind) = .error (.atLine (number + before.length) cause) := by
  rw [readLines_append, readLines_of_no_fault hb]
  show readLines (number + before.length) _ (line :: behind) = _
  rw [readLines, readLine_of_fault? hl]

private theorem exists_firstFault (h : ∃ line ∈ lines text, (fault? line).isSome) :
    ∃ number cause, FirstFault text number cause := by
  obtain ⟨line, hline⟩ := Option.isSome_iff_exists.1 (List.find?_isSome.2 h)
  obtain ⟨hfault, before, behind, heq, hbefore⟩ := List.find?_eq_some_iff_append.1 hline
  obtain ⟨cause, hcause⟩ := Option.isSome_iff_exists.1 hfault
  exact ⟨before.length + 1, cause, before, line, behind, heq, rfl, hcause,
    fun line' hmem => by simpa using hbefore line' hmem⟩

/-! ### Parsing -/

private theorem parse_of_no_fault (text : List Char) (h : ∀ line ∈ lines text, fault? line = none) :
    parse text = checked (configOf (directivesOf text)) := by
  rw [parse, readLines_of_no_fault h, ← foldl_apply_eq]
  rfl

private theorem FirstFault.parse_eq (h : FirstFault text number cause) :
    parse text = .error (.atLine number cause) := by
  obtain ⟨before, line, behind, heq, rfl, hl, hb⟩ := h
  rw [parse, heq, readLines_of_fault hb hl, Nat.add_comm 1]
  rfl

/-- A faulty line counts before anything that is wrong with the configuration. -/
private theorem no_fault_of_invalid {e : ConfigError} (h : parse text = .error (.invalid e)) :
    ∀ line ∈ lines text, fault? line = none := by
  intro line hmem
  by_contra hne
  obtain ⟨number, cause, hfault⟩ := exists_firstFault ⟨line, hmem, Option.isSome_iff_ne_none.2 hne⟩
  rw [hfault.parse_eq] at h
  cases h

private theorem FirstFault.append (h : FirstFault first number cause) (hc : Closed first) (second : List Char) :
    FirstFault (first ++ second) number cause := by
  obtain ⟨before, line, behind, heq, hn, hl, hb⟩ := h
  refine ⟨before, line, behind ++ lines second, ?_, hn, hl, hb⟩
  rw [lines_append_of_closed hc, heq, List.append_assoc, List.cons_append]

/-- The number of a line counts the lines of the text before. -/
theorem FirstFault.append_left (h : FirstFault second number cause) (hc : Closed first)
    (hn : ∀ line ∈ lines first, fault? line = none) :
    FirstFault (first ++ second) ((lines first).length + number) cause := by
  obtain ⟨before, line, behind, heq, rfl, hl, hb⟩ := h
  refine ⟨lines first ++ before, line, behind, ?_, ?_, hl, List.forall_mem_append.2 ⟨hn, hb⟩⟩
  · rw [lines_append_of_closed hc, heq, List.append_assoc]
  · rw [List.length_append, Nat.add_assoc]

/-- The first text alone decides if one of its lines is faulty, and otherwise a faulty line of the second one does, by
its number in both.  Without any the texts give the chords of the first before those of the second, and each setting
its last value; only this configuration has to be one that can be used. -/
theorem parse_joined (first : List Char) (h : Closed first) :
    ((∃ line ∈ lines first, (fault? line).isSome) →
      ∃ number cause, FirstFault first number cause ∧
        ∀ second, parse (first ++ second) = .error (.atLine number cause)) ∧
    ((∀ line ∈ lines first, fault? line = none) → ∀ second,
      ((∃ line ∈ lines second, (fault? line).isSome) →
        ∃ number cause, FirstFault second number cause ∧
          parse (first ++ second) = .error (.atLine ((lines first).length + number) cause)) ∧
      ((∀ line ∈ lines second, fault? line = none) →
        let c := configOf (directivesOf (first ++ second))
        c.chords = (configOf (directivesOf first)).chords ++ (configOf (directivesOf second)).chords ∧
        (∀ t, c.validate = .ok t → parse (first ++ second) = .ok c) ∧
        ∀ e, c.validate = .error e → parse (first ++ second) = .error (.invalid e))) ∧
    ∀ second e, parse (first ++ second) = .error (.invalid e) →
      ∀ line ∈ lines (first ++ second), fault? line = none := by
  refine ⟨fun hfault => ?_, fun hn second => ⟨fun hfault => ?_, fun hn' => ?_⟩, fun second e => no_fault_of_invalid⟩
  · obtain ⟨number, cause, hfirst⟩ := exists_firstFault hfault
    exact ⟨number, cause, hfirst, fun second => (hfirst.append h second).parse_eq⟩
  · obtain ⟨number, cause, hsecond⟩ := exists_firstFault hfault
    exact ⟨number, cause, hsecond, (hsecond.append_left h hn).parse_eq⟩
  · have hparse := parse_of_no_fault (first ++ second)
      (lines_append_of_closed h second ▸ List.forall_mem_append.2 ⟨hn, hn'⟩)
    refine ⟨?_, fun t ht => ?_, fun e he => ?_⟩
    · rw [directivesOf_append h]
      exact List.filterMap_append
    · rw [hparse, checked, ht]
    · rw [hparse, checked, he]

/-- A queue without room, a comment and an empty line. -/
def noRoom : List Char := "queue = 0\n# for now\n\n".toList

/-- A chord, and a queue with room again. -/
def roomAgain : List Char := "F + R = Tab\nqueue = 5".toList

/-- The room that a text lacks may be given by another one, but a faulty line counts first, here the fourth one. -/
theorem parse_joined_noRoom :
    parse (noRoom ++ []) = .error (.invalid .zeroCapacity) ∧
    parse (noRoom ++ roomAgain) = .ok { chords := [⟨[⟨0x09⟩, ⟨0x15⟩], ⟨0x2B⟩⟩], capacity := 5 } ∧
    parse (noRoom ++ "timeout".toList) = .error (.atLine 4 (.missingEquals "timeout".toList)) := by
  have hn : ∀ line ∈ lines noRoom, fault? line = none := by decide +kernel
  have hnoRoom : (configOf (directivesOf (noRoom ++ []))).capacity = 0 := by decide +kernel
  have hroom : configOf (directivesOf (noRoom ++ roomAgain)) =
      { chords := [⟨[⟨0x09⟩, ⟨0x15⟩], ⟨0x2B⟩⟩], capacity := 5 } := by decide +kernel
  have hfirst : parse "timeout".toList = .error (.atLine 1 (.missingEquals "timeout".toList)) := by decide +kernel
  obtain ⟨-, hread, -⟩ := parse_joined noRoom (by decide +kernel)
  obtain ⟨-, -, hinvalid⟩ := (hread hn []).2 fun _ hmem => absurd hmem List.not_mem_nil
  obtain ⟨-, hvalid, -⟩ := (hread hn roomAgain).2 (by decide +kernel)
  obtain ⟨number, cause, hfault, hline⟩ := (hread hn "timeout".toList).1 (by decide +kernel)
  refine ⟨hinvalid _ (if_pos hnoRoom), ?_, ?_⟩
  · rw [hroom] at hvalid
    exact hvalid _ rfl
  · obtain ⟨rfl, rfl⟩ := Error.atLine.inj (Except.error.inj (hfirst.symm.trans hfault.parse_eq))
    exact hline

end ChordFile

end Chording
