import Chording.Json.Lemmas
import Mathlib.Data.List.Chain
import Mathlib.Data.List.Forall2
import Mathlib.Data.List.TakeWhile

/-!
# JSON texts and their values

A value may be written in many ways: there may be blanks around every token, and a character of a string may be
escaped (`Json.WrittenAs`).  All these texts are read as the value (`parse?_of_writtenAs`).  Numbers and words reach as
far as they can, so it counts that no two of them are neighbours among the tokens of a value (`isChain_tokens`).
-/

namespace Chording.Json

/-! ### Numbers -/

namespace Token

variable {cs rest literal front : List Char} {c : Char}

/-- The characters before the rest are such as a number may have in it. -/
def NumberBefore (cs rest : List Char) : Prop :=
  ∃ front, cs = front ++ rest ∧ ∀ c ∈ front, isNumberChar c = true

private theorem NumberBefore.refl (cs : List Char) : NumberBefore cs cs :=
  ⟨[], rfl, fun _ h => absurd h List.not_mem_nil⟩

private theorem NumberBefore.cons (hc : isNumberChar c = true) (h : NumberBefore cs rest) :
    NumberBefore (c :: cs) rest := by
  obtain ⟨front, rfl, hfront⟩ := h
  exact ⟨c :: front, rfl, List.forall_mem_cons.2 ⟨hc, hfront⟩⟩

private theorem NumberBefore.trans {rest' : List Char} (h : NumberBefore cs rest) (h' : NumberBefore rest rest') :
    NumberBefore cs rest' := by
  obtain ⟨front, rfl, hfront⟩ := h
  obtain ⟨front', rfl, hfront'⟩ := h'
  exact ⟨front ++ front', (List.append_assoc ..).symm, List.forall_mem_append.2 ⟨hfront, hfront'⟩⟩

private theorem isNumberChar_of_isDigit (h : c.isDigit = true) : isNumberChar c = true := by
  simp [isNumberChar, h]

private theorem numberBefore_afterDigits? (h : afterDigits? cs = some rest) : NumberBefore cs rest := by
  unfold afterDigits? at h
  split at h
  · cases h
  · cases h
    refine ⟨_, List.takeWhile_append_dropWhile.symm, fun c hc => ?_⟩
    exact isNumberChar_of_isDigit (List.mem_takeWhile_imp hc)

private theorem numberBefore_afterMinus (cs : List Char) : NumberBefore cs (afterMinus cs) := by
  unfold afterMinus
  split
  · exact (NumberBefore.refl _).cons (by decide)
  · exact .refl _

private theorem numberBefore_afterSign (cs : List Char) : NumberBefore cs (afterSign cs) := by
  unfold afterSign
  split
  · exact (NumberBefore.refl _).cons (by decide)
  · exact (NumberBefore.refl _).cons (by decide)
  · exact .refl _

private theorem numberBefore_afterWhole? (h : afterWhole? cs = some rest) : NumberBefore cs rest := by
  unfold afterWhole? at h
  split at h
  · cases h
    exact (NumberBefore.refl _).cons (by decide)
  · exact numberBefore_afterDigits? h

private theorem numberBefore_afterFraction? (h : afterFraction? cs = some rest) : NumberBefore cs rest := by
  unfold afterFraction? at h
  split at h
  · exact (numberBefore_afterDigits? h).cons (by decide)
  · cases h
    exact .refl _

private theorem numberBefore_afterExponent? (h : afterExponent? cs = some rest) : NumberBefore cs rest := by
  unfold afterExponent? at h
  split at h
  · exact ((numberBefore_afterSign _).trans (numberBefore_afterDigits? h)).cons (by decide)
  · exact ((numberBefore_afterSign _).trans (numberBefore_afterDigits? h)).cons (by decide)
  · cases h
    exact .refl _

/-- The parts of a number, one after another. -/
private theorem exists_of_isNumber (h : isNumber literal = true) :
    ∃ fraction exponent, afterWhole? (afterMinus literal) = some fraction ∧ afterFraction? fraction = some exponent ∧
      afterExponent? exponent = some [] := by
  have hparts := eq_of_beq h
  obtain ⟨exponent, hexp, hend⟩ := Option.bind_eq_some_iff.1 hparts
  obtain ⟨fraction, hfrac, hexp⟩ := Option.bind_eq_some_iff.1 hexp
  exact ⟨fraction, exponent, hfrac, hexp, hend⟩

private theorem isNumberChar_of_mem (h : isNumber literal = true) : ∀ c ∈ literal, isNumberChar c = true := by
  obtain ⟨fraction, exponent, hwhole, hfraction, hexponent⟩ := exists_of_isNumber h
  obtain ⟨front, hfront, hall⟩ := (numberBefore_afterMinus literal).trans <|
    (numberBefore_afterWhole? hwhole).trans <|
      (numberBefore_afterFraction? hfraction).trans (numberBefore_afterExponent? hexponent)
  rw [List.append_nil] at hfront
  exact hfront ▸ hall

private theorem exists_cons_of_afterDigits? (h : afterDigits? cs = some rest) :
    ∃ c cs', cs = c :: cs' ∧ c.isDigit = true := by
  unfold afterDigits? at h
  split at h
  · cases h
  · rename_i hne
    cases cs with
    | nil => exact absurd rfl hne
    | cons c cs' =>
      refine ⟨c, cs', rfl, by_contra fun hc => hne ?_⟩
      rw [List.takeWhile_cons_of_neg hc]

/-- A number starts with a digit or a minus sign. -/
private theorem exists_cons_of_isNumber (h : isNumber literal = true) :
    ∃ c cs, literal = c :: cs ∧ (c.isDigit || c == '-') = true := by
  obtain ⟨fraction, -, hwhole, -, -⟩ := exists_of_isNumber h
  unfold afterMinus at hwhole
  split at hwhole
  · exact ⟨'-', _, rfl, by decide⟩
  · unfold afterWhole? at hwhole
    split at hwhole
    · exact ⟨'0', _, rfl, by decide⟩
    · obtain ⟨c, cs, hcs, hc⟩ := exists_cons_of_afterDigits? hwhole
      exact ⟨c, cs, hcs, by simp [hc]⟩

theorem isDigit_of_mem_write {n : Nat} (h : c ∈ Radix.decimal.write n) : c.isDigit = true := by
  obtain ⟨d, hd, rfl⟩ := Radix.mem_write h
  have hall : ∀ d < 10, (Radix.digitChar d).isDigit = true := by decide
  exact hall d hd

/-- There are no leading zeros. -/
private theorem exists_cons_write {n : Nat} (h : 0 < n) : ∃ c cs, Radix.decimal.write n = c :: cs ∧ c ≠ '0' := by
  have hall : ∀ d < 10, 0 < d → Radix.digitChar d ≠ '0' := by decide
  induction n using Nat.strongRecOn with
  | ind n ih =>
    rw [Radix.write, show Radix.decimal.base = 10 from rfl]
    split
    · exact ⟨_, [], rfl, hall n (by assumption) h⟩
    · obtain ⟨c, cs, hw, hc⟩ := ih (n / 10) (by omega) (by omega)
      rw [hw]
      exact ⟨c, _, rfl, hc⟩

private theorem afterMinus_of_ne (h : c ≠ '-') : afterMinus (c :: cs) = c :: cs := by
  unfold afterMinus
  split
  · rename_i heq
    exact absurd (List.cons.inj heq).1 h
  · rfl

private theorem afterWhole?_of_ne (h : c ≠ '0') : afterWhole? (c :: cs) = afterDigits? (c :: cs) := by
  unfold afterWhole?
  split
  · rename_i heq
    exact absurd (List.cons.inj heq).1 h
  · rfl

/-- What is written for a number is one. -/
private theorem isNumber_write (n : Nat) : isNumber (Radix.decimal.write n) = true := by
  rcases Nat.eq_zero_or_pos n with rfl | hpos
  · decide +kernel
  · obtain ⟨c, cs, hw, hc⟩ := exists_cons_write hpos
    have hdigits : ∀ c' ∈ c :: cs, c'.isDigit = true := fun c' hc' => isDigit_of_mem_write (hw ▸ hc')
    have hminus : c ≠ '-' := by
      rintro rfl
      exact absurd (hdigits '-' List.mem_cons_self) (by decide)
    have hall : afterDigits? (c :: cs) = some [] := by
      rw [afterDigits?, List.takeWhile_eq_self_iff.2 hdigits, List.dropWhile_eq_nil_iff.2 hdigits]
      rfl
    rw [hw, isNumber, afterMinus_of_ne hminus, afterWhole?_of_ne hc, hall]
    rfl

end Token

/-! ### Strings -/

/-- The ways to write a part of a string: a character as it is, unless it has to be escaped, an escape with a letter or
mark, and an escape of a unit. -/
inductive StringPart.Spelling : StringPart → List Char → Prop
  | plain {c : Char} (hquote : c ≠ '"') (hescape : c ≠ '\\') (hcontrol : Token.isControl c = false) :
      Spelling (.char c) [c]
  | escape {c mark : Char} (h : Token.escaped? mark = some c) : Spelling (.char c) ['\\', mark]
  | unit {a b c d : Char} {u : Nat} (h : Token.unit? a b c d = some u) :
      Spelling (.ofUnit u) ['\\', 'u', a, b, c, d]

namespace Token

private theorem readString?_spelling {part : StringPart} {word rest' : List Char} {parts : List StringPart}
    {cs : List Char} (hword : part.Spelling word) (hrest : readString? cs = some (parts, rest')) :
    readString? (word ++ cs) = some (part :: parts, rest') := by
  cases hword with
  | @plain c hquote hescape hcontrol =>
    rw [List.singleton_append, readString?, if_neg (by simp [hescape, hcontrol]), hrest]
    · rfl
    · exact hquote
    · exact fun _ _ _ _ _ hc => absurd hc hescape
    · exact fun _ _ hc => absurd hc hescape
  | @escape c mark h =>
    rw [List.cons_append, List.cons_append, List.nil_append, readString?, h, hrest]
    · rfl
    · rintro _ _ _ _ _ rfl
      cases h
  | @unit a b c d u h =>
    simp only [List.cons_append, List.nil_append]
    rw [readString?, h, hrest]
    rfl

private theorem readString?_of_spelled {parts : List StringPart} {words : List (List Char)}
    (h : List.Forall₂ StringPart.Spelling parts words) (rest : List Char) :
    readString? (words.flatten ++ '"' :: rest) = some (parts, rest) := by
  induction h with
  | nil => rw [List.flatten_nil, List.nil_append, readString?]
  | cons hword _ ih =>
    rw [List.flatten_cons, List.append_assoc]
    exact readString?_spelling hword ih

/-! ### Tokens -/

/-- The ways to write a token. -/
inductive Spelling : Token → List Char → Prop
  | mark {c : Char} {token : Token} (h : mark? c = some token) : Spelling token [c]
  | word {w : List Char} {token : Token} (h : word? w = some token) : Spelling token w
  | number {literal : List Char} (h : isNumber literal = true) : Spelling (.number literal) literal
  | string {parts : List StringPart} {words : List (List Char)}
      (h : List.Forall₂ StringPart.Spelling parts words) : Spelling (.string parts) ('"' :: (words.flatten ++ ['"']))

/-- The token reaches as far as it can. -/
def isLong : Token → Bool
  | null | bool _ | number _ => true
  | _ => false

/-- A text of blanks only. -/
def AllSpace (text : List Char) : Prop := ∀ c ∈ text, isSpace c = true

/-- Tokens written one after another, with any blanks around them. -/
inductive Spaced : List Token → List Char → Prop
  | nil {blanks : List Char} (h : AllSpace blanks) : Spaced [] blanks
  | cons {token : Token} {tokens : List Token} {blanks word text : List Char} (hb : AllSpace blanks)
      (hw : token.Spelling word) (h : Spaced tokens text) : Spaced (token :: tokens) (blanks ++ word ++ text)

private theorem isSpace_cases (h : isSpace c = true) : c = ' ' ∨ c = '\n' ∨ c = '\r' ∨ c = '\t' := by
  simpa [isSpace, or_assoc] using h

private theorem lex?_blanks {blanks : List Char} (h : AllSpace blanks) (text : List Char) :
    lex? (blanks ++ text) = lex? text := by
  induction blanks with
  | nil => rfl
  | cons c blanks ih =>
    obtain ⟨hc, h⟩ := List.forall_mem_cons.1 h
    rw [List.cons_append, lex?, if_pos hc, ih h]

/-- The end of a front all of whose elements pass a check, and what is behind it. -/
private theorem takeWhile_dropWhile_append {α : Type} {p : α → Bool} {front rest : List α}
    (hfront : ∀ x ∈ front, p x = true) (hrest : ∀ x ∈ rest.head?, p x = false) :
    (front ++ rest).takeWhile p = front ∧ (front ++ rest).dropWhile p = rest := by
  rw [List.takeWhile_append_of_pos hfront, List.dropWhile_append_of_pos hfront]
  cases rest with
  | nil => exact ⟨List.append_nil front, rfl⟩
  | cons x rest =>
    have hx : ¬p x = true := by simp [hrest x rfl]
    rw [List.takeWhile_cons_of_neg hx, List.dropWhile_cons_of_neg hx, List.append_nil]
    exact ⟨rfl, rfl⟩

/-- The characters that start a token of one character. -/
private theorem mark?_cases {token : Token} (h : mark? c = some token) :
    isSpace c = false ∧ c ≠ '"' ∧ (c.isDigit || c == '-') = false ∧ isNumberChar c = false ∧ c.isAlpha = false := by
  unfold mark? at h
  split at h <;> first | decide | cases h

private theorem lex?_mark {token : Token} (h : mark? c = some token) (text : List Char) :
    lex? (c :: text) = (lex? text).map (token :: ·) := by
  obtain ⟨hspace, hquote, hdigit, -⟩ := mark?_cases h
  rw [lex?, if_neg (by simp [hspace]), if_neg hquote, if_neg (by simpa using hdigit), h]

private theorem lex?_string {parts : List StringPart} {words : List (List Char)}
    (h : List.Forall₂ StringPart.Spelling parts words) (text : List Char) :
    lex? ('"' :: (words.flatten ++ ['"']) ++ text) = (lex? text).map (string parts :: ·) := by
  have hread : readString? (words.flatten ++ ['"'] ++ text) = some (parts, text) := by
    rw [List.append_assoc]
    exact readString?_of_spelled h text
  rw [List.cons_append, lex?, if_neg (by decide), if_pos rfl]
  split
  · rename_i hnone
    cases hnone.symm.trans hread
  · rename_i parts' rest hsome
    cases hsome.symm.trans hread
    rfl

private theorem lex?_number (h : isNumber literal = true) {text : List Char}
    (htext : ∀ c ∈ text.head?, isNumberChar c = false) :
    lex? (literal ++ text) = (lex? text).map (number literal :: ·) := by
  obtain ⟨c, cs, rfl, hc⟩ := exists_cons_of_isNumber h
  obtain ⟨htake, hdrop⟩ := takeWhile_dropWhile_append
    (fun c' hc' => isNumberChar_of_mem h c' (List.mem_cons_of_mem c hc')) htext
  have hspace : isSpace c = false := by
    refine Bool.eq_false_iff.2 fun hs => ?_
    rcases isSpace_cases hs with rfl | rfl | rfl | rfl <;> exact absurd hc (by decide)
  have hquote : c ≠ '"' := by
    rintro rfl
    exact absurd hc (by decide)
  rw [List.cons_append, lex?, if_neg (by simp [hspace]), if_neg hquote, if_pos hc, htake, hdrop]
  simp [h]

private theorem word?_cases {w : List Char} {token : Token} (h : word? w = some token) :
    token.isLong = true ∧ ∃ c cs, w = c :: cs ∧ (∀ c' ∈ cs, c'.isAlpha = true) ∧ isSpace c = false ∧ c ≠ '"' ∧
      (c.isDigit || c == '-') = false ∧ mark? c = none := by
  unfold word? at h
  split_ifs at h with hw hw hw <;> cases h <;> subst hw <;>
    exact ⟨rfl, _, _, rfl, List.all_eq_true.1 (by decide), by decide⟩

private theorem lex?_word {w : List Char} {token : Token} (h : word? w = some token) {text : List Char}
    (htext : ∀ c ∈ text.head?, c.isAlpha = false) : lex? (w ++ text) = (lex? text).map (token :: ·) := by
  obtain ⟨-, c, cs, rfl, halpha, hspace, hquote, hdigit, hmark⟩ := word?_cases h
  obtain ⟨htake, hdrop⟩ := takeWhile_dropWhile_append halpha htext
  rw [List.cons_append, lex?, if_neg (by simp [hspace]), if_neg hquote, if_neg (by simpa using hdigit), hmark, htake,
    hdrop]
  simp only [h]

/-! ### Tokens with blanks around them -/

private theorem lex?_of_allSpace {blanks : List Char} (h : AllSpace blanks) : lex? blanks = some [] := by
  have hblanks := lex?_blanks h []
  rwa [List.append_nil, lex?] at hblanks

/-- The first character does not go on with a number or word. -/
def Breaks (text : List Char) : Prop := ∀ c ∈ text.head?, isNumberChar c = false ∧ c.isAlpha = false

/-- No two of the numbers and words are neighbours. -/
def Apart (token token' : Token) : Prop := token.isLong = true → token'.isLong = false

private theorem breaks_of_allSpace {blanks text : List Char} (h : AllSpace blanks) (htext : Breaks text) :
    Breaks (blanks ++ text) := by
  cases blanks with
  | nil => exact htext
  | cons b blanks =>
    intro c hc
    obtain rfl : b = c := Option.some.inj hc
    rcases isSpace_cases (h b List.mem_cons_self) with rfl | rfl | rfl | rfl <;> decide

private theorem breaks_of_spaced {tokens : List Token} {text : List Char} (h : Spaced tokens text)
    (hlong : ∀ token ∈ tokens.head?, token.isLong = false) : Breaks text := by
  cases h with
  | nil h => exact List.append_nil text ▸ breaks_of_allSpace h fun _ hc => nomatch hc
  | @cons token tokens blanks word text hb hw h =>
    have hshort := hlong token rfl
    rw [List.append_assoc]
    refine breaks_of_allSpace hb fun c hc => ?_
    cases hw with
    | @mark c' token hm =>
      obtain rfl : c' = c := Option.some.inj hc
      exact (mark?_cases hm).2.2.2
    | word hword => exact absurd (hshort.symm.trans (word?_cases hword).1) Bool.false_ne_true
    | number hn => cases hshort
    | string hs =>
      obtain rfl : '"' = c := Option.some.inj hc
      decide

/-- The tokens of a text that was written with blanks around them. -/
private theorem lex?_of_spaced {tokens : List Token} {text : List Char} (h : Spaced tokens text)
    (hapart : tokens.IsChain Apart) : lex? text = some tokens := by
  induction h with
  | nil h => exact lex?_of_allSpace h
  | @cons token tokens blanks word text hb hw h ih =>
    obtain ⟨hnext, hapart⟩ := List.isChain_cons.1 hapart
    have hbreaks : token.isLong = true → Breaks text := fun hlong =>
      breaks_of_spaced h fun token' htoken' => hnext token' htoken' hlong
    have hone : lex? (word ++ text) = (lex? text).map (token :: ·) := by
      cases hw with
      | mark hm => exact lex?_mark hm text
      | word hword => exact lex?_word hword fun c hc => (hbreaks (word?_cases hword).1 c hc).2
      | number hn => exact lex?_number hn fun c hc => (hbreaks rfl c hc).1
      | string hs => exact lex?_string hs text
    rw [List.append_assoc, lex?_blanks hb, hone, ih hapart]
    rfl

end Token

/-! ### Values -/

/-- The text is that of the value: its tokens with any blanks around them, each written in any way. -/
def WrittenAs (v : Json) (text : List Char) : Prop := Token.Spaced v.tokens text

/-- A token that is no number or word may have anything behind it. -/
private theorem isChain_cons_of_short {token : Token} {tokens : List Token} (ht : token.isLong = false)
    (h : tokens.IsChain Token.Apart) : (token :: tokens).IsChain Token.Apart :=
  List.isChain_cons.2 ⟨fun _ _ hlong => absurd (ht.symm.trans hlong) Bool.false_ne_true, h⟩

/-- The tokens may stand behind any value: the first one is no number or word. -/
def MayFollow (tokens : List Token) : Prop :=
  tokens.IsChain Token.Apart ∧ ∀ token ∈ tokens.head?, token.isLong = false

private theorem mayFollow_cons {token : Token} {tokens : List Token} (ht : token.isLong = false)
    (h : tokens.IsChain Token.Apart) : MayFollow (token :: tokens) :=
  ⟨isChain_cons_of_short ht h, fun _ htoken => Option.some.inj htoken ▸ ht⟩

mutual

private theorem isChain_tokens_append (v : Json) {rest : List Token} (h : MayFollow rest) :
    (v.tokens ++ rest).IsChain Token.Apart := by
  cases v with
  | null | bool | number => exact List.isChain_cons.2 ⟨fun token htoken _ => h.2 token htoken, h.1⟩
  | string parts => exact isChain_cons_of_short rfl h.1
  | array items =>
    cases items with
    | nil => exact isChain_cons_of_short rfl (isChain_cons_of_short rfl h.1)
    | cons v vs =>
      rw [tokens, List.cons_append, List.append_assoc]
      exact isChain_cons_of_short rfl (isChain_tokens_append v (mayFollow_furtherItems vs h.1))
  | object members =>
    cases members with
    | nil => exact isChain_cons_of_short rfl (isChain_cons_of_short rfl h.1)
    | cons m ms =>
      obtain ⟨n, v⟩ := m
      have hv := isChain_tokens_append v (mayFollow_furtherMembers ms h.1)
      rw [tokens, List.cons_append, List.cons_append, List.cons_append, List.append_assoc]
      exact isChain_cons_of_short rfl (isChain_cons_of_short rfl (isChain_cons_of_short rfl hv))
termination_by sizeOf v

private theorem mayFollow_furtherItems (vs : List Json) {rest : List Token} (h : rest.IsChain Token.Apart) :
    MayFollow (furtherItems vs ++ rest) := by
  cases vs with
  | nil => exact mayFollow_cons rfl h
  | cons v vs =>
    rw [furtherItems, List.cons_append, List.append_assoc]
    exact mayFollow_cons rfl (isChain_tokens_append v (mayFollow_furtherItems vs h))
termination_by sizeOf vs

private theorem mayFollow_furtherMembers (ms : List (List StringPart × Json)) {rest : List Token}
    (h : rest.IsChain Token.Apart) : MayFollow (furtherMembers ms ++ rest) := by
  cases ms with
  | nil => exact mayFollow_cons rfl h
  | cons m ms =>
    obtain ⟨n, v⟩ := m
    have hv := isChain_tokens_append v (mayFollow_furtherMembers ms h)
    rw [furtherMembers, List.cons_append, List.cons_append, List.cons_append, List.append_assoc]
    exact mayFollow_cons rfl (isChain_cons_of_short rfl (isChain_cons_of_short rfl hv))
termination_by sizeOf ms

end

/-- Among the tokens of a value no two numbers or words are neighbours. -/
theorem isChain_tokens (v : Json) : v.tokens.IsChain Token.Apart := by
  have h : (v.tokens ++ []).IsChain Token.Apart := isChain_tokens_append v ⟨List.IsChain.nil, fun _ h => nomatch h⟩
  rwa [List.append_nil] at h

/-- Every text of a value is read as the value. -/
theorem parse?_of_writtenAs {v : Json} {text : List Char} (h : v.WrittenAs text) : parse? text = some v := by
  rw [parse?, Token.lex?_of_spaced h v.isChain_tokens, Option.bind_some, ofTokens?_tokens]

/-! ### Rendered values -/

/-- Four hexadecimal digits are read as the unit that they were written for. -/
private theorem unit?_of_unitDigits {u : Nat} (h : u < 0x10000) :
    ∃ a b c d, Token.unitDigits u = [a, b, c, d] ∧ Token.unit? a b c d = some u := by
  refine ⟨_, _, _, _, rfl, ?_⟩
  have hdigit : ∀ d < 16, Radix.hexadecimal.digit? (Radix.digitChar d) = some d := fun d hd =>
    Radix.digit?_digitChar (r := .hexadecimal) hd
  have hmod : ∀ n, n % 16 < 16 := fun n => Nat.mod_lt n (by decide)
  have hvalue : ((u / 4096 % 16 * 16 + u / 256 % 16) * 16 + u / 16 % 16) * 16 + u % 16 = u := by omega
  simp only [Token.unit?, hdigit _ (hmod _), Option.bind_eq_bind, Option.bind_some, Option.pure_def, hvalue]

private theorem spelling_renderPart (c : Char) : (StringPart.char c).Spelling (Token.renderPart (.char c)) := by
  rw [Token.renderPart]
  split
  · rename_i hc
    rcases hc with rfl | rfl
    · exact .escape (show Token.escaped? '"' = some '"' from rfl)
    · exact .escape (show Token.escaped? '\\' = some '\\' from rfl)
  split
  · rename_i hcontrol
    have hlt : c.toNat < 0x20 := by simpa [Token.isControl] using hcontrol
    have hlow : c.toNat < 0x10000 := by omega
    obtain ⟨a, b, x, d, hdigits, hunit⟩ := unit?_of_unitDigits hlow
    -- a control character is no half of a character
    have hpart : StringPart.ofUnit c.toNat = .char c := by
      have hnot : ¬(Utf16.isHigh c.toNat || Utf16.isLow c.toNat) = true := by
        simp only [Utf16.isHigh, Utf16.isLow, Bool.or_eq_true, Bool.and_eq_true, decide_eq_true_eq]
        omega
      rw [StringPart.ofUnit, if_neg hnot, Char.ofNat_toNat]
    rw [hdigits, ← hpart]
    exact .unit hunit
  · rename_i hc hcontrol
    rw [not_or] at hc
    exact .plain hc.1 hc.2 (by simpa using hcontrol)

private theorem spelling_render_string (text : List Char) :
    (Token.string (StringPart.ofText text)).Spelling (Token.string (StringPart.ofText text)).render := by
  rw [Token.render, List.flatMap_def]
  refine .string ?_
  rw [List.forall₂_map_right_iff, List.forall₂_same]
  intro part hpart
  obtain ⟨c, -, rfl⟩ := List.mem_map.1 hpart
  exact spelling_renderPart c

/-- Each token of the value is rendered in a way in which it may be written. -/
def Renders (v : Json) : Prop := ∀ token ∈ v.tokens, token.Spelling token.render

theorem renders_null : null.Renders :=
  List.forall_mem_singleton.2 (.word rfl)

theorem renders_ofNat (n : Nat) : (ofNat n).Renders :=
  List.forall_mem_singleton.2 (.number (Token.isNumber_write n))

theorem renders_ofText (text : List Char) : (ofText text).Renders :=
  List.forall_mem_singleton.2 (spelling_render_string text)

private theorem renders_furtherItems {items : List Json} (h : ∀ v ∈ items, v.Renders) :
    ∀ token ∈ furtherItems items, token.Spelling token.render := by
  induction items with
  | nil => exact List.forall_mem_singleton.2 (.mark rfl)
  | cons v vs ih =>
    obtain ⟨hv, hvs⟩ := List.forall_mem_cons.1 h
    rw [furtherItems]
    exact List.forall_mem_cons.2 ⟨.mark rfl, List.forall_mem_append.2 ⟨hv, ih hvs⟩⟩

theorem renders_array {items : List Json} (h : ∀ v ∈ items, v.Renders) : (array items).Renders := by
  cases items with
  | nil => exact List.forall_mem_cons.2 ⟨.mark rfl, List.forall_mem_singleton.2 (.mark rfl)⟩
  | cons v vs =>
    obtain ⟨hv, hvs⟩ := List.forall_mem_cons.1 h
    rw [Renders, tokens]
    exact List.forall_mem_cons.2 ⟨.mark rfl, List.forall_mem_append.2 ⟨hv, renders_furtherItems hvs⟩⟩

/-- The name is a text, and the value of the member renders. -/
def MemberRenders (m : List StringPart × Json) : Prop :=
  (∃ text, m.1 = StringPart.ofText text) ∧ m.2.Renders

/-- A member, and what comes before and behind it. -/
private theorem MemberRenders.forall_tokens {m : List StringPart × Json} (h : MemberRenders m) {rest : List Token}
    (hrest : ∀ token ∈ rest, token.Spelling token.render) :
    ∀ token ∈ .string m.1 :: .colon :: (m.2.tokens ++ rest), token.Spelling token.render := by
  obtain ⟨⟨text, hname⟩, hv⟩ := h
  rw [hname]
  exact List.forall_mem_cons.2 ⟨spelling_render_string text,
    List.forall_mem_cons.2 ⟨.mark rfl, List.forall_mem_append.2 ⟨hv, hrest⟩⟩⟩

private theorem renders_furtherMembers {members : List (List StringPart × Json)} (h : ∀ m ∈ members, MemberRenders m) :
    ∀ token ∈ furtherMembers members, token.Spelling token.render := by
  induction members with
  | nil => exact List.forall_mem_singleton.2 (.mark rfl)
  | cons m ms ih =>
    obtain ⟨hm, hms⟩ := List.forall_mem_cons.1 h
    rw [furtherMembers]
    exact List.forall_mem_cons.2 ⟨.mark rfl, hm.forall_tokens (ih hms)⟩

theorem renders_object {members : List (List StringPart × Json)} (h : ∀ m ∈ members, MemberRenders m) :
    (object members).Renders := by
  cases members with
  | nil => exact List.forall_mem_cons.2 ⟨.mark rfl, List.forall_mem_singleton.2 (.mark rfl)⟩
  | cons m ms =>
    obtain ⟨hm, hms⟩ := List.forall_mem_cons.1 h
    rw [Renders, tokens]
    exact List.forall_mem_cons.2 ⟨.mark rfl, hm.forall_tokens (renders_furtherMembers hms)⟩

/-- The rendered tokens with the same blanks before each of them are one of the texts of the value. -/
theorem writtenAs_of_renders {v : Json} (h : v.Renders) {blanks : List Char} (hb : Token.AllSpace blanks) :
    v.WrittenAs (v.tokens.flatMap fun token => blanks ++ token.render) := by
  have hall : ∀ tokens : List Token, (∀ token ∈ tokens, token.Spelling token.render) →
      Token.Spaced tokens (tokens.flatMap fun token => blanks ++ token.render) := by
    intro tokens htokens
    induction tokens with
    | nil => exact .nil fun _ hc => absurd hc List.not_mem_nil
    | cons token tokens ih =>
      obtain ⟨htoken, htokens⟩ := List.forall_mem_cons.1 htokens
      exact .cons hb htoken (ih htokens)
  exact hall v.tokens h

theorem writtenAs_render {v : Json} (h : v.Renders) : v.WrittenAs v.render :=
  writtenAs_of_renders h fun _ hc => absurd hc List.not_mem_nil

end Chording.Json
