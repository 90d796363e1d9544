import Chording.Proofs.Blanks
import Chording.Proofs.LoadedFiles

/-!
# Bytes in comments

What a comment is made of never matters, although a single byte of it may decide how the whole file is decoded.  Both
decoders keep ASCII and make nothing else into it (`KeepsComments`), so each of them reads the same lines, and the same
text before the first mark of each line (`decodeText_uncommented`).  That text is all that counts (`parse_uncommented`).
-/

namespace Chording

/-! ### Texts without their comments -/

/-- What ends a line, and what starts a comment in it. -/
structure CommentMarks (α : Type) where
  newline : α
  isMark : α → Bool

namespace CommentMarks

def chars : CommentMarks Char := ⟨'\n', fun c => c = '#' || c = ';'⟩

def bytes : CommentMarks UInt8 := ⟨0x0A, fun b => b = 0x23 || b = 0x3B⟩

variable {α : Type}

/-- The part of a line before its first mark. -/
def front (m : CommentMarks α) (line : List α) : List α :=
  line.takeWhile fun x => !m.isMark x

/-- The text without its comments: every line ends before its first mark. -/
def uncommented [DecidableEq α] (m : CommentMarks α) (text : List α) : List α :=
  [m.newline].intercalate ((text.splitOn m.newline).map m.front)

private theorem front_prefix (m : CommentMarks α) (line : List α) : m.front line <+: line :=
  List.takeWhile_prefix _

private theorem not_isMark_of_mem_front {m : CommentMarks α} {line : List α} {x : α} (h : x ∈ m.front line) :
    m.isMark x = false := by
  simpa using List.mem_takeWhile_imp h

/-- The newline and the marks are those of ASCII. -/
structure InAscii (m : CommentMarks α) (code : α → Nat) : Prop where
  newline_iff : ∀ x, x = m.newline ↔ code x = 0x0A
  isMark_iff : ∀ x, m.isMark x = true ↔ code x = 0x23 ∨ code x = 0x3B

private theorem inAscii_chars : chars.InAscii Char.toNat where
  newline_iff := fun c => Char.toNat_inj.symm
  isMark_iff := fun c => by simp [chars, ← Char.toNat_inj]

private theorem inAscii_bytes : bytes.InAscii UInt8.toNat where
  newline_iff := fun b => UInt8.toNat_inj.symm
  isMark_iff := fun b => by simp [bytes, ← UInt8.toNat_inj]

end CommentMarks

/-! ### Coding that keeps comments -/

/-- What stands for the elements of a text in another one: a newline for a newline only, and a mark for a mark only. -/
structure KeepsComments {α β : Type} (m : CommentMarks α) (m' : CommentMarks β) (f : α → List β) : Prop where
  newline_eq : f m.newline = [m'.newline]
  newline_not_mem : ∀ x, x ≠ m.newline → m'.newline ∉ f x
  mark : ∀ x, m.isMark x = true → ∃ y, f x = [y] ∧ m'.isMark y = true
  not_mark : ∀ x, m.isMark x = false → ∀ y ∈ f x, m'.isMark y = false

namespace KeepsComments

variable {α β : Type} {m : CommentMarks α} {m' : CommentMarks β} {f : α → List β}

private theorem front_flatMap (h : KeepsComments m m' f) (line : List α) :
    m'.front (line.flatMap f) = (m.front line).flatMap f := by
  induction line with
  | nil => rfl
  | cons x line ih =>
    rw [List.flatMap_cons, CommentMarks.front]
    cases hx : m.isMark x with
    | true =>
      obtain ⟨y, hy, hmark⟩ := h.mark x hx
      rw [hy, List.singleton_append, List.takeWhile_cons_of_neg (by simp [hmark]), CommentMarks.front,
        List.takeWhile_cons_of_neg (by simp [hx])]
      rfl
    | false =>
      rw [List.takeWhile_append_of_pos fun y hy => by simp [h.not_mark x hx y hy], CommentMarks.front,
        List.takeWhile_cons_of_pos (by simp [hx]), List.flatMap_cons]
      exact congrArg (f x ++ ·) ih

private theorem flatMap_intercalate (h : KeepsComments m m' f) (lines : List (List α)) :
    ([m.newline].intercalate lines).flatMap f = [m'.newline].intercalate (lines.map (·.flatMap f)) := by
  induction lines with
  | nil => rfl
  | cons line lines ih =>
    cases lines with
    | nil => simp
    | cons line' lines =>
      rw [List.intercalate_cons_cons, List.flatMap_append, List.flatMap_append, ih, List.flatMap_singleton, h.newline_eq]
      exact List.intercalate_cons_cons.symm

/-- A coding keeps comments if it keeps ASCII and makes nothing else into it. -/
private theorem of_ascii {code : α → Nat} {code' : β → Nat} (hm : m.InAscii code) (hm' : m'.InAscii code')
    (hlow : ∀ x, code x < 0x80 → ∃ y, f x = [y] ∧ code' y = code x)
    (hhigh : ∀ x, 0x80 ≤ code x → ∀ y ∈ f x, 0x80 ≤ code' y) : KeepsComments m m' f := by
  -- what the elements of a coding are, as far as they are ASCII
  have hcode : ∀ x, ∀ y ∈ f x, code' y = code x ∨ 0x80 ≤ code x ∧ 0x80 ≤ code' y := by
    intro x y hy
    by_cases hx : code x < 0x80
    · obtain ⟨z, hz, hzx⟩ := hlow x hx
      rw [hz, List.mem_singleton] at hy
      exact Or.inl (hy ▸ hzx)
    · have hx := Nat.le_of_not_lt hx
      exact Or.inr ⟨hx, hhigh x hx y hy⟩
  constructor
  · have hx : code m.newline = 0x0A := (hm.newline_iff _).1 rfl
    obtain ⟨y, hy, hyx⟩ := hlow m.newline (by omega)
    rw [hy, (hm'.newline_iff y).2 (hyx.trans hx)]
  · intro x hx hmem
    have hy : code' m'.newline = 0x0A := (hm'.newline_iff _).1 rfl
    have hne : code x ≠ 0x0A := fun h => hx ((hm.newline_iff x).2 h)
    have hyx := hcode x _ hmem
    omega
  · intro x hx
    have hmark := (hm.isMark_iff x).1 hx
    obtain ⟨y, hy, hyx⟩ := hlow x (by omega)
    exact ⟨y, hy, (hm'.isMark_iff y).2 (hyx ▸ hmark)⟩
  · intro x hx y hy
    have hnot : ¬(code x = 0x23 ∨ code x = 0x3B) := fun h => by simp [(hm.isMark_iff x).2 h] at hx
    have hyx := hcode x y hy
    rw [Bool.eq_false_iff]
    intro hmark
    have hmark := (hm'.isMark_iff y).1 hmark
    omega

variable [DecidableEq α] [DecidableEq β]

private theorem splitOn_flatMap (h : KeepsComments m m' f) (text : List α) :
    (text.flatMap f).splitOn m'.newline = (text.splitOn m.newline).map (·.flatMap f) := by
  have hlines : ∀ line ∈ (text.splitOn m.newline).map (·.flatMap f), m'.newline ∉ line := by
    intro line hline hmem
    obtain ⟨part, hpart, rfl⟩ := List.mem_map.1 hline
    obtain ⟨x, hx, hnewline⟩ := List.mem_flatMap.1 hmem
    exact h.newline_not_mem x (fun heq => not_mem_of_mem_splitOn hpart (heq ▸ hx)) hnewline
  calc (text.flatMap f).splitOn m'.newline
      = (([m.newline].intercalate (text.splitOn m.newline)).flatMap f).splitOn m'.newline := by
        rw [List.intercalate_splitOn]
    _ = (text.splitOn m.newline).map (·.flatMap f) := by
        rw [h.flatMap_intercalate, List.splitOn_intercalate _ hlines (by simp [List.splitOn_ne_nil])]

/-- Without its comments a text is coded as what stands for the text without its comments. -/
private theorem uncommented_flatMap (h : KeepsComments m m' f) (text : List α) :
    m'.uncommented (text.flatMap f) = (m.uncommented text).flatMap f := by
  rw [CommentMarks.uncommented, CommentMarks.uncommented, h.splitOn_flatMap, h.flatMap_intercalate, List.map_map,
    List.map_map]
  exact congrArg _ (List.map_congr_left fun line _ => h.front_flatMap line)

end KeepsComments

/-! ### UTF-8 and Windows-1252 -/

private theorem Utf8.encodeChar_of_lt {c : Char} (h : c.toNat < 0x80) :
    String.utf8EncodeChar c = [UInt8.ofNat c.toNat] := by
  have hv : c.val.toNat = c.toNat := rfl
  rw [String.utf8EncodeChar, hv, if_pos (by omega)]

/-- A character that is not ASCII is written with bytes that are not. -/
private theorem Utf8.le_of_mem_encodeChar {c : Char} (h : 0x80 ≤ c.toNat) :
    ∀ b ∈ String.utf8EncodeChar c, 0x80 ≤ b.toNat := by
  have hv : c.val.toNat = c.toNat := rfl
  have hvalid : c.toNat < 0xD800 ∨ 0xDFFF < c.toNat ∧ c.toNat < 0x110000 := c.valid
  rw [String.utf8EncodeChar, hv, if_neg (by omega)]
  split
  · simp
    omega
  split
  · simp
    omega
  · simp
    omega

private theorem Utf8.keepsComments : KeepsComments .chars .bytes String.utf8EncodeChar := by
  refine .of_ascii CommentMarks.inAscii_chars CommentMarks.inAscii_bytes (fun c hc => ?_) fun c => le_of_mem_encodeChar
  refine ⟨_, encodeChar_of_lt hc, ?_⟩
  rw [UInt8.toNat_ofNat']
  omega

/-- Of ASCII each byte is itself, and no other byte is ASCII. -/
private theorem Windows1252.toNat_character (b : UInt8) :
    (character b).toNat = b.toNat ∨ 0x80 ≤ b.toNat ∧ 0x80 ≤ (character b).toNat := by
  have hall : (high.all fun c => decide (0x80 ≤ c.toNat)) = true := by decide
  have hhigh : ∀ c ∈ high, 0x80 ≤ c.toNat := fun c hc => of_decide_eq_true (List.all_eq_true.1 hall c hc)
  have hlt := b.toNat_lt
  rw [character]
  split
  · rename_i hb
    have hb : 0x80 ≤ b.toNat ∧ b.toNat < 0xA0 := hb
    right
    refine ⟨hb.1, ?_⟩
    have hplace : b.toNat - 0x80 < high.length := by
      rw [length_high]
      omega
    rw [List.getD_eq_getElem?_getD, List.getElem?_eq_getElem hplace]
    exact hhigh _ (List.getElem_mem hplace)
  · exact Or.inl ((Char.toNat_ofNat _).trans (if_pos (Or.inl (by omega))))

private theorem Windows1252.keepsComments : KeepsComments .bytes .chars fun b => [character b] := by
  refine .of_ascii CommentMarks.inAscii_bytes CommentMarks.inAscii_chars (fun b hb => ?_) fun b hb c hc => ?_
  · exact ⟨_, rfl, (toNat_character b).resolve_right fun h => Nat.not_lt_of_le h.1 hb⟩
  · rw [List.mem_singleton.1 hc]
    rcases toNat_character b with h | h
    · rwa [h]
    · exact h.2

/-! ### Only what stands before the marks is read -/

namespace ChordFile

/-- An empty line at the end is no line. -/
private theorem splitOn_eq_lines (text : List Char) :
    text.splitOn '\n' = lines text ∨ text.splitOn '\n' = lines text ++ [[]] := by
  induction text with
  | nil => exact Or.inr rfl
  | cons c text ih =>
    rw [List.splitOn_cons_eq_if_modifyHead, lines]
    by_cases hc : c = '\n'
    · rw [if_pos (by simp [hc]), if_pos hc]
      exact ih.imp (congrArg _) (congrArg _)
    · rw [if_neg (by simp [hc]), if_neg hc]
      rcases ih with heq | heq
      · cases hl : lines text with
        | nil => exact absurd (heq.trans hl) (List.splitOn_ne_nil _ _)
        | cons line rest =>
          rw [heq, hl]
          exact Or.inl rfl
      · cases hl : lines text with
        | nil =>
          rw [heq, hl]
          exact Or.inl rfl
        | cons line rest =>
          rw [heq, hl]
          exact Or.inr rfl

private theorem readLines_splitOn (number : Nat) (c : Config) (text : List Char) :
    readLines number c (text.splitOn '\n') = readLines number c (lines text) := by
  rcases splitOn_eq_lines text with heq | heq
  · rw [heq]
  · rw [heq, readLines_append]
    cases readLines number c (lines text) <;> rfl

private theorem readLine_front (line : List Char) : readLine (CommentMarks.chars.front line) = readLine line := by
  have hfront : content (CommentMarks.chars.front line) = content line := by
    have hmark : (fun c => !CommentMarks.chars.isMark c) = fun c : Char => decide (c ≠ '#') && decide (c ≠ ';') := by
      funext c
      simp [CommentMarks.chars]
    rw [content, content, CommentMarks.front, hmark, List.takeWhile_takeWhile]
    simp
  rw [readLine, readLine, hfront]

private theorem readLines_map_front (number : Nat) (c : Config) (ls : List (List Char)) :
    readLines number c (ls.map CommentMarks.chars.front) = readLines number c ls := by
  induction ls generalizing number c with
  | nil => rfl
  | cons line ls ih =>
    rw [List.map_cons, readLines, readLines, readLine_front]
    simp only [ih]

/-- The comments of a text do not matter. -/
theorem parse_uncommented (text : List Char) : parse (CommentMarks.chars.uncommented text) = parse text := by
  have hlines : ∀ line ∈ (text.splitOn '\n').map CommentMarks.chars.front, '\n' ∉ line := by
    intro line hline hmem
    obtain ⟨part, hpart, rfl⟩ := List.mem_map.1 hline
    exact not_mem_of_mem_splitOn hpart (List.takeWhile_subset _ hmem)
  have hsplit : (CommentMarks.chars.uncommented text).splitOn '\n' =
      (text.splitOn '\n').map CommentMarks.chars.front :=
    List.splitOn_intercalate _ hlines (by simp [List.splitOn_ne_nil])
  have hread : readLines 1 {} (lines (CommentMarks.chars.uncommented text)) = readLines 1 {} (lines text) := by
    rw [← readLines_splitOn, hsplit, readLines_map_front, readLines_splitOn]
  rw [parse, parse, hread]

/-! ### Files -/

/-- Bytes that are not ASCII stand behind a mark in their line. -/
def HighInComments (bytes : List UInt8) : Prop :=
  ∀ line ∈ bytes.splitOn 0x0A, ∀ before b after, line = before ++ b :: after → 0x80 ≤ b →
    ∃ mark ∈ before, CommentMarks.bytes.isMark mark = true

variable {bytes : List UInt8}

private theorem not_isMark_of_le {b : UInt8} (h : 0x80 ≤ b) : CommentMarks.bytes.isMark b = false := by
  have hb : 0x80 ≤ b.toNat := h
  rw [Bool.eq_false_iff]
  intro hmark
  have hcode := (CommentMarks.inAscii_bytes.isMark_iff b).1 hmark
  omega

/-- It is just the comments that are not ASCII. -/
private theorem highInComments_iff : HighInComments bytes ↔ ∀ b ∈ CommentMarks.bytes.uncommented bytes, b < 0x80 := by
  constructor
  · intro h b hb
    rcases mem_intercalate hb with rfl | ⟨front, hfront, hb⟩
    · decide
    obtain ⟨line, hline, rfl⟩ := List.mem_map.1 hfront
    obtain ⟨comment, hcut⟩ := CommentMarks.bytes.front_prefix line
    obtain ⟨before, after, hsplit⟩ := List.append_of_mem hb
    rw [hsplit, List.append_assoc, List.cons_append] at hcut
    by_contra hhigh
    obtain ⟨mark, hmem, hmark⟩ := h line hline before b _ hcut.symm (UInt8.not_lt.1 hhigh)
    have hnot := CommentMarks.not_isMark_of_mem_front (hsplit ▸ List.mem_append_left _ hmem)
    exact Bool.false_ne_true (hnot.symm.trans hmark)
  · intro h line hline before b after hsplit hb
    by_contra hnone
    have hbefore : ∀ x ∈ before, CommentMarks.bytes.isMark x = false := by
      intro x hx
      rw [Bool.eq_false_iff]
      exact fun hmark => hnone ⟨x, hx, hmark⟩
    -- so the byte stands in the front of its line
    have hfront : b ∈ CommentMarks.bytes.front line := by
      rw [hsplit, CommentMarks.front, List.takeWhile_append_of_pos (by simpa using hbefore),
        List.takeWhile_cons_of_pos (by simp [not_isMark_of_le hb])]
      exact List.mem_append_right _ List.mem_cons_self
    have hlow := h b (subset_intercalate (List.mem_map_of_mem hline) hfront)
    exact absurd hb (UInt8.not_le.2 hlow)

instance (bytes : List UInt8) : Decidable (HighInComments bytes) :=
  decidable_of_iff ((CommentMarks.bytes.uncommented bytes).all fun b => decide (b < 0x80)) <| by
    simp only [highInComments_iff, List.all_eq_true, decide_eq_true_eq]

private theorem not_mark_of_head (h : ∀ b ∈ bytes.head?, b < 0x80) (e : MarkedEncoding) : ¬e.mark <+: bytes := by
  rintro ⟨rest, rfl⟩
  rcases e with _ | _ | _ <;> exact absurd (h _ rfl) (by decide)

/-- No mark stands before the first byte, so it is ASCII. -/
private theorem HighInComments.head_lt (h : HighInComments bytes) : ∀ b ∈ bytes.head?, b < 0x80 := by
  cases bytes with
  | nil =>
    intro b hb
    cases hb
  | cons b bytes =>
    intro b' hb'
    obtain rfl : b = b' := Option.some.inj hb'
    by_contra hhigh
    have hne : b ≠ 0x0A := by
      rintro rfl
      exact hhigh (by decide)
    obtain ⟨first, lines, hlines⟩ := List.exists_cons_of_ne_nil (List.splitOn_ne_nil (0x0A : UInt8) bytes)
    have hline : b :: first ∈ (b :: bytes).splitOn 0x0A := by
      rw [List.splitOn_cons_eq_if_modifyHead, if_neg (by simpa using hne), hlines]
      exact List.mem_cons_self
    obtain ⟨mark, hmem, -⟩ := h _ hline [] b first rfl (UInt8.not_lt.1 hhigh)
    exact absurd hmem List.not_mem_nil

/-- Bytes of ASCII mean the same in UTF-8 and in Windows-1252. -/
private theorem encode_decode_of_ascii (h : ∀ b ∈ bytes, b < 0x80) :
    Utf8.encode (Windows1252.decode bytes) = bytes := by
  induction bytes with
  | nil => rfl
  | cons b bytes ih =>
    obtain ⟨hb, h⟩ := List.forall_mem_cons.1 h
    have hchar : (Windows1252.character b).toNat = b.toNat :=
      (Windows1252.toNat_character b).resolve_right fun hhigh => Nat.not_lt_of_le hhigh.1 hb
    rw [Windows1252.decode, List.map_cons, ← Windows1252.decode, Utf8.encode, List.flatMap_cons, ← Utf8.encode, ih h,
      Utf8.encodeChar_of_lt (hchar ▸ hb), hchar, UInt8.ofNat_toNat, List.singleton_append]

/-- Whatever decides how the bytes are decoded, the text without its comments is that of the bytes without their
comments. -/
theorem decodeText_uncommented (h : HighInComments bytes) :
    decodeText (CommentMarks.bytes.uncommented bytes) = CommentMarks.chars.uncommented (decodeText bytes) := by
  have hmark := not_mark_of_head h.head_lt
  have hascii := highInComments_iff.1 h
  have hmark' : ∀ e : MarkedEncoding, ¬e.mark <+: CommentMarks.bytes.uncommented bytes :=
    not_mark_of_head fun b hb => hascii b (List.mem_of_mem_head? hb)
  by_cases hvalid : ∃ text, bytes = Utf8.encode text
  · obtain ⟨text, rfl⟩ := hvalid
    rw [decodeText_of_valid hmark rfl]
    exact decodeText_of_valid hmark' (Utf8.keepsComments.uncommented_flatMap text)
  · have hwindows : CommentMarks.chars.uncommented (Windows1252.decode bytes) =
        Windows1252.decode (CommentMarks.bytes.uncommented bytes) := by
      rw [Windows1252.decode, Windows1252.decode, List.map_eq_flatMap, List.map_eq_flatMap]
      exact Windows1252.keepsComments.uncommented_flatMap bytes
    rw [decodeText_of_invalid hmark fun text htext => hvalid ⟨text, htext⟩, hwindows]
    exact decodeText_of_valid hmark' (encode_decode_of_ascii hascii).symm

/-- Bytes that are not ASCII do not matter in comments: the file is loaded as the ASCII file without its comments. -/
theorem load_uncommented (h : HighInComments bytes) :
    (∀ b ∈ CommentMarks.bytes.uncommented bytes, b < 0x80) ∧
    load (some bytes) = load (some (CommentMarks.bytes.uncommented bytes)) := by
  refine ⟨highInComments_iff.1 h, ?_⟩
  rw [load_some, load_some, decodeText_uncommented h, parse_uncommented]

/-- A chord with a comment in Latin-1, which is no valid UTF-8, and behind it a line that is faulty. -/
def tabLineInLatin : List UInt8 :=
  Utf8.encode tabLine ++ [0x20, 0x23, 0xE9, 0x0A, 0x3B, 0xFF, 0x0A, 0x46]

/-- The fault is found in the third line, as in the file without comments. -/
theorem load_uncommented_tabLineInLatin :
    Utf8.decode? tabLineInLatin = none ∧
    CommentMarks.bytes.uncommented tabLineInLatin = Utf8.encode tabLine ++ [0x20, 0x0A, 0x0A, 0x46] ∧
    load (some tabLineInLatin) = load (some (Utf8.encode tabLine ++ [0x20, 0x0A, 0x0A, 0x46])) ∧
    load (some tabLineInLatin) = .error (.unparsable (.atLine 3 (.missingEquals ['F']))) := by
  have hstrip : CommentMarks.bytes.uncommented tabLineInLatin = Utf8.encode tabLine ++ [0x20, 0x0A, 0x0A, 0x46] := by
    decide +kernel
  have hhigh : HighInComments tabLineInLatin := by decide +kernel
  obtain ⟨-, hload⟩ := load_uncommented hhigh
  exact ⟨by decide +kernel, hstrip, hstrip ▸ hload, by decide +kernel⟩

end ChordFile

end Chording
