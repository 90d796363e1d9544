import Chording.ChordFile.Parse
import Chording.Proofs.Decoding

/-!
# Loading chord files

From the bytes of a file to the text that is parsed (`load_reads_text`).  A text behind its byte order mark is read as it
was encoded, unless its encoding itself starts with the bytes of a mark; then it never is (`decodeText_mark_append_iff`),
because these bytes are removed and choose how the rest is decoded.  What is left cannot give the text again: of UTF-16
there are fewer units (`Utf16.unitCount_decode_le`), and a mark of UTF-8 in UTF-16 would have to be followed by itself
without end (`exists_heavy_front`).
-/

namespace Chording

/-! ### Marks -/

variable {bytes rest : List UInt8} {text : List Char} {e e' : MarkedEncoding}

private theorem stripMark?_eq_some_iff : stripMark? bytes = some (e, rest) ↔ bytes = e.mark ++ rest := by
  constructor
  · intro h
    unfold stripMark? at h
    split at h <;> cases h <;> rfl
  · rintro rfl
    exact stripMark?_mark_append e rest

private theorem stripMark?_eq_none_iff : stripMark? bytes = none ↔ ∀ e : MarkedEncoding, ¬e.mark <+: bytes := by
  constructor
  · rintro h e ⟨rest, rfl⟩
    rw [stripMark?_mark_append] at h
    cases h
  · intro h
    cases hs : stripMark? bytes with
    | none => rfl
    | some found =>
      obtain ⟨e, rest⟩ := found
      exact absurd ⟨rest, (stripMark?_eq_some_iff.1 hs).symm⟩ (h e)

private theorem MarkedEncoding.decode_encode (e : MarkedEncoding) (text : List Char) :
    e.decode (e.encode text) = text := by
  cases e with
  | utf8 => exact (congrArg textOf (Utf8.decode_encode text)).trans (textOf_map_some text)
  | utf16 order => exact (congrArg textOf (Utf16.decode_encode order text)).trans (textOf_map_some text)

private theorem decodeText_of_unmarked (h : ∀ e' : MarkedEncoding, ¬e'.mark <+: e.encode text) :
    decodeText (e.mark ++ e.encode text) = text := by
  rw [decodeText, stripMark?_mark_append]
  simp only [stripMark?_eq_none_iff.2 h]
  exact e.decode_encode text

/-- A second mark is removed too, and chooses how the rest is decoded. -/
private theorem decodeText_of_marked (h : e.encode text = e'.mark ++ rest) :
    decodeText (e.mark ++ e.encode text) = e'.decode rest := by
  rw [decodeText, stripMark?_mark_append, h]
  simp only [stripMark?_mark_append]

/-! ### A mark of UTF-8 in UTF-8 -/

private theorem encodeChar_mark : String.utf8EncodeChar '\uFEFF' = MarkedEncoding.utf8.mark := by decide

/-- The text behind the mark is the text without its first character. -/
private theorem Utf8.eq_cons_of_encode_eq_mark (h : encode text = MarkedEncoding.utf8.mark ++ rest) :
    ∃ behind, text = '\uFEFF' :: behind ∧ rest = encode behind := by
  have hdecode := decode_encode text
  rw [h, ← encodeChar_mark, decode, decodeFrom_encode_char] at hdecode
  cases text with
  | nil => cases hdecode
  | cons c behind =>
    simp only [List.map_cons, List.cons.injEq, Option.some.injEq] at hdecode
    obtain ⟨rfl, -⟩ := hdecode
    rw [encode, List.flatMap_cons, encodeChar_mark] at h
    exact ⟨behind, rfl, (List.append_cancel_left h).symm⟩

/-- No text is encoded in UTF-8 by bytes that start with a mark of UTF-16. -/
private theorem Utf8.encode_ne_mark (order : Utf16.ByteOrder) (text : List Char) (rest : List UInt8) :
    encode text ≠ (MarkedEncoding.utf16 order).mark ++ rest := by
  intro h
  have hdecode := decode_encode text
  rw [h] at hdecode
  cases order <;> cases text <;> cases hdecode

/-! ### A mark of UTF-8 in UTF-16 -/

/-- Bytes of which characters are made whose units and whose bytes in UTF-8 are such bytes again. -/
def HeavyByte (b : UInt8) : Prop := (0x80 ≤ b.toNat ∧ b.toNat < 0xC0) ∨ (0xE0 ≤ b.toNat ∧ b.toNat < 0xF0)

def Heavy (c : Char) : Prop := (0x8000 ≤ c.toNat ∧ c.toNat < 0xC000) ∨ (0xE000 ≤ c.toNat ∧ c.toNat < 0xF000)

/-- A heavy character is written in UTF-8 with three heavy bytes. -/
private theorem heavyByte_encodeChar {c : Char} (h : Heavy c) :
    (String.utf8EncodeChar c).length = 3 ∧ ∀ b ∈ String.utf8EncodeChar c, HeavyByte b := by
  have hv : c.val.toNat = c.toNat := rfl
  rw [Heavy] at h
  rw [String.utf8EncodeChar, hv, if_neg (by omega), if_neg (by omega), if_pos (by omega)]
  refine ⟨rfl, ?_⟩
  simp only [List.forall_mem_cons, List.not_mem_nil, false_implies, implies_true, and_true, HeavyByte,
    UInt8.toNat_ofNat']
  refine ⟨?_, ?_, ?_⟩ <;> omega

private theorem length_encode_of_heavy {first : List Char} (h : ∀ c ∈ first, Heavy c) :
    (Utf8.encode first).length = 3 * first.length := by
  induction first with
  | nil => rfl
  | cons c first ih =>
    rw [List.forall_mem_cons] at h
    rw [Utf8.encode, List.flatMap_cons, List.length_append, (heavyByte_encodeChar h.1).1, ← Utf8.encode, ih h.2,
      List.length_cons]
    omega

private theorem heavyByte_of_mem_encode {first : List Char} (h : ∀ c ∈ first, Heavy c) {b : UInt8}
    (hb : b ∈ Utf8.encode first) : HeavyByte b := by
  obtain ⟨c, hc, hbc⟩ := List.mem_flatMap.1 hb
  exact (heavyByte_encodeChar (h c hc)).2 b hbc

private theorem heavyByte_mark : ∀ b ∈ MarkedEncoding.utf8.mark, HeavyByte b := by
  simp [MarkedEncoding.mark, HeavyByte]

/-- Two heavy bytes are a unit that is no surrogate. -/
private theorem Utf16.heavy_of_bytes {order : ByteOrder} {unit : Nat} {a b : UInt8} {tail : List UInt8}
    (hunit : unit < 0x10000) (ha : HeavyByte a) (hb : HeavyByte b) (h : order.bytes unit ++ tail = a :: b :: rest) :
    ((0x8000 ≤ unit ∧ unit < 0xC000) ∨ (0xE000 ≤ unit ∧ unit < 0xF000)) ∧ tail = rest := by
  have hhigh : (unit / 256).toUInt8.toNat = unit / 256 := by simp; omega
  rw [HeavyByte] at ha hb
  cases order <;>
  · simp only [ByteOrder.bytes, List.cons_append, List.nil_append, List.cons.injEq] at h
    obtain ⟨rfl, rfl, rfl⟩ := h
    exact ⟨by omega, rfl⟩

/-- Two heavy bytes at the front of a text in UTF-16 are a heavy character. -/
private theorem Utf16.eq_cons_of_heavy {order : ByteOrder} {a b : UInt8} (ha : HeavyByte a) (hb : HeavyByte b)
    (h : encode order text = a :: b :: rest) : ∃ c behind, text = c :: behind ∧ Heavy c ∧ encode order behind = rest := by
  cases text with
  | nil => cases h
  | cons c behind =>
    rw [encode, List.flatMap_cons, ← encode] at h
    by_cases hc : c.toNat < 0x10000
    · rw [units, if_pos hc, List.flatMap_singleton] at h
      obtain ⟨hheavy, hrest⟩ := heavy_of_bytes hc ha hb h
      exact ⟨c, behind, rfl, hheavy, hrest⟩
    · have hlt : c.toNat < 0xD800 ∨ 0xDFFF < c.toNat ∧ c.toNat < 0x110000 := c.valid
      rw [units, if_neg hc, List.flatMap_cons, List.append_assoc] at h
      obtain ⟨hheavy, -⟩ := heavy_of_bytes (by omega) ha hb h
      omega

/-- Heavy bytes at the front of a text in UTF-16 are heavy characters. -/
private theorem Utf16.exists_heavy_of_encode {order : ByteOrder} {front : List UInt8} (n : Nat)
    (hlength : front.length = 2 * n) (hfront : ∀ b ∈ front, HeavyByte b) (h : encode order text = front ++ rest) :
    ∃ first behind, text = first ++ behind ∧ first.length = n ∧ ∀ c ∈ first, Heavy c := by
  induction n generalizing text front with
  | zero => exact ⟨[], text, rfl, rfl, by simp⟩
  | succ n ih =>
    obtain ⟨a, b, front, rfl⟩ : ∃ a b front', front = a :: b :: front' := by
      match front, hlength with
      | a :: b :: front', _ => exact ⟨a, b, front', rfl⟩
    rw [List.forall_mem_cons, List.forall_mem_cons] at hfront
    obtain ⟨ha, hb, hfront⟩ := hfront
    obtain ⟨c, text, rfl, hc, hbehind⟩ := eq_cons_of_heavy ha hb h
    obtain ⟨first, behind, rfl, hfirst, hheavy⟩ := ih (by simp only [List.length_cons] at hlength; omega) hfront hbehind
    exact ⟨c :: first, behind, rfl, by rw [List.length_cons, hfirst], List.forall_mem_cons.2 ⟨hc, hheavy⟩⟩

/-- Heavy characters that a decoder of UTF-8 yields were written as such. -/
private theorem Utf8.exists_of_textOf_decode {first behind : List Char} (hfirst : ∀ c ∈ first, Heavy c)
    (h : textOf (decode bytes) = first ++ behind) : ∃ rest, bytes = encode first ++ rest := by
  induction first generalizing bytes with
  | nil => exact ⟨bytes, rfl⟩
  | cons c first ih =>
    rw [List.forall_mem_cons] at hfirst
    obtain ⟨hc, hfirst⟩ := hfirst
    cases hdecode : decode bytes with
    | nil =>
      rw [hdecode] at h
      cases h
    | cons item items =>
      rw [hdecode, textOf, List.map_cons, ← textOf, List.cons_append, List.cons.injEq] at h
      obtain ⟨hitem, hitems⟩ := h
      cases item with
      | none =>
        -- U+FFFD is not heavy
        rw [Option.getD_none] at hitem
        subst hitem
        exact absurd hc (by unfold Heavy; decide)
      | some c' =>
        obtain rfl : c' = c := hitem
        obtain ⟨rest, rfl, rfl⟩ := exists_of_decode_eq_cons hdecode
        obtain ⟨rest, rfl⟩ := ih hfirst hitems
        exact ⟨rest, by rw [encode, encode, List.flatMap_cons, List.append_assoc]⟩

/-- A text in UTF-16 that starts with the mark of UTF-8, and is what the bytes behind that mark say in UTF-8, starts with
any number of heavy characters: of these each needs two bytes and gives three. -/
theorem exists_heavy_front {order : Utf16.ByteOrder} (hmark : Utf16.encode order text = MarkedEncoding.utf8.mark ++ rest)
    (htext : textOf (Utf8.decode rest) = text) (n : Nat) :
    ∃ first behind, text = first ++ behind ∧ first.length = n ∧ ∀ c ∈ first, Heavy c := by
  induction n with
  | zero => exact ⟨[], text, rfl, rfl, by simp⟩
  | succ n ih =>
    obtain ⟨first, behind, hsplit, hfirst, hheavy⟩ := ih
    obtain ⟨rest, rfl⟩ := Utf8.exists_of_textOf_decode hheavy (htext.trans hsplit)
    rw [← List.append_assoc] at hmark
    rw [← List.take_append_drop (2 * (n + 1)) (MarkedEncoding.utf8.mark ++ Utf8.encode first), List.append_assoc] at hmark
    refine Utf16.exists_heavy_of_encode (n + 1) ?_ ?_ hmark
    · have hthree : MarkedEncoding.utf8.mark.length = 3 := rfl
      rw [List.length_take, List.length_append, length_encode_of_heavy hheavy, hthree]
      omega
    · intro b hb
      rcases List.mem_append.1 (List.mem_of_mem_take hb) with hb | hb
      · exact heavyByte_mark b hb
      · exact heavyByte_of_mem_encode hheavy hb

/-! ### What a second mark leaves -/

/-- Behind a second mark the text is not read again. -/
private theorem MarkedEncoding.decode_ne (h : e.encode text = e'.mark ++ rest) : e'.decode rest ≠ text := by
  intro htext
  cases e with
  | utf8 =>
    cases e' with
    | utf8 =>
      obtain ⟨behind, rfl, rfl⟩ := Utf8.eq_cons_of_encode_eq_mark h
      have hbehind : behind = '\uFEFF' :: behind := (utf8.decode_encode behind).symm.trans htext
      simpa using congrArg List.length hbehind
    | utf16 order => exact Utf8.encode_ne_mark order text rest h
  | utf16 order =>
    cases e' with
    | utf8 =>
      obtain ⟨first, behind, rfl, hfirst, -⟩ := exists_heavy_front h htext (text.length + 1)
      rw [List.length_append] at hfirst
      omega
    | utf16 order' =>
      -- the mark is a unit of which nothing is left
      have hunits := Utf16.unitCount_decode_le order' rest
      have hbytes := (Utf16.length_encode order text).symm.trans (congrArg List.length h)
      have htwo : (utf16 order').mark.length = 2 := by cases order' <;> rfl
      rw [List.length_append, htwo] at hbytes
      rw [show textOf (Utf16.decode order' rest) = text from htext] at hunits
      omega

/-- A text behind its mark is read as it was encoded if and only if its encoding does not start with a mark. -/
theorem decodeText_mark_append_iff :
    decodeText (e.mark ++ e.encode text) = text ↔ ∀ e' : MarkedEncoding, ¬e'.mark <+: e.encode text := by
  constructor
  · rintro h e' ⟨rest, hrest⟩
    rw [decodeText_of_marked hrest.symm] at h
    exact MarkedEncoding.decode_ne hrest.symm h
  · exact decodeText_of_unmarked

/-! ### Bytes without a mark -/

/-- Only a text that starts with U+FEFF starts with a mark in UTF-8. -/
private theorem Utf8.not_mark_encode (h : text.head? ≠ some '\uFEFF') (e : MarkedEncoding) :
    ¬e.mark <+: encode text := by
  rintro ⟨rest, hrest⟩
  cases e with
  | utf8 =>
    obtain ⟨behind, rfl, -⟩ := eq_cons_of_encode_eq_mark hrest.symm
    exact h rfl
  | utf16 order => exact encode_ne_mark order text rest hrest.symm

theorem decodeText_of_valid (hmark : ∀ e : MarkedEncoding, ¬e.mark <+: bytes) (hvalid : bytes = Utf8.encode text) :
    decodeText bytes = text := by
  rw [decodeText, stripMark?_eq_none_iff.2 hmark]
  simp only [Utf8.decode?_eq_some_iff.2 hvalid, Option.getD_some]

private theorem decodeText_encode (h : text.head? ≠ some '\uFEFF') : decodeText (Utf8.encode text) = text :=
  decodeText_of_valid (Utf8.not_mark_encode h) rfl

theorem decodeText_of_invalid (hmark : ∀ e : MarkedEncoding, ¬e.mark <+: bytes)
    (hinvalid : ∀ text, bytes ≠ Utf8.encode text) : decodeText bytes = Windows1252.decode bytes := by
  have hnone : Utf8.decode? bytes = none := by
    rw [Option.eq_none_iff_forall_ne_some]
    intro text htext
    exact hinvalid text (Utf8.decode?_eq_some_iff.1 htext)
  rw [decodeText, stripMark?_eq_none_iff.2 hmark]
  simp only [hnone, Option.getD_none]

/-! ### Files -/

namespace ChordFile

theorem load_some (bytes : List UInt8) : load (some bytes) = (parse (decodeText bytes)).mapError .unparsable :=
  rfl

/-- A text is loaded from its bytes: behind the mark of its encoding, unless they start with a mark themselves, which then
chooses how the rest is decoded; and in UTF-8 without a mark, unless the text starts with U+FEFF.  Other bytes without a
mark are loaded as Windows-1252. -/
theorem load_reads_text (e : MarkedEncoding) (text : List Char) :
    (decodeText (e.mark ++ e.encode text) = text ↔ ∀ e' : MarkedEncoding, ¬e'.mark <+: e.encode text) ∧
    ((∀ e' : MarkedEncoding, ¬e'.mark <+: e.encode text) →
      load (some (e.mark ++ e.encode text)) = (parse text).mapError .unparsable) ∧
    (∀ (e' : MarkedEncoding) (rest : List UInt8), e.encode text = e'.mark ++ rest →
      load (some (e.mark ++ e.encode text)) = (parse (e'.decode rest)).mapError .unparsable) ∧
    (text.head? ≠ some '\uFEFF' → load (some (Utf8.encode text)) = (parse text).mapError .unparsable) ∧
    ∀ bytes : List UInt8, (∀ e' : MarkedEncoding, ¬e'.mark <+: bytes) → (∀ text', bytes ≠ Utf8.encode text') →
      load (some bytes) = (parse (Windows1252.decode bytes)).mapError .unparsable := by
  refine ⟨decodeText_mark_append_iff, ?_, ?_, ?_, ?_⟩
  · intro hmark
    rw [load_some, decodeText_of_unmarked hmark]
  · intro e' rest hrest
    rw [load_some, decodeText_of_marked hrest]
  · intro hhead
    rw [load_some, decodeText_encode hhead]
  · intro bytes hmark hinvalid
    rw [load_some, decodeText_of_invalid hmark hinvalid]

/-- F and R together are Tab. -/
def tabChord : Config where
  chords := [⟨[⟨0x09⟩, ⟨0x15⟩], ⟨0x2B⟩⟩]

/-- The line for this chord. -/
def tabLine : List Char := "F+R=Tab".toList

/-- A mark and the line for this chord, with the two bytes of each unit the other way round. -/
def tabLineTurned : List Char := ['\uFFFE', '\u4600', '\u2B00', '\u5200', '\u3D00', '\u5400', '\u6100', '\u6200']

/-- The line in UTF-16 and in UTF-8, the same behind a second mark that turns the units, and a comment in Latin-1. -/
theorem load_reads_text_tab :
    load (some ([0xFF, 0xFE] ++ Utf16.encode .littleEndian tabLine)) = .ok tabChord ∧
    load (some ([0xFE, 0xFF] ++ Utf16.encode .bigEndian tabLineTurned)) = .ok tabChord ∧
    load (some (Utf8.encode tabLine)) = .ok tabChord ∧
    load (some [0x23, 0x20, 0xE9]) = .ok {} := by
  obtain ⟨-, hmarked, -, hutf8, hlatin⟩ := load_reads_text (.utf16 .littleEndian) tabLine
  obtain ⟨-, -, hsecond, -, -⟩ := load_reads_text (.utf16 .bigEndian) tabLineTurned
  have hparse : parse tabLine = .ok tabChord := rfl
  have hunmarked : ∀ e : MarkedEncoding, ¬e.mark <+: Utf16.encode .littleEndian tabLine :=
    stripMark?_eq_none_iff.1 rfl
  have hturned : Utf16.encode .bigEndian tabLineTurned = [0xFF, 0xFE] ++ Utf16.encode .littleEndian tabLine := rfl
  have hagain : (MarkedEncoding.utf16 .littleEndian).decode (Utf16.encode .littleEndian tabLine) = tabLine :=
    MarkedEncoding.decode_encode (.utf16 .littleEndian) tabLine
  have hinvalid : ∀ text, [0x23, 0x20, 0xE9] ≠ Utf8.encode text := by
    intro text h
    have hdecode : Utf8.decode? [0x23, 0x20, 0xE9] = none := by decide
    rw [Utf8.decode?_eq_some_iff.2 h] at hdecode
    cases hdecode
  refine ⟨(hmarked hunmarked).trans ?_, (hsecond (.utf16 .littleEndian) _ hturned).trans ?_,
    (hutf8 (by decide)).trans ?_, (hlatin _ (stripMark?_eq_none_iff.1 rfl) hinvalid).trans rfl⟩
  · rw [hparse]
    rfl
  · rw [hagain, hparse]
    rfl
  · rw [hparse]
    rfl

end ChordFile

end Chording
