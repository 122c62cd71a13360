/-
String literals of the host language and the texts they stand for. The inside of
a plain literal is a list of pieces: characters that stand for themselves,
escapes, characters by their number, and ends of lines that the literal goes on
behind (`Embed.Piece`). A raw literal has its text between fences
(`Embed.Literal`). Every literal is read, but not every one as it is meant: a
character by its number stays as it is written, and behind an end of line more
blanks are passed over than the host language passes over. A literal is read as
its text exactly if it has neither (`Embed.textOf_written`).

A wrong piece cannot be made up for by a later one. What the reader has too much
behind a character by its number has no blanks in it, and it only grows; only
blanks are ever lost (`Embed.ahead_ne_meaning`).
-/
import Mathlib
import IntelAsm.Embed
import IntelAsm.Proofs.NumberSpelling

namespace IntelAsm.Embed

/-! ## Literals -/

/-- What a character behind a backslash means. -/
def escape? : Char → Option Char
  | 'n' => some '\n'
  | 'r' => some '\r'
  | 't' => some '\t'
  | '\\' => some '\\'
  | '"' => some '"'
  | '\'' => some '\''
  | '0' => some '\x00'
  | _ => none

/-- The blanks that a continued line does not start with. -/
def isIndent (c : Char) : Bool := c = ' ' || c = '\t' || c = '\n' || c = '\r'

/-- A part of the inside of a plain literal. -/
inductive Piece where
  | plain (c : Char) (hquote : c ≠ '"') (hslash : c ≠ '\\')
  | escape (letter c : Char) (hletter : escape? letter = some c)
  /-- A character of seven bits by its number, two digits behind `\x`. -/
  | ascii (digits : List Char) (c : Char) (htwo : digits.length = 2)
      (hdigits : Numeral.Writes 16 digits c.toNat) (hc : c.toNat < 128)
  /-- A character by its number, up to six digits in braces behind `\u`. Underscores may stand
  behind the first digit. -/
  | scalar (digits : List Char) (c : Char) (hfirst : digits.head? ≠ some '_')
      (hsix : (digits.filter (· ≠ '_')).length ≤ 6)
      (hdigits : Numeral.Writes 16 (digits.filter (· ≠ '_')) c.toNat)
  /-- A backslash at the end of a line, and the indentation behind it. -/
  | lineEnd (indent : List Char) (hindent : ∀ c ∈ indent, isIndent c = true)

namespace Piece

def written : Piece → List Char
  | plain c .. => [c]
  | escape letter .. => ['\\', letter]
  | ascii digits .. => '\\' :: 'x' :: digits
  | scalar digits .. => '\\' :: 'u' :: '\x7b' :: (digits ++ ['\x7d'])
  | lineEnd indent _ => '\\' :: '\n' :: indent

/-- The text that a piece stands for. -/
def value : Piece → List Char
  | plain c .. | escape _ c _ | ascii _ c .. | scalar _ c .. => [c]
  | lineEnd .. => []

/-- Whether the piece is a character by its number. -/
def isCoded : Piece → Bool
  | ascii .. | scalar .. => true
  | plain .. | escape .. | lineEnd .. => false

def isLineEnd : Piece → Bool
  | lineEnd .. => true
  | plain .. | escape .. | ascii .. | scalar .. => false

/-- Whether the piece is a character of a class that stands for itself. -/
def isPlain (p : Char → Bool) : Piece → Bool
  | plain c .. => p c
  | escape .. | ascii .. | scalar .. | lineEnd .. => false

/-- An end of line in front of none of these characters. -/
def EndsBefore (p : Char → Bool) (piece next : Piece) : Prop :=
  piece.isLineEnd = true → next.isPlain p = false

instance (p : Char → Bool) : DecidableRel (EndsBefore p) :=
  fun piece next => inferInstanceAs (Decidable (piece.isLineEnd = true → next.isPlain p = false))

end Piece

/-- A string literal. In a plain one all indentation behind an end of line belongs to it; a raw one
ends at the first quote with as many hashes behind it as there are in front. -/
inductive Literal where
  | plain (pieces : List Piece) (hindent : pieces.IsChain (Piece.EndsBefore isIndent))
  | raw (hashes : Nat) (content : List Char)
      (hopen : ¬ '"' :: List.replicate hashes '#' <:+: content)

namespace Literal

def written : Literal → String
  | plain pieces _ => String.ofList ('"' :: (pieces.flatMap Piece.written ++ ['"']))
  | raw hashes content .. =>
    let fence := List.replicate hashes '#'
    String.ofList ('r' :: (fence ++ ['"'] ++ (content ++ '"' :: fence)))

/-- The text that a literal stands for. -/
def text : Literal → String
  | plain pieces _ => String.ofList (pieces.flatMap Piece.value)
  | raw _ content .. => String.ofList content

/-- Whether a literal has only pieces that are read as they are meant: no character by its number,
and no end of line in front of a blank that is no indentation. -/
def Readable : Literal → Prop
  | plain pieces _ => (∀ p ∈ pieces, p.isCoded = false) ∧
      pieces.IsChain (Piece.EndsBefore Text.isBlank)
  | raw .. => True

instance : DecidablePred Readable
  | plain pieces _ => inferInstanceAs (Decidable ((∀ p ∈ pieces, p.isCoded = false) ∧
      pieces.IsChain (Piece.EndsBefore Text.isBlank)))
  | raw .. => inferInstanceAs (Decidable True)

end Literal

/-! ## Reading pieces -/

theorem unescapeFrom_plain {c : Char} (hc : c ≠ '\\') (cs : List Char) :
    unescapeFrom false (c :: cs) = c :: unescapeFrom false cs := by
  rw [unescapeFrom.eq_def]
  simp [hc]

theorem unescapeFrom_blank {c : Char} (hc : Text.isBlank c = true) (cs : List Char) :
    unescapeFrom true (c :: cs) = unescapeFrom true cs := by
  rw [unescapeFrom.eq_def]
  simp [hc]

/-- What is no blank ends the search for blanks. -/
theorem unescapeFrom_true {cs : List Char} (h : cs.head?.any Text.isBlank = false) :
    unescapeFrom true cs = unescapeFrom false cs := by
  cases cs with
  | nil => rfl
  | cons c cs =>
    have hc : Text.isBlank c = false := h
    rw [unescapeFrom.eq_def, unescapeFrom.eq_def]
    simp [hc]

theorem unescapeFrom_lineEnd (skipping : Bool) (cs : List Char) :
    unescapeFrom skipping ('\\' :: '\n' :: cs) = unescapeFrom true cs := by
  have hslash : Text.isBlank '\\' = false := by decide
  rw [unescapeFrom.eq_def]
  simp [hslash]

theorem unescapeFrom_escape {e : Char} (he : e ≠ '\n') (skipping : Bool) (cs : List Char) :
    unescapeFrom skipping ('\\' :: e :: cs) = escaped e ++ unescapeFrom false cs := by
  have hslash : Text.isBlank '\\' = false := by decide
  rw [unescapeFrom.eq_def]
  simp [hslash]

/-- Characters without a backslash are read as they are. -/
theorem unescapeFrom_append {ds : List Char} (h : '\\' ∉ ds) (cs : List Char) :
    unescapeFrom false (ds ++ cs) = ds ++ unescapeFrom false cs := by
  induction ds with
  | nil => rfl
  | cons d ds ih =>
    rw [List.mem_cons, not_or] at h
    rw [List.cons_append, unescapeFrom_plain (Ne.symm h.1), ih h.2, List.cons_append]

theorem unescapeFrom_indent {ds : List Char} (h : ∀ d ∈ ds, Text.isBlank d = true)
    (cs : List Char) : unescapeFrom true (ds ++ cs) = unescapeFrom true cs := by
  induction ds with
  | nil => rfl
  | cons d ds ih =>
    rw [List.cons_append, unescapeFrom_blank (h d List.mem_cons_self),
      ih fun e he => h e (List.mem_cons_of_mem d he)]

theorem isBlank_of_isIndent {c : Char} (h : isIndent c = true) : Text.isBlank c = true := by
  simp only [isIndent, Bool.or_eq_true, decide_eq_true_eq, or_assoc] at h
  rcases h with rfl | rfl | rfl | rfl <;> decide

/-- An escape is read as it is meant. -/
theorem escaped_of_escape? {letter c : Char} (h : escape? letter = some c) :
    letter ≠ '\n' ∧ escaped letter = [c] := by
  unfold escape? at h
  split at h <;> cases h <;> decide

/-- The only blanks that escapes stand for are indentation. -/
theorem isIndent_of_escape? {letter c : Char} (h : escape? letter = some c)
    (hc : Text.isBlank c = true) : isIndent c = true := by
  unfold escape? at h
  split at h <;> cases h <;> revert hc <;> decide

/-- A character that is read as it is, wherever it stands. -/
def Solid (c : Char) : Prop := c ≠ '\\' ∧ Text.isBlank c = false

theorem solid_of_isAlphanum {c : Char} (h : c.isAlphanum = true) : Solid c := by
  have hrange : 48 ≤ c.toNat ∧ c.toNat ≤ 122 := by
    simp only [Char.isAlphanum, Char.isAlpha, Char.isUpper, Char.isLower, Char.isDigit,
      Bool.or_eq_true, Bool.and_eq_true, decide_eq_true_eq, ge_iff_le, UInt32.le_iff_toNat_le] at h
    have hbounds : '0'.val.toNat = 48 ∧ '9'.val.toNat = 57 ∧ 'A'.val.toNat = 65 ∧
      'Z'.val.toNat = 90 ∧ 'a'.val.toNat = 97 ∧ 'z'.val.toNat = 122 := ⟨rfl, rfl, rfl, rfl, rfl, rfl⟩
    show 48 ≤ c.val.toNat ∧ c.val.toNat ≤ 122
    omega
  refine ⟨?_, ?_⟩
  · rintro rfl
    cases h
  · simp [Text.isBlank, Text.blankRanges]
    omega

namespace Piece

/-- What the reader makes of a piece. -/
def kept (p : Piece) : List Char := if p.isCoded then p.written else p.value

/-- A character by its number is written with a backslash, a letter that means nothing alone, and
characters that are read as they are. -/
theorem written_of_isCoded {p : Piece} (h : p.isCoded = true) :
    ∃ letter ds, p.written = '\\' :: letter :: ds ∧ letter ≠ '\n' ∧
      escaped letter = ['\\', letter] ∧ ∀ c ∈ letter :: ds, Solid c := by
  cases p with
  | plain _ _ _ => cases h
  | escape _ _ _ => cases h
  | lineEnd _ _ => cases h
  | ascii digits c _ hdigits _ =>
    refine ⟨'x', digits, rfl, by decide, by decide, fun c hc => solid_of_isAlphanum ?_⟩
    rcases List.mem_cons.1 hc with rfl | hc
    · decide
    · exact hdigits.isAlphanum (Nat.le_refl 16) hc
  | scalar digits c _ _ hdigits =>
    refine ⟨'u', '\x7b' :: (digits ++ ['\x7d']), rfl, by decide, by decide, fun c hc => ?_⟩
    simp only [List.mem_cons, List.mem_append, List.not_mem_nil, or_false] at hc
    rcases hc with rfl | rfl | hc | rfl
    · exact solid_of_isAlphanum (by decide)
    · exact ⟨by decide, by decide⟩
    · by_cases hunder : c = '_'
      · subst hunder
        exact ⟨by decide, by decide⟩
      · exact solid_of_isAlphanum (hdigits.isAlphanum (Nat.le_refl 16)
          (List.mem_filter.2 ⟨hc, by simpa using hunder⟩))
    · exact ⟨by decide, by decide⟩

theorem value_eq_singleton {p : Piece} (h : p.isLineEnd = false) : ∃ c, p.value = [c] := by
  cases p with
  | lineEnd _ _ => cases h
  | _ => exact ⟨_, rfl⟩

/-- What the reader makes of a piece that stands for no blank has no blanks in it. -/
theorem kept_of_value {p : Piece} {c : Char} (hvalue : p.value = [c])
    (hc : Text.isBlank c = false) : p.kept ≠ [] ∧ ∀ d ∈ p.kept, Text.isBlank d = false := by
  by_cases hcoded : p.isCoded = true
  · obtain ⟨letter, ds, hwritten, -, -, hsolid⟩ := p.written_of_isCoded hcoded
    rw [kept, if_pos hcoded, hwritten]
    refine ⟨List.cons_ne_nil _ _, fun d hd => ?_⟩
    rcases List.mem_cons.1 hd with rfl | hd
    · decide
    · exact (hsolid d hd).2
  · rw [kept, if_neg hcoded, hvalue]
    refine ⟨List.cons_ne_nil _ _, fun d hd => ?_⟩
    rw [List.mem_singleton.1 hd, hc]

/-- A piece starts with a blank only if it is one that stands for itself. -/
theorem head_written (p : Piece) (cs : List Char) :
    (p.written ++ cs).head?.any Text.isBlank = p.isPlain Text.isBlank := by
  have hslash : Text.isBlank '\\' = false := by decide
  cases p with
  | plain _ _ _ => rfl
  | escape _ _ _ => exact hslash
  | ascii _ _ _ _ _ => exact hslash
  | scalar _ _ _ _ _ => exact hslash
  | lineEnd _ _ => exact hslash

end Piece

/-- The text that the reader makes of some pieces. -/
def reading (ps : List Piece) : List Char := unescape (ps.flatMap Piece.written)

/-- The text that some pieces stand for. -/
def meaning (ps : List Piece) : List Char := ps.flatMap Piece.value

/-- **The reader takes pieces one by one**, up to the end of a line. -/
theorem reading_cons {p : Piece} (h : p.isLineEnd = false) (ps : List Piece) :
    reading (p :: ps) = p.kept ++ reading ps := by
  by_cases hcoded : p.isCoded = true
  · obtain ⟨letter, ds, hwritten, hletter, hescaped, hsolid⟩ := p.written_of_isCoded hcoded
    have hds : '\\' ∉ ds := fun hmem => (hsolid _ (List.mem_cons_of_mem letter hmem)).1 rfl
    rw [Piece.kept, if_pos hcoded, reading, List.flatMap_cons, hwritten, unescape]
    show unescapeFrom false ('\\' :: letter :: (ds ++ _)) = _
    rw [unescapeFrom_escape hletter, hescaped, unescapeFrom_append hds]
    rfl
  · rw [Piece.kept, if_neg hcoded]
    cases p with
    | plain c _ hslash => exact unescapeFrom_plain hslash _
    | escape letter c hletter =>
      obtain ⟨hne, hescaped⟩ := escaped_of_escape? hletter
      show unescapeFrom false ('\\' :: letter :: _) = _
      rw [unescapeFrom_escape hne, hescaped]
      rfl
    | ascii _ _ _ _ _ => exact absurd rfl hcoded
    | scalar _ _ _ _ _ => exact absurd rfl hcoded
    | lineEnd _ _ => cases h

/-- Behind the end of a line blanks are passed over, not only indentation. -/
theorem reading_lineEnd {indent : List Char} (hindent : ∀ c ∈ indent, isIndent c = true)
    (ps : List Piece) :
    reading (.lineEnd indent hindent :: ps) = unescapeFrom true (ps.flatMap Piece.written) := by
  have hblank : ∀ c ∈ indent, Text.isBlank c = true :=
    fun c hc => isBlank_of_isIndent (hindent c hc)
  show unescapeFrom false ('\\' :: '\n' :: (indent ++ ps.flatMap Piece.written)) = _
  rw [unescapeFrom_lineEnd, unescapeFrom_indent hblank]

theorem unescapeFrom_true_cons {p : Piece} (h : p.isPlain Text.isBlank = false) (ps : List Piece) :
    unescapeFrom true ((p :: ps).flatMap Piece.written) = reading (p :: ps) := by
  refine unescapeFrom_true ?_
  rw [List.flatMap_cons, p.head_written, h]

/-- The first blank behind the end of a line is indentation, if it is one the reader has kept. -/
theorem isIndent_of_head {ps : List Piece} {c : Char} {cs : List Char}
    (h : unescapeFrom true (ps.flatMap Piece.written) = c :: cs)
    (hc : Text.isBlank c = true) : isIndent c = true := by
  induction ps with
  | nil => cases h
  | cons p ps ih =>
    by_cases hplain : p.isPlain Text.isBlank = true
    · cases p with
      | plain d _ _ =>
        have hskip : unescapeFrom true (d :: ps.flatMap Piece.written) = _ :=
          unescapeFrom_blank hplain _
        exact ih (hskip ▸ h)
      | _ => cases hplain
    rw [Bool.not_eq_true] at hplain
    rw [unescapeFrom_true_cons hplain] at h
    cases p with
    | lineEnd indent hindent =>
      rw [reading_lineEnd] at h
      exact ih h
    | plain d _ _ =>
      rw [reading_cons rfl] at h
      obtain ⟨rfl, -⟩ := List.cons.inj h
      rw [show Text.isBlank d = false from hplain] at hc
      cases hc
    | escape letter d hletter =>
      rw [reading_cons rfl] at h
      obtain ⟨rfl, -⟩ := List.cons.inj h
      exact isIndent_of_escape? hletter hc
    | ascii _ _ _ _ _ =>
      rw [reading_cons rfl] at h
      obtain ⟨rfl, -⟩ := List.cons.inj h
      exact absurd hc (by decide)
    | scalar _ _ _ _ _ =>
      rw [reading_cons rfl] at h
      obtain ⟨rfl, -⟩ := List.cons.inj h
      exact absurd hc (by decide)

/-- The end of a line in front of anything but a blank is read as it is meant. -/
theorem reading_lineEnd_of_not_blank {indent : List Char}
    {hindent : ∀ c ∈ indent, isIndent c = true} {ps : List Piece} (h : ∀ q ∈ ps.head?, q.isPlain Text.isBlank = false) :
    reading (.lineEnd indent hindent :: ps) = reading ps := by
  rw [reading_lineEnd]
  cases ps with
  | nil => rfl
  | cons q ps => exact unescapeFrom_true_cons (h q rfl) ps

/-- The pieces behind the end of a line start with a blank, or they do not. -/
theorem head_isPlain_cases (ps : List Piece) :
    (∀ q ∈ ps.head?, q.isPlain Text.isBlank = false) ∨
      ∃ c hquote hslash rest, ps = .plain c hquote hslash :: rest ∧
        Text.isBlank c = true := by
  cases ps with
  | nil => exact .inl nofun
  | cons q rest =>
    cases q with
    | plain c hquote hslash =>
      cases hc : Text.isBlank c with
      | false => exact .inl fun q hq => by cases hq; exact hc
      | true => exact .inr ⟨c, hquote, hslash, rest, rfl, hc⟩
    | _ => exact .inl fun q hq => by cases hq; rfl

/-- **The reader cannot fall back** once it is ahead of the text by characters that are no blanks:
what it has too much grows with every character by its number and is handed on by the other pieces. -/
theorem ahead_ne_meaning {ahead : List Char} (hne : ahead ≠ [])
    (hahead : ∀ c ∈ ahead, Text.isBlank c = false) (ps : List Piece) :
    ahead ++ reading ps ≠ meaning ps := by
  induction ps generalizing ahead with
  | nil =>
    rw [show reading [] = [] from rfl, List.append_nil]
    exact hne
  | cons p ps ih =>
    obtain ⟨a, ahead, rfl⟩ := List.exists_cons_of_ne_nil hne
    intro heq
    cases hline : p.isLineEnd with
    | true =>
      cases p with
      | lineEnd indent hindent =>
        have hmeaning : meaning (.lineEnd indent hindent :: ps) = meaning ps := rfl
        rcases head_isPlain_cases ps with hnext | ⟨c, _, _, rest, rfl, hc⟩
        · rw [reading_lineEnd_of_not_blank hnext, hmeaning] at heq
          exact ih hne hahead heq
        · -- The text goes on with a blank, and the reader with what it has too much.
          obtain ⟨rfl, -⟩ := List.cons.inj (heq.trans hmeaning)
          rw [hahead a List.mem_cons_self] at hc
          cases hc
      | _ => cases hline
    | false =>
      obtain ⟨c, hc⟩ := p.value_eq_singleton hline
      rw [reading_cons hline, meaning, List.flatMap_cons, hc] at heq
      obtain ⟨hfirst, hrest⟩ := List.cons.inj heq
      subst hfirst
      have hkept := p.kept_of_value hc (hahead a List.mem_cons_self)
      refine ih (List.append_ne_nil_of_right_ne_nil ahead hkept.1) (fun d hd => ?_)
        ((List.append_assoc ..).trans hrest)
      rcases List.mem_append.1 hd with hd | hd
      · exact hahead d (List.mem_cons_of_mem a hd)
      · exact hkept.2 d hd

/-- **Pieces are read as they are meant** exactly if none is a character by its number and no end of
line is in front of a blank that is no indentation. -/
theorem reading_eq_meaning_iff {ps : List Piece} (h : ps.IsChain (Piece.EndsBefore isIndent)) :
    reading ps = meaning ps ↔
      (∀ p ∈ ps, p.isCoded = false) ∧ ps.IsChain (Piece.EndsBefore Text.isBlank) := by
  induction ps with
  | nil => exact ⟨fun _ => ⟨List.forall_mem_nil _, .nil⟩, fun _ => rfl⟩
  | cons p ps ih =>
    have ih := ih h.tail
    rw [List.forall_mem_cons, List.isChain_cons]
    cases hline : p.isLineEnd with
    | true =>
      cases p with
      | lineEnd indent hindent =>
        have hmeaning : meaning (.lineEnd indent hindent :: ps) = meaning ps := rfl
        rw [hmeaning]
        rcases head_isPlain_cases ps with hnext | ⟨c, _, _, rest, rfl, hc⟩
        · rw [reading_lineEnd_of_not_blank hnext, ih]
          exact ⟨fun hall => ⟨⟨rfl, hall.1⟩, fun q hq _ => hnext q hq, hall.2⟩,
            fun hall => ⟨hall.1.2, hall.2.2⟩⟩
        · have hindented : isIndent c = false := (List.isChain_cons.1 h).1 _ rfl rfl
          constructor
          · intro heq
            rw [reading_lineEnd] at heq
            rw [isIndent_of_head heq hc] at hindented
            cases hindented
          · rintro ⟨-, hends, -⟩
            have hblank : Text.isBlank c = false := hends _ rfl rfl
            rw [hc] at hblank
            cases hblank
      | _ => cases hline
    | false =>
      have hends : ∀ q ∈ ps.head?, p.EndsBefore Text.isBlank q := fun q _ hend => by
        rw [hline] at hend
        cases hend
      rw [reading_cons hline, Piece.kept]
      by_cases hcoded : p.isCoded = true
      · obtain ⟨letter, ds, hwritten, -, -, hsolid⟩ := p.written_of_isCoded hcoded
        obtain ⟨c, hc⟩ := p.value_eq_singleton hline
        rw [if_pos hcoded, hwritten, meaning, List.flatMap_cons, hc]
        simp only [hcoded, Bool.true_eq_false, false_and, iff_false]
        intro heq
        exact ahead_ne_meaning (List.cons_ne_nil _ _) (fun d hd => (hsolid d hd).2) ps
          (List.cons.inj heq).2
      · rw [if_neg hcoded, meaning, List.flatMap_cons, List.append_cancel_left_eq]
        exact ih.trans ⟨fun hall => ⟨⟨by simpa using hcoded, hall.1⟩, hends, hall.2⟩,
          fun hall => ⟨hall.1.2, hall.2.2⟩⟩

/-! ## Literals and requests -/

theorem textOf_plain {ps : List Piece} (h : ps.IsChain (Piece.EndsBefore isIndent)) :
    textOf (Literal.plain ps h).written = .ok (String.ofList (reading ps)) := by
  have hinside : ['"'].isSuffixOf? (ps.flatMap Piece.written ++ ['"']) =
      some (ps.flatMap Piece.written) := List.isSuffixOf?_eq_some_iff_append_eq.2 rfl
  simp only [textOf, Literal.written, String.toList_ofList, hinside, Option.map_some]
  rfl

theorem rawInside?_fenced (hashes : Nat) (content : List Char) :
    rawInside? (List.replicate hashes '#' ++ ['"'] ++
      (content ++ '"' :: List.replicate hashes '#')) = some content := by
  have hfence : (List.replicate hashes '#' ++ ['"'] ++
      (content ++ '"' :: List.replicate hashes '#')).takeWhile (· = '#') =
        List.replicate hashes '#' := by
    rw [List.append_assoc, List.takeWhile_append_of_pos]
    · simp
    · intro c hc
      simpa using (List.mem_replicate.1 hc).2
  have hfront := List.isPrefixOf?_eq_some_iff_append_eq.2
    (rfl : (List.replicate hashes '#' ++ ['"']) ++ (content ++ '"' :: List.replicate hashes '#') = _)
  have hbehind := List.isSuffixOf?_eq_some_iff_append_eq.2
    (rfl : content ++ ('"' :: List.replicate hashes '#') = _)
  simp only [rawInside?, hfence, hfront, Option.bind_eq_bind, Option.bind_some, hbehind]

theorem textOf_raw {hashes : Nat} {content : List Char}
    (hopen : ¬ '"' :: List.replicate hashes '#' <:+: content) :
    textOf (Literal.raw hashes content hopen).written = .ok (String.ofList content) := by
  simp only [textOf, Literal.written, String.toList_ofList, rawInside?_fenced]

/-- **Every literal is read**, and as its text exactly if it is readable. -/
theorem textOf_eq_iff (l : Literal) :
    (∃ t, textOf l.written = .ok t) ∧ (textOf l.written = .ok l.text ↔ l.Readable) := by
  cases l with
  | plain ps h =>
    refine ⟨⟨_, textOf_plain h⟩, ?_⟩
    rw [textOf_plain, Except.ok.injEq, Literal.text, String.ofList_inj]
    exact reading_eq_meaning_iff h
  | raw hashes content hopen =>
    exact ⟨⟨_, textOf_raw hopen⟩, fun _ => trivial, fun _ => textOf_raw hopen⟩

/-- The word that asks for a mode. -/
def modeWord : Mode → String
  | .bits16 => "o16"
  | .bits32 => "o32"
  | .bits64 => "o64"

/-- The tokens of a request, with the number of a base address or without, and with a comma at the
end or without. -/
def requestTokens (mode : Mode) (number : Option String) (literal : String) (comma : Bool) :
    List HostToken :=
  .word (modeWord mode) :: .mark ',' ::
    ((number.map fun n => [.literal n, .mark ',']).getD [] ++
      .literal literal :: if comma then [.mark ','] else [])

/-- The base address of a request. -/
def baseOf? (number : Option String) : Option Nat :=
  number.elim (some 0) fun n => if n.toList.head?.any Char.isDigit then number? n else none

/-- A string literal is no number. -/
theorem Literal.head_written (l : Literal) : l.written.toList.head?.any Char.isDigit = false := by
  cases l with
  | plain ps h =>
    rw [written, String.toList_ofList]
    rfl
  | raw hashes content hopen =>
    rw [written, String.toList_ofList]
    rfl

theorem takeBase_number {number : Option String} {base : Nat} (h : baseOf? number = some base)
    (l : Literal) (rest : List HostToken) :
    takeBase ((number.map fun n => [.literal n, .mark ',']).getD [] ++ .literal l.written :: rest) =
      .ok (base, .literal l.written :: rest) := by
  cases number with
  | none =>
    cases h
    show takeBase (.literal l.written :: rest) = _
    rw [takeBase, l.head_written]
    rfl
  | some n =>
    simp only [baseOf?, Option.elim_some, Option.ite_none_right_eq_some] at h
    show takeBase (.literal n :: .mark ',' :: .literal l.written :: rest) = _
    simp only [takeBase, h.1, h.2, if_true]
    rfl

/-- The request of some tokens is the one they ask for, with the text that is read. -/
theorem ofTokens_requestTokens {number : Option String} {base : Nat}
    (h : baseOf? number = some base) (mode : Mode) (l : Literal) (comma : Bool) :
    Request.ofTokens (requestTokens mode number l.written comma) =
      (textOf l.written).map fun text => ⟨mode, base, text⟩ := by
  have hmode : ∀ rest, takeMode (.word (modeWord mode) :: rest) = .ok (mode, rest) := by
    intro rest
    cases mode <;> rfl
  have hend : takeEnd (if comma then [.mark ','] else []) = .ok () := by cases comma <;> rfl
  have hcomma : ∀ rest, takeComma (.mark ',' :: rest) = .ok rest := fun _ => rfl
  simp only [Request.ofTokens, requestTokens, hmode, hcomma, takeBase_number h, takeText, bind,
    Except.bind]
  cases textOf l.written with
  | error e => rfl
  | ok text => simp [Functor.map, Except.map, hend, pure, Except.pure]

/-- **Literals and their texts.** Every string literal is read, and it is read as the text it stands
for exactly if it has no character by its number and no end of line in front of a blank that is no
indentation. A request with the literal asks for that text then, at its base address and in its
mode, and the constant it is expanded to holds the bytes of that text. -/
theorem textOf_written (l : Literal) :
    (∃ t, textOf l.written = .ok t) ∧ (textOf l.written = .ok l.text ↔ l.Readable) ∧
      ∀ mode number base comma, baseOf? number = some base →
        let tokens := requestTokens mode number l.written comma
        (Request.ofTokens tokens = .ok ⟨mode, base, l.text⟩ ↔ l.Readable) ∧
        (l.Readable → ∀ style,
          (∀ bytes, assemble l.text mode base [] = .ok bytes → expand style tokens = constant style bytes) ∧
          ∀ d, assemble l.text mode base [] = .error d →
            expand style tokens = report (EmbedError.assembly d).messages) := by
  obtain ⟨hread, htext⟩ := textOf_eq_iff l
  refine ⟨hread, htext, fun mode number base comma hbase => ?_⟩
  intro tokens
  have htokens := ofTokens_requestTokens hbase mode l comma
  refine ⟨?_, fun hreadable style => ?_⟩
  · rw [htokens, ← htext]
    obtain ⟨t, ht⟩ := hread
    simp [ht, Except.map]
  · rw [htext.2 hreadable] at htokens
    have hbytes : Request.ofTokens tokens >>= Request.bytes =
        (assemble l.text mode base []).mapError .assembly := by
      rw [htokens]
      rfl
    constructor
    · intro bytes hok
      rw [expand, hbytes, hok]
      rfl
    · intro d herror
      rw [expand, hbytes, herror]
      rfl

/-- A literal over two lines, with an escape and indentation that are not part of the text. -/
theorem textOf_written_continued :
    ∃ l : Literal, l.written = "\"nop\\n\\\n  ret\"" ∧ l.text = "nop\nret" ∧ l.Readable ∧
      textOf l.written = .ok "nop\nret" ∧ baseOf? (some "0x1_000u64") = some 0x1000 ∧
      Request.ofTokens (requestTokens .bits64 (some "0x1_000u64") l.written true) =
        .ok ⟨.bits64, 0x1000, "nop\nret"⟩ ∧
      expand .array (requestTokens .bits64 (some "0x1_000u64") l.written true) =
        constant .array [0x90, 0xC3] := by
  let plain (c : Char) (h : c ≠ '"' ∧ c ≠ '\\') : Piece := .plain c h.1 h.2
  let pieces : List Piece := [plain 'n' (by decide), plain 'o' (by decide), plain 'p' (by decide),
    .escape 'n' '\n' rfl, .lineEnd [' ', ' '] (by simp [isIndent]), plain 'r' (by decide),
    plain 'e' (by decide), plain 't' (by decide)]
  let l : Literal := .plain pieces (by decide)
  have hreadable : l.Readable := by decide
  have htext : l.text = "nop\nret" := rfl
  have hbase : baseOf? (some "0x1_000u64") = some 0x1000 := by decide +kernel
  have hbytes : (assemble "nop\nret" .bits64 0x1000 []).toOption = some [0x90, 0xC3] := by
    decide +kernel
  rw [toOption_eq_some] at hbytes
  obtain ⟨-, hread, hrequest⟩ := textOf_written l
  obtain ⟨htokens, hexpand⟩ := hrequest .bits64 (some "0x1_000u64") 0x1000 true hbase
  exact ⟨l, rfl, htext, hreadable, hread.2 hreadable, hbase, htokens.2 hreadable,
    (hexpand hreadable .array).1 _ hbytes⟩

/-- A character by its number is not read, so `\x6eop` has no bytes though it stands for `nop`; and
a blank that is part of the text is lost behind the end of a line. -/
theorem textOf_misread :
    (∃ l : Literal, l.written = "\"\\x6eop\"" ∧ l.text = "nop" ∧ textOf l.written = .ok "\\x6eop" ∧
      Request.ofTokens (requestTokens .bits64 none l.written false) = .ok ⟨.bits64, 0, "\\x6eop"⟩ ∧
      (assemble "\\x6eop" .bits64 0 []).toOption = none ∧
      assemble "nop" .bits64 0 [] = .ok [0x90]) ∧
    ∃ l : Literal, l.written = "\"nop\\\n\u00a0\"" ∧ l.text = "nop\u00a0" ∧
      textOf l.written = .ok "nop" := by
  let plain (c : Char) (h : c ≠ '"' ∧ c ≠ '\\') : Piece := .plain c h.1 h.2
  have hdigits : Numeral.Writes 16 ['6', 'e'] 110 :=
    ⟨by decide, [6, 14], by decide, by decide, by decide⟩
  let coded : Literal := .plain [.ascii ['6', 'e'] 'n' rfl hdigits (by decide), plain 'o' (by decide),
    plain 'p' (by decide)] (by simp [plain, Piece.EndsBefore, Piece.isLineEnd])
  let blank : Literal := .plain [plain 'n' (by decide), plain 'o' (by decide), plain 'p' (by decide),
    .lineEnd [] (List.forall_mem_nil _), plain '\u00a0' (by decide)] (by decide)
  have hcoded : textOf coded.written = .ok "\\x6eop" := by
    rw [textOf_plain]
    exact congrArg (fun cs => Except.ok (String.ofList cs)) (rfl : reading _ = "\\x6eop".toList)
  have hblank : textOf blank.written = .ok "nop" := by
    rw [textOf_plain]
    exact congrArg (fun cs => Except.ok (String.ofList cs)) (rfl : reading _ = "nop".toList)
  have hrequest := ofTokens_requestTokens (rfl : baseOf? none = some 0) .bits64 coded false
  rw [hcoded] at hrequest
  have hnop : (assemble "nop" .bits64 0 []).toOption = some [0x90] := by decide +kernel
  exact ⟨⟨coded, rfl, rfl, hcoded, hrequest, by decide +kernel, toOption_eq_some.1 hnop⟩,
    ⟨blank, rfl, rfl, hblank⟩⟩

end IntelAsm.Embed
