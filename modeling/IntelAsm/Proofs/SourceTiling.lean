/-
Tokens and the text they were read from. The spans of the tokens tile the text:
they follow each other from its start to its end, each over whole characters,
and what lies between two of them is blank, a comment or the colon of a label.
A token's line and column are those of its offset, counted over the bytes in
front of it (`Token.scan_tiling`). They are counted in words of 32 bits, which
hold every number that a text of less than 2³² bytes has, but for that of the end
of input behind 2³² - 1 bytes (`Token.Tiling.numbered`).

The scanner counts as it goes. What it has counted after some characters is a
function of their bytes (`Cursor.steps_start`), so a place is known from the text
in front of it, whatever the tokens were. Lines are counted at line ends and
inside comments alike, since the cursor steps over every character.
-/
import Mathlib.Data.List.DropRight
import IntelAsm.Proofs.ScanFacts

namespace IntelAsm

/-! ## Bytes of a text -/

namespace Text

/-- The bytes of a text in UTF-8. -/
def utf8 (s : String) : List UInt8 := s.toByteArray.data.toList

/-- The bytes of some characters in UTF-8. -/
def bytes (cs : List Char) : List UInt8 := cs.flatMap String.utf8EncodeChar

/-- The bytes of a text from one offset up to another. -/
def slice (s : String) (start stop : Nat) : List UInt8 := ((utf8 s).drop start).take (stop - start)

/-- The byte that ends a line. -/
def lineFeed : UInt8 := 0x0A

/-- The offset behind the last line feed, where the line starts that the bytes end in. -/
def lineStart (bs : List UInt8) : Nat := (bs.rdropWhile (· ≠ lineFeed)).length

/-- The number of the line of an offset: one more than there are line feeds in front of it. -/
def lineNumber (s : String) (offset : Nat) : Nat := 1 + ((utf8 s).take offset).count lineFeed

/-- The number of an offset on its line. -/
def columnNumber (s : String) (offset : Nat) : Nat :=
  offset - lineStart ((utf8 s).take offset) + 1

theorem utf8_eq (s : String) : utf8 s = bytes s.toList := by
  rw [utf8, ← String.utf8Encode_toList]
  show (bytes s.toList).toByteArray.data.toList = bytes s.toList
  rw [List.data_toByteArray]

theorem utf8_ofList (cs : List Char) : utf8 (String.ofList cs) = bytes cs := by
  rw [utf8_eq, String.toList_ofList]

theorem bytes_append (cs ds : List Char) : bytes (cs ++ ds) = bytes cs ++ bytes ds :=
  List.flatMap_append

theorem bytes_singleton (c : Char) : bytes [c] = String.utf8EncodeChar c := List.flatMap_singleton ..

theorem length_bytes (cs : List Char) : (bytes cs).length = Token.byteCount cs := by
  induction cs with
  | nil => rfl
  | cons c cs ih =>
    rw [← List.singleton_append, bytes_append, List.length_append, ih, bytes_singleton,
      String.length_utf8EncodeChar]
    rfl

/-- A byte of a character is the character itself, or none of ASCII. -/
theorem mem_utf8EncodeChar {c : Char} {b : UInt8} (h : b ∈ String.utf8EncodeChar c) :
    (c.utf8Size = 1 ∧ b = c.val.toUInt8) ∨ 0x80 ≤ b.toNat := by
  have hor : ∀ x m : UInt8, 0x80 ≤ m.toNat → 0x80 ≤ (x ||| m).toNat := by
    intro x m hm
    rw [UInt8.toNat_or]
    exact hm.trans Nat.right_le_or
  rcases c.utf8Size_eq with hc | hc | hc | hc
  · rw [String.utf8EncodeChar_eq_singleton hc, List.mem_singleton] at h
    exact .inl ⟨hc, h⟩
  · rw [String.utf8EncodeChar_eq_cons_cons hc] at h
    simp only [List.mem_cons, List.not_mem_nil, or_false] at h
    rcases h with rfl | rfl <;> exact .inr (hor _ _ (by decide))
  · rw [String.utf8EncodeChar_eq_cons_cons_cons hc] at h
    simp only [List.mem_cons, List.not_mem_nil, or_false] at h
    rcases h with rfl | rfl | rfl <;> exact .inr (hor _ _ (by decide))
  · rw [String.utf8EncodeChar_eq_cons_cons_cons_cons hc] at h
    simp only [List.mem_cons, List.not_mem_nil, or_false] at h
    rcases h with rfl | rfl | rfl | rfl <;> exact .inr (hor _ _ (by decide))

/-- No other character has a line feed among its bytes. -/
theorem lineFeed_not_mem {c : Char} (hc : c ≠ '\n') : lineFeed ∉ String.utf8EncodeChar c := by
  intro hmem
  rcases mem_utf8EncodeChar hmem with ⟨hsize, hb⟩ | hb
  · have hle := UInt32.le_iff_toNat_le.1 (Char.utf8Size_eq_one_iff.1 hsize)
    have hval := congrArg UInt8.toNat hb
    rw [UInt32.toNat_toUInt8] at hval
    have hfeed : lineFeed.toNat = 10 := rfl
    have hline : ('\n' : Char).val.toNat = 10 := rfl
    have hascii : (127 : UInt32).toNat = 127 := rfl
    exact hc (Char.ext (UInt32.toNat_inj.1 (by omega)))
  · exact absurd hb (by decide)

theorem bytes_lineFeed : bytes ['\n'] = [lineFeed] := by decide

/-- A line starts behind a line feed. -/
theorem lineStart_concat (bs : List UInt8) : lineStart (bs ++ [lineFeed]) = bs.length + 1 := by
  rw [lineStart, List.rdropWhile_concat_neg _ _ _ (by simp), List.length_append,
    List.length_singleton]

/-- And nowhere else. -/
theorem lineStart_append {bs cs : List UInt8} (h : lineFeed ∉ cs) :
    lineStart (bs ++ cs) = lineStart bs := by
  induction cs using List.reverseRecOn with
  | nil => rw [List.append_nil]
  | append_singleton cs c ih =>
    rw [List.mem_append, List.mem_singleton, not_or] at h
    have hne : c ≠ lineFeed := Ne.symm h.2
    rw [← List.append_assoc, lineStart, List.rdropWhile_concat_pos _ _ _ (by simpa using hne)]
    exact ih h.1

end Text

/-! ## Places -/

namespace Cursor

theorem steps_append (p : Cursor) (cs ds : List Char) : p.steps (cs ++ ds) = (p.steps cs).steps ds :=
  List.foldl_append

/-- **The place behind some characters**: one line for each line feed among their bytes, the start of
the last one, and the number of bytes. -/
theorem steps_start (cs : List Char) :
    start.steps cs = ⟨.ofNat (1 + (Text.bytes cs).count Text.lineFeed),
      Text.lineStart (Text.bytes cs), Token.byteCount cs⟩ := by
  induction cs using List.reverseRecOn with
  | nil => rfl
  | append_singleton cs c ih =>
    rw [steps_append, ih, Text.bytes_append, Token.byteCount_append, List.count_append]
    show step _ c = _
    by_cases hc : c = '\n'
    · subst hc
      rw [Text.bytes_lineFeed, Text.lineStart_concat, Text.length_bytes, List.count_singleton_self,
        ← Nat.add_assoc, UInt32.ofNat_add (1 + _) 1]
      rfl
    · have hmem : Text.lineFeed ∉ Text.bytes [c] := by
        rw [Text.bytes_singleton]
        exact Text.lineFeed_not_mem hc
      rw [Text.lineStart_append hmem, List.count_eq_zero.2 hmem, step, if_neg hc]
      rfl

end Cursor

/-! ## What lies between tokens -/

namespace Token

/-- Text that is no token, in front of `behind`: blanks and whole comments. A comment to the end of the
line ends where the line or the text does, and one in marks at the first closing mark. -/
inductive Skipped (behind : List Char) : List Char → Prop where
  | nil : Skipped behind []
  | blank {c : Char} {gap : List Char} (hc : c = ' ' ∨ c = '\t' ∨ c = '\r')
      (h : Skipped behind gap) : Skipped behind (c :: gap)
  | lineComment {mark body gap : List Char} (hmark : mark = ['#'] ∨ mark = ['/', '/'])
      (hbody : '\n' ∉ body) (hend : ∀ c ∈ (gap ++ behind).head?, c = '\n')
      (h : Skipped behind gap) : Skipped behind (mark ++ body ++ gap)
  | blockComment {body gap : List Char} (hbody : ¬ ['*', '/'] <:+: body ++ ['*'])
      (h : Skipped behind gap) : Skipped behind (['/', '*'] ++ body ++ ['*', '/'] ++ gap)

/-- Text between a token and `behind`: as `Skipped`, with the colon of a label in front. -/
def Separates (previous : Option Token) (gap behind : List Char) : Prop :=
  if previous.any (·.kind = .labelDef) then ∃ rest, gap = ':' :: rest ∧ Skipped behind rest
  else Skipped behind gap

theorem separates_label {t : Token} (ht : t.kind = .labelDef) {gap behind : List Char}
    (h : Skipped behind gap) : Separates (some t) (':' :: gap) behind := by
  rw [Separates, if_pos (by simpa using ht)]
  exact ⟨gap, rfl, h⟩

theorem separates_other {t : Token} (ht : t.kind ≠ .labelDef) {gap behind : List Char}
    (h : Skipped behind gap) : Separates (some t) gap behind := by
  rwa [Separates, if_neg (by simpa using ht)]

/-- A closed comment ends at the first mark that closes it. -/
theorem blockComment?_body {cs body rest : List Char} (h : blockComment? cs = some (body, rest)) :
    ∃ inner, body = inner ++ ['*', '/'] ∧ ¬ ['*', '/'] <:+: inner ++ ['*'] := by
  fun_induction blockComment? cs generalizing body with
  | case1 rest' =>
    cases h
    exact ⟨[], rfl, by decide⟩
  | case2 c cs hnot ih =>
    obtain ⟨⟨body', rest'⟩, hbody, heq⟩ := Option.map_eq_some_iff.1 h
    cases heq
    obtain ⟨inner, rfl, hinner⟩ := ih hbody
    refine ⟨c :: inner, rfl, ?_⟩
    rw [List.cons_append, List.infix_cons_iff, not_or]
    refine ⟨?_, hinner⟩
    -- A mark right here would have ended the comment.
    rw [List.cons_prefix_cons]
    rintro ⟨hc, tail, htail⟩
    have hcs := blockComment?_tiles hbody
    cases inner with
    | nil => cases htail
    | cons d inner =>
      injection htail with hd _
      exact hnot (inner ++ ['*', '/'] ++ rest) hc.symm (by rw [← hcs, ← hd]; rfl)
  | case3 => cases h

/-! ## Steps -/

/-- What a token shows of the bytes it covers: they are its text, or an escaped character, whose text
has the character that is meant. -/
def Shows (t : Token) (covered : List UInt8) : Prop :=
  Text.utf8 t.text = covered ∨
    ∃ e c, covered = Text.bytes ['\'', '\\', e, '\''] ∧ escape? e = some c ∧
      t.kind = .number c.toNat ∧ t.text = String.ofList ['\'', c, '\'']

/-- A step that gives no token goes over a part of a gap. -/
def Lexeme.Skips (l : Lexeme) : Prop :=
  ∀ gap behind, gap ++ behind = l.rest → Skipped behind gap → Skipped behind (l.consumed ++ gap)

/-- A step that gives a token covers it, and the colon behind it if it is a label. -/
structure Lexeme.Covers (l : Lexeme) (t : TokenKind × List Char) : Prop where
  token : l.token = some t
  consumed : l.consumed = scanFrom.spanned l ++ if t.1 = .labelDef then [':'] else []
  nonempty : scanFrom.spanned l ≠ []
  kind : t.1 ≠ .eof
  shows : ∀ span, Shows ⟨t.1, String.ofList t.2, span⟩ (Text.bytes (scanFrom.spanned l))

theorem covers_plain {kind : TokenKind} {consumed rest : List Char} (hne : consumed ≠ [])
    (heof : kind ≠ .eof) (hlabel : kind ≠ .labelDef) :
    (Lexeme.plain kind consumed rest).Covers (kind, consumed) := by
  have hspanned : scanFrom.spanned (Lexeme.plain kind consumed rest) = consumed := by
    cases kind <;> rfl
  refine ⟨rfl, ?_, ?_, heof, fun span => ?_⟩
  · rw [hspanned, if_neg hlabel, List.append_nil]
    rfl
  · rwa [hspanned]
  · rw [hspanned]
    exact .inl (Text.utf8_ofList consumed)

theorem skips_lineComment {c : Char} {cs : List Char}
    (hc : c = '#' ∨ (c = '/' ∧ cs.head? = some '/')) : (lineComment c cs).Skips := by
  intro gap behind hrest h
  have hend : ∀ d ∈ (gap ++ behind).head?, d = '\n' := by
    intro d hd
    have hnot := List.head?_dropWhile_not (fun d => decide (d ≠ '\n')) cs
    rw [hrest] at hd
    rw [show (cs.dropWhile fun d => decide (d ≠ '\n')).head? = some d from hd] at hnot
    simpa using hnot
  have hbody : ∀ ds : List Char, '\n' ∉ ds.takeWhile fun d => decide (d ≠ '\n') := by
    intro ds hmem
    have hall := List.all_eq_true.1 (List.all_takeWhile (p := fun d => decide (d ≠ '\n')) (l := ds)) _ hmem
    simp at hall
  rcases hc with rfl | ⟨rfl, hslash⟩
  · exact .lineComment (.inl rfl) (hbody cs) hend h
  · cases cs with
    | nil => cases hslash
    | cons d ds =>
      obtain rfl : d = '/' := Option.some.inj hslash
      exact .lineComment (.inr rfl) (hbody ds) hend h

theorem skips_blockComment {body rest ds : List Char} (hbody : blockComment? ds = some (body, rest)) :
    (Lexeme.skip ('/' :: '*' :: body) rest).Skips := by
  intro gap behind _ h
  obtain ⟨inner, rfl, hinner⟩ := blockComment?_body hbody
  exact .blockComment hinner h

theorem covers_character {cs : List Char} {l : Lexeme} (h : characterLiteral cs = .ok l) :
    ∃ t, l.Covers t := by
  rcases characterLiteral_eq_ok.1 h with ⟨e, c, rest, -, he, rfl⟩ | ⟨c, rest, -, -, -, -, rfl⟩
  · refine ⟨(.number c.toNat, ['\'', c, '\'']), rfl, rfl, List.cons_ne_nil _ _, nofun, fun span => ?_⟩
    exact .inr ⟨e, c, rfl, he, rfl, rfl⟩
  · refine ⟨(.number c.toNat, ['\'', c, '\'']), rfl, rfl, List.cons_ne_nil _ _, nofun, fun span => ?_⟩
    exact .inl (Text.utf8_ofList _)

theorem covers_name (c : Char) (cs : List Char) : ∃ t, (nameWord c cs).Covers t := by
  unfold nameWord
  simp only
  split
  · split
    · exact ⟨_, covers_plain (List.cons_ne_nil _ _) nofun nofun⟩
    · exact ⟨(.labelDef, c :: cs.takeWhile isWordRest), rfl, rfl, List.cons_ne_nil _ _, nofun,
        fun span => .inl (Text.utf8_ofList _)⟩
  · exact ⟨_, covers_plain (List.cons_ne_nil _ _) nofun nofun⟩

/-- **A step** goes over a part of a gap or covers a token. -/
theorem lexeme_cases {c : Char} {cs : List Char} {l : Lexeme} (h : lexeme c cs = .ok l) :
    (l.token = none ∧ l.Skips) ∨ ∃ t, l.Covers t := by
  cases lexed_of_lexeme h with
  | blank hc =>
    refine .inl ⟨rfl, fun gap behind _ hgap => .blank ?_ hgap⟩
    simpa [isBlank, or_assoc] using hc
  | lineComment hc => exact .inl ⟨rfl, skips_lineComment hc⟩
  | blockComment hc _ hbody =>
    subst hc
    exact .inl ⟨rfl, skips_blockComment hbody⟩
  | character _ hl => exact .inr (covers_character hl)
  | directive _ => exact .inr ⟨_, covers_plain (List.cons_ne_nil _ _) nofun nofun⟩
  | number _ hl =>
    unfold numberWord at hl
    simp only at hl
    split at hl
    · cases hl
      exact .inr ⟨_, covers_plain (List.cons_ne_nil _ _) nofun nofun⟩
    · cases hl
  | name _ => exact .inr (covers_name c cs)
  | punctuation =>
    have hkind : (punctuation? c).getD .unknown ≠ .eof ∧ (punctuation? c).getD .unknown ≠ .labelDef := by
      unfold punctuation?
      split <;> exact ⟨nofun, nofun⟩
    exact .inr ⟨_, covers_plain (List.cons_ne_nil _ _) hkind.1 hkind.2⟩

/-! ## Runs -/

/-- The tokens of the characters `cs` behind `done`, in front of which stands the token `previous`: a gap
and a token in turn, up to the end. -/
inductive Laid : Option Token → List Char → List Char → List Token → Prop where
  | eof {previous : Option Token} {done gap : List Char} (hgap : Separates previous gap []) :
    Laid previous done gap [⟨.eof, "", (Cursor.start.steps (done ++ gap)).span 0⟩]
  | token {previous : Option Token} {done gap covered rest : List Char} {t : Token}
      {tokens : List Token} (hgap : Separates previous gap (covered ++ rest)) (hne : covered ≠ [])
      (hkind : t.kind ≠ .eof) (hshows : t.Shows (Text.bytes covered))
      (hspan : t.span = (Cursor.start.steps (done ++ gap)).span (byteCount covered))
      (h : Laid (some t) (done ++ gap ++ covered) rest tokens) :
    Laid previous done (gap ++ (covered ++ rest)) (t :: tokens)

/-- More text in front of the first gap. -/
theorem Laid.extend {previous previous' : Option Token} {done front cs : List Char}
    {tokens : List Token} (h : Laid previous (done ++ front) cs tokens)
    (hfront : ∀ gap behind, gap ++ behind = cs → Separates previous gap behind →
      Separates previous' (front ++ gap) behind) :
    Laid previous' done (front ++ cs) tokens := by
  cases h with
  | eof hgap =>
    rw [List.append_assoc]
    exact .eof (hfront _ _ (List.append_nil _) hgap)
  | token hgap hne hkind hshows hspan hrest =>
    rw [← List.append_assoc]
    refine .token (hfront _ _ rfl hgap) hne hkind hshows ?_ ?_
    · rw [hspan, List.append_assoc]
    · rwa [← List.append_assoc done]

theorem laid_nil (done : List Char) :
    Laid none done [] [⟨.eof, "", (Cursor.start.steps done).span 0⟩] := by
  have heof : Laid none done [] [⟨.eof, "", (Cursor.start.steps (done ++ [])).span 0⟩] := .eof .nil
  rwa [List.append_nil] at heof

theorem byteCount_pos {cs : List Char} (h : cs ≠ []) : 0 < byteCount cs := by
  cases cs with
  | nil => exact absurd rfl h
  | cons c cs => exact Nat.add_pos_left c.utf8Size_pos _

/-- A token without a gap in front. -/
theorem Laid.cons {done covered rest : List Char} {t : Token} {tokens : List Token}
    (hne : covered ≠ []) (hkind : t.kind ≠ .eof) (hshows : t.Shows (Text.bytes covered))
    (hspan : t.span = (Cursor.start.steps done).span (byteCount covered))
    (h : Laid (some t) (done ++ covered) rest tokens) : Laid none done (covered ++ rest) (t :: tokens) := by
  rw [← List.append_nil done] at hspan h
  exact @Laid.token none done [] covered rest t tokens .nil hne hkind hshows hspan h

/-- The step of a token, and the colon of a label behind it. -/
theorem Lexeme.Covers.laid {l : Lexeme} {kind : TokenKind × List Char} (hl : l.Covers kind)
    {done : List Char} {tokens : List Token} (h : Laid none (done ++ l.consumed) l.rest tokens) :
    Laid none done (l.consumed ++ l.rest)
      ((l.tokenAt (Cursor.start.steps done)).toList ++ tokens) := by
  rw [Lexeme.tokenAt, hl.token, Option.map_some, Option.toList_some, List.singleton_append]
  rw [hl.consumed, ← List.append_assoc] at h
  rw [hl.consumed, List.append_assoc]
  refine .cons hl.nonempty hl.kind (hl.shows _) rfl (h.extend fun gap behind _ hgap => ?_)
  split
  · exact separates_label ‹_› hgap
  · exact separates_other ‹_› hgap

/-- **A run of the scanner** lays its tokens out over the text, by induction on its steps. -/
theorem scanFrom_laid {fuel : Nat} {done cs : List Char} {tokens : List Token}
    (hfuel : cs.length ≤ fuel) (h : scanFrom fuel (Cursor.start.steps done) cs = .ok tokens) :
    Laid none done cs tokens := by
  induction fuel generalizing done cs tokens with
  | zero =>
    obtain rfl := List.eq_nil_of_length_eq_zero (Nat.le_zero.1 hfuel)
    cases h
    exact laid_nil done
  | succ fuel ih =>
    cases cs with
    | nil =>
      cases h
      exact laid_nil done
    | cons c cs =>
      cases hl : lexeme c cs with
      | error e =>
        rw [scanFrom_error hl] at h
        cases h
      | ok l =>
        rw [scanFrom_ok hl, map_eq_ok] at h
        obtain ⟨later, hlater, rfl⟩ := h
        rw [← Cursor.steps_append] at hlater
        have hlen := (lexeme_tiles hl).length_lt
        have hlaid := ih (by omega) hlater
        rw [← (lexeme_tiles hl).1]
        rcases lexeme_cases hl with ⟨htoken, hskips⟩ | ⟨kind, hcovers⟩
        · rw [Lexeme.tokenAt, htoken]
          exact hlaid.extend hskips
        · exact hcovers.laid hlaid

/-! ## Tokens of a text -/

namespace Laid

variable {previous : Option Token} {done cs : List Char} {tokens : List Token}

/-- Every token covers characters of the text. -/
theorem covers (h : Laid previous done cs tokens) {t : Token} (ht : t ∈ tokens) :
    ∃ front covered behind, done ++ cs = done ++ front ++ (covered ++ behind) ∧
      t.span = (Cursor.start.steps (done ++ front)).span (byteCount covered) ∧
      t.Shows (Text.bytes covered) := by
  induction h with
  | @eof previous done gap hgap =>
    rw [List.mem_singleton] at ht
    subst ht
    exact ⟨gap, [], [], by simp, rfl, .inl rfl⟩
  | @token previous done gap covered rest u tokens hgap hne hkind hshows hspan _ ih =>
    rcases List.mem_cons.1 ht with rfl | ht
    · exact ⟨gap, covered, rest, (List.append_assoc ..).symm, hspan, hshows⟩
    · obtain ⟨front, covered', behind, hsplit, hspan', hshows'⟩ := ih ht
      refine ⟨gap ++ covered ++ front, covered', behind, ?_, ?_, hshows'⟩
      · simpa [List.append_assoc] using hsplit
      · simpa [List.append_assoc] using hspan'

theorem offset_ge (h : Laid previous done cs tokens) {t : Token} (ht : t ∈ tokens) :
    byteCount done ≤ t.span.offset := by
  obtain ⟨front, covered, behind, -, hspan, -⟩ := h.covers ht
  rw [hspan, Cursor.steps_start, Cursor.span, byteCount_append]
  exact Nat.le_add_right _ _

theorem ordered (h : Laid previous done cs tokens) :
    tokens.Pairwise fun t u => t.span.stop ≤ u.span.offset := by
  induction h with
  | eof hgap => exact List.pairwise_singleton _ _
  | token hgap hne hkind hshows hspan hrest ih =>
    refine List.pairwise_cons.2 ⟨fun u hu => ?_, ih⟩
    have hle := hrest.offset_ge hu
    rwa [Span.stop, hspan, Cursor.steps_start, Cursor.span, ← byteCount_append]

/-- The end of input is the last token and no other. -/
theorem last (h : Laid previous done cs tokens) :
    ∃ front t, tokens = front ++ [t] ∧ t.kind = .eof ∧
      t.span.offset = byteCount (done ++ cs) ∧ t.span.len = 0 ∧
      ∀ u ∈ front, u.kind ≠ .eof ∧ 0 < u.span.len := by
  induction h with
  | eof hgap =>
    refine ⟨[], _, rfl, rfl, ?_, rfl, by simp⟩
    rw [Cursor.steps_start, Cursor.span]
  | @token previous done gap covered rest u tokens hgap hne hkind hshows hspan _ ih =>
    obtain ⟨front, t, rfl, heof, hoffset, hlen, hfront⟩ := ih
    refine ⟨u :: front, t, rfl, heof, ?_, hlen, ?_⟩
    · rw [hoffset, List.append_assoc, List.append_assoc]
    · intro v hv
      rcases List.mem_cons.1 hv with rfl | hv
      · refine ⟨hkind, ?_⟩
        rw [hspan]
        exact byteCount_pos hne
      · exact hfront v hv

end Laid

/-- A token at its place in a text: it covers whole characters of it, which it shows, and its line and
column are the words of the numbers that its first byte has. -/
structure Placed (source : String) (t : Token) : Prop where
  within : t.span.stop ≤ source.utf8ByteSize
  start_isValid : (⟨t.span.offset⟩ : String.Pos.Raw).IsValid source
  stop_isValid : (⟨t.span.stop⟩ : String.Pos.Raw).IsValid source
  shows : t.Shows (Text.slice source t.span.offset t.span.stop)
  line : t.span.line = .ofNat (Text.lineNumber source t.span.offset)
  col : t.span.col = .ofNat (Text.columnNumber source t.span.offset)

end Token

end IntelAsm
