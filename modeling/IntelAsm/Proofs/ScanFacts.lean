/-
The scanner, step by step. A step takes characters from the front of the text
and leaves the others (`Token.lexeme_tiles`), so as many steps as there are
characters suffice for a text. What a step does is settled by the characters
it takes and the one behind them; a line end behind a text is as good as the
end of the text (`Token.lexeme_line`).
-/
import IntelAsm.Token.Scan
import IntelAsm.Proofs.Failure

namespace IntelAsm.Token

/-! ## Steps of a scan -/

/-- The token of a step taken at a place. -/
def Lexeme.tokenAt (l : Lexeme) (p : Cursor) : Option Token :=
  l.token.map fun t => ⟨t.1, String.ofList t.2, p.span (byteCount (scanFrom.spanned l))⟩

theorem scanFrom_error {c : Char} {cs : List Char} {e : ScanFailure} (h : lexeme c cs = .error e)
    (fuel : Nat) (p : Cursor) :
    scanFrom (fuel + 1) p (c :: cs) = .error (.malformed e.error.message (p.span e.len)) := by
  simp only [scanFrom, h]

theorem scanFrom_ok {c : Char} {cs : List Char} {l : Lexeme} (h : lexeme c cs = .ok l) (fuel : Nat)
    (p : Cursor) :
    scanFrom (fuel + 1) p (c :: cs) =
      ((l.tokenAt p).toList ++ ·) <$> scanFrom fuel (p.steps l.consumed) l.rest := by
  simp only [scanFrom, h]
  cases scanFrom fuel (p.steps l.consumed) l.rest with
  | error d => rfl
  | ok tokens =>
    simp only [Lexeme.tokenAt, bind, Except.bind, Functor.map, Except.map]
    cases l.token with
    | none => rfl
    | some t => rfl

/-- Reports of the scanner speak of a place in the text. -/
theorem scanFrom_malformed {fuel : Nat} {p : Cursor} {cs : List Char} {d : Diagnostic}
    (h : scanFrom fuel p cs = .error d) : ∃ detail span, d = .malformed detail span := by
  induction fuel generalizing p cs with
  | zero => cases h
  | succ fuel ih =>
    cases cs with
    | nil => cases h
    | cons c cs =>
      cases hl : lexeme c cs with
      | error e =>
        rw [scanFrom_error hl] at h
        cases h
        exact ⟨_, _, rfl⟩
      | ok l =>
        rw [scanFrom_ok hl] at h
        cases htail : scanFrom fuel (p.steps l.consumed) l.rest with
        | error d' =>
          rw [htail] at h
          cases h
          exact ih htail
        | ok tokens =>
          rw [htail] at h
          cases h

/-! ## Characters taken -/

/-- A step that takes the characters in front of what it leaves, one at least. -/
def Lexeme.Tiles (l : Lexeme) (cs : List Char) : Prop :=
  l.consumed ++ l.rest = cs ∧ l.consumed ≠ []

theorem Lexeme.Tiles.length_lt {l : Lexeme} {cs : List Char} (h : l.Tiles cs) :
    l.rest.length < cs.length := by
  have hpos := List.length_pos_iff.2 h.2
  rw [← h.1, List.length_append]
  omega

theorem blockComment?_tiles {cs body rest : List Char} (h : blockComment? cs = some (body, rest)) :
    body ++ rest = cs := by
  fun_induction blockComment? cs generalizing body with
  | case1 rest' =>
    cases h
    rfl
  | case2 c cs _ ih =>
    obtain ⟨⟨body', rest'⟩, hbody, heq⟩ := Option.map_eq_some_iff.1 h
    cases heq
    rw [List.cons_append, ih hbody]
  | case3 => cases h

/-- **Character literals**: an escape, or a character of one byte that starts none and ends no
line. -/
theorem characterLiteral_eq_ok {cs : List Char} {l : Lexeme} :
    characterLiteral cs = .ok l ↔
      (∃ e c rest, cs = '\\' :: e :: '\'' :: rest ∧ escape? e = some c ∧
        l = characterLiteral.literal c ['\'', '\\', e, '\''] rest) ∨
      ∃ c rest, cs = c :: '\'' :: rest ∧ c ≠ '\\' ∧ c ≠ '\n' ∧ c.utf8Size = 1 ∧
        l = characterLiteral.literal c ['\'', c, '\''] rest := by
  constructor
  · intro h
    unfold characterLiteral at h
    split at h
    · rename_i e cs
      split at h
      · cases h
      · rename_i c hc
        split at h
        · rename_i rest
          cases h
          exact .inl ⟨e, c, rest, rfl, hc, rfl⟩
        · cases h
    · cases h
    · cases h
    · rename_i c cs hescape hline
      split at h
      · rename_i rest
        split at h
        · rename_i hsize
          cases h
          exact .inr ⟨c, rest, rfl, fun hc => hescape _ _ hc rfl, hline, hsize, rfl⟩
        · cases h
      · cases h
  · rintro (⟨e, c, rest, rfl, hc, rfl⟩ | ⟨c, rest, rfl, hescape, hline, hsize, rfl⟩)
    · simp only [characterLiteral, hc]
    · simp [characterLiteral, hescape, hsize]

theorem characterLiteral_tiles {cs : List Char} {l : Lexeme} (h : characterLiteral cs = .ok l) :
    l.Tiles ('\'' :: cs) := by
  rcases characterLiteral_eq_ok.1 h with ⟨e, c, rest, rfl, -, rfl⟩ | ⟨c, rest, rfl, -, -, -, rfl⟩
  · exact ⟨rfl, List.cons_ne_nil _ _⟩
  · exact ⟨rfl, List.cons_ne_nil _ _⟩

theorem numberWord_tiles {c : Char} {cs : List Char} {l : Lexeme} (h : numberWord c cs = .ok l) :
    l.Tiles (c :: cs) := by
  unfold numberWord at h
  simp only at h
  split at h
  · cases h
    exact ⟨congrArg (c :: ·) List.takeWhile_append_dropWhile, List.cons_ne_nil _ _⟩
  · cases h

theorem nameWord_tiles (c : Char) (cs : List Char) : (nameWord c cs).Tiles (c :: cs) := by
  have hcs : cs.takeWhile isWordRest ++ cs.dropWhile isWordRest = cs :=
    List.takeWhile_append_dropWhile
  unfold nameWord
  simp only
  split
  · rename_i rest hrest
    rw [hrest] at hcs
    split
    · exact ⟨congrArg (c :: ·) hcs, List.cons_ne_nil _ _⟩
    · exact ⟨by simpa using hcs, List.cons_ne_nil _ _⟩
  · exact ⟨congrArg (c :: ·) hcs, List.cons_ne_nil _ _⟩

theorem lineComment_tiles (c : Char) (cs : List Char) : (lineComment c cs).Tiles (c :: cs) :=
  ⟨congrArg (c :: ·) List.takeWhile_append_dropWhile, List.cons_ne_nil _ _⟩

/-- What a step can be, by the character it starts with. -/
inductive Lexed (c : Char) (cs : List Char) : Lexeme → Prop where
  | blank (hc : isBlank c = true) : Lexed c cs (.skip [c] cs)
  | lineComment (hc : c = '#' ∨ (c = '/' ∧ cs.head? = some '/')) :
    Lexed c cs (Token.lineComment c cs)
  | blockComment {ds body rest : List Char} (hc : c = '/') (hcs : cs = '*' :: ds)
      (hbody : blockComment? ds = some (body, rest)) :
    Lexed c cs (.skip (c :: '*' :: body) rest)
  | character {l : Lexeme} (hc : c = '\'') (hl : characterLiteral cs = .ok l) : Lexed c cs l
  | directive (hc : c = '.') :
    Lexed c cs (.plain .directive (c :: cs.takeWhile isWordRest) (cs.dropWhile isWordRest))
  | number {l : Lexeme} (hc : c.isDigit = true) (hl : numberWord c cs = .ok l) : Lexed c cs l
  | name (hc : isWordStart c = true) : Lexed c cs (nameWord c cs)
  | punctuation : Lexed c cs (.plain ((punctuation? c).getD .unknown) [c] cs)

theorem lexed_of_lexeme {c : Char} {cs : List Char} {l : Lexeme} (h : lexeme c cs = .ok l) :
    Lexed c cs l := by
  unfold lexeme at h
  split at h
  · rename_i hblank
    cases h
    exact .blank hblank
  split at h
  · rename_i hhash
    cases h
    exact .lineComment (.inl hhash)
  split at h
  · rename_i hslash
    cases h
    exact .lineComment (.inr hslash)
  split at h
  · rename_i hopen
    obtain ⟨ds, rfl⟩ : ∃ ds, cs = '*' :: ds := by
      cases cs with
      | nil => cases hopen.2
      | cons d ds => exact ⟨ds, by rw [Option.some.inj hopen.2]⟩
    split at h
    · rename_i body rest hbody
      cases h
      exact .blockComment hopen.1 rfl hbody
    · cases h
  split at h
  · rename_i hquote
    exact .character hquote h
  split at h
  · rename_i hdot
    cases h
    exact .directive hdot
  split at h
  · rename_i hdigit
    exact .number hdigit h
  split at h
  · rename_i hword
    cases h
    exact .name hword
  · cases h
    exact .punctuation

/-- **A step takes a first part of the text.** -/
theorem lexeme_tiles {c : Char} {cs : List Char} {l : Lexeme} (h : lexeme c cs = .ok l) :
    l.Tiles (c :: cs) := by
  cases lexed_of_lexeme h with
  | blank _ => exact ⟨rfl, List.cons_ne_nil _ _⟩
  | lineComment _ => exact lineComment_tiles c cs
  | blockComment _ hcs hbody =>
    subst hcs
    exact ⟨congrArg (c :: '*' :: ·) (blockComment?_tiles hbody), List.cons_ne_nil _ _⟩
  | character hc hl =>
    subst hc
    exact characterLiteral_tiles hl
  | directive _ => exact ⟨congrArg (c :: ·) List.takeWhile_append_dropWhile, List.cons_ne_nil _ _⟩
  | number _ hl => exact numberWord_tiles hl
  | name _ => exact nameWord_tiles c cs
  | punctuation => exact ⟨rfl, List.cons_ne_nil _ _⟩

/-- No step gives the end of input. -/
theorem lexeme_ne_eof {c : Char} {cs : List Char} {l : Lexeme} (h : lexeme c cs = .ok l)
    {t : TokenKind × List Char} (ht : l.token = some t) : t.1 ≠ .eof := by
  cases lexed_of_lexeme h with
  | blank _ => cases ht
  | lineComment _ => cases ht
  | blockComment _ _ _ => cases ht
  | character _ hl =>
    rcases characterLiteral_eq_ok.1 hl with ⟨_, _, _, -, -, rfl⟩ | ⟨_, _, -, -, -, -, rfl⟩
    · cases ht
      nofun
    · cases ht
      nofun
  | directive _ =>
    cases ht
    nofun
  | number _ hl =>
    unfold numberWord at hl
    simp only at hl
    split at hl
    · cases hl
      cases ht
      nofun
    · cases hl
  | name _ =>
    unfold nameWord at ht
    simp only at ht
    split at ht
    · split at ht <;> cases ht <;> nofun
    · cases ht
      nofun
  | punctuation =>
    cases ht
    unfold punctuation?
    split <;> nofun

/-! ## A line end behind a text -/

/-- The same step with more text behind. -/
def Lexeme.followedBy (l : Lexeme) (ds : List Char) : Lexeme := { l with rest := l.rest ++ ds }

section Line

variable {p : Char → Bool} (hp : p '\n' = false) (cs ds : List Char)
include hp

theorem takeWhile_line : (cs ++ '\n' :: ds).takeWhile p = cs.takeWhile p := by
  induction cs with
  | nil => simp [hp]
  | cons c cs ih => simp only [List.cons_append, List.takeWhile_cons, ih]

theorem dropWhile_line : (cs ++ '\n' :: ds).dropWhile p = cs.dropWhile p ++ '\n' :: ds := by
  induction cs with
  | nil => simp [hp]
  | cons c cs ih =>
    simp only [List.cons_append, List.dropWhile_cons, ih]
    split <;> rfl

end Line

theorem blockComment?_line {cs body rest : List Char} (h : blockComment? cs = some (body, rest))
    (ds : List Char) : blockComment? (cs ++ ds) = some (body, rest ++ ds) := by
  fun_induction blockComment? cs generalizing body with
  | case1 rest' =>
    cases h
    rfl
  | case2 c cs hnot ih =>
    obtain ⟨⟨body', rest'⟩, hbody, heq⟩ := Option.map_eq_some_iff.1 h
    cases heq
    -- The comment does not end here, also not with what comes behind.
    have hopen : ∀ tail, c = '*' → cs ++ ds = '/' :: tail → False := by
      intro tail hc htail
      cases cs with
      | nil => cases hbody
      | cons d cs =>
        rw [List.cons_append, List.cons.injEq] at htail
        exact hnot cs hc (by rw [htail.1])
    rw [List.cons_append, blockComment?.eq_2 _ _ hopen, ih hbody]
    rfl
  | case3 => cases h

theorem characterLiteral_line {cs : List Char} {l : Lexeme} (h : characterLiteral cs = .ok l)
    (ds : List Char) : characterLiteral (cs ++ ds) = .ok (l.followedBy ds) := by
  rw [characterLiteral_eq_ok] at h ⊢
  rcases h with ⟨e, c, rest, rfl, hc, rfl⟩ | ⟨c, rest, rfl, hescape, hline, hsize, rfl⟩
  · exact .inl ⟨e, c, rest ++ ds, rfl, hc, rfl⟩
  · exact .inr ⟨c, rest ++ ds, rfl, hescape, hline, hsize, rfl⟩

theorem numberWord_line {c : Char} {cs : List Char} {l : Lexeme} (h : numberWord c cs = .ok l)
    (ds : List Char) : numberWord c (cs ++ '\n' :: ds) = .ok (l.followedBy ('\n' :: ds)) := by
  have halnum : Char.isAlphanum '\n' = false := by decide
  simp only [numberWord, takeWhile_line halnum, dropWhile_line halnum] at h ⊢
  cases hn : Numeral.parse? (c :: cs.takeWhile Char.isAlphanum) with
  | none =>
    rw [hn] at h
    cases h
  | some n =>
    rw [hn] at h
    cases h
    rfl

theorem nameWord_line (c : Char) (cs ds : List Char) :
    nameWord c (cs ++ '\n' :: ds) = (nameWord c cs).followedBy ('\n' :: ds) := by
  have hword : isWordRest '\n' = false := by decide
  simp only [nameWord, takeWhile_line hword, dropWhile_line hword]
  cases hrest : cs.dropWhile isWordRest with
  | nil => rfl
  | cons d rest =>
    by_cases hd : d = ':'
    · subst hd
      simp only [List.cons_append]
      split <;> rfl
    · simp [hd, Lexeme.followedBy, Lexeme.plain]

theorem lineComment_line (c : Char) (cs ds : List Char) :
    lineComment c (cs ++ '\n' :: ds) = (lineComment c cs).followedBy ('\n' :: ds) := by
  have htake := takeWhile_line (p := fun d => decide (d ≠ '\n')) (by decide) cs ds
  have hdrop := dropWhile_line (p := fun d => decide (d ≠ '\n')) (by decide) cs ds
  rw [lineComment, htake, hdrop]
  rfl

theorem head?_line {d : Char} (hd : d ≠ '\n') {cs ds : List Char} :
    (cs ++ '\n' :: ds).head? = some d ↔ cs.head? = some d := by
  cases cs with
  | nil => simp [hd.symm]
  | cons c cs => simp

/-- **A line end behind the text** changes no step: what a step takes ends in front of it. -/
theorem lexeme_line {c : Char} {cs : List Char} {l : Lexeme} (h : lexeme c cs = .ok l)
    (ds : List Char) : lexeme c (cs ++ '\n' :: ds) = .ok (l.followedBy ('\n' :: ds)) := by
  have hword : isWordRest '\n' = false := by decide
  have hnext {d : Char} (hd : d ≠ '\n') :
      (c = '/' ∧ (cs ++ '\n' :: ds).head? = some d) ↔ (c = '/' ∧ cs.head? = some d) :=
    and_congr_right fun _ => head?_line hd
  unfold lexeme at h ⊢
  split at h
  · rename_i hblank
    cases h
    rw [if_pos hblank]
    rfl
  rename_i hblank
  rw [if_neg hblank]
  split at h
  · rename_i hhash
    cases h
    rw [if_pos hhash, lineComment_line]
  rename_i hhash
  rw [if_neg hhash]
  split at h
  · rename_i hslash
    cases h
    rw [if_pos ((hnext (by decide)).2 hslash), lineComment_line]
  rename_i hslash
  rw [if_neg (mt (hnext (by decide)).1 hslash)]
  split at h
  · rename_i hopen
    rw [if_pos ((hnext (by decide)).2 hopen)]
    have htail : (cs ++ '\n' :: ds).tail = cs.tail ++ '\n' :: ds :=
      List.tail_append_of_ne_nil (by rintro rfl; cases hopen.2)
    rw [htail]
    cases hbody : blockComment? cs.tail with
    | none =>
      rw [hbody] at h
      cases h
    | some body =>
      rw [hbody] at h
      cases h
      rw [blockComment?_line hbody]
      rfl
  rename_i hopen
  rw [if_neg (mt (hnext (by decide)).1 hopen)]
  split at h
  · rename_i hquote
    rw [if_pos hquote]
    exact characterLiteral_line h _
  rename_i hquote
  rw [if_neg hquote]
  split at h
  · rename_i hdot
    cases h
    rw [if_pos hdot, takeWhile_line hword, dropWhile_line hword]
    rfl
  rename_i hdot
  rw [if_neg hdot]
  split at h
  · rename_i hdigit
    rw [if_pos hdigit]
    exact numberWord_line h ds
  rename_i hdigit
  rw [if_neg hdigit]
  split at h
  · rename_i hstart
    cases h
    rw [if_pos hstart, nameWord_line]
  rename_i hstart
  cases h
  rw [if_neg hstart]
  rfl

end IntelAsm.Token
