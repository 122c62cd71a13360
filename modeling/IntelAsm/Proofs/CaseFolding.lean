/-
The language does not see case. Registers, mnemonics, prefixes, size words,
directives and numbers are read in any case of their letters: the scanner takes
the same steps on a text in lower case (`Token.scanFrom_toLower`), the parser
reads the same statements up to the names of symbols, and without labels there
is no symbol whose name could matter (`assemble_eq_of_toLower_eq`). Case shows
in labels, which are told apart by it, and in character literals.
-/
import Mathlib
import IntelAsm.Proofs.SourcePieces

namespace IntelAsm

/-! ## Letters -/

/-- What does not tell an upper-case letter from the lower-case one does not see case. -/
theorem apply_toLower {α : Type} {f : Char → α}
    (h : ∀ n < 26, f (Char.ofNat (97 + n)) = f (Char.ofNat (65 + n))) (c : Char) :
    f c.toLower = f c := by
  by_cases hc : c.isUpper = true
  · have hrange : 65 ≤ c.toNat ∧ c.toNat ≤ 90 := by
      simpa [Char.isUpper, UInt32.le_iff_toNat_le] using hc
    have hlower : 97 + (c.toNat - 65) = c.toNat + 32 := by omega
    have hupper : 65 + (c.toNat - 65) = c.toNat := by omega
    have hletter := h (c.toNat - 65) (by omega)
    rw [hlower, hupper, Char.ofNat_toNat] at hletter
    rw [Char.toLower_eq_of_isUpper hc, hletter]
  · rw [Char.toLower_eq_of_not_isUpper hc]

theorem toLower_eq_iff {d : Char} (hd : d.isAlpha = false) {c : Char} : c.toLower = d ↔ c = d := by
  by_cases hc : c.isUpper = true
  · have halpha : c.isAlpha = true := by simp [Char.isAlpha, hc]
    constructor
    · rintro rfl
      rw [Char.isAlpha_toLower_eq_isAlpha, halpha] at hd
      cases hd
    · rintro rfl
      rw [halpha] at hd
      cases hd
  · rw [Char.toLower_eq_of_not_isUpper hc]

theorem utf8Size_toLower (c : Char) : c.toLower.utf8Size = c.utf8Size :=
  apply_toLower (by decide) c

/-! ## Numbers -/

namespace Numeral

theorem digit?_toLower (c : Char) : digit? c.toLower = digit? c :=
  apply_toLower (by decide) c

theorem continue?_toLower (radix acc : Nat) (cs : List Char) :
    continue? radix acc (cs.map Char.toLower) = continue? radix acc cs := by
  induction cs generalizing acc with
  | nil => rfl
  | cons c cs ih => simp only [List.map_cons, continue?, digitIn?, digit?_toLower, ih]

theorem ofDigits?_toLower (radix : Nat) (cs : List Char) :
    ofDigits? radix (cs.map Char.toLower) = ofDigits? radix cs := by
  cases cs with
  | nil => rfl
  | cons c cs => exact continue?_toLower radix 0 (c :: cs)

/-- The base that a mark behind a zero asks for. -/
def mark? : Char → Option Nat
  | 'x' | 'X' => some 16
  | 'b' | 'B' => some 2
  | 'o' | 'O' => some 8
  | _ => none

def isHexMark (c : Char) : Bool := c = 'h' || c = 'H'

/-- The base and the digits of a word with no mark in front. -/
def unmarked (word : List Char) : Nat × List Char :=
  if word.getLast?.any isHexMark then (16, word.dropLast) else (10, word)

theorem unmarked_toLower (word : List Char) :
    unmarked (word.map Char.toLower) = Prod.map id (List.map Char.toLower) (unmarked word) := by
  have hlast : (word.map Char.toLower).getLast?.any isHexMark = word.getLast?.any isHexMark := by
    rw [List.getLast?_map, Option.any_map]
    exact congrArg (word.getLast?.any ·) (funext (apply_toLower (by decide)))
  rw [unmarked, unmarked, hlast, List.dropLast_eq_take, List.dropLast_eq_take, List.length_map,
    ← List.map_take]
  split <;> rfl

theorem radixAndDigits_marked {m : Char} {radix : Nat} (h : mark? m = some radix) (c : Char)
    (cs : List Char) : radixAndDigits ('0' :: m :: c :: cs) = (radix, c :: cs) := by
  unfold mark? at h
  split at h <;> cases h <;> rfl

theorem radixAndDigits_unmarked {word : List Char}
    (h : ∀ m c cs, word = '0' :: m :: c :: cs → mark? m = none) :
    radixAndDigits word = unmarked word := by
  unfold radixAndDigits
  extract_lets suffixed
  have hsuffixed : suffixed = unmarked word := by
    simp only [suffixed, unmarked]
    split
    · simp [*, isHexMark]
    · simp [*, isHexMark]
    · rename_i hlower hupper
      cases hlast : word.getLast? with
      | none => rfl
      | some c =>
        have hc : isHexMark c = false := by
          simp only [hlast, Option.some.injEq] at hlower hupper
          simpa [isHexMark] using ⟨hlower, hupper⟩
        simp [hc]
  rw [hsuffixed]
  split
  · rename_i m c cs
    have hm := h m c cs rfl
    split
    all_goals first | rfl | cases hm
  · rfl

theorem radixAndDigits_toLower (word : List Char) :
    radixAndDigits (word.map Char.toLower) =
      Prod.map id (List.map Char.toLower) (radixAndDigits word) := by
  have hmark (m : Char) : mark? m.toLower = mark? m := apply_toLower (by decide) m
  have hzero {c : Char} : c.toLower = '0' ↔ c = '0' := toLower_eq_iff (by decide)
  -- A mark in front wins over an `h` behind, so words with a mark stand apart.
  by_cases h : ∀ m c cs, word = '0' :: m :: c :: cs → mark? m = none
  · have hlower : ∀ m c cs, word.map Char.toLower = '0' :: m :: c :: cs → mark? m = none := by
      intro m c cs hword
      obtain ⟨z, marked, rfl, hz, hmarked⟩ := List.map_eq_cons_iff.1 hword
      obtain ⟨m', digits, rfl, rfl, hdigits⟩ := List.map_eq_cons_iff.1 hmarked
      obtain ⟨c', cs', rfl, -, -⟩ := List.map_eq_cons_iff.1 hdigits
      rw [hmark]
      exact h m' c' cs' (by rw [hzero.1 hz])
    rw [radixAndDigits_unmarked h, radixAndDigits_unmarked hlower, unmarked_toLower]
  · push Not at h
    obtain ⟨m, c, cs, rfl, hm⟩ := h
    obtain ⟨radix, hradix⟩ := Option.ne_none_iff_exists'.1 hm
    rw [radixAndDigits_marked hradix]
    exact radixAndDigits_marked ((hmark m).trans hradix) c.toLower (cs.map Char.toLower)

/-- **Numbers** are the same in either case of their letters. -/
theorem parse?_toLower (word : List Char) : parse? (word.map Char.toLower) = parse? word := by
  rw [parse?, parse?, radixAndDigits_toLower]
  simp only [Prod.map, id_eq, ofDigits?_toLower]

end Numeral

/-! ## Steps of the scanner -/

theorem toList_toLower (s : String) : s.toLower.toList = s.toList.map Char.toLower :=
  String.toList_map

theorem toLower_ofList (cs : List Char) :
    String.ofList (cs.map Char.toLower) = (String.ofList cs).toLower := by
  rw [← String.toList_inj, toList_toLower, String.toList_ofList, String.toList_ofList]

theorem toLower_toLower (s : String) : s.toLower.toLower = s.toLower := by
  rw [String.toLower, String.toLower, String.map_map]
  congr 1
  exact funext Char.toLower_toLower_eq_toLower

namespace Token

theorem takeWhile_toLower {p : Char → Bool} (hp : ∀ c, p c.toLower = p c) (cs : List Char) :
    (cs.map Char.toLower).takeWhile p = (cs.takeWhile p).map Char.toLower := by
  rw [List.takeWhile_map]
  exact congrArg (fun q => (cs.takeWhile q).map Char.toLower) (funext hp)

theorem dropWhile_toLower {p : Char → Bool} (hp : ∀ c, p c.toLower = p c) (cs : List Char) :
    (cs.map Char.toLower).dropWhile p = (cs.dropWhile p).map Char.toLower := by
  rw [List.dropWhile_map]
  exact congrArg (fun q => (cs.dropWhile q).map Char.toLower) (funext hp)

theorem isWordRest_toLower (c : Char) : isWordRest c.toLower = isWordRest c :=
  apply_toLower (by decide) c

theorem isAlphanum_toLower (c : Char) : c.toLower.isAlphanum = c.isAlphanum :=
  apply_toLower (by decide) c

/-- The step on the text in lower case. -/
def Lexeme.lower (l : Lexeme) : Lexeme where
  consumed := l.consumed.map Char.toLower
  token := l.token.map (Prod.map id (List.map Char.toLower))
  rest := l.rest.map Char.toLower

theorem isSegmentName_toLower (word : List Char) :
    isSegmentName (word.map Char.toLower) = isSegmentName word := by
  rw [isSegmentName, isSegmentName, toLower_ofList, toLower_toLower]

theorem blockComment?_toLower (cs : List Char) :
    blockComment? (cs.map Char.toLower) =
      (blockComment? cs).map (Prod.map (List.map Char.toLower) (List.map Char.toLower)) := by
  have hstar {c : Char} : c.toLower = '*' ↔ c = '*' := toLower_eq_iff (by decide)
  have hslash {c : Char} : c.toLower = '/' ↔ c = '/' := toLower_eq_iff (by decide)
  fun_induction blockComment? cs with
  | case1 rest => rfl
  | case2 c cs hopen ih =>
    have hlower : ∀ rest, c.toLower = '*' → cs.map Char.toLower = '/' :: rest → False := by
      intro rest hc hcs
      obtain ⟨d, rest', rfl, hd, -⟩ := List.map_eq_cons_iff.1 hcs
      exact hopen rest' (hstar.1 hc) (by rw [hslash.1 hd])
    rw [List.map_cons, blockComment?.eq_2 _ _ hlower, ih, Option.map_map, Option.map_map]
    rfl
  | case3 => rfl

theorem nameWord_toLower (c : Char) (cs : List Char) :
    nameWord c.toLower (cs.map Char.toLower) = (nameWord c cs).lower := by
  have hcolon {c : Char} : c.toLower = ':' ↔ c = ':' := toLower_eq_iff (by decide)
  have hsegment (word : List Char) :
      isSegmentName (c.toLower :: word.map Char.toLower) = isSegmentName (c :: word) :=
    isSegmentName_toLower (c :: word)
  simp only [nameWord, takeWhile_toLower isWordRest_toLower, dropWhile_toLower isWordRest_toLower]
  cases hrest : cs.dropWhile isWordRest with
  | nil => rfl
  | cons d rest =>
    by_cases hd : d = ':'
    · subst hd
      have hlower : ':'.toLower = ':' := rfl
      simp only [List.map_cons, hlower, hsegment]
      split
      · rfl
      · simp [Lexeme.lower]
    · have hd' : d.toLower ≠ ':' := mt hcolon.1 hd
      simp [hd, hd', Lexeme.plain, Lexeme.lower]

theorem numberWord_toLower (c : Char) (cs : List Char) :
    Parallel (fun l l' => l' = l.lower) (numberWord c cs)
      (numberWord c.toLower (cs.map Char.toLower)) := by
  have hnumber (word : List Char) :
      Numeral.parse? (c.toLower :: word.map Char.toLower) = Numeral.parse? (c :: word) :=
    Numeral.parse?_toLower (c :: word)
  simp only [numberWord, takeWhile_toLower isAlphanum_toLower,
    dropWhile_toLower isAlphanum_toLower, hnumber]
  cases Numeral.parse? (c :: cs.takeWhile Char.isAlphanum) with
  | none => exact .error
  | some n => exact .ok rfl

theorem lineComment_toLower (c : Char) (cs : List Char) :
    lineComment c.toLower (cs.map Char.toLower) = (lineComment c cs).lower := by
  have hline (c : Char) : decide (c.toLower ≠ '\n') = decide (c ≠ '\n') :=
    decide_eq_decide.2 (not_congr (toLower_eq_iff (by decide)))
  rw [lineComment, takeWhile_toLower hline, dropWhile_toLower hline]
  rfl

/-- **A step of the scanner** does not see case, unless it reads a character literal. -/
theorem lexeme_toLower {c : Char} (hc : c ≠ '\'') (cs : List Char) :
    Parallel (fun l l' => l' = l.lower) (lexeme c cs) (lexeme c.toLower (cs.map Char.toLower)) := by
  have hblank : isBlank c.toLower = isBlank c := apply_toLower (by decide) c
  have hdigit : c.toLower.isDigit = c.isDigit := apply_toLower (by decide) c
  have hstart : isWordStart c.toLower = isWordStart c := apply_toLower (by decide) c
  have hmark : punctuation? c.toLower = punctuation? c := apply_toLower (by decide) c
  have hnext {d : Char} (hd : d.isAlpha = false) :
      (cs.map Char.toLower).head? = some d ↔ cs.head? = some d := by
    rw [List.head?_map, Option.map_eq_some_iff]
    constructor
    · rintro ⟨e, he, hed⟩
      rwa [← (toLower_eq_iff hd).1 hed]
    · intro h
      exact ⟨d, h, (toLower_eq_iff hd).2 rfl⟩
  have htail : (cs.map Char.toLower).tail = cs.tail.map Char.toLower := List.map_tail.symm
  have hhash : c.toLower = '#' ↔ c = '#' := toLower_eq_iff (by decide)
  have hslash : c.toLower = '/' ↔ c = '/' := toLower_eq_iff (by decide)
  have hquote : c.toLower = '\'' ↔ c = '\'' := toLower_eq_iff (by decide)
  have hdot : c.toLower = '.' ↔ c = '.' := toLower_eq_iff (by decide)
  have hline : (cs.map Char.toLower).head? = some '/' ↔ cs.head? = some '/' := hnext (by decide)
  have hblock : (cs.map Char.toLower).head? = some '*' ↔ cs.head? = some '*' := hnext (by decide)
  -- No character the scanner branches on is a letter, so both texts take the same branch.
  simp only [lexeme, hblank, hhash, hslash, hline, hblock, hquote, if_neg hc, hdot, hdigit, hstart,
    hmark, htail, lineComment_toLower, nameWord_toLower, blockComment?_toLower,
    takeWhile_toLower isWordRest_toLower, dropWhile_toLower isWordRest_toLower]
  split
  · exact .ok rfl
  split
  · exact .ok rfl
  split
  · exact .ok rfl
  split
  · cases blockComment? cs.tail with
    | none => exact .error
    | some pair => exact .ok rfl
  split
  · exact .ok rfl
  split
  · exact numberWord_toLower c cs
  split
  · exact .ok rfl
  · exact .ok rfl

end Token

/-! ## Scans -/

theorem Cursor.steps_toLower (p : Cursor) (cs : List Char) :
    p.steps (cs.map Char.toLower) = p.steps cs := by
  have hstep (p : Cursor) (c : Char) : p.step c.toLower = p.step c := by
    have hline : c.toLower = '\n' ↔ c = '\n' := toLower_eq_iff (by decide)
    simp only [step, utf8Size_toLower, hline]
  rw [steps, List.foldl_map]
  simp only [hstep]
  rfl

/-- Names in lower case. -/
def Revision.lower : Revision := .ofNames String.toLower

theorem Revision.unseen_lower : Unseen .lower where
  lower := toLower_toLower
  fixed := by decide +kernel
  nowhere := rfl
  cover _ _ := rfl

namespace Token

theorem byteCount_toLower (cs : List Char) : byteCount (cs.map Char.toLower) = byteCount cs := by
  induction cs with
  | nil => rfl
  | cons c cs ih => rw [List.map_cons, byteCount, byteCount, utf8Size_toLower, ih]

theorem Lexeme.tokenAt_lower (l : Lexeme) (p : Cursor) :
    l.lower.tokenAt p = (l.tokenAt p).map (Token.revise .lower) := by
  have hspan : byteCount (scanFrom.spanned l.lower) = byteCount (scanFrom.spanned l) := by
    obtain ⟨consumed, token, rest⟩ := l
    cases token with
    | none => exact byteCount_toLower consumed
    | some t =>
      obtain ⟨kind, text⟩ := t
      cases kind <;> exact byteCount_toLower _
  rw [tokenAt, hspan, tokenAt, Option.map_map, lower, Option.map_map]
  refine congrArg (l.token.map ·) (funext fun t => ?_)
  simp only [Function.comp_apply, Prod.map, id_eq, Token.revise, toLower_ofList]
  rfl

/-- Whether no step of the scanner starts at a quote. -/
def unquotedFrom : Nat → List Char → Bool
  | 0, _ => true
  | _, [] => true
  | fuel + 1, c :: cs =>
    c ≠ '\'' && (lexeme c cs).toOption.all fun l => unquotedFrom fuel l.rest

theorem scanFrom_toLower {fuel : Nat} {cs : List Char} (h : unquotedFrom fuel cs = true)
    (p : Cursor) :
    Parallel (fun ts ts' => ts' = ts.map (Token.revise .lower)) (scanFrom fuel p cs)
      (scanFrom fuel p (cs.map Char.toLower)) := by
  have hend (p : Cursor) : [(⟨.eof, "", p.span 0⟩ : Token)] =
      [(⟨.eof, "", p.span 0⟩ : Token)].map (Token.revise .lower) := by
    rw [List.map_singleton, Token.revise, Revision.unseen_lower.fixed "" (by simp)]
    rfl
  induction fuel generalizing cs p with
  | zero => exact .ok (hend p)
  | succ fuel ih =>
    cases cs with
    | nil => exact .ok (hend p)
    | cons c cs =>
      simp only [unquotedFrom, Bool.and_eq_true, decide_eq_true_eq] at h
      obtain ⟨hc, hrest⟩ := h
      have hstep := lexeme_toLower hc cs
      rw [List.map_cons]
      generalize hl : lexeme c cs = answer at hstep
      generalize hl' : lexeme c.toLower (cs.map Char.toLower) = answer' at hstep
      cases hstep with
      | error =>
        rw [scanFrom_error hl, scanFrom_error hl']
        exact .error
      | @ok l _ hlower =>
        subst hlower
        rw [hl] at hrest
        have hplace : p.steps l.lower.consumed = p.steps l.consumed := p.steps_toLower l.consumed
        rw [scanFrom_ok hl, scanFrom_ok hl', hplace, Lexeme.tokenAt_lower]
        refine (ih hrest (p.steps l.consumed)).map ?_
        rintro tokens _ rfl
        cases l.tokenAt p <;> rfl

theorem unquotedFrom_toLower (fuel : Nat) (cs : List Char) :
    unquotedFrom fuel (cs.map Char.toLower) = unquotedFrom fuel cs := by
  induction fuel generalizing cs with
  | zero => rfl
  | succ fuel ih =>
    cases cs with
    | nil => rfl
    | cons c cs =>
      have hquote : c.toLower = '\'' ↔ c = '\'' := toLower_eq_iff (by decide)
      by_cases hc : c = '\''
      · simp [unquotedFrom, hc]
      · have hstep := lexeme_toLower hc cs
        simp only [List.map_cons, unquotedFrom, ne_eq, hquote, hc]
        generalize lexeme c cs = answer at hstep ⊢
        generalize lexeme c.toLower (cs.map Char.toLower) = answer' at hstep ⊢
        cases hstep with
        | error => rfl
        | @ok l _ hlower =>
          subst hlower
          simp only [toOption_ok, Option.all_some, Lexeme.lower, ih]

/-- Whether a text has no character literals, nor what starts as one. -/
def isUnquoted (source : String) : Bool :=
  unquotedFrom source.toList.length source.toList

end Token

/-! ## Statements -/

namespace Statement

theorem read_toLower {source : String} (h : Token.isUnquoted source = true) :
    (read source.toLower).1 = (read source).1.map (revise .lower) ∧
      ((read source.toLower).2 = [] ↔ (read source).2 = []) := by
  have hscan : Parallel (fun ts ts' => ts' = ts.map (Token.revise .lower)) (Token.scan source)
      (Token.scan source.toLower) := by
    rw [Token.scan, Token.scan, toList_toLower, List.length_map]
    exact Token.scanFrom_toLower h .start
  unfold read
  generalize Token.scan source = answer at hscan
  generalize Token.scan source.toLower = answer' at hscan
  cases hscan with
  | error => simp
  | @ok tokens _ hlower =>
    subst hlower
    simp only [parseTokens_revise Revision.unseen_lower, List.map_eq_nil_iff, and_self]

theorem labelNames_eq_nil {statements : List Statement} (h : labelTotal statements = 0) :
    statements.filterMap labelName? = [] := by
  rw [labelTotal, List.countP_eq_zero] at h
  rw [List.filterMap_eq_nil_iff]
  intro s hs
  have hlabel := h s hs
  cases s with
  | label name span => exact absurd rfl hlabel
  | instruction i => rfl
  | mode m span => rfl

/-- A text without character literals and without label definitions. -/
structure Plain (source : String) : Prop where
  unquoted : Token.isUnquoted source = true
  unlabelled : labelTotal (read source).1 = 0

theorem plain_toLower {source : String} : Plain source.toLower ↔ Plain source := by
  have hquote : Token.isUnquoted source.toLower = Token.isUnquoted source := by
    rw [Token.isUnquoted, toList_toLower, List.length_map, Token.unquotedFrom_toLower]
    rfl
  constructor
  · rintro ⟨hunquoted, hlabels⟩
    rw [hquote] at hunquoted
    rw [(read_toLower hunquoted).1, labelTotal_revise] at hlabels
    exact ⟨hunquoted, hlabels⟩
  · rintro ⟨hunquoted, hlabels⟩
    refine ⟨hquote.trans hunquoted, ?_⟩
    rw [(read_toLower hunquoted).1, labelTotal_revise, hlabels]

end Statement

/-! ## Assembling -/

theorem utf8ByteSize_toLower (s : String) : s.toLower.utf8ByteSize = s.utf8ByteSize := by
  have hlen (cs : List Char) : String.utf8Len (cs.map Char.toLower) = String.utf8Len cs := by
    induction cs with
    | nil => rfl
    | cons c cs ih =>
      rw [List.map_cons, String.utf8Len_cons, String.utf8Len_cons, utf8Size_toLower, ih]
  rw [← String.ofList_toList (s := s), ← toLower_ofList, String.utf8ByteSize_ofList, hlen,
    String.utf8ByteSize_ofList]

namespace Session

/-- The bytes of the session that a call leaves, unless it failed. -/
def Outcome.bytes? (o : Outcome) : Option (List UInt8) :=
  o.result.toOption.bind fun s => s.code?.map Prod.fst

theorem Outcome.bytes?_failed {o : Outcome} (h : o.failure ≠ none) : o.bytes? = none := by
  obtain ⟨s, failure⟩ := o
  cases failure with
  | none => exact absurd rfl h
  | some d => rfl

theorem Outcome.bytes?_done (s : Session) : (done s).bytes? = s.code?.map Prod.fst := rfl

theorem code?_of_errors {s : Session} (h : s.errors ≠ []) : s.code? = none := by
  have hitems : s.items? = none := if_neg (mt List.isEmpty_iff.1 h)
  rw [code?, hitems, Option.bind_none]

/-- A text with errors is not assembled. -/
theorem bytes?_emit_malformed (s : Session) {source : String} (h : (Statement.read source).2 ≠ []) :
    (s.emit source).bytes? = none := by
  by_cases hnone : (s.emit source).failure = none
  · have herrors := errors_emit hnone
    have hsome : (s.emit source).session.errors ≠ [] := by
      rw [herrors, Ne, List.append_eq_nil_iff]
      exact fun hnil => h hnil.2
    have hdone : s.emit source = .done (s.emit source).session := by
      rw [Outcome.done, ← hnone]
    rw [hdone, Outcome.bytes?_done, code?_of_errors hsome, Option.map_none]
  · exact Outcome.bytes?_failed hnone

/-- **A plain text in lower case** is assembled to the bytes of the text, in a session without
source and external symbols. -/
theorem bytes?_emit_toLower {s : Session} (hs : s.statements = []) (hx : s.externals = .empty)
    {source : String} (h : Statement.Plain source) :
    (s.emit source.toLower).bytes? = (s.emit source).bytes? := by
  obtain ⟨hstatements, herrors⟩ := Statement.read_toLower h.unquoted
  by_cases hclean : (Statement.read source).2 = []
  · obtain ⟨hroom, hdone⟩ := s.emit_clean hclean
    obtain ⟨hroom', hdone'⟩ := s.emit_clean (herrors.2 hclean)
    rw [hstatements, utf8ByteSize_toLower, List.length_map, Statement.labelTotal_revise,
      ← hroom] at hroom'
    by_cases hnone : (s.emit source).failure = none
    · -- Names in lower case can meet, but none of them is that of a label.
      have hrevised : Revised .lower (s.extend source.toList (Statement.read source).1)
          (s.extend source.toLower.toList (Statement.read source.toLower).1) :=
        { bounds := rfl
          register := fun n => by simp only [Register.ofName?, Revision.unseen_lower.lower]
          labels := by
            rw [statements_extend, hs, List.nil_append, Statement.labelNames_eq_nil h.unlabelled]
            simp
          statements := by
            rw [statements_extend, statements_extend, hs, List.nil_append, List.nil_append,
              hstatements]
          externals := fun n => by
            simp only [extend, hx]
            rfl
          errors := rfl
          mode := rfl
          base := rfl
          limits := rfl }
      rw [hdone hnone, hdone' (hroom'.2 hnone), Outcome.bytes?_done, Outcome.bytes?_done,
        hrevised.code, Option.map_map]
      rfl
    · rw [Outcome.bytes?_failed hnone, Outcome.bytes?_failed (mt hroom'.1 hnone)]
  · rw [s.bytes?_emit_malformed hclean, s.bytes?_emit_malformed (mt herrors.1 hclean)]

end Session

theorem toOption_assemble (source : String) (mode : Mode) (base : Nat) :
    (assemble source mode base []).toOption =
      (((Session.new mode).setBase base).emit source).bytes? := by
  rw [assemble, toOption_bind]
  refine congrArg (Option.bind _ ·) (funext fun s => ?_)
  rw [← Session.finish_code, toOption_bind, Option.map_map]
  cases s.finish <;> rfl

/-- **The language does not see case.** Two texts without labels and character literals that differ
in the case of letters only are both assembled, to the same bytes, or neither is. -/
theorem assemble_eq_of_toLower_eq {a b : String} (h : Statement.Plain a)
    (hcase : a.toLower = b.toLower) (mode : Mode) (base : Nat) :
    (assemble a mode base []).toOption = (assemble b mode base []).toOption := by
  have hb : Statement.Plain b := by
    rw [← Statement.plain_toLower, ← hcase, Statement.plain_toLower]
    exact h
  have hlower {text : String} (htext : Statement.Plain text) :
      (assemble text.toLower mode base []).toOption = (assemble text mode base []).toOption := by
    rw [toOption_assemble, toOption_assemble, Session.bytes?_emit_toLower rfl rfl htext]
  rw [← hlower h, hcase, hlower hb]

/-- Mnemonics, registers, size words, directives, numbers and a comment in either case. -/
theorem assemble_eq_of_toLower_eq_mixed :
    ∃ a b, a = "Lock ADD dword PTR FS:[eAX+0X1f], 0FH\n.Code16 # Don't\nMov Al, [bX]" ∧
      b = "lock add DWORD ptr fs:[Eax+0x1F], 0fh\n.CODE16 # DON'T\nmOV aL, [Bx]" ∧
      Statement.Plain a ∧ a.toLower = b.toLower ∧
      (assemble a .bits32 0 []).toOption = (assemble b .bits32 0 []).toOption ∧
      (assemble b .bits32 0 []).toOption =
        some [0xF0, 0x64, 0x83, 0x40, 0x1F, 0x0F, 0x8A, 0x07] := by
  have hplain : Statement.Plain
      "Lock ADD dword PTR FS:[eAX+0X1f], 0FH\n.Code16 # Don't\nMov Al, [bX]" :=
    ⟨by decide +kernel, by decide +kernel⟩
  have hcase : "Lock ADD dword PTR FS:[eAX+0X1f], 0FH\n.Code16 # Don't\nMov Al, [bX]".toLower =
      "lock add DWORD ptr fs:[Eax+0x1F], 0fh\n.CODE16 # DON'T\nmOV aL, [Bx]".toLower := by
    rw [← String.toList_inj, toList_toLower, toList_toLower]
    decide +kernel
  exact ⟨_, _, rfl, rfl, hplain, hcase, assemble_eq_of_toLower_eq hplain hcase .bits32 0,
    by decide +kernel⟩

end IntelAsm
