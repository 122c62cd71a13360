/-
Source text in pieces. The scanner can be started again behind any line end in
front of which it stands between tokens, so two texts joined by a line end have
the tokens of both, up to places (`Token.Scanned.join`), and, where the parser
does not consume the line end, the statements of both (`Statement.read_join`).
Since places do not matter to what a session is assembled to, it is the same
whether two well-formed texts are added one by one or as one text
(`Session.emit_in_pieces`).
-/
import IntelAsm.Proofs.LineRecovery
import IntelAsm.Proofs.ParseRevision
import IntelAsm.Proofs.PlaceRevision
import IntelAsm.Proofs.SessionCode
import IntelAsm.Proofs.SessionFacts

namespace IntelAsm

/-! ## Tokens -/

namespace Token

/-- The end of input at no place. -/
def inputEnd : Token := ⟨.eof, "", .nowhere⟩

/-- A line end at no place. -/
def lineEnd : Token := ⟨.newline, "\n", .nowhere⟩

/-- The bare token of a step, if it gives one. -/
def Lexeme.bareToken? (l : Lexeme) : Option Token :=
  l.token.map fun t => ⟨t.1, String.ofList t.2, .nowhere⟩

theorem Lexeme.map_revise_tokenAt (l : Lexeme) (p : Cursor) :
    (l.tokenAt p).toList.map (revise .bare) = l.bareToken?.toList := by
  rw [tokenAt, bareToken?]
  cases l.token <;> rfl

/-- The bare tokens of a text, without the end of input. -/
inductive Scanned : List Char → List Token → Prop where
  | nil : Scanned [] []
  | step {c : Char} {cs : List Char} {l : Lexeme} {ts : List Token} (hl : lexeme c cs = .ok l)
      (hrest : Scanned l.rest ts) : Scanned (c :: cs) (l.bareToken?.toList ++ ts)

theorem scanned_of_scanFrom {fuel : Nat} {p : Cursor} {cs : List Char} {tokens : List Token}
    (hfuel : cs.length ≤ fuel) (h : scanFrom fuel p cs = .ok tokens) :
    ∃ ts, Scanned cs ts ∧ tokens.map (revise .bare) = ts ++ [inputEnd] := by
  induction fuel generalizing p cs tokens with
  | zero =>
    obtain rfl := List.eq_nil_of_length_eq_zero (Nat.le_zero.1 hfuel)
    cases h
    exact ⟨[], .nil, rfl⟩
  | succ fuel ih =>
    cases cs with
    | nil =>
      cases h
      exact ⟨[], .nil, rfl⟩
    | cons c cs =>
      cases hl : lexeme c cs with
      | error e =>
        rw [scanFrom_error hl] at h
        cases h
      | ok l =>
        rw [scanFrom_ok hl, map_eq_ok] at h
        obtain ⟨rest, hrest, rfl⟩ := h
        have hlen : l.rest.length ≤ fuel :=
          Nat.le_of_lt_succ (Nat.lt_of_lt_of_le (lexeme_tiles hl).length_lt hfuel)
        obtain ⟨ts, hts, hbare⟩ := ih hlen hrest
        refine ⟨_, .step hl hts, ?_⟩
        rw [List.map_append, Lexeme.map_revise_tokenAt, hbare, List.append_assoc]

namespace Scanned

variable {as bs cs : List Char} {ts us : List Token}

/-- The scanner gives these tokens from any place, given a step for each character. -/
theorem scanFrom (h : Scanned cs ts) {fuel : Nat} (hfuel : cs.length ≤ fuel) (p : Cursor) :
    ∃ tokens, Token.scanFrom fuel p cs = .ok tokens ∧
      tokens.map (revise .bare) = ts ++ [inputEnd] := by
  induction h generalizing fuel p with
  | nil => cases fuel <;> exact ⟨_, rfl, rfl⟩
  | @step c cs l ts hl _ ih =>
    obtain ⟨fuel, rfl⟩ : ∃ k, fuel = k + 1 := ⟨fuel - 1, by rw [List.length_cons] at hfuel; omega⟩
    have hlen : l.rest.length ≤ fuel :=
      Nat.le_of_lt_succ (Nat.lt_of_lt_of_le (lexeme_tiles hl).length_lt hfuel)
    obtain ⟨tokens, hscan, hbare⟩ := ih hlen (p.steps l.consumed)
    refine ⟨_, by rw [scanFrom_ok hl, hscan]; rfl, ?_⟩
    rw [List.map_append, Lexeme.map_revise_tokenAt, hbare, List.append_assoc]

theorem kind_ne_eof (h : Scanned cs ts) : ∀ t ∈ ts, t.kind ≠ .eof := by
  induction h with
  | nil => simp
  | @step c cs l ts hl _ ih =>
    intro t ht
    rcases List.mem_append.1 ht with ht | ht
    · obtain ⟨pair, hpair, rfl⟩ := Option.map_eq_some_iff.1 (Option.mem_toList.1 ht)
      exact lexeme_ne_eof hl hpair
    · exact ih t ht

/-- **Texts joined by a line end** have the tokens of both. -/
theorem join (ha : Scanned as ts) (hb : Scanned bs us) :
    Scanned (as ++ '\n' :: bs) (ts ++ lineEnd :: us) := by
  induction ha with
  | nil =>
    have hline : lexeme '\n' bs = .ok (.plain .newline ['\n'] bs) := rfl
    exact .step hline hb
  | @step c cs l ts hl _ ih =>
    have hstep : Scanned (c :: (cs ++ '\n' :: bs))
        ((l.followedBy ('\n' :: bs)).bareToken?.toList ++ (ts ++ lineEnd :: us)) :=
      .step (lexeme_line hl bs) ih
    rw [List.append_assoc]
    exact hstep

end Scanned
end Token

/-! ## Statements -/

namespace Statement

open Token (Scanned inputEnd lineEnd)

theorem exists_scanned {source : String} (h : (read source).2 = []) :
    ∃ ts, Scanned source.toList ts := by
  unfold read at h
  cases hscan : Token.scan source with
  | error d =>
    rw [hscan] at h
    cases h
  | ok tokens =>
    obtain ⟨ts, hts, -⟩ := Token.scanned_of_scanFrom (Nat.le_refl _) hscan
    exact ⟨ts, hts⟩

/-- What a text gives is what its bare tokens give, up to places. -/
theorem read_scanned {source : String} {ts : List Token} (h : Scanned source.toList ts) :
    (read source).1.map (revise .bare) = (parseTokens (ts ++ [inputEnd])).1 ∧
      ((read source).2 = [] ↔ (parseTokens (ts ++ [inputEnd])).2 = []) := by
  obtain ⟨tokens, hscan, hbare⟩ := h.scanFrom (Nat.le_refl _) .start
  have hread : read source =
      ((parseTokens tokens).1, (parseTokens tokens).2.map ParseFailure.diagnostic) := by
    have hsource : Token.scan source = .ok tokens := hscan
    simp only [read, hsource]
  rw [← hbare, parseTokens_revise Revision.unseen_bare, hread]
  exact ⟨rfl, by rw [List.map_eq_nil_iff, List.map_eq_nil_iff]⟩

/-- **Well-formed texts joined by a line end** are well formed and have the statements of both. -/
theorem read_join {a b : String} (ha : (read a).2 = []) (hb : (read b).2 = []) :
    (read (a ++ "\n" ++ b)).2 = [] ∧
      (read (a ++ "\n" ++ b)).1.map (revise .bare) =
        (read a).1.map (revise .bare) ++ (read b).1.map (revise .bare) := by
  obtain ⟨ts, hts⟩ := exists_scanned ha
  obtain ⟨us, hus⟩ := exists_scanned hb
  have htext : (a ++ "\n" ++ b).toList = a.toList ++ '\n' :: b.toList := by simp
  obtain ⟨hstatements, herrors⟩ := read_scanned (htext ▸ hts.join hus)
  obtain ⟨hfirst, hfirstErrors⟩ := read_scanned hts
  obtain ⟨hsecond, hsecondErrors⟩ := read_scanned hus
  have heof : inputEnd.kind = .eof := rfl
  have hnewline : lineEnd.kind = .newline := rfl
  obtain ⟨hjoins, hover⟩ := parseTokens_joins heof hnewline hts.kind_ne_eof hus.kind_ne_eof
  -- A text without errors is not consumed past its end.
  have hstays : Parse.overruns ts = false := by
    cases hover' : Parse.overruns ts with
    | false => rfl
    | true =>
      have hlast := hover hover'
      rw [hfirstErrors.1 ha] at hlast
      cases hlast
  rw [hstays] at hjoins
  have hnone := hjoins.failures
  have hboth := hjoins.statements
  simp only [Bool.false_eq_true, if_false] at hnone hboth
  rw [hfirstErrors.1 ha, hsecondErrors.1 hb, List.append_nil, List.forall₂_nil_left_iff] at hnone
  rw [List.append_assoc, List.cons_append] at hstatements herrors
  rw [herrors, hstatements, hfirst, hsecond]
  exact ⟨hnone, hboth⟩

theorem isLabel_revise (r : Revision) (s : Statement) : (s.revise r).isLabel = s.isLabel := by
  cases s <;> rfl

theorem labelTotal_revise (r : Revision) (statements : List Statement) :
    labelTotal (statements.map (revise r)) = labelTotal statements := by
  rw [labelTotal, List.countP_map]
  exact List.countP_congr fun s _ => by rw [Function.comp_apply, isLabel_revise]

end Statement

/-! ## Sessions -/

theorem Assembly.code_bare (a : Assembly) : a.bare.code = a.code := by
  simp only [code, bare, List.map_map]
  rfl

namespace Session

/-- A text without errors is taken if it keeps the limits of its bytes, statements and labels. -/
theorem emit_clean (s : Session) {source : String} (h : (Statement.read source).2 = []) :
    ((s.emit source).failure = none ↔
      source.utf8ByteSize ≤ s.limits.sourceBytes ∧
        s.entries.length + (Statement.read source).1.length ≤ s.limits.statements ∧
        (Statement.labelTotal (Statement.read source).1 = 0 ∨
          s.labelCount + Statement.labelTotal (Statement.read source).1 ≤ s.limits.labels)) ∧
      ((s.emit source).failure = none →
        s.emit source = .done (s.extend source.toList (Statement.read source).1)) := by
  rcases s.emit_cases source with ⟨hlong, hemit⟩ | ⟨-, d, hread, -⟩ | ⟨hsize, hemit⟩
  · simp only [hemit, reduceCtorEq, false_iff, false_implies, and_true]
    omega
  · rw [hread] at h
    cases h
  · rw [h, recordErrors, Outcome.andThen_done] at hemit
    rw [hemit]
    split
    · simp only [reduceCtorEq, false_iff, false_implies, and_true]
      omega
    · rcases addStatements_cases source.toList s (Statement.read source).1 with
        ⟨hadd, hroom⟩ | ⟨before, name, span, after, hsplit, hmany, hadd⟩
      · rw [hadd]
        simp only [Outcome.done, true_iff, forall_const, and_true]
        exact ⟨hsize, by omega, hroom⟩
      · rw [hadd, hsplit, Statement.labelTotal_append, Statement.labelTotal_label]
        simp only [reduceCtorEq, false_iff, false_implies, and_true, false_or]
        omega

/-- Adds texts in turn, up to the first that fails. -/
def emitInTurn (s : Session) (a b : String) : Outcome := (s.emit a).andThen fun s => s.emit b

/-- Sessions that differ in the places of their statements only. -/
structure Alike (s t : Session) : Prop where
  statements : s.statements.map (Statement.revise .bare) = t.statements.map (Statement.revise .bare)
  /-- Both are assembled to the same code, or neither is. -/
  code : s.finish.toOption.map Assembly.code = t.finish.toOption.map Assembly.code
  /-- If neither is, the diagnostics are the same up to places. -/
  outcome : revisedAnswer .bare Assembly.bare s.finish = revisedAnswer .bare Assembly.bare t.finish

theorem alike_of_bare {s t : Session} (h : s.bare = t.bare) : Alike s t := by
  have houtcome : revisedAnswer .bare Assembly.bare s.finish =
      revisedAnswer .bare Assembly.bare t.finish := by
    rw [← finish_bare, ← finish_bare, h]
  have hcode (x : Except Diagnostic Assembly) :
      x.toOption.map Assembly.code =
        (revisedAnswer .bare Assembly.bare x).toOption.map Assembly.code := by
    cases x with
    | error d => rfl
    | ok a => exact congrArg some a.code_bare.symm
  refine ⟨?_, ?_, houtcome⟩
  · rw [← statements_bare, ← statements_bare, h]
  · rw [hcode, houtcome, ← hcode]

theorem bare_extend (s : Session) (source : List Char) (sts : List Statement) :
    (s.extend source sts).bare =
      { s.bare with
        entries := s.bare.entries ++ (sts.map (Statement.revise .bare)).map fun st => ⟨st, none⟩
        labelCount := s.labelCount + Statement.labelTotal sts } := by
  simp only [bare, extend, List.map_append, List.map_map]
  congr 2
  refine List.map_congr_left fun st _ => ?_
  simp only [Function.comp_apply, statement_entryOf]

/-- **Pieces do not matter.** Two texts without errors can be added in turn exactly if they can be
added as one text, and the sessions are then assembled alike. -/
theorem emit_in_pieces (s : Session) {a b : String} (ha : (Statement.read a).2 = [])
    (hb : (Statement.read b).2 = [])
    (hsize : (a ++ "\n" ++ b).utf8ByteSize ≤ s.limits.sourceBytes) :
    ((s.emitInTurn a b).failure = none ↔ (s.emit (a ++ "\n" ++ b)).failure = none) ∧
      ((s.emit (a ++ "\n" ++ b)).failure = none →
        Alike (s.emitInTurn a b).session (s.emit (a ++ "\n" ++ b)).session) := by
  obtain ⟨hjoined, hstatements⟩ := Statement.read_join ha hb
  have hlength := congrArg List.length hstatements
  have hlabels := congrArg Statement.labelTotal hstatements
  simp only [List.length_map, List.length_append, Statement.labelTotal_append,
    Statement.labelTotal_revise] at hlength hlabels
  have hbytes : (a ++ "\n" ++ b).utf8ByteSize = a.utf8ByteSize + 1 + b.utf8ByteSize := by
    rw [String.utf8ByteSize_append, String.utf8ByteSize_append]
    rfl
  obtain ⟨hwhole, hwholeDone⟩ := s.emit_clean hjoined
  obtain ⟨hfirst, hfirstDone⟩ := s.emit_clean ha
  obtain ⟨hsecond, hsecondDone⟩ :=
    (s.extend a.toList (Statement.read a).1).emit_clean hb
  have hturn : (s.emitInTurn a b).failure = none ↔ (s.emit a).failure = none ∧
      ((s.extend a.toList (Statement.read a).1).emit b).failure = none := by
    rw [emitInTurn, Outcome.andThen_eq_none]
    exact and_congr_right fun hnone => by rw [hfirstDone hnone]; rfl
  have hiff : (s.emitInTurn a b).failure = none ↔ (s.emit (a ++ "\n" ++ b)).failure = none := by
    rw [hturn, hfirst, hsecond, hwhole, hlength, hlabels]
    simp only [extend, List.length_append, List.length_map]
    omega
  refine ⟨hiff, fun hnone => ?_⟩
  obtain ⟨hfirstNone, hsecondNone⟩ := hturn.1 (hiff.2 hnone)
  rw [emitInTurn, hfirstDone hfirstNone, Outcome.andThen_done, hsecondDone hsecondNone,
    hwholeDone hnone]
  refine alike_of_bare ?_
  simp only [Outcome.done, bare_extend, hstatements, hlabels, List.map_append, List.append_assoc]
  simp only [bare, extend, Nat.add_assoc]

/-- A comment up to the line end, and jumps across it both ways. -/
theorem emit_in_pieces_comment :
    ∃ s : Session, s = new .bits64 ∧ (Statement.read "a: jmp b # on").2 = [] ∧
      (Statement.read "b: /* \n */ jmp a").2 = [] ∧
      (s.emit ("a: jmp b # on" ++ "\n" ++ "b: /* \n */ jmp a")).failure = none ∧
      Alike (s.emitInTurn "a: jmp b # on" "b: /* \n */ jmp a").session
        (s.emit ("a: jmp b # on" ++ "\n" ++ "b: /* \n */ jmp a")).session ∧
      (s.emitInTurn "a: jmp b # on" "b: /* \n */ jmp a").session.finish.toOption.map Assembly.code =
        some ([0xE9, 0, 0, 0, 0, 0xE9, 0xF6, 0xFF, 0xFF, 0xFF], [("a", 0), ("b", 5)], [0, 5]) := by
  have ha : (Statement.read "a: jmp b # on").2.isEmpty = true := by decide +kernel
  have hb : (Statement.read "b: /* \n */ jmp a").2.isEmpty = true := by decide +kernel
  have hsize : ("a: jmp b # on" ++ "\n" ++ "b: /* \n */ jmp a").utf8ByteSize ≤
      (new .bits64).limits.sourceBytes := by decide +kernel
  have hnone : ((new .bits64).emit
      ("a: jmp b # on" ++ "\n" ++ "b: /* \n */ jmp a")).failure.isNone = true := by decide +kernel
  rw [List.isEmpty_iff] at ha hb
  rw [Option.isNone_iff_eq_none] at hnone
  exact ⟨_, rfl, ha, hb, hnone, ((new .bits64).emit_in_pieces ha hb hsize).2 hnone,
    by decide +kernel⟩

end Session
end IntelAsm
