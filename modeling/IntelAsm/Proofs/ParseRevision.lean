/-
What the parser does not see: places, and the case of letters. From tokens at
other places, whose texts differ in case at most, it reads what it reads from
the tokens themselves, with the names and places in it changed alike
(`Statement.parseTokens_revise`).
-/
import IntelAsm.Statement.Parse
import IntelAsm.Proofs.Revision

namespace IntelAsm

/-- A revision that the parser does not see: names keep their letters up to case, the texts that
stand for no name stay, and places are covered as before. -/
structure Revision.Unseen (r : Revision) : Prop where
  lower : ∀ n, (r.name n).toLower = n.toLower
  fixed : ∀ n ∈ ["", "end of line", "end of input"], r.name n = n
  nowhere : r.place .nowhere = .nowhere
  cover : ∀ s t : Span, (r.place s).cover (r.place t) = r.place (s.cover t)

theorem Revision.unseen_bare : Unseen .bare where
  lower _ := rfl
  fixed _ _ := rfl
  nowhere := rfl
  cover _ _ := rfl

/-! ## Revised tokens and failures -/

section Definitions

variable (r : Revision)

def Token.revise (t : Token) : Token := ⟨t.kind, r.name t.text, r.place t.span⟩

@[simp] theorem Token.kind_revise (t : Token) : (t.revise r).kind = t.kind := rfl

@[simp] theorem Token.text_revise (t : Token) : (t.revise r).text = r.name t.text := rfl

@[simp] theorem Token.span_revise (t : Token) : (t.revise r).span = r.place t.span := rfl

/-- The error with another text for the token it shows. -/
def ParseError.rename (name : String → String) : ParseError → ParseError
  | .unexpected found => .unexpected (name found)
  | .afterStatement found => .afterStatement (name found)
  | .unknownDirective word => .unknownDirective (name word)
  | .expected what found => .expected what (name found)
  | .segmentWithoutAddress => .segmentWithoutAddress
  | .unknownCharacter text => .unknownCharacter (name text)
  | .noExpression found => .noExpression (name found)
  | .numberTooWide value => .numberTooWide value

def ParseFailure.revise (f : ParseFailure) : ParseFailure :=
  ⟨f.error.rename r.name, r.place f.span⟩

def ParsedExpr.revise (e : ParsedExpr) : ParsedExpr := ⟨e.expr.rename r.name, r.place e.last⟩

end Definitions

namespace Parsed

variable {α β : Type} {r : Revision}

/-- The outcome of a step with the tokens left revised; `f` revises its result. -/
def revise (r : Revision) (f : α → β) : Parsed α → Parsed β
  | .ok value rest => .ok (f value) (rest.map (Token.revise r))
  | .fail failure rest => .fail (failure.revise r) (rest.map (Token.revise r))

@[simp] theorem revise_ok (f : α → β) (value : α) (rest : List Token) :
    (ok value rest).revise r f = .ok (f value) (rest.map (Token.revise r)) := rfl

/-- What goes on alike from revised tokens gives the same, revised. -/
theorem andThen_revise {γ δ : Type} {f : α → γ} {h : β → δ} {g : α → List Token → Parsed β}
    {g' : γ → List Token → Parsed δ} (p : Parsed α)
    (hg : ∀ value rest, g' (f value) (rest.map (Token.revise r)) = (g value rest).revise r h) :
    (p.revise r f).andThen g' = (p.andThen g).revise r h := by
  cases p with
  | ok value rest => exact hg value rest
  | fail failure rest => rfl

end Parsed

namespace Parse

variable {r : Revision} (hr : r.Unseen)

@[simp] theorem peekKind_revise (ts : List Token) :
    peekKind (ts.map (Token.revise r)) = peekKind ts := by
  cases ts <;> rfl

theorem tail_revise (ts : List Token) :
    (ts.map (Token.revise r)).tail = ts.tail.map (Token.revise r) := by
  cases ts <;> rfl

theorem skipStatement_revise (ts : List Token) :
    skipStatement (ts.map (Token.revise r)) = (skipStatement ts).map (Token.revise r) := by
  rw [skipStatement, List.dropWhile_map]
  rfl

include hr

theorem peek_revise (ts : List Token) : peek (ts.map (Token.revise r)) = (peek ts).revise r := by
  cases ts with
  | nil => rw [List.map_nil, peek, Token.revise, hr.fixed "" (by simp), hr.nowhere]
  | cons t ts => rfl

/-- Messages show the text of a token, or that there is none. -/
theorem shown_revise (t : Token) : (t.revise r).shown = r.name t.shown := by
  simp only [Token.shown, Token.kind_revise, Token.text_revise]
  split
  · exact (hr.fixed _ (by simp)).symm
  · exact (hr.fixed _ (by simp)).symm
  · rfl

/-! ## Expressions -/

omit hr in
theorem number_revise (n : Int) (span last : Span) (rest : List Token) :
    number n (r.place span) (r.place last) (rest.map (Token.revise r)) =
      (number n span last rest).revise r (ParsedExpr.revise r) := by
  unfold number literal
  by_cases h : Int64.minValue.toInt ≤ n ∧ n < UInt64.size
  · simp only [if_pos h]
    rfl
  · simp only [if_neg h]
    rfl

theorem noExpression_revise (t : Token) (rest : List Token) :
    noExpression (t.revise r) (rest.map (Token.revise r)) =
      (noExpression t rest).revise r (ParsedExpr.revise r) := by
  unfold noExpression
  rw [Token.kind_revise, shown_revise hr]
  split <;> rfl

/-- The productions of expressions read revised tokens alike. -/
structure ExprRevised (r : Revision) (fuel : Nat) : Prop where
  sum (ts : List Token) :
    Parse.sum fuel (ts.map (Token.revise r)) =
      (Parse.sum fuel ts).revise r (ParsedExpr.revise r)
  sumTail (left : ParsedExpr) (ts : List Token) :
    Parse.sumTail fuel (left.revise r) (ts.map (Token.revise r)) =
      (Parse.sumTail fuel left ts).revise r (ParsedExpr.revise r)
  product (ts : List Token) :
    Parse.product fuel (ts.map (Token.revise r)) =
      (Parse.product fuel ts).revise r (ParsedExpr.revise r)
  productTail (left : ParsedExpr) (ts : List Token) :
    Parse.productTail fuel (left.revise r) (ts.map (Token.revise r)) =
      (Parse.productTail fuel left ts).revise r (ParsedExpr.revise r)
  signed (ts : List Token) :
    Parse.signed fuel (ts.map (Token.revise r)) =
      (Parse.signed fuel ts).revise r (ParsedExpr.revise r)
  atom (ts : List Token) :
    Parse.atom fuel (ts.map (Token.revise r)) =
      (Parse.atom fuel ts).revise r (ParsedExpr.revise r)

section Step

variable {fuel : Nat} (ih : ExprRevised r fuel)

include ih

omit hr in
theorem sumTail_revise_step (left : ParsedExpr) (ts : List Token) :
    sumTail (fuel + 1) (left.revise r) (ts.map (Token.revise r)) =
      (sumTail (fuel + 1) left ts).revise r (ParsedExpr.revise r) := by
  simp only [sumTail, peekKind_revise, tail_revise]
  cases additive? (peekKind ts) with
  | none => rfl
  | some op =>
    simp only [ih.product]
    refine Parsed.andThen_revise _ fun right rest => ?_
    exact ih.sumTail ⟨.binary op left.expr right.expr, right.last⟩ rest

omit hr in
theorem productTail_revise_step (left : ParsedExpr) (ts : List Token) :
    productTail (fuel + 1) (left.revise r) (ts.map (Token.revise r)) =
      (productTail (fuel + 1) left ts).revise r (ParsedExpr.revise r) := by
  simp only [productTail, peekKind_revise, tail_revise]
  cases multiplicative? (peekKind ts) with
  | none => rfl
  | some op =>
    simp only [ih.signed]
    refine Parsed.andThen_revise _ fun right rest => ?_
    exact ih.productTail ⟨.binary op left.expr right.expr, right.last⟩ rest

theorem signed_revise_step (ts : List Token) :
    signed (fuel + 1) (ts.map (Token.revise r)) =
      (signed (fuel + 1) ts).revise r (ParsedExpr.revise r) := by
  simp only [signed, peekKind_revise, tail_revise, peek_revise hr, Token.span_revise, hr.cover]
  cases sign? (peekKind ts) with
  | none => exact ih.atom ts
  | some op =>
    simp only
    split
    · exact number_revise _ _ _ _
    · rw [ih.signed]
      exact Parsed.andThen_revise _ fun inner rest => rfl

theorem atom_revise_step (ts : List Token) :
    atom (fuel + 1) (ts.map (Token.revise r)) =
      (atom (fuel + 1) ts).revise r (ParsedExpr.revise r) := by
  simp only [atom, peek_revise hr, Token.kind_revise, tail_revise]
  split
  · exact number_revise _ _ _ _
  · rfl
  · rw [ih.sum]
    refine Parsed.andThen_revise _ fun inner rest => ?_
    simp only [peek_revise hr, Token.kind_revise, tail_revise, shown_revise hr]
    split <;> rfl
  · exact noExpression_revise hr _ _

end Step

theorem exprRevised (fuel : Nat) : ExprRevised r fuel := by
  induction fuel with
  | zero =>
    have hnone (ts : List Token) :
        noExpression (peek (ts.map (Token.revise r))) (ts.map (Token.revise r)).tail =
          (noExpression (peek ts) ts.tail).revise r (ParsedExpr.revise r) := by
      rw [peek_revise hr, tail_revise, noExpression_revise hr]
    exact ⟨hnone, fun _ _ => rfl, hnone, fun _ _ => rfl, hnone, hnone⟩
  | succ fuel ih =>
    refine ⟨fun ts => ?_, sumTail_revise_step ih, fun ts => ?_, productTail_revise_step ih,
      signed_revise_step hr ih, atom_revise_step hr ih⟩
    · rw [sum, sum, ih.product]
      exact Parsed.andThen_revise _ ih.sumTail
    · rw [product, product, ih.signed]
      exact Parsed.andThen_revise _ ih.productTail

theorem expr_revise (ts : List Token) :
    expr (ts.map (Token.revise r)) = (expr ts).revise r (ParsedExpr.revise r) := by
  rw [expr, expr, List.length_map]
  exact (exprRevised hr _).sum ts

/-! ## Operands -/

theorem size_revise (ts : List Token) :
    size (ts.map (Token.revise r)) = ((size ts).1, (size ts).2.map (Token.revise r)) := by
  have hptr (us : List Token) : atWord "ptr" (us.map (Token.revise r)) = atWord "ptr" us := by
    simp only [atWord, peekKind_revise, peek_revise hr, Token.text_revise, hr.lower]
  have hword (n : String) : sizeWord? (r.name n) = sizeWord? n := by
    simp only [sizeWord?, hr.lower]
  simp only [size, peek_revise hr, Token.kind_revise, Token.text_revise, tail_revise,
    peekKind_revise, hptr, hword]
  split
  · rfl
  · split
    · rfl
    · split <;> rfl

theorem segment_revise (ts : List Token) :
    segment (ts.map (Token.revise r)) = ((segment ts).1, (segment ts).2.map (Token.revise r)) := by
  have hname (n : String) : Register.ofName? (r.name n) = Register.ofName? n := by
    simp only [Register.ofName?, hr.lower]
  simp only [segment, peek_revise hr, Token.kind_revise, Token.text_revise, tail_revise,
    peekKind_revise, hname]
  split
  · split <;> rfl
  · rfl

theorem address_revise (width : Option Width) (distance : Bool) (outer : Option Register)
    (start : Span) (ts : List Token) :
    address width distance outer (r.place start) (ts.map (Token.revise r)) =
      (address width distance outer start ts).revise r (ParsedOperand.revise r) := by
  have hsegment (us : List Token) :
      (if outer.isNone then segment (us.map (Token.revise r))
        else (outer, us.map (Token.revise r))) =
        ((if outer.isNone then segment us else (outer, us)).1,
          (if outer.isNone then segment us else (outer, us)).2.map (Token.revise r)) := by
    split
    · exact segment_revise hr us
    · rfl
  simp only [address, size_revise hr, hsegment, expr_revise hr]
  refine Parsed.andThen_revise _ fun e rest => ?_
  simp only [peek_revise hr, Token.kind_revise, Token.span_revise, tail_revise, hr.cover,
    shown_revise hr]
  split <;> rfl

theorem operand_revise (ts : List Token) :
    operand (ts.map (Token.revise r)) = (operand ts).revise r (ParsedOperand.revise r) := by
  have hdistance (n : String) : isDistanceWord (r.name n) = isDistanceWord n := by
    simp only [isDistanceWord, hr.lower]
  simp only [operand, peek_revise hr, Token.kind_revise, Token.text_revise, Token.span_revise,
    size_revise hr, segment_revise hr, peekKind_revise, tail_revise, expr_revise hr, hdistance]
  split
  · exact address_revise hr _ _ _ _ _
  · split
    · rfl
    · refine Parsed.andThen_revise _ fun e rest => ?_
      simp only [Parsed.revise_ok, ParsedExpr.revise, ParsedOperand.revise, hr.cover]

theorem operands_revise (fuel : Nat) (ts : List Token) :
    operands fuel (ts.map (Token.revise r)) =
      (operands fuel ts).revise r (List.map (ParsedOperand.revise r)) := by
  induction fuel generalizing ts with
  | zero => rfl
  | succ fuel ih =>
    rw [operands, operands, operand_revise hr]
    refine Parsed.andThen_revise _ fun o rest => ?_
    simp only [peekKind_revise, tail_revise, ih]
    split
    · exact Parsed.andThen_revise _ fun os rest => rfl
    · rfl

/-! ## Statements -/

theorem prefixes_revise (last : Token) (ts : List Token) :
    prefixes (last.revise r) (ts.map (Token.revise r)) =
      ((prefixes last ts).1, (prefixes last ts).2.1.revise r,
        (prefixes last ts).2.2.map (Token.revise r)) := by
  have hword (n : String) : Prefix.ofWord? (r.name n) = Prefix.ofWord? n := by
    simp only [Prefix.ofWord?, hr.lower]
  induction ts generalizing last with
  | nil => rfl
  | cons t ts ih =>
    simp only [List.map_cons, prefixes, Token.text_revise, Token.kind_revise, hword, ih]
    split
    · rfl
    · split <;> rfl

theorem foldl_cover_revise (os : List ParsedOperand) (span : Span) :
    (os.map (ParsedOperand.revise r)).foldl (fun s o => s.cover o.span) (r.place span) =
      r.place (os.foldl (fun s o => s.cover o.span) span) := by
  induction os generalizing span with
  | nil => rfl
  | cons o os ih =>
    have hcover : (r.place span).cover (o.revise r).span = r.place (span.cover o.span) :=
      hr.cover span o.span
    rw [List.map_cons, List.foldl_cons, hcover, ih, List.foldl_cons]

theorem instruction_revise (first : Token) (ts : List Token) :
    instruction (first.revise r) (ts.map (Token.revise r)) =
      (instruction first ts).revise r (ParsedInstruction.revise r) := by
  simp only [instruction, prefixes_revise hr, peekKind_revise, Token.span_revise,
    Token.text_revise, hr.lower, hr.cover, List.length_map, operands_revise hr]
  split
  · rfl
  · refine Parsed.andThen_revise _ fun os rest => ?_
    simp only [foldl_cover_revise hr, Parsed.revise_ok, ParsedInstruction.revise]

theorem directive_revise (t : Token) (ts : List Token) :
    directive (t.revise r) (ts.map (Token.revise r)) =
      (directive t ts).revise r (List.map (Statement.revise r)) := by
  simp only [directive, Token.text_revise, Token.span_revise, hr.lower, skipStatement_revise]
  split <;> rfl

theorem command_revise (ts : List Token) :
    command (ts.map (Token.revise r)) =
      (command ts).revise r (List.map (Statement.revise r)) := by
  simp only [command, peek_revise hr, Token.kind_revise, tail_revise, shown_revise hr]
  split
  · exact directive_revise hr _ _
  · rw [instruction_revise hr]
    exact Parsed.andThen_revise _ fun i rest => rfl
  · rfl

omit hr in
/-- The line with its statements, its failure and the tokens left revised. -/
def Line.revise (r : Revision) (l : Line) : Line :=
  ⟨l.statements.map (Statement.revise r), l.failure.map (ParseFailure.revise r),
    l.rest.map (Token.revise r)⟩

theorem commandLine_revise (ts : List Token) :
    commandLine (ts.map (Token.revise r)) = (commandLine ts).revise r := by
  rw [commandLine, commandLine, command_revise hr]
  cases command ts with
  | fail failure rest => rfl
  | ok statements rest =>
    simp only [Parsed.revise_ok, peek_revise hr, Token.kind_revise, shown_revise hr]
    split <;> rfl

theorem line_revise (ts : List Token) :
    line (ts.map (Token.revise r)) = (line ts).revise r := by
  simp only [line, peek_revise hr, Token.kind_revise, tail_revise, peekKind_revise,
    commandLine_revise hr]
  split
  · split <;> rfl
  · rfl

theorem lines_revise (fuel : Nat) (ts : List Token) :
    lines fuel (ts.map (Token.revise r)) =
      ((lines fuel ts).1.map (Statement.revise r),
        (lines fuel ts).2.map (ParseFailure.revise r)) := by
  induction fuel generalizing ts with
  | zero => rfl
  | succ fuel ih =>
    simp only [lines, peekKind_revise, tail_revise, line_revise hr, Line.revise,
      skipStatement_revise, ih]
    split
    · rfl
    · rfl
    · cases (line ts).failure <;> simp

end Parse

/-- **The parser sees neither places nor the case of letters.** -/
theorem Statement.parseTokens_revise {r : Revision} (hr : r.Unseen) (ts : List Token) :
    parseTokens (ts.map (Token.revise r)) =
      ((parseTokens ts).1.map (revise r), (parseTokens ts).2.map (ParseFailure.revise r)) := by
  rw [parseTokens, List.length_map, Parse.lines_revise hr]
  rfl

end IntelAsm
