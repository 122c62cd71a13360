/-
What is kept of malformed lines. A command fails before its statement is whole
(`Parse.command_failsInside`), and then nothing of the line is kept but its label.
Tokens behind a whole statement are reported too, and there the statement is kept
all the same (`Parse.line_eq_failure`).

The lines are read in order and each once at most, from the first token on or
from behind an end of a line (`Parse.reads_sublist`), and what the parser gives is
what they give (`Parse.lines_eq_reads`). So every failure belongs to one line, and
every line has one at most (`Statement.parseTokens_reported`).
-/
import IntelAsm.Proofs.LineRecovery
import IntelAsm.Proofs.SessionFacts

namespace IntelAsm

/-! ## Failures inside a command -/

/-- The failure behind a whole statement. -/
def ParseError.isTrailing : ParseError → Bool
  | .afterStatement _ => true
  | _ => false

namespace Parsed

variable {α β : Type}

/-- A step that fails before its statement is whole, if it fails. -/
def FailsInside (p : Parsed α) : Prop := ∀ f rest, p = .fail f rest → f.error.isTrailing = false

namespace FailsInside

theorem ok (value : α) (rest : List Token) : (Parsed.ok value rest).FailsInside := nofun

theorem fail {f : ParseFailure} {rest : List Token} (h : f.error.isTrailing = false) :
    (Parsed.fail f rest : Parsed α).FailsInside := by
  intro f' rest' heq
  cases heq
  exact h

theorem andThen {p : Parsed α} {g : α → List Token → Parsed β} (hp : p.FailsInside)
    (hg : ∀ value rest, (g value rest).FailsInside) : (p.andThen g).FailsInside := by
  cases p with
  | ok value rest => exact hg value rest
  | fail f rest => exact .fail (hp f rest rfl)

end FailsInside
end Parsed

namespace Parse

open Parsed (FailsInside)

theorem number_failsInside (n : Int) (span last : Span) (rest : List Token) :
    (number n span last rest).FailsInside := by
  unfold number
  split
  · exact .ok _ _
  · rename_i f hf
    unfold literal at hf
    split at hf <;> cases hf
    exact .fail rfl

theorem noExpression_failsInside (t : Token) (rest : List Token) :
    (noExpression t rest).FailsInside := by
  unfold noExpression
  split
  · exact .fail rfl
  · exact .fail rfl

/-- The productions of expressions fail inside. -/
structure ExprFailsInside (fuel : Nat) : Prop where
  sum : ∀ ts, (Parse.sum fuel ts).FailsInside
  sumTail : ∀ left ts, (Parse.sumTail fuel left ts).FailsInside
  product : ∀ ts, (Parse.product fuel ts).FailsInside
  productTail : ∀ left ts, (Parse.productTail fuel left ts).FailsInside
  signed : ∀ ts, (Parse.signed fuel ts).FailsInside
  atom : ∀ ts, (Parse.atom fuel ts).FailsInside

theorem exprFailsInside (fuel : Nat) : ExprFailsInside fuel := by
  induction fuel with
  | zero =>
    exact ⟨fun ts => noExpression_failsInside _ _, fun left ts => .ok _ _,
      fun ts => noExpression_failsInside _ _, fun left ts => .ok _ _,
      fun ts => noExpression_failsInside _ _, fun ts => noExpression_failsInside _ _⟩
  | succ fuel ih =>
    constructor
    case sum =>
      intro ts
      rw [Parse.sum]
      exact (ih.product ts).andThen fun left rest => ih.sumTail left rest
    case product =>
      intro ts
      rw [Parse.product]
      exact (ih.signed ts).andThen fun left rest => ih.productTail left rest
    case sumTail =>
      intro left ts
      rw [Parse.sumTail]
      split
      · exact .ok _ _
      · exact (ih.product _).andThen fun right rest => ih.sumTail _ rest
    case productTail =>
      intro left ts
      rw [Parse.productTail]
      split
      · exact .ok _ _
      · exact (ih.signed _).andThen fun right rest => ih.productTail _ rest
    case signed =>
      intro ts
      rw [Parse.signed]
      split
      · exact ih.atom ts
      · split
        · exact number_failsInside _ _ _ _
        · exact (ih.signed _).andThen fun inner rest => .ok _ _
    case atom =>
      intro ts
      rw [Parse.atom]
      split
      · exact number_failsInside _ _ _ _
      · exact .ok _ _
      · refine (ih.sum _).andThen fun inner rest => ?_
        simp only
        split
        · exact .ok _ _
        · exact .fail rfl
      · exact noExpression_failsInside _ _

theorem expr_failsInside (ts : List Token) : (expr ts).FailsInside := (exprFailsInside _).sum ts

theorem operand_failsInside (ts : List Token) : (operand ts).FailsInside := by
  unfold operand
  simp only
  split
  · unfold address
    refine (expr_failsInside _).andThen fun e rest => ?_
    simp only
    split
    · exact .ok _ _
    · exact .fail rfl
  · split
    · exact .fail rfl
    · exact (expr_failsInside _).andThen fun e rest => .ok _ _

theorem operands_failsInside (fuel : Nat) (ts : List Token) : (operands fuel ts).FailsInside := by
  induction fuel generalizing ts with
  | zero => exact .ok _ _
  | succ fuel ih =>
    rw [operands]
    refine (operand_failsInside ts).andThen fun o rest => ?_
    split
    · exact (ih _).andThen fun os rest => .ok _ _
    · exact .ok _ _

theorem instruction_failsInside (first : Token) (ts : List Token) :
    (instruction first ts).FailsInside := by
  unfold instruction
  simp only
  split
  · exact .ok _ _
  · exact (operands_failsInside _ _).andThen fun os rest => .ok _ _

/-- **A command fails inside**, never behind a whole statement. -/
theorem command_failsInside (ts : List Token) : (command ts).FailsInside := by
  unfold command
  simp only
  split
  · unfold directive
    split <;> first | exact .ok _ _ | exact .fail rfl
  · exact (instruction_failsInside _ _).andThen fun i rest => .ok _ _
  · exact .fail rfl

theorem peekKind_skipStatement (ts : List Token) :
    (peekKind (skipStatement ts)).endsStatement = true := by
  induction ts with
  | nil => rfl
  | cons t ts ih =>
    rw [skipStatement, List.dropWhile_cons]
    cases ht : t.kind.endsStatement with
    | false => exact ih
    | true => exact ht

/-- A whole command is one statement and no label, or none up to the end of the statement. -/
theorem command_eq_ok {ts rest : List Token} {statements : List Statement}
    (h : command ts = .ok statements rest) :
    (∃ st, statements = [st] ∧ st.isLabel = false) ∨
      statements = [] ∧ (peekKind rest).endsStatement = true := by
  unfold command at h
  simp only at h
  split at h
  · unfold directive at h
    split at h <;> cases h
    · exact .inl ⟨_, rfl, rfl⟩
    · exact .inl ⟨_, rfl, rfl⟩
    · exact .inl ⟨_, rfl, rfl⟩
    all_goals exact .inr ⟨rfl, peekKind_skipStatement _⟩
  · cases hi : instruction (peek ts) ts.tail with
    | ok i left =>
      rw [hi] at h
      cases h
      exact .inl ⟨_, rfl, rfl⟩
    | fail f left =>
      rw [hi] at h
      cases h
  · cases h

/-! ## Lines -/

/-- A command line that is reported: in its command, of which nothing is kept, or behind it. -/
theorem commandLine_eq_failure {ts : List Token} {f : ParseFailure}
    (h : (commandLine ts).failure = some f) :
    (f.error.isTrailing = false ∧ (commandLine ts).statements = []) ∨
      ∃ st rest, f = ⟨.afterStatement (peek rest).shown, (peek rest).span⟩ ∧ st.isLabel = false ∧
        command ts = .ok [st] rest ∧ (commandLine ts).statements = [st] := by
  unfold commandLine at h ⊢
  cases hcommand : command ts with
  | fail failure rest =>
    simp only [hcommand] at h
    cases h
    exact .inl ⟨command_failsInside ts _ rest hcommand, rfl⟩
  | ok statements rest =>
    simp only [hcommand] at h
    split at h
    · cases h
    · rename_i hmore
      cases h
      rcases command_eq_ok hcommand with ⟨st, rfl, hst⟩ | ⟨-, hend⟩
      · exact .inr ⟨st, rest, rfl, hst, rfl, by simp only [if_neg hmore]⟩
      · exact absurd hend hmore

/-- The label in front of a line. -/
def labelOf (ts : List Token) : List Statement :=
  if (peek ts).kind = .labelDef then [.label (peek ts).text (peek ts).span] else []

/-- The line without its label. -/
def behindLabel (ts : List Token) : List Token :=
  if (peek ts).kind = .labelDef then ts.tail else ts

/-- A line is its label and the rest of it, or its label alone. -/
theorem line_cases (ts : List Token) :
    line ts = ⟨labelOf ts, none, behindLabel ts⟩ ∧ (peekKind (behindLabel ts)).endsStatement = true ∨
      line ts = { commandLine (behindLabel ts) with
        statements := labelOf ts ++ (commandLine (behindLabel ts)).statements } := by
  unfold line labelOf behindLabel
  by_cases hlabel : (peek ts).kind = .labelDef
  · simp only [if_pos hlabel]
    split
    · rename_i hend
      exact .inl ⟨rfl, hend⟩
    · exact .inr rfl
  · simp only [if_neg hlabel]
    exact .inr rfl

/-- **A line that is reported**: in its command, and then nothing but its label is kept, or behind it, and
then the whole line is. -/
theorem line_eq_failure {ts : List Token} {f : ParseFailure} (h : (line ts).failure = some f) :
    (f.error.isTrailing = false ∧ (line ts).statements = labelOf ts) ∨
      ∃ st rest, f = ⟨.afterStatement (peek rest).shown, (peek rest).span⟩ ∧ st.isLabel = false ∧
        command (behindLabel ts) = .ok [st] rest ∧ (line ts).statements = labelOf ts ++ [st] := by
  rcases line_cases ts with ⟨hline, -⟩ | hline
  · rw [hline] at h
    cases h
  · rw [hline] at h ⊢
    rcases commandLine_eq_failure h with ⟨herror, hnone⟩ | ⟨st, rest, hf, hst, hcommand, hone⟩
    · exact .inl ⟨herror, by simp only [hnone, List.append_nil]⟩
    · exact .inr ⟨st, rest, hf, hst, hcommand, by simp only [hone]⟩

/-- A line without failure ends at the end of a statement. -/
theorem line_rest_ends {ts : List Token} (h : (line ts).failure = none) :
    (peekKind (line ts).rest).endsStatement = true := by
  rcases line_cases ts with ⟨hline, hend⟩ | hline
  · rw [hline]
    exact hend
  · rw [hline] at h ⊢
    unfold commandLine at h ⊢
    cases hcommand : command (behindLabel ts) with
    | fail failure rest =>
      simp only [hcommand] at h
      cases h
    | ok statements rest =>
      simp only [hcommand] at h ⊢
      split at h
      · rename_i hend
        simp only [if_pos hend]
        exact hend
      · cases h

/-- A round that reads a line stops at the end of a statement. -/
theorem round_rest_ends {ts : List Token} (h : peekKind ts ≠ .newline) :
    (peekKind (round ts).rest).endsStatement = true := by
  rw [round, if_neg h]
  cases hf : (line ts).failure with
  | none => exact line_rest_ends hf
  | some f => exact peekKind_skipStatement _

/-! ## Lines that are read -/

/-- The tokens from each line on that the parser reads. -/
def reads : Nat → List Token → List (List Token)
  | 0, _ => []
  | fuel + 1, ts =>
    if peekKind ts = .eof then []
    else if peekKind ts = .newline then reads fuel ts.tail
    else ts :: reads fuel (round ts).rest

/-- The tokens behind each end of a line. -/
def linesBehind : List Token → List (List Token)
  | [] => []
  | t :: ts => if t.kind = .newline then ts :: linesBehind ts else linesBehind ts

/-- The tokens from each line on. -/
def lineStarts (ts : List Token) : List (List Token) := ts :: linesBehind ts

/-- **The outcome is that of the lines that are read.** -/
theorem lines_eq_reads (fuel : Nat) (ts : List Token) :
    lines fuel ts = ((reads fuel ts).flatMap fun s => (line s).statements,
      (reads fuel ts).filterMap fun s => (line s).failure) := by
  induction fuel generalizing ts with
  | zero => rfl
  | succ fuel ih =>
    by_cases heof : peekKind ts = .eof
    · rw [lines_end heof, reads, if_pos heof]
      rfl
    by_cases hnewline : peekKind ts = .newline
    · rw [lines_newline fuel hnewline, reads, if_neg heof, if_pos hnewline, ih]
    · have hround : (round ts).statements = (line ts).statements ∧ (round ts).failure = (line ts).failure := by
        rw [round, if_neg hnewline]
        exact ⟨rfl, rfl⟩
      rw [lines_round fuel heof, reads, if_neg heof, if_neg hnewline, ih, hround.1, hround.2,
        List.flatMap_cons, List.filterMap_cons]
      cases (line ts).failure <;> rfl

theorem linesBehind_sublist {ts us : List Token} (h : us <:+ ts) :
    (linesBehind us).Sublist (linesBehind ts) := by
  obtain ⟨front, rfl⟩ := h
  induction front with
  | nil => exact .refl _
  | cons t front ih =>
    rw [List.cons_append, linesBehind]
    split
    · exact ih.cons _
    · exact ih

theorem length_of_mem_linesBehind {ts s : List Token} (h : s ∈ linesBehind ts) :
    s.length < ts.length := by
  induction ts with
  | nil => cases h
  | cons t ts ih =>
    rw [linesBehind] at h
    rw [List.length_cons]
    split at h
    · rcases List.mem_cons.1 h with rfl | h
      · exact Nat.lt_succ_self _
      · exact Nat.lt_succ_of_lt (ih h)
    · exact Nat.lt_succ_of_lt (ih h)

theorem nodup_lineStarts (ts : List Token) : (lineStarts ts).Nodup := by
  have hfirst : ∀ us : List Token, us ∉ linesBehind us := fun us hmem =>
    Nat.lt_irrefl _ (length_of_mem_linesBehind hmem)
  refine List.nodup_cons.2 ⟨hfirst ts, ?_⟩
  induction ts with
  | nil => exact .nil
  | cons t ts ih =>
    rw [linesBehind]
    split
    · exact List.nodup_cons.2 ⟨hfirst ts, ih⟩
    · exact ih

/-- What a round leaves of tokens in front of the end of input. -/
theorem round_rest_inputEnd {eof : Token} (heof : eof.kind = .eof) {t : Token} (ht : t.kind ≠ .eof)
    (ts : List Token) : (round (t :: ts ++ [eof])).rest = [] ∨
      ∃ left, left <:+ t :: ts ∧ (round (t :: ts ++ [eof])).rest = left ++ [eof] := by
  rcases round_agree (inputEnd eof heof) (inputEnd eof heof) ht ts with
    ⟨statements, f, g, left, hleft, -, -, hround, -⟩ | ⟨statements, hround, -⟩
  · exact .inr ⟨left, hleft, congrArg Line.rest hround⟩
  · exact .inl (congrArg Line.rest hround)

/-- **Lines are read in order, and each once at most.** From the end of a statement the next lines are
read, and from anywhere else the line there comes first. -/
theorem reads_sublist {eof : Token} (heof : eof.kind = .eof) (fuel : Nat) (ts : List Token) :
    (reads fuel (ts ++ [eof])).Sublist (lineStarts (ts ++ [eof])) ∧
      ((peekKind (ts ++ [eof])).endsStatement = true →
        (reads fuel (ts ++ [eof])).Sublist (linesBehind (ts ++ [eof]))) := by
  induction fuel generalizing ts with
  | zero => exact ⟨List.nil_sublist _, fun _ => List.nil_sublist _⟩
  | succ fuel ih =>
    rw [reads]
    by_cases hend : peekKind (ts ++ [eof]) = .eof
    · rw [if_pos hend]
      exact ⟨List.nil_sublist _, fun _ => List.nil_sublist _⟩
    rw [if_neg hend]
    cases ts with
    | nil => exact absurd heof hend
    | cons t ts =>
      by_cases hnewline : peekKind (t :: ts ++ [eof]) = .newline
      · have hbehind : linesBehind (t :: ts ++ [eof]) = lineStarts (ts ++ [eof]) := if_pos hnewline
        rw [if_pos hnewline, lineStarts, hbehind]
        exact ⟨(ih ts).1.cons _, fun _ => (ih ts).1⟩
      · rw [if_neg hnewline]
        have hmore : ¬ (peekKind (t :: ts ++ [eof])).endsStatement = true := by
          rw [TokenKind.endsStatement_iff]
          exact not_or.2 ⟨hnewline, hend⟩
        refine ⟨List.Sublist.cons_cons _ ?_, fun h => absurd h hmore⟩
        have ht : t.kind ≠ .eof := hend
        have hrest := round_rest_ends hnewline
        rcases round_rest_inputEnd heof ht ts with hnil | ⟨left, hleft, hround⟩
        · rw [hnil]
          cases fuel <;> exact List.nil_sublist _
        · rw [hround] at hrest ⊢
          obtain ⟨front, hfront⟩ := hleft
          refine ((ih left).2 hrest).trans (linesBehind_sublist ⟨front, ?_⟩)
          rw [← hfront, List.append_assoc]

end Parse

namespace Statement

open Parse (line labelOf behindLabel command peek reads lineStarts)

/-- The tokens from each line on that is read. -/
def linesRead (ts : List Token) : List (List Token) := reads ts.length ts

/-- **What is kept of a line that is reported.** The outcome is that of the lines that are read, each of them
once at most, with one failure at most for each. Of a line with a failure nothing but the label in
front is kept exactly if the failure is not that of tokens behind a whole statement; and then that
statement is kept as well. -/
theorem parseTokens_reported (ts : List Token) {eof : Token} (heof : eof.kind = .eof) :
    let read := linesRead (ts ++ [eof])
    read.Sublist (lineStarts (ts ++ [eof])) ∧ read.Nodup ∧
    parseTokens (ts ++ [eof]) =
      (read.flatMap fun s => (line s).statements, read.filterMap fun s => (line s).failure) ∧
    ∀ s ∈ read, ∀ f, (line s).failure = some f →
      ((line s).statements = labelOf s ↔ f.error.isTrailing = false) ∧
      (f.error.isTrailing = true → ∃ st rest, st.isLabel = false ∧
        command (behindLabel s) = .ok [st] rest ∧ (line s).statements = labelOf s ++ [st] ∧
        f = ⟨.afterStatement (peek rest).shown, (peek rest).span⟩) := by
  intro read
  have hsublist : read.Sublist (lineStarts (ts ++ [eof])) := (Parse.reads_sublist heof _ ts).1
  refine ⟨hsublist, (Parse.nodup_lineStarts _).sublist hsublist, Parse.lines_eq_reads _ _,
    fun s _ f hf => ?_⟩
  rcases Parse.line_eq_failure hf with ⟨herror, hkept⟩ | ⟨st, rest, rfl, hst, hcommand, hkept⟩
  · simp [herror, hkept]
  · refine ⟨?_, fun _ => ⟨st, rest, hst, hcommand, hkept, rfl⟩⟩
    simp [hkept, ParseError.isTrailing]

/-- Of `a: mov ]` the label is kept and the rest is reported. -/
theorem parseTokens_reported_label :
    ∃ ts eof s, Token.scan "nop\na: mov ]" = .ok (ts ++ [eof]) ∧
      s ∈ linesRead (ts ++ [eof]) ∧
      (line s).failure = some ⟨.noExpression "]", ⟨2, 8, 11, 1⟩⟩ ∧
      (line s).statements = [.label "a" ⟨2, 1, 4, 1⟩] := by
  let nop : List Token := [⟨.ident, "nop", ⟨1, 1, 0, 3⟩⟩, ⟨.newline, "\n", ⟨1, 4, 3, 1⟩⟩]
  let labelled : List Token := [⟨.labelDef, "a", ⟨2, 1, 4, 1⟩⟩, ⟨.ident, "mov", ⟨2, 4, 7, 3⟩⟩,
    ⟨.closeBracket, "]", ⟨2, 8, 11, 1⟩⟩]
  let eof : Token := ⟨.eof, "", ⟨2, 9, 12, 0⟩⟩
  have hscan : (Token.scan "nop\na: mov ]").toOption = some (nop ++ labelled ++ [eof]) := by
    decide +kernel
  rw [toOption_eq_some] at hscan
  have hread : labelled ++ [eof] ∈ linesRead (nop ++ labelled ++ [eof]) := by decide +kernel
  have hfailure : (line (labelled ++ [eof])).failure = some ⟨.noExpression "]", ⟨2, 8, 11, 1⟩⟩ := by
    decide +kernel
  obtain ⟨-, -, -, hreported⟩ := parseTokens_reported (nop ++ labelled) (show eof.kind = .eof from rfl)
  exact ⟨_, eof, _, hscan, hread, hfailure, (hreported _ hread _ hfailure).1.2 rfl⟩

/-- A statement that is kept and reported: `mov eax, ebx` in front of `ecx`. -/
theorem parseTokens_kept_and_reported :
    let eax : ParsedOperand := ⟨none, false, false, none, none, .var "eax", ⟨1, 5, 4, 3⟩⟩
    let ebx : ParsedOperand := ⟨none, false, false, none, none, .var "ebx", ⟨1, 10, 9, 3⟩⟩
    ∃ ts, Token.scan "mov eax, ebx ecx" = .ok ts ∧ parseTokens ts =
      ([.instruction ⟨"mov", [], [eax, ebx], ⟨1, 1, 0, 12⟩⟩],
        [⟨.afterStatement "ecx", ⟨1, 14, 13, 3⟩⟩]) := by
  intro eax ebx
  have hscan : (Token.scan "mov eax, ebx ecx").toOption = some
      [⟨.ident, "mov", ⟨1, 1, 0, 3⟩⟩, ⟨.ident, "eax", ⟨1, 5, 4, 3⟩⟩, ⟨.comma, ",", ⟨1, 8, 7, 1⟩⟩,
        ⟨.ident, "ebx", ⟨1, 10, 9, 3⟩⟩, ⟨.ident, "ecx", ⟨1, 14, 13, 3⟩⟩, ⟨.eof, "", ⟨1, 17, 16, 0⟩⟩] := by
    decide +kernel
  exact ⟨_, toOption_eq_some.1 hscan, by decide +kernel⟩

end Statement
end IntelAsm
