/-
The parser over a cursor. Here the tokens stay in place and a position goes over
them. Every token is looked up by its index, and every loop and every recursion
takes its steps from a supply that can run out; both failures are outcomes of
their own (`Walked`). What is behind the last token is looked up as the last
token, and the place where an operand ends is that of the token in front of the
position.

Over tokens that end with the end of input, and have no other, neither failure
is ever met: from any position in the list the walk does what the parser does
with the tokens left (`Tracks`), so the walk over the whole list ends with the
statements and failures of the parser (`Walk.program_eq`). Each round of the main
loop leaves the position further on (`Walk.round_run`).
-/
import IntelAsm.Proofs.ExprGrammar
import IntelAsm.Proofs.LineRecovery

namespace IntelAsm

/-! ## Walks -/

/-- The outcome of a step over indexed tokens: a value or a failure, with the position reached. -/
inductive Walked (α : Type) where
  | ok (value : α) (pos : Nat)
  | fail (failure : ParseFailure) (pos : Nat)
  /-- There is no token at an index. -/
  | outOfRange
  /-- The steps given do not suffice. -/
  | outOfSteps

def Walked.andThen {α β : Type} (w : Walked α) (f : α → Nat → Walked β) : Walked β :=
  match w with
  | .ok value pos => f value pos
  | .fail failure pos => .fail failure pos
  | .outOfRange => .outOfRange
  | .outOfSteps => .outOfSteps

/-- A step over indexed tokens, from a position on. -/
structure Walk (α : Type) where
  run : List Token → Nat → Walked α

namespace Walk

variable {α β : Type}

instance : Monad Walk where
  pure value := ⟨fun _ pos => .ok value pos⟩
  bind step next := ⟨fun ts pos => (step.run ts pos).andThen fun value pos => (next value).run ts pos⟩

def refuse (failure : ParseFailure) : Walk α := ⟨fun _ pos => .fail failure pos⟩

def outOfSteps : Walk α := ⟨fun _ _ => .outOfSteps⟩

/-- The token at an index. -/
def token (index : List Token → Nat → Nat) : Walk Token := ⟨fun ts pos =>
  (ts[index ts pos]?).elim .outOfRange fun t => .ok t pos⟩

/-- The token `n` places ahead; behind the last token there is only the last token. -/
def look (n : Nat) : Walk Token := token fun ts pos => min (pos + n) (ts.length - 1)

/-- The token in front of the position. -/
def previous : Walk Token := token fun _ pos => pos - 1

/-- Takes the token ahead. The position does not go beyond the tokens. -/
def advance : Walk Token := ⟨fun ts pos =>
  ((look 0).run ts pos).andThen fun t pos => .ok t (if pos < ts.length then pos + 1 else pos)⟩

/-- As many steps as there are tokens ahead, and one more. -/
def withSteps (walk : Nat → Walk α) : Walk α :=
  ⟨fun ts pos => (walk (ts.length - pos + 1)).run ts pos⟩

def expect (kind : TokenKind) (what : String) : Walk Token := do
  let t ← look 0
  if t.kind = kind then advance else refuse ⟨.expected what t.shown, t.span⟩

/-! ## Expressions -/

def literal (n : Int) (span : Span) : Walk Expr :=
  match Parse.literal n span with
  | .ok v => pure (.int v)
  | .error f => refuse f

def noExpression (t : Token) : Walk Expr :=
  if t.kind = .unknown then refuse ⟨.unknownCharacter t.text, t.span⟩
  else refuse ⟨.noExpression t.shown, t.span⟩

/-- What the token `t` starts, with `inner` for what stands in parentheses. -/
def atom (inner : Walk Expr) (t : Token) : Walk Expr :=
  match t.kind with
  | .number k => literal k t.span
  | .ident => pure (.var t.text)
  | .openParen => do
    let e ← inner
    let _ ← expect .closeParen "')'"
    pure e
  | _ => noExpression t

open Grammar (Level)

mutual

/-- An expression of a level. -/
def read : Nat → Level → Walk Expr
  | 0, _ => outOfSteps
  | n + 1, .atom => do
    let t ← advance
    atom (read n .sum) t
  | n + 1, .signed => do
    let t ← look 0
    match Parse.sign? t.kind with
    | none => read n .atom
    | some op => do
      let _ ← advance
      let u ← look 0
      match op, u.kind with
      | .neg, .number k => do
        let num ← advance
        literal (-k) (t.span.cover num.span)
      | _, _ => do
        let inner ← read n .signed
        pure (.unary op inner)
  | n + 1, .product => do
    let left ← read n .signed
    loop n .product left
  | n + 1, .sum => do
    let left ← read n .product
    loop n .sum left

/-- The operators of a level behind `left`, with an operand each. -/
def loop : Nat → Level → Expr → Walk Expr
  | 0, _, _ => outOfSteps
  | n + 1, level, left => do
    let t ← look 0
    match level.operator? t.kind with
    | none => pure left
    | some op => do
      let _ ← advance
      let right ← read n level.tighter
      loop n level (.binary op left right)

end

def expr : Walk Expr :=
  ⟨fun ts pos => (read (Parse.exprFuel (ts.length - pos)) .sum).run ts pos⟩

/-! ## Operands -/

def size : Walk (Option Width) := do
  let t ← look 0
  match Parse.sizeOf? t with
  | none => pure none
  | some w => do
    let next ← look 1
    if Parse.leavesSymbol next.kind then pure none
    else do
      let _ ← advance
      let t ← look 0
      if t.kind = .ident && t.text.toLower == "ptr" then do
        let _ ← advance
        pure (some w)
      else pure (some w)

def segment : Walk (Option Register) := do
  let t ← look 0
  let next ← look 1
  if t.kind = .ident && next.kind = .colon then
    match Register.ofName? t.text with
    | some (.segment s) => do
      let _ ← advance
      let _ ← advance
      pure (some (.segment s))
    | _ => pure none
  else pure none

/-- A segment register inside of brackets, unless there is one in front of them. -/
def segmentInside (outer : Option Register) : Walk (Option Register) :=
  if outer.isNone then segment else pure outer

/-- What stands in brackets, behind the opening one. -/
def address (width : Option Width) (distance : Bool) (outer : Option Register) (start : Span) :
    Walk ParsedOperand := do
  let addressSize ← size
  let seg ← segmentInside outer
  let e ← expr
  let close ← expect .closeBracket "']'"
  pure ⟨width, distance, true, addressSize, seg, e, start.cover close.span⟩

def operand : Walk ParsedOperand := do
  let first ← look 0
  let width ← size
  let distance := first.kind = .ident && Parse.isDistanceWord first.text && width.isSome
  let seg ← segment
  let t ← look 0
  if t.kind = .openBracket then do
    let _ ← advance
    address width distance seg first.span
  else if seg.isSome then refuse ⟨.segmentWithoutAddress, t.span⟩
  else do
    let e ← expr
    let last ← previous
    pure ⟨width, distance, false, none, none, e, first.span.cover last.span⟩

def operands : Nat → Walk (List ParsedOperand)
  | 0 => outOfSteps
  | n + 1 => do
    let o ← operand
    let t ← look 0
    if t.kind = .comma then do
      let _ ← advance
      let os ← operands n
      pure (o :: os)
    else pure [o]

/-! ## Statements -/

/-- Prefixes and the mnemonic, from the word `last` on. -/
def prefixes : Nat → Token → Walk (List Prefix × Token)
  | 0, _ => outOfSteps
  | n + 1, last =>
    match Prefix.ofWord? last.text with
    | none => pure ([], last)
    | some p => do
      let t ← look 0
      if t.kind = .ident then do
        let t ← advance
        let words ← prefixes n t
        pure (p :: words.1, words.2)
      else pure ([], last)

/-- The operands of an instruction, if there are any. -/
def arguments : Walk (List ParsedOperand) := do
  let t ← look 0
  if t.kind.endsStatement then pure [] else withSteps operands

def instruction (first : Token) : Walk ParsedInstruction := do
  let words ← withSteps fun n => prefixes n first
  let os ← arguments
  let span := first.span.cover words.2.span
  pure ⟨words.2.text.toLower, words.1, os, os.foldl (fun s o => s.cover o.span) span⟩

/-- Goes on to the end of the statement. -/
def skip : Nat → Walk Unit
  | 0 => outOfSteps
  | n + 1 => do
    let t ← look 0
    if t.kind.endsStatement then pure ()
    else do
      let _ ← advance
      skip n

def directive : Walk (List Statement) := do
  let t ← advance
  let name := t.text.toLower
  if name = ".code16" then pure [.mode .bits16 t.span]
  else if name = ".code32" then pure [.mode .bits32 t.span]
  else if name = ".code64" then pure [.mode .bits64 t.span]
  else if name ∈ [".text", ".intel_syntax", ".global", ".globl"] then do
    withSteps skip
    pure []
  else refuse ⟨.unknownDirective t.text, t.span⟩

def command : Walk (List Statement) := do
  let t ← look 0
  match t.kind with
  | .directive => directive
  | .ident => do
    let first ← advance
    let i ← instruction first
    pure [.instruction i]
  | _ => refuse ⟨.unexpected t.shown, t.span⟩

/-- The failure of a step as its value. -/
def attempt (walk : Walk α) : Walk (Except ParseFailure α) := ⟨fun ts pos =>
  match walk.run ts pos with
  | .ok value pos => .ok (.ok value) pos
  | .fail failure pos => .ok (.error failure) pos
  | .outOfRange => .outOfRange
  | .outOfSteps => .outOfSteps⟩

/-- What one line gives: its statements, and the failure if there is one. -/
abbrev Outcome := List Statement × Option ParseFailure

def commandLine : Walk Outcome := do
  match ← attempt command with
  | .error failure => pure ([], some failure)
  | .ok statements => do
    let stop ← look 0
    if stop.kind.endsStatement then pure (statements, none)
    else pure (statements, some ⟨.afterStatement stop.shown, stop.span⟩)

def line : Walk Outcome := do
  let t ← look 0
  if t.kind = .labelDef then do
    let _ ← advance
    let next ← look 0
    if next.kind.endsStatement then pure ([.label t.text t.span], none)
    else do
      let l ← commandLine
      pure (.label t.text t.span :: l.1, l.2)
  else commandLine

/-- One round of the main loop: an end of a line, or a line and, if that is malformed, what is left
of it. -/
def round : Walk Outcome := do
  let t ← look 0
  if t.kind = .newline then do
    let _ ← advance
    pure ([], none)
  else do
    let l ← line
    if l.2.isSome then do
      withSteps skip
      pure l
    else pure l

/-- The main loop: rounds up to the end of input. -/
def rounds : Nat → Walk (List Statement × List ParseFailure)
  | 0 => outOfSteps
  | n + 1 => do
    let t ← look 0
    if t.kind = .eof then pure ([], [])
    else do
      let l ← round
      let rest ← rounds n
      pure (l.1 ++ rest.1, l.2.toList ++ rest.2)

/-- The walk over all tokens. -/
def program (ts : List Token) : Walked (List Statement × List ParseFailure) :=
  (withSteps rounds).run ts 0

end Walk

/-! ## Positions -/

/-- Tokens that end with the end of input and have no other. -/
def Ended (ts : List Token) : Prop :=
  ∃ front eof, ts = front ++ [eof] ∧ eof.kind = .eof ∧ ∀ t ∈ front, t.kind ≠ .eof

section Positions

open Parse (peek peekKind)

variable {ts : List Token} {pos : Nat}

theorem peek_drop (h : pos < ts.length) : ts[pos]? = some (peek (ts.drop pos)) := by
  rw [List.drop_eq_getElem_cons h, List.getElem?_eq_getElem h]
  rfl

theorem drop_eq_cons (h : pos < ts.length) :
    ts.drop pos = peek (ts.drop pos) :: ts.drop (pos + 1) := by
  rw [List.drop_eq_getElem_cons h]
  rfl

theorem lt_of_peekKind (h : peekKind (ts.drop pos) ≠ .eof) : pos < ts.length := by
  by_contra hle
  rw [List.drop_eq_nil_of_le (Nat.le_of_not_lt hle)] at h
  exact h rfl

namespace Ended

theorem length_pos (h : Ended ts) : 0 < ts.length := by
  obtain ⟨front, eof, rfl, -, -⟩ := h
  simp

/-- Where the end of input is ahead there is no other token. -/
theorem eof_iff (h : Ended ts) (hpos : pos < ts.length) :
    peekKind (ts.drop pos) = .eof ↔ pos + 1 = ts.length := by
  obtain ⟨front, eof, rfl, heof, hfront⟩ := h
  rw [List.length_append, List.length_singleton] at hpos ⊢
  have hpeek : (front ++ [eof])[pos]? = some (peek ((front ++ [eof]).drop pos)) :=
    peek_drop (by simp; omega)
  constructor
  · intro hkind
    by_contra hne
    have hlt : pos < front.length := by omega
    rw [List.getElem?_append_left hlt] at hpeek
    exact hfront _ (List.mem_of_getElem? hpeek) hkind
  · intro heq
    obtain rfl : pos = front.length := by omega
    rw [List.getElem?_concat_length, Option.some.injEq] at hpeek
    rw [peekKind, ← hpeek, heof]

theorem succ_lt (h : Ended ts) (hpos : pos < ts.length) (hkind : peekKind (ts.drop pos) ≠ .eof) :
    pos + 1 < ts.length := by
  have := mt (h.eof_iff hpos).2 hkind
  omega

theorem succ_lt_of_kind (h : Ended ts) (hpos : pos < ts.length) {kind : TokenKind}
    (hkind : (peek (ts.drop pos)).kind = kind) (hne : kind ≠ .eof) : pos + 1 < ts.length :=
  h.succ_lt hpos (by rw [peekKind, hkind]; exact hne)

end Ended

namespace Walk

variable {α β : Type}

theorem bind_run (step : Walk α) (next : α → Walk β) (ts : List Token) (pos : Nat) :
    (step >>= next).run ts pos = (step.run ts pos).andThen fun value pos => (next value).run ts pos :=
  rfl

theorem bind_of_run {step : Walk α} {value : α} {next : Nat} (h : step.run ts pos = .ok value next)
    (rest : α → Walk β) : (step >>= rest).run ts pos = (rest value).run ts next := by
  rw [bind_run, h]
  rfl

theorem look_zero (h : pos < ts.length) : (look 0).run ts pos = .ok (peek (ts.drop pos)) pos := by
  have hmin : min (pos + 0) (ts.length - 1) = pos := by omega
  simp only [look, token, hmin, peek_drop h]
  rfl

/-- A token looked at is of the kind that the parser sees there. -/
theorem look_kind (hend : Ended ts) (n : Nat) (h : pos + n ≤ ts.length) :
    ∃ t, (look n).run ts pos = .ok t pos ∧ t.kind = peekKind (ts.drop (pos + n)) := by
  have hpos := hend.length_pos
  have hlook : (look n).run ts pos =
      .ok (peek (ts.drop (min (pos + n) (ts.length - 1)))) pos := by
    simp only [look, token, peek_drop (show min (pos + n) (ts.length - 1) < ts.length by omega)]
    rfl
  refine ⟨_, hlook, ?_⟩
  by_cases hlast : pos + n = ts.length
  · -- The last token is the end of input, and the parser sees nothing behind it.
    have hmin : min (pos + n) (ts.length - 1) = ts.length - 1 := by omega
    rw [hmin, hlast, List.drop_length]
    exact (hend.eof_iff (by omega)).2 (by omega)
  · have hmin : min (pos + n) (ts.length - 1) = pos + n := by omega
    rw [hmin, peekKind]

theorem advance_eq (h : pos < ts.length) :
    advance.run ts pos = .ok (peek (ts.drop pos)) (pos + 1) := by
  simp only [advance, look_zero h, Walked.andThen, if_pos h]

theorem look_bind (h : pos < ts.length) (next : Token → Walk β) :
    (look 0 >>= next).run ts pos = (next (peek (ts.drop pos))).run ts pos :=
  bind_of_run (look_zero h) next

theorem advance_bind (h : pos < ts.length) (next : Token → Walk β) :
    (advance >>= next).run ts pos = (next (peek (ts.drop pos))).run ts (pos + 1) :=
  bind_of_run (advance_eq h) next

end Walk

end Positions

/-! ## Walks that follow the parser -/

/-- An expression ends with the last of the tokens that it is read from. -/
theorem Parse.expr_eq_ok {ts rest : List Token} {e : ParsedExpr} (h : Parse.expr ts = .ok e rest) :
    ∃ front last, ts = front ++ rest ∧ front.getLast? = some last ∧ last.span = e.last := by
  have hsound : Grammar.Completes .sum [] ts e rest := (Grammar.sound _).read (Nat.le_refl _) h
  obtain ⟨front, hfront, ⟨tree, -, -, -, hlast⟩, -⟩ := hsound
  obtain ⟨last, hlast, hspan⟩ := Option.map_eq_some_iff.1 hlast
  exact ⟨front, last, hfront, hlast, hspan⟩

variable {ts : List Token} {pos : Nat} {α β γ δ : Type}

/-- The walk reaches what the parser reaches with the tokens left, at or behind `pos`. A value
leaves the end of input ahead; `rel` relates it to the parser's. -/
inductive Tracks (ts : List Token) (pos : Nat) (rel : α → β → Prop) :
    Walked α → Parsed β → Prop where
  | ok {v : α} {u : β} {next : Nat} (hle : pos ≤ next) (hlt : next < ts.length) (hrel : rel v u) :
    Tracks ts pos rel (.ok v next) (.ok u (ts.drop next))
  | fail {f : ParseFailure} {next : Nat} (hle : pos ≤ next) (hnext : next ≤ ts.length) :
    Tracks ts pos rel (.fail f next) (.fail f (ts.drop next))

namespace Tracks

variable {rel : α → β → Prop} {rel' : γ → δ → Prop}

theorem mono {w : Walked α} {p : Parsed β} {pos' : Nat} (h : Tracks ts pos rel w p)
    (hpos : pos' ≤ pos) : Tracks ts pos' rel w p := by
  cases h with
  | ok hle hlt hrel => exact .ok (by omega) hlt hrel
  | fail hle hnext => exact .fail (by omega) hnext

/-- One step after the other. -/
theorem bind {step : Walk α} {next : α → Walk γ} {p : Parsed β} {g : β → List Token → Parsed δ}
    (h : Tracks ts pos rel (step.run ts pos) p)
    (hnext : ∀ v u pos', pos ≤ pos' → pos' < ts.length → rel v u →
      Tracks ts pos' rel' ((next v).run ts pos') (g u (ts.drop pos'))) :
    Tracks ts pos rel' ((step >>= next).run ts pos) (p.andThen g) := by
  rw [Walk.bind_run]
  generalize step.run ts pos = w at h
  cases h with
  | ok hle hlt hrel => exact (hnext _ _ _ hle hlt hrel).mono hle
  | fail hle hlt => exact .fail hle hlt

end Tracks

namespace Walk

open Parse (peek peekKind)
open Grammar (Level operatorLevel)

/-! ## Expressions -/

/-- The expression that the parser gives, without its last place. -/
def SameExpr (e : Expr) (u : ParsedExpr) : Prop := e = u.expr

theorem literal_tracks (n : Int) (span last : Span) (h : pos < ts.length) :
    Tracks ts pos SameExpr ((literal n span).run ts pos)
      (Parse.number n span last (ts.drop pos)) := by
  unfold literal Parse.number
  cases Parse.literal n span with
  | ok v => exact .ok (Nat.le_refl _) h rfl
  | error f => exact .fail (Nat.le_refl _) (Nat.le_of_lt h)

theorem noExpression_tracks (t : Token) (h : pos ≤ ts.length) :
    Tracks ts pos SameExpr ((noExpression t).run ts pos) (Parse.noExpression t (ts.drop pos)) := by
  unfold noExpression Parse.noExpression
  by_cases hkind : t.kind = .unknown
  · simp only [hkind, if_true]
    exact .fail (Nat.le_refl _) h
  · rw [if_neg hkind]
    split
    · rename_i hunknown
      exact absurd hunknown hkind
    · exact .fail (Nat.le_refl _) h

/-- A token that is looked for and taken. -/
theorem expect_tracks (rel : α → β → Prop) (hend : Ended ts) (h : pos < ts.length)
    (kind : TokenKind) (hkind : kind ≠ .eof) (what : String) {next : Token → Walk α} {v : Span → α} {u : Span → β}
    (hnext : ∀ t, next t = pure (v t.span)) (hrel : ∀ span, rel (v span) (u span)) :
    Tracks ts pos rel ((expect kind what >>= next).run ts pos)
      (if (peek (ts.drop pos)).kind = kind then
        .ok (u (peek (ts.drop pos)).span) (ts.drop pos).tail
      else .fail ⟨.expected what (peek (ts.drop pos)).shown, (peek (ts.drop pos)).span⟩
        (ts.drop pos)) := by
  have hexpect : (expect kind what).run ts pos =
      (if (peek (ts.drop pos)).kind = kind then advance
        else refuse ⟨.expected what (peek (ts.drop pos)).shown,
          (peek (ts.drop pos)).span⟩).run ts pos :=
    look_bind h _
  rw [bind_run, hexpect]
  by_cases hpeek : (peek (ts.drop pos)).kind = kind
  · have hlt := hend.succ_lt h (by rw [peekKind, hpeek]; exact hkind)
    rw [if_pos hpeek, if_pos hpeek, advance_eq h, List.tail_drop, Walked.andThen, hnext]
    exact .ok (Nat.le_add_right pos 1) hlt (hrel _)
  · rw [if_neg hpeek, if_neg hpeek]
    exact .fail (Nat.le_refl _) (Nat.le_of_lt h)

theorem atom_number {t : Token} {k : Nat} (hk : t.kind = .number k) (inner : Walk Expr) :
    atom inner t = literal k t.span := by
  simp only [atom, hk]

/-- Reading with `n` steps follows the parser with as many, if they suffice for the tokens ahead. -/
structure ReadTracks (ts : List Token) (n : Nat) : Prop where
  read : ∀ level pos, pos < ts.length → 4 * (ts.length - pos) + level.steps ≤ n →
    Tracks ts pos SameExpr ((Walk.read n level).run ts pos) (level.read n (ts.drop pos))
  loop : ∀ op pos (left : ParsedExpr), pos < ts.length → 4 * (ts.length - pos) ≤ n →
    Tracks ts pos SameExpr ((Walk.loop n (operatorLevel op) left.expr).run ts pos)
      ((operatorLevel op).loop n left (ts.drop pos))

section Step

variable {n : Nat} (hend : Ended ts) (ih : ReadTracks ts n)

include ih

theorem joined_tracks (op : BinaryOp) (h : pos < ts.length)
    (hsteps : 4 * (ts.length - pos) + (operatorLevel op).steps ≤ n + 1) :
    Tracks ts pos SameExpr ((read (n + 1) (operatorLevel op)).run ts pos)
      ((operatorLevel op).read (n + 1) (ts.drop pos)) := by
  have hread : read (n + 1) (operatorLevel op) =
      (read n (operatorLevel op).tighter >>= loop n (operatorLevel op)) := by
    cases op <;> simp only [operatorLevel, Level.tighter, read]
  have htighter : (operatorLevel op).tighter.steps + 1 = (operatorLevel op).steps :=
    Level.steps_tighter (by cases op <;> simp [operatorLevel])
  have hpos := (operatorLevel op).tighter.steps_pos
  rw [hread, Level.read_joined rfl]
  refine (ih.read _ pos h (by omega)).bind fun e left next hle hlt he => ?_
  rw [show e = left.expr from he]
  exact ih.loop op next left hlt (by omega)

include hend

theorem loop_tracks (op : BinaryOp) (left : ParsedExpr) (h : pos < ts.length)
    (hsteps : 4 * (ts.length - pos) ≤ n + 1) :
    Tracks ts pos SameExpr ((loop (n + 1) (operatorLevel op) left.expr).run ts pos)
      ((operatorLevel op).loop (n + 1) left (ts.drop pos)) := by
  rw [loop, look_bind h]
  cases hop : (operatorLevel op).operator? (peek (ts.drop pos)).kind with
  | none =>
    rw [Level.loop_stop _ _ hop]
    exact .ok (Nat.le_refl _) h rfl
  | some op' =>
    obtain ⟨hlevel, hkind⟩ := Level.operator?_eq_some.1 hop
    have hlt := hend.succ_lt h (by
      rw [peekKind, hkind]
      cases op' <;> simp [BinaryOp.token])
    have htighter := (operatorLevel op').steps_tighter_le
    rw [drop_eq_cons h, Level.loop_operator hlevel n left _ hkind, ← hlevel]
    simp only [advance_bind h]
    refine Tracks.mono ?_ (Nat.le_add_right pos 1)
    refine (ih.read _ (pos + 1) hlt (by omega)).bind fun e right next hle hlt he => ?_
    rw [show e = right.expr from he]
    exact ih.loop op' next ⟨.binary op' left.expr right.expr, right.last⟩ hlt (by omega)

theorem atom_tracks (h : pos < ts.length) (hsteps : 4 * (ts.length - pos) + 1 ≤ n + 1) :
    Tracks ts pos SameExpr ((read (n + 1) .atom).run ts pos)
      (Parse.atom (n + 1) (ts.drop pos)) := by
  rw [read, advance_bind h, Parse.atom]
  simp only [List.tail_drop]
  refine Tracks.mono ?_ (Nat.le_add_right pos 1)
  cases hk : (peek (ts.drop pos)).kind with
  | number k =>
    rw [atom_number hk]
    exact literal_tracks k _ _ (hend.succ_lt_of_kind h hk (by simp))
  | ident =>
    simp only [atom, hk]
    exact .ok (Nat.le_refl _) (hend.succ_lt_of_kind h hk (by simp)) rfl
  | openParen =>
    have hlt := hend.succ_lt_of_kind h hk (by simp)
    simp only [atom, hk]
    refine (ih.read .sum (pos + 1) hlt (by show _ + 4 ≤ n; omega)).bind
      fun e inner next _ hnext he => ?_
    exact expect_tracks SameExpr hend hnext .closeParen (by simp) "')'" (v := fun _ => e)
      (u := fun span => ⟨inner.expr, span⟩) (fun _ => rfl) fun _ => he
  | _ =>
    simp only [atom, hk]
    exact noExpression_tracks _ h

theorem signed_tracks (h : pos < ts.length) (hsteps : 4 * (ts.length - pos) + 2 ≤ n + 1) :
    Tracks ts pos SameExpr ((read (n + 1) .signed).run ts pos)
      (Parse.signed (n + 1) (ts.drop pos)) := by
  rw [read, look_bind h, Parse.signed]
  simp only [peekKind]
  cases hsign : Parse.sign? (peek (ts.drop pos)).kind with
  | none => exact ih.read .atom pos h (by show _ + 1 ≤ n; omega)
  | some op =>
    have hlt := hend.succ_lt_of_kind h rfl (by
      intro heof
      rw [heof] at hsign
      cases hsign)
    simp only [advance_bind h, look_bind hlt, List.tail_drop]
    refine Tracks.mono ?_ (Nat.le_add_right pos 1)
    have hinner : Tracks ts (pos + 1) SameExpr
        ((do let e ← read n .signed; pure (.unary op e) : Walk Expr).run ts (pos + 1))
        ((Parse.signed n (ts.drop (pos + 1))).andThen fun inner rest =>
          .ok ⟨.unary op inner.expr, inner.last⟩ rest) := by
      refine (ih.read .signed (pos + 1) hlt (by show _ + 2 ≤ n; omega)).bind
        fun e inner next _ hnext he => ?_
      exact .ok (Nat.le_refl _) hnext (by rw [SameExpr, show e = inner.expr from he])
    cases op with
    | plus => exact hinner
    | not => exact hinner
    | neg =>
      cases hk : (peek (ts.drop (pos + 1))).kind with
      | number k =>
        simp only [advance_bind hlt]
        have hlt' := hend.succ_lt_of_kind hlt hk (by simp)
        exact (literal_tracks _ _ _ hlt').mono (Nat.le_add_right _ 1)
      | _ => exact hinner

end Step

theorem readTracks (hend : Ended ts) : ∀ n, ReadTracks ts n
  | 0 => {
      read := fun level pos h hsteps => by
        have := level.steps_pos
        omega
      loop := fun _ pos _ h hsteps => by omega }
  | n + 1 => {
      read := fun level pos h hsteps =>
        have ih := readTracks hend n
        match level with
        | .atom => atom_tracks hend ih h hsteps
        | .signed => signed_tracks hend ih h hsteps
        | .product => joined_tracks ih .mul h hsteps
        | .sum => joined_tracks ih .add h hsteps
      loop := fun op _ left h hsteps => loop_tracks hend (readTracks hend n) op left h hsteps }

theorem expr_tracks (hend : Ended ts) (h : pos < ts.length) :
    Tracks ts pos SameExpr (expr.run ts pos) (Parse.expr (ts.drop pos)) := by
  rw [Parse.expr, List.length_drop]
  exact (readTracks hend _).read .sum pos h (Nat.le_refl _)

/-! ## Operands -/

/-- The walk, which cannot fail, takes the value that the parser takes and leaves the same tokens,
the end of input among them. -/
def Takes (ts : List Token) (pos : Nat) (walk : Walk α) (parsed : α × List Token) : Prop :=
  ∃ value next, pos ≤ next ∧ next < ts.length ∧ walk.run ts pos = .ok value next ∧
    parsed = (value, ts.drop next)

theorem size_takes (hend : Ended ts) (h : pos < ts.length) :
    Takes ts pos size (Parse.size (ts.drop pos)) := by
  rw [Takes, size, look_bind h]
  cases hsize : Parse.sizeOf? (peek (ts.drop pos)) with
  | none => exact ⟨none, pos, Nat.le_refl _, h, rfl, Parse.size_none hsize⟩
  | some width =>
    obtain ⟨t, hlook, ht⟩ := look_kind hend 1 h
    simp only [bind_of_run hlook, ht, ← List.tail_drop]
    cases hsymbol : Parse.leavesSymbol (peekKind (ts.drop pos).tail) with
    | true => exact ⟨none, pos, Nat.le_refl _, h, rfl, Parse.size_symbol hsymbol⟩
    | false =>
      have hident : (peek (ts.drop pos)).kind = .ident := by
        by_contra hident
        rw [Parse.sizeOf?, if_neg hident] at hsize
        cases hsize
      have hlt := hend.succ_lt_of_kind h hident (by simp)
      rw [Parse.size_word hsize hsymbol, List.tail_drop, List.tail_drop, Parse.atWord, peekKind]
      simp only [Bool.false_eq_true, if_false, advance_bind h, look_bind hlt]
      cases hptr : decide ((peek (ts.drop (pos + 1))).kind = .ident) &&
          (peek (ts.drop (pos + 1))).text.toLower == "ptr" with
      | false => exact ⟨some width, pos + 1, Nat.le_succ pos, hlt, rfl, rfl⟩
      | true =>
        have hkind := of_decide_eq_true (Bool.and_eq_true_iff.1 hptr).1
        simp only [if_true, advance_bind hlt]
        have hlt' := hend.succ_lt_of_kind hlt hkind (by simp)
        exact ⟨some width, pos + 1 + 1, by omega, hlt', rfl, rfl⟩

theorem segment_takes (hend : Ended ts) (h : pos < ts.length) :
    Takes ts pos segment (Parse.segment (ts.drop pos)) := by
  obtain ⟨t, hlook, ht⟩ := look_kind hend 1 h
  rw [Takes, segment, look_bind h, bind_of_run hlook, ht, ← List.tail_drop]
  cases hcolon : decide ((peek (ts.drop pos)).kind = .ident) &&
      decide (peekKind (ts.drop pos).tail = .colon) with
  | false => exact ⟨none, pos, Nat.le_refl _, h, rfl, Parse.segment_none hcolon⟩
  | true =>
    obtain ⟨hident, htail⟩ := Bool.and_eq_true_iff.1 hcolon
    simp only [if_true]
    split
    · rename_i s hname
      have hlt := hend.succ_lt_of_kind h (of_decide_eq_true hident) (by simp)
      rw [List.tail_drop] at htail
      have hlt' := hend.succ_lt_of_kind hlt (of_decide_eq_true htail) (by simp)
      rw [advance_bind h, advance_bind hlt]
      refine ⟨some (.segment s), pos + 1 + 1, by omega, hlt', rfl, ?_⟩
      rw [Parse.segment_register hcolon hname, List.tail_drop, List.tail_drop]
    · rename_i hname
      exact ⟨none, pos, Nat.le_refl _, h, rfl, Parse.segment_other hname⟩

theorem segmentInside_takes (hend : Ended ts) (h : pos < ts.length) (outer : Option Register) :
    Takes ts pos (segmentInside outer)
      (if outer.isNone then Parse.segment (ts.drop pos) else (outer, ts.drop pos)) := by
  unfold segmentInside
  cases outer with
  | none => exact segment_takes hend h
  | some outer => exact ⟨some outer, pos, Nat.le_refl _, h, rfl, rfl⟩

theorem address_tracks (hend : Ended ts) (h : pos < ts.length) (width : Option Width)
    (distance : Bool) (outer : Option Register) (start : Span) :
    Tracks ts pos Eq ((address width distance outer start).run ts pos)
      (Parse.address width distance outer start (ts.drop pos)) := by
  obtain ⟨inner, next, hle, hlt, hsize, hsize'⟩ := size_takes hend h
  obtain ⟨seg, next', hle', hlt', hseg, hseg'⟩ := segmentInside_takes hend hlt outer
  rw [address, bind_of_run hsize, bind_of_run hseg]
  simp only [Parse.address, hsize', hseg']
  refine Tracks.mono ?_ (Nat.le_trans hle hle')
  refine (expr_tracks hend hlt').bind fun e u last _ hlast he => ?_
  rw [← show e = u.expr from he]
  let found (span : Span) : ParsedOperand :=
    ⟨width, distance, true, inner, seg, e, start.cover span⟩
  exact expect_tracks Eq hend hlast .closeBracket (by simp) "']'" (v := found) (u := found)
    (fun _ => rfl) fun _ => rfl

/-- The token in front of the position behind an expression is the last one of it. -/
theorem previous_expr {e : ParsedExpr} {next : Nat} (h : pos < ts.length) (hnext : next < ts.length)
    (hexpr : Parse.expr (ts.drop pos) = .ok e (ts.drop next)) :
    ∃ t, previous.run ts next = .ok t next ∧ t.span = e.last := by
  obtain ⟨front, t, hfront, ht, hspan⟩ := Parse.expr_eq_ok hexpr
  have hlen := congrArg List.length hfront
  rw [List.length_append, List.length_drop, List.length_drop] at hlen
  have hpos : 0 < front.length := by
    cases front with
    | nil => cases ht
    | cons => exact Nat.zero_lt_succ _
  have htoken : ts[next - 1]? = some t := by
    rw [List.getLast?_eq_getElem?] at ht
    rw [show next - 1 = pos + (front.length - 1) by omega, ← List.getElem?_drop, hfront,
      List.getElem?_append_left (by omega), ht]
  exact ⟨t, by simp only [previous, token, htoken]; rfl, hspan⟩

theorem operand_tracks (hend : Ended ts) (h : pos < ts.length) :
    Tracks ts pos Eq (operand.run ts pos) (Parse.operand (ts.drop pos)) := by
  obtain ⟨width, next, hle, hlt, hsize, hsize'⟩ := size_takes hend h
  obtain ⟨seg, next', hle', hlt', hseg, hseg'⟩ := segment_takes hend hlt
  rw [Parse.operand_eq hsize' hseg', peekKind, operand, look_bind h, bind_of_run hsize]
  simp only [bind_of_run hseg, look_bind hlt']
  refine Tracks.mono ?_ (Nat.le_trans hle hle')
  by_cases hopen : (peek (ts.drop next')).kind = .openBracket
  · have hlt'' := hend.succ_lt_of_kind hlt' hopen (by simp)
    rw [if_pos hopen, if_pos hopen, advance_bind hlt', List.tail_drop]
    exact (address_tracks hend hlt'' _ _ _ _).mono (Nat.le_add_right _ 1)
  rw [if_neg hopen, if_neg hopen]
  cases seg with
  | some seg => exact .fail (Nat.le_refl _) (Nat.le_of_lt hlt')
  | none =>
    have hexpr := expr_tracks hend hlt'
    simp only [Option.isSome_none, Bool.false_eq_true, if_false, bind_run]
    generalize expr.run ts next' = w at hexpr
    generalize hparsed : Parse.expr (ts.drop next') = p at hexpr
    cases hexpr with
    | fail hle hnext => exact .fail hle hnext
    | ok hle hnext he =>
      obtain ⟨t, hprevious, hlast⟩ := previous_expr hlt' hnext hparsed
      simp only [Walked.andThen, hprevious, hlast]
      exact .ok hle hnext (by rw [he])

theorem operands_tracks (hend : Ended ts) (n : Nat) (h : pos < ts.length)
    (hsteps : ts.length - pos < n) :
    Tracks ts pos Eq ((operands n).run ts pos) (Parse.operands n (ts.drop pos)) := by
  induction n generalizing pos with
  | zero => omega
  | succ n ih =>
    rw [operands, Parse.operands]
    refine (operand_tracks hend h).bind fun o o' next hle hlt ho => ?_
    subst ho
    rw [look_bind hlt, peekKind]
    by_cases hcomma : (peek (ts.drop next)).kind = .comma
    · have hlt' := hend.succ_lt_of_kind hlt hcomma (by simp)
      rw [if_pos hcomma, if_pos hcomma, advance_bind hlt, List.tail_drop]
      refine Tracks.mono ?_ (Nat.le_add_right next 1)
      refine (ih hlt' (by omega)).bind fun os os' last _ hlast hos => ?_
      exact .ok (Nat.le_refl _) hlast (by rw [hos])
    · rw [if_neg hcomma, if_neg hcomma]
      exact .ok (Nat.le_refl _) hlt rfl

/-! ## Statements -/

theorem prefixes_run (hend : Ended ts) (n : Nat) (last : Token) (h : pos < ts.length)
    (hsteps : ts.length - pos < n) :
    ∃ words mnemonic next, pos ≤ next ∧ next < ts.length ∧
      (prefixes n last).run ts pos = .ok (words, mnemonic) next ∧
      Parse.prefixes last (ts.drop pos) = (words, mnemonic, ts.drop next) := by
  induction n generalizing pos last with
  | zero => omega
  | succ n ih =>
    rw [prefixes, drop_eq_cons h, Parse.prefixes, ← drop_eq_cons h]
    cases hword : Prefix.ofWord? last.text with
    | none => exact ⟨[], last, pos, Nat.le_refl _, h, rfl, rfl⟩
    | some p =>
      simp only [look_bind h]
      by_cases hident : (peek (ts.drop pos)).kind = .ident
      · have hlt := hend.succ_lt_of_kind h hident (by simp)
        obtain ⟨words, mnemonic, next, hle, hnext, hrun, hparse⟩ :=
          ih (peek (ts.drop pos)) hlt (by omega)
        rw [if_pos hident, if_pos hident, advance_bind h, bind_of_run hrun, hparse]
        exact ⟨p :: words, mnemonic, next, by omega, hnext, rfl, rfl⟩
      · rw [if_neg hident, if_neg hident]
        exact ⟨[], last, pos, Nat.le_refl _, h, rfl, rfl⟩

theorem instruction_tracks (hend : Ended ts) (first : Token) (h : pos < ts.length) :
    Tracks ts pos Eq ((instruction first).run ts pos) (Parse.instruction first (ts.drop pos)) := by
  obtain ⟨words, mnemonic, next, hle, hlt, hrun, hparse⟩ :=
    prefixes_run hend (ts.length - pos + 1) first h (Nat.lt_succ_self _)
  have hwords : (withSteps fun n => prefixes n first).run ts pos = .ok (words, mnemonic) next :=
    hrun
  simp only [instruction, Parse.instruction, hparse, bind_of_run hwords, peekKind]
  refine Tracks.mono ?_ hle
  by_cases hends : (peek (ts.drop next)).kind.endsStatement = true
  · have harguments : arguments.run ts next = .ok [] next := by
      rw [arguments, look_bind hlt, if_pos hends]
      rfl
    rw [if_pos hends, bind_of_run harguments]
    exact .ok (Nat.le_refl _) hlt rfl
  · have harguments : arguments.run ts next = (operands (ts.length - next + 1)).run ts next := by
      rw [arguments, look_bind hlt, if_neg hends]
      rfl
    have hoperands := operands_tracks hend (ts.length - next + 1) hlt (Nat.lt_succ_self _)
    rw [← harguments] at hoperands
    rw [if_neg hends, List.length_drop]
    refine hoperands.bind fun os os' last _ hlast hos => ?_
    exact .ok (Nat.le_refl _) hlast (by rw [hos])

theorem skipStatement_of_ends {us : List Token} (h : (peekKind us).endsStatement = true) :
    Parse.skipStatement us = us := by
  cases us with
  | nil => rfl
  | cons u us =>
    rw [Parse.skipStatement, List.dropWhile_cons, show u.kind.endsStatement = true from h]
    rfl

/-- The walk comes to the end of the statement at `next`. It goes past a token that is no end. -/
structure Skips (ts : List Token) (pos : Nat) (w : Walked Unit) (next : Nat) : Prop where
  le : pos ≤ next
  le_length : next ≤ ts.length
  lt_length : pos < ts.length → next < ts.length
  lt : (peekKind (ts.drop pos)).endsStatement = false → pos < next
  run : w = .ok () next
  rest : Parse.skipStatement (ts.drop pos) = ts.drop next

theorem exists_skips (hend : Ended ts) (n : Nat) (h : pos ≤ ts.length)
    (hsteps : ts.length - pos < n) : ∃ next, Skips ts pos ((skip n).run ts pos) next := by
  induction n generalizing pos with
  | zero => omega
  | succ n ih =>
    obtain ⟨t, hlook, ht⟩ := look_kind hend 0 h
    rw [skip, bind_of_run hlook, ht, Nat.add_zero]
    cases hends : (peekKind (ts.drop pos)).endsStatement with
    | true => exact ⟨pos, Nat.le_refl _, h, id, by simp [hends], rfl, skipStatement_of_ends hends⟩
    | false =>
      have hne : peekKind (ts.drop pos) ≠ .eof := by
        intro heof
        rw [heof] at hends
        cases hends
      have hlt := lt_of_peekKind hne
      have hlt' := hend.succ_lt hlt hne
      obtain ⟨next, hle, hnext, hbelow, -, hrun, hskip⟩ := ih (Nat.le_of_lt hlt') (by omega)
      simp only [Bool.false_eq_true, if_false, advance_bind hlt]
      refine ⟨next, by omega, hnext, fun _ => hbelow hlt', fun _ => by omega, hrun, ?_⟩
      rw [← hskip, drop_eq_cons hlt, Parse.skipStatement, List.dropWhile_cons,
        show (peek (ts.drop pos)).kind.endsStatement = false from hends]
      rfl

/-- The tokens ahead give steps enough for the search. -/
theorem exists_withSteps_skips (hend : Ended ts) (h : pos ≤ ts.length) :
    ∃ next, Skips ts pos ((withSteps skip).run ts pos) next :=
  exists_skips hend (ts.length - pos + 1) h (Nat.lt_succ_self _)

theorem directive_tracks (hend : Ended ts) (h : pos < ts.length)
    (hkind : (peek (ts.drop pos)).kind = .directive) :
    Tracks ts (pos + 1) Eq (directive.run ts pos)
      (Parse.directive (peek (ts.drop pos)) (ts.drop (pos + 1))) := by
  have hlt := hend.succ_lt_of_kind h hkind (by simp)
  have hskip : Tracks ts (pos + 1) Eq
      ((do withSteps skip; pure ([] : List Statement) : Walk (List Statement)).run ts (pos + 1))
      (.ok [] (Parse.skipStatement (ts.drop (pos + 1)))) := by
    obtain ⟨next, hle, -, hbelow, -, hrun, hskip⟩ := exists_withSteps_skips hend (Nat.le_of_lt hlt)
    rw [bind_of_run hrun, hskip]
    exact .ok hle (hbelow hlt) rfl
  rw [directive, advance_bind h]
  unfold Parse.directive
  split
  iterate 3
    · rename_i hname
      simp only [hname]
      exact .ok (Nat.le_refl _) hlt rfl
  iterate 4
    · rename_i hname
      simp only [hname]
      exact hskip
  · rename_i h16 h32 h64 htext hsyntax hglobal hglobl
    have hknown : (peek (ts.drop pos)).text.toLower ∉
        [".text", ".intel_syntax", ".global", ".globl"] := by
      simp only [List.mem_cons, List.not_mem_nil, or_false, not_or]
      exact ⟨htext, hsyntax, hglobal, hglobl⟩
    rw [if_neg h16, if_neg h32, if_neg h64, if_neg hknown]
    exact .fail (Nat.le_refl _) (Nat.le_of_lt hlt)

/-- A command takes a token at least, unless the token ahead starts none. -/
theorem command_tracks (hend : Ended ts) (h : pos < ts.length) :
    Tracks ts (pos + 1) Eq (command.run ts pos) (Parse.command (ts.drop pos)) ∨
      ∃ f, command.run ts pos = .fail f pos ∧
        Parse.command (ts.drop pos) = .fail f (ts.drop pos) := by
  rw [command, look_bind h, Parse.command, List.tail_drop]
  cases hkind : (peek (ts.drop pos)).kind with
  | directive => exact .inl (directive_tracks hend h hkind)
  | ident =>
    have hlt := hend.succ_lt_of_kind h hkind (by simp)
    simp only [advance_bind h]
    refine .inl ((instruction_tracks hend _ hlt).bind fun i i' next _ hnext hi => ?_)
    exact .ok (Nat.le_refl _) hnext (by rw [hi])
  | _ => exact .inr ⟨_, rfl, rfl⟩

/-! ## Lines and rounds -/

/-- A walk over a line comes to the tokens that the parser leaves, with what the parser finds. A
line without failure takes a token and leaves the end of input. -/
structure Lands (ts : List Token) (pos : Nat) (w : Walked Outcome) (l : Parse.Line) (next : Nat) :
    Prop where
  le : pos ≤ next
  le_length : next ≤ ts.length
  run : w = .ok (l.statements, l.failure) next
  rest : l.rest = ts.drop next
  sound : l.failure = none → pos < next ∧ next < ts.length

theorem commandLine_lands (hend : Ended ts) (h : pos < ts.length) :
    ∃ next, Lands ts pos (commandLine.run ts pos) (Parse.commandLine (ts.drop pos)) next := by
  have hattempt : ∀ {f : ParseFailure} {next : Nat}, command.run ts pos = .fail f next →
      commandLine.run ts pos = .ok ([], some f) next := by
    intro f next hcommand
    have hrun : (attempt command).run ts pos = .ok (.error f) next := by
      simp only [attempt, hcommand]
    exact bind_of_run hrun _
  unfold Parse.commandLine
  rcases command_tracks hend h with hcommand | ⟨f, hcommand, hparse⟩
  · generalize hw : command.run ts pos = w at hcommand
    generalize Parse.command (ts.drop pos) = p at hcommand
    cases hcommand with
    | fail hle hnext => exact ⟨_, by omega, hnext, hattempt hw, rfl, by simp⟩
    | @ok statements _ next hle hlt hrel =>
      subst hrel
      have hrun : (attempt command).run ts pos = .ok (.ok statements) next := by
        simp only [attempt, hw]
      rw [commandLine, bind_of_run hrun]
      simp only [look_bind hlt]
      split
      · exact ⟨next, by omega, Nat.le_of_lt hlt, rfl, rfl, fun _ => ⟨hle, hlt⟩⟩
      · exact ⟨next, by omega, Nat.le_of_lt hlt, rfl, rfl, by simp⟩
  · rw [hparse]
    exact ⟨pos, Nat.le_refl _, Nat.le_of_lt h, hattempt hcommand, rfl, by simp⟩

theorem line_lands (hend : Ended ts) (h : pos < ts.length) :
    ∃ next, Lands ts pos (line.run ts pos) (Parse.line (ts.drop pos)) next := by
  simp only [line, look_bind h, Parse.line, peekKind]
  by_cases hlabel : (peek (ts.drop pos)).kind = .labelDef
  · have hlt := hend.succ_lt_of_kind h hlabel (by simp)
    simp only [if_pos hlabel, advance_bind h, look_bind hlt, List.tail_drop]
    split
    · exact ⟨pos + 1, Nat.le_succ _, Nat.le_of_lt hlt, rfl, rfl, fun _ => ⟨Nat.lt_succ_self _, hlt⟩⟩
    · obtain ⟨next, hle, hnext, hrun, hrest, hsound⟩ := commandLine_lands hend hlt
      rw [bind_of_run hrun]
      refine ⟨next, by omega, hnext, rfl, hrest, fun hf => ?_⟩
      obtain ⟨hmore, hbelow⟩ := hsound hf
      exact ⟨by omega, hbelow⟩
  · simp only [if_neg hlabel]
    exact commandLine_lands hend h

/-- A round in front of a token that is no end of input does what the parser does and leaves the
position further on, at most behind the last token. -/
theorem round_run (hend : Ended ts) (hne : peekKind (ts.drop pos) ≠ .eof) :
    ∃ next, pos < next ∧ next ≤ ts.length ∧
      round.run ts pos =
        .ok ((Parse.round (ts.drop pos)).statements, (Parse.round (ts.drop pos)).failure) next ∧
      (Parse.round (ts.drop pos)).rest = ts.drop next := by
  have h := lt_of_peekKind hne
  rw [round, look_bind h, Parse.round, ← peekKind]
  by_cases hnewline : peekKind (ts.drop pos) = .newline
  · rw [if_pos hnewline, if_pos hnewline, advance_bind h, List.tail_drop]
    exact ⟨pos + 1, Nat.lt_succ_self _, h, rfl, rfl⟩
  rw [if_neg hnewline, if_neg hnewline]
  obtain ⟨next, hle, hnext, hrun, hrest, hsound⟩ := line_lands hend h
  rw [bind_of_run hrun]
  cases hf : (Parse.line (ts.drop pos)).failure with
  | none => exact ⟨next, (hsound hf).1, hnext, rfl, hrest⟩
  | some f =>
    obtain ⟨last, hle', hlast, -, hmore, hskip, hskip'⟩ := exists_withSteps_skips hend hnext
    simp only [Option.isSome_some, if_true, bind_of_run hskip]
    refine ⟨last, ?_, hlast, rfl, by rw [hrest, hskip']⟩
    -- A line that took no token is in front of one that does not end a statement.
    rcases Nat.lt_or_eq_of_le hle with hlt | rfl
    · omega
    · refine hmore ?_
      rw [← Bool.not_eq_true, TokenKind.endsStatement_iff]
      exact not_or.2 ⟨hnewline, hne⟩

theorem rounds_run (hend : Ended ts) (n fuel : Nat) (h : pos ≤ ts.length)
    (hsteps : ts.length - pos < n) (hfuel : ts.length - pos ≤ fuel) :
    ∃ next, pos ≤ next ∧ next ≤ ts.length ∧
      (rounds n).run ts pos = .ok (Parse.lines fuel (ts.drop pos)) next := by
  induction n generalizing pos fuel with
  | zero => omega
  | succ n ih =>
    obtain ⟨t, hlook, ht⟩ := look_kind hend 0 h
    rw [rounds, bind_of_run hlook, ht, Nat.add_zero]
    by_cases heof : peekKind (ts.drop pos) = .eof
    · rw [if_pos heof, Parse.lines_end heof]
      exact ⟨pos, Nat.le_refl _, h, rfl⟩
    · obtain ⟨next, hlt, hnext, hrun, hrest⟩ := round_run hend heof
      obtain ⟨last, hle, hlast, hrun'⟩ := ih (fuel - 1) hnext (by omega) (by omega)
      obtain ⟨fuel, rfl⟩ := Nat.exists_eq_succ_of_ne_zero (show fuel ≠ 0 by omega)
      rw [if_neg heof, bind_of_run hrun, bind_of_run hrun', Parse.lines_round fuel heof, hrest]
      exact ⟨last, by omega, hlast, rfl⟩

/-- The walk over all tokens ends with the statements and failures of the parser. -/
theorem program_eq (hend : Ended ts) :
    ∃ next ≤ ts.length, program ts = .ok (Statement.parseTokens ts) next := by
  obtain ⟨next, -, hnext, hrun⟩ := rounds_run hend (ts.length - 0 + 1) ts.length (Nat.zero_le _)
    (Nat.lt_succ_self _) (Nat.le_refl _)
  exact ⟨next, hnext, hrun⟩

end Walk
end IntelAsm
