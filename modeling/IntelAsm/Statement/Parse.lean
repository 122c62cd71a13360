/-
From tokens to statements. The parser works line by line: a malformed line is
reported once and the parser goes on behind the next end of a statement. Each
function takes the tokens ahead and gives, besides its result, the tokens left,
also when it fails, since that is where the search for the end of the statement
begins.

Expressions follow the grammar

  sum      = product { ("+" | "-") product }
  product  = signed { ("*" | "/") signed }
  signed   = ("+" | "-" | "~") signed | atom
  atom     = number | name | "(" sum ")"

where a minus directly in front of a number belongs to the number.
-/
import IntelAsm.Statement
import IntelAsm.Token.Scan

namespace IntelAsm

/-- Why a statement cannot be read. -/
inductive ParseError where
  | unexpected (found : String)
  | afterStatement (found : String)
  | unknownDirective (name : String)
  | expected (what found : String)
  | segmentWithoutAddress
  | unknownCharacter (text : String)
  | noExpression (found : String)
  | numberTooWide (value : Int)
deriving DecidableEq, Inhabited

def ParseError.message : ParseError → String
  | .unexpected found => "unexpected token '" ++ found ++ "'"
  | .afterStatement found => "unexpected token '" ++ found ++ "' after statement"
  | .unknownDirective name => "unknown directive '" ++ name ++ "'"
  | .expected what found => "expected " ++ what ++ ", found '" ++ found ++ "'"
  | .segmentWithoutAddress => "segment override requires a memory operand"
  | .unknownCharacter text => "unexpected character '" ++ text ++ "'"
  | .noExpression found => "expected expression, found '" ++ found ++ "'"
  | .numberTooWide value => "number " ++ toString value ++ " does not fit in 64 bits"

/-- A parse error at its place. -/
structure ParseFailure where
  error : ParseError
  span : Span
deriving DecidableEq, Inhabited

def ParseFailure.diagnostic (f : ParseFailure) : Diagnostic := .malformed f.error.message f.span

/-- The result of a parsing step and the tokens left. -/
inductive Parsed (α : Type) where
  | ok (value : α) (rest : List Token)
  | fail (failure : ParseFailure) (rest : List Token)

namespace Parsed

/-- Goes on with the tokens left, unless the step failed. -/
def andThen {α β : Type} (p : Parsed α) (f : α → List Token → Parsed β) : Parsed β :=
  match p with
  | .ok value rest => f value rest
  | .fail failure rest => .fail failure rest

end Parsed

/-- An expression and the span of the last token it was read from. -/
structure ParsedExpr where
  expr : Expr
  last : Span
deriving DecidableEq, Inhabited

namespace Parse

/-- The token ahead; behind the last token there is only the end of input. -/
def peek : List Token → Token
  | [] => ⟨.eof, "", .nowhere⟩
  | t :: _ => t

/-- The kind of the token ahead. -/
def peekKind (ts : List Token) : TokenKind := (peek ts).kind

/-! ## Expressions -/

/-- A number as a 64-bit value. Numbers from 2^63 to 2^64 - 1 stand for the negative value with the
same bits. -/
def literal (n : Int) (span : Span) : Except ParseFailure Int64 :=
  if Int64.minValue.toInt ≤ n ∧ n < UInt64.size then .ok (Int64.ofInt n)
  else .error ⟨.numberTooWide n, span⟩

/-- The expression of a number that ends at `last`. -/
def number (n : Int) (span last : Span) (rest : List Token) : Parsed ParsedExpr :=
  match literal n span with
  | .ok v => .ok ⟨.int v, last⟩ rest
  | .error f => .fail f rest

/-- The sign a token is in front of an operand. -/
def sign? : TokenKind → Option UnaryOp
  | .plus => some .plus
  | .minus => some .neg
  | .tilde => some .not
  | _ => none

def additive? : TokenKind → Option BinaryOp
  | .plus => some .add
  | .minus => some .sub
  | _ => none

def multiplicative? : TokenKind → Option BinaryOp
  | .star => some .mul
  | .slash => some .div
  | _ => none

/-- The failure at a token that starts no expression. The token is consumed. -/
def noExpression (t : Token) (rest : List Token) : Parsed ParsedExpr :=
  match t.kind with
  | .unknown => .fail ⟨.unknownCharacter t.text, t.span⟩ rest
  | _ => .fail ⟨.noExpression t.shown, t.span⟩ rest

mutual

/-- Products joined by `+` and `-`. -/
def sum : Nat → List Token → Parsed ParsedExpr
  | 0, ts => noExpression (peek ts) ts.tail
  | fuel + 1, ts => (product fuel ts).andThen fun left rest => sumTail fuel left rest

/-- The sum that goes on behind `left`. -/
def sumTail : Nat → ParsedExpr → List Token → Parsed ParsedExpr
  | 0, left, ts => .ok left ts
  | fuel + 1, left, ts =>
    match additive? (peekKind ts) with
    | none => .ok left ts
    | some op => (product fuel ts.tail).andThen fun right rest =>
      sumTail fuel ⟨.binary op left.expr right.expr, right.last⟩ rest

/-- Signed operands joined by `*` and `/`. -/
def product : Nat → List Token → Parsed ParsedExpr
  | 0, ts => noExpression (peek ts) ts.tail
  | fuel + 1, ts => (signed fuel ts).andThen fun left rest => productTail fuel left rest

/-- The product that goes on behind `left`. -/
def productTail : Nat → ParsedExpr → List Token → Parsed ParsedExpr
  | 0, left, ts => .ok left ts
  | fuel + 1, left, ts =>
    match multiplicative? (peekKind ts) with
    | none => .ok left ts
    | some op => (signed fuel ts.tail).andThen fun right rest =>
      productTail fuel ⟨.binary op left.expr right.expr, right.last⟩ rest

/-- An operand behind any number of signs. -/
def signed : Nat → List Token → Parsed ParsedExpr
  | 0, ts => noExpression (peek ts) ts.tail
  | fuel + 1, ts =>
    match sign? (peekKind ts) with
    | none => atom fuel ts
    | some op =>
      match op, peekKind ts.tail with
      | .neg, .number n =>
        let num := peek ts.tail
        number (-n) ((peek ts).span.cover num.span) num.span ts.tail.tail
      | _, _ => (signed fuel ts.tail).andThen fun inner rest =>
        .ok ⟨.unary op inner.expr, inner.last⟩ rest

/-- A number, a name or a sum in parentheses. -/
def atom : Nat → List Token → Parsed ParsedExpr
  | 0, ts => noExpression (peek ts) ts.tail
  | fuel + 1, ts =>
    let t := peek ts
    match t.kind with
    | .number n => number n t.span t.span ts.tail
    | .ident => .ok ⟨.var t.text, t.span⟩ ts.tail
    | .openParen => (sum fuel ts.tail).andThen fun inner rest =>
      let close := peek rest
      if close.kind = .closeParen then .ok ⟨inner.expr, close.span⟩ rest.tail
      else .fail ⟨.expected "')'" close.shown, close.span⟩ rest
    | _ => noExpression t ts.tail

end

/-- Steps that suffice for the expression in front of `n` tokens: four to each token that opens a
nested one, and as many to start. -/
def exprFuel (n : Nat) : Nat := 4 * n + 4

/-- The longest expression in front of the tokens. -/
def expr (ts : List Token) : Parsed ParsedExpr := sum (exprFuel ts.length) ts

/-! ## Operands -/

/-- The width a size word asks for. -/
def sizeWord? (word : String) : Option Width :=
  match word.toLower with
  | "byte" | "short" => some .byte
  | "word" => some .word
  | "dword" | "near" => some .dword
  | "qword" => some .qword
  | _ => none

/-- Words that size the distance of a branch and not the value of its target. -/
def isDistanceWord (word : String) : Bool :=
  match word.toLower with
  | "short" | "near" => true
  | _ => false

/-- Whether the token ahead is the name `word`, in any case. -/
def atWord (word : String) (ts : List Token) : Bool :=
  peekKind ts = .ident && (peek ts).text.toLower == word

/-- A size word with an optional `ptr` behind it. A size word with nothing behind it is a symbol. -/
def size (ts : List Token) : Option Width × List Token :=
  let t := peek ts
  match if t.kind = .ident then sizeWord? t.text else none with
  | none => (none, ts)
  | some w =>
    let next := peekKind ts.tail
    if next.endsStatement || next = .comma || next = .closeBracket then (none, ts)
    else (some w, if atWord "ptr" ts.tail then ts.tail.tail else ts.tail)

/-- A segment register and its colon. -/
def segment (ts : List Token) : Option Register × List Token :=
  let t := peek ts
  if t.kind = .ident && peekKind ts.tail = .colon then
    match Register.ofName? t.text with
    | some (.segment s) => (some (.segment s), ts.tail.tail)
    | _ => (none, ts)
  else (none, ts)

/-- What stands in brackets, behind the opening one. -/
def address (size : Option Width) (distance : Bool) (outer : Option Register) (start : Span)
    (ts : List Token) : Parsed ParsedOperand :=
  let (addressSize, ts) := Parse.size ts
  let (seg, ts) := if outer.isNone then segment ts else (outer, ts)
  (expr ts).andThen fun e rest =>
    let close := peek rest
    if close.kind = .closeBracket then
      .ok ⟨size, distance, true, addressSize, seg, e.expr, start.cover close.span⟩ rest.tail
    else .fail ⟨.expected "']'" close.shown, close.span⟩ rest

/-- An operand. -/
def operand (ts : List Token) : Parsed ParsedOperand :=
  let first := peek ts
  let hint := first.kind = .ident && isDistanceWord first.text
  let (size, ts) := size ts
  let distance := hint && size.isSome
  let (seg, ts) := segment ts
  if peekKind ts = .openBracket then address size distance seg first.span ts.tail
  else if seg.isSome then .fail ⟨.segmentWithoutAddress, (peek ts).span⟩ ts
  else (expr ts).andThen fun e rest =>
    .ok ⟨size, distance, false, none, none, e.expr, first.span.cover e.last⟩ rest

/-- Operands separated by commas; a comma calls for another operand. `fuel` bounds their number. -/
def operands : Nat → List Token → Parsed (List ParsedOperand)
  | 0, ts => .ok [] ts
  | fuel + 1, ts => (operand ts).andThen fun o rest =>
    if peekKind rest = .comma then
      (operands fuel rest.tail).andThen fun os rest => .ok (o :: os) rest
    else .ok [o] rest

/-! ## Statements -/

/-- Prefix words, each with a name behind it, and the tokens from the mnemonic on. `last` is the
name before the tokens. -/
def prefixes : Token → List Token → List Prefix × Token × List Token
  | last, [] => ([], last, [])
  | last, t :: ts =>
    match Prefix.ofWord? last.text with
    | none => ([], last, t :: ts)
    | some p =>
      if t.kind = .ident then
        let (ps, mnemonic, rest) := prefixes t ts
        (p :: ps, mnemonic, rest)
      else ([], last, t :: ts)

/-- An instruction whose first word is `first`. -/
def instruction (first : Token) (ts : List Token) : Parsed ParsedInstruction :=
  let (ps, mnemonic, ts) := prefixes first ts
  let span := first.span.cover mnemonic.span
  let finish (os : List ParsedOperand) (rest : List Token) : Parsed ParsedInstruction :=
    .ok ⟨mnemonic.text.toLower, ps, os, os.foldl (fun s o => s.cover o.span) span⟩ rest
  if (peekKind ts).endsStatement then finish [] ts
  else (operands (ts.length + 1) ts).andThen finish

/-- The tokens from the end of the statement on. -/
def skipStatement (ts : List Token) : List Token := ts.dropWhile fun t => !t.kind.endsStatement

/-- What a directive does: switch the mode, or nothing, the rest of its line included. -/
def directive (t : Token) (ts : List Token) : Parsed (List Statement) :=
  match t.text.toLower with
  | ".code16" => .ok [.mode .bits16 t.span] ts
  | ".code32" => .ok [.mode .bits32 t.span] ts
  | ".code64" => .ok [.mode .bits64 t.span] ts
  | ".text" | ".intel_syntax" | ".global" | ".globl" => .ok [] (skipStatement ts)
  | _ => .fail ⟨.unknownDirective t.text, t.span⟩ ts

/-- A statement without its label. -/
def command (ts : List Token) : Parsed (List Statement) :=
  let t := peek ts
  match t.kind with
  | .directive => directive t ts.tail
  | .ident => (instruction t ts.tail).andThen fun i rest => .ok [.instruction i] rest
  | _ => .fail ⟨.unexpected t.shown, t.span⟩ ts

/-- What a line gives: its statements, the failure if there is one, and the tokens left. -/
structure Line where
  statements : List Statement
  failure : Option ParseFailure
  rest : List Token

/-- A line without its label. What follows a whole statement is reported, and the statement is kept
all the same. -/
def commandLine (ts : List Token) : Line :=
  match command ts with
  | .fail failure rest => ⟨[], some failure, rest⟩
  | .ok statements rest =>
    let stop := peek rest
    if stop.kind.endsStatement then ⟨statements, none, rest⟩
    else ⟨statements, some ⟨.afterStatement stop.shown, stop.span⟩, rest⟩

/-- A line: an optional label and an optional command, at least one of them. -/
def line (ts : List Token) : Line :=
  let t := peek ts
  if t.kind = .labelDef then
    let label := Statement.label t.text t.span
    if (peekKind ts.tail).endsStatement then ⟨[label], none, ts.tail⟩
    else
      let l := commandLine ts.tail
      { l with statements := label :: l.statements }
  else commandLine ts

/-- All statements and all failures of the tokens ahead. `fuel` bounds the number of lines and line
ends. -/
def lines : Nat → List Token → List Statement × List ParseFailure
  | 0, _ => ([], [])
  | fuel + 1, ts =>
    match peekKind ts with
    | .eof => ([], [])
    | .newline => lines fuel ts.tail
    | _ =>
      let l := line ts
      match l.failure with
      | none =>
        let (statements, failures) := lines fuel l.rest
        (l.statements ++ statements, failures)
      | some failure =>
        let (statements, failures) := lines fuel (skipStatement l.rest)
        (l.statements ++ statements, failure :: failures)

end Parse

namespace Statement

/-- The statements of some tokens and one failure for each malformed line. -/
def parseTokens (ts : List Token) : List Statement × List ParseFailure := Parse.lines ts.length ts

/-- The statements of some tokens if every line is well formed, and all failures otherwise. -/
def ofTokens (ts : List Token) : Except Diagnostic (List Statement) :=
  let (statements, failures) := parseTokens ts
  match Diagnostic.ofList? (failures.map ParseFailure.diagnostic) with
  | some d => .error d
  | none => .ok statements

/-- The statements of a text. -/
def parse (source : String) : Except Diagnostic (List Statement) := do
  ofTokens (← Token.scan source)

end Statement
end IntelAsm
