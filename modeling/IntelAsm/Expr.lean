/-
Constant expressions over symbols: what stands in an operand, in an address
and in a field whose value is known only once all labels have addresses.
`Expr.resolve` gives an expression its value under an assignment of symbols;
`Expr.text` writes it the way messages and listings show it.
-/
import IntelAsm.Arith
import IntelAsm.Text.Hex

namespace IntelAsm

/-- An expression tree. -/
inductive Expr where
  | int (value : Int64)
  | var (name : String)
  | unary (op : UnaryOp) (inner : Expr)
  | binary (op : BinaryOp) (left right : Expr)
deriving DecidableEq, Inhabited

/-- Why an expression has no value. -/
inductive ResolveError where
  | undefined (name : String)
  | arith (error : ArithError)
deriving DecidableEq, Inhabited

namespace Expr

/-- An arithmetic failure as a failure to resolve. -/
def arithmetic (r : Except ArithError Int64) : Except ResolveError Int64 :=
  r.mapError .arith

/-- The value under an assignment of symbols. Operands are resolved left to right, and the first
failure is the answer. -/
def resolve (lookup : String → Option Int64) : Expr → Except ResolveError Int64
  | .int v => .ok v
  | .var name =>
    match lookup name with
    | some v => .ok v
    | none => .error (.undefined name)
  | .unary op inner => do arithmetic (op.apply (← inner.resolve lookup))
  | .binary op left right => do
    let a ← left.resolve lookup
    let b ← right.resolve lookup
    arithmetic (op.apply a b)

/-- Whether the tree is an operator between two operands. -/
def isBinary : Expr → Bool
  | .binary .. => true
  | _ => false

/-- A constant: one digit in decimal, anything longer in hexadecimal. -/
def constantText (v : Int64) : String :=
  let n := v.toInt
  if n < 0 then "-" ++ Text.markedHex n.natAbs
  else if 9 < n then Text.markedHex n.toNat
  else toString n.toNat

/-- The text of an expression. The operand of a sign and the right operand of an operator stand in
parentheses if they are operators between two operands themselves; a left operand never does. -/
def text : Expr → String
  | .int v => constantText v
  | .var name => name
  | .unary op inner =>
    op.symbol.toString ++ (if inner.isBinary then "(" ++ inner.text ++ ")" else inner.text)
  | .binary op left right =>
    left.text ++ " " ++ op.symbol.toString ++ " " ++
      (if right.isBinary then "(" ++ right.text ++ ")" else right.text)

end Expr
end IntelAsm
