/-
Intervals of 64-bit integers, the bounds of a symbol or of an expression over
symbols whose values are not fixed yet. An operation on intervals has a result
only if none of its corners overflows, so whoever gets an interval knows that
the expression has a value for every choice within the bounds. The unknown
interval is `none`.
-/
import IntelAsm.Expr
import IntelAsm.Width

namespace IntelAsm

/-- The values from `min` to `max`. -/
structure Interval where
  min : Int64
  max : Int64
deriving DecidableEq, Inhabited

namespace Interval

def exact (v : Int64) : Interval := ⟨v, v⟩

/-- The value lies within the bounds. -/
protected abbrev Mem (b : Interval) (v : Int64) : Prop := b.min ≤ v ∧ v ≤ b.max

/-- Both bounds are signed values of the width. -/
abbrev FitsSigned (b : Interval) (w : Width) : Prop :=
  w.FitsSigned b.min.toInt ∧ w.FitsSigned b.max.toInt

/-- The least interval around both. -/
def union (a b : Interval) : Interval :=
  ⟨if b.min < a.min then b.min else a.min, if a.max < b.max then b.max else a.max⟩

def unary (op : UnaryOp) (b : Interval) : Option Interval :=
  match op with
  | .plus => some b
  | .neg | .not => do return ⟨← (op.apply b.max).toOption, ← (op.apply b.min).toOption⟩

/-- The least and the greatest of a list that starts with `v`. -/
def hull (v : Int64) (vs : List Int64) : Interval :=
  vs.foldl (fun b w => b.union (exact w)) (exact v)

/-- The hull of the four results at the ends of both intervals. -/
def corners (op : BinaryOp) (a b : Interval) : Option Interval := do
  let p ← (op.apply a.min b.min).toOption
  let q ← (op.apply a.min b.max).toOption
  let r ← (op.apply a.max b.min).toOption
  let s ← (op.apply a.max b.max).toOption
  return hull p [q, r, s]

/-- The bounds of a result. A quotient has bounds only for one known divisor other than zero. -/
def binary (op : BinaryOp) (a b : Interval) : Option Interval :=
  match op with
  | .add => do return ⟨← (op.apply a.min b.min).toOption, ← (op.apply a.max b.max).toOption⟩
  | .sub => do return ⟨← (op.apply a.min b.max).toOption, ← (op.apply a.max b.min).toOption⟩
  | .mul => corners op a b
  | .div => if b.min = b.max ∧ b.min ≠ 0 then corners op a b else none

end Interval

/-- The bounds of an expression under bounds of its symbols. -/
def Expr.bounds (symbols : String → Option Interval) : Expr → Option Interval
  | .int v => some (.exact v)
  | .var name => symbols name
  | .unary op inner => do (← inner.bounds symbols).unary op
  | .binary op left right => do
    let a ← left.bounds symbols
    let b ← right.bounds symbols
    a.binary op b

end IntelAsm
