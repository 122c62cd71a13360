/-
Arithmetic of constant expressions. Values are 64-bit signed integers and no
operation wraps: a result outside their range is an overflow, and division,
which truncates, refuses the divisor zero. `exact64` is the only way from an
integer to a value, so each operation means its integer counterpart
(`UnaryOp.denote`, `BinaryOp.denote`) or fails.
-/
namespace IntelAsm

/-- Why an operation has no 64-bit result. -/
inductive ArithError where
  | overflow
  | divisionByZero
deriving DecidableEq, Inhabited

def ArithError.message : ArithError → String
  | .overflow => "arithmetic overflow"
  | .divisionByZero => "division by zero"

/-- Operators in front of one operand. -/
inductive UnaryOp where
  | plus
  | neg
  | not
deriving DecidableEq, Inhabited

/-- Operators between two operands. -/
inductive BinaryOp where
  | add
  | sub
  | mul
  | div
deriving DecidableEq, Inhabited

/-- The 64-bit integer equal to `n`, if there is one. -/
def exact64 (n : Int) : Except ArithError Int64 :=
  if Int64.minValue.toInt ≤ n ∧ n ≤ Int64.maxValue.toInt then .ok (Int64.ofInt n)
  else .error .overflow

theorem exact64_eq_ok_iff {n : Int} {v : Int64} : exact64 n = .ok v ↔ v.toInt = n := by
  unfold exact64
  constructor
  · intro h
    split at h
    · rename_i hn
      cases h
      rw [Int64.toInt_minValue, Int64.toInt_maxValue] at hn
      exact Int64.toInt_ofInt_of_le hn.1 (by omega)
    · cases h
  · rintro rfl
    rw [if_pos ⟨v.minValue_le_toInt, v.toInt_le⟩, Int64.ofInt_toInt]

@[simp] theorem exact64_toInt (v : Int64) : exact64 v.toInt = .ok v :=
  exact64_eq_ok_iff.2 rfl

namespace UnaryOp

/-- The operator over the integers; `~v` is `-v - 1`. -/
def denote : UnaryOp → Int → Int
  | .plus, v => v
  | .neg, v => -v
  | .not, v => -v - 1

def apply (op : UnaryOp) (v : Int64) : Except ArithError Int64 := exact64 (op.denote v.toInt)

def symbol : UnaryOp → Char
  | .plus => '+'
  | .neg => '-'
  | .not => '~'

end UnaryOp

namespace BinaryOp

/-- The operator over the integers; division truncates. -/
def denote : BinaryOp → Int → Int → Int
  | .add, a, b => a + b
  | .sub, a, b => a - b
  | .mul, a, b => a * b
  | .div, a, b => a.tdiv b

def apply (op : BinaryOp) (a b : Int64) : Except ArithError Int64 :=
  if op = .div ∧ b = 0 then .error .divisionByZero else exact64 (op.denote a.toInt b.toInt)

def symbol : BinaryOp → Char
  | .add => '+'
  | .sub => '-'
  | .mul => '*'
  | .div => '/'

/-- The operators whose operands may be symbols on both sides. -/
def isAdditive : BinaryOp → Bool
  | .add | .sub => true
  | .mul | .div => false

end BinaryOp
end IntelAsm
