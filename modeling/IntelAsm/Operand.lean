/-
Operands by kind: a register, an immediate value or a place in memory. A value
is either known or symbolic; a symbolic one keeps its expression and, where
the symbols allow, the bounds of what it can come out as.
-/
import IntelAsm.Interval
import IntelAsm.Register
import IntelAsm.Span

namespace IntelAsm

/-- A value known now, or an expression to be resolved once labels have addresses. -/
inductive ImmValue where
  | fixed (value : Int64)
  | symbolic (expr : Expr) (bounds : Option Interval)
deriving DecidableEq, Inhabited

/-- The value as an expression. -/
def ImmValue.expr : ImmValue → Expr
  | .fixed v => .int v
  | .symbolic e _ => e

/-- A value and the width it was declared with, if any. -/
structure Immediate where
  value : ImmValue
  size : Option Width
deriving DecidableEq, Inhabited

namespace Immediate

def fixed (v : Int64) : Immediate := ⟨.fixed v, none⟩

def symbolic (e : Expr) (bounds : Option Interval) : Immediate := ⟨.symbolic e bounds, none⟩

def fixed? (i : Immediate) : Option Int64 :=
  match i.value with
  | .fixed v => some v
  | .symbolic .. => none

def text (i : Immediate) : String := i.value.expr.text

end Immediate

/-- A register times a factor. -/
structure Index where
  register : Register
  scale : Int64
deriving DecidableEq, Inhabited

/-- An address: base, scaled index and displacement, each optional. -/
structure Memory where
  base : Option Register
  index : Option Index
  disp : Option Immediate
  addressSize : Option Width
  segment : Option Register
deriving DecidableEq, Inhabited

namespace Memory

/-- The address without any part. -/
def empty : Memory := ⟨none, none, none, none, none⟩

/-- The registers of an address as written: the base, then the scaled index. -/
def registerText (m : Memory) : List String :=
  (m.base.map Register.name).toList ++
    (m.index.map fun i => i.register.name ++ "*" ++ toString i.scale.toInt).toList

/-- The displacement behind the registers; a known negative one is subtracted. -/
def dispText (d : Immediate) : String :=
  match d.fixed? with
  | some v => if v.toInt < 0 then " - " ++ Text.markedHex v.toInt.natAbs else " + " ++ d.text
  | none => " + " ++ d.text

/-- What stands in the brackets. -/
def bodyText (m : Memory) : String :=
  match m.registerText, m.disp with
  | [], some d => d.text
  | [], none => "0"
  | rs, some d => " + ".intercalate rs ++ dispText d
  | rs, none => " + ".intercalate rs

def text (m : Memory) : String :=
  (match m.segment with
    | some s => s.name ++ ":"
    | none => "") ++ "[" ++ m.bodyText ++ "]"

end Memory

/-- What an operand is. -/
inductive OperandKind where
  | register (register : Register)
  | immediate (immediate : Immediate)
  | memory (memory : Memory)
deriving DecidableEq, Inhabited

/-- An operand with the width it has or was declared with. -/
structure Operand where
  kind : OperandKind
  size : Option Width
  span : Span
deriving DecidableEq, Inhabited

namespace Operand

def ofRegister (r : Register) (span : Span) : Operand := ⟨.register r, some r.width, span⟩

def ofImmediate (i : Immediate) (span : Span) : Operand := ⟨.immediate i, i.size, span⟩

def ofMemory (m : Memory) (size : Option Width) (span : Span) : Operand := ⟨.memory m, size, span⟩

def register? (o : Operand) : Option Register :=
  match o.kind with
  | .register r => some r
  | _ => none

def immediate? (o : Operand) : Option Immediate :=
  match o.kind with
  | .immediate i => some i
  | _ => none

def memory? (o : Operand) : Option Memory :=
  match o.kind with
  | .memory m => some m
  | _ => none

def text (o : Operand) : String :=
  match o.kind with
  | .register r => r.name
  | .immediate i =>
    match i.size with
    | some w => w.keyword ++ " " ++ i.text
    | none => i.text
  | .memory m =>
    match o.size with
    | some w => w.keyword ++ " ptr " ++ m.text
    | none => m.text

end Operand
end IntelAsm
