/-
From an operand as written to an operand by kind. The expression is folded
bottom up: names of registers are registers, other names are symbols, sums of
registers and values build an address, and arithmetic on values is carried out
at once where both are known. What the fold cannot give a meaning is refused
with an `OperandError`.
-/
import IntelAsm.Error
import IntelAsm.Operand
import IntelAsm.Statement

namespace IntelAsm

/-- Why an operand has no meaning. -/
inductive OperandError where
  | sizeMismatch (register : Register) (size : Width)
  | valueTooWide (value : Int64) (size : Width)
  | undefinedSymbol (name : String)
  | operatorOnAddress
  | arith (error : ArithError)
  | symbolicProduct
  | symbolicScale
  | secondBase
  | noSense
  | badBase (register : Register)
  | badIndex (register : Register)
  | pointerWithIndex
  | mixedWidths
  | badAddressSize
  | addressSizeMismatch (registers requested : Width)
deriving DecidableEq, Inhabited

def OperandError.message : OperandError → String
  | .sizeMismatch register size =>
    "invalid operand size: '" ++ register.name ++ "' is not " ++ size.keyword
  | .valueTooWide value size =>
    "value " ++ toString value.toInt ++ " does not fit in " ++ size.keyword
  | .undefinedSymbol name => "undefined symbol '" ++ name ++ "'"
  | .operatorOnAddress => "unary operator needs an immediate operand"
  | .arith error => error.message
  | .symbolicProduct => "cannot multiply or divide two symbolic values"
  | .symbolicScale => "scale factor must be a constant"
  | .secondBase => "invalid syntax: address already has a base register"
  | .noSense => "invalid syntax"
  | .badBase register => "'" ++ register.name ++ "' cannot be used as a base register"
  | .badIndex register => "'" ++ register.name ++ "' cannot be used as an index register"
  | .pointerWithIndex => "instruction pointer cannot be combined with an index"
  | .mixedWidths => "mismatched address register sizes"
  | .badAddressSize => "invalid address size"
  | .addressSizeMismatch registers requested =>
    "address registers are " ++ registers.keyword ++ " but " ++ requested.keyword ++
      " addressing was requested"

namespace Immediate

variable (symbols : String → Option Interval)

/-- An expression over symbols as a value with its bounds. -/
def ofExpr (e : Expr) : Immediate := .symbolic e (e.bounds symbols)

def unary (op : UnaryOp) (i : Immediate) : Except OperandError Immediate :=
  match i.value with
  | .fixed v => (op.apply v).map fixed |>.mapError .arith
  | .symbolic e _ => .ok (ofExpr symbols (.unary op e))

def binary (op : BinaryOp) (a b : Immediate) : Except OperandError Immediate :=
  match a.value, b.value with
  | .fixed x, .fixed y => (op.apply x y).map fixed |>.mapError .arith
  | .symbolic .., .symbolic .. =>
    if op.isAdditive then .ok (ofExpr symbols (.binary op a.value.expr b.value.expr))
    else .error .symbolicProduct
  | _, _ => .ok (ofExpr symbols (.binary op a.value.expr b.value.expr))

end Immediate

namespace Memory

variable (symbols : String → Option Interval)

/-- The address with `d` added behind its displacement, or subtracted from it. -/
def shift (op : BinaryOp) (m : Memory) (d : Immediate) : Except OperandError Memory := do
  let disp ← match m.disp with
    | some old => Immediate.binary symbols op old d
    | none => if op = .sub then Immediate.unary symbols .neg d else .ok d
  return { m with disp := some disp }

/-- The address with `d` added in front of its displacement. -/
def shiftFront (d : Immediate) (m : Memory) : Except OperandError Memory := do
  let disp ← match m.disp with
    | some old => Immediate.binary symbols .add d old
    | none => .ok d
  return { m with disp := some disp }

/-- The address with a base, which it must not have yet. -/
def addBase (m : Memory) (r : Register) : Except OperandError Memory :=
  match m.base with
  | some _ => .error .secondBase
  | none => .ok { m with base := some r }

/-- The address of a register times a known factor. -/
def scaled (r : Register) (factor : Immediate) : Except OperandError Memory :=
  match factor.fixed? with
  | some scale => .ok { empty with index := some ⟨r, scale⟩ }
  | none => .error .symbolicScale

/-- The width of the registers of an address, which must all be the same. -/
def registerWidth (m : Memory) : Except OperandError (Option Width) := do
  let size ← match m.base with
    | some base =>
      if base.isAddress || base.isPointer then .ok (some base.width) else .error (.badBase base)
    | none => .ok none
  match m.index with
  | none => return size
  | some index =>
    if !index.register.isAddress then .error (.badIndex index.register)
    else if m.base.any Register.isPointer then .error .pointerWithIndex
    else
      match size with
      | some w => if w ≠ index.register.width then .error .mixedWidths else return some w
      | none => return some index.register.width

/-- The width of the address: that of its registers, which a declared width must agree with, or
else the declared one. -/
def resolveSize (m : Memory) (declared : Option Width) : Except OperandError (Option Width) := do
  let size ← m.registerWidth
  if declared = some .byte then .error .badAddressSize
  else
    match size, declared with
    | some w, some d => if w ≠ d then .error (.addressSizeMismatch w d) else return some w
    | some w, none => return some w
    | none, d => return d

end Memory

namespace OperandKind

variable (symbols : String → Option Interval)

/-- The meaning of an operator between two operands. -/
def combine (op : BinaryOp) (l r : OperandKind) : Except OperandError OperandKind :=
  match op, l, r with
  | op, .immediate a, .immediate b => .immediate <$> Immediate.binary symbols op a b
  | .add, .register r, .immediate d | .add, .immediate d, .register r =>
    .ok (.memory { Memory.empty with base := some r, disp := some d })
  | .sub, .register r, .immediate d => do
    let d ← Immediate.unary symbols .neg d
    return .memory { Memory.empty with base := some r, disp := some d }
  | .add, .register base, .register index =>
    .ok (.memory { Memory.empty with base := some base, index := some ⟨index, 1⟩ })
  | .mul, .register r, .immediate factor | .mul, .immediate factor, .register r =>
    .memory <$> Memory.scaled r factor
  | .add, .memory m, .register r | .add, .register r, .memory m => .memory <$> m.addBase r
  | .add, .memory m, .immediate d => .memory <$> m.shift symbols .add d
  | .sub, .memory m, .immediate d => .memory <$> m.shift symbols .sub d
  | .add, .immediate d, .memory m => .memory <$> m.shiftFront symbols d
  | _, _, _ => .error .noSense

/-- The meaning of an expression. A name that is no register and no known symbol is refused outside
an address and kept for later inside one. -/
def ofExpr (inAddress : Bool) : Expr → Except OperandError OperandKind
  | .int v => .ok (.immediate (.fixed v))
  | .var name =>
    match Register.ofName? name with
    | some r => .ok (.register r)
    | none =>
      let bounds := symbols name
      if bounds.isNone && !inAddress then .error (.undefinedSymbol name)
      else .ok (.immediate (.symbolic (.var name) bounds))
  | .unary op inner => do
    match ← ofExpr inAddress inner with
    | .immediate i => .immediate <$> i.unary symbols op
    | _ => .error .operatorOnAddress
  | .binary op left right => do
    let l ← ofExpr inAddress left
    let r ← ofExpr inAddress right
    combine symbols op l r

/-- What stands in brackets is an address: a register is its base, a value its displacement. -/
def toMemory : OperandKind → Memory
  | .register r => { Memory.empty with base := some r }
  | .immediate i => { Memory.empty with disp := some i }
  | .memory m => m

end OperandKind

namespace ParsedOperand

variable (symbols : String → Option Interval)

/-- The operand by kind, or the reason why it has none. -/
def classify (o : ParsedOperand) : Except OperandError Operand := do
  let kind ← OperandKind.ofExpr symbols o.address o.expr
  match if o.address then .memory kind.toMemory else kind with
  | .register r =>
    match o.size with
    | some w =>
      if w ≠ r.width then .error (.sizeMismatch r w) else return .ofRegister r o.span
    | none => return .ofRegister r o.span
  | .immediate i =>
    match o.size with
    | some w =>
      match i.value with
      | .fixed v =>
        if !o.distance && ¬ w.Fits v.toInt then .error (.valueTooWide v w)
        else return .ofImmediate { i with size := some w } o.span
      | .symbolic .. => return .ofImmediate { i with size := some w } o.span
    | none => return .ofImmediate i o.span
  | .memory m =>
    let addressSize ← m.resolveSize o.addressSize
    return .ofMemory { m with segment := o.segment, addressSize } o.size o.span

/-- The operand by kind, or a diagnostic at its place. -/
def evaluate (o : ParsedOperand) : Except Diagnostic Operand :=
  (o.classify symbols).mapError fun e => .badOperand e.message o.span

/-- All operands by kind, or the diagnostic of the first that has none. -/
def evaluateAll (os : List ParsedOperand) : Except Diagnostic (List Operand) :=
  os.mapM (evaluate symbols)

end ParsedOperand
end IntelAsm
