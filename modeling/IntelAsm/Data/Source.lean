/-
Source-level values as plain data: places, widths, modes, registers,
expressions, operands as written and statements.
-/
import IntelAsm.Data
import IntelAsm.Statement

namespace IntelAsm

namespace Span

def toData (s : Span) : Data :=
  .record [("line", .ofNat s.line), ("col", .ofNat s.col), ("offset", .ofNat s.offset),
    ("len", .ofNat s.len)]

def ofData? (d : Data) : Option Span := do
  let [line, col, offset, len] ← d.fields? ["line", "col", "offset", "len"] | none
  return ⟨.ofNat (← line.nat? 32), .ofNat (← col.nat? 32), ← offset.nat? 64, ← len.nat? 64⟩

end Span

namespace Width

def tag : Width → String
  | .byte => "Byte"
  | .word => "Word"
  | .dword => "Dword"
  | .qword => "Qword"

def toData (w : Width) : Data := .text w.tag

def ofData? : Data → Option Width := Data.named? (all.map fun w => (w.tag, w))

end Width

namespace Mode

def tag : Mode → String
  | .bits16 => "O16"
  | .bits32 => "O32"
  | .bits64 => "O64"

def toData (m : Mode) : Data := .text m.tag

def ofData? : Data → Option Mode := Data.named? (all.map fun m => (m.tag, m))

end Mode

namespace Register

/-- The name with a capital. -/
def tag (r : Register) : String := r.name.capitalize

def toData (r : Register) : Data := .text r.tag

def ofData? : Data → Option Register := Data.named? (all.map fun r => (r.tag, r))

end Register

namespace UnaryOp

def tag : UnaryOp → String
  | .plus => "Plus"
  | .neg => "Neg"
  | .not => "Not"

def ofData? : Data → Option UnaryOp :=
  Data.named? ([.plus, .neg, .not].map fun op => (tag op, op))

end UnaryOp

namespace BinaryOp

def tag : BinaryOp → String
  | .add => "Add"
  | .sub => "Sub"
  | .mul => "Mul"
  | .div => "Div"

def ofData? : Data → Option BinaryOp :=
  Data.named? ([.add, .sub, .mul, .div].map fun op => (tag op, op))

end BinaryOp

namespace Expr

def toData : Expr → Data
  | .int v => .tagged "Int" (.ofInt64 v)
  | .var name => .tagged "Var" (.text name)
  | .unary op inner => .tagged "Prefix" (.list [.text op.tag, inner.toData])
  | .binary op left right => .tagged "Infix" (.list [.text op.tag, left.toData, right.toData])

def ofData? : Data → Option Expr
  | .record [("Int", v)] => .int <$> v.int64?
  | .record [("Var", name)] => .var <$> name.text?
  | .record [("Prefix", .list [op, inner])] => do
    return .unary (← UnaryOp.ofData? op) (← ofData? inner)
  | .record [("Infix", .list [op, left, right])] => do
    return .binary (← BinaryOp.ofData? op) (← ofData? left) (← ofData? right)
  | _ => none

end Expr

namespace ParsedOperand

def toData (o : ParsedOperand) : Data :=
  .record [("size", .ofOption Width.toData o.size), ("distance", .bool o.distance),
    ("address", .bool o.address), ("address_size", .ofOption Width.toData o.addressSize),
    ("segment", .ofOption Register.toData o.segment), ("expr", o.expr.toData),
    ("span", o.span.toData)]

def ofData? (d : Data) : Option ParsedOperand := do
  let [size, distance, address, addressSize, segment, expr, span] ←
    d.fields? ["size", "distance", "address", "address_size", "segment", "expr", "span"] | none
  return {
    size := ← size.option? Width.ofData?
    distance := ← distance.bool?
    address := ← address.bool?
    addressSize := ← addressSize.option? Width.ofData?
    segment := ← segment.option? Register.ofData?
    expr := ← Expr.ofData? expr
    span := ← Span.ofData? span }

end ParsedOperand

namespace Prefix

/-- Every prefix, by group. -/
def all : List Prefix := [.lock, .rep, .repne, .branchTaken, .branchNotTaken]

def tag : Prefix → String
  | .lock => "Lock"
  | .rep => "Rep"
  | .repne => "Repne"
  | .branchTaken => "BranchTaken"
  | .branchNotTaken => "BranchNotTaken"

def toData (p : Prefix) : Data := .text p.tag

def ofData? : Data → Option Prefix := Data.named? (all.map fun p => (p.tag, p))

end Prefix

namespace ParsedInstruction

def toData (i : ParsedInstruction) : Data :=
  .record [("mnemonic", .text i.mnemonic), ("prefixes", .ofList Prefix.toData i.prefixes),
    ("operands", .ofList ParsedOperand.toData i.operands), ("span", i.span.toData)]

def ofData? (d : Data) : Option ParsedInstruction := do
  let [mnemonic, prefixes, operands, span] ←
    d.fields? ["mnemonic", "prefixes", "operands", "span"] | none
  return {
    mnemonic := ← mnemonic.text?
    prefixes := ← prefixes.listOf? Prefix.ofData?
    operands := ← operands.listOf? ParsedOperand.ofData?
    span := ← Span.ofData? span }

end ParsedInstruction

namespace Statement

def toData : Statement → Data
  | .label name span => .tagged "Label" (.list [.text name, span.toData])
  | .instruction i => .tagged "Instruction" i.toData
  | .mode m span => .tagged "CodeMode" (.list [m.toData, span.toData])

def ofData? (d : Data) : Option Statement := do
  match ← d.variant? with
  | ("Label", .list [name, span]) => return .label (← name.text?) (← Span.ofData? span)
  | ("Instruction", content) => return .instruction (← ParsedInstruction.ofData? content)
  | ("CodeMode", .list [m, span]) => return .mode (← Mode.ofData? m) (← Span.ofData? span)
  | _ => none

end Statement
end IntelAsm
