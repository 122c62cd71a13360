/-
Operands by kind as plain data.
-/
import IntelAsm.Data.Source
import IntelAsm.Operand

namespace IntelAsm

namespace Interval

def toData (b : Interval) : Data := .record [("min", .ofInt64 b.min), ("max", .ofInt64 b.max)]

def ofData? (d : Data) : Option Interval := do
  let [min, max] ← d.fields? ["min", "max"] | none
  return ⟨← min.int64?, ← max.int64?⟩

end Interval

namespace ImmValue

def toData : ImmValue → Data
  | .fixed v => .tagged "Fixed" (.ofInt64 v)
  | .symbolic e bounds => .tagged "Expr" (.record [("expr", e.toData),
      ("bounds", .ofOption Interval.toData bounds)])

def ofData? (d : Data) : Option ImmValue := do
  match ← d.variant? with
  | ("Fixed", v) => return .fixed (← v.int64?)
  | ("Expr", content) =>
    let [e, bounds] ← content.fields? ["expr", "bounds"] | none
    return .symbolic (← Expr.ofData? e) (← bounds.option? Interval.ofData?)
  | _ => none

end ImmValue

namespace Immediate

def toData (i : Immediate) : Data :=
  .record [("value", i.value.toData), ("size", .ofOption Width.toData i.size)]

def ofData? (d : Data) : Option Immediate := do
  let [value, size] ← d.fields? ["value", "size"] | none
  return ⟨← ImmValue.ofData? value, ← size.option? Width.ofData?⟩

end Immediate

namespace Index

def toData (i : Index) : Data := .record [("reg", i.register.toData), ("scale", .ofInt64 i.scale)]

def ofData? (d : Data) : Option Index := do
  let [register, scale] ← d.fields? ["reg", "scale"] | none
  return ⟨← Register.ofData? register, ← scale.int64?⟩

end Index

namespace Memory

def toData (m : Memory) : Data :=
  .record [("base", .ofOption Register.toData m.base), ("index", .ofOption Index.toData m.index),
    ("disp", .ofOption Immediate.toData m.disp),
    ("address_size", .ofOption Width.toData m.addressSize),
    ("segment", .ofOption Register.toData m.segment)]

def ofData? (d : Data) : Option Memory := do
  let [base, index, disp, addressSize, segment] ←
    d.fields? ["base", "index", "disp", "address_size", "segment"] | none
  return {
    base := ← base.option? Register.ofData?
    index := ← index.option? Index.ofData?
    disp := ← disp.option? Immediate.ofData?
    addressSize := ← addressSize.option? Width.ofData?
    segment := ← segment.option? Register.ofData? }

end Memory

namespace OperandKind

def toData : OperandKind → Data
  | .register r => .tagged "Register" r.toData
  | .immediate i => .tagged "Immediate" i.toData
  | .memory m => .tagged "Memory" m.toData

def ofData? (d : Data) : Option OperandKind := do
  match ← d.variant? with
  | ("Register", r) => return .register (← Register.ofData? r)
  | ("Immediate", i) => return .immediate (← Immediate.ofData? i)
  | ("Memory", m) => return .memory (← Memory.ofData? m)
  | _ => none

end OperandKind

namespace Operand

def toData (o : Operand) : Data :=
  .record [("kind", o.kind.toData), ("size", .ofOption Width.toData o.size),
    ("span", o.span.toData)]

def ofData? (d : Data) : Option Operand := do
  let [kind, size, span] ← d.fields? ["kind", "size", "span"] | none
  return ⟨← OperandKind.ofData? kind, ← size.option? Width.ofData?, ← Span.ofData? span⟩

end Operand
end IntelAsm
