/-
Shapes of operands, the columns of the instruction table. A shape says which
operands a slot of an instruction form takes; a whole form is matched slot by
slot, and a place in memory of unknown size takes its width from a register in
another slot.
-/
import IntelAsm.Operand

namespace IntelAsm

/-- One slot of an instruction form. -/
inductive Shape where
  /-- An immediate field of that width. -/
  | imm (width : Width)
  /-- An immediate field that is sign-extended to the size of the operation. -/
  | immSigned (width : Width)
  /-- The constant 1. -/
  | one
  /-- A branch target, as a distance of that width. -/
  | rel (width : Width)
  /-- A general register of that width. -/
  | reg (width : Width)
  /-- This register and no other. -/
  | fixed (register : Register)
  /-- A segment register. -/
  | segment
  /-- A general register or a place in memory of that width. -/
  | rm (width : Width)
  /-- As `rm`, and a place in memory of unknown size has that width. -/
  | rmDefault (width : Width)
  /-- A place in memory of that width. -/
  | mem (width : Width)
  /-- A place in memory of any size. -/
  | memAny
deriving DecidableEq, Inhabited

namespace Immediate

/-- Whether the value may stand in a field of width `w`. A declared width must be that of the
field. Otherwise a known value or the bounds of a symbolic one decide, read as signed or, with
`unsignedToo`, as unsigned; a symbol without bounds needs 32 bits or more. -/
def fitsField (i : Immediate) (w : Width) (unsignedToo : Bool) : Bool :=
  match i.size, i.value with
  | some declared, .fixed v => declared = w && decide (w.Fits v.toInt)
  | some declared, .symbolic .. => declared = w
  | none, .fixed v =>
    w = .qword || decide (w.FitsSigned v.toInt) || (unsignedToo && decide (w.Fits v.toInt))
  | none, .symbolic _ (some b) =>
    w = .qword || decide (b.FitsSigned w) ||
      (unsignedToo && decide (0 ≤ b.min.toInt) && decide (b.max.toInt ≤ w.maxUnsigned))
  | none, .symbolic _ none => w = .dword || w = .qword

end Immediate

namespace Operand

/-- Whether the operand is a value for a sign-extended field of width `w`. -/
def isImmediate (o : Operand) (w : Width) : Bool := o.immediate?.any (·.fitsField w false)

/-- Whether the operand is a value for a field of width `w`. -/
def fitsImmediateField (o : Operand) (w : Width) : Bool := o.immediate?.any (·.fitsField w true)

/-- Whether the operand is a general register of width `w`. -/
def isRegister (o : Operand) (w : Width) : Bool :=
  o.register?.any fun r => r.registerClass = .general && r.width = w

/-- Whether the operand is a place in memory that can have width `w`. -/
def isMemory (o : Operand) (w : Width) : Bool := o.memory?.isSome && o.size.all (· = w)

def isRegisterOrMemory (o : Operand) (w : Width) : Bool := o.isRegister w || o.isMemory w

/-- Whether the operand is a place in memory of declared width `w`. -/
def isSizedMemory (o : Operand) (w : Width) : Bool := o.memory?.isSome && o.size = some w

/-- Whether the operand is a place in memory of unknown size. -/
def isUnsizedMemory (o : Operand) : Bool := o.memory?.isSome && o.size.isNone

end Operand

namespace Shape

/-- Whether the slot takes the operand by itself. -/
def accepts (s : Shape) (o : Operand) : Bool :=
  match s with
  | .imm w => o.fitsImmediateField w
  | .immSigned w =>
    o.isImmediate w &&
      (o.immediate?.bind Immediate.fixed?).all fun v => w = .qword || decide (w.FitsSigned v.toInt)
  | .one => o.immediate?.any fun i => i.fixed? = some 1 && i.size.all (· = .byte)
  | .rel .byte => o.immediate?.any fun i => i.size = some .byte
  | .rel w => o.immediate?.any fun i => i.size.all (· = w)
  | .reg w => o.isRegister w
  | .fixed r => o.register? = some r
  | .segment => o.register?.any fun r => r.registerClass = .segment
  | .rm w => o.isRegister w || o.isSizedMemory w
  | .rmDefault w => o.isRegisterOrMemory w
  | .mem w => o.isSizedMemory w
  | .memAny => o.memory?.isSome

/-- The width that a place in memory of unknown size takes in the slot if a register vouches
for it. -/
def memoryWidth? : Shape → Option Width
  | .rm w | .mem w => some w
  | _ => none

/-- Whether the operand of the slot stands in the r/m part of the ModR/M byte. -/
def isRm : Shape → Bool
  | .rm _ | .rmDefault _ | .mem _ | .memAny => true
  | _ => false

/-- Whether the slot holds a general register of width `w` and asks for one. -/
def vouches (w : Width) (slot : Shape × Operand) : Bool := slot.1 = .reg w && slot.2.isRegister w

/-- Whether a slot takes its operand, given all slots of the form. -/
def acceptsAmong (slots : List (Shape × Operand)) (slot : Shape × Operand) : Bool :=
  slot.1.accepts slot.2 ||
    match slot.1.memoryWidth? with
    | some w => slot.2.isUnsizedMemory && slots.any (vouches w)
    | none => false

/-- Whether the slots of a form take the operands. -/
def acceptAll (shapes : List Shape) (operands : List Operand) : Bool :=
  let slots := shapes.zip operands
  shapes.length = operands.length && slots.all (acceptsAmong slots)

end Shape
end IntelAsm
