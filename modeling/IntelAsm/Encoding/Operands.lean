/-
The fields that operands take in an instruction form. Each operand has a role
by its slot: the register part or the r/m part of the ModR/M byte, the
immediate, the branch distance, or none. A segment register is always the
register part and leaves a general register beside it to the r/m part.
-/
import IntelAsm.Encoding.Address
import IntelAsm.Encoding.Row

namespace IntelAsm

/-- The operands of a form by role. -/
structure Roles where
  register : Option Operand
  rm : Option Operand
  imm : Field
  rel : Field
deriving DecidableEq, Inhabited

namespace Roles

def empty : Roles := ⟨none, none, .absent, .absent⟩

/-- The roles with one more operand. -/
def assign (withSegment : Bool) (roles : Roles) : Shape × Operand → Except EncodingError Roles
  | (.segment, o) => .ok { roles with register := some o }
  | (.reg _, o) =>
    if withSegment then .ok { roles with rm := some o } else .ok { roles with register := some o }
  | (.rm _, o) | (.rmDefault _, o) | (.mem _, o) | (.memAny, o) => .ok { roles with rm := some o }
  | (.imm w, o) => immediate w false o
  | (.immSigned w, o) => immediate w true o
  | (.rel w, o) =>
    match o.immediate? with
    | some i => .ok { roles with rel := .later w.bytes i.value.expr true }
    | none => .error (.invalidCombination "expected a branch target")
  | (.one, _) | (.fixed _, _) => .ok roles
where
  /-- The roles with an immediate field of width `w`. -/
  immediate (w : Width) (signed : Bool) (o : Operand) : Except EncodingError Roles :=
    match o.immediate? with
    | some i => .ok { roles with imm := .ofImmediate w.bytes i signed }
    | none => .error (.invalidCombination "expected an immediate")

/-- The roles of the operands of a form. -/
def ofSlots (shapes : List Shape) (operands : List Operand) : Except EncodingError Roles :=
  (shapes.zip operands).foldlM (assign (shapes.contains .segment)) empty

/-- The operand in the register part, which must be a register. -/
def requireRegister (roles : Roles) : Except EncodingError Register :=
  match roles.register.bind Operand.register? with
  | some r => .ok r
  | none => .error (.invalidCombination "expected a register operand")

/-- The operand in the r/m part. -/
def requireRm (roles : Roles) : Except EncodingError Operand :=
  match roles.rm with
  | some o => .ok o
  | none => .error (.invalidCombination "missing r/m operand")

end Roles

/-- What the operands contribute to an instruction. -/
structure OperandFields where
  opcodeReg : Option Nat
  rex : RexRequest
  modrm : Option UInt8
  sib : Option UInt8
  disp : Field
  imm : Field
  rel : Field
  addressSize : Option Width
deriving DecidableEq, Inhabited

namespace OperandFields

/-- The fields of a form whose ModR/M byte, if any, is still to come. -/
def ofRoles (roles : Roles) (rexW : RexBit) : OperandFields :=
  ⟨none, { RexRequest.free with w := rexW }, none, none, .absent, roles.imm, roles.rel, none⟩

/-- The fields with a register in the r/m part. -/
def rmRegister (f : OperandFields) (reg : Nat) (r : Register) : OperandFields :=
  { f with modrm := some (modrmByte 3 reg r.code), rex := { f.rex with b := r.rexBit } }

/-- The fields with an address in the r/m part. -/
def rmAddress (f : OperandFields) (reg : Nat) (a : AddressForm) : OperandFields :=
  { f with
    modrm := some (modrmByte a.mode reg a.rm)
    sib := a.sib
    disp := a.disp
    rex := { f.rex with x := a.rexX, b := a.rexB }
    addressSize := some a.width }

/-- The fields with an operand in the r/m part and `reg` in the register part. -/
def withRm (f : OperandFields) (reg : Nat) (o : Operand) (mode : Mode) :
    Except EncodingError OperandFields :=
  match o.kind with
  | .register r => .ok (f.rmRegister reg r)
  | .memory m => do return f.rmAddress reg (← m.encode mode)
  | .immediate _ => .error (.invalidCombination "immediate in r/m position")

/-- The fields of operands in a form. `digit` extends the opcode where the layout asks for it, and
`wide` asks for an operation of 64 bits. -/
def encode (layout : OperandLayout) (shapes : List Shape) (digit : Option Nat) (wide : Bool)
    (operands : List Operand) (mode : Mode) : Except EncodingError OperandFields := do
  if shapes.length ≠ operands.length then
    .error (.invalidCombination "operand count does not match the encoding")
  else
    let roles ← Roles.ofSlots shapes operands
    let fields := ofRoles roles (if wide then .set else .free)
    match layout with
    | .np | .i | .d => return fields
    | .o | .oi =>
      let r ← roles.requireRegister
      return { fields with opcodeReg := some r.code, rex := { fields.rex with b := r.rexBit } }
    | .m | .mi =>
      match digit with
      | none => .error (.invalidCombination "missing opcode extension")
      | some digit => fields.withRm digit (← roles.requireRm) mode
    | .mr | .rm | .rmi =>
      let r ← roles.requireRegister
      let o ← roles.requireRm
      { fields with rex := { fields.rex with r := r.rexBit } }.withRm r.code o mode

end OperandFields
end IntelAsm
