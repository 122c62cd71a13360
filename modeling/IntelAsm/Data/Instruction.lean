/-
Shapes, encoded instructions and their parts as plain data.
-/
import IntelAsm.Data.Operand
import IntelAsm.Encoding.Rex
import IntelAsm.Encoding.Row
import IntelAsm.Instruction

namespace IntelAsm

namespace Shape

def toData : Shape → Data
  | .imm w => .tagged "Imm" w.toData
  | .immSigned w => .tagged "ImmSx" w.toData
  | .one => .text "One"
  | .rel w => .tagged "Rel" w.toData
  | .reg w => .tagged "Reg" w.toData
  | .fixed r => .tagged "FixedReg" r.toData
  | .segment => .text "Sreg"
  | .rm w => .tagged "Rm" w.toData
  | .rmDefault w => .tagged "RmDefault" w.toData
  | .mem w => .tagged "Mem" w.toData
  | .memAny => .text "MemAny"

def ofData? (d : Data) : Option Shape := do
  match ← d.variant? with
  | ("Imm", w) => return .imm (← Width.ofData? w)
  | ("ImmSx", w) => return .immSigned (← Width.ofData? w)
  | ("One", .null) => return .one
  | ("Rel", w) => return .rel (← Width.ofData? w)
  | ("Reg", w) => return .reg (← Width.ofData? w)
  | ("FixedReg", r) => return .fixed (← Register.ofData? r)
  | ("Sreg", .null) => return .segment
  | ("Rm", w) => return .rm (← Width.ofData? w)
  | ("RmDefault", w) => return .rmDefault (← Width.ofData? w)
  | ("Mem", w) => return .mem (← Width.ofData? w)
  | ("MemAny", .null) => return .memAny
  | _ => none

end Shape

def OperandLayout.ofData? : Data → Option OperandLayout :=
  Data.named? (OperandLayout.all.map fun l => (l.tag, l))

namespace RexBit

/-- Every request. -/
def all : List RexBit := [.free, .forbidden, .clear, .set]

def tag : RexBit → String
  | .free => "NotApplicable"
  | .forbidden => "Unencodable"
  | .clear => "False"
  | .set => "True"

def toData (b : RexBit) : Data := .text b.tag

def ofData? : Data → Option RexBit := Data.named? (all.map fun b => (b.tag, b))

end RexBit

namespace RexRequest

def toData (q : RexRequest) : Data :=
  .record [("w", q.w.toData), ("r", q.r.toData), ("x", q.x.toData), ("b", q.b.toData)]

def ofData? (d : Data) : Option RexRequest := do
  let [w, r, x, b] ← d.fields? ["w", "r", "x", "b"] | none
  return ⟨← RexBit.ofData? w, ← RexBit.ofData? r, ← RexBit.ofData? x, ← RexBit.ofData? b⟩

end RexRequest

namespace Field

def toData (f : Field) : Data :=
  .record [("size", .ofNat f.size), ("value", .ofInt64 f.value),
    ("deferred", .ofOption Expr.toData f.deferred), ("pc_relative", .bool f.pcRelative),
    ("signed", .bool f.signed)]

def ofData? (d : Data) : Option Field := do
  let [size, value, deferred, pcRelative, signed] ←
    d.fields? ["size", "value", "deferred", "pc_relative", "signed"] | none
  return {
    size := ← size.nat? 8
    value := ← value.int64?
    deferred := ← deferred.option? Expr.ofData?
    pcRelative := ← pcRelative.bool?
    signed := ← signed.bool? }

end Field

namespace FieldKind

/-- Every field of an instruction. -/
def all : List FieldKind := [.displacement, .immediate, .branch]

def tag : FieldKind → String
  | .displacement => "Displacement"
  | .immediate => "Immediate"
  | .branch => "Branch"

def toData (k : FieldKind) : Data := .text k.tag

def ofData? : Data → Option FieldKind := Data.named? (all.map fun k => (k.tag, k))

end FieldKind

namespace PrefixBytes

def toData (p : PrefixBytes) : Data :=
  .record [("group1", .ofOption .ofByte p.group1), ("group2", .ofOption .ofByte p.group2),
    ("operand_size", .bool p.operandSize), ("address_size", .bool p.addressSize)]

def ofData? (d : Data) : Option PrefixBytes := do
  let [group1, group2, operandSize, addressSize] ←
    d.fields? ["group1", "group2", "operand_size", "address_size"] | none
  return ⟨← group1.option? Data.byte?, ← group2.option? Data.byte?, ← operandSize.bool?,
    ← addressSize.bool?⟩

end PrefixBytes

namespace Instruction

def toData (i : Instruction) : Data :=
  .record [("prefixes", i.prefixes.toData), ("rex", .ofOption .ofByte i.rex),
    ("opcode", .list [.ofByte i.opcode.byte0, .ofByte i.opcode.byte1, .ofByte i.opcode.byte2]),
    ("opcode_len", .ofNat i.opcode.len), ("modrm", .ofOption .ofByte i.modrm),
    ("sib", .ofOption .ofByte i.sib), ("disp", i.disp.toData), ("imm", i.imm.toData),
    ("rel", i.rel.toData), ("span", i.span.toData)]

/-- The opcode of its three bytes and its length. -/
def opcodeOfData? (bytes len : Data) : Option Opcode := do
  let [byte0, byte1, byte2] ← bytes.list? | none
  return ⟨← byte0.byte?, ← byte1.byte?, ← byte2.byte?, ← len.nat? 8⟩

def ofData? (d : Data) : Option Instruction := do
  let [prefixes, rex, opcode, opcodeLen, modrm, sib, disp, imm, rel, span] ←
    d.fields? ["prefixes", "rex", "opcode", "opcode_len", "modrm", "sib", "disp", "imm", "rel",
      "span"] | none
  return {
    prefixes := ← PrefixBytes.ofData? prefixes
    rex := ← rex.option? Data.byte?
    opcode := ← opcodeOfData? opcode opcodeLen
    modrm := ← modrm.option? Data.byte?
    sib := ← sib.option? Data.byte?
    disp := ← Field.ofData? disp
    imm := ← Field.ofData? imm
    rel := ← Field.ofData? rel
    span := ← Span.ofData? span }

end Instruction
end IntelAsm
