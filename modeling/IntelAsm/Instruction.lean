/-
Encoded instructions, part by part: prefix bytes, REX byte, opcode, ModR/M and
SIB bytes, and the three fields. `Instruction.bytes` is their concatenation in
that order, and `Instruction.fixups` lists the fields that wait for symbols
with the place of each in the bytes.
-/
import IntelAsm.Encoding.Field
import IntelAsm.Statement
import IntelAsm.Text.Hex

namespace IntelAsm

/-- The bytes in front of an instruction: one of each group, and the switches of operand and
address size. -/
structure PrefixBytes where
  group1 : Option UInt8
  group2 : Option UInt8
  operandSize : Bool
  addressSize : Bool
deriving DecidableEq, Inhabited

namespace PrefixBytes

def empty : PrefixBytes := ⟨none, none, false, false⟩

def bytes (p : PrefixBytes) : List UInt8 :=
  p.group1.toList ++ p.group2.toList ++ (if p.operandSize then [0x66] else []) ++
    (if p.addressSize then [0x67] else [])

end PrefixBytes

/-- An opcode of up to three bytes. -/
structure Opcode where
  byte0 : UInt8
  byte1 : UInt8
  byte2 : UInt8
  len : Nat
deriving DecidableEq, Inhabited

namespace Opcode

def bytes (o : Opcode) : List UInt8 := [o.byte0, o.byte1, o.byte2].take o.len

/-- The opcode of up to three bytes. -/
def ofBytes (bs : List UInt8) : Opcode := ⟨bs.getD 0 0, bs.getD 1 0, bs.getD 2 0, bs.length⟩

theorem bytes_ofBytes {bs : List UInt8} (h : bs.length ≤ 3) : (ofBytes bs).bytes = bs := by
  match bs with
  | [] | [_] | [_, _] | [_, _, _] => rfl
  | _ :: _ :: _ :: _ :: _ =>
    simp only [List.length_cons] at h
    omega

end Opcode

/-- The three fields of an instruction. -/
inductive FieldKind where
  | displacement
  | immediate
  | branch
deriving DecidableEq, Inhabited

/-- An instruction. -/
structure Instruction where
  prefixes : PrefixBytes
  rex : Option UInt8
  opcode : Opcode
  modrm : Option UInt8
  sib : Option UInt8
  disp : Field
  imm : Field
  rel : Field
  span : Span
deriving DecidableEq, Inhabited

/-- A field that waits for symbols, and its offset in the instruction. -/
structure Fixup where
  offset : Nat
  kind : FieldKind
  field : Field
deriving DecidableEq, Inhabited

namespace Instruction

/-- All bytes in front of the fields. -/
def header (i : Instruction) : List UInt8 :=
  i.prefixes.bytes ++ i.rex.toList ++ i.opcode.bytes ++ i.modrm.toList ++ i.sib.toList

def bytes (i : Instruction) : List UInt8 :=
  i.header ++ i.disp.bytes ++ i.imm.bytes ++ i.rel.bytes

/-- The number of bytes. -/
def size (i : Instruction) : Nat := i.header.length + i.disp.size + i.imm.size + i.rel.size

@[simp] theorem length_bytes (i : Instruction) : i.bytes.length = i.size := by
  simp [bytes, size, Nat.add_assoc]

def field (i : Instruction) : FieldKind → Field
  | .displacement => i.disp
  | .immediate => i.imm
  | .branch => i.rel

/-- The instruction with another value in a field. -/
def setValue (i : Instruction) (kind : FieldKind) (value : Int64) : Instruction :=
  match kind with
  | .displacement => { i with disp := { i.disp with value } }
  | .immediate => { i with imm := { i.imm with value } }
  | .branch => { i with rel := { i.rel with value } }

/-- The offset of a field in the bytes. -/
def fieldOffset (i : Instruction) : FieldKind → Nat
  | .displacement => i.header.length
  | .immediate => i.header.length + i.disp.size
  | .branch => i.header.length + i.disp.size + i.imm.size

/-- The fields in the order of their bytes. -/
def fieldKinds : List FieldKind := [.displacement, .immediate, .branch]

/-- The fields that wait for symbols, in the order of their bytes. -/
def fixups (i : Instruction) : List Fixup :=
  (fieldKinds.map fun k => ⟨i.fieldOffset k, k, i.field k⟩).filter fun f => f.field.isDeferred

/-- The bytes in upper-case hexadecimal. -/
def text (i : Instruction) : String := Text.upperHex i.bytes

end Instruction
end IntelAsm
