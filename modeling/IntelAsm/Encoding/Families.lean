/-
Families of instructions whose rows differ only in an opcode or in its
extension: two-operand arithmetic, one-operand arithmetic, shifts, bit tests,
conditions, and instructions without operands.
-/
import IntelAsm.Encoding.Row

namespace IntelAsm.Row

/-- The widths that share an opcode. -/
def wideWidths : List Width := [.word, .dword, .qword]

/-- The opcode of a width: byte operations have one of their own, in front of the shared one. -/
def opcodeFor (byteOpcode : UInt8) (w : Width) : UInt8 :=
  if w = .byte then byteOpcode else byteOpcode + 1

/-- The accumulator of a width. -/
def accumulator (w : Width) : Shape := .fixed (.accumulator w)

/-- The widest immediate of an operation: as wide as the operation, but 32 bits sign-extended for
64. -/
def fullImmediate : Width → Shape
  | .qword => .immSigned .dword
  | w => .imm w

/-- Register or memory, then register. -/
def intoRm (opcode : List UInt8) (w : Width) : Row := form .mr [.rm w, .reg w] opcode (some w)

/-- Register, then register or memory. -/
def intoReg (opcode : List UInt8) (w : Width) : Row := form .rm [.reg w, .rm w] opcode (some w)

/-- One register or memory operand, and an opcode extension. -/
def onRm (opcode : List UInt8) (digit : Nat) (w : Width) : Row :=
  (form .m [.rm w] opcode (some w)).withDigit digit

/-- Register or memory and an immediate, and an opcode extension. -/
def rmWith (slot : Shape) (opcode : List UInt8) (digit : Nat) (w : Width) : Row :=
  (form .mi [.rm w, slot] opcode (some w)).withDigit digit

/-- The accumulator and the widest immediate. -/
def accumulatorWith (opcode : UInt8) (w : Width) : Row :=
  form .i [accumulator w, fullImmediate w] [opcode] (some w)

/-- Two-operand arithmetic from opcode `base` on. -/
def arithmetic (base : UInt8) (digit : Nat) : List Row :=
  [accumulatorWith (base + 4) .byte, rmWith (.imm .byte) [0x80] digit .byte] ++
    wideWidths.map (rmWith (.immSigned .byte) [0x83] digit) ++
    wideWidths.map (accumulatorWith (base + 5)) ++
    wideWidths.map (fun w => rmWith (fullImmediate w) [0x81] digit w) ++
    Width.all.map (fun w => intoRm [opcodeFor base w] w) ++
    Width.all.map (fun w => intoReg [opcodeFor (base + 2) w] w)

/-- One-operand arithmetic. -/
def unary (digit : Nat) : List Row := Width.all.map fun w => onRm [opcodeFor 0xF6 w] digit w

/-- Shifts and rotations by one, by an immediate and by `cl`. -/
def shift (digit : Nat) : List Row :=
  Width.all.map (fun w => (form .m [.rm w, .one] [opcodeFor 0xD0 w] (some w)).withDigit digit) ++
    Width.all.map (fun w => rmWith (.imm .byte) [opcodeFor 0xC0 w] digit w) ++
    Width.all.map (fun w =>
      (form .m [.rm w, .fixed (.counter .byte)] [opcodeFor 0xD2 w] (some w)).withDigit digit)

/-- Bit tests, by register and by immediate. -/
def bitTest (opcode : UInt8) (digit : Nat) : List Row :=
  wideWidths.map (intoRm [0x0F, opcode]) ++ wideWidths.map (rmWith (.imm .byte) [0x0F, 0xBA] digit)

/-- The jump under condition `code`. -/
def jump (code : UInt8) : List Row :=
  [form .d [.rel .byte] [0x70 + code] none,
    form .d [.rel .dword] [0x0F, 0x80 + code] (some .dword)]

/-- The byte set under condition `code`. -/
def setByte (code : UInt8) : List Row := [onRm [0x0F, 0x90 + code] 0 .byte]

/-- The move under condition `code`. -/
def conditionalMove (code : UInt8) : List Row := wideWidths.map (intoReg [0x0F, 0x40 + code])

/-- An instruction without operands. -/
def plain (opcode : List UInt8) (size : Option Width) : List Row := [form .np [] opcode size]

end IntelAsm.Row
