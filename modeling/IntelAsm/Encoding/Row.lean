/-
Rows of the instruction table. A row is one form of an instruction: how its
operands are laid out in the instruction, which operands it takes, its opcode,
and the modes it exists in. The name of a row is read off its layout and its
slots.
-/
import IntelAsm.Shape

namespace IntelAsm

/-- Where the operands of a form stand in the instruction. -/
inductive OperandLayout where
  /-- Nowhere: the opcode says it all. -/
  | np
  /-- In an immediate. -/
  | i
  /-- In a branch distance. -/
  | d
  /-- In the low bits of the opcode. -/
  | o
  /-- In the low bits of the opcode and an immediate. -/
  | oi
  /-- In the r/m part of the ModR/M byte, whose register part extends the opcode. -/
  | m
  /-- As `m`, and an immediate. -/
  | mi
  /-- In the r/m part, then in the register part. -/
  | mr
  /-- In the register part, then in the r/m part. -/
  | rm
  /-- As `rm`, and an immediate. -/
  | rmi
deriving DecidableEq, Inhabited

namespace OperandLayout

/-- Every layout. -/
def all : List OperandLayout := [.np, .i, .d, .o, .oi, .m, .mi, .mr, .rm, .rmi]

def tag : OperandLayout → String
  | .np => "NP"
  | .i => "I"
  | .d => "D"
  | .o => "O"
  | .oi => "OI"
  | .m => "M"
  | .mi => "MI"
  | .mr => "MR"
  | .rm => "RM"
  | .rmi => "RMI"

end OperandLayout

namespace Shape

/-- A slot in the name of a row. Memory of any size is named for the word that goes with a segment
register if there is one. -/
def label (withSegment : Bool) : Shape → String
  | .imm w | .immSigned w => "imm" ++ toString w.bits
  | .one => "1"
  | .rel w => "rel" ++ toString w.bits
  | .reg w => "r" ++ toString w.bits
  | .fixed r => r.name
  | .segment => "sreg"
  | .rm w | .rmDefault w => "rm" ++ toString w.bits
  | .mem w => "m" ++ toString w.bits
  | .memAny => if withSegment then "m16" else "m"

end Shape

/-- One form of an instruction. -/
structure Row where
  layout : OperandLayout
  shapes : List Shape
  opcode : List UInt8
  /-- The register part of the ModR/M byte where it extends the opcode. -/
  digit : Option Nat
  /-- The size of the operation, if the form depends on it. -/
  size : Option Width
  /-- Whether the operation has 64 bits in 64-bit mode without being asked to. -/
  default64 : Bool
  modes : List Mode
deriving DecidableEq, Inhabited

namespace Row

/-- A form that exists in every mode. -/
def form (layout : OperandLayout) (shapes : List Shape) (opcode : List UInt8)
    (size : Option Width) : Row :=
  ⟨layout, shapes, opcode, none, size, false, Mode.all⟩

/-- The row with an opcode extension. -/
def withDigit (row : Row) (digit : Nat) : Row := { row with digit := some digit }

/-- The row of an operation that has 64 bits by default. -/
def wide (row : Row) : Row := { row with default64 := true }

/-- The row in some modes only. -/
def onlyIn (row : Row) (modes : List Mode) : Row := { row with modes }

/-- The modes before the 64-bit mode. -/
def legacy : List Mode := [.bits16, .bits32]

/-- The modes after the 16-bit mode. -/
def modern : List Mode := [.bits32, .bits64]

def name (row : Row) : String :=
  "_".intercalate (row.layout.tag :: row.shapes.map (Shape.label (row.shapes.contains .segment)))

end Row
end IntelAsm
