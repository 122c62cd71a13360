/-
Parsed source: labels, instructions with their operands as written, and mode
switches. Nothing here is classified yet; what an operand is follows from its
expression and the symbols in force.
-/
import IntelAsm.Expr
import IntelAsm.Register
import IntelAsm.Span

namespace IntelAsm

/-- A word in front of a mnemonic that becomes a byte in front of the opcode. -/
inductive Prefix where
  | lock
  | rep
  | repne
  | branchTaken
  | branchNotTaken
deriving DecidableEq, Inhabited

namespace Prefix

/-- The prefix of a word, in any case of its letters. -/
def ofWord? (word : String) : Option Prefix :=
  match word.toLower with
  | "lock" => some .lock
  | "rep" | "repe" | "repz" => some .rep
  | "repne" | "repnz" => some .repne
  | "taken" => some .branchTaken
  | "nottaken" => some .branchNotTaken
  | _ => none

/-- An instruction has at most one prefix of each group. -/
def group : Prefix → Nat
  | .lock | .rep | .repne => 1
  | .branchTaken | .branchNotTaken => 2

def byte : Prefix → UInt8
  | .lock => 0xF0
  | .rep => 0xF3
  | .repne => 0xF2
  | .branchTaken => 0x3E
  | .branchNotTaken => 0x2E

end Prefix

/-- An operand as written. `distance` says that the size word was a branch distance, `address` that
the expression stood in brackets. -/
structure ParsedOperand where
  size : Option Width
  distance : Bool
  address : Bool
  addressSize : Option Width
  segment : Option Register
  expr : Expr
  span : Span
deriving DecidableEq, Inhabited

/-- An instruction as written, its mnemonic in lower case. -/
structure ParsedInstruction where
  mnemonic : String
  prefixes : List Prefix
  operands : List ParsedOperand
  span : Span
deriving DecidableEq, Inhabited

/-- A statement of a program. -/
inductive Statement where
  | label (name : String) (span : Span)
  | instruction (instruction : ParsedInstruction)
  | mode (mode : Mode) (span : Span)
deriving DecidableEq, Inhabited

end IntelAsm
