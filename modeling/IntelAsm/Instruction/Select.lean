/-
From a parsed instruction to an encoded one. The rows of its mnemonic are
tried in order; the first that exists in the mode, takes the operands and has
an encoding is used. If none has, and all that took the operands failed for
the same reason, that reason is the diagnostic.
-/
import IntelAsm.Encoding.Operands
import IntelAsm.Encoding.Table
import IntelAsm.Event
import IntelAsm.Operand.Evaluate

namespace IntelAsm

namespace PrefixBytes

/-- The bytes with one more in a group, which must be free. -/
def occupy (p : PrefixBytes) (group : Nat) (byte : UInt8) : Except EncodingError PrefixBytes :=
  if group = 1 then
    if p.group1.isSome then .error (.prefixCollision group)
    else .ok { p with group1 := some byte }
  else if p.group2.isSome then .error (.prefixCollision group)
  else .ok { p with group2 := some byte }

/-- The byte that selects a segment. -/
def segmentByte (r : Register) : Except EncodingError UInt8 :=
  match r with
  | .segment s => .ok s.overrideByte
  | _ => .error (.invalidCombination ("'" ++ r.name ++ "' is not a segment register"))

/-- The prefix words of an instruction, then the segments of its operands. -/
def compose (prefixes : List Prefix) (operands : List Operand) :
    Except EncodingError PrefixBytes := do
  let p ← prefixes.foldlM (fun p (w : Prefix) => p.occupy w.group w.byte) empty
  (operands.filterMap fun o => o.memory?.bind Memory.segment).foldlM
    (fun p r => do p.occupy 2 (← segmentByte r)) p

end PrefixBytes

namespace Row

/-- No instruction is longer than this. -/
def maxSize : Nat := 15

/-- Whether the size of the operation needs the operand-size byte, or the bit W, in a mode. -/
def sizeSwitches (row : Row) (mode : Mode) : Except EncodingError (Bool × Bool) :=
  match row.size with
  | some .word => .ok (mode ≠ .bits16, false)
  | some .dword => .ok (mode = .bits16, false)
  | some .qword =>
    if mode ≠ .bits64 then .error (.operandSize 64 mode.bits) else .ok (false, !row.default64)
  | some .byte | none => .ok (false, false)

/-- The opcode with a register in its low bits. -/
def opcodeWith (row : Row) (reg : Option Nat) : Opcode :=
  match reg with
  | none => .ofBytes row.opcode
  | some r => .ofBytes (row.opcode.modify (row.opcode.length - 1) (· ||| UInt8.ofNat r))

/-- The instruction of a row, part by part. -/
def assembled (row : Row) (prefixes : PrefixBytes) (operandSize : Bool) (mode : Mode)
    (f : OperandFields) (rex : Option UInt8) (span : Span) : Instruction where
  prefixes := { prefixes with
    operandSize
    addressSize := f.addressSize.any (· ≠ mode.addressWidth) }
  rex
  opcode := row.opcodeWith f.opcodeReg
  modrm := f.modrm
  sib := f.sib
  disp := f.disp
  imm := f.imm
  rel := f.rel
  span

/-- The instruction of a row that takes the operands. -/
def encode (row : Row) (operands : List Operand) (prefixes : PrefixBytes) (mode : Mode)
    (span : Span) : Except EncodingError Instruction := do
  let (operandSize, wide) ← row.sizeSwitches mode
  let f ← OperandFields.encode row.layout row.shapes row.digit wide operands mode
  let rex ← f.rex.compose
  if rex.isSome && mode ≠ .bits64 then .error .rexOutsideLongMode
  else
    let instruction := row.assembled prefixes operandSize mode f rex span
    if maxSize < instruction.size then .error (.tooLong instruction.size) else return instruction

end Row

/-- What became of a row. -/
inductive Attempt where
  | mismatched (row : Row)
  | rejected (row : Row) (error : EncodingError)
  | encoded (row : Row) (instruction : Instruction)
deriving DecidableEq, Inhabited

namespace Attempt

def error? : Attempt → Option EncodingError
  | .rejected _ e => some e
  | _ => none

def instruction? : Attempt → Option Instruction
  | .encoded _ i => some i
  | _ => none

def event (mnemonic : String) : Attempt → Event
  | .mismatched row => .mismatched mnemonic row
  | .rejected row e => .rejected mnemonic row e
  | .encoded row i => .chosen mnemonic row i

/-- The outcome of one row. -/
def ofRow (operands : List Operand) (prefixes : PrefixBytes) (mode : Mode) (span : Span)
    (row : Row) : Attempt :=
  if !Shape.acceptAll row.shapes operands then .mismatched row
  else
    match row.encode operands prefixes mode span with
    | .ok i => .encoded row i
    | .error e => .rejected row e

/-- The outcomes of rows in order, up to the first that has an encoding. -/
def untilEncoded (attempt : Row → Attempt) : List Row → List Attempt
  | [] => []
  | row :: rows =>
    let a := attempt row
    if a.instruction?.isSome then [a] else a :: untilEncoded attempt rows

/-- The instruction that the outcomes lead to, or what to report. -/
def conclude (mnemonic : String) (span : Span) (attempts : List Attempt) :
    Except Diagnostic Instruction :=
  match attempts.findSome? instruction? with
  | some i => .ok i
  | none =>
    match attempts.filterMap error? with
    | e :: es => .error (if es.all (· = e) then .encoding e span else .noEncoding mnemonic span)
    | [] => .error (.noEncoding mnemonic span)

end Attempt

namespace ParsedInstruction

variable (symbols : String → Option Interval) (mode : Mode)

/-- The rows that were tried, or the diagnostic of an instruction that never gets that far. -/
def attempts (i : ParsedInstruction) : Except Diagnostic (List Attempt) := do
  match Table.rows? i.mnemonic with
  | none => .error (.unknownMnemonic i.mnemonic i.span)
  | some rows =>
    let operands ← ParsedOperand.evaluateAll symbols i.operands
    let prefixes ← (PrefixBytes.compose i.prefixes operands).mapError (.encoding · i.span)
    return Attempt.untilEncoded (Attempt.ofRow operands prefixes mode i.span)
      (rows.filter fun row => row.modes.contains mode)

/-- The encoded instruction. -/
def encode (i : ParsedInstruction) : Except Diagnostic Instruction := do
  Attempt.conclude i.mnemonic i.span (← i.attempts symbols mode)

/-- The reports of encoding the instruction. -/
def events (i : ParsedInstruction) : List Event :=
  match i.attempts symbols mode with
  | .ok as => as.map (Attempt.event i.mnemonic)
  | .error _ => []

end ParsedInstruction
end IntelAsm
