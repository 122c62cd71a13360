/-
From a program to its bytes: every field that waits for symbols gets the value
of its expression under the final addresses, counted from the end of the
instruction where the field is a distance. All that goes wrong is collected:
first the labels defined twice, then field by field.
-/
import IntelAsm.Program

namespace IntelAsm

/-- What linking gives: the bytes, the labels and the finished instructions. -/
structure Image where
  bytes : List UInt8
  labels : List (String × Nat)
  instructions : List (Nat × Instruction)
deriving DecidableEq, Inhabited

namespace Field

/-- The value of a field as a distance from `stop`, the address behind the instruction. -/
def distance (value : Int64) (stop : Nat) (span : Span) : Except Diagnostic Int64 :=
  let max := Int64.maxValue.toInt
  match exact64 stop, exact64 (value.toInt - stop) with
  | .error _, _ => .error (.valueRange stop 0 max span)
  | .ok _, .error _ =>
    .error (.valueRange (value.toInt - stop) Int64.minValue.toInt max span)
  | .ok _, .ok v => .ok v

/-- Whether a field takes the value; only the usual sizes have a range. -/
def inRange (f : Field) (v : Int64) : Bool :=
  match Width.ofBytes? f.size with
  | none => true
  | some w => if f.signed then decide (w.FitsSigned v.toInt) else decide (w.Fits v.toInt)

/-- The diagnostic of a value that is out of the range of a field of width `w`. -/
def rangeDiagnostic (f : Field) (w : Width) (kind : FieldKind) (e : Expr) (v : Int64)
    (span : Span) : Diagnostic :=
  match kind with
  | .branch => .branchRange e.text v (Int64.ofInt w.maxSigned) span
  | .displacement | .immediate =>
    .valueRange v.toInt w.minSigned (if f.signed then w.maxSigned else w.maxUnsigned) span

/-- The value as the field counts it in an instruction that ends at `stop`. -/
def counted (f : Field) (value : Int64) (stop : Nat) (span : Span) : Except Diagnostic Int64 :=
  if f.pcRelative then distance value stop span else .ok value

/-- The value as an answer, if the field takes it. -/
def checkRange (f : Field) (kind : FieldKind) (e : Expr) (span : Span) (v : Int64) :
    Except Diagnostic Int64 :=
  match Width.ofBytes? f.size with
  | none => .ok v
  | some w => if f.inRange v then .ok v else .error (f.rangeDiagnostic w kind e v span)

/-- The value of the expression of a field in an instruction that ends at `stop`. -/
def resolve (lookup : String → Option Int64) (f : Field) (kind : FieldKind) (e : Expr)
    (stop : Nat) (span : Span) : Except Diagnostic Int64 := do
  let value ← (e.resolve lookup).mapError fun
    | .undefined label => .undefinedLabel label span
    | .arith error => .badOperand ("'" ++ e.text ++ "': " ++ error.message) span
  let value ← f.counted value stop span
  f.checkRange kind e span value

end Field

namespace Instruction

/-- The instruction with one field filled in, if the field waits for symbols. -/
def patchField (lookup : String → Option Int64) (stop : Nat) (i : Instruction) (kind : FieldKind) :
    Except Diagnostic Instruction :=
  let f := i.field kind
  match f.deferred with
  | none => .ok i
  | some e => (i.setValue kind ·) <$> f.resolve lookup kind e stop i.span

/-- One step of a patch: the field is filled in, or its diagnostic added. -/
def patchStep (lookup : String → Option Int64) (stop : Nat) :
    Instruction × List Diagnostic → FieldKind → Instruction × List Diagnostic
  | (i, ds), kind =>
    match i.patchField lookup stop kind with
    | .ok i => (i, ds)
    | .error d => (i, ds ++ [d])

/-- The instruction with all fields filled in that can be, and a diagnostic for each other. -/
def patch (lookup : String → Option Int64) (address : Nat) (i : Instruction) :
    Instruction × List Diagnostic :=
  fieldKinds.foldl (patchStep lookup (address + i.size)) (i, [])

end Instruction

namespace Program

/-- The instructions with their addresses, filled in as far as possible. -/
def patched (p : Program) : List (Nat × Instruction × List Diagnostic) :=
  let labels := p.labels
  p.instructions.map fun (address, i) => (address, i.patch (valueIn labels p.externals) address)

/-- The bytes of a program. -/
def link (p : Program) : Except Diagnostic Image :=
  if addressLimit < p.stop then .error (.limitExceeded "address space" addressLimit)
  else
    let patched := p.patched
    match Diagnostic.ofList? (p.duplicates ++ patched.flatMap fun (_, _, ds) => ds) with
    | some d => .error d
    | none => .ok {
        bytes := patched.flatMap fun (_, i, _) => i.bytes
        labels := p.labels.map fun d => (d.name, d.address)
        instructions := patched.map fun (address, i, _) => (address, i) }

end Program
end IntelAsm
