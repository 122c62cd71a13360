/-
Errors, limits and outcomes as plain data.
-/
import IntelAsm.Assembly
import IntelAsm.Data.Instruction
import IntelAsm.Error
import IntelAsm.Session

namespace IntelAsm

namespace EncodingError

def toData : EncodingError → Data
  | .rexConflict => .text "RexConflict"
  | .rexOutsideLongMode => .text "RexOutsideLongMode"
  | .illegalScale scale => .tagged "IllegalScale" (.record [("scale", .ofInt64 scale)])
  | .ripWithIndex => .text "RipWithIndex"
  | .invalidIndex r => .tagged "InvalidIndex" (.record [("register", r.toData)])
  | .invalidBase r => .tagged "InvalidBase" (.record [("register", r.toData)])
  | .displacementRange v => .tagged "DisplacementRange" (.record [("value", .ofInt64 v)])
  | .addressSize bits modeBits =>
    .tagged "AddressSize" (.record [("bits", .ofNat bits), ("mode_bits", .ofNat modeBits)])
  | .operandSize bits modeBits =>
    .tagged "OperandSize" (.record [("bits", .ofNat bits), ("mode_bits", .ofNat modeBits)])
  | .prefixCollision group => .tagged "PrefixCollision" (.record [("group", .ofNat group)])
  | .tooLong len => .tagged "TooLong" (.record [("len", .ofNat len)])
  | .invalidCombination detail =>
    .tagged "InvalidCombination" (.record [("detail", .text detail)])

def ofData? (d : Data) : Option EncodingError := do
  match ← d.variant? with
  | ("RexConflict", .null) => return .rexConflict
  | ("RexOutsideLongMode", .null) => return .rexOutsideLongMode
  | ("IllegalScale", c) =>
    let [scale] ← c.recordFields? ["scale"] | none
    return .illegalScale (← scale.int64?)
  | ("RipWithIndex", .null) => return .ripWithIndex
  | ("InvalidIndex", c) =>
    let [r] ← c.recordFields? ["register"] | none
    return .invalidIndex (← Register.ofData? r)
  | ("InvalidBase", c) =>
    let [r] ← c.recordFields? ["register"] | none
    return .invalidBase (← Register.ofData? r)
  | ("DisplacementRange", c) =>
    let [v] ← c.recordFields? ["value"] | none
    return .displacementRange (← v.int64?)
  | ("AddressSize", c) =>
    let [bits, modeBits] ← c.recordFields? ["bits", "mode_bits"] | none
    return .addressSize (← bits.nat? 32) (← modeBits.nat? 32)
  | ("OperandSize", c) =>
    let [bits, modeBits] ← c.recordFields? ["bits", "mode_bits"] | none
    return .operandSize (← bits.nat? 32) (← modeBits.nat? 32)
  | ("PrefixCollision", c) =>
    let [group] ← c.recordFields? ["group"] | none
    return .prefixCollision (← group.nat? 8)
  | ("TooLong", c) =>
    let [len] ← c.recordFields? ["len"] | none
    return .tooLong (← len.nat? 64)
  | ("InvalidCombination", c) =>
    let [detail] ← c.recordFields? ["detail"] | none
    return .invalidCombination (← detail.text?)
  | _ => none

end EncodingError

namespace Diagnostic

def toData : Diagnostic → Data
  | .malformed detail span =>
    .tagged "Syntax" (.record [("msg", .text detail), ("span", span.toData)])
  | .badOperand detail span =>
    .tagged "OperandEvaluation" (.record [("detail", .text detail), ("span", span.toData)])
  | .unknownMnemonic mnemonic span =>
    .tagged "UnknownMnemonic" (.record [("mnemonic", .text mnemonic), ("span", span.toData)])
  | .noEncoding mnemonic span =>
    .tagged "NoMatchingEncoding" (.record [("mnemonic", .text mnemonic), ("span", span.toData)])
  | .encoding error span =>
    .tagged "Encoding" (.record [("error", error.toData), ("span", span.toData)])
  | .valueRange value min max span =>
    .tagged "ImmediateOverflow" (.record [("value", .int value), ("min", .int min),
      ("max", .int max), ("span", span.toData)])
  | .undefinedLabel label span =>
    .tagged "UndefinedLabel" (.record [("label", .text label), ("span", span.toData)])
  | .duplicateLabel label span firstSpan =>
    .tagged "DuplicateLabel" (.record [("label", .text label), ("span", span.toData),
      ("first_span", firstSpan.toData)])
  | .branchRange label disp max span =>
    .tagged "BranchOutOfRange" (.record [("label", .text label), ("disp", .ofInt64 disp),
      ("max", .ofInt64 max), ("span", span.toData)])
  | .limitExceeded resource limit =>
    .tagged "ResourceLimitExceeded" (.record [("resource", .text resource),
      ("limit", .ofNat limit)])
  | .allocationFailure requested =>
    .tagged "AllocationFailure" (.record [("requested", .ofNat requested)])
  | .several diagnostics =>
    .tagged "Multiple" (.record [("errors", .list (diagnostics.map toData))])

/-- A diagnostic of a name and its content, `inner` reading those it is made of. -/
def ofVariant? (inner : Data → Option Diagnostic) : String × Data → Option Diagnostic
  | ("Syntax", c) => do
    let [detail, span] ← c.recordFields? ["msg", "span"] | none
    return .malformed (← detail.text?) (← Span.ofData? span)
  | ("OperandEvaluation", c) => do
    let [detail, span] ← c.recordFields? ["detail", "span"] | none
    return .badOperand (← detail.text?) (← Span.ofData? span)
  | ("UnknownMnemonic", c) => do
    let [mnemonic, span] ← c.recordFields? ["mnemonic", "span"] | none
    return .unknownMnemonic (← mnemonic.text?) (← Span.ofData? span)
  | ("NoMatchingEncoding", c) => do
    let [mnemonic, span] ← c.recordFields? ["mnemonic", "span"] | none
    return .noEncoding (← mnemonic.text?) (← Span.ofData? span)
  | ("Encoding", c) => do
    let [error, span] ← c.recordFields? ["error", "span"] | none
    return .encoding (← EncodingError.ofData? error) (← Span.ofData? span)
  | ("ImmediateOverflow", c) => do
    let [value, min, max, span] ← c.recordFields? ["value", "min", "max", "span"] | none
    return .valueRange (← value.int128?) (← min.int128?) (← max.int128?) (← Span.ofData? span)
  | ("UndefinedLabel", c) => do
    let [label, span] ← c.recordFields? ["label", "span"] | none
    return .undefinedLabel (← label.text?) (← Span.ofData? span)
  | ("DuplicateLabel", c) => do
    let [label, span, firstSpan] ← c.recordFields? ["label", "span", "first_span"] | none
    return .duplicateLabel (← label.text?) (← Span.ofData? span) (← Span.ofData? firstSpan)
  | ("BranchOutOfRange", c) => do
    let [label, disp, max, span] ← c.recordFields? ["label", "disp", "max", "span"] | none
    return .branchRange (← label.text?) (← disp.int64?) (← max.int64?) (← Span.ofData? span)
  | ("ResourceLimitExceeded", c) => do
    let [resource, limit] ← c.recordFields? ["resource", "limit"] | none
    return .limitExceeded (← resource.text?) (← limit.nat? 64)
  | ("AllocationFailure", c) => do
    let [requested] ← c.recordFields? ["requested"] | none
    return .allocationFailure (← requested.nat? 64)
  | ("Multiple", c) => do
    let [errors] ← c.recordFields? ["errors"] | none
    return .several (← errors.listOf? inner)
  | _ => none

/-- A diagnostic nested at most `depth` deep. -/
def ofDataTo? : Nat → Data → Option Diagnostic
  | 0, _ => none
  | depth + 1, d => d.variant?.bind (ofVariant? (ofDataTo? depth))

def ofData? (d : Data) : Option Diagnostic := ofDataTo? d.depth d

end Diagnostic

namespace Limits

def toData (l : Limits) : Data :=
  .record [("max_statements", .ofNat l.statements), ("max_labels", .ofNat l.labels),
    ("max_output_bytes", .ofNat l.outputBytes), ("max_errors", .ofNat l.errors),
    ("max_source_bytes", .ofNat l.sourceBytes)]

def ofData? (d : Data) : Option Limits := do
  let [statements, labels, outputBytes, errors, sourceBytes] ←
    d.fields? ["max_statements", "max_labels", "max_output_bytes", "max_errors",
      "max_source_bytes"] | none
  return ⟨← statements.nat? 64, ← labels.nat? 64, ← outputBytes.nat? 64, ← errors.nat? 64,
    ← sourceBytes.nat? 64⟩

end Limits

namespace Assembly

def toData (a : Assembly) : Data :=
  .record [("bytes", .ofList .ofByte a.bytes),
    ("labels", .ofList (fun (name, address) => .list [.text name, .ofNat address]) a.labels),
    ("instructions", .ofList (fun (address, i) => .list [.ofNat address, i.toData])
      a.instructions),
    ("base_address", .ofNat a.base),
    ("source_annotations", .ofList (fun (address, text) => .list [.ofNat address, .text text])
      a.sources)]

/-- A pair of two things. -/
def pair? {α β : Type} (first : Data → Option α) (second : Data → Option β) (d : Data) :
    Option (α × β) := do
  let [a, b] ← d.list? | none
  return (← first a, ← second b)

def ofData? (d : Data) : Option Assembly := do
  let [bytes, labels, instructions, base, sources] ←
    d.fields? ["bytes", "labels", "instructions", "base_address", "source_annotations"] | none
  return {
    bytes := ← bytes.listOf? Data.byte?
    labels := ← labels.listOf? (pair? Data.text? (Data.nat? 64))
    instructions := ← instructions.listOf? (pair? (Data.nat? 64) Instruction.ofData?)
    base := ← base.nat? 64
    sources := ← sources.listOf? (pair? (Data.nat? 64) Data.text?) }

end Assembly
end IntelAsm
