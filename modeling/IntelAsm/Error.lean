/-
What can go wrong, as values. An `EncodingError` says why operands that fit a
form of an instruction still have no encoding; a `Diagnostic` is what a caller
sees. A diagnostic about a place in the source carries its span; the two that
end a run at once (`isFatal`) have none. The wording is in the functions
`message` and nowhere else.
-/
import IntelAsm.Register
import IntelAsm.Span

namespace IntelAsm

/-- Why an instruction form cannot hold its operands. -/
inductive EncodingError where
  | rexConflict
  | rexOutsideLongMode
  | illegalScale (scale : Int64)
  | ripWithIndex
  | invalidIndex (register : Register)
  | invalidBase (register : Register)
  | displacementRange (value : Int64)
  | addressSize (bits modeBits : Nat)
  | operandSize (bits modeBits : Nat)
  | prefixCollision (group : Nat)
  | tooLong (len : Nat)
  | invalidCombination (detail : String)
deriving DecidableEq, Inhabited

namespace EncodingError

def message : EncodingError → String
  | .rexConflict => "high-byte register cannot be encoded with a REX prefix"
  | .rexOutsideLongMode => "REX prefix is only available in 64-bit mode"
  | .illegalScale scale =>
    "illegal scale factor " ++ toString scale.toInt ++ " (expected 1, 2, 4 or 8)"
  | .ripWithIndex => "instruction-pointer relative address cannot have an index"
  | .invalidIndex register => "'" ++ register.name ++ "' cannot be used as an index register"
  | .invalidBase register => "'" ++ register.name ++ "' cannot be used as a base register"
  | .displacementRange value => "displacement " ++ toString value.toInt ++ " out of range"
  | .addressSize bits modeBits =>
    toString bits ++ "-bit addressing is not available in " ++ toString modeBits ++ "-bit mode"
  | .operandSize bits modeBits =>
    toString bits ++ "-bit operand size is not available in " ++ toString modeBits ++ "-bit mode"
  | .prefixCollision group => "conflicting prefixes in prefix group " ++ toString group
  | .tooLong len => "instruction length " ++ toString len ++ " exceeds 15 bytes"
  | .invalidCombination detail => detail

end EncodingError

/-- A problem to report. -/
inductive Diagnostic where
  | malformed (detail : String) (span : Span)
  | badOperand (detail : String) (span : Span)
  | unknownMnemonic (mnemonic : String) (span : Span)
  | noEncoding (mnemonic : String) (span : Span)
  | encoding (error : EncodingError) (span : Span)
  | valueRange (value min max : Int) (span : Span)
  | undefinedLabel (label : String) (span : Span)
  | duplicateLabel (label : String) (span firstSpan : Span)
  | branchRange (label : String) (disp max : Int64) (span : Span)
  | limitExceeded (resource : String) (limit : Nat)
  | allocationFailure (requested : Nat)
  | several (diagnostics : List Diagnostic)
deriving Inhabited

namespace Diagnostic

/-- Whether the problem ends the run at once. -/
def isFatal : Diagnostic → Bool
  | .limitExceeded .. | .allocationFailure _ => true
  | _ => false

/-- Several problems as one: a single one stands for itself. -/
def ofList? : List Diagnostic → Option Diagnostic
  | [] => none
  | [d] => some d
  | ds => some (.several ds)

/-- Text behind the place it speaks of. -/
def located (span : Span) (detail : String) : String := span.text ++ ": " ++ detail

/-- The text of a problem; several are one to a line. -/
def message : Diagnostic → String
  | .malformed detail span => located span detail
  | .badOperand detail span => located span ("invalid operand: " ++ detail)
  | .unknownMnemonic mnemonic span => located span ("unknown mnemonic '" ++ mnemonic ++ "'")
  | .noEncoding mnemonic span =>
    located span ("invalid operand combination for instruction '" ++ mnemonic ++ "'")
  | .encoding error span => located span error.message
  | .valueRange value min max span =>
    located span ("immediate value " ++ toString value ++ " out of range [" ++ toString min ++
      ".." ++ toString max ++ "]")
  | .undefinedLabel label span => located span ("undefined label '" ++ label ++ "'")
  | .duplicateLabel label span firstSpan =>
    located span ("duplicate label '" ++ label ++ "' (first defined at " ++ firstSpan.text ++ ")")
  | .branchRange label disp max span =>
    located span ("branch target '" ++ label ++ "' out of range (displacement=" ++
      toString disp.toInt ++ ", max=±" ++ toString max.toInt ++ ")")
  | .limitExceeded resource limit =>
    "resource limit exceeded: " ++ resource ++ " (limit: " ++ toString limit ++ ")"
  | .allocationFailure requested =>
    "allocation failure (" ++ toString requested ++ " more elements requested)"
  | .several diagnostics => "\n".intercalate (diagnostics.map message)

end Diagnostic
end IntelAsm
