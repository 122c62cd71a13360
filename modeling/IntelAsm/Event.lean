/-
What a run can report on its way, besides its result: which rows of the table
were tried, when the mode changed, and how large the outcome of a stage is.
-/
import IntelAsm.Encoding.Row
import IntelAsm.Error
import IntelAsm.Instruction

namespace IntelAsm

/-- How important a report is. -/
inductive Severity where
  | trace
  | debug
deriving DecidableEq, Inhabited

/-- A step of a run. -/
inductive Event where
  | mismatched (mnemonic : String) (row : Row)
  | rejected (mnemonic : String) (row : Row) (error : EncodingError)
  | chosen (mnemonic : String) (row : Row) (instruction : Instruction)
  | modeSwitched (mode : Mode)
  | encoded (statements records errors : Nat)
  | laidOut (labels instructions : Nat) (base stop : Nat)
deriving DecidableEq, Inhabited

namespace Event

def severity : Event → Severity
  | .mismatched .. | .rejected .. => .trace
  | _ => .debug

def message : Event → String
  | .mismatched mnemonic row => mnemonic ++ " " ++ row.name ++ ": shapes do not match"
  | .rejected mnemonic row error => mnemonic ++ " " ++ row.name ++ ": " ++ error.message
  | .chosen mnemonic row instruction =>
    mnemonic ++ " " ++ row.name ++ " -> " ++ instruction.text ++ " (" ++
      toString instruction.size ++ " bytes)"
  | .modeSwitched mode => "switching to " ++ mode.text ++ " mode"
  | .encoded statements records errors =>
    "encoded " ++ toString statements ++ " statements: " ++ toString records ++ " records, " ++
      toString errors ++ " errors"
  | .laidOut labels instructions base stop =>
    "layout: " ++ toString labels ++ " labels, " ++ toString instructions ++ " instructions, " ++
      Text.markedHex base ++ ".." ++ Text.markedHex stop

end Event
end IntelAsm
