/-
The outcome of an assembly run, and its listing: one line to each label and
each instruction, in the order of their addresses, with the source line where
one is known.
-/
import IntelAsm.Instruction

namespace IntelAsm

/-- Assembled code. `sources` are source lines by the address of their instruction. -/
structure Assembly where
  bytes : List UInt8
  labels : List (String × Nat)
  instructions : List (Nat × Instruction)
  base : Nat
  sources : List (Nat × String)
deriving DecidableEq, Inhabited

namespace Assembly

/-- The address of the first label of a name. -/
def labelAddress? (a : Assembly) (name : String) : Option Nat := a.labels.lookup name

/-- The source line of the instruction at an address; the last one given counts. -/
def sourceAt? (a : Assembly) (address : Nat) : Option String := a.sources.reverse.lookup address

/-! ## Listing -/

/-- An address in a listing: at least eight upper-case digits. -/
def addressText (address : Nat) : String := Text.padLeft 8 '0' (Text.hex address).toUpper

/-- Blanks between the address and the name of a label. -/
def labelGap : String := String.ofList (List.replicate 18 ' ')

def labelLine (name : String) (address : Nat) : String :=
  addressText address ++ labelGap ++ name ++ ":"

/-- The line of an instruction: address, bytes and, in the next column, its source. -/
def instructionLine (address : Nat) (i : Instruction) (source : Option String) : String :=
  match source with
  | some text => addressText address ++ "  " ++ Text.padRight 16 ' ' i.text ++ "  " ++ text
  | none => addressText address ++ "  " ++ i.text

/-- The lines of labels and instructions: in front of an instruction stand the labels up to its
address, as far as no later one stops them, and at the end all that are left. -/
def linesFrom (source : Nat → Option String) :
    List (String × Nat) → List (Nat × Instruction) → List String
  | labels, [] => labels.map fun (name, address) => labelLine name address
  | labels, (address, i) :: rest =>
    (labels.takeWhile fun (_, start) => start ≤ address).map
        (fun (name, start) => labelLine name start) ++
      instructionLine address i (source address) ::
        linesFrom source (labels.dropWhile fun (_, start) => start ≤ address) rest

def lines (a : Assembly) : List String := linesFrom a.sourceAt? a.labels a.instructions

/-- The listing, each line with its end. -/
def listing (a : Assembly) : String := String.join (a.lines.map (· ++ "\n"))

end Assembly
end IntelAsm
