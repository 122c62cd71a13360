/-
The command line: which arguments are taken, and what a run prints and writes.
Files are reached through `Files`, so that a run is the same program over real
files and over any model of them.
-/
import IntelAsm.Session.Encode
import IntelAsm.Text.Hex

namespace IntelAsm.CommandLine

/-! ## Arguments -/

/-- What the arguments ask for. -/
structure Invocation where
  modeBits : Nat
  base : Nat
  output : Option String
  listing : Bool
  input : String
deriving DecidableEq, Inhabited

/-- The arguments seen so far. -/
structure Settings where
  modeBits : Option Nat
  base : Option Nat
  output : Option String
  listing : Bool
  input : Option String
deriving DecidableEq, Inhabited

/-- The options with a value. -/
inductive OptionName where
  | mode
  | base
  | output
deriving DecidableEq, Inhabited

/-- What an argument is by itself. -/
inductive Argument where
  | positional
  | option (name : OptionName)
  | attached (name : OptionName) (value : String)
  | listing
  | unknown
deriving DecidableEq, Inhabited

namespace OptionName

def ofLong? : String → Option OptionName
  | "mode" => some .mode
  | "base" => some .base
  | "output" => some .output
  | _ => none

def ofShort? : Char → Option OptionName
  | 'm' => some .mode
  | 'b' => some .base
  | 'o' => some .output
  | _ => none

end OptionName

namespace Argument

/-- A long option, `cs` being what stands behind the two dashes. -/
def ofLong (cs : List Char) : Argument :=
  let name := String.ofList (cs.takeWhile (· ≠ '='))
  match OptionName.ofLong? name, cs.dropWhile (· ≠ '=') with
  | some o, [] => .option o
  | some o, _ :: value => .attached o (String.ofList value)
  | none, [] => if name = "listing" then .listing else .unknown
  | none, _ :: _ => .unknown

/-- A short option. Its value follows at once or behind an equals sign. -/
def ofShort (c : Char) (cs : List Char) : Argument :=
  match OptionName.ofShort? c, cs with
  | none, _ => .unknown
  | some o, [] => .option o
  | some o, '=' :: value => .attached o (String.ofList value)
  | some o, value => .attached o (String.ofList value)

/-- A lone dash is no option. -/
def ofText (arg : String) : Argument :=
  match arg.toList with
  | '-' :: '-' :: cs => ofLong cs
  | '-' :: c :: cs => ofShort c cs
  | _ => .positional

end Argument

namespace Settings

def empty : Settings := ⟨none, none, none, false, none⟩

/-- A path, which has at least one character. -/
def path? (s : String) : Option String := if s.isEmpty then none else some s

/-- A field that may be set once. -/
def once {α : Type} (field : Option α) (value : Option α) : Option (Option α) :=
  match field, value with
  | none, some v => some (some v)
  | _, _ => none

/-- A mode on the command line is a number from 16 to 64. -/
def modeBits? (s : String) : Option Nat :=
  (Numeral.parse64? 10 s.toList).filter fun n => 16 ≤ n ∧ n ≤ 64

/-- An address, in decimal or in base 16 behind `0x`. -/
def address? (s : String) : Option Nat :=
  let (radix, digits) := Numeral.markedRadix s.toList
  Numeral.parse64? radix digits

/-- The settings with the value of an option. -/
def set (s : Settings) (name : OptionName) (value : String) : Option Settings :=
  match name with
  | .mode => (once s.modeBits (modeBits? value)).map fun modeBits => { s with modeBits }
  | .base => (once s.base (address? value)).map fun base => { s with base }
  | .output => (once s.output (path? value)).map fun output => { s with output }

/-- The settings with the input. -/
def setInput (s : Settings) (value : String) : Option Settings :=
  (once s.input (path? value)).map fun input => { s with input }

/-- The settings with the listing switched on. -/
def setListing (s : Settings) : Option Settings :=
  if s.listing then none else some { s with listing := true }

/-- The settings after all arguments. Behind two dashes there are no more options. -/
def addAll (s : Settings) : List String → Option Settings
  | [] => some s
  | "--" :: rest => rest.foldlM setInput s
  | arg :: rest =>
    match Argument.ofText arg with
    | .positional => do (← s.setInput arg).addAll rest
    | .attached name value => do (← s.set name value).addAll rest
    | .listing => do (← s.setListing).addAll rest
    | .unknown => none
    | .option name =>
      match rest with
      | [] => none
      | value :: rest =>
        if Argument.ofText value = .positional then do (← s.set name value).addAll rest else none

end Settings

namespace Invocation

/-- What arguments ask for, if they can be read. -/
def ofArgs? (args : List String) : Option Invocation := do
  let s ← Settings.empty.addAll args
  return ⟨s.modeBits.getD 64, s.base.getD 0, s.output, s.listing, ← s.input⟩

end Invocation

/-! ## Runs -/

/-- Why a file could not be read or written. -/
inductive FileError where
  | system (code : Nat)
  | notText
deriving DecidableEq, Inhabited

namespace FileError

/-- What the system calls its errors. -/
def systemText : Nat → String
  | 1 => "Operation not permitted"
  | 2 => "No such file or directory"
  | 5 => "Input/output error"
  | 13 => "Permission denied"
  | 20 => "Not a directory"
  | 21 => "Is a directory"
  | 26 => "Text file busy"
  | 27 => "File too large"
  | 28 => "No space left on device"
  | 30 => "Read-only file system"
  | 36 => "File name too long"
  | 40 => "Too many levels of symbolic links"
  | code => "Unknown error " ++ toString code

def message : FileError → String
  | .system code => systemText code ++ " (os error " ++ toString code ++ ")"
  | .notText => "stream did not contain valid UTF-8"

end FileError

/-- How a run reaches files. -/
structure Files (m : Type → Type) where
  read : String → m (Except FileError ByteArray)
  write : String → ByteArray → m (Except FileError Unit)

/-- What a run prints, and its exit code. -/
structure Report where
  stdout : String
  stderr : String
  exit : Nat
deriving DecidableEq, Inhabited

namespace Report

/-- The report of a run that went well. -/
def success (stdout : String) : Report := ⟨stdout, "", 0⟩

/-- The report of a run that failed, with what it had printed. -/
def failure (stdout stderr message : String) : Report :=
  ⟨stdout, stderr ++ "Error: " ++ message ++ "\n", 1⟩

/-- The report of a run that failed at a file. -/
def fileFailure (stdout activity path : String) (e : FileError) : Report :=
  failure stdout "" (activity ++ " " ++ path ++ "\n\nCaused by:\n    " ++ e.message)

/-- The report of arguments that cannot be read. -/
def usage : Report :=
  ⟨"", "usage: [-m|--mode BITS] [-b|--base ADDRESS] [-o|--output FILE] [--listing] FILE\n", 2⟩

end Report

/-- One line for each diagnostic, the path in front. -/
def errorLines (path : String) : Diagnostic → String
  | .several ds => String.join (ds.map (errorLines path))
  | d => path ++ ":" ++ d.message ++ "\n"

/-- Bytes in rows of `width`. -/
def rows (width : Nat) (bytes : List UInt8) : List (List UInt8) :=
  (List.range ((bytes.length + width - 1) / width)).map fun k => (bytes.drop (k * width)).take width

/-- Bytes as text: sixteen to a line. -/
def hexDump (bytes : List UInt8) : String :=
  String.join ((rows 16 bytes).map fun row =>
    " ".intercalate (row.map fun b => Text.lowerHex [b]) ++ "\n")

namespace Invocation

/-- The assembled source text. -/
def assembly (inv : Invocation) (mode : Mode) (source : String) : Except Diagnostic Assembly := do
  let s := (Session.new mode).setBase inv.base
  let s := if inv.listing then s.enableListing else s
  (← (s.emit source).result).finish

/-- Prints and writes assembled code. -/
def deliver {m : Type → Type} [Monad m] (files : Files m) (inv : Invocation) (a : Assembly) :
    m Report := do
  let listing := if inv.listing then a.listing else ""
  match inv.output with
  | some path =>
    match ← files.write path ⟨a.bytes.toArray⟩ with
    | .ok () => return .success listing
    | .error e => return .fileFailure listing "writing" path e
  | none => return .success (if inv.listing then listing else hexDump a.bytes)

/-- Reads, assembles and delivers. -/
def run {m : Type → Type} [Monad m] (files : Files m) (inv : Invocation) : m Report := do
  match Mode.ofBits? inv.modeBits with
  | none =>
    return .failure "" ""
      ("unsupported mode " ++ toString inv.modeBits ++ ": expected 16, 32 or 64")
  | some mode =>
    match ← files.read inv.input with
    | .error e => return .fileFailure "" "reading" inv.input e
    | .ok bytes =>
      match String.fromUTF8? bytes with
      | none => return .fileFailure "" "reading" inv.input .notText
      | some source =>
        match inv.assembly mode source with
        | .ok a => inv.deliver files a
        | .error d =>
          return .failure "" (errorLines inv.input d) ("assembly of " ++ inv.input ++ " failed")

end Invocation

/-- The whole run of a command line. -/
def run {m : Type → Type} [Monad m] (files : Files m) (args : List String) : m Report :=
  match Invocation.ofArgs? args with
  | some inv => inv.run files
  | none => return .usage

end IntelAsm.CommandLine
