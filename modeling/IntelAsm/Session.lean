/-
An assembly session: source text is added piece by piece, errors of the source
are collected, and limits are watched on the way. A call that fails can have
done part of its work, so each call gives the session it leaves besides the
diagnostic.
-/
import IntelAsm.Program
import IntelAsm.Statement.Parse
import IntelAsm.Symbols
import IntelAsm.Text.Blank

namespace IntelAsm

/-- How much a session takes. -/
structure Limits where
  statements : Nat
  labels : Nat
  outputBytes : Nat
  errors : Nat
  sourceBytes : Nat
deriving DecidableEq, Inhabited

/-- The limits of a session that sets none. -/
def Limits.default : Limits := ⟨1000000, 100000, 16 * 1024 * 1024, 64, 64 * 1024 * 1024⟩

/-- A statement, and its source line if listings are to show it. -/
structure Entry where
  statement : Statement
  source : Option String
deriving DecidableEq, Inhabited

/-- The state of a session. `labelCount` counts the labels that were asked for. -/
structure Session where
  mode : Mode
  base : Nat
  externals : Externals
  entries : List Entry
  errors : List Diagnostic
  listing : Bool
  limits : Limits
  labelCount : Nat
deriving Inhabited

namespace Session

/-- A session without source. -/
def new (mode : Mode) : Session := ⟨mode, 0, .empty, [], [], false, .default, 0⟩

/-! ## Configuration -/

def setLimits (s : Session) (limits : Limits) : Session := { s with limits }

/-- Keeps source lines from now on. -/
def enableListing (s : Session) : Session := { s with listing := true }

def setBase (s : Session) (base : Nat) : Session := { s with base }

def defineExternal (s : Session) (name : String) (address : Nat) : Session :=
  { s with externals := s.externals.define name address }

/-- The session without its source and errors. -/
def reset (s : Session) : Session := { s with entries := [], errors := [], labelCount := 0 }

def statements (s : Session) : List Statement := s.entries.map Entry.statement

def statementCount (s : Session) : Nat := s.entries.length

/-! ## Adding source -/

/-- The session a call leaves, and the diagnostic if it failed. -/
structure Outcome where
  session : Session
  failure : Option Diagnostic

namespace Outcome

def done (s : Session) : Outcome := ⟨s, none⟩

/-- Goes on with the session, unless the call failed. -/
def andThen (o : Outcome) (f : Session → Outcome) : Outcome :=
  match o.failure with
  | none => f o.session
  | some _ => o

/-- The session, unless the call failed. -/
def result (o : Outcome) : Except Diagnostic Session :=
  match o.failure with
  | none => .ok o.session
  | some d => .error d

end Outcome

/-- The diagnostic of a limit. -/
def exceeded (resource : String) (limit : Nat) : Option Diagnostic :=
  some (.limitExceeded resource limit)

/-- Collects an error of the source. -/
def recordError (s : Session) (d : Diagnostic) : Outcome :=
  if d.isFatal then ⟨s, some d⟩
  else
    let s := { s with errors := s.errors ++ [d] }
    if s.limits.errors < s.errors.length then ⟨s, exceeded "errors" s.limits.errors⟩ else .done s

/-- Collects errors of the source, up to the first that fails. -/
def recordErrors (s : Session) : List Diagnostic → Outcome
  | [] => .done s
  | d :: ds => (s.recordError d).andThen fun s => s.recordErrors ds

/-- Counts a label, also one too many. -/
def countLabel (s : Session) : Outcome :=
  let s := { s with labelCount := s.labelCount + 1 }
  if s.limits.labels < s.labelCount then ⟨s, exceeded "labels" s.limits.labels⟩ else .done s

/-- The session with one more statement. -/
def push (s : Session) (statement : Statement) (source : Option String) : Session :=
  { s with entries := s.entries ++ [⟨statement, source⟩] }

/-- The line of a text in which a span starts, without blanks at its ends. The offset counts bytes;
behind the text and inside a character there is no line. -/
def sourceLine (source : List Char) (offset : Nat) : String :=
  go [] source offset
where
  /-- `line` is the part of the line in front, last character first. -/
  go (line : List Char) : List Char → Nat → String
    | [], _ => ""
    | c :: cs, 0 =>
      String.ofList (Text.trim (line.reverse ++ (c :: cs).takeWhile (· ≠ '\n')))
    | c :: cs, n + 1 =>
      if n + 1 < c.utf8Size then ""
      else go (if c = '\n' then [] else c :: line) cs (n + 1 - c.utf8Size)

/-- Adds parsed statements, up to the first label too many. -/
def addStatements (source : List Char) (s : Session) : List Statement → Outcome
  | [] => .done s
  | .label name span :: rest =>
    s.countLabel.andThen fun s => (s.push (.label name span) none).addStatements source rest
  | .instruction i :: rest =>
    let line := if s.listing then some (sourceLine source i.span.offset) else none
    (s.push (.instruction i) line).addStatements source rest
  | .mode m span :: rest => (s.push (.mode m span) none).addStatements source rest

/-- Adds source text. Errors of the source are collected and do not make the call fail, unless they
are too many. -/
def emit (s : Session) (source : String) : Outcome :=
  if s.limits.sourceBytes < source.utf8ByteSize then
    ⟨s, exceeded "source bytes" s.limits.sourceBytes⟩
  else
    match Token.scan source with
    | .error d => s.recordError d
    | .ok tokens =>
      let (statements, failures) := Statement.parseTokens tokens
      (s.recordErrors (failures.map ParseFailure.diagnostic)).andThen fun s =>
        if s.limits.statements < s.entries.length + statements.length then
          ⟨s, exceeded "statements" s.limits.statements⟩
        else s.addStatements source.toList statements

/-- Adds a label by name. -/
def label (s : Session) (name : String) : Outcome :=
  if s.limits.statements ≤ s.entries.length then ⟨s, exceeded "statements" s.limits.statements⟩
  else s.countLabel.andThen fun s => .done (s.push (.label name .nowhere) none)

/-! ## Bounds of labels -/

/-- An address as a value; those that are none become the greatest. -/
def clamp (address : Nat) : Int64 := (exact64 address).toOption.getD Int64.maxValue

/-- Adds the bounds of labels to a table. Each instruction in front of a label takes at least one
byte and at most 15; a label defined again is anywhere between its definitions. -/
def addLabelBounds (base : Nat) : Nat → List Statement → Symbols → Symbols
  | _, [], table => table
  | n, .instruction _ :: rest, table => addLabelBounds base (n + 1) rest table
  | n, .mode .. :: rest, table => addLabelBounds base n rest table
  | n, .label name _ :: rest, table =>
    addLabelBounds base n rest (table.extend name ⟨clamp (base + n), clamp (base + n * 15)⟩)

/-- The bounds of external symbols: their addresses are known. -/
def externalBounds (s : Session) : Symbols :=
  s.externals.entries.foldl (fun t (name, address) => t.define name (.exact (clamp address))) .empty

/-- The bounds of all symbols before anything is encoded. -/
def symbols (s : Session) : Symbols := addLabelBounds s.base 0 s.statements s.externalBounds

end Session
end IntelAsm
