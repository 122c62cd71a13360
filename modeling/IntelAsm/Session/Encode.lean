/-
Encoding the statements of a session. Each statement is encoded by itself,
under the mode in force and the bounds of all symbols; an error of one does
not touch the others. The run ends early only when it passes a limit.
-/
import IntelAsm.Assembly
import IntelAsm.Instruction.Select
import IntelAsm.Program.Link
import IntelAsm.Session

namespace IntelAsm

/-- A label or an instruction, and the number of its statement. -/
structure Record where
  statement : Nat
  item : Item
deriving DecidableEq, Inhabited

/-- What encoding gives. -/
structure Encoded where
  records : List Record
  errors : List Diagnostic
  symbols : Symbols
deriving Inhabited

/-- Where an encoding run stands: the number of the next statement, the mode, and what counts
against the limits. -/
structure Progress where
  statement : Nat
  mode : Mode
  outputBytes : Nat
  errors : Nat
deriving DecidableEq, Inhabited

namespace Progress

variable (symbols : String → Option Interval) (limits : Limits)

/-- What a statement gives: a record, an error, or neither. -/
structure Step where
  next : Progress
  record : Option Record
  error : Option Diagnostic

/-- Encodes one statement. -/
def step (p : Progress) (statement : Statement) : Except Diagnostic Step :=
  let next := { p with statement := p.statement + 1 }
  match statement with
  | .label name span => .ok ⟨next, some ⟨p.statement, .label name span⟩, none⟩
  | .mode m _ => .ok ⟨{ next with mode := m }, none, none⟩
  | .instruction i =>
    match i.encode symbols p.mode with
    | .ok encoded =>
      let outputBytes := p.outputBytes + encoded.size
      if limits.outputBytes < outputBytes then
        .error (.limitExceeded "output bytes" limits.outputBytes)
      else .ok ⟨{ next with outputBytes }, some ⟨p.statement, .instruction encoded⟩, none⟩
    | .error d =>
      if d.isFatal then .error d
      else if limits.errors < p.errors + 1 then .error (.limitExceeded "errors" limits.errors)
      else .ok ⟨{ next with errors := p.errors + 1 }, none, some d⟩

/-- Encodes statements in order: their records and their errors. -/
def run (p : Progress) : List Statement → Except Diagnostic (List Record × List Diagnostic)
  | [] => .ok ([], [])
  | statement :: rest => do
    let s ← p.step symbols limits statement
    let (records, errors) ← s.next.run rest
    return (s.record.toList ++ records, s.error.toList ++ errors)

/-- The reports of encoding one statement. -/
def stepEvents (p : Progress) : Statement → List Event
  | .label .. => []
  | .mode m _ => [.modeSwitched m]
  | .instruction i => i.events symbols p.mode

/-- The reports of encoding statements in order, up to the end of the run. -/
def runEvents (p : Progress) : List Statement → List Event
  | [] => []
  | statement :: rest =>
    p.stepEvents symbols statement ++
      match p.step symbols limits statement with
      | .ok s => s.next.runEvents rest
      | .error _ => []

end Progress

namespace Session

/-- The start of an encoding run. -/
def progress (s : Session) : Progress := ⟨0, s.mode, 0, s.errors.length⟩

/-- The records of all statements, and all errors: those of the source, then those of encoding. -/
def encode (s : Session) : Except Diagnostic Encoded := do
  let symbols := s.symbols
  let (records, errors) ← s.progress.run symbols.get? s.limits s.statements
  return ⟨records, s.errors ++ errors, symbols⟩

/-- The reports of encoding. -/
def encodeEvents (s : Session) : List Event :=
  s.progress.runEvents s.symbols.get? s.limits s.statements ++
    match s.encode with
    | .ok e => [.encoded s.statementCount e.records.length e.errors.length]
    | .error _ => []

/-- The program of encoded records. -/
def program (s : Session) (records : List Record) : Program :=
  ⟨s.base, s.externals, records.map Record.item⟩

/-- The records with their items encoded without error. -/
def encodeStrict (s : Session) : Except Diagnostic (List Record) := do
  let e ← s.encode
  match Diagnostic.ofList? e.errors with
  | some d => .error d
  | none => return e.records

/-- The source line of a statement. -/
def source? (s : Session) (statement : Nat) : Option String :=
  s.entries[statement]?.bind Entry.source

/-- The source lines of instructions by address. -/
def sources (s : Session) (records : List Record) (instructions : List (Nat × Instruction)) :
    List (Nat × String) :=
  let origins := records.filterMap fun r =>
    match r.item with
    | .instruction _ => some r.statement
    | .label .. => none
  (instructions.zip origins).filterMap fun ((address, _), statement) =>
    (s.source? statement).map fun text => (address, text)

/-- Encodes and links all statements. -/
def finish (s : Session) : Except Diagnostic Assembly := do
  let records ← s.encodeStrict
  let image ← (s.program records).link
  if s.limits.outputBytes < image.bytes.length then
    .error (.limitExceeded "output bytes" s.limits.outputBytes)
  else return {
    bytes := image.bytes
    labels := image.labels
    instructions := image.instructions
    base := s.base
    sources := s.sources records image.instructions }

/-- The reports of encoding and linking. -/
def finishEvents (s : Session) : List Event :=
  s.encodeEvents ++
    match s.encodeStrict with
    | .ok records => (s.program records).layoutEvents
    | .error _ => []

/-- A session with one source text, unless it cannot take the text. -/
def load (source : String) (mode : Mode) (base : Nat) (externals : List (String × Nat)) :
    Except Diagnostic Session :=
  let s := externals.foldl (fun s (name, address) => s.defineExternal name address)
    ((new mode).setBase base)
  (s.emit source).result

end Session

/-- The bytes of a source text for a mode, a base address and external symbols. -/
def assemble (source : String) (mode : Mode) (base : Nat) (externals : List (String × Nat)) :
    Except Diagnostic (List UInt8) := do
  return (← (← Session.load source mode base externals).finish).bytes

/-- The reports of assembling a source text. -/
def assembleEvents (source : String) (mode : Mode) (base : Nat) (externals : List (String × Nat)) :
    List Event :=
  match Session.load source mode base externals with
  | .ok s => s.finishEvents
  | .error _ => []

end IntelAsm
