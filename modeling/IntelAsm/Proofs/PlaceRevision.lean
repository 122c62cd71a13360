/-
What encoding and linking do not see: places. Under a revision of the places
alone each function answers as before, with the places in its value or in its
diagnostic revised. There is one equation for each, of failures and limits too,
from an operand (`ParsedOperand.classify_places`) up to a whole program
(`Program.link_places`). A session without places is therefore assembled to what
the session itself is assembled to, without places (`Session.finish_bare`).
-/
import IntelAsm.Session.Encode
import IntelAsm.Proofs.Revision

namespace IntelAsm

/-- A revision that keeps names and bounds. -/
structure Revision.PlacesOnly (r : Revision) : Prop where
  name : r.name = id
  bounds : r.bounds = id

theorem Revision.placesOnly_bare : PlacesOnly .bare := ⟨rfl, rfl⟩

/-! ## Answers -/

namespace Diagnostic

/-- The diagnostic at other places. -/
def mapSpan (place : Span → Span) : Diagnostic → Diagnostic
  | .malformed detail span => .malformed detail (place span)
  | .badOperand detail span => .badOperand detail (place span)
  | .unknownMnemonic mnemonic span => .unknownMnemonic mnemonic (place span)
  | .noEncoding mnemonic span => .noEncoding mnemonic (place span)
  | .encoding error span => .encoding error (place span)
  | .valueRange value min max span => .valueRange value min max (place span)
  | .undefinedLabel label span => .undefinedLabel label (place span)
  | .duplicateLabel label span firstSpan => .duplicateLabel label (place span) (place firstSpan)
  | .branchRange label disp max span => .branchRange label disp max (place span)
  | .limitExceeded resource limit => .limitExceeded resource limit
  | .allocationFailure requested => .allocationFailure requested
  | .several diagnostics => .several (diagnostics.map (mapSpan place))

@[simp] theorem isFatal_mapSpan (place : Span → Span) (d : Diagnostic) :
    (d.mapSpan place).isFatal = d.isFatal := by
  cases d <;> simp only [mapSpan, isFatal]

theorem ofList?_mapSpan (place : Span → Span) (ds : List Diagnostic) :
    ofList? (ds.map (mapSpan place)) = (ofList? ds).map (mapSpan place) := by
  match ds with
  | [] => rfl
  | [d] => rfl
  | d :: e :: ds =>
    simp only [ofList?, List.map_cons, Option.map_some, mapSpan]

end Diagnostic

section Answers

variable {ε α β γ δ : Type} {r : Revision}

/-- The answer at other places; `f` revises its value. -/
def revisedAnswer (r : Revision) (f : α → β) : Except Diagnostic α → Except Diagnostic β
  | .ok value => .ok (f value)
  | .error d => .error (d.mapSpan r.place)

@[simp] theorem revisedAnswer_ok (f : α → β) (value : α) :
    revisedAnswer r f (.ok value) = .ok (f value) := rfl

@[simp] theorem revisedAnswer_error (f : α → β) (d : Diagnostic) :
    revisedAnswer r f (.error d) = .error (d.mapSpan r.place) := rfl

theorem bind_revisedAnswer {f : α → γ} {h : β → δ} {g : α → Except Diagnostic β}
    {g' : γ → Except Diagnostic δ} (x : Except Diagnostic α)
    (hg : ∀ value, g' (f value) = revisedAnswer r h (g value)) :
    (revisedAnswer r f x >>= g') = revisedAnswer r h (x >>= g) := by
  cases x with
  | ok value => exact hg value
  | error d => rfl

theorem mapError_revisedAnswer {f : α → β} {g g' : ε → Diagnostic} (x : Except ε α)
    (hg : ∀ e, g' e = (g e).mapSpan r.place) :
    (x.map f).mapError g' = revisedAnswer r f (x.mapError g) := by
  cases x with
  | ok value => rfl
  | error e => exact congrArg Except.error (hg e)

/-- A value, unless there is something to report. -/
def unlessReported (ds : List Diagnostic) (value : α) : Except Diagnostic α :=
  match Diagnostic.ofList? ds with
  | some d => .error d
  | none => .ok value

theorem unlessReported_revise (r : Revision) (f : α → β) (ds : List Diagnostic) (value : α) :
    unlessReported (ds.map (Diagnostic.mapSpan r.place)) (f value) =
      revisedAnswer r f (unlessReported ds value) := by
  rw [unlessReported, unlessReported, Diagnostic.ofList?_mapSpan]
  cases Diagnostic.ofList? ds <;> rfl

end Answers

/-! ## Operands -/

namespace ParsedOperand

variable {r : Revision} (hr : r.PlacesOnly) (symbols : String → Option Interval)

include hr

theorem classify_places (o : ParsedOperand) :
    (o.revise r).classify symbols = (o.classify symbols).map (Operand.revise r) := by
  have hoperand : Operand.revise r = fun o => { o with span := r.place o.span } :=
    funext (Operand.revise_of_id hr.name hr.bounds)
  rw [revise_of_name hr.name, hoperand]
  obtain ⟨size, distance, address, addressSize, segment, expr, span⟩ := o
  simp only [classify]
  refine bind_same_answer _ fun kind => ?_
  cases address with
  | true => exact bind_same_answer _ fun width => rfl
  | false =>
    simp only [Bool.false_eq_true, if_false]
    cases kind with
    | register reg =>
      cases size with
      | none => rfl
      | some w => exact guard_same_answer rfl
    | immediate i =>
      cases size with
      | none => rfl
      | some w =>
        simp only
        split
        · exact guard_same_answer rfl
        · rfl
    | memory m => exact bind_same_answer _ fun width => rfl

theorem evaluate_places (o : ParsedOperand) :
    (o.revise r).evaluate symbols = revisedAnswer r (Operand.revise r) (o.evaluate symbols) := by
  rw [evaluate, evaluate, classify_places hr]
  refine mapError_revisedAnswer _ fun e => ?_
  simp only [Diagnostic.mapSpan]
  rfl

theorem evaluateAll_places (os : List ParsedOperand) :
    evaluateAll symbols (os.map (revise r)) =
      revisedAnswer r (List.map (Operand.revise r)) (evaluateAll symbols os) := by
  induction os with
  | nil => rfl
  | cons o os ih =>
    unfold evaluateAll at ih ⊢
    rw [List.map_cons, List.mapM_cons, List.mapM_cons, evaluate_places hr, ih]
    refine bind_revisedAnswer _ fun operand => ?_
    exact bind_revisedAnswer _ fun operands => rfl

end ParsedOperand

/-! ## Instructions -/

namespace Attempt

variable (r : Revision)

def revise : Attempt → Attempt
  | .mismatched row => .mismatched row
  | .rejected row e => .rejected row e
  | .encoded row i => .encoded row (i.revise r)

theorem error?_revise (a : Attempt) : (a.revise r).error? = a.error? := by
  cases a <;> rfl

theorem instruction?_revise (a : Attempt) :
    (a.revise r).instruction? = a.instruction?.map (Instruction.revise r) := by
  cases a <;> rfl

theorem ofRow_revise {r : Revision} (hbounds : r.bounds = id) (operands : List Operand)
    (prefixes : PrefixBytes) (mode : Mode) (span : Span) (row : Row) :
    ofRow (operands.map (Operand.revise r)) prefixes mode (r.place span) row =
      (ofRow operands prefixes mode span row).revise r := by
  rw [ofRow, ofRow, Shape.acceptAll_revise fun _ _ => .inl hbounds, Row.encode_revise]
  split
  · rfl
  · cases row.encode operands prefixes mode span <;> rfl

theorem untilEncoded_revise (attempt : Row → Attempt) (rows : List Row) :
    untilEncoded (fun row => (attempt row).revise r) rows =
      (untilEncoded attempt rows).map (revise r) := by
  induction rows with
  | nil => rfl
  | cons row rows ih =>
    simp only [untilEncoded, ih, instruction?_revise, Option.isSome_map]
    split <;> rfl

theorem conclude_revise (mnemonic : String) (span : Span) (attempts : List Attempt) :
    conclude mnemonic (r.place span) (attempts.map (revise r)) =
      revisedAnswer r (Instruction.revise r) (conclude mnemonic span attempts) := by
  have hsome : (attempts.map (revise r)).findSome? instruction? =
      (attempts.findSome? instruction?).map (Instruction.revise r) := by
    rw [List.findSome?_map, List.map_findSome?]
    exact congrArg (attempts.findSome? ·) (funext (instruction?_revise r))
  have herrors : (attempts.map (revise r)).filterMap error? = attempts.filterMap error? := by
    rw [List.filterMap_map]
    exact congrArg (attempts.filterMap ·) (funext (error?_revise r))
  rw [conclude, conclude, hsome, herrors]
  cases attempts.findSome? instruction? with
  | some i => rfl
  | none =>
    cases attempts.filterMap error? with
    | nil => simp only [Option.map_none, revisedAnswer_error, Diagnostic.mapSpan]
    | cons e es =>
      simp only [Option.map_none, revisedAnswer_error]
      split <;> simp only [Diagnostic.mapSpan]

end Attempt

namespace ParsedInstruction

variable {r : Revision} (hr : r.PlacesOnly) (symbols : String → Option Interval) (mode : Mode)

include hr

theorem attempts_places (i : ParsedInstruction) :
    (i.revise r).attempts symbols mode =
      revisedAnswer r (List.map (Attempt.revise r)) (i.attempts symbols mode) := by
  have hrows (operands : List Operand) (prefixes : PrefixBytes) :
      Attempt.ofRow (operands.map (Operand.revise r)) prefixes mode (r.place i.span) =
        fun row => (Attempt.ofRow operands prefixes mode i.span row).revise r :=
    funext fun row => Attempt.ofRow_revise hr.bounds operands prefixes mode i.span row
  simp only [attempts, revise]
  cases Table.rows? i.mnemonic with
  | none => simp only [revisedAnswer_error, Diagnostic.mapSpan]
  | some rows =>
    simp only [ParsedOperand.evaluateAll_places hr]
    refine bind_revisedAnswer _ fun operands => ?_
    simp only [PrefixBytes.compose_revise, hrows]
    cases PrefixBytes.compose i.prefixes operands with
    | error e =>
      have hspan : (Diagnostic.encoding e i.span).mapSpan r.place =
          .encoding e (r.place i.span) := by
        simp only [Diagnostic.mapSpan]
      exact congrArg Except.error hspan.symm
    | ok prefixes => exact congrArg Except.ok (Attempt.untilEncoded_revise r _ _)

/-- **An instruction is encoded alike wherever it stands.** -/
theorem encode_places (i : ParsedInstruction) :
    (i.revise r).encode symbols mode =
      revisedAnswer r (Instruction.revise r) (i.encode symbols mode) := by
  rw [encode, encode, attempts_places hr]
  exact bind_revisedAnswer _ fun attempts => Attempt.conclude_revise r i.mnemonic i.span attempts

end ParsedInstruction

/-! ## Runs -/

def Record.revise (r : Revision) (record : Record) : Record :=
  { record with item := record.item.revise r }

namespace Progress

def Step.revise (r : Revision) (s : Step) : Step :=
  { s with
    record := s.record.map (Record.revise r)
    error := s.error.map (Diagnostic.mapSpan r.place) }

/-- The records and errors of a run, revised. -/
def revisedRun (r : Revision) (run : List Record × List Diagnostic) :
    List Record × List Diagnostic :=
  (run.1.map (Record.revise r), run.2.map (Diagnostic.mapSpan r.place))

variable {r : Revision} (hr : r.PlacesOnly) (symbols : String → Option Interval) (limits : Limits)

include hr

theorem step_places (p : Progress) (statement : Statement) :
    p.step symbols limits (statement.revise r) =
      revisedAnswer r (Step.revise r) (p.step symbols limits statement) := by
  have hlimit (resource : String) (limit : Nat) :
      (Diagnostic.limitExceeded resource limit).mapSpan r.place =
        .limitExceeded resource limit := by
    simp only [Diagnostic.mapSpan]
  cases statement with
  | label name span => rfl
  | mode m span => rfl
  | instruction i =>
    simp only [step, Statement.revise, ParsedInstruction.encode_places hr]
    cases i.encode symbols p.mode with
    | ok encoded =>
      have hsize : (encoded.revise r).size = encoded.size := rfl
      simp only [revisedAnswer_ok, hsize]
      split
      · simp only [revisedAnswer_error, hlimit]
      · rfl
    | error d =>
      simp only [revisedAnswer_error, Diagnostic.isFatal_mapSpan]
      split
      · rfl
      · split
        · simp only [revisedAnswer_error, hlimit]
        · rfl

theorem run_places (p : Progress) (statements : List Statement) :
    p.run symbols limits (statements.map (Statement.revise r)) =
      revisedAnswer r (revisedRun r) (p.run symbols limits statements) := by
  induction statements generalizing p with
  | nil => rfl
  | cons statement rest ih =>
    rw [List.map_cons, run, run, step_places hr]
    refine bind_revisedAnswer _ fun s => ?_
    have hnext : (s.revise r).next.run symbols limits (rest.map (Statement.revise r)) =
        revisedAnswer r (revisedRun r) (s.next.run symbols limits rest) := ih s.next
    rw [hnext]
    refine bind_revisedAnswer _ fun run => ?_
    obtain ⟨next, record, error⟩ := s
    cases record <;> cases error <;> rfl

end Progress

/-! ## Fields -/

namespace Field

variable (r : Revision) (lookup : String → Option Int64) (f : Field) (kind : FieldKind) (e : Expr)
  (stop : Nat) (span : Span)

theorem distance_places (value : Int64) :
    distance value stop (r.place span) = revisedAnswer r id (distance value stop span) := by
  unfold distance
  cases exact64 (stop : Int) with
  | error _ => simp only [revisedAnswer_error, Diagnostic.mapSpan]
  | ok _ =>
    cases exact64 (value.toInt - stop) with
    | error _ => simp only [revisedAnswer_error, Diagnostic.mapSpan]
    | ok _ => rfl

theorem counted_places (value : Int64) :
    f.counted value stop (r.place span) = revisedAnswer r id (f.counted value stop span) := by
  unfold counted
  split
  · exact distance_places r stop span value
  · rfl

theorem checkRange_places (v : Int64) :
    f.checkRange kind e (r.place span) v = revisedAnswer r id (f.checkRange kind e span v) := by
  unfold checkRange
  cases Width.ofBytes? f.size with
  | none => rfl
  | some w =>
    simp only
    split
    · rfl
    · cases kind <;> simp only [rangeDiagnostic, revisedAnswer_error, Diagnostic.mapSpan]

theorem resolve_places :
    f.resolve lookup kind e stop (r.place span) =
      revisedAnswer r id (f.resolve lookup kind e stop span) := by
  unfold resolve
  cases e.resolve lookup with
  | error error =>
    refine congrArg Except.error ?_
    cases error <;> simp only [Diagnostic.mapSpan]
  | ok value =>
    change (f.counted value stop (r.place span) >>= f.checkRange kind e (r.place span)) =
      revisedAnswer r id (f.counted value stop span >>= f.checkRange kind e span)
    rw [counted_places r f stop span value]
    exact bind_revisedAnswer _ fun v => checkRange_places r f kind e span v

end Field

namespace Instruction

/-- An instruction and diagnostics, revised. -/
def revisedPatch (r : Revision) (x : Instruction × List Diagnostic) :
    Instruction × List Diagnostic :=
  (x.1.revise r, x.2.map (Diagnostic.mapSpan r.place))

variable {r : Revision} (hr : r.PlacesOnly) (lookup : String → Option Int64)

include hr

theorem patchField_places (stop : Nat) (i : Instruction) (kind : FieldKind) :
    (i.revise r).patchField lookup stop kind =
      revisedAnswer r (revise r) (i.patchField lookup stop kind) := by
  have hrevise : revise r = fun i => { i with span := r.place i.span } :=
    funext (revise_of_name hr.name)
  have hfield : ({ i with span := r.place i.span } : Instruction).field kind = i.field kind := by
    cases kind <;> rfl
  simp only [hrevise, patchField, hfield]
  cases (i.field kind).deferred with
  | none => rfl
  | some e =>
    simp only [Field.resolve_places r lookup (i.field kind) kind e stop i.span]
    cases (i.field kind).resolve lookup kind e stop i.span with
    | error d => rfl
    | ok v => cases kind <;> rfl

theorem patchStep_places (stop : Nat) (x : Instruction × List Diagnostic) (kind : FieldKind) :
    patchStep lookup stop (revisedPatch r x) kind =
      revisedPatch r (patchStep lookup stop x kind) := by
  obtain ⟨i, ds⟩ := x
  simp only [patchStep, revisedPatch, patchField_places hr]
  cases i.patchField lookup stop kind with
  | ok j => rfl
  | error d => simp only [revisedAnswer_error, List.map_append, List.map_cons, List.map_nil]

theorem patch_places (address : Nat) (i : Instruction) :
    (i.revise r).patch lookup address = revisedPatch r (i.patch lookup address) := by
  have hfold (kinds : List FieldKind) (x : Instruction × List Diagnostic) (stop : Nat) :
      kinds.foldl (patchStep lookup stop) (revisedPatch r x) =
        revisedPatch r (kinds.foldl (patchStep lookup stop) x) := by
    induction kinds generalizing x with
    | nil => rfl
    | cons kind kinds ih => rw [List.foldl_cons, List.foldl_cons, patchStep_places hr, ih]
  exact hfold fieldKinds (i, []) (address + i.size)

end Instruction

/-! ## Programs -/

def Image.revise (r : Revision) (image : Image) : Image :=
  { image with instructions := image.instructions.map (Prod.map id (Instruction.revise r)) }

namespace Program

def revise (r : Revision) (p : Program) : Program :=
  { p with items := p.items.map (Item.revise r) }

/-- Everything that linking reports. -/
def reports (p : Program) : List Diagnostic := p.duplicates ++ p.patched.flatMap fun x => x.2.2

/-- What linking gives if it reports nothing. -/
def image (p : Program) : Image where
  bytes := p.patched.flatMap fun x => x.2.1.bytes
  labels := p.labels.map fun d => (d.name, d.address)
  instructions := p.patched.map fun x => (x.1, x.2.1)

theorem link_eq (p : Program) :
    p.link = if addressLimit < p.stop then .error (.limitExceeded "address space" addressLimit)
      else unlessReported p.reports p.image := rfl

section Places

variable {r : Revision} (hr : r.PlacesOnly)

include hr

theorem find?_places (ds : List LabelDef) (name : String) :
    (ds.map (LabelDef.revise r)).find? (·.name = name) =
      (ds.find? (·.name = name)).map (LabelDef.revise r) := by
  rw [List.find?_map]
  simp only [Function.comp_def, LabelDef.revise, hr.name, id_eq]

theorem splitDefs_places (seen ds : List LabelDef) :
    splitDefs (seen.map (LabelDef.revise r)) (ds.map (LabelDef.revise r)) =
      ((splitDefs seen ds).1.map (LabelDef.revise r),
        (splitDefs seen ds).2.map (Prod.map (LabelDef.revise r) (LabelDef.revise r))) := by
  induction ds generalizing seen with
  | nil => rfl
  | cons d ds ih =>
    have hname : (d.revise r).name = d.name := congrFun hr.name d.name
    simp only [List.map_cons, splitDefs, hname, find?_places hr]
    cases seen.find? (·.name = d.name) with
    | some first => simp only [Option.map_some, ih, List.map_cons, Prod.map]
    | none =>
      have hseen : seen.map (LabelDef.revise r) ++ [d.revise r] =
          (seen ++ [d]).map (LabelDef.revise r) := by simp
      simp only [Option.map_none, hseen, ih, List.map_cons]

theorem labels_places (p : Program) : (p.revise r).labels = p.labels.map (LabelDef.revise r) := by
  rw [labels, labels, labelDefs_revise (p := p) (q := p.revise r) rfl rfl]
  exact congrArg Prod.fst (splitDefs_places hr [] p.labelDefs)

theorem duplicates_places (p : Program) :
    (p.revise r).duplicates = p.duplicates.map (Diagnostic.mapSpan r.place) := by
  have hagain := congrArg Prod.snd (splitDefs_places hr [] p.labelDefs)
  rw [List.map_nil] at hagain
  rw [duplicates, duplicates, labelDefs_revise (p := p) (q := p.revise r) rfl rfl, hagain,
    List.map_map, List.map_map]
  refine List.map_congr_left fun pair _ => ?_
  simp only [Function.comp_apply, Prod.map, LabelDef.revise, Diagnostic.mapSpan, hr.name, id_eq]

theorem valueIn_places (labels : List LabelDef) (externals : Externals) :
    valueIn (labels.map (LabelDef.revise r)) externals = valueIn labels externals := by
  funext name
  rw [valueIn, valueIn, addressIn, addressIn, find?_places hr, Option.map_map]
  rfl

theorem patched_places (p : Program) :
    (p.revise r).patched = p.patched.map (Prod.map id (Instruction.revisedPatch r)) := by
  rw [patched, patched, labels_places hr, instructions_revise (p := p) (q := p.revise r) rfl rfl,
    List.map_map, List.map_map]
  refine List.map_congr_left fun entry _ => ?_
  have hvalue : valueIn (p.labels.map (LabelDef.revise r)) (p.revise r).externals =
    valueIn p.labels p.externals := valueIn_places hr p.labels p.externals
  simp only [Function.comp_apply, Prod.map, id_eq, hvalue, Instruction.patch_places hr]

/-- **A program is linked alike wherever its items were written.** -/
theorem link_places (p : Program) : (p.revise r).link = revisedAnswer r (Image.revise r) p.link := by
  have hreports : (p.revise r).reports = p.reports.map (Diagnostic.mapSpan r.place) := by
    rw [reports, reports, duplicates_places hr, patched_places hr, List.map_append,
      List.flatMap_map, List.map_flatMap]
    rfl
  have hnames : (fun d : LabelDef => (d.name, d.address)) ∘ LabelDef.revise r =
      fun d => (d.name, d.address) := by
    simp only [Function.comp_def, LabelDef.revise, hr.name, id_eq]
  have himage : (p.revise r).image = p.image.revise r := by
    simp only [image, patched_places hr, labels_places hr, List.flatMap_map, List.map_map,
      Image.revise, hnames]
    rfl
  rw [link_eq, link_eq, stop_revise (p := p) (q := p.revise r) rfl rfl, hreports, himage]
  split
  · simp only [revisedAnswer_error, Diagnostic.mapSpan]
  · exact unlessReported_revise r (Image.revise r) p.reports p.image

end Places
end Program

/-! ## Sessions -/

/-- The assembly without places and source lines. -/
def Assembly.bare (a : Assembly) : Assembly :=
  { a with
    instructions := a.instructions.map (Prod.map id (Instruction.revise .bare))
    sources := [] }

def Encoded.revise (r : Revision) (e : Encoded) : Encoded :=
  { e with
    records := e.records.map (Record.revise r)
    errors := e.errors.map (Diagnostic.mapSpan r.place) }

namespace Session

/-- The session without places and source lines. -/
def bare (s : Session) : Session :=
  { s with
    entries := s.entries.map fun e => ⟨e.statement.revise .bare, none⟩
    errors := s.errors.map (Diagnostic.mapSpan Revision.bare.place) }

theorem statements_bare (s : Session) :
    s.bare.statements = s.statements.map (Statement.revise .bare) := by
  simp only [statements, bare, List.map_map]
  rfl

theorem symbols_bare (s : Session) : s.bare.symbols = s.symbols := by
  have hbounds (n : Nat) (statements : List Statement) (table : Symbols) :
      addLabelBounds s.base n (statements.map (Statement.revise .bare)) table =
        addLabelBounds s.base n statements table := by
    induction statements generalizing n table with
    | nil => rfl
    | cons statement rest ih => cases statement <;> exact ih _ _
  rw [symbols, symbols, statements_bare]
  exact hbounds 0 s.statements s.externalBounds

theorem encode_bare (s : Session) :
    s.bare.encode = revisedAnswer .bare (Encoded.revise .bare) s.encode := by
  have hprogress : s.bare.progress = s.progress := by
    simp only [progress, bare, List.length_map]
  have hlimits : s.bare.limits = s.limits := rfl
  simp only [encode, symbols_bare, hprogress, hlimits, statements_bare,
    Progress.run_places Revision.placesOnly_bare]
  refine bind_revisedAnswer _ fun run => ?_
  have herrors : s.bare.errors ++ run.2.map (Diagnostic.mapSpan Revision.bare.place) =
      (s.errors ++ run.2).map (Diagnostic.mapSpan Revision.bare.place) := List.map_append.symm
  simp only [Progress.revisedRun, herrors]
  rfl

theorem encodeStrict_bare (s : Session) :
    s.bare.encodeStrict = revisedAnswer .bare (List.map (Record.revise .bare)) s.encodeStrict := by
  rw [encodeStrict, encodeStrict, encode_bare]
  exact bind_revisedAnswer _ fun e =>
    unlessReported_revise .bare (List.map (Record.revise .bare)) e.errors e.records

theorem sources_bare (s : Session) (records : List Record)
    (instructions : List (Nat × Instruction)) : s.bare.sources records instructions = [] := by
  have hnone (n : Nat) : s.bare.source? n = none := by
    simp only [source?, bare, List.getElem?_map]
    cases s.entries[n]? <;> rfl
  simp only [sources, hnone]
  exact List.filterMap_eq_nil_iff.2 fun _ _ => rfl

/-- **Places do not matter to a session**: what it is assembled to, or the diagnostic, is the same
without them. -/
theorem finish_bare (s : Session) : s.bare.finish = revisedAnswer .bare Assembly.bare s.finish := by
  rw [finish, finish, encodeStrict_bare]
  refine bind_revisedAnswer _ fun records => ?_
  have hprogram : s.bare.program (records.map (Record.revise .bare)) =
      (s.program records).revise .bare := by
    simp only [program, Program.revise, List.map_map]
    rfl
  have hlimits : s.bare.limits = s.limits := rfl
  rw [hprogram, Program.link_places Revision.placesOnly_bare]
  refine bind_revisedAnswer _ fun image => ?_
  have hbytes : (image.revise .bare).bytes = image.bytes := rfl
  simp only [hlimits, hbytes, sources_bare]
  split
  · simp only [revisedAnswer_error, Diagnostic.mapSpan]
  · rfl

end Session
end IntelAsm
