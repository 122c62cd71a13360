/-
An encoding run, statement by statement. `Progress.step_cases` says once what
a step can do, and `Translated` is the relation that a run without errors
builds up (`Progress.run_translated`): every label and every instruction has
exactly one record, in order and under its number, and an instruction is
encoded in the mode that the switches in front of it leave in force.
-/
import IntelAsm.Proofs.LinkFacts
import IntelAsm.Proofs.SelectFacts
import IntelAsm.Session.Encode

namespace IntelAsm

/-- The records of statements encoded without error, from the mode and the number of the first
statement on. -/
inductive Translated (symbols : String → Option Interval) :
    Mode → Nat → List Statement → List Record → Prop
  | nil {mode n} : Translated symbols mode n [] []
  | label {mode n name span rest records} (tail : Translated symbols mode (n + 1) rest records) :
    Translated symbols mode n (.label name span :: rest) (⟨n, .label name span⟩ :: records)
  | mode {mode n m span rest records} (tail : Translated symbols m (n + 1) rest records) :
    Translated symbols mode n (.mode m span :: rest) records
  | instruction {mode n i e rest records} (head : ParsedInstruction.encode symbols mode i = .ok e)
    (tail : Translated symbols mode (n + 1) rest records) :
    Translated symbols mode n (.instruction i :: rest) (⟨n, .instruction e⟩ :: records)

/-! ## Runs -/

namespace Progress

variable {symbols : String → Option Interval} {limits : Limits}

/-- **All that a step can do**: take over a label, switch the mode, encode an instruction within the
output limit, or collect the error of one within the error limit. -/
theorem step_cases {p : Progress} {statement : Statement} {s : Step}
    (h : p.step symbols limits statement = .ok s) :
    (∃ name span, statement = .label name span ∧
        s = ⟨{ p with statement := p.statement + 1 }, some ⟨p.statement, .label name span⟩, none⟩) ∨
      (∃ m span, statement = .mode m span ∧
        s = ⟨{ p with statement := p.statement + 1, mode := m }, none, none⟩) ∨
      (∃ i e, statement = .instruction i ∧ i.encode symbols p.mode = .ok e ∧
        p.outputBytes + e.size ≤ limits.outputBytes ∧
        s = ⟨{ p with statement := p.statement + 1, outputBytes := p.outputBytes + e.size },
          some ⟨p.statement, .instruction e⟩, none⟩) ∨
      ∃ i d, statement = .instruction i ∧ i.encode symbols p.mode = .error d ∧ d.isFatal = false ∧
        p.errors + 1 ≤ limits.errors ∧
        s = ⟨{ p with statement := p.statement + 1, errors := p.errors + 1 }, none, some d⟩ := by
  cases statement with
  | label name span =>
    cases h
    exact .inl ⟨name, span, rfl, rfl⟩
  | mode m span =>
    cases h
    exact .inr (.inl ⟨m, span, rfl, rfl⟩)
  | instruction i =>
    simp only [step] at h
    split at h
    · rename_i e he
      rw [guard_eq_ok] at h
      obtain ⟨hlen, h⟩ := h
      cases h
      exact .inr (.inr (.inl ⟨i, e, rfl, he, Nat.le_of_not_lt hlen, rfl⟩))
    · rename_i d hd
      rw [guard_eq_ok, guard_eq_ok] at h
      obtain ⟨hfatal, herr, h⟩ := h
      cases h
      exact .inr (.inr (.inr ⟨i, d, rfl, hd, by simpa using hfatal, Nat.le_of_not_lt herr, rfl⟩))

/-- A run without errors translates its statements. -/
theorem run_translated {p : Progress} {statements : List Statement} {records : List Record}
    (h : p.run symbols limits statements = .ok (records, [])) :
    Translated symbols p.mode p.statement statements records := by
  induction statements generalizing p records with
  | nil =>
    cases h
    exact .nil
  | cons statement rest ih =>
    simp only [run, bind_eq_ok, pure_eq_ok, Prod.mk.injEq] at h
    obtain ⟨s, hs, ⟨records', errors⟩, hrest, rfl, herr⟩ := h
    obtain ⟨hnone, rfl⟩ := List.append_eq_nil_iff.1 herr
    have htail := ih hrest
    rcases step_cases hs with ⟨name, span, rfl, rfl⟩ | ⟨m, span, rfl, rfl⟩ |
      ⟨i, e, rfl, he, -, rfl⟩ | ⟨i, d, rfl, -, -, -, rfl⟩
    · exact .label htail
    · exact .mode htail
    · exact .instruction he htail
    · simp at hnone

end Progress

/-! ## Instructions and their modes -/

/-- The instructions among statements, each with the mode in force. -/
def Statement.instructionsIn : Mode → List Statement → List (Mode × ParsedInstruction)
  | _, [] => []
  | m, .label .. :: rest => instructionsIn m rest
  | _, .mode m _ :: rest => instructionsIn m rest
  | m, .instruction i :: rest => (m, i) :: instructionsIn m rest

/-- The instruction of an item, if it is one. -/
def Item.instruction? : Item → Option Instruction
  | .label .. => none
  | .instruction i => some i

theorem Program.placeFrom_instructions (address : Nat) (items : List Item) :
    ((placeFrom address items).filterMap fun
      | (address, .instruction i) => some (address, i)
      | _ => none).map Prod.snd = items.filterMap Item.instruction? := by
  induction items generalizing address with
  | nil => rfl
  | cons item items ih =>
    cases item with
    | label name span => exact ih address
    | instruction i => exact congrArg (i :: ·) (ih (address + i.size))

namespace Translated

variable {symbols : String → Option Interval}

/-- The instructions of a program are those of its source, encoded each in its mode. -/
theorem instructions {mode : Mode} {n : Nat} {statements : List Statement} {records : List Record}
    (h : Translated symbols mode n statements records) :
    List.Forall₂ (fun x e => ParsedInstruction.encode symbols x.1 x.2 = .ok e)
      (Statement.instructionsIn mode statements)
      ((records.map Record.item).filterMap Item.instruction?) := by
  induction h with
  | nil => exact .nil
  | label _ ih => exact ih
  | mode _ ih => exact ih
  | instruction head _ ih => exact .cons head ih

end Translated

/-! ## Sessions -/

namespace Session

theorem encodeStrict_translated {s : Session} {records : List Record}
    (h : s.encodeStrict = .ok records) :
    Translated s.symbols.get? s.mode 0 s.statements records := by
  simp only [encodeStrict, encode, bind_eq_ok, pure_eq_ok] at h
  obtain ⟨e, ⟨⟨records', errors⟩, hrun, rfl⟩, h⟩ := h
  split at h
  · cases h
  · rename_i hnone
    cases h
    obtain ⟨-, rfl⟩ := List.append_eq_nil_iff.1 (Diagnostic.ofList?_eq_none.1 hnone)
    exact Progress.run_translated hrun

/-- A session that comes to an end has encoded all statements and linked their records. -/
theorem finish_eq_ok {s : Session} {a : Assembly} (h : s.finish = .ok a) :
    ∃ records image, s.encodeStrict = .ok records ∧ (s.program records).link = .ok image ∧
      image.bytes.length ≤ s.limits.outputBytes ∧
      a = ⟨image.bytes, image.labels, image.instructions, s.base,
        s.sources records image.instructions⟩ := by
  simp only [finish, bind_eq_ok, guard_eq_ok, pure_eq_ok] at h
  obtain ⟨records, hrec, image, himg, hlen, rfl⟩ := h
  exact ⟨records, image, hrec, himg, Nat.le_of_not_lt hlen, rfl⟩

/-- The instructions of the program are those of the source in order, each encoded in its mode. -/
theorem program_instructions {s : Session} {records : List Record}
    (h : s.encodeStrict = .ok records) :
    List.Forall₂ (fun source placed => source.2.encode s.symbols.get? source.1 = .ok placed.2)
      (Statement.instructionsIn s.mode s.statements) (s.program records).instructions := by
  have henc := (encodeStrict_translated h).instructions
  have hplace : (s.program records).instructions.map Prod.snd =
      (records.map Record.item).filterMap Item.instruction? :=
    Program.placeFrom_instructions s.base (records.map Record.item)
  rw [← hplace, List.forall₂_map_right_iff] at henc
  exact henc

end Session

theorem assemble_eq_ok {source : String} {mode : Mode} {base : Nat} {externals : List (String × Nat)}
    {bytes : List UInt8} :
    assemble source mode base externals = .ok bytes ↔
      ∃ s a, Session.load source mode base externals = .ok s ∧ s.finish = .ok a ∧ a.bytes = bytes := by
  simp only [assemble, bind_eq_ok, pure_eq_ok]
  constructor
  · rintro ⟨s, hs, a, ha, hbytes⟩
    exact ⟨s, a, hs, ha, hbytes⟩
  · rintro ⟨s, a, hs, ha, hbytes⟩
    exact ⟨s, hs, a, ha, hbytes⟩

end IntelAsm
