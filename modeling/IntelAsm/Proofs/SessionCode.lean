/-
The code of a session, as an equation. Encoding is a map from statements to
items that fails if one of them does (`Statement.items?`); what stands around
it, the numbers of the statements, the count of errors and the diagnostics,
does not show in the code. `Session.finish_code` says so once, and comparing two
sessions then comes down to comparing their symbols, their items and the
programs made of them: with other names for all symbols a session has the same
code (`Session.Revised.code`).
-/
import IntelAsm.Proofs.FieldOrigin
import IntelAsm.Proofs.LabelBounds
import IntelAsm.Proofs.LinkRevision

namespace IntelAsm

/-! ## Items -/

namespace Statement

/-- The name that a statement defines, if it is a label. -/
def labelName? : Statement → Option String
  | .label name _ => some name
  | .instruction _ | .mode .. => none

section Items

variable (symbols : String → Option Interval)

/-- The items of statements from a mode on, if every instruction has an encoding. -/
def items? : Mode → List Statement → Option (List Item)
  | _, [] => some []
  | m, .label name span :: rest => (items? m rest).map (.label name span :: ·)
  | _, .mode m _ :: rest => items? m rest
  | m, .instruction i :: rest =>
    (i.encode symbols m).toOption.bind fun e => (items? m rest).map (.instruction e :: ·)

end Items

section Facts

variable {symbols : String → Option Interval} {m : Mode} {statements : List Statement}
  {items : List Item}

/-- Every label of the source is one of the program. -/
theorem items?_labels (h : items? symbols m statements = some items) :
    items.filterMap Item.labelName? = statements.filterMap labelName? := by
  induction statements generalizing m items with
  | nil =>
    cases h
    rfl
  | cons statement rest ih =>
    cases statement with
    | label name span =>
      obtain ⟨tail, htail, rfl⟩ := Option.map_eq_some_iff.1 h
      exact congrArg (name :: ·) (ih htail)
    | mode m span => exact ih h
    | instruction i =>
      obtain ⟨e, -, h⟩ := Option.bind_eq_some_iff.1 h
      obtain ⟨tail, htail, rfl⟩ := Option.map_eq_some_iff.1 h
      have hrest := ih htail
      exact hrest

/-- Every instruction of the program is one of the source, encoded in some mode. -/
theorem items?_instruction (h : items? symbols m statements = some items) {e : Instruction}
    (he : .instruction e ∈ items) :
    ∃ i m, .instruction i ∈ statements ∧ i.encode symbols m = .ok e := by
  induction statements generalizing m items with
  | nil =>
    cases h
    simp at he
  | cons statement rest ih =>
    have hrest {m : Mode} {tail : List Item} (htail : items? symbols m rest = some tail)
        (hmem : .instruction e ∈ tail) :
        ∃ i m, .instruction i ∈ statement :: rest ∧ i.encode symbols m = .ok e := by
      obtain ⟨i, m', hi, hencode⟩ := ih htail hmem
      exact ⟨i, m', by simp [hi], hencode⟩
    cases statement with
    | label name span =>
      obtain ⟨tail, htail, rfl⟩ := Option.map_eq_some_iff.1 h
      exact hrest htail (by simpa using he)
    | mode m span => exact hrest h he
    | instruction i =>
      obtain ⟨e', he', h⟩ := Option.bind_eq_some_iff.1 h
      obtain ⟨tail, htail, rfl⟩ := Option.map_eq_some_iff.1 h
      rcases List.mem_cons.1 he with heq | hmem
      · cases heq
        exact ⟨i, m, by simp, toOption_eq_some.1 he'⟩
      · exact hrest htail hmem

/-- Statements whose instructions are encoded alike have the same items. -/
theorem items?_congr {symbols' : String → Option Interval}
    (h : ∀ i, .instruction i ∈ statements → ∀ m,
      (i.encode symbols' m).toOption = (i.encode symbols m).toOption) (m : Mode) :
    items? symbols' m statements = items? symbols m statements := by
  induction statements generalizing m with
  | nil => rfl
  | cons statement rest ih =>
    have hrest := ih fun i hi => h i (by simp [hi])
    cases statement with
    | label name span => simp only [items?, hrest]
    | mode m' span => exact hrest m'
    | instruction i => simp only [items?, hrest, h i (by simp)]

end Facts
end Statement

/-! ## Runs -/

namespace Progress

variable {symbols : String → Option Interval} {limits : Limits}

/-- A run without errors, and the items it gives. -/
def Gives (symbols : String → Option Interval) (limits : Limits) (p : Progress)
    (statements : List Statement) (items : List Item) : Prop :=
  ∃ records, p.run symbols limits statements = .ok (records, []) ∧ records.map Record.item = items

theorem gives_nil {p : Progress} {items : List Item} :
    p.Gives symbols limits [] items ↔ items = [] := by
  simp only [Gives, run, Except.ok.injEq, Prod.mk.injEq]
  constructor
  · rintro ⟨_, ⟨rfl, -⟩, rfl⟩
    rfl
  · rintro rfl
    exact ⟨[], ⟨rfl, trivial⟩, rfl⟩

/-- A run without errors is a step without error and a run without errors. -/
theorem gives_cons {p : Progress} {statement : Statement} {rest : List Statement}
    {items : List Item} :
    p.Gives symbols limits (statement :: rest) items ↔
      ∃ s, p.step symbols limits statement = .ok s ∧ s.error = none ∧
        ∃ tail, s.next.Gives symbols limits rest tail ∧
          items = s.record.toList.map Record.item ++ tail := by
  simp only [Gives, run, bind_eq_ok, pure_eq_ok, Prod.mk.injEq, List.append_eq_nil_iff]
  constructor
  · rintro ⟨_, ⟨s, hs, ⟨records, errors⟩, hrest, rfl, hnone, rfl⟩, rfl⟩
    exact ⟨s, hs, by simpa using hnone, _, ⟨records, hrest, rfl⟩, by simp⟩
  · rintro ⟨s, hs, hnone, _, ⟨records, hrest, rfl⟩, rfl⟩
    exact ⟨_, ⟨s, hs, (records, []), hrest, rfl, by simp [hnone], rfl⟩, by simp⟩

/-- A run without errors gives the items of its statements, and there is one exactly if they keep
the output limit. -/
theorem gives_iff_items {p : Progress} (hp : p.outputBytes ≤ limits.outputBytes)
    {statements : List Statement} {items : List Item} :
    p.Gives symbols limits statements items ↔
      Statement.items? symbols p.mode statements = some items ∧
        p.outputBytes + Item.sizes items ≤ limits.outputBytes := by
  induction statements generalizing p items with
  | nil =>
    rw [gives_nil, Statement.items?, Option.some.injEq]
    constructor
    · rintro rfl
      exact ⟨rfl, hp⟩
    · rintro ⟨rfl, -⟩
      rfl
  | cons statement rest ih =>
    rw [gives_cons]
    cases statement with
    | label name span =>
      have hnext := @ih { p with statement := p.statement + 1 } hp
      simp only [step, Except.ok.injEq, exists_eq_left', true_and, Statement.items?,
        Option.map_eq_some_iff, hnext]
      constructor
      · rintro ⟨tail, ⟨hitems, hsize⟩, rfl⟩
        exact ⟨⟨tail, hitems, rfl⟩, by simpa [Item.sizes, Item.size] using hsize⟩
      · rintro ⟨⟨tail, hitems, rfl⟩, hsize⟩
        exact ⟨tail, ⟨hitems, by simpa [Item.sizes, Item.size] using hsize⟩, rfl⟩
    | mode m span =>
      have hnext := @ih { p with statement := p.statement + 1, mode := m } hp
      simp only [step, Except.ok.injEq, exists_eq_left', true_and, Statement.items?, hnext]
      constructor
      · rintro ⟨tail, h, rfl⟩
        exact h
      · intro h
        exact ⟨items, h, rfl⟩
    | instruction i =>
      cases he : i.encode symbols p.mode with
      | error d =>
        simp only [step, he, Statement.items?, toOption_error, Option.bind_none, reduceCtorEq,
          false_and, iff_false]
        rintro ⟨s, hs, hnone, -⟩
        rw [guard_eq_ok, guard_eq_ok] at hs
        obtain ⟨-, -, hs⟩ := hs
        cases hs
        cases hnone
      | ok e =>
        have hnext := @ih { p with
          statement := p.statement + 1
          outputBytes := p.outputBytes + e.size }
        simp only [step, he, guard_eq_ok, Nat.not_lt, Except.ok.injEq, Statement.items?, toOption_ok,
          Option.bind_some, Option.map_eq_some_iff]
        constructor
        · rintro ⟨_, ⟨hroom, rfl⟩, -, tail, htail, rfl⟩
          obtain ⟨hitems, hsize⟩ := (hnext hroom).1 htail
          exact ⟨⟨tail, hitems, rfl⟩, (Nat.add_assoc ..).symm.trans_le hsize⟩
        · rintro ⟨⟨tail, hitems, rfl⟩, hsize⟩
          have hall : p.outputBytes + e.size + Item.sizes tail ≤ limits.outputBytes :=
            (Nat.add_assoc ..).trans_le hsize
          have hroom : p.outputBytes + e.size ≤ limits.outputBytes := by omega
          exact ⟨_, ⟨hroom, rfl⟩, rfl, tail, (hnext hroom).2 ⟨hitems, hall⟩, rfl⟩

end Progress

/-! ## Sessions -/

/-- The code of an assembly: its bytes, the labels with their addresses, and the addresses of its
instructions. -/
def Assembly.code (a : Assembly) : List UInt8 × List (String × Nat) × List Nat :=
  (a.bytes, a.labels, a.instructions.map Prod.fst)

namespace Session

/-- The items of a session without errors, if they keep the output limit. -/
def items? (s : Session) : Option (List Item) :=
  if s.errors.isEmpty then
    (Statement.items? s.symbols.get? s.mode s.statements).filter fun items =>
      Item.sizes items ≤ s.limits.outputBytes
  else none

theorem items?_eq_some {s : Session} {items : List Item} :
    s.items? = some items ↔ s.errors = [] ∧
      Statement.items? s.symbols.get? s.mode s.statements = some items ∧
        Item.sizes items ≤ s.limits.outputBytes := by
  simp only [items?, List.isEmpty_iff]
  by_cases herrors : s.errors = []
  · simp only [herrors, true_and, if_true, Option.filter_eq_some_iff, decide_eq_true_eq]
  · simp [herrors]

theorem encodeStrict_items {s : Session} {items : List Item} :
    (∃ records, s.encodeStrict = .ok records ∧ records.map Record.item = items) ↔
      s.items? = some items := by
  have hrun := @Progress.gives_iff_items s.symbols.get? s.limits s.progress (Nat.zero_le _)
    s.statements items
  have hstart : s.progress.outputBytes + Item.sizes items = Item.sizes items := Nat.zero_add _
  rw [hstart, Progress.Gives] at hrun
  have hstrict (records : List Record) : s.encodeStrict = .ok records ↔
      s.errors = [] ∧ s.progress.run s.symbols.get? s.limits s.statements = .ok (records, []) := by
    simp only [encodeStrict, encode, bind_eq_ok, pure_eq_ok]
    constructor
    · rintro ⟨_, ⟨⟨records', errors⟩, hrun, rfl⟩, h⟩
      obtain ⟨hnone, rfl⟩ := unlessReported_eq_ok.1 h
      obtain ⟨herrors, rfl⟩ := List.append_eq_nil_iff.1 hnone
      exact ⟨herrors, hrun⟩
    · rintro ⟨herrors, hrun⟩
      refine ⟨_, ⟨(records, []), hrun, rfl⟩, unlessReported_eq_ok.2 ⟨?_, rfl⟩⟩
      rw [herrors]
      rfl
  simp only [hstrict, and_assoc, exists_and_left, hrun, items?_eq_some]
  rfl

/-- The code of a session. -/
def code? (s : Session) : Option (List UInt8 × List (String × Nat) × List Nat) :=
  s.items?.bind fun items => (⟨s.base, s.externals, items⟩ : Program).code

/-- **What a session is assembled to** is the code of its items; the second check of the output
limit never fails. -/
theorem finish_code (s : Session) : s.finish.toOption.map Assembly.code = s.code? := by
  rw [finish, toOption_bind, code?]
  cases hstrict : s.encodeStrict with
  | error d =>
    cases hitems : s.items? with
    | none => rfl
    | some items =>
      obtain ⟨records, hok, -⟩ := encodeStrict_items.2 hitems
      rw [hstrict] at hok
      cases hok
  | ok records =>
    have hitems : s.items? = some (records.map Record.item) :=
      encodeStrict_items.1 ⟨records, hstrict, rfl⟩
    have hlimit : Item.sizes (records.map Record.item) ≤ s.limits.outputBytes :=
      (items?_eq_some.1 hitems).2.2
    rw [hitems, toOption_ok, Option.bind_some, Option.bind_some, toOption_bind, Program.code]
    change Option.map _ (Option.bind (s.program records).link.toOption _) =
      (s.program records).link.toOption.map _
    cases hlink : (s.program records).link with
    | error d => rfl
    | ok image =>
      have hlength : ¬ s.limits.outputBytes < image.bytes.length := by
        rw [Program.length_link hlink]
        exact Nat.not_lt.2 hlimit
      simp only [toOption_ok, Option.bind_some, if_neg hlength, Option.map_some]
      rfl

end Session

/-! ## Other names -/

namespace Statement

theorem items?_revise {r : Revision} {t t' : String → Option Interval} {statements : List Statement}
    (h : ∀ i, .instruction i ∈ statements → ∀ m,
      ((i.revise r).encode t' m).toOption = (i.encode t m).toOption.map (Instruction.revise r))
    (m : Mode) :
    items? t' m (statements.map (revise r)) =
      (items? t m statements).map (List.map (Item.revise r)) := by
  induction statements generalizing m with
  | nil => rfl
  | cons statement rest ih =>
    have hrest := ih fun i hi => h i (by simp [hi])
    cases statement with
    | label name span =>
      simp only [List.map_cons, revise, items?, hrest, Option.map_map]
      rfl
    | mode m' span => exact hrest m'
    | instruction i =>
      simp only [List.map_cons, revise, items?, hrest, h i (by simp), Option.bind_map,
        Option.map_bind, Option.map_map, Function.comp_def, Item.revise]

end Statement

theorem Symbols.get?_extend (t : Symbols) (name other : String) (b : Interval) :
    (t.extend name b).get? other =
      if other = name then some (((t.get? name).map (·.union b)).getD b) else t.get? other := by
  rw [extend, get?_define]
  cases t.get? name <;> rfl

namespace Session

section Names

variable {r : Revision}

/-- The bounds of labels with other names. No label may get the name of another symbol. -/
theorem addLabelBounds_revise {statements : List Statement} {table table' : Symbols}
    (hlabels : ∀ l ∈ statements.filterMap Statement.labelName?, ∀ n, r.name l = r.name n → l = n)
    (htable : ∀ n, table'.get? (r.name n) = table.get? n) (base k : Nat) (n : String) :
    (addLabelBounds base k (statements.map (Statement.revise r)) table').get? (r.name n) =
      (addLabelBounds base k statements table).get? n := by
  induction statements generalizing k table table' with
  | nil => exact htable n
  | cons statement rest ih =>
    cases statement with
    | label name span =>
      simp only [List.filterMap_cons, Statement.labelName?, List.mem_cons, forall_eq_or_imp] at hlabels
      refine ih hlabels.2 (fun m => ?_) k
      have hname : r.name m = r.name name ↔ m = name :=
        ⟨fun h => (hlabels.1 m h.symm).symm, congrArg r.name⟩
      simp only [Symbols.get?_extend, htable, hname]
    | mode m span => exact ih hlabels htable k
    | instruction i => exact ih hlabels htable (k + 1)

/-- The second session is the first with other names for its symbols: registers stay what they are,
and no label gets the name of another symbol. -/
structure Revised (r : Revision) (s t : Session) : Prop where
  bounds : r.bounds = id
  register : ∀ n, Register.ofName? (r.name n) = Register.ofName? n
  labels : ∀ l ∈ s.statements.filterMap Statement.labelName?, ∀ n, r.name l = r.name n → l = n
  statements : t.statements = s.statements.map (Statement.revise r)
  externals : ∀ n, t.externals.get? (r.name n) = s.externals.get? n
  errors : t.errors.isEmpty = s.errors.isEmpty
  mode : t.mode = s.mode
  base : t.base = s.base
  limits : t.limits = s.limits

namespace Revised

variable {s t : Session}

theorem symbols (h : Revised r s t) (n : String) :
    t.symbols.get? (r.name n) = s.symbols.get? n := by
  rw [Session.symbols, Session.symbols, h.statements, h.base]
  refine addLabelBounds_revise h.labels (fun m => ?_) s.base 0 n
  rw [get?_externalBounds, get?_externalBounds, h.externals]

theorem items (h : Revised r s t) : t.items? = s.items?.map (List.map (Item.revise r)) := by
  have hmatches : r.Matches s.symbols.get? t.symbols.get? fun _ => True :=
    Revision.matches_of_agree h.register fun n _ => h.symbols n
  have hitems : Statement.items? t.symbols.get? s.mode (s.statements.map (Statement.revise r)) =
      (Statement.items? s.symbols.get? s.mode s.statements).map (List.map (Item.revise r)) :=
    Statement.items?_revise (fun i _ m =>
      ParsedInstruction.encode_revise hmatches (fun _ _ => trivial) (.inl h.bounds) m) s.mode
  simp only [items?, h.errors, h.statements, h.mode, h.limits, hitems, Option.filter_map,
    Function.comp_def, Item.sizes_revise]
  split <;> rfl

/-- **Names do not matter to the code of a session**, except for those of its labels. -/
theorem code (h : Revised r s t) :
    t.code? = s.code?.map fun c => (c.1, c.2.1.map (Prod.map r.name id), c.2.2) := by
  rw [code?, code?, h.items, Option.bind_map, Option.map_bind]
  refine Option.bind_congr fun items hitems => ?_
  refine Program.code_revise h.base rfl h.externals fun d hd => h.labels d.name ?_
  rw [← Statement.items?_labels (items?_eq_some.1 hitems).2.1,
    ← Program.labelDefs_names s.base s.externals]
  exact List.mem_map_of_mem hd

end Revised
end Names
end Session
end IntelAsm
