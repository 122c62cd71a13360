/-
What adding source does to a session, call by call: which part of the work is
done when a call ends, and under which limit it ends early. Errors are
collected up to the first that is one too many, which is kept
(`Session.recordErrors_cases`); statements are added up to the first label that
is one too many, which is counted (`Session.addStatements_cases`). A call takes
a whole text or stops at one of four places (`Session.emit_cases`).
-/
import IntelAsm.Session
import IntelAsm.Proofs.ScanFacts

namespace IntelAsm

/-! ## Source texts -/

namespace Statement

def isLabel : Statement → Bool
  | .label .. => true
  | .instruction _ | .mode .. => false

/-- The number of labels among statements. -/
def labelTotal (statements : List Statement) : Nat := statements.countP isLabel

@[simp] theorem labelTotal_nil : labelTotal [] = 0 := rfl

@[simp] theorem labelTotal_append (as bs : List Statement) :
    labelTotal (as ++ bs) = labelTotal as + labelTotal bs := List.countP_append

@[simp] theorem labelTotal_label (name : String) (span : Span) (rest : List Statement) :
    labelTotal (.label name span :: rest) = labelTotal rest + 1 := List.countP_cons_of_pos rfl

/-- The statements of a source text, and the errors in it. -/
def read (source : String) : List Statement × List Diagnostic :=
  match Token.scan source with
  | .error d => ([], [d])
  | .ok tokens => ((parseTokens tokens).1, (parseTokens tokens).2.map ParseFailure.diagnostic)

end Statement

theorem Statement.read_malformed {source : String} {d : Diagnostic} (h : d ∈ (read source).2) :
    ∃ detail span, d = .malformed detail span := by
  unfold read at h
  cases hscan : Token.scan source with
  | error e =>
    rw [hscan] at h
    rw [List.mem_singleton.1 h]
    exact Token.scanFrom_malformed hscan
  | ok tokens =>
    rw [hscan] at h
    obtain ⟨f, -, rfl⟩ := List.mem_map.1 h
    exact ⟨_, _, rfl⟩

/-- An error of a source text never ends a session. -/
theorem Statement.read_nonfatal (source : String) :
    ∀ d ∈ (read source).2, d.isFatal = false := by
  intro d h
  obtain ⟨detail, span, rfl⟩ := read_malformed h
  rfl

namespace Session

/-! ## Errors -/

namespace Outcome

@[simp] theorem andThen_done (s : Session) (f : Session → Outcome) : (done s).andThen f = f s := rfl

@[simp] theorem andThen_failed (s : Session) (d : Diagnostic) (f : Session → Outcome) :
    (⟨s, some d⟩ : Outcome).andThen f = ⟨s, some d⟩ := rfl

theorem andThen_eq_none {o : Outcome} {f : Session → Outcome} :
    (o.andThen f).failure = none ↔ o.failure = none ∧ (f o.session).failure = none := by
  obtain ⟨s, failure⟩ := o
  cases failure <;> simp [andThen]

end Outcome

theorem recordError_cases (s : Session) {d : Diagnostic} (hd : d.isFatal = false) :
    (s.errors.length < s.limits.errors ∧
        s.recordError d = .done { s with errors := s.errors ++ [d] }) ∨
      (s.limits.errors ≤ s.errors.length ∧ s.recordError d =
        ⟨{ s with errors := s.errors ++ [d] }, some (.limitExceeded "errors" s.limits.errors)⟩) := by
  simp only [recordError, hd, Bool.false_eq_true, if_false, List.length_append, List.length_singleton]
  split
  · rename_i hmany
    exact .inr ⟨Nat.le_of_lt_succ hmany, rfl⟩
  · rename_i hroom
    exact .inl ⟨Nat.le_of_not_lt hroom, rfl⟩

theorem recordErrors_singleton (s : Session) (d : Diagnostic) :
    s.recordErrors [d] = s.recordError d := by
  rw [recordErrors]
  obtain ⟨t, failure⟩ := s.recordError d
  cases failure <;> rfl

/-- **Errors are collected** in order, all or up to the first beyond the limit: one more is held than
are allowed and than there were. -/
theorem recordErrors_cases (s : Session) {ds : List Diagnostic}
    (hds : ∀ d ∈ ds, d.isFatal = false) :
    (s.recordErrors ds = .done { s with errors := s.errors ++ ds } ∧
        (ds = [] ∨ s.errors.length + ds.length ≤ s.limits.errors)) ∨
      ∃ new, new <+: ds ∧
        s.errors.length + new.length = max s.limits.errors s.errors.length + 1 ∧
        s.recordErrors ds =
          ⟨{ s with errors := s.errors ++ new }, some (.limitExceeded "errors" s.limits.errors)⟩ := by
  induction ds generalizing s with
  | nil => exact .inl ⟨by simp [recordErrors], .inl rfl⟩
  | cons d ds ih =>
    simp only [recordErrors]
    rcases s.recordError_cases (hds d (by simp)) with ⟨hroom, hd⟩ | ⟨hfull, hd⟩
    · rw [hd, Outcome.andThen_done]
      rcases ih { s with errors := s.errors ++ [d] } (fun e he => hds e (by simp [he])) with
        ⟨hrest, hrooms⟩ | ⟨new, hnew, hcount, hrest⟩
      · left
        rw [hrest]
        refine ⟨by simp, .inr ?_⟩
        rcases hrooms with rfl | hrooms
        · exact hroom
        · simpa [Nat.add_assoc, Nat.add_comm 1] using hrooms
      · right
        refine ⟨d :: new, List.cons_prefix_cons.2 ⟨rfl, hnew⟩, ?_, ?_⟩
        · simp only [List.length_append, List.length_cons, List.length_nil] at hcount ⊢
          omega
        · rw [hrest]
          simp
    · right
      refine ⟨[d], List.cons_prefix_cons.2 ⟨rfl, List.nil_prefix⟩, ?_, ?_⟩
      · rw [List.length_singleton, Nat.max_eq_right hfull]
      · rw [hd, Outcome.andThen_failed]

/-! ## Statements -/

/-- What a session keeps of a statement of a source text. -/
def entryOf (source : List Char) (listing : Bool) : Statement → Entry
  | .instruction i =>
    ⟨.instruction i, if listing then some (sourceLine source i.span.offset) else none⟩
  | .label name span => ⟨.label name span, none⟩
  | .mode m span => ⟨.mode m span, none⟩

@[simp] theorem statement_entryOf (source : List Char) (listing : Bool) (st : Statement) :
    (entryOf source listing st).statement = st := by
  cases st <;> rfl

@[simp] theorem map_statement_entryOf (source : List Char) (listing : Bool) (sts : List Statement) :
    (sts.map (entryOf source listing)).map Entry.statement = sts := by
  rw [List.map_map]
  have hsame := List.map_congr_left fun st (_ : st ∈ sts) => statement_entryOf source listing st
  exact hsame.trans (List.map_id sts)

/-- The session with more statements of a source text, the labels among them counted. -/
def extend (s : Session) (source : List Char) (sts : List Statement) : Session :=
  { s with
    entries := s.entries ++ sts.map (entryOf source s.listing)
    labelCount := s.labelCount + Statement.labelTotal sts }

theorem extend_nil (s : Session) (source : List Char) : s.extend source [] = s := by
  simp [extend]

theorem extend_append (s : Session) (source : List Char) (as bs : List Statement) :
    (s.extend source as).extend source bs = s.extend source (as ++ bs) := by
  simp [extend, Nat.add_assoc]

@[simp] theorem statements_extend (s : Session) (source : List Char) (sts : List Statement) :
    (s.extend source sts).statements = s.statements ++ sts := by
  simp only [statements, extend, List.map_append, map_statement_entryOf]

/-- A label beyond the limit is counted and not added; every other statement is added. -/
theorem addStatements_cons (source : List Char) (s : Session) (st : Statement)
    (rest : List Statement) :
    s.addStatements source (st :: rest) =
      if st.isLabel = true ∧ s.limits.labels < s.labelCount + 1 then
        ⟨{ s with labelCount := s.labelCount + 1 }, some (.limitExceeded "labels" s.limits.labels)⟩
      else (s.extend source [st]).addStatements source rest := by
  cases st with
  | label name span =>
    simp only [addStatements, countLabel, Statement.isLabel, true_and]
    split
    · rfl
    · rfl
  | instruction i => rfl
  | mode m span => rfl

/-- **Statements are added** in order, all or up to a label beyond the limit, which is counted. It is
the first such label: those in front of it make up the limit, or there are none. -/
theorem addStatements_cases (source : List Char) (s : Session) (sts : List Statement) :
    (s.addStatements source sts = .done (s.extend source sts) ∧
        (Statement.labelTotal sts = 0 ∨
          s.labelCount + Statement.labelTotal sts ≤ s.limits.labels)) ∨
      ∃ before name span after, sts = before ++ .label name span :: after ∧
        s.labelCount + Statement.labelTotal before = max s.limits.labels s.labelCount ∧
        s.addStatements source sts =
          ⟨{ s.extend source before with labelCount := (s.extend source before).labelCount + 1 },
            some (.limitExceeded "labels" s.limits.labels)⟩ := by
  induction sts generalizing s with
  | nil =>
    left
    rw [extend_nil]
    exact ⟨rfl, .inl rfl⟩
  | cons st rest ih =>
    have hone (sts : List Statement) : Statement.labelTotal (st :: sts) =
        Statement.labelTotal [st] + Statement.labelTotal sts := Statement.labelTotal_append [st] sts
    have hcount : (s.extend source [st]).labelCount =
        s.labelCount + Statement.labelTotal [st] := rfl
    have hlimits : (s.extend source [st]).limits = s.limits := rfl
    rw [addStatements_cons]
    by_cases hrefused : st.isLabel = true ∧ s.limits.labels < s.labelCount + 1
    · right
      obtain ⟨hst, hfull⟩ := hrefused
      rw [if_pos ⟨hst, hfull⟩]
      cases st with
      | label name span =>
        refine ⟨[], name, span, rest, rfl, ?_, by rw [extend_nil]⟩
        exact (Nat.max_eq_right (Nat.le_of_lt_succ hfull)).symm
      | instruction i => cases hst
      | mode m span => cases hst
    · rw [if_neg hrefused]
      -- The statement is no label, or there was room for it.
      have hfits : Statement.labelTotal [st] = 0 ∨
          Statement.labelTotal [st] = 1 ∧ s.labelCount + 1 ≤ s.limits.labels := by
        cases hst : st.isLabel with
        | false => exact .inl (by simp [Statement.labelTotal, hst])
        | true =>
          have hroom : ¬ s.limits.labels < s.labelCount + 1 := fun hlt => hrefused ⟨hst, hlt⟩
          exact .inr ⟨by simp [Statement.labelTotal, hst], Nat.le_of_not_lt hroom⟩
      rcases ih (s.extend source [st]) with ⟨hrest, hroom⟩ |
        ⟨before, name, span, after, rfl, hfull, hrest⟩
      · left
        rw [hrest, extend_append]
        refine ⟨rfl, ?_⟩
        rw [hcount, hlimits] at hroom
        rw [hone rest]
        omega
      · right
        refine ⟨st :: before, name, span, after, rfl, ?_, ?_⟩
        · rw [hcount, hlimits] at hfull
          rw [hone before]
          omega
        · rw [hrest, extend_append]
          rfl

/-! ## Calls -/

/-- **A source text** is too long, or cannot be scanned and has one error, or has statements and
errors that are taken in turn. -/
theorem emit_cases (s : Session) (source : String) :
    (s.limits.sourceBytes < source.utf8ByteSize ∧
        s.emit source = ⟨s, some (.limitExceeded "source bytes" s.limits.sourceBytes)⟩) ∨
      (source.utf8ByteSize ≤ s.limits.sourceBytes ∧ ∃ d, Statement.read source = ([], [d]) ∧
        s.emit source = s.recordErrors [d]) ∨
      (source.utf8ByteSize ≤ s.limits.sourceBytes ∧
        s.emit source = (s.recordErrors (Statement.read source).2).andThen fun s =>
          if s.limits.statements < s.entries.length + (Statement.read source).1.length then
            ⟨s, some (.limitExceeded "statements" s.limits.statements)⟩
          else s.addStatements source.toList (Statement.read source).1) := by
  by_cases hlong : s.limits.sourceBytes < source.utf8ByteSize
  · left
    exact ⟨hlong, if_pos hlong⟩
  · right
    rw [emit, if_neg hlong, Statement.read]
    cases hscan : Token.scan source with
    | error d => exact .inl ⟨Nat.le_of_not_lt hlong, d, rfl, (s.recordErrors_singleton d).symm⟩
    | ok tokens => exact .inr ⟨Nat.le_of_not_lt hlong, rfl⟩

/-- A call that does not fail collects all errors of the text. -/
theorem errors_emit {s : Session} {source : String} (h : (s.emit source).failure = none) :
    (s.emit source).session.errors = s.errors ++ (Statement.read source).2 := by
  have hfatal := Statement.read_nonfatal source
  rcases s.emit_cases source with ⟨-, hemit⟩ | ⟨-, d, hread, hemit⟩ | ⟨-, hemit⟩
  · rw [hemit] at h
    cases h
  · rw [hread] at hfatal ⊢
    rcases s.recordErrors_cases hfatal with ⟨hd, -⟩ | ⟨new, -, -, hd⟩
    · rw [hemit, hd]
      rfl
    · rw [hemit, hd] at h
      cases h
  · rcases s.recordErrors_cases hfatal with ⟨hds, -⟩ | ⟨new, -, -, hds⟩
    · rw [hds, Outcome.andThen_done] at hemit
      rw [hemit] at h ⊢
      split at h
      · cases h
      · rename_i hroom
        rw [if_neg hroom]
        rcases addStatements_cases source.toList _ (Statement.read source).1 with
          ⟨hadd, -⟩ | ⟨_, _, _, _, -, -, hadd⟩
        · rw [hadd]
          rfl
        · rw [hadd] at h
          cases h
    · rw [hemit, hds] at h
      cases h

theorem label_cases (s : Session) (name : String) :
    (s.limits.statements ≤ s.entries.length ∧
        s.label name = ⟨s, some (.limitExceeded "statements" s.limits.statements)⟩) ∨
      (s.entries.length < s.limits.statements ∧ s.limits.labels < s.labelCount + 1 ∧
        s.label name = ⟨{ s with labelCount := s.labelCount + 1 },
          some (.limitExceeded "labels" s.limits.labels)⟩) ∨
      (s.entries.length < s.limits.statements ∧ s.labelCount + 1 ≤ s.limits.labels ∧
        s.label name = .done (s.extend [] [.label name .nowhere])) := by
  by_cases hfull : s.limits.statements ≤ s.entries.length
  · exact .inl ⟨hfull, if_pos hfull⟩
  · right
    rw [label, if_neg hfull]
    simp only [countLabel]
    split
    · rename_i hlt
      exact .inl ⟨Nat.lt_of_not_le hfull, hlt, rfl⟩
    · rename_i hlt
      exact .inr ⟨Nat.lt_of_not_le hfull, Nat.le_of_not_lt hlt, rfl⟩

end Session
end IntelAsm
