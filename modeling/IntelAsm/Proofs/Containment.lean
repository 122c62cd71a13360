/-
Each statement is encoded by itself. What it becomes depends on the mode in
force and on the bounds of the symbols, and neither depends on what another
instruction is or whether it has an encoding. So the records and the errors of
a run are those of its statements one after the other
(`Progress.run_eq_ok`), and to replace one instruction changes its own record
and its own error and nothing else (`Session.encode_contained`).
-/
import IntelAsm.Proofs.EncodeFacts

namespace IntelAsm

/-! ## Statements by themselves -/

namespace Statement

/-- The mode behind a statement. -/
def modeAfter (mode : Mode) : Statement → Mode
  | .mode m _ => m
  | .label .. | .instruction _ => mode

section Symbols

variable (symbols : String → Option Interval)

/-- The item that a statement becomes in a mode, if it becomes one. -/
def item? (mode : Mode) : Statement → Option Item
  | .label name span => some (.label name span)
  | .mode .. => none
  | .instruction i => (i.encode symbols mode).toOption.map .instruction

/-- What is wrong with a statement in a mode, if anything is. -/
def error? (mode : Mode) : Statement → Option Diagnostic
  | .instruction i => failure? (i.encode symbols mode)
  | .label .. | .mode .. => none

/-- The record of a statement under its number. -/
def record? (mode : Mode) (n : Nat) (statement : Statement) : Option Record :=
  (statement.item? symbols mode).map (Record.mk n)

/-- The records of statements, from the mode and the number of the first on. -/
def records (mode : Mode) (n : Nat) : List Statement → List Record
  | [] => []
  | s :: rest => (s.record? symbols mode n).toList ++ records (s.modeAfter mode) (n + 1) rest

/-- The errors of statements. -/
def errors (mode : Mode) : List Statement → List Diagnostic
  | [] => []
  | s :: rest => (s.error? symbols mode).toList ++ errors (s.modeAfter mode) rest

end Symbols

section Records

variable {symbols : String → Option Interval} {mode : Mode} {n : Nat}

theorem record?_statement {s : Statement} {r : Record} (h : s.record? symbols mode n = some r) :
    r.statement = n := by
  obtain ⟨item, -, rfl⟩ := Option.map_eq_some_iff.1 h
  rfl

theorem records_append (before after : List Statement) :
    records symbols mode n (before ++ after) =
      records symbols mode n before ++
        records symbols (before.foldl modeAfter mode) (n + before.length) after := by
  induction before generalizing mode n with
  | nil => rfl
  | cons s before ih =>
    rw [List.cons_append, records, records, ih, List.append_assoc, List.foldl_cons,
      List.length_cons, Nat.add_assoc, Nat.add_comm 1]

theorem errors_append (before after : List Statement) :
    errors symbols mode (before ++ after) =
      errors symbols mode before ++ errors symbols (before.foldl modeAfter mode) after := by
  induction before generalizing mode with
  | nil => rfl
  | cons s before ih =>
    rw [List.cons_append, errors, errors, ih, List.append_assoc, List.foldl_cons]

theorem records_bounds {statements : List Statement} {r : Record}
    (h : r ∈ records symbols mode n statements) :
    n ≤ r.statement ∧ r.statement < n + statements.length := by
  induction statements generalizing mode n with
  | nil => simp [records] at h
  | cons s rest ih =>
    rw [records, List.mem_append, Option.mem_toList] at h
    rw [List.length_cons]
    rcases h with h | h
    · have hn := record?_statement h
      omega
    · have hrest := ih h
      omega

/-- Records follow the order of their statements, with one record to a statement at most. -/
theorem records_ordered (statements : List Statement) :
    ((records symbols mode n statements).map Record.statement).Pairwise (· < ·) := by
  induction statements generalizing mode n with
  | nil => exact .nil
  | cons s rest ih =>
    rw [records, List.map_append, List.pairwise_append]
    refine ⟨?_, ih, ?_⟩
    · cases s.record? symbols mode n with
      | none => exact .nil
      | some r => exact List.pairwise_singleton _ _
    · intro a ha b hb
      obtain ⟨r, hr, rfl⟩ := List.mem_map.1 ha
      obtain ⟨r', hr', rfl⟩ := List.mem_map.1 hb
      have hn := record?_statement (Option.mem_toList.1 hr)
      have hn' := (records_bounds hr').1
      omega

section One

variable (symbols mode n) (before after : List Statement) (s : Statement)

/-- **The records of one statement** among those of all. -/
theorem records_filter :
    (records symbols mode n (before ++ s :: after)).filter (·.statement = n + before.length) =
      (s.record? symbols (before.foldl modeAfter mode) (n + before.length)).toList := by
  rw [records_append, records, List.filter_append, List.filter_append]
  have hbefore : (records symbols mode n before).filter (·.statement = n + before.length) = [] := by
    rw [List.filter_eq_nil_iff]
    intro r hr
    have hlt := (records_bounds hr).2
    simp only [decide_eq_true_eq]
    omega
  have hafter : (records symbols (s.modeAfter (before.foldl modeAfter mode)) (n + before.length + 1)
      after).filter (·.statement = n + before.length) = [] := by
    rw [List.filter_eq_nil_iff]
    intro r hr
    have hle := (records_bounds hr).1
    simp only [decide_eq_true_eq]
    omega
  rw [hbefore, hafter, List.nil_append, List.append_nil, List.filter_eq_self]
  intro r hr
  simpa using record?_statement (Option.mem_toList.1 hr)

/-- The records of all other statements. -/
theorem records_filter_ne :
    (records symbols mode n (before ++ s :: after)).filter (·.statement ≠ n + before.length) =
      records symbols mode n before ++ records symbols (s.modeAfter (before.foldl modeAfter mode))
        (n + before.length + 1) after := by
  rw [records_append, records, List.filter_append, List.filter_append]
  have hself : (s.record? symbols (before.foldl modeAfter mode) (n + before.length)).toList.filter
      (·.statement ≠ n + before.length) = [] := by
    rw [List.filter_eq_nil_iff]
    intro r hr
    simpa using record?_statement (Option.mem_toList.1 hr)
  rw [hself, List.nil_append, List.filter_eq_self.2, List.filter_eq_self.2]
  · intro r hr
    have hle := (records_bounds hr).1
    simp only [ne_eq, decide_not, Bool.not_eq_eq_eq_not, Bool.not_true, decide_eq_false_iff_not]
    omega
  · intro r hr
    have hlt := (records_bounds hr).2
    simp only [ne_eq, decide_not, Bool.not_eq_eq_eq_not, Bool.not_true, decide_eq_false_iff_not]
    omega

end One
end Records
end Statement

/-! ## Runs -/

namespace Progress

variable {symbols : String → Option Interval} {limits : Limits}

/-- A step gives what its statement gives by itself. -/
theorem step_eq_ok {p : Progress} {statement : Statement} {s : Step}
    (h : p.step symbols limits statement = .ok s) :
    s.next.statement = p.statement + 1 ∧ s.next.mode = statement.modeAfter p.mode ∧
      s.record = statement.record? symbols p.mode p.statement ∧
      s.error = statement.error? symbols p.mode := by
  rcases step_cases h with ⟨name, span, rfl, rfl⟩ | ⟨m, span, rfl, rfl⟩ | ⟨i, e, rfl, he, -, rfl⟩ |
    ⟨i, d, rfl, hd, -, -, rfl⟩
  · exact ⟨rfl, rfl, rfl, rfl⟩
  · exact ⟨rfl, rfl, rfl, rfl⟩
  · simp [Statement.modeAfter, Statement.record?, Statement.item?, Statement.error?, he, failure?,
      Except.toOption]
  · simp [Statement.modeAfter, Statement.record?, Statement.item?, Statement.error?, hd, failure?,
      Except.toOption]

/-- **A run gives what its statements give one by one.** The limits decide only whether it gives
anything. -/
theorem run_eq_ok {p : Progress} {statements : List Statement} {records : List Record}
    {errors : List Diagnostic} (h : p.run symbols limits statements = .ok (records, errors)) :
    records = Statement.records symbols p.mode p.statement statements ∧
      errors = Statement.errors symbols p.mode statements := by
  induction statements generalizing p records errors with
  | nil =>
    cases h
    exact ⟨rfl, rfl⟩
  | cons statement rest ih =>
    simp only [run, bind_eq_ok, pure_eq_ok, Prod.mk.injEq] at h
    obtain ⟨s, hs, ⟨records', errors'⟩, hrest, rfl, rfl⟩ := h
    obtain ⟨hnumber, hmode, hrecord, herror⟩ := step_eq_ok hs
    obtain ⟨rfl, rfl⟩ := ih hrest
    simp only [Statement.records, Statement.errors, hnumber, hmode, hrecord, herror, and_self]

end Progress

/-! ## Sessions -/

namespace Session

theorem encode_eq_ok {s : Session} {e : Encoded} (h : s.encode = .ok e) :
    e.symbols = s.symbols ∧
      e.records = Statement.records s.symbols.get? s.mode 0 s.statements ∧
      e.errors = s.errors ++ Statement.errors s.symbols.get? s.mode s.statements := by
  simp only [encode, bind_eq_ok, pure_eq_ok] at h
  obtain ⟨⟨records, errors⟩, hrun, rfl⟩ := h
  obtain ⟨rfl, rfl⟩ := Progress.run_eq_ok hrun
  exact ⟨rfl, rfl, rfl⟩

/-- The mode in force at a statement. -/
def modeAt (s : Session) (n : Nat) : Mode := (s.statements.take n).foldl Statement.modeAfter s.mode

/-- Records of a session: in the order of the statements, one for each label and for each
instruction that has an encoding, and none for anything else. -/
structure RecordedAs (s : Session) (records : List Record) : Prop where
  ordered : (records.map Record.statement).Pairwise (· < ·)
  within : ∀ r ∈ records, r.statement < s.statements.length
  label : ∀ n name span, s.statements[n]? = some (.label name span) →
    records.filter (·.statement = n) = [⟨n, .label name span⟩]
  switch : ∀ n m span, s.statements[n]? = some (.mode m span) →
    records.filter (·.statement = n) = []
  built : ∀ n i x, s.statements[n]? = some (.instruction i) →
    i.encode s.symbols.get? (s.modeAt n) = .ok x →
    records.filter (·.statement = n) = [⟨n, .instruction x⟩]
  failed : ∀ n i d, s.statements[n]? = some (.instruction i) →
    i.encode s.symbols.get? (s.modeAt n) = .error d → records.filter (·.statement = n) = []

/-- The statements around one of them. -/
theorem split_at {statements : List Statement} {n : Nat} {st : Statement}
    (h : statements[n]? = some st) :
    n < statements.length ∧ (statements.take n).length = n ∧
      statements = statements.take n ++ st :: statements.drop (n + 1) := by
  obtain ⟨hn, rfl⟩ := List.getElem?_eq_some_iff.1 h
  refine ⟨hn, by rw [List.length_take, Nat.min_eq_left (Nat.le_of_lt hn)], ?_⟩
  rw [← List.drop_eq_getElem_cons hn, List.take_append_drop]

theorem records_at {s : Session} {e : Encoded} (h : s.encode = .ok e) {n : Nat} {st : Statement}
    (hst : s.statements[n]? = some st) : e.records.filter (·.statement = n) =
      (st.record? s.symbols.get? (s.modeAt n) n).toList := by
  obtain ⟨-, hlen, hsplit⟩ := split_at hst
  have hfilter := Statement.records_filter s.symbols.get? s.mode 0 (s.statements.take n)
    (s.statements.drop (n + 1)) st
  rw [← hsplit, hlen, Nat.zero_add] at hfilter
  rw [(encode_eq_ok h).2.1, hfilter, modeAt]

theorem recordedAs_encode {s : Session} {e : Encoded} (h : s.encode = .ok e) :
    s.RecordedAs e.records := by
  obtain ⟨-, hrecords, -⟩ := encode_eq_ok h
  refine ⟨?_, ?_, ?_, ?_, ?_, ?_⟩
  · rw [hrecords]
    exact Statement.records_ordered s.statements
  · intro r hr
    rw [hrecords] at hr
    simpa using (Statement.records_bounds hr).2
  · intro n name span hst
    exact records_at h hst
  · intro n m span hst
    exact records_at h hst
  · intro n i x hst henc
    rw [records_at h hst, Statement.record?, Statement.item?, henc]
    rfl
  · intro n i d hst henc
    rw [records_at h hst, Statement.record?, Statement.item?, henc]
    rfl

/-- The bounds of labels count instructions and do not look at them. -/
theorem addLabelBounds_replace (base n : Nat) (before after : List Statement)
    (x y : ParsedInstruction) (table : Symbols) :
    addLabelBounds base n (before ++ .instruction x :: after) table =
      addLabelBounds base n (before ++ .instruction y :: after) table := by
  induction before generalizing n table with
  | nil => rfl
  | cons s before ih =>
    cases s with
    | label name span => exact ih _ _
    | instruction i => exact ih _ _
    | mode m span => exact ih _ _

/-- What `s` and `t` give, which differ in one instruction: `x` or `y`, with the number `n`. -/
structure Contained (s t : Session) (n : Nat) (x y : ParsedInstruction) (e f : Encoded) : Prop where
  symbols : e.symbols = f.symbols
  /-- The other statements have the same records. -/
  records : e.records.filter (·.statement ≠ n) = f.records.filter (·.statement ≠ n)
  /-- The errors are the same but for those of the instruction. -/
  errors : ∃ before after,
    e.errors = before ++ (failure? (x.encode e.symbols.get? (s.modeAt n))).toList ++ after ∧
    f.errors = before ++ (failure? (y.encode e.symbols.get? (s.modeAt n))).toList ++ after
  recordedFirst : s.RecordedAs e.records
  recordedSecond : t.RecordedAs f.records

/-- **Errors are contained.** Let two sessions of the same setting have statements that differ in
one instruction, and let both be encoded. Then the symbols are the same, the records of all other
statements too, and the errors up to those of the instruction; and in each there is one record for
a label or an instruction that has an encoding and none for any other statement, in the order of
the statements. -/
theorem encode_contained {s : Session} {entries : List Entry} {n : Nat} {x y : ParsedInstruction}
    (hx : s.statements[n]? = some (.instruction x))
    (hy : entries.map Entry.statement = s.statements.set n (.instruction y))
    {e f : Encoded} (he : s.encode = .ok e) (hf : { s with entries }.encode = .ok f) :
    Contained s { s with entries } n x y e f := by
  obtain ⟨hn, hlen, hsplit⟩ := split_at hx
  rw [List.set_eq_take_append_cons_drop, if_pos hn] at hy
  have hmode : s.modeAt n = (s.statements.take n).foldl Statement.modeAfter s.mode := rfl
  generalize s.statements.take n = before at hlen hsplit hy hmode
  generalize s.statements.drop (n + 1) = after at hsplit hy
  subst hlen
  have hsame : { s with entries }.statements = before ++ .instruction y :: after := hy
  have hsymbols : { s with entries }.symbols = s.symbols := by
    rw [symbols, hsame, symbols, hsplit]
    exact addLabelBounds_replace s.base 0 before after y x s.externalBounds
  obtain ⟨hsyms, hrecords, herrors⟩ := encode_eq_ok he
  obtain ⟨hsyms', hrecords', herrors'⟩ := encode_eq_ok hf
  rw [hsymbols] at hsyms' hrecords' herrors'
  rw [hsplit] at hrecords herrors
  rw [hsame] at hrecords' herrors'
  refine ⟨hsyms.trans hsyms'.symm, ?_, ?_, recordedAs_encode he, recordedAs_encode hf⟩
  · have hothers := Statement.records_filter_ne s.symbols.get? s.mode 0 before after
    simp only [Nat.zero_add] at hothers
    rw [hrecords, hothers, hrecords']
    exact (hothers (.instruction y)).symm
  · refine ⟨s.errors ++ Statement.errors s.symbols.get? s.mode before,
      Statement.errors s.symbols.get? (s.modeAt before.length) after, ?_, ?_⟩
    · rw [herrors, Statement.errors_append, Statement.errors, hsyms, hmode, ← List.append_assoc,
        ← List.append_assoc]
      rfl
    · rw [herrors', Statement.errors_append, Statement.errors, hsyms, hmode, ← List.append_assoc,
        ← List.append_assoc]
      rfl

/-- A word that is no mnemonic beside one that is, behind a label and a switch and in front of
another error and a jump back. -/
theorem encode_contained_unknown :
    ∃ s e f,
      Session.load "start: nop\n.code32\nfrob\nmov eax, bx\njmp start" .bits64 0x1000 [] = .ok s ∧
      s.statements[3]? = some (.instruction ⟨"frob", [], [], ⟨3, 1, 19, 4⟩⟩) ∧
      s.encode = .ok e ∧
      { s with entries := s.entries.set 3 ⟨.instruction ⟨"nop", [], [], .nowhere⟩, none⟩ }.encode =
        .ok f ∧
      (e.records.map Record.statement, e.errors.length) = ([0, 1, 5], 2) ∧
      (f.records.map Record.statement, f.errors.length) = ([0, 1, 3, 5], 1) ∧
      Contained s
        { s with entries := s.entries.set 3 ⟨.instruction ⟨"nop", [], [], .nowhere⟩, none⟩ } 3
        ⟨"frob", [], [], ⟨3, 1, 19, 4⟩⟩ ⟨"nop", [], [], .nowhere⟩ e f := by
  have hrun : (do
      let s ← (Session.load "start: nop\n.code32\nfrob\nmov eax, bx\njmp start" .bits64 0x1000
        []).toOption
      let e ← s.encode.toOption
      let f ← { s with
        entries := s.entries.set 3 ⟨.instruction ⟨"nop", [], [], .nowhere⟩, none⟩ }.encode.toOption
      return (s.statements[3]?, (e.records.map Record.statement, e.errors.length),
        (f.records.map Record.statement, f.errors.length))) =
      some (some (.instruction ⟨"frob", [], [], ⟨3, 1, 19, 4⟩⟩), ([0, 1, 5], 2),
        ([0, 1, 3, 5], 1)) := by
    decide +kernel
  simp only [bind, Option.bind_eq_some_iff, Option.pure_def, Option.some.injEq, toOption_eq_some,
    Prod.mk.injEq] at hrun
  obtain ⟨s, hs, e, he, f, hf, hx, hfirst, hsecond⟩ := hrun
  exact ⟨s, e, f, hs, hx, he, hf, Prod.ext hfirst.1 hfirst.2, Prod.ext hsecond.1 hsecond.2,
    encode_contained hx (List.map_set ..) he hf⟩

end Session
end IntelAsm
