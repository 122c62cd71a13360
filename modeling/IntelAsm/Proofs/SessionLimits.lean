/-
The limits of a session, over all that is done with it. Statements, labels and
output stay within theirs after any calls, failed ones among them, and what
fits is taken (`Session.stays_within_limits`). Errors do not stay: the one that
is one too many is collected before the call fails, and encoding compares their
number only when it adds to it. A session therefore holds more errors than its
limit exactly if a text was refused for them since the last reset, one more for
each such text, and encoding hands them all out (`Session.errors_held`).
-/
import IntelAsm.Proofs.EncodeFacts
import IntelAsm.Proofs.FailedCalls

namespace IntelAsm

/-! ## Encoding -/

namespace Progress

variable {symbols : String → Option Interval} {limits : Limits}

/-- What a step counts is what it gives, and what it adds to a count is within the limit. -/
theorem step_counts {p : Progress} {statement : Statement} {s : Step}
    (h : p.step symbols limits statement = .ok s) :
    s.next.outputBytes = p.outputBytes + Item.sizes (s.record.toList.map Record.item) ∧
      (p.outputBytes ≤ limits.outputBytes → s.next.outputBytes ≤ limits.outputBytes) ∧
      s.next.errors = p.errors + s.error.toList.length ∧
      (s.error = none ∨ s.next.errors ≤ limits.errors) := by
  rcases step_cases h with ⟨name, span, -, rfl⟩ | ⟨m, span, -, rfl⟩ | ⟨i, e, -, -, hsize, rfl⟩ |
    ⟨i, d, -, -, -, hcount, rfl⟩
  · exact ⟨rfl, fun hp => hp, rfl, .inl rfl⟩
  · exact ⟨rfl, fun hp => hp, rfl, .inl rfl⟩
  · exact ⟨rfl, fun _ => hsize, rfl, .inl rfl⟩
  · exact ⟨rfl, fun hp => hp, rfl, .inr hcount⟩

/-- The records of a run and all that was there before it are within the output limit. -/
theorem run_sizes {p : Progress} {statements : List Statement} {records : List Record}
    {errors : List Diagnostic} (h : p.run symbols limits statements = .ok (records, errors))
    (hp : p.outputBytes ≤ limits.outputBytes) :
    p.outputBytes + Item.sizes (records.map Record.item) ≤ limits.outputBytes := by
  induction statements generalizing p records errors with
  | nil =>
    cases h
    exact hp
  | cons statement rest ih =>
    simp only [run, bind_eq_ok, pure_eq_ok, Prod.mk.injEq] at h
    obtain ⟨s, hs, ⟨records', errors'⟩, hrest, rfl, -⟩ := h
    obtain ⟨hbytes, hlimit, -, -⟩ := step_counts hs
    have htail := ih hrest (hlimit hp)
    simp only [List.map_append, Item.sizes_append]
    omega

/-- A run that adds errors ends within the error limit; one that adds none may have started beyond
it. -/
theorem run_errors {p : Progress} {statements : List Statement} {records : List Record}
    {errors : List Diagnostic} (h : p.run symbols limits statements = .ok (records, errors)) :
    errors = [] ∨ p.errors + errors.length ≤ limits.errors := by
  induction statements generalizing p records errors with
  | nil =>
    cases h
    exact .inl rfl
  | cons statement rest ih =>
    simp only [run, bind_eq_ok, pure_eq_ok, Prod.mk.injEq] at h
    obtain ⟨s, hs, ⟨records', errors'⟩, hrest, -, rfl⟩ := h
    obtain ⟨-, -, hcount, hlimit⟩ := step_counts hs
    rcases ih hrest with rfl | htail
    · rcases hlimit with hnone | hlimit
      · left
        rw [hnone]
        rfl
      · right
        simp only [List.append_nil]
        omega
    · right
      simp only [List.length_append]
      omega

end Progress

namespace Session

/-- What encoding gives is within the limits, but for errors that the session held before. -/
theorem encode_limited {s : Session} {e : Encoded} (h : s.encode = .ok e) :
    Item.sizes (e.records.map Record.item) ≤ s.limits.outputBytes ∧
      ∃ new, e.errors = s.errors ++ new ∧
        (new = [] ∨ s.errors.length + new.length ≤ s.limits.errors) := by
  simp only [encode, bind_eq_ok, pure_eq_ok] at h
  obtain ⟨⟨records, errors⟩, hrun, rfl⟩ := h
  have hsizes := Progress.run_sizes hrun (Nat.zero_le _)
  refine ⟨?_, errors, rfl, Progress.run_errors hrun⟩
  simpa only [progress, Nat.zero_add] using hsizes

/-! ## Calls under fixed limits -/

/-- A call of a session whose limits are set. -/
inductive Use where
  | emit (source : String)
  | label (name : String)
  | reset
  | encode

/-- What a call leaves. Encoding leaves the session as it is. -/
def Use.on (s : Session) : Use → Outcome
  | .emit source => s.emit source
  | .label name => s.label name
  | .reset => .done s.reset
  | .encode => ⟨s, failure? s.encode⟩

/-- Whether a call ended at the limit of a resource. -/
def Outcome.refuses (o : Outcome) (resource : String) : Bool :=
  (o.failure.bind Diagnostic.limit?).any fun limit => limit.1 = resource

/-- A session in use, and how many texts were refused for their errors since it was last reset. -/
structure Usage where
  session : Session
  overruns : Nat

namespace Usage

/-- Goes on with the session a call leaves, also one that failed. -/
def next (u : Usage) (call : Use) : Usage where
  session := (call.on u.session).session
  overruns := match call with
    | .emit source => u.overruns + ((u.session.emit source).refuses "errors").toNat
    | .label _ | .encode => u.overruns
    | .reset => 0

def run (s : Session) (calls : List Use) : Usage := calls.foldl next ⟨s, 0⟩

/-- What every call keeps holds of the session at the end. -/
theorem run_keeps {P : Usage → Prop} (hcall : ∀ u call, P u → P (u.next call)) {s : Session}
    (hs : P ⟨s, 0⟩) (calls : List Use) : P (run s calls) :=
  List.foldlRecOn calls next hs fun u hu call _ => hcall u call hu

end Usage

theorem limits_emit (s : Session) (source : String) : (s.emit source).session.limits = s.limits := by
  rcases s.emit_done_or_fails source with hdone | ⟨t, d, hfail, hfails⟩
  · rw [hdone]
    rfl
  · rw [hfail]
    cases hfails <;> rfl

/-- A label leaves the limits and the errors alone. -/
theorem label_keeps (s : Session) (name : String) :
    (s.label name).session.limits = s.limits ∧ (s.label name).session.errors = s.errors := by
  rcases s.label_cases name with ⟨-, h⟩ | ⟨-, -, h⟩ | ⟨-, -, h⟩
  · rw [h]
    exact ⟨rfl, rfl⟩
  · rw [h]
    exact ⟨rfl, rfl⟩
  · rw [h]
    exact ⟨rfl, rfl⟩

theorem Use.limits_on (s : Session) (call : Use) : (call.on s).session.limits = s.limits := by
  cases call with
  | emit source => exact limits_emit s source
  | label name => exact (label_keeps s name).1
  | reset => rfl
  | encode => rfl

theorem Usage.limits_run (s : Session) (calls : List Use) :
    (Usage.run s calls).session.limits = s.limits :=
  run_keeps (P := fun u => u.session.limits = s.limits)
    (fun u call hu => (call.limits_on u.session).trans hu) rfl calls

/-! ## Statements and labels -/

/-- What a session has taken is within its limits. Labels are also no more than were counted, which
is what a new label is measured by. -/
structure Roomy (s : Session) : Prop where
  statements : s.entries.length ≤ s.limits.statements
  labels : Statement.labelTotal s.statements ≤ s.limits.labels
  counted : Statement.labelTotal s.statements ≤ s.labelCount

namespace Roomy

/-- One more statement, if there is room for it and, should it be a label, for that. -/
theorem extend_one {s : Session} (hs : s.Roomy) {source : List Char} {st : Statement}
    (hroom : s.entries.length + 1 ≤ s.limits.statements)
    (hlabel : st.isLabel = true → s.labelCount + 1 ≤ s.limits.labels) :
    (s.extend source [st]).Roomy := by
  have hcounted := hs.counted
  have hlabels := hs.labels
  have htotal : Statement.labelTotal (s.extend source [st]).statements =
      Statement.labelTotal s.statements + Statement.labelTotal [st] := by
    rw [statements_extend, Statement.labelTotal_append]
  have hcount : (s.extend source [st]).labelCount =
      s.labelCount + Statement.labelTotal [st] := rfl
  have hone : Statement.labelTotal [st] = if st.isLabel = true then 1 else 0 := by
    simp [Statement.labelTotal, List.countP_cons]
  refine ⟨?_, ?_, ?_⟩
  · simpa [extend] using hroom
  · show Statement.labelTotal (s.extend source [st]).statements ≤ s.limits.labels
    rw [htotal, hone]
    split
    · rename_i hst
      have := hlabel hst
      omega
    · omega
  · rw [htotal, hcount]
    omega

/-- Statements for which there is room, up to the first label for which there is none. -/
theorem addStatements {s : Session} (hs : s.Roomy) (source : List Char) {sts : List Statement}
    (hroom : s.entries.length + sts.length ≤ s.limits.statements) :
    (s.addStatements source sts).session.Roomy := by
  induction sts generalizing s with
  | nil => exact hs
  | cons st rest ih =>
    rw [List.length_cons] at hroom
    rw [addStatements_cons]
    by_cases hrefused : st.isLabel = true ∧ s.limits.labels < s.labelCount + 1
    · rw [if_pos hrefused]
      exact ⟨hs.statements, hs.labels, Nat.le_succ_of_le hs.counted⟩
    · rw [if_neg hrefused]
      apply ih (hs.extend_one (by omega) fun hst => ?_)
      · show (s.extend source [st]).entries.length + rest.length ≤ s.limits.statements
        simp only [extend, List.length_append, List.length_map, List.length_singleton]
        omega
      · exact Nat.le_of_not_lt fun hlt => hrefused ⟨hst, hlt⟩

/-- Other errors make no difference. -/
theorem setErrors {s : Session} (hs : s.Roomy) (errors : List Diagnostic) :
    { s with errors }.Roomy := ⟨hs.statements, hs.labels, hs.counted⟩

theorem emit {s : Session} (hs : s.Roomy) (source : String) : (s.emit source).session.Roomy := by
  have hfatal := Statement.read_nonfatal source
  rcases s.emit_cases source with ⟨-, hemit⟩ | ⟨-, d, hread, hemit⟩ | ⟨-, hemit⟩
  · rw [hemit]
    exact hs
  · rw [hread] at hfatal
    rw [hemit]
    rcases s.recordErrors_cases hfatal with ⟨h, -⟩ | ⟨new, -, -, h⟩ <;> rw [h] <;>
      exact hs.setErrors _
  · rw [hemit]
    rcases s.recordErrors_cases hfatal with ⟨h, -⟩ | ⟨new, -, -, h⟩
    · rw [h, Outcome.andThen_done]
      split
      · exact hs.setErrors _
      · rename_i hroom
        exact (hs.setErrors _).addStatements source.toList (Nat.le_of_not_lt hroom)
    · rw [h, Outcome.andThen_failed]
      exact hs.setErrors _

theorem label {s : Session} (hs : s.Roomy) (name : String) : (s.label name).session.Roomy := by
  rcases s.label_cases name with ⟨-, h⟩ | ⟨-, -, h⟩ | ⟨hroom, hlabel, h⟩
  · rw [h]
    exact hs
  · rw [h]
    exact ⟨hs.statements, hs.labels, Nat.le_succ_of_le hs.counted⟩
  · rw [h]
    exact hs.extend_one hroom fun _ => hlabel

theorem reset (s : Session) : s.reset.Roomy := ⟨Nat.zero_le _, Nat.zero_le _, Nat.zero_le _⟩

/-- What one call keeps. -/
theorem next {u : Usage} (hu : u.session.Roomy) (call : Use) : (u.next call).session.Roomy := by
  cases call with
  | emit source => exact hu.emit source
  | label name => exact hu.label name
  | reset => exact reset u.session
  | encode => exact hu

end Roomy

/-- A text without errors that fits is taken as a whole. -/
theorem emit_of_fits {s : Session} {source : String}
    (hbytes : source.utf8ByteSize ≤ s.limits.sourceBytes) (hnone : (Statement.read source).2 = [])
    (hroom : s.entries.length + (Statement.read source).1.length ≤ s.limits.statements)
    (hlabels : s.labelCount + Statement.labelTotal (Statement.read source).1 ≤ s.limits.labels) :
    s.emit source = .done (s.extend source.toList (Statement.read source).1) := by
  rcases s.emit_done_or_fails source with hdone | ⟨t, d, -, hfails⟩
  · rw [hdone, hnone, List.append_nil]
  · exfalso
    cases hfails with
    | sourceBytes hlong => omega
    | errors hfirst hmany =>
      rw [hnone] at hfirst
      rw [List.prefix_nil.1 hfirst, List.length_nil] at hmany
      omega
    | statements hmany => omega
    | labels hread hmany =>
      rw [hread, Statement.labelTotal_append, Statement.labelTotal_label] at hlabels
      omega

/-- A session under limits: all it has and gives is within them, and what fits is taken. -/
structure Limited (s : Session) (limits : Limits) : Prop where
  statements : s.statementCount ≤ limits.statements
  labels : Statement.labelTotal s.statements ≤ limits.labels
  records {e} : s.encode = .ok e → Item.sizes (e.records.map Record.item) ≤ limits.outputBytes
  output {a} : s.finish = .ok a → a.bytes.length ≤ limits.outputBytes
  /-- Labels are measured by their count, in which refused ones stay. -/
  takes {source} : source.utf8ByteSize ≤ limits.sourceBytes → (Statement.read source).2 = [] →
    s.statementCount + (Statement.read source).1.length ≤ limits.statements →
    s.labelCount + Statement.labelTotal (Statement.read source).1 ≤ limits.labels →
    s.emit source = .done (s.extend source.toList (Statement.read source).1)

/-- **Statements, labels and output** stay within limits that are set before the first statement,
whatever is done with the session. -/
theorem stays_within_limits {s : Session} (hs : s.entries = []) (calls : List Use) :
    (Usage.run s calls).session.Limited s.limits := by
  have hstart : s.Roomy := by
    have hnone : Statement.labelTotal s.statements = 0 := by
      rw [statements, hs]
      rfl
    refine ⟨?_, by omega, by omega⟩
    rw [hs]
    exact Nat.zero_le _
  have hroomy : (Usage.run s calls).session.Roomy :=
    Usage.run_keeps (P := fun u => u.session.Roomy) (fun _ call hu => hu.next call) hstart calls
  rw [← Usage.limits_run s calls]
  refine ⟨hroomy.statements, hroomy.labels, fun he => (encode_limited he).1, fun ha => ?_,
    emit_of_fits⟩
  obtain ⟨_, _, -, -, hlen, rfl⟩ := finish_eq_ok ha
  exact hlen

/-- A session with room for two statements, one label and one byte, all of it taken: the next label
and the next text fail and change nothing of that. -/
theorem stays_within_limits_full :
    ∃ s t : Session, s = (new .bits64).setLimits ⟨2, 1, 1, 0, 6⟩ ∧ s.entries = [] ∧
      t = (Usage.run s [.emit "a: nop", .label "b", .emit "nop", .encode]).session ∧
      t.Limited ⟨2, 1, 1, 0, 6⟩ ∧ t.statementCount = 2 ∧
      Statement.labelTotal t.statements = 1 ∧
      (t.finish.toOption.map fun a => a.bytes) = some [0x90] :=
  ⟨_, _, rfl, rfl, rfl, stays_within_limits rfl _, by decide +kernel, by decide +kernel,
    by decide +kernel⟩

/-! ## Errors -/

@[simp] theorem Outcome.refuses_done (s : Session) (resource : String) :
    (done s).refuses resource = false := rfl

@[simp] theorem Outcome.refuses_limit (s : Session) (resource other : String) (limit : Nat) :
    (⟨s, some (.limitExceeded other limit)⟩ : Outcome).refuses resource =
      decide (other = resource) := rfl

/-- Adding statements leaves the errors alone and is not refused for them. -/
theorem addStatements_errors (source : List Char) (s : Session) (sts : List Statement) :
    (s.addStatements source sts).session.errors = s.errors ∧
      (s.addStatements source sts).refuses "errors" = false := by
  rcases addStatements_cases source s sts with ⟨h, -⟩ | ⟨_, _, _, _, -, -, h⟩
  · rw [h]
    exact ⟨rfl, rfl⟩
  · rw [h]
    exact ⟨rfl, by simp⟩

/-- **What a text does to the errors.** A text that is not refused for its errors leaves them alone
or within the limit; one that is refused leaves one more than are allowed and than there were. -/
theorem emit_errors (s : Session) (source : String) :
    ((s.emit source).refuses "errors" = false ∧ ∃ new,
        (s.emit source).session.errors = s.errors ++ new ∧
        (new = [] ∨ s.errors.length + new.length ≤ s.limits.errors)) ∨
      ((s.emit source).refuses "errors" = true ∧
        (s.emit source).session.errors.length = max s.limits.errors s.errors.length + 1) := by
  have hfatal := Statement.read_nonfatal source
  rcases s.emit_cases source with ⟨-, hemit⟩ | ⟨-, d, hd, hemit⟩ | ⟨-, hemit⟩
  · left
    rw [hemit]
    exact ⟨by simp, [], by simp⟩
  · -- A text that cannot be scanned has one error and no statements.
    rw [hd] at hfatal
    rw [hemit]
    rcases s.recordErrors_cases hfatal with ⟨h, hroom⟩ | ⟨new, -, hlen, h⟩
    · left
      rw [h]
      exact ⟨rfl, [d], rfl, hroom⟩
    · right
      rw [h]
      exact ⟨by simp, by simpa [Nat.add_comm] using hlen⟩
  · rcases s.recordErrors_cases hfatal with ⟨h, hroom⟩ | ⟨new, -, hlen, h⟩
    · left
      rw [h, Outcome.andThen_done] at hemit
      rw [hemit]
      split
      · exact ⟨by simp, _, rfl, hroom⟩
      · obtain ⟨herrors, hrefuses⟩ := addStatements_errors source.toList
          { s with errors := s.errors ++ (Statement.read source).2 } (Statement.read source).1
        exact ⟨hrefuses, _, herrors, hroom⟩
    · right
      rw [hemit, h, Outcome.andThen_failed]
      exact ⟨by simp, by simpa [Nat.add_comm] using hlen⟩

namespace Usage

/-- The errors held are within the limit as long as no text was refused for them, and then one
beyond it for each text refused. -/
def Tallied (u : Usage) : Prop :=
  (u.overruns = 0 ∧ u.session.errors.length ≤ u.session.limits.errors) ∨
    (0 < u.overruns ∧ u.session.errors.length = u.session.limits.errors + u.overruns)

theorem tallied_emit {u : Usage} (hu : u.Tallied) (source : String) :
    (u.next (.emit source)).Tallied := by
  have hlimits : (u.next (.emit source)).session.limits = u.session.limits :=
    limits_emit u.session source
  have hoverruns : (u.next (.emit source)).overruns =
      u.overruns + ((u.session.emit source).refuses "errors").toNat := rfl
  rw [Tallied, hlimits, hoverruns]
  show _ ∧ (u.session.emit source).session.errors.length ≤ _ ∨
    _ ∧ (u.session.emit source).session.errors.length = _
  rcases u.session.emit_errors source with ⟨hrefuses, new, herrors, hroom⟩ | ⟨hrefuses, hlen⟩
  · rw [hrefuses, herrors, List.length_append]
    rcases hroom with rfl | hroom
    · exact hu
    · -- Room for new errors means that no text was refused before.
      rcases hu with ⟨hnone, -⟩ | ⟨hsome, hheld⟩
      · exact .inl ⟨hnone, hroom⟩
      · omega
  · rw [hrefuses, hlen, Bool.toNat_true]
    rcases hu with ⟨hnone, hheld⟩ | ⟨hsome, hheld⟩
    · right
      omega
    · right
      omega

/-- What one call keeps. -/
theorem tallied_next {u : Usage} (hu : u.Tallied) (call : Use) : (u.next call).Tallied := by
  cases call with
  | emit source => exact tallied_emit hu source
  | label name =>
    obtain ⟨hlimits, herrors⟩ := u.session.label_keeps name
    show _ ∧ (u.session.label name).session.errors.length ≤
        (u.session.label name).session.limits.errors ∨
      _ ∧ (u.session.label name).session.errors.length =
        (u.session.label name).session.limits.errors + u.overruns
    rw [hlimits, herrors]
    exact hu
  | reset => exact .inl ⟨rfl, Nat.zero_le _⟩
  | encode => exact hu

/-- The errors of a session in use, those it holds and those encoding gives, against their limit. -/
structure Overrun (u : Usage) (limit : Nat) : Prop where
  held : u.session.errors.length ≤ limit ↔ u.overruns = 0
  encoded {e} : u.session.encode = .ok e → (e.errors.length ≤ limit ↔ u.overruns = 0)
  /-- Every refused text leaves one error beyond the limit, and encoding gives them all. -/
  beyond : 0 < u.overruns → u.session.errors.length = limit + u.overruns ∧
    ∀ e, u.session.encode = .ok e → e.errors = u.session.errors

end Usage

/-- **Errors** stay within a limit that is set before the first text exactly as long as no text was
refused for them since the last reset. -/
theorem errors_held {s : Session} (hs : s.errors = []) (calls : List Use) :
    (Usage.run s calls).Overrun s.limits.errors := by
  have htallied : (Usage.run s calls).Tallied :=
    Usage.run_keeps (P := Usage.Tallied) (fun _ call hu => Usage.tallied_next hu call)
      (.inl ⟨rfl, by simp [hs]⟩) calls
  rw [Usage.Tallied, Usage.limits_run s calls] at htallied
  have hencode : ∀ e, (Usage.run s calls).session.encode = .ok e →
      ∃ new, e.errors = (Usage.run s calls).session.errors ++ new ∧
        (new = [] ∨ (Usage.run s calls).session.errors.length + new.length ≤ s.limits.errors) := by
    intro e he
    rw [← Usage.limits_run s calls]
    exact (encode_limited he).2
  refine ⟨?held, ?encoded, ?beyond⟩
  case held => omega
  case encoded =>
    intro e he
    obtain ⟨new, hnew, hroom⟩ := hencode e he
    rw [hnew, List.length_append]
    rcases hroom with rfl | hroom
    · rw [List.length_nil]
      omega
    · omega
  case beyond =>
    intro hsome
    refine ⟨by omega, fun e he => ?_⟩
    obtain ⟨new, hnew, rfl | hroom⟩ := hencode e he
    · rw [hnew, List.append_nil]
    · omega

/-- Two texts refused under a limit of one error leave three, and a reset leaves none. -/
theorem errors_held_twice :
    ∃ (s : Session) (twice again : Usage),
      s = (new .bits64).setLimits { Limits.default with errors := 1 } ∧ s.errors = [] ∧
      twice = Usage.run s [.emit "mov ]\nmov ]\nnop", .encode, .emit "nop", .emit "'"] ∧
      again = Usage.run s [.emit "mov ]\nmov ]", .reset, .emit "mov ]", .encode] ∧
      twice.Overrun 1 ∧ twice.overruns = 2 ∧ twice.session.errors.length = 3 ∧
      again.Overrun 1 ∧ again.overruns = 0 ∧ again.session.errors.length = 1 :=
  ⟨_, _, _, rfl, rfl, rfl, rfl, errors_held rfl _, by decide +kernel, by decide +kernel,
    errors_held rfl _, by decide +kernel, by decide +kernel⟩

/-- An error beyond the limit: where none is allowed, the text fails, and yet the session holds its
error and encoding gives it without failing. -/
theorem errors_beyond_limit :
    ∃ (s : Session) (u : Usage) (e : Encoded),
      s = (new .bits64).setLimits { Limits.default with errors := 0 } ∧ s.errors = [] ∧
      u = Usage.run s [.emit "mov ]"] ∧ (s.emit "mov ]").refuses "errors" = true ∧
      u.session.encode = .ok e ∧ s.limits.errors = 0 ∧ u.session.errors.length = 1 ∧
      e.errors.length = 1 := by
  have hencode : ((Usage.run ((new .bits64).setLimits { Limits.default with errors := 0 })
      [.emit "mov ]"]).session.encode.toOption.map fun e => e.errors.length) = some 1 := by
    decide +kernel
  obtain ⟨e, he, hlen⟩ := Option.map_eq_some_iff.1 hencode
  exact ⟨_, _, e, rfl, rfl, rfl, by decide +kernel, toOption_eq_some.1 he, rfl, by decide +kernel,
    hlen⟩

end Session
end IntelAsm
