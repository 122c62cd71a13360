/-
What a failed call leaves behind. A text that is too long and a statement beyond
the limit leave the session as it was; errors and labels beyond their limits do
not, since each is entered before it is checked (`Session.EmitFails`). A refused
label is counted and never added, so over any history the count of labels is
the number of labels present and of those refused, and refused labels take room
from later ones (`Session.failed_calls`).
-/
import IntelAsm.Proofs.SessionFacts

namespace IntelAsm

namespace Diagnostic

/-- What a diagnostic says there is too much of, and the limit of it. -/
def limit? : Diagnostic → Option (String × Nat)
  | .limitExceeded resource limit => some (resource, limit)
  | _ => none

theorem limit?_eq_some {d : Diagnostic} {resource : String} {limit : Nat} :
    d.limit? = some (resource, limit) ↔ d = .limitExceeded resource limit := by
  cases d <;> simp [limit?]

end Diagnostic

namespace Session

/-! ## One call -/

/-- How adding a source text fails: the session it leaves and the diagnostic. -/
inductive EmitFails (s : Session) (source : String) : Session → Diagnostic → Prop where
  | sourceBytes (hlong : s.limits.sourceBytes < source.utf8ByteSize) :
    EmitFails s source s (.limitExceeded "source bytes" s.limits.sourceBytes)
  /-- Errors stay, the one beyond the limit with them: one more than are allowed and than there
  were. -/
  | errors {new : List Diagnostic} (hfirst : new <+: (Statement.read source).2)
      (hmany : s.errors.length + new.length = max s.limits.errors s.errors.length + 1) :
    EmitFails s source { s with errors := s.errors ++ new }
      (.limitExceeded "errors" s.limits.errors)
  /-- The errors of the text stay without its statements. -/
  | statements (hmany : s.limits.statements < s.entries.length + (Statement.read source).1.length) :
    EmitFails s source { s with errors := s.errors ++ (Statement.read source).2 }
      (.limitExceeded "statements" s.limits.statements)
  /-- The statements in front of the refused label stay, and the label is counted. It is the first
  for which there is no room. -/
  | labels {before after : List Statement} {name : String} {span : Span}
      (hread : (Statement.read source).1 = before ++ .label name span :: after)
      (hmany : s.labelCount + Statement.labelTotal before = max s.limits.labels s.labelCount) :
    EmitFails s source
      { s with
        errors := s.errors ++ (Statement.read source).2
        entries := s.entries ++ before.map (entryOf source.toList s.listing)
        labelCount := s.labelCount + Statement.labelTotal before + 1 }
      (.limitExceeded "labels" s.limits.labels)

/-- **A text is taken as a whole**, or the call fails in one of the four ways. -/
theorem emit_done_or_fails (s : Session) (source : String) :
    s.emit source = .done
        ({ s with errors := s.errors ++ (Statement.read source).2 }.extend source.toList
          (Statement.read source).1) ∨
      ∃ t d, s.emit source = ⟨t, some d⟩ ∧ EmitFails s source t d := by
  have hfatal := Statement.read_nonfatal source
  rcases s.emit_cases source with ⟨hlong, hemit⟩ | ⟨-, d, hread, hemit⟩ | ⟨-, hemit⟩
  · exact .inr ⟨_, _, hemit, .sourceBytes hlong⟩
  · rcases s.recordErrors_cases hfatal with ⟨hdone, -⟩ | ⟨new, hfirst, hmany, hfail⟩
    · left
      rw [hread] at hdone ⊢
      rw [hemit, hdone, extend_nil]
    · rw [hread] at hfail
      exact .inr ⟨_, _, hemit.trans hfail, .errors hfirst hmany⟩
  · rcases s.recordErrors_cases hfatal with ⟨hdone, -⟩ | ⟨new, hfirst, hmany, hfail⟩
    · rw [hemit, hdone, Outcome.andThen_done]
      split
      · rename_i hmany
        exact .inr ⟨_, _, rfl, .statements hmany⟩
      · rcases addStatements_cases source.toList
          { s with errors := s.errors ++ (Statement.read source).2 } (Statement.read source).1 with
          ⟨hadd, -⟩ | ⟨before, name, span, after, hsplit, hmany, hadd⟩
        · exact .inl hadd
        · exact .inr ⟨_, _, hadd, .labels hsplit hmany⟩
    · right
      rw [hemit, hfail, Outcome.andThen_failed]
      exact ⟨_, _, rfl, .errors hfirst hmany⟩

/-- **What stays as it was**: a failed call leaves the session alone exactly if the text was too
long, or had no errors and too many statements. -/
theorem EmitFails.unchanged_iff {s t : Session} {source : String} {d : Diagnostic}
    (h : EmitFails s source t d) :
    t = s ↔ d = .limitExceeded "source bytes" s.limits.sourceBytes ∨
      (d = .limitExceeded "statements" s.limits.statements ∧ (Statement.read source).2 = []) := by
  cases h with
  | sourceBytes _ => simp
  | @errors new _ hmany =>
    refine ⟨fun heq => ?_, fun hor => ?_⟩
    · have hnone : new = [] := by simpa using congrArg Session.errors heq
      rw [hnone, List.length_nil] at hmany
      omega
    · simp at hor
  | statements _ =>
    refine ⟨fun heq => .inr ⟨rfl, ?_⟩, fun hor => ?_⟩
    · simpa using congrArg Session.errors heq
    · obtain hbytes | ⟨-, hnone⟩ := hor
      · simp at hbytes
      · rw [hnone, List.append_nil]
  | labels _ _ =>
    refine ⟨fun heq => ?_, fun hor => ?_⟩
    · have hcount : s.labelCount + _ + 1 = s.labelCount := congrArg Session.labelCount heq
      omega
    · simp at hor

/-! ## Histories -/

/-- A call of a session. -/
inductive Call where
  | emit (source : String)
  | label (name : String)
  | reset
  | setLimits (limits : Limits)
  | setBase (base : Nat)
  | defineExternal (name : String) (address : Nat)
  | enableListing

def Call.on (s : Session) : Call → Outcome
  | .emit source => s.emit source
  | .label name => s.label name
  | .reset => .done s.reset
  | .setLimits limits => .done (s.setLimits limits)
  | .setBase base => .done (s.setBase base)
  | .defineExternal name address => .done (s.defineExternal name address)
  | .enableListing => .done s.enableListing

/-- Whether a call ended at a label beyond the limit. -/
def Outcome.refusesLabel (o : Outcome) : Bool :=
  (o.failure.bind Diagnostic.limit?).any fun limit => limit.1 = "labels"

@[simp] theorem Outcome.refusesLabel_done (s : Session) : (done s).refusesLabel = false := rfl

@[simp] theorem Outcome.refusesLabel_limit (s : Session) (resource : String) (limit : Nat) :
    (⟨s, some (.limitExceeded resource limit)⟩ : Outcome).refusesLabel =
      decide (resource = "labels") := rfl

/-- A session, and the labels refused since it was last reset. -/
structure History where
  session : Session
  refused : Nat

namespace History

def start (mode : Mode) : History := ⟨new mode, 0⟩

/-- Goes on with the session a call leaves, also one that failed. -/
def call (h : History) (c : Call) : History where
  session := (c.on h.session).session
  refused := match c with
    | .reset => 0
    | _ => h.refused + ((c.on h.session).refusesLabel).toNat

def run (mode : Mode) (calls : List Call) : History := calls.foldl call (start mode)

/-- The count of labels counts those present and those refused. -/
def Counted (h : History) : Prop :=
  h.session.labelCount = Statement.labelTotal h.session.statements + h.refused

theorem counted_emit {h : History} (hcounted : h.Counted) (source : String) :
    (h.call (.emit source)).Counted := by
  have hlabels : h.session.labelCount = Statement.labelTotal h.session.statements + h.refused :=
    hcounted
  show (h.session.emit source).session.labelCount =
    Statement.labelTotal (h.session.emit source).session.statements +
      (h.refused + ((h.session.emit source).refusesLabel).toNat)
  rcases h.session.emit_done_or_fails source with hdone | ⟨t, d, hfail, hfails⟩
  · rw [hdone, Outcome.refusesLabel_done]
    simp only [Outcome.done, statements_extend, Statement.labelTotal_append, Bool.toNat_false]
    simp only [extend, statements] at hlabels ⊢
    omega
  · rw [hfail]
    simp only [statements] at hlabels ⊢
    cases hfails with
    | sourceBytes _ => simpa using hlabels
    | errors _ _ => simpa using hlabels
    | statements _ => simpa using hlabels
    | labels _ _ =>
      simp only [Outcome.refusesLabel_limit, List.map_append, map_statement_entryOf,
        Statement.labelTotal_append, decide_true, Bool.toNat_true]
      omega

theorem counted_label {h : History} (hcounted : h.Counted) (name : String) :
    (h.call (.label name)).Counted := by
  have hlabels : h.session.labelCount = Statement.labelTotal h.session.statements + h.refused :=
    hcounted
  show (h.session.label name).session.labelCount =
    Statement.labelTotal (h.session.label name).session.statements +
      (h.refused + ((h.session.label name).refusesLabel).toNat)
  rcases h.session.label_cases name with ⟨-, hfull⟩ | ⟨-, -, hrefused⟩ | ⟨-, -, hdone⟩
  · rw [hfull]
    simpa using hlabels
  · rw [hrefused]
    simp only [Outcome.refusesLabel_limit, statements, decide_true, Bool.toNat_true] at hlabels ⊢
    omega
  · rw [hdone, Outcome.refusesLabel_done]
    simp only [Outcome.done, statements_extend, Statement.labelTotal_append, Bool.toNat_false]
    simp only [extend, Statement.labelTotal_label, Statement.labelTotal_nil]
    omega

/-- What one call keeps. -/
theorem counted_call {h : History} (hcounted : h.Counted) (c : Call) : (h.call c).Counted := by
  cases c with
  | emit source => exact counted_emit hcounted source
  | label name => exact counted_label hcounted name
  | reset => rfl
  | setLimits _ => exact hcounted
  | setBase _ => exact hcounted
  | defineExternal _ _ => exact hcounted
  | enableListing => exact hcounted

/-- What a whole history keeps. -/
theorem counted_run (mode : Mode) (calls : List Call) : (run mode calls).Counted :=
  List.foldlRecOn calls call rfl fun _ hcounted c _ => counted_call hcounted c

/-- What the calls of a session leave. -/
structure Accounted (h : History) : Prop where
  counted : h.Counted
  emitFails {source d} : (h.session.emit source).failure = some d →
    EmitFails h.session source (h.session.emit source).session d
  /-- A failed text leaves the session alone in two of the cases only. -/
  emitUnchanged {source d} : (h.session.emit source).failure = some d →
    ((h.session.emit source).session = h.session ↔
      d = .limitExceeded "source bytes" h.session.limits.sourceBytes ∨
        (d = .limitExceeded "statements" h.session.limits.statements ∧
          (Statement.read source).2 = []))
  emitDone {source} : (h.session.emit source).failure = none →
    (h.session.emit source).session =
      { h.session with errors := h.session.errors ++ (Statement.read source).2 }.extend
        source.toList (Statement.read source).1
  labelFails {name d} : (h.session.label name).failure = some d →
    (d = .limitExceeded "statements" h.session.limits.statements ∧
        (h.session.label name).session = h.session) ∨
      (d = .limitExceeded "labels" h.session.limits.labels ∧
        (h.session.label name).session =
          { h.session with labelCount := h.session.labelCount + 1 })
  /-- A label finds room only beside those present and those refused. -/
  labelDone {name} : (h.session.label name).failure = none ↔
    h.session.entries.length < h.session.limits.statements ∧
      Statement.labelTotal h.session.statements + h.refused < h.session.limits.labels

end History

/-- **Failed calls.** After any history the count of labels is that of the labels present and of
those refused. A text that fails leaves one of four sessions, and a label that fails is counted
unless there is no room for statements; what does not fail is taken as a whole. -/
theorem failed_calls (mode : Mode) (calls : List Call) : (History.run mode calls).Accounted := by
  generalize hrun : History.run mode calls = h
  have hcounted : h.Counted := hrun ▸ History.counted_run mode calls
  have hlabels : h.session.labelCount = Statement.labelTotal h.session.statements + h.refused :=
    hcounted
  have hfails : ∀ {source d}, (h.session.emit source).failure = some d →
      EmitFails h.session source (h.session.emit source).session d := by
    intro source d hd
    rcases h.session.emit_done_or_fails source with hdone | ⟨t, e, hemit, hfails⟩
    · rw [hdone] at hd
      cases hd
    · rw [hemit] at hd ⊢
      cases hd
      exact hfails
  refine ⟨hcounted, hfails, fun hd => (hfails hd).unchanged_iff, ?emitDone, ?labelFails, ?labelDone⟩
  case emitDone =>
    intro source hnone
    rcases h.session.emit_done_or_fails source with hdone | ⟨t, e, hemit, -⟩
    · rw [hdone]
      rfl
    · rw [hemit] at hnone
      cases hnone
  case labelFails =>
    intro name d hd
    rcases h.session.label_cases name with ⟨-, hfull⟩ | ⟨-, -, hrefused⟩ | ⟨-, -, hdone⟩
    · rw [hfull] at hd ⊢
      cases hd
      exact .inl ⟨rfl, rfl⟩
    · rw [hrefused] at hd ⊢
      cases hd
      exact .inr ⟨rfl, rfl⟩
    · rw [hdone] at hd
      cases hd
  case labelDone =>
    intro name
    rcases h.session.label_cases name with ⟨hroom, hlabel⟩ | ⟨hroom, hmany, hlabel⟩ |
      ⟨hroom, hmany, hlabel⟩
    · simp only [hlabel, reduceCtorEq, false_iff]
      omega
    · simp only [hlabel, reduceCtorEq, false_iff]
      omega
    · simp only [hlabel, Outcome.done, true_iff]
      omega

/-- A text that fails at its second label: the first label and the instruction stay, and two labels
are counted. -/
theorem failed_calls_second_label :
    ∃ h, h = History.run .bits64 [.setLimits { Limits.default with labels := 1 }] ∧
      (h.session.emit "a: nop\nb:").failure = some (.limitExceeded "labels" 1) ∧
      EmitFails h.session "a: nop\nb:" (h.session.emit "a: nop\nb:").session
        (.limitExceeded "labels" 1) ∧
      (h.session.emit "a: nop\nb:").session ≠ h.session ∧
      (h.session.emit "a: nop\nb:").session.statements =
        [.label "a" ⟨1, 1, 0, 1⟩, .instruction ⟨"nop", [], [], ⟨1, 4, 3, 3⟩⟩] ∧
      (h.session.emit "a: nop\nb:").session.labelCount = 2 := by
  have hall := failed_calls .bits64 [.setLimits { Limits.default with labels := 1 }]
  have hlimit : (((History.run .bits64
      [.setLimits { Limits.default with labels := 1 }]).session.emit "a: nop\nb:").failure.bind
        Diagnostic.limit?) = some ("labels", 1) := by decide +kernel
  obtain ⟨d, hfailure, hd⟩ := Option.bind_eq_some_iff.1 hlimit
  rw [Diagnostic.limit?_eq_some] at hd
  subst hd
  have hchanged := mt (hall.emitUnchanged hfailure).1 (by simp)
  exact ⟨_, rfl, hfailure, hall.emitFails hfailure, hchanged, by decide +kernel, by decide +kernel⟩

/-- A label that cannot be retried: refused where no label has room, it is refused again where one
has, though there is none. Without the first try it is added. -/
theorem label_refused_again :
    ∃ s t : Session, s = (new .bits64).setLimits { Limits.default with labels := 0 } ∧
      s.label "a" = ⟨t, some (.limitExceeded "labels" 0)⟩ ∧
      s.labelCount = 0 ∧ t.labelCount = 1 ∧ t.statements = [] ∧
      ((t.setLimits { Limits.default with labels := 1 }).label "a").failure =
        some (.limitExceeded "labels" 1) ∧
      ((s.setLimits { Limits.default with labels := 1 }).label "a").failure = none :=
  ⟨_, _, rfl, rfl, rfl, rfl, rfl, rfl, rfl⟩

end Session
end IntelAsm
