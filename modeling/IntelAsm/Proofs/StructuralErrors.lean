/-
Errors that no source text leads to. The encoder refuses operands that do not go
with their form, an index beside the instruction pointer and an address of a
byte (`EncodingError.isStructural`). Nothing that was parsed and evaluated gets
there: a segment in front of an operand is a segment register, the registers of
an address go together (`Memory.Regular`), and a row of the table has a slot for
each operand that its layout calls for (`Table.rows_complete`). So an
instruction is refused for other reasons alone (`ParsedInstruction.encode_clean`),
and with it a whole text (`assemble_never_structural`).
-/
import Mathlib
import IntelAsm.Proofs.Containment
import IntelAsm.Proofs.FailedCalls
import IntelAsm.Proofs.InstructionLength
import IntelAsm.Proofs.LinkReport
import IntelAsm.Proofs.OperandDecode
import IntelAsm.Proofs.ReportedLines
import IntelAsm.Proofs.SymbolUse

namespace IntelAsm

/-! ## Structural errors -/

/-- The reasons to refuse operands that have nothing to do with what was written: they are of the wrong
kind for the form, there is an index beside the instruction pointer, or the address has eight bits. -/
def EncodingError.isStructural : EncodingError → Bool
  | .invalidCombination _ | .ripWithIndex => true
  | .addressSize bits _ => bits = 8
  | _ => false

/-- The computation answers, or fails for what was written. -/
def Sound {α : Type} (x : Except EncodingError α) : Prop :=
  FailsWith (fun e => e.isStructural = false) x

namespace Memory

variable {m : Memory} {mode : Mode}

theorem Regular.effectiveWidth_ne_byte (hm : m.Regular) (mode : Mode) :
    m.effectiveWidth mode ≠ .byte := by
  unfold effectiveWidth
  cases hsize : m.addressSize with
  | some w =>
    intro hw
    exact hm.size (hsize.trans (congrArg some hw))
  | none =>
    -- Without a width there is no register to have one.
    have hbase : m.base = none := by
      cases hb : m.base with
      | none => rfl
      | some r => cases hsize.symm.trans (hm.baseWidth r hb)
    have hindex : m.index = none := by
      cases hi : m.index with
      | none => rfl
      | some i => cases hsize.symm.trans (hm.indexWidth i hi)
    rw [hbase, hindex]
    cases mode <;> decide

/-- **A regular address** is refused for what was written. -/
theorem Regular.encode_sound (hm : m.Regular) (mode : Mode) : Sound (m.encode mode) := by
  refine (m.encode_fails mode).mono fun e he => ?_
  cases he with
  | part h => cases e <;> first | rfl | cases h
  | pointer hbase hpointer hindex =>
    rcases hm.base _ hbase with hgeneral | ⟨-, hnone⟩
    · simp [Register.isPointer, (Register.isAddress_iff.1 hgeneral).1] at hpointer
    · simp [hnone] at hindex
  | @width w hw =>
    cases w with
    | byte => exact absurd hw (hm.effectiveWidth_ne_byte mode)
    | word | dword | qword => rfl

end Memory

/-! ## Slots -/

namespace Shape

variable {slots : List (Shape × Operand)} {s : Shape} {o : Operand}

/-- In a slot for values stands a value. -/
theorem exists_immediate (h : acceptsAmong slots (s, o) = true) (hs : s.takesImmediate = true) :
    ∃ i, o.immediate? = some i := by
  cases hk : o.kind with
  | immediate i => exact ⟨i, by rw [Operand.immediate?, hk]⟩
  | memory m =>
    have hrm := isRm_of_acceptsAmong h hk
    cases s with
    | rm | rmDefault | mem | memAny => cases hs
    | _ => cases hrm
  | register r =>
    have hm : o.memory? = none := by rw [Operand.memory?, hk]
    rcases accepts_register (accepts_of_acceptsAmong h hm) hk with rfl | ⟨rfl, -⟩ | ⟨hmem, -⟩
    · cases hs
    · cases hs
    · simp only [List.mem_cons, List.not_mem_nil, or_false] at hmem
      rcases hmem with rfl | rfl | rfl <;> cases hs

/-- In a slot with a role stands a register, or in the r/m part a place in memory. -/
theorem kind_of_role {withSegment : Bool} {role : Role} (h : acceptsAmong slots (s, o) = true)
    (hrole : s.role? withSegment = some role) :
    (∃ r, o.kind = .register r) ∨ role = .rm ∧ ∃ m, o.kind = .memory m := by
  cases hk : o.kind with
  | register r => exact .inl ⟨r, rfl⟩
  | memory m =>
    rw [role?_of_isRm withSegment (isRm_of_acceptsAmong h hk)] at hrole
    exact .inr ⟨(Option.some.inj hrole).symm, m, rfl⟩
  | immediate i =>
    have hi : o.immediate? = some i := by rw [Operand.immediate?, hk]
    have htakes := takesImmediate_of_accepts
      (accepts_of_acceptsAmong h (Operand.memory?_of_immediate? hi)) hi
    cases s with
    | imm | immSigned | one | rel => cases hrole
    | _ => cases htakes

/-- Every slot of a form has an operand. -/
theorem exists_operand {shapes : List Shape} {operands : List Operand}
    (h : acceptAll shapes operands = true) (hs : s ∈ shapes) : ∃ o, (s, o) ∈ shapes.zip operands := by
  obtain ⟨position, hs⟩ := List.mem_iff_getElem?.1 hs
  obtain ⟨hlt, -⟩ := List.getElem?_eq_some_iff.1 hs
  have ho := List.getElem?_eq_getElem (length_of_acceptAll h ▸ hlt)
  exact ⟨_, List.mem_of_getElem? (List.getElem?_zip_eq_some.2 ⟨hs, ho⟩)⟩

end Shape

/-- What a layout calls for is there: a slot for each of its places, and the opcode extension where
nothing else stands in the register part. -/
@[mk_iff]
structure Row.Complete (row : Row) : Prop where
  roles : ∀ place ∈ row.layout.places,
    ∃ s ∈ row.shapes, s.role? (row.shapes.contains .segment) = some place.role
  digit : row.layout.places = [.rm] → row.digit.isSome = true

instance (row : Row) : Decidable row.Complete := decidable_of_iff _ (Row.complete_iff row).symm

theorem Table.rows_complete : ∀ entry ∈ Table.entries, ∀ row ∈ entry.2, row.Complete := by
  decide +kernel

theorem Row.complete_of_rows? {mnemonic : String} {rows : List Row} {row : Row}
    (h : Table.rows? mnemonic = some rows) (hrow : row ∈ rows) : row.Complete :=
  Table.rows_complete _ (Table.mem_entries h) row hrow

/-- Each place of a row has the operand of a slot with its role. -/
theorem Row.Complete.exists_slot {row : Row} (hc : row.Complete) {operands : List Operand}
    (hacc : Shape.acceptAll row.shapes operands = true) {place : CodePlace}
    (hplace : place ∈ row.layout.places) :
    ∃ slot ∈ row.shapes.zip operands,
      slot.1.role? (row.shapes.contains .segment) = some place.role ∧
        place.role.operandIn row.shapes operands = some slot.2 := by
  obtain ⟨s, hs, hrole⟩ := hc.roles place hplace
  obtain ⟨o, hslot⟩ := Shape.exists_operand hacc hs
  exact Role.exists_operandIn hslot hrole

/-! ## Forms -/

/-- A slot that takes its operand gives it the role without fail. -/
theorem Roles.assign_sound {slots : List (Shape × Operand)} {slot : Shape × Operand}
    (h : Shape.acceptsAmong slots slot = true) (withSegment : Bool) (roles : Roles) :
    Sound (roles.assign withSegment slot) := by
  obtain ⟨s, o⟩ := slot
  cases s with
  | imm w | immSigned w =>
    obtain ⟨i, hi⟩ := Shape.exists_immediate h rfl
    simp only [assign, assign.immediate, hi]
    exact .ok _
  | rel w =>
    obtain ⟨i, hi⟩ := Shape.exists_immediate h rfl
    simp only [assign, hi]
    exact .ok _
  | reg w =>
    cases withSegment <;> exact .ok _
  | one | fixed | segment | rm | rmDefault | mem | memAny => exact .ok _

/-- The addresses among operands are regular, and their segments are segment registers. -/
structure Operand.Evaluated (o : Operand) : Prop where
  regular : ∀ m, o.kind = .memory m → m.Regular
  segment : ∀ m, o.kind = .memory m → ∀ r ∈ m.segment, r.registerClass = .segment

theorem OperandFields.withRm_sound {o : Operand} (ho : o.Evaluated) (hi : o.immediate? = none)
    (f : OperandFields) (reg : Nat) (mode : Mode) : Sound (f.withRm reg o mode) := by
  unfold withRm
  cases hk : o.kind with
  | register r => exact .ok _
  | memory m => exact ((ho.regular m hk).encode_sound mode).bind fun _ => .ok _
  | immediate i => simp [Operand.immediate?, hk] at hi

/-- **Operands that a row takes** are refused for what was written. -/
theorem Row.Complete.fields_sound {row : Row} (hc : row.Complete) {operands : List Operand}
    (hacc : Shape.acceptAll row.shapes operands = true) (hops : ∀ o ∈ operands, o.Evaluated)
    (wide : Bool) (mode : Mode) :
    Sound (OperandFields.encode row.layout row.shapes row.digit wide operands mode) := by
  unfold OperandFields.encode
  rw [if_neg (not_not.2 (Shape.length_of_acceptAll hacc))]
  have hslots : Sound (Roles.ofSlots row.shapes operands) :=
    .foldlM (fun roles slot hslot => Roles.assign_sound (Shape.acceptsAmong_of_mem hacc hslot) _ roles) _
  refine hslots.bind_of_ok fun roles hroles => ?_
  have hregister (place : CodePlace) (hplace : place ∈ row.layout.places)
      (hrole : place.role = .register) : Sound roles.requireRegister := by
    obtain ⟨slot, hslot, hsame, hoperand⟩ := hc.exists_slot hacc hplace
    rw [hrole] at hsame hoperand
    rcases Shape.kind_of_role (Shape.acceptsAmong_of_mem hacc hslot) hsame with ⟨r, hr⟩ | ⟨hno, -⟩
    · have hfound : roles.requireRegister = .ok r := by
        rw [Roles.requireRegister_eq_ok, Roles.operand?_eq_operandIn hroles, hoperand,
          Option.bind_some, Operand.register?, hr]
      rw [hfound]
      exact .ok r
    · cases hno
  have hrm (hplace : .rm ∈ row.layout.places) :
      ∃ o, roles.requireRm = .ok o ∧ o.Evaluated ∧ o.immediate? = none := by
    obtain ⟨slot, hslot, hsame, hoperand⟩ := hc.exists_slot hacc hplace
    refine ⟨slot.2, Roles.requireRm_eq_ok.2 ?_, hops _ (List.of_mem_zip hslot).2, ?_⟩
    · rw [Roles.operand?_eq_operandIn hroles]
      exact hoperand
    · rcases Shape.kind_of_role (Shape.acceptsAmong_of_mem hacc hslot) hsame with ⟨r, hr⟩ | ⟨-, m, hm⟩
      · rw [Operand.immediate?, hr]
      · rw [Operand.immediate?, hm]
  have hfill (hplace : .rm ∈ row.layout.places) (f : OperandFields) (reg : Nat) :
      Sound (roles.requireRm >>= fun o => f.withRm reg o mode) := by
    obtain ⟨o, ho, heval, hi⟩ := hrm hplace
    rw [ho]
    exact OperandFields.withRm_sound heval hi f reg mode
  have hdigit := hc.digit
  cases hlayout : row.layout with
  | np | i | d => exact .ok _
  | o | oi =>
    exact (hregister .opcode (by rw [hlayout]; decide) rfl).bind fun _ => .ok _
  | m | mi =>
    obtain ⟨digit, hd⟩ := Option.isSome_iff_exists.1 (hdigit (by rw [hlayout]; rfl))
    rw [hd]
    exact hfill (by rw [hlayout]; decide) _ digit
  | mr | rm | rmi =>
    refine (hregister .reg (by rw [hlayout]; decide) rfl).bind fun r => ?_
    exact hfill (by rw [hlayout]; decide) _ r.code

theorem Row.Complete.encode_sound {row : Row} (hc : row.Complete) {operands : List Operand}
    (hacc : Shape.acceptAll row.shapes operands = true) (hops : ∀ o ∈ operands, o.Evaluated)
    (prefixes : PrefixBytes) (mode : Mode) (span : Span) :
    Sound (row.encode operands prefixes mode span) := by
  unfold encode
  refine FailsWith.bind ((row.sizeSwitches_fails mode).mono ?_) fun switches => ?_
  · rintro e ⟨bits, modeBits, rfl⟩
    rfl
  refine FailsWith.bind (hc.fields_sound hacc hops switches.2 mode) fun f => ?_
  refine FailsWith.bind ((compose_fails f.rex).mono ?_) fun rex => ?_
  · rintro e rfl
    rfl
  · exact .guard rfl (.guard rfl (.ok _))

theorem PrefixBytes.compose_sound {operands : List Operand} (hops : ∀ o ∈ operands, o.Evaluated)
    (prefixes : List Prefix) : Sound (compose prefixes operands) := by
  have hoccupy (p : PrefixBytes) (group : Nat) (byte : UInt8) : Sound (p.occupy group byte) := by
    unfold occupy
    split
    · exact .guard rfl (.ok _)
    · exact .guard rfl (.ok _)
  unfold compose
  have hwords (p : PrefixBytes) (w : Prefix) (_ : w ∈ prefixes) : Sound (p.occupy w.group w.byte) :=
    hoccupy p w.group w.byte
  refine (FailsWith.foldlM hwords empty).bind fun p => FailsWith.foldlM (fun p r hr => ?_) p
  obtain ⟨o, ho, hr⟩ := List.mem_filterMap.1 hr
  obtain ⟨m, hm, hr⟩ := Option.bind_eq_some_iff.1 hr
  have hclass := (hops o ho).segment m (Operand.kind_of_memory? hm) r hr
  cases r with
  | segment s => exact hoccupy p 2 s.overrideByte
  | _ => cases hclass

/-! ## Reports -/

namespace Diagnostic

/-- The problem is reported: by itself, or among several. -/
inductive Within (d : Diagnostic) : Diagnostic → Prop
  | self : Within d d
  | several {ds : List Diagnostic} {e : Diagnostic} (he : e ∈ ds) (h : Within d e) :
    Within d (.several ds)

/-- No structural error is reported. -/
def Clean (d : Diagnostic) : Prop :=
  ∀ e span, (encoding e span).Within d → e.isStructural = false

/-- The report can have an error of the encoder in it. -/
def holdsEncoding : Diagnostic → Bool
  | .encoding .. | .several _ => true
  | _ => false

theorem clean_of_other {d : Diagnostic} (h : d.holdsEncoding = false) : d.Clean := by
  intro e span hin
  cases hin with
  | self => cases h
  | several => cases h

theorem clean_encoding {e : EncodingError} (h : e.isStructural = false) (span : Span) :
    (encoding e span).Clean := by
  intro e' span' hin
  cases hin with
  | self => exact h

theorem clean_ofList? {ds : List Diagnostic} (hds : ∀ d ∈ ds, d.Clean) {d : Diagnostic}
    (h : ofList? ds = some d) : d.Clean := by
  unfold ofList? at h
  split at h
  · cases h
  · cases h
    exact hds d (by simp)
  · cases h
    intro e span hin
    cases hin with
    | several he hin => exact hds _ he e span hin

end Diagnostic

/-- The computation answers, or its report is clean. -/
def CleanFails {α : Type} (x : Except Diagnostic α) : Prop := FailsWith Diagnostic.Clean x

theorem unlessReported_clean {α : Type} {ds : List Diagnostic} (hds : ∀ d ∈ ds, d.Clean) (value : α) :
    CleanFails (unlessReported ds value) := by
  unfold unlessReported
  cases h : Diagnostic.ofList? ds with
  | none => exact .ok _
  | some d => exact .error (Diagnostic.clean_ofList? hds h)

/-! ## Instructions -/

namespace Attempt

theorem mem_untilEncoded {attempt : Row → Attempt} {rows : List Row} {a : Attempt}
    (h : a ∈ untilEncoded attempt rows) : ∃ row ∈ rows, attempt row = a := by
  induction rows with
  | nil => simp [untilEncoded] at h
  | cons row rows ih =>
    simp only [untilEncoded] at h
    split at h
    · exact ⟨row, by simp, (List.mem_singleton.1 h).symm⟩
    · rcases List.mem_cons.1 h with rfl | h
      · exact ⟨row, by simp, rfl⟩
      · obtain ⟨other, hother, heq⟩ := ih h
        exact ⟨other, by simp [hother], heq⟩

theorem error?_ofRow {operands : List Operand} {prefixes : PrefixBytes} {mode : Mode} {span : Span}
    {row : Row} {e : EncodingError} (h : (ofRow operands prefixes mode span row).error? = some e) :
    Shape.acceptAll row.shapes operands = true ∧ row.encode operands prefixes mode span = .error e := by
  unfold ofRow at h
  cases hacc : Shape.acceptAll row.shapes operands with
  | false =>
    rw [hacc] at h
    cases h
  | true =>
    rw [hacc] at h
    cases henc : row.encode operands prefixes mode span with
    | ok i =>
      rw [henc] at h
      cases h
    | error e' =>
      rw [henc] at h
      cases h
      exact ⟨rfl, rfl⟩

theorem conclude_clean (mnemonic : String) (span : Span) {attempts : List Attempt}
    (h : ∀ a ∈ attempts, ∀ e, a.error? = some e → e.isStructural = false) :
    CleanFails (conclude mnemonic span attempts) := by
  unfold conclude
  cases attempts.findSome? instruction? with
  | some i => exact .ok _
  | none =>
    cases herrors : attempts.filterMap error? with
    | nil => exact .error (Diagnostic.clean_of_other rfl)
    | cons e es =>
      obtain ⟨a, ha, he⟩ := List.mem_filterMap.1 (herrors ▸ List.mem_cons_self : e ∈ attempts.filterMap error?)
      refine .error ?_
      split
      · exact Diagnostic.clean_encoding (h a ha e he) span
      · exact Diagnostic.clean_of_other rfl

end Attempt

/-- The segment in front of an operand is a segment register. -/
def ParsedOperand.Segmented (p : ParsedOperand) : Prop := ∀ r ∈ p.segment, r.registerClass = .segment

/-- The segments in front of the operands are segment registers. -/
def ParsedInstruction.Segmented (i : ParsedInstruction) : Prop := ∀ p ∈ i.operands, p.Segmented

namespace ParsedInstruction

variable {symbols : String → Option Interval} {i : ParsedInstruction}

theorem Segmented.evaluated (hi : i.Segmented) {operands : List Operand}
    (h : ParsedOperand.evaluateAll symbols i.operands = .ok operands) : ∀ o ∈ operands, o.Evaluated := by
  intro o ho
  obtain ⟨p, hp, hclassify⟩ := forall₂_mem_right (ParsedOperand.evaluateAll_classify h) ho
  refine ⟨fun m hm => (ParsedOperand.regular_classify hclassify hm).1, fun m hm r hr => ?_⟩
  rw [(ParsedOperand.regular_classify hclassify hm).2] at hr
  exact hi p hp r hr

theorem evaluate_clean (p : ParsedOperand) : CleanFails (p.evaluate symbols) := by
  unfold ParsedOperand.evaluate
  cases p.classify symbols with
  | ok o => exact .ok o
  | error e => exact .error (Diagnostic.clean_of_other rfl)

theorem attempts_clean (hi : i.Segmented) (mode : Mode) : CleanFails (i.attempts symbols mode) := by
  unfold attempts
  cases Table.rows? i.mnemonic with
  | none => exact .error (Diagnostic.clean_of_other rfl)
  | some rows =>
    have heval : CleanFails (ParsedOperand.evaluateAll symbols i.operands) :=
      .mapM fun p _ => evaluate_clean p
    refine heval.bind_of_ok fun operands hops => ?_
    have hcompose := PrefixBytes.compose_sound (hi.evaluated hops) i.prefixes
    exact (hcompose.mapError fun e he => Diagnostic.clean_encoding he i.span).bind fun _ => .ok _

theorem attempts_eq_ok {mode : Mode} {as : List Attempt} (h : i.attempts symbols mode = .ok as) :
    ∃ rows operands prefixes, Table.rows? i.mnemonic = some rows ∧
      ParsedOperand.evaluateAll symbols i.operands = .ok operands ∧
      as = Attempt.untilEncoded (Attempt.ofRow operands prefixes mode i.span)
        (rows.filter fun row => row.modes.contains mode) := by
  unfold attempts at h
  cases hrows : Table.rows? i.mnemonic with
  | none =>
    rw [hrows] at h
    cases h
  | some rows =>
    rw [hrows] at h
    simp only [bind_eq_ok, pure_eq_ok] at h
    obtain ⟨operands, hops, prefixes, -, rfl⟩ := h
    exact ⟨rows, operands, prefixes, rfl, hops, rfl⟩

/-- **An instruction is refused for what was written.** -/
theorem encode_clean (hi : i.Segmented) (symbols : String → Option Interval) (mode : Mode) :
    CleanFails (i.encode symbols mode) := by
  unfold encode
  refine (attempts_clean hi mode).bind_of_ok fun as has => ?_
  obtain ⟨rows, operands, prefixes, hrows, hops, rfl⟩ := attempts_eq_ok has
  refine Attempt.conclude_clean _ _ fun a ha e he => ?_
  obtain ⟨row, hrow, rfl⟩ := Attempt.mem_untilEncoded ha
  obtain ⟨hacc, henc⟩ := Attempt.error?_ofRow he
  have hc := Row.complete_of_rows? hrows (List.mem_filter.1 hrow).1
  exact (hc.encode_sound hacc (hi.evaluated hops) prefixes mode i.span).reason henc

end ParsedInstruction

/-! ## Parsing -/

namespace Parsed

variable {α β : Type}

/-- What the step gives, if it gives anything, has the property. -/
inductive Gives (P : α → Prop) : Parsed α → Prop
  | ok {value : α} {rest : List Token} (h : P value) : Gives P (.ok value rest)
  | fail {failure : ParseFailure} {rest : List Token} : Gives P (.fail failure rest)

namespace Gives

variable {P : α → Prop} {Q : β → Prop}

theorem trivial (p : Parsed α) : p.Gives fun _ => True := by
  cases p with
  | ok => exact .ok True.intro
  | fail => exact .fail

theorem andThen {p : Parsed α} {g : α → List Token → Parsed β} (hp : p.Gives P)
    (hg : ∀ value rest, P value → (g value rest).Gives Q) : (p.andThen g).Gives Q := by
  cases hp with
  | ok h => exact hg _ _ h
  | fail => exact .fail

theorem value {p : Parsed α} (h : p.Gives P) {value : α} {rest : List Token}
    (hp : p = .ok value rest) : P value := by
  cases h with
  | ok h =>
    cases hp
    exact h
  | fail => cases hp

end Gives
end Parsed

namespace Parse

theorem segment_class (ts : List Token) : ∀ r ∈ (segment ts).1, r.registerClass = .segment := by
  intro r hr
  unfold segment at hr
  simp only at hr
  split at hr
  · split at hr
    · cases hr
      rfl
    · cases hr
  · cases hr

theorem address_segmented (size : Option Width) (distance : Bool) {outer : Option Register}
    (houter : ∀ r ∈ outer, r.registerClass = .segment) (start : Span) (ts : List Token) :
    (address size distance outer start ts).Gives ParsedOperand.Segmented := by
  have hsegment (us : List Token) :
      ∀ r ∈ (if outer.isNone then segment us else (outer, us)).1, r.registerClass = .segment := by
    split
    · exact segment_class us
    · exact houter
  unfold address
  refine (Parsed.Gives.trivial _).andThen fun e rest _ => ?_
  simp only
  split
  · exact .ok (hsegment (Parse.size ts).2)
  · exact .fail

theorem operand_segmented (ts : List Token) : (operand ts).Gives ParsedOperand.Segmented := by
  unfold operand
  simp only
  split
  · exact address_segmented _ _ (segment_class _) _ _
  · split
    · exact .fail
    · exact (Parsed.Gives.trivial _).andThen fun e rest _ => .ok fun r hr => by cases hr

theorem operands_segmented (fuel : Nat) (ts : List Token) :
    (operands fuel ts).Gives fun ps => ∀ p ∈ ps, p.Segmented := by
  induction fuel generalizing ts with
  | zero => exact .ok (List.forall_mem_nil _)
  | succ fuel ih =>
    rw [operands]
    refine (operand_segmented ts).andThen fun p rest hp => ?_
    split
    · refine (ih _).andThen fun ps rest hps => .ok ?_
      simpa using ⟨hp, hps⟩
    · exact .ok (by simpa using hp)

theorem instruction_segmented (first : Token) (ts : List Token) :
    (instruction first ts).Gives ParsedInstruction.Segmented := by
  unfold instruction
  simp only
  split
  · exact .ok (List.forall_mem_nil _)
  · exact (operands_segmented _ _).andThen fun ps rest hps => .ok hps

end Parse

/-- An instruction among the statements has segment registers in front of its operands. -/
def Statement.Segmented (statements : List Statement) : Prop :=
  ∀ i, Statement.instruction i ∈ statements → i.Segmented

namespace Parse

theorem command_segmented (ts : List Token) : (command ts).Gives Statement.Segmented := by
  unfold command
  simp only
  split
  · unfold directive
    split
    all_goals first | exact .fail | exact .ok (by intro i hi; simp at hi)
  · refine (instruction_segmented _ _).andThen fun i rest hi => .ok fun j hj => ?_
    cases List.mem_singleton.1 hj
    exact hi
  · exact .fail

theorem line_segmented (ts : List Token) : Statement.Segmented (line ts).statements := by
  have hcommand (us : List Token) : Statement.Segmented (commandLine us).statements := by
    unfold commandLine
    cases hc : command us with
    | fail failure rest => exact fun i hi => by cases hi
    | ok statements rest =>
      have hst := (command_segmented us).value hc
      simp only
      split <;> exact hst
  have hlabel : ∀ i, Statement.instruction i ∉ labelOf ts := by
    intro i hi
    unfold labelOf at hi
    split at hi
    · cases List.mem_singleton.1 hi
    · cases hi
  intro i hi
  rcases line_cases ts with ⟨hline, -⟩ | hline
  · rw [hline] at hi
    exact absurd hi (hlabel i)
  · rw [hline] at hi
    rcases List.mem_append.1 hi with hi | hi
    · exact absurd hi (hlabel i)
    · exact hcommand _ i hi

end Parse

/-- **What is parsed** has segment registers for segments. -/
theorem Statement.read_segmented (source : String) : Segmented (read source).1 := by
  intro i hi
  unfold read at hi
  cases hscan : Token.scan source with
  | error d =>
    rw [hscan] at hi
    cases hi
  | ok tokens =>
    rw [hscan] at hi
    simp only [parseTokens, Parse.lines_eq_reads] at hi
    obtain ⟨ts, -, hi⟩ := List.mem_flatMap.1 hi
    exact Parse.line_segmented ts i hi

/-! ## Sessions -/

theorem Statement.errors_clean {statements : List Statement} (h : Segmented statements)
    (symbols : String → Option Interval) (mode : Mode) :
    ∀ d ∈ errors symbols mode statements, d.Clean := by
  induction statements generalizing mode with
  | nil => exact List.forall_mem_nil _
  | cons s rest ih =>
    intro d hd
    rw [errors, List.mem_append, Option.mem_toList] at hd
    rcases hd with hd | hd
    · cases s with
      | label | mode => cases hd
      | instruction i =>
        have hclean := ParsedInstruction.encode_clean (h i (by simp)) symbols mode
        rw [error?] at hd
        cases henc : i.encode symbols mode with
        | ok e =>
          rw [henc] at hd
          cases hd
        | error d' =>
          rw [henc] at hd
          cases hd
          exact hclean.reason henc
    · exact ih (fun i hi => h i (by simp [hi])) _ d hd

theorem Progress.step_clean {symbols : String → Option Interval} {limits : Limits} {p : Progress}
    {statement : Statement} (h : ∀ i, statement = .instruction i → i.Segmented) :
    CleanFails (p.step symbols limits statement) := by
  cases statement with
  | label | mode => exact .ok _
  | instruction i =>
    have hclean := ParsedInstruction.encode_clean (h i rfl) symbols p.mode
    simp only [step]
    cases henc : i.encode symbols p.mode with
    | ok e => exact .guard (Diagnostic.clean_of_other rfl) (.ok _)
    | error d => exact .guard (hclean.reason henc) (.guard (Diagnostic.clean_of_other rfl) (.ok _))

theorem Progress.run_clean {symbols : String → Option Interval} {limits : Limits} (p : Progress)
    {statements : List Statement} (h : Statement.Segmented statements) :
    CleanFails (p.run symbols limits statements) := by
  induction statements generalizing p with
  | nil => exact .ok _
  | cons s rest ih =>
    rw [run]
    refine (step_clean fun i hi => h i (by simp [hi])).bind fun next => ?_
    exact (ih next.next fun i hi => h i (by simp [hi])).bind fun _ => .ok _

theorem Program.link_clean (p : Program) : CleanFails p.link := by
  rw [link_eq]
  refine .guard (Diagnostic.clean_of_other rfl) (unlessReported_clean (fun d hd => ?_) _)
  rw [reports_eq, List.mem_append] at hd
  rcases hd with hd | hd
  · obtain ⟨x, -, hd⟩ := List.mem_filterMap.1 hd
    obtain ⟨first, -, rfl⟩ := Option.map_eq_some_iff.1 hd
    exact Diagnostic.clean_of_other rfl
  · obtain ⟨s, -, hd⟩ := List.mem_filterMap.1 hd
    cases hanswer : s.answer p.symbolValue? with
    | ok v =>
      rw [hanswer] at hd
      cases hd
    | error d' =>
      rw [hanswer] at hd
      cases hd
      cases Site.reports_of_answer hanswer <;> exact Diagnostic.clean_of_other rfl

namespace Session

theorem finish_clean {s : Session} (hstatements : Statement.Segmented s.statements)
    (herrors : ∀ d ∈ s.errors, d.Clean) : CleanFails s.finish := by
  have hencode : CleanFails s.encode :=
    (s.progress.run_clean hstatements).bind fun _ => .ok _
  have hstrict : CleanFails s.encodeStrict := by
    refine hencode.bind_of_ok fun e he => unlessReported_clean ?_ e.records
    obtain ⟨-, -, hall⟩ := encode_eq_ok he
    rw [hall]
    intro d hd
    rcases List.mem_append.1 hd with hd | hd
    · exact herrors d hd
    · exact Statement.errors_clean hstatements _ _ d hd
  refine hstrict.bind fun records => (s.program records).link_clean.bind fun image => ?_
  exact .guard (Diagnostic.clean_of_other rfl) (.ok _)

/-- A session of one source text has the statements and the errors of the text, unless a limit is
exceeded. -/
theorem load_cases (source : String) (mode : Mode) (base : Nat) (externals : List (String × Nat)) :
    (∃ s, load source mode base externals = .ok s ∧ s.statements = (Statement.read source).1 ∧
        s.errors = (Statement.read source).2) ∨
      ∃ resource limit, load source mode base externals = .error (.limitExceeded resource limit) := by
  have hempty (s : Session) (hs : s.entries = [] ∧ s.errors = []) :
      (externals.foldl (fun s x => s.defineExternal x.1 x.2) s).entries = [] ∧
        (externals.foldl (fun s x => s.defineExternal x.1 x.2) s).errors = [] := by
    induction externals generalizing s with
    | nil => exact hs
    | cons x externals ih => exact ih _ hs
  obtain ⟨hentries, herrors⟩ := hempty ((new mode).setBase base) ⟨rfl, rfl⟩
  have hload : load source mode base externals =
      ((externals.foldl (fun s x => s.defineExternal x.1 x.2)
        ((new mode).setBase base)).emit source).result := rfl
  rw [hload]
  generalize externals.foldl (fun s x => s.defineExternal x.1 x.2) ((new mode).setBase base) = s
    at hentries herrors
  rcases s.emit_done_or_fails source with hdone | ⟨t, d, hfail, hwhy⟩
  · refine .inl ⟨{ s with errors := s.errors ++ (Statement.read source).2 }.extend source.toList
      (Statement.read source).1, by rw [hdone]; rfl, ?_, ?_⟩
    · rw [statements_extend, statements, hentries]
      rfl
    · show s.errors ++ _ = _
      rw [herrors, List.nil_append]
  · rw [hfail]
    cases hwhy <;> exact .inr ⟨_, _, rfl⟩

end Session

theorem assemble_clean (source : String) (mode : Mode) (base : Nat) (externals : List (String × Nat)) :
    CleanFails (assemble source mode base externals) := by
  rcases Session.load_cases source mode base externals with
    ⟨s, hload, hstatements, herrors⟩ | ⟨resource, limit, hload⟩
  · have hfinish : CleanFails s.finish := by
      refine Session.finish_clean ?_ fun d hd => ?_
      · rw [hstatements]
        exact Statement.read_segmented source
      · rw [herrors] at hd
        obtain ⟨detail, span, rfl⟩ := Statement.read_malformed hd
        exact Diagnostic.clean_of_other rfl
    rw [assemble, hload]
    exact hfinish.bind fun a => .ok _
  · rw [assemble, hload]
    exact .error (Diagnostic.clean_of_other rfl)

/-- What the encoder can rely on in an instruction with these operands: they are evaluated ones, and
whatever row of its mnemonic takes them has one for each role that its layout calls for. -/
structure ParsedInstruction.Prepared (i : ParsedInstruction) (operands : List Operand) : Prop where
  evaluated : ∀ o ∈ operands, o.Evaluated
  roles : ∀ rows row, Table.rows? i.mnemonic = some rows → row ∈ rows →
    Shape.acceptAll row.shapes operands = true → ∀ place ∈ row.layout.places,
      ∃ o ∈ operands, place.role.operandIn row.shapes operands = some o

theorem ParsedInstruction.Segmented.prepared {i : ParsedInstruction} (hi : i.Segmented)
    {symbols : String → Option Interval} {operands : List Operand}
    (h : ParsedOperand.evaluateAll symbols i.operands = .ok operands) : i.Prepared operands := by
  refine ⟨hi.evaluated h, fun rows row hrows hrow hacc place hplace => ?_⟩
  obtain ⟨slot, hslot, -, hoperand⟩ := (Row.complete_of_rows? hrows hrow).exists_slot hacc hplace
  exact ⟨slot.2, (List.of_mem_zip hslot).2, hoperand⟩

/-- **Structural errors are never reported.** Whatever the source text, the mode, the base and the
external symbols: no error of the encoder that is reported, alone or among several, is structural. For
the segments of the instructions of the text are segment registers, and once their operands are
evaluated, their addresses are regular and every row that takes them finds what it calls for. -/
theorem assemble_never_structural (source : String) (mode : Mode) (base : Nat)
    (externals : List (String × Nat)) :
    (∀ d, assemble source mode base externals = .error d →
      ∀ e span, (Diagnostic.encoding e span).Within d → e.isStructural = false) ∧
    ∀ i, Statement.instruction i ∈ (Statement.read source).1 → i.Segmented ∧
      ∀ symbols operands, ParsedOperand.evaluateAll symbols i.operands = .ok operands →
        i.Prepared operands := by
  refine ⟨fun d hd => (assemble_clean source mode base externals).reason hd, fun i hi => ?_⟩
  have hsegmented := Statement.read_segmented source i hi
  exact ⟨hsegmented, fun symbols operands heval => hsegmented.prepared heval⟩

/-- The error of the encoder in a report. -/
def Diagnostic.reason? : Diagnostic → Option EncodingError
  | .encoding e _ => some e
  | _ => none

/-- The errors of the encoder in a report or in several. -/
def Diagnostic.reasons : Diagnostic → List EncodingError
  | .several ds => ds.filterMap reason?
  | d => d.reason?.toList

/-- Four instructions that are refused for what was written, each for a reason of its own. -/
theorem assemble_never_structural_refused :
    ∃ d, assemble "mov eax, [ebx*3]\n lock rep nop\n mov al, fs:[bx]\n mov ah, [r8]" .bits64 0 [] =
        .error d ∧
      d.reasons = [.illegalScale 3, .prefixCollision 1, .addressSize 16 64, .rexConflict] ∧
      ∀ e span, (Diagnostic.encoding e span).Within d → e.isStructural = false := by
  have hrun : (failure? (assemble "mov eax, [ebx*3]\n lock rep nop\n mov al, fs:[bx]\n mov ah, [r8]"
      .bits64 0 [])).map Diagnostic.reasons =
        some [.illegalScale 3, .prefixCollision 1, .addressSize 16 64, .rexConflict] := by
    decide +kernel
  cases hassemble : assemble "mov eax, [ebx*3]\n lock rep nop\n mov al, fs:[bx]\n mov ah, [r8]"
      .bits64 0 [] with
  | ok bytes =>
    rw [hassemble] at hrun
    cases hrun
  | error d =>
    rw [hassemble] at hrun
    refine ⟨d, rfl, Option.some.inj hrun, ?_⟩
    exact (assemble_never_structural _ _ _ _).1 d hassemble

end IntelAsm
