/-
What an encoded instruction is made of. `ParsedInstruction.encode` answers
with the instruction of the first row of the mnemonic that exists in the mode,
takes the operands and has one (`ParsedInstruction.toOption_encode`), so with
that of some row (`ParsedInstruction.encode_eq_ok`). From there down there is
one inversion for each function (`Row.encode_eq_ok`,
`OperandFields.encode_cases`, `OperandFields.withRm_eq_ok`), and one statement
about what the slots of a row leave in the immediate and in the branch field
(`Roles.ofSlots_fields`). The operands themselves come from
`ParsedOperand.classify_cases`, and their addresses are regular
(`Memory.Regular`).

The table itself comes in once, by evaluation: every row has an opcode of one
to three bytes and at most one slot for a value (`Table.rows_wellFormed`).
-/
import IntelAsm.Instruction.Select
import IntelAsm.Proofs.Failure

namespace IntelAsm

/-! ## Operands as evaluated -/

theorem Register.width_ne_byte {r : Register} (h : r.isAddress = true ∨ r.isPointer = true) :
    r.width ≠ .byte := by
  rcases h with h | h
  · exact (isAddress_iff.1 h).2
  · cases r with
    | eip | rip => nofun
    | _ => cases h

namespace Memory

/-- The registers of an address go together: they are general ones of its width, or the base is the
instruction pointer and there is no index. No address has the width of a byte. -/
structure Regular (m : Memory) : Prop where
  base : ∀ r ∈ m.base, r.isAddress = true ∨ r.isPointer = true ∧ m.index = none
  index : ∀ i ∈ m.index, i.register.isAddress = true
  baseWidth : ∀ r ∈ m.base, m.addressSize = some r.width
  indexWidth : ∀ i ∈ m.index, m.addressSize = some i.register.width
  size : m.addressSize ≠ some .byte

/-- The width of the registers of an address, if it has any: that of the base and that of the index,
which never stands beside the instruction pointer. -/
theorem registerWidth_eq_ok {m : Memory} {size : Option Width} (h : m.registerWidth = .ok size) :
    (m.base = none ∧ m.index = none ∧ size = none) ∨
      (∃ r, m.base = some r ∧ m.index = none ∧ (r.isAddress = true ∨ r.isPointer = true) ∧
        size = some r.width) ∨
      ∃ i, m.index = some i ∧ i.register.isAddress = true ∧ size = some i.register.width ∧
        ∀ r ∈ m.base, r.isAddress = true ∧ r.width = i.register.width := by
  cases hbase : m.base with
  | none =>
    cases hindex : m.index with
    | none =>
      simp only [registerWidth, hbase, hindex] at h
      cases h
      exact .inl ⟨rfl, rfl, rfl⟩
    | some i =>
      simp only [registerWidth, hbase, hindex, bind_eq_ok, guard_eq_ok] at h
      obtain ⟨w, hw, hi, -, h⟩ := h
      cases hw
      cases h
      exact .inr (.inr ⟨i, rfl, by simpa using hi, rfl, nofun⟩)
  | some r =>
    have hr : (r.isAddress || r.isPointer) = true := by
      by_contra hno
      rw [Bool.not_eq_true] at hno
      simp only [registerWidth, hbase, hno] at h
      cases h
    cases hindex : m.index with
    | none =>
      simp only [registerWidth, hbase, hindex, hr] at h
      cases h
      exact .inr (.inl ⟨r, rfl, rfl, by simpa using hr, rfl⟩)
    | some i =>
      simp only [registerWidth, hbase, hindex, hr, if_true, bind_eq_ok, guard_eq_ok] at h
      obtain ⟨w, hw, hi, hpointer, h⟩ := h
      cases hw
      simp only [guard_eq_ok, pure_eq_ok, not_not] at h
      obtain ⟨hsame, rfl⟩ := h
      refine .inr (.inr ⟨i, rfl, by simpa using hi, congrArg some hsame, fun r' hr' => ?_⟩)
      cases hr'
      refine ⟨?_, hsame⟩
      rw [Option.any_some] at hpointer
      simpa [hpointer] using hr

/-- **The registers of an evaluated address** go together. -/
theorem regular_of_resolveSize {m : Memory} {declared size : Option Width} (segment : Option Register)
    (h : m.resolveSize declared = .ok size) :
    { m with segment, addressSize := size }.Regular := by
  simp only [resolveSize, bind_eq_ok, guard_eq_ok] at h
  obtain ⟨width, hwidth, hdeclared, h⟩ := h
  have hsize : width = none ∧ size = declared ∨ width.isSome = true ∧ size = width := by
    cases width with
    | none =>
      cases h
      exact .inl ⟨rfl, rfl⟩
    | some w =>
      refine .inr ⟨rfl, ?_⟩
      cases declared with
      | none =>
        cases h
        rfl
      | some d =>
        simp only [guard_eq_ok, pure_eq_ok] at h
        exact h.2.symm
  rcases registerWidth_eq_ok hwidth with ⟨hbase, hindex, rfl⟩ | ⟨r, hbase, hindex, hr, rfl⟩ |
    ⟨i, hindex, hi, rfl, hr⟩
  · obtain ⟨-, rfl⟩ := hsize.resolve_right nofun
    constructor <;> simp [hbase, hindex, hdeclared]
  · obtain ⟨-, rfl⟩ := hsize.resolve_left nofun
    constructor <;> simp [hbase, hindex, hr, Register.width_ne_byte hr]
  · obtain ⟨-, rfl⟩ := hsize.resolve_left nofun
    refine ⟨fun r hmem => .inl (hr r hmem).1, ?_, fun r hmem => ?_, ?_, ?_⟩
    · simpa [hindex] using hi
    · rw [(hr r hmem).2]
    · simp [hindex]
    · simpa using Register.width_ne_byte (.inl hi)

end Memory

namespace ParsedOperand

/-- **What an operand is**: that which its expression is folded into, an address if it stands in
brackets. A value may get a width, an address its width and its segment. -/
theorem classify_cases {symbols : String → Option Interval} {p : ParsedOperand} {o : Operand}
    (h : p.classify symbols = .ok o) :
    ∃ kind, OperandKind.ofExpr symbols p.address p.expr = .ok kind ∧
      let folded := if p.address then .memory kind.toMemory else kind
      (∃ r, folded = .register r ∧ o = .ofRegister r p.span) ∨
      (∃ i size, folded = .immediate i ∧ o = .ofImmediate { i with size } p.span) ∨
      ∃ m size, folded = .memory m ∧ m.resolveSize p.addressSize = .ok size ∧
        o = .ofMemory { m with segment := p.segment, addressSize := size } p.size p.span := by
  simp only [classify, bind_eq_ok] at h
  obtain ⟨kind, hkind, h⟩ := h
  refine ⟨kind, hkind, ?_⟩
  generalize (if p.address then .memory kind.toMemory else kind : OperandKind) = folded at h ⊢
  cases folded with
  | register r =>
    refine .inl ⟨r, rfl, ?_⟩
    cases hsize : p.size with
    | none =>
      simp only [hsize, pure_eq_ok] at h
      exact h.symm
    | some w =>
      simp only [hsize, guard_eq_ok, pure_eq_ok] at h
      exact h.2.symm
  | immediate i =>
    refine .inr (.inl ?_)
    cases hsize : p.size with
    | none =>
      simp only [hsize, pure_eq_ok] at h
      exact ⟨i, i.size, rfl, h.symm⟩
    | some w =>
      refine ⟨i, some w, rfl, ?_⟩
      cases hv : i.value with
      | fixed v =>
        simp only [hsize, hv, guard_eq_ok, pure_eq_ok] at h
        rw [← h.2]
      | symbolic e b =>
        simp only [hsize, hv, pure_eq_ok] at h
        rw [← h]
  | memory m =>
    simp only [bind_eq_ok, pure_eq_ok] at h
    obtain ⟨size, hsize, rfl⟩ := h
    exact .inr (.inr ⟨m, size, rfl, hsize, rfl⟩)

theorem regular_classify {symbols : String → Option Interval} {p : ParsedOperand} {o : Operand}
    {m : Memory} (h : p.classify symbols = .ok o) (hm : o.kind = .memory m) :
    m.Regular ∧ m.segment = p.segment := by
  obtain ⟨kind, -, ⟨r, -, rfl⟩ | ⟨i, size, -, rfl⟩ | ⟨m', size, -, hsize, rfl⟩⟩ := classify_cases h
  · cases hm
  · cases hm
  · cases hm
    exact ⟨Memory.regular_of_resolveSize _ hsize, rfl⟩

end ParsedOperand

/-! ## Slots that take values -/

theorem Operand.memory?_of_immediate? {o : Operand} {i : Immediate} (h : o.immediate? = some i) :
    o.memory? = none := by
  obtain ⟨kind, size, span⟩ := o
  cases kind <;> simp_all [immediate?, memory?]

namespace Shape

/-- The width of the immediate field of a slot, and whether the processor extends its sign. -/
def immediateField? : Shape → Option (Width × Bool)
  | .imm w => some (w, false)
  | .immSigned w => some (w, true)
  | _ => none

/-- Whether the slot is one for values: it takes nothing else, and no other slot takes them. -/
def takesImmediate : Shape → Bool
  | .imm _ | .immSigned _ | .one | .rel _ => true
  | _ => false

theorem takesImmediate_of_immediateField? {s : Shape} {w : Width} {signed : Bool}
    (h : s.immediateField? = some (w, signed)) : s.takesImmediate = true := by
  cases s <;> simp [immediateField?] at h <;> rfl

/-- What is not in memory is taken by a slot itself. -/
theorem accepts_of_acceptsAmong {slots : List (Shape × Operand)} {slot : Shape × Operand}
    (h : acceptsAmong slots slot = true) (hm : slot.2.memory? = none) :
    slot.1.accepts slot.2 = true := by
  simp only [acceptsAmong, Operand.isUnsizedMemory, hm, Option.isSome_none, Bool.false_and,
    Bool.or_eq_true] at h
  rcases h with h | h
  · exact h
  · split at h <;> simp at h

theorem takesImmediate_of_accepts {s : Shape} {o : Operand} {i : Immediate}
    (h : s.accepts o = true) (hi : o.immediate? = some i) : s.takesImmediate = true := by
  obtain ⟨kind, size, span⟩ := o
  cases kind <;> simp [Operand.immediate?] at hi
  cases s with
  | imm | immSigned | one | rel => rfl
  | reg | fixed | segment | rm | rmDefault | mem | memAny =>
    simp [accepts, Operand.isRegister, Operand.isSizedMemory, Operand.isRegisterOrMemory,
      Operand.isMemory, Operand.register?, Operand.memory?] at h

/-- A slot with an immediate field takes what fits the field, unsigned values only where the sign is
not extended. -/
theorem fitsField_of_accepts {s : Shape} {o : Operand} {w : Width} {signed : Bool} {i : Immediate}
    (hs : s.immediateField? = some (w, signed)) (hi : o.immediate? = some i)
    (h : s.accepts o = true) :
    i.fitsField w (!signed) = true ∧
      (signed = true → ∀ v, i.fixed? = some v → w.FitsSigned v.toInt) := by
  cases s with
  | imm width =>
    cases hs
    simp only [accepts, Operand.fitsImmediateField, hi, Option.any_some] at h
    exact ⟨h, fun hsigned => by cases hsigned⟩
  | immSigned width =>
    cases hs
    simp only [accepts, Operand.isImmediate, hi, Option.any_some, Option.bind_some,
      Bool.and_eq_true] at h
    refine ⟨h.1, fun _ v hv => ?_⟩
    have hrange := h.2
    rw [hv, Option.all_some, Bool.or_eq_true, decide_eq_true_eq, decide_eq_true_eq] at hrange
    rcases hrange with rfl | hrange
    · exact Width.fitsSigned_qword v
    · exact hrange
  | _ => cases hs

theorem acceptsAmong_of_mem {shapes : List Shape} {operands : List Operand}
    (h : acceptAll shapes operands = true) {slot : Shape × Operand} (hs : slot ∈ shapes.zip operands) :
    acceptsAmong (shapes.zip operands) slot = true := by
  simp only [acceptAll, Bool.and_eq_true, List.all_eq_true] at h
  exact h.2 slot hs

theorem acceptAll_slot {shapes : List Shape} {operands : List Operand}
    (h : acceptAll shapes operands = true) {slot : Shape × Operand} {i : Immediate}
    (hs : slot ∈ shapes.zip operands) (hi : slot.2.immediate? = some i) :
    slot.1.accepts slot.2 = true :=
  accepts_of_acceptsAmong (acceptsAmong_of_mem h hs) (Operand.memory?_of_immediate? hi)

theorem length_of_acceptAll {shapes : List Shape} {operands : List Operand}
    (h : acceptAll shapes operands = true) : shapes.length = operands.length := by
  simp only [acceptAll, Bool.and_eq_true, decide_eq_true_eq] at h
  exact h.1

/-- The slot of the operand at a position. -/
theorem exists_slot {shapes : List Shape} {operands : List Operand} {position : Nat} {o : Operand}
    (h : acceptAll shapes operands = true) (ho : operands[position]? = some o) :
    ∃ s, shapes[position]? = some s ∧ (s, o) ∈ shapes.zip operands ∧
      acceptsAmong (shapes.zip operands) (s, o) = true := by
  have hlen := length_of_acceptAll h
  obtain ⟨hlt, -⟩ := List.getElem?_eq_some_iff.1 ho
  have hs : shapes[position]? = some (shapes.get ⟨position, by omega⟩) :=
    List.getElem?_eq_getElem (by omega)
  generalize shapes.get ⟨position, by omega⟩ = s at hs
  have hmem : (s, o) ∈ shapes.zip operands :=
    List.mem_of_getElem? (List.getElem?_zip_eq_some.2 ⟨hs, ho⟩)
  exact ⟨s, hs, hmem, acceptsAmong_of_mem h hmem⟩

/-- Every operand of a form stands in a slot. -/
theorem acceptAll_mem {shapes : List Shape} {operands : List Operand}
    (h : acceptAll shapes operands = true) {o : Operand} (ho : o ∈ operands) :
    ∃ shape, (shape, o) ∈ shapes.zip operands := by
  obtain ⟨position, ho⟩ := List.mem_iff_getElem?.1 ho
  obtain ⟨s, -, hmem, -⟩ := exists_slot h ho
  exact ⟨s, hmem⟩

/-- In a form with one slot of a kind at most, two slots of that kind are the same one. -/
theorem slot_unique {kind : Shape → Bool} {shapes : List Shape} {operands : List Operand}
    (hc : shapes.countP kind ≤ 1) {a b : Shape × Operand}
    (ha : a ∈ shapes.zip operands) (hb : b ∈ shapes.zip operands)
    (ha' : kind a.1 = true) (hb' : kind b.1 = true) : a = b := by
  induction shapes generalizing operands with
  | nil => simp at ha
  | cons s shapes ih =>
    cases operands with
    | nil => simp at ha
    | cons o operands =>
      simp only [List.zip_cons_cons, List.mem_cons] at ha hb
      rw [List.countP_cons] at hc
      -- An operand in the first slot leaves none for the others.
      have hrest : kind s = true → ∀ c ∈ shapes.zip operands, kind c.1 ≠ true := by
        intro hs c hmem hc'
        have hpos : 0 < shapes.countP kind :=
          List.countP_pos_iff.2 ⟨c.1, (List.of_mem_zip hmem).1, hc'⟩
        simp only [hs, if_true] at hc
        omega
      rcases ha with rfl | ha <;> rcases hb with rfl | hb
      · rfl
      · exact absurd hb' (hrest ha' b hb)
      · exact absurd ha' (hrest hb' a ha)
      · exact ih (by omega) ha hb

end Shape

/-! ## Roles and fields -/

/-- The two roles of operands that have a code. -/
inductive Role where
  | register
  | rm
deriving DecidableEq

/-- The role that a slot gives its operand. A segment register leaves a general register beside it
to the r/m part. -/
def Shape.role? (withSegment : Bool) : Shape → Option Role
  | .segment => some .register
  | .reg _ => some (if withSegment then .rm else .register)
  | .rm _ | .rmDefault _ | .mem _ | .memAny => some .rm
  | .imm _ | .immSigned _ | .one | .rel _ | .fixed _ => none

/-- The operand that a form has in a role. Where several slots have the role, the last one counts. -/
def Role.operandIn (role : Role) (shapes : List Shape) (operands : List Operand) : Option Operand :=
  ((shapes.zip operands).filter fun slot =>
    slot.1.role? (shapes.contains .segment) = some role).getLast?.map Prod.snd

/-- A slot with the role gives it an operand, that of such a slot. -/
theorem Role.exists_operandIn {role : Role} {shapes : List Shape} {operands : List Operand}
    {slot : Shape × Operand} (hslot : slot ∈ shapes.zip operands)
    (hrole : slot.1.role? (shapes.contains .segment) = some role) :
    ∃ last ∈ shapes.zip operands, last.1.role? (shapes.contains .segment) = some role ∧
      role.operandIn shapes operands = some last.2 := by
  have hmem : slot ∈ (shapes.zip operands).filter fun slot =>
      slot.1.role? (shapes.contains .segment) = some role :=
    List.mem_filter.2 ⟨hslot, decide_eq_true hrole⟩
  obtain ⟨last, hlast⟩ := Option.isSome_iff_exists.1
    (List.getLast?_isSome.2 (List.ne_nil_of_mem hmem))
  obtain ⟨hin, hsame⟩ := List.mem_filter.1 (List.mem_of_getLast? hlast)
  refine ⟨last, hin, of_decide_eq_true hsame, ?_⟩
  rw [operandIn, hlast]
  rfl

namespace Roles

/-- The operand in a role. -/
def operand? (roles : Roles) : Role → Option Operand
  | .register => roles.register
  | .rm => roles.rm

theorem requireRegister_eq_ok {roles : Roles} {r : Register} :
    roles.requireRegister = .ok r ↔ (roles.operand? .register).bind Operand.register? = some r := by
  unfold requireRegister operand?
  cases roles.register.bind Operand.register? <;> simp

theorem requireRm_eq_ok {roles : Roles} {o : Operand} :
    roles.requireRm = .ok o ↔ roles.operand? .rm = some o := by
  unfold requireRm operand?
  cases roles.rm <;> simp

/-- One more operand takes the role of its slot and leaves the others. -/
theorem operand?_assign {withSegment : Bool} {roles roles' : Roles} {slot : Shape × Operand}
    (h : roles.assign withSegment slot = .ok roles') (role : Role) :
    roles'.operand? role =
      if slot.1.role? withSegment = some role then some slot.2 else roles.operand? role := by
  obtain ⟨s, o⟩ := slot
  cases s with
  | imm w | immSigned w =>
    simp only [assign, assign.immediate] at h
    split at h <;> cases h
    rfl
  | rel w =>
    simp only [assign] at h
    split at h <;> cases h
    rfl
  | reg w =>
    cases withSegment <;> cases h <;> cases role <;> rfl
  | one | fixed | segment | rm | rmDefault | mem | memAny =>
    cases h
    cases role <;> rfl

theorem operand?_empty (role : Role) : empty.operand? role = none := by
  cases role <;> rfl

/-- What is in a role has it from its slot. -/
theorem exists_slot_of_operand? {shapes : List Shape} {operands : List Operand} {roles : Roles}
    (h : ofSlots shapes operands = .ok roles) {role : Role} {o : Operand}
    (ho : roles.operand? role = some o) :
    ∃ slot ∈ shapes.zip operands, slot.1.role? (shapes.contains .segment) = some role ∧ slot.2 = o := by
  have hkeeps := foldlM_keeps (P := fun roles : Roles => ∀ o, roles.operand? role = some o →
      ∃ slot ∈ shapes.zip operands,
        slot.1.role? (shapes.contains .segment) = some role ∧ slot.2 = o)
    (fun before slot after hslot hkeep hassign o ho => ?_) (fun o ho => ?_) h
  · exact hkeeps o ho
  · rw [operand?_assign hassign] at ho
    by_cases hrole : slot.1.role? (shapes.contains .segment) = some role
    · rw [if_pos hrole, Option.some.injEq] at ho
      exact ⟨slot, hslot, hrole, ho⟩
    · rw [if_neg hrole] at ho
      exact hkeep o ho
  · rw [operand?_empty] at ho
    cases ho

/-- The operand in a role is that of the last slot with the role. -/
theorem operand?_eq_operandIn {shapes : List Shape} {operands : List Operand} {roles : Roles}
    (h : ofSlots shapes operands = .ok roles) (role : Role) :
    roles.operand? role = role.operandIn shapes operands := by
  let inRole : Shape × Operand → Bool :=
    fun slot => slot.1.role? (shapes.contains .segment) = some role
  let lastOf (slots : List (Shape × Operand)) (before : Roles) : Option Operand :=
    ((slots.filter inRole).getLast?.map Prod.snd).or (before.operand? role)
  -- What the slots left and the roles so far come to does not change on the way.
  have hkeeps := foldlM_rest (I := fun slots before =>
      lastOf slots before = role.operandIn shapes operands)
    (fun slot slots before after hinv hassign => ?_) ?_ h
  · simpa [lastOf] using hkeeps
  · rw [← hinv]
    have hafter := operand?_assign hassign role
    by_cases hrole : inRole slot = true
    · rw [if_pos (of_decide_eq_true hrole)] at hafter
      simp only [lastOf, List.filter_cons_of_pos hrole, List.getLast?_cons, hafter]
      cases (slots.filter inRole).getLast? <;> rfl
    · rw [if_neg (by simpa [inRole] using hrole)] at hafter
      simp only [lastOf, List.filter_cons_of_neg hrole, hafter]
  · simp only [lastOf, operand?_empty, Option.or_none]
    rfl

/-- The immediate field of a value in a slot. -/
def ImmediateFrom (slot : Shape × Operand) (f : Field) : Prop :=
  ∃ w signed i, slot.1.immediateField? = some (w, signed) ∧ slot.2.immediate? = some i ∧
    f = .ofImmediate w.bytes i signed

/-- The branch field of a target in a slot. -/
def BranchFrom (slot : Shape × Operand) (f : Field) : Prop :=
  ∃ w i, slot.1 = .rel w ∧ slot.2.immediate? = some i ∧ f = .later w.bytes i.value.expr true

/-- One more operand fills one field at most. -/
theorem assign_fields {withSegment : Bool} {roles roles' : Roles} {slot : Shape × Operand}
    (h : roles.assign withSegment slot = .ok roles') :
    (roles'.imm = roles.imm ∨ ImmediateFrom slot roles'.imm) ∧
      (roles'.rel = roles.rel ∨ BranchFrom slot roles'.rel) := by
  obtain ⟨s, o⟩ := slot
  cases s with
  | imm w | immSigned w =>
    simp only [assign, assign.immediate] at h
    split at h
    · rename_i i hi
      cases h
      exact ⟨.inr ⟨w, _, i, rfl, hi, rfl⟩, .inl rfl⟩
    · cases h
  | rel w =>
    simp only [assign] at h
    split at h
    · rename_i i hi
      cases h
      exact ⟨.inl rfl, .inr ⟨w, i, rfl, hi, rfl⟩⟩
    · cases h
  | reg w =>
    simp only [assign] at h
    split at h <;> cases h <;> exact ⟨.inl rfl, .inl rfl⟩
  | one | fixed | segment | rm | rmDefault | mem | memAny =>
    cases h
    exact ⟨.inl rfl, .inl rfl⟩

/-- **The fields of a form**: each is absent, or that of a value in one of the slots. -/
theorem ofSlots_fields {shapes : List Shape} {operands : List Operand} {roles : Roles}
    (h : ofSlots shapes operands = .ok roles) :
    (roles.imm = .absent ∨ ∃ slot ∈ shapes.zip operands, ImmediateFrom slot roles.imm) ∧
      (roles.rel = .absent ∨ ∃ slot ∈ shapes.zip operands, BranchFrom slot roles.rel) := by
  refine foldlM_keeps
    (P := fun r => (r.imm = .absent ∨ ∃ slot ∈ shapes.zip operands, ImmediateFrom slot r.imm) ∧
      (r.rel = .absent ∨ ∃ slot ∈ shapes.zip operands, BranchFrom slot r.rel))
    (fun r slot r' hs hr hstep => ?_) ⟨.inl rfl, .inl rfl⟩ h
  obtain ⟨himm, hrel⟩ := assign_fields hstep
  constructor
  · rcases himm with he | hfrom
    · rw [he]; exact hr.1
    · exact .inr ⟨slot, hs, hfrom⟩
  · rcases hrel with he | hfrom
    · rw [he]; exact hr.2
    · exact .inr ⟨slot, hs, hfrom⟩

end Roles

/-- Where an instruction holds the code of an operand. -/
inductive CodePlace where
  /-- The register part of the ModR/M byte. -/
  | reg
  /-- The r/m part of the ModR/M byte. -/
  | rm
  /-- The low bits of the opcode. -/
  | opcode
deriving DecidableEq

/-- The role of what stands at a place. -/
def CodePlace.role : CodePlace → Role
  | .reg | .opcode => .register
  | .rm => .rm

/-- The places that a layout uses. -/
def OperandLayout.places : OperandLayout → List CodePlace
  | .np | .i | .d => []
  | .o | .oi => [.opcode]
  | .m | .mi => [.rm]
  | .mr | .rm | .rmi => [.reg, .rm]

namespace OperandFields

theorem withRm_eq_ok {f g : OperandFields} {reg : Nat} {o : Operand} {mode : Mode}
    (h : f.withRm reg o mode = .ok g) :
    (∃ r, o.kind = .register r ∧ g = f.rmRegister reg r) ∨
      ∃ m a, o.kind = .memory m ∧ m.encode mode = .ok a ∧ g = f.rmAddress reg a := by
  unfold withRm at h
  split at h
  · rename_i r hr
    cases h
    exact .inl ⟨r, hr, rfl⟩
  · rename_i m hm
    rw [bind_eq_ok] at h
    obtain ⟨a, ha, h⟩ := h
    cases h
    exact .inr ⟨m, a, hm, ha, rfl⟩
  · cases h

/-- Where the displacement of a form comes from: there is none and no address, or it is that of
an encoded address. -/
def DisplacementFrom (mode : Mode) (f : OperandFields) : Prop :=
  f.disp = .absent ∨ ∃ m a, Memory.encode m mode = .ok a ∧ f.disp = a.disp ∧ f.addressSize = some a.width

theorem withRm_displacement {f g : OperandFields} {reg : Nat} {o : Operand} {mode : Mode}
    (hf : f.disp = .absent) (h : f.withRm reg o mode = .ok g) :
    g.imm = f.imm ∧ g.rel = f.rel ∧ g.DisplacementFrom mode := by
  rcases withRm_eq_ok h with ⟨r, -, rfl⟩ | ⟨m, a, -, ha, rfl⟩
  · exact ⟨rfl, rfl, .inl hf⟩
  · exact ⟨rfl, rfl, .inr ⟨m, a, ha, rfl, rfl⟩⟩

theorem length_of_encode {layout : OperandLayout} {shapes : List Shape} {digit : Option Nat}
    {wide : Bool} {operands : List Operand} {mode : Mode} {f : OperandFields}
    (h : encode layout shapes digit wide operands mode = .ok f) : shapes.length = operands.length := by
  unfold encode at h
  exact not_ne_iff.1 (guard_eq_ok.1 h).1

/-- **The fields of a form by its layout.** The operands have their roles; then there is nothing to
add, a register goes to the opcode, an operand to the r/m part beside the opcode extension, or one
register to the register part and another operand to the r/m part. -/
theorem encode_cases {layout : OperandLayout} {shapes : List Shape} {digit : Option Nat}
    {wide : Bool} {operands : List Operand} {mode : Mode} {f : OperandFields}
    (h : encode layout shapes digit wide operands mode = .ok f) :
    ∃ roles, Roles.ofSlots shapes operands = .ok roles ∧
      let fields := ofRoles roles (if wide then .set else .free)
      (layout.places = [] ∧ f = fields) ∨
      (layout.places = [.opcode] ∧ ∃ r, roles.requireRegister = .ok r ∧
        f = { fields with opcodeReg := some r.code, rex := { fields.rex with b := r.rexBit } }) ∨
      (layout.places = [.rm] ∧ ∃ d o, digit = some d ∧ roles.requireRm = .ok o ∧
        fields.withRm d o mode = .ok f) ∨
      (layout.places = [.reg, .rm] ∧ ∃ r o, roles.requireRegister = .ok r ∧ roles.requireRm = .ok o ∧
        { fields with rex := { fields.rex with r := r.rexBit } }.withRm r.code o mode = .ok f) := by
  unfold encode at h
  rw [guard_eq_ok] at h
  obtain ⟨-, h⟩ := h
  rw [bind_eq_ok] at h
  obtain ⟨roles, hroles, h⟩ := h
  refine ⟨roles, hroles, ?_⟩
  cases layout with
  | np | i | d =>
    cases h
    exact .inl ⟨rfl, rfl⟩
  | o | oi =>
    simp only [bind_eq_ok, pure_eq_ok] at h
    obtain ⟨r, hr, rfl⟩ := h
    exact .inr (.inl ⟨rfl, r, hr, rfl⟩)
  | m | mi =>
    cases digit with
    | none => cases h
    | some digit =>
      simp only [bind_eq_ok] at h
      obtain ⟨o, ho, h⟩ := h
      exact .inr (.inr (.inl ⟨rfl, digit, o, rfl, ho, h⟩))
  | mr | rm | rmi =>
    simp only [bind_eq_ok] at h
    obtain ⟨r, hr, o, ho, h⟩ := h
    exact .inr (.inr (.inr ⟨rfl, r, o, hr, ho, h⟩))

/-- What a form leaves in its fields: the immediate and the branch distance of its slots, and the
displacement of its address. -/
theorem encode_eq_ok {layout : OperandLayout} {shapes : List Shape} {digit : Option Nat}
    {wide : Bool} {operands : List Operand} {mode : Mode} {f : OperandFields}
    (h : encode layout shapes digit wide operands mode = .ok f) :
    ∃ roles, Roles.ofSlots shapes operands = .ok roles ∧ f.imm = roles.imm ∧ f.rel = roles.rel ∧
      f.DisplacementFrom mode := by
  obtain ⟨roles, hroles, h⟩ := encode_cases h
  refine ⟨roles, hroles, ?_⟩
  rcases h with ⟨-, rfl⟩ | ⟨-, r, -, rfl⟩ | ⟨-, d, o, -, -, h⟩ | ⟨-, r, o, -, -, h⟩
  · exact ⟨rfl, rfl, .inl rfl⟩
  · exact ⟨rfl, rfl, .inl rfl⟩
  · exact withRm_displacement rfl h
  · exact withRm_displacement rfl h

end OperandFields

/-! ## Rows -/

namespace Row

/-- A row that has an encoding: the size of the operation is one of the mode, the operands have
fields, a REX byte is one of 64-bit mode, and the whole is not too long. -/
theorem encode_eq_ok {row : Row} {operands : List Operand} {prefixes : PrefixBytes} {mode : Mode}
    {span : Span} {e : Instruction} (h : row.encode operands prefixes mode span = .ok e) :
    ∃ operandSize wide f rex, row.sizeSwitches mode = .ok (operandSize, wide) ∧
      OperandFields.encode row.layout row.shapes row.digit wide operands mode = .ok f ∧
      f.rex.compose = .ok rex ∧ (rex.isSome = true → mode = .bits64) ∧
      e = row.assembled prefixes operandSize mode f rex span ∧ e.size ≤ maxSize := by
  unfold encode at h
  simp only [bind_eq_ok] at h
  obtain ⟨⟨operandSize, wide⟩, hsize, f, hf, rex, hrex, h⟩ := h
  rw [guard_eq_ok] at h
  obtain ⟨hmode, h⟩ := h
  rw [guard_eq_ok] at h
  obtain ⟨hlen, h⟩ := h
  cases h
  refine ⟨operandSize, wide, f, rex, hsize, hf, hrex, fun hr => ?_, rfl, Nat.le_of_not_lt hlen⟩
  simpa [hr] using hmode

/-- What every row of the table has: an opcode of one to three bytes, and one slot for values at
most. -/
def WellFormed (row : Row) : Prop :=
  1 ≤ row.opcode.length ∧ row.opcode.length ≤ 3 ∧ row.shapes.countP Shape.takesImmediate ≤ 1

instance (row : Row) : Decidable row.WellFormed := inferInstanceAs (Decidable (_ ∧ _ ∧ _))

theorem WellFormed.length_opcode {row : Row} (h : row.WellFormed) (reg : Option Nat) :
    (row.opcodeWith reg).bytes.length = row.opcode.length := by
  cases reg with
  | none => rw [opcodeWith, Opcode.bytes_ofBytes h.2.1]
  | some r =>
    rw [opcodeWith, Opcode.bytes_ofBytes (by rw [List.length_modify]; exact h.2.1),
      List.length_modify]

/-- **An instruction takes room**, and never too much. -/
theorem WellFormed.size_encode {row : Row} (hw : row.WellFormed) {operands : List Operand}
    {prefixes : PrefixBytes} {mode : Mode} {span : Span} {e : Instruction}
    (h : row.encode operands prefixes mode span = .ok e) : 1 ≤ e.size ∧ e.size ≤ 15 := by
  obtain ⟨operandSize, wide, f, rex, -, -, -, -, rfl, hmax⟩ := encode_eq_ok h
  refine ⟨?_, hmax⟩
  have hop := hw.length_opcode f.opcodeReg
  have hpos := hw.1
  simp only [Instruction.size, Instruction.header, assembled, List.length_append]
  omega

end Row

theorem Table.rows_wellFormed : ∀ entry ∈ Table.entries, ∀ row ∈ entry.2, row.WellFormed := by
  decide +kernel

theorem Table.mem_entries {mnemonic : String} {rows : List Row} (h : rows? mnemonic = some rows) :
    (mnemonic, rows) ∈ entries := by
  obtain ⟨before, after, heq, -⟩ := List.lookup_eq_some_iff.1 h
  rw [heq]
  simp

/-! ## Attempts -/

namespace Attempt

theorem toOption_conclude (mnemonic : String) (span : Span) (attempts : List Attempt) :
    (conclude mnemonic span attempts).toOption = attempts.findSome? instruction? := by
  unfold conclude
  cases attempts.findSome? instruction? with
  | some i => rfl
  | none => cases attempts.filterMap error? <;> rfl

theorem findSome?_untilEncoded (attempt : Row → Attempt) (rows : List Row) :
    (untilEncoded attempt rows).findSome? instruction? =
      rows.findSome? fun row => (attempt row).instruction? := by
  induction rows with
  | nil => rfl
  | cons row rows ih =>
    simp only [untilEncoded]
    cases ha : (attempt row).instruction? with
    | some i => simp [ha]
    | none => simp [ha, ih]

theorem instruction?_ofRow (operands : List Operand) (prefixes : PrefixBytes) (mode : Mode)
    (span : Span) (row : Row) :
    (ofRow operands prefixes mode span row).instruction? =
      if Shape.acceptAll row.shapes operands then
        (row.encode operands prefixes mode span).toOption
      else none := by
  unfold ofRow
  cases Shape.acceptAll row.shapes operands with
  | false => rfl
  | true => cases row.encode operands prefixes mode span <;> rfl

end Attempt

namespace ParsedInstruction

/-- **The encoding of an instruction**, without diagnostics: that of the first row of its mnemonic
and of the mode which takes the operands and has one. -/
theorem toOption_encode (t : String → Option Interval) (mode : Mode) (i : ParsedInstruction) :
    (i.encode t mode).toOption = (Table.rows? i.mnemonic).bind fun rows =>
      (ParsedOperand.evaluateAll t i.operands).toOption.bind fun operands =>
        (PrefixBytes.compose i.prefixes operands).toOption.bind fun prefixes =>
          (rows.filter fun row => row.modes.contains mode).findSome? fun row =>
            if Shape.acceptAll row.shapes operands then
              (row.encode operands prefixes mode i.span).toOption
            else none := by
  rw [encode, toOption_bind]
  simp only [Attempt.toOption_conclude, attempts]
  cases Table.rows? i.mnemonic with
  | none => rfl
  | some rows =>
    simp only [Option.bind_some, toOption_bind, toOption_mapError, Option.bind_assoc]
    congr 1
    funext operands
    congr 1
    funext prefixes
    refine (Attempt.findSome?_untilEncoded _ _).trans ?_
    simp only [Attempt.instruction?_ofRow]

/-- **An encoded instruction is that of a row**: one of its mnemonic and of the mode, which takes
the operands. -/
theorem encode_eq_ok {symbols : String → Option Interval} {mode : Mode} {i : ParsedInstruction}
    {e : Instruction} (h : i.encode symbols mode = .ok e) :
    ∃ rows row operands prefixes, Table.rows? i.mnemonic = some rows ∧ row ∈ rows ∧
      mode ∈ row.modes ∧ ParsedOperand.evaluateAll symbols i.operands = .ok operands ∧
      PrefixBytes.compose i.prefixes operands = .ok prefixes ∧
      Shape.acceptAll row.shapes operands = true ∧
      row.encode operands prefixes mode i.span = .ok e := by
  rw [← toOption_eq_some, toOption_encode] at h
  simp only [Option.bind_eq_some_iff, toOption_eq_some] at h
  obtain ⟨rows, hrows, operands, hops, prefixes, hpre, h⟩ := h
  obtain ⟨row, hrow, henc⟩ := List.exists_of_findSome?_eq_some h
  obtain ⟨hacc, henc⟩ := Option.ite_none_right_eq_some.1 henc
  rw [List.mem_filter, List.contains_iff_mem] at hrow
  exact ⟨rows, row, operands, prefixes, hrows, hrow.1, hrow.2, hops, hpre, hacc, toOption_eq_some.1 henc⟩

theorem wellFormed_of_rows? {mnemonic : String} {rows : List Row} {row : Row}
    (h : Table.rows? mnemonic = some rows) (hrow : row ∈ rows) : row.WellFormed :=
  Table.rows_wellFormed _ (Table.mem_entries h) row hrow

theorem size_encode {symbols : String → Option Interval} {mode : Mode} {i : ParsedInstruction}
    {e : Instruction} (h : i.encode symbols mode = .ok e) : 1 ≤ e.size ∧ e.size ≤ 15 := by
  obtain ⟨rows, row, operands, prefixes, hrows, hrow, -, -, -, -, henc⟩ := encode_eq_ok h
  exact (wellFormed_of_rows? hrows hrow).size_encode henc

end ParsedInstruction
end IntelAsm
