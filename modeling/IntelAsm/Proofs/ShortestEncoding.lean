/-
How long the encodings of an instruction are. The length splits into what the
row needs whatever its operands are (`Row.ownSize`: the opcode, the ModR/M byte and
the fields of its slots) and what the operands need whichever row they are encoded
by (`Row.sharedSize`: prefixes, size bytes, a REX byte and addresses), because all
rows that take the same operands have the same operand size.

In the table a row stands in front of the larger ones that can take the same
operands (`Table.rows_ordered`), with one exception. So the first encoding that
is found is a shortest one, but for `xchg eax, eax` in 64-bit mode
(`ParsedInstruction.encode_shortest`).
-/
import Mathlib
import IntelAsm.Proofs.InstructionLength
import IntelAsm.Proofs.RowOverlap

namespace IntelAsm

/-! ## What an operand needs -/

namespace Operand

/-- The encoded address of an operand in memory. -/
def address? (o : Operand) (mode : Mode) : Option AddressForm :=
  o.memory?.bind fun m => (m.encode mode).toOption

/-- The bytes of an operand beside the ModR/M byte: none but for an address, which has an address-size
byte, a SIB byte and a displacement. -/
def addressSize (mode : Mode) (o : Operand) : Nat :=
  ((o.address? mode).map fun a =>
    (decide (a.width ≠ mode.addressWidth)).toNat + a.sib.toList.length + a.disp.size).getD 0

/-- The number of bits of the REX byte that the operand can only have with that byte. -/
def rexDemands (mode : Mode) (o : Operand) : Nat :=
  ((o.register?.map fun r => r.rexBit.demands.toNat).getD 0) +
    ((o.address? mode).map fun a => a.rexX.demands.toNat + a.rexB.demands.toNat).getD 0

variable {o : Operand} {mode : Mode}

theorem addressSize_of_memory? (h : o.memory? = none) : o.addressSize mode = 0 := by
  simp [addressSize, address?, h]

theorem rexDemands_of_memory? (h : o.memory? = none) :
    o.rexDemands mode = (o.register?.map fun r => r.rexBit.demands.toNat).getD 0 := by
  simp [rexDemands, address?, h]

theorem addressSize_of_register {r : Register} (h : o.kind = .register r) : o.addressSize mode = 0 :=
  addressSize_of_memory? (by rw [memory?, h])

theorem rexDemands_of_register {r : Register} (h : o.kind = .register r) :
    o.rexDemands mode = r.rexBit.demands.toNat := by
  have hm : o.memory? = none := by rw [memory?, h]
  have hr : o.register? = some r := by rw [register?, h]
  rw [rexDemands_of_memory? hm, hr]
  rfl

theorem addressSize_of_memory {m : Memory} {a : AddressForm} (h : o.kind = .memory m)
    (ha : m.encode mode = .ok a) : o.addressSize mode =
      (decide (a.width ≠ mode.addressWidth)).toNat + a.sib.toList.length + a.disp.size := by
  have hm : o.memory? = some m := by rw [memory?, h]
  simp only [addressSize, address?, hm, Option.bind_some, ha, toOption_ok, Option.map_some,
    Option.getD_some]

theorem rexDemands_of_memory {m : Memory} {a : AddressForm} (h : o.kind = .memory m)
    (ha : m.encode mode = .ok a) :
    o.rexDemands mode = a.rexX.demands.toNat + a.rexB.demands.toNat := by
  have hm : o.memory? = some m := by rw [memory?, h]
  have hr : o.register? = none := by rw [register?, h]
  simp only [rexDemands, address?, hm, hr, Option.bind_some, ha, toOption_ok, Option.map_some,
    Option.map_none, Option.getD_some, Option.getD_none, Nat.zero_add]

end Operand

/-! ## Roles -/

namespace Roles

/-- What the operands in roles weigh together. -/
def weight (roles : Roles) (of : Operand → Nat) : Nat :=
  (roles.register.map of).getD 0 + (roles.rm.map of).getD 0

/-- One more operand in a free role adds its weight, and one without a role should have none. -/
theorem weight_assign {of : Operand → Nat} {withSegment : Bool} {roles roles' : Roles}
    {slot : Shape × Operand}
    (hfree : ∀ role, slot.1.role? withSegment = some role → roles.operand? role = none)
    (hnone : slot.1.role? withSegment = none → of slot.2 = 0)
    (h : roles.assign withSegment slot = .ok roles') :
    roles'.weight of = roles.weight of + of slot.2 := by
  have hregister : roles'.register =
      if slot.1.role? withSegment = some .register then some slot.2 else roles.register :=
    operand?_assign h .register
  have hrm : roles'.rm = if slot.1.role? withSegment = some .rm then some slot.2 else roles.rm :=
    operand?_assign h .rm
  cases hrole : slot.1.role? withSegment with
  | none =>
    simp [weight, hregister, hrm, hrole, hnone hrole]
  | some role =>
    have hempty := hfree role hrole
    cases role with
    | register =>
      have hempty : roles.register = none := hempty
      simp [weight, hregister, hrm, hrole, hempty, Nat.add_comm]
    | rm =>
      have hempty : roles.rm = none := hempty
      simp [weight, hregister, hrm, hrole, hempty]

/-- Roles and slots that are left, where no role is filled twice. -/
def Once (withSegment : Bool) (slots : List (Shape × Operand)) (roles : Roles) : Prop :=
  ∀ role, (roles.operand? role).isSome.toNat +
    slots.countP (fun slot => slot.1.role? withSegment = some role) ≤ 1

theorem Once.free {withSegment : Bool} {slot : Shape × Operand} {slots : List (Shape × Operand)}
    {roles : Roles} (h : Once withSegment (slot :: slots) roles) {role : Role}
    (hrole : slot.1.role? withSegment = some role) : roles.operand? role = none := by
  have honce := h role
  rw [List.countP_cons, if_pos (by simpa using hrole)] at honce
  cases hoperand : roles.operand? role with
  | none => rfl
  | some o =>
    rw [hoperand, Option.isSome_some, Bool.toNat_true] at honce
    omega

theorem Once.assign {withSegment : Bool} {slot : Shape × Operand} {slots : List (Shape × Operand)}
    {roles roles' : Roles} (h : Once withSegment (slot :: slots) roles)
    (hassign : roles.assign withSegment slot = .ok roles') : Once withSegment slots roles' := by
  intro role
  have honce := h role
  rw [List.countP_cons] at honce
  rw [operand?_assign hassign role]
  by_cases hrole : slot.1.role? withSegment = some role
  · rw [if_pos (by simpa using hrole)] at honce
    rw [if_pos hrole, Option.isSome_some, Bool.toNat_true]
    omega
  · rw [if_neg (by simpa using hrole)] at honce
    rw [if_neg hrole]
    omega

/-- **The operands of a form weigh what those in roles weigh**, if no role is given twice and an operand
without a role weighs nothing. -/
theorem weight_ofSlots {of : Operand → Nat} {shapes : List Shape} {operands : List Operand}
    {roles : Roles} (hlen : shapes.length = operands.length)
    (honce : ∀ role, shapes.countP (fun s => s.role? (shapes.contains .segment) = some role) ≤ 1)
    (hnone : ∀ slot ∈ shapes.zip operands,
      slot.1.role? (shapes.contains .segment) = none → of slot.2 = 0)
    (h : ofSlots shapes operands = .ok roles) : roles.weight of = (operands.map of).sum := by
  have hshapes : (shapes.zip operands).map Prod.fst = shapes := List.map_fst_zip hlen.le
  have hoperands : (shapes.zip operands).map Prod.snd = operands := List.map_snd_zip hlen.ge
  -- The weight so far and the weight to come add up to the same at every step.
  have hall := foldlM_rest (I := fun slots roles =>
      Once (shapes.contains .segment) slots roles ∧
      (∀ slot ∈ slots, slot.1.role? (shapes.contains .segment) = none → of slot.2 = 0) ∧
      roles.weight of + ((slots.map Prod.snd).map of).sum = (operands.map of).sum)
    (fun slot slots before after hinv hassign => ?_) ⟨fun role => ?_, hnone, ?_⟩ h
  · simpa using hall.2.2
  · obtain ⟨honce, hsilent, hsum⟩ := hinv
    have hweight := weight_assign (fun role => honce.free) (hsilent slot (by simp)) hassign
    refine ⟨honce.assign hassign, fun other hmem => hsilent other (by simp [hmem]), ?_⟩
    simp only [List.map_cons, List.sum_cons] at hsum
    omega
  · have hcount : ((shapes.zip operands).map Prod.fst).countP
        (fun s => s.role? (shapes.contains .segment) = some role) ≤ 1 := by
      rw [hshapes]
      exact honce role
    rw [List.countP_map] at hcount
    rw [operand?_empty, Option.isSome_none, Bool.toNat_false, Nat.zero_add]
    exact hcount
  · simp [weight, empty, hoperands]

end Roles

/-! ## The REX byte -/

@[simp]
theorem RexBit.demands_free : RexBit.free.demands = false := rfl

@[simp]
theorem RexBit.toNat_demands_wide (wide : Bool) :
    (if wide then RexBit.set else .free).demands.toNat = wide.toNat := by
  cases wide <;> rfl

/-- The number of bits that are asked for and need the REX byte. -/
def RexRequest.demanded (q : RexRequest) : Nat := (q.bits.map fun bit => bit.demands.toNat).sum

theorem RexRequest.demanded_eq (q : RexRequest) : q.demanded =
    q.w.demands.toNat + q.r.demands.toNat + q.x.demands.toNat + q.b.demands.toNat := by
  simp [demanded, bits, Nat.add_assoc]

theorem RexRequest.length_compose {q : RexRequest} {rex : Option UInt8} (h : q.compose = .ok rex) :
    rex.toList.length = min q.demanded 1 := by
  unfold compose at h
  split at h
  · rename_i hnone
    cases h
    have hzero : q.demanded = 0 := List.sum_eq_zero (by simpa using hnone)
    rw [hzero]
    rfl
  · rename_i hsome
    cases (guard_eq_ok.1 h).2
    have hany : ∃ bit ∈ q.bits, bit.demands = true := by simpa using hsome
    obtain ⟨bit, hbit, hdemands⟩ := hany
    have hle : bit.demands.toNat ≤ q.demanded := List.le_sum_of_mem (List.mem_map_of_mem hbit)
    rw [hdemands, Bool.toNat_true] at hle
    exact (Nat.min_eq_right hle).symm

/-! ## The bytes of a form -/

namespace OperandFields

variable {layout : OperandLayout} {shapes : List Shape} {digit : Option Nat} {wide : Bool}
  {operands : List Operand} {mode : Mode} {f : OperandFields} {roles : Roles}

/-- An operand in the r/m part adds the ModR/M byte, the bytes of its address and its REX bits. -/
theorem withRm_needs {g : OperandFields} {reg : Nat} {o : Operand} (hrm : f.rmSize mode = 0)
    (hx : f.rex.x = .free) (hb : f.rex.b = .free) (h : f.withRm reg o mode = .ok g) :
    g.rmSize mode = 1 + o.addressSize mode ∧
      g.rex.demanded = f.rex.demanded + o.rexDemands mode := by
  simp only [rmSize] at hrm
  rcases withRm_eq_ok h with ⟨r, hk, rfl⟩ | ⟨m, a, hk, ha, rfl⟩
  · rw [Operand.addressSize_of_register hk, Operand.rexDemands_of_register hk]
    constructor
    · simp only [rmSize, rmRegister, Option.toList_some, List.length_singleton]
      omega
    · simp only [RexRequest.demanded_eq, rmRegister, hx, hb, RexBit.demands_free, Bool.toNat_false,
        Nat.add_zero]
  · rw [Operand.addressSize_of_memory hk ha, Operand.rexDemands_of_memory hk ha]
    constructor
    · simp only [rmSize, rmAddress, Option.any_some, Option.toList_some, List.length_singleton]
      omega
    · simp only [RexRequest.demanded_eq, rmAddress, hx, hb, RexBit.demands_free, Bool.toNat_false]
      omega

/-- **What the operands of a form need** is what those in roles need, if the layout has a place for every
role that is filled. -/
theorem encode_needs (h : encode layout shapes digit wide operands mode = .ok f)
    (hroles : Roles.ofSlots shapes operands = .ok roles)
    (hplaces : ∀ role o, roles.operand? role = some o → ∃ place ∈ layout.places, place.role = role) :
    f.rmSize mode =
        (if .rm ∈ layout.places then 1 else 0) + roles.weight (Operand.addressSize mode) ∧
      f.rex.demanded = wide.toNat + roles.weight (Operand.rexDemands mode) := by
  -- A role without a place is empty.
  have hempty : ∀ role, (∀ place ∈ layout.places, place.role ≠ role) → roles.operand? role = none := by
    intro role hnone
    cases ho : roles.operand? role with
    | none => rfl
    | some o =>
      obtain ⟨place, hmem, hrole⟩ := hplaces role o ho
      exact absurd hrole (hnone place hmem)
  have hweight : ∀ of, roles.weight of =
      ((roles.operand? .register).map of).getD 0 + ((roles.operand? .rm).map of).getD 0 := fun _ => rfl
  obtain ⟨roles', hroles', hcases⟩ := encode_cases h
  cases hroles.symm.trans hroles'
  rcases hcases with ⟨hlayout, rfl⟩ | ⟨hlayout, r, hr, rfl⟩ | ⟨hlayout, d, o, -, ho, h⟩ |
    ⟨hlayout, r, o, hr, ho, h⟩
  · simp [hweight, hempty, hlayout, rmSize, ofRoles, RexRequest.demanded_eq, RexRequest.free,
      Field.absent]
  · obtain ⟨o, ho, hor⟩ := Option.bind_eq_some_iff.1 (Roles.requireRegister_eq_ok.1 hr)
    have hk := Operand.kind_of_register? hor
    have hrm := hempty .rm (by rw [hlayout]; decide)
    rw [hweight, hweight, ho, hrm, hlayout]
    simp [rmSize, ofRoles, RexRequest.demanded_eq, RexRequest.free, Field.absent,
      Operand.addressSize_of_register hk, Operand.rexDemands_of_register hk]
  · have hregister := hempty .register (by rw [hlayout]; decide)
    obtain ⟨hsize, hrex⟩ := withRm_needs rfl rfl rfl h
    rw [hweight, hweight, Roles.requireRm_eq_ok.1 ho, hregister, hlayout, hsize, hrex]
    simp [ofRoles, RexRequest.demanded_eq, RexRequest.free]
  · obtain ⟨o', ho', hor⟩ := Option.bind_eq_some_iff.1 (Roles.requireRegister_eq_ok.1 hr)
    have hk := Operand.kind_of_register? hor
    obtain ⟨hsize, hrex⟩ := withRm_needs rfl rfl rfl h
    rw [hweight, hweight, Roles.requireRm_eq_ok.1 ho, ho', hlayout, hsize, hrex]
    simp [ofRoles, RexRequest.demanded_eq, RexRequest.free, Operand.addressSize_of_register hk,
      Operand.rexDemands_of_register hk, Nat.add_assoc]

end OperandFields

/-! ## Rows -/

/-- The register that a slot is for. -/
def Shape.fixedRegister? : Shape → Option Register
  | .fixed r => some r
  | _ => none

namespace Row

/-- The bytes that the instructions of a row have whatever their operands are: the opcode, the ModR/M byte
and the fields of the slots. -/
def ownSize (row : Row) : Nat :=
  row.opcode.length + (if .rm ∈ row.layout.places then 1 else 0) + (row.shapes.map Shape.fieldSize).sum

/-- The registers that the row is for have no need of a REX byte. -/
def Plain (row : Row) : Prop :=
  ∀ s ∈ row.shapes, ∀ r ∈ s.fixedRegister?, r.rexBit.demands = false

instance (row : Row) : Decidable row.Plain := inferInstanceAs (Decidable (∀ s ∈ row.shapes, _))

variable {row : Row} {operands : List Operand} {prefixes : PrefixBytes} {mode : Mode} {span : Span}
  {e : Instruction}

/-- An operand in a slot without a role needs nothing beside the field of the slot. -/
theorem Plain.needs_nothing (hplain : row.Plain) (hacc : Shape.acceptAll row.shapes operands = true)
    {slot : Shape × Operand} (hslot : slot ∈ row.shapes.zip operands)
    (hrole : slot.1.role? (row.shapes.contains .segment) = none) :
    slot.2.addressSize mode = 0 ∧ slot.2.rexDemands mode = 0 := by
  have hamong := Shape.acceptsAmong_of_mem hacc hslot
  cases hk : slot.2.kind with
  | register r =>
    have hm : slot.2.memory? = none := by rw [Operand.memory?, hk]
    rw [Operand.addressSize_of_register hk, Operand.rexDemands_of_register hk]
    rcases Shape.accepts_register (Shape.accepts_of_acceptsAmong hamong hm) hk with
      hs | ⟨hs, -⟩ | ⟨hs, -⟩
    · have hdemands := hplain slot.1 (List.of_mem_zip hslot).1 r (by rw [hs]; rfl)
      exact ⟨rfl, by rw [hdemands]; rfl⟩
    · rw [hs] at hrole
      cases hrole
    · simp only [List.mem_cons, List.not_mem_nil, or_false] at hs
      rcases hs with hs | hs | hs <;> rw [hs] at hrole <;> cases hrole
  | immediate i =>
    have hm : slot.2.memory? = none := by rw [Operand.memory?, hk]
    have hr : slot.2.register? = none := by rw [Operand.register?, hk]
    rw [Operand.addressSize_of_memory? hm, Operand.rexDemands_of_memory? hm, hr]
    exact ⟨rfl, rfl⟩
  | memory m =>
    rw [Shape.role?_of_isRm _ (Shape.isRm_of_acceptsAmong hamong hk)] at hrole
    cases hrole

theorem Placed.exists_mem_places (hp : row.Placed) {roles : Roles}
    (hroles : Roles.ofSlots row.shapes operands = .ok roles) {role : Role} {o : Operand}
    (ho : roles.operand? role = some o) : ∃ place ∈ row.layout.places, place.role = role := by
  obtain ⟨slot, hslot, hrole, -⟩ := Roles.exists_slot_of_operand? hroles ho
  obtain ⟨position, hposition⟩ := List.mem_iff_getElem?.1 (List.of_mem_zip hslot).1
  obtain ⟨place, hplace, hrole⟩ := hp.exists_place hposition hrole
  exact ⟨place, OperandLayout.place?_mem hplace, hrole⟩

/-- The bytes that every encoding of the operands has, whichever row it is of: the prefixes, the
operand-size byte, the REX byte and those of the addresses. -/
def sharedSize (operands : List Operand) (prefixes : PrefixBytes) (mode : Mode)
    (switches : Bool × Bool) : Nat :=
  prefixes.group1.toList.length + prefixes.group2.toList.length + switches.1.toNat +
    min (switches.2.toNat + (operands.map (Operand.rexDemands mode)).sum) 1 +
    (operands.map (Operand.addressSize mode)).sum

/-- **The length of an instruction**: what its row needs, and what its operands need. -/
theorem size_encode_eq (hw : row.WellFormed) (hp : row.Placed) (hplain : row.Plain)
    (hacc : Shape.acceptAll row.shapes operands = true)
    (h : row.encode operands prefixes mode span = .ok e) :
    ∃ switches, row.sizeSwitches mode = .ok switches ∧
      e.size = row.ownSize + sharedSize operands prefixes mode switches := by
  obtain ⟨operandSize, wide, f, rex, hsize, hf, hrex, -, rfl, -⟩ := encode_eq_ok h
  refine ⟨(operandSize, wide), hsize, ?_⟩
  obtain ⟨roles, hroles, -⟩ := OperandFields.encode_cases hf
  have hlen := Shape.length_of_acceptAll hacc
  have honce : ∀ role, row.shapes.countP
      (fun s => s.role? (row.shapes.contains .segment) = some role) ≤ 1 := by
    intro role
    exact hp.roles role (by cases role <;> simp)
  obtain ⟨hrm, hdemanded⟩ := OperandFields.encode_needs hf hroles fun role o => hp.exists_mem_places hroles
  rw [Roles.weight_ofSlots hlen honce (fun slot hslot hrole =>
    (hplain.needs_nothing hacc hslot hrole).1) hroles] at hrm
  rw [Roles.weight_ofSlots hlen honce (fun slot hslot hrole =>
    (hplain.needs_nothing hacc hslot hrole).2) hroles] at hdemanded
  have hfields := (OperandFields.encode_size hw.2.2 hf).2
  have hopcode := hw.length_opcode f.opcodeReg
  have hrexSize := RexRequest.length_compose hrex
  rw [hdemanded] at hrexSize
  simp only [OperandFields.rmSize] at hrm
  simp only [Instruction.size, Instruction.header, assembled, List.length_append, PrefixBytes.length_bytes,
    hopcode, hrexSize, ownSize, sharedSize]
  omega

/-- The exchange of `eax` with itself. The short form would do nothing in 64-bit mode, so that a longer
one stands in front of it. -/
def selfExchange : Row :=
  (form .np [accumulator .dword, accumulator .dword] [0x87, 0xC0] (some .dword)).onlyIn [.bits64]

/-- The short form of an exchange with `eax`. -/
def shortExchange : Row := form .o [accumulator .dword, .reg .dword] [0x90] (some .dword)

/-- The operands `eax, eax`. -/
def eaxTwice : List OperandKind := [.register (.accumulator .dword), .register (.accumulator .dword)]

theorem takes_selfExchange (h : selfExchange.Takes mode operands) :
    mode = .bits64 ∧ operands.map Operand.kind = eaxTwice := by
  obtain ⟨hmode, hacc⟩ := h
  refine ⟨List.mem_singleton.1 hmode, ?_⟩
  obtain ⟨o, o', rfl⟩ := List.length_eq_two.1 (Shape.length_of_acceptAll hacc).symm
  obtain ⟨s, hs, -, haccepts⟩ := Shape.exists_slot hacc (show [o, o'][0]? = some o from rfl)
  obtain ⟨s', hs', -, haccepts'⟩ := Shape.exists_slot hacc (show [o, o'][1]? = some o' from rfl)
  cases hs
  cases hs'
  simp only [accumulator, Shape.acceptsAmong, Shape.accepts, Shape.memoryWidth?, Bool.or_false,
    decide_eq_true_eq] at haccepts haccepts'
  rw [List.map_cons, List.map_cons, List.map_nil, Operand.kind_of_register? haccepts,
    Operand.kind_of_register? haccepts', eaxTwice]

/-- Both forms take `eax, eax` and have an encoding. -/
theorem exchange_eaxTwice (h : operands.map Operand.kind = eaxTwice) (prefixes : PrefixBytes)
    (span : Span) (row : Row) (hrow : row ∈ [selfExchange, shortExchange]) :
    row.Takes .bits64 operands ∧ ∃ e, row.encode operands prefixes .bits64 span = .ok e := by
  obtain ⟨o, rest, rfl, hk, hrest⟩ := List.map_eq_cons_iff.1 h
  obtain ⟨o', last, rfl, hk', hlast⟩ := List.map_eq_cons_iff.1 hrest
  cases List.map_eq_nil_iff.1 hlast
  obtain ⟨kind, size, span'⟩ := o
  obtain ⟨kind', size', span''⟩ := o'
  cases hk
  cases hk'
  simp only [List.mem_cons, List.not_mem_nil, or_false] at hrow
  rcases hrow with rfl | rfl
  · refine ⟨⟨by decide, rfl⟩, ?_⟩
    rw [WellFormed.encode_eq_unlimited (by decide) (by decide)]
    exact ⟨_, rfl⟩
  · refine ⟨⟨by decide, rfl⟩, ?_⟩
    rw [WellFormed.encode_eq_unlimited (by decide) (by decide)]
    exact ⟨_, rfl⟩

end Row

theorem Table.rows_plain : ∀ entry ∈ Table.entries, ∀ row ∈ entry.2, row.Plain := by
  decide +kernel

/-- Of rows that can take the same operands the first is the smallest, but for one. -/
theorem Table.rows_ordered : ∀ entry ∈ Table.entries,
    (.selfExchange ∈ entry.2 → entry.1 = "xchg") ∧
    entry.2.Pairwise fun row row' => row.competes row' = true →
      row = .selfExchange ∨ row.ownSize ≤ row'.ownSize := by
  decide +kernel

namespace ParsedInstruction

/-- **The row of an encoded instruction is the first that encodes it**: however the rows of its mnemonic
are ordered, it is so related to every other one that takes the operands and has an encoding. -/
theorem encode_first {symbols : String → Option Interval} {mode : Mode} {i : ParsedInstruction}
    {e : Instruction} (h : i.encode symbols mode = .ok e) :
    ∃ rows operands prefixes row, Table.rows? i.mnemonic = some rows ∧
      ParsedOperand.evaluateAll symbols i.operands = .ok operands ∧
      PrefixBytes.compose i.prefixes operands = .ok prefixes ∧
      row ∈ rows ∧ row.Takes mode operands ∧ row.encode operands prefixes mode i.span = .ok e ∧
      ∀ before : Row → Row → Prop, rows.Pairwise before → ∀ row' ∈ rows, row'.Takes mode operands →
        ∀ e', row'.encode operands prefixes mode i.span = .ok e' → row' = row ∨ before row row' := by
  rw [← toOption_eq_some, toOption_encode] at h
  simp only [Option.bind_eq_some_iff, toOption_eq_some] at h
  obtain ⟨rows, hrows, operands, hops, prefixes, hpre, h⟩ := h
  obtain ⟨earlier, row, later, hsplit, henc, hearlier⟩ := List.findSome?_eq_some_iff.1 h
  obtain ⟨hacc, henc⟩ := Option.ite_none_right_eq_some.1 henc
  have hrow : row ∈ rows.filter fun row => row.modes.contains mode := by
    rw [hsplit]
    exact List.mem_append_right earlier List.mem_cons_self
  rw [List.mem_filter, List.contains_iff_mem] at hrow
  refine ⟨rows, operands, prefixes, row, hrows, hops, hpre, hrow.1, ⟨hrow.2, hacc⟩,
    toOption_eq_some.1 henc, fun before hbefore row' hrow' htakes e' henc' => ?_⟩
  have hmem : row' ∈ earlier ++ row :: later := by
    rw [← hsplit, List.mem_filter, List.contains_iff_mem]
    exact ⟨hrow', htakes.1⟩
  have hpairs := hbefore.filter fun row => row.modes.contains mode
  rw [hsplit, List.pairwise_append, List.pairwise_cons] at hpairs
  rcases List.mem_append.1 hmem with hmem | hmem
  · have hnone := hearlier row' hmem
    rw [if_pos htakes.2, henc'] at hnone
    cases hnone
  · rcases List.mem_cons.1 hmem with rfl | hmem
    · exact .inl rfl
    · exact .inr (hpairs.2.1.1 row' hmem)

/-- **The first encoding is a shortest one.** An encoded instruction is that of a row of its mnemonic which
exists in the mode and takes the operands, and no such row has a shorter encoding of them, with one
exception: `xchg eax, eax` in 64-bit mode, where there always is one. -/
theorem encode_shortest {symbols : String → Option Interval} {mode : Mode} {i : ParsedInstruction}
    {e : Instruction} (h : i.encode symbols mode = .ok e) :
    ∃ rows operands prefixes row, Table.rows? i.mnemonic = some rows ∧
      ParsedOperand.evaluateAll symbols i.operands = .ok operands ∧
      PrefixBytes.compose i.prefixes operands = .ok prefixes ∧
      row ∈ rows ∧ row.Takes mode operands ∧ row.encode operands prefixes mode i.span = .ok e ∧
      ((∀ row' ∈ rows, row'.Takes mode operands → ∀ e',
          row'.encode operands prefixes mode i.span = .ok e' → e.bytes.length ≤ e'.bytes.length) ↔
        ¬ (i.mnemonic = "xchg" ∧ mode = .bits64 ∧ operands.map Operand.kind = Row.eaxTwice)) := by
  obtain ⟨rows, operands, prefixes, row, hrows, hops, hpre, hrow, htakes, henc, hfirst⟩ := encode_first h
  refine ⟨rows, operands, prefixes, row, hrows, hops, hpre, hrow, htakes, henc, ?_⟩
  simp only [Instruction.length_bytes]
  have hentry := Table.mem_entries hrows
  -- The length of an encoding differs from that of another by what is particular to the rows.
  have hsize : ∀ row' ∈ rows, row'.Takes mode operands → ∀ e',
      row'.encode operands prefixes mode i.span = .ok e' →
      (e.size ≤ e'.size ↔ row.ownSize ≤ row'.ownSize) := by
    intro row' hrow' htakes' e' henc'
    obtain ⟨switches, hswitches, heq⟩ := Row.size_encode_eq (Table.rows_wellFormed _ hentry row hrow)
      (Table.rows_placed _ hentry row hrow) (Table.rows_plain _ hentry row hrow) htakes.2 henc
    obtain ⟨switches', hswitches', heq'⟩ := Row.size_encode_eq
      (Table.rows_wellFormed _ hentry row' hrow') (Table.rows_placed _ hentry row' hrow')
      (Table.rows_plain _ hentry row' hrow') htakes'.2 henc'
    rw [(Table.sameSize_of_takes hrows hrow hrow' htakes htakes').sizeSwitches, hswitches'] at hswitches
    cases hswitches
    omega
  constructor
  · rintro hshortest ⟨hname, rfl, hkinds⟩
    rw [hname] at hrows
    have hxchg : Table.xchg = rows := by
      have hlookup : Table.rows? "xchg" = some Table.xchg := by decide +kernel
      exact Option.some.inj (hlookup.symm.trans hrows)
    subst hxchg
    obtain ⟨hlong, e₁, he₁⟩ := Row.exchange_eaxTwice hkinds prefixes i.span .selfExchange
      (by decide)
    obtain ⟨hshort, e₂, he₂⟩ := Row.exchange_eaxTwice hkinds prefixes i.span .shortExchange
      (by decide)
    have hpairs : Table.xchg.Pairwise fun _ later => later ≠ .selfExchange := by decide +kernel
    -- The long form stands in front, so the instruction is of that form.
    rcases hfirst _ hpairs .selfExchange (by decide) hlong e₁ he₁ with rfl | hne
    · have hle := hshortest .shortExchange (by decide) hshort e₂ he₂
      rw [hsize .shortExchange (by decide) hshort e₂ he₂] at hle
      revert hle
      decide
    · exact hne rfl
  · intro hnot row' hrow' htakes' e' henc'
    rw [hsize row' hrow' htakes' e' henc']
    obtain ⟨hname, hordered⟩ := Table.rows_ordered _ hentry
    rcases hfirst _ hordered row' hrow' htakes' e' henc' with rfl | hsmaller
    · exact Nat.le_refl _
    · rcases hsmaller (htakes.competes htakes') with rfl | hle
      · exact absurd ⟨hname hrow, Row.takes_selfExchange htakes⟩ hnot
      · exact hle

/-- Three rows take `add eax, 1` in 32-bit mode. The first has an immediate of one byte. -/
theorem encode_shortest_add :
    let one : ParsedOperand := ⟨none, false, false, none, none, .int 1, .nowhere⟩
    let eax : ParsedOperand := ⟨none, false, false, none, none, .var "eax", .nowhere⟩
    let i : ParsedInstruction := ⟨"add", [], [eax, one], .nowhere⟩
    ∃ e operands prefixes, i.encode (fun _ => none) .bits32 = .ok e ∧ e.bytes = [0x83, 0xC0, 0x01] ∧
      ParsedOperand.evaluateAll (fun _ => none) i.operands = .ok operands ∧
      PrefixBytes.compose i.prefixes operands = .ok prefixes ∧
      ∀ row ∈ Row.arithmetic 0x00 0, row.Takes .bits32 operands → ∀ e',
        row.encode operands prefixes .bits32 i.span = .ok e' → 3 ≤ e'.bytes.length := by
  intro one eax i
  have hlookup : Table.rows? "add" = some (Row.arithmetic 0x00 0) := by decide +kernel
  have hmap : (i.encode (fun _ => none) .bits32).toOption.map Instruction.bytes =
      some [0x83, 0xC0, 0x01] := by decide +kernel
  obtain ⟨e, henc, hbytes⟩ := Option.map_eq_some_iff.1 hmap
  rw [toOption_eq_some] at henc
  obtain ⟨rows, operands, prefixes, row, hrows, hops, hpre, -, -, -, hshortest⟩ := encode_shortest henc
  cases hlookup.symm.trans hrows
  have hall := hshortest.2 fun hexception => absurd hexception.1 (by decide)
  rw [hbytes] at hall
  exact ⟨e, operands, prefixes, henc, hbytes, hops, hpre, hall⟩

end ParsedInstruction
end IntelAsm
