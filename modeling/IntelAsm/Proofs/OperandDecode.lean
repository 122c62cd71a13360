/-
Operands, read the way the processor reads them. Given the row of an
instruction, the size of the operation follows from the mode, the operand-size
byte, the bit W and the row's default; the width of addresses from the mode
and the address-size byte; and each register from three bits in the ModR/M
byte or in the opcode, which the REX bit of that place extends. The codes 4 to
7 of a byte register are high bytes without a REX byte and low bytes with one.

The reader goes by the layout of the row and the position of the operand, while
the encoder gives out roles by the shape of the slot. That the two agree is a
fact about the table, checked row by row (`Table.rows_placed`). With it every
encoding of every row reads back as its operands (`Row.readBack_encode`).
-/
import Mathlib
import IntelAsm.Proofs.AddressDecode
import IntelAsm.Proofs.FieldRange

namespace IntelAsm

/-! ## Reading -/

/-- A bit of the REX byte by its place; without the byte it is 0. -/
def rexBitAt (rex : Option UInt8) (place : Nat) : Bool := rex.any fun b => b.toNat / place % 2 = 1

/-- The place in the REX byte of the bit that extends a code. -/
def CodePlace.extension : CodePlace → Nat
  | .reg => 4
  | .rm | .opcode => 1

/-- Where the operand at a position stands. A layout that uses the opcode has one operand for it,
at any position. -/
def OperandLayout.place? : OperandLayout → Nat → Option CodePlace
  | .o, _ | .oi, _ => some .opcode
  | .m, 0 | .mi, 0 | .mr, 0 | .rm, 1 | .rmi, 1 => some .rm
  | .mr, 1 | .rm, 0 | .rmi, 0 => some .reg
  | _, _ => none

/-- The register of a code. Without a REX byte the byte codes 4 to 7 are the high bytes. -/
def Register.ofBits (w : Width) (rex extension : Bool) (code : Nat) : Register :=
  if w = .byte ∧ ¬ rex ∧ 4 ≤ code then .high ⟨(code - 4) % 4, Nat.mod_lt _ (by decide)⟩
  else .ofCode w extension code

namespace Instruction

/-- The three bits at a place. The r/m part is a register only with mode part 3. -/
def codeAt (i : Instruction) : CodePlace → Option Nat
  | .reg => i.modrm.map fun b => (byteParts b).2.1
  | .rm => i.modrm.bind fun b => if (byteParts b).1 = 3 then some (byteParts b).2.2 else none
  | .opcode => i.opcode.bytes.getLast?.map fun b => b.toNat % 8

/-- The general register of width `w` at a place. -/
def registerAt (i : Instruction) (w : Width) (place : CodePlace) : Option Register :=
  (i.codeAt place).map (Register.ofBits w i.rex.isSome (rexBitAt i.rex place.extension))

/-- The segment register at a place. -/
def segmentAt (i : Instruction) (place : CodePlace) : Option Register :=
  (i.codeAt place).bind fun code =>
    (Segment.all[if rexBitAt i.rex place.extension then code + 8 else code]?).map .segment

/-- The size of the operation, as the processor finds it. -/
def operandWidth (i : Instruction) (mode : Mode) (default64 : Bool) : Width :=
  match mode with
  | .bits16 => if i.prefixes.operandSize then .dword else .word
  | .bits32 => if i.prefixes.operandSize then .word else .dword
  | .bits64 =>
    if rexBitAt i.rex 8 then .qword
    else if i.prefixes.operandSize then .word
    else if default64 then .qword
    else .dword

end Instruction

/-- The register in a slot. -/
def Shape.register? (i : Instruction) (place : Option CodePlace) : Shape → Option Register
  | .fixed r => some r
  | .segment => place.bind i.segmentAt
  | .reg w | .rm w | .rmDefault w => place.bind (i.registerAt w)
  | .imm _ | .immSigned _ | .one | .rel _ | .mem _ | .memAny => none

/-- The registers of an instruction of the row, one answer for each slot. -/
def Row.registers (row : Row) (i : Instruction) : List (Option Register) :=
  row.shapes.mapIdx fun position shape => shape.register? i (row.layout.place? position)

/-- An instruction of the row that reads back as the operands in a mode. -/
structure Row.ReadBack (row : Row) (mode : Mode) (operands : List Operand) (i : Instruction) :
    Prop where
  operandWidth : ∀ w, row.size = some w → w ≠ .byte → i.operandWidth mode row.default64 = w
  addressWidth : ∀ o ∈ operands, ∀ m, o.memory? = some m →
    i.addressWidth mode = m.effectiveWidth mode ∧
      (∀ base ∈ m.base, base.width = i.addressWidth mode) ∧
      ∀ index ∈ m.index, index.register.width = i.addressWidth mode
  registers : row.registers i = operands.map Operand.register?
  rex : ∀ b ∈ i.rex, mode = .bits64 ∧ b.toNat / 16 = 4

/-! ## The REX byte -/

theorem RexBit.isSet_of_not_demands {bit : RexBit} (h : bit.demands = false) : bit.isSet = false := by
  cases bit with
  | free | forbidden | clear => rfl
  | set => cases h

namespace RexRequest

/-- The request for the bit that extends the code at a place. -/
def bitAt (q : RexRequest) : CodePlace → RexBit
  | .reg => q.r
  | .rm | .opcode => q.b

/-- A REX byte, or its absence, that meets a request. -/
structure Met (q : RexRequest) (rex : Option UInt8) : Prop where
  wide : rexBitAt rex 8 = q.w.isSet
  extension : ∀ place : CodePlace, rexBitAt rex place.extension = (q.bitAt place).isSet
  demanded : ∀ place, (q.bitAt place).demands = true → rex.isSome = true
  forbidden : ∀ place, q.bitAt place = .forbidden → rex = none
  high : ∀ b ∈ rex, b.toNat / 16 = 4

theorem bitAt_mem (q : RexRequest) (place : CodePlace) : q.bitAt place ∈ q.bits := by
  cases place <;> simp [bitAt, bits]

/-- Each bit of the byte is where its weight puts it. -/
theorem rexBitAt_byte (w r x b : RexBit) :
    let byte := UInt8.ofNat (0x40 + w.weight 8 + r.weight 4 + x.weight 2 + b.weight 1)
    rexBitAt (some byte) 8 = w.isSet ∧ rexBitAt (some byte) 4 = r.isSet ∧
      rexBitAt (some byte) 1 = b.isSet ∧ byte.toNat / 16 = 4 := by
  have hbits : ∀ w r x b : Bool,
      let byte := UInt8.ofNat (0x40 + (if w then 8 else 0) + (if r then 4 else 0) +
        (if x then 2 else 0) + if b then 1 else 0)
      rexBitAt (some byte) 8 = w ∧ rexBitAt (some byte) 4 = r ∧ rexBitAt (some byte) 1 = b ∧
        byte.toNat / 16 = 4 := by decide
  have hweight : ∀ (bit : RexBit) (place : Nat), bit.weight place = if bit.isSet then place else 0 := by
    intro bit place
    simp [RexBit.weight, RexBit.isSet]
  simp only [hweight]
  exact hbits w.isSet r.isSet x.isSet b.isSet

theorem met_compose {q : RexRequest} {rex : Option UInt8} (h : q.compose = .ok rex) : q.Met rex := by
  unfold compose at h
  split at h
  · -- Nothing is demanded, so no bit is to be set.
    rename_i hnone
    cases h
    have hfree : ∀ bit ∈ q.bits, bit.demands = false := by simpa using hnone
    refine ⟨?_, fun place => ?_, fun place hd => ?_, fun _ _ => rfl, by simp⟩
    · exact (RexBit.isSet_of_not_demands (hfree q.w (by simp [bits]))).symm
    · exact (RexBit.isSet_of_not_demands (hfree _ (q.bitAt_mem place))).symm
    · rw [hfree _ (q.bitAt_mem place)] at hd
      cases hd
  · rw [guard_eq_ok] at h
    obtain ⟨hforbidden, h⟩ := h
    cases h
    obtain ⟨hw, hr, hb, hhigh⟩ := rexBitAt_byte q.w q.r q.x q.b
    refine ⟨hw, fun place => ?_, fun _ _ => rfl, fun place hf => ?_, by simpa using hhigh⟩
    · cases place with
      | reg => exact hr
      | rm | opcode => exact hb
    · refine absurd ?_ hforbidden
      rw [List.contains_iff_mem, ← hf]
      exact q.bitAt_mem place

end RexRequest

/-! ## Registers by their bits -/

/-- The bits at a place are those of a register, and there is a REX byte or none as the register
wants it. -/
structure Instruction.Names (i : Instruction) (place : CodePlace) (r : Register) : Prop where
  code : i.codeAt place = some r.code
  extension : rexBitAt i.rex place.extension = r.rexBit.isSet
  demanded : r.rexBit.demands = true → i.rex.isSome = true
  forbidden : r.rexBit = .forbidden → i.rex = none

namespace Instruction.Names

variable {i : Instruction} {place : CodePlace} {r : Register}

theorem of_met {q : RexRequest} (hcode : i.codeAt place = some r.code) (hmet : q.Met i.rex)
    (hbit : q.bitAt place = r.rexBit) : i.Names place r where
  code := hcode
  extension := by rw [hmet.extension, hbit]
  demanded hd := hmet.demanded place (by rwa [hbit])
  forbidden hf := hmet.forbidden place (by rwa [hbit])

/-- A low byte has a REX byte from code 4 on, and a high byte has none; the wider registers are told
by their bits alone. -/
theorem ofBits_eq (h : i.Names place r) (hr : r.registerClass = .general) :
    Register.ofBits r.width i.rex.isSome r.rexBit.isSet r.code = r := by
  cases r with
  | general w n =>
    have hrex : w = .byte → 4 ≤ n.val → i.rex.isSome = true := by
      intro hw hn
      refine h.demanded ?_
      by_cases h8 : 8 ≤ n.val
      · simp [Register.rexBit, RexBit.demands, h8]
      · simp [Register.rexBit, RexBit.demands, h8, hw, hn]
    have hlow : ¬ (w = .byte ∧ ¬ i.rex.isSome = true ∧ 4 ≤ n.val % 8) := by
      rintro ⟨hw, hno, hcode⟩
      exact hno (hrex hw (by omega))
    rw [Register.ofBits]
    exact (if_neg hlow).trans (Register.ofCode_general w n)
  | high n =>
    have hnone : i.rex = none := h.forbidden rfl
    have hnumber : (n.val + 4 - 4) % 4 = n.val := by omega
    simp only [Register.ofBits, Register.width, Register.code, hnone, hnumber]
    simp
  | _ => cases hr

theorem registerAt_eq (h : i.Names place r) (hr : r.registerClass = .general) :
    i.registerAt r.width place = some r := by
  rw [Instruction.registerAt, h.code, Option.map_some, h.extension, h.ofBits_eq hr]

theorem segmentAt_eq (h : i.Names place r) (hr : r.registerClass = .segment) :
    i.segmentAt place = some r := by
  cases r with
  | segment s =>
    have hset : (Register.segment s).rexBit.isSet = false := rfl
    rw [Instruction.segmentAt, h.code, h.extension, hset]
    cases s <;> rfl
  | _ => cases hr

end Instruction.Names

/-! ## Roles -/

namespace Roles

/-- In a form with one slot for a role the operand of that slot gets it. -/
theorem operand?_ofSlots {shapes : List Shape} {operands : List Operand} {roles : Roles} {role : Role}
    {slot : Shape × Operand}
    (hcount : shapes.countP (fun s => s.role? (shapes.contains .segment) = some role) ≤ 1)
    (hslot : slot ∈ shapes.zip operands)
    (hrole : slot.1.role? (shapes.contains .segment) = some role)
    (h : ofSlots shapes operands = .ok roles) : roles.operand? role = some slot.2 := by
  obtain ⟨last, hlast, hsame, hoperand⟩ := Role.exists_operandIn hslot hrole
  rw [operand?_eq_operandIn h, hoperand,
    Shape.slot_unique hcount hlast hslot (decide_eq_true hsame) (decide_eq_true hrole)]

end Roles

/-! ## The table -/

/-- What the reader relies on in a row: each role has one slot at most, at the position where the
layout has its place; an opcode that takes a register has its low bits free; and only operations of
64 bits have 64 bits by default. -/
@[mk_iff]
structure Row.Placed (row : Row) : Prop where
  roles : ∀ role ∈ [Role.register, Role.rm],
    row.shapes.countP (fun s => s.role? (row.shapes.contains .segment) = some role) ≤ 1
  positions : ∀ slot ∈ row.shapes.zipIdx,
    slot.1.role? (row.shapes.contains .segment) = none ∨
      slot.1.role? (row.shapes.contains .segment) = (row.layout.place? slot.2).map CodePlace.role
  opcode : .opcode ∈ row.layout.places → ∀ b ∈ row.opcode.getLast?, b.toNat % 8 = 0
  default64 : row.default64 = true → row.size = some .qword

instance (row : Row) : Decidable row.Placed := decidable_of_iff _ (Row.placed_iff row).symm

theorem Table.rows_placed : ∀ entry ∈ Table.entries, ∀ row ∈ entry.2, row.Placed := by
  decide +kernel

theorem OperandLayout.place?_mem {layout : OperandLayout} {position : Nat} {place : CodePlace}
    (h : layout.place? position = some place) : place ∈ layout.places := by
  unfold place? at h
  split at h <;> cases h <;> simp [places]

/-- The place of a slot that gives a role. -/
theorem Row.Placed.exists_place {row : Row} (hp : row.Placed) {position : Nat} {s : Shape} {role : Role}
    (hs : row.shapes[position]? = some s)
    (hrole : s.role? (row.shapes.contains .segment) = some role) :
    ∃ place, row.layout.place? position = some place ∧ place.role = role := by
  have hslot := hp.positions (s, position) (List.mk_mem_zipIdx_iff_getElem?.2 hs)
  rw [hrole] at hslot
  rcases hslot with hnone | hplace
  · cases hnone
  · exact Option.map_eq_some_iff.1 hplace.symm

theorem Shape.role?_of_isRm (withSegment : Bool) {s : Shape} (h : s.isRm = true) :
    s.role? withSegment = some .rm := by
  cases s with
  | rm | rmDefault | mem | memAny => rfl
  | _ => cases h

theorem Row.Placed.place?_of_isRm {row : Row} (hp : row.Placed) {position : Nat} {s : Shape}
    (hs : row.shapes[position]? = some s) (hrm : s.isRm = true) :
    row.layout.place? position = some .rm := by
  obtain ⟨place, hplace, hrole⟩ := hp.exists_place hs (Shape.role?_of_isRm _ hrm)
  cases place with
  | rm => exact hplace
  | reg | opcode => cases hrole

/-! ## Slots and what they take -/

theorem Operand.kind_of_memory? {o : Operand} {m : Memory} (h : o.memory? = some m) :
    o.kind = .memory m := by
  unfold memory? at h
  split at h
  · cases h
    assumption
  · cases h

theorem Operand.kind_of_register? {o : Operand} {r : Register} (h : o.register? = some r) :
    o.kind = .register r := by
  unfold register? at h
  split at h
  · cases h
    assumption
  · cases h

namespace Shape

variable {s : Shape} {o : Operand}

/-- A register is in a slot for itself, for segment registers, or for general ones of its width. -/
theorem accepts_register {r : Register} (h : s.accepts o = true) (hk : o.kind = .register r) :
    s = .fixed r ∨ (s = .segment ∧ r.registerClass = .segment) ∨
      (s ∈ [.reg r.width, .rm r.width, .rmDefault r.width] ∧ r.registerClass = .general) := by
  have hr : o.register? = some r := by rw [Operand.register?, hk]
  have hm : o.memory? = none := by rw [Operand.memory?, hk]
  have hi : o.immediate? = none := by rw [Operand.immediate?, hk]
  cases s with
  | fixed r' =>
    simp only [accepts, hr, decide_eq_true_eq, Option.some.injEq] at h
    exact .inl (by rw [h])
  | segment =>
    simp only [accepts, hr, Option.any_some, decide_eq_true_eq] at h
    exact .inr (.inl ⟨rfl, h⟩)
  | reg w | rm w | rmDefault w =>
    simp only [accepts, Operand.isRegisterOrMemory, Operand.isRegister, Operand.isSizedMemory,
      Operand.isMemory, hr, hm, Option.any_some, Option.isSome_none, Bool.false_and, Bool.or_false,
      Bool.and_eq_true, decide_eq_true_eq] at h
    exact .inr (.inr ⟨by simp [h.2], h.1⟩)
  | rel w => cases w <;> simp [accepts, hi] at h
  | imm | immSigned | one | mem | memAny =>
    simp [accepts, Operand.fitsImmediateField, Operand.isImmediate, Operand.isSizedMemory, hi, hm] at h

/-- A place in memory is in a slot for the r/m part. -/
theorem isRm_of_acceptsAmong {slots : List (Shape × Operand)} {m : Memory}
    (h : acceptsAmong slots (s, o) = true) (hk : o.kind = .memory m) : s.isRm = true := by
  have hr : o.register? = none := by rw [Operand.register?, hk]
  have hi : o.immediate? = none := by rw [Operand.immediate?, hk]
  cases s with
  | rm | rmDefault | mem | memAny => rfl
  | rel w => cases w <;> simp [acceptsAmong, accepts, memoryWidth?, hi] at h
  | imm | immSigned | one | reg | fixed | segment =>
    simp [acceptsAmong, accepts, memoryWidth?, Operand.fitsImmediateField, Operand.isImmediate,
      Operand.isRegister, hr, hi] at h

end Shape

/-! ## Fields by their places -/

namespace OperandFields

variable {layout : OperandLayout} {shapes : List Shape} {digit : Option Nat} {wide : Bool}
  {operands : List Operand} {mode : Mode} {f : OperandFields} {roles : Roles}

/-- An operand in the r/m part leaves the other parts. -/
theorem withRm_keeps {g : OperandFields} {reg : Nat} {o : Operand} (h : f.withRm reg o mode = .ok g) :
    g.rex.w = f.rex.w ∧ g.rex.r = f.rex.r ∧
      g.modrm.map (fun b => (byteParts b).2.1) = some (reg % 8) := by
  rcases withRm_eq_ok h with ⟨r, -, rfl⟩ | ⟨m, a, -, ha, rfl⟩
  · refine ⟨rfl, rfl, ?_⟩
    rw [rmRegister, Option.map_some, modrmByte, byteParts_ofNat (by decide)]
  · have hmode := Memory.encode_mode_lt ha
    refine ⟨rfl, rfl, ?_⟩
    rw [rmAddress, Option.map_some, modrmByte, byteParts_ofNat (by omega)]

theorem encode_wide (h : encode layout shapes digit wide operands mode = .ok f) :
    f.rex.w.isSet = wide := by
  have hset : (if wide then RexBit.set else .free).isSet = wide := by cases wide <;> rfl
  obtain ⟨roles, -, ⟨-, rfl⟩ | ⟨-, r, -, rfl⟩ | ⟨-, d, o, -, -, h⟩ | ⟨-, r, o, -, -, h⟩⟩ :=
    encode_cases h
  · exact hset
  · exact hset
  · rw [(withRm_keeps h).1]
    exact hset
  · rw [(withRm_keeps h).1]
    exact hset

theorem encode_opcode (h : encode layout shapes digit wide operands mode = .ok f)
    (hroles : Roles.ofSlots shapes operands = .ok roles) (hplace : .opcode ∈ layout.places) :
    ∃ r, roles.requireRegister = .ok r ∧ f.opcodeReg = some r.code ∧ f.rex.b = r.rexBit := by
  obtain ⟨roles', hroles', hcases⟩ := encode_cases h
  cases hroles.symm.trans hroles'
  rcases hcases with ⟨hp, -⟩ | ⟨-, r, hr, rfl⟩ | ⟨hp, -⟩ | ⟨hp, -⟩
  · simp [hp] at hplace
  · exact ⟨r, hr, rfl, rfl⟩
  · simp [hp] at hplace
  · simp [hp] at hplace

theorem encode_reg (h : encode layout shapes digit wide operands mode = .ok f)
    (hroles : Roles.ofSlots shapes operands = .ok roles) (hplace : .reg ∈ layout.places) :
    ∃ r, roles.requireRegister = .ok r ∧ f.rex.r = r.rexBit ∧
      f.modrm.map (fun b => (byteParts b).2.1) = some r.code := by
  obtain ⟨roles', hroles', hcases⟩ := encode_cases h
  cases hroles.symm.trans hroles'
  rcases hcases with ⟨hp, -⟩ | ⟨hp, -⟩ | ⟨hp, -⟩ | ⟨-, r, o, hr, -, hg⟩
  · simp [hp] at hplace
  · simp [hp] at hplace
  · simp [hp] at hplace
  · obtain ⟨-, hbit, hcode⟩ := withRm_keeps hg
    rw [Nat.mod_eq_of_lt r.code_lt] at hcode
    exact ⟨r, hr, hbit, hcode⟩

theorem encode_rm (h : encode layout shapes digit wide operands mode = .ok f)
    (hroles : Roles.ofSlots shapes operands = .ok roles) (hplace : .rm ∈ layout.places) :
    ∃ f₀ reg o, roles.requireRm = .ok o ∧ withRm f₀ reg o mode = .ok f := by
  obtain ⟨roles', hroles', hcases⟩ := encode_cases h
  cases hroles.symm.trans hroles'
  rcases hcases with ⟨hp, -⟩ | ⟨hp, -⟩ | ⟨-, d, o, -, ho, hg⟩ | ⟨-, r, o, -, ho, hg⟩
  · simp [hp] at hplace
  · simp [hp] at hplace
  · exact ⟨_, d, o, ho, hg⟩
  · exact ⟨_, r.code, o, ho, hg⟩

end OperandFields

/-! ## Rows read back -/

namespace Row

variable {row : Row} {operands : List Operand} {prefixes : PrefixBytes} {mode : Mode} {span : Span}
  {i : Instruction}

/-- The last byte of the opcode takes the code of a register in its low bits. -/
theorem codeAt_opcodeWith (hw : row.WellFormed) (hp : row.Placed) (hplace : .opcode ∈ row.layout.places)
    {code : Nat} (hcode : code < 8) (hi : i.opcode = row.opcodeWith (some code)) :
    i.codeAt .opcode = some code := by
  have hpos := hw.1
  have hlast : row.opcode.getLast? = some (row.opcode.get ⟨row.opcode.length - 1, by omega⟩) := by
    rw [List.getLast?_eq_getElem?]
    exact List.getElem?_eq_getElem _
  have hfree := hp.opcode hplace _ hlast
  generalize row.opcode.get ⟨row.opcode.length - 1, by omega⟩ = b at hlast hfree
  rw [List.getLast?_eq_getElem?] at hlast
  have hbytes : (row.opcodeWith (some code)).bytes.getLast? = some (b ||| UInt8.ofNat code) := by
    rw [opcodeWith, Opcode.bytes_ofBytes (by rw [List.length_modify]; exact hw.2.1),
      List.getLast?_eq_getElem?, List.length_modify, List.getElem?_modify_eq, hlast]
    rfl
  have hor : (b ||| UInt8.ofNat code).toNat % 8 = code := by
    rw [UInt8.toNat_or, UInt8.toNat_ofNat', show (8 : Nat) = 2 ^ 3 from rfl, Nat.or_mod_two_pow]
    rw [show (2 : Nat) ^ 3 = 8 from rfl, hfree, Nat.zero_or]
    omega
  rw [Instruction.codeAt, hi, hbytes, Option.map_some, hor]

/-- The size of the operation is found again. -/
theorem operandWidth_encode (hp : row.Placed) (h : row.encode operands prefixes mode span = .ok i)
    {w : Width} (hsize : row.size = some w) (hw : w ≠ .byte) :
    i.operandWidth mode row.default64 = w := by
  obtain ⟨operandSize, wide, f, rex, hswitch, hf, hrex, -, rfl, -⟩ := encode_eq_ok h
  have hwide : rexBitAt rex 8 = wide := by
    rw [(RexRequest.met_compose hrex).wide, OperandFields.encode_wide hf]
  cases w with
  | byte => exact absurd rfl hw
  | word =>
    simp only [sizeSwitches, hsize, Except.ok.injEq, Prod.mk.injEq] at hswitch
    obtain ⟨rfl, rfl⟩ := hswitch
    cases mode <;> simp [Instruction.operandWidth, assembled, hwide]
  | dword =>
    have hdefault : row.default64 = false := by
      by_contra hd
      rw [Bool.not_eq_false] at hd
      rw [hp.default64 hd] at hsize
      cases hsize
    simp only [sizeSwitches, hsize, Except.ok.injEq, Prod.mk.injEq] at hswitch
    obtain ⟨rfl, rfl⟩ := hswitch
    cases mode <;> simp [Instruction.operandWidth, assembled, hwide, hdefault]
  | qword =>
    simp only [sizeSwitches, hsize, guard_eq_ok, Except.ok.injEq, Prod.mk.injEq] at hswitch
    obtain ⟨hmode, rfl, rfl⟩ := hswitch
    rw [not_not] at hmode
    subst hmode
    cases hd : row.default64 <;> simp [Instruction.operandWidth, assembled, hwide, hd]

/-- A register in a slot is named at the place of its slot. -/
theorem names_encode (hw : row.WellFormed) (hp : row.Placed)
    (h : row.encode operands prefixes mode span = .ok i) {slot : Shape × Operand} {position : Nat}
    {place : CodePlace} {r : Register} (hslot : slot ∈ row.shapes.zip operands)
    (hplace : row.layout.place? position = some place)
    (hrole : slot.1.role? (row.shapes.contains .segment) = some place.role)
    (hr : slot.2.register? = some r) : i.Names place r := by
  obtain ⟨operandSize, wide, f, rex, -, hf, hrex, -, rfl, -⟩ := encode_eq_ok h
  have hmet : f.rex.Met rex := RexRequest.met_compose hrex
  obtain ⟨roles, hroles, -⟩ := OperandFields.encode_eq_ok hf
  have hcount := hp.roles place.role (by cases place <;> simp [CodePlace.role])
  have hoperand := Roles.operand?_ofSlots hcount hslot hrole hroles
  have hused := OperandLayout.place?_mem hplace
  cases place with
  | opcode =>
    obtain ⟨r', hr', hcode, hbit⟩ := OperandFields.encode_opcode hf hroles hused
    rw [Roles.requireRegister_eq_ok, show roles.operand? .register = some slot.2 from hoperand] at hr'
    cases hr.symm.trans hr'
    refine .of_met (codeAt_opcodeWith hw hp hused r.code_lt ?_) hmet hbit
    rw [← hcode]
    rfl
  | reg =>
    obtain ⟨r', hr', hbit, hcode⟩ := OperandFields.encode_reg hf hroles hused
    rw [Roles.requireRegister_eq_ok, show roles.operand? .register = some slot.2 from hoperand] at hr'
    cases hr.symm.trans hr'
    exact .of_met hcode hmet hbit
  | rm =>
    obtain ⟨f₀, reg, o, ho, hg⟩ := OperandFields.encode_rm hf hroles hused
    cases hoperand.symm.trans (Roles.requireRm_eq_ok.1 ho)
    rcases OperandFields.withRm_eq_ok hg with ⟨r', hr', rfl⟩ | ⟨m, a, hm, -, -⟩
    · simp only [Operand.register?, hr', Option.some.injEq] at hr
      subst hr
      refine .of_met ?_ hmet rfl
      simp only [Instruction.codeAt, assembled, OperandFields.rmRegister, Option.bind_some, modrmByte]
      rw [byteParts_ofNat (by decide), if_pos rfl, Nat.mod_eq_of_lt r'.code_lt]
    · simp only [Operand.register?, hm] at hr
      cases hr

/-- A place in memory in a slot has the width of the addresses, and no register is named in its
place. -/
theorem address_encode (hp : row.Placed) (h : row.encode operands prefixes mode span = .ok i)
    {slot : Shape × Operand} {position : Nat} {m : Memory} (hslot : slot ∈ row.shapes.zip operands)
    (hplace : row.layout.place? position = some .rm) (hrm : slot.1.isRm = true)
    (hk : slot.2.kind = .memory m) :
    i.codeAt .rm = none ∧ ∃ a, m.encode mode = .ok a ∧ i.addressWidth mode = a.width := by
  obtain ⟨operandSize, wide, f, rex, -, hf, -, -, rfl, -⟩ := encode_eq_ok h
  obtain ⟨roles, hroles, -⟩ := OperandFields.encode_eq_ok hf
  have hoperand := Roles.operand?_ofSlots (hp.roles .rm (by simp)) hslot (Shape.role?_of_isRm _ hrm) hroles
  obtain ⟨f₀, reg, o, ho, hg⟩ :=
    OperandFields.encode_rm hf hroles (OperandLayout.place?_mem hplace)
  cases hoperand.symm.trans (Roles.requireRm_eq_ok.1 ho)
  rcases OperandFields.withRm_eq_ok hg with ⟨r, hr, -⟩ | ⟨m', a, hm', ha, rfl⟩
  · cases hk.symm.trans hr
  · cases hk.symm.trans hm'
    have hmode := Memory.encode_mode_lt ha
    refine ⟨?_, a, ha, row.addressWidth_assembled prefixes operandSize rex span ha rfl⟩
    simp only [Instruction.codeAt, assembled, OperandFields.rmAddress, Option.bind_some, modrmByte]
    rw [byteParts_ofNat (by omega), if_neg (by omega)]

/-- Each slot reads back as the register of its operand, or as none. -/
theorem register?_encode (hw : row.WellFormed) (hp : row.Placed)
    (h : row.encode operands prefixes mode span = .ok i) {position : Nat} {s : Shape} {o : Operand}
    (hs : row.shapes[position]? = some s) (hslot : (s, o) ∈ row.shapes.zip operands)
    (hacc : Shape.acceptsAmong (row.shapes.zip operands) (s, o) = true) :
    s.register? i (row.layout.place? position) = o.register? := by
  cases hk : o.kind with
  | immediate v =>
    have hi : o.immediate? = some v := by rw [Operand.immediate?, hk]
    have hm : o.memory? = none := by rw [Operand.memory?, hk]
    have htakes := Shape.takesImmediate_of_accepts (Shape.accepts_of_acceptsAmong hacc hm) hi
    rw [Operand.register?, hk]
    cases s with
    | imm | immSigned | one | rel => rfl
    | _ => cases htakes
  | memory m =>
    have hrm := Shape.isRm_of_acceptsAmong hacc hk
    have hplace := hp.place?_of_isRm hs hrm
    obtain ⟨hnone, -⟩ := address_encode hp h hslot hplace hrm hk
    rw [Operand.register?, hk, hplace]
    cases s with
    | rm w | rmDefault w => simp [Shape.register?, Instruction.registerAt, hnone]
    | mem | memAny => rfl
    | _ => cases hrm
  | register r =>
    have hr : o.register? = some r := by rw [Operand.register?, hk]
    have hm : o.memory? = none := by rw [Operand.memory?, hk]
    -- Whatever the role of the slot, the register is named at the place of the slot.
    have hnames : ∀ role, s.role? (row.shapes.contains .segment) = some role →
        ∃ place, row.layout.place? position = some place ∧ i.Names place r := by
      intro role hrole
      obtain ⟨place, hplace, rfl⟩ := hp.exists_place hs hrole
      exact ⟨place, hplace, names_encode hw hp h hslot hplace hrole hr⟩
    rw [hr]
    rcases Shape.accepts_register (Shape.accepts_of_acceptsAmong hacc hm) hk with
      rfl | ⟨rfl, hclass⟩ | ⟨hshape, hclass⟩
    · rfl
    · obtain ⟨place, hplace, hn⟩ := hnames .register rfl
      rw [hplace]
      exact hn.segmentAt_eq hclass
    · simp only [List.mem_cons, List.not_mem_nil, or_false] at hshape
      rcases hshape with rfl | rfl | rfl
      all_goals
        obtain ⟨place, hplace, hn⟩ := hnames _ rfl
        rw [hplace]
        exact hn.registerAt_eq hclass

theorem registers_encode (hw : row.WellFormed) (hp : row.Placed)
    (hacc : Shape.acceptAll row.shapes operands = true)
    (h : row.encode operands prefixes mode span = .ok i) :
    row.registers i = operands.map Operand.register? := by
  refine List.ext_getElem? fun position => ?_
  rw [registers, List.getElem?_mapIdx, List.getElem?_map]
  cases ho : operands[position]? with
  | none =>
    rw [List.getElem?_eq_none_iff, ← Shape.length_of_acceptAll hacc, ← List.getElem?_eq_none_iff] at ho
    rw [ho]
    rfl
  | some o =>
    obtain ⟨s, hs, hslot, hamong⟩ := Shape.exists_slot hacc ho
    rw [hs, Option.map_some, Option.map_some, register?_encode hw hp h hs hslot hamong]

/-- An operand in memory has addresses of the width that is found, and so have its registers. -/
theorem addressWidth_encode (hp : row.Placed) (hacc : Shape.acceptAll row.shapes operands = true)
    (h : row.encode operands prefixes mode span = .ok i) {o : Operand} {m : Memory}
    (ho : o ∈ operands) (hm : o.memory? = some m) :
    i.addressWidth mode = m.effectiveWidth mode ∧
      (∀ base ∈ m.base, base.width = i.addressWidth mode) ∧
      ∀ index ∈ m.index, index.register.width = i.addressWidth mode := by
  have hk : o.kind = .memory m := Operand.kind_of_memory? hm
  obtain ⟨position, ho⟩ := List.mem_iff_getElem?.1 ho
  obtain ⟨s, hs, hslot, hamong⟩ := Shape.exists_slot hacc ho
  have hrm := Shape.isRm_of_acceptsAmong hamong hk
  obtain ⟨-, a, ha, hwidth⟩ := address_encode hp h hslot (hp.place?_of_isRm hs hrm) hrm hk
  obtain ⟨heff, hbase, hindex, -⟩ := Memory.encode_eq_ok ha
  rw [hwidth]
  exact ⟨heff, hbase, hindex⟩

theorem rex_encode (h : row.encode operands prefixes mode span = .ok i) {b : UInt8}
    (hb : i.rex = some b) : mode = .bits64 ∧ b.toNat / 16 = 4 := by
  obtain ⟨operandSize, wide, f, rex, -, -, hrex, hmode, rfl, -⟩ := encode_eq_ok h
  have hsome : rex = some b := hb
  exact ⟨hmode (by rw [hsome]; rfl), (RexRequest.met_compose hrex).high b hb⟩

/-- **Every encoding of every row reads back as its operands.** -/
theorem readBack_encode {mnemonic : String} {rows : List Row} (hrows : (mnemonic, rows) ∈ Table.entries)
    (hrow : row ∈ rows) (hacc : Shape.acceptAll row.shapes operands = true)
    (h : row.encode operands prefixes mode span = .ok i) : row.ReadBack mode operands i := by
  have hw := Table.rows_wellFormed _ hrows row hrow
  have hp := Table.rows_placed _ hrows row hrow
  constructor
  case operandWidth =>
    intro w hsize hne
    exact operandWidth_encode hp h hsize hne
  case addressWidth =>
    intro o ho m hm
    exact addressWidth_encode hp hacc h ho hm
  case registers => exact registers_encode hw hp hacc h
  case rex =>
    intro b hb
    exact rex_encode h hb

/-- `movzx r9, spl`: the REX byte widens the operation, extends the first register, and makes the code
4 of the second one a low byte. -/
theorem readBack_encode_movzx :
    ∃ row ∈ Table.extending 0xB6, ("movzx", Table.extending 0xB6) ∈ Table.entries ∧
      ∃ i, row.encode [.ofRegister (.general .qword 9) .nowhere, .ofRegister (.general .byte 4) .nowhere]
          .empty .bits64 .nowhere = .ok i ∧
        i.bytes = [0x4C, 0x0F, 0xB6, 0xCC] ∧ i.operandWidth .bits64 row.default64 = .qword ∧
        row.registers i = [some (.general .qword 9), some (.general .byte 4)] := by
  let row : Row := .form .rm [.reg .qword, .rm .byte] [0x0F, 0xB6] (some .qword)
  let operands : List Operand :=
    [.ofRegister (.general .qword 9) .nowhere, .ofRegister (.general .byte 4) .nowhere]
  have hrows : ("movzx", Table.extending 0xB6) ∈ Table.entries := by decide +kernel
  have hrow : row ∈ Table.extending 0xB6 := by decide +kernel
  have hacc : Shape.acceptAll row.shapes operands = true := by decide
  have hencode : (row.encode operands .empty .bits64 .nowhere).toOption = some
      ⟨.empty, some 0x4C, ⟨0x0F, 0xB6, 0, 2⟩, some 0xCC, none, .absent, .absent, .absent, .nowhere⟩ := by
    decide +kernel
  rw [toOption_eq_some] at hencode
  have hread := readBack_encode hrows hrow hacc hencode
  exact ⟨row, hrow, hrows, _, hencode, by decide, hread.operandWidth .qword rfl (by decide),
    hread.registers⟩

end Row
end IntelAsm
