/-
Which registers an encoded address can have. A base is the instruction pointer
or a general register, an index a general register other than the stack
pointer, and both have the width of the address. The base is held to that. The
index is looked at by its width and its code alone, and there are four more
registers with the width of an address, the instruction pointers and the flags,
all of code 0: as an index they pass, and stand for the accumulator
(`Memory.encode_asAccumulator`). These four are the only exception, and whatever
else is no base or no index is refused (`OperandFields.encode_registers`).
-/
import Mathlib
import IntelAsm.Proofs.AddressFacts
import IntelAsm.Proofs.SelectFacts

namespace IntelAsm

namespace Register

/-- Whether the register is the stack pointer, at any width. -/
def isStackPointer : Register → Bool
  | .general _ n => n.val = 4
  | _ => false

/-- The register may be the base of addresses of that width. -/
def CanBase (r : Register) (address : Width) : Prop :=
  (r.isPointer = true ∨ r.registerClass = .general) ∧ r.width = address

/-- The register may be the index of addresses of that width. -/
def CanIndex (r : Register) (address : Width) : Prop :=
  r.registerClass = .general ∧ r.isStackPointer = false ∧ r.width = address

instance (r : Register) (address : Width) : Decidable (r.CanBase address) :=
  inferInstanceAs (Decidable (_ ∧ _))

instance (r : Register) (address : Width) : Decidable (r.CanIndex address) :=
  inferInstanceAs (Decidable (_ ∧ _))

/-- The registers beside the general ones that are as wide as an address of 32 or 64 bits. -/
def isSpecial : Register → Bool
  | .eip | .rip | .eflags | .rflags => true
  | _ => false

theorem not_canIndex_of_isSpecial {r : Register} (h : r.isSpecial = true) (address : Width) :
    ¬ r.CanIndex address := by
  rintro ⟨hclass, -⟩
  cases r with
  | eip | rip | eflags | rflags => cases hclass
  | _ => cases h

/-- A register as wide as an address is a general one or one of the four, and only the stack pointer
has code 4 without extension. -/
theorem canIndex_or_isSpecial {r : Register} (hwidth : r.width = .dword ∨ r.width = .qword)
    (hcode : r.code = 4 → r.isExtended = true) : r.CanIndex r.width ∨ r.isSpecial = true := by
  cases r with
  | general w n =>
    refine .inl ⟨rfl, ?_, rfl⟩
    rw [isStackPointer, decide_eq_false_iff_not]
    intro hn
    have hextended := hcode (by rw [code, hn])
    rw [isExtended, decide_eq_true_eq] at hextended
    omega
  | high n => rcases hwidth with h | h <;> cases h
  | segment s => rcases hwidth with h | h <;> cases h
  | flags => rcases hwidth with h | h <;> cases h
  | eip | rip | eflags | rflags => exact .inr rfl

/-- The four share their code and their width with the accumulator. -/
theorem accumulator_of_isSpecial {r : Register} (h : r.isSpecial = true) :
    (accumulator r.width).code = r.code ∧ (accumulator r.width).isExtended = r.isExtended ∧
      (accumulator r.width).rexBit = r.rexBit ∧ r.width ≠ .word := by
  cases r with
  | eip | rip | eflags | rflags => decide
  | _ => cases h

end Register

namespace Memory

/-- The base, if there is one, may be one. -/
def UsableBase (m : Memory) (mode : Mode) : Prop := ∀ r ∈ m.base, r.CanBase (m.effectiveWidth mode)

/-- The index, if there is one, may be one. -/
def UsableIndex (m : Memory) (mode : Mode) : Prop :=
  ∀ i ∈ m.index, i.register.CanIndex (m.effectiveWidth mode)

/-- There is an index that is an instruction pointer or the flags. -/
def SpecialIndex (m : Memory) : Prop := ∃ i ∈ m.index, i.register.isSpecial = true

/-- The address with the accumulator in place of the register of its index. -/
def asAccumulator (m : Memory) : Memory :=
  { m with index := m.index.map fun i => { i with register := .accumulator i.register.width } }

/-! ## Pairs of 16-bit registers -/

/-- The registers of 16-bit addresses can be bases and indexes. -/
theorem canIndex_of_mem_wordPairs : ∀ pair ∈ wordPairs,
    (pair.1.1.all fun r => decide (r.CanBase .word ∧ r.CanIndex .word)) = true ∧
      (pair.1.2.all fun r => decide (r.CanBase .word ∧ r.CanIndex .word)) = true := by
  decide +kernel

theorem encodeWord_registers {m : Memory} {mode : Mode} {a : AddressForm}
    (h : m.encodeWord mode = .ok a) :
    (∀ r ∈ m.base, r.CanBase .word) ∧ ∀ i ∈ m.index, i.register.CanIndex .word := by
  obtain ⟨-, -, ⟨hbase, hindex, -⟩ | ⟨rm, hpair, -⟩⟩ := encodeWord_eq_ok h
  · simp [hbase, hindex]
  · have hregisters : ∀ r, r ∈ m.base ∨ r ∈ m.index.map Index.register →
        r.CanBase .word ∧ r.CanIndex .word := by
      intro r hr
      rcases hpair with hpair | hpair
      all_goals
        obtain ⟨hfirst, hsecond⟩ := canIndex_of_mem_wordPairs _ hpair
        simp only [Option.all_eq_true, decide_eq_true_eq] at hfirst hsecond
      · exact hr.elim (hfirst r) (hsecond r)
      · exact hr.elim (hsecond r) (hfirst r)
    refine ⟨fun r hr => (hregisters r (.inl hr)).1, fun i hi => ?_⟩
    exact (hregisters i.register (.inr (Option.mem_map_of_mem _ hi))).2

/-! ## Wider addresses -/

theorem encodeWide_registers {m : Memory} {address : Width} {mode : Mode} {a : AddressForm}
    (haddress : address = .dword ∨ address = .qword) (hbase : ∀ r ∈ m.base, r.width = address)
    (hindex : ∀ i ∈ m.index, i.register.width = address) (h : m.encodeWide address mode = .ok a) :
    (∀ r ∈ m.base, r.CanBase address) ∧
      ∀ i ∈ m.index, i.register.CanIndex address ∨ i.register.isSpecial = true := by
  obtain ⟨index, hcodes, h⟩ := encodeWide_eq_ok h
  constructor
  · intro r hr
    refine ⟨?_, hbase r hr⟩
    rcases h with ⟨hnone, -⟩ | ⟨base, hsome, hpointer, -⟩ | ⟨base, hsome, hgeneral, -⟩
    · rw [hnone] at hr
      cases hr
    · rw [hsome] at hr
      cases hr
      exact .inl hpointer
    · rw [hsome] at hr
      cases hr
      exact .inr (Register.isAddress_iff.1 hgeneral).1
  · intro i hi
    have hwidth := hindex i hi
    rcases indexCodes_eq_ok hcodes with ⟨hnone, -⟩ | ⟨j, code, hsome, -, hcode, -⟩
    · rw [hnone] at hi
      cases hi
    · rw [hsome] at hi
      cases hi
      rw [← hwidth]
      exact Register.canIndex_or_isSpecial (hwidth.symm ▸ haddress) hcode

/-- **The registers of an encoded address.** The base may be one; the index may be one, or it is one of
the four that are taken for the accumulator. -/
theorem registers_of_encode {m : Memory} {mode : Mode} {a : AddressForm} (h : m.encode mode = .ok a) :
    m.UsableBase mode ∧ (m.UsableIndex mode ∨ m.SpecialIndex) := by
  obtain ⟨hwidth, hbase, hindex, h⟩ := encode_eq_ok h
  have hboth : (∀ r ∈ m.base, r.CanBase a.width) ∧
      ∀ i ∈ m.index, i.register.CanIndex a.width ∨ i.register.isSpecial = true := by
    rcases h with ⟨hw, h⟩ | ⟨hw, h⟩ | ⟨hw, -, h⟩
    · rw [hw]
      exact (encodeWord_registers h).imp_right fun hcan i hi => .inl (hcan i hi)
    · rw [hw] at hbase hindex ⊢
      exact encodeWide_registers (.inl rfl) hbase hindex h
    · rw [hw] at hbase hindex ⊢
      exact encodeWide_registers (.inr rfl) hbase hindex h
  rw [hwidth] at hboth
  refine ⟨hboth.1, ?_⟩
  by_cases hspecial : m.SpecialIndex
  · exact .inr hspecial
  · exact .inl fun i hi => (hboth.2 i hi).resolve_right fun hs => hspecial ⟨i, hi, hs⟩

theorem usableIndex_iff {m : Memory} {mode : Mode} {a : AddressForm} (h : m.encode mode = .ok a) :
    m.UsableIndex mode ↔ ¬ m.SpecialIndex := by
  constructor
  · rintro husable ⟨i, hi, hspecial⟩
    exact Register.not_canIndex_of_isSpecial hspecial _ (husable i hi)
  · exact (registers_of_encode h).2.resolve_right

/-! ## Taken for the accumulator -/

theorem encodeWide_asAccumulator {m : Memory} {i : Index} (hi : m.index = some i)
    (hspecial : i.register.isSpecial = true) (address : Width) (mode : Mode) :
    m.asAccumulator.encodeWide address mode = m.encodeWide address mode := by
  obtain ⟨hcode, hextended, hrex, -⟩ := Register.accumulator_of_isSpecial hspecial
  have hindex : m.asAccumulator.index = some { i with register := .accumulator i.register.width } := by
    rw [asAccumulator, hi]
    rfl
  have hcodes : m.asAccumulator.indexCodes = m.indexCodes := by
    simp only [indexCodes, hindex, hi, hcode, hextended]
    -- The two differ in the register that a refusal names, but code 0 is never refused.
    cases hr : i.register with
    | eip | rip | eflags | rflags => rfl
    | _ => rw [hr] at hspecial; cases hspecial
  have hbit : m.asAccumulator.indexRex = m.indexRex := by
    simp only [indexRex, hindex, hi, hrex]
  have habsolute : m.asAccumulator.absoluteForm address mode = m.absoluteForm address mode := by
    funext index disp
    simp only [absoluteForm, hbit]
  have hbased : m.asAccumulator.basedForm address = m.basedForm address := by
    funext base index modBits disp
    simp only [basedForm, hbit]
  unfold encodeWide
  rw [hcodes, habsolute, hbased]
  rfl

theorem effectiveWidth_asAccumulator (m : Memory) (mode : Mode) :
    m.asAccumulator.effectiveWidth mode = m.effectiveWidth mode := by
  unfold effectiveWidth asAccumulator
  cases m.base with
  | some base => rfl
  | none => cases m.index <;> rfl

theorem checkWidths_of_width {m : Memory} {address : Width} (hbase : ∀ r ∈ m.base, r.width = address)
    (hindex : ∀ i ∈ m.index, i.register.width = address) : m.checkWidths address = .ok () := by
  have hfirst : m.base.filter (·.width ≠ address) = none :=
    Option.filter_eq_none_iff.2 fun r hr => by simpa using hbase r hr
  have hsecond : m.index.filter (·.register.width ≠ address) = none :=
    Option.filter_eq_none_iff.2 fun i hi => by simpa using hindex i hi
  simp only [checkWidths, hfirst, hsecond]

/-- **A pointer or the flags as index** give the encoding of the accumulator. -/
theorem encode_asAccumulator {m : Memory} {mode : Mode} {a : AddressForm}
    (hspecial : m.SpecialIndex) (h : m.encode mode = .ok a) : m.asAccumulator.encode mode = .ok a := by
  obtain ⟨i, hi, hspecial⟩ := hspecial
  obtain ⟨-, -, -, hword⟩ := Register.accumulator_of_isSpecial hspecial
  obtain ⟨hwidth, hbase, hindex, hform⟩ := encode_eq_ok h
  have hwidths : m.asAccumulator.checkWidths a.width = .ok () := by
    refine checkWidths_of_width hbase fun j hj => ?_
    obtain ⟨i, hi, rfl⟩ := Option.map_eq_some_iff.1 hj
    exact hindex i hi
  rw [encode, effectiveWidth_asAccumulator, ← hwidth, hwidths]
  rcases hform with ⟨hw, -⟩ | ⟨hw, hform⟩ | ⟨hw, rfl, hform⟩
  · exact absurd ((hindex i hi).trans hw) hword
  · rw [hw]
    exact (encodeWide_asAccumulator hi hspecial _ _).trans hform
  · rw [hw]
    exact (encodeWide_asAccumulator hi hspecial _ _).trans hform

end Memory

/-! ## Forms -/

namespace OperandFields

variable {layout : OperandLayout} {shapes : List Shape} {digit : Option Nat} {wide : Bool}
  {operands : List Operand} {mode : Mode} {f : OperandFields}

theorem isSome_modrm_withRm {g : OperandFields} {reg : Nat} {o : Operand}
    (h : g.withRm reg o mode = .ok f) : f.modrm.isSome = true := by
  rcases withRm_eq_ok h with ⟨r, -, rfl⟩ | ⟨m, a, -, -, rfl⟩ <;> rfl

/-- There is a ModR/M byte exactly if the layout has an r/m part. -/
theorem isSome_modrm_iff (h : encode layout shapes digit wide operands mode = .ok f) :
    f.modrm.isSome = true ↔ .rm ∈ layout.places := by
  obtain ⟨roles, -, h⟩ := encode_cases h
  rcases h with ⟨hplaces, rfl⟩ | ⟨hplaces, r, -, rfl⟩ | ⟨hplaces, d, o, -, -, h⟩ |
    ⟨hplaces, r, o, -, -, h⟩
  · simp [hplaces, ofRoles]
  · simp [hplaces, ofRoles]
  · simp [hplaces, isSome_modrm_withRm h]
  · simp [hplaces, isSome_modrm_withRm h]

theorem exists_address_withRm {g : OperandFields} {reg : Nat} {o : Operand} {m : Memory}
    (hm : o.kind = .memory m) (h : g.withRm reg o mode = .ok f) :
    ∃ a, m.encode mode = .ok a ∧ f.addressSize = some a.width := by
  rcases withRm_eq_ok h with ⟨r, hr, -⟩ | ⟨m', a, hm', ha, rfl⟩
  · cases hm.symm.trans hr
  · cases hm.symm.trans hm'
    exact ⟨a, ha, rfl⟩

/-- Where the r/m part is a place in memory, its address is encoded. -/
theorem exists_address {o : Operand} {m : Memory} (hplace : .rm ∈ layout.places)
    (hrm : Role.rm.operandIn shapes operands = some o) (hm : o.kind = .memory m)
    (h : encode layout shapes digit wide operands mode = .ok f) :
    ∃ a, m.encode mode = .ok a ∧ f.addressSize = some a.width := by
  obtain ⟨roles, hroles, h⟩ := encode_cases h
  have hrole : ∀ {o'}, roles.requireRm = .ok o' → o' = o := by
    intro o' ho'
    rw [Roles.requireRm_eq_ok, Roles.operand?_eq_operandIn hroles, hrm] at ho'
    exact (Option.some.inj ho').symm
  rcases h with ⟨hplaces, -⟩ | ⟨hplaces, -⟩ | ⟨-, d, o', -, ho', h⟩ | ⟨-, r, o', -, ho', h⟩
  · simp [hplaces] at hplace
  · simp [hplaces] at hplace
  · rw [hrole ho'] at h
    exact exists_address_withRm hm h
  · rw [hrole ho'] at h
    exact exists_address_withRm hm h

/-- **The registers of encoded operands.** For every form, all operands and every mode, where the r/m
part is a place in memory: if there is a ModR/M byte, the address has the width it is recorded with, its
base may be one, and its index may be one unless it is an instruction pointer or the flags, which get the
encoding of the accumulator. With any other register as base or index the operands are refused. -/
theorem encode_registers {o : Operand} {m : Memory} (layout : OperandLayout) (digit : Option Nat)
    (wide : Bool) (mode : Mode) (hrm : Role.rm.operandIn shapes operands = some o)
    (hm : o.kind = .memory m) :
    (∀ f byte, encode layout shapes digit wide operands mode = .ok f → f.modrm = some byte →
      f.addressSize = some (m.effectiveWidth mode) ∧ m.UsableBase mode ∧
        (m.UsableIndex mode ↔ ¬ m.SpecialIndex) ∧
        (m.SpecialIndex → ∃ a, m.encode mode = .ok a ∧ m.asAccumulator.encode mode = .ok a)) ∧
    (.rm ∈ layout.places → ¬ m.UsableBase mode ∨ (¬ m.UsableIndex mode ∧ ¬ m.SpecialIndex) →
      ∃ e, encode layout shapes digit wide operands mode = .error e) := by
  constructor
  · intro f byte h hbyte
    have hplace := (isSome_modrm_iff h).1 (by rw [hbyte]; rfl)
    obtain ⟨a, ha, hsize⟩ := exists_address hplace hrm hm h
    refine ⟨?_, (Memory.registers_of_encode ha).1, Memory.usableIndex_iff ha, fun hspecial => ?_⟩
    · rw [hsize, (Memory.encode_eq_ok ha).1]
    · exact ⟨a, ha, Memory.encode_asAccumulator hspecial ha⟩
  · intro hplace hunusable
    cases h : encode layout shapes digit wide operands mode with
    | error e => exact ⟨e, rfl⟩
    | ok f =>
      obtain ⟨a, ha, -⟩ := exists_address hplace hrm hm h
      obtain ⟨hbase, hindex⟩ := Memory.registers_of_encode ha
      rcases hunusable with hno | ⟨hno, hspecial⟩
      · exact absurd hbase hno
      · exact absurd (hindex.resolve_right hspecial) hno

/-- In `mov [rsp + r12*4], rax` both registers are of use; `[r12 + rsp*4]` is refused. -/
theorem encode_registers_stack :
    let address : Memory := ⟨some (.general .qword 4), some ⟨.general .qword 12, 4⟩, none, none, none⟩
    let swapped : Memory := ⟨some (.general .qword 12), some ⟨.general .qword 4, 4⟩, none, none, none⟩
    let operands (m : Memory) : List Operand :=
      [.ofMemory m none .nowhere, .ofRegister (.accumulator .qword) .nowhere]
    (∃ f byte, encode .mr [.rm .qword, .reg .qword] none true (operands address) .bits64 = .ok f ∧
      f.modrm = some byte ∧ f.addressSize = some .qword ∧ address.UsableBase .bits64 ∧
        address.UsableIndex .bits64) ∧
      ∃ e, encode .mr [.rm .qword, .reg .qword] none true (operands swapped) .bits64 = .error e := by
  intro address swapped operands
  have hplain : ¬ address.SpecialIndex := by
    rintro ⟨i, hi, hspecial⟩
    cases hi
    cases hspecial
  have hswapped : ¬ swapped.UsableIndex .bits64 ∧ ¬ swapped.SpecialIndex := by
    refine ⟨fun husable => ?_, ?_⟩
    · exact absurd (husable _ rfl) (by decide)
    · rintro ⟨i, hi, hspecial⟩
      cases hi
      cases hspecial
  constructor
  · obtain ⟨f, hf⟩ : ∃ f, encode .mr [.rm .qword, .reg .qword] none true (operands address) .bits64 =
        .ok f := ⟨_, rfl⟩
    obtain ⟨byte, hbyte⟩ := Option.isSome_iff_exists.1 ((isSome_modrm_iff hf).2 (by decide))
    obtain ⟨hsize, hbase, hindex, -⟩ :=
      (encode_registers (m := address) .mr none true .bits64 rfl rfl).1 f byte hf hbyte
    exact ⟨f, byte, hf, hbyte, hsize, hbase, hindex.2 hplain⟩
  · exact (encode_registers (m := swapped) .mr none true .bits64 rfl rfl).2 (by decide) (.inr hswapped)

/-- The instruction pointer as index is no index, and yet the address gets the encoding of `[eax]`
scaled by one. -/
theorem encode_pointer_index :
    let address : Memory := ⟨none, some ⟨.eip, 1⟩, none, none, none⟩
    let operands : List Operand := [.ofMemory address none .nowhere]
    ∃ f, encode .m [.memAny] (some 0) false operands .bits64 = .ok f ∧ f.modrm = some 0x04 ∧
      f.sib = some 0x05 ∧ ¬ address.UsableIndex .bits64 := by
  intro address operands
  refine ⟨_, rfl, by decide, by decide, fun husable => ?_⟩
  exact absurd (husable _ rfl) (by decide)

end OperandFields

end IntelAsm
