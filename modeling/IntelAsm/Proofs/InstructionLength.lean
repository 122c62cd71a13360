/-
How long an instruction can get. The parts of an instruction exclude each
other: an operand-size byte comes with a narrow immediate or outside 64-bit
mode, and a REX byte only inside it. `Row.room` adds up what a row can need at
most in a mode, every instruction of the row fits in there
(`Row.WellFormed.size_assembled_le`), and no row of the table has room for more than 15
bytes (`Table.room_le`). That is as many as an instruction may have, so the limit
is reached by some and refuses none (`Table.encode_within_limit`).

An instruction can still be refused for other reasons. Each function of the
encoder has a lemma here that lists its own (`FailsWith`); the length is none of
them.
-/
import IntelAsm.Proofs.AddressFacts
import IntelAsm.Proofs.SelectFacts

namespace IntelAsm

/-! ## Reasons to refuse operands -/

namespace EncodingError

/-- The reasons that a part of an address can be refused for. -/
def isOfPart : EncodingError → Bool
  | .illegalScale _ | .invalidIndex _ | .invalidBase _ | .displacementRange _ => true
  | _ => false

/-- The reasons that the operands of a form can be refused for. -/
def isOfOperands : EncodingError → Bool
  | .invalidCombination _ | .ripWithIndex | .addressSize .. => true
  | e => e.isOfPart

end EncodingError

namespace Memory

variable {α : Type}

/-- A part of an address is refused for what it is. -/
def PartFails (x : Except EncodingError α) : Prop := FailsWith (fun e => e.isOfPart = true) x

/-- Why an address is refused: for a part of it, for an index beside the instruction pointer, or for
its width. -/
inductive Refusal (m : Memory) (mode : Mode) : EncodingError → Prop
  | part {e : EncodingError} (h : e.isOfPart = true) : Refusal m mode e
  | pointer {base : Register} (hbase : m.base = some base) (hpointer : base.isPointer = true)
    (hindex : m.index.isSome = true) : Refusal m mode .ripWithIndex
  | width {w : Width} (hw : m.effectiveWidth mode = w) : Refusal m mode (.addressSize w.bits mode.bits)

theorem Refusal.isOfOperands {m : Memory} {mode : Mode} {e : EncodingError} (h : m.Refusal mode e) :
    e.isOfOperands = true := by
  cases h with
  | part h => cases e <;> first | rfl | exact h
  | pointer | width => rfl

theorem dispField_fails (m : Memory) (w : Width) (takes : Int → Bool) (pcRelative signed : Bool) :
    PartFails (m.dispField w takes pcRelative signed) := by
  unfold dispField
  split
  · exact .ok _
  · split
    · exact .ok _
    · exact .error rfl
  · exact .ok _

theorem dispForm_fails (m : Memory) (rm noneCode : Nat) {wide : Except EncodingError Field}
    (hwide : PartFails wide) : PartFails (m.dispForm rm noneCode wide) := by
  unfold dispForm
  split
  · exact .ok _
  · split
    · split
      · exact .ok _
      · exact hwide.map
    · exact hwide.map

theorem scaleCode_fails (scale : Int64) : PartFails (scaleCode scale) := by
  unfold scaleCode
  iterate 4
    split
    · exact .ok _
  exact .error rfl

theorem indexCodes_fails (m : Memory) : PartFails m.indexCodes := by
  unfold indexCodes
  split
  · exact .ok _
  · exact (scaleCode_fails _).bind fun _ => .guard rfl (.ok _)

theorem isSome_index_of_indexCodes {m : Memory} {codes : Nat × Nat}
    (h : m.indexCodes = .ok (some codes)) : m.index.isSome = true := by
  rcases indexCodes_eq_ok h with ⟨-, hnone⟩ | ⟨i, code, hi, -⟩
  · cases hnone
  · rw [hi]
    rfl

theorem encodeWide_fails (m : Memory) (address : Width) (mode : Mode) :
    FailsWith (m.Refusal mode) (m.encodeWide address mode) := by
  unfold encodeWide
  refine (m.indexCodes_fails.mono fun _ => .part).bind_of_ok fun index hindex => ?_
  cases hbase : m.base with
  | none => exact ((dispField_fails ..).mono fun _ => .part).bind fun _ => .ok _
  | some base =>
    simp only
    split
    · rename_i hpointer
      refine .guard_of (fun hsome => ?_) (.guard (.part rfl) ?_)
      · obtain ⟨codes, rfl⟩ := Option.isSome_iff_exists.1 hsome
        exact .pointer hbase hpointer (isSome_index_of_indexCodes hindex)
      · exact ((dispField_fails ..).mono fun _ => .part).bind fun _ => .ok _
    · refine .guard (.part rfl) ?_
      exact ((m.dispForm_fails _ _ (dispField_fails ..)).mono fun _ => .part).bind fun _ => .ok _

theorem wordCode_fails (base index : Option Register) : PartFails (wordCode base index) := by
  unfold wordCode
  split
  · exact .ok _
  all_goals
    split
    · exact .ok _
    · exact .error rfl

theorem checkScale_fails (m : Memory) : PartFails m.checkScale := by
  unfold checkScale
  split
  · exact .guard rfl (.ok _)
  · exact .ok _

theorem encodeWord_fails {m : Memory} {mode : Mode} (hw : m.effectiveWidth mode = .word) :
    FailsWith (m.Refusal mode) (m.encodeWord mode) := by
  unfold encodeWord
  refine .guard_of (fun hmode => ?_) ?_
  · subst hmode
    exact .width hw
  · refine ((m.checkScale_fails.bind fun _ => (wordCode_fails _ _).bind fun code => ?_).mono
      fun _ => .part)
    split
    · exact (dispField_fails ..).bind fun _ => .ok _
    · exact (m.dispForm_fails _ _ (dispField_fails ..)).bind fun _ => .ok _

theorem checkWidths_fails (m : Memory) (address : Width) : PartFails (m.checkWidths address) := by
  unfold checkWidths
  split
  · exact .error rfl
  · exact .error rfl
  · exact .ok _

/-- **An address is refused for what it is.** -/
theorem encode_fails (m : Memory) (mode : Mode) : FailsWith (m.Refusal mode) (m.encode mode) := by
  unfold encode
  refine ((m.checkWidths_fails _).mono fun _ => .part).bind fun _ => ?_
  cases hw : m.effectiveWidth mode with
  | word => exact encodeWord_fails hw
  | dword => exact m.encodeWide_fails _ mode
  | qword => exact .guard (.width hw) (m.encodeWide_fails _ mode)
  | byte => exact .error (.width hw)

end Memory

/-- The operands of a form are refused for what they are. -/
def OperandsFail {α : Type} (x : Except EncodingError α) : Prop :=
  FailsWith (fun e => e.isOfOperands = true) x

namespace Roles

theorem assign_fails (withSegment : Bool) (roles : Roles) (slot : Shape × Operand) :
    OperandsFail (roles.assign withSegment slot) := by
  obtain ⟨s, o⟩ := slot
  cases s with
  | imm w | immSigned w =>
    simp only [assign, assign.immediate]
    split
    · exact .ok _
    · exact .error rfl
  | rel w =>
    simp only [assign]
    split
    · exact .ok _
    · exact .error rfl
  | reg w =>
    simp only [assign]
    split <;> exact .ok _
  | one | fixed | segment | rm | rmDefault | mem | memAny => exact .ok _

theorem requireRegister_fails (roles : Roles) : OperandsFail roles.requireRegister := by
  unfold requireRegister
  split
  · exact .ok _
  · exact .error rfl

theorem requireRm_fails (roles : Roles) : OperandsFail roles.requireRm := by
  unfold requireRm
  split
  · exact .ok _
  · exact .error rfl

end Roles

namespace OperandFields

theorem withRm_fails (f : OperandFields) (reg : Nat) (o : Operand) (mode : Mode) :
    OperandsFail (f.withRm reg o mode) := by
  unfold withRm
  split
  · exact .ok _
  · rename_i m _
    exact ((m.encode_fails mode).mono fun _ => Memory.Refusal.isOfOperands).bind fun _ => .ok _
  · exact .error rfl

/-- **Operands are refused for what they are.** -/
theorem encode_fails (layout : OperandLayout) (shapes : List Shape) (digit : Option Nat)
    (wide : Bool) (operands : List Operand) (mode : Mode) :
    OperandsFail (encode layout shapes digit wide operands mode) := by
  unfold encode
  refine .guard rfl ?_
  have hroles : OperandsFail (Roles.ofSlots shapes operands) :=
    .foldlM (fun roles slot _ => roles.assign_fails _ slot) _
  refine hroles.bind fun roles => ?_
  cases layout with
  | np | i | d => exact .ok _
  | o | oi => exact roles.requireRegister_fails.bind fun _ => .ok _
  | m | mi =>
    cases digit with
    | none => exact .error rfl
    | some digit => exact roles.requireRm_fails.bind fun _ => withRm_fails ..
  | mr | rm | rmi =>
    exact roles.requireRegister_fails.bind fun _ => roles.requireRm_fails.bind fun _ => withRm_fails ..

end OperandFields

/-! ## The size of each part -/

theorem PrefixBytes.length_bytes (p : PrefixBytes) : p.bytes.length =
    p.group1.toList.length + p.group2.toList.length + p.operandSize.toNat + p.addressSize.toNat := by
  have hswitch : ∀ (b : Bool) (byte : UInt8), (if b then [byte] else []).length = b.toNat := by
    intro b byte
    cases b <;> rfl
  simp only [bytes, List.length_append, hswitch]

theorem PrefixBytes.length_bytes_le (p : PrefixBytes) :
    p.bytes.length ≤ 2 + p.operandSize.toNat + p.addressSize.toNat := by
  have hgroup : ∀ byte : Option UInt8, byte.toList.length ≤ 1 := by
    intro byte
    cases byte <;> simp
  have h1 := hgroup p.group1
  have h2 := hgroup p.group2
  rw [length_bytes]
  omega

/-- The size of the field that a slot fills. -/
def Shape.fieldSize : Shape → Nat
  | .imm w | .immSigned w | .rel w => w.bytes
  | _ => 0

theorem Field.size_ofImmediate (size : Nat) (i : Immediate) (signed : Bool) :
    (ofImmediate size i signed).size = size := by
  unfold ofImmediate
  split <;> rfl

namespace Roles

/-- The size of the fields that the operands fill. -/
def fieldSize (roles : Roles) : Nat := roles.imm.size + roles.rel.size

/-- One more operand adds the field of its slot, if the slot takes no value or there is none yet. -/
theorem fieldSize_assign {withSegment : Bool} {roles roles' : Roles} {slot : Shape × Operand}
    (hfree : slot.1.takesImmediate = true → roles.fieldSize = 0)
    (h : roles.assign withSegment slot = .ok roles') :
    roles'.fieldSize = roles.fieldSize + slot.1.fieldSize := by
  obtain ⟨s, o⟩ := slot
  cases s with
  | imm w | immSigned w =>
    have hempty := hfree rfl
    simp only [fieldSize] at hempty
    simp only [assign, assign.immediate] at h
    split at h
    · cases h
      simp only [fieldSize, Field.size_ofImmediate, Shape.fieldSize]
      omega
    · cases h
  | rel w =>
    have hempty := hfree rfl
    simp only [fieldSize] at hempty
    simp only [assign] at h
    split at h
    · cases h
      simp only [fieldSize, Field.later, Shape.fieldSize]
      omega
    · cases h
  | reg w =>
    simp only [assign] at h
    split at h <;> cases h <;> rfl
  | one | fixed | segment | rm | rmDefault | mem | memAny =>
    cases h
    rfl

/-- **The slots of a form fill the fields they ask for**, if one slot takes a value at most. -/
theorem fieldSize_ofSlots {shapes : List Shape} {operands : List Operand} {roles : Roles}
    (hlen : shapes.length = operands.length) (hcount : shapes.countP Shape.takesImmediate ≤ 1)
    (h : ofSlots shapes operands = .ok roles) :
    roles.fieldSize = (shapes.map Shape.fieldSize).sum := by
  have hshapes : (shapes.zip operands).map Prod.fst = shapes := List.map_fst_zip hlen.le
  have hsilent : ∀ s : Shape, s.takesImmediate = false → s.fieldSize = 0 := by
    intro s hs
    cases s with
    | imm | immSigned | rel => cases hs
    | _ => rfl
  -- As long as no field is filled, one may come; once one is filled, none will.
  have hall := foldlM_rest (I := fun slots roles =>
      (roles.fieldSize = 0 ∨ (slots.map Prod.fst).countP Shape.takesImmediate = 0) ∧
      (slots.map Prod.fst).countP Shape.takesImmediate ≤ 1 ∧
      roles.fieldSize + ((slots.map Prod.fst).map Shape.fieldSize).sum =
        (shapes.map Shape.fieldSize).sum)
    (fun slot slots before after hinv hassign => ?_) ⟨.inl rfl, ?_, ?_⟩ h
  · simpa using hall.2.2
  · obtain ⟨hfree, hone, hsum⟩ := hinv
    simp only [List.map_cons, List.countP_cons, List.sum_cons] at hfree hone hsum
    have hfirst : slot.1.takesImmediate = true → before.fieldSize = 0 := by
      intro htakes
      rcases hfree with hfree | hfree
      · exact hfree
      · rw [if_pos htakes] at hfree
        omega
    have hfield := fieldSize_assign hfirst hassign
    refine ⟨?_, by omega, by omega⟩
    cases htakes : slot.1.takesImmediate with
    | true =>
      rw [if_pos htakes] at hone
      exact .inr (by omega)
    | false =>
      rw [htakes] at hfree
      rw [hfield, hsilent _ htakes]
      simpa using hfree
  · rw [hshapes]
    exact hcount
  · rw [hshapes]
    exact Nat.zero_add _

end Roles

theorem Memory.size_disp_le {m : Memory} {mode : Mode} {a : AddressForm}
    (h : m.encode mode = .ok a) : a.disp.size ≤ 4 := by
  have hfield : ∀ {w : Width} {takes : Int → Bool} {pcRelative signed : Bool} {f : Field},
      m.dispField w takes pcRelative signed = .ok f → f.size = w.bytes := by
    intro w takes pcRelative signed f hf
    rcases dispField_eq_ok hf with ⟨-, rfl⟩ | ⟨d, v, -, -, rfl, -⟩ | ⟨d, e, b, -, -, rfl⟩ <;> rfl
  refine encode_disp (P := fun _ f => f.size ≤ 4) ?_ ?_ ?_ ?_ h
  · intro _
    exact Nat.zero_le 4
  · intro _ _ _
    exact Nat.le_of_ble_eq_true rfl
  · intro _ _ f hf
    exact (hfield hf).le
  · intro f hf
    rw [hfield hf]
    exact Nat.le_of_ble_eq_true rfl

namespace OperandFields

/-- The bytes that an operand in the r/m part takes: an address-size byte, the ModR/M and SIB bytes and
the displacement. -/
def rmSize (f : OperandFields) (mode : Mode) : Nat :=
  (f.addressSize.any (· ≠ mode.addressWidth)).toNat + f.modrm.toList.length + f.sib.toList.length +
    f.disp.size

/-- The most that an operand in the r/m part can take. -/
def rmRoom : Nat := 7

theorem rmSize_withRm {f g : OperandFields} {reg : Nat} {o : Operand} {mode : Mode}
    (hf : f.rmSize mode = 0) (h : f.withRm reg o mode = .ok g) : g.rmSize mode ≤ rmRoom := by
  unfold rmSize at hf
  rcases withRm_eq_ok h with ⟨r, -, rfl⟩ | ⟨m, a, -, ha, rfl⟩
  · simp only [rmSize, rmRegister, Option.toList_some, List.length_singleton, rmRoom]
    omega
  · have hdisp := Memory.size_disp_le ha
    have hsib : a.sib.toList.length ≤ 1 := by cases a.sib <;> simp
    have hswitch := Bool.toNat_le ((some a.width).any (· ≠ mode.addressWidth))
    simp only [rmSize, rmAddress, Option.toList_some, List.length_singleton, rmRoom]
    omega

/-- **The operands of a form** take the fields of their slots, and the bytes of an address only if the
layout has an r/m part. -/
theorem encode_size {layout : OperandLayout} {shapes : List Shape} {digit : Option Nat} {wide : Bool}
    {operands : List Operand} {mode : Mode} {f : OperandFields}
    (hcount : shapes.countP Shape.takesImmediate ≤ 1)
    (h : encode layout shapes digit wide operands mode = .ok f) :
    f.rmSize mode ≤ (if .rm ∈ layout.places then rmRoom else 0) ∧
      f.imm.size + f.rel.size = (shapes.map Shape.fieldSize).sum := by
  have hlen := length_of_encode h
  obtain ⟨roles, hroles, h⟩ := encode_cases h
  have hfields : roles.imm.size + roles.rel.size = (shapes.map Shape.fieldSize).sum :=
    Roles.fieldSize_ofSlots hlen hcount hroles
  have hrm : ∀ {g : OperandFields} {reg : Nat} {o : Operand}, g.rmSize mode = 0 → g.imm = roles.imm →
      g.rel = roles.rel → g.disp = .absent → g.withRm reg o mode = .ok f → .rm ∈ layout.places →
      f.rmSize mode ≤ (if .rm ∈ layout.places then rmRoom else 0) ∧
        f.imm.size + f.rel.size = (shapes.map Shape.fieldSize).sum := by
    intro g reg o hzero himm hrel hdisp hwith hplace
    obtain ⟨himm', hrel', -⟩ := withRm_displacement hdisp hwith
    rw [if_pos hplace, himm', hrel', himm, hrel]
    exact ⟨rmSize_withRm hzero hwith, hfields⟩
  rcases h with ⟨-, rfl⟩ | ⟨-, r, -, rfl⟩ | ⟨hplaces, d, o, -, -, h⟩ | ⟨hplaces, r, o, -, -, h⟩
  · exact ⟨Nat.zero_le _, hfields⟩
  · exact ⟨Nat.zero_le _, hfields⟩
  · exact hrm rfl rfl rfl rfl h (by rw [hplaces]; decide)
  · exact hrm rfl rfl rfl rfl h (by rw [hplaces]; decide)

end OperandFields

/-! ## Rows -/

namespace Row

/-- Room for every instruction of the row in a mode: a prefix of each group, the operand-size byte where
the size of the operation asks for it, a REX byte in 64-bit mode, the opcode, an address where the
layout has one, and the fields of the slots. -/
def room (row : Row) (mode : Mode) : Nat :=
  2 + ((row.sizeSwitches mode).toOption.map fun s => s.1.toNat).getD 0 +
    (if mode = .bits64 then 1 else 0) + row.opcode.length +
    (if .rm ∈ row.layout.places then OperandFields.rmRoom else 0) +
    (row.shapes.map Shape.fieldSize).sum

theorem sizeSwitches_fails (row : Row) (mode : Mode) :
    FailsWith (fun e => ∃ bits modeBits, e = .operandSize bits modeBits) (row.sizeSwitches mode) := by
  unfold sizeSwitches
  split
  · exact .ok _
  · exact .ok _
  · exact .guard ⟨_, _, rfl⟩ (.ok _)
  · exact .ok _
  · exact .ok _

theorem compose_fails (q : RexRequest) : FailsWith (fun e => e = .rexConflict) q.compose := by
  unfold RexRequest.compose
  split
  · exact .ok _
  · exact .guard rfl (.ok _)

/-- **An instruction fits in the room of its row.** -/
theorem WellFormed.size_assembled_le {row : Row} (hw : row.WellFormed) {operands : List Operand}
    {prefixes : PrefixBytes} {mode : Mode} {span : Span} {operandSize wide : Bool} {f : OperandFields}
    {rex : Option UInt8} (hsize : row.sizeSwitches mode = .ok (operandSize, wide))
    (hf : OperandFields.encode row.layout row.shapes row.digit wide operands mode = .ok f)
    (hrex : rex.isSome = true → mode = .bits64) :
    (row.assembled prefixes operandSize mode f rex span).size ≤ row.room mode := by
  obtain ⟨hrm, hfields⟩ := OperandFields.encode_size hw.2.2 hf
  have hprefixes := PrefixBytes.length_bytes_le
    (row.assembled prefixes operandSize mode f rex span).prefixes
  have hrexSize : rex.toList.length ≤ if mode = .bits64 then 1 else 0 := by
    cases rex with
    | none => exact Nat.zero_le _
    | some byte => rw [if_pos (hrex rfl)]; exact Nat.le_refl 1
  have hopcode := hw.length_opcode f.opcodeReg
  simp only [OperandFields.rmSize] at hrm
  simp only [assembled] at hprefixes
  simp only [Instruction.size, Instruction.header, assembled, List.length_append, room, hsize,
    toOption_ok, Option.map_some, Option.getD_some, hopcode]
  omega

end Row

/-- No row has room for more than the limit, in no mode. -/
theorem Table.room_le : ∀ entry ∈ Table.entries, ∀ row ∈ entry.2, ∀ mode ∈ Mode.all,
    row.room mode ≤ Row.maxSize := by
  decide +kernel

namespace Row

/-- The instruction of a row, however long. -/
def unlimited (row : Row) (operands : List Operand) (prefixes : PrefixBytes) (mode : Mode)
    (span : Span) : Except EncodingError Instruction := do
  let switches ← row.sizeSwitches mode
  let f ← OperandFields.encode row.layout row.shapes row.digit switches.2 operands mode
  let rex ← f.rex.compose
  if rex.isSome && mode ≠ .bits64 then .error .rexOutsideLongMode
  else return row.assembled prefixes switches.1 mode f rex span

/-- Without a limit nothing is too long. -/
theorem unlimited_fails (row : Row) (operands : List Operand) (prefixes : PrefixBytes) (mode : Mode)
    (span : Span) :
    FailsWith (fun e => ∀ n, e ≠ .tooLong n) (row.unlimited operands prefixes mode span) := by
  have hoperands : ∀ e : EncodingError, e.isOfOperands = true → ∀ n, e ≠ .tooLong n := by
    rintro e he n rfl
    cases he
  refine FailsWith.bind ((row.sizeSwitches_fails mode).mono ?_) fun switches => ?_
  · rintro e ⟨bits, modeBits, rfl⟩ n
    nofun
  refine FailsWith.bind ((OperandFields.encode_fails ..).mono hoperands) fun f => ?_
  refine FailsWith.bind ((compose_fails f.rex).mono ?_) fun rex => ?_
  · rintro e rfl n
    nofun
  · exact .guard nofun (.ok _)

/-- Where there is room, the limit makes no difference. -/
theorem WellFormed.encode_eq_unlimited {row : Row} (hw : row.WellFormed) {mode : Mode}
    (hroom : row.room mode ≤ maxSize) (operands : List Operand) (prefixes : PrefixBytes)
    (span : Span) :
    row.encode operands prefixes mode span = row.unlimited operands prefixes mode span := by
  refine bind_congr_ok fun switches hsize => ?_
  obtain ⟨operandSize, wide⟩ := switches
  refine bind_congr_ok fun f hf => bind_congr_ok fun rex _ => ?_
  by_cases hmode : (rex.isSome && mode ≠ .bits64) = true
  · rw [if_pos hmode, if_pos hmode]
  · rw [if_neg hmode, if_neg hmode]
    have hrex : rex.isSome = true → mode = .bits64 := by
      intro hrex
      simpa [hrex] using hmode
    have hle : (row.assembled prefixes operandSize mode f rex span).size ≤ row.room mode :=
      hw.size_assembled_le hsize hf hrex
    exact if_neg (Nat.not_lt.2 (hle.trans hroom))

end Row

/-- **The limit on the length of an instruction is never met.** For every row of the table, whatever the
operands, the prefixes and the mode: the row has the encoding that it would have without the limit. So
it refuses nothing for its length, and what it encodes has at least one byte and at most 15. -/
theorem Table.encode_within_limit {entry : String × List Row} (hentry : entry ∈ Table.entries)
    {row : Row} (hrow : row ∈ entry.2) (operands : List Operand) (prefixes : PrefixBytes) (mode : Mode)
    (span : Span) :
    row.encode operands prefixes mode span = row.unlimited operands prefixes mode span ∧
      (∀ n, row.encode operands prefixes mode span ≠ .error (.tooLong n)) ∧
      ∀ e, row.encode operands prefixes mode span = .ok e → 1 ≤ e.size ∧ e.size ≤ 15 := by
  have hw := Table.rows_wellFormed entry hentry row hrow
  have hroom := Table.room_le entry hentry row hrow mode (by cases mode <;> decide)
  have hunlimited := hw.encode_eq_unlimited hroom operands prefixes span
  refine ⟨hunlimited, fun n htoo => ?_, fun e he => hw.size_encode he⟩
  rw [hunlimited] at htoo
  exact (row.unlimited_fails operands prefixes mode span).reason htoo n rfl

/-- The instruction `lock add dword ptr fs:[r8d + r9d*4 + 0x12345678], 0x11223344` in 64-bit mode has 15
bytes. -/
theorem Table.encode_within_limit_locked :
    ∃ (i : ParsedInstruction) (operands : List Operand) (prefixes : PrefixBytes) (row : Row)
      (e : Instruction),
      row ∈ Row.arithmetic 0x00 0 ∧
      ParsedOperand.evaluateAll (fun _ => none) i.operands = .ok operands ∧
      PrefixBytes.compose i.prefixes operands = .ok prefixes ∧
      Shape.acceptAll row.shapes operands = true ∧
      row.unlimited operands prefixes .bits64 i.span = .ok e ∧
      row.encode operands prefixes .bits64 i.span = .ok e ∧ e.size = 15 := by
  let address : Expr := .binary .add (.binary .add (.var "r8d") (.binary .mul (.var "r9d") (.int 4)))
    (.int 0x12345678)
  let i : ParsedInstruction := ⟨"add", [.lock],
    [⟨some .dword, false, true, none, some (.segment .fs), address, .nowhere⟩,
      ⟨none, false, false, none, none, .int 0x11223344, .nowhere⟩], .nowhere⟩
  let operands : List Operand :=
    [.ofMemory ⟨some (.general .dword ⟨8, by decide⟩), some ⟨.general .dword ⟨9, by decide⟩, 4⟩,
      some (.fixed 0x12345678), some .dword, some (.segment .fs)⟩ (some .dword) .nowhere,
      .ofImmediate (.fixed 0x11223344) .nowhere]
  let prefixes : PrefixBytes := ⟨some 0xF0, some 0x64, false, false⟩
  let row : Row := .rmWith (.imm .dword) [0x81] 0 .dword
  let e : Instruction := ⟨⟨some 0xF0, some 0x64, false, true⟩, some 0x43, .ofBytes [0x81], some 0x84,
    some 0x88, .fixed 4 0x12345678, .fixed 4 0x11223344, .absent, .nowhere⟩
  have hrow : row ∈ Row.arithmetic 0x00 0 := by decide +kernel
  have hops : (ParsedOperand.evaluateAll (fun _ => none) i.operands).toOption = some operands := by
    decide +kernel
  have hpre : (PrefixBytes.compose i.prefixes operands).toOption = some prefixes := by decide +kernel
  have henc : (row.unlimited operands prefixes .bits64 .nowhere).toOption = some e := by decide +kernel
  rw [toOption_eq_some] at hops hpre henc
  have hentry : ("add", Row.arithmetic 0x00 0) ∈ Table.entries :=
    List.mem_append_left _ (by simp [Table.general])
  have hlimit := (Table.encode_within_limit hentry hrow operands prefixes .bits64 .nowhere).1
  exact ⟨i, operands, prefixes, row, e, hrow, hops, hpre, by decide +kernel, henc, hlimit.trans henc,
    by decide⟩

end IntelAsm
