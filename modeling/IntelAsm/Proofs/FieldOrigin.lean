/-
What an encoded instruction waits for. A field that is still to be filled in
holds an expression, and the expression was in an operand: the displacement of
an address, a value in a slot for immediates, or the target of a branch
(`Row.encode_supplied`). So all its symbols are symbols of the source
(`ParsedInstruction.encode_symbols`).
-/
import IntelAsm.Proofs.AddressFacts
import IntelAsm.Proofs.SymbolUse

namespace IntelAsm

/-! ## Displacements -/

namespace Memory

theorem dispField_deferred {m : Memory} {w : Width} {takes : Int → Bool} {pcRelative signed : Bool}
    {f : Field} {x : Expr} (h : m.dispField w takes pcRelative signed = .ok f)
    (hx : f.deferred = some x) :
    (∃ d b, m.disp = some d ∧ d.value = .symbolic x b) ∧ f.pcRelative = pcRelative := by
  rcases dispField_eq_ok h with ⟨-, rfl⟩ | ⟨d, v, -, -, rfl, -⟩ | ⟨d, e, b, hd, hv, rfl⟩
  · cases hx
  · cases hx
  · cases hx
    exact ⟨⟨d, b, hd, hv⟩, rfl⟩

/-- A displacement that waits is a wide one. -/
theorem dispForm_deferred {m : Memory} {rm noneCode modBits : Nat} {wide : Except EncodingError Field}
    {f : Field} {x : Expr} (h : m.dispForm rm noneCode wide = .ok (modBits, f))
    (hx : f.deferred = some x) : wide = .ok f := by
  rcases dispForm_eq_ok h with ⟨-, -, -, rfl⟩ | ⟨-, -, rfl⟩ | ⟨d, v, -, -, -, -, rfl⟩ | ⟨-, hwide⟩
  · cases hx
  · cases hx
  · cases hx
  · exact hwide

theorem wordPairs_no_pointer :
    ∀ pair ∈ wordPairs, pair.1.1.any Register.isPointer = false ∧
      pair.1.2.any Register.isPointer = false := by
  decide

/-- A displacement that waits is that of the address, and counts from the instruction exactly if
the base is the instruction pointer. -/
theorem encode_deferred {m : Memory} {mode : Mode} {a : AddressForm} {x : Expr}
    (h : m.encode mode = .ok a) (hx : a.disp.deferred = some x) :
    (∃ d b, m.disp = some d ∧ d.value = .symbolic x b) ∧
      a.disp.pcRelative = m.base.any Register.isPointer := by
  have hwide : ∀ {w}, m.encodeWide w mode = .ok a →
      (∃ d b, m.disp = some d ∧ d.value = .symbolic x b) ∧
        a.disp.pcRelative = m.base.any Register.isPointer := by
    intro w hw
    obtain ⟨index, -, hw⟩ := encodeWide_eq_ok hw
    rcases hw with ⟨hbase, disp, hd, rfl⟩ | ⟨base, hbase, hptr, -, -, disp, hd, rfl⟩ |
      ⟨base, hbase, haddr, modBits, disp, hd, rfl⟩
    · rw [disp_absoluteForm] at hx ⊢
      rw [hbase]
      exact dispField_deferred hd hx
    · rw [hbase, Option.any_some, hptr]
      exact dispField_deferred hd hx
    · rw [disp_basedForm] at hx ⊢
      have hptr : base.isPointer = false := by
        simp [Register.isPointer, (Register.isAddress_iff.1 haddr).1]
      rw [hbase, Option.any_some, hptr]
      exact dispField_deferred (dispForm_deferred hd hx) hx
  obtain ⟨-, -, -, ⟨-, h⟩ | ⟨-, h⟩ | ⟨-, -, h⟩⟩ := encode_eq_ok h
  · obtain ⟨-, -, ⟨hbase, -, disp, hd, rfl⟩ | ⟨rm, hpair, modBits, disp, hd, rfl⟩⟩ :=
      encodeWord_eq_ok h
    · rw [hbase]
      exact dispField_deferred hd hx
    · have hptr : m.base.any Register.isPointer = false := by
        rcases hpair with hpair | hpair
        · exact (wordPairs_no_pointer _ hpair).1
        · exact (wordPairs_no_pointer _ hpair).2
      rw [hptr]
      exact dispField_deferred (dispForm_deferred hd hx) hx
  · exact hwide h
  · exact hwide h

end Memory

/-! ## Operands -/

namespace Roles

/-- The r/m part is an operand of the form. -/
theorem requireRm_mem {shapes : List Shape} {operands : List Operand} {roles : Roles} {o : Operand}
    (h : ofSlots shapes operands = .ok roles) (ho : roles.requireRm = .ok o) : o ∈ operands := by
  obtain ⟨slot, hslot, -, rfl⟩ := exists_slot_of_operand? h (requireRm_eq_ok.1 ho)
  exact (List.of_mem_zip hslot).2

end Roles

/-- The displacement of a form is that of an operand in memory. -/
theorem OperandFields.encode_address {layout : OperandLayout} {shapes : List Shape}
    {digit : Option Nat} {wide : Bool} {operands : List Operand} {mode : Mode} {f : OperandFields}
    (h : encode layout shapes digit wide operands mode = .ok f) :
    f.disp = .absent ∨ ∃ o ∈ operands, ∃ m a, o.kind = .memory m ∧ m.encode mode = .ok a ∧
      f.disp = a.disp := by
  have hrm {roles : Roles} {g : OperandFields} {reg : Nat} {o : Operand} (hg : g.disp = .absent)
      (hroles : Roles.ofSlots shapes operands = .ok roles) (ho : roles.requireRm = .ok o)
      (h : g.withRm reg o mode = .ok f) :
      f.disp = .absent ∨ ∃ o ∈ operands, ∃ m a, o.kind = .memory m ∧ m.encode mode = .ok a ∧
        f.disp = a.disp := by
    rcases withRm_eq_ok h with ⟨r, -, rfl⟩ | ⟨m, a, hm, ha, rfl⟩
    · exact .inl hg
    · exact .inr ⟨o, Roles.requireRm_mem hroles ho, m, a, hm, ha, rfl⟩
  obtain ⟨roles, hroles, h⟩ := encode_cases h
  rcases h with ⟨-, rfl⟩ | ⟨-, r, -, rfl⟩ | ⟨-, d, o, -, ho, h⟩ | ⟨-, r, o, -, ho, h⟩
  · exact .inl rfl
  · exact .inl rfl
  · exact hrm rfl hroles ho h
  · exact hrm rfl hroles ho h

/-! ## Instructions -/

namespace Row

/-- Where the expression of a field comes from: the displacement of an address, a value in a slot
for immediates, or the target of a branch. -/
inductive Supplied (row : Row) (operands : List Operand) (f : Field) (x : Expr) : FieldKind → Prop
  | displacement {o m d b} (operand : o ∈ operands) (address : o.kind = .memory m)
    (disp : m.disp = some d) (value : d.value = .symbolic x b)
    (counted : f.pcRelative = m.base.any Register.isPointer) : Supplied row operands f x .displacement
  | immediate {s o i b} (slot : (s, o) ∈ row.shapes.zip operands) (reads : s.readsBounds = true)
    (operand : o.immediate? = some i) (value : i.value = .symbolic x b) :
    Supplied row operands f x .immediate
  | branch {w o i} (slot : (.rel w, o) ∈ row.shapes.zip operands) (operand : o.immediate? = some i)
    (value : i.value.expr = x) (counted : f.pcRelative = true) : Supplied row operands f x .branch

/-- **What an encoded instruction waits for** was in its operands. -/
theorem encode_supplied {row : Row} {operands : List Operand} {prefixes : PrefixBytes} {mode : Mode}
    {span : Span} {e : Instruction} (h : row.encode operands prefixes mode span = .ok e)
    {kind : FieldKind} {x : Expr} (hx : (e.field kind).deferred = some x) :
    row.Supplied operands (e.field kind) x kind := by
  obtain ⟨operandSize, wide, f, rex, -, hf, -, -, rfl, -⟩ := encode_eq_ok h
  obtain ⟨roles, hroles, himm, hrel, -⟩ := OperandFields.encode_eq_ok hf
  obtain ⟨hslotImm, hslotRel⟩ := Roles.ofSlots_fields hroles
  cases kind with
  | displacement =>
    change f.disp.deferred = some x at hx
    change Supplied row operands f.disp x .displacement
    rcases OperandFields.encode_address hf with hnone | ⟨o, ho, m, a, hm, ha, hd⟩
    · rw [hnone] at hx
      cases hx
    · rw [hd] at hx ⊢
      obtain ⟨⟨d, b, hdisp, hvalue⟩, hcounted⟩ := Memory.encode_deferred ha hx
      exact .displacement ho hm hdisp hvalue hcounted
  | immediate =>
    change f.imm.deferred = some x at hx
    change Supplied row operands f.imm x .immediate
    rw [himm] at hx ⊢
    rcases hslotImm with hnone | ⟨⟨s, o⟩, hslot, w, signed, i, hs, hi, hfield⟩
    · rw [hnone] at hx
      cases hx
    · rw [hfield] at hx
      cases hv : i.value with
      | fixed v =>
        simp only [Field.ofImmediate, hv] at hx
        cases hx
      | symbolic y b =>
        simp only [Field.ofImmediate, hv] at hx
        cases hx
        refine .immediate hslot ?_ hi hv
        cases s <;> simp [Shape.immediateField?] at hs <;> rfl
  | branch =>
    change f.rel.deferred = some x at hx
    change Supplied row operands f.rel x .branch
    rw [hrel] at hx ⊢
    rcases hslotRel with hnone | ⟨⟨s, o⟩, hslot, w, i, hs, hi, hfield⟩
    · rw [hnone] at hx
      cases hx
    · rw [hfield] at hx ⊢
      cases hx
      cases hs
      exact .branch hslot hi rfl rfl

end Row

/-- **The symbols left in an encoded instruction** are symbols of its operands. -/
theorem ParsedInstruction.encode_symbols {t : String → Option Interval} {i : ParsedInstruction}
    {mode : Mode} {e : Instruction} (h : i.encode t mode = .ok e) {kind : FieldKind} {x : Expr}
    (hx : (e.field kind).deferred = some x) {n : String} (hn : n ∈ x.names) : i.Symbol n := by
  obtain ⟨-, row, operands, prefixes, -, -, -, heval, -, -, henc⟩ := encode_eq_ok h
  -- The value in an operand mentions symbols of the operand of the source it comes from.
  have hvalue {o : Operand} {v : Immediate} (ho : o ∈ operands) (hv : o.value? = some v)
      (hn : n ∈ v.value.expr.names) : i.Symbol n := by
    obtain ⟨p, hp, hclassify⟩ := forall₂_mem_right (ParsedOperand.evaluateAll_classify heval) ho
    obtain ⟨v', hrevised⟩ := (ParsedOperand.classify_symbols hclassify).value hv
    exact ⟨p, hp, hrevised.names_expr n hn⟩
  cases row.encode_supplied henc hx with
  | @displacement o m d b ho hm hdisp hd =>
    refine hvalue ho ?_ (by rw [hd]; exact hn)
    simp [Operand.value?, Operand.immediate?, Operand.memory?, hm, hdisp]
  | @immediate s o v b hslot _ hv hsymbolic =>
    refine hvalue (List.of_mem_zip hslot).2 ?_ (by rw [hsymbolic]; exact hn)
    simp [Operand.value?, hv]
  | @branch w o v hslot hv hexpr =>
    refine hvalue (List.of_mem_zip hslot).2 ?_ (by rw [hexpr]; exact hn)
    simp [Operand.value?, hv]

end IntelAsm
