/-
A field chosen by bounds is wide enough. Three approximations meet here: the
bounds of symbols hold their final addresses, interval arithmetic carries them
over to the bounds of an expression, and a slot takes a symbolic value only if
all of its bounds fit. So the value that linking finds lies within the bounds
and is taken by the field (`Session.symbolic_immediate_patched`), whatever the
other instructions are.
-/
import IntelAsm.Proofs.LabelBounds

namespace IntelAsm

/-! ## What the evaluator knows -/

namespace Immediate

variable {symbols : String → Option Interval}

/-- The bounds of a symbolic value are those of its expression. -/
def HasBounds (symbols : String → Option Interval) (i : Immediate) : Prop :=
  ∀ e b, i.value = .symbolic e b → b = e.bounds symbols

theorem hasBounds_fixed (v : Int64) : (fixed v).HasBounds symbols := by
  intro e b h
  cases h

theorem hasBounds_ofExpr (e : Expr) : (ofExpr symbols e).HasBounds symbols := by
  intro e' b h
  cases h
  rfl

theorem hasBounds_unary {op : UnaryOp} {i j : Immediate} (h : i.unary symbols op = .ok j) :
    j.HasBounds symbols := by
  unfold unary at h
  split at h
  · rw [mapError_eq_ok] at h
    obtain ⟨v, -, rfl⟩ := map_eq_ok.1 h
    exact hasBounds_fixed v
  · cases h
    exact hasBounds_ofExpr _

theorem hasBounds_binary {op : BinaryOp} {a b j : Immediate} (h : a.binary symbols op b = .ok j) :
    j.HasBounds symbols := by
  unfold binary at h
  split at h
  · rw [mapError_eq_ok] at h
    obtain ⟨v, -, rfl⟩ := map_eq_ok.1 h
    exact hasBounds_fixed v
  · split at h
    · cases h
      exact hasBounds_ofExpr _
    · cases h
  · cases h
    exact hasBounds_ofExpr _

end Immediate

namespace OperandKind

variable {symbols : String → Option Interval}

theorem combine_eq_immediate {op : BinaryOp} {l r : OperandKind} {j : Immediate}
    (h : combine symbols op l r = .ok (.immediate j)) :
    ∃ a b, l = .immediate a ∧ r = .immediate b ∧ Immediate.binary symbols op a b = .ok j := by
  unfold combine at h
  split at h
  · obtain ⟨k, hk, heq⟩ := map_eq_ok.1 h
    cases heq
    exact ⟨_, _, rfl, rfl, hk⟩
  -- Every other sum or product is an address or makes no sense.
  all_goals simp [map_eq_ok] at h

theorem hasBounds_ofExpr {inAddress : Bool} {e : Expr} {i : Immediate}
    (h : ofExpr symbols inAddress e = .ok (.immediate i)) : i.HasBounds symbols := by
  cases e with
  | int v =>
    cases h
    exact Immediate.hasBounds_fixed v
  | var name =>
    simp only [ofExpr] at h
    split at h
    · cases h
    · split at h
      · cases h
      · cases h
        exact Immediate.hasBounds_ofExpr (.var name)
  | unary op inner =>
    simp only [ofExpr, bind_eq_ok] at h
    obtain ⟨kind, -, h⟩ := h
    split at h
    · obtain ⟨j, hj, heq⟩ := map_eq_ok.1 h
      cases heq
      exact Immediate.hasBounds_unary hj
    · cases h
  | binary op left right =>
    simp only [ofExpr, bind_eq_ok] at h
    obtain ⟨l, -, r, -, h⟩ := h
    obtain ⟨a, b, -, -, hab⟩ := combine_eq_immediate h
    exact Immediate.hasBounds_binary hab

end OperandKind

namespace ParsedOperand

variable {symbols : String → Option Interval}

/-- An operand that is a value was one before, outside brackets; a declared width is all that can
have been added. -/
theorem classify_eq_immediate {p : ParsedOperand} {o : Operand} {i : Immediate}
    (h : p.classify symbols = .ok o) (hi : o.kind = .immediate i) :
    ∃ j, OperandKind.ofExpr symbols p.address p.expr = .ok (.immediate j) ∧ i.value = j.value := by
  obtain ⟨kind, hkind, ⟨r, -, rfl⟩ | ⟨j, size, hfolded, rfl⟩ | ⟨m, size, -, -, rfl⟩⟩ := classify_cases h
  · cases hi
  · cases hi
    cases haddr : p.address with
    | true => simp [haddr] at hfolded
    | false =>
      rw [haddr] at hkind hfolded
      exact ⟨j, hkind.trans (congrArg Except.ok hfolded), rfl⟩
  · cases hi

theorem hasBounds_evaluateAll {ps : List ParsedOperand} {operands : List Operand}
    (h : evaluateAll symbols ps = .ok operands) {o : Operand} (ho : o ∈ operands) {i : Immediate}
    (hi : o.kind = .immediate i) : i.HasBounds symbols := by
  obtain ⟨p, -, hp⟩ := forall₂_mem_right (mapM_eq_ok.1 h) ho
  rw [evaluate, mapError_eq_ok] at hp
  obtain ⟨j, hj, hvalue⟩ := classify_eq_immediate hp hi
  intro e b hb
  exact OperandKind.hasBounds_ofExpr hj e b (by rw [← hvalue, hb])

end ParsedOperand

/-! ## What a slot takes -/

theorem Interval.FitsSigned.of_mem {b : Interval} {w : Width} (h : b.FitsSigned w) {v : Int64}
    (hv : b.Mem v) : w.FitsSigned v.toInt := by
  rw [Interval.mem_iff] at hv
  exact ⟨Int.le_trans h.1.1 hv.1, Int.le_trans hv.2 h.2.2⟩

/-- A slot that takes a symbolic value by its bounds takes every value within them. -/
theorem Immediate.fits_of_bounds {e : Expr} {b : Interval} {w : Width} {unsignedToo : Bool}
    (h : Immediate.fitsField ⟨.symbolic e (some b), none⟩ w unsignedToo = true) {v : Int64}
    (hv : b.Mem v) : w.FitsSigned v.toInt ∨ unsignedToo = true ∧ w.Fits v.toInt := by
  simp only [fitsField, Bool.or_eq_true, Bool.and_eq_true, decide_eq_true_eq] at h
  rcases h with (rfl | hs) | ⟨⟨hu, hmin⟩, hmax⟩
  · exact .inl (Width.fitsSigned_qword v)
  · exact .inl (hs.of_mem hv)
  · -- Bounds that start at zero may use the unsigned range.
    rw [Interval.mem_iff] at hv
    refine .inr ⟨hu, Int.le_trans ?_ hv.1, Int.le_trans hv.2 hmax⟩
    exact Int.le_trans (by cases w <;> decide) hmin

namespace Roles

/-- The field of a symbolic value without declared width waits for its expression and takes every
value within the bounds. -/
theorem ImmediateFrom.takes_bounds {slot : Shape × Operand} {f : Field} (h : ImmediateFrom slot f)
    (hacc : slot.1.accepts slot.2 = true) {e : Expr} {b : Interval}
    (hsym : slot.2.kind = .immediate ⟨.symbolic e (some b), none⟩) :
    f.deferred = some e ∧ f.pcRelative = false ∧ ∀ v, b.Mem v → f.inRange v = true := by
  obtain ⟨w, signed, i, hshape, hi, rfl⟩ := h
  have hvalue : slot.2.immediate? = some ⟨.symbolic e (some b), none⟩ := by
    rw [Operand.immediate?, hsym]
  rw [hvalue] at hi
  cases hi
  refine ⟨rfl, rfl, fun v hv => ?_⟩
  have hrange : w.FitsSigned v.toInt ∨ (!signed) = true ∧ w.Fits v.toInt :=
    Immediate.fits_of_bounds (Shape.fitsField_of_accepts hshape hvalue hacc).1 hv
  have hwidth : Width.ofBytes? (Field.ofImmediate w.bytes ⟨.symbolic e (some b), none⟩ signed).size =
      some w := w.ofBytes?_bytes
  simp only [Field.inRange, hwidth]
  rcases hrange with hs | ⟨hunsigned, hfits⟩
  · split
    · exact decide_eq_true hs
    · exact decide_eq_true hs.fits
  · rw [Bool.not_eq_true'] at hunsigned
    subst hunsigned
    exact decide_eq_true hfits

end Roles

/-- The immediate field of a row is that of its value operand, since there is one slot for it. -/
theorem Row.WellFormed.imm_takes_bounds {row : Row} (hw : row.WellFormed) {operands : List Operand}
    {prefixes : PrefixBytes} {mode : Mode} {span : Span} {enc : Instruction}
    (hacc : Shape.acceptAll row.shapes operands = true)
    (h : row.encode operands prefixes mode span = .ok enc) (hpos : 0 < enc.imm.size) {o : Operand}
    (ho : o ∈ operands) {e : Expr} {b : Interval}
    (hsym : o.kind = .immediate ⟨.symbolic e (some b), none⟩) :
    enc.imm.deferred = some e ∧ enc.imm.pcRelative = false ∧
      ∀ v, b.Mem v → enc.imm.inRange v = true := by
  obtain ⟨operandSize, wide, f, rex, -, hf, -, -, rfl, -⟩ := encode_eq_ok h
  obtain ⟨roles, hroles, himm, -, -⟩ := OperandFields.encode_eq_ok hf
  have hfield : (row.assembled prefixes operandSize mode f rex span).imm = roles.imm := himm
  rw [hfield] at hpos ⊢
  rcases (Roles.ofSlots_fields hroles).1 with habsent | ⟨slot, hslot, hfrom⟩
  · rw [habsent] at hpos
    cases hpos
  · -- The operand stands in a slot of its own, and that is the slot of the field.
    obtain ⟨shape, hmem⟩ := Shape.acceptAll_mem hacc ho
    have hvalue : o.immediate? = some ⟨.symbolic e (some b), none⟩ := by
      rw [Operand.immediate?, hsym]
    have hacc' := Shape.acceptAll_slot hacc hmem hvalue
    obtain ⟨w, signed, i, hshape, hi, -⟩ := id hfrom
    have hsame : slot = (shape, o) := Shape.slot_unique hw.2.2 hslot hmem
      (Shape.takesImmediate_of_immediateField? hshape) (Shape.takesImmediate_of_accepts hacc' hvalue)
    subst hsame
    exact hfrom.takes_bounds hacc' hsym

/-! ## What linking finds -/

namespace Translated

/-- Only what is defined has bounds: a name of the table was there before, or is a label. -/
theorem label_of_bounds {symbols : String → Option Interval} {base : Nat} {mode : Mode} {n : Nat}
    {statements : List Statement} {records : List Record}
    (h : Translated symbols mode n statements records) {c : Nat} (address : Nat) {t : Symbols}
    {name : String} {b : Interval}
    (hb : (Session.addLabelBounds base c statements t).get? name = some b) :
    (∃ b', t.get? name = some b') ∨
      ∃ a span, (a, Item.label name span) ∈ Program.placeFrom address (records.map Record.item) := by
  induction h generalizing c address t with
  | nil => exact .inl ⟨b, hb⟩
  | @label mode n other span rest records tail ih =>
    simp only [List.map_cons, Program.placeFrom, List.mem_cons]
    rcases ih (address + (Item.label other span).size) hb with ⟨b', hb'⟩ | ⟨a, span', ha⟩
    · rw [Symbols.extend, Symbols.get?_define] at hb'
      split at hb'
      · rename_i heq
        subst heq
        exact .inr ⟨address, span, .inl rfl⟩
      · exact .inl ⟨b', hb'⟩
    · exact .inr ⟨a, span', .inr ha⟩
  | mode tail ih => exact ih address hb
  | @instruction mode n i e rest records head tail ih =>
    simp only [List.map_cons, Program.placeFrom, List.mem_cons]
    rcases ih (address + (Item.instruction e).size) hb with hb' | ⟨a, span, ha⟩
    · exact .inl hb'
    · exact .inr ⟨a, span, .inr ha⟩

end Translated

namespace Session

theorem address_of_symbol {s : Session} {records : List Record} (h : s.encodeStrict = .ok records)
    {name : String} {b : Interval} (hb : s.symbols.get? name = some b) :
    ∃ a, Program.addressIn (s.program records).labels (s.program records).externals name = some a := by
  rcases (encodeStrict_translated h).label_of_bounds s.base hb with ⟨b', hb'⟩ | ⟨a, span, ha⟩
  · rw [get?_externalBounds, Option.map_eq_some_iff] at hb'
    obtain ⟨a, ha, -⟩ := hb'
    exact Program.exists_addressIn (.inr ⟨a, ha⟩)
  · have ha' : (a, Item.label name span) ∈ (s.program records).place := ha
    exact Program.exists_addressIn (.inl (Program.exists_mem_labels ha'))

/-- A symbol with bounds and an address that is a value has that value, within the bounds. -/
theorem value_of_symbol {s : Session} {records : List Record} (h : s.encodeStrict = .ok records)
    {name : String} {b : Interval} (hb : s.symbols.get? name = some b)
    (hmax : ∀ a, Program.addressIn (s.program records).labels (s.program records).externals name =
      some a → (a : Int) ≤ Int64.maxValue.toInt) :
    ∃ v, (s.program records).value? name = some v ∧ b.Mem v := by
  obtain ⟨a, ha⟩ := address_of_symbol h hb
  have hbounds : ∃ b', s.symbols.get? name = some b' ∧ b'.Mem (clamp a) := by
    rcases Program.addressIn_eq_some ha with ⟨d, hd, rfl, rfl⟩ | hx
    · exact symbols_of_label h (Program.place_of_mem_labels hd)
    · exact symbols_of_external hx
  obtain ⟨b', hb', hmem⟩ := hbounds
  rw [hb] at hb'
  cases hb'
  have hvalue : exact64 a = .ok (clamp a) := by
    rw [exact64_eq_ok_iff, toInt_clamp]
    exact Int.min_eq_left (hmax a ha)
  refine ⟨clamp a, ?_, hmem⟩
  simp only [Program.value?, Program.valueIn, ha, Option.bind_some, hvalue]
  rfl

/-- **A field chosen by bounds never overflows.** Take any instruction of a program that is encoded
without error, with a symbolic value of no declared width among its operands and an immediate field. If
the evaluator found bounds for the value, and no symbol in it ends up at an address beyond the signed
values, then linking finds a value within the bounds and fills the field in; what it reports of the
instruction is about the displacement and the branch distance alone. -/
theorem symbolic_immediate_patched {s : Session} {records : List Record}
    (h : s.encodeStrict = .ok records) {mode : Mode} {i : ParsedInstruction} {address : Nat}
    {enc : Instruction}
    (hx : ((mode, i), (address, enc)) ∈
      (Statement.instructionsIn s.mode s.statements).zip (s.program records).instructions)
    {operands : List Operand}
    (hops : ParsedOperand.evaluateAll s.symbols.get? i.operands = .ok operands) {o : Operand}
    (ho : o ∈ operands) {e : Expr} {b : Interval}
    (hsym : o.kind = .immediate ⟨.symbolic e (some b), none⟩) (hpos : 0 < enc.imm.size)
    (hmax : ∀ name ∈ e.names, ∀ a, Program.addressIn (s.program records).labels
      (s.program records).externals name = some a → (a : Int) ≤ Int64.maxValue.toInt) :
    ∃ v, e.resolve (s.program records).value? = .ok v ∧ b.Mem v ∧
      enc.patchField (s.program records).value? (address + enc.size) .immediate =
        .ok (enc.setValue .immediate v) ∧
      (enc.patch (s.program records).value? address).1.imm = { enc.imm with value := v } ∧
      (enc.patch (s.program records).value? address).2 = [.displacement, .branch].flatMap fun kind =>
        (failure? (enc.patchField (s.program records).value? (address + enc.size) kind)).toList := by
  have henc : i.encode s.symbols.get? mode = .ok enc :=
    (List.forall₂_iff_zip.1 (program_instructions h)).2 hx
  obtain ⟨rows, row, operands', prefixes, hrows, hrow, -, hops', -, hacc, hrowenc⟩ :=
    ParsedInstruction.encode_eq_ok henc
  rw [hops] at hops'
  cases hops'
  -- The row took the value by its bounds, so its field takes all that is within them.
  have hwell := ParsedInstruction.wellFormed_of_rows? hrows hrow
  obtain ⟨hdef, hpc, hrange⟩ := hwell.imm_takes_bounds hacc hrowenc hpos ho hsym
  -- And what the expression comes out as is within them.
  have hbounds : e.bounds s.symbols.get? = some b :=
    (ParsedOperand.hasBounds_evaluateAll hops ho hsym e (some b) rfl).symm
  obtain ⟨v, hv, hmem⟩ := Expr.resolve_of_bounds hbounds fun name hn c hc =>
    value_of_symbol h hc (hmax name hn)
  have hsettled : enc.settled (s.program records).value? (address + enc.size) .immediate = .ok v :=
    Instruction.settled_of_inRange hdef hpc hv (hrange v hmem)
  refine ⟨v, hv, hmem, ?_, ?_, Instruction.reports_of_settled hsettled⟩
  · rw [Instruction.patchField_eq, hsettled]
    rfl
  · exact (Instruction.field_patch _ address enc .immediate).trans
      (Instruction.settledField_eq hsettled)

/-- The distance between two labels is bounded by the instructions between them: a byte is enough. -/
theorem symbolic_immediate_patched_distance :
    ∃ s records address enc, Session.load "start: mov al, end - start\n nop\n end:" .bits32 0x1000 [] =
        .ok s ∧ s.encodeStrict = .ok records ∧
      (s.program records).instructions[0]? = some (address, enc) ∧ enc.imm.size = 1 ∧
      ∃ v, (Interval.mk 2 30).Mem v ∧
        enc.patchField (s.program records).value? (address + enc.size) .immediate =
          .ok (enc.setValue .immediate v) := by
  have hrun : (do
      let s ← (Session.load "start: mov al, end - start\n nop\n end:" .bits32 0x1000 []).toOption
      let records ← s.encodeStrict.toOption
      let source ← (Statement.instructionsIn s.mode s.statements)[0]?
      let placed ← (s.program records).instructions[0]?
      let operands ← (ParsedOperand.evaluateAll s.symbols.get? source.2.operands).toOption
      let o ← operands[1]?
      return (o.kind, placed.2.imm.size, ["end", "start"].map fun name =>
        Program.addressIn (s.program records).labels (s.program records).externals name)) =
      some (.immediate ⟨.symbolic (.binary .sub (.var "end") (.var "start")) (some ⟨2, 30⟩), none⟩, 1,
        [some 0x1003, some 0x1000]) := by
    decide +kernel
  simp only [bind, Option.bind_eq_some_iff, Option.pure_def, Option.some.injEq, Prod.mk.injEq,
    toOption_eq_some, List.map_cons, List.map_nil, List.cons.injEq, and_true] at hrun
  obtain ⟨s, hs, records, hrec, ⟨mode, i⟩, hi, ⟨address, enc⟩, henc, operands, hops, o, ho, hkind, hsize,
    hend, hstart⟩ := hrun
  have hx : ((mode, i), (address, enc)) ∈
      (Statement.instructionsIn s.mode s.statements).zip (s.program records).instructions :=
    List.mem_of_getElem? (List.getElem?_zip_eq_some.2 ⟨hi, henc⟩)
  obtain ⟨v, -, hmem, hpatch, -⟩ := symbolic_immediate_patched hrec hx hops (List.mem_of_getElem? ho)
    hkind (by simp only at hsize; omega) (by
      intro name hn a ha
      simp only [Expr.names, List.cons_append, List.nil_append, List.mem_cons, List.not_mem_nil,
        or_false] at hn
      rcases hn with rfl | rfl
      · rw [hend] at ha
        cases ha
        decide
      · rw [hstart] at ha
        cases ha
        decide)
  exact ⟨s, records, address, enc, hs, hrec, henc, hsize, v, hmem, hpatch⟩

end Session
end IntelAsm
