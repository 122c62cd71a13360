/-
What linking does to a program. Each field of an instruction is settled by
itself: it keeps its value if it has one, or gets that of its expression
under the final addresses (`Instruction.settled`). Patching an instruction
puts the three settled fields in place, reports those that have no value, and
touches nothing else (`Instruction.patch_eq`); a program that links is one
whose instructions are all patched without a report (`Program.link_eq_ok`).
-/
import IntelAsm.Program.Link
import IntelAsm.Proofs.Failure

namespace IntelAsm

/-! ## Fields -/

namespace Field

theorem checkRange_eq_ok {f : Field} {kind : FieldKind} {e : Expr} {span : Span} {u v : Int64} :
    f.checkRange kind e span u = .ok v ↔ u = v ∧ f.inRange v = true := by
  unfold checkRange
  cases hw : Width.ofBytes? f.size with
  | none => simp [inRange, hw]
  | some w =>
    by_cases hr : f.inRange u = true
    · simp only [hr, if_true, Except.ok.injEq]
      exact ⟨fun h => ⟨h, h ▸ hr⟩, fun h => h.1⟩
    · simp only [hr, Bool.false_eq_true, if_false, reduceCtorEq, false_iff, not_and]
      exact fun h => h ▸ hr

/-- **The value of a field**: that of its expression, counted from the instruction where the field
is a distance, and in the range of the field. -/
theorem resolve_eq_ok {lookup : String → Option Int64} {f : Field} {kind : FieldKind} {e : Expr}
    {stop : Nat} {span : Span} {v : Int64} :
    f.resolve lookup kind e stop span = .ok v ↔ ∃ u, e.resolve lookup = .ok u ∧
      f.counted u stop span = .ok v ∧ f.inRange v = true := by
  simp only [resolve, bind_eq_ok, mapError_eq_ok, checkRange_eq_ok]
  constructor
  · rintro ⟨u, hu, d, hd, rfl, hr⟩
    exact ⟨u, hu, hd, hr⟩
  · rintro ⟨u, hu, hd, hr⟩
    exact ⟨u, hu, v, hd, rfl, hr⟩

end Field

/-! ## Instructions -/

namespace Instruction

variable (lookup : String → Option Int64) (stop : Nat)

/-- What a field comes out as: the value it has, or that of its expression. -/
def settled (i : Instruction) (kind : FieldKind) : Except Diagnostic Int64 :=
  match (i.field kind).deferred with
  | none => .ok (i.field kind).value
  | some e => (i.field kind).resolve lookup kind e stop i.span

/-- A field with the value it comes out as; without one it stays as it is. -/
def settledField (i : Instruction) (kind : FieldKind) : Field :=
  match i.settled lookup stop kind with
  | .ok value => { i.field kind with value }
  | .error _ => i.field kind

/-- The instruction with another field. -/
def setField (i : Instruction) (kind : FieldKind) (f : Field) : Instruction :=
  match kind with
  | .displacement => { i with disp := f }
  | .immediate => { i with imm := f }
  | .branch => { i with rel := f }

theorem setValue_eq_setField (i : Instruction) (kind : FieldKind) (value : Int64) :
    i.setValue kind value = i.setField kind { i.field kind with value } := by
  cases kind <;> rfl

theorem setField_field (i : Instruction) (kind : FieldKind) : i.setField kind (i.field kind) = i := by
  cases kind <;> rfl

theorem patchField_eq (i : Instruction) (kind : FieldKind) :
    i.patchField lookup stop kind = (i.setValue kind ·) <$> i.settled lookup stop kind := by
  simp only [patchField, settled]
  cases (i.field kind).deferred with
  | none =>
    have hkeep : i.setValue kind (i.field kind).value = i := by
      rw [setValue_eq_setField, setField_field]
    simp [Functor.map, Except.map, hkeep]
  | some e => rfl

theorem failure?_patchField (i : Instruction) (kind : FieldKind) :
    failure? (i.patchField lookup stop kind) = failure? (i.settled lookup stop kind) := by
  rw [patchField_eq]
  cases i.settled lookup stop kind <;> rfl

theorem patchStep_eq (j : Instruction) (ds : List Diagnostic) (kind : FieldKind) :
    patchStep lookup stop (j, ds) kind =
      (j.setField kind (j.settledField lookup stop kind),
        ds ++ (failure? (j.settled lookup stop kind)).toList) := by
  simp only [patchStep, settledField, patchField_eq]
  cases hs : j.settled lookup stop kind with
  | ok v => simp [Functor.map, Except.map, failure?, setValue_eq_setField]
  | error d => simp [Functor.map, Except.map, failure?, setField_field]

variable {lookup stop}

/-- **Patching**, as an equation: every field is settled on its own, the rest of the instruction
stays, and the reports are those of the fields that fail. -/
theorem patch_eq (lookup : String → Option Int64) (address : Nat) (i : Instruction) :
    i.patch lookup address =
      ({ i with
          disp := i.settledField lookup (address + i.size) .displacement
          imm := i.settledField lookup (address + i.size) .immediate
          rel := i.settledField lookup (address + i.size) .branch },
        fieldKinds.flatMap fun kind => (failure? (i.settled lookup (address + i.size) kind)).toList) := by
  simp only [patch, fieldKinds, List.foldl_cons, List.foldl_nil, patchStep_eq]
  -- A field settled before does not show in how the next one is settled.
  simp [setField, settledField, settled, field]

theorem settled_of_patch {i : Instruction} {address : Nat} (h : (i.patch lookup address).2 = [])
    (kind : FieldKind) : ∃ v, i.settled lookup (address + i.size) kind = .ok v := by
  rw [patch_eq] at h
  simp only [fieldKinds, List.flatMap_eq_nil_iff, Option.toList_eq_nil_iff] at h
  exact failure?_eq_none.1 (h kind (by cases kind <;> simp))

theorem settledField_eq {i : Instruction} {kind : FieldKind} {v : Int64}
    (h : i.settled lookup stop kind = .ok v) :
    i.settledField lookup stop kind = { i.field kind with value := v } := by
  rw [settledField, h]

theorem settled_of_inRange {i : Instruction} {kind : FieldKind} {e : Expr} {v : Int64}
    (hd : (i.field kind).deferred = some e) (hpc : (i.field kind).pcRelative = false)
    (hv : e.resolve lookup = .ok v) (hr : (i.field kind).inRange v = true) :
    i.settled lookup stop kind = .ok v := by
  have hresolve : (i.field kind).resolve lookup kind e stop i.span = .ok v :=
    Field.resolve_eq_ok.2 ⟨v, hv, by rw [Field.counted, hpc]; rfl, hr⟩
  rw [settled, hd]
  exact hresolve

/-- A field that is settled is not reported. -/
theorem reports_of_settled {i : Instruction} {address : Nat} {kind : FieldKind} {v : Int64}
    (h : i.settled lookup (address + i.size) kind = .ok v) :
    (i.patch lookup address).2 = (fieldKinds.filter (· ≠ kind)).flatMap fun other =>
      (failure? (i.patchField lookup (address + i.size) other)).toList := by
  have hnone : failure? (i.settled lookup (address + i.size) kind) = none :=
    failure?_eq_none.2 ⟨v, h⟩
  simp only [patch_eq, failure?_patchField]
  cases kind <;> simp [fieldKinds, hnone]

theorem field_patch (lookup : String → Option Int64) (address : Nat) (i : Instruction)
    (kind : FieldKind) :
    (i.patch lookup address).1.field kind = i.settledField lookup (address + i.size) kind := by
  rw [patch_eq]
  cases kind <;> rfl

@[simp] theorem prefixes_patch (lookup : String → Option Int64) (address : Nat) (i : Instruction) :
    (i.patch lookup address).1.prefixes = i.prefixes := by
  rw [patch_eq]

end Instruction

/-! ## Programs -/

namespace Diagnostic

theorem ofList?_eq_none {ds : List Diagnostic} : ofList? ds = none ↔ ds = [] := by
  unfold ofList?
  split <;> simp_all

end Diagnostic

namespace Program

/-- **A program that links**: no label twice, every instruction patched without a report, and the
image made of the patched instructions in order. -/
theorem link_eq_ok {p : Program} {image : Image} (h : p.link = .ok image) :
    p.stop ≤ addressLimit ∧ p.duplicates = [] ∧
      (∀ x ∈ p.instructions, (x.2.patch p.value? x.1).2 = []) ∧
      image.bytes = p.instructions.flatMap (fun x => (x.2.patch p.value? x.1).1.bytes) ∧
      image.labels = p.labels.map (fun d => (d.name, d.address)) ∧
      image.instructions = p.instructions.map fun x => (x.1, (x.2.patch p.value? x.1).1) := by
  unfold link at h
  rw [guard_eq_ok] at h
  obtain ⟨hstop, h⟩ := h
  have hpatched : p.patched = p.instructions.map fun x => (x.1, x.2.patch p.value? x.1) := rfl
  simp only [hpatched] at h
  split at h
  · cases h
  · rename_i hnone
    rw [Diagnostic.ofList?_eq_none, List.append_eq_nil_iff, List.flatMap_map] at hnone
    cases h
    refine ⟨Nat.le_of_not_lt hstop, hnone.1, fun x hx => ?_, ?_, rfl, ?_⟩
    · exact List.flatMap_eq_nil_iff.1 hnone.2 x hx
    · rw [List.flatMap_map]
    · rw [List.map_map]
      rfl

/-! ## Labels -/

theorem mem_labelDefs {p : Program} {d : LabelDef} :
    d ∈ p.labelDefs ↔ (d.address, Item.label d.name d.span) ∈ p.place := by
  simp only [labelDefs, List.mem_filterMap]
  constructor
  · rintro ⟨⟨address, item⟩, hmem, hd⟩
    cases item with
    | label name span => cases hd; exact hmem
    | instruction i => cases hd
  · intro hmem
    exact ⟨_, hmem, rfl⟩

theorem mem_of_mem_splitDefs {seen ds : List LabelDef} {d : LabelDef}
    (h : d ∈ (splitDefs seen ds).1) : d ∈ ds := by
  induction ds generalizing seen with
  | nil => simp [splitDefs] at h
  | cons c ds ih =>
    simp only [splitDefs] at h
    split at h
    · exact List.mem_cons_of_mem c (ih h)
    · simp only [List.mem_cons] at h ⊢
      rcases h with rfl | h
      · exact .inl rfl
      · exact .inr (ih h)

/-- A label that counts stands in the program, where its address says. -/
theorem place_of_mem_labels {p : Program} {d : LabelDef} (h : d ∈ p.labels) :
    (d.address, Item.label d.name d.span) ∈ p.place :=
  mem_labelDefs.1 (mem_of_mem_splitDefs h)

theorem exists_mem_splitDefs (seen : List LabelDef) {ds : List LabelDef} {d : LabelDef} (h : d ∈ ds) :
    (∃ c ∈ seen, c.name = d.name) ∨ ∃ c ∈ (splitDefs seen ds).1, c.name = d.name := by
  induction ds generalizing seen with
  | nil => simp at h
  | cons c ds ih =>
    simp only [splitDefs]
    split
    · rename_i first hfirst
      simp only [List.mem_cons] at h
      rcases h with rfl | h
      · exact .inl ⟨first, List.mem_of_find?_eq_some hfirst, by simpa using List.find?_some hfirst⟩
      · exact ih seen h
    · simp only [List.mem_cons] at h ⊢
      rcases h with rfl | h
      · exact .inr ⟨d, .inl rfl, rfl⟩
      · rcases ih (seen ++ [c]) h with ⟨c', hc', hname⟩ | ⟨c', hc', hname⟩
        · simp only [List.mem_append, List.mem_singleton] at hc'
          rcases hc' with hc' | rfl
          · exact .inl ⟨c', hc', hname⟩
          · exact .inr ⟨c', .inl rfl, hname⟩
        · exact .inr ⟨c', .inr hc', hname⟩

/-- A name that is a label somewhere has a first definition. -/
theorem exists_mem_labels {p : Program} {a : Nat} {name : String} {span : Span}
    (h : (a, Item.label name span) ∈ p.place) : ∃ d ∈ p.labels, d.name = name := by
  have hdef : (⟨name, a, span⟩ : LabelDef) ∈ p.labelDefs := mem_labelDefs.2 h
  rcases exists_mem_splitDefs [] hdef with ⟨c, hc, -⟩ | hfirst
  · simp at hc
  · exact hfirst

theorem exists_addressIn {labels : List LabelDef} {externals : Externals} {name : String}
    (h : (∃ d ∈ labels, d.name = name) ∨ ∃ a, externals.get? name = some a) :
    ∃ a, addressIn labels externals name = some a := by
  unfold addressIn
  cases hfind : labels.find? (·.name = name) with
  | some c => exact ⟨c.address, rfl⟩
  | none =>
    rcases h with ⟨d, hd, hname⟩ | ⟨a, ha⟩
    · have hne := List.find?_eq_none.1 hfind d hd
      simp [hname] at hne
    · exact ⟨a, ha⟩

/-- A symbol with an address is a label, or else external. -/
theorem addressIn_eq_some {labels : List LabelDef} {externals : Externals} {name : String} {a : Nat}
    (h : addressIn labels externals name = some a) :
    (∃ d ∈ labels, d.name = name ∧ d.address = a) ∨ externals.get? name = some a := by
  unfold addressIn at h
  cases hfind : labels.find? (·.name = name) with
  | some d =>
    rw [hfind] at h
    cases h
    exact .inl ⟨d, List.mem_of_find?_eq_some hfind, by simpa using List.find?_some hfind, rfl⟩
  | none =>
    rw [hfind] at h
    exact .inr h

end Program
end IntelAsm
