/-
Rows that take the same operands. An operand that two slots take is a register
of both, a value of a declared width that both allow, or a place in memory of a
size that both allow, where a slot allows an unknown size only if another slot
of its row asks for a register that settles it. So the shapes alone tell which
rows can take an operand list together (`Shape.overlap_of_acceptAll`).

In the table that happens only to rows of the same operand size
(`Table.sizes_agree`), and therefore the order of the rows never decides how wide
an operation is (`Table.operandSize_unambiguous`).
-/
import Mathlib
import IntelAsm.Proofs.OperandDecode

namespace IntelAsm

/-! ## What a slot takes -/

namespace Shape

/-- The width of the general registers that the slot takes. -/
def generalWidth? : Shape → Option Width
  | .reg w | .rm w | .rmDefault w => some w
  | _ => none

/-- Whether the slot takes the register. -/
def takesRegister (r : Register) : Shape → Bool
  | .fixed r' => r' = r
  | .segment => r.registerClass = .segment
  | s => r.registerClass = .general && s.generalWidth? = some r.width

/-- The widths that a value in the slot may be declared with. -/
def valueWidths : Shape → List (Option Width)
  | .imm w | .immSigned w => [none, some w]
  | .one => [none, some .byte]
  | .rel .byte => [some .byte]
  | .rel w => [none, some w]
  | _ => []

/-- The sizes that a place in memory in the slot may have, among the shapes of a row. -/
def memoryWidths (shapes : List Shape) : Shape → List (Option Width)
  | .rm w | .mem w => if .reg w ∈ shapes then [none, some w] else [some w]
  | .rmDefault w => [none, some w]
  | .memAny => none :: Width.all.map some
  | _ => []

theorem takesRegister_of_accepts {s : Shape} {o : Operand} {r : Register} (h : s.accepts o = true)
    (hk : o.kind = .register r) : s.takesRegister r = true := by
  rcases accepts_register h hk with rfl | ⟨rfl, hclass⟩ | ⟨hs, hclass⟩
  · simp [takesRegister]
  · simp [takesRegister, hclass]
  · simp only [List.mem_cons, List.not_mem_nil, or_false] at hs
    rcases hs with rfl | rfl | rfl <;> simp [takesRegister, generalWidth?, hclass]

theorem size_of_fitsField {i : Immediate} {w : Width} {unsignedToo : Bool}
    (h : i.fitsField w unsignedToo = true) : i.size ∈ [none, some w] := by
  obtain ⟨value, size⟩ := i
  cases size with
  | none => exact List.mem_cons_self
  | some declared =>
    have hw : declared = w := by
      cases value with
      | fixed v =>
        simp only [Immediate.fitsField, Bool.and_eq_true, decide_eq_true_eq] at h
        exact h.1
      | symbolic e b => simpa [Immediate.fitsField] using h
    simp [hw]

theorem size_mem_valueWidths {s : Shape} {o : Operand} {i : Immediate} (h : s.accepts o = true)
    (hi : o.immediate? = some i) : i.size ∈ s.valueWidths := by
  have hdeclared {w : Width} (hall : i.size.all (· = w) = true) : i.size ∈ [none, some w] := by
    cases hsize : i.size with
    | none => exact List.mem_cons_self
    | some declared => simpa [hsize] using hall
  cases s with
  | imm w =>
    simp only [accepts, Operand.fitsImmediateField, hi, Option.any_some] at h
    exact size_of_fitsField h
  | immSigned w =>
    simp only [accepts, Operand.isImmediate, hi, Option.any_some, Bool.and_eq_true] at h
    exact size_of_fitsField h.1
  | one =>
    simp only [accepts, hi, Option.any_some, Bool.and_eq_true] at h
    exact hdeclared h.2
  | rel w =>
    cases w with
    | byte => simpa [accepts, hi, valueWidths] using h
    | word | dword | qword =>
      simp only [accepts, hi, Option.any_some] at h
      exact hdeclared h
  | reg | fixed | segment | rm | rmDefault | mem | memAny =>
    cases takesImmediate_of_accepts h hi

theorem size_mem_memoryWidths {shapes : List Shape} {operands : List Operand} {s : Shape} {o : Operand}
    {m : Memory} (h : acceptsAmong (shapes.zip operands) (s, o) = true) (hk : o.kind = .memory m) :
    o.size ∈ s.memoryWidths shapes := by
  have hm : o.memory? = some m := by rw [Operand.memory?, hk]
  have hr : o.register? = none := by rw [Operand.register?, hk]
  -- A place of unknown size has a register of the slot's width beside it.
  have hvouched {w : Width} (hslot : o.size = some w ∨
      o.size = none ∧ ∃ slot ∈ shapes.zip operands, vouches w slot = true) :
      o.size ∈ if .reg w ∈ shapes then [none, some w] else [some w] := by
    rcases hslot with hsize | ⟨hsize, slot, hmem, hv⟩
    · split <;> simp [hsize]
    · simp only [vouches, Bool.and_eq_true, decide_eq_true_eq] at hv
      have hreg : .reg w ∈ shapes := hv.1 ▸ (List.of_mem_zip hmem).1
      simp [hreg, hsize]
  cases s with
  | rm w | mem w =>
    refine hvouched ?_
    simpa [acceptsAmong, accepts, memoryWidth?, Operand.isRegister, Operand.isSizedMemory,
      Operand.isUnsizedMemory, hm, hr] using h
  | rmDefault w =>
    have hsize : o.size.all (· = w) = true := by
      simpa [acceptsAmong, accepts, memoryWidth?, Operand.isRegisterOrMemory, Operand.isRegister,
        Operand.isMemory, hm, hr] using h
    cases ho : o.size with
    | none => exact List.mem_cons_self
    | some w' => simpa [ho, memoryWidths] using hsize
  | memAny =>
    cases ho : o.size with
    | none => exact List.mem_cons_self
    | some w => cases w <;> simp [memoryWidths, Width.all]
  | imm | immSigned | one | rel | reg | fixed | segment => cases isRm_of_acceptsAmong h hk

/-! ## Slots that meet -/

/-- Whether some register can stand in both slots. -/
def sharesRegister : Shape → Shape → Bool
  | .fixed r, s | s, .fixed r => s.takesRegister r
  | .segment, .segment => true
  | s, s' => s.generalWidth?.isSome && s.generalWidth? = s'.generalWidth?

/-- Whether some operand can stand in both slots, each among the shapes of its row. -/
def meets (shapes shapes' : List Shape) (slots : Shape × Shape) : Bool :=
  slots.1.sharesRegister slots.2 ||
    slots.1.valueWidths.any slots.2.valueWidths.contains ||
    (slots.1.memoryWidths shapes).any (slots.2.memoryWidths shapes').contains

/-- Whether the shapes of two rows can take the same operands. -/
def overlap (shapes shapes' : List Shape) : Bool :=
  shapes.length = shapes'.length && (shapes.zip shapes').all (meets shapes shapes')

theorem sharesRegister_of_takesRegister {s s' : Shape} {r : Register} (h : s.takesRegister r = true)
    (h' : s'.takesRegister r = true) : s.sharesRegister s' = true := by
  cases s <;> cases s' <;>
    simp_all [takesRegister, sharesRegister, generalWidth?]

theorem meets_of_acceptsAmong {shapes shapes' : List Shape} {operands : List Operand} {s s' : Shape}
    {o : Operand} (h : acceptsAmong (shapes.zip operands) (s, o) = true)
    (h' : acceptsAmong (shapes'.zip operands) (s', o) = true) :
    meets shapes shapes' (s, s') = true := by
  simp only [meets, Bool.or_eq_true, List.any_eq_true, List.contains_iff_mem]
  cases hk : o.kind with
  | register r =>
    have hm : o.memory? = none := by rw [Operand.memory?, hk]
    have haccepts := accepts_of_acceptsAmong h hm
    have haccepts' := accepts_of_acceptsAmong h' hm
    exact .inl (.inl (sharesRegister_of_takesRegister (takesRegister_of_accepts haccepts hk)
      (takesRegister_of_accepts haccepts' hk)))
  | immediate i =>
    have hm : o.memory? = none := by rw [Operand.memory?, hk]
    have hi : o.immediate? = some i := by rw [Operand.immediate?, hk]
    have haccepts := accepts_of_acceptsAmong h hm
    have haccepts' := accepts_of_acceptsAmong h' hm
    exact .inl (.inr ⟨i.size, size_mem_valueWidths haccepts hi, size_mem_valueWidths haccepts' hi⟩)
  | memory m => exact .inr ⟨o.size, size_mem_memoryWidths h hk, size_mem_memoryWidths h' hk⟩

/-- **Rows that take the same operands overlap.** -/
theorem overlap_of_acceptAll {shapes shapes' : List Shape} {operands : List Operand}
    (h : acceptAll shapes operands = true) (h' : acceptAll shapes' operands = true) :
    overlap shapes shapes' = true := by
  have hlen := length_of_acceptAll h
  have hlen' := length_of_acceptAll h'
  simp only [overlap, Bool.and_eq_true, decide_eq_true_eq, List.all_eq_true]
  refine ⟨hlen.trans hlen'.symm, fun slots hslots => ?_⟩
  obtain ⟨position, hposition⟩ := List.mem_iff_getElem?.1 hslots
  obtain ⟨hs, hs'⟩ := List.getElem?_zip_eq_some.1 hposition
  obtain ⟨hlt, -⟩ := List.getElem?_eq_some_iff.1 hs
  have ho : operands[position]? = some (operands.get ⟨position, by omega⟩) :=
    List.getElem?_eq_getElem (by omega)
  obtain ⟨s, hshape, -, hamong⟩ := exists_slot h ho
  obtain ⟨s', hshape', -, hamong'⟩ := exists_slot h' ho
  cases hs.symm.trans hshape
  cases hs'.symm.trans hshape'
  exact meets_of_acceptsAmong hamong hamong'

/-- **A place in memory of unknown size** stands in a slot of width `w` only beside another operand that
is a general register of that width. -/
theorem exists_register_of_isUnsizedMemory {shapes : List Shape} {operands : List Operand}
    {position : Nat} {s : Shape} {w : Width} {o : Operand} (h : acceptAll shapes operands = true)
    (hs : shapes[position]? = some s) (hw : s.memoryWidth? = some w)
    (ho : operands[position]? = some o) (hunsized : o.isUnsizedMemory = true) :
    ∃ other r, other ≠ position ∧ operands[other]? = some r ∧ r.isRegister w = true := by
  obtain ⟨s', hs', -, hamong⟩ := exists_slot h ho
  cases hs.symm.trans hs'
  simp only [Operand.isUnsizedMemory, Bool.and_eq_true, Option.isSome_iff_exists,
    Option.isNone_iff_eq_none] at hunsized
  obtain ⟨⟨m, hm⟩, hsize⟩ := hunsized
  have hk := Operand.kind_of_memory? hm
  have hr : o.register? = none := by rw [Operand.register?, hk]
  have hnot : s.accepts o = false := by
    cases s with
    | rm | mem => simp [accepts, Operand.isRegister, Operand.isSizedMemory, hr, hsize]
    | _ => cases hw
  simp only [acceptsAmong, hnot, hw, Bool.false_or, Bool.and_eq_true, List.any_eq_true] at hamong
  obtain ⟨-, slot, hslot, hvouches⟩ := hamong
  simp only [vouches, Bool.and_eq_true, decide_eq_true_eq] at hvouches
  obtain ⟨other, hother⟩ := List.mem_iff_getElem?.1 hslot
  obtain ⟨hshape, hoperand⟩ := List.getElem?_zip_eq_some.1 hother
  refine ⟨other, slot.2, ?_, hoperand, hvouches.2⟩
  rintro rfl
  -- The slot of the place in memory is not the one for the register.
  rw [hs, hvouches.1, Option.some.injEq] at hshape
  rw [hshape] at hw
  cases hw

end Shape

/-! ## The table -/

namespace Row

/-- The row exists in the mode and takes the operands. -/
def Takes (row : Row) (mode : Mode) (operands : List Operand) : Prop :=
  mode ∈ row.modes ∧ Shape.acceptAll row.shapes operands = true

/-- Whether the rows exist together in some mode and can take the same operands. -/
def competes (row row' : Row) : Bool :=
  row.modes.any row'.modes.contains && Shape.overlap row.shapes row'.shapes

theorem Takes.competes {row row' : Row} {mode : Mode} {operands : List Operand}
    (h : row.Takes mode operands) (h' : row'.Takes mode operands) : row.competes row' = true := by
  rw [Row.competes, Bool.and_eq_true, List.any_eq_true]
  exact ⟨⟨mode, h.1, List.contains_iff_mem.2 h'.1⟩, Shape.overlap_of_acceptAll h.2 h'.2⟩

/-- The same size of the operation, and the same default. -/
def SameSize (row row' : Row) : Prop := row.size = row'.size ∧ row.default64 = row'.default64

instance (row row' : Row) : Decidable (row.SameSize row') := inferInstanceAs (Decidable (_ ∧ _))

theorem SameSize.sizeSwitches {row row' : Row} (h : row.SameSize row') (mode : Mode) :
    row.sizeSwitches mode = row'.sizeSwitches mode := by
  simp only [Row.sizeSwitches, h.1, h.2]

end Row

theorem Table.sizes_agree : ∀ entry ∈ Table.entries,
    entry.2.Pairwise fun row row' => row.competes row' = true → row.SameSize row' := by
  decide +kernel

namespace Table

/-- Rows of a mnemonic that take the same operands in a mode have the same size. -/
theorem sameSize_of_takes {mnemonic : String} {rows : List Row} (hrows : rows? mnemonic = some rows)
    {mode : Mode} {operands : List Operand} {row row' : Row} (hrow : row ∈ rows) (hrow' : row' ∈ rows)
    (h : row.Takes mode operands) (h' : row'.Takes mode operands) : row.SameSize row' := by
  let agree (a b : Row) : Prop := a.Takes mode operands → b.Takes mode operands → a.SameSize b
  have hsymm : Std.Symm agree := ⟨fun a b hab hb ha => ⟨(hab ha hb).1.symm, (hab ha hb).2.symm⟩⟩
  have hpairs : rows.Pairwise agree :=
    (sizes_agree _ (mem_entries hrows)).imp fun hagree ha hb => hagree (ha.competes hb)
  exact hpairs.forall_of_forall (fun a _ _ _ => ⟨rfl, rfl⟩) hrow hrow' h h'

/-- **The operands decide how wide an operation is.** All rows of a mnemonic that exist in a mode and take
an operand list have the same operand size, and ask for the same operand-size byte and the same bit W, so
that their order makes no difference there. And a row takes a place in memory of unknown size where it
wants one of width `w` only beside another operand that is a general register of that width. -/
theorem operandSize_unambiguous {mnemonic : String} {rows : List Row}
    (hrows : rows? mnemonic = some rows) (mode : Mode) (operands : List Operand) :
    (∀ row ∈ rows, ∀ row' ∈ rows, row.Takes mode operands → row'.Takes mode operands →
      row.size = row'.size ∧ row.sizeSwitches mode = row'.sizeSwitches mode) ∧
    ∀ row ∈ rows, row.Takes mode operands → ∀ (position : Nat) (w : Width) (o : Operand),
      row.shapes[position]? = some (.rm w) ∨ row.shapes[position]? = some (.mem w) →
      operands[position]? = some o → o.isUnsizedMemory = true →
      ∃ other r, other ≠ position ∧ operands[other]? = some r ∧ r.isRegister w = true := by
  constructor
  · intro row hrow row' hrow' h h'
    have hsame := sameSize_of_takes hrows hrow hrow' h h'
    exact ⟨hsame.1, hsame.sizeSwitches mode⟩
  · intro row _ h position w o hshape ho hunsized
    rcases hshape with hshape | hshape
    · exact Shape.exists_register_of_isUnsizedMemory h.2 hshape rfl ho hunsized
    · exact Shape.exists_register_of_isUnsizedMemory h.2 hshape rfl ho hunsized

/-- `add ax, 1` is taken by rows with an immediate of one and of two bytes, all of word size; and
`add [rbx], eax` by one with `eax` beside the place of unknown size. -/
theorem operandSize_unambiguous_add :
    let rows := Row.arithmetic 0x00 0
    let narrow := Row.rmWith (.immSigned .byte) [0x83] 0 .word
    let wide := Row.accumulatorWith 0x05 .word
    let store := Row.intoRm [0x01] .dword
    let ax := Operand.ofRegister (.accumulator .word) .nowhere
    let one := Operand.ofImmediate (.fixed 1) .nowhere
    let eax := Operand.ofRegister (.accumulator .dword) .nowhere
    let place := Operand.ofMemory { Memory.empty with base := some (.general .qword ⟨3, by decide⟩) }
      none .nowhere
    (narrow ∈ rows ∧ wide ∈ rows ∧ narrow.Takes .bits64 [ax, one] ∧ wide.Takes .bits64 [ax, one] ∧
      narrow.size = wide.size ∧ narrow.sizeSwitches .bits64 = wide.sizeSwitches .bits64) ∧
    store ∈ rows ∧ store.Takes .bits64 [place, eax] ∧
      ∃ other r, other ≠ 0 ∧ [place, eax][other]? = some r ∧ r.isRegister .dword = true := by
  intro rows narrow wide store ax one eax place
  have hrows : rows? "add" = some rows := by decide +kernel
  have hnarrow : narrow ∈ rows := by decide +kernel
  have hwide : wide ∈ rows := by decide +kernel
  have hstore : store ∈ rows := by decide +kernel
  have htakesNarrow : narrow.Takes .bits64 [ax, one] := ⟨by decide, by decide +kernel⟩
  have htakesWide : wide.Takes .bits64 [ax, one] := ⟨by decide, by decide +kernel⟩
  have htakesStore : store.Takes .bits64 [place, eax] := ⟨by decide, by decide +kernel⟩
  have hsame := (operandSize_unambiguous hrows .bits64 [ax, one]).1 narrow hnarrow wide hwide
    htakesNarrow htakesWide
  have hbeside := (operandSize_unambiguous hrows .bits64 [place, eax]).2 store hstore htakesStore 0
    .dword place (.inl rfl) rfl rfl
  exact ⟨⟨hnarrow, hwide, htakesNarrow, htakesWide, hsame⟩, hstore, htakesStore, hbeside⟩

end Table
end IntelAsm
