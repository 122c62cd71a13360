/-
No field loses its value. Encoding leaves every field either with a value that
its size can hold, or with an expression whose value linking is going to check
against the same range (`Field.Promised`); the displacement promises this by
the way addresses are encoded, the immediate by the slot that took it, and the
branch distance by being signed. Linking then leaves nothing but values in
range, so the bytes of a field can be read back (`Session.finish_fields_exact`).

The sign of a field is extended where it is marked as signed, in a
displacement of one byte, and in the displacement of a 64-bit address
(`Instruction.SignExtended`). There the value has to be a signed one.
-/
import IntelAsm.Proofs.AddressFacts
import IntelAsm.Proofs.ByteFacts
import IntelAsm.Proofs.EncodeFacts

namespace IntelAsm

/-! ## Fields -/

namespace Field

/-- What encoding promises of a field whose sign the processor extends where it is marked, and if
`extended` holds: the size is that of a width, a known value is in the range, and one to come will be
checked as signed. -/
def Promised (extended : Prop) (f : Field) : Prop :=
  0 < f.size → ∃ w, Width.ofBytes? f.size = some w ∧
    (f.deferred = none → w.Fits f.value.toInt ∧
      (f.signed = true ∨ extended → w.FitsSigned f.value.toInt)) ∧
    (f.deferred ≠ none → extended → f.signed = true)

theorem promised_absent (extended : Prop) : Promised extended .absent := by
  intro hpos
  cases hpos

theorem promised_fixed {extended : Prop} {w : Width} {v : Int64} {signed : Bool}
    (hfits : w.Fits v.toInt) (hsigned : signed = true ∨ extended → w.FitsSigned v.toInt) :
    Promised extended { fixed w.bytes v with signed } := by
  intro _
  exact ⟨w, w.ofBytes?_bytes, fun _ => ⟨hfits, hsigned⟩, fun hdef => absurd rfl hdef⟩

theorem promised_later {extended : Prop} {w : Width} {e : Expr} {pcRelative signed : Bool}
    (hsigned : extended → signed = true) :
    Promised extended { later w.bytes e pcRelative with signed } := by
  intro _
  refine ⟨w, w.ofBytes?_bytes, ?_, fun _ => hsigned⟩
  intro hnone
  cases hnone

theorem Promised.mono {p q : Prop} {f : Field} (h : Promised p f) (hqp : q → f.signed = true ∨ p) :
    Promised q f := by
  intro hpos
  obtain ⟨w, hw, hknown, hlater⟩ := h hpos
  refine ⟨w, hw, fun hd => ⟨(hknown hd).1, fun hs => (hknown hd).2 (hs.elim .inl hqp)⟩, ?_⟩
  intro hd hq
  exact (hqp hq).elim id (hlater hd)

end Field

/-- **What is settled is in range**: the value a field comes out as is one of its width, and a signed
one where the sign is extended. -/
theorem Instruction.settled_fits {lookup : String → Option Int64} {stop : Nat} {i : Instruction}
    {kind : FieldKind} {extended : Prop} {v : Int64} (hp : Field.Promised extended (i.field kind))
    (hpos : 0 < (i.field kind).size) (h : i.settled lookup stop kind = .ok v) :
    ∃ w, Width.ofBytes? (i.field kind).size = some w ∧ w.Fits v.toInt ∧
      ((i.field kind).signed = true ∨ extended → w.FitsSigned v.toInt) := by
  obtain ⟨w, hw, hknown, hlater⟩ := hp hpos
  refine ⟨w, hw, ?_⟩
  unfold settled at h
  split at h
  · rename_i hnone
    cases h
    exact hknown hnone
  · rename_i e hsome
    obtain ⟨u, -, -, hr⟩ := Field.resolve_eq_ok.1 h
    simp only [Field.inRange, hw] at hr
    by_cases hs : (i.field kind).signed = true
    · rw [if_pos hs, decide_eq_true_eq] at hr
      exact ⟨hr.fits, fun _ => hr⟩
    · rw [if_neg hs, decide_eq_true_eq] at hr
      -- An unmarked field is not extended: linking would have been told.
      refine ⟨hr, fun hext => absurd ?_ hs⟩
      exact hext.elim id (hlater (by simp [hsome]))

/-! ## Displacements -/

namespace Memory

/-- The displacement of an address is sign-extended if it has one byte or the address 64 bits. -/
def ExtendsDisp (address : Width) (f : Field) : Prop := f.size = 1 ∨ address = .qword

/-- A field of more than a byte keeps the promise if it takes signed values only, or marks what it
takes later, with addresses of 64 bits. -/
theorem dispField_promised {m : Memory} {address w : Width} {takes : Int → Bool}
    {pcRelative signed : Bool} {f : Field} (hw : w.bytes ≠ 1)
    (htakes : ∀ v, takes v = true → w.Fits v ∧ (address = .qword → w.FitsSigned v))
    (hsigned : address = .qword → signed = true)
    (h : m.dispField w takes pcRelative signed = .ok f) :
    Field.Promised (ExtendsDisp address f) f := by
  rcases dispField_eq_ok h with ⟨-, rfl⟩ | ⟨d, v, -, -, rfl, hr⟩ | ⟨d, e, b, -, -, rfl⟩
  · have hzero : w.FitsSigned (0 : Int64).toInt := by cases w <;> decide
    exact Field.promised_fixed hzero.fits fun _ => hzero
  · refine Field.promised_fixed (htakes _ hr).1 ?_
    rintro (hs | hsize | hq)
    · cases hs
    · exact absurd hsize hw
    · exact (htakes _ hr).2 hq
  · refine Field.promised_later ?_
    rintro (hsize | hq)
    · exact absurd hsize hw
    · exact hsigned hq

theorem disp32_promised {m : Memory} {address : Width} {pcRelative : Bool} {f : Field}
    (h : m.disp32 address pcRelative = .ok f) : Field.Promised (ExtendsDisp address f) f := by
  refine dispField_promised (by decide) (fun v hv => ?_) (fun hq => by simp [hq]) h
  rw [decide_eq_true_eq] at hv
  rcases hv with hs | ⟨rfl, hfits⟩
  · exact ⟨hs.fits, fun _ => hs⟩
  · exact ⟨hfits, fun hq => by cases hq⟩

theorem disp16_promised {m : Memory} {f : Field} (h : m.disp16 = .ok f) :
    Field.Promised (ExtendsDisp .word f) f := by
  refine dispField_promised (by decide) (fun v hv => ?_) (fun hq => by cases hq) h
  exact ⟨of_decide_eq_true hv, fun hq => by cases hq⟩

theorem encode_promised {m : Memory} {mode : Mode} {a : AddressForm} (h : m.encode mode = .ok a) :
    Field.Promised (ExtendsDisp a.width a.disp) a.disp :=
  encode_disp (P := fun w f => Field.Promised (ExtendsDisp w f) f)
    (fun _ => Field.promised_absent _)
    (fun _ _ hv => Field.promised_fixed (w := .byte) hv.fits fun _ => hv)
    (fun _ _ _ hf => disp32_promised hf) (fun _ hf => disp16_promised hf) h

end Memory

/-! ## Immediates and branch distances -/

namespace Immediate

/-- A known value in a field that takes it is in the range of the field. -/
theorem fits_of_fitsField {i : Immediate} {w : Width} {unsignedToo : Bool} {v : Int64}
    (h : i.fitsField w unsignedToo = true) (hv : i.value = .fixed v) : w.Fits v.toInt := by
  obtain ⟨value, size⟩ := i
  cases hv
  cases size with
  | some declared =>
    simp only [fitsField, Bool.and_eq_true, decide_eq_true_eq] at h
    exact h.2
  | none =>
    simp only [fitsField, Bool.or_eq_true, Bool.and_eq_true, decide_eq_true_eq] at h
    rcases h with (rfl | hs) | ⟨-, hu⟩
    · exact (Width.fitsSigned_qword v).fits
    · exact hs.fits
    · exact hu

end Immediate

namespace Roles

/-- The field of an immediate is marked where its sign is extended, so it promises by itself. -/
theorem ImmediateFrom.promised {slot : Shape × Operand} {f : Field} (h : ImmediateFrom slot f)
    (hacc : slot.1.accepts slot.2 = true) : Field.Promised (f.signed = true) f := by
  obtain ⟨w, signed, i, hshape, hi, rfl⟩ := h
  obtain ⟨hfits, hfixed⟩ := Shape.fitsField_of_accepts hshape hi hacc
  have hrange : ∀ v, i.value = .fixed v → w.Fits v.toInt ∧ (signed = true → w.FitsSigned v.toInt) :=
    fun v hv => ⟨Immediate.fits_of_fitsField hfits hv, fun hs =>
      hfixed hs v (by rw [Immediate.fixed?, hv])⟩
  unfold Field.ofImmediate
  split
  · rename_i v hv
    refine Field.promised_fixed (hrange v hv).1 ?_
    rintro (hs | hs)
    · exact (hrange v hv).2 hs
    · exact (hrange v hv).2 hs
  · exact Field.promised_later id

theorem BranchFrom.promised {slot : Shape × Operand} {f : Field} (h : BranchFrom slot f) :
    Field.Promised True f := by
  obtain ⟨w, i, -, -, rfl⟩ := h
  show Field.Promised True { Field.later w.bytes i.value.expr true with signed := true }
  exact Field.promised_later fun _ => rfl

end Roles

/-! ## Instructions -/

/-- The width that an address-size byte switches addresses to. -/
def Mode.otherAddressWidth : Mode → Width
  | .bits16 => .dword
  | .bits32 => .word
  | .bits64 => .dword

namespace Instruction

/-- The width of the addresses of an instruction, as the processor finds it. -/
def addressWidth (i : Instruction) (mode : Mode) : Width :=
  if i.prefixes.addressSize then mode.otherAddressWidth else mode.addressWidth

/-- Whether the processor extends the sign of a field: one that is marked as signed, a displacement
of one byte, and the displacement of an address of 64 bits. -/
def SignExtended (mode : Mode) (i : Instruction) (kind : FieldKind) : Prop :=
  (i.field kind).signed = true ∨
    kind = .displacement ∧ ((i.field kind).size = 1 ∨ i.addressWidth mode = .qword)

instance (mode : Mode) (i : Instruction) (kind : FieldKind) : Decidable (i.SignExtended mode kind) :=
  inferInstanceAs (Decidable (_ ∨ _))

/-- The bytes of a field, where they stand in the instruction. -/
def fieldBytes (i : Instruction) (kind : FieldKind) : List UInt8 :=
  (i.bytes.drop (i.fieldOffset kind)).take (i.field kind).size

/-- A field that holds its value, and bytes that it can be read back from. -/
structure ExactField (mode : Mode) (i : Instruction) (kind : FieldKind) (w : Width) : Prop where
  width : Width.ofBytes? (i.field kind).size = some w
  fits : w.Fits (i.field kind).value.toInt
  fitsSigned : i.SignExtended mode kind → w.FitsSigned (i.field kind).value.toInt
  readSigned : i.SignExtended mode kind →
    signedValue (i.fieldBytes kind) = (i.field kind).value.toInt
  readUnsigned : (unsignedValue (i.fieldBytes kind) : Int) =
    (i.field kind).value.toInt % 2 ^ (8 * (i.field kind).size)
  read : signedValue (i.fieldBytes kind) = (i.field kind).value.toInt ∨
    (unsignedValue (i.fieldBytes kind) : Int) = (i.field kind).value.toInt

/-- A value in range is what the bytes of the field are read as. -/
theorem exactField_of_fits {mode : Mode} {i : Instruction} {kind : FieldKind} {w : Width}
    (hw : Width.ofBytes? (i.field kind).size = some w) (hfits : w.Fits (i.field kind).value.toInt)
    (hsigned : i.SignExtended mode kind → w.FitsSigned (i.field kind).value.toInt) :
    i.ExactField mode kind w := by
  have hsize := Width.eq_bytes_of_ofBytes? hw
  have hbytes : i.fieldBytes kind = littleEndian w.bytes (i.field kind).value.toInt := by
    rw [fieldBytes, field_bytes, Field.bytes, hsize]
  refine ⟨hw, hfits, hsigned, fun hext => ?_, ?_, ?_⟩
  · rw [hbytes, (hsigned hext).signedValue_littleEndian]
  · rw [hbytes, unsignedValue_littleEndian, hsize, ← Width.bits_eq, Width.pow_bytes]
  · rw [hbytes]
    exact hfits.read_littleEndian

end Instruction

/-- An address-size byte stands exactly where the processor needs it to find the width. -/
theorem Memory.width_encode {m : Memory} {mode : Mode} {a : AddressForm} (h : m.encode mode = .ok a) :
    (if a.width ≠ mode.addressWidth then mode.otherAddressWidth else mode.addressWidth) = a.width := by
  obtain ⟨-, -, -, h⟩ := encode_eq_ok h
  rcases h with ⟨hw, h⟩ | ⟨hw, -⟩ | ⟨hw, rfl, -⟩
  · obtain ⟨hmode, -⟩ := encodeWord_eq_ok h
    rw [hw]
    cases mode with
    | bits16 | bits32 => rfl
    | bits64 => exact absurd rfl hmode
  · rw [hw]
    cases mode <;> rfl
  · rw [hw]
    rfl

namespace Row

theorem addressWidth_assembled (row : Row) (prefixes : PrefixBytes) (operandSize : Bool)
    (rex : Option UInt8) (span : Span) {mode : Mode} {f : OperandFields} {m : Memory} {a : AddressForm}
    (hm : m.encode mode = .ok a) (ha : f.addressSize = some a.width) :
    (row.assembled prefixes operandSize mode f rex span).addressWidth mode = a.width := by
  rw [← Memory.width_encode hm]
  simp only [Instruction.addressWidth, assembled, ha, Option.any_some, decide_eq_true_eq]

/-- **Every field of an encoded instruction promises its range.** -/
theorem encode_promised {row : Row} {operands : List Operand} {prefixes : PrefixBytes} {mode : Mode}
    {span : Span} {e : Instruction} (hacc : Shape.acceptAll row.shapes operands = true)
    (h : row.encode operands prefixes mode span = .ok e) (kind : FieldKind) :
    Field.Promised (e.SignExtended mode kind) (e.field kind) := by
  obtain ⟨operandSize, wide, f, rex, -, hf, -, -, rfl, -⟩ := encode_eq_ok h
  obtain ⟨roles, hroles, himm, hrel, hdisp⟩ := OperandFields.encode_eq_ok hf
  obtain ⟨hslotImm, hslotRel⟩ := Roles.ofSlots_fields hroles
  cases kind with
  | displacement =>
    show Field.Promised _ f.disp
    rcases hdisp with hnone | ⟨m, a, hm, hd, ha⟩
    · rw [hnone]
      exact Field.promised_absent _
    · have hwidth := row.addressWidth_assembled prefixes operandSize rex span hm ha
      rw [hd]
      refine (Memory.encode_promised hm).mono ?_
      rintro (hs | ⟨-, hext⟩)
      · left
        rwa [← hd]
      · right
        rw [hwidth] at hext
        rwa [Memory.ExtendsDisp, ← hd]
  | immediate =>
    show Field.Promised _ f.imm
    rcases hslotImm with hnone | ⟨slot, hslot, hfrom⟩
    · rw [himm, hnone]
      exact Field.promised_absent _
    · obtain ⟨-, -, i, -, hi, -⟩ := id hfrom
      rw [himm]
      refine (hfrom.promised (Shape.acceptAll_slot hacc hslot hi)).mono ?_
      rintro (hs | ⟨hkind, -⟩)
      · left
        rwa [← himm]
      · cases hkind
  | branch =>
    show Field.Promised _ f.rel
    rw [hrel]
    rcases hslotRel with hnone | ⟨slot, -, hfrom⟩
    · rw [hnone]
      exact Field.promised_absent _
    · exact hfrom.promised.mono fun _ => .inr trivial

end Row

namespace Instruction

/-- A patched instruction is extended where it was before: its prefixes, and the size and the mark of
its fields stay. -/
theorem signExtended_patch {lookup : String → Option Int64} {address : Nat} {i : Instruction}
    {mode : Mode} {kind : FieldKind} {v : Int64}
    (h : i.settled lookup (address + i.size) kind = .ok v) :
    (i.patch lookup address).1.SignExtended mode kind ↔ i.SignExtended mode kind := by
  unfold SignExtended addressWidth
  rw [field_patch, settledField_eq h, prefixes_patch]

/-- **Linking keeps what encoding promised.** -/
theorem exactField_patch {lookup : String → Option Int64} {address : Nat} {i : Instruction}
    {mode : Mode} {kind : FieldKind} (hp : Field.Promised (i.SignExtended mode kind) (i.field kind))
    (hpatch : (i.patch lookup address).2 = [])
    (hpos : 0 < ((i.patch lookup address).1.field kind).size) :
    ∃ w, (i.patch lookup address).1.ExactField mode kind w := by
  obtain ⟨v, hv⟩ := settled_of_patch hpatch kind
  have hfield : (i.patch lookup address).1.field kind = { i.field kind with value := v } := by
    rw [field_patch, settledField_eq hv]
  rw [hfield] at hpos
  obtain ⟨w, hw, hfits, hsigned⟩ := settled_fits hp hpos hv
  refine ⟨w, exactField_of_fits ?_ ?_ ?_⟩
  · rw [hfield]; exact hw
  · rw [hfield]; exact hfits
  · rw [signExtended_patch hv, hfield]
    exact fun hext => hsigned (.inr hext)

end Instruction

theorem ParsedInstruction.encode_promised {symbols : String → Option Interval} {mode : Mode}
    {i : ParsedInstruction} {e : Instruction} (h : i.encode symbols mode = .ok e)
    (kind : FieldKind) : Field.Promised (e.SignExtended mode kind) (e.field kind) := by
  obtain ⟨-, row, operands, prefixes, -, -, -, -, -, hacc, henc⟩ := encode_eq_ok h
  exact row.encode_promised hacc henc kind

/-- **Nothing is truncated in silence.** In the code that a session gives, the instructions are those
of its source in order, and every field of each of them has the size of a width whose range holds its
value: the signed range where the processor extends the sign. So the bytes of the field, read as
signed there and modulo the size elsewhere, give the value back. -/
theorem Session.finish_fields_exact {s : Session} {a : Assembly} (h : s.finish = .ok a) :
    List.Forall₂
      (fun source placed => ∀ kind, 0 < (Instruction.field placed.2 kind).size →
        ∃ w, placed.2.ExactField source.1 kind w)
      (Statement.instructionsIn s.mode s.statements) a.instructions := by
  obtain ⟨records, image, hrec, hlink, -, rfl⟩ := finish_eq_ok h
  obtain ⟨-, -, hpatch, -, -, himage⟩ := Program.link_eq_ok hlink
  have henc := program_instructions hrec
  show List.Forall₂ _ _ image.instructions
  rw [himage, List.forall₂_map_right_iff]
  -- Instruction by instruction: encoded from its source, and patched without a report.
  have hboth := ((List.forall₂_and_left _ _).2 ⟨hpatch, henc.flip⟩).flip
  refine hboth.imp ?_
  rintro source placed ⟨hnone, he⟩ kind hpos
  exact Instruction.exactField_patch (ParsedInstruction.encode_promised he kind) hnone hpos

theorem Session.finish_fields_exact_in_loop :
    ∃ s a, Session.load "again: add qword ptr [rbx - 8], -1\n mov ax, 0xFFFE\n jmp again"
        .bits64 0x1000 [] = .ok s ∧ s.finish = .ok a ∧
      a.bytes = [0x48, 0x83, 0x43, 0xF8, 0xFF, 0x66, 0xB8, 0xFE, 0xFF, 0xE9, 0xF2, 0xFF, 0xFF, 0xFF] ∧
      List.Forall₂
        (fun source placed => ∀ kind, 0 < (Instruction.field placed.2 kind).size →
          ∃ w, placed.2.ExactField source.1 kind w)
        (Statement.instructionsIn s.mode s.statements) a.instructions := by
  have hbytes : (assemble "again: add qword ptr [rbx - 8], -1\n mov ax, 0xFFFE\n jmp again"
      .bits64 0x1000 []).toOption =
        some [0x48, 0x83, 0x43, 0xF8, 0xFF, 0x66, 0xB8, 0xFE, 0xFF, 0xE9, 0xF2, 0xFF, 0xFF, 0xFF] := by
    decide +kernel
  obtain ⟨s, a, hload, ha, heq⟩ := assemble_eq_ok.1 (toOption_eq_some.1 hbytes)
  exact ⟨s, a, hload, ha, heq, Session.finish_fields_exact ha⟩

end IntelAsm
