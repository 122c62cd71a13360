/-
Where the bytes of a linked program come from. Linking lays the instructions
out one behind the other, so the bytes of each stand in the image at its
address (`Program.link_bytes_split`), and every byte of the image belongs to
one (`Program.exists_instruction_at`). Patching changes an instruction inside
the fields that wait for symbols and nowhere else
(`Instruction.bytes_patch_outside`).

Together these say what relocation does (`Program.link_relocated`): a field
that waited for symbols holds the value of its expression under the addresses
of the image, counted from the end of the instruction where it is a distance,
and all other bytes are those of the instructions as encoded.
-/
import IntelAsm.Proofs.FieldRange

namespace IntelAsm

/-! ## Fields as encoded -/

namespace Field

/-- What encoding leaves to linking: a field of one of the widths, and a distance only in a signed
one. -/
def Patchable (f : Field) : Prop :=
  f.deferred ≠ none → (∃ w : Width, f.size = w.bytes) ∧ (f.pcRelative = true → f.signed = true)

theorem patchable_of_known {f : Field} (h : f.deferred = none) : f.Patchable :=
  fun hne => absurd h hne

theorem patchable_later {w : Width} {e : Expr} {pcRelative signed : Bool}
    (h : pcRelative = true → signed = true) :
    Patchable { later w.bytes e pcRelative with signed } :=
  fun _ => ⟨⟨w, rfl⟩, h⟩

end Field

namespace Memory

theorem dispField_patchable {m : Memory} {w : Width} {takes : Int → Bool} {pcRelative signed : Bool}
    {f : Field} (hsigned : pcRelative = true → signed = true)
    (h : m.dispField w takes pcRelative signed = .ok f) : f.Patchable := by
  rcases dispField_eq_ok h with ⟨-, rfl⟩ | ⟨d, v, -, -, rfl, -⟩ | ⟨d, e, b, -, -, rfl⟩
  · exact Field.patchable_of_known rfl
  · exact Field.patchable_of_known rfl
  · exact Field.patchable_later hsigned

theorem disp32_patchable {m : Memory} {address : Width} {pcRelative : Bool} {f : Field}
    (h : m.disp32 address pcRelative = .ok f) : f.Patchable :=
  dispField_patchable (fun hpc => by simp [hpc]) h

theorem disp16_patchable {m : Memory} {f : Field} (h : m.disp16 = .ok f) : f.Patchable :=
  dispField_patchable (fun hpc => by cases hpc) h

theorem encode_patchable {m : Memory} {mode : Mode} {a : AddressForm} (h : m.encode mode = .ok a) :
    a.disp.Patchable :=
  encode_disp (P := fun _ f => f.Patchable) (fun _ => Field.patchable_of_known rfl)
    (fun _ _ _ => Field.patchable_of_known rfl) (fun _ _ _ hf => disp32_patchable hf)
    (fun _ hf => disp16_patchable hf) h

end Memory

namespace Roles

theorem ImmediateFrom.patchable {slot : Shape × Operand} {f : Field} (h : ImmediateFrom slot f) :
    f.Patchable := by
  obtain ⟨w, signed, i, -, -, rfl⟩ := h
  unfold Field.ofImmediate
  split
  · exact Field.patchable_of_known rfl
  · exact Field.patchable_later fun hpc => by cases hpc

theorem BranchFrom.patchable {slot : Shape × Operand} {f : Field} (h : BranchFrom slot f) :
    f.Patchable := by
  obtain ⟨w, i, -, -, rfl⟩ := h
  show Field.Patchable { Field.later w.bytes i.value.expr true with signed := true }
  exact Field.patchable_later fun _ => rfl

end Roles

theorem Row.encode_patchable {row : Row} {operands : List Operand} {prefixes : PrefixBytes}
    {mode : Mode} {span : Span} {e : Instruction}
    (h : row.encode operands prefixes mode span = .ok e) (kind : FieldKind) :
    (e.field kind).Patchable := by
  obtain ⟨operandSize, wide, f, rex, -, hf, -, -, rfl, -⟩ := encode_eq_ok h
  obtain ⟨roles, hroles, himm, hrel, hdisp⟩ := OperandFields.encode_eq_ok hf
  obtain ⟨hslotImm, hslotRel⟩ := Roles.ofSlots_fields hroles
  cases kind with
  | displacement =>
    show f.disp.Patchable
    rcases hdisp with hnone | ⟨m, a, hm, hd, -⟩
    · rw [hnone]
      exact Field.patchable_of_known rfl
    · rw [hd]
      exact Memory.encode_patchable hm
  | immediate =>
    show f.imm.Patchable
    rw [himm]
    rcases hslotImm with hnone | ⟨slot, -, hfrom⟩
    · rw [hnone]
      exact Field.patchable_of_known rfl
    · exact hfrom.patchable
  | branch =>
    show f.rel.Patchable
    rw [hrel]
    rcases hslotRel with hnone | ⟨slot, -, hfrom⟩
    · rw [hnone]
      exact Field.patchable_of_known rfl
    · exact hfrom.patchable

theorem ParsedInstruction.encode_patchable {symbols : String → Option Interval} {mode : Mode}
    {i : ParsedInstruction} {e : Instruction} (h : i.encode symbols mode = .ok e)
    (kind : FieldKind) : (e.field kind).Patchable := by
  obtain ⟨-, row, operands, prefixes, -, -, -, -, -, -, henc⟩ := encode_eq_ok h
  exact row.encode_patchable henc kind

/-! ## Instructions as patched -/

/-- The byte at `offset` in an instruction belongs to the field. -/
def Fixup.Covers (fixup : Fixup) (offset : Nat) : Prop :=
  fixup.offset ≤ offset ∧ offset < fixup.offset + fixup.field.size

instance (fixup : Fixup) (offset : Nat) : Decidable (fixup.Covers offset) :=
  inferInstanceAs (Decidable (_ ∧ _))

namespace Instruction

variable {lookup : String → Option Int64}

theorem mem_fixups {i : Instruction} {fixup : Fixup} :
    fixup ∈ i.fixups ↔ ∃ kind, fixup = ⟨i.fieldOffset kind, kind, i.field kind⟩ ∧
      (i.field kind).isDeferred = true := by
  simp only [fixups, fieldKinds, List.mem_filter, List.mem_map]
  constructor
  · rintro ⟨⟨kind, -, rfl⟩, hdef⟩
    exact ⟨kind, rfl, hdef⟩
  · rintro ⟨kind, rfl, hdef⟩
    exact ⟨⟨kind, by cases kind <;> simp, rfl⟩, hdef⟩

theorem size_settledField (lookup : String → Option Int64) (stop : Nat) (i : Instruction)
    (kind : FieldKind) : (i.settledField lookup stop kind).size = (i.field kind).size := by
  unfold settledField
  split <;> rfl

/-- A field that waits for nothing stays as it is. -/
theorem settledField_of_known {stop : Nat} {i : Instruction} {kind : FieldKind}
    (h : (i.field kind).isDeferred = false) :
    i.settledField lookup stop kind = i.field kind := by
  have hnone : (i.field kind).deferred = none := by simpa [Field.isDeferred] using h
  rw [settledField, settled, hnone]

theorem header_patch (lookup : String → Option Int64) (address : Nat) (i : Instruction) :
    (i.patch lookup address).1.header = i.header := by
  rw [patch_eq]
  rfl

theorem size_field_patch (lookup : String → Option Int64) (address : Nat) (i : Instruction)
    (kind : FieldKind) :
    ((i.patch lookup address).1.field kind).size = (i.field kind).size := by
  rw [field_patch, size_settledField]

theorem fieldOffset_patch (lookup : String → Option Int64) (address : Nat) (i : Instruction)
    (kind : FieldKind) :
    (i.patch lookup address).1.fieldOffset kind = i.fieldOffset kind := by
  have hdisp := size_field_patch lookup address i .displacement
  have himm := size_field_patch lookup address i .immediate
  simp only [field] at hdisp himm
  cases kind <;> simp only [fieldOffset, header_patch, hdisp, himm]

/-- Patching keeps the length. -/
theorem size_patch (lookup : String → Option Int64) (address : Nat) (i : Instruction) :
    (i.patch lookup address).1.size = i.size := by
  have hdisp := size_field_patch lookup address i .displacement
  have himm := size_field_patch lookup address i .immediate
  have hrel := size_field_patch lookup address i .branch
  simp only [field] at hdisp himm hrel
  simp only [size, header_patch, hdisp, himm, hrel]

theorem fieldOffset_add_size_le (i : Instruction) (kind : FieldKind) :
    i.fieldOffset kind + (i.field kind).size ≤ i.size := by
  cases kind <;> simp only [fieldOffset, field, size] <;> omega

/-- A field that was settled, in the bytes of the patched instruction. -/
theorem field_bytes_settled {address : Nat} {i : Instruction} {kind : FieldKind} {v : Int64}
    (h : i.settled lookup (address + i.size) kind = .ok v) :
    ((i.patch lookup address).1.bytes.drop (i.fieldOffset kind)).take (i.field kind).size =
      littleEndian (i.field kind).size v.toInt := by
  have hbytes := (i.patch lookup address).1.field_bytes kind
  rw [fieldOffset_patch, size_field_patch, field_patch, settledField_eq h] at hbytes
  exact hbytes

/-- The bytes of a field are the same before and after where it waits for nothing, or where the
position is none of the field's. -/
theorem field_bytes_patch (lookup : String → Option Int64) (address : Nat) {i : Instruction}
    {kind : FieldKind} {k : Nat}
    (h : ∀ fixup ∈ i.fixups, ¬ fixup.Covers (i.fieldOffset kind + k)) :
    ((i.patch lookup address).1.field kind).bytes[k]? = (i.field kind).bytes[k]? := by
  rw [field_patch]
  by_cases hdef : (i.field kind).isDeferred = true
  · have hlong : (i.field kind).size ≤ k := by
      have hnot := h _ (mem_fixups.2 ⟨kind, rfl, hdef⟩)
      simp only [Fixup.Covers] at hnot
      omega
    have hafter : (i.settledField lookup (address + i.size) kind).size ≤ k := by
      rw [size_settledField]
      exact hlong
    rw [List.getElem?_eq_none (by simpa using hafter), List.getElem?_eq_none (by simpa using hlong)]
  · rw [settledField_of_known (by simpa using hdef)]

/-- **Patching touches the waiting fields only.** -/
theorem bytes_patch_outside (lookup : String → Option Int64) (address : Nat) {i : Instruction} {k : Nat}
    (h : ∀ fixup ∈ i.fixups, ¬ fixup.Covers k) :
    (i.patch lookup address).1.bytes[k]? = i.bytes[k]? := by
  have hfield : ∀ kind j, i.fieldOffset kind + j = k →
      ((i.patch lookup address).1.field kind).bytes[j]? = (i.field kind).bytes[j]? :=
    fun kind j hj => field_bytes_patch lookup address (by rw [hj]; exact h)
  have hdisp := size_field_patch lookup address i .displacement
  have himm := size_field_patch lookup address i .immediate
  simp only [field] at hdisp himm
  simp only [bytes, List.getElem?_append, List.length_append, Field.length_bytes, header_patch, hdisp,
    himm]
  split
  · split
    · split
      · rfl
      · exact hfield .displacement _ (by simp only [fieldOffset]; omega)
    · exact hfield .immediate _ (by simp only [fieldOffset]; omega)
  · exact hfield .branch _ (by simp only [fieldOffset]; omega)

end Instruction

/-! ## The bytes of an image -/

namespace Program

/-- An item of a layout stands where the items in front of it end. -/
theorem mem_placeFrom {start a : Nat} {items : List Item} {item : Item}
    (h : (a, item) ∈ placeFrom start items) :
    ∃ before after, items = before ++ item :: after ∧ a = start + Item.sizes before := by
  induction items generalizing start with
  | nil => simp [placeFrom] at h
  | cons first items ih =>
    simp only [placeFrom, List.mem_cons, Prod.mk.injEq] at h
    rcases h with ⟨rfl, rfl⟩ | h
    · exact ⟨[], items, rfl, rfl⟩
    · obtain ⟨before, after, rfl, rfl⟩ := ih h
      exact ⟨first :: before, after, rfl, by simp only [Item.sizes]; omega⟩

theorem mem_instructions {p : Program} {a : Nat} {i : Instruction} :
    (a, i) ∈ p.instructions ↔ (a, Item.instruction i) ∈ p.place := by
  simp only [instructions, List.mem_filterMap]
  constructor
  · rintro ⟨⟨address, item⟩, hmem, heq⟩
    cases item with
    | label name span => cases heq
    | instruction j => cases heq; exact hmem
  · intro hmem
    exact ⟨_, hmem, rfl⟩

/-- The bytes of a laid out item, where those of an instruction depend on its address. -/
def itemBytes (code : Nat → Instruction → List UInt8) : Nat × Item → List UInt8
  | (_, .label ..) => []
  | (address, .instruction i) => code address i

theorem flatMap_instructions (p : Program) (code : Nat → Instruction → List UInt8) :
    p.instructions.flatMap (fun x => code x.1 x.2) = p.place.flatMap (itemBytes code) := by
  unfold instructions
  induction p.place with
  | nil => rfl
  | cons x xs ih =>
    obtain ⟨address, item⟩ := x
    cases item with
    | label name span => simpa [itemBytes] using ih
    | instruction i => simpa [itemBytes] using ih

section

variable {code : Nat → Instruction → List UInt8} (hcode : ∀ a i, (code a i).length = i.size)
include hcode

theorem length_code (start : Nat) (items : List Item) :
    ((placeFrom start items).flatMap (itemBytes code)).length = Item.sizes items := by
  induction items generalizing start with
  | nil => rfl
  | cons item items ih =>
    have hitem : (itemBytes code (start, item)).length = item.size := by
      cases item with
      | label name span => rfl
      | instruction i => exact hcode start i
    simp only [placeFrom, List.flatMap_cons, List.length_append, Item.sizes, ih, hitem]

/-- The bytes of an instruction stand at its address. -/
theorem code_split {start a : Nat} {items : List Item} {i : Instruction}
    (h : (a, Item.instruction i) ∈ placeFrom start items) :
    ∃ before after, (placeFrom start items).flatMap (itemBytes code) = before ++ (code a i ++ after) ∧
      a = start + before.length := by
  obtain ⟨before, after, rfl, rfl⟩ := mem_placeFrom h
  refine ⟨(placeFrom start before).flatMap (itemBytes code),
    (placeFrom (start + Item.sizes before + i.size) after).flatMap (itemBytes code), ?_, ?_⟩
  · rw [placeFrom_append, List.flatMap_append, placeFrom, List.flatMap_cons]
    rfl
  · rw [length_code hcode]

end

/-- Every byte is one of an instruction. -/
theorem exists_instruction_at {start n : Nat} {items : List Item} (h : n < Item.sizes items) :
    ∃ a i, (a, Item.instruction i) ∈ placeFrom start items ∧ a ≤ start + n ∧
      start + n < a + i.size := by
  induction items generalizing start n with
  | nil => simp [Item.sizes] at h
  | cons item items ih =>
    simp only [Item.sizes] at h
    by_cases hn : n < item.size
    · cases item with
      | label name span => simp [Item.size] at hn
      | instruction i =>
        simp only [Item.size] at hn
        exact ⟨start, i, by simp [placeFrom], by omega, by omega⟩
    · obtain ⟨a, i, hmem, hle, hlt⟩ := @ih (start + item.size) (n - item.size) (by omega)
      exact ⟨a, i, by simp [placeFrom, hmem], by omega, by omega⟩

/-- The bytes of a linked program are those of its patched instructions, each at its address. -/
theorem link_bytes_split {p : Program} {image : Image} (h : p.link = .ok image) {a : Nat}
    {i : Instruction} (hi : (a, i) ∈ p.instructions) :
    ∃ before after, image.bytes = before ++ ((i.patch p.value? a).1.bytes ++ after) ∧
      a = p.base + before.length := by
  obtain ⟨-, -, -, hbytes, -⟩ := link_eq_ok h
  rw [hbytes, flatMap_instructions p fun a i => (i.patch p.value? a).1.bytes]
  refine code_split (fun a i => ?_) (mem_instructions.1 hi)
  rw [Instruction.length_bytes, Instruction.size_patch]

theorem length_link {p : Program} {image : Image} (h : p.link = .ok image) :
    image.bytes.length = Item.sizes p.items := by
  obtain ⟨-, -, -, hbytes, -⟩ := link_eq_ok h
  rw [hbytes, flatMap_instructions p fun a i => (i.patch p.value? a).1.bytes]
  refine length_code (fun a i => ?_) p.base p.items
  rw [Instruction.length_bytes, Instruction.size_patch]

end Program

/-! ## Symbols of an image -/

namespace Image

/-- The bytes from an offset on. -/
def slice (image : Image) (offset size : Nat) : List UInt8 := (image.bytes.drop offset).take size

theorem slice_split {image : Image} {before bytes after : List UInt8} {offset size : Nat}
    (h : image.bytes = before ++ (bytes ++ after)) (hfit : offset + size ≤ bytes.length) :
    image.slice (before.length + offset) size = (bytes.drop offset).take size := by
  rw [slice, h, List.drop_append, List.drop_eq_nil_of_le (by omega), List.nil_append,
    Nat.add_sub_cancel_left, List.drop_append_of_le_length (by omega),
    List.take_append_of_le_length (by rw [List.length_drop]; omega)]

theorem getElem?_split {image : Image} {before bytes after : List UInt8} {k : Nat}
    (h : image.bytes = before ++ (bytes ++ after)) (hk : k < bytes.length) :
    image.bytes[before.length + k]? = bytes[k]? := by
  rw [h, List.getElem?_append_right (by omega), Nat.add_sub_cancel_left,
    List.getElem?_append_left hk]

/-- The value of a symbol by the labels of the image, or else by the external symbols. An address
beyond the signed values is none. -/
def value? (image : Image) (externals : Externals) (name : String) : Option Int64 :=
  ((image.labels.lookup name).orElse fun _ => externals.get? name).bind fun a =>
    (exact64 a).toOption

end Image

namespace Program

theorem lookup_labels (labels : List LabelDef) (name : String) :
    (labels.map fun d => (d.name, d.address)).lookup name =
      (labels.find? (·.name = name)).map LabelDef.address := by
  induction labels with
  | nil => rfl
  | cons d labels ih =>
    rw [List.map_cons, List.lookup_cons, List.find?_cons]
    by_cases hd : d.name = name
    · simp [hd]
    · have hne : (name == d.name) = false := by simpa using fun heq => hd heq.symm
      simp [hd, hne, ih]

/-- The image answers for symbols as linking did. -/
theorem value?_link {p : Program} {image : Image} (h : p.link = .ok image) :
    image.value? p.externals = p.value? := by
  obtain ⟨-, -, -, -, hlabels, -⟩ := link_eq_ok h
  funext name
  rw [Image.value?, hlabels, lookup_labels]
  rfl

end Program

/-! ## Relocation -/

namespace Field

/-- What a field should hold if its expression comes out as `target` in an instruction that ends at
`stop`. -/
def amount (f : Field) (target : Int64) (stop : Nat) : Int :=
  target.toInt - if f.pcRelative then stop else 0

/-- Bytes that hold the amount of a field: as a signed number in a signed field, modulo the size of
the field in any. From the end of the instruction a distance leads to the target. -/
structure FilledWith (f : Field) (bytes : List UInt8) (target : Int64) (stop : Nat) : Prop where
  length : bytes.length = f.size
  readSigned : f.signed = true → signedValue bytes = f.amount target stop
  readUnsigned : (unsignedValue bytes : Int) = f.amount target stop % 2 ^ (8 * f.size)
  reaches : f.pcRelative = true → stop + signedValue bytes = target.toInt

theorem toInt_counted {f : Field} {target v : Int64} {stop : Nat} {span : Span}
    (h : f.counted target stop span = .ok v) : v.toInt = f.amount target stop := by
  unfold counted at h
  by_cases hpc : f.pcRelative = true
  · simp only [hpc, if_true, distance] at h
    split at h
    · cases h
    · cases h
    · rename_i u hu
      cases h
      simpa [amount, hpc] using exact64_eq_ok_iff.1 hu
  · simp only [hpc, Bool.false_eq_true, if_false, Except.ok.injEq] at h
    simp [amount, hpc, h]

/-- **A resolved field is filled with its amount.** -/
theorem filledWith_of_resolve {lookup : String → Option Int64} {f : Field} {kind : FieldKind}
    {e : Expr} {stop : Nat} {span : Span} {v : Int64} (hf : f.Patchable) (hd : f.deferred = some e)
    (h : f.resolve lookup kind e stop span = .ok v) :
    ∃ target, e.resolve lookup = .ok target ∧
      f.FilledWith (littleEndian f.size v.toInt) target stop := by
  obtain ⟨target, htarget, hcounted, hrange⟩ := resolve_eq_ok.1 h
  obtain ⟨⟨w, hw⟩, hmarked⟩ := hf (by simp [hd])
  have hv := toInt_counted hcounted
  have hwidth : Width.ofBytes? f.size = some w := by rw [hw, Width.ofBytes?_bytes]
  have hsigned : f.signed = true → signedValue (littleEndian f.size v.toInt) = f.amount target stop := by
    intro hs
    simp only [inRange, hwidth, hs, if_true, decide_eq_true_eq] at hrange
    rw [hw, hrange.signedValue_littleEndian, hv]
  refine ⟨target, htarget, length_littleEndian _ _, hsigned, ?_, fun hpc => ?_⟩
  · rw [unsignedValue_littleEndian, hw, w.pow_bytes, w.bits_eq, hv]
  · rw [hsigned (hmarked hpc)]
    simp only [amount, hpc, if_true]
    omega

end Field

namespace Program

/-- The instructions of a program are encoded ones. -/
def Encoded (p : Program) : Prop :=
  ∀ i, Item.instruction i ∈ p.items →
    ∃ symbols mode source, ParsedInstruction.encode symbols mode source = .ok i

theorem Encoded.patchable {p : Program} (hp : p.Encoded) {a : Nat} {i : Instruction}
    (hi : (a, i) ∈ p.instructions) (kind : FieldKind) : (i.field kind).Patchable := by
  obtain ⟨before, after, hitems, -⟩ := mem_placeFrom (mem_instructions.1 hi)
  obtain ⟨symbols, mode, source, henc⟩ := hp i (by rw [hitems]; simp)
  exact ParsedInstruction.encode_patchable henc kind

/-- A field that waited for symbols, in the bytes of the image. -/
theorem link_fixup {p : Program} {image : Image} (hp : p.Encoded) (h : p.link = .ok image) {a : Nat}
    {i : Instruction} (hi : (a, i) ∈ p.instructions) {fixup : Fixup} (hfixup : fixup ∈ i.fixups) :
    ∃ e target, fixup.field.deferred = some e ∧ e.resolve p.value? = .ok target ∧
      fixup.field.FilledWith (image.slice (a - p.base + fixup.offset) fixup.field.size) target
        (a + i.size) := by
  obtain ⟨kind, rfl, hdef⟩ := Instruction.mem_fixups.1 hfixup
  obtain ⟨e, he⟩ := Option.isSome_iff_exists.1 hdef
  obtain ⟨-, -, hpatch, -⟩ := link_eq_ok h
  obtain ⟨v, hv⟩ := Instruction.settled_of_patch (hpatch (a, i) hi) kind
  have hresolve : (i.field kind).resolve p.value? kind e (a + i.size) i.span = .ok v := by
    rw [Instruction.settled, he] at hv
    exact hv
  obtain ⟨target, htarget, hfilled⟩ :=
    Field.filledWith_of_resolve (hp.patchable hi kind) he hresolve
  refine ⟨e, target, he, htarget, ?_⟩
  obtain ⟨before, after, hbytes, rfl⟩ := link_bytes_split h hi
  -- The slice is the field of the patched instruction, whose bytes are those of `v`.
  have hfit : i.fieldOffset kind + (i.field kind).size ≤ (i.patch p.value?
      (p.base + before.length)).1.bytes.length := by
    rw [Instruction.length_bytes, Instruction.size_patch]
    exact i.fieldOffset_add_size_le kind
  rw [Nat.add_sub_cancel_left, Image.slice_split hbytes hfit, Instruction.field_bytes_settled hv]
  exact hfilled

/-- A byte outside the fields that waited for symbols is the one that was encoded. -/
theorem link_byte_outside {p : Program} {image : Image} (h : p.link = .ok image) {a : Nat}
    {i : Instruction} (hi : (a, i) ∈ p.instructions) {k : Nat} (hk : k < i.size)
    (hout : ∀ fixup ∈ i.fixups, ¬ fixup.Covers k) :
    image.bytes[a - p.base + k]? = i.bytes[k]? := by
  obtain ⟨before, after, hbytes, rfl⟩ := link_bytes_split h hi
  have hlt : k < (i.patch p.value? (p.base + before.length)).1.bytes.length := by
    rw [Instruction.length_bytes, Instruction.size_patch]
    exact hk
  rw [Nat.add_sub_cancel_left, Image.getElem?_split hbytes hlt,
    Instruction.bytes_patch_outside _ _ hout]

/-- The image of a program whose fields all hold what they should. -/
structure Relocated (p : Program) (image : Image) : Prop where
  /-- No instruction is in front of the base. -/
  base_le : ∀ a i, (a, i) ∈ p.instructions → p.base ≤ a
  /-- A field that waited for symbols holds the value of its expression under the addresses of the
  image. -/
  filled : ∀ a i, (a, i) ∈ p.instructions → ∀ fixup ∈ i.fixups,
    ∃ e target, fixup.field.deferred = some e ∧ e.resolve (image.value? p.externals) = .ok target ∧
      fixup.field.FilledWith (image.slice (a - p.base + fixup.offset) fixup.field.size) target
        (a + i.size)
  /-- A byte outside these fields is that of the instruction as it was encoded. -/
  kept : ∀ a i, (a, i) ∈ p.instructions → ∀ k < i.size,
    (∀ fixup ∈ i.fixups, ¬ fixup.Covers k) → image.bytes[a - p.base + k]? = i.bytes[k]?
  /-- There are no other bytes. -/
  covered : ∀ n < image.bytes.length,
    ∃ a i k, (a, i) ∈ p.instructions ∧ k < i.size ∧ n = a - p.base + k

/-- **Relocation is right.** In the image of a program of encoded instructions, at any base and with
any external symbols: every field that waited for symbols holds what its expression comes out as under
the addresses of the image, less the end of the instruction where it is a distance, as a signed number
in a signed field and modulo its size in any other; and all other bytes are those of the instructions
as they were encoded. -/
theorem link_relocated {p : Program} {image : Image} (hp : p.Encoded) (h : p.link = .ok image) :
    p.Relocated image := by
  have hsplit : ∀ a i, (a, i) ∈ p.instructions → p.base ≤ a := by
    intro a i hi
    obtain ⟨before, after, -, hstart⟩ := link_bytes_split h hi
    omega
  refine ⟨hsplit, fun a i hi fixup hfixup => ?_, fun a i hi k hk hout => ?_, fun n hn => ?_⟩
  · rw [value?_link h]
    exact link_fixup hp h hi hfixup
  · exact link_byte_outside h hi hk hout
  · rw [length_link h] at hn
    obtain ⟨a, i, hmem, hle, hlt⟩ := exists_instruction_at hn
    have hi := mem_instructions.2 hmem
    have hbase := hsplit a i hi
    exact ⟨a, i, p.base + n - a, hi, by omega, by omega⟩

end Program

/-- The program of a session is one of encoded instructions. -/
theorem Session.program_encoded {s : Session} {records : List Record}
    (h : s.encodeStrict = .ok records) : (s.program records).Encoded := by
  intro i hi
  have hmem : i ∈ (records.map Record.item).filterMap Item.instruction? :=
    List.mem_filterMap.2 ⟨.instruction i, hi, rfl⟩
  obtain ⟨source, -, henc⟩ := forall₂_mem_right (encodeStrict_translated h).instructions hmem
  exact ⟨s.symbols.get?, source.1, source.2, henc⟩

/-- A distance with an immediate behind it, a backward jump and an address in an immediate. -/
theorem Program.link_relocated_loop :
    ∃ s records image,
      Session.load "start: mov dword ptr [rip + data], 7\n jmp start\n data: mov eax, start" .bits64
        0x400000 [] = .ok s ∧ s.encodeStrict = .ok records ∧ (s.program records).Encoded ∧
      (s.program records).link = .ok image ∧
      image.bytes = [0xC7, 0x05, 0x05, 0, 0, 0, 7, 0, 0, 0, 0xE9, 0xF1, 0xFF, 0xFF, 0xFF, 0xB8, 0, 0,
        0x40, 0] ∧
      (s.program records).Relocated image := by
  have hrun : (do
      let s ← (Session.load "start: mov dword ptr [rip + data], 7\n jmp start\n data: mov eax, start"
        .bits64 0x400000 []).toOption
      let records ← s.encodeStrict.toOption
      let image ← (s.program records).link.toOption
      return image.bytes) = some [0xC7, 0x05, 0x05, 0, 0, 0, 7, 0, 0, 0, 0xE9, 0xF1, 0xFF, 0xFF, 0xFF,
        0xB8, 0, 0, 0x40, 0] := by
    decide +kernel
  simp only [bind, Option.bind_eq_some_iff, Option.pure_def, Option.some.injEq, toOption_eq_some] at hrun
  obtain ⟨s, hs, records, hrec, image, himage, hbytes⟩ := hrun
  have hp := Session.program_encoded hrec
  exact ⟨s, records, image, hs, hrec, hp, himage, hbytes, Program.link_relocated hp himage⟩

end IntelAsm
