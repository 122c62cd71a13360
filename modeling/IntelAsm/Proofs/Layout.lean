/-
The layout of a linked program, seen from its image. The instructions stand in
the order of the items without gaps, so the address of each is the base plus
the sizes of those in front of it, and so is that of a label
(`Program.LaidOut`). The labels are listed as they are defined, since a program
in which a name is defined twice does not link (`Program.labels_of_no_duplicate`).

Addresses are natural numbers here, and a program that does not end within 64
bits is refused. What is not refused can be computed in words: no sum of an
address and a size wraps around (`Program.WordExact`), at any base, because
the last address is the greatest one.
-/
import IntelAsm.Proofs.Relocation

namespace IntelAsm

/-! ## Items by kind -/

namespace Item

/-- The name of an item that is a label. -/
def labelName? : Item → Option String
  | .label name _ => some name
  | .instruction _ => none

/-- The size of all instructions among items. -/
def codeSize (items : List Item) : Nat :=
  ((items.filterMap instruction?).map Instruction.size).sum

@[simp] theorem codeSize_label (name : String) (span : Span) (items : List Item) :
    codeSize (.label name span :: items) = codeSize items := rfl

@[simp] theorem codeSize_instruction (i : Instruction) (items : List Item) :
    codeSize (.instruction i :: items) = i.size + codeSize items := by
  simp [codeSize, instruction?]

/-- Labels take no room. -/
theorem codeSize_eq_sizes (items : List Item) : codeSize items = sizes items := by
  induction items with
  | nil => rfl
  | cons item items ih =>
    cases item with
    | label name span => rw [codeSize_label, ih, sizes, size, Nat.zero_add]
    | instruction i => rw [codeSize_instruction, ih, sizes, size]

end Item

/-! ## Instructions by place -/

namespace Program

theorem instructions_instruction (base : Nat) (externals : Externals) (items : List Item)
    (i : Instruction) :
    (⟨base, externals, .instruction i :: items⟩ : Program).instructions =
      (base, i) :: (⟨base + i.size, externals, items⟩ : Program).instructions := rfl

/-- **An instruction stands behind those in front of it.** -/
theorem address_eq {base : Nat} {externals : Externals} {items : List Item} {k a : Nat}
    {i : Instruction}
    (h : (⟨base, externals, items⟩ : Program).instructions[k]? = some (a, i)) :
    a = base + (((⟨base, externals, items⟩ : Program).instructions.take k).map
      fun x => x.2.size).sum := by
  -- By induction on the items; the first instruction moves the base of the others.
  induction items generalizing base k with
  | nil =>
    have hnil : (⟨base, externals, []⟩ : Program).instructions = [] := rfl
    simp [hnil] at h
  | cons item items ih =>
    cases item with
    | label name span => exact ih h
    | instruction j =>
      rw [instructions_instruction] at h ⊢
      cases k with
      | zero =>
        simp only [List.getElem?_cons_zero, Option.some.injEq, Prod.mk.injEq] at h
        simp [h.1]
      | succ k =>
        rw [List.getElem?_cons_succ] at h
        have hrest := ih h
        simp only [List.take_succ_cons, List.map_cons, List.sum_cons]
        omega

theorem instructions_eq_items (p : Program) :
    p.instructions.map Prod.snd = p.items.filterMap Item.instruction? :=
  placeFrom_instructions p.base p.items

/-! ## Labels by place -/

theorem labelDefs_names (base : Nat) (externals : Externals) (items : List Item) :
    (⟨base, externals, items⟩ : Program).labelDefs.map LabelDef.name =
      items.filterMap Item.labelName? := by
  induction items generalizing base with
  | nil => rfl
  | cons item items ih =>
    cases item with
    | label name span => exact congrArg (name :: ·) (ih base)
    | instruction i => exact ih (base + i.size)

/-- **A label stands behind the instructions in front of it**, and is listed behind the labels in
front of it. -/
theorem labelDefs_getElem? (base : Nat) (externals : Externals) (before after : List Item)
    (name : String) (span : Span) :
    (⟨base, externals, before ++ .label name span :: after⟩ : Program).labelDefs[
        (before.filterMap Item.labelName?).length]? =
      some ⟨name, base + Item.codeSize before, span⟩ := by
  induction before generalizing base with
  | nil => rfl
  | cons item before ih =>
    cases item with
    | label other place => exact ih base
    | instruction i =>
      rw [Item.codeSize_instruction, ← Nat.add_assoc]
      exact ih (base + i.size)

/-- Definitions without a redefinition are all first ones, under names that are new. -/
theorem splitDefs_of_no_duplicate {seen ds : List LabelDef} (h : (splitDefs seen ds).2 = []) :
    (splitDefs seen ds).1 = ds ∧ (ds.map LabelDef.name).Nodup ∧
      ∀ d ∈ ds, ∀ c ∈ seen, c.name ≠ d.name := by
  induction ds generalizing seen with
  | nil => simp [splitDefs]
  | cons d ds ih =>
    simp only [splitDefs] at h ⊢
    cases hfind : seen.find? (·.name = d.name) with
    | some first => simp [hfind] at h
    | none =>
      simp only [hfind] at h ⊢
      obtain ⟨hall, hnodup, hnew⟩ := ih h
      have hd : ∀ c ∈ seen, c.name ≠ d.name := by
        intro c hc
        simpa using List.find?_eq_none.1 hfind c hc
      refine ⟨by rw [hall], ?_, ?_⟩
      · rw [List.map_cons, List.nodup_cons]
        refine ⟨fun hmem => ?_, hnodup⟩
        obtain ⟨c, hc, hname⟩ := List.mem_map.1 hmem
        exact hnew c hc d (by simp) hname.symm
      · intro c hc
        rcases List.mem_cons.1 hc with rfl | hc
        · exact hd
        · intro e he
          exact hnew c hc e (by simp [he])

theorem labels_of_no_duplicate {p : Program} (h : p.duplicates = []) :
    p.labels = p.labelDefs ∧ (p.labelDefs.map LabelDef.name).Nodup := by
  have hnone : (splitDefs [] p.labelDefs).2 = [] := by
    rw [duplicates] at h
    exact List.map_eq_nil_iff.1 h
  obtain ⟨hall, hnodup, -⟩ := splitDefs_of_no_duplicate hnone
  exact ⟨hall, hnodup⟩

/-! ## Addresses in words -/

/-- The addresses of a program can be computed in words of 64 bits: the base is a word, an address
plus the size of the instruction there does not wrap around, and neither does the difference of the
two ends. -/
structure WordExact (p : Program) : Prop where
  base : (UInt64.ofNat p.base).toNat = p.base
  advance : ∀ before i after, p.items = before ++ .instruction i :: after →
    (UInt64.ofNat (p.base + Item.codeSize before) + UInt64.ofNat i.size).toNat =
      p.base + Item.codeSize before + i.size
  extent : (UInt64.ofNat p.stop - UInt64.ofNat p.base).toNat = Item.codeSize p.items

theorem toNat_word_add {a n : Nat} (h : a + n ≤ addressLimit) :
    (UInt64.ofNat a + UInt64.ofNat n).toNat = a + n := by
  have hlimit : addressLimit = 2 ^ 64 - 1 := rfl
  rw [UInt64.toNat_add, UInt64.toNat_ofNat', UInt64.toNat_ofNat']
  omega

/-- **Only the last address has to be checked.** -/
theorem wordExact_of_stop {p : Program} (h : p.stop ≤ addressLimit) : p.WordExact := by
  have hlimit : addressLimit = 2 ^ 64 - 1 := rfl
  have hstop : p.stop = p.base + Item.codeSize p.items := by rw [stop, Item.codeSize_eq_sizes]
  refine ⟨?_, ?_, ?_⟩
  · rw [UInt64.toNat_ofNat']
    omega
  · intro before i after hitems
    have hsplit : Item.codeSize p.items =
        Item.codeSize before + (i.size + Item.codeSize after) := by
      simp only [hitems, Item.codeSize_eq_sizes, Item.sizes_append, Item.sizes, Item.size]
    exact toNat_word_add (by omega)
  · have hle : UInt64.ofNat p.base ≤ UInt64.ofNat p.stop := by
      rw [UInt64.le_iff_toNat_le, UInt64.toNat_ofNat', UInt64.toNat_ofNat']
      omega
    rw [UInt64.toNat_sub_of_le _ _ hle, UInt64.toNat_ofNat', UInt64.toNat_ofNat']
    omega

end Program

/-! ## Lengths -/

/-- An instruction that is as long as its parts say: the opcode has the bytes it counts, and no field
has more bytes than a value. -/
structure Instruction.Measured (i : Instruction) : Prop where
  length : i.bytes.length = i.size
  opcode : i.opcode.bytes.length = i.opcode.len
  fields : ∀ kind, (i.field kind).size ≤ 8

theorem Row.WellFormed.len_opcode {row : Row} (h : row.WellFormed) (reg : Option Nat) :
    (row.opcodeWith reg).bytes.length = (row.opcodeWith reg).len := by
  rw [h.length_opcode]
  cases reg with
  | none => rfl
  | some r => exact (List.length_modify ..).symm

theorem Field.Promised.size_le {extended : Prop} {f : Field} (h : f.Promised extended) :
    f.size ≤ 8 := by
  by_cases hpos : 0 < f.size
  · obtain ⟨w, hw, -⟩ := h hpos
    rw [Width.eq_bytes_of_ofBytes? hw]
    cases w <;> decide
  · omega

theorem ParsedInstruction.encode_measured {symbols : String → Option Interval} {mode : Mode}
    {i : ParsedInstruction} {e : Instruction} (h : i.encode symbols mode = .ok e) : e.Measured := by
  refine ⟨e.length_bytes, ?_, fun kind => (encode_promised h kind).size_le⟩
  obtain ⟨rows, row, operands, prefixes, hrows, hrow, -, -, -, -, henc⟩ := encode_eq_ok h
  obtain ⟨operandSize, wide, f, rex, -, -, -, -, rfl, -⟩ := Row.encode_eq_ok henc
  exact (wellFormed_of_rows? hrows hrow).len_opcode f.opcodeReg

theorem Instruction.Measured.patch {i : Instruction} (h : i.Measured)
    (lookup : String → Option Int64) (address : Nat) : (i.patch lookup address).1.Measured := by
  refine ⟨Instruction.length_bytes _, ?_, fun kind => ?_⟩
  · rw [patch_eq]
    exact h.opcode
  · rw [size_field_patch]
    exact h.fields kind

/-! ## Images -/

namespace Program

/-- The image of a program whose items stand one behind the other, from the base on. -/
structure LaidOut (p : Program) (image : Image) : Prop where
  /-- The instructions are those of the items in order, patched each for its address. -/
  patched : List.Forall₂ (fun i x => x.2 = (i.patch p.value? x.1).1 ∧ x.2.size = i.size)
    (p.items.filterMap Item.instruction?) image.instructions
  /-- The bytes are theirs and no others. -/
  bytes : image.bytes = image.instructions.flatMap fun x => x.2.bytes
  /-- The size of each is the number of its bytes. -/
  measured : ∀ x ∈ image.instructions, x.2.Measured
  /-- Each stands behind those in front of it. -/
  address : ∀ k a i, image.instructions[k]? = some (a, i) →
    a = p.base + ((image.instructions.take k).map fun x => x.2.size).sum
  /-- The labels are those of the items in order. -/
  labels : image.labels.map Prod.fst = p.items.filterMap Item.labelName?
  distinct : (image.labels.map Prod.fst).Nodup
  /-- Each stands behind the instructions in front of it. -/
  labelAddress : ∀ before name span after, p.items = before ++ .label name span :: after →
    image.labels[(before.filterMap Item.labelName?).length]? =
      some (name, p.base + Item.codeSize before)
  /-- The bytes reach from the base to the end of the last instruction. -/
  length : image.bytes.length = p.stop - p.base
  last : ∀ a i, image.instructions.getLast? = some (a, i) → a + i.size = p.stop
  /-- Words of 64 bits hold all addresses. -/
  words : p.WordExact

theorem size_instructions (p : Program) :
    (p.instructions.map fun x => x.2.size).sum = Item.codeSize p.items := by
  rw [Item.codeSize, ← instructions_eq_items, List.map_map]
  rfl

/-- Patching changes no size, so sums of sizes can be taken before or after. -/
theorem sizes_patched (lookup : String → Option Int64) (xs : List (Nat × Instruction)) :
    ((xs.map fun x => (x.1, (x.2.patch lookup x.1).1)).map fun x => x.2.size) =
      xs.map fun x => x.2.size := by
  rw [List.map_map]
  exact List.map_congr_left fun x _ => x.2.size_patch lookup x.1

section Image

variable {p : Program} {image : Image} (h : p.link = .ok image)
include h

theorem link_patched : List.Forall₂ (fun i x => x.2 = (i.patch p.value? x.1).1 ∧ x.2.size = i.size)
    (p.items.filterMap Item.instruction?) image.instructions := by
  obtain ⟨-, -, -, -, -, himage⟩ := link_eq_ok h
  rw [himage, ← instructions_eq_items, List.forall₂_map_left_iff, List.forall₂_map_right_iff,
    List.forall₂_same]
  intro x _
  exact ⟨rfl, x.2.size_patch p.value? x.1⟩

theorem link_address {k a : Nat} {i : Instruction} (hk : image.instructions[k]? = some (a, i)) :
    a = p.base + ((image.instructions.take k).map fun x => x.2.size).sum := by
  obtain ⟨-, -, -, -, -, himage⟩ := link_eq_ok h
  rw [himage, List.getElem?_map, Option.map_eq_some_iff] at hk
  obtain ⟨⟨a', j⟩, hj, heq⟩ := hk
  obtain ⟨rfl, -⟩ := Prod.mk.inj heq
  rw [himage, ← List.map_take, sizes_patched]
  exact address_eq hj

theorem link_last {a : Nat} {i : Instruction} (hlast : image.instructions.getLast? = some (a, i)) :
    a + i.size = p.stop := by
  obtain ⟨-, -, -, -, -, himage⟩ := link_eq_ok h
  have htotal : (image.instructions.map fun x => x.2.size).sum = Item.codeSize p.items := by
    rw [himage, sizes_patched, size_instructions]
  obtain ⟨front, hfront⟩ := List.getLast?_eq_some_iff.1 hlast
  have ha : a = p.base + (front.map fun x => x.2.size).sum := by
    have hk : image.instructions[front.length]? = some (a, i) := by simp [hfront]
    have haddress := link_address h hk
    rwa [hfront, List.take_left] at haddress
  rw [hfront, List.map_append, List.sum_append] at htotal
  simp only [List.map_cons, List.map_nil, List.sum_cons, List.sum_nil] at htotal
  rw [stop, ← Item.codeSize_eq_sizes]
  omega

theorem link_labels : image.labels = p.labelDefs.map (fun d => (d.name, d.address)) ∧
    (p.labelDefs.map LabelDef.name).Nodup := by
  obtain ⟨-, hdup, -, -, hlabels, -⟩ := link_eq_ok h
  obtain ⟨hall, hnodup⟩ := labels_of_no_duplicate hdup
  exact ⟨by rw [hlabels, hall], hnodup⟩

theorem link_labelAddress {before after : List Item} {name : String} {span : Span}
    (hitems : p.items = before ++ .label name span :: after) :
    image.labels[(before.filterMap Item.labelName?).length]? =
      some (name, p.base + Item.codeSize before) := by
  have hdef := labelDefs_getElem? p.base p.externals before after name span
  rw [← hitems] at hdef
  rw [(link_labels h).1, List.getElem?_map]
  exact congrArg (Option.map fun d => (d.name, d.address)) hdef

end Image

theorem Encoded.measured {p : Program} (hp : p.Encoded) {x : Nat × Instruction}
    (hx : x ∈ p.instructions) : x.2.Measured := by
  obtain ⟨before, after, hitems, -⟩ := mem_placeFrom (mem_instructions.1 hx)
  obtain ⟨symbols, mode, source, henc⟩ := hp x.2 (by rw [hitems]; simp)
  exact ParsedInstruction.encode_measured henc

/-- **The layout is right.** A program of encoded instructions, at any base and with any external
symbols, is refused for the address space or has only addresses that words of 64 bits compute
exactly; and if it links, its image holds the patched instructions in the order of the items without
gaps, and its labels in the order of their definitions, all at the base plus the sizes in front. -/
theorem link_laidOut {p : Program} (hp : p.Encoded) :
    (p.link = .error (.limitExceeded "address space" addressLimit) ∨ p.WordExact) ∧
      ∀ image, p.link = .ok image → p.LaidOut image := by
  constructor
  · by_cases hstop : addressLimit < p.stop
    · exact .inl (if_pos hstop)
    · exact .inr (wordExact_of_stop (Nat.le_of_not_lt hstop))
  · intro image h
    obtain ⟨hstop, -, -, hbytes, -, himage⟩ := link_eq_ok h
    obtain ⟨hlabels, hnodup⟩ := link_labels h
    have hnames : image.labels.map Prod.fst = p.labelDefs.map LabelDef.name := by
      rw [hlabels, List.map_map]
      rfl
    refine
      { patched := link_patched h
        bytes := by rw [hbytes, himage, List.flatMap_map]
        measured := fun x hx => ?_
        address := fun k a i => link_address h
        labels := hnames.trans (labelDefs_names p.base p.externals p.items)
        distinct := hnames ▸ hnodup
        labelAddress := fun before name span after => link_labelAddress h
        length := by rw [length_link h, stop, Nat.add_sub_cancel_left]
        last := fun a i => link_last h
        words := wordExact_of_stop hstop }
    rw [himage] at hx
    obtain ⟨y, hy, rfl⟩ := List.mem_map.1 hx
    exact (hp.measured hy).patch p.value? y.1

/-- A program that ends at the last address there is: the label behind it has no byte of its own. -/
theorem link_laidOut_at_top :
    ∃ s records image,
      Session.load "first: nop\n second: mov eax, 1\n done:" .bits64 (2 ^ 64 - 7) [] = .ok s ∧
      s.encodeStrict = .ok records ∧ (s.program records).Encoded ∧
      (s.program records).link = .ok image ∧
      image.labels = [("first", 2 ^ 64 - 7), ("second", 2 ^ 64 - 6), ("done", 2 ^ 64 - 1)] ∧
      (s.program records).LaidOut image := by
  have hrun : (do
      let s ← (Session.load "first: nop\n second: mov eax, 1\n done:" .bits64 (2 ^ 64 - 7)
        []).toOption
      let records ← s.encodeStrict.toOption
      let image ← (s.program records).link.toOption
      return image.labels) =
        some [("first", 2 ^ 64 - 7), ("second", 2 ^ 64 - 6), ("done", 2 ^ 64 - 1)] := by
    decide +kernel
  simp only [bind, Option.bind_eq_some_iff, Option.pure_def, Option.some.injEq,
    toOption_eq_some] at hrun
  obtain ⟨s, hs, records, hrec, image, himage, hlabels⟩ := hrun
  have hp := Session.program_encoded hrec
  exact ⟨s, records, image, hs, hrec, hp, himage, hlabels, (link_laidOut hp).2 image himage⟩

end Program
end IntelAsm
