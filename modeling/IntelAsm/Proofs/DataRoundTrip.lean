/-
What is written as plain data is read back as the same value. The only thing
that can go wrong is a number: places, sizes and the numbers in messages have
so many bits where they are read, and a value with a number beyond them is
refused (`InRange` says which numbers fit). So a value of such a type comes
back exactly if it is in range, and a value of any other type always does
(`data_round_trip`).

Two types are trees. An expression is read by recursion on its data, and a
diagnostic with as much fuel as its data is deep; that this is enough is an
induction on the fuel (`Diagnostic.ofDataTo?_toData_iff`).
-/
import IntelAsm.Data.Diagnostic
import Mathlib.Data.List.Nodup

namespace IntelAsm

/-! ## Numbers, options and lists -/

namespace Data

/-- The number has at most so many bits. -/
abbrev Fits (bits n : Nat) : Prop := n < 1 <<< bits

/-- The number has at most so many bits and one more for the sign. -/
abbrev FitsSigned (bits : Nat) (n : Int) : Prop :=
  -((1 <<< bits : Nat) : Int) ≤ n ∧ n < ((1 <<< bits : Nat) : Int)

theorem intIn?_int {lo hi n m : Int} :
    (Data.int n).intIn? lo hi = some m ↔ (lo ≤ n ∧ n < hi) ∧ n = m := by
  simp only [intIn?, int?, Option.filter_eq_some_iff, Option.some.injEq, decide_eq_true_eq]
  constructor
  · rintro ⟨rfl, h⟩
    exact ⟨h, rfl⟩
  · rintro ⟨h, rfl⟩
    exact ⟨rfl, h⟩

@[simp] theorem nat?_ofNat_iff {bits n m : Nat} :
    (ofNat n).nat? bits = some m ↔ Fits bits n ∧ n = m := by
  simp only [nat?, ofNat, Option.map_eq_some_iff, intIn?_int]
  constructor
  · rintro ⟨k, ⟨⟨-, h⟩, rfl⟩, rfl⟩
    exact ⟨Int.ofNat_lt.1 h, Int.toNat_natCast n⟩
  · rintro ⟨h, rfl⟩
    exact ⟨n, ⟨⟨Int.natCast_nonneg n, Int.ofNat_lt.2 h⟩, rfl⟩, Int.toNat_natCast n⟩

@[simp] theorem int128?_int_iff {n m : Int} :
    (Data.int n).int128? = some m ↔ FitsSigned 127 n ∧ n = m := intIn?_int

@[simp] theorem int64?_ofInt64 (v : Int64) : (ofInt64 v).int64? = some v := by
  have hread : (ofInt64 v).signed? 63 = some v.toInt :=
    intIn?_int.2 ⟨⟨by simpa using v.le_toInt, by simpa using v.toInt_lt⟩, rfl⟩
  rw [int64?, hread, Option.map_some, Int64.ofInt_toInt]

@[simp] theorem byte?_ofByte (b : UInt8) : (ofByte b).byte? = some b := by
  have hread : (ofByte b).nat? 8 = some b.toNat := nat?_ofNat_iff.2 ⟨b.toNat_lt, rfl⟩
  rw [byte?, hread, Option.map_some, UInt8.ofNat_toNat]

@[simp] theorem bool?_bool (b : Bool) : (Data.bool b).bool? = some b := rfl

@[simp] theorem text?_text (s : String) : (Data.text s).text? = some s := rfl

theorem bind_variant?_text {α : Type} (name : String) (f : String × Data → Option α) :
    ((Data.text name).variant? >>= f) = f (name, .null) := rfl

theorem bind_variant?_tagged {α : Type} (name : String) (content : Data)
    (f : String × Data → Option α) : ((tagged name content).variant? >>= f) = f (name, content) :=
  rfl

@[simp] theorem ofByte_ne_null (b : UInt8) : ofByte b ≠ .null := nofun

/-- What can be missing is read back, if what is there is never written as null. -/
theorem option?_ofOption {α : Type} {write : α → Data} {read : Data → Option α}
    (hnull : ∀ a, write a ≠ .null) (h : ∀ a, read (write a) = some a) (o : Option α) :
    (ofOption write o).option? read = some o := by
  cases o with
  | none => rfl
  | some a =>
    simp only [ofOption]
    rw [option?, h a, Option.map_some]
    exact hnull a

/-- A list is read back exactly if each of its items is. -/
theorem listOf?_list_iff {α : Type} {write : α → Data} {read : Data → Option α} {P : α → Prop}
    {as bs : List α} (h : ∀ a ∈ as, ∀ b, read (write a) = some b ↔ P a ∧ a = b) :
    (Data.list (as.map write)).listOf? read = some bs ↔ (∀ a ∈ as, P a) ∧ as = bs := by
  simp only [listOf?, list?, Option.bind_eq_bind, Option.bind_some]
  induction as generalizing bs with
  | nil => simp
  | cons a as ih =>
    have hrest := fun cs => @ih cs fun a ha => h a (List.mem_cons_of_mem _ ha)
    simp only [List.map_cons, List.mapM_cons, Option.bind_eq_bind, Option.bind_eq_some_iff,
      h a List.mem_cons_self, hrest, Option.pure_def, Option.some.injEq, List.forall_mem_cons]
    constructor
    · rintro ⟨b, ⟨ha, rfl⟩, cs, ⟨has, rfl⟩, rfl⟩
      exact ⟨⟨ha, has⟩, rfl⟩
    · rintro ⟨⟨ha, has⟩, rfl⟩
      exact ⟨a, ⟨ha, rfl⟩, as, ⟨has, rfl⟩, rfl⟩

/-- A name is read back, if no other value of the list has it. -/
theorem named?_text {α : Type} {tag : α → String} {all : List α}
    (hinj : ∀ a ∈ all, ∀ b ∈ all, tag a = tag b → a = b) {a : α} (ha : a ∈ all) :
    (Data.text (tag a)).named? (all.map fun b => (tag b, b)) = some a := by
  show (all.map fun b => (tag b, b)).lookup (tag a) = some a
  induction all with
  | nil => simp at ha
  | cons b bs ih =>
    rw [List.map_cons, List.lookup_cons]
    by_cases htag : tag a = tag b
    · rw [hinj a ha b List.mem_cons_self htag]
      simp
    · rw [beq_eq_false_iff_ne.2 htag]
      have hmem : a ∈ bs := (List.mem_cons.1 ha).resolve_left fun hab => htag (congrArg tag hab)
      exact ih (fun c hc d hd => hinj c (List.mem_cons_of_mem _ hc) d (List.mem_cons_of_mem _ hd))
        hmem

end Data

/-! ## Names -/

@[simp] theorem Width.ofData?_toData (w : Width) : ofData? w.toData = some w := by
  cases w <;> rfl

@[simp] theorem Width.toData_ne_null (w : Width) : w.toData ≠ .null := nofun

@[simp] theorem Mode.ofData?_toData (m : Mode) : ofData? m.toData = some m := by
  cases m <;> rfl

@[simp] theorem UnaryOp.ofData?_tag (op : UnaryOp) : ofData? (.text op.tag) = some op := by
  cases op <;> rfl

@[simp] theorem BinaryOp.ofData?_tag (op : BinaryOp) : ofData? (.text op.tag) = some op := by
  cases op <;> rfl

@[simp] theorem Prefix.ofData?_toData (p : Prefix) : ofData? p.toData = some p := by
  cases p <;> rfl

namespace Register

theorem mem_all (r : Register) : r ∈ all := by
  have hgeneral (w : Width) (n : Fin 16) : Register.general w n ∈ generals w :=
    List.mem_map_of_mem (List.mem_finRange n)
  simp only [all, List.mem_append]
  cases r with
  | general w n =>
    have hn := hgeneral w n
    cases w with
    | byte =>
      rw [← List.take_append_drop 4 (generals .byte), List.mem_append] at hn
      rcases hn with hn | hn <;> simp [hn]
    | word | dword | qword => simp [hn]
  | high n => simp
  | segment s => cases s <;> simp [Segment.all]
  | eip | rip | flags | eflags | rflags => simp

/-- The letters of the tag as one number. -/
def tagNumber (r : Register) : Nat := r.tag.toList.foldl (fun n c => n * 256 + c.toNat) 0

theorem tagNumber_nodup : (all.map tagNumber).Nodup := by decide +kernel

@[simp] theorem ofData?_toData (r : Register) : ofData? r.toData = some r := by
  refine Data.named?_text (fun a ha b hb htag => ?_) r.mem_all
  apply List.inj_on_of_nodup_map tagNumber_nodup ha hb
  rw [tagNumber, htag, tagNumber]

@[simp] theorem toData_ne_null (r : Register) : r.toData ≠ .null := nofun

end Register

/-! ## Source -/

/-- The places of a source text as they are kept, with offsets in 64 bits; lines and columns are words
as they are. -/
def Span.InRange (s : Span) : Prop := Data.Fits 64 s.offset ∧ Data.Fits 64 s.len

def ParsedOperand.InRange (o : ParsedOperand) : Prop := o.span.InRange

def ParsedInstruction.InRange (i : ParsedInstruction) : Prop :=
  (∀ o ∈ i.operands, o.InRange) ∧ i.span.InRange

def Statement.InRange : Statement → Prop
  | .label _ span => span.InRange
  | .instruction i => i.InRange
  | .mode _ span => span.InRange

section Readers

/- A reader is a chain of binds, and each bind an existential. The chain is never reduced instead:
comparing the reduced form would evaluate the bounds of numbers, in unary. -/
attribute [local simp] Data.fields? Data.recordFields? List.lookup_cons Option.bind_eq_some_iff
  and_assoc

@[simp] theorem Span.ofData?_toData_iff {s t : Span} :
    ofData? s.toData = some t ↔ s.InRange ∧ s = t := by
  have hword (w : UInt32) : w.toNat < 4294967296 := w.toNat_lt
  simp [-Option.bind_some, ofData?, toData, InRange, hword]

@[simp] theorem Expr.ofData?_toData (e : Expr) : ofData? e.toData = some e := by
  induction e with
  | int v => simp [toData, Data.tagged, ofData?]
  | var name => simp [toData, Data.tagged, ofData?]
  | unary op inner ih => simp [toData, Data.tagged, ofData?, ih]
  | binary op left right ihl ihr => simp [toData, Data.tagged, ofData?, ihl, ihr]

@[simp] theorem Expr.toData_ne_null (e : Expr) : e.toData ≠ .null := by
  cases e <;> exact nofun

@[simp] theorem ParsedOperand.ofData?_toData_iff {o p : ParsedOperand} :
    ofData? o.toData = some p ↔ o.InRange ∧ o = p := by
  simp [-Option.bind_some, ofData?, toData, InRange, Data.option?_ofOption]

@[simp] theorem ParsedInstruction.ofData?_toData_iff {i j : ParsedInstruction} :
    ofData? i.toData = some j ↔ i.InRange ∧ i = j := by
  have hprefixes (ps : List Prefix) :
      (Data.ofList Prefix.toData i.prefixes).listOf? Prefix.ofData? = some ps ↔
        i.prefixes = ps := by
    simp [Data.ofList, Data.listOf?_list_iff (P := fun _ => True)]
  have hoperands (os : List ParsedOperand) :
      (Data.ofList ParsedOperand.toData i.operands).listOf? ParsedOperand.ofData? = some os ↔
        (∀ o ∈ i.operands, o.InRange) ∧ i.operands = os :=
    Data.listOf?_list_iff fun _ _ _ => ParsedOperand.ofData?_toData_iff
  simp [-Option.bind_some, ofData?, toData, InRange, hprefixes, hoperands]

@[simp] theorem Statement.ofData?_toData_iff {s t : Statement} :
    ofData? s.toData = some t ↔ s.InRange ∧ s = t := by
  rw [ofData?]
  cases s with
  | label _ _ | instruction _ | mode _ _ =>
    rw [toData, Data.bind_variant?_tagged]
    simp [-Option.bind_some, InRange]

/-! ## Operands -/

@[simp] theorem Interval.ofData?_toData (b : Interval) : ofData? b.toData = some b := by
  simp [ofData?, toData]

@[simp] theorem Interval.toData_ne_null (b : Interval) : b.toData ≠ .null := nofun

@[simp] theorem ImmValue.ofData?_toData (v : ImmValue) : ofData? v.toData = some v := by
  rw [ofData?]
  cases v with
  | fixed _ | symbolic _ _ =>
    rw [toData, Data.bind_variant?_tagged]
    simp [Data.option?_ofOption]

@[simp] theorem Immediate.ofData?_toData (i : Immediate) : ofData? i.toData = some i := by
  simp [ofData?, toData, Data.option?_ofOption]

@[simp] theorem Immediate.toData_ne_null (i : Immediate) : i.toData ≠ .null := nofun

@[simp] theorem Index.ofData?_toData (i : Index) : ofData? i.toData = some i := by
  simp [ofData?, toData]

@[simp] theorem Index.toData_ne_null (i : Index) : i.toData ≠ .null := nofun

@[simp] theorem Memory.ofData?_toData (m : Memory) : ofData? m.toData = some m := by
  simp [ofData?, toData, Data.option?_ofOption]

@[simp] theorem OperandKind.ofData?_toData (k : OperandKind) : ofData? k.toData = some k := by
  rw [ofData?]
  cases k with
  | register _ | immediate _ | memory _ =>
    rw [toData, Data.bind_variant?_tagged]
    simp

def Operand.InRange (o : Operand) : Prop := o.span.InRange

@[simp] theorem Operand.ofData?_toData_iff {o p : Operand} :
    ofData? o.toData = some p ↔ o.InRange ∧ o = p := by
  simp [-Option.bind_some, ofData?, toData, InRange, Data.option?_ofOption]

/-! ## Instructions -/

/-- The size of a field is kept in one byte. -/
def Field.InRange (f : Field) : Prop := Data.Fits 8 f.size

@[simp] theorem Field.ofData?_toData_iff {f g : Field} :
    ofData? f.toData = some g ↔ f.InRange ∧ f = g := by
  simp [-Option.bind_some, ofData?, toData, InRange, Data.option?_ofOption]

@[simp] theorem PrefixBytes.ofData?_toData (p : PrefixBytes) : ofData? p.toData = some p := by
  simp [ofData?, toData, Data.option?_ofOption]

namespace Instruction

/-- The length of the opcode and the sizes of the fields are kept in one byte each. -/
def InRange (i : Instruction) : Prop :=
  Data.Fits 8 i.opcode.len ∧ i.disp.InRange ∧ i.imm.InRange ∧ i.rel.InRange ∧ i.span.InRange

@[simp] theorem opcodeOfData?_iff {o p : Opcode} :
    opcodeOfData? (.list [.ofByte o.byte0, .ofByte o.byte1, .ofByte o.byte2]) (.ofNat o.len) =
        some p ↔ Data.Fits 8 o.len ∧ o = p := by
  simp [-Option.bind_some, opcodeOfData?, Data.list?]

@[simp] theorem ofData?_toData_iff {i j : Instruction} :
    ofData? i.toData = some j ↔ i.InRange ∧ i = j := by
  simp [-Option.bind_some, ofData?, toData, InRange, Data.option?_ofOption]

end Instruction

/-! ## Errors -/

/-- The numbers in an error: widths in 32 bits, a group in one byte, a length in 64 bits. -/
def EncodingError.InRange : EncodingError → Prop
  | .addressSize bits modeBits | .operandSize bits modeBits =>
    Data.Fits 32 bits ∧ Data.Fits 32 modeBits
  | .prefixCollision group => Data.Fits 8 group
  | .tooLong len => Data.Fits 64 len
  | .rexConflict | .rexOutsideLongMode | .illegalScale _ | .ripWithIndex | .invalidIndex _
  | .invalidBase _ | .displacementRange _ | .invalidCombination _ => True

@[simp] theorem EncodingError.ofData?_toData_iff {e f : EncodingError} :
    ofData? e.toData = some f ↔ e.InRange ∧ e = f := by
  rw [ofData?]
  cases e with
  | rexConflict | rexOutsideLongMode | ripWithIndex =>
    rw [toData, Data.bind_variant?_text]
    simp [InRange]
  | _ =>
    rw [toData, Data.bind_variant?_tagged]
    simp [-Option.bind_some, InRange]

namespace Diagnostic

/-- The numbers in a diagnostic: values in 128 bits with their sign, limits in 64. -/
def InRange : Diagnostic → Prop
  | .malformed _ span | .badOperand _ span | .unknownMnemonic _ span | .noEncoding _ span
  | .undefinedLabel _ span | .branchRange _ _ _ span => span.InRange
  | .encoding error span => error.InRange ∧ span.InRange
  | .valueRange value min max span => Data.FitsSigned 127 value ∧ Data.FitsSigned 127 min ∧
    Data.FitsSigned 127 max ∧ span.InRange
  | .duplicateLabel _ span firstSpan => span.InRange ∧ firstSpan.InRange
  | .limitExceeded _ limit => Data.Fits 64 limit
  | .allocationFailure requested => Data.Fits 64 requested
  | .several diagnostics => ∀ d ∈ diagnostics, d.InRange

/-- One level of a diagnostic is read back, if the diagnostics in it are. -/
theorem ofVariant?_toData_iff {inner : Data → Option Diagnostic} {d e : Diagnostic}
    (hinner : ∀ ds, d = .several ds → ∀ x ∈ ds, ∀ y, inner x.toData = some y ↔ x.InRange ∧ x = y) :
    (d.toData.variant? >>= ofVariant? inner) = some e ↔ d.InRange ∧ d = e := by
  cases d with
  | several ds =>
    have hlist := fun es => @Data.listOf?_list_iff _ toData inner InRange ds es (hinner ds rfl)
    rw [toData, Data.bind_variant?_tagged, ofVariant?]
    simp [-Option.bind_some, InRange, hlist]
  | _ =>
    rw [toData, Data.bind_variant?_tagged, ofVariant?]
    simp [-Option.bind_some, InRange]

end Diagnostic

end Readers

/-! ## Diagnostics in diagnostics -/

namespace Data

theorem depth_pos (d : Data) : 0 < d.depth := by
  cases d <;> simp only [depth] <;> omega

theorem depth_le_listDepth {d : Data} {ds : List Data} (h : d ∈ ds) : d.depth ≤ listDepth ds := by
  induction ds with
  | nil => simp at h
  | cons x xs ih =>
    simp only [listDepth]
    rcases List.mem_cons.1 h with rfl | h
    · exact Nat.le_max_left _ _
    · exact Nat.le_trans (ih h) (Nat.le_max_right _ _)

end Data

namespace Diagnostic

/-- The data of a diagnostic is less deep than that of one that contains it. -/
theorem depth_toData_lt {d : Diagnostic} {ds : List Diagnostic} (h : d ∈ ds) :
    d.toData.depth < (several ds).toData.depth := by
  have hle : d.toData.depth ≤ Data.listDepth (ds.map toData) :=
    Data.depth_le_listDepth (List.mem_map_of_mem h)
  simp only [toData, Data.tagged, Data.depth, Data.fieldsDepth, Data.fieldDepth]
  omega

/-- **A diagnostic is read back** with fuel for the depth of its data. -/
theorem ofDataTo?_toData_iff {n : Nat} {d e : Diagnostic} (hn : d.toData.depth ≤ n) :
    ofDataTo? n d.toData = some e ↔ d.InRange ∧ d = e := by
  induction n generalizing d e with
  | zero => exact absurd d.toData.depth_pos (by omega)
  | succ n ih =>
    apply ofVariant?_toData_iff
    rintro ds rfl x hx y
    have hlt := depth_toData_lt hx
    exact ih (by omega)

theorem ofData?_toData_iff {d e : Diagnostic} :
    ofData? d.toData = some e ↔ d.InRange ∧ d = e := ofDataTo?_toData_iff (Nat.le_refl _)

end Diagnostic

/-! ## All types -/

/-- **Round trip.** A value written as data is read back as it was exactly if its numbers have the
bits that they are kept in. The types without such numbers are always read back. -/
theorem data_round_trip :
    (∀ e : Expr, Expr.ofData? e.toData = some e) ∧
      (∀ i : Immediate, Immediate.ofData? i.toData = some i) ∧
      (∀ m : Memory, Memory.ofData? m.toData = some m) ∧
      (∀ o : Operand, Operand.ofData? o.toData = some o ↔ o.InRange) ∧
      (∀ o : ParsedOperand, ParsedOperand.ofData? o.toData = some o ↔ o.InRange) ∧
      (∀ i : ParsedInstruction, ParsedInstruction.ofData? i.toData = some i ↔ i.InRange) ∧
      (∀ s : Statement, Statement.ofData? s.toData = some s ↔ s.InRange) ∧
      (∀ f : Field, Field.ofData? f.toData = some f ↔ f.InRange) ∧
      (∀ i : Instruction, Instruction.ofData? i.toData = some i ↔ i.InRange) ∧
      (∀ e : EncodingError, EncodingError.ofData? e.toData = some e ↔ e.InRange) ∧
      (∀ d : Diagnostic, Diagnostic.ofData? d.toData = some d ↔ d.InRange) := by
  refine ⟨Expr.ofData?_toData, Immediate.ofData?_toData, Memory.ofData?_toData, ?operand,
    ?parsedOperand, ?parsedInstruction, ?statement, ?field, ?instruction, ?encodingError,
    ?diagnostic⟩
  case operand => exact fun _ => Operand.ofData?_toData_iff.trans (and_iff_left rfl)
  case parsedOperand => exact fun _ => ParsedOperand.ofData?_toData_iff.trans (and_iff_left rfl)
  case parsedInstruction =>
    exact fun _ => ParsedInstruction.ofData?_toData_iff.trans (and_iff_left rfl)
  case statement => exact fun _ => Statement.ofData?_toData_iff.trans (and_iff_left rfl)
  case field => exact fun _ => Field.ofData?_toData_iff.trans (and_iff_left rfl)
  case instruction => exact fun _ => Instruction.ofData?_toData_iff.trans (and_iff_left rfl)
  case encodingError => exact fun _ => EncodingError.ofData?_toData_iff.trans (and_iff_left rfl)
  case diagnostic => exact fun _ => Diagnostic.ofData?_toData_iff.trans (and_iff_left rfl)

/-- The greatest and least numbers, in a diagnostic two levels down; one more is refused. -/
theorem data_round_trip_extremes :
    ∃ d e : Diagnostic,
      d = .several [.several [], .several [.valueRange 0x7FFFFFFFFFFFFFFFFFFFFFFFFFFFFFFF
        (-0x80000000000000000000000000000000) 0
        ⟨0xFFFFFFFF, 0xFFFFFFFF, 0xFFFFFFFFFFFFFFFF, 0xFFFFFFFFFFFFFFFF⟩]] ∧
      e = .limitExceeded "labels" 0x10000000000000000 ∧
      d.InRange ∧ Diagnostic.ofData? d.toData = some d ∧
      ¬ e.InRange ∧ Diagnostic.ofData? e.toData ≠ some e := by
  have hround := data_round_trip.2.2.2.2.2.2.2.2.2.2
  have hd : (Diagnostic.several [.several [], .several [.valueRange
      0x7FFFFFFFFFFFFFFFFFFFFFFFFFFFFFFF (-0x80000000000000000000000000000000) 0
      ⟨0xFFFFFFFF, 0xFFFFFFFF, 0xFFFFFFFFFFFFFFFF, 0xFFFFFFFFFFFFFFFF⟩]]).InRange := by
    simp [Diagnostic.InRange, Span.InRange, Data.FitsSigned]
  have he : ¬ (Diagnostic.limitExceeded "labels" 0x10000000000000000).InRange := by
    simp [Diagnostic.InRange]
  exact ⟨_, _, rfl, rfl, hd, (hround _).2 hd, he, mt (hround _).1 he⟩

end IntelAsm
