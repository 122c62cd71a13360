/-
What the encoder does not see. An operand carries the names of its symbols,
their bounds and its place in the source; a `Revision` changes these three and
nothing else. Rows encode revised operands as they encode the operands
themselves, with the names and places in the instruction revised
(`Row.encode_revise`), and slots take the same operands as long as the bounds
stay or are not looked at (`Shape.acceptAll_revise`).

Renaming symbols, forgetting bounds and forgetting places are the revisions in
use.
-/
import IntelAsm.Instruction.Select
import IntelAsm.Program
import IntelAsm.Proofs.IntervalFacts

namespace IntelAsm

/-- A change of names, of bounds and of places. -/
structure Revision where
  name : String → String
  bounds : Option Interval → Option Interval
  place : Span → Span

namespace Revision

/-- The change of the bounds alone. -/
def boundsOnly (r : Revision) : Revision := ⟨id, r.bounds, id⟩

/-- Other names. -/
def ofNames (name : String → String) : Revision := ⟨name, id, id⟩

/-- No bounds. -/
def unbounded : Revision := ⟨id, fun _ => none, id⟩

/-- No places. -/
def bare : Revision := ⟨id, id, fun _ => .nowhere⟩

end Revision

/-! ## Values and addresses -/

namespace Expr

def rename (name : String → String) : Expr → Expr
  | .int v => .int v
  | .var n => .var (name n)
  | .unary op inner => .unary op (inner.rename name)
  | .binary op left right => .binary op (left.rename name) (right.rename name)

@[simp] theorem rename_id (e : Expr) : e.rename id = e := by
  induction e with
  | int v => rfl
  | var n => rfl
  | unary op inner ih => rw [rename, ih]
  | binary op left right ihl ihr => rw [rename, ihl, ihr]

/-- Bounds are found by name. -/
theorem bounds_rename {name : String → String} {symbols symbols' : String → Option Interval}
    {e : Expr} (h : ∀ n ∈ e.names, symbols' (name n) = symbols n) :
    (e.rename name).bounds symbols' = e.bounds symbols := by
  induction e with
  | int v => rfl
  | var n => exact h n (by simp [names])
  | unary op inner ih => rw [rename, bounds, bounds, ih h]
  | binary op left right ihl ihr =>
    simp only [names, List.mem_append] at h
    rw [rename, bounds, bounds, ihl fun n hn => h n (.inl hn), ihr fun n hn => h n (.inr hn)]

end Expr

section Definitions

variable (r : Revision)

def ImmValue.revise : ImmValue → ImmValue
  | .fixed v => .fixed v
  | .symbolic e b => .symbolic (e.rename r.name) (r.bounds b)

def Immediate.revise (i : Immediate) : Immediate := { i with value := i.value.revise r }

def Memory.revise (m : Memory) : Memory := { m with disp := m.disp.map (Immediate.revise r) }

def OperandKind.revise : OperandKind → OperandKind
  | .register reg => .register reg
  | .immediate i => .immediate (i.revise r)
  | .memory m => .memory (m.revise r)

def Operand.revise (o : Operand) : Operand := ⟨o.kind.revise r, o.size, r.place o.span⟩

def Field.revise (f : Field) : Field := { f with deferred := f.deferred.map (Expr.rename r.name) }

def AddressForm.revise (a : AddressForm) : AddressForm := { a with disp := a.disp.revise r }

def Roles.revise (roles : Roles) : Roles where
  register := roles.register.map (Operand.revise r)
  rm := roles.rm.map (Operand.revise r)
  imm := roles.imm.revise r
  rel := roles.rel.revise r

def OperandFields.revise (f : OperandFields) : OperandFields :=
  { f with disp := f.disp.revise r, imm := f.imm.revise r, rel := f.rel.revise r }

def Instruction.revise (i : Instruction) : Instruction :=
  { i with
    disp := i.disp.revise r
    imm := i.imm.revise r
    rel := i.rel.revise r
    span := r.place i.span }

def ParsedOperand.revise (o : ParsedOperand) : ParsedOperand :=
  { o with expr := o.expr.rename r.name, span := r.place o.span }

def ParsedInstruction.revise (i : ParsedInstruction) : ParsedInstruction :=
  { i with operands := i.operands.map (ParsedOperand.revise r), span := r.place i.span }

def Statement.revise : Statement → Statement
  | .label name span => .label (r.name name) (r.place span)
  | .instruction i => .instruction (i.revise r)
  | .mode m span => .mode m (r.place span)

end Definitions

section Values

variable (r : Revision)

@[simp] theorem ImmValue.expr_revise (v : ImmValue) :
    (v.revise r).expr = v.expr.rename r.name := by
  cases v <;> rfl

@[simp] theorem Immediate.fixed?_revise (i : Immediate) : (i.revise r).fixed? = i.fixed? := by
  obtain ⟨value, size⟩ := i
  cases value <;> rfl

@[simp] theorem Operand.register?_revise (o : Operand) : (o.revise r).register? = o.register? := by
  obtain ⟨kind, size, span⟩ := o
  cases kind <;> rfl

@[simp] theorem Operand.immediate?_revise (o : Operand) :
    (o.revise r).immediate? = o.immediate?.map (Immediate.revise r) := by
  obtain ⟨kind, size, span⟩ := o
  cases kind <;> rfl

@[simp] theorem Operand.memory?_revise (o : Operand) :
    (o.revise r).memory? = o.memory?.map (Memory.revise r) := by
  obtain ⟨kind, size, span⟩ := o
  cases kind <;> rfl

theorem Field.ofImmediate_revise (size : Nat) (i : Immediate) (signed : Bool) :
    ofImmediate size (i.revise r) signed = (ofImmediate size i signed).revise r := by
  obtain ⟨value, declared⟩ := i
  cases value <;> rfl

@[simp] theorem Instruction.size_revise (i : Instruction) : (i.revise r).size = i.size := rfl

@[simp] theorem Instruction.bytes_revise (i : Instruction) : (i.revise r).bytes = i.bytes := rfl

end Values

/-! ## Revisions that change little -/

section Identity

variable {r : Revision}

theorem Field.revise_of_name (hname : r.name = id) (f : Field) : f.revise r = f := by
  obtain ⟨size, value, deferred, pcRelative, signed⟩ := f
  cases deferred <;> simp [revise, hname]

theorem ParsedOperand.revise_of_name (hname : r.name = id) (o : ParsedOperand) :
    o.revise r = { o with span := r.place o.span } := by
  rw [revise, hname, Expr.rename_id]

theorem Instruction.revise_of_name (hname : r.name = id) (i : Instruction) :
    i.revise r = { i with span := r.place i.span } := by
  simp only [revise, Field.revise_of_name hname]

theorem Instruction.revise_of_id (hname : r.name = id) (hplace : r.place = id) (i : Instruction) :
    i.revise r = i := by
  rw [revise_of_name hname, hplace, id_eq]

theorem ImmValue.revise_of_id (hname : r.name = id) (hbounds : r.bounds = id) (v : ImmValue) :
    v.revise r = v := by
  cases v <;> simp [revise, hname, hbounds]

theorem Immediate.revise_of_id (hname : r.name = id) (hbounds : r.bounds = id) (i : Immediate) :
    i.revise r = i := by
  rw [revise, ImmValue.revise_of_id hname hbounds]

theorem Memory.revise_of_id (hname : r.name = id) (hbounds : r.bounds = id) (m : Memory) :
    m.revise r = m := by
  have hsame : Immediate.revise r = id := funext (Immediate.revise_of_id hname hbounds)
  rw [revise, hsame, Option.map_id_fun, id_eq]

theorem OperandKind.revise_of_id (hname : r.name = id) (hbounds : r.bounds = id) (k : OperandKind) :
    k.revise r = k := by
  cases k with
  | register reg => rfl
  | immediate i => rw [revise, Immediate.revise_of_id hname hbounds]
  | memory m => rw [revise, Memory.revise_of_id hname hbounds]

/-- A revision that keeps names and bounds changes the place alone. -/
theorem Operand.revise_of_id (hname : r.name = id) (hbounds : r.bounds = id) (o : Operand) :
    o.revise r = { o with span := r.place o.span } := by
  rw [revise, OperandKind.revise_of_id hname hbounds]

end Identity

/-! ## Addresses -/

section Answers

variable {ε α β γ δ : Type}

/-- Goes on alike from a changed answer. -/
theorem bind_map_answer {f : α → γ} {h : β → δ} {g : α → Except ε β} {g' : γ → Except ε δ}
    (x : Except ε α) (hg : ∀ value, g' (f value) = (g value).map h) :
    (x.map f >>= g') = (x >>= g).map h := by
  cases x with
  | ok value => exact hg value
  | error e => rfl

theorem bind_same_answer {h : β → δ} {g : α → Except ε β} {g' : α → Except ε δ} (x : Except ε α)
    (hg : ∀ value, g' value = (g value).map h) : (x >>= g') = (x >>= g).map h := by
  cases x with
  | ok value => exact hg value
  | error e => rfl

theorem guard_same_answer {c : Prop} [Decidable c] {h : β → δ} {e : ε} {x : Except ε β}
    {y : Except ε δ} (hxy : y = x.map h) :
    (if c then .error e else y) = (if c then .error e else x).map h := by
  split
  · rfl
  · exact hxy

end Answers

namespace Memory

variable (r : Revision) (m : Memory)

theorem hasNoDisp_revise : (m.revise r).hasNoDisp = m.hasNoDisp := by
  obtain ⟨base, index, disp, addressSize, segment⟩ := m
  cases disp with
  | none => rfl
  | some d => simp only [hasNoDisp, revise, Option.map_some, Immediate.fixed?_revise]

theorem dispField_revise (w : Width) (takes : Int → Bool) (pcRelative signed : Bool) :
    (m.revise r).dispField w takes pcRelative signed =
      (m.dispField w takes pcRelative signed).map (Field.revise r) := by
  obtain ⟨base, index, disp, addressSize, segment⟩ := m
  cases disp with
  | none => rfl
  | some d =>
    obtain ⟨value, size⟩ := d
    cases value with
    | fixed v =>
      simp only [dispField, revise, Immediate.revise, ImmValue.revise, Option.map_some]
      split <;> rfl
    | symbolic e b => rfl

theorem dispForm_revise (rm noneCode : Nat) (wide : Except EncodingError Field) :
    (m.revise r).dispForm rm noneCode (wide.map (Field.revise r)) =
      (m.dispForm rm noneCode wide).map (Prod.map id (Field.revise r)) := by
  have hfixed : (m.revise r).disp.bind Immediate.fixed? = m.disp.bind Immediate.fixed? := by
    obtain ⟨base, index, disp, addressSize, segment⟩ := m
    cases disp with
    | none => rfl
    | some d => exact d.fixed?_revise r
  have hwide : ((fun f => (2, f)) <$> wide.map (Field.revise r) : Except EncodingError (Nat × Field)) =
      ((fun f => (2, f)) <$> wide).map (Prod.map id (Field.revise r)) := by
    cases wide <;> rfl
  simp only [dispForm, hasNoDisp_revise, hfixed, hwide]
  split
  · split <;> rfl
  · split
    · split <;> rfl
    · rfl

theorem absoluteForm_revise (address : Width) (mode : Mode) (index : Option (Nat × Nat))
    (disp : Field) :
    (m.revise r).absoluteForm address mode index (disp.revise r) =
      (m.absoluteForm address mode index disp).revise r := by
  unfold absoluteForm
  split
  · rfl
  · split <;> rfl

theorem basedForm_revise (address : Width) (base : Register) (index : Option (Nat × Nat))
    (modBits : Nat) (disp : Field) :
    (m.revise r).basedForm address base index modBits (disp.revise r) =
      (m.basedForm address base index modBits disp).revise r := by
  unfold basedForm
  split
  · rfl
  · split <;> rfl

theorem encodeWide_revise (address : Width) (mode : Mode) :
    (m.revise r).encodeWide address mode =
      (m.encodeWide address mode).map (AddressForm.revise r) := by
  have hindex : (m.revise r).indexCodes = m.indexCodes := rfl
  have hbase : (m.revise r).base = m.base := rfl
  have hdisp (pcRelative : Bool) : (m.revise r).disp32 address pcRelative =
      (m.disp32 address pcRelative).map (Field.revise r) := dispField_revise ..
  simp only [encodeWide, hindex, hbase, hdisp]
  refine bind_same_answer _ fun index => ?_
  cases m.base with
  | none => exact bind_map_answer _ fun disp => congrArg Except.ok (absoluteForm_revise ..)
  | some base =>
    simp only
    split
    · exact guard_same_answer (guard_same_answer (bind_map_answer _ fun disp => rfl))
    · refine guard_same_answer ?_
      rw [dispForm_revise]
      exact bind_map_answer _ fun form => congrArg Except.ok (basedForm_revise ..)

theorem encodeWord_revise (mode : Mode) :
    (m.revise r).encodeWord mode = (m.encodeWord mode).map (AddressForm.revise r) := by
  have hscale : (m.revise r).checkScale = m.checkScale := rfl
  have hbase : (m.revise r).base = m.base := rfl
  have hindex : (m.revise r).index = m.index := rfl
  have hdisp : (m.revise r).disp16 = m.disp16.map (Field.revise r) := dispField_revise ..
  simp only [encodeWord, hscale, hbase, hindex, hdisp]
  refine guard_same_answer (bind_same_answer _ fun _ => bind_same_answer _ fun code => ?_)
  cases code with
  | none => exact bind_map_answer _ fun disp => rfl
  | some rm =>
    simp only [dispForm_revise]
    exact bind_map_answer _ fun form => rfl

/-- **Addresses** are encoded by their registers and the size of their displacement. -/
theorem encode_revise (mode : Mode) :
    (m.revise r).encode mode = (m.encode mode).map (AddressForm.revise r) := by
  have hwidth : (m.revise r).effectiveWidth mode = m.effectiveWidth mode := rfl
  have hcheck (address : Width) : (m.revise r).checkWidths address = m.checkWidths address := rfl
  simp only [encode, hwidth, hcheck, encodeWide_revise, encodeWord_revise]
  refine bind_same_answer _ fun _ => ?_
  cases m.effectiveWidth mode with
  | byte => rfl
  | word => rfl
  | dword => rfl
  | qword => exact guard_same_answer rfl

end Memory

/-! ## Slots -/

/-- Whether the operand is a value to be resolved later. -/
def Operand.isSymbolic (o : Operand) : Bool := o.immediate?.any fun i => i.fixed?.isNone

namespace Shape

/-- Whether the slot looks at the bounds of a symbolic value. -/
def readsBounds : Shape → Bool
  | .imm _ | .immSigned _ => true
  | _ => false

section Accept

variable {r : Revision}

theorem fitsField_revise {i : Immediate} (h : r.bounds = id ∨ i.fixed?.isNone = false) (w : Width)
    (unsignedToo : Bool) : (i.revise r).fitsField w unsignedToo = i.fitsField w unsignedToo := by
  obtain ⟨value, size⟩ := i
  cases value with
  | fixed v => rfl
  | symbolic e b =>
    have hbounds : r.bounds = id := h.resolve_right (by simp [Immediate.fixed?])
    simp only [Immediate.revise, ImmValue.revise, hbounds, id_eq]
    cases size with
    | some declared => rfl
    | none => cases b <;> rfl

theorem accepts_revise {s : Shape} {o : Operand}
    (h : r.bounds = id ∨ s.readsBounds = false ∨ o.isSymbolic = false) :
    s.accepts (o.revise r) = s.accepts o := by
  have hsize : (o.revise r).size = o.size := rfl
  have hvalue : s.readsBounds = true → ∀ i, o.immediate? = some i →
      r.bounds = id ∨ i.fixed?.isNone = false := by
    intro hs i hi
    rcases h with h | h | h
    · exact .inl h
    · rw [hs] at h
      cases h
    · exact .inr (by simpa [Operand.isSymbolic, hi] using h)
  cases s with
  | imm w =>
    simp only [accepts, Operand.fitsImmediateField, Operand.immediate?_revise]
    cases hi : o.immediate? with
    | none => rfl
    | some i => exact fitsField_revise (hvalue rfl i hi) w true
  | immSigned w =>
    simp only [accepts, Operand.isImmediate, Operand.immediate?_revise]
    cases hi : o.immediate? with
    | none => rfl
    | some i =>
      simp only [Option.map_some, Option.any_some, Option.bind_some, Immediate.fixed?_revise,
        fitsField_revise (hvalue rfl i hi)]
  | one =>
    simp only [accepts, Operand.immediate?_revise]
    cases o.immediate? with
    | none => rfl
    | some i => simp only [Option.map_some, Option.any_some, Immediate.fixed?_revise]; rfl
  | rel w =>
    cases w <;> simp only [accepts, Operand.immediate?_revise] <;> cases o.immediate? <;> rfl
  | reg w | fixed reg | segment =>
    simp only [accepts, Operand.isRegister, Operand.register?_revise]
  | rm w | rmDefault w | mem w | memAny =>
    simp only [accepts, Operand.isRegister, Operand.isSizedMemory, Operand.isRegisterOrMemory,
      Operand.isMemory, Operand.register?_revise, Operand.memory?_revise, Option.isSome_map, hsize]

/-- **Slots take revised operands alike**, unless a slot looks at bounds that are changed. -/
theorem acceptAll_revise {shapes : List Shape} {operands : List Operand}
    (h : ∀ slot ∈ shapes.zip operands,
      r.bounds = id ∨ slot.1.readsBounds = false ∨ slot.2.isSymbolic = false) :
    acceptAll shapes (operands.map (Operand.revise r)) = acceptAll shapes operands := by
  have hvouch (slots : List (Shape × Operand)) (w : Width) :
      (slots.map (Prod.map id (Operand.revise r))).any (vouches w) = slots.any (vouches w) := by
    rw [List.any_map]
    refine congrArg (slots.any ·) (funext fun slot => ?_)
    simp only [Function.comp_apply, vouches, Prod.map, id_eq, Operand.isRegister,
      Operand.register?_revise]
  have hslot (slots : List (Shape × Operand)) (slot : Shape × Operand)
      (hs : r.bounds = id ∨ slot.1.readsBounds = false ∨ slot.2.isSymbolic = false) :
      acceptsAmong (slots.map (Prod.map id (Operand.revise r)))
        (Prod.map id (Operand.revise r) slot) = acceptsAmong slots slot := by
    have hsize : (slot.2.revise r).size = slot.2.size := rfl
    simp only [acceptsAmong, Prod.map, id_eq, accepts_revise hs, Operand.isUnsizedMemory,
      Operand.memory?_revise, Option.isSome_map, hsize, hvouch]
  simp only [acceptAll, List.length_map, List.zip_map_right, List.all_map]
  congr 1
  rw [Bool.eq_iff_iff, List.all_eq_true, List.all_eq_true]
  refine forall_congr' fun slot => forall_congr' fun hmem => ?_
  rw [Function.comp_apply, hslot _ slot (h slot hmem)]

end Accept
end Shape

/-! ## Rows -/

namespace Roles

variable (r : Revision)

theorem assign_revise (withSegment : Bool) (roles : Roles) (slot : Shape × Operand) :
    assign withSegment (roles.revise r) (Prod.map id (Operand.revise r) slot) =
      (assign withSegment roles slot).map (revise r) := by
  obtain ⟨s, o⟩ := slot
  have himmediate (w : Width) (signed : Bool) :
      assign.immediate (roles.revise r) w signed (o.revise r) =
        (assign.immediate roles w signed o).map (revise r) := by
    rw [assign.immediate, assign.immediate, Operand.immediate?_revise]
    cases o.immediate? with
    | none => rfl
    | some i =>
      simp only [Option.map_some, Field.ofImmediate_revise]
      rfl
  cases s with
  | reg w => cases withSegment <;> rfl
  | imm w => exact himmediate w false
  | immSigned w => exact himmediate w true
  | rel w =>
    simp only [assign, Prod.map, id_eq, Operand.immediate?_revise]
    cases o.immediate? with
    | none => rfl
    | some i =>
      have hexpr : (i.revise r).value.expr = i.value.expr.rename r.name := i.value.expr_revise r
      simp only [Option.map_some, hexpr]
      rfl
  | _ => rfl

theorem ofSlots_revise (shapes : List Shape) (operands : List Operand) :
    ofSlots shapes (operands.map (Operand.revise r)) =
      (ofSlots shapes operands).map (revise r) := by
  have hfold (slots : List (Shape × Operand)) (roles : Roles) (withSegment : Bool) :
      (slots.map (Prod.map id (Operand.revise r))).foldlM (assign withSegment) (roles.revise r) =
        (slots.foldlM (assign withSegment) roles).map (revise r) := by
    induction slots generalizing roles with
    | nil => rfl
    | cons slot slots ih =>
      rw [List.map_cons, List.foldlM_cons, List.foldlM_cons, assign_revise]
      exact bind_map_answer _ fun roles => ih roles
  rw [ofSlots, ofSlots, List.zip_map_right]
  exact hfold _ empty _

theorem requireRegister_revise (roles : Roles) :
    (roles.revise r).requireRegister = roles.requireRegister := by
  obtain ⟨register, rm, imm, rel⟩ := roles
  cases register with
  | none => rfl
  | some o => simp only [requireRegister, revise, Option.map_some, Option.bind_some,
      Operand.register?_revise]

theorem requireRm_revise (roles : Roles) :
    (roles.revise r).requireRm = roles.requireRm.map (Operand.revise r) := by
  obtain ⟨register, rm, imm, rel⟩ := roles
  cases rm <;> rfl

end Roles

namespace OperandFields

variable (r : Revision)

theorem withRm_revise (f : OperandFields) (reg : Nat) (o : Operand) (mode : Mode) :
    (f.revise r).withRm reg (o.revise r) mode = (f.withRm reg o mode).map (revise r) := by
  obtain ⟨kind, size, span⟩ := o
  cases kind with
  | register register => rfl
  | immediate i => rfl
  | memory m =>
    simp only [withRm, Operand.revise, OperandKind.revise, Memory.encode_revise]
    exact bind_map_answer _ fun a => rfl

theorem encode_revise (layout : OperandLayout) (shapes : List Shape) (digit : Option Nat)
    (wide : Bool) (operands : List Operand) (mode : Mode) :
    encode layout shapes digit wide (operands.map (Operand.revise r)) mode =
      (encode layout shapes digit wide operands mode).map (revise r) := by
  unfold encode
  rw [List.length_map, Roles.ofSlots_revise]
  refine guard_same_answer (bind_map_answer _ fun roles => ?_)
  have hfields (w : RexBit) : ofRoles (roles.revise r) w = (ofRoles roles w).revise r := rfl
  simp only [Roles.requireRegister_revise, Roles.requireRm_revise, hfields]
  cases layout with
  | np | i | d => rfl
  | o | oi => exact bind_same_answer _ fun reg => rfl
  | m | mi =>
    cases digit with
    | none => rfl
    | some digit => exact bind_map_answer _ fun o => withRm_revise r _ digit o mode
  | mr | rm | rmi =>
    exact bind_same_answer _ fun reg => bind_map_answer _ fun o =>
      withRm_revise r { ofRoles roles (if wide then .set else .free) with
        rex := { (ofRoles roles (if wide then .set else .free)).rex with r := reg.rexBit } }
        reg.code o mode

end OperandFields

/-- **The encoder sees neither names nor bounds nor places.** -/
theorem Row.encode_revise (r : Revision) (row : Row) (operands : List Operand)
    (prefixes : PrefixBytes) (mode : Mode) (span : Span) :
    row.encode (operands.map (Operand.revise r)) prefixes mode (r.place span) =
      (row.encode operands prefixes mode span).map (Instruction.revise r) := by
  unfold encode
  refine bind_same_answer _ fun (operandSize, wide) => ?_
  simp only [OperandFields.encode_revise]
  refine bind_map_answer _ fun f => ?_
  have hrex : (f.revise r).rex = f.rex := rfl
  rw [hrex]
  refine bind_same_answer _ fun rex => ?_
  have hassembled : row.assembled prefixes operandSize mode (f.revise r) rex (r.place span) =
      (row.assembled prefixes operandSize mode f rex span).revise r := rfl
  simp only [hassembled, Instruction.size_revise]
  exact guard_same_answer (guard_same_answer rfl)

theorem PrefixBytes.compose_revise (r : Revision) (prefixes : List Prefix)
    (operands : List Operand) :
    compose prefixes (operands.map (Operand.revise r)) = compose prefixes operands := by
  have hsegment (o : Operand) :
      (o.revise r).memory?.bind Memory.segment = o.memory?.bind Memory.segment := by
    rw [Operand.memory?_revise]
    cases o.memory? <;> rfl
  simp only [compose, List.filterMap_map, Function.comp_def, hsegment]

/-! ## Layout -/

def Item.revise (r : Revision) : Item → Item
  | .label name span => .label (r.name name) (r.place span)
  | .instruction i => .instruction (i.revise r)

def LabelDef.revise (r : Revision) (d : LabelDef) : LabelDef :=
  ⟨r.name d.name, d.address, r.place d.span⟩

@[simp] theorem Item.size_revise (r : Revision) (item : Item) :
    (item.revise r).size = item.size := by
  cases item <;> rfl

@[simp] theorem Item.sizes_revise (r : Revision) (items : List Item) :
    sizes (items.map (revise r)) = sizes items := by
  induction items with
  | nil => rfl
  | cons item items ih => simp only [List.map_cons, sizes, size_revise, ih]

namespace Program

section Layout

variable {r : Revision} {p q : Program}

theorem place_revise (hbase : q.base = p.base) (hitems : q.items = p.items.map (Item.revise r)) :
    q.place = p.place.map (Prod.map id (Item.revise r)) := by
  have hplace (address : Nat) (items : List Item) : placeFrom address (items.map (Item.revise r)) =
      (placeFrom address items).map (Prod.map id (Item.revise r)) := by
    induction items generalizing address with
    | nil => rfl
    | cons item items ih =>
      simp only [List.map_cons, placeFrom, Item.size_revise, ih, Prod.map, id_eq]
  rw [place, place, hbase, hitems, hplace]

theorem stop_revise (hbase : q.base = p.base) (hitems : q.items = p.items.map (Item.revise r)) :
    q.stop = p.stop := by
  rw [stop, stop, hbase, hitems, Item.sizes_revise]

theorem instructions_revise (hbase : q.base = p.base)
    (hitems : q.items = p.items.map (Item.revise r)) :
    q.instructions = p.instructions.map (Prod.map id (Instruction.revise r)) := by
  rw [instructions, instructions, place_revise hbase hitems, List.filterMap_map, List.map_filterMap]
  congr 1
  funext ⟨address, item⟩
  cases item <;> rfl

theorem labelDefs_revise (hbase : q.base = p.base)
    (hitems : q.items = p.items.map (Item.revise r)) :
    q.labelDefs = p.labelDefs.map (LabelDef.revise r) := by
  rw [labelDefs, labelDefs, place_revise hbase hitems, List.filterMap_map, List.map_filterMap]
  congr 1
  funext ⟨address, item⟩
  cases item <;> rfl

end Layout
end Program
end IntelAsm
