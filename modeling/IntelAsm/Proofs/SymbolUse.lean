/-
What operands make of their symbols. An operand is evaluated under a table of
bounds, which it asks for two things: whether a symbol is known, and how large
its value can become. Under another table and with other names it evaluates to
the same operand, revised, as long as the answers match (`Revision.Matches`,
`ParsedOperand.classify_revised`), and the instruction is encoded as the revised
one (`ParsedInstruction.encode_revise`).
-/
import IntelAsm.Proofs.Revision
import IntelAsm.Proofs.SelectFacts

namespace IntelAsm

/-! ## Revised operands -/

/-- The revision fits a change of tables: names keep being registers, symbols keep being known, and
revised bounds stay those of the expression. `P` holds the symbols in question. -/
structure Revision.Matches (r : Revision) (t t' : String → Option Interval) (P : String → Prop) :
    Prop where
  register : ∀ n, Register.ofName? (r.name n) = Register.ofName? n
  defined : ∀ n, P n → (t' (r.name n)).isNone = (t n).isNone
  bounds : ∀ e : Expr, (∀ n ∈ e.names, P n) →
    r.bounds ((e.rename r.name).bounds t') = r.bounds (e.bounds t)

namespace Revision

theorem matches_of_agree {r : Revision} {t t' : String → Option Interval} {P : String → Prop}
    (register : ∀ n, Register.ofName? (r.name n) = Register.ofName? n)
    (agree : ∀ n, P n → t' (r.name n) = t n) : Matches r t t' P where
  register := register
  defined n hn := by rw [agree n hn]
  bounds _ he := congrArg r.bounds (Expr.bounds_rename fun n hn => agree n (he n hn))

theorem matches_self (t : String → Option Interval) (P : String → Prop) :
    Matches (.ofNames id) t t P :=
  matches_of_agree (fun _ => rfl) fun _ _ => rfl

theorem matches_unbounded {t t' : String → Option Interval} {P : String → Prop}
    (defined : ∀ n, P n → (t' n).isNone = (t n).isNone) : Matches .unbounded t t' P where
  register _ := rfl
  defined := defined
  bounds _ _ := rfl

end Revision

section Relations

variable (r : Revision) (P : String → Prop)

/-- The second value is the first one revised, up to bounds that the revision does not tell apart.
What is left to be resolved has symbols, and all of them are in `P`. -/
inductive ImmValue.Revised : ImmValue → ImmValue → Prop
  | fixed (v : Int64) : Revised (.fixed v) (.fixed v)
  | symbolic {e b b'} (waits : e.names ≠ []) (names : ∀ n ∈ e.names, P n)
    (bounds : r.bounds b' = r.bounds b) :
    Revised (.symbolic e b) (.symbolic (e.rename r.name) b')

structure Immediate.Revised (i i' : Immediate) : Prop where
  value : i.value.Revised r P i'.value
  size : i'.size = i.size

structure Memory.Revised (m m' : Memory) : Prop where
  base : m'.base = m.base
  index : m'.index = m.index
  disp : Option.Rel (Immediate.Revised r P) m.disp m'.disp
  addressSize : m'.addressSize = m.addressSize
  segment : m'.segment = m.segment

inductive OperandKind.Revised : OperandKind → OperandKind → Prop
  | register (reg : Register) : Revised (.register reg) (.register reg)
  | immediate {i i'} (h : Immediate.Revised r P i i') : Revised (.immediate i) (.immediate i')
  | memory {m m'} (h : Memory.Revised r P m m') : Revised (.memory m) (.memory m')

structure Operand.Revised (o o' : Operand) : Prop where
  kind : o.kind.Revised r P o'.kind
  size : o'.size = o.size
  span : o'.span = r.place o.span

end Relations

variable {r : Revision} {P : String → Prop} {t t' : String → Option Interval}

/-! ## Values -/

theorem ImmValue.Revised.names_expr {v v' : ImmValue} (h : v.Revised r P v') :
    ∀ n ∈ v.expr.names, P n := by
  cases h with
  | fixed u => simp [expr, Expr.names]
  | symbolic _ hnames _ => exact hnames

namespace Immediate

theorem Revised.eq {i i' : Immediate} (h : Revised r P i i') :
    i'.revise r.boundsOnly = i.revise r := by
  obtain ⟨value, size⟩ := i
  obtain ⟨value', size'⟩ := i'
  obtain ⟨hvalue, rfl⟩ := h
  cases hvalue with
  | fixed v => rfl
  | symbolic _ _ hbounds =>
    simp only [revise, ImmValue.revise, Revision.boundsOnly, Expr.rename_id, hbounds]

theorem revised_ofExpr (h : r.Matches t t' P) {e : Expr} (hwaits : e.names ≠ [])
    (hnames : ∀ n ∈ e.names, P n) :
    Revised r P (ofExpr t e) (ofExpr t' (e.rename r.name)) :=
  ⟨.symbolic hwaits hnames (h.bounds e hnames), rfl⟩

theorem unary_revised (h : r.Matches t t' P) (op : UnaryOp) {i i' : Immediate}
    (hi : Revised r P i i') : Parallel (Revised r P) (i.unary t op) (i'.unary t' op) := by
  obtain ⟨value, size⟩ := i
  obtain ⟨value', size'⟩ := i'
  obtain ⟨hvalue, rfl⟩ := hi
  cases hvalue with
  | fixed v =>
    simp only [unary]
    cases op.apply v with
    | ok u => exact .ok ⟨.fixed u, rfl⟩
    | error e => exact .error
  | @symbolic e _ _ hwaits hnames _ =>
    exact .ok (revised_ofExpr (e := .unary op e) h hwaits hnames)

theorem binary_revised (h : r.Matches t t' P) (op : BinaryOp) {a a' b b' : Immediate}
    (ha : Revised r P a a') (hb : Revised r P b b') :
    Parallel (Revised r P) (a.binary t op b) (a'.binary t' op b') := by
  obtain ⟨value, size⟩ := a
  obtain ⟨value', size'⟩ := a'
  obtain ⟨hvalue, rfl⟩ := ha
  obtain ⟨other, otherSize⟩ := b
  obtain ⟨other', otherSize'⟩ := b'
  obtain ⟨hother, rfl⟩ := hb
  cases hvalue with
  | fixed v =>
    cases hother with
    | fixed u =>
      simp only [binary]
      cases op.apply v u with
      | ok w => exact .ok ⟨.fixed w, rfl⟩
      | error e => exact .error
    | @symbolic e _ _ hwaits hnames _ =>
      refine .ok (revised_ofExpr (e := .binary op (.int v) e) h ?_ ?_)
      · simpa [Expr.names] using hwaits
      · simpa [Expr.names] using hnames
  | @symbolic e _ _ hwaits hnames _ =>
    cases hother with
    | fixed u =>
      refine .ok (revised_ofExpr (e := .binary op e (.int u)) h ?_ ?_)
      · simpa [Expr.names] using hwaits
      · simpa [Expr.names] using hnames
    | @symbolic e₂ _ _ hwaits₂ hnames₂ _ =>
      simp only [binary]
      split
      · refine .ok (revised_ofExpr (e := .binary op e e₂) h ?_ ?_)
        · simp [Expr.names, hwaits]
        · intro n hn
          rcases List.mem_append.1 hn with hn | hn
          · exact hnames n hn
          · exact hnames₂ n hn
      · exact .error

end Immediate

/-! ## Addresses -/

namespace Memory

theorem Revised.eq {m m' : Memory} (h : Revised r P m m') :
    m'.revise r.boundsOnly = m.revise r := by
  obtain ⟨base, index, disp, addressSize, segment⟩ := m
  obtain ⟨base', index', disp', addressSize', segment'⟩ := m'
  obtain ⟨rfl, rfl, hdisp, rfl, rfl⟩ := h
  cases hdisp with
  | none => rfl
  | some hd => simp only [revise, Option.map_some, hd.eq]

/-- An address with another displacement. -/
theorem Revised.withDisp {m m' : Memory} (h : Revised r P m m') {d d' : Immediate}
    (hd : d.Revised r P d') : Revised r P { m with disp := some d } { m' with disp := some d' } :=
  { h with disp := .some hd }

theorem revised_empty (r : Revision) (P : String → Prop) : Revised r P empty empty :=
  ⟨rfl, rfl, .none, rfl, rfl⟩

theorem shift_revised (h : r.Matches t t' P) (op : BinaryOp) {m m' : Memory} {d d' : Immediate}
    (hm : Revised r P m m') (hd : d.Revised r P d') :
    Parallel (Revised r P) (m.shift t op d) (m'.shift t' op d') := by
  have hstep {x y : Except OperandError Immediate} (hxy : Parallel (Immediate.Revised r P) x y) :
      Parallel (Revised r P) (x >>= fun disp => .ok { m with disp := some disp })
        (y >>= fun disp => .ok { m' with disp := some disp }) :=
    hxy.bind fun _ _ hdisp => .ok (hm.withDisp hdisp)
  obtain ⟨base, index, disp, addressSize, segment⟩ := m
  obtain ⟨base', index', disp', addressSize', segment'⟩ := m'
  unfold shift
  cases hm.disp with
  | none =>
    simp only
    split
    · exact hstep (Immediate.unary_revised h .neg hd)
    · exact hstep (.ok hd)
  | some hold => exact hstep (Immediate.binary_revised h op hold hd)

theorem shiftFront_revised (h : r.Matches t t' P) {m m' : Memory} {d d' : Immediate}
    (hm : Revised r P m m') (hd : d.Revised r P d') :
    Parallel (Revised r P) (m.shiftFront t d) (m'.shiftFront t' d') := by
  obtain ⟨base, index, disp, addressSize, segment⟩ := m
  obtain ⟨base', index', disp', addressSize', segment'⟩ := m'
  unfold shiftFront
  cases hm.disp with
  | none => exact .ok (hm.withDisp hd)
  | some hold =>
    exact (Immediate.binary_revised h .add hd hold).bind fun _ _ hdisp => .ok (hm.withDisp hdisp)

theorem addBase_revised {m m' : Memory} (hm : Revised r P m m') (reg : Register) :
    Parallel (Revised r P) (m.addBase reg) (m'.addBase reg) := by
  rw [addBase, addBase, hm.base]
  cases m.base with
  | some base => exact .error
  | none => exact .ok { hm with base := rfl }

theorem scaled_revised {d d' : Immediate} (hd : d.Revised r P d') (reg : Register) :
    Parallel (Revised r P) (scaled reg d) (scaled reg d') := by
  have hfixed : d'.fixed? = d.fixed? := by
    rw [← d'.fixed?_revise r.boundsOnly, hd.eq, d.fixed?_revise r]
  rw [scaled, scaled, hfixed]
  cases d.fixed? with
  | none => exact .error
  | some scale => exact .ok { revised_empty r P with index := rfl }

theorem resolveSize_revised {m m' : Memory} (hm : Revised r P m m') (declared : Option Width) :
    m'.resolveSize declared = m.resolveSize declared := by
  simp only [resolveSize, registerWidth, hm.base, hm.index]

end Memory

/-! ## The fold -/

namespace OperandKind

theorem Revised.eq {k k' : OperandKind} (h : Revised r P k k') :
    k'.revise r.boundsOnly = k.revise r := by
  cases h with
  | register reg => rfl
  | immediate h => rw [revise, revise, h.eq]
  | memory h => rw [revise, revise, h.eq]

theorem combine_revised (h : r.Matches t t' P) (op : BinaryOp) {a a' b b' : OperandKind}
    (ha : Revised r P a a') (hb : Revised r P b b') :
    Parallel (Revised r P) (combine t op a b) (combine t' op a' b') := by
  have hmemory {x y : Except OperandError Memory} (hxy : Parallel (Memory.Revised r P) x y) :
      Parallel (Revised r P) (.memory <$> x) (.memory <$> y) := hxy.map fun _ _ hm => .memory hm
  have hbased (reg : Register) {d d' : Immediate} (hd : d.Revised r P d') :
      Revised r P (.memory { Memory.empty with base := some reg, disp := some d })
        (.memory { Memory.empty with base := some reg, disp := some d' }) :=
    .memory { Memory.revised_empty r P with base := rfl, disp := .some hd }
  cases ha with
  | register reg =>
    cases hb with
    | register index =>
      cases op with
      | add => exact .ok (.memory { Memory.revised_empty r P with base := rfl, index := rfl })
      | sub | mul | div => exact .error
    | immediate hd =>
      cases op with
      | add => exact .ok (hbased reg hd)
      | sub =>
        exact (Immediate.unary_revised h .neg hd).bind fun _ _ hneg => .ok (hbased reg hneg)
      | mul => exact hmemory (Memory.scaled_revised hd reg)
      | div => exact .error
    | memory hm =>
      cases op with
      | add => exact hmemory (Memory.addBase_revised hm reg)
      | sub | mul | div => exact .error
  | immediate hd =>
    cases hb with
    | register reg =>
      cases op with
      | add => exact .ok (hbased reg hd)
      | mul => exact hmemory (Memory.scaled_revised hd reg)
      | sub | div => exact .error
    | immediate hother =>
      exact (Immediate.binary_revised h op hd hother).map fun _ _ hi => .immediate hi
    | memory hm =>
      cases op with
      | add => exact hmemory (Memory.shiftFront_revised h hm hd)
      | sub | mul | div => exact .error
  | memory hm =>
    cases hb with
    | register reg =>
      cases op with
      | add => exact hmemory (Memory.addBase_revised hm reg)
      | sub | mul | div => exact .error
    | immediate hd =>
      cases op with
      | add => exact hmemory (Memory.shift_revised h .add hm hd)
      | sub => exact hmemory (Memory.shift_revised h .sub hm hd)
      | mul | div => exact .error
    | memory hother => cases op <;> exact .error

/-- **The fold of an expression** under another table and with other names. -/
theorem ofExpr_revised (h : r.Matches t t' P) (inAddress : Bool) {e : Expr}
    (he : ∀ n ∈ e.names, Register.ofName? n = none → P n) :
    Parallel (Revised r P) (ofExpr t inAddress e) (ofExpr t' inAddress (e.rename r.name)) := by
  induction e with
  | int v => exact .ok (.immediate ⟨.fixed v, rfl⟩)
  | var n =>
    simp only [Expr.rename, ofExpr, h.register n]
    cases hreg : Register.ofName? n with
    | some reg => exact .ok (.register reg)
    | none =>
      have hn : P n := he n (by simp [Expr.names]) hreg
      refine Parallel.guard (by rw [h.defined n hn]) (.ok (.immediate ⟨?_, rfl⟩))
      have hnames : ∀ m ∈ (Expr.var n).names, P m := by
        intro m hm
        rw [Expr.names, List.mem_singleton] at hm
        exact hm ▸ hn
      exact .symbolic (by simp [Expr.names]) hnames (h.bounds (.var n) hnames)
  | unary op inner ih =>
    refine (ih he).bind fun k k' hk => ?_
    cases hk with
    | register reg => exact .error
    | immediate hi => exact (Immediate.unary_revised h op hi).map fun _ _ hj => .immediate hj
    | memory hm => exact .error
  | binary op left right ihl ihr =>
    simp only [Expr.names, List.mem_append] at he
    refine (ihl fun n hn => he n (.inl hn)).bind fun l l' hl => ?_
    exact (ihr fun n hn => he n (.inr hn)).bind fun k k' hk => combine_revised h op hl hk

theorem Revised.toMemory {k k' : OperandKind} (h : Revised r P k k') :
    Memory.Revised r P k.toMemory k'.toMemory := by
  cases h with
  | register reg => exact { Memory.revised_empty r P with base := rfl }
  | immediate hi => exact { Memory.revised_empty r P with disp := .some hi }
  | memory hm => exact hm

end OperandKind

/-! ## Operands -/

namespace Operand

theorem Revised.eq {o o' : Operand} (h : Revised r P o o') :
    o'.revise r.boundsOnly = o.revise r := by
  rw [revise, revise, h.kind.eq, h.size, h.span]
  rfl

/-- The value in an operand: an immediate, or the displacement of an address. -/
def value? (o : Operand) : Option Immediate := o.immediate?.or (o.memory?.bind Memory.disp)

/-- The value in an operand is revised with it. -/
theorem Revised.value {o o' : Operand} {i : Immediate} (h : Revised r P o o')
    (hi : o.value? = some i) : ∃ v', i.value.Revised r P v' := by
  obtain ⟨kind, size, span⟩ := o
  obtain ⟨kind', size', span'⟩ := o'
  obtain ⟨hkind, -, -⟩ := h
  cases hkind with
  | register reg => cases hi
  | immediate hrevised =>
    cases hi
    exact ⟨_, hrevised.value⟩
  | @memory m m' hm =>
    have hdisp : m.disp = some i := hi
    have hrel := hm.disp
    rw [hdisp] at hrel
    generalize m'.disp = disp' at hrel
    cases hrel with
    | some hrevised => exact ⟨_, hrevised.value⟩

end Operand

namespace ParsedOperand

theorem revise_of_id {r : Revision} (hname : r.name = id) (hplace : r.place = id)
    (o : ParsedOperand) : o.revise r = o := by
  rw [revise_of_name hname, hplace, id_eq]

/-- The names in the operand that are no registers. -/
def Symbol (o : ParsedOperand) (n : String) : Prop := n ∈ o.expr.names ∧ Register.ofName? n = none

theorem classify_revised (h : r.Matches t t' P) {o : ParsedOperand} (ho : ∀ n, o.Symbol n → P n) :
    Parallel (Operand.Revised r P) (o.classify t) ((o.revise r).classify t') := by
  obtain ⟨size, distance, address, addressSize, segment, expr, span⟩ := o
  simp only [classify, revise]
  have hfold := OperandKind.ofExpr_revised h address fun n hn hreg => ho n ⟨hn, hreg⟩
  refine hfold.bind fun k k' hk => ?_
  have hmemory {m m' : Memory} (hm : Memory.Revised r P m m') :
      Parallel (Operand.Revised r P)
        (do let addressSize ← m.resolveSize addressSize
            return Operand.ofMemory { m with segment, addressSize } size span)
        (do let addressSize ← m'.resolveSize addressSize
            return Operand.ofMemory { m' with segment, addressSize } size (r.place span)) := by
    rw [Memory.resolveSize_revised hm]
    cases m.resolveSize addressSize with
    | error e => exact .error
    | ok width => exact .ok ⟨.memory { hm with addressSize := rfl, segment := rfl }, rfl, rfl⟩
  cases address with
  | true => exact hmemory hk.toMemory
  | false =>
    simp only [Bool.false_eq_true, if_false]
    cases hk with
    | register reg =>
      have hreg : Operand.Revised r P (.ofRegister reg span) (.ofRegister reg (r.place span)) :=
        ⟨.register reg, rfl, rfl⟩
      cases size with
      | none => exact .ok hreg
      | some w => exact Parallel.guard Iff.rfl (.ok hreg)
    | @immediate i i' hi =>
      cases size with
      | none => exact .ok ⟨.immediate hi, hi.size, rfl⟩
      | some w =>
        have hsized : Operand.Revised r P (.ofImmediate { i with size := some w } span)
            (.ofImmediate { i' with size := some w } (r.place span)) :=
          ⟨.immediate ⟨hi.value, rfl⟩, rfl, rfl⟩
        obtain ⟨value, _⟩ := i
        obtain ⟨value', _⟩ := i'
        obtain ⟨hvalue, _⟩ := hi
        cases hvalue with
        | fixed v => exact Parallel.guard Iff.rfl (.ok hsized)
        | symbolic => exact .ok hsized
    | memory hm => exact hmemory hm

theorem evaluateAll_revised (h : r.Matches t t' P) {os : List ParsedOperand}
    (hos : ∀ o ∈ os, ∀ n, o.Symbol n → P n) :
    Parallel (List.Forall₂ (Operand.Revised r P)) (evaluateAll t os)
      (evaluateAll t' (os.map (revise r))) := by
  refine Parallel.mapM ?_
  induction os with
  | nil => exact .nil
  | cons o os ih =>
    refine .cons ((classify_revised h (hos o (by simp))).mapError _ _) ?_
    exact ih fun o ho => hos o (by simp [ho])

/-- What an operand waits for are symbols of the source. -/
theorem classify_symbols {p : ParsedOperand} {o : Operand} (h : p.classify t = .ok o) :
    o.Revised (.ofNames id) p.Symbol o := by
  have hagree := classify_revised (o := p) (Revision.matches_self t p.Symbol) fun _ hn => hn
  rw [revise_of_id rfl rfl, h] at hagree
  cases hagree with
  | ok hrevised => exact hrevised

theorem evaluateAll_classify {os : List ParsedOperand} {operands : List Operand}
    (h : evaluateAll t os = .ok operands) :
    List.Forall₂ (fun p o => p.classify t = .ok o) os operands :=
  (mapM_eq_ok.1 h).imp fun _ _ ho => mapError_eq_ok.1 ho

end ParsedOperand

/-! ## Instructions -/

theorem Operand.isSymbolic_revise (r : Revision) (o : Operand) :
    (o.revise r).isSymbolic = o.isSymbolic := by
  simp only [isSymbolic, immediate?_revise, Option.any_map, Immediate.fixed?_revise]

section Rows

variable {operands operands' : List Operand}

/-- Slots take operands alike that differ in names, places and bounds; in bounds only where no slot
looks at those of a value with symbols. -/
theorem Shape.acceptAll_congr
    (heq : operands'.map (Operand.revise r.boundsOnly) = operands.map (Operand.revise r))
    {shapes : List Shape} (h : r.bounds = id ∨ ∀ slot ∈ shapes.zip operands,
      slot.1.readsBounds = false ∨ slot.2.isSymbolic = false) :
    acceptAll shapes operands' = acceptAll shapes operands := by
  have hslots : ∀ slot' ∈ shapes.zip operands',
      r.boundsOnly.bounds = id ∨ slot'.1.readsBounds = false ∨ slot'.2.isSymbolic = false := by
    intro slot' hmem
    rcases h with hbounds | h
    · exact .inl hbounds
    · have hzip : (shapes.zip operands').map (Prod.map id (Operand.revise r.boundsOnly)) =
          (shapes.zip operands).map (Prod.map id (Operand.revise r)) := by
        rw [← List.zip_map_right, ← List.zip_map_right, heq]
      have hmapped := List.mem_map_of_mem (f := Prod.map id (Operand.revise r.boundsOnly)) hmem
      rw [hzip] at hmapped
      obtain ⟨slot, hslot, hsame⟩ := List.mem_map.1 hmapped
      obtain ⟨hshape, hoperand⟩ := Prod.mk.inj hsame
      rw [id_eq, id_eq] at hshape
      rw [← hshape, ← slot'.2.isSymbolic_revise r.boundsOnly, ← hoperand, Operand.isSymbolic_revise]
      exact .inr (h slot hslot)
  rw [← acceptAll_revise hslots, heq]
  exact acceptAll_revise fun slot hslot => h.imp_right fun h => h slot hslot

theorem Row.encode_congr
    (heq : operands'.map (Operand.revise r.boundsOnly) = operands.map (Operand.revise r))
    (row : Row) (prefixes : PrefixBytes) (mode : Mode) (span : Span) :
    row.encode operands' prefixes mode (r.place span) =
      (row.encode operands prefixes mode span).map (Instruction.revise r) := by
  have hkeep (x : Except EncodingError Instruction) :
      x.map (Instruction.revise r.boundsOnly) = x := by
    cases x with
    | error e => rfl
    | ok i => exact congrArg Except.ok (i.revise_of_id rfl rfl)
  have hbounds := row.encode_revise r.boundsOnly operands' prefixes mode (r.place span)
  rw [hkeep] at hbounds
  rw [← hbounds, heq]
  exact row.encode_revise r operands prefixes mode span

theorem PrefixBytes.compose_congr
    (heq : operands'.map (Operand.revise r.boundsOnly) = operands.map (Operand.revise r))
    (prefixes : List Prefix) : compose prefixes operands' = compose prefixes operands := by
  rw [← compose_revise r.boundsOnly, heq, compose_revise]

end Rows

namespace ParsedInstruction

/-- The names in the operands that are no registers. -/
def Symbol (i : ParsedInstruction) (n : String) : Prop := ∃ o ∈ i.operands, o.Symbol n

/-- **An instruction under another table and with other names** is encoded as before, revised. Where
bounds are changed, no slot that looks at bounds may hold a value with symbols. -/
theorem encode_revise (h : r.Matches t t' P) {i : ParsedInstruction} (hi : ∀ n, i.Symbol n → P n)
    (hslots : r.bounds = id ∨ ∀ rows, Table.rows? i.mnemonic = some rows → ∀ row ∈ rows,
      ∀ operands, ParsedOperand.evaluateAll t i.operands = .ok operands →
        ∀ slot ∈ row.shapes.zip operands, slot.1.readsBounds = false ∨ slot.2.isSymbolic = false)
    (mode : Mode) :
    ((i.revise r).encode t' mode).toOption = (i.encode t mode).toOption.map (Instruction.revise r) := by
  have hevaluate := ParsedOperand.evaluateAll_revised h fun o ho n hn => hi n ⟨o, ho, hn⟩
  rw [toOption_encode, toOption_encode]
  simp only [revise]
  cases hrows : Table.rows? i.mnemonic with
  | none => rfl
  | some rows =>
    generalize ParsedOperand.evaluateAll t' (i.operands.map (ParsedOperand.revise r)) = answer
      at hevaluate ⊢
    cases heval : ParsedOperand.evaluateAll t i.operands with
    | error d =>
      rw [heval] at hevaluate
      cases hevaluate
      rfl
    | ok operands =>
      rw [heval] at hevaluate
      cases hevaluate with
      | @ok _ operands' hsame =>
        have heq : operands'.map (Operand.revise r.boundsOnly) =
            operands.map (Operand.revise r) := by
          rw [← List.forall₂_eq_eq_eq, List.forall₂_map_left_iff, List.forall₂_map_right_iff]
          exact hsame.flip.imp fun _ _ ho => ho.eq
        simp only [toOption_ok, Option.bind_some, PrefixBytes.compose_congr heq]
        cases PrefixBytes.compose i.prefixes operands with
        | error e => rfl
        | ok prefixes =>
          rw [toOption_ok, Option.bind_some, Option.bind_some, List.map_findSome?,
            ← List.head?_filterMap, ← List.head?_filterMap]
          refine congrArg List.head? (List.filterMap_congr fun row hrow => ?_)
          have haccept : Shape.acceptAll row.shapes operands' =
              Shape.acceptAll row.shapes operands :=
            Shape.acceptAll_congr heq (hslots.imp_right fun h =>
              h rows hrows row (List.mem_filter.1 hrow).1 operands heval)
          rw [haccept, Row.encode_congr heq, toOption_map, Function.comp_apply]
          cases Shape.acceptAll row.shapes operands <;> rfl

/-- An instruction under a table that a revision of the bounds does not tell apart from the first. -/
theorem encode_matches (hname : r.name = id) (hplace : r.place = id) {i : ParsedInstruction}
    (h : r.Matches t t' i.Symbol)
    (hslots : r.bounds = id ∨ ∀ rows, Table.rows? i.mnemonic = some rows → ∀ row ∈ rows,
      ∀ operands, ParsedOperand.evaluateAll t i.operands = .ok operands →
        ∀ slot ∈ row.shapes.zip operands, slot.1.readsBounds = false ∨ slot.2.isSymbolic = false)
    (mode : Mode) : (i.encode t' mode).toOption = (i.encode t mode).toOption := by
  have hencode := encode_revise h (fun _ hn => hn) hslots mode
  have hsame : i.revise r = i := by
    have hoperand : ParsedOperand.revise r = id :=
      funext fun o => o.revise_of_id hname hplace
    rw [revise, hoperand, List.map_id, hplace]
    rfl
  have hkeep : Instruction.revise r = id := funext fun e => e.revise_of_id hname hplace
  rw [hsame, hkeep, Option.map_id_fun, id_eq] at hencode
  exact hencode

/-- The encoding of an instruction depends on the symbols in it only. -/
theorem encode_congr {i : ParsedInstruction} (h : ∀ n, i.Symbol n → t' n = t n) (mode : Mode) :
    (i.encode t' mode).toOption = (i.encode t mode).toOption :=
  encode_matches (r := .ofNames id) rfl rfl (Revision.matches_of_agree (fun _ => rfl) h) (.inl rfl)
    mode

end ParsedInstruction
end IntelAsm
