/-
Labels named by distance. An operand is relocatable if its only symbol is a
label, as the target of a branch or as an offset from the instruction pointer,
with constants around it (`ParsedOperand.Relocatable`). The sum that it stands
for is known from its terms (`Expr.value_of_terms`), so what the instruction is
left waiting for comes out as the value of the label plus a constant
(`Expr.Tracks`), in a field that counts from the instruction
(`ParsedInstruction.encode_tracks`). No slot looks at the bounds of such a label,
so the instruction itself is the same whatever they are
(`ParsedInstruction.encode_relocatable`).
-/
import IntelAsm.Proofs.AddressValue
import IntelAsm.Proofs.FieldOrigin
import IntelAsm.Proofs.LinkRevision
import IntelAsm.Proofs.SymbolicImmediate

namespace IntelAsm

/-! ## Sums -/

/-- Registers of which only the instruction pointer holds something. -/
def Register.pointerAt (c : Int) (r : Register) : Int := if r.isPointer then c else 0

/-- The number that a symbol stands for, zero if it stands for nothing. -/
def symbolValue (lookup : String → Option Int64) (n : String) : Int :=
  ((lookup n).map Int64.toInt).getD 0

namespace Expr

/-- The terms of a sum besides constants: how often it has the instruction pointer, and its symbols.
Only constants may be subtracted. -/
def terms? : Expr → Option (Nat × List String)
  | .int _ => some (0, [])
  | .var n =>
    (Register.ofName? n).elim (some (0, [n])) fun r => if r.isPointer then some (1, []) else none
  | .unary _ inner => if inner.names = [] then some (0, []) else none
  | .binary op left right =>
    if left.names ++ right.names = [] then some (0, [])
    else if op = .add then
      left.terms?.bind fun l => right.terms?.map fun r => (l.1 + r.1, l.2 ++ r.2)
    else if op = .sub ∧ right.names = [] then left.terms?
    else none

/-- The expression comes out as the value of `n` plus a constant. -/
def Tracks (n : String) (x : Expr) : Prop :=
  ∀ lookup lookup' u u', x.resolve lookup = .ok u → x.resolve lookup' = .ok u' →
    u'.toInt - u.toInt = symbolValue lookup' n - symbolValue lookup n

section Terms

variable {e : Expr} {p : Nat} {ls : List String}

theorem value_of_constant (h : e.names = []) (content content' : Register → Int)
    (lookup lookup' : String → Option Int64) :
    e.value content' lookup' = e.value content lookup := by
  induction e with
  | int v => rfl
  | var n => simp [names] at h
  | unary op inner ih => rw [value, value, ih h]
  | binary op left right ihl ihr =>
    obtain ⟨hl, hr⟩ := List.append_eq_nil_iff.1 h
    rw [value, value, ihl hl, ihr hr]

theorem terms?_var {n : String} (h : (var n).terms? = some (p, ls)) :
    (Register.ofName? n = none ∧ p = 0 ∧ ls = [n]) ∨
      ∃ r, Register.ofName? n = some r ∧ r.isPointer = true ∧ p = 1 ∧ ls = [] := by
  rw [terms?] at h
  cases hr : Register.ofName? n with
  | none =>
    rw [hr] at h
    cases h
    exact .inl ⟨rfl, rfl, rfl⟩
  | some r =>
    rw [hr, Option.elim_some, Option.ite_none_right_eq_some] at h
    obtain ⟨hptr, heq⟩ := h
    cases heq
    exact .inr ⟨r, rfl, hptr, rfl, rfl⟩

theorem terms?_unary {op : UnaryOp} (h : (unary op e).terms? = some (p, ls)) :
    e.names = [] ∧ p = 0 ∧ ls = [] := by
  rw [terms?, Option.ite_none_right_eq_some] at h
  obtain ⟨hnames, heq⟩ := h
  cases heq
  exact ⟨hnames, rfl, rfl⟩

/-- A sum is a constant, the sum of two sums, or a sum less a constant. -/
theorem terms?_binary {op : BinaryOp} {left right : Expr}
    (h : (binary op left right).terms? = some (p, ls)) :
    ((binary op left right).names = [] ∧ p = 0 ∧ ls = []) ∨
      (op = .add ∧ ∃ l r, left.terms? = some l ∧ right.terms? = some r ∧ p = l.1 + r.1 ∧
        ls = l.2 ++ r.2) ∨
      (op = .sub ∧ right.names = [] ∧ left.terms? = some (p, ls)) := by
  rw [terms?] at h
  split at h
  · rename_i hnames
    cases h
    exact .inl ⟨hnames, rfl, rfl⟩
  · split at h
    · rename_i hop
      obtain ⟨l, hl, h⟩ := Option.bind_eq_some_iff.1 h
      obtain ⟨r, hr, heq⟩ := Option.map_eq_some_iff.1 h
      cases heq
      exact .inr (.inl ⟨hop, l, r, hl, hr, rfl, rfl⟩)
    · rw [Option.ite_none_right_eq_some] at h
      exact .inr (.inr ⟨h.1.1, h.1.2, h.2⟩)

/-- What a sum gains when the instruction pointer and the symbols change. -/
theorem value_of_terms (h : e.terms? = some (p, ls)) (c c' : Int)
    (lookup lookup' : String → Option Int64) :
    e.value (Register.pointerAt c') lookup' - e.value (Register.pointerAt c) lookup =
      p * (c' - c) + (ls.map fun n => symbolValue lookup' n - symbolValue lookup n).sum := by
  have hconstant {e : Expr} (hnames : e.names = []) :
      e.value (Register.pointerAt c') lookup' - e.value (Register.pointerAt c) lookup = 0 := by
    rw [e.value_of_constant hnames (Register.pointerAt c) _ lookup, Int.sub_self]
  induction e generalizing p ls with
  | int v =>
    cases h
    simp [value]
  | var n =>
    rcases terms?_var h with ⟨hr, rfl, rfl⟩ | ⟨r, hr, hptr, rfl, rfl⟩
    · simp [value, hr, symbolValue]
    · simp [value, hr, Register.pointerAt, hptr]
  | unary op inner _ =>
    obtain ⟨hnames, rfl, rfl⟩ := terms?_unary h
    rw [hconstant (e := .unary op inner) hnames]
    simp
  | binary op left right ihl ihr =>
    rcases terms?_binary h with ⟨hnames, rfl, rfl⟩ | ⟨rfl, l, r, hl, hr, rfl, rfl⟩ |
      ⟨rfl, hnames, hl⟩
    · rw [hconstant hnames]
      simp
    · have hleft := ihl hl
      have hright := ihr hr
      simp only [value, BinaryOp.denote, List.map_append, List.sum_append, Int.natCast_add,
        Int.add_mul]
      omega
    · have hleft := ihl hl
      have hright := hconstant hnames
      simp only [value, BinaryOp.denote]
      omega

/-- The names in a sum are its symbols and the instruction pointer. -/
theorem names_of_terms (h : e.terms? = some (p, ls)) {n : String} (hn : n ∈ e.names) :
    (Register.ofName? n = none ∧ n ∈ ls) ∨ ((Register.ofName? n).isSome = true ∧ 0 < p) := by
  induction e generalizing p ls with
  | int v => simp [names] at hn
  | var m =>
    rw [names, List.mem_singleton] at hn
    subst hn
    rcases terms?_var h with ⟨hr, rfl, rfl⟩ | ⟨r, hr, hptr, rfl, rfl⟩
    · exact .inl ⟨hr, by simp⟩
    · exact .inr ⟨by simp [hr], Nat.one_pos⟩
  | unary op inner _ =>
    obtain ⟨hnames, -, -⟩ := terms?_unary h
    rw [names, hnames] at hn
    cases hn
  | binary op left right ihl ihr =>
    rcases terms?_binary h with ⟨hnames, rfl, rfl⟩ | ⟨rfl, l, r, hl, hr, rfl, rfl⟩ |
      ⟨rfl, hnames, hl⟩
    · rw [hnames] at hn
      cases hn
    · rcases List.mem_append.1 hn with hn | hn
      · rcases ihl hl hn with ⟨hreg, hmem⟩ | ⟨hreg, hpos⟩
        · exact .inl ⟨hreg, List.mem_append_left _ hmem⟩
        · exact .inr ⟨hreg, Nat.add_pos_left hpos _⟩
      · rcases ihr hr hn with ⟨hreg, hmem⟩ | ⟨hreg, hpos⟩
        · exact .inl ⟨hreg, List.mem_append_right _ hmem⟩
        · exact .inr ⟨hreg, Nat.add_pos_right _ hpos⟩
    · rw [names, hnames, List.append_nil] at hn
      exact ihl hl hn

end Terms

/-! ### Symbols that are tracked -/

theorem resolve_names {x : Expr} {lookup : String → Option Int64} {u : Int64}
    (h : x.resolve lookup = .ok u) {n : String} (hn : n ∈ x.names) : ∃ v, lookup n = some v := by
  induction x generalizing u with
  | int v => simp [names] at hn
  | var m =>
    rw [names, List.mem_singleton] at hn
    subst hn
    rw [resolve] at h
    cases hv : lookup n with
    | some v => exact ⟨v, rfl⟩
    | none =>
      rw [hv] at h
      cases h
  | unary op inner ih =>
    obtain ⟨v, hv, -⟩ := resolve_unary_eq_ok h
    exact ih hv hn
  | binary op left right ihl ihr =>
    obtain ⟨v, w, hv, hw, -⟩ := resolve_binary_eq_ok h
    rcases List.mem_append.1 hn with hn | hn
    · exact ihl hv hn
    · exact ihr hw hn

/-- An expression that follows a symbol mentions it: otherwise it would come out the same under
another value of the symbol. -/
theorem Tracks.mem_names {n : String} {x : Expr} (h : x.Tracks n)
    {lookup : String → Option Int64} {u : Int64} (hu : x.resolve lookup = .ok u) : n ∈ x.names := by
  by_contra hn
  let other : Int64 := if symbolValue lookup n = 0 then 1 else 0
  let lookup' : String → Option Int64 := fun m => if m = n then some other else lookup m
  have hsame : (x.resolve lookup').toOption = (x.resolve lookup).toOption := by
    have hrename : ((x.rename id).resolve lookup').toOption = (x.resolve lookup).toOption :=
      resolve_rename fun m hm => if_neg (by rintro rfl; exact hn hm)
    rwa [rename_id] at hrename
  rw [hu] at hsame
  have htracks := h lookup lookup' u u hu (toOption_eq_some.1 hsame)
  have hother : symbolValue lookup' n = other.toInt := by simp [symbolValue, lookup']
  rw [hother, Int.sub_self] at htracks
  by_cases hzero : symbolValue lookup n = 0
  · have hone : other.toInt = 1 := by simp [other, hzero]
    omega
  · have hnull : other.toInt = 0 := by simp [other, hzero]
    omega

end Expr

/-! ## Operands -/

namespace OperandKind

def isImmediate : OperandKind → Bool
  | .immediate _ => true
  | .register _ | .memory _ => false

theorem isImmediate_of_immediate? {o : Operand} {v : Immediate} (h : o.immediate? = some v) :
    o.kind.isImmediate = true := by
  obtain ⟨kind, size, span⟩ := o
  cases kind with
  | immediate i => rfl
  | register r => cases h
  | memory m => cases h

variable {symbols : String → Option Interval}

theorem isImmediate_combine {op : BinaryOp} {l r kind : OperandKind}
    (h : combine symbols op l r = .ok kind) :
    kind.isImmediate = (l.isImmediate && r.isImmediate) := by
  unfold combine at h
  split at h
  · obtain ⟨j, -, rfl⟩ := map_eq_ok.1 h
    rfl
  · cases h
    rfl
  · cases h
    rfl
  · obtain ⟨d, -, h⟩ := bind_eq_ok.1 h
    cases h
    rfl
  · cases h
    rfl
  -- A product, or a sum with an address, is an address.
  iterate 7
    obtain ⟨m, -, rfl⟩ := map_eq_ok.1 h
    rfl
  · cases h

/-- **Values are what has no register in it.** -/
theorem isImmediate_ofExpr {inAddress : Bool} {e : Expr} {kind : OperandKind}
    (h : ofExpr symbols inAddress e = .ok kind) :
    kind.isImmediate = e.names.all fun n => (Register.ofName? n).isNone := by
  induction e generalizing kind with
  | int v =>
    cases h
    rfl
  | var n =>
    rw [ofExpr] at h
    cases hr : Register.ofName? n with
    | some r =>
      simp only [hr] at h
      cases h
      simp [isImmediate, Expr.names, hr]
    | none =>
      simp only [hr, guard_eq_ok] at h
      cases h.2
      simp [isImmediate, Expr.names, hr]
  | unary op inner ih =>
    rw [ofExpr, bind_eq_ok] at h
    obtain ⟨k, hk, h⟩ := h
    cases k with
    | immediate i =>
      obtain ⟨j, -, rfl⟩ := map_eq_ok.1 h
      have hinner := ih hk
      exact hinner
    | register r => cases h
    | memory m => cases h
  | binary op left right ihl ihr =>
    simp only [ofExpr, bind_eq_ok] at h
    obtain ⟨l, hl, r, hr, h⟩ := h
    rw [isImmediate_combine h, ihl hl, ihr hr, Expr.names, List.all_append]

end OperandKind

namespace ParsedOperand

variable {symbols : String → Option Interval} {p : ParsedOperand} {o : Operand}

/-- An operand is a value if its expression is folded into one outside brackets. -/
theorem classify_kind (h : p.classify symbols = .ok o) :
    ∃ kind, OperandKind.ofExpr symbols p.address p.expr = .ok kind ∧
      o.kind.isImmediate = (!p.address && kind.isImmediate) := by
  obtain ⟨kind, hkind, h⟩ := classify_cases h
  refine ⟨kind, hkind, ?_⟩
  have hfolded : (if p.address then .memory kind.toMemory else kind : OperandKind).isImmediate =
      (!p.address && kind.isImmediate) := by
    cases p.address <;> rfl
  rw [← hfolded]
  rcases h with ⟨r, hr, rfl⟩ | ⟨i, size, hi, rfl⟩ | ⟨m, size, hm, -, rfl⟩
  · rw [hr]
    rfl
  · rw [hi]
    rfl
  · rw [hm]
    rfl

/-- An operand is a value exactly if it has neither brackets nor registers. -/
theorem isImmediate_classify (h : p.classify symbols = .ok o) :
    o.kind.isImmediate = true ↔
      p.address = false ∧ ∀ n ∈ p.expr.names, Register.ofName? n = none := by
  obtain ⟨kind, hkind, hsame⟩ := classify_kind h
  rw [hsame, OperandKind.isImmediate_ofExpr hkind]
  simp

/-- The value in an operand that has one symbol follows the symbol. -/
theorem tracks_classify {n : String} {c : Nat} {v : Immediate} (h : p.classify symbols = .ok o)
    (hterms : p.expr.terms? = some (c, [n])) (hv : o.value? = some v) : v.value.expr.Tracks n := by
  -- With all registers at zero an operand is worth what its value comes out as.
  have hworth : ∀ lookup u, v.value.expr.resolve lookup = .ok u →
      p.expr.value (Register.pointerAt 0) lookup = u.toInt := by
    intro lookup u hu
    cases hkind : o.kind with
    | register r => simp [Operand.value?, Operand.immediate?, Operand.memory?, hkind] at hv
    | immediate i =>
      simp only [Operand.value?, Operand.immediate?, hkind, Option.some_or, Option.some.injEq] at hv
      subst hv
      obtain ⟨j, hj, hvalue⟩ := classify_eq_immediate h hkind
      rw [hvalue] at hu
      exact OperandKind.means_ofExpr hj u hu
    | memory m =>
      simp only [Operand.value?, Operand.immediate?, Operand.memory?, hkind, Option.none_or,
        Option.bind_some] at hv
      have hmeans := @means_classify _ _ _ _ (Register.pointerAt 0) _ h hkind u
        ((Memory.resolveDisp_some hv).trans hu)
      rw [hmeans, Memory.value, Memory.registerValue]
      cases m.base <;> cases m.index <;> simp [Register.pointerAt]
  intro lookup lookup' u u' hu hu'
  have hvalue := Expr.value_of_terms hterms 0 0 lookup lookup'
  rw [hworth lookup u hu, hworth lookup' u' hu'] at hvalue
  simpa using hvalue

/-- An address with the instruction pointer in its sum has it as its base. -/
theorem pointer_classify {ls : List String} {m : Memory} {lookup : String → Option Int64} {u : Int64}
    (h : p.classify symbols = .ok o) (hm : o.kind = .memory m)
    (hterms : p.expr.terms? = some (1, ls)) (hu : m.resolveDisp lookup = .ok u) :
    m.base.any Register.isPointer = true := by
  have hzero := @means_classify _ _ _ _ (Register.pointerAt 0) _ h hm u hu
  have hone := @means_classify _ _ _ _ (Register.pointerAt 1) _ h hm u hu
  have hvalue := Expr.value_of_terms hterms 0 1 lookup lookup
  obtain ⟨hregular, -⟩ := regular_classify h hm
  -- The index never is the instruction pointer, so it is the base that makes the difference.
  have hnone (c : Int) : (m.index.map fun i => Register.pointerAt c i.register * i.scale.toInt).getD 0 =
      0 := by
    cases hi : m.index with
    | none => rfl
    | some i =>
      have hptr : i.register.isPointer = false := by
        simp [Register.isPointer, (Register.isAddress_iff.1 (hregular.index i hi)).1]
      simp [Register.pointerAt, hptr]
  rw [hzero, hone] at hvalue
  simp only [Memory.value, Memory.registerValue, hnone] at hvalue
  cases hbase : m.base with
  | none => simp [hbase] at hvalue
  | some base =>
    by_contra hptr
    simp [hbase, Register.pointerAt] at hvalue hptr
    simp [hptr] at hvalue

/-- A value that waits has a symbol to wait for. -/
theorem symbol_of_waiting {v : Immediate} {x : Expr} {b : Option Interval}
    (h : p.classify symbols = .ok o) (hv : o.value? = some v) (hx : v.value = .symbolic x b) :
    ∃ n, p.Symbol n := by
  obtain ⟨v', hrevised⟩ := (classify_symbols h).value hv
  rw [hx] at hrevised
  cases hrevised with
  | symbolic hwaits hnames _ =>
    obtain ⟨n, hn⟩ := List.exists_mem_of_ne_nil _ hwaits
    exact ⟨n, hnames n hn⟩

/-- An operand that names its labels by distance: it has no symbols and is not the number that a
branch leads to, or it is a label as the target of a branch, or an offset from the instruction
pointer to a label. The label may have constants added and subtracted. -/
def Relocatable (labels : List String) (branch : Bool) (p : ParsedOperand) : Prop :=
  ((∀ n ∈ p.expr.names, (Register.ofName? n).isSome = true) ∧
      ¬ (branch = true ∧ p.address = false ∧ p.expr.names = [])) ∨
    (branch = true ∧ p.address = false ∧ ∃ n ∈ labels, p.expr.terms? = some (0, [n])) ∨
    (p.address = true ∧ ∃ n ∈ labels, p.expr.terms? = some (1, [n]))

instance (labels : List String) (branch : Bool) (p : ParsedOperand) :
    Decidable (p.Relocatable labels branch) :=
  inferInstanceAs (Decidable (_ ∨ _ ∨ _))

namespace Relocatable

variable {labels : List String} {branch : Bool}

theorem of_symbol (hp : p.Relocatable labels branch) {n : String} (hn : p.Symbol n) :
    (branch = true ∧ p.address = false ∧ ∃ n ∈ labels, p.expr.terms? = some (0, [n])) ∨
      (p.address = true ∧ ∃ n ∈ labels, p.expr.terms? = some (1, [n])) := by
  obtain ⟨hname, hnone⟩ := hn
  rcases hp with ⟨hregisters, -⟩ | hlabel
  · have hsome := hregisters n hname
    simp [hnone] at hsome
  · exact hlabel

/-- A displacement that waits follows a label, and the address is counted from the instruction
pointer. -/
theorem displacement (hp : p.Relocatable labels branch) (h : p.classify symbols = .ok o)
    {m : Memory} {d : Immediate} {x : Expr} {b : Option Interval} (hm : o.kind = .memory m)
    (hdisp : m.disp = some d) (hd : d.value = .symbolic x b) :
    (∃ n ∈ labels, x.Tracks n) ∧
      ∀ lookup u, x.resolve lookup = .ok u → m.base.any Register.isPointer = true := by
  have hvalue : o.value? = some d := by
    simp [Operand.value?, Operand.immediate?, Operand.memory?, hm, hdisp]
  obtain ⟨n, hn⟩ := symbol_of_waiting h hvalue hd
  rcases hp.of_symbol hn with ⟨-, haddress, l, hl, hterms⟩ | ⟨-, l, hl, hterms⟩
  · -- A label without brackets is a value, not an address.
    have himmediate := (isImmediate_classify h).2 ⟨haddress, fun n' hn' => by
      rcases Expr.names_of_terms hterms hn' with ⟨hreg, -⟩ | ⟨-, hpos⟩
      · exact hreg
      · omega⟩
    rw [hm] at himmediate
    cases himmediate
  · have htracks := tracks_classify h hterms hvalue
    rw [hd] at htracks
    refine ⟨⟨l, hl, htracks⟩, fun lookup u hu => ?_⟩
    have hresolve : m.resolveDisp lookup = .ok u := by
      rw [Memory.resolveDisp_some hdisp, Immediate.resolve, hd]
      exact hu
    exact pointer_classify h hm hterms hresolve

/-- The target of a branch follows a label. -/
theorem target (hp : p.Relocatable labels true) (h : p.classify symbols = .ok o) {v : Immediate}
    (hv : o.immediate? = some v) : ∃ n ∈ labels, v.value.expr.Tracks n := by
  obtain ⟨haddress, hnames⟩ := (isImmediate_classify h).1 (OperandKind.isImmediate_of_immediate? hv)
  have hvalue : o.value? = some v := by simp [Operand.value?, hv]
  rcases hp with ⟨hregisters, hnumber⟩ | ⟨-, -, l, hl, hterms⟩ | ⟨hbrackets, -⟩
  · -- Without symbols and without registers the target would be a number.
    refine absurd ⟨rfl, haddress, ?_⟩ hnumber
    refine List.eq_nil_iff_forall_not_mem.2 fun n hn => ?_
    have hsome := hregisters n hn
    simp [hnames n hn] at hsome
  · exact ⟨l, hl, tracks_classify h hterms hvalue⟩
  · rw [haddress] at hbrackets
    cases hbrackets

end Relocatable

end ParsedOperand

/-! ## Branches -/

namespace Table

/-- The mnemonics of jumps and calls. -/
def branches : List String :=
  ["jmp", "call"] ++ conditions.flatMap fun condition => condition.2.map ("j" ++ ·)

/-- A slot for the target of a branch. -/
def isTarget : Shape → Bool
  | .rel _ => true
  | _ => false

/-- Branches have targets and no other values, and nothing else has targets. -/
theorem rows_branches : ∀ entry ∈ entries, ∀ row ∈ entry.2, ∀ shape ∈ row.shapes,
    (entry.1 ∈ branches → shape.readsBounds = false) ∧ (isTarget shape = true → entry.1 ∈ branches) := by
  decide +kernel

theorem branches_of_rows? {mnemonic : String} {rows : List Row} (h : rows? mnemonic = some rows)
    {row : Row} (hrow : row ∈ rows) {shape : Shape} (hshape : shape ∈ row.shapes) :
    (mnemonic ∈ branches → shape.readsBounds = false) ∧
      (isTarget shape = true → mnemonic ∈ branches) :=
  rows_branches _ (mem_entries h) row hrow shape hshape

end Table

namespace ParsedInstruction

def Relocatable (labels : List String) (i : ParsedInstruction) : Prop :=
  ∀ p ∈ i.operands, p.Relocatable labels (decide (i.mnemonic ∈ Table.branches))

instance (labels : List String) (i : ParsedInstruction) : Decidable (i.Relocatable labels) :=
  inferInstanceAs (Decidable (∀ _ ∈ _, _))

variable {labels : List String} {i : ParsedInstruction} {t t' : String → Option Interval}

/-- A value in a slot for immediates has no symbols. -/
theorem Relocatable.fixed (hi : i.Relocatable labels) {rows : List Row} {row : Row}
    (hrows : Table.rows? i.mnemonic = some rows) (hrow : row ∈ rows) {operands : List Operand}
    (heval : ParsedOperand.evaluateAll t i.operands = .ok operands) {s : Shape} {o : Operand}
    (hslot : (s, o) ∈ row.shapes.zip operands) (hreads : s.readsBounds = true) {v : Immediate}
    (hv : o.immediate? = some v) {x : Expr} {b : Option Interval} : v.value ≠ .symbolic x b := by
  intro hx
  obtain ⟨hshape, ho⟩ := List.of_mem_zip hslot
  obtain ⟨p, hp, hclassify⟩ := forall₂_mem_right (ParsedOperand.evaluateAll_classify heval) ho
  have hbranch : i.mnemonic ∉ Table.branches := by
    intro hmem
    have hnot := (Table.branches_of_rows? hrows hrow hshape).1 hmem
    rw [hreads] at hnot
    cases hnot
  obtain ⟨haddress, -⟩ := (ParsedOperand.isImmediate_classify hclassify).1
    (OperandKind.isImmediate_of_immediate? hv)
  obtain ⟨n, hn⟩ := ParsedOperand.symbol_of_waiting hclassify (by simp [Operand.value?, hv]) hx
  rcases (hi p hp).of_symbol hn with ⟨hmem, -⟩ | ⟨hbrackets, -⟩
  · exact hbranch (by simpa using hmem)
  · rw [haddress] at hbrackets
    cases hbrackets

/-- **A relocatable instruction is encoded alike whatever the bounds of its symbols are.** -/
theorem encode_relocatable (hi : i.Relocatable labels) (hdefined : ∀ n, (t' n).isNone = (t n).isNone)
    (m : Mode) : (i.encode t' m).toOption = (i.encode t m).toOption := by
  refine encode_matches (r := .unbounded) rfl rfl
    (Revision.matches_unbounded fun n _ => hdefined n) (.inr ?_) m
  rintro rows hrows row hrow operands heval ⟨s, o⟩ hslot
  rw [or_iff_not_imp_left, Bool.not_eq_false]
  intro hreads
  rw [Operand.isSymbolic, Option.any_eq_false]
  intro v hv
  cases hvalue : v.value with
  | fixed u => simp [Immediate.fixed?, hvalue]
  | symbolic x b => exact absurd hvalue (hi.fixed hrows hrow heval hslot hreads hv)

/-- **What a relocatable instruction waits for** are distances to labels. -/
theorem encode_tracks (hi : i.Relocatable labels) {m : Mode} {e : Instruction}
    (h : i.encode t m = .ok e) {kind : FieldKind} {x : Expr}
    (hx : (e.field kind).deferred = some x) :
    (∃ n ∈ labels, x.Tracks n) ∧
      ∀ lookup u, x.resolve lookup = .ok u → (e.field kind).pcRelative = true := by
  obtain ⟨rows, row, operands, prefixes, hrows, hrow, -, heval, -, -, henc⟩ := encode_eq_ok h
  have hsource {o : Operand} (ho : o ∈ operands) : ∃ p ∈ i.operands, p.classify t = .ok o :=
    forall₂_mem_right (ParsedOperand.evaluateAll_classify heval) ho
  cases row.encode_supplied henc hx with
  | displacement ho hm hdisp hd hcounted =>
    obtain ⟨p, hp, hclassify⟩ := hsource ho
    obtain ⟨htracks, hpointer⟩ := (hi p hp).displacement hclassify hm hdisp hd
    exact ⟨htracks, fun lookup u hu => hcounted.trans (hpointer lookup u hu)⟩
  | immediate hslot hreads hv hsymbolic =>
    exact absurd hsymbolic (hi.fixed hrows hrow heval hslot hreads hv)
  | branch hslot hv hexpr hcounted =>
    obtain ⟨hshape, ho⟩ := List.of_mem_zip hslot
    obtain ⟨p, hp, hclassify⟩ := hsource ho
    have hbranch : i.mnemonic ∈ Table.branches := (Table.branches_of_rows? hrows hrow hshape).2 rfl
    have htarget := hi p hp
    rw [decide_eq_true hbranch] at htarget
    exact ⟨hexpr ▸ htarget.target hclassify hv, fun _ _ _ => hcounted⟩

end ParsedInstruction
end IntelAsm
