/-
What an address means. The evaluator folds an expression into a base, a scaled
index and a displacement; `Expr.value` reads the same expression as a number,
register by register and symbol by symbol, and knows nothing of addresses. The
two agree (`ParsedOperand.value_evaluate`): whatever the registers hold and the
symbols stand for, an operand in memory is at the place that its expression
adds up to.

Values are folded on the way or kept for later, and either way they come out
as the operator applied to them would (`Immediate.resolve_unary`,
`Immediate.resolve_binary`). From there each rule of `OperandKind.combine` is a
law of sums, and the fold as a whole is an induction on the expression with
`OperandKind.Means` as its invariant.
-/
import IntelAsm.Operand.Evaluate
import IntelAsm.Proofs.AddressDecode
import IntelAsm.Proofs.IntervalFacts

namespace IntelAsm

/-! ## Expressions as numbers -/

namespace Expr

/-- The value of an expression over the integers, without overflow. A name is that of a register or
of a symbol; a symbol that stands for nothing counts as zero. -/
def value (content : Register → Int) (lookup : String → Option Int64) : Expr → Int
  | .int v => v.toInt
  | .var name =>
    ((Register.ofName? name).map content).getD (((lookup name).map Int64.toInt).getD 0)
  | .unary op inner => op.denote (inner.value content lookup)
  | .binary op left right => op.denote (left.value content lookup) (right.value content lookup)

variable {lookup : String → Option Int64}

theorem resolve_unary_eq_ok {op : UnaryOp} {e : Expr} {v : Int64}
    (h : (Expr.unary op e).resolve lookup = .ok v) :
    ∃ x, e.resolve lookup = .ok x ∧ v.toInt = op.denote x.toInt := by
  simp only [resolve, arithmetic, bind_eq_ok, mapError_eq_ok, UnaryOp.apply_eq_ok] at h
  exact h

theorem resolve_binary_eq_ok {op : BinaryOp} {a b : Expr} {v : Int64}
    (h : (Expr.binary op a b).resolve lookup = .ok v) :
    ∃ x y, a.resolve lookup = .ok x ∧ b.resolve lookup = .ok y ∧
      v.toInt = op.denote x.toInt y.toInt := by
  simp only [resolve, arithmetic, bind_eq_ok, mapError_eq_ok, BinaryOp.apply_eq_ok] at h
  obtain ⟨x, hx, y, hy, -, hv⟩ := h
  exact ⟨x, y, hx, hy, hv⟩

end Expr

/-! ## Values, folded or kept -/

namespace Immediate

variable {symbols : String → Option Interval} {lookup : String → Option Int64}

/-- What a value comes out as under an assignment of symbols. -/
def resolve (lookup : String → Option Int64) (i : Immediate) : Except ResolveError Int64 :=
  i.value.expr.resolve lookup

/-- A sign in front of a value is applied now or later, with the same outcome. -/
theorem resolve_unary {op : UnaryOp} {i j : Immediate} (h : i.unary symbols op = .ok j) :
    j.resolve lookup = (Expr.unary op i.value.expr).resolve lookup := by
  unfold unary at h
  split at h
  · rename_i v hv
    rw [mapError_eq_ok] at h
    obtain ⟨u, hu, rfl⟩ := map_eq_ok.1 h
    simp [resolve, fixed, hv, ImmValue.expr, Expr.resolve, Expr.arithmetic, bind, Except.bind, hu,
      Except.mapError]
  · rename_i e b hv
    cases h
    rw [hv]
    rfl

/-- So is an operator between two values. -/
theorem resolve_binary {op : BinaryOp} {a b j : Immediate} (h : a.binary symbols op b = .ok j) :
    j.resolve lookup = (Expr.binary op a.value.expr b.value.expr).resolve lookup := by
  unfold binary at h
  split at h
  · rename_i x y hx hy
    rw [mapError_eq_ok] at h
    obtain ⟨u, hu, rfl⟩ := map_eq_ok.1 h
    simp [resolve, fixed, hx, hy, ImmValue.expr, Expr.resolve, Expr.arithmetic, bind, Except.bind, hu,
      Except.mapError]
  · split at h
    · cases h
      rfl
    · cases h
  · cases h
    rfl

theorem resolve_unary_eq_ok {op : UnaryOp} {i j : Immediate} {v : Int64}
    (h : i.unary symbols op = .ok j) (hv : j.resolve lookup = .ok v) :
    ∃ x, i.resolve lookup = .ok x ∧ v.toInt = op.denote x.toInt :=
  Expr.resolve_unary_eq_ok (resolve_unary h ▸ hv)

theorem resolve_binary_eq_ok {op : BinaryOp} {a b j : Immediate} {v : Int64}
    (h : a.binary symbols op b = .ok j) (hv : j.resolve lookup = .ok v) :
    ∃ x y, a.resolve lookup = .ok x ∧ b.resolve lookup = .ok y ∧
      v.toInt = op.denote x.toInt y.toInt :=
  Expr.resolve_binary_eq_ok (resolve_binary h ▸ hv)

end Immediate

/-! ## Addresses -/

namespace Memory

variable {symbols : String → Option Interval} {lookup : String → Option Int64}

/-- What the displacement of an address comes out as; one that is absent is zero. -/
def resolveDisp (lookup : String → Option Int64) (m : Memory) : Except ResolveError Int64 :=
  match m.disp with
  | none => .ok 0
  | some d => d.resolve lookup

theorem resolveDisp_none {m : Memory} (h : m.disp = none) : m.resolveDisp lookup = .ok 0 := by
  rw [resolveDisp, h]

theorem resolveDisp_some {m : Memory} {d : Immediate} (h : m.disp = some d) :
    m.resolveDisp lookup = d.resolve lookup := by
  rw [resolveDisp, h]

/-- The value of an address does not depend on the displacement it was written with. -/
theorem value_withDisp (m : Memory) (disp : Option Immediate) (d : Int) (content : Register → Int) :
    value { m with disp } d content = m.registerValue content + d := rfl

/-- An address with `d` behind it: where the displacement comes out as a number, it is the sum or the
difference, and the registers are the same. -/
theorem value_shift {op : BinaryOp} {m m' : Memory} {d : Immediate} {v : Int64}
    (hop : op = .add ∨ op = .sub) (h : m.shift symbols op d = .ok m')
    (hv : m'.resolveDisp lookup = .ok v) (content : Register → Int) :
    ∃ x y, m.resolveDisp lookup = .ok x ∧ d.resolve lookup = .ok y ∧
      m'.value v.toInt content = op.denote (m.value x.toInt content) y.toInt := by
  cases hm : m.disp with
  | some old =>
    simp only [shift, hm, bind_eq_ok, pure_eq_ok] at h
    obtain ⟨disp, hdisp, rfl⟩ := h
    obtain ⟨x, y, hx, hy, hsum⟩ := Immediate.resolve_binary_eq_ok hdisp hv
    refine ⟨x, y, by rw [resolveDisp_some hm, hx], hy, ?_⟩
    rw [value_withDisp, hsum]
    rcases hop with rfl | rfl <;> simp only [BinaryOp.denote, value] <;> omega
  | none =>
    have hzero : m.resolveDisp lookup = .ok 0 := resolveDisp_none hm
    rcases hop with rfl | rfl
    · simp only [shift, hm, reduceCtorEq, if_false, bind_eq_ok, pure_eq_ok] at h
      obtain ⟨disp, hdisp, rfl⟩ := h
      cases hdisp
      refine ⟨0, v, hzero, hv, ?_⟩
      rw [value_withDisp]
      simp only [BinaryOp.denote, value, Int64.toInt_zero]
      omega
    · simp only [shift, hm, if_true, bind_eq_ok, pure_eq_ok] at h
      obtain ⟨disp, hdisp, rfl⟩ := h
      obtain ⟨y, hy, hneg⟩ := Immediate.resolve_unary_eq_ok hdisp hv
      refine ⟨0, y, hzero, hy, ?_⟩
      rw [value_withDisp, hneg]
      simp only [BinaryOp.denote, UnaryOp.denote, value, Int64.toInt_zero]
      omega

/-- An address with `d` in front of it. -/
theorem value_shiftFront {m m' : Memory} {d : Immediate} {v : Int64}
    (h : m.shiftFront symbols d = .ok m') (hv : m'.resolveDisp lookup = .ok v)
    (content : Register → Int) :
    ∃ x y, d.resolve lookup = .ok x ∧ m.resolveDisp lookup = .ok y ∧
      m'.value v.toInt content = x.toInt + m.value y.toInt content := by
  cases hm : m.disp with
  | some old =>
    simp only [shiftFront, hm, bind_eq_ok, pure_eq_ok] at h
    obtain ⟨disp, hdisp, rfl⟩ := h
    obtain ⟨x, y, hx, hy, hsum⟩ := Immediate.resolve_binary_eq_ok hdisp hv
    refine ⟨x, y, hx, by rw [resolveDisp_some hm, hy], ?_⟩
    rw [value_withDisp, hsum]
    simp only [BinaryOp.denote, value]
    omega
  | none =>
    simp only [shiftFront, hm, bind_eq_ok, pure_eq_ok] at h
    obtain ⟨disp, hdisp, rfl⟩ := h
    cases hdisp
    refine ⟨v, 0, hv, resolveDisp_none hm, ?_⟩
    rw [value_withDisp]
    simp only [value, Int64.toInt_zero]
    omega

theorem value_addBase (lookup : String → Option Int64) {m m' : Memory} {r : Register}
    (h : m.addBase r = .ok m') :
    m'.resolveDisp lookup = m.resolveDisp lookup ∧
      ∀ d content, m'.value d content = m.value d content + content r := by
  unfold addBase at h
  split at h
  · cases h
  · rename_i hbase
    cases h
    refine ⟨rfl, fun d content => ?_⟩
    simp only [value, registerValue, hbase, Option.map_some, Option.map_none, Option.getD_some,
      Option.getD_none]
    omega

/-- A factor is a constant, so it is the same number now and later. -/
theorem value_scaled (lookup : String → Option Int64) {m : Memory} {r : Register}
    {factor : Immediate} (h : scaled r factor = .ok m) :
    ∃ scale, factor.resolve lookup = .ok scale ∧
      ∀ d content, m.value d content = content r * scale.toInt + d := by
  unfold scaled at h
  split at h
  · rename_i scale hscale
    cases h
    refine ⟨scale, ?_, fun d content => ?_⟩
    · unfold Immediate.fixed? at hscale
      split at hscale
      · rename_i v hv
        cases hscale
        rw [Immediate.resolve, hv]
        rfl
      · cases hscale
    · simp [value, registerValue, empty]
  · cases h

theorem resolveDisp_scaled (lookup : String → Option Int64) {m : Memory} {r : Register}
    {factor : Immediate} (h : scaled r factor = .ok m) : m.resolveDisp lookup = .ok 0 := by
  unfold scaled at h
  split at h
  · cases h
    rfl
  · cases h

end Memory

/-! ## The fold -/

namespace OperandKind

variable {symbols : String → Option Interval} {lookup : String → Option Int64}
  {content : Register → Int}

/-- The operand stands for the number `n`: a register by its content, a value by what it comes out
as, an address by the sum of its parts. Where a value or a displacement comes out as nothing, there is
nothing to say. -/
def Means (content : Register → Int) (lookup : String → Option Int64) (n : Int) : OperandKind → Prop
  | .register r => n = content r
  | .immediate i => ∀ v, i.resolve lookup = .ok v → n = v.toInt
  | .memory m => ∀ d, m.resolveDisp lookup = .ok d → n = m.value d.toInt content

/-- A register and a displacement. -/
theorem means_based (r : Register) {d : Immediate} {n : Int}
    (hd : (OperandKind.immediate d).Means content lookup n) :
    (memory { Memory.empty with base := some r, disp := some d }).Means content lookup
      (content r + n) := by
  intro v hv
  have hn : n = v.toInt := hd v hv
  simp [Memory.value, Memory.registerValue, Memory.empty, hn]

/-- The address with a register added, on either side. -/
theorem means_addBase {m m' : Memory} {r : Register} {n : Int}
    (hm : (memory m).Means content lookup n) (h : m.addBase r = .ok m') :
    (memory m').Means content lookup (n + content r) := by
  intro d hd
  obtain ⟨hdisp, hvalue⟩ := Memory.value_addBase lookup h
  rw [hdisp] at hd
  rw [hvalue, hm d hd]

/-- A register times a factor, on either side. -/
theorem means_scaled {m : Memory} {r : Register} {factor : Immediate} {n : Int}
    (hfactor : (OperandKind.immediate factor).Means content lookup n)
    (h : Memory.scaled r factor = .ok m) :
    (memory m).Means content lookup (content r * n) := by
  intro d hd
  obtain ⟨scale, hscale, hvalue⟩ := Memory.value_scaled lookup h
  have hzero := Memory.resolveDisp_scaled lookup h
  rw [hzero] at hd
  cases hd
  rw [hvalue, hfactor scale hscale, Int64.toInt_zero, Int.add_zero]

theorem means_shift {op : BinaryOp} {m m' : Memory} {d : Immediate} {a b : Int}
    (hop : op = .add ∨ op = .sub) (hm : (memory m).Means content lookup a)
    (hd : (OperandKind.immediate d).Means content lookup b) (h : m.shift symbols op d = .ok m') :
    (memory m').Means content lookup (op.denote a b) := by
  intro v hv
  obtain ⟨x, y, hx, hy, hvalue⟩ := Memory.value_shift hop h hv content
  rw [hvalue, hm x hx, hd y hy]

/-- **An operator between operands** means what it means between their numbers. -/
theorem means_combine {op : BinaryOp} {l r kind : OperandKind} {a b : Int}
    (hl : l.Means content lookup a) (hr : r.Means content lookup b)
    (h : combine symbols op l r = .ok kind) : kind.Means content lookup (op.denote a b) := by
  unfold combine at h
  split at h
  · -- Two values.
    obtain ⟨j, hj, rfl⟩ := map_eq_ok.1 h
    intro v hv
    obtain ⟨x, y, hx, hy, hval⟩ := Immediate.resolve_binary_eq_ok hj hv
    rw [hl x hx, hr y hy, hval]
  · -- A register and a value, in either order and with either sign.
    cases h
    cases hl
    exact means_based _ hr
  · cases h
    cases hr
    rw [BinaryOp.denote, Int.add_comm]
    exact means_based _ hl
  · simp only [bind_eq_ok, pure_eq_ok] at h
    obtain ⟨d, hd, rfl⟩ := h
    cases hl
    rw [BinaryOp.denote, Int.sub_eq_add_neg]
    refine means_based _ fun v hv => ?_
    obtain ⟨x, hx, hneg⟩ := Immediate.resolve_unary_eq_ok hd hv
    rw [hr x hx, hneg]
    rfl
  · -- Two registers.
    cases h
    cases hl
    cases hr
    rintro d hd
    cases hd
    simp [BinaryOp.denote, Memory.value, Memory.registerValue]
  · -- A register times a factor.
    obtain ⟨m, hm, rfl⟩ := map_eq_ok.1 h
    cases hl
    exact means_scaled hr hm
  · obtain ⟨m, hm, rfl⟩ := map_eq_ok.1 h
    cases hr
    rw [BinaryOp.denote, Int.mul_comm]
    exact means_scaled hl hm
  · -- An address and a register.
    obtain ⟨m, hm, rfl⟩ := map_eq_ok.1 h
    cases hr
    exact means_addBase hl hm
  · obtain ⟨m, hm, rfl⟩ := map_eq_ok.1 h
    cases hl
    rw [BinaryOp.denote, Int.add_comm]
    exact means_addBase hr hm
  · -- An address and a value.
    obtain ⟨m, hm, rfl⟩ := map_eq_ok.1 h
    exact means_shift (.inl rfl) hl hr hm
  · obtain ⟨m, hm, rfl⟩ := map_eq_ok.1 h
    exact means_shift (.inr rfl) hl hr hm
  · obtain ⟨m, hm, rfl⟩ := map_eq_ok.1 h
    intro v hv
    obtain ⟨x, y, hx, hy, hvalue⟩ := Memory.value_shiftFront hm hv content
    rw [hvalue, hl x hx, hr y hy]
    rfl
  · cases h

/-- **The fold keeps the value**: an operand stands for the number that its expression adds up to. -/
theorem means_ofExpr {inAddress : Bool} {e : Expr} {kind : OperandKind}
    (h : ofExpr symbols inAddress e = .ok kind) :
    kind.Means content lookup (e.value content lookup) := by
  induction e generalizing kind with
  | int v =>
    cases h
    intro u hu
    cases hu
    rfl
  | var name =>
    cases hr : Register.ofName? name with
    | some r =>
      simp only [ofExpr, hr] at h
      cases h
      simp only [Expr.value, hr]
      rfl
    | none =>
      simp only [ofExpr, hr, guard_eq_ok] at h
      obtain ⟨-, h⟩ := h
      cases h
      intro v hv
      simp only [Expr.value, hr, Option.map_none, Option.getD_none]
      simp only [Immediate.resolve, Immediate.symbolic, ImmValue.expr, Expr.resolve] at hv
      split at hv
      · rename_i u hu
        cases hv
        simp [hu]
      · cases hv
  | unary op inner ih =>
    simp only [ofExpr, bind_eq_ok] at h
    obtain ⟨operand, hinner, h⟩ := h
    split at h
    · obtain ⟨j, hj, rfl⟩ := map_eq_ok.1 h
      intro v hv
      obtain ⟨x, hx, hval⟩ := Immediate.resolve_unary_eq_ok hj hv
      have hmeans : inner.value content lookup = x.toInt := ih hinner x hx
      rw [Expr.value, hmeans, hval]
    · cases h
  | binary op left right ihl ihr =>
    simp only [ofExpr, bind_eq_ok] at h
    obtain ⟨l, hl, r, hr, h⟩ := h
    exact means_combine (ihl hl) (ihr hr) h

/-- Brackets around an operand make it an address with the same value. -/
theorem Means.toMemory {kind : OperandKind} {n : Int} (h : kind.Means content lookup n) :
    (memory kind.toMemory).Means content lookup n := by
  cases kind with
  | register r =>
    intro d hd
    cases hd
    cases h
    simp [OperandKind.toMemory, Memory.value, Memory.registerValue, Memory.empty]
  | immediate i =>
    intro d hd
    have hn : n = d.toInt := h d hd
    simp [OperandKind.toMemory, Memory.value, Memory.registerValue, Memory.empty, hn]
  | memory m => exact h

end OperandKind

namespace ParsedOperand

variable {symbols : String → Option Interval}

/-- An operand in memory is the address that its expression was folded into; what else it was
declared with does not count. -/
theorem means_classify {p : ParsedOperand} {o : Operand} {m : Memory} {content : Register → Int}
    {lookup : String → Option Int64} (h : p.classify symbols = .ok o) (hm : o.kind = .memory m) :
    (OperandKind.memory m).Means content lookup (p.expr.value content lookup) := by
  obtain ⟨kind, hkind, h⟩ := classify_cases h
  have hmeans : (if p.address then .memory kind.toMemory else kind : OperandKind).Means content lookup
      (p.expr.value content lookup) := by
    split
    · exact (OperandKind.means_ofExpr hkind).toMemory
    · exact OperandKind.means_ofExpr hkind
  rcases h with ⟨r, -, rfl⟩ | ⟨i, size, -, rfl⟩ | ⟨m', size, hfolded, -, rfl⟩
  · cases hm
  · cases hm
  · rw [hfolded] at hmeans
    cases hm
    exact hmeans

/-- **Evaluation keeps the address.** For every expression and every table of symbols: if the operand
is a place in memory, then whatever the registers hold, and whatever the symbols stand for as long as
the displacement comes out as a number, the expression read over the integers is the base plus the
scaled index plus that number. -/
theorem value_evaluate {p : ParsedOperand} {o : Operand} {m : Memory}
    (h : p.evaluate symbols = .ok o) (hm : o.kind = .memory m) {lookup : String → Option Int64}
    {d : Int64} (hd : m.resolveDisp lookup = .ok d) (content : Register → Int) :
    p.expr.value content lookup = m.value d.toInt content := by
  rw [evaluate, mapError_eq_ok] at h
  exact means_classify h hm d hd

/-- The operand `[2 + rbx*(1 + 3) - end + rcx]`, with `end` at 16. -/
theorem value_evaluate_difference :
    ∃ p o m, p.expr = .binary .add (.binary .sub (.binary .add (.int 2)
          (.binary .mul (.var "rbx") (.binary .add (.int 1) (.int 3)))) (.var "end")) (.var "rcx") ∧
      ParsedOperand.evaluate (fun _ => none) p = .ok o ∧ o.kind = .memory m ∧
      m.resolveDisp (fun _ => some 16) = .ok (-14) ∧
      ∀ content, p.expr.value content (fun _ => some 16) =
        content (.general .qword 1) + content (.general .qword 3) * 4 - 14 := by
  let p : ParsedOperand := ⟨none, false, true, none, none, .binary .add (.binary .sub (.binary .add
    (.int 2) (.binary .mul (.var "rbx") (.binary .add (.int 1) (.int 3)))) (.var "end")) (.var "rcx"),
    .nowhere⟩
  let m : Memory := ⟨some (.general .qword 1), some ⟨.general .qword 3, 4⟩,
    some (.symbolic (.binary .sub (.int 2) (.var "end")) none), some .qword, none⟩
  have heval : (p.evaluate fun _ => none).toOption = some (.ofMemory m none .nowhere) := by
    decide +kernel
  have hdisp : (m.resolveDisp fun _ => some 16).toOption = some (-14) := by decide
  rw [toOption_eq_some] at heval hdisp
  refine ⟨p, _, m, rfl, heval, rfl, hdisp, fun content => ?_⟩
  rw [value_evaluate heval rfl hdisp content]
  show content (.general .qword 1) + content (.general .qword 3) * 4 + -14 = _
  omega

end ParsedOperand
end IntelAsm
