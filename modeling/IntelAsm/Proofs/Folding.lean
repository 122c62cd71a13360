/-
Values are computed twice. The evaluator computes what it can before addresses
are known and leaves the rest as a tree; linking resolves the tree. Together
they are one evaluation (`OperandKind.resolve_ofExpr`): what is left of an
expression comes out as the expression itself would, under every assignment of
symbols, with the same value or with the same failure.

Nothing constant is left for later (`Expr.Folded`): every operator of the tree
has a symbol below it, and an expression without symbols is a number at once.
The invariant of the fold is `Immediate.Folds`, with a lemma for each operator.
-/
import IntelAsm.Proofs.AddressValue
import IntelAsm.Proofs.SymbolicImmediate

namespace IntelAsm

/-! ## What is left of an expression -/

namespace Expr

/-- No operator has only constants below it. -/
def Folded : Expr → Prop
  | .int _ | .var _ => True
  | .unary _ inner => inner.names ≠ [] ∧ inner.Folded
  | .binary _ left right => left.names ++ right.names ≠ [] ∧ left.Folded ∧ right.Folded

variable {lookup : String → Option Int64} {a a' b b' : Expr}

theorem resolve_unary_congr (op : UnaryOp) (ha : a.resolve lookup = a'.resolve lookup) :
    (unary op a).resolve lookup = (unary op a').resolve lookup := by
  rw [resolve, resolve, ha]

/-- Of two operands that fail it is the first that is reported, so both have to agree. -/
theorem resolve_binary_congr (op : BinaryOp) (ha : a.resolve lookup = a'.resolve lookup)
    (hb : b.resolve lookup = b'.resolve lookup) :
    (binary op a b).resolve lookup = (binary op a' b').resolve lookup := by
  rw [resolve, resolve, ha, hb]

end Expr

namespace Immediate

variable {symbols : String → Option Interval}

/-- The value is what the evaluator leaves of `e`: it comes out as `e` does, it has the symbols of
`e`, and it is a number if there are none. -/
structure Folds (e : Expr) (i : Immediate) : Prop where
  resolve : ∀ lookup, i.resolve lookup = e.resolve lookup
  names : i.value.expr.names = e.names
  folded : i.value.expr.Folded
  fixed_iff : i.fixed?.isSome = true ↔ e.names = []

theorem fixed?_of_fixed {i : Immediate} {v : Int64} (h : i.value = .fixed v) :
    i.fixed? = some v := by
  rw [fixed?, h]

theorem fixed?_of_symbolic {i : Immediate} {e : Expr} {b : Option Interval}
    (h : i.value = .symbolic e b) : i.fixed? = none := by
  rw [fixed?, h]

namespace Folds

variable {e e' : Expr} {i i' j : Immediate}

theorem names_eq_nil {v : Int64} (h : i.Folds e) (hv : i.value = .fixed v) : e.names = [] :=
  h.fixed_iff.1 (by rw [fixed?_of_fixed hv]; rfl)

theorem names_ne_nil {x : Expr} {b : Option Interval} (h : i.Folds e)
    (hv : i.value = .symbolic x b) : e.names ≠ [] := by
  intro hnames
  have hfixed := h.fixed_iff.2 hnames
  rw [fixed?_of_symbolic hv] at hfixed
  cases hfixed

/-- A number for an expression without symbols. -/
theorem ofFixed {v : Int64} (hnames : e.names = [])
    (hresolve : ∀ lookup, (fixed v).resolve lookup = e.resolve lookup) : (fixed v).Folds e where
  resolve := hresolve
  names := hnames.symm
  folded := trivial
  fixed_iff := iff_of_true rfl hnames

/-- A tree for an expression with symbols. -/
theorem ofTree {x : Expr} {b : Option Interval} (hnames : e.names ≠ []) (hx : x.names = e.names)
    (hfolded : x.Folded) (hresolve : ∀ lookup, x.resolve lookup = e.resolve lookup) :
    (symbolic x b).Folds e where
  resolve := hresolve
  names := hx
  folded := hfolded
  fixed_iff := iff_of_false nofun hnames

/-- **A sign** is applied to a number and put in front of a tree. -/
theorem unary {op : UnaryOp} (h : i.Folds e) (hj : i.unary symbols op = .ok j) :
    j.Folds (.unary op e) := by
  have hresolve : ∀ lookup, j.resolve lookup = (Expr.unary op e).resolve lookup := fun lookup =>
    (resolve_unary hj).trans (Expr.resolve_unary_congr op (h.resolve lookup))
  have hnames := h.names
  have hfolded := h.folded
  unfold Immediate.unary at hj
  split at hj
  · rename_i v hv
    rw [mapError_eq_ok] at hj
    obtain ⟨u, -, rfl⟩ := map_eq_ok.1 hj
    exact ofFixed (h.names_eq_nil hv) hresolve
  · rename_i x b hv
    cases hj
    rw [hv] at hnames hfolded
    have hne := h.names_ne_nil hv
    exact ofTree hne hnames ⟨by rw [ImmValue.expr] at hnames; rwa [hnames], hfolded⟩ hresolve

/-- **An operator** is applied to two numbers and put between anything else. -/
theorem binary {op : BinaryOp} (h : i.Folds e) (h' : i'.Folds e')
    (hj : i.binary symbols op i' = .ok j) : j.Folds (.binary op e e') := by
  have hresolve : ∀ lookup, j.resolve lookup = (Expr.binary op e e').resolve lookup := fun lookup =>
    (resolve_binary hj).trans (Expr.resolve_binary_congr op (h.resolve lookup) (h'.resolve lookup))
  -- The tree of both, which is left unless both are numbers.
  have htree : (e.names ≠ [] ∨ e'.names ≠ []) →
      j = ofExpr symbols (.binary op i.value.expr i'.value.expr) → j.Folds (.binary op e e') := by
    rintro hne rfl
    have happend : e.names ++ e'.names ≠ [] := by
      rcases hne with hne | hne
      · exact List.append_ne_nil_of_left_ne_nil hne _
      · exact List.append_ne_nil_of_right_ne_nil _ hne
    refine ofTree happend ?_ ⟨?_, h.folded, h'.folded⟩ hresolve
    · rw [Expr.names, h.names, h'.names]
      rfl
    · rw [h.names, h'.names]
      exact happend
  unfold Immediate.binary at hj
  split at hj
  · rename_i x y hx hy
    rw [mapError_eq_ok] at hj
    obtain ⟨u, -, rfl⟩ := map_eq_ok.1 hj
    refine ofFixed ?_ hresolve
    rw [Expr.names, h.names_eq_nil hx, h'.names_eq_nil hy]
    rfl
  · rename_i hx hy
    split at hj
    · exact htree (.inl (h.names_ne_nil hx)) (Except.ok.inj hj).symm
    · cases hj
  · rename_i hfixed _
    refine htree ?_ (Except.ok.inj hj).symm
    cases hx : i.value with
    | symbolic x b => exact .inl (h.names_ne_nil hx)
    | fixed x =>
      cases hy : i'.value with
      | symbolic y b => exact .inr (h'.names_ne_nil hy)
      | fixed y => exact absurd hy (hfixed x y hx)

end Folds
end Immediate

/-! ## The fold -/

namespace OperandKind

variable {symbols : String → Option Interval}

/-- What is left of an expression that is a value, by induction on the expression. -/
theorem folds_ofExpr {inAddress : Bool} {e : Expr} {i : Immediate}
    (h : ofExpr symbols inAddress e = .ok (.immediate i)) : i.Folds e := by
  induction e generalizing i with
  | int v =>
    cases h
    exact .ofFixed rfl fun _ => rfl
  | var name =>
    cases hr : Register.ofName? name with
    | some r =>
      simp only [ofExpr, hr] at h
      cases h
    | none =>
      simp only [ofExpr, hr, guard_eq_ok] at h
      obtain ⟨-, h⟩ := h
      cases h
      exact .ofTree (List.cons_ne_nil name []) rfl trivial fun _ => rfl
  | unary op inner ih =>
    simp only [ofExpr, bind_eq_ok] at h
    obtain ⟨operand, hinner, h⟩ := h
    split at h
    · obtain ⟨j, hj, heq⟩ := map_eq_ok.1 h
      cases heq
      exact (ih hinner).unary hj
    · cases h
  | binary op left right ihl ihr =>
    simp only [ofExpr, bind_eq_ok] at h
    obtain ⟨l, hl, r, hr, h⟩ := h
    obtain ⟨a, b, rfl, rfl, hab⟩ := combine_eq_immediate h
    exact (ihl hl).binary (ihr hr) hab

/-- **Folding agrees with resolving.** For every expression that is a value, in brackets or not and
whatever the bounds of symbols: what the evaluator leaves of it comes out as the expression itself,
under every assignment, with the same value, the same undefined symbol or the same failure of
arithmetic. It is a number exactly if the expression has no symbols, and otherwise a tree without
constant parts. -/
theorem resolve_ofExpr {inAddress : Bool} {e : Expr} {i : Immediate}
    (h : ofExpr symbols inAddress e = .ok (.immediate i)) :
    (∀ lookup : String → Option Int64, i.value.expr.resolve lookup = e.resolve lookup) ∧
      (i.fixed?.isSome = true ↔ e.names = []) ∧ i.value.expr.Folded :=
  have hfolds := folds_ofExpr h
  ⟨hfolds.resolve, hfolds.fixed_iff, hfolds.folded⟩

/-- The value `(end - (2 + 3)) / (4 - 4)`: the divisor is folded to zero and the rest is left. Without
`end` it is the symbol that is reported, and with `end` at the least value it is the overflow of the
difference and not the divisor. -/
theorem resolve_ofExpr_quotient :
    ∃ (e : Expr) (i : Immediate),
      e = .binary .div (.binary .sub (.var "end") (.binary .add (.int 2) (.int 3)))
        (.binary .sub (.int 4) (.int 4)) ∧
      ofExpr (fun _ => some ⟨0, 9⟩) false e = .ok (.immediate i) ∧
      i.value.expr = .binary .div (.binary .sub (.var "end") (.int 5)) (.int 0) ∧
      (e.resolve fun _ => none) = .error (.undefined "end") ∧
      (e.resolve fun _ => some Int64.minValue) = .error (.arith .overflow) ∧
      (e.resolve fun _ => some 7) = .error (.arith .divisionByZero) := by
  have hkind : (ofExpr (fun _ => some ⟨0, 9⟩) false (.binary .div (.binary .sub (.var "end")
      (.binary .add (.int 2) (.int 3))) (.binary .sub (.int 4) (.int 4)))).toOption =
        some (.immediate (.symbolic (.binary .div (.binary .sub (.var "end") (.int 5)) (.int 0)) none)) := by
    decide +kernel
  rw [toOption_eq_some] at hkind
  have hresolve := (resolve_ofExpr hkind).1
  refine ⟨_, _, rfl, hkind, rfl, ?_, ?_, ?_⟩
  · rw [← hresolve]
    rfl
  · rw [← hresolve]
    rfl
  · rw [← hresolve]
    rfl

end OperandKind
end IntelAsm
