/-
Interval arithmetic is sound: an expression with bounds has a value for every
choice of its symbols within theirs, and the value lies within the bounds
(`Expr.resolve_of_bounds`).

Overflow is where the work is. `exact64` refuses at the ends of the intervals
only, and a value between two 64-bit integers is one itself
(`exact64_of_between`), so it is enough to find, for each operation, an end
below and an end above the result. For sums that is immediate. Products and
quotients are monotone in each operand or antitone in it, which of the two
depending on the sign of the other one; either way the result lies between
those at the two ends of the operand (`Between`), and going from end to end
once for each operand leads to two of the four corners.

Bounds are also no wider than they have to be where nothing is open: over
symbols with one possible value each they are the value of the expression, and
missing only if it has none (`Expr.bounds_of_fixed`).
-/
import IntelAsm.Symbols
import IntelAsm.Proofs.Failure

namespace IntelAsm

theorem exact64_of_between {lo hi : Int64} {n : Int} (hlo : lo.toInt ≤ n) (hhi : n ≤ hi.toInt) :
    ∃ v, exact64 n = .ok v ∧ v.toInt = n := by
  have hmin := lo.minValue_le_toInt
  have hmax := hi.toInt_le
  have h : exact64 n = .ok (Int64.ofInt n) := if_pos ⟨by omega, by omega⟩
  exact ⟨_, h, exact64_eq_ok_iff.1 h⟩

theorem UnaryOp.apply_eq_ok {op : UnaryOp} {v u : Int64} :
    op.apply v = .ok u ↔ u.toInt = op.denote v.toInt := exact64_eq_ok_iff

theorem BinaryOp.apply_eq_ok {op : BinaryOp} {a b c : Int64} :
    op.apply a b = .ok c ↔ ¬ (op = .div ∧ b = 0) ∧ c.toInt = op.denote a.toInt b.toInt := by
  rw [BinaryOp.apply, guard_eq_ok, exact64_eq_ok_iff]

/-- The value lies between two others, whichever of them is the smaller. -/
def Between (p x q : Int) : Prop := (p ≤ x ∧ x ≤ q) ∨ (q ≤ x ∧ x ≤ p)

theorem Between.mul_right {a x b : Int} (ha : a ≤ x) (hb : x ≤ b) (t : Int) :
    Between (a * t) (x * t) (b * t) := by
  rcases Int.le_total 0 t with ht | ht
  · exact .inl ⟨Int.mul_le_mul_of_nonneg_right ha ht, Int.mul_le_mul_of_nonneg_right hb ht⟩
  · exact .inr ⟨Int.mul_le_mul_of_nonpos_right hb ht, Int.mul_le_mul_of_nonpos_right ha ht⟩

theorem Between.mul_left {a x b : Int} (ha : a ≤ x) (hb : x ≤ b) (t : Int) :
    Between (t * a) (t * x) (t * b) := by
  simpa only [Int.mul_comm t] using Between.mul_right ha hb t

theorem Between.tdiv {a x b d : Int} (ha : a ≤ x) (hb : x ≤ b) (hd : d ≠ 0) :
    Between (a.tdiv d) (x.tdiv d) (b.tdiv d) := by
  rcases Int.lt_or_gt_of_ne hd with hneg | hpos
  · -- A negative divisor turns the order round: divide by its opposite and negate.
    have h1 := Int.tdiv_le_tdiv (c := -d) (by omega) ha
    have h2 := Int.tdiv_le_tdiv (c := -d) (by omega) hb
    simp only [Int.tdiv_neg] at h1 h2
    exact .inr ⟨by omega, by omega⟩
  · exact .inl ⟨Int.tdiv_le_tdiv hpos ha, Int.tdiv_le_tdiv hpos hb⟩

namespace Interval

theorem mem_iff {b : Interval} {v : Int64} :
    b.Mem v ↔ b.min.toInt ≤ v.toInt ∧ v.toInt ≤ b.max.toInt := by
  rw [Interval.Mem, Int64.le_iff_toInt_le, Int64.le_iff_toInt_le]

theorem mem_exact (v : Int64) : (exact v).Mem v :=
  mem_iff.2 ⟨Int.le_refl _, Int.le_refl _⟩

/-- Every value of `a` is one of `b`. -/
def Within (a b : Interval) : Prop := b.min.toInt ≤ a.min.toInt ∧ a.max.toInt ≤ b.max.toInt

theorem Within.refl (a : Interval) : a.Within a := ⟨Int.le_refl _, Int.le_refl _⟩

theorem Within.trans {a b c : Interval} (hab : a.Within b) (hbc : b.Within c) : a.Within c :=
  ⟨Int.le_trans hbc.1 hab.1, Int.le_trans hab.2 hbc.2⟩

theorem Within.mem {a b : Interval} (h : a.Within b) {v : Int64} (hv : a.Mem v) : b.Mem v := by
  rw [mem_iff] at hv ⊢
  exact ⟨Int.le_trans h.1 hv.1, Int.le_trans hv.2 h.2⟩

theorem union_min (a b : Interval) : (a.union b).min.toInt = Min.min a.min.toInt b.min.toInt := by
  simp only [union, Int64.lt_iff_toInt_lt]
  split <;> omega

theorem union_max (a b : Interval) : (a.union b).max.toInt = Max.max a.max.toInt b.max.toInt := by
  simp only [union, Int64.lt_iff_toInt_lt]
  split <;> omega

theorem within_union_left (a b : Interval) : a.Within (a.union b) := by
  rw [Within, union_min, union_max]
  omega

theorem within_union_right (a b : Interval) : b.Within (a.union b) := by
  rw [Within, union_min, union_max]
  omega

/-! ## Hulls -/

theorem within_foldl_union (vs : List Int64) (b : Interval) :
    b.Within (vs.foldl (fun b w => b.union (exact w)) b) := by
  induction vs generalizing b with
  | nil => exact .refl b
  | cons w vs ih => exact (within_union_left b (exact w)).trans (ih _)

theorem mem_foldl_union {vs : List Int64} {b : Interval} {w : Int64} (hw : w ∈ vs) :
    (vs.foldl (fun b w => b.union (exact w)) b).Mem w := by
  induction vs generalizing b with
  | nil => simp at hw
  | cons v vs ih =>
    simp only [List.mem_cons] at hw
    rcases hw with rfl | hw
    · exact ((within_union_right b (exact w)).trans (within_foldl_union vs _)).mem (mem_exact w)
    · exact ih hw

theorem mem_hull {v w : Int64} {vs : List Int64} (hw : w ∈ v :: vs) : (hull v vs).Mem w := by
  simp only [List.mem_cons] at hw
  rcases hw with rfl | hw
  · exact (within_foldl_union vs (exact w)).mem (mem_exact w)
  · exact mem_foldl_union hw

/-- What lies between two values of the list lies in its hull, and is a 64-bit integer. -/
theorem exists_mem_hull {v lo hi : Int64} {vs : List Int64} {n : Int} (hlo : lo ∈ v :: vs)
    (hhi : hi ∈ v :: vs) (h1 : lo.toInt ≤ n) (h2 : n ≤ hi.toInt) :
    ∃ u, exact64 n = .ok u ∧ u.toInt = n ∧ (hull v vs).Mem u := by
  obtain ⟨u, hu, hn⟩ := exact64_of_between h1 h2
  have hl := mem_iff.1 (mem_hull hlo)
  have hh := mem_iff.1 (mem_hull hhi)
  exact ⟨u, hu, hn, mem_iff.2 ⟨by omega, by omega⟩⟩

/-! ## Operations -/

theorem unary_of_ends {op : UnaryOp} {lo hi v : Int64} (h1 : lo.toInt ≤ op.denote v.toInt)
    (h2 : op.denote v.toInt ≤ hi.toInt) : ∃ u, op.apply v = .ok u ∧ (Interval.mk lo hi).Mem u := by
  obtain ⟨u, hu, hn⟩ := exact64_of_between h1 h2
  exact ⟨u, hu, mem_iff.2 ⟨by rw [hn]; exact h1, by rw [hn]; exact h2⟩⟩

theorem binary_of_ends {op : BinaryOp} {lo hi x y : Int64} (hop : op ≠ .div)
    (h1 : lo.toInt ≤ op.denote x.toInt y.toInt) (h2 : op.denote x.toInt y.toInt ≤ hi.toInt) :
    ∃ z, op.apply x y = .ok z ∧ (Interval.mk lo hi).Mem z := by
  obtain ⟨z, -, hz⟩ := exact64_of_between h1 h2
  refine ⟨z, BinaryOp.apply_eq_ok.2 ⟨fun h => hop h.1, hz⟩, mem_iff.2 ⟨?_, ?_⟩⟩
  · rw [hz]; exact h1
  · rw [hz]; exact h2

theorem unary_sound {op : UnaryOp} {b c : Interval} (h : b.unary op = some c) {v : Int64}
    (hv : b.Mem v) : ∃ u, op.apply v = .ok u ∧ c.Mem u := by
  rw [mem_iff] at hv
  cases op with
  | plus =>
    cases h
    exact ⟨v, UnaryOp.apply_eq_ok.2 rfl, mem_iff.2 hv⟩
  | neg | not =>
    simp only [unary, bind, Option.bind_eq_some_iff, toOption_eq_some, UnaryOp.apply_eq_ok,
      Option.pure_def, Option.some.injEq] at h
    obtain ⟨lo, hlo, hi, hhi, rfl⟩ := h
    simp only [UnaryOp.denote] at hlo hhi
    apply unary_of_ends
    · simp only [UnaryOp.denote]; omega
    · simp only [UnaryOp.denote]; omega

/-- A result that lies between those at the ends of either operand has bounds in the corners. -/
theorem corners_sound {op : BinaryOp} {a b c : Interval} (h : corners op a b = some c) {x y : Int64}
    (hy : ¬ (op = .div ∧ y = 0))
    (hl : Between (op.denote a.min.toInt y.toInt) (op.denote x.toInt y.toInt)
      (op.denote a.max.toInt y.toInt))
    (hr : ∀ t, Between (op.denote t b.min.toInt) (op.denote t y.toInt) (op.denote t b.max.toInt)) :
    ∃ z, op.apply x y = .ok z ∧ c.Mem z := by
  simp only [corners, bind, Option.bind_eq_some_iff, toOption_eq_some, BinaryOp.apply_eq_ok,
    Option.pure_def, Option.some.injEq] at h
  obtain ⟨p, ⟨-, hp⟩, q, ⟨-, hq⟩, r, ⟨-, hr'⟩, s, ⟨-, hs⟩, rfl⟩ := h
  have hmin := hr a.min.toInt
  have hmax := hr a.max.toInt
  rw [← hp, ← hq] at hmin
  rw [← hr', ← hs] at hmax
  unfold Between at hl hmin hmax
  have hlow : ∃ lo ∈ [p, q, r, s], lo.toInt ≤ op.denote x.toInt y.toInt := by
    simp only [List.mem_cons, List.not_mem_nil, or_false, exists_eq_or_imp, exists_eq_left]
    omega
  have hhigh : ∃ hi ∈ [p, q, r, s], op.denote x.toInt y.toInt ≤ hi.toInt := by
    simp only [List.mem_cons, List.not_mem_nil, or_false, exists_eq_or_imp, exists_eq_left]
    omega
  obtain ⟨lo, hlo, h1⟩ := hlow
  obtain ⟨hi, hhi, h2⟩ := hhigh
  obtain ⟨z, -, hz, hmem⟩ := exists_mem_hull hlo hhi h1 h2
  exact ⟨z, BinaryOp.apply_eq_ok.2 ⟨hy, hz⟩, hmem⟩

theorem binary_sound {op : BinaryOp} {a b c : Interval} (h : a.binary op b = some c) {x y : Int64}
    (hx : a.Mem x) (hy : b.Mem y) : ∃ z, op.apply x y = .ok z ∧ c.Mem z := by
  rw [mem_iff] at hx hy
  cases op with
  | add | sub =>
    simp only [binary, bind, Option.bind_eq_some_iff, toOption_eq_some, BinaryOp.apply_eq_ok,
      Option.pure_def, Option.some.injEq] at h
    obtain ⟨lo, ⟨-, hlo⟩, hi, ⟨-, hhi⟩, rfl⟩ := h
    simp only [BinaryOp.denote] at hlo hhi
    apply binary_of_ends (by simp)
    · simp only [BinaryOp.denote]; omega
    · simp only [BinaryOp.denote]; omega
  | mul => exact corners_sound h (by simp) (.mul_right hx.1 hx.2 _) (.mul_left hy.1 hy.2)
  | div =>
    simp only [binary] at h
    split at h
    · rename_i hb
      obtain ⟨heq, hne⟩ := hb
      rw [← heq] at hy
      have hy' : y = b.min := Int64.toInt_inj.1 (by omega)
      subst hy'
      have hd : b.min.toInt ≠ 0 := fun h0 => hne (Int64.toInt_inj.1 (by rw [h0, Int64.toInt_zero]))
      refine corners_sound h (by simp [hne]) (.tdiv hx.1 hx.2 hd) fun t => ?_
      rw [← heq]
      exact .inl ⟨Int.le_refl _, Int.le_refl _⟩
    · cases h

/-! ## Known operands -/

theorem unary_exact (op : UnaryOp) (v : Int64) :
    (exact v).unary op = (op.apply v).toOption.map exact := by
  cases op with
  | plus => simp [unary, UnaryOp.apply, UnaryOp.denote]
  | neg | not =>
    simp only [unary, exact]
    cases UnaryOp.apply _ v <;> rfl

theorem union_self (b : Interval) : b.union b = b := by
  simp [union]

theorem corners_exact (op : BinaryOp) (a b : Int64) :
    corners op (exact a) (exact b) = (op.apply a b).toOption.map exact := by
  simp only [corners, exact]
  cases op.apply a b with
  | error e => rfl
  | ok v => exact congrArg some (by simp only [hull, List.foldl, union_self])

theorem binary_exact (op : BinaryOp) (a b : Int64) :
    (exact a).binary op (exact b) = (op.apply a b).toOption.map exact := by
  cases op with
  | add | sub =>
    simp only [binary, exact]
    cases BinaryOp.apply _ a b <;> rfl
  | mul => exact corners_exact .mul a b
  | div =>
    simp only [binary]
    by_cases hb : b = 0
    · simp [exact, hb, BinaryOp.apply]
    · rw [if_pos ⟨rfl, hb⟩]
      exact corners_exact .div a b

end Interval

namespace Expr

/-- The symbols of an expression. -/
def names : Expr → List String
  | .int _ => []
  | .var name => [name]
  | .unary _ inner => inner.names
  | .binary _ left right => left.names ++ right.names

/-- **Bounds are sound**: if the symbols of an expression have values within their bounds, then an
expression with bounds has a value, within them. -/
theorem resolve_of_bounds {symbols : String → Option Interval} {lookup : String → Option Int64}
    {e : Expr} {b : Interval} (h : e.bounds symbols = some b)
    (hs : ∀ name ∈ e.names, ∀ c, symbols name = some c → ∃ v, lookup name = some v ∧ c.Mem v) :
    ∃ v, e.resolve lookup = .ok v ∧ b.Mem v := by
  induction e generalizing b with
  | int v =>
    cases h
    exact ⟨v, rfl, Interval.mem_exact v⟩
  | var name =>
    obtain ⟨v, hv, hmem⟩ := hs name (by simp [names]) b h
    exact ⟨v, by simp [resolve, hv], hmem⟩
  | unary op inner ih =>
    simp only [bounds, bind, Option.bind_eq_some_iff] at h
    obtain ⟨c, hc, h⟩ := h
    obtain ⟨v, hv, hmem⟩ := ih hc hs
    obtain ⟨u, hu, hmem'⟩ := Interval.unary_sound h hmem
    refine ⟨u, ?_, hmem'⟩
    simp only [resolve, bind_eq_ok]
    exact ⟨v, hv, by simp [arithmetic, mapError_eq_ok, hu]⟩
  | binary op left right ihl ihr =>
    simp only [bounds, bind, Option.bind_eq_some_iff] at h
    obtain ⟨c, hc, d, hd, h⟩ := h
    simp only [names, List.mem_append] at hs
    obtain ⟨x, hx, hmemx⟩ := ihl hc fun name hn => hs name (.inl hn)
    obtain ⟨y, hy, hmemy⟩ := ihr hd fun name hn => hs name (.inr hn)
    obtain ⟨z, hz, hmem⟩ := Interval.binary_sound h hmemx hmemy
    refine ⟨z, ?_, hmem⟩
    simp only [resolve, bind_eq_ok]
    exact ⟨x, hx, y, hy, by simp [arithmetic, mapError_eq_ok, hz]⟩

/-- **Bounds of known symbols** are the value of the expression, if it has one. -/
theorem bounds_of_fixed {symbols : String → Option Interval} {lookup : String → Option Int64}
    {e : Expr} (hs : ∀ name ∈ e.names, symbols name = (lookup name).map .exact) :
    e.bounds symbols = (e.resolve lookup).toOption.map .exact := by
  induction e with
  | int v => rfl
  | var name =>
    simp only [bounds, hs name (by simp [names]), resolve]
    cases lookup name <;> rfl
  | unary op inner ih =>
    simp only [bounds, ih hs, resolve, toOption_bind, arithmetic, toOption_mapError]
    cases (inner.resolve lookup).toOption with
    | none => rfl
    | some v => exact Interval.unary_exact op v
  | binary op left right ihl ihr =>
    simp only [names, List.mem_append] at hs
    simp only [bounds, ihl fun name hn => hs name (.inl hn), ihr fun name hn => hs name (.inr hn),
      resolve, toOption_bind, arithmetic, toOption_mapError]
    cases (left.resolve lookup).toOption with
    | none => rfl
    | some a =>
      cases (right.resolve lookup).toOption with
      | none => rfl
      | some b => exact Interval.binary_exact op a b

end Expr

/-! ## Tables of symbols -/

/-- The assignment gives every symbol of the table a value within its bounds. -/
def Symbols.Admits (t : Symbols) (lookup : String → Option Int64) : Prop :=
  ∀ name b, t.get? name = some b → ∃ v, lookup name = some v ∧ b.Mem v

/-- **Interval arithmetic is sound** for every assignment that a table of symbols admits: an
expression with bounds has a value, between them. Where the symbols leave no choice it has bounds
exactly if it has a value, and both are that value. -/
theorem Expr.resolve_within_bounds {t : Symbols} {lookup : String → Option Int64}
    (hs : t.Admits lookup) (e : Expr) :
    (∀ b, e.bounds t.get? = some b →
        ∃ v, e.resolve lookup = .ok v ∧ b.min ≤ v ∧ v ≤ b.max) ∧
      ((∀ name ∈ e.names, t.get? name = (lookup name).map .exact) →
        e.bounds t.get? = (e.resolve lookup).toOption.map .exact) :=
  ⟨fun _ hb => resolve_of_bounds hb fun name _ => hs name, bounds_of_fixed⟩

/-- The quotient by minus one of a symbol that stops one short of the least value, which has no
opposite: the bounds reach to the greatest value, and there is an assignment that takes it. -/
theorem Expr.resolve_within_bounds_opposite :
    ∃ (t : Symbols) (lookup : String → Option Int64) (e : Expr) (v : Int64),
      t = Symbols.empty.define "a" ⟨Int64.minValue + 1, 5⟩ ∧
      lookup = (fun name => if name = "a" then some (Int64.minValue + 1) else none) ∧
      e = .binary .div (.var "a") (.int (-1)) ∧ t.Admits lookup ∧
      e.bounds t.get? = some ⟨-5, Int64.maxValue⟩ ∧
      e.resolve lookup = .ok v ∧ -5 ≤ v ∧ v ≤ Int64.maxValue ∧
      (Expr.binary .div (.int Int64.minValue) (.int (-1))).bounds t.get? = none := by
  have hs : (Symbols.empty.define "a" ⟨Int64.minValue + 1, 5⟩).Admits
      fun name => if name = "a" then some (Int64.minValue + 1) else none := by
    intro name b hb
    rw [Symbols.get?_define] at hb
    split at hb
    · rename_i hname
      cases hb
      exact ⟨_, if_pos hname, by decide⟩
    · cases hb
  have hb : (Expr.binary .div (.var "a") (.int (-1))).bounds
      (Symbols.empty.define "a" ⟨Int64.minValue + 1, 5⟩).get? =
        some ⟨-5, Int64.maxValue⟩ := by decide +kernel
  obtain ⟨v, hv, hmin, hmax⟩ := (Expr.resolve_within_bounds hs _).1 _ hb
  exact ⟨_, _, _, v, rfl, rfl, rfl, hs, hb, hv, hmin, hmax, by decide +kernel⟩

end IntelAsm
