/-
Computations that can fail, taken apart: from an answer, what every step on
the way answered. Proofs about functions in `Except` peel them with these
equivalences and never unfold the binding itself. What a computation can fail
with is put together from its steps by `FailsWith`, and two computations side by
side are compared by `Parallel`, step by step as well.
-/
import Mathlib.Data.List.Forall2

namespace IntelAsm

variable {ε ε' α β : Type}

theorem bind_eq_ok {first : Except ε α} {next : α → Except ε β} {r : β} :
    (first >>= next) = .ok r ↔ ∃ v, first = .ok v ∧ next v = .ok r := by
  cases first with
  | ok v => simp [bind, Except.bind]
  | error e => simp [bind, Except.bind]

/-- Two continuations that agree on the answer are the same. -/
theorem bind_congr_ok {first : Except ε α} {next next' : α → Except ε β}
    (h : ∀ v, first = .ok v → next v = next' v) : first >>= next = first >>= next' := by
  cases first with
  | ok v => exact h v rfl
  | error e => rfl

theorem map_eq_ok {x : Except ε α} {f : α → β} {b : β} :
    f <$> x = .ok b ↔ ∃ a, x = .ok a ∧ f a = b := by
  cases x with
  | error e => simp [Functor.map, Except.map]
  | ok a => simp [Functor.map, Except.map]

theorem pure_eq_ok {a b : α} : (pure a : Except ε α) = .ok b ↔ a = b := by
  simp [pure, Except.pure]

theorem mapError_eq_ok {answer : Except ε α} {reword : ε → ε'} {v : α} :
    answer.mapError reword = .ok v ↔ answer = .ok v := by
  cases answer with
  | error e => simp [Except.mapError]
  | ok a => simp [Except.mapError]

theorem toOption_eq_some {x : Except ε α} {a : α} : x.toOption = some a ↔ x = .ok a := by
  cases x <;> simp [Except.toOption]

@[simp] theorem toOption_ok (a : α) : (.ok a : Except ε α).toOption = some a := rfl

@[simp] theorem toOption_error (e : ε) : (.error e : Except ε α).toOption = none := rfl

theorem toOption_bind (x : Except ε α) (f : α → Except ε β) :
    (x >>= f).toOption = x.toOption.bind fun a => (f a).toOption := by
  cases x <;> rfl

theorem toOption_map (x : Except ε α) (f : α → β) : (x.map f).toOption = x.toOption.map f := by
  cases x <;> rfl

theorem toOption_mapError (x : Except ε α) (f : ε → ε') :
    (x.mapError f).toOption = x.toOption := by
  cases x <;> rfl

/-- What went wrong, if anything did. -/
def failure? : Except ε α → Option ε
  | .ok _ => none
  | .error e => some e

theorem failure?_eq_none {x : Except ε α} : failure? x = none ↔ ∃ a, x = .ok a := by
  cases x <;> simp [failure?]

/-- A check that raises an error or goes on. -/
theorem guard_eq_ok {c : Prop} [Decidable c] {e : ε} {x : Except ε α} {a : α} :
    (if c then .error e else x) = .ok a ↔ ¬ c ∧ x = .ok a := by
  by_cases hc : c <;> simp [hc]

/-- A list of computations answers element by element. -/
theorem mapM_eq_ok {f : α → Except ε β} {as : List α} {bs : List β} :
    as.mapM f = .ok bs ↔ List.Forall₂ (fun a b => f a = .ok b) as bs := by
  induction as generalizing bs with
  | nil => rw [List.mapM_nil, pure_eq_ok, List.forall₂_nil_left_iff, eq_comm]
  | cons a as ih =>
    simp only [List.mapM_cons, bind_eq_ok, pure_eq_ok, List.forall₂_cons_left_iff, ih]
    constructor
    · rintro ⟨b, hb, bs', hbs, rfl⟩
      exact ⟨b, bs', hb, hbs, rfl⟩
    · rintro ⟨b, bs', hb, hbs, rfl⟩
      exact ⟨b, hb, bs', hbs, rfl⟩

/-- What every step of a fold keeps, the whole fold keeps. -/
theorem foldlM_keeps {f : β → α → Except ε β} {P : β → Prop} {as : List α}
    (step : ∀ b a b', a ∈ as → P b → f b a = .ok b' → P b') {b b' : β} (hb : P b)
    (h : as.foldlM f b = .ok b') : P b' := by
  induction as generalizing b with
  | nil =>
    rw [List.foldlM_nil, pure_eq_ok] at h
    exact h ▸ hb
  | cons a as ih =>
    rw [List.foldlM_cons, bind_eq_ok] at h
    obtain ⟨c, hc, h⟩ := h
    exact ih (fun b a b' ha => step b a b' (by simp [ha])) (step b a c (by simp) hb hc) h

/-- What a step takes from the list and the state so far to the rest and the next state, holds at the
end with nothing left. -/
theorem foldlM_rest {f : β → α → Except ε β} {I : List α → β → Prop}
    (step : ∀ a as b b', I (a :: as) b → f b a = .ok b' → I as b') {as : List α} {b b' : β}
    (hb : I as b) (h : as.foldlM f b = .ok b') : I [] b' := by
  induction as generalizing b with
  | nil =>
    rw [List.foldlM_nil, pure_eq_ok] at h
    exact h ▸ hb
  | cons a as ih =>
    rw [List.foldlM_cons, bind_eq_ok] at h
    obtain ⟨c, hc, h⟩ := h
    exact ih (step a as b c hb hc) h

theorem forall₂_mem_right {R : α → β → Prop} {as : List α} {bs : List β}
    (h : List.Forall₂ R as bs) {b : β} (hb : b ∈ bs) : ∃ a ∈ as, R a b := by
  induction h with
  | nil => simp at hb
  | cons hr _ ih =>
    simp only [List.mem_cons] at hb
    rcases hb with rfl | hb
    · exact ⟨_, by simp, hr⟩
    · obtain ⟨a, ha, hab⟩ := ih hb
      exact ⟨a, by simp [ha], hab⟩

/-! ## Reasons to fail -/

/-- The computation answers, or fails for a reason with the property. -/
inductive FailsWith (P : ε → Prop) : Except ε α → Prop
  | ok (a : α) : FailsWith P (.ok a)
  | error {e : ε} (he : P e) : FailsWith P (.error e)

namespace FailsWith

variable {P : ε → Prop} {x : Except ε α}

theorem reason {e : ε} (h : FailsWith P x) (hx : x = .error e) : P e := by
  cases h with
  | ok a => cases hx
  | error he =>
    cases hx
    exact he

theorem mono {Q : ε → Prop} (h : FailsWith P x) (hPQ : ∀ e, P e → Q e) : FailsWith Q x := by
  cases h with
  | ok a => exact .ok a
  | error he => exact .error (hPQ _ he)

theorem bind_of_ok {f : α → Except ε β} (hx : FailsWith P x)
    (hf : ∀ a, x = .ok a → FailsWith P (f a)) : FailsWith P (x >>= f) := by
  cases hx with
  | ok a => exact hf a rfl
  | error he => exact .error he

theorem bind {f : α → Except ε β} (hx : FailsWith P x) (hf : ∀ a, FailsWith P (f a)) :
    FailsWith P (x >>= f) :=
  hx.bind_of_ok fun a _ => hf a

theorem mapError {Q : ε' → Prop} {f : ε → ε'} (hx : FailsWith P x) (hf : ∀ e, P e → Q (f e)) :
    FailsWith Q (x.mapError f) := by
  cases hx with
  | ok a => exact .ok a
  | error he => exact .error (hf _ he)

theorem map {f : α → β} (hx : FailsWith P x) : FailsWith P (f <$> x) := by
  cases hx with
  | ok a => exact .ok (f a)
  | error he => exact .error he

theorem guard_of {c : Prop} [Decidable c] {e : ε} (he : c → P e) (hx : FailsWith P x) :
    FailsWith P (if c then .error e else x) := by
  by_cases hc : c
  · rw [if_pos hc]
    exact .error (he hc)
  · rw [if_neg hc]
    exact hx

theorem guard {c : Prop} [Decidable c] {e : ε} (he : P e) (hx : FailsWith P x) :
    FailsWith P (if c then .error e else x) :=
  guard_of (fun _ => he) hx

theorem foldlM {f : β → α → Except ε β} {as : List α} (hf : ∀ b, ∀ a ∈ as, FailsWith P (f b a))
    (b : β) : FailsWith P (as.foldlM f b) := by
  induction as generalizing b with
  | nil => exact .ok b
  | cons a as ih =>
    rw [List.foldlM_cons]
    exact (hf b a (by simp)).bind fun b' => ih (fun b c hc => hf b c (by simp [hc])) b'

theorem mapM {f : α → Except ε β} {as : List α} (hf : ∀ a ∈ as, FailsWith P (f a)) :
    FailsWith P (as.mapM f) := by
  induction as with
  | nil => exact .ok []
  | cons a as ih =>
    rw [List.mapM_cons]
    exact (hf a (by simp)).bind fun _ => (ih fun c hc => hf c (by simp [hc])).bind fun _ => .ok _

end FailsWith

/-! ## Two computations -/

/-- Both computations answer, with answers in the relation, or both fail. -/
inductive Parallel (R : α → β → Prop) : Except ε α → Except ε' β → Prop
  | ok {a b} (h : R a b) : Parallel R (.ok a) (.ok b)
  | error {e e'} : Parallel R (.error e) (.error e')

namespace Parallel

variable {γ δ : Type} {R : α → β → Prop} {S : γ → δ → Prop} {x : Except ε α} {y : Except ε' β}

theorem bind {f : α → Except ε γ} {g : β → Except ε' δ} (h : Parallel R x y)
    (hf : ∀ a b, R a b → Parallel S (f a) (g b)) : Parallel S (x >>= f) (y >>= g) := by
  cases h with
  | ok h => exact hf _ _ h
  | error => exact .error

theorem map {f : α → γ} {g : β → δ} (h : Parallel R x y) (hf : ∀ a b, R a b → S (f a) (g b)) :
    Parallel S (f <$> x) (g <$> y) := by
  cases h with
  | ok h => exact .ok (hf _ _ h)
  | error => exact .error

theorem mapError {ε₁ ε₂ : Type} (h : Parallel R x y) (f : ε → ε₁) (g : ε' → ε₂) :
    Parallel R (x.mapError f) (y.mapError g) := by
  cases h with
  | ok h => exact .ok h
  | error => exact .error

theorem guard {c c' : Prop} [Decidable c] [Decidable c'] {e : ε} {e' : ε'} (hc : c' ↔ c)
    (h : Parallel R x y) : Parallel R (if c then .error e else x) (if c' then .error e' else y) := by
  by_cases hcase : c
  · rw [if_pos hcase, if_pos (hc.2 hcase)]
    exact .error
  · rw [if_neg hcase, if_neg (mt hc.1 hcase)]
    exact h

theorem mapM {f : α → Except ε γ} {g : β → Except ε' δ} {as : List α} {bs : List β}
    (h : List.Forall₂ (fun a b => Parallel S (f a) (g b)) as bs) :
    Parallel (List.Forall₂ S) (as.mapM f) (bs.mapM g) := by
  induction h with
  | nil => exact .ok .nil
  | cons hab _ ih =>
    rw [List.mapM_cons, List.mapM_cons]
    exact hab.bind fun c d hcd => ih.bind fun cs ds hrest => .ok (.cons hcd hrest)

end Parallel
end IntelAsm
