/-
What the parser knows of the end of a statement. In front of two ends of
statements, whichever they are and whatever stands behind them, every
production reads the same tokens alike (`Parsed.Agree`): it gives the same
value and stops at the same place, or it fails at the same place with the same
report, up to how the report names the end. One failure is different. Where an
expression is missing the end itself is taken for its first token, and the
tokens left are those behind the end.

Expressions are read with fuel that grows with the number of tokens ahead, so
the two runs differ in fuel as well; the bounds are those under which it never
runs out. With twice the same end this says that the fuel does not matter.
-/
import IntelAsm.Statement.Parse

namespace IntelAsm

theorem TokenKind.endsStatement_iff {kind : TokenKind} :
    kind.endsStatement = true ↔ kind = .newline ∨ kind = .eof := by
  cases kind <;> simp [endsStatement]

/-- The end of a statement and the tokens behind it. -/
structure Ending where
  token : Token
  rest : List Token
  ends : token.kind.endsStatement = true

namespace Ending

/-- The tokens of a statement followed by its end. -/
def after (e : Ending) (ts : List Token) : List Token := ts ++ e.token :: e.rest

@[simp] theorem after_nil (e : Ending) : e.after [] = e.token :: e.rest := rfl

@[simp] theorem after_cons (e : Ending) (t : Token) (ts : List Token) :
    e.after (t :: ts) = t :: e.after ts := rfl

theorem length_after (e : Ending) (ts : List Token) :
    (e.after ts).length = ts.length + e.rest.length + 1 := by
  rw [after, List.length_append, List.length_cons, Nat.add_assoc]

theorem kind_ne (e : Ending) {kind : TokenKind} (h : kind.endsStatement = false) :
    e.token.kind ≠ kind := by
  intro heq
  have hends := e.ends
  rw [heq, h] at hends
  cases hends

theorem kind_eq (e : Ending) : e.token.kind = .newline ∨ e.token.kind = .eof :=
  TokenKind.endsStatement_iff.1 e.ends

end Ending

/-- The same report at two ends of statements: it may name the end and stand there. -/
inductive Reworded (a b : Token) : ParseFailure → ParseFailure → Prop where
  | same (f : ParseFailure) : Reworded a b f f
  | noExpression : Reworded a b ⟨.noExpression a.shown, a.span⟩ ⟨.noExpression b.shown, b.span⟩
  | expected (what : String) :
    Reworded a b ⟨.expected what a.shown, a.span⟩ ⟨.expected what b.shown, b.span⟩
  | segmentWithoutAddress :
    Reworded a b ⟨.segmentWithoutAddress, a.span⟩ ⟨.segmentWithoutAddress, b.span⟩

theorem Reworded.eq_of_same {a : Token} {f g : ParseFailure} (h : Reworded a a f g) : f = g := by
  cases h <;> rfl

namespace Parsed

variable {α β : Type} {a b : Ending} {ts ts' : List Token}

/-- Two results of reading `ts` in front of two ends. -/
inductive Agree (a b : Ending) (ts : List Token) : Parsed α → Parsed α → Prop where
  | ok {value : α} {left : List Token} (hleft : left <:+ ts) :
    Agree a b ts (.ok value (a.after left)) (.ok value (b.after left))
  | fail {f g : ParseFailure} {left : List Token} (hleft : left <:+ ts)
    (hword : Reworded a.token b.token f g) :
    Agree a b ts (.fail f (a.after left)) (.fail g (b.after left))
  | broke : Agree a b ts (.fail ⟨.noExpression a.token.shown, a.token.span⟩ a.rest)
    (.fail ⟨.noExpression b.token.shown, b.token.span⟩ b.rest)

namespace Agree

theorem mono {p q : Parsed α} (h : Agree a b ts p q) (hts : ts <:+ ts') : Agree a b ts' p q := by
  cases h with
  | ok hleft => exact .ok (hleft.trans hts)
  | fail hleft hword => exact .fail (hleft.trans hts) hword
  | broke => exact .broke

theorem andThen {p q : Parsed α} {f g : α → List Token → Parsed β} (h : Agree a b ts p q)
    (hnext : ∀ value left, left <:+ ts →
      Agree a b left (f value (a.after left)) (g value (b.after left))) :
    Agree a b ts (p.andThen f) (q.andThen g) := by
  cases h with
  | ok hleft => exact (hnext _ _ hleft).mono hleft
  | fail hleft hword => exact .fail hleft hword
  | broke => exact .broke

/-- A closing token is there in front of both ends, or missing in front of both. -/
theorem close (kind : TokenKind) (hkind : kind.endsStatement = false) (what : String)
    (value : Span → α) :
    Agree a b ts
      (if (Parse.peek (a.after ts)).kind = kind then
        .ok (value (Parse.peek (a.after ts)).span) (a.after ts).tail
      else .fail ⟨.expected what (Parse.peek (a.after ts)).shown, (Parse.peek (a.after ts)).span⟩
        (a.after ts))
      (if (Parse.peek (b.after ts)).kind = kind then
        .ok (value (Parse.peek (b.after ts)).span) (b.after ts).tail
      else .fail ⟨.expected what (Parse.peek (b.after ts)).shown, (Parse.peek (b.after ts)).span⟩
        (b.after ts)) := by
  cases ts with
  | nil =>
    have hend : ∀ e : Ending, (Parse.peek (e.after [])).kind ≠ kind := fun e => e.kind_ne hkind
    rw [if_neg (hend a), if_neg (hend b)]
    exact .fail (List.suffix_refl []) (.expected what)
  | cons t ts =>
    have hpeek : ∀ e : Ending, Parse.peek (e.after (t :: ts)) = t := fun _ => rfl
    rw [hpeek, hpeek]
    by_cases ht : t.kind = kind
    · rw [if_pos ht, if_pos ht]
      exact .ok (List.suffix_cons t ts)
    · rw [if_neg ht, if_neg ht]
      exact .fail (List.suffix_refl (t :: ts)) (.same _)

end Agree
end Parsed

namespace Parse

open Parsed (Agree)

variable {a b : Ending} {ts : List Token}

/-! ## Expressions -/

theorem number_agree (n : Int) (span last : Span) :
    Agree a b ts (number n span last (a.after ts)) (number n span last (b.after ts)) := by
  unfold number
  split
  · exact .ok (List.suffix_refl ts)
  · exact .fail (List.suffix_refl ts) (.same _)

theorem noExpression_agree (t : Token) :
    Agree a b ts (noExpression t (a.after ts)) (noExpression t (b.after ts)) := by
  unfold noExpression
  split
  · exact .fail (List.suffix_refl ts) (.same _)
  · exact .fail (List.suffix_refl ts) (.same _)

theorem noExpression_end (e : Ending) : noExpression e.token e.rest =
    .fail ⟨.noExpression e.token.shown, e.token.span⟩ e.rest := by
  unfold noExpression
  split
  · rename_i hk
    exact absurd hk (e.kind_ne rfl)
  · rfl

theorem sign?_end (e : Ending) : sign? e.token.kind = none := by
  rcases e.kind_eq with h | h <;> rw [h] <;> rfl

theorem additive?_end (e : Ending) : additive? e.token.kind = none := by
  rcases e.kind_eq with h | h <;> rw [h] <;> rfl

theorem multiplicative?_end (e : Ending) : multiplicative? e.token.kind = none := by
  rcases e.kind_eq with h | h <;> rw [h] <;> rfl

/-- No operator, no sum; with or without fuel. -/
theorem sumTail_end (e : Ending) (fuel : Nat) (left : ParsedExpr) :
    sumTail fuel left (e.after []) = .ok left (e.after []) := by
  cases fuel with
  | zero => rfl
  | succ fuel =>
    rw [Ending.after_nil]
    simp only [sumTail, peekKind, peek, additive?_end]

theorem productTail_end (e : Ending) (fuel : Nat) (left : ParsedExpr) :
    productTail fuel left (e.after []) = .ok left (e.after []) := by
  cases fuel with
  | zero => rfl
  | succ fuel =>
    rw [Ending.after_nil]
    simp only [productTail, peekKind, peek, multiplicative?_end]

/-- The end of a statement is no expression, and it is consumed. -/
theorem atom_end (e : Ending) (fuel : Nat) : atom (fuel + 1) (e.after []) =
    .fail ⟨.noExpression e.token.shown, e.token.span⟩ e.rest := by
  rw [Ending.after_nil, ← noExpression_end]
  rcases e.kind_eq with h | h <;> simp only [atom, peek, h, List.tail_cons]

theorem signed_end (e : Ending) (fuel : Nat) :
    signed (fuel + 1) (e.after []) = atom fuel (e.after []) := by
  rw [Ending.after_nil]
  simp only [signed, peekKind, peek, sign?_end]

theorem expr_end (e : Ending) : expr (e.after []) =
    .fail ⟨.noExpression e.token.shown, e.token.span⟩ e.rest := by
  simp only [expr, exprFuel, sum, product, signed_end, atom_end, Parsed.andThen]

/-- Expressions read with `n` steps agree with those read with any other number that suffices. -/
structure ExprAgree (a b : Ending) (n : Nat) : Prop where
  sum : ∀ {m : Nat} {ts : List Token}, 4 * ts.length + 4 ≤ n → 4 * ts.length + 4 ≤ m →
    Agree a b ts (Parse.sum n (a.after ts)) (Parse.sum m (b.after ts))
  sumTail : ∀ {m : Nat} {ts : List Token} (left : ParsedExpr), 4 * ts.length ≤ n → 4 * ts.length ≤ m →
    Agree a b ts (Parse.sumTail n left (a.after ts)) (Parse.sumTail m left (b.after ts))
  product : ∀ {m : Nat} {ts : List Token}, 4 * ts.length + 3 ≤ n → 4 * ts.length + 3 ≤ m →
    Agree a b ts (Parse.product n (a.after ts)) (Parse.product m (b.after ts))
  productTail : ∀ {m : Nat} {ts : List Token} (left : ParsedExpr), 4 * ts.length ≤ n →
    4 * ts.length ≤ m →
    Agree a b ts (Parse.productTail n left (a.after ts)) (Parse.productTail m left (b.after ts))
  signed : ∀ {m : Nat} {ts : List Token}, 4 * ts.length + 2 ≤ n → 4 * ts.length + 2 ≤ m →
    Agree a b ts (Parse.signed n (a.after ts)) (Parse.signed m (b.after ts))
  atom : ∀ {m : Nat} {ts : List Token}, 4 * ts.length + 1 ≤ n → 4 * ts.length + 1 ≤ m →
    Agree a b ts (Parse.atom n (a.after ts)) (Parse.atom m (b.after ts))

section Step

variable {n m : Nat} (ih : ExprAgree a b n)

include ih

theorem sum_step (hn : 4 * ts.length + 4 ≤ n + 1) (hm : 4 * ts.length + 4 ≤ m + 1) :
    Agree a b ts (sum (n + 1) (a.after ts)) (sum (m + 1) (b.after ts)) := by
  simp only [sum]
  refine (ih.product (by omega) (by omega)).andThen fun left rest hrest => ?_
  have hlen := hrest.length_le
  exact ih.sumTail left (by omega) (by omega)

theorem product_step (hn : 4 * ts.length + 3 ≤ n + 1) (hm : 4 * ts.length + 3 ≤ m + 1) :
    Agree a b ts (product (n + 1) (a.after ts)) (product (m + 1) (b.after ts)) := by
  simp only [product]
  refine (ih.signed (by omega) (by omega)).andThen fun left rest hrest => ?_
  have hlen := hrest.length_le
  exact ih.productTail left (by omega) (by omega)

theorem sumTail_step (t : Token) (left : ParsedExpr) (hn : 4 * (t :: ts).length ≤ n + 1)
    (hm : 4 * (t :: ts).length ≤ m + 1) :
    Agree a b (t :: ts) (sumTail (n + 1) left (a.after (t :: ts)))
      (sumTail (m + 1) left (b.after (t :: ts))) := by
  rw [List.length_cons] at hn hm
  simp only [sumTail, Ending.after_cons, peekKind, peek, List.tail_cons]
  split
  · exact .ok (List.suffix_refl (t :: ts))
  · rename_i op hop
    refine Agree.mono ?_ (List.suffix_cons t ts)
    refine (ih.product (by omega) (by omega)).andThen fun right rest hrest => ?_
    have hlen := hrest.length_le
    exact ih.sumTail _ (by omega) (by omega)

theorem productTail_step (t : Token) (left : ParsedExpr) (hn : 4 * (t :: ts).length ≤ n + 1)
    (hm : 4 * (t :: ts).length ≤ m + 1) :
    Agree a b (t :: ts) (productTail (n + 1) left (a.after (t :: ts)))
      (productTail (m + 1) left (b.after (t :: ts))) := by
  rw [List.length_cons] at hn hm
  simp only [productTail, Ending.after_cons, peekKind, peek, List.tail_cons]
  split
  · exact .ok (List.suffix_refl (t :: ts))
  · rename_i op hop
    refine Agree.mono ?_ (List.suffix_cons t ts)
    refine (ih.signed (by omega) (by omega)).andThen fun right rest hrest => ?_
    have hlen := hrest.length_le
    exact ih.productTail _ (by omega) (by omega)

theorem atom_step (hn : 4 * ts.length + 1 ≤ n + 1) (hm : 4 * ts.length + 1 ≤ m + 1) :
    Agree a b ts (atom (n + 1) (a.after ts)) (atom (m + 1) (b.after ts)) := by
  cases ts with
  | nil =>
    rw [atom_end, atom_end]
    exact .broke
  | cons t ts =>
    rw [List.length_cons] at hn hm
    simp only [atom, Ending.after_cons, peek, List.tail_cons]
    refine Agree.mono ?_ (List.suffix_cons t ts)
    split
    · exact number_agree _ _ _
    · exact .ok (List.suffix_refl ts)
    · refine (ih.sum (by omega) (by omega)).andThen fun inner rest hrest => ?_
      exact Agree.close .closeParen rfl "')'" fun span => ParsedExpr.mk inner.expr span
    · exact noExpression_agree t

theorem signed_step (hn : 4 * ts.length + 2 ≤ n + 1) (hm : 4 * ts.length + 2 ≤ m + 1) :
    Agree a b ts (signed (n + 1) (a.after ts)) (signed (m + 1) (b.after ts)) := by
  cases ts with
  | nil =>
    rw [signed_end, signed_end]
    exact ih.atom (by omega) (by omega)
  | cons t ts =>
    rw [List.length_cons] at hn hm
    cases hsign : sign? t.kind with
    | none =>
      rw [Ending.after_cons, Ending.after_cons]
      simp only [signed, peekKind, peek, hsign]
      show Agree a b (t :: ts) (atom n (a.after (t :: ts))) (atom m (b.after (t :: ts)))
      exact ih.atom (by rw [List.length_cons]; omega) (by rw [List.length_cons]; omega)
    | some op =>
      refine Agree.mono ?_ (List.suffix_cons t ts)
      by_cases hnumber : op = .neg ∧ ∃ u us k, ts = u :: us ∧ u.kind = .number k
      · obtain ⟨rfl, u, us, k, rfl, hk⟩ := hnumber
        simp only [Ending.after_cons, signed, peekKind, peek, List.tail_cons, hsign, hk]
        exact (number_agree _ _ _).mono (List.suffix_cons u us)
      · -- Not a negative number, and the end of the statement is no number either.
        have hnext : ∀ (e : Ending) (fuel : Nat), signed (fuel + 1) (e.after (t :: ts)) =
            (signed fuel (e.after ts)).andThen fun inner rest =>
              .ok ⟨.unary op inner.expr, inner.last⟩ rest := by
          intro e fuel
          simp only [Ending.after_cons, signed, peekKind, peek, List.tail_cons, hsign]
          split
          · rename_i k hk
            refine absurd ⟨rfl, ?_⟩ hnumber
            cases ts with
            | nil => exact absurd hk (e.kind_ne rfl)
            | cons u us => exact ⟨u, us, k, rfl, hk⟩
          · rfl
        rw [hnext, hnext]
        refine (ih.signed (by omega) (by omega)).andThen fun inner rest hrest => ?_
        exact .ok (List.suffix_refl rest)

end Step

/-- **Expressions agree**, by induction on the steps of the first run. -/
theorem exprAgree (a b : Ending) : ∀ n, ExprAgree a b n
  | 0 =>
    { sum := fun hn _ => absurd hn (by omega)
      sumTail := fun {m ts} left hn _ => by
        obtain rfl : ts = [] := List.eq_nil_of_length_eq_zero (by omega)
        rw [sumTail_end, sumTail_end]
        exact .ok (List.suffix_refl [])
      product := fun hn _ => absurd hn (by omega)
      productTail := fun {m ts} left hn _ => by
        obtain rfl : ts = [] := List.eq_nil_of_length_eq_zero (by omega)
        rw [productTail_end, productTail_end]
        exact .ok (List.suffix_refl [])
      signed := fun hn _ => absurd hn (by omega)
      atom := fun hn _ => absurd hn (by omega) }
  | n + 1 =>
    { sum := fun {m ts} hn hm => by
        obtain ⟨m, rfl⟩ : ∃ k, m = k + 1 := ⟨m - 1, by omega⟩
        exact sum_step (exprAgree a b n) hn hm
      sumTail := fun {m ts} left hn hm => by
        cases ts with
        | nil =>
          rw [sumTail_end, sumTail_end]
          exact .ok (List.suffix_refl [])
        | cons t ts =>
          obtain ⟨m, rfl⟩ : ∃ k, m = k + 1 := ⟨m - 1, by rw [List.length_cons] at hm; omega⟩
          exact sumTail_step (exprAgree a b n) t left hn hm
      product := fun {m ts} hn hm => by
        obtain ⟨m, rfl⟩ : ∃ k, m = k + 1 := ⟨m - 1, by omega⟩
        exact product_step (exprAgree a b n) hn hm
      productTail := fun {m ts} left hn hm => by
        cases ts with
        | nil =>
          rw [productTail_end, productTail_end]
          exact .ok (List.suffix_refl [])
        | cons t ts =>
          obtain ⟨m, rfl⟩ : ∃ k, m = k + 1 := ⟨m - 1, by rw [List.length_cons] at hm; omega⟩
          exact productTail_step (exprAgree a b n) t left hn hm
      signed := fun {m ts} hn hm => by
        obtain ⟨m, rfl⟩ : ∃ k, m = k + 1 := ⟨m - 1, by omega⟩
        exact signed_step (exprAgree a b n) hn hm
      atom := fun {m ts} hn hm => by
        obtain ⟨m, rfl⟩ : ∃ k, m = k + 1 := ⟨m - 1, by omega⟩
        exact atom_step (exprAgree a b n) hn hm }

theorem expr_agree (a b : Ending) (ts : List Token) :
    Agree a b ts (expr (a.after ts)) (expr (b.after ts)) := by
  have ha := a.length_after ts
  have hb := b.length_after ts
  unfold expr exprFuel
  exact (exprAgree a b _).sum (by omega) (by omega)

/-! ## Operands -/

/-- A step that cannot fail reads `ts` alike in front of two ends. -/
def Same {α : Type} (a b : Ending) (ts : List Token) (step : List Token → α × List Token) : Prop :=
  ∃ value left, left <:+ ts ∧ step (a.after ts) = (value, a.after left) ∧
    step (b.after ts) = (value, b.after left)

/-- The width that a token asks for if it is a size word. -/
def sizeOf? (t : Token) : Option Width := if t.kind = .ident then sizeWord? t.text else none

/-- Whether a size word in front of a token of that kind is a symbol. -/
def leavesSymbol (next : TokenKind) : Bool :=
  next.endsStatement || next = .comma || next = .closeBracket

theorem size_none (h : sizeOf? (peek ts) = none) : size ts = (none, ts) := by
  rw [sizeOf?] at h
  simp only [size, h]

theorem size_symbol (h : leavesSymbol (peekKind ts.tail) = true) : size ts = (none, ts) := by
  rw [leavesSymbol] at h
  cases hsize : sizeOf? (peek ts) with
  | none => exact size_none hsize
  | some w =>
    rw [sizeOf?] at hsize
    simp only [size, hsize, h, if_true]

theorem size_word {w : Width} (h : sizeOf? (peek ts) = some w)
    (hnext : leavesSymbol (peekKind ts.tail) = false) :
    size ts = (some w, if atWord "ptr" ts.tail then ts.tail.tail else ts.tail) := by
  rw [sizeOf?] at h
  rw [leavesSymbol] at hnext
  simp only [size, h, hnext]
  rfl

theorem size_end (e : Ending) : size (e.after []) = (none, e.after []) :=
  size_none (if_neg (e.kind_ne rfl))

theorem size_same (a b : Ending) (ts : List Token) : Same a b ts size := by
  cases ts with
  | nil => exact ⟨none, [], List.suffix_refl [], size_end a, size_end b⟩
  | cons t ts =>
    cases hsize : sizeOf? t with
    | none => exact ⟨none, t :: ts, List.suffix_refl _, size_none hsize, size_none hsize⟩
    | some w =>
      cases ts with
      | nil =>
        -- The end of the statement behind a size word makes it a symbol.
        have hend : ∀ e : Ending, size (e.after [t]) = (none, e.after [t]) := by
          intro e
          refine size_symbol ?_
          show leavesSymbol e.token.kind = true
          rw [leavesSymbol, e.ends]
          rfl
        exact ⟨none, [t], List.suffix_refl [t], hend a, hend b⟩
      | cons u us =>
        cases hnext : leavesSymbol u.kind with
        | true =>
          exact ⟨none, t :: u :: us, List.suffix_refl _, size_symbol hnext, size_symbol hnext⟩
        | false =>
          have hword : ∀ e : Ending, size (e.after (t :: u :: us)) =
              (some w, if atWord "ptr" [u] then e.after us else e.after (u :: us)) :=
            fun e => size_word hsize hnext
          cases hptr : atWord "ptr" [u] with
          | true =>
            rw [hptr] at hword
            exact ⟨some w, us, (List.suffix_cons u us).trans (List.suffix_cons t _), hword a, hword b⟩
          | false =>
            rw [hptr] at hword
            exact ⟨some w, u :: us, List.suffix_cons t _, hword a, hword b⟩

theorem segment_none (h : ((peek ts).kind = .ident && peekKind ts.tail = .colon) = false) :
    segment ts = (none, ts) := by
  simp only [segment, h]
  rfl

theorem segment_register {s : Segment}
    (h : ((peek ts).kind = .ident && peekKind ts.tail = .colon) = true)
    (hname : Register.ofName? (peek ts).text = some (.segment s)) :
    segment ts = (some (.segment s), ts.tail.tail) := by
  simp only [segment, h, hname, if_true]

theorem segment_other (hname : ∀ s, Register.ofName? (peek ts).text ≠ some (.segment s)) :
    segment ts = (none, ts) := by
  simp only [segment]
  split <;> rfl

theorem segment_end (e : Ending) : segment (e.after []) = (none, e.after []) := by
  refine segment_none ?_
  show (decide (e.token.kind = .ident) && _) = false
  rw [decide_eq_false (e.kind_ne rfl), Bool.false_and]

theorem segment_same (a b : Ending) (ts : List Token) : Same a b ts segment := by
  cases ts with
  | nil => exact ⟨none, [], List.suffix_refl [], segment_end a, segment_end b⟩
  | cons t ts =>
    cases ts with
    | nil =>
      have hend : ∀ e : Ending, segment (e.after [t]) = (none, e.after [t]) := by
        intro e
        refine segment_none ?_
        show (_ && decide (e.token.kind = .colon)) = false
        rw [decide_eq_false (e.kind_ne rfl), Bool.and_false]
      exact ⟨none, [t], List.suffix_refl [t], hend a, hend b⟩
    | cons u us =>
      cases hcolon : (t.kind = .ident && u.kind = .colon : Bool) with
      | false => exact ⟨none, t :: u :: us, List.suffix_refl _, segment_none hcolon, segment_none hcolon⟩
      | true =>
        by_cases hname : ∃ s, Register.ofName? t.text = some (.segment s)
        · obtain ⟨s, hs⟩ := hname
          exact ⟨some (.segment s), us, (List.suffix_cons u us).trans (List.suffix_cons t _),
            segment_register hcolon hs, segment_register hcolon hs⟩
        · have hother := not_exists.1 hname
          exact ⟨none, t :: u :: us, List.suffix_refl _, segment_other hother, segment_other hother⟩

theorem address_agree (a b : Ending) (ts : List Token) (width : Option Width) (distance : Bool)
    (outer : Option Register) (start : Span) :
    Agree a b ts (address width distance outer start (a.after ts))
      (address width distance outer start (b.after ts)) := by
  obtain ⟨addressSize, us, hus, hsizeA, hsizeB⟩ := size_same a b ts
  have hsegment : Same a b us fun us => if outer.isNone then segment us else (outer, us) := by
    cases outer with
    | none => exact segment_same a b us
    | some r => exact ⟨some r, us, List.suffix_refl us, rfl, rfl⟩
  obtain ⟨seg, vs, hvs, hsegA, hsegB⟩ := hsegment
  simp only [address, hsizeA, hsizeB, hsegA, hsegB]
  refine Agree.mono ?_ (hvs.trans hus)
  refine (expr_agree a b vs).andThen fun e left _ => ?_
  exact Agree.close .closeBracket rfl "']'" fun span =>
    ParsedOperand.mk width distance true addressSize seg e.expr (start.cover span)

/-- The parts of an operand behind its size and its segment. -/
theorem operand_eq {us vs : List Token} {width : Option Width} {seg : Option Register}
    (hsize : size ts = (width, us)) (hseg : segment us = (seg, vs)) :
    operand ts =
      if peekKind vs = .openBracket then
        address width ((peek ts).kind = .ident && isDistanceWord (peek ts).text && width.isSome) seg
          (peek ts).span vs.tail
      else if seg.isSome then .fail ⟨.segmentWithoutAddress, (peek vs).span⟩ vs
      else (expr vs).andThen fun e rest =>
        .ok ⟨width, (peek ts).kind = .ident && isDistanceWord (peek ts).text && width.isSome, false,
          none, none, e.expr, (peek ts).span.cover e.last⟩ rest := by
  simp only [operand, hsize, hseg]

theorem operand_end (e : Ending) : operand (e.after []) =
    .fail ⟨.noExpression e.token.shown, e.token.span⟩ e.rest := by
  have hbracket : peekKind (e.after []) ≠ .openBracket := e.kind_ne rfl
  rw [operand_eq (size_end e) (segment_end e), if_neg hbracket, if_neg (by decide), expr_end]
  rfl

theorem operand_agree (a b : Ending) (ts : List Token) :
    Agree a b ts (operand (a.after ts)) (operand (b.after ts)) := by
  cases ts with
  | nil =>
    rw [operand_end, operand_end]
    exact .broke
  | cons t ts =>
    obtain ⟨width, us, hus, hsizeA, hsizeB⟩ := size_same a b (t :: ts)
    obtain ⟨seg, vs, hvs, hsegA, hsegB⟩ := segment_same a b us
    have hpeek : ∀ e : Ending, peek (e.after (t :: ts)) = t := fun _ => rfl
    rw [operand_eq hsizeA hsegA, operand_eq hsizeB hsegB, hpeek, hpeek]
    refine Agree.mono ?_ (hvs.trans hus)
    generalize (t.kind = .ident && isDistanceWord t.text && width.isSome : Bool) = distance
    have hexpr : Agree a b vs
        ((expr (a.after vs)).andThen fun e rest =>
          .ok (ParsedOperand.mk width distance false none none e.expr (t.span.cover e.last)) rest)
        ((expr (b.after vs)).andThen fun e rest =>
          .ok (ParsedOperand.mk width distance false none none e.expr (t.span.cover e.last)) rest) :=
      (expr_agree a b vs).andThen fun e left _ => .ok (List.suffix_refl left)
    cases vs with
    | nil =>
      have hend : ∀ e : Ending, peekKind (e.after []) ≠ .openBracket := fun e => e.kind_ne rfl
      rw [if_neg (hend a), if_neg (hend b)]
      cases seg with
      | none => exact hexpr
      | some r => exact .fail (List.suffix_refl []) .segmentWithoutAddress
    | cons v vs =>
      have hkind : ∀ e : Ending, peekKind (e.after (v :: vs)) = v.kind := fun _ => rfl
      rw [hkind, hkind]
      by_cases hv : v.kind = .openBracket
      · rw [if_pos hv, if_pos hv]
        exact (address_agree a b vs width distance seg t.span).mono (List.suffix_cons v vs)
      · rw [if_neg hv, if_neg hv]
        cases seg with
        | none => exact hexpr
        | some r => exact .fail (List.suffix_refl _) (.same _)

theorem operands_agree (a b : Ending) {n m : Nat} (hn : ts.length < n) (hm : ts.length < m) :
    Agree a b ts (operands n (a.after ts)) (operands m (b.after ts)) := by
  induction n generalizing m ts with
  | zero => omega
  | succ n ih =>
    obtain ⟨m, rfl⟩ : ∃ k, m = k + 1 := ⟨m - 1, by omega⟩
    simp only [operands]
    refine (operand_agree a b ts).andThen fun o left hleft => ?_
    have hlen := hleft.length_le
    cases left with
    | nil =>
      have hend : ∀ e : Ending, peekKind (e.after []) ≠ .comma := fun e => e.kind_ne rfl
      rw [if_neg (hend a), if_neg (hend b)]
      exact .ok (List.suffix_refl [])
    | cons t left =>
      rw [List.length_cons] at hlen
      have hkind : ∀ e : Ending, peekKind (e.after (t :: left)) = t.kind := fun _ => rfl
      rw [hkind, hkind]
      by_cases ht : t.kind = .comma
      · rw [if_pos ht, if_pos ht]
        refine Agree.mono ?_ (List.suffix_cons t left)
        exact (ih (by omega) (by omega)).andThen fun os rest _ => .ok (List.suffix_refl rest)
      · rw [if_neg ht, if_neg ht]
        exact .ok (List.suffix_refl (t :: left))

/-! ## Statements -/

theorem prefixes_end (e : Ending) (last : Token) :
    prefixes last (e.after []) = ([], last, e.after []) := by
  rw [Ending.after_nil, prefixes]
  split
  · rfl
  · rw [if_neg (e.kind_ne rfl)]

theorem prefixes_same (a b : Ending) (last : Token) (ts : List Token) :
    ∃ ps mnemonic left, left <:+ ts ∧ prefixes last (a.after ts) = (ps, mnemonic, a.after left) ∧
      prefixes last (b.after ts) = (ps, mnemonic, b.after left) := by
  induction ts generalizing last with
  | nil => exact ⟨[], last, [], List.suffix_refl [], prefixes_end a last, prefixes_end b last⟩
  | cons t ts ih =>
    simp only [Ending.after_cons, prefixes]
    cases Prefix.ofWord? last.text with
    | none => exact ⟨[], last, t :: ts, List.suffix_refl _, rfl, rfl⟩
    | some p =>
      by_cases ht : t.kind = .ident
      · obtain ⟨ps, mnemonic, left, hleft, hA, hB⟩ := ih t
        simp only [if_pos ht, hA, hB]
        exact ⟨p :: ps, mnemonic, left, hleft.trans (List.suffix_cons t ts), rfl, rfl⟩
      · simp only [if_neg ht]
        exact ⟨[], last, t :: ts, List.suffix_refl _, rfl, rfl⟩

theorem instruction_agree (a b : Ending) (first : Token) (ts : List Token) :
    Agree a b ts (instruction first (a.after ts)) (instruction first (b.after ts)) := by
  obtain ⟨ps, mnemonic, us, hus, hA, hB⟩ := prefixes_same a b first ts
  simp only [instruction, hA, hB]
  refine Agree.mono ?_ hus
  have hoperands : Agree a b us (operands ((a.after us).length + 1) (a.after us))
      (operands ((b.after us).length + 1) (b.after us)) :=
    operands_agree a b (by rw [a.length_after]; omega) (by rw [b.length_after]; omega)
  cases us with
  | nil =>
    have hend : ∀ e : Ending, (peekKind (e.after [])).endsStatement = true := fun e => e.ends
    rw [if_pos (hend a), if_pos (hend b)]
    exact .ok (List.suffix_refl [])
  | cons t us =>
    have hkind : ∀ e : Ending, peekKind (e.after (t :: us)) = t.kind := fun _ => rfl
    rw [hkind, hkind]
    by_cases ht : t.kind.endsStatement = true
    · rw [if_pos ht, if_pos ht]
      exact .ok (List.suffix_refl _)
    · rw [if_neg ht, if_neg ht]
      exact hoperands.andThen fun os left _ => .ok (List.suffix_refl left)

theorem skipStatement_after (e : Ending) (ts : List Token) :
    skipStatement (e.after ts) = e.after (skipStatement ts) := by
  have hend : skipStatement (e.token :: e.rest) = e.token :: e.rest := by
    rw [skipStatement, List.dropWhile_cons, e.ends]
    rfl
  induction ts with
  | nil => exact hend
  | cons t ts ih =>
    rw [Ending.after_cons, skipStatement, List.dropWhile_cons, skipStatement, List.dropWhile_cons]
    split
    · exact ih
    · rfl

theorem skipStatement_suffix (ts : List Token) : skipStatement ts <:+ ts := List.dropWhile_suffix _

theorem directive_agree (a b : Ending) (t : Token) (ts : List Token) :
    Agree a b ts (directive t (a.after ts)) (directive t (b.after ts)) := by
  simp only [directive, skipStatement_after]
  split
  · exact .ok (List.suffix_refl ts)
  · exact .ok (List.suffix_refl ts)
  · exact .ok (List.suffix_refl ts)
  · exact .ok (skipStatement_suffix ts)
  · exact .ok (skipStatement_suffix ts)
  · exact .ok (skipStatement_suffix ts)
  · exact .ok (skipStatement_suffix ts)
  · exact .fail (List.suffix_refl ts) (.same _)

/-- A command is read alike, or there is none and its first token stays. -/
theorem command_agree (a b : Ending) (t : Token) (ts : List Token) :
    Agree a b ts (command (a.after (t :: ts))) (command (b.after (t :: ts))) ∨
      ∀ e : Ending, command (e.after (t :: ts)) =
        .fail ⟨.unexpected t.shown, t.span⟩ (e.after (t :: ts)) := by
  simp only [command, Ending.after_cons, peek, List.tail_cons]
  split
  · exact .inl (directive_agree a b t ts)
  · exact .inl ((instruction_agree a b t ts).andThen fun i left _ => .ok (List.suffix_refl left))
  · exact .inr fun _ => rfl

end Parse
end IntelAsm
