/-
Expressions and their grammar. The parser accepts exactly the grammar

  sum      = product | sum ("+" | "-") product
  product  = signed | product ("*" | "/") signed
  signed   = ("+" | "-" | "~") signed | atom
  atom     = number | name | "(" sum ")"

and reads from a list of tokens the expression in front that no operator goes on
with (`Parse.expr_ok_iff_spells`). A derivation gives a tree, which keeps the
parentheses; the expression of a tree drops them and takes a minus directly in
front of a number into the number.

Sums and products are read the same way, an operand of the next tighter level
and then operators with an operand each. Both directions of the proof treat them
as one family over the level. What is read derives, by induction on the steps;
what derives is read, by induction on the derivation, where the parser is left in
the loop of the level with the whole derivation to the left.
-/
import IntelAsm.Proofs.Failure
import IntelAsm.Statement.Parse

namespace IntelAsm

/-! ## The grammar -/

/-- The token of a sign. -/
def UnaryOp.token : UnaryOp → TokenKind
  | .plus => .plus
  | .neg => .minus
  | .not => .tilde

/-- The token of an operator. -/
def BinaryOp.token : BinaryOp → TokenKind
  | .add => .plus
  | .sub => .minus
  | .mul => .star
  | .div => .slash

namespace Grammar

/-- How tight an expression binds, the loosest first. -/
inductive Level where
  | sum
  | product
  | signed
  | atom

/-- The level of the right operands, and of the first one. -/
def Level.tighter : Level → Level
  | .sum => .product
  | .product => .signed
  | .signed => .atom
  | .atom => .atom

/-- The level an operator joins operands to. -/
def operatorLevel : BinaryOp → Level
  | .add | .sub => .sum
  | .mul | .div => .product

/-- An expression as it is written. -/
inductive Tree where
  | number (n : Nat)
  | name (s : String)
  | group (inner : Tree)
  | signed (op : UnaryOp) (inner : Tree)
  | binary (op : BinaryOp) (left right : Tree)

/-- The tokens that a tree is written with. -/
inductive Derives : Level → List Token → Tree → Prop where
  | number {t : Token} {n : Nat} (ht : t.kind = .number n) : Derives .atom [t] (.number n)
  | name {t : Token} (ht : t.kind = .ident) : Derives .atom [t] (.name t.text)
  | group {first last : Token} {ts : List Token} {tree : Tree} (hfirst : first.kind = .openParen)
      (h : Derives .sum ts tree) (hlast : last.kind = .closeParen) :
    Derives .atom (first :: ts ++ [last]) (.group tree)
  | signed {op : UnaryOp} {t : Token} {ts : List Token} {tree : Tree} (ht : t.kind = op.token)
      (h : Derives .signed ts tree) : Derives .signed (t :: ts) (.signed op tree)
  | binary {level : Level} {op : BinaryOp} {t : Token} {ls rs : List Token} {l r : Tree}
      (hlevel : operatorLevel op = level) (hl : Derives level ls l) (ht : t.kind = op.token)
      (hr : Derives level.tighter rs r) : Derives level (ls ++ t :: rs) (.binary op l r)
  | tighter {level : Level} {ts : List Token} {tree : Tree} (hlevel : level ≠ .atom)
      (h : Derives level.tighter ts tree) : Derives level ts tree

namespace Tree

/-- Numbers have 64 bits, and a number directly behind a minus is at most 2^63. -/
def InRange : Tree → Prop
  | .number n => n ≤ 0xFFFFFFFFFFFFFFFF
  | .name _ => True
  | .group inner => inner.InRange
  | .signed .neg (.number n) => n ≤ 0x8000000000000000
  | .signed _ inner => inner.InRange
  | .binary _ left right => left.InRange ∧ right.InRange

/-- The expression of a tree. A number is the value with its bits. -/
def expr : Tree → Expr
  | .number n => .int (UInt64.ofNat n).toInt64
  | .name s => .var s
  | .group inner => inner.expr
  | .signed .neg (.number n) => .int (Int64.ofInt (-n))
  | .signed op inner => .unary op inner.expr
  | .binary op left right => .binary op left.expr right.expr

end Tree

/-- Tokens are written for an expression: they derive a tree of it, and the last of them is where it
ends. -/
def Spells (level : Level) (ts : List Token) (e : ParsedExpr) : Prop :=
  ∃ tree, Derives level ts tree ∧ tree.InRange ∧ tree.expr = e.expr ∧
    ts.getLast?.map Token.span = some e.last

/-! ## Derivations -/

theorem Derives.of_signed {ts : List Token} {tree : Tree} (h : Derives .signed ts tree) :
    Derives .sum ts tree := by
  have hproduct : Derives .product ts tree := .tighter nofun h
  exact .tighter nofun hproduct

theorem Derives.of_atom {ts : List Token} {tree : Tree} (h : Derives .atom ts tree) (level : Level) :
    Derives level ts tree := by
  have hsigned : Derives .signed ts tree := .tighter nofun h
  cases level with
  | sum => exact hsigned.of_signed
  | product => exact .tighter nofun hsigned
  | signed => exact hsigned
  | atom => exact h

theorem Derives.ne_nil {level : Level} {ts : List Token} {tree : Tree} (h : Derives level ts tree) :
    ts ≠ [] := by
  induction h with
  | binary _ _ _ _ => simp
  | tighter _ _ ih => exact ih
  | _ => exact List.cons_ne_nil _ _

/-- An atom starts with no sign. -/
theorem Derives.not_sign {t : Token} {ts : List Token} {tree : Tree} (h : Derives .atom (t :: ts) tree)
    (op : UnaryOp) : t.kind ≠ op.token := by
  intro hop
  generalize hts : t :: ts = us at h
  cases h with
  | number ht =>
    cases hts
    rw [ht] at hop
    cases op <;> cases hop
  | name ht =>
    cases hts
    rw [ht] at hop
    cases op <;> cases hop
  | group hfirst _ _ =>
    cases hts
    rw [hfirst] at hop
    cases op <;> cases hop
  | @binary _ op' _ _ _ _ _ hlevel _ _ _ => cases op' <;> cases hlevel
  | tighter hlevel _ => exact hlevel rfl

/-- A signed operand that is a number, or starts with one, is the number alone. -/
theorem Derives.number_alone {ts : List Token} {tree : Tree} {n : Nat} (h : Derives .signed ts tree)
    (hn : tree = .number n ∨ Parse.peekKind ts = .number n) :
    tree = .number n ∧ ∃ t, ts = [t] ∧ t.kind = .number n := by
  cases h with
  | @signed op t ts inner ht _ =>
    rcases hn with hn | hn
    · cases hn
    · rw [show Parse.peekKind (t :: ts) = t.kind from rfl, ht] at hn
      cases op <;> cases hn
  | @binary _ op _ _ _ _ _ hlevel _ _ _ => cases op <;> cases hlevel
  | tighter _ h =>
    cases h with
    | @number t k ht =>
      rcases hn with hn | hn
      · cases hn
        exact ⟨rfl, t, rfl, ht⟩
      · obtain rfl : k = n := TokenKind.number.inj (ht.symm.trans hn)
        exact ⟨rfl, t, rfl, ht⟩
    | @name t ht =>
      rcases hn with hn | hn
      · cases hn
      · cases ht.symm.trans hn
    | @group first last ts inner hfirst _ _ =>
      rcases hn with hn | hn
      · cases hn
      · cases hfirst.symm.trans hn
    | @binary _ op _ _ _ _ _ hlevel _ _ _ => cases op <;> cases hlevel
    | tighter hlevel _ => exact absurd rfl hlevel

theorem peekKind_append {ts : List Token} (h : ts ≠ []) (rest : List Token) :
    Parse.peekKind (ts ++ rest) = Parse.peekKind ts := by
  cases ts with
  | nil => exact absurd rfl h
  | cons t ts => rfl

namespace Tree

variable {op : UnaryOp} {inner : Tree}

theorem inRange_signed (h : op = .neg → ∀ n, inner ≠ .number n) :
    (signed op inner).InRange ↔ inner.InRange := by
  cases op with
  | neg =>
    cases inner with
    | number n => exact absurd rfl (h rfl n)
    | _ => rfl
  | _ => rfl

theorem expr_signed (h : op = .neg → ∀ n, inner ≠ .number n) :
    (signed op inner).expr = .unary op inner.expr := by
  cases op with
  | neg =>
    cases inner with
    | number n => exact absurd rfl (h rfl n)
    | _ => rfl
  | _ => rfl

end Tree

/-! ## Levels of the parser -/

open Parse

namespace Level

/-- The function that reads the level. -/
def read : Level → Nat → List Token → Parsed ParsedExpr
  | .sum => Parse.sum
  | .product => Parse.product
  | .signed => Parse.signed
  | .atom => Parse.atom

/-- The function that goes on behind an operand of the level. -/
def loop : Level → Nat → ParsedExpr → List Token → Parsed ParsedExpr
  | .sum => Parse.sumTail
  | .product => Parse.productTail
  | .signed | .atom => fun _ e ts => .ok e ts

/-- The operator that a token is at the level. -/
def operator? : Level → TokenKind → Option BinaryOp
  | .sum => additive?
  | .product => multiplicative?
  | .signed | .atom => fun _ => none

/-- Steps to the first token. -/
def steps : Level → Nat
  | .sum => 4
  | .product => 3
  | .signed => 2
  | .atom => 1

theorem steps_pos (level : Level) : 0 < level.steps := by
  cases level <;> decide

theorem succ_of_steps {level : Level} {len n : Nat} (h : 4 * len + level.steps ≤ n) :
    ∃ k, n = k + 1 := by
  have hpos := level.steps_pos
  exact ⟨n - 1, by omega⟩

theorem steps_tighter_le (level : Level) : level.tighter.steps ≤ 3 := by
  cases level <;> decide

theorem steps_tighter {level : Level} (hlevel : level ≠ .atom) :
    level.tighter.steps + 1 = level.steps := by
  cases level with
  | atom => exact absurd rfl hlevel
  | _ => rfl

/-- The token goes on with nothing that the level has read. -/
def Stops (level : Level) (kind : TokenKind) : Prop :=
  level.operator? kind = none ∧ level.tighter.operator? kind = none

theorem operator?_eq_some {level : Level} {kind : TokenKind} {op : BinaryOp} :
    level.operator? kind = some op ↔ operatorLevel op = level ∧ kind = op.token := by
  cases level <;> cases op <;> cases kind <;>
    simp [operator?, additive?, multiplicative?, operatorLevel, BinaryOp.token]

theorem operator?_tighter_tighter (level : Level) (kind : TokenKind) :
    level.tighter.tighter.operator? kind = none := by
  cases level <;> rfl

theorem stops_sum_iff {kind : TokenKind} : Stops .sum kind ↔ ∀ op : BinaryOp, kind ≠ op.token := by
  constructor
  · intro h op hop
    have hsome : (operatorLevel op).operator? kind = some op := operator?_eq_some.2 ⟨rfl, hop⟩
    cases op with
    | add | sub => cases h.1.symm.trans hsome
    | mul | div => cases h.2.symm.trans hsome
  · intro h
    have hnone : ∀ level : Level, level.operator? kind = none := by
      intro level
      rw [Option.eq_none_iff_forall_ne_some]
      intro op hop
      exact h op (operator?_eq_some.1 hop).2
    exact ⟨hnone _, hnone _⟩

theorem read_joined {level : Level} {op : BinaryOp} (hlevel : operatorLevel op = level) (n : Nat)
    (ts : List Token) :
    level.read (n + 1) ts = (level.tighter.read n ts).andThen (level.loop n) := by
  subst hlevel
  cases op <;> simp only [operatorLevel, tighter, read, loop, Parse.sum, Parse.product]

theorem loop_stop {level : Level} (n : Nat) (e : ParsedExpr) {ts : List Token}
    (h : level.operator? (peekKind ts) = none) : level.loop n e ts = .ok e ts := by
  cases level with
  | sum =>
    have hnone : additive? (peekKind ts) = none := h
    cases n with
    | zero => rfl
    | succ n => simp only [loop, Parse.sumTail, hnone]
  | product =>
    have hnone : multiplicative? (peekKind ts) = none := h
    cases n with
    | zero => rfl
    | succ n => simp only [loop, Parse.productTail, hnone]
  | signed => rfl
  | atom => rfl

theorem loop_operator {level : Level} {op : BinaryOp} (hlevel : operatorLevel op = level) (n : Nat)
    (left : ParsedExpr) {t : Token} (ts : List Token) (ht : t.kind = op.token) :
    level.loop (n + 1) left (t :: ts) = (level.tighter.read n ts).andThen fun right rest =>
      level.loop n ⟨.binary op left.expr right.expr, right.last⟩ rest := by
  have hkind : peekKind (t :: ts) = op.token := ht
  subst hlevel
  cases op <;>
    simp only [operatorLevel, tighter, read, loop, Parse.sumTail, Parse.productTail, hkind,
      BinaryOp.token, additive?, multiplicative?, List.tail_cons]

end Level

end Grammar

/-! ## Atoms and signs of the parser -/

theorem Parsed.andThen_eq_ok {α β : Type} {p : Parsed α} {f : α → List Token → Parsed β} {b : β}
    {rest : List Token} :
    p.andThen f = .ok b rest ↔ ∃ a mid, p = .ok a mid ∧ f a mid = .ok b rest := by
  constructor
  · intro h
    cases p with
    | ok a mid => exact ⟨a, mid, rfl, h⟩
    | fail failure mid => cases h
  · rintro ⟨a, mid, rfl, h⟩
    exact h

/-- A number of 64 bits, as a value and as an integer. -/
theorem toInt64_ofNat (k : Nat) : (UInt64.ofNat k).toInt64 = Int64.ofInt k := by
  rw [← Int64.toBitVec_inj, Int64.toBitVec_ofInt, BitVec.ofInt_natCast]
  rfl

namespace Parse

open Grammar

theorem number_eq_ok {n : Int} {span last : Span} {ts rest : List Token} {e : ParsedExpr} :
    number n span last ts = .ok e rest ↔
      (Int64.minValue.toInt ≤ n ∧ n < UInt64.size) ∧ e = ⟨.int (Int64.ofInt n), last⟩ ∧ rest = ts := by
  unfold number literal
  by_cases hn : Int64.minValue.toInt ≤ n ∧ n < UInt64.size
  · rw [if_pos hn]
    constructor
    · intro h
      cases h
      exact ⟨hn, rfl, rfl⟩
    · rintro ⟨-, rfl, rfl⟩
      rfl
  · rw [if_neg hn]
    constructor
    · intro h
      cases h
    · intro h
      exact absurd h.1 hn

theorem number_natCast_eq_ok {k : Nat} {span last : Span} {ts rest : List Token} {e : ParsedExpr} :
    number k span last ts = .ok e rest ↔
      (Tree.number k).InRange ∧ e = ⟨(Tree.number k).expr, last⟩ ∧ rest = ts := by
  have hrange : (Int64.minValue.toInt ≤ (k : Int) ∧ (k : Int) < UInt64.size) ↔
      (Tree.number k).InRange := by
    rw [Int64.toInt_minValue, UInt64.size, Tree.InRange]
    omega
  rw [number_eq_ok, hrange, Tree.expr, toInt64_ofNat]

theorem number_neg_eq_ok {k : Nat} {span last : Span} {ts rest : List Token} {e : ParsedExpr} :
    number (-k) span last ts = .ok e rest ↔
      (Tree.signed .neg (.number k)).InRange ∧
        e = ⟨(Tree.signed .neg (.number k)).expr, last⟩ ∧ rest = ts := by
  have hrange : (Int64.minValue.toInt ≤ -(k : Int) ∧ -(k : Int) < UInt64.size) ↔
      (Tree.signed .neg (.number k)).InRange := by
    rw [Int64.toInt_minValue, UInt64.size, Tree.InRange]
    omega
  rw [number_eq_ok, hrange, Tree.expr]

theorem atom_number {t : Token} {k : Nat} (ht : t.kind = .number k) (n : Nat) (ts : List Token) :
    atom (n + 1) (t :: ts) = number k t.span t.span ts := by
  simp only [atom, peek, ht, List.tail_cons]

theorem atom_name {t : Token} (ht : t.kind = .ident) (n : Nat) (ts : List Token) :
    atom (n + 1) (t :: ts) = .ok ⟨.var t.text, t.span⟩ ts := by
  simp only [atom, peek, ht, List.tail_cons]

/-- A sum in parentheses. The closing one is looked for where the sum ends. -/
theorem atom_group {t : Token} (ht : t.kind = .openParen) (n : Nat) (ts : List Token) :
    atom (n + 1) (t :: ts) = (sum n ts).andThen fun inner rest =>
      if (peek rest).kind = .closeParen then .ok ⟨inner.expr, (peek rest).span⟩ rest.tail
      else .fail ⟨.expected "')'" (peek rest).shown, (peek rest).span⟩ rest := by
  have hpeek : peek (t :: ts) = t := rfl
  simp only [atom, hpeek, ht, List.tail_cons]

theorem noExpression_ne_ok (t : Token) (ts rest : List Token) (e : ParsedExpr) :
    noExpression t ts ≠ .ok e rest := by
  unfold noExpression
  split <;> nofun

/-- Only these tokens start an atom. -/
theorem atom_eq_ok {n : Nat} {ts rest : List Token} {e : ParsedExpr}
    (h : atom (n + 1) ts = .ok e rest) :
    ∃ t us, ts = t :: us ∧ ((∃ k, t.kind = .number k) ∨ t.kind = .ident ∨ t.kind = .openParen) := by
  cases ts with
  | nil => cases h
  | cons t us =>
    refine ⟨t, us, rfl, ?_⟩
    cases hk : t.kind with
    | number k => exact .inl ⟨k, rfl⟩
    | ident => exact .inr (.inl rfl)
    | openParen => exact .inr (.inr rfl)
    | _ =>
      simp only [atom, peek, hk] at h
      exact absurd h (noExpression_ne_ok _ _ _ _)

theorem signed_atom {ts : List Token} (h : ∀ op : UnaryOp, peekKind ts ≠ op.token) (n : Nat) :
    signed (n + 1) ts = atom n ts := by
  have hnone : sign? (peekKind ts) = none := by
    cases hk : peekKind ts with
    | plus => exact absurd hk (h .plus)
    | minus => exact absurd hk (h .neg)
    | tilde => exact absurd hk (h .not)
    | _ => rfl
  simp only [signed, hnone]

theorem sign?_token (op : UnaryOp) : sign? op.token = some op := by
  cases op <;> rfl

theorem signed_negative {t u : Token} {k : Nat} (ht : t.kind = .minus) (hu : u.kind = .number k)
    (n : Nat) (ts : List Token) :
    signed (n + 1) (t :: u :: ts) = number (-k) (t.span.cover u.span) u.span ts := by
  simp only [signed, peekKind, peek, ht, hu, sign?, List.tail_cons]

theorem signed_sign {op : UnaryOp} {t : Token} {ts : List Token} (ht : t.kind = op.token)
    (hnumber : op = .neg → ∀ k, peekKind ts ≠ .number k) (n : Nat) :
    signed (n + 1) (t :: ts) = (signed n ts).andThen fun inner rest =>
      .ok ⟨.unary op inner.expr, inner.last⟩ rest := by
  have hkind : peekKind (t :: ts) = op.token := ht
  simp only [signed, hkind, sign?_token, List.tail_cons]
  cases op with
  | neg =>
    cases hk : peekKind ts with
    | number k => exact absurd hk (hnumber rfl k)
    | _ => rfl
  | _ => rfl

end Parse

namespace Grammar

open Parse Parsed

/-! ## What is read derives -/

/-- The last token stays the last behind other ones. -/
theorem last_append {ts : List Token} {last : Span} (h : ts.getLast?.map Token.span = some last)
    (front : List Token) : (front ++ ts).getLast?.map Token.span = some last := by
  obtain ⟨t, ht, rfl⟩ := Option.map_eq_some_iff.1 h
  rw [List.getLast?_append, ht]
  rfl

namespace Spells

theorem tighter {level : Level} (hlevel : level ≠ .atom) {ts : List Token} {e : ParsedExpr}
    (h : Spells level.tighter ts e) : Spells level ts e := by
  obtain ⟨tree, hderives, hrest⟩ := h
  exact ⟨tree, .tighter hlevel hderives, hrest⟩

theorem binary {level : Level} {op : BinaryOp} {t : Token} {ls rs : List Token} {l r : ParsedExpr}
    (hlevel : operatorLevel op = level) (hl : Spells level ls l) (ht : t.kind = op.token)
    (hr : Spells level.tighter rs r) :
    Spells level (ls ++ t :: rs) ⟨.binary op l.expr r.expr, r.last⟩ := by
  obtain ⟨left, hleft, hleftRange, hleftExpr, -⟩ := hl
  obtain ⟨right, hright, hrightRange, hrightExpr, hlast⟩ := hr
  refine ⟨.binary op left right, .binary hlevel hleft ht hright, ⟨hleftRange, hrightRange⟩, ?_, ?_⟩
  · rw [Tree.expr, hleftExpr, hrightExpr]
  · rw [List.append_cons]
    exact last_append hlast _

theorem number {t : Token} {k : Nat} (ht : t.kind = .number k) (hrange : (Tree.number k).InRange) :
    Spells .atom [t] ⟨(Tree.number k).expr, t.span⟩ :=
  ⟨.number k, .number ht, hrange, rfl, rfl⟩

theorem name {t : Token} (ht : t.kind = .ident) : Spells .atom [t] ⟨.var t.text, t.span⟩ :=
  ⟨.name t.text, .name ht, trivial, rfl, rfl⟩

theorem group {first last : Token} {ts : List Token} {e : ParsedExpr}
    (hfirst : first.kind = .openParen) (h : Spells .sum ts e) (hlast : last.kind = .closeParen) :
    Spells .atom (first :: ts ++ [last]) ⟨e.expr, last.span⟩ := by
  obtain ⟨tree, hderives, hrange, hexpr, -⟩ := h
  exact ⟨.group tree, .group hfirst hderives hlast, hrange, hexpr, last_append rfl _⟩

theorem negative {t u : Token} {k : Nat} (ht : t.kind = .minus) (hu : u.kind = .number k)
    (hrange : (Tree.signed .neg (.number k)).InRange) :
    Spells .signed [t, u] ⟨(Tree.signed .neg (.number k)).expr, u.span⟩ := by
  have hnumber : Derives .signed [u] (.number k) := .tighter nofun (.number hu)
  exact ⟨.signed .neg (.number k), @Derives.signed .neg t [u] _ ht hnumber, hrange, rfl, rfl⟩

/-- A sign, but not a minus in front of a number. -/
theorem signed {op : UnaryOp} {t : Token} {ts : List Token} {e : ParsedExpr} (ht : t.kind = op.token)
    (hnumber : op = .neg → ∀ k, peekKind ts ≠ .number k) (h : Spells .signed ts e) :
    Spells .signed (t :: ts) ⟨.unary op e.expr, e.last⟩ := by
  obtain ⟨tree, hderives, hrange, hexpr, hlast⟩ := h
  have htree : op = .neg → ∀ k, tree ≠ .number k := by
    intro hop k hk
    obtain ⟨-, u, rfl, hu⟩ := hderives.number_alone (.inl hk)
    exact hnumber hop k hu
  refine ⟨.signed op tree, .signed ht hderives, (Tree.inRange_signed htree).2 hrange, ?_, ?_⟩
  · rw [Tree.expr_signed htree, hexpr]
  · exact last_append hlast [t]

end Spells

/-- Behind `before`, which was read already, the tokens up to `rest` complete an expression that the
tokens left do not go on with. -/
def Completes (level : Level) (before ts : List Token) (e : ParsedExpr) (rest : List Token) : Prop :=
  ∃ front, ts = front ++ rest ∧ Spells level (before ++ front) e ∧ level.Stops (peekKind rest)

/-- What is read with `n` steps derives, if they suffice. -/
structure Sound (n : Nat) : Prop where
  read : ∀ {level : Level} {ts rest : List Token} {e : ParsedExpr},
    4 * ts.length + level.steps ≤ n → level.read n ts = .ok e rest → Completes level [] ts e rest
  loop : ∀ {level : Level} {before ts rest : List Token} {left e : ParsedExpr},
    Spells level before left → level.tighter.operator? (peekKind ts) = none → 4 * ts.length ≤ n →
      level.loop n left ts = .ok e rest → Completes level before ts e rest

section Step

variable {n : Nat} (ih : Sound n) {level : Level} {ts rest : List Token} {e : ParsedExpr}

include ih

theorem loop_step {before : List Token} {left : ParsedExpr} (hbefore : Spells level before left)
    (hstop : level.tighter.operator? (peekKind ts) = none) (hlen : 4 * ts.length ≤ n + 1)
    (h : level.loop (n + 1) left ts = .ok e rest) : Completes level before ts e rest := by
  cases hop : level.operator? (peekKind ts) with
  | none =>
    rw [Level.loop_stop _ _ hop] at h
    cases h
    exact ⟨[], rfl, by rwa [List.append_nil], hop, hstop⟩
  | some op =>
    obtain ⟨hlevel, hkind⟩ := Level.operator?_eq_some.1 hop
    cases ts with
    | nil => cases op <;> cases hkind
    | cons t ts =>
      have ht : t.kind = op.token := hkind
      rw [Level.loop_operator hlevel _ _ _ ht, andThen_eq_ok] at h
      obtain ⟨right, mid, hright, hloop⟩ := h
      have hsteps := level.steps_tighter_le
      rw [List.length_cons] at hlen
      obtain ⟨front, rfl, hspells, hstops⟩ := ih.read (by omega) hright
      rw [List.length_append] at hlen
      obtain ⟨front', rfl, hspells', hstops'⟩ :=
        ih.loop (hbefore.binary hlevel ht hspells) hstops.1 (by omega) hloop
      refine ⟨t :: front ++ front', by simp, ?_, hstops'⟩
      simpa using hspells'

theorem joined_step {op : BinaryOp} (hlevel : operatorLevel op = level) (hne : level ≠ .atom)
    (hlen : 4 * ts.length + level.steps ≤ n + 1) (h : level.read (n + 1) ts = .ok e rest) :
    Completes level [] ts e rest := by
  rw [Level.read_joined hlevel, andThen_eq_ok] at h
  obtain ⟨left, mid, hleft, hloop⟩ := h
  have hsteps := Level.steps_tighter hne
  obtain ⟨front, rfl, hspells, hstops⟩ := ih.read (by omega) hleft
  rw [List.length_append] at hlen
  obtain ⟨front', rfl, hspells', hstops'⟩ :=
    ih.loop (hspells.tighter hne) hstops.1 (by omega) hloop
  exact ⟨front ++ front', by simp, hspells', hstops'⟩

theorem signed_step (hlen : 4 * ts.length + 2 ≤ n + 1) (h : Parse.signed (n + 1) ts = .ok e rest) :
    Completes .signed [] ts e rest := by
  by_cases hsign : ∃ op : UnaryOp, peekKind ts = op.token
  · obtain ⟨op, hop⟩ := hsign
    cases ts with
    | nil => cases op <;> cases hop
    | cons t ts =>
      have ht : t.kind = op.token := hop
      rw [List.length_cons] at hlen
      by_cases hnegative : op = .neg ∧ ∃ k, peekKind ts = .number k
      · obtain ⟨rfl, k, hk⟩ := hnegative
        cases ts with
        | nil => cases hk
        | cons u us =>
          have hu : u.kind = .number k := hk
          rw [signed_negative ht hu, number_neg_eq_ok] at h
          obtain ⟨hrange, rfl, rfl⟩ := h
          exact ⟨[t, u], rfl, .negative ht hu hrange, rfl, rfl⟩
      · have hnumber : op = .neg → ∀ k, peekKind ts ≠ .number k := by
          intro hneg k hk
          exact hnegative ⟨hneg, k, hk⟩
        rw [signed_sign ht hnumber, andThen_eq_ok] at h
        obtain ⟨inner, mid, hinner, heq⟩ := h
        cases heq
        have hfuel : 4 * ts.length + Level.signed.steps ≤ n := by
          rw [Level.steps]
          omega
        obtain ⟨front, rfl, hspells, -⟩ := ih.read hfuel hinner
        have hne : front ≠ [] := by
          obtain ⟨tree, hderives, -⟩ := hspells
          exact hderives.ne_nil
        rw [peekKind_append hne] at hnumber
        exact ⟨t :: front, rfl, hspells.signed ht hnumber, rfl, rfl⟩
  · have hnone : ∀ op : UnaryOp, peekKind ts ≠ op.token := fun op hop => hsign ⟨op, hop⟩
    rw [signed_atom hnone] at h
    have hfuel : 4 * ts.length + Level.atom.steps ≤ n := by
      rw [Level.steps]
      omega
    obtain ⟨front, rfl, hspells, -⟩ := ih.read hfuel h
    exact ⟨front, rfl, @Spells.tighter .signed nofun _ _ hspells, rfl, rfl⟩

theorem atom_step (hlen : 4 * ts.length + 1 ≤ n + 1) (h : Parse.atom (n + 1) ts = .ok e rest) :
    Completes .atom [] ts e rest := by
  obtain ⟨t, us, rfl, ⟨k, hk⟩ | hk | hk⟩ := atom_eq_ok h
  · rw [atom_number hk, number_natCast_eq_ok] at h
    obtain ⟨hrange, rfl, rfl⟩ := h
    exact ⟨[t], rfl, .number hk hrange, rfl, rfl⟩
  · rw [atom_name hk] at h
    cases h
    exact ⟨[t], rfl, .name hk, rfl, rfl⟩
  · rw [atom_group hk, andThen_eq_ok] at h
    obtain ⟨inner, mid, hinner, hclose⟩ := h
    have hfuel : 4 * us.length + Level.sum.steps ≤ n := by
      rw [List.length_cons] at hlen
      rw [Level.steps]
      omega
    obtain ⟨front, rfl, hspells, -⟩ := ih.read hfuel hinner
    by_cases hlast : (peek mid).kind = .closeParen
    · rw [if_pos hlast] at hclose
      cases hclose
      cases mid with
      | nil => cases hlast
      | cons last mid =>
        refine ⟨t :: front ++ [last], by simp, .group hk hspells hlast, rfl, rfl⟩
    · rw [if_neg hlast] at hclose
      cases hclose

end Step

/-- **What is read derives**, by induction on the steps. -/
theorem sound (n : Nat) : Sound n := by
  induction n with
  | zero =>
    refine ⟨fun hlen _ => ?_, fun {level} _ ts _ _ _ hbefore hstop hlen h => ?_⟩
    · obtain ⟨k, hk⟩ := Level.succ_of_steps hlen
      cases hk
    · obtain rfl : ts = [] := List.eq_nil_of_length_eq_zero (by omega)
      have hnone : level.operator? (peekKind []) = none := by cases level <;> rfl
      rw [Level.loop_stop _ _ hnone] at h
      cases h
      exact ⟨[], rfl, by rwa [List.append_nil], hnone, hstop⟩
  | succ n ih =>
    refine ⟨fun {level} _ _ _ hlen h => ?_, fun hbefore hstop hlen h => loop_step ih hbefore hstop hlen h⟩
    cases level with
    | sum => exact @joined_step n ih .sum _ _ _ .add rfl nofun hlen h
    | product => exact @joined_step n ih .product _ _ _ .mul rfl nofun hlen h
    | signed => exact signed_step ih hlen h
    | atom => exact atom_step ih hlen h

/-! ## What derives is read -/

/-- From the tokens of a tree, whatever is behind them that binds no tighter, the parser gets to the
loop of the level with the expression of the tree to the left, and enough steps to go on. -/
def Reached (level : Level) (ts : List Token) (tree : Tree) : Prop :=
  ∀ n rest, level.tighter.operator? (peekKind rest) = none →
    4 * (ts ++ rest).length + level.steps ≤ n →
      ∃ m last, 4 * rest.length ≤ m ∧ ts.getLast?.map Token.span = some last ∧
        level.read n (ts ++ rest) = level.loop m ⟨tree.expr, last⟩ rest

namespace Reached

variable {level : Level} {ts : List Token} {tree : Tree}

/-- Where nothing goes on, the tree is read. -/
theorem read (h : Reached level ts tree) {n : Nat} {rest : List Token}
    (hstops : level.Stops (peekKind rest)) (hlen : 4 * (ts ++ rest).length + level.steps ≤ n) :
    ∃ last, ts.getLast?.map Token.span = some last ∧
      level.read n (ts ++ rest) = .ok ⟨tree.expr, last⟩ rest := by
  obtain ⟨m, last, -, hlast, hread⟩ := h n rest hstops.2 hlen
  rw [Level.loop_stop _ _ hstops.1] at hread
  exact ⟨last, hlast, hread⟩

theorem number {t : Token} {k : Nat} (ht : t.kind = .number k) (hrange : (Tree.number k).InRange) :
    Reached .atom [t] (.number k) := by
  intro n rest _ hlen
  obtain ⟨n, rfl⟩ := Level.succ_of_steps hlen
  refine ⟨_, t.span, Nat.le_refl _, rfl, ?_⟩
  show Parse.atom (n + 1) (t :: rest) = .ok _ rest
  rw [atom_number ht, number_natCast_eq_ok]
  exact ⟨hrange, rfl, rfl⟩

theorem name {t : Token} (ht : t.kind = .ident) : Reached .atom [t] (.name t.text) := by
  intro n rest _ hlen
  obtain ⟨n, rfl⟩ := Level.succ_of_steps hlen
  exact ⟨_, t.span, Nat.le_refl _, rfl, atom_name ht n rest⟩

theorem group {first last : Token} (hfirst : first.kind = .openParen) (h : Reached .sum ts tree)
    (hlast : last.kind = .closeParen) : Reached .atom (first :: ts ++ [last]) (.group tree) := by
  intro n rest _ hlen
  obtain ⟨n, rfl⟩ := Level.succ_of_steps hlen
  have hts : first :: ts ++ [last] ++ rest = first :: (ts ++ last :: rest) := by simp
  have hstops : Level.sum.Stops (peekKind (last :: rest)) := by
    show Level.sum.Stops last.kind
    rw [hlast]
    exact ⟨rfl, rfl⟩
  have hfuel : 4 * (ts ++ last :: rest).length + Level.sum.steps ≤ n := by
    rw [hts, List.length_cons, Level.steps] at hlen
    rw [Level.steps]
    omega
  obtain ⟨inner, -, hread⟩ := h.read hstops hfuel
  refine ⟨_, last.span, Nat.le_refl _, last_append rfl _, ?_⟩
  rw [hts]
  show Parse.atom (n + 1) (first :: (ts ++ last :: rest)) = .ok _ rest
  rw [atom_group hfirst, andThen_eq_ok]
  exact ⟨_, _, hread, if_pos hlast⟩

theorem negative {t u : Token} {k : Nat} (ht : t.kind = .minus) (hu : u.kind = .number k)
    (hrange : (Tree.signed .neg (.number k)).InRange) :
    Reached .signed [t, u] (.signed .neg (.number k)) := by
  intro n rest _ hlen
  obtain ⟨n, rfl⟩ := Level.succ_of_steps hlen
  refine ⟨_, u.span, Nat.le_refl _, rfl, ?_⟩
  show Parse.signed (n + 1) (t :: u :: rest) = .ok _ rest
  rw [signed_negative ht hu, number_neg_eq_ok]
  exact ⟨hrange, rfl, rfl⟩

/-- A sign, but not a minus in front of a number. -/
theorem signed {op : UnaryOp} {t : Token} (ht : t.kind = op.token) (hne : ts ≠ [])
    (hnumber : op = .neg → ∀ k, peekKind ts ≠ .number k) (htree : op = .neg → ∀ k, tree ≠ .number k)
    (h : Reached .signed ts tree) : Reached .signed (t :: ts) (.signed op tree) := by
  intro n rest _ hlen
  obtain ⟨n, rfl⟩ := Level.succ_of_steps hlen
  rw [← peekKind_append hne rest] at hnumber
  have hfuel : 4 * (ts ++ rest).length + Level.signed.steps ≤ n := by
    rw [List.cons_append, List.length_cons, Level.steps] at hlen
    rw [Level.steps]
    omega
  obtain ⟨last, hlast, hread⟩ := h.read ⟨rfl, rfl⟩ hfuel
  refine ⟨_, last, Nat.le_refl _, last_append hlast [t], ?_⟩
  show Parse.signed (n + 1) (t :: (ts ++ rest)) = .ok _ rest
  rw [signed_sign ht hnumber, andThen_eq_ok, Tree.expr_signed htree]
  exact ⟨_, _, hread, rfl⟩

theorem binary {op : BinaryOp} {t : Token} {ls rs : List Token} {l r : Tree}
    (hlevel : operatorLevel op = level) (hl : Reached level ls l) (ht : t.kind = op.token)
    (hr : Reached level.tighter rs r) : Reached level (ls ++ t :: rs) (.binary op l r) := by
  intro n rest hstop hlen
  have hts : ls ++ t :: rs ++ rest = ls ++ t :: (rs ++ rest) := by simp
  have hfirst : level.tighter.operator? (peekKind (t :: (rs ++ rest))) = none := by
    show level.tighter.operator? t.kind = none
    rw [ht, ← hlevel]
    cases op <;> rfl
  rw [hts] at hlen ⊢
  -- To the loop with the left operand, and once around it with the right one.
  obtain ⟨m, left, hm, -, hleft⟩ := hl n _ hfirst hlen
  rw [List.length_cons, List.length_append] at hm
  obtain ⟨m, rfl⟩ : ∃ k, m = k + 1 := ⟨m - 1, by omega⟩
  have hfuel : 4 * (rs ++ rest).length + level.tighter.steps ≤ m := by
    have hsteps := level.steps_tighter_le
    rw [List.length_append]
    omega
  obtain ⟨last, hlast, hright⟩ := hr.read ⟨hstop, level.operator?_tighter_tighter _⟩ hfuel
  refine ⟨m, last, by omega, ?_, ?_⟩
  · rw [List.append_cons]
    exact last_append hlast _
  · rw [hleft, Level.loop_operator hlevel _ _ _ ht, hright]
    rfl

theorem tighter (hlevel : level ≠ .atom) (hderives : Derives level.tighter ts tree)
    (h : Reached level.tighter ts tree) : Reached level ts tree := by
  intro n rest hstop hlen
  obtain ⟨n, rfl⟩ := Level.succ_of_steps hlen
  have hfuel : 4 * (ts ++ rest).length + level.tighter.steps ≤ n := by
    have hsteps := Level.steps_tighter hlevel
    omega
  obtain ⟨last, hlast, hread⟩ := h.read ⟨hstop, level.operator?_tighter_tighter _⟩ hfuel
  refine ⟨n, last, ?_, hlast, ?_⟩
  · rw [List.length_append] at hfuel
    omega
  · cases level with
    | sum =>
      have hadd : operatorLevel .add = .sum := rfl
      rw [Level.read_joined hadd, hread]
      rfl
    | product =>
      have hmul : operatorLevel .mul = .product := rfl
      rw [Level.read_joined hmul, hread]
      rfl
    | signed =>
      have hsign : ∀ op : UnaryOp, peekKind (ts ++ rest) ≠ op.token := by
        rw [peekKind_append hderives.ne_nil]
        cases ts with
        | nil => exact absurd rfl hderives.ne_nil
        | cons t ts => exact hderives.not_sign
      exact (signed_atom hsign n).trans hread
    | atom => exact absurd rfl hlevel

end Reached

/-- **What derives is read**, by induction on the derivation. -/
theorem Derives.reached {level : Level} {ts : List Token} {tree : Tree} (h : Derives level ts tree)
    (hrange : tree.InRange) : Reached level ts tree := by
  induction h with
  | number ht => exact .number ht hrange
  | name ht => exact .name ht
  | group hfirst _ hlast ih => exact (ih hrange).group hfirst hlast
  | @signed op t ts tree ht h ih =>
    by_cases hnegative : op = .neg ∧ ∃ k, tree = .number k
    · obtain ⟨rfl, k, rfl⟩ := hnegative
      obtain ⟨-, u, rfl, hu⟩ := h.number_alone (.inl rfl)
      exact .negative ht hu hrange
    · have htree : op = .neg → ∀ k, tree ≠ .number k := by
        intro hneg k hk
        exact hnegative ⟨hneg, k, hk⟩
      have hnumber : op = .neg → ∀ k, peekKind ts ≠ .number k := by
        intro hneg k hk
        exact htree hneg k (h.number_alone (.inr hk)).1
      exact (ih ((Tree.inRange_signed htree).1 hrange)).signed ht h.ne_nil hnumber htree
  | binary hlevel _ ht _ ihl ihr => exact (ihl hrange.1).binary hlevel ht (ihr hrange.2)
  | tighter hlevel h ih => exact (ih hrange).tighter hlevel h

/-! ## Printing -/

/-- The kinds and texts of the tokens of a tree. -/
def Tree.words : Tree → List (TokenKind × String)
  | .number n => [(.number n, toString n)]
  | .name s => [(.ident, s)]
  | .group inner => (.openParen, "(") :: inner.words ++ [(.closeParen, ")")]
  | .signed op inner => (op.token, op.symbol.toString) :: inner.words
  | .binary op left right => left.words ++ (op.token, op.symbol.toString) :: right.words

/-- The kind and the text of a token. -/
def word (t : Token) : TokenKind × String := (t.kind, t.text)

/-- The tree of an expression with parentheses around every operand. -/
def grouped : Expr → Tree
  | .int v => if v.toInt < 0 then .signed .neg (.number v.toInt.natAbs) else .number v.toInt.natAbs
  | .var s => .name s
  | .unary op inner => .signed op (.group (grouped inner))
  | .binary op left right => .binary op (.group (grouped left)) (.group (grouped right))

theorem grouped_inRange (e : Expr) : (grouped e).InRange := by
  induction e with
  | int v =>
    have hmin := v.minValue_le_toInt
    have hmax := v.toInt_le
    rw [Int64.toInt_minValue] at hmin
    rw [Int64.toInt_maxValue] at hmax
    rw [grouped]
    split
    · rw [Tree.InRange]
      omega
    · rw [Tree.InRange]
      omega
  | var s => trivial
  | unary op inner ih =>
    have hgroup : op = .neg → ∀ n, (grouped inner).group ≠ .number n := fun _ _ => nofun
    exact (Tree.inRange_signed hgroup).2 ih
  | binary op left right ihl ihr => exact ⟨ihl, ihr⟩

theorem grouped_expr (e : Expr) : (grouped e).expr = e := by
  induction e with
  | int v =>
    rw [grouped]
    split
    · have hneg : -(v.toInt.natAbs : Int) = v.toInt := by omega
      rw [Tree.expr, hneg, Int64.ofInt_toInt]
    · have hpos : (v.toInt.natAbs : Int) = v.toInt := by omega
      rw [Tree.expr, toInt64_ofNat, hpos, Int64.ofInt_toInt]
  | var s => rfl
  | unary op inner ih =>
    have hgroup : op = .neg → ∀ n, (grouped inner).group ≠ .number n := fun _ _ => nofun
    rw [grouped, Tree.expr_signed hgroup, Tree.expr, ih]
  | binary op left right ihl ihr => rw [grouped, Tree.expr, Tree.expr, Tree.expr, ihl, ihr]

/-- What prints a number derives it. -/
theorem derives_number {n : Nat} {ts : List Token} (h : ts.map word = (Tree.number n).words) :
    Derives .atom ts (.number n) := by
  obtain ⟨t, us, rfl, ht, hus⟩ := List.map_eq_cons_iff.1 h
  rw [List.map_eq_nil_iff.1 hus]
  exact .number (congrArg Prod.fst ht)

/-- Parentheses around what derives if printed. -/
theorem derives_group {tree : Tree} (htree : ∀ {us}, us.map word = tree.words → Derives .sum us tree)
    {ts : List Token} (h : ts.map word = (Tree.group tree).words) : Derives .atom ts (.group tree) := by
  obtain ⟨first, us, rfl, hfirst, hus⟩ := List.map_eq_cons_iff.1 h
  obtain ⟨inner, lasts, rfl, hinner, hlasts⟩ := List.map_eq_append_iff.1 hus
  obtain ⟨last, none, rfl, hlast, hnone⟩ := List.map_eq_cons_iff.1 hlasts
  rw [List.map_eq_nil_iff.1 hnone]
  exact .group (congrArg Prod.fst hfirst) (htree hinner) (congrArg Prod.fst hlast)

theorem derives_grouped (e : Expr) : ∀ {ts : List Token}, ts.map word = (grouped e).words →
    Derives .sum ts (grouped e) := by
  induction e with
  | int v =>
    intro ts h
    rw [grouped] at h ⊢
    split at h
    · rename_i hneg
      rw [if_pos hneg]
      obtain ⟨t, us, rfl, ht, hus⟩ := List.map_eq_cons_iff.1 h
      exact Derives.of_signed (.signed (congrArg Prod.fst ht) ((derives_number hus).of_atom .signed))
    · rename_i hpos
      rw [if_neg hpos]
      exact (derives_number h).of_atom .sum
  | var s =>
    intro ts h
    obtain ⟨t, us, rfl, ht, hus⟩ := List.map_eq_cons_iff.1 h
    rw [List.map_eq_nil_iff.1 hus]
    obtain rfl : t.text = s := congrArg Prod.snd ht
    exact Derives.of_atom (.name (congrArg Prod.fst ht)) .sum
  | unary op inner ih =>
    intro ts h
    obtain ⟨t, us, rfl, ht, hus⟩ := List.map_eq_cons_iff.1 h
    exact Derives.of_signed (.signed (congrArg Prod.fst ht) ((derives_group ih hus).of_atom .signed))
  | binary op left right ihl ihr =>
    intro ts h
    obtain ⟨ls, us, rfl, hls, hus⟩ := List.map_eq_append_iff.1 h
    obtain ⟨t, rs, rfl, ht, hrs⟩ := List.map_eq_cons_iff.1 hus
    have hl := derives_group ihl hls
    have hr := derives_group ihr hrs
    have hbinary : Derives (operatorLevel op) (ls ++ t :: rs) (grouped (.binary op left right)) :=
      .binary rfl (hl.of_atom _) (congrArg Prod.fst ht) (hr.of_atom _)
    cases op with
    | add | sub => exact hbinary
    | mul | div => exact .tighter nofun hbinary

end Grammar

namespace Parse

open Grammar

/-- **The parser accepts the grammar.** An expression is read from the front of some tokens if and only
if those that are taken are written for it and no operator is next. In particular an expression printed
with parentheses around every operand is read back, wherever its tokens stand and whatever is behind
them that is no operator. -/
theorem expr_ok_iff_spells :
    (∀ (ts rest : List Token) (e : ParsedExpr), expr ts = .ok e rest ↔
      ∃ front, ts = front ++ rest ∧ Spells .sum front e ∧ ∀ op : BinaryOp, peekKind rest ≠ op.token) ∧
    ∀ (e : Expr) (ts rest : List Token), ts.map word = (grouped e).words →
      (∀ op : BinaryOp, peekKind rest ≠ op.token) →
        ∃ last, ts.getLast?.map Token.span = some last ∧ expr (ts ++ rest) = .ok ⟨e, last⟩ rest := by
  have hread : ∀ {front rest : List Token} {tree : Tree}, Derives .sum front tree → tree.InRange →
      (∀ op : BinaryOp, peekKind rest ≠ op.token) →
        ∃ last, front.getLast?.map Token.span = some last ∧
          expr (front ++ rest) = .ok ⟨tree.expr, last⟩ rest := fun hderives hrange hstops =>
    (hderives.reached hrange).read (Level.stops_sum_iff.2 hstops) (Nat.le_refl _)
  constructor
  · intro ts rest e
    constructor
    · intro h
      have hsum : Level.sum.read (exprFuel ts.length) ts = .ok e rest := h
      obtain ⟨front, hts, hspells, hstops⟩ := (sound _).read (Nat.le_refl _) hsum
      exact ⟨front, hts, hspells, Level.stops_sum_iff.1 hstops⟩
    · rintro ⟨front, rfl, ⟨tree, hderives, hrange, hexpr, hlast⟩, hstops⟩
      obtain ⟨last, hlast', hok⟩ := hread hderives hrange hstops
      obtain rfl : e.last = last := Option.some.inj (hlast.symm.trans hlast')
      rwa [hexpr] at hok
  · intro e ts rest hprinted hstops
    have hok := hread (derives_grouped e hprinted) (grouped_inRange e) hstops
    rwa [grouped_expr] at hok

/-- A name and a negative number, printed and scanned. -/
theorem expr_ok_iff_spells_difference :
    ∃ ts eof, Token.scan "(a)-(-5)" = .ok (ts ++ [eof]) ∧
      ts.map word = (grouped (.binary .sub (.var "a") (.int (-5)))).words ∧
      ∃ last, expr (ts ++ [eof]) = .ok ⟨.binary .sub (.var "a") (.int (-5)), last⟩ [eof] := by
  have hscan : (Token.scan "(a)-(-5)").toOption = some
      ([⟨.openParen, "(", ⟨1, 1, 0, 1⟩⟩, ⟨.ident, "a", ⟨1, 2, 1, 1⟩⟩, ⟨.closeParen, ")", ⟨1, 3, 2, 1⟩⟩,
        ⟨.minus, "-", ⟨1, 4, 3, 1⟩⟩, ⟨.openParen, "(", ⟨1, 5, 4, 1⟩⟩, ⟨.minus, "-", ⟨1, 6, 5, 1⟩⟩,
        ⟨.number 5, "5", ⟨1, 7, 6, 1⟩⟩, ⟨.closeParen, ")", ⟨1, 8, 7, 1⟩⟩] ++
        [⟨.eof, "", ⟨1, 9, 8, 0⟩⟩]) := by decide +kernel
  rw [toOption_eq_some] at hscan
  have hstops : ∀ op : BinaryOp, peekKind [⟨.eof, "", ⟨1, 9, 8, 0⟩⟩] ≠ op.token := by
    intro op
    cases op <;> nofun
  refine ⟨_, _, hscan, by decide +kernel, ?_⟩
  exact (expr_ok_iff_spells.2 _ _ _ (by decide +kernel) hstops).imp fun last h => h.2

end Parse

end IntelAsm
