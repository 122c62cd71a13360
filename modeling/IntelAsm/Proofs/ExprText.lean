/-
The text of an expression, read back. Messages and listings show expressions
with parentheses around right operands and around operands of signs, where those
are operators between two operands, and never around a left operand. The text is
always scanned and parsed as a whole (`Grammar.written_text`). What is read has
the value of the expression under every assignment, as long as no product has a
sum for its left operand (`Expr.LeftTight`): the sum of `(a + b) * c` stands in
front of the operator without parentheses, and the product takes its last operand
only (`Tree.joined`). Otherwise the reader changes nothing but a minus in front of
a constant, which becomes part of the constant (`Expr.readTree_expr_eq_iff`).

A stretch of characters is followed by a blank, a closing parenthesis or the end
of the text throughout, so each token ends where it should whatever is behind it;
stretches and derivations are put together in step with the printer.
-/
import Mathlib
import IntelAsm.Proofs.ExprGrammar
import IntelAsm.Proofs.Folding
import IntelAsm.Proofs.NumberSpelling
import IntelAsm.Proofs.SourcePieces

namespace IntelAsm

/-! ## Stretches of text -/

namespace Token

/-- A name as it is written in source text. -/
def isName (s : String) : Bool := s.toList.head?.any isWordStart && s.toList.tail.all isWordRest

/-- The token of a character at no place. -/
def mark (kind : TokenKind) (c : Char) : Token := ⟨kind, String.ofList [c], .nowhere⟩

/-- No word goes on with this text. -/
def EndsWord (rest : List Char) : Prop := ∀ c, rest.head? = some c → c = ' ' ∨ c = ')'

/-- The characters are these tokens in front of any text that goes on with no word. -/
def Stretch (cs : List Char) (ts : List Token) : Prop :=
  ∀ {rest us}, EndsWord rest → Scanned rest us → Scanned (cs ++ rest) (ts ++ us)

theorem endsWord_blank (cs : List Char) : EndsWord (' ' :: cs) := by
  rintro c hc
  cases hc
  exact .inl rfl

theorem endsWord_close (cs : List Char) : EndsWord (')' :: cs) := by
  rintro c hc
  cases hc
  exact .inr rfl

theorem EndsWord.span_append {rest : List Char} (hrest : EndsWord rest) {p : Char → Bool}
    (hblank : p ' ' = false) (hclose : p ')' = false) {cs : List Char} (hcs : ∀ c ∈ cs, p c = true) :
    (cs ++ rest).takeWhile p = cs ∧ (cs ++ rest).dropWhile p = rest := by
  rw [List.takeWhile_append_of_pos hcs, List.dropWhile_append_of_pos hcs]
  cases rest with
  | nil => exact ⟨List.append_nil cs, rfl⟩
  | cons d rest =>
    have hd : p d = false := by
      rcases hrest d rfl with rfl | rfl
      · exact hblank
      · exact hclose
    simp [hd]

theorem lexeme_of_isWordStart {c : Char} (hc : isWordStart c = true) (cs : List Char) :
    lexeme c cs = .ok (nameWord c cs) := by
  have hne : ∀ d : Char, isWordStart d = false → c ≠ d := by
    rintro d hd rfl
    rw [hc] at hd
    cases hd
  have hblank : isBlank c = false := by
    simp [isBlank, hne ' ' (by decide), hne '\t' (by decide), hne '\r' (by decide)]
  have hdigit : c.isDigit = false := by
    rw [← Bool.not_eq_true]
    intro hdigit
    have hdigits : ∀ k < 10, isWordStart (Char.ofNat (48 + k)) = false := by decide
    simp only [Char.isDigit, Bool.and_eq_true, decide_eq_true_eq, ge_iff_le,
      UInt32.le_iff_toNat_le] at hdigit
    have hlow : 48 ≤ c.toNat := hdigit.1
    have hhigh : c.toNat ≤ 57 := hdigit.2
    have hfalse := hdigits (c.toNat - 48) (by omega)
    rw [Nat.add_sub_cancel' hlow, Char.ofNat_toNat, hc] at hfalse
    cases hfalse
  simp [lexeme, hblank, hc, hdigit, hne '#' (by decide), hne '/' (by decide), hne '\'' (by decide),
    hne '.' (by decide)]

theorem lexeme_sign (op : UnaryOp) (cs : List Char) :
    lexeme op.symbol cs = .ok (.plain op.token [op.symbol] cs) := by
  cases op <;> rfl

/-- A blank behind the operator, or a slash could start a comment. -/
theorem lexeme_operator (op : BinaryOp) (cs : List Char) :
    lexeme op.symbol (' ' :: cs) = .ok (.plain op.token [op.symbol] (' ' :: cs)) := by
  cases op <;> rfl

theorem Scanned.mark {kind : TokenKind} {c : Char} {cs : List Char} {ts : List Token}
    (hc : lexeme c cs = .ok (.plain kind [c] cs)) (h : Scanned cs ts) :
    Scanned (c :: cs) (mark kind c :: ts) :=
  .step hc h

theorem Scanned.blank {cs : List Char} {ts : List Token} (h : Scanned cs ts) : Scanned (' ' :: cs) ts := by
  have hblank : lexeme ' ' cs = .ok (.skip [' '] cs) := rfl
  exact .step hblank h

namespace Stretch

variable {cs : List Char} {ts : List Token}

theorem number {n : Nat} (hdigit : cs.head?.any Char.isDigit = true)
    (halpha : ∀ c ∈ cs, c.isAlphanum = true) (hn : Numeral.parse? cs = some n) :
    Stretch cs [⟨.number n, String.ofList cs, .nowhere⟩] := by
  obtain ⟨c, cs, rfl, hc⟩ := exists_cons_of_head_isDigit hdigit
  intro rest us hrest h
  obtain ⟨htake, hdrop⟩ :=
    hrest.span_append (by decide) (by decide) fun d hd => halpha d (List.mem_cons_of_mem c hd)
  have hlexeme : lexeme c (cs ++ rest) = .ok (.plain (.number n) (c :: cs) rest) := by
    rw [lexeme_of_isDigit hc]
    simp only [numberWord, htake, hdrop, hn]
  exact .step hlexeme h

theorem name {s : String} (hs : isName s = true) : Stretch s.toList [⟨.ident, s, .nowhere⟩] := by
  rw [isName, Bool.and_eq_true, List.all_eq_true] at hs
  obtain ⟨hstart, hrest⟩ := hs
  obtain ⟨c, cs, hcs⟩ : ∃ c cs, s.toList = c :: cs := by
    cases hlist : s.toList with
    | nil =>
      rw [hlist] at hstart
      cases hstart
    | cons c cs => exact ⟨c, cs, rfl⟩
  obtain rfl : s = String.ofList (c :: cs) := by rw [← hcs, String.ofList_toList]
  rw [hcs] at hstart hrest ⊢
  intro rest us hend h
  obtain ⟨htake, hdrop⟩ := hend.span_append (by decide) (by decide) hrest
  have hlexeme : lexeme c (cs ++ rest) = .ok (.plain .ident (c :: cs) rest) := by
    rw [lexeme_of_isWordStart hstart]
    simp only [nameWord, List.tail_cons] at htake hdrop ⊢
    rw [htake, hdrop]
    split
    · rcases hend ':' rfl with hcolon | hcolon <;> cases hcolon
    · rfl
  exact .step hlexeme h

theorem sign (op : UnaryOp) (h : Stretch cs ts) :
    Stretch (op.symbol :: cs) (mark op.token op.symbol :: ts) :=
  fun hrest hus => .mark (lexeme_sign op _) (h hrest hus)

theorem group (h : Stretch cs ts) :
    Stretch ('(' :: cs ++ [')']) (mark .openParen '(' :: ts ++ [mark .closeParen ')']) := by
  intro rest us _ hus
  rw [List.append_assoc, List.append_assoc]
  exact .mark rfl (h (endsWord_close rest) (.mark rfl hus))

theorem operator {ls rs : List Char} {lts rts : List Token} (op : BinaryOp) (hl : Stretch ls lts)
    (hr : Stretch rs rts) :
    Stretch (ls ++ ' ' :: op.symbol :: ' ' :: rs) (lts ++ mark op.token op.symbol :: rts) := by
  intro rest us hrest hus
  have hright : Scanned (' ' :: (rs ++ rest)) (rts ++ us) := (hr hrest hus).blank
  rw [List.append_assoc, List.append_assoc]
  exact hl (endsWord_blank _) (hright.mark (lexeme_operator op _)).blank

end Stretch
end Token

/-! ## Numbers -/

/-- The digits that are printed for a number are the number. -/
theorem Numeral.writes_toDigits {radix : Nat} (hradix : 1 < radix) (hr : radix ≤ 16) (n : Nat) :
    Writes radix (Nat.toDigits radix n) n := by
  have hlower : ∀ d < 16, (Nat.digitChar d).toLower = Nat.digitChar d := by decide
  refine ⟨Nat.toDigits_ne_nil, ?_⟩
  induction n using Nat.strongRecOn with
  | _ n ih =>
    by_cases hn : n < radix
    · rw [Nat.toDigits_of_lt_base hn]
      exact ⟨[n], by simpa using hn, by simp [hlower n (by omega)], by simp⟩
    · have hmod : n % radix < radix := Nat.mod_lt n (by omega)
      obtain ⟨ds, hds, hcs, hvalue⟩ := ih (n / radix) (Nat.div_lt_self (by omega) hradix)
      rw [Nat.toDigits_of_base_le hradix (by omega)]
      refine ⟨ds ++ [n % radix], ?_, ?_, ?_⟩
      · simpa [or_imp, forall_and] using ⟨hds, hmod⟩
      · simp [hcs, hlower _ (hmod.trans_le hr)]
      · rw [List.reverse_append, List.reverse_singleton, List.singleton_append, Nat.ofDigits_cons, hvalue]
        exact Nat.mod_add_div n radix

/-! ## Trees -/

namespace Grammar

theorem isAdditive_iff {op : BinaryOp} : op.isAdditive = true ↔ operatorLevel op = .sum := by
  cases op <;> simp [BinaryOp.isAdditive, operatorLevel]

theorem not_isAdditive_iff {op : BinaryOp} : op.isAdditive = false ↔ operatorLevel op = .product := by
  cases op <;> simp [BinaryOp.isAdditive, operatorLevel]

namespace Tree

/-- Whether the last operator of the tree is that of a sum. -/
def isSum : Tree → Bool
  | .binary op _ _ => op.isAdditive
  | _ => false

/-- What is read where an operator and an operand stand behind the tokens of a tree. An operator of
products takes the last operand of a sum from it. -/
def joined (op : BinaryOp) : Tree → Tree → Tree
  | .binary o a b, right =>
    if o.isAdditive = true ∧ op.isAdditive = false then .binary o a (.binary op b right)
    else .binary op (.binary o a b) right
  | left, right => .binary op left right

variable {op o : BinaryOp} {left right a b : Tree}

theorem joined_tight (h : op.isAdditive = true ∨ left.isSum = false) :
    joined op left right = .binary op left right := by
  cases left with
  | binary o a b =>
    have hnot : ¬ (o.isAdditive = true ∧ op.isAdditive = false) := by
      rintro ⟨ho, hop⟩
      rcases h with h | h
      · cases h.symm.trans hop
      · cases h.symm.trans ho
    exact if_neg hnot
  | _ => rfl

theorem joined_sum (ho : o.isAdditive = true) (hop : op.isAdditive = false) :
    joined op (.binary o a b) right = .binary o a (.binary op b right) :=
  if_pos ⟨ho, hop⟩

theorem joined_inRange (hl : left.InRange) (hr : right.InRange) : (joined op left right).InRange := by
  cases left with
  | binary o a b =>
    rw [joined]
    split
    · exact ⟨hl.1, hl.2, hr⟩
    · exact ⟨hl, hr⟩
  | _ => exact ⟨hl, hr⟩

end Tree

/-- Only sums derive a tree with the operator of one last. -/
theorem Derives.level_of_isSum {level : Level} {ts : List Token} {tree : Tree}
    (h : Derives level ts tree) (hsum : tree.isSum = true) : level = .sum := by
  induction h with
  | binary hlevel _ _ _ => exact hlevel.symm.trans (isAdditive_iff.1 hsum)
  | @tighter level _ _ _ _ ih =>
    have htighter := ih hsum
    cases level <;> cases htighter
  | _ => cases hsum

/-- **An operator behind a sum**: it goes on with the whole sum, or with its last operand. -/
theorem Derives.joined {op : BinaryOp} {t : Token} {ls rs : List Token} {l r : Tree}
    (hl : Derives .sum ls l) (ht : t.kind = op.token) (hr : Derives .signed rs r) :
    Derives .sum (ls ++ t :: rs) (.joined op l r) := by
  cases hop : op.isAdditive with
  | true =>
    rw [Tree.joined_tight (.inl hop)]
    exact .binary (isAdditive_iff.1 hop) hl ht (.tighter nofun hr)
  | false =>
    have hlevel := not_isAdditive_iff.1 hop
    cases hl with
    | binary ho hl' ht' hr' =>
      -- The last operand of a sum is a product already, and goes on as one.
      rw [Tree.joined_sum (isAdditive_iff.2 ho) hop, List.append_assoc]
      exact .binary ho hl' ht' (.binary hlevel hr' ht hr)
    | tighter _ h =>
      have hsum : l.isSum = false := by
        rw [← Bool.not_eq_true]
        intro hsum
        cases h.level_of_isSum hsum
      rw [Tree.joined_tight (.inr hsum)]
      exact .tighter nofun (.binary hlevel h ht hr)

/-- Places do not matter to a derivation. -/
theorem Derives.of_bare {level : Level} {ts : List Token} {tree : Tree}
    (h : Derives level (ts.map (Token.revise .bare)) tree) : Derives level ts tree := by
  generalize hus : ts.map (Token.revise .bare) = us at h
  induction h generalizing ts with
  | number ht =>
    obtain ⟨t, none, rfl, rfl, hnone⟩ := List.map_eq_cons_iff.1 hus
    rw [List.map_eq_nil_iff.1 hnone]
    exact .number ht
  | name ht =>
    obtain ⟨t, none, rfl, rfl, hnone⟩ := List.map_eq_cons_iff.1 hus
    rw [List.map_eq_nil_iff.1 hnone]
    exact .name ht
  | group hfirst _ hlast ih =>
    obtain ⟨front, lasts, rfl, hfront, hlasts⟩ := List.map_eq_append_iff.1 hus
    obtain ⟨first, inner, rfl, rfl, hinner⟩ := List.map_eq_cons_iff.1 hfront
    obtain ⟨last, none, rfl, rfl, hnone⟩ := List.map_eq_cons_iff.1 hlasts
    rw [List.map_eq_nil_iff.1 hnone]
    exact .group hfirst (ih hinner) hlast
  | signed ht _ ih =>
    obtain ⟨t, inner, rfl, rfl, hinner⟩ := List.map_eq_cons_iff.1 hus
    exact .signed ht (ih hinner)
  | binary hlevel _ ht _ ihl ihr =>
    obtain ⟨ls, us, rfl, hls, hus⟩ := List.map_eq_append_iff.1 hus
    obtain ⟨t, rs, rfl, rfl, hrs⟩ := List.map_eq_cons_iff.1 hus
    exact .binary hlevel (ihl hls) ht (ihr hrs)
  | tighter hlevel _ ih => exact .tighter hlevel (ih hus)

end Grammar

/-! ## Expressions -/

namespace Expr

open Grammar

/-- Whether the tree is a sum or a difference. -/
def isSum : Expr → Bool
  | .binary op _ _ => op.isAdditive
  | _ => false

/-- No product has a sum for its left operand. -/
def LeftTight : Expr → Prop
  | .int _ | .var _ => True
  | .unary _ inner => inner.LeftTight
  | .binary op left right =>
    (op.isAdditive = true ∨ left.isSum = false) ∧ left.LeftTight ∧ right.LeftTight

/-- No minus stands in front of a constant that is not negative. -/
def SignsFolded : Expr → Prop
  | .int _ | .var _ => True
  | .unary op inner => (op = .neg → ∀ v : Int64, inner = .int v → v.toInt < 0) ∧ inner.SignsFolded
  | .binary _ left right => left.SignsFolded ∧ right.SignsFolded

/-- The tree that the text is read as. -/
def readTree : Expr → Tree
  | .int v => grouped (.int v)
  | .var name => .name name
  | .unary op inner => .signed op (if inner.isBinary then .group inner.readTree else inner.readTree)
  | .binary op left right =>
    .joined op left.readTree (if right.isBinary then .group right.readTree else right.readTree)

/-- The text where an operand is due that binds tight. -/
def operandText (e : Expr) : String := if e.isBinary then "(" ++ e.text ++ ")" else e.text

/-- The tree that the text of a tight operand is read as. -/
def operandTree (e : Expr) : Tree := if e.isBinary then .group e.readTree else e.readTree

theorem readTree_unary (op : UnaryOp) (inner : Expr) :
    (unary op inner).readTree = .signed op inner.operandTree := rfl

theorem readTree_binary (op : BinaryOp) (left right : Expr) :
    (binary op left right).readTree = .joined op left.readTree right.operandTree := rfl

theorem toList_text_unary (op : UnaryOp) (inner : Expr) :
    (unary op inner).text.toList = op.symbol :: inner.operandText.toList := by
  show (op.symbol.toString ++ inner.operandText).toList = _
  simp

theorem toList_text_binary (op : BinaryOp) (left right : Expr) :
    (binary op left right).text.toList =
      left.text.toList ++ ' ' :: op.symbol :: ' ' :: right.operandText.toList := by
  show (left.text ++ " " ++ op.symbol.toString ++ " " ++ right.operandText).toList = _
  simp

end Expr

/-! ## Derivations of a text -/

namespace Grammar

/-- The characters are tokens that a tree is written with. -/
def Written (level : Level) (cs : List Char) (tree : Tree) : Prop :=
  ∃ ts, Token.Stretch cs ts ∧ Derives level ts tree

namespace Written

variable {cs : List Char} {tree : Tree}

theorem of_atom (h : Written .atom cs tree) : Written .signed cs tree :=
  h.imp fun _ h => ⟨h.1, h.2.of_atom .signed⟩

theorem name {s : String} (hs : Token.isName s = true) : Written .atom s.toList (.name s) :=
  ⟨_, Token.Stretch.name hs, .name rfl⟩

theorem spelling {n : Nat} (h : Numeral.Spells cs n) (hn : n < Numeral.limit)
    (hclash : Numeral.clashes cs = false) : Written .atom cs (.number n) := by
  have hdigit := h.head_isDigit
  have hparse := (Numeral.parse?_eq_some_iff hdigit).2 ⟨h, hn, hclash⟩
  exact ⟨_, Token.Stretch.number hdigit (fun _ hc => h.isAlphanum hc) hparse, .number rfl⟩

theorem group (h : Written .sum cs tree) : Written .atom ('(' :: cs ++ [')']) (.group tree) := by
  obtain ⟨ts, hts, hderives⟩ := h
  exact ⟨_, hts.group, .group rfl hderives rfl⟩

theorem signed (op : UnaryOp) (h : Written .signed cs tree) :
    Written .signed (op.symbol :: cs) (.signed op tree) := by
  obtain ⟨ts, hts, hderives⟩ := h
  exact ⟨_, hts.sign op, .signed rfl hderives⟩

theorem joined {ls rs : List Char} {l r : Tree} (op : BinaryOp) (hl : Written .sum ls l)
    (hr : Written .signed rs r) :
    Written .sum (ls ++ ' ' :: op.symbol :: ' ' :: rs) (.joined op l r) := by
  obtain ⟨lts, hlts, hleft⟩ := hl
  obtain ⟨rts, hrts, hright⟩ := hr
  exact ⟨_, hlts.operator op hrts, hleft.joined rfl hright⟩

theorem markedHex {n : Nat} (hn : n < Numeral.limit) :
    Written .atom (Text.markedHex n).toList (.number n) := by
  have hlist : (Text.markedHex n).toList = '0' :: 'x' :: Nat.toDigits 16 n := by
    simp [Text.markedHex, Text.hex]
  have hmark : Numeral.mark? 'x' = some 16 := rfl
  rw [hlist]
  exact spelling (.marked hmark (Numeral.writes_toDigits (by decide) (by decide) n)) hn rfl

theorem digit {n : Nat} (hn : n < 10) : Written .atom (toString n).toList (.number n) := by
  have hlimit : n < Numeral.limit := hn.trans (by decide)
  have hlist : (toString n).toList = Nat.toDigits 10 n := by simp
  have hclash : Numeral.clashes (Nat.toDigits 10 n) = false := by
    simp [Nat.toDigits_of_lt_base hn, Numeral.clashes]
  rw [hlist]
  exact spelling (.decimal (Numeral.writes_toDigits (by decide) (by decide) n)) hlimit hclash

theorem constant (v : Int64) : Written .signed (Expr.constantText v).toList (grouped (.int v)) := by
  have hlimit : v.toInt.natAbs < Numeral.limit := by
    have hmin := v.le_toInt
    have hmax := v.toInt_lt
    rw [show Numeral.limit = 2 ^ 127 from rfl]
    omega
  rw [grouped]
  simp only [Expr.constantText]
  by_cases hneg : v.toInt < 0
  · rw [if_pos hneg, if_pos hneg, String.toList_append]
    exact (markedHex hlimit).of_atom.signed .neg
  · have habs : v.toInt.natAbs = v.toInt.toNat := by omega
    rw [if_neg hneg, if_neg hneg, habs]
    rw [habs] at hlimit
    by_cases hlong : 9 < v.toInt
    · rw [if_pos hlong]
      exact (markedHex hlimit).of_atom
    · rw [if_neg hlong]
      exact (digit (by omega)).of_atom

section Operand

variable {e : Expr} (h : Written (if e.isBinary then .sum else .signed) e.text.toList e.readTree)
include h

theorem sum : Written .sum e.text.toList e.readTree := by
  cases hbinary : e.isBinary with
  | true =>
    rw [hbinary] at h
    exact h
  | false =>
    rw [hbinary] at h
    exact h.imp fun _ h => ⟨h.1, h.2.of_signed⟩

/-- An operand with its parentheses. -/
theorem operand : Written .signed e.operandText.toList e.operandTree := by
  rw [Expr.operandText, Expr.operandTree]
  cases hbinary : e.isBinary with
  | false =>
    rw [hbinary] at h
    exact h
  | true =>
    rw [hbinary] at h
    have hlist : ("(" ++ e.text ++ ")").toList = '(' :: e.text.toList ++ [')'] := by simp
    rw [if_pos rfl, if_pos rfl, hlist]
    exact h.group.of_atom

end Operand
end Written

/-- **The text of an expression derives**: as a sum where it has an operator between operands at the
top, and as an operand of a product without parentheses where it has none. -/
theorem written_text {e : Expr} (hnames : ∀ n ∈ e.names, Token.isName n = true) :
    Written (if e.isBinary then .sum else .signed) e.text.toList e.readTree := by
  induction e with
  | int v => exact .constant v
  | var name => exact (Written.name (hnames name (by simp [Expr.names]))).of_atom
  | unary op inner ih =>
    rw [Expr.toList_text_unary, Expr.readTree_unary]
    exact (ih hnames).operand.signed op
  | binary op left right ihl ihr =>
    simp only [Expr.names, List.mem_append] at hnames
    have hleft := ihl fun n hn => hnames n (.inl hn)
    have hright := ihr fun n hn => hnames n (.inr hn)
    rw [Expr.toList_text_binary, Expr.readTree_binary]
    exact hleft.sum.joined op hright.operand

end Grammar

/-! ## Values -/

namespace Expr

open Grammar

variable {e : Expr}

theorem operandTree_expr (e : Expr) : e.operandTree.expr = e.readTree.expr := by
  rw [operandTree]
  split <;> rfl

/-- Of operands, only constants that are not negative are read as a number. -/
theorem operandTree_eq_number {n : Nat} (h : e.operandTree = .number n) :
    ∃ v : Int64, e = .int v ∧ v.toInt = n := by
  cases e with
  | int v =>
    have htree : grouped (.int v) = .number n := h
    rw [grouped] at htree
    split at htree
    · cases htree
    · cases htree
      exact ⟨v, rfl, by omega⟩
  | var name => cases h
  | unary op inner => cases h
  | binary op left right => cases h

theorem operandTree_int {v : Int64} (hv : 0 ≤ v.toInt) : (int v).operandTree = .number v.toInt.natAbs :=
  if_neg (Int.not_lt.2 hv)

/-- A minus in front of a constant becomes part of it, and any other sign stays. -/
theorem signed_cases (op : UnaryOp) (inner : Expr) :
    (∃ (v : Int64) (n : Nat), op = .neg ∧ inner = .int v ∧ v.toInt = n ∧
      inner.operandTree = .number n) ∨
    ((op = .neg → ∀ n, inner.operandTree ≠ .number n) ∧
      (op = .neg → ∀ v : Int64, inner = .int v → v.toInt < 0)) := by
  by_cases hfold : op = .neg ∧ ∃ n, inner.operandTree = .number n
  · obtain ⟨hop, n, hn⟩ := hfold
    obtain ⟨v, hv, hvalue⟩ := operandTree_eq_number hn
    exact .inl ⟨v, n, hop, hv, hvalue, hn⟩
  · have hnumber : op = .neg → ∀ n, inner.operandTree ≠ .number n := fun hop n hn => hfold ⟨hop, n, hn⟩
    refine .inr ⟨hnumber, ?_⟩
    rintro hop v rfl
    by_contra hv
    exact hnumber hop _ (operandTree_int (Int.not_lt.1 hv))

theorem operandTree_inRange (h : e.readTree.InRange) : e.operandTree.InRange := by
  rw [operandTree]
  split
  · exact h
  · exact h

theorem readTree_inRange (e : Expr) : e.readTree.InRange := by
  induction e with
  | int v => exact grouped_inRange (.int v)
  | var name => trivial
  | unary op inner ih =>
    rw [readTree_unary]
    rcases signed_cases op inner with ⟨v, n, rfl, -, hv, hn⟩ | ⟨hnumber, -⟩
    · have hmax := v.toInt_lt
      rw [hn, Tree.InRange]
      omega
    · exact (Tree.inRange_signed hnumber).2 (operandTree_inRange ih)
  | binary op left right ihl ihr => exact Tree.joined_inRange ihl (operandTree_inRange ihr)

/-- The last operator stays the last one, if no product takes an operand from a sum. -/
theorem LeftTight.isSum_readTree (h : e.LeftTight) : e.readTree.isSum = e.isSum := by
  induction e with
  | int v =>
    show (grouped (.int v)).isSum = false
    rw [grouped]
    split <;> rfl
  | var name => rfl
  | unary op inner _ => rfl
  | binary op left right ihl _ =>
    obtain ⟨hleft, hl, -⟩ := h
    rw [← ihl hl] at hleft
    rw [readTree_binary, Tree.joined_tight hleft]
    rfl

theorem LeftTight.readTree_binary {op : BinaryOp} {left right : Expr} (h : (binary op left right).LeftTight) :
    (binary op left right).readTree = .binary op left.readTree right.operandTree := by
  obtain ⟨hleft, hl, -⟩ := h
  rw [← hl.isSum_readTree] at hleft
  exact Tree.joined_tight hleft

/-- **What is read has the same value**, and the same failure. -/
theorem LeftTight.resolve_readTree (h : e.LeftTight) (lookup : String → Option Int64) :
    e.readTree.expr.resolve lookup = e.resolve lookup := by
  induction e with
  | int v => rw [readTree, grouped_expr]
  | var name => rfl
  | unary op inner ih =>
    rw [readTree_unary]
    rcases signed_cases op inner with ⟨v, n, rfl, rfl, hv, hn⟩ | ⟨hnumber, -⟩
    · have hmax := v.toInt_lt
      have hneg : UnaryOp.neg.apply v = .ok (Int64.ofInt (-n)) := by
        rw [UnaryOp.apply, exact64_eq_ok_iff, UnaryOp.denote, hv]
        exact Int64.toInt_ofInt_of_le (by omega) (by omega)
      rw [hn, Tree.expr, resolve, resolve, resolve]
      show _ = arithmetic (UnaryOp.neg.apply v)
      rw [hneg]
      rfl
    · rw [Tree.expr_signed hnumber, operandTree_expr]
      exact resolve_unary_congr op (ih h)
  | binary op left right ihl ihr =>
    rw [h.readTree_binary, Tree.expr, operandTree_expr]
    exact resolve_binary_congr op (ihl h.2.1) (ihr h.2.2)

/-- A product that loses an operand to a sum is no longer what comes last. -/
theorem isSum_joined {op : BinaryOp} {l r : Tree} (hop : op.isAdditive = false) (hl : l.isSum = true) :
    (Tree.joined op l r).expr.isSum = true := by
  cases l with
  | binary o a b =>
    rw [Tree.joined_sum hl hop]
    exact hl
  | _ => cases hl

/-- **What is read is the expression itself**, if no product takes an operand from a sum and no minus
is taken into a constant. -/
theorem readTree_expr_eq_iff (e : Expr) : e.readTree.expr = e ↔ e.LeftTight ∧ e.SignsFolded := by
  induction e with
  | int v => exact iff_of_true (grouped_expr (.int v)) ⟨trivial, trivial⟩
  | var name => exact iff_of_true rfl ⟨trivial, trivial⟩
  | unary op inner ih =>
    rw [readTree_unary]
    rcases signed_cases op inner with ⟨v, n, rfl, rfl, hv, hn⟩ | ⟨hnumber, hfolded⟩
    · rw [hn, Tree.expr]
      constructor
      · intro h
        cases h
      · rintro ⟨-, hfolded, -⟩
        have hneg := hfolded rfl v rfl
        omega
    · rw [Tree.expr_signed hnumber, operandTree_expr, unary.injEq, ih, LeftTight, SignsFolded]
      constructor
      · rintro ⟨-, hl, hs⟩
        exact ⟨hl, hfolded, hs⟩
      · rintro ⟨hl, -, hs⟩
        exact ⟨rfl, hl, hs⟩
  | binary op left right ihl ihr =>
    constructor
    · intro h
      have htight : op.isAdditive = true ∨ left.readTree.isSum = false := by
        by_contra hloose
        rw [not_or, Bool.not_eq_true, Bool.not_eq_false] at hloose
        have hsum : (binary op left right).isSum = true := by
          rw [← h]
          exact isSum_joined hloose.1 hloose.2
        cases hloose.1.symm.trans hsum
      rw [Expr.readTree_binary, Tree.joined_tight htight, Tree.expr, operandTree_expr,
        binary.injEq] at h
      obtain ⟨hl, hlfolded⟩ := ihl.1 h.2.1
      obtain ⟨hr, hrfolded⟩ := ihr.1 h.2.2
      rw [hl.isSum_readTree] at htight
      exact ⟨⟨htight, hl, hr⟩, hlfolded, hrfolded⟩
    · rintro ⟨htight, hlfolded, hrfolded⟩
      rw [htight.readTree_binary, Tree.expr, operandTree_expr, ihl.2 ⟨htight.2.1, hlfolded⟩,
        ihr.2 ⟨htight.2.2, hrfolded⟩]

/-! ## Reading back -/

/-- **Expressions are shown as they are read**, as long as no product has a sum for its left operand.
The text of an expression over names of the language is scanned and parsed up to its end, with the
same value or failure then under every assignment of symbols; and it is the same tree that comes
back, unless a minus is taken into a constant or a product takes an operand from a sum. -/
theorem text_reads_back (e : Expr) (hnames : ∀ n ∈ e.names, Token.isName n = true) :
    ∃ ts eof last, Token.scan e.text = .ok (ts ++ [eof]) ∧ eof.kind = .eof ∧
      Parse.expr (ts ++ [eof]) = .ok ⟨e.readTree.expr, last⟩ [eof] ∧
      (e.LeftTight → ∀ lookup, e.readTree.expr.resolve lookup = e.resolve lookup) ∧
      (e.readTree.expr = e ↔ e.LeftTight ∧ e.SignsFolded) := by
  obtain ⟨us, hus, hderives⟩ := (written_text hnames).sum
  have hscanned : Token.Scanned e.text.toList us := by
    have hnone : Token.EndsWord [] := nofun
    have hall := hus hnone .nil
    rwa [List.append_nil, List.append_nil] at hall
  obtain ⟨tokens, hscan, hbare⟩ := hscanned.scanFrom (Nat.le_refl _) .start
  obtain ⟨ts, lasts, rfl, rfl, hlasts⟩ := List.map_eq_append_iff.1 hbare
  obtain ⟨eof, none, rfl, heof, hnone⟩ := List.map_eq_cons_iff.1 hlasts
  obtain rfl := List.map_eq_nil_iff.1 hnone
  have hkind : eof.kind = .eof := congrArg Token.kind heof
  have hstops : Level.sum.Stops (Parse.peekKind [eof]) := by
    rw [show Parse.peekKind [eof] = eof.kind from rfl, hkind]
    exact ⟨rfl, rfl⟩
  obtain ⟨last, -, hread⟩ :=
    (hderives.of_bare.reached e.readTree_inRange).read hstops (Nat.le_refl _)
  exact ⟨ts, eof, last, hscan, hkind, hread, LeftTight.resolve_readTree, e.readTree_expr_eq_iff⟩

/-- A product behind the operator and the least constant; the 5 takes its sign. -/
theorem text_reads_back_nested :
    (∀ n ∈ ["a.b"], Token.isName n = true) ∧
    ∃ ts eof last, Token.scan "-5 - (a.b * -0x8000000000000000)" = .ok (ts ++ [eof]) ∧ eof.kind = .eof ∧
      Parse.expr (ts ++ [eof]) =
        .ok ⟨.binary .sub (.int (-5)) (.binary .mul (.var "a.b") (.int .minValue)), last⟩ [eof] ∧
      ∀ lookup, (binary .sub (.int (-5)) (.binary .mul (.var "a.b") (.int .minValue))).resolve lookup =
        (binary .sub (.unary .neg (.int 5)) (.binary .mul (.var "a.b") (.int .minValue))).resolve lookup := by
  have hnames : ∀ n ∈ ["a.b"], Token.isName n = true := by decide +kernel
  have htext : "-5 - (a.b * -0x8000000000000000)" =
      (binary .sub (.unary .neg (.int 5)) (.binary .mul (.var "a.b") (.int .minValue))).text := by
    decide +kernel
  obtain ⟨ts, eof, last, hscan, heof, hread, hvalue, -⟩ :=
    text_reads_back (.binary .sub (.unary .neg (.int 5)) (.binary .mul (.var "a.b") (.int .minValue)))
      hnames
  rw [htext]
  exact ⟨hnames, ts, eof, last, hscan, heof, hread, hvalue ⟨.inl rfl, trivial, .inr rfl, trivial, trivial⟩⟩

/-- The text of `(a + b) * c` has no parentheses and is read as `a + (b * c)`. -/
theorem text_of_product_of_sum :
    (binary .mul (.binary .add (.var "a") (.var "b")) (.var "c")).text = "a + b * c" ∧
    (∃ ts eof last, Token.scan "a + b * c" = .ok (ts ++ [eof]) ∧ Parse.expr (ts ++ [eof]) =
      .ok ⟨.binary .add (.var "a") (.binary .mul (.var "b") (.var "c")), last⟩ [eof]) ∧
    ∃ lookup : String → Option Int64,
      (binary .mul (.binary .add (.var "a") (.var "b")) (.var "c")).resolve lookup = .ok 9 ∧
      (binary .add (.var "a") (.binary .mul (.var "b") (.var "c"))).resolve lookup = .ok 7 := by
  have hscan : (Token.scan "a + b * c").toOption = some
      ([⟨.ident, "a", ⟨1, 1, 0, 1⟩⟩, ⟨.plus, "+", ⟨1, 3, 2, 1⟩⟩, ⟨.ident, "b", ⟨1, 5, 4, 1⟩⟩,
        ⟨.star, "*", ⟨1, 7, 6, 1⟩⟩, ⟨.ident, "c", ⟨1, 9, 8, 1⟩⟩] ++ [⟨.eof, "", ⟨1, 10, 9, 0⟩⟩]) := by
    decide +kernel
  refine ⟨by decide +kernel, ⟨_, _, _, toOption_eq_some.1 hscan, rfl⟩, ?_⟩
  refine ⟨fun n => if n = "a" then some 1 else if n = "b" then some 2 else some 3, ?_, ?_⟩
  · decide +kernel
  · decide +kernel

end Expr
end IntelAsm
