/-
Numbers and their spellings. A number has spellings in decimal, behind one of the
marks `0x`, `0b` and `0o`, and in base 16 in front of an `h` (`Numeral.Spells`). A
word that starts with a digit is read as the number it spells
(`Numeral.parse?_eq_some_iff`), unless it spells one in front of an `h` with digits
that start like the mark of base 2: `0b1h` spells 177 and is refused
(`Numeral.clashes`). No other spelling looks like one of another kind.
-/
import Mathlib
import IntelAsm.Proofs.CaseFolding

namespace IntelAsm

namespace Numeral

/-! ## Spellings -/

/-- The digits `cs` are the number `n` in base `radix`. They may have letters of either case, and any
number of zeros in front. -/
def Writes (radix : Nat) (cs : List Char) (n : Nat) : Prop :=
  cs ≠ [] ∧ ∃ ds : List Nat, (∀ d ∈ ds, d < radix) ∧ cs.map Char.toLower = ds.map Nat.digitChar ∧
    Nat.ofDigits radix ds.reverse = n

/-- The words that a number can be spelled with. -/
inductive Spells : List Char → Nat → Prop where
  | decimal {cs : List Char} {n : Nat} (hcs : Writes 10 cs n) : Spells cs n
  | marked {m : Char} {radix : Nat} {cs : List Char} {n : Nat} (hm : mark? m = some radix)
      (hcs : Writes radix cs n) : Spells ('0' :: m :: cs) n
  | hexadecimal {cs : List Char} {h : Char} {n : Nat} (hdigit : cs.head?.any Char.isDigit = true)
      (hh : isHexMark h = true) (hcs : Writes 16 cs n) : Spells (cs ++ [h]) n

/-- Whether a word that ends in `h` has digits that start like the mark of base 2. -/
def clashes : List Char → Bool
  | '0' :: m :: cs => mark? m = some 2 && cs.getLast?.any isHexMark
  | _ => false

/-! ## Digits -/

theorem digit?_digitChar : ∀ d < 16, digit? (Nat.digitChar d) = some d := by decide

theorem toLower_of_digit? {c : Char} {d : Nat} (hd : d < 16) (h : digit? c = some d) :
    c.toLower = Nat.digitChar d := by
  have hdecimal : ∀ k < 10, (Char.ofNat (48 + k)).toLower = Nat.digitChar k := by decide
  have hlower : ∀ k < 6, (Char.ofNat (97 + k)).toLower = Nat.digitChar (k + 10) := by decide
  have hupper : ∀ k < 6, (Char.ofNat (65 + k)).toLower = Nat.digitChar (k + 10) := by decide
  have hplace : ∀ base : Nat, base ≤ c.toNat → Char.ofNat (base + (c.toNat - base)) = c := by
    intro base hbase
    rw [Nat.add_sub_cancel' hbase, Char.ofNat_toNat]
  unfold digit? at h
  simp only [Char.le_def, UInt32.le_iff_toNat_le] at h
  split at h
  · rename_i hrange
    have hrange : 48 ≤ c.toNat ∧ c.toNat ≤ 57 := hrange
    cases h
    have hchar := hdecimal (c.toNat - 48) (by omega)
    rwa [hplace 48 hrange.1] at hchar
  split at h
  · rename_i hrange
    have hrange : 97 ≤ c.toNat ∧ c.toNat ≤ 122 := hrange
    have hd' : c.toNat - 97 + 10 = d := Option.some.inj h
    have hchar := hlower (c.toNat - 97) (by omega)
    rwa [hplace 97 hrange.1, hd'] at hchar
  split at h
  · rename_i hrange
    have hrange : 65 ≤ c.toNat ∧ c.toNat ≤ 90 := hrange
    have hd' : c.toNat - 65 + 10 = d := Option.some.inj h
    have hchar := hupper (c.toNat - 65) (by omega)
    rwa [hplace 65 hrange.1, hd'] at hchar
  · cases h

theorem digitIn?_eq_some_iff {radix : Nat} (hr : radix ≤ 16) {c : Char} {d : Nat} :
    digitIn? radix c = some d ↔ d < radix ∧ c.toLower = Nat.digitChar d := by
  rw [digitIn?, Option.filter_eq_some_iff, decide_eq_true_eq]
  constructor
  · rintro ⟨h, hd⟩
    exact ⟨hd, toLower_of_digit? (hd.trans_le hr) h⟩
  · rintro ⟨hd, h⟩
    refine ⟨?_, hd⟩
    rw [← digit?_toLower, h, digit?_digitChar d (hd.trans_le hr)]

theorem continue?_eq_some_iff {radix : Nat} (hr : radix ≤ 16) {acc n : Nat} {cs : List Char} :
    continue? radix acc cs = some n ↔
      ∃ ds : List Nat, (∀ d ∈ ds, d < radix) ∧ cs.map Char.toLower = ds.map Nat.digitChar ∧
        ds.foldl (fun acc d => acc * radix + d) acc = n := by
  induction cs generalizing acc with
  | nil => simp [continue?]
  | cons c cs ih =>
    have hstep : continue? radix acc (c :: cs) =
      (digitIn? radix c).bind fun d => continue? radix (acc * radix + d) cs := rfl
    rw [hstep, Option.bind_eq_some_iff]
    simp only [digitIn?_eq_some_iff hr, ih, List.map_cons]
    constructor
    · rintro ⟨d, ⟨hd, hc⟩, ds, hds, hcs, rfl⟩
      exact ⟨d :: ds, by simpa using ⟨hd, hds⟩, by rw [hc, hcs, List.map_cons], rfl⟩
    · rintro ⟨ds, hds, hcs, rfl⟩
      obtain ⟨d, ds, rfl, hc, hcs⟩ := List.map_eq_cons_iff.1 hcs.symm
      have hd := hds d (by simp)
      have hrest : ∀ d ∈ ds, d < radix := fun d hmem => hds d (by simp [hmem])
      exact ⟨d, ⟨hd, hc.symm⟩, ds, hrest, hcs.symm, rfl⟩

/-- **Digits are read as the number they are.** -/
theorem ofDigits?_eq_some_iff {radix : Nat} (hr : radix ≤ 16) {cs : List Char} {n : Nat} :
    ofDigits? radix cs = some n ↔ Writes radix cs n := by
  have hvalue : ∀ ds : List Nat,
      Nat.ofDigits radix ds.reverse = ds.foldl (fun acc d => acc * radix + d) 0 := by
    intro ds
    rw [Nat.ofDigits_eq_foldr, List.foldr_reverse]
    simp only [Nat.cast_id, Nat.mul_comm, Nat.add_comm]
  cases cs with
  | nil => simp [ofDigits?, Writes]
  | cons c cs =>
    have hread : ofDigits? radix (c :: cs) = continue? radix 0 (c :: cs) := rfl
    simp only [hread, continue?_eq_some_iff hr, Writes, hvalue, ne_eq, reduceCtorEq, not_false_eq_true,
      true_and]

theorem Writes.exists_digit {radix n : Nat} {cs : List Char} (h : Writes radix cs n) {c : Char}
    (hc : c ∈ cs) : ∃ d < radix, c.toLower = Nat.digitChar d := by
  obtain ⟨-, ds, hds, hcs, -⟩ := h
  have hmem : c.toLower ∈ ds.map Nat.digitChar := hcs ▸ List.mem_map_of_mem hc
  obtain ⟨d, hd, hchar⟩ := List.mem_map.1 hmem
  exact ⟨d, hds d hd, hchar.symm⟩

/-- Of the marks only that of base 2 is a digit too, in base 16. -/
theorem mark?_digitChar {m : Char} {radix d : Nat} (hm : mark? m = some radix) (hd : d < 16)
    (hchar : m.toLower = Nat.digitChar d) : radix = 2 ∧ d = 11 := by
  have hdigit : digit? m = some d := by rw [← digit?_toLower, hchar, digit?_digitChar d hd]
  have hvalue : (radix = 2 ∧ digit? m = some 11) ∨ digit? m = some 33 ∨ digit? m = some 24 := by
    unfold mark? at hm
    split at hm <;> cases hm <;> decide
  rw [hdigit] at hvalue
  simp only [Option.some.injEq] at hvalue
  omega

theorem radix_le_of_mark? {m : Char} {radix : Nat} (hm : mark? m = some radix) : radix ≤ 16 := by
  unfold mark? at hm
  split at hm <;> cases hm <;> decide

/-- The mark behind a number is no digit. -/
theorem digitChar_ne_of_isHexMark {h : Char} (hh : isHexMark h = true) {d : Nat} (hd : d < 16) :
    h.toLower ≠ Nat.digitChar d := by
  have hdigits : ∀ d < 16, 'h' ≠ Nat.digitChar d := by decide
  have hlower : h.toLower = 'h' := by
    simp only [isHexMark, Bool.or_eq_true, decide_eq_true_eq] at hh
    rcases hh with rfl | rfl <;> decide
  rw [hlower]
  exact hdigits d hd

theorem Writes.not_isHexMark {radix n : Nat} {cs : List Char} (h : Writes radix cs n) (hr : radix ≤ 16)
    {c : Char} (hc : c ∈ cs) : isHexMark c = false := by
  obtain ⟨d, hd, hchar⟩ := h.exists_digit hc
  rw [← Bool.not_eq_true]
  exact fun hh => digitChar_ne_of_isHexMark hh (hd.trans_le hr) hchar

/-! ## Words -/

theorem getLast?_any_isHexMark {word : List Char} :
    word.getLast?.any isHexMark = true ↔ ∃ cs h, word = cs ++ [h] ∧ isHexMark h = true := by
  rw [Option.any_eq_true]
  constructor
  · rintro ⟨h, hlast, hh⟩
    obtain ⟨cs, rfl⟩ := List.getLast?_eq_some_iff.1 hlast
    exact ⟨cs, h, rfl, hh⟩
  · rintro ⟨cs, h, rfl, hh⟩
    exact ⟨h, List.getLast?_concat, hh⟩

theorem clashes_eq_true_iff {word : List Char} :
    clashes word = true ↔
      ∃ m cs h, word = '0' :: m :: (cs ++ [h]) ∧ mark? m = some 2 ∧ isHexMark h = true := by
  unfold clashes
  split
  · rename_i m cs
    simp only [Bool.and_eq_true, decide_eq_true_eq, getLast?_any_isHexMark]
    constructor
    · rintro ⟨hm, digits, h, rfl, hh⟩
      exact ⟨m, digits, h, rfl, hm, hh⟩
    · rintro ⟨m', digits, h, hword, hm, hh⟩
      cases hword
      exact ⟨hm, digits, h, rfl, hh⟩
  · rename_i hother
    simp only [Bool.false_eq_true, false_iff]
    rintro ⟨m, cs, h, rfl, -⟩
    exact hother m _ rfl

/-- A mark in front wins over the `h` behind, which is no digit. -/
theorem parse?_marked {m : Char} {radix : Nat} (hm : mark? m = some radix) {c : Char} {cs : List Char}
    {n : Nat} : parse? ('0' :: m :: c :: cs) = some n ↔
      Spells ('0' :: m :: c :: cs) n ∧ n < limit ∧ clashes ('0' :: m :: c :: cs) = false := by
  have hr := radix_le_of_mark? hm
  rw [parse?, radixAndDigits_marked hm, Option.filter_eq_some_iff, decide_eq_true_eq,
    ofDigits?_eq_some_iff hr, ← Bool.not_eq_true, clashes_eq_true_iff]
  constructor
  · rintro ⟨hcs, hn⟩
    refine ⟨.marked hm hcs, hn, ?_⟩
    rintro ⟨m', digits, h, hword, -, hh⟩
    have hmem : h ∈ c :: cs := by
      rw [(List.cons.inj (List.cons.inj hword).2).2]
      exact List.mem_concat_self
    rw [hcs.not_isHexMark hr hmem] at hh
    cases hh
  · rintro ⟨hs, hn, hclash⟩
    refine ⟨?_, hn⟩
    generalize hword : '0' :: m :: c :: cs = word at hs
    cases hs with
    | decimal hcs =>
      obtain ⟨d, hd, hchar⟩ := hcs.exists_digit (show m ∈ word by simp [← hword])
      have := (mark?_digitChar hm (by omega) hchar).2
      omega
    | marked hm' hcs =>
      cases hword
      cases hm.symm.trans hm'
      exact hcs
    | @hexadecimal digits h _ hdigit hh hcs =>
      -- The mark is a digit, so it is that of base 2.
      have hdigits : digits = '0' :: m :: (c :: cs).dropLast := by
        simpa using congrArg List.dropLast hword.symm
      have hlast : (c :: cs).getLast? = some h := by simpa using congrArg List.getLast? hword
      obtain ⟨d, hd, hchar⟩ := hcs.exists_digit (show m ∈ digits by simp [hdigits])
      obtain ⟨rfl, -⟩ := mark?_digitChar hm hd hchar
      obtain ⟨rest, hrest⟩ := List.getLast?_eq_some_iff.1 hlast
      exact absurd ⟨m, rest, h, by rw [hrest], hm, hh⟩ hclash

/-- Without a mark in front, the last character tells base 16 from base 10. -/
theorem parse?_unmarked {word : List Char} (hdigit : word.head?.any Char.isDigit = true)
    (hfree : ∀ m c cs, word = '0' :: m :: c :: cs → mark? m = none) {n : Nat} :
    parse? word = some n ↔ Spells word n ∧ n < limit ∧ clashes word = false := by
  -- No word of these has a mark in front of anything.
  have hunmarked : ∀ {m radix cs}, mark? m = some radix → cs ≠ [] → word ≠ '0' :: m :: cs := by
    rintro m radix cs hm hcs rfl
    obtain ⟨c, rest, rfl⟩ := List.exists_cons_of_ne_nil hcs
    rw [hfree m c rest rfl] at hm
    cases hm
  have hclash : ¬ clashes word = true := by
    rw [clashes_eq_true_iff]
    rintro ⟨m, cs, h, hword, hm, -⟩
    exact hunmarked hm (by simp) hword
  rw [Bool.not_eq_true] at hclash
  rw [parse?, radixAndDigits_unmarked hfree, Option.filter_eq_some_iff, decide_eq_true_eq, hclash, unmarked]
  by_cases hlast : word.getLast?.any isHexMark = true
  · rw [if_pos hlast, ofDigits?_eq_some_iff (Nat.le_refl 16)]
    obtain ⟨cs, h, rfl, hh⟩ := getLast?_any_isHexMark.1 hlast
    rw [List.dropLast_concat]
    constructor
    · rintro ⟨hcs, hn⟩
      obtain ⟨c, rest, rfl⟩ := List.exists_cons_of_ne_nil hcs.1
      exact ⟨.hexadecimal hdigit hh hcs, hn, rfl⟩
    · rintro ⟨hs, hn, -⟩
      refine ⟨?_, hn⟩
      generalize hword : cs ++ [h] = word at hs
      cases hs with
      | decimal hcs =>
        rw [hcs.not_isHexMark (by decide) (by simp [← hword])] at hh
        cases hh
      | marked hm hcs => exact absurd hword (hunmarked hm hcs.1)
      | hexadecimal _ _ hcs => rwa [(List.append_inj' hword rfl).1]
  · rw [if_neg hlast, ofDigits?_eq_some_iff (show 10 ≤ 16 by decide)]
    constructor
    · rintro ⟨hcs, hn⟩
      exact ⟨.decimal hcs, hn, rfl⟩
    · rintro ⟨hs, hn, -⟩
      refine ⟨?_, hn⟩
      cases hs with
      | decimal hcs => exact hcs
      | marked hm hcs => exact absurd rfl (hunmarked hm hcs.1)
      | hexadecimal _ hh _ => exact absurd (getLast?_any_isHexMark.2 ⟨_, _, rfl, hh⟩) hlast

/-- **The words that are numbers**: the spellings of one below the limit, unless the mark of base 2 in
front hides the `h` behind. -/
theorem parse?_eq_some_iff {word : List Char} (hdigit : word.head?.any Char.isDigit = true) {n : Nat} :
    parse? word = some n ↔ Spells word n ∧ n < limit ∧ clashes word = false := by
  by_cases hfree : ∀ m c cs, word = '0' :: m :: c :: cs → mark? m = none
  · exact parse?_unmarked hdigit hfree
  · push Not at hfree
    obtain ⟨m, c, cs, rfl, hm⟩ := hfree
    obtain ⟨radix, hradix⟩ := Option.ne_none_iff_exists'.1 hm
    exact parse?_marked hradix

theorem Writes.isAlphanum {radix n : Nat} {cs : List Char} (h : Writes radix cs n) (hr : radix ≤ 16)
    {c : Char} (hc : c ∈ cs) : c.isAlphanum = true := by
  have hdigits : ∀ d < 16, (Nat.digitChar d).isAlphanum = true := by decide
  obtain ⟨d, hd, hchar⟩ := h.exists_digit hc
  rw [← Token.isAlphanum_toLower, hchar]
  exact hdigits d (hd.trans_le hr)

namespace Spells

variable {word : List Char} {n : Nat}

theorem isAlphanum (h : Spells word n) {c : Char} (hc : c ∈ word) : c.isAlphanum = true := by
  cases h with
  | decimal hcs => exact hcs.isAlphanum (by decide) hc
  | @marked m radix cs _ hm hcs =>
    have hmark : m.isAlphanum = true := by
      unfold mark? at hm
      split at hm <;> first | decide | cases hm
    simp only [List.mem_cons] at hc
    rcases hc with rfl | rfl | hc
    · decide
    · exact hmark
    · exact hcs.isAlphanum (radix_le_of_mark? hm) hc
  | hexadecimal _ hh hcs =>
    rcases List.mem_append.1 hc with hc | hc
    · exact hcs.isAlphanum (Nat.le_refl 16) hc
    · rw [List.mem_singleton.1 hc]
      simp only [isHexMark, Bool.or_eq_true, decide_eq_true_eq] at hh
      rcases hh with rfl | rfl <;> decide

theorem head_isDigit (h : Spells word n) : word.head?.any Char.isDigit = true := by
  cases h with
  | decimal hcs =>
    obtain ⟨c, cs, rfl⟩ := List.exists_cons_of_ne_nil hcs.1
    have hdigits : ∀ d < 10, (Nat.digitChar d).isDigit = true := by decide
    have hlower : c.toLower.isDigit = c.isDigit := apply_toLower (by decide) c
    obtain ⟨d, hd, hchar⟩ := hcs.exists_digit List.mem_cons_self
    rw [List.head?_cons, Option.any_some, ← hlower, hchar]
    exact hdigits d hd
  | marked _ _ => rfl
  | hexadecimal hdigit _ hcs =>
    obtain ⟨c, cs, rfl⟩ := List.exists_cons_of_ne_nil hcs.1
    exact hdigit

end Spells
end Numeral

/-! ## Scans of a word -/

theorem utf8Size_of_isAlphanum {c : Char} (h : c.isAlphanum = true) : c.utf8Size = 1 := by
  rw [Char.utf8Size_eq_one_iff, UInt32.le_iff_toNat_le]
  simp only [Char.isAlphanum, Char.isAlpha, Char.isUpper, Char.isLower, Char.isDigit, Bool.or_eq_true,
    Bool.and_eq_true, decide_eq_true_eq, ge_iff_le, UInt32.le_iff_toNat_le] at h
  have hascii : (127 : UInt32).toNat = 127 := rfl
  have hz : 'z'.val.toNat = 122 := rfl
  have hZ : 'Z'.val.toNat = 90 := rfl
  have h9 : '9'.val.toNat = 57 := rfl
  omega

theorem Cursor.steps_of_isAlphanum {cs : List Char} (h : ∀ c ∈ cs, c.isAlphanum = true) (p : Cursor) :
    p.steps cs = { p with offset := p.offset + cs.length } := by
  induction cs generalizing p with
  | nil => rfl
  | cons c cs ih =>
    have hc := h c List.mem_cons_self
    have hline : c ≠ '\n' := by
      rintro rfl
      cases hc
    have hstep : p.step c = { p with offset := p.offset + 1 } := by
      simp only [step, utf8Size_of_isAlphanum hc, if_neg hline]
    show (p.step c).steps cs = _
    rw [ih (fun d hd => h d (List.mem_cons_of_mem c hd)), hstep]
    simp only [List.length_cons, Nat.add_assoc, Nat.add_comm 1]

namespace Token

theorem byteCount_of_isAlphanum {cs : List Char} (h : ∀ c ∈ cs, c.isAlphanum = true) :
    byteCount cs = cs.length := by
  induction cs with
  | nil => rfl
  | cons c cs ih =>
    rw [byteCount, utf8Size_of_isAlphanum (h c List.mem_cons_self),
      ih fun d hd => h d (List.mem_cons_of_mem c hd), List.length_cons, Nat.add_comm]

theorem lexeme_of_isDigit {c : Char} (hc : c.isDigit = true) (cs : List Char) :
    lexeme c cs = numberWord c cs := by
  have hne : ∀ d : Char, d.isDigit = false → c ≠ d := by
    rintro d hd rfl
    rw [hc] at hd
    cases hd
  have hblank : isBlank c = false := by
    simp [isBlank, hne ' ' (by decide), hne '\t' (by decide), hne '\r' (by decide)]
  simp [lexeme, hblank, hc, hne '#' (by decide), hne '/' (by decide), hne '\'' (by decide),
    hne '.' (by decide)]

theorem exists_cons_of_head_isDigit {cs : List Char} (h : cs.head?.any Char.isDigit = true) :
    ∃ c rest, cs = c :: rest ∧ c.isDigit = true := by
  cases cs with
  | nil => cases h
  | cons c rest => exact ⟨c, rest, rfl, h⟩

theorem scanFrom_nil (fuel : Nat) (p : Cursor) : scanFrom fuel p [] = .ok [⟨.eof, "", p.span 0⟩] := by
  cases fuel <;> rfl

/-- The tokens of a word that is a number by itself. -/
def numberAlone (word : String) (n : Nat) : List Token :=
  [⟨.number n, word, ⟨1, 1, 0, word.length⟩⟩,
    ⟨.eof, "", ⟨1, .ofNat word.length + 1, word.length, 0⟩⟩]

/-- A word of digits and letters that starts with a digit is a number or an error. -/
theorem scan_word {word : String} (hdigit : word.toList.head?.any Char.isDigit = true)
    (halpha : ∀ c ∈ word.toList, c.isAlphanum = true) :
    scan word = (Numeral.parse? word.toList).elim
      (.error (.malformed ("invalid number '" ++ word ++ "'") ⟨1, 1, 0, word.length⟩))
      (fun n => .ok (numberAlone word n)) := by
  obtain ⟨c, cs, hword, hc⟩ := exists_cons_of_head_isDigit hdigit
  have hofList : String.ofList (c :: cs) = word := by rw [← hword, String.ofList_toList]
  have hlen : word.length = (c :: cs).length := by rw [← hword, String.length_toList]
  rw [hword] at halpha
  have hall : ∀ d ∈ cs, d.isAlphanum = true := fun d hd => halpha d (List.mem_cons_of_mem c hd)
  have htake : cs.takeWhile Char.isAlphanum = cs := List.takeWhile_eq_self_iff.2 hall
  have hdrop : cs.dropWhile Char.isAlphanum = [] := List.dropWhile_eq_nil_iff.2 hall
  have hlexeme := lexeme_of_isDigit hc cs
  simp only [numberWord, htake, hdrop, hofList, byteCount_of_isAlphanum halpha, ← hlen] at hlexeme
  simp only [scan, hword, List.length_cons]
  cases hparse : Numeral.parse? (c :: cs) with
  | none =>
    rw [hparse] at hlexeme
    rw [scanFrom_error hlexeme]
    rfl
  | some n =>
    rw [hparse] at hlexeme
    rw [scanFrom_ok hlexeme]
    simp [Lexeme.plain, Lexeme.tokenAt, scanFrom.spanned, scanFrom_nil, hofList, numberAlone, hlen,
      byteCount_of_isAlphanum halpha, Cursor.steps_of_isAlphanum halpha, Cursor.span, Cursor.start]

/-- The text of the first token of a scan at a digit is a number by itself. -/
theorem parse?_of_scan {word : String} (hdigit : word.toList.head?.any Char.isDigit = true) {n : Nat}
    {span : Span} {tokens : List Token} (h : scan word = .ok (⟨.number n, word, span⟩ :: tokens)) :
    Numeral.parse? word.toList = some n := by
  obtain ⟨c, cs, hword, hc⟩ := exists_cons_of_head_isDigit hdigit
  have hlexeme := lexeme_of_isDigit hc cs
  simp only [scan, hword, List.length_cons] at h
  unfold numberWord at hlexeme
  simp only at hlexeme
  cases hparse : Numeral.parse? (c :: cs.takeWhile Char.isAlphanum) with
  | none =>
    rw [hparse] at hlexeme
    rw [scanFrom_error hlexeme] at h
    cases h
  | some n' =>
    rw [hparse] at hlexeme
    rw [scanFrom_ok hlexeme] at h
    cases hrest : scanFrom cs.length
        (Cursor.start.steps (c :: cs.takeWhile Char.isAlphanum)) (cs.dropWhile Char.isAlphanum) with
    | error d =>
      simp only [Lexeme.plain, hrest] at h
      cases h
    | ok rest =>
      simp only [Lexeme.plain, hrest, Lexeme.tokenAt] at h
      obtain ⟨htoken, -⟩ := List.cons.inj (Except.ok.inj h)
      obtain ⟨hkind, htext, -⟩ := Token.mk.inj htoken
      cases hkind
      rw [← htext, String.toList_ofList, hparse]

/-- **Numbers mean what they say.** A word that spells a number below the limit is scanned to that number
and nothing else, unless the mark of base 2 and the `h` clash: then it is refused. And a word that
starts with a digit and is scanned to one number alone spells that number. -/
theorem scan_spelling (word : String) (n : Nat) :
    (Numeral.Spells word.toList n → n < 2 ^ 127 →
      scan word =
        if Numeral.clashes word.toList then
          .error (.malformed ("invalid number '" ++ word ++ "'") ⟨1, 1, 0, word.length⟩)
        else .ok (numberAlone word n)) ∧
    (word.toList.head?.any Char.isDigit = true → scan word = .ok (numberAlone word n) →
      Numeral.Spells word.toList n ∧ n < 2 ^ 127 ∧ Numeral.clashes word.toList = false) := by
  constructor
  · intro hs hn
    have hdigit := hs.head_isDigit
    rw [scan_word hdigit fun c hc => hs.isAlphanum hc]
    split
    · rename_i hclash
      have hnone : Numeral.parse? word.toList = none := by
        rw [Option.eq_none_iff_forall_ne_some]
        intro n' hsome
        rw [((Numeral.parse?_eq_some_iff hdigit).1 hsome).2.2] at hclash
        cases hclash
      rw [hnone]
      rfl
    · rename_i hclash
      rw [(Numeral.parse?_eq_some_iff hdigit).2 ⟨hs, hn, Bool.not_eq_true _ ▸ hclash⟩]
      rfl
  · intro hdigit h
    exact (Numeral.parse?_eq_some_iff hdigit).1 (parse?_of_scan hdigit h)

/-- `00B1h` is 177, though it has a `B` behind a zero. -/
theorem scan_spelling_zeros :
    Numeral.Spells "00B1h".toList 177 ∧ scan "00B1h" = .ok (numberAlone "00B1h" 177) := by
  have hcs : Numeral.Writes 16 "00B1".toList 177 :=
    ⟨by decide, [0, 0, 11, 1], by decide, by decide, by decide⟩
  have hs : Numeral.Spells ("00B1".toList ++ ['h']) 177 := .hexadecimal rfl rfl hcs
  exact ⟨hs, (scan_spelling "00B1h" 177).1 hs (by decide)⟩

/-- `0bh` spells 11 and is refused: it is read as a number of base 2 with the digit `h`. -/
theorem scan_clash :
    Numeral.Spells "0bh".toList 11 ∧
      scan "0bh" = .error (.malformed "invalid number '0bh'" ⟨1, 1, 0, 3⟩) := by
  have hcs : Numeral.Writes 16 "0b".toList 11 := ⟨by decide, [0, 11], by decide, by decide, by decide⟩
  have hs : Numeral.Spells ("0b".toList ++ ['h']) 11 := .hexadecimal rfl rfl hcs
  exact ⟨hs, by rfl⟩

end Token
end IntelAsm
