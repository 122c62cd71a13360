/-
Where statements and their operands stand. An instruction is read from a stretch
of tokens: its prefix words, its mnemonic and its operands, with a comma between
each two (`ParsedInstruction.LaidOver`). Its span and those of its operands reach
from the first token of what they are read from to the last
(`Parse.instruction_eq_ok`). Tokens come in the order of their places, and so the
operands lie inside of the instruction and one behind the other.

Together with the walk of the parser over its tokens this is what the parser
promises for any text whose tokens can be read (`Statement.parseTokens_orderly`).
-/
import IntelAsm.Proofs.ParserCursor
import IntelAsm.Proofs.ReportedLines
import IntelAsm.Proofs.SourceTiling

namespace IntelAsm

/-! ## Spans over tokens -/

/-- The span starts where the first token starts and ends where the last one ends. -/
def Span.Over (s : Span) (ts : List Token) : Prop :=
  ∃ first last, ts.head? = some first ∧ ts.getLast? = some last ∧ s.line = first.span.line ∧
    s.col = first.span.col ∧ s.offset = first.span.offset ∧ s.stop = last.span.stop

theorem Span.offset_le_stop (s : Span) : s.offset ≤ s.stop := Nat.le_add_right ..

/-- Each token ends before the next one starts, and none is empty but the end of input. -/
structure Token.Ascending (ts : List Token) : Prop where
  ordered : ts.Pairwise fun t u => t.span.stop ≤ u.span.offset
  nonempty : ∀ t ∈ ts, t.kind ≠ .eof → t.span.offset < t.span.stop

namespace Token.Ascending

variable {ts us : List Token}

theorem of_sublist (h : Token.Ascending ts) (hsub : us.Sublist ts) : Token.Ascending us :=
  ⟨h.ordered.sublist hsub, fun t ht => h.nonempty t (hsub.subset ht)⟩

/-- The first token starts before all others. -/
theorem head_le (h : Token.Ascending ts) {first t : Token} (hfirst : ts.head? = some first)
    (ht : t ∈ ts) : first.span.offset ≤ t.span.offset := by
  obtain ⟨rest, rfl⟩ := List.head?_eq_some_iff.1 hfirst
  rcases List.mem_cons.1 ht with rfl | ht
  · exact Nat.le_refl _
  · exact first.span.offset_le_stop.trans ((List.pairwise_cons.1 h.ordered).1 t ht)

/-- The last token ends behind all others. -/
theorem le_last (h : Token.Ascending ts) {last t : Token} (hlast : ts.getLast? = some last)
    (ht : t ∈ ts) : t.span.stop ≤ last.span.stop := by
  obtain ⟨front, rfl⟩ := List.getLast?_eq_some_iff.1 hlast
  rcases List.mem_append.1 ht with ht | ht
  · have hstop := (List.pairwise_append.1 h.ordered).2.2 t ht last (List.mem_singleton.2 rfl)
    exact hstop.trans last.span.offset_le_stop
  · rw [List.mem_singleton.1 ht]

/-- What covers the first and the last token is over all of them. -/
theorem over_cover (h : Token.Ascending ts) {first last : Token} (hfirst : ts.head? = some first)
    (hlast : ts.getLast? = some last) : (first.span.cover last.span).Over ts := by
  refine ⟨first, last, hfirst, hlast, rfl, rfl, rfl, ?_⟩
  rw [Span.stop_cover]
  exact Nat.max_eq_left (h.le_last hlast (List.mem_of_head? hfirst))

/-- A span over a part lies inside of a span over the whole. -/
theorem over_inside (h : Token.Ascending ts) {s r : Span} (hs : s.Over ts) (hr : r.Over us)
    (hsub : us ⊆ ts) : s.offset ≤ r.offset ∧ r.stop ≤ s.stop := by
  obtain ⟨first, last, hfirst, hlast, -, -, hoffset, hstop⟩ := hs
  obtain ⟨first', last', hfirst', hlast', -, -, hoffset', hstop'⟩ := hr
  rw [hoffset, hstop, hoffset', hstop']
  exact ⟨h.head_le hfirst (hsub (List.mem_of_head? hfirst')),
    h.le_last hlast (hsub (List.mem_of_getLast? hlast'))⟩

end Token.Ascending

namespace Token

variable {source : String} {tokens : List Token}

theorem scan_ended (h : scan source = .ok tokens) : Ended tokens := by
  have hlaid : Laid none [] source.toList tokens := scanFrom_laid (Nat.le_refl _) h
  obtain ⟨front, eof, htokens, heof, -, -, hfront⟩ := hlaid.last
  exact ⟨front, eof, htokens, heof, fun t ht => (hfront t ht).1⟩

theorem scan_ascending (h : scan source = .ok tokens) : Ascending tokens := by
  have hlaid : Laid none [] source.toList tokens := scanFrom_laid (Nat.le_refl _) h
  obtain ⟨front, eof, htokens, heof, -, -, hfront⟩ := hlaid.last
  refine ⟨hlaid.ordered, fun t ht hkind => ?_⟩
  rw [htokens, List.mem_append, List.mem_singleton] at ht
  rcases ht with ht | rfl
  · exact Nat.lt_add_of_pos_right (hfront t ht).2
  · exact absurd heof hkind

end Token

/-! ## Operands and instructions over tokens -/

/-- The operand is what the parser reads from the tokens, in front of some others. -/
def ParsedOperand.ReadFrom (o : ParsedOperand) (ts : List Token) : Prop :=
  ∃ rest, Parse.operand (ts ++ rest) = .ok o rest

/-- Operands over the tokens that they are read from, with a comma between each two. -/
inductive OperandsOver : List ParsedOperand → List Token → Prop where
  | one {o : ParsedOperand} {ts : List Token} (hread : o.ReadFrom ts) (hspan : o.span.Over ts) :
    OperandsOver [o] ts
  | cons {o : ParsedOperand} {os : List ParsedOperand} {ts rest : List Token} {comma : Token}
      (hread : o.ReadFrom ts) (hspan : o.span.Over ts) (hcomma : comma.kind = .comma)
      (hrest : OperandsOver os rest) :
    OperandsOver (o :: os) (ts ++ comma :: rest)

/-- The instruction over its words, which are its prefixes and its mnemonic, and the tokens of its
operands. -/
structure ParsedInstruction.LaidOver (i : ParsedInstruction) (words : List Token) (mnemonic : Token)
    (args : List Token) : Prop where
  prefixes : words.map (fun t => Prefix.ofWord? t.text) = i.prefixes.map some
  named : i.mnemonic = mnemonic.text.toLower
  names : ∀ t ∈ words ++ [mnemonic], t.kind = .ident
  operands : i.operands = [] ∧ args = [] ∨ OperandsOver i.operands args
  span : i.span.Over (words ++ mnemonic :: args)

namespace OperandsOver

variable {os : List ParsedOperand} {args : List Token}

/-- Each operand is over some of the tokens. -/
theorem mem (h : OperandsOver os args) {o : ParsedOperand} (ho : o ∈ os) :
    ∃ ts, ts.Sublist args ∧ o.span.Over ts := by
  induction h with
  | one hread hspan =>
    rw [List.mem_singleton.1 ho]
    exact ⟨_, List.Sublist.refl _, hspan⟩
  | cons hread hspan hcomma hrest ih =>
    rcases List.mem_cons.1 ho with rfl | ho
    · exact ⟨_, List.sublist_append_left .., hspan⟩
    · obtain ⟨ts, hsub, hover⟩ := ih ho
      refine ⟨ts, hsub.trans ?_, hover⟩
      exact (List.sublist_cons_self ..).trans (List.sublist_append_right ..)

/-- Each operand ends before the next one starts. -/
theorem ordered (h : OperandsOver os args) (hargs : Token.Ascending args) :
    os.Pairwise fun o p => o.span.stop < p.span.offset := by
  induction h with
  | one => exact List.pairwise_singleton ..
  | @cons o os ts rest comma hread hspan hcomma hrest ih =>
    have htail : Token.Ascending (comma :: rest) := hargs.of_sublist (List.sublist_append_right ..)
    refine List.pairwise_cons.2 ⟨fun p hp => ?_, ih (htail.of_sublist (List.sublist_cons_self ..))⟩
    -- The comma is between them.
    obtain ⟨us, hsub, first', last', hfirst', -, -, -, hoffset, -⟩ := hrest.mem hp
    obtain ⟨first, last, -, hlast, -, -, -, hstop⟩ := hspan
    have hbefore := (List.pairwise_append.1 hargs.ordered).2.2 last (List.mem_of_getLast? hlast)
      comma (List.mem_cons_self ..)
    have hbehind := (List.pairwise_cons.1 htail.ordered).1 first'
      (hsub.subset (List.mem_of_head? hfirst'))
    have hbetween := htail.nonempty comma (List.mem_cons_self ..) (by rw [hcomma]; nofun)
    omega

/-- The last operand ends with the last token. -/
theorem last (h : OperandsOver os args) :
    ∃ o t, os.getLast? = some o ∧ args.getLast? = some t ∧ o.span.stop = t.span.stop := by
  induction h with
  | @one o ts hread hspan =>
    obtain ⟨first, last, -, hlast, -, -, -, hstop⟩ := hspan
    exact ⟨o, last, rfl, hlast, hstop⟩
  | cons hread hspan hcomma hrest ih =>
    obtain ⟨o, t, ho, ht, hstop⟩ := ih
    refine ⟨o, t, ?_, ?_, hstop⟩
    · rw [List.getLast?_cons, ho]
      rfl
    · rw [List.getLast?_append, List.getLast?_cons, ht]
      rfl

end OperandsOver

namespace Parse

variable {ts rest : List Token}

/-! ## What the parser reads -/

theorem size_suffix {width : Option Width} (h : size ts = (width, rest)) : rest <:+ ts := by
  cases hsize : sizeOf? (peek ts) with
  | none =>
    rw [size_none hsize] at h
    cases h
    exact List.suffix_refl _
  | some w =>
    cases hnext : leavesSymbol (peekKind ts.tail) with
    | true =>
      rw [size_symbol hnext] at h
      cases h
      exact List.suffix_refl _
    | false =>
      rw [size_word hsize hnext] at h
      obtain ⟨-, rfl⟩ := Prod.mk.inj h
      split
      · exact (List.tail_suffix _).trans (List.tail_suffix _)
      · exact List.tail_suffix _

theorem segment_suffix {seg : Option Register} (h : segment ts = (seg, rest)) : rest <:+ ts := by
  unfold segment at h
  simp only at h
  split at h
  · split at h <;> cases h
    · exact (List.tail_suffix _).trans (List.tail_suffix _)
    · exact List.suffix_refl _
  · cases h
    exact List.suffix_refl _

theorem address_eq_ok {width : Option Width} {distance : Bool} {outer : Option Register}
    {start : Span} {o : ParsedOperand} (h : address width distance outer start ts = .ok o rest) :
    ∃ front close, ts = front ++ close :: rest ∧ o.span = start.cover close.span := by
  unfold address at h
  cases hsize : size ts with
  | mk inner us =>
    cases hseg : (if outer.isNone then segment us else (outer, us)) with
    | mk seg vs =>
      simp only [hsize, hseg] at h
      have hvs : vs <:+ ts := by
        refine List.IsSuffix.trans ?_ (size_suffix hsize)
        split at hseg
        · exact segment_suffix hseg
        · cases hseg
          exact List.suffix_refl _
      obtain ⟨e, left, hexpr, hclose⟩ := Parsed.andThen_eq_ok.1 h
      obtain ⟨front, -, rfl, -, -⟩ := expr_eq_ok hexpr
      obtain ⟨before, rfl⟩ := hvs
      split at hclose
      · rename_i hkind
        cases hclose
        cases left with
        | nil => cases hkind
        | cons close left => exact ⟨before ++ front, close, by simp, rfl⟩
      · cases hclose

/-- An operand covers the first and the last of the tokens that it is read from. -/
theorem operand_eq_ok {o : ParsedOperand} (h : operand ts = .ok o rest) :
    ∃ front first last, ts = front ++ rest ∧ front.head? = some first ∧
      front.getLast? = some last ∧ o.span = first.span.cover last.span := by
  cases hsize : size ts with
  | mk width us =>
    cases hseg : segment us with
    | mk seg vs =>
      obtain ⟨before, hbefore⟩ := (segment_suffix hseg).trans (size_suffix hsize)
      -- The first token of the operand is the one ahead, with words in front of it or without.
      have hhead : ∀ {front : List Token}, front ≠ [] → vs = front ++ rest →
          (before ++ front).head? = some (peek ts) := by
        intro front hne hvs
        rw [← hbefore, hvs, ← List.append_assoc]
        cases hall : before ++ front with
        | nil => exact absurd (List.append_eq_nil_iff.1 hall).2 hne
        | cons => rfl
      rw [operand_eq hsize hseg] at h
      split at h
      · rename_i hopen
        obtain ⟨front, close, hfront, hspan⟩ := address_eq_ok h
        cases vs with
        | nil => cases hopen
        | cons bracket vs =>
          obtain rfl : vs = front ++ close :: rest := hfront
          have hvs : bracket :: (front ++ close :: rest) =
              (bracket :: front ++ [close]) ++ rest := by simp
          refine ⟨before ++ (bracket :: front ++ [close]), peek ts, close, ?_,
            hhead (by simp) hvs, ?_, hspan⟩
          · rw [← hbefore, hvs, List.append_assoc before]
          · rw [← List.append_assoc, List.getLast?_concat]
      · split at h
        · cases h
        · obtain ⟨e, left, hexpr, hok⟩ := Parsed.andThen_eq_ok.1 h
          cases hok
          obtain ⟨front, last, hvs, hlast, hspan⟩ := expr_eq_ok hexpr
          have hne : front ≠ [] := by
            rintro rfl
            cases hlast
          refine ⟨before ++ front, peek ts, last, ?_, hhead hne hvs, ?_, by rw [hspan]⟩
          · rw [← hbefore, hvs, List.append_assoc]
          · rw [List.getLast?_append, hlast]
            rfl

theorem operands_eq_ok {n : Nat} {os : List ParsedOperand} (hts : Token.Ascending ts)
    (hn : ts.length < n) (h : operands n ts = .ok os rest) :
    ∃ args, ts = args ++ rest ∧ OperandsOver os args := by
  induction n generalizing ts os with
  | zero => omega
  | succ n ih =>
    rw [operands] at h
    obtain ⟨o, left, hread, hmore⟩ := Parsed.andThen_eq_ok.1 h
    obtain ⟨front, first, last, rfl, hfirst, hlast, hspan⟩ := operand_eq_ok hread
    have hover : o.span.Over front := by
      rw [hspan]
      exact (hts.of_sublist (List.sublist_append_left ..)).over_cover hfirst hlast
    split at hmore
    · rename_i hcomma
      obtain ⟨os', left', hmore, hok⟩ := Parsed.andThen_eq_ok.1 hmore
      cases hok
      cases left with
      | nil => cases hcomma
      | cons comma left =>
        rw [List.length_append, List.length_cons] at hn
        have hleft : Token.Ascending left :=
          hts.of_sublist ((List.sublist_cons_self ..).trans (List.sublist_append_right ..))
        obtain ⟨args, hargs, hos⟩ := ih hleft (by omega) hmore
        obtain rfl : left = args ++ rest := hargs
        exact ⟨front ++ comma :: args, by simp, .cons ⟨_, hread⟩ hover hcomma hos⟩
    · cases hmore
      exact ⟨front, rfl, .one ⟨_, hread⟩ hover⟩

/-- The words from `first` to the mnemonic are the prefixes and the mnemonic. -/
theorem prefixes_eq {first mnemonic : Token} {ps : List Prefix} (hfirst : first.kind = .ident)
    (h : prefixes first ts = (ps, mnemonic, rest)) :
    ∃ words, first :: ts = words ++ mnemonic :: rest ∧
      words.map (fun t => Prefix.ofWord? t.text) = ps.map some ∧
      ∀ t ∈ words ++ [mnemonic], t.kind = .ident := by
  -- `first` is the mnemonic itself.
  have hmnemonic : ∀ t ∈ [] ++ [first], t.kind = .ident := fun t ht => by
    rw [List.mem_singleton.1 ht, hfirst]
  induction ts generalizing first ps with
  | nil =>
    cases h
    exact ⟨[], rfl, rfl, hmnemonic⟩
  | cons t ts ih =>
    rw [prefixes] at h
    split at h
    · cases h
      exact ⟨[], rfl, rfl, hmnemonic⟩
    · rename_i p hword
      split at h
      · rename_i hident
        cases hmore : prefixes t ts with
        | mk ps' found =>
          obtain ⟨mnemonic', rest'⟩ := found
          rw [hmore] at h
          cases h
          obtain ⟨words, hts, hps, hnames⟩ := ih hident hmore (by simpa using hident)
          refine ⟨first :: words, by rw [hts]; rfl, by simp [hword, hps], fun u hu => ?_⟩
          rcases List.mem_cons.1 hu with rfl | hu
          · exact hfirst
          · exact hnames u hu
      · cases h
        exact ⟨[], rfl, rfl, hmnemonic⟩

theorem foldl_cover_start (s : Span) (os : List ParsedOperand) :
    (os.foldl (fun s o => s.cover o.span) s).line = s.line ∧
      (os.foldl (fun s o => s.cover o.span) s).col = s.col ∧
      (os.foldl (fun s o => s.cover o.span) s).offset = s.offset := by
  induction os generalizing s with
  | nil => exact ⟨rfl, rfl, rfl⟩
  | cons o os ih => exact ih (s.cover o.span)

theorem foldl_cover_stop_le {n : Nat} {s : Span} {os : List ParsedOperand} (hs : s.stop ≤ n)
    (hos : ∀ o ∈ os, o.span.stop ≤ n) : (os.foldl (fun s o => s.cover o.span) s).stop ≤ n := by
  induction os generalizing s with
  | nil => exact hs
  | cons o os ih =>
    refine ih ?_ fun p hp => hos p (List.mem_cons_of_mem _ hp)
    rw [Span.stop_cover]
    exact max_le (hos o (List.mem_cons_self ..)) hs

/-- A span that covers operands ends with the last of them, if that ends behind all others. -/
theorem foldl_cover_stop {s : Span} {os : List ParsedOperand} {o : ParsedOperand}
    (hlast : os.getLast? = some o) (hs : s.stop ≤ o.span.stop)
    (hos : ∀ p ∈ os, p.span.stop ≤ o.span.stop) :
    (os.foldl (fun s o => s.cover o.span) s).stop = o.span.stop := by
  obtain ⟨front, rfl⟩ := List.getLast?_eq_some_iff.1 hlast
  rw [List.foldl_append, List.foldl_cons, List.foldl_nil, Span.stop_cover]
  exact max_eq_left (foldl_cover_stop_le hs fun p hp => hos p (List.mem_append_left _ hp))

/-- **An instruction is over the tokens that it is read from.** -/
theorem instruction_eq_ok {first : Token} {i : ParsedInstruction}
    (hts : Token.Ascending (first :: ts)) (hfirst : first.kind = .ident)
    (h : instruction first ts = .ok i rest) :
    ∃ words mnemonic args, first :: ts = words ++ mnemonic :: args ++ rest ∧
      i.LaidOver words mnemonic args := by
  cases hprefixes : prefixes first ts with
  | mk ps found =>
    obtain ⟨mnemonic, us⟩ := found
    simp only [instruction, hprefixes] at h
    obtain ⟨words, hwords, hps, hnames⟩ := prefixes_eq hfirst hprefixes
    have hhead : ∀ us, (words ++ mnemonic :: us).head? = some first := by
      intro us
      have hfirst := congrArg List.head? hwords
      cases words <;> exact hfirst.symm
    rw [hwords] at hts
    split at h
    · cases h
      have hover : (first.span.cover mnemonic.span).Over (words ++ [mnemonic]) :=
        (hts.of_sublist (by simp)).over_cover (hhead []) (by simp)
      exact ⟨words, mnemonic, [], by simp [hwords], hps, rfl, hnames, .inl ⟨rfl, rfl⟩, hover⟩
    · obtain ⟨os, left, hoperands, hok⟩ := Parsed.andThen_eq_ok.1 h
      cases hok
      have hus : Token.Ascending us :=
        hts.of_sublist ((List.sublist_cons_self ..).trans (List.sublist_append_right ..))
      obtain ⟨args, rfl, hargs⟩ := operands_eq_ok hus (Nat.lt_succ_self _) hoperands
      refine ⟨words, mnemonic, args, by simp [hwords], hps, rfl, hnames, .inr hargs, ?_⟩
      -- The last operand ends with the last token, and nothing ends behind it.
      have hall : Token.Ascending (words ++ mnemonic :: args) := hts.of_sublist (by simp)
      obtain ⟨o, last, ho, hlast, hstop⟩ := hargs.last
      have hend : (words ++ mnemonic :: args).getLast? = some last := by
        rw [List.getLast?_append, List.getLast?_cons, hlast]
        rfl
      have hle : ∀ t ∈ words ++ mnemonic :: args, t.span.stop ≤ o.span.stop := by
        intro t ht
        rw [hstop]
        exact hall.le_last hend ht
      have hwordsStop : (first.span.cover mnemonic.span).stop ≤ o.span.stop := by
        rw [Span.stop_cover]
        exact max_le (hle mnemonic (by simp)) (hle first (List.mem_of_head? (hhead args)))
      have hos : ∀ p ∈ os, p.span.stop ≤ o.span.stop := by
        intro p hp
        obtain ⟨us, hsub, -, t, -, ht, -, -, -, hp⟩ := hargs.mem hp
        rw [hp]
        exact hle t (by simp [hsub.subset (List.mem_of_getLast? ht)])
      obtain ⟨hline, hcol, hoffset⟩ := foldl_cover_start (first.span.cover mnemonic.span) os
      exact ⟨first, last, hhead args, hend, hline, hcol, hoffset,
        (foldl_cover_stop ho hwordsStop hos).trans hstop⟩

/-- An instruction among the statements of a line is the command of the line. -/
theorem instruction_of_mem_line {i : ParsedInstruction}
    (h : .instruction i ∈ (line ts).statements) :
    ∃ first us rest, behindLabel ts = first :: us ∧ first.kind = .ident ∧
      instruction first us = .ok i rest := by
  have hlabel : .instruction i ∉ labelOf ts := by
    unfold labelOf
    split <;> simp
  have hcommand : .instruction i ∈ (commandLine (behindLabel ts)).statements := by
    rcases line_cases ts with ⟨hline, -⟩ | hline
    · rw [hline] at h
      exact absurd h hlabel
    · rw [hline] at h
      exact (List.mem_append.1 h).resolve_left hlabel
  generalize behindLabel ts = us at hcommand
  unfold commandLine at hcommand
  split at hcommand
  · cases hcommand
  rename_i statements rest hok
  have hmem : .instruction i ∈ statements := by
    simp only at hcommand
    split at hcommand <;> exact hcommand
  unfold command at hok
  cases us with
  | nil => cases hok
  | cons first us =>
    simp only [peek, List.tail_cons] at hok
    split at hok
    · unfold directive at hok
      split at hok <;> cases hok <;> simp at hmem
    · rename_i hident
      obtain ⟨j, left, hinstruction, heq⟩ := Parsed.andThen_eq_ok.1 hok
      cases heq
      cases List.mem_singleton.1 hmem
      exact ⟨first, us, _, rfl, hident, hinstruction⟩
    · cases hok

theorem suffix_of_mem_lineStarts {us : List Token} (h : us ∈ lineStarts ts) : us <:+ ts := by
  rcases List.mem_cons.1 h with rfl | h
  · exact List.suffix_refl _
  · induction ts with
    | nil => cases h
    | cons t ts ih =>
      have htail : us <:+ ts := by
        rw [linesBehind] at h
        split at h
        · rcases List.mem_cons.1 h with rfl | h
          · exact List.suffix_refl _
          · exact ih (List.mem_cons_of_mem _ h) h
        · exact ih (List.mem_cons_of_mem _ h) h
      exact htail.trans (List.suffix_cons ..)

theorem behindLabel_suffix (ts : List Token) : behindLabel ts <:+ ts := by
  unfold behindLabel
  split
  · exact List.tail_suffix _
  · exact List.suffix_refl _

end Parse

/-! ## Statements of a text -/

/-- The instruction is over a stretch of the tokens, and its operands are inside of it, each behind
the one before. -/
structure ParsedInstruction.Nested (i : ParsedInstruction) (tokens : List Token) : Prop where
  laid : ∃ before words mnemonic args after,
    tokens = before ++ (words ++ mnemonic :: args) ++ after ∧ i.LaidOver words mnemonic args
  inside : ∀ o ∈ i.operands, i.span.offset ≤ o.span.offset ∧ o.span.stop ≤ i.span.stop
  ordered : i.operands.Pairwise fun o p => o.span.stop < p.span.offset
  ends : ∀ o, i.operands.getLast? = some o → i.span.stop = o.span.stop

namespace ParsedInstruction.LaidOver

variable {i : ParsedInstruction} {words args : List Token} {mnemonic : Token}

theorem inside (h : i.LaidOver words mnemonic args)
    (hts : Token.Ascending (words ++ mnemonic :: args)) {o : ParsedOperand} (ho : o ∈ i.operands) :
    i.span.offset ≤ o.span.offset ∧ o.span.stop ≤ i.span.stop := by
  rcases h.operands with ⟨hnone, -⟩ | hos
  · rw [hnone] at ho
    cases ho
  · obtain ⟨us, hsub, hover⟩ := hos.mem ho
    exact hts.over_inside h.span hover fun t ht => by simp [hsub.subset ht]

theorem ordered (h : i.LaidOver words mnemonic args)
    (hts : Token.Ascending (words ++ mnemonic :: args)) :
    i.operands.Pairwise fun o p => o.span.stop < p.span.offset := by
  rcases h.operands with ⟨hnone, -⟩ | hos
  · rw [hnone]
    exact List.Pairwise.nil
  · exact hos.ordered (hts.of_sublist (by simp))

theorem ends (h : i.LaidOver words mnemonic args) {o : ParsedOperand}
    (ho : i.operands.getLast? = some o) : i.span.stop = o.span.stop := by
  rcases h.operands with ⟨hnone, -⟩ | hos
  · rw [hnone] at ho
    cases ho
  · obtain ⟨o', t, ho', ht, hstop⟩ := hos.last
    cases ho.symm.trans ho'
    obtain ⟨-, last, -, hlast, -, -, -, hend⟩ := h.span
    rw [List.getLast?_append, List.getLast?_cons, ht] at hlast
    cases hlast
    exact hend.trans hstop.symm

end ParsedInstruction.LaidOver

namespace Statement

/-- What the parser does with tokens: its walk over them ends, within the tokens and with enough
steps, each round of it goes on, and instructions are nested. -/
structure Orderly (tokens : List Token) : Prop where
  walked : ∃ pos ≤ tokens.length, Walk.program tokens = .ok (parseTokens tokens) pos
  advances : ∀ pos, Parse.peekKind (tokens.drop pos) ≠ .eof → ∃ outcome next,
    Walk.round.run tokens pos = .ok outcome next ∧ pos < next ∧ next ≤ tokens.length
  nested : ∀ i, .instruction i ∈ (parseTokens tokens).1 → i.Nested tokens

theorem nested_of_mem {tokens : List Token} (hend : Ended tokens) (htokens : Token.Ascending tokens)
    {i : ParsedInstruction} (h : .instruction i ∈ (parseTokens tokens).1) : i.Nested tokens := by
  rw [parseTokens, Parse.lines_eq_reads] at h
  obtain ⟨us, hus, hmem⟩ := List.mem_flatMap.1 h
  have hsuffix : us <:+ tokens := by
    obtain ⟨front, eof, rfl, heof, -⟩ := hend
    exact Parse.suffix_of_mem_lineStarts ((Parse.reads_sublist heof _ front).1.subset hus)
  obtain ⟨first, vs, rest, hbehind, hfirst, hread⟩ := Parse.instruction_of_mem_line hmem
  obtain ⟨before, hbefore⟩ := (Parse.behindLabel_suffix us).trans hsuffix
  rw [hbehind] at hbefore
  obtain ⟨words, mnemonic, args, hlaid, h⟩ := Parse.instruction_eq_ok
    (htokens.of_sublist (hbefore ▸ List.sublist_append_right ..)) hfirst hread
  rw [hlaid, ← List.append_assoc] at hbefore
  have hts : Token.Ascending (words ++ mnemonic :: args) :=
    htokens.of_sublist (by rw [← hbefore]; simp)
  exact ⟨⟨before, words, mnemonic, args, rest, hbefore.symm, h⟩, fun o ho => h.inside hts ho,
    h.ordered hts, fun o ho => h.ends ho⟩

/-- **The parser comes to an end on the tokens of any text**, goes on with every round and uses no
token that is not there; and the spans of its statements are nested. -/
theorem parseTokens_orderly {source : String} {tokens : List Token}
    (h : Token.scan source = .ok tokens) : Orderly tokens := by
  have hend := Token.scan_ended h
  refine ⟨Walk.program_eq hend, fun pos hpos => ?_,
    fun i hi => nested_of_mem hend (Token.scan_ascending h) hi⟩
  obtain ⟨next, hlt, hle, hround, -⟩ := Walk.round_run hend hpos
  exact ⟨_, next, hround, hlt, hle⟩

/-- A prefix, two operands and a label, with a line between them that cannot be read. -/
theorem parseTokens_orderly_prefixed :
    (Token.scan "lock add dword ptr [eax], -1\n] ,\nx: inc bl").toOption.map parseTokens = some
        ([.instruction ⟨"add", [.lock],
            [⟨some .dword, false, true, none, none, .var "eax", ⟨1, 10, 9, 15⟩⟩,
              ⟨none, false, false, none, none, .int (-1), ⟨1, 27, 26, 2⟩⟩], ⟨1, 1, 0, 28⟩⟩,
          .label "x" ⟨3, 1, 33, 1⟩,
          .instruction ⟨"inc", [], [⟨none, false, false, none, none, .var "bl", ⟨3, 8, 40, 2⟩⟩],
            ⟨3, 4, 36, 6⟩⟩],
          [⟨.unexpected "]", ⟨2, 1, 29, 1⟩⟩]) ∧
      ∃ tokens, Token.scan "lock add dword ptr [eax], -1\n] ,\nx: inc bl" = .ok tokens ∧
        Orderly tokens := by
  refine ⟨by decide +kernel, ?_⟩
  have hsome : (Token.scan "lock add dword ptr [eax], -1\n] ,\nx: inc bl").toOption.isSome = true := by
    decide +kernel
  obtain ⟨tokens, hscan⟩ := Option.isSome_iff_exists.1 hsome
  rw [toOption_eq_some] at hscan
  exact ⟨tokens, hscan, parseTokens_orderly hscan⟩

end Statement
end IntelAsm
