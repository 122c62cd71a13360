/-
Recovery from malformed lines. The parser works in rounds (`Parse.round`): a
round takes an end of a line, or a line and what is left of it if it is
malformed. A run over some tokens in front of an end of a statement reads them
alike whatever the end is, and leaves the parser at the end, or behind it
(`Parse.exists_run`).

The second happens where the last line that is read lacks an expression at its
end: the end is consumed as if it were one, and the search for the end of the
statement then skips the next line. So malformed lines are contained exactly
if this does not happen, and otherwise it is the first line behind them that is
lost, with its statements and failures (`Statement.parseTokens_contained`).
-/
import Mathlib.Data.List.Forall2
import IntelAsm.Proofs.Failure
import IntelAsm.Proofs.ParseAgreement

namespace IntelAsm

namespace Parse

variable {a b : Ending} {ts : List Token}

/-! ## Lines -/

/-- Two lines read from `ts` in front of two ends. A line without failure takes a token at least. -/
inductive Line.Agree (a b : Ending) (ts : List Token) : Line → Line → Prop where
  | kept {statements : List Statement} {f g : Option ParseFailure} {left : List Token}
    (hleft : left <:+ ts) (hshort : f = none → left.length < ts.length)
    (hword : Option.Rel (Reworded a.token b.token) f g) :
    Agree a b ts ⟨statements, f, a.after left⟩ ⟨statements, g, b.after left⟩
  | broke {statements : List Statement} :
    Agree a b ts ⟨statements, some ⟨.noExpression a.token.shown, a.token.span⟩, a.rest⟩
      ⟨statements, some ⟨.noExpression b.token.shown, b.token.span⟩, b.rest⟩

theorem Line.Agree.addLabel {l l' : Line} (h : Line.Agree a b ts l l') (t : Token)
    (label : Statement) :
    Line.Agree a b (t :: ts) { l with statements := label :: l.statements }
      { l' with statements := label :: l'.statements } := by
  cases h with
  | kept hleft hshort hword =>
    refine .kept (hleft.trans (List.suffix_cons t ts)) (fun hf => ?_) hword
    exact Nat.lt_succ_of_lt (hshort hf)
  | broke => exact .broke

theorem commandLine_agree (a b : Ending) (t : Token) (ts : List Token) :
    Line.Agree a b (t :: ts) (commandLine (a.after (t :: ts))) (commandLine (b.after (t :: ts))) := by
  unfold commandLine
  rcases command_agree a b t ts with h | h
  · generalize command (a.after (t :: ts)) = p at h
    generalize command (b.after (t :: ts)) = q at h
    have hcons {left : List Token} (hleft : left <:+ ts) : left.length < (t :: ts).length :=
      Nat.lt_succ_of_le hleft.length_le
    cases h with
    | fail hleft hword =>
      exact .kept (hleft.trans (List.suffix_cons t ts)) (fun hf => by cases hf) (.some hword)
    | broke => exact .broke
    | @ok statements left hleft =>
      have hsuffix := hleft.trans (List.suffix_cons t ts)
      cases left with
      | nil =>
        have hend : ∀ e : Ending, (peek (e.after [])).kind.endsStatement = true := fun e => e.ends
        simp only [if_pos (hend a), if_pos (hend b)]
        exact .kept hsuffix (fun _ => hcons hleft) .none
      | cons u us =>
        have hpeek : ∀ e : Ending, peek (e.after (u :: us)) = u := fun _ => rfl
        simp only [hpeek]
        split
        · exact .kept hsuffix (fun _ => hcons hleft) .none
        · exact .kept hsuffix (fun hf => by cases hf) (.some (.same _))
  · simp only [h]
    exact .kept (List.suffix_refl _) (fun hf => by cases hf) (.some (.same _))

theorem line_agree (a b : Ending) (t : Token) (ts : List Token) :
    Line.Agree a b (t :: ts) (line (a.after (t :: ts))) (line (b.after (t :: ts))) := by
  have hpeek : ∀ e : Ending, peek (e.after (t :: ts)) = t := fun _ => rfl
  have htail : ∀ e : Ending, (e.after (t :: ts)).tail = e.after ts := fun _ => rfl
  simp only [line, hpeek, htail]
  split
  · cases ts with
    | nil =>
      have hend : ∀ e : Ending, (peekKind (e.after [])).endsStatement = true := fun e => e.ends
      rw [if_pos (hend a), if_pos (hend b)]
      exact .kept (List.suffix_cons t []) (fun _ => Nat.zero_lt_succ _) .none
    | cons u us =>
      have hkind : ∀ e : Ending, peekKind (e.after (u :: us)) = u.kind := fun _ => rfl
      rw [hkind, hkind]
      split
      · exact .kept (List.suffix_cons t _) (fun _ => Nat.lt_succ_self _) .none
      · exact (commandLine_agree a b u us).addLabel t _
  · exact commandLine_agree a b t ts

/-! ## Rounds -/

/-- One round of the parser: an end of a line, or a line and, if it is malformed, what is left of
it. -/
def round (ts : List Token) : Line :=
  if peekKind ts = .newline then ⟨[], none, ts.tail⟩
  else
    { line ts with
      rest := if (line ts).failure.isSome then skipStatement (line ts).rest else (line ts).rest }

theorem lines_end {fuel : Nat} (h : peekKind ts = .eof) : lines fuel ts = ([], []) := by
  cases fuel with
  | zero => rfl
  | succ fuel => simp only [lines, h]

theorem lines_newline (fuel : Nat) (h : peekKind ts = .newline) :
    lines (fuel + 1) ts = lines fuel ts.tail := by
  simp only [lines, h]

theorem lines_round (fuel : Nat) (h : peekKind ts ≠ .eof) :
    lines (fuel + 1) ts =
      ((round ts).statements ++ (lines fuel (round ts).rest).1,
        (round ts).failure.toList ++ (lines fuel (round ts).rest).2) := by
  by_cases hnewline : peekKind ts = .newline
  · simp only [lines, round, hnewline, if_true]
    rfl
  · rw [round, if_neg hnewline]
    simp only [lines]
    split
    · rename_i hf
      simp only [hf]
      rfl
    · rename_i f hf
      simp only [hf]
      rfl

/-- A round reads a token that is no end of input alike in front of two ends. Either it leaves less
than it found, or it breaks off behind the end. -/
theorem round_agree (a b : Ending) {t : Token} (ht : t.kind ≠ .eof) (ts : List Token) :
    (∃ statements f g left, left <:+ t :: ts ∧ left.length ≤ ts.length ∧
        Option.Rel (Reworded a.token b.token) f g ∧
        round (a.after (t :: ts)) = ⟨statements, f, a.after left⟩ ∧
        round (b.after (t :: ts)) = ⟨statements, g, b.after left⟩) ∨
      ∃ statements,
        round (a.after (t :: ts)) =
          ⟨statements, some ⟨.noExpression a.token.shown, a.token.span⟩, skipStatement a.rest⟩ ∧
        round (b.after (t :: ts)) =
          ⟨statements, some ⟨.noExpression b.token.shown, b.token.span⟩, skipStatement b.rest⟩ := by
  by_cases hnewline : t.kind = .newline
  · have hround : ∀ e : Ending, round (e.after (t :: ts)) = ⟨[], none, e.after ts⟩ :=
      fun e => if_pos hnewline
    exact .inl ⟨[], none, none, ts, List.suffix_cons t ts, Nat.le_refl _, .none, hround a, hround b⟩
  · have hround : ∀ e : Ending, round (e.after (t :: ts)) =
        { line (e.after (t :: ts)) with
          rest := if (line (e.after (t :: ts))).failure.isSome
            then skipStatement (line (e.after (t :: ts))).rest
            else (line (e.after (t :: ts))).rest } := fun e => if_neg hnewline
    rw [hround, hround]
    have hline := line_agree a b t ts
    generalize line (a.after (t :: ts)) = l at hline
    generalize line (b.after (t :: ts)) = l' at hline
    cases hline with
    | broke => exact .inr ⟨_, rfl, rfl⟩
    | @kept statements f g left hleft hshort hword =>
      left
      cases hword with
      | none => exact ⟨statements, none, none, left, hleft, Nat.le_of_lt_succ (hshort rfl), .none, rfl, rfl⟩
      | @some f g hword =>
        have hskip := skipStatement_suffix left
        refine ⟨statements, some f, some g, skipStatement left, hskip.trans hleft, ?_, .some hword, ?_, ?_⟩
        · -- The first token does not end the statement, so it is skipped if nothing else was.
          rcases List.suffix_cons_iff.1 hleft with rfl | hleft
          · have hmore : t.kind.endsStatement = false := by
              rw [← Bool.not_eq_true, TokenKind.endsStatement_iff]
              exact not_or.2 ⟨hnewline, ht⟩
            have hstep : skipStatement (t :: ts) = skipStatement ts := by
              rw [skipStatement, List.dropWhile_cons, hmore]
              rfl
            rw [hstep]
            exact (skipStatement_suffix ts).length_le
          · exact Nat.le_trans hskip.length_le hleft.length_le
        · simp only [Option.isSome_some, if_true, skipStatement_after]
        · simp only [Option.isSome_some, if_true, skipStatement_after]

/-! ## Runs -/

/-- The tokens left where the parser sees the end of input. -/
def stop : Nat → List Token → List Token
  | 0, ts => ts
  | fuel + 1, ts => if peekKind ts = .eof then ts else stop fuel (round ts).rest

theorem stop_end {fuel : Nat} (h : peekKind ts = .eof) : stop fuel ts = ts := by
  cases fuel with
  | zero => rfl
  | succ fuel => rw [stop, if_pos h]

/-- A run over `ts` in front of an end gives some statements and failures, and goes on with `rest`
and with enough fuel. -/
structure Run (e : Ending) (ts : List Token) (fuel : Nat) (statements : List Statement)
    (failures : List ParseFailure) (rest : List Token) (fuel' : Nat) : Prop where
  outcome : lines fuel (e.after ts) =
    (statements ++ (lines fuel' rest).1, failures ++ (lines fuel' rest).2)
  stops : stop fuel (e.after ts) = stop fuel' rest
  enough : fuel ≤ fuel' + ts.length

theorem Run.refl (e : Ending) (fuel : Nat) : Run e [] fuel [] [] (e.after []) fuel :=
  ⟨rfl, rfl, Nat.le_refl _⟩

/-- One round of a run. -/
theorem lines_stop_round {e : Ending} {t : Token} (ht : t.kind ≠ .eof) {first : List Statement}
    {f : Option ParseFailure} {rest : List Token} (fuel : Nat)
    (hround : round (e.after (t :: ts)) = ⟨first, f, rest⟩) :
    lines (fuel + 1) (e.after (t :: ts)) =
        (first ++ (lines fuel rest).1, f.toList ++ (lines fuel rest).2) ∧
      stop (fuel + 1) (e.after (t :: ts)) = stop fuel rest := by
  have hpeek : peekKind (e.after (t :: ts)) ≠ .eof := ht
  rw [lines_round fuel hpeek, stop, if_neg hpeek, hround]
  exact ⟨rfl, rfl⟩

theorem Run.step {e : Ending} {t : Token} {fuel fuel' : Nat} {f : Option ParseFailure}
    {left rest : List Token} {first statements : List Statement} {failures : List ParseFailure}
    (ht : t.kind ≠ .eof) (hround : round (e.after (t :: ts)) = ⟨first, f, e.after left⟩)
    (hlen : left.length ≤ ts.length) (h : Run e left fuel statements failures rest fuel') :
    Run e (t :: ts) (fuel + 1) (first ++ statements) (f.toList ++ failures) rest fuel' := by
  obtain ⟨hlines, hstop⟩ := lines_stop_round ht fuel hround
  have henough := h.enough
  refine ⟨?_, hstop.trans h.stops, by rw [List.length_cons]; omega⟩
  rw [hlines, h.outcome, List.append_assoc, List.append_assoc]

theorem Run.broke {e : Ending} {t : Token} (fuel : Nat) {f : ParseFailure} {first : List Statement}
    (ht : t.kind ≠ .eof) (hround : round (e.after (t :: ts)) = ⟨first, some f, skipStatement e.rest⟩) :
    Run e (t :: ts) (fuel + 1) first [f] (skipStatement e.rest) fuel := by
  obtain ⟨hlines, hstop⟩ := lines_stop_round ht fuel hround
  exact ⟨hlines, hstop, by rw [List.length_cons]; omega⟩

/-- **Runs over the same tokens in front of two ends**: the statements are the same, the failures too
up to how they name the end, and both are left at the end or both behind it. -/
theorem exists_run (a b : Ending) {n m : Nat} (hts : ∀ t ∈ ts, t.kind ≠ .eof) (hn : ts.length ≤ n)
    (hm : ts.length ≤ m) : ∃ statements fs gs n' m',
      List.Forall₂ (Reworded a.token b.token) fs gs ∧
      ((Run a ts n statements fs (a.after []) n' ∧ Run b ts m statements gs (b.after []) m') ∨
        (fs.getLast? = some ⟨.noExpression a.token.shown, a.token.span⟩ ∧
          Run a ts n statements fs (skipStatement a.rest) n' ∧
          Run b ts m statements gs (skipStatement b.rest) m')) := by
  -- By induction on the steps of the first run; each round leaves fewer tokens and one step less.
  induction n generalizing ts m with
  | zero =>
    obtain rfl := List.eq_nil_of_length_eq_zero (Nat.le_zero.1 hn)
    exact ⟨[], [], [], 0, m, .nil, .inl ⟨.refl a 0, .refl b m⟩⟩
  | succ n ih =>
    cases ts with
    | nil => exact ⟨[], [], [], n + 1, m, .nil, .inl ⟨.refl a (n + 1), .refl b m⟩⟩
    | cons t ts =>
      rw [List.length_cons] at hn hm
      obtain ⟨m, rfl⟩ : ∃ k, m = k + 1 := ⟨m - 1, by omega⟩
      have ht : t.kind ≠ .eof := hts t (by simp)
      rcases round_agree a b ht ts with ⟨first, f, g, left, hleft, hlen, hword, hA, hB⟩ | ⟨first, hA, hB⟩
      · obtain ⟨statements, fs, gs, n', m', hwords, hruns⟩ :=
          ih (m := m) (fun u hu => hts u (hleft.subset hu)) (by omega) (by omega)
        have hwords' : List.Forall₂ (Reworded a.token b.token) (f.toList ++ fs) (g.toList ++ gs) := by
          cases hword with
          | none => exact hwords
          | some hword => exact .cons hword hwords
        refine ⟨first ++ statements, f.toList ++ fs, g.toList ++ gs, n', m', hwords', ?_⟩
        rcases hruns with ⟨ha, hb⟩ | ⟨hlast, ha, hb⟩
        · exact .inl ⟨ha.step ht hA hlen, hb.step ht hB hlen⟩
        · refine .inr ⟨?_, ha.step ht hA hlen, hb.step ht hB hlen⟩
          rw [List.getLast?_append, hlast]
          rfl
      · exact ⟨first, _, _, n, m, .cons .noExpression .nil,
          .inr ⟨rfl, .broke n ht hA, .broke m ht hB⟩⟩

/-! ## The end of input -/

/-- An end of input with nothing behind it. -/
def inputEnd (eof : Token) (h : eof.kind = .eof) : Ending := ⟨eof, [], by rw [h]; rfl⟩

/-- An end of a line in front of more lines. -/
def lineEnd (newline : Token) (h : newline.kind = .newline) (rest : List Token) : Ending :=
  ⟨newline, rest, by rw [h]; rfl⟩

section InputEnd

variable {eof : Token} {heof : eof.kind = .eof} {n n' : Nat} {statements : List Statement}
  {fs : List ParseFailure}

theorem Run.at_inputEnd
    (h : Run (inputEnd eof heof) ts n statements fs ((inputEnd eof heof).after []) n') :
    lines n (ts ++ [eof]) = (statements, fs) ∧ stop n (ts ++ [eof]) = [eof] := by
  have hpeek : peekKind ((inputEnd eof heof).after []) = .eof := heof
  have houtcome := h.outcome
  have hstops := h.stops
  rw [lines_end hpeek, List.append_nil, List.append_nil] at houtcome
  rw [stop_end hpeek] at hstops
  exact ⟨houtcome, hstops⟩

theorem Run.behind_inputEnd
    (h : Run (inputEnd eof heof) ts n statements fs (skipStatement (inputEnd eof heof).rest) n') :
    lines n (ts ++ [eof]) = (statements, fs) ∧ stop n (ts ++ [eof]) = [] := by
  have hpeek : peekKind (skipStatement (inputEnd eof heof).rest) = .eof := rfl
  have houtcome := h.outcome
  have hstops := h.stops
  rw [lines_end hpeek, List.append_nil, List.append_nil] at houtcome
  rw [stop_end hpeek] at hstops
  exact ⟨houtcome, hstops⟩

end InputEnd

/-- As many steps as there are tokens in front of the end of input suffice. -/
theorem lines_fuel {eof : Token} (heof : eof.kind = .eof) (hts : ∀ t ∈ ts, t.kind ≠ .eof) {n m : Nat}
    (hn : ts.length ≤ n) (hm : ts.length ≤ m) : lines n (ts ++ [eof]) = lines m (ts ++ [eof]) := by
  obtain ⟨statements, fs, gs, n', m', hwords, hruns⟩ :=
    exists_run (inputEnd eof heof) (inputEnd eof heof) hts hn hm
  have hsame : fs = gs := List.forall₂_eq_eq_eq ▸ hwords.imp fun _ _ h => h.eq_of_same
  subst hsame
  rcases hruns with ⟨ha, hb⟩ | ⟨-, ha, hb⟩
  · rw [ha.at_inputEnd.1, hb.at_inputEnd.1]
  · rw [ha.behind_inputEnd.1, hb.behind_inputEnd.1]

/-- Whether the parser, run over the tokens up to an end of input, consumes that end. -/
def overruns (ts : List Token) : Bool :=
  (stop (ts.length + 1) (ts ++ [⟨.eof, "", .nowhere⟩])).isEmpty

/-- Any end of input shows whether the parser consumes it. -/
theorem isEmpty_stop {eof : Token} (heof : eof.kind = .eof) (hts : ∀ t ∈ ts, t.kind ≠ .eof) :
    (stop (ts.length + 1) (ts ++ [eof])).isEmpty = overruns ts := by
  obtain ⟨statements, fs, gs, n', m', -, hruns⟩ :=
    exists_run (inputEnd eof heof) (inputEnd ⟨.eof, "", .nowhere⟩ rfl) hts
      (Nat.le_succ ts.length) (Nat.le_succ ts.length)
  rcases hruns with ⟨ha, hb⟩ | ⟨-, ha, hb⟩
  · rw [ha.at_inputEnd.2, overruns, hb.at_inputEnd.2]
    rfl
  · rw [ha.behind_inputEnd.2, overruns, hb.behind_inputEnd.2]

end Parse

/-! ## Containment -/

namespace Statement

open Parse (overruns skipStatement inputEnd lineEnd)

/-- Two outcomes one after the other, the failures up to how they name the end between the two. -/
structure Joins (eof newline : Token) (first second whole : List Statement × List ParseFailure) :
    Prop where
  statements : whole.1 = first.1 ++ second.1
  failures : List.Forall₂ (Reworded eof newline) (first.2 ++ second.2) whole.2

variable {eof newline : Token} {ts : List Token}

theorem lines_eq_parseTokens (heof : eof.kind = .eof) (hts : ∀ t ∈ ts, t.kind ≠ .eof) {n : Nat}
    (hn : ts.length ≤ n) : Parse.lines n (ts ++ [eof]) = parseTokens (ts ++ [eof]) :=
  Parse.lines_fuel heof hts hn (by simp)

section LineEnd

variable {hnewline : newline.kind = .newline} {us : List Token} {n n' : Nat}
  {statements : List Statement} {fs : List ParseFailure} (heof : eof.kind = .eof)
  (hus : ∀ t ∈ us, t.kind ≠ .eof) (hn : ts.length + us.length + 2 ≤ n)

include heof hus hn

/-- From an end of a line the parser goes on with the next line. -/
theorem outcome_at_lineEnd
    (h : Parse.Run (lineEnd newline hnewline (us ++ [eof])) ts n statements fs
      ((lineEnd newline hnewline (us ++ [eof])).after []) n') :
    Parse.lines n (ts ++ newline :: (us ++ [eof])) =
      (statements ++ (parseTokens (us ++ [eof])).1, fs ++ (parseTokens (us ++ [eof])).2) := by
  have henough := h.enough
  obtain ⟨k, rfl⟩ : ∃ k, n' = k + 1 := ⟨n' - 1, by omega⟩
  have hnext : Parse.lines (k + 1) ((lineEnd newline hnewline (us ++ [eof])).after []) =
      Parse.lines k (us ++ [eof]) := Parse.lines_newline k hnewline
  have houtcome := h.outcome
  rw [hnext, lines_eq_parseTokens heof hus (by omega)] at houtcome
  exact houtcome

/-- From behind an end of a line the parser goes on with the line after the next. -/
theorem outcome_behind_lineEnd
    (h : Parse.Run (lineEnd newline hnewline (us ++ [eof])) ts n statements fs
      (skipStatement (lineEnd newline hnewline (us ++ [eof])).rest) n') :
    Parse.lines n (ts ++ newline :: (us ++ [eof])) =
      (statements ++ (parseTokens (skipStatement us ++ [eof])).1,
        fs ++ (parseTokens (skipStatement us ++ [eof])).2) := by
  have henough := h.enough
  have hskip := Parse.skipStatement_suffix us
  have hlen := hskip.length_le
  have hrest : skipStatement (lineEnd newline hnewline (us ++ [eof])).rest =
      skipStatement us ++ [eof] := Parse.skipStatement_after (inputEnd eof heof) us
  have houtcome := h.outcome
  rw [hrest, lines_eq_parseTokens heof (fun t ht => hus t (hskip.subset ht)) (by omega)] at houtcome
  exact houtcome

end LineEnd

/-- **Lines behind an end of a line** are read as if they stood alone, without the first of them if
the parser consumes the end. -/
theorem parseTokens_joins (heof : eof.kind = .eof) (hnewline : newline.kind = .newline)
    (hts : ∀ t ∈ ts, t.kind ≠ .eof) {us : List Token} (hus : ∀ t ∈ us, t.kind ≠ .eof) :
    Joins eof newline (parseTokens (ts ++ [eof]))
        (parseTokens ((if overruns ts then skipStatement us else us) ++ [eof]))
        (parseTokens (ts ++ newline :: (us ++ [eof]))) ∧
      (overruns ts = true →
        (parseTokens (ts ++ [eof])).2.getLast? = some ⟨.noExpression eof.shown, eof.span⟩) := by
  have hwhole : parseTokens (ts ++ newline :: (us ++ [eof])) =
      Parse.lines (ts.length + us.length + 2) (ts ++ newline :: (us ++ [eof])) := by
    rw [parseTokens]
    congr 1
    simp only [List.length_append, List.length_cons, List.length_nil]
    omega
  obtain ⟨statements, fs, gs, n', m', hwords, hruns⟩ :=
    Parse.exists_run (inputEnd eof heof) (lineEnd newline hnewline (us ++ [eof])) hts
      (n := ts.length + 1) (m := ts.length + us.length + 2) (by omega) (by omega)
  -- The failures of the second part do not see the end between the parts.
  have hjoin : ∀ second : List Statement × List ParseFailure,
      Joins eof newline (statements, fs) second (statements ++ second.1, gs ++ second.2) := by
    intro second
    exact ⟨rfl, List.rel_append hwords (List.forall₂_same.2 fun f _ => .same f)⟩
  rw [hwhole, ← Parse.isEmpty_stop heof hts, ← lines_eq_parseTokens heof hts (Nat.le_succ _)]
  rcases hruns with ⟨ha, hb⟩ | ⟨hlast, ha, hb⟩
  · rw [ha.at_inputEnd.1, ha.at_inputEnd.2, outcome_at_lineEnd heof hus (Nat.le_refl _) hb]
    exact ⟨hjoin _, fun h => by cases h⟩
  · rw [ha.behind_inputEnd.1, ha.behind_inputEnd.2, outcome_behind_lineEnd heof hus (Nat.le_refl _) hb]
    exact ⟨hjoin _, fun _ => hlast⟩

/-- A label alone is a line. -/
theorem parseTokens_label (heof : eof.kind = .eof) (text : String) (span : Span) :
    parseTokens [⟨.labelDef, text, span⟩, eof] = ([.label text span], []) := by
  obtain ⟨kind, eofText, eofSpan⟩ := eof
  cases heof
  rfl

/-- **Malformed lines are contained exactly if the parser does not consume their end.** Otherwise
the last failure is a missing expression there, and the line behind it is lost. -/
theorem parseTokens_contained (heof : eof.kind = .eof) (hnewline : newline.kind = .newline)
    (hts : ∀ t ∈ ts, t.kind ≠ .eof) :
    (overruns ts = false ↔ ∀ us : List Token, (∀ t ∈ us, t.kind ≠ .eof) →
      Joins eof newline (parseTokens (ts ++ [eof])) (parseTokens (us ++ [eof]))
        (parseTokens (ts ++ newline :: (us ++ [eof])))) ∧
    (overruns ts = true →
      (parseTokens (ts ++ [eof])).2.getLast? = some ⟨.noExpression eof.shown, eof.span⟩ ∧
      ∀ us : List Token, (∀ t ∈ us, t.kind ≠ .eof) →
        Joins eof newline (parseTokens (ts ++ [eof])) (parseTokens (skipStatement us ++ [eof]))
          (parseTokens (ts ++ newline :: (us ++ [eof])))) := by
  have hjoins := fun (us : List Token) (hus : ∀ t ∈ us, t.kind ≠ .eof) =>
    parseTokens_joins heof hnewline hts hus
  cases hover : overruns ts with
  | false =>
    simp only [hover] at hjoins
    exact ⟨⟨fun _ us hus => (hjoins us hus).1, fun _ => rfl⟩, fun h => by cases h⟩
  | true =>
    simp only [hover, if_true, forall_const] at hjoins
    have hlast := (hjoins [] (by simp)).2
    refine ⟨⟨(fun h => by cases h), fun hall => ?_⟩, fun _ => ⟨hlast, fun us hus => (hjoins us hus).1⟩⟩
    -- A label behind the malformed line would be read if it stood alone, and it is lost.
    have hlabel : ∀ t ∈ [(⟨.labelDef, "", .nowhere⟩ : Token)], t.kind ≠ .eof := by decide
    have hboth := (hall _ hlabel).statements.symm.trans (hjoins _ hlabel).1.statements
    have hread := parseTokens_label heof "" .nowhere
    have hlost : parseTokens (skipStatement [⟨.labelDef, "", .nowhere⟩] ++ [eof]) = ([], []) :=
      Parse.lines_end heof
    rw [List.singleton_append, hread, hlost] at hboth
    simp at hboth

/-- `mov eax,` lacks an operand at its end: whatever lines follow, the first of them is lost. -/
theorem parseTokens_contained_comma :
    ∃ ts eof newline, Token.scan "mov eax," = .ok (ts ++ [eof]) ∧ overruns ts = true ∧
      (parseTokens (ts ++ [eof])).2 = [⟨.noExpression "end of input", ⟨1, 9, 8, 0⟩⟩] ∧
      ∀ us : List Token, (∀ t ∈ us, t.kind ≠ .eof) →
        Joins eof newline (parseTokens (ts ++ [eof])) (parseTokens (skipStatement us ++ [eof]))
          (parseTokens (ts ++ newline :: (us ++ [eof]))) := by
  have hscan : (Token.scan "mov eax,").toOption = some
      ([⟨.ident, "mov", ⟨1, 1, 0, 3⟩⟩, ⟨.ident, "eax", ⟨1, 5, 4, 3⟩⟩, ⟨.comma, ",", ⟨1, 8, 7, 1⟩⟩] ++
        [⟨.eof, "", ⟨1, 9, 8, 0⟩⟩]) := by decide +kernel
  rw [toOption_eq_some] at hscan
  have hover : overruns [⟨.ident, "mov", ⟨1, 1, 0, 3⟩⟩, ⟨.ident, "eax", ⟨1, 5, 4, 3⟩⟩,
      ⟨.comma, ",", ⟨1, 8, 7, 1⟩⟩] = true := by decide +kernel
  refine ⟨_, _, ⟨.newline, "\n", ⟨1, 9, 8, 1⟩⟩, hscan, hover, by decide +kernel, ?_⟩
  exact ((parseTokens_contained rfl rfl (by decide)).2 hover).2

/-- A line that is lost: `nop` behind `mov eax,` gives no statement, and alone it gives one. -/
theorem parseTokens_lost_line :
    ∃ ts us newline eof, Token.scan "mov eax,\nnop" = .ok (ts ++ newline :: (us ++ [eof])) ∧
      (parseTokens (ts ++ newline :: (us ++ [eof]))).1 = [] ∧
      (parseTokens (us ++ [eof])).1 = [.instruction ⟨"nop", [], [], ⟨2, 1, 9, 3⟩⟩] ∧
      ¬ Joins eof newline (parseTokens (ts ++ [eof])) (parseTokens (us ++ [eof]))
        (parseTokens (ts ++ newline :: (us ++ [eof]))) := by
  have hscan : (Token.scan "mov eax,\nnop").toOption = some
      ([⟨.ident, "mov", ⟨1, 1, 0, 3⟩⟩, ⟨.ident, "eax", ⟨1, 5, 4, 3⟩⟩, ⟨.comma, ",", ⟨1, 8, 7, 1⟩⟩] ++
        ⟨.newline, "\n", ⟨1, 9, 8, 1⟩⟩ ::
          ([⟨.ident, "nop", ⟨2, 1, 9, 3⟩⟩] ++ [⟨.eof, "", ⟨2, 4, 12, 0⟩⟩])) := by decide +kernel
  rw [toOption_eq_some] at hscan
  refine ⟨_, _, _, _, hscan, ?hnone, ?hnop, fun hjoins => ?_⟩
  case hnone => decide +kernel
  case hnop => decide +kernel
  have hlost := hjoins.statements
  revert hlost
  decide +kernel

end Statement
end IntelAsm
