/-
Where the statements of a session come from. Along the calls of a session a trace
keeps, besides the session itself, one origin for each statement: the text it
was read from and whether lines of it were to be kept, or none for a label added
by name (`Session.Trace`). Every call leaves the entries of the session as their
origins say (`Session.Trace.agrees_run`), also one that fails half-way.

An instruction starts inside of a line of its text, with a character of a name,
so the line that is kept for it is the one that contains its start
(`Statement.sourceLine_lineAt`).
-/
import IntelAsm.Proofs.FailedCalls
import IntelAsm.Proofs.SpanNesting

namespace IntelAsm

/-! ## Lines of a text -/

namespace Text

open Token (byteCount)

/-- The line of the text that contains the byte at `offset`. -/
def LineAt (text : List Char) (offset : Nat) (line : List Char) : Prop :=
  ∃ before after, text = before ++ line ++ after ∧ '\n' ∉ line ∧
    (before = [] ∨ before.getLast? = some '\n') ∧ (after = [] ∨ after.head? = some '\n') ∧
    byteCount before ≤ offset ∧ offset < byteCount (before ++ line)

/-- The part of the last line of a text, last character first, with `line` in front of the text. -/
def lastLine (line front : List Char) : List Char :=
  front.foldl (fun line c => if c = '\n' then [] else c :: line) line

theorem exists_before_lastLine (front : List Char) :
    ∃ before, front = before ++ (lastLine [] front).reverse ∧ '\n' ∉ lastLine [] front ∧
      (before = [] ∨ before.getLast? = some '\n') := by
  induction front using List.reverseRecOn with
  | nil => exact ⟨[], rfl, List.not_mem_nil, .inl rfl⟩
  | append_singleton front c ih =>
    obtain ⟨before, hfront, hline, hbefore⟩ := ih
    have hstep : lastLine [] (front ++ [c]) =
        if c = '\n' then [] else c :: lastLine [] front := by
      rw [lastLine, List.foldl_append]
      rfl
    rw [hstep]
    split
    · rename_i hc
      exact ⟨front ++ [c], by simp, List.not_mem_nil, .inr (by simp [hc])⟩
    · rename_i hc
      refine ⟨before, ?_, ?_, hbefore⟩
      · rw [List.reverse_cons, ← List.append_assoc, ← hfront]
      · rw [List.mem_cons, not_or]
        exact ⟨fun heq => hc heq.symm, hline⟩

/-- The line around a character that does not end one. -/
theorem lineAt_lastLine (front rest : List Char) {c : Char} (hc : c ≠ '\n') :
    LineAt (front ++ c :: rest) (byteCount front)
      ((lastLine [] front).reverse ++ (c :: rest).takeWhile (· ≠ '\n')) := by
  obtain ⟨before, hfront, hline, hbefore⟩ := exists_before_lastLine front
  refine ⟨before, (c :: rest).dropWhile (· ≠ '\n'), ?_, ?_, hbefore, ?_, ?_, ?_⟩
  · rw [List.append_assoc, List.append_assoc, List.takeWhile_append_dropWhile, ← List.append_assoc,
      ← hfront]
  · rw [List.mem_append, List.mem_reverse, not_or]
    exact ⟨hline, fun hmem => by simpa using List.mem_takeWhile_imp hmem⟩
  · cases hdrop : (c :: rest).dropWhile (· ≠ '\n') with
    | nil => exact .inl rfl
    | cons d ds =>
      have hd := List.head_dropWhile_not (· ≠ '\n') (l := c :: rest) (by rw [hdrop]; nofun)
      simp only [hdrop] at hd
      exact .inr (congrArg some (not_not.1 (of_decide_eq_false hd)))
  · conv_rhs => rw [hfront]
    rw [Token.byteCount_append]
    exact Nat.le_add_right ..
  · rw [← List.append_assoc, ← hfront, Token.byteCount_append]
    refine Nat.lt_add_of_pos_right (Token.byteCount_pos ?_)
    rw [List.takeWhile_cons_of_pos (by simpa using hc)]
    nofun

end Text

namespace Session

open Token (byteCount)

theorem sourceLine_go (line front rest : List Char) (c : Char) :
    sourceLine.go line (front ++ c :: rest) (byteCount front) =
      String.ofList (Text.trim ((Text.lastLine line front).reverse ++
        (c :: rest).takeWhile (· ≠ '\n'))) := by
  induction front generalizing line with
  | nil => rfl
  | cons d front ih =>
    obtain ⟨n, hn⟩ := Nat.exists_eq_succ_of_ne_zero (Nat.pos_iff_ne_zero.1 d.utf8Size_pos)
    have hcount : byteCount (d :: front) = (n + byteCount front) + 1 := by
      rw [byteCount, hn]
      omega
    rw [List.cons_append, hcount, sourceLine.go, if_neg (by omega),
      show n + byteCount front + 1 - d.utf8Size = byteCount front by omega, ih]
    rfl

end Session

/-! ## Where instructions start -/

namespace Token

/-- A token that does not end a statement starts inside of a line. -/
theorem scanFrom_starts {fuel : Nat} {done cs : List Char} {tokens : List Token}
    (h : scanFrom fuel (Cursor.start.steps done) cs = .ok tokens) {t : Token} (ht : t ∈ tokens)
    (hkind : t.kind.endsStatement = false) :
    ∃ front c behind, done ++ cs = front ++ c :: behind ∧ t.span.offset = byteCount front ∧
      c ≠ '\n' := by
  have heof : ∀ span, t ≠ ⟨.eof, "", span⟩ := by
    rintro span rfl
    cases hkind
  induction fuel generalizing done cs tokens with
  | zero =>
    cases h
    exact absurd (List.mem_singleton.1 ht) (heof _)
  | succ fuel ih =>
    cases cs with
    | nil =>
      cases h
      exact absurd (List.mem_singleton.1 ht) (heof _)
    | cons c cs =>
      cases hl : lexeme c cs with
      | error e =>
        rw [scanFrom_error hl] at h
        cases h
      | ok l =>
        rw [scanFrom_ok hl, map_eq_ok] at h
        obtain ⟨later, hlater, rfl⟩ := h
        rcases List.mem_append.1 ht with ht | ht
        · obtain ⟨found, hfound, rfl⟩ := Option.map_eq_some_iff.1 (Option.mem_toList.1 ht)
          refine ⟨done, c, cs, rfl, ?_, ?_⟩
          · rw [Cursor.steps_start, Cursor.span]
          · rintro rfl
            cases hl
            cases hfound
            cases hkind
        · rw [← Cursor.steps_append] at hlater
          obtain ⟨front, d, behind, hsplit, hoffset, hd⟩ := ih hlater ht
          refine ⟨front, d, behind, ?_, hoffset, hd⟩
          rw [← hsplit, List.append_assoc, (lexeme_tiles hl).1]

end Token

/-- **The line that is kept for an instruction contains its start.** -/
theorem Statement.sourceLine_lineAt {text : String} {i : ParsedInstruction}
    (h : .instruction i ∈ (read text).1) :
    ∃ line, Text.LineAt text.toList i.span.offset line ∧
      Session.sourceLine text.toList i.span.offset = String.ofList (Text.trim line) := by
  unfold read at h
  cases hscan : Token.scan text with
  | error d =>
    rw [hscan] at h
    cases h
  | ok tokens =>
    rw [hscan] at h
    have hnested := nested_of_mem (Token.scan_ended hscan) (Token.scan_ascending hscan) h
    obtain ⟨before, words, mnemonic, args, after, htokens, hlaid⟩ := hnested.laid
    obtain ⟨first, -, hfirst, -, -, -, hoffset, -⟩ := hlaid.span
    -- The first token is a word of the instruction.
    have hword : first ∈ words ++ [mnemonic] := by
      cases words <;> cases hfirst <;> simp
    have hmem : first ∈ tokens := by
      rw [htokens]
      exact List.mem_append_left _ (List.mem_append_right _ (List.mem_of_head? hfirst))
    have hrun : Token.scanFrom text.toList.length (Cursor.start.steps []) text.toList =
      .ok tokens := hscan
    obtain ⟨front, c, behind, htext, hstart, hc⟩ :=
      Token.scanFrom_starts hrun hmem (by rw [hlaid.names first hword]; rfl)
    rw [List.nil_append] at htext
    rw [hoffset, hstart, htext]
    exact ⟨_, Text.lineAt_lastLine front behind hc, Session.sourceLine_go [] front behind c⟩

/-! ## Origins -/

namespace Session

/-- A text that was added, and whether lines of it were kept. -/
structure Origin where
  text : String
  kept : Bool

/-- What the statements that a call adds come from. -/
def Call.origin? (listing : Bool) : Call → Option Origin
  | .emit text => some ⟨text, listing⟩
  | _ => none

/-- A session, and what each of its statements comes from. -/
structure Trace where
  session : Session
  origins : List (Option Origin)

namespace Trace

def start (mode : Mode) : Trace := ⟨new mode, []⟩

/-- Goes on with the session a call leaves, also one that failed. -/
def call (t : Trace) (c : Call) : Trace where
  session := (c.on t.session).session
  origins := match c with
    | .reset => []
    | _ => t.origins ++ List.replicate
        ((c.on t.session).session.statementCount - t.session.statementCount)
        (c.origin? t.session.listing)

def run (mode : Mode) (calls : List Call) : Trace := calls.foldl call (start mode)

end Trace

/-- An entry is what a session keeps of a statement of the text that it comes from, or a label added
by name. -/
inductive CameFrom : Entry → Option Origin → Prop where
  | text {o : Origin} {st : Statement} (hread : st ∈ (Statement.read o.text).1) :
    CameFrom (entryOf o.text.toList o.kept st) (some o)
  | name (name : String) : CameFrom ⟨.label name .nowhere, none⟩ none

theorem emit_entries (s : Session) (source : String) :
    ∃ sts, sts <+: (Statement.read source).1 ∧
      (s.emit source).session.entries = s.entries ++ sts.map (entryOf source.toList s.listing) := by
  have hnone : [] <+: (Statement.read source).1 ∧
      s.entries = s.entries ++ [].map (entryOf source.toList s.listing) :=
    ⟨List.nil_prefix, (List.append_nil _).symm⟩
  rcases s.emit_done_or_fails source with hdone | ⟨t, d, hfail, hfails⟩
  · exact ⟨_, List.prefix_refl _, by rw [hdone]; rfl⟩
  · rw [hfail]
    cases hfails with
    | sourceBytes _ => exact ⟨[], hnone⟩
    | errors _ _ => exact ⟨[], hnone⟩
    | statements _ => exact ⟨[], hnone⟩
    | labels hread _ => exact ⟨_, by rw [hread]; exact List.prefix_append .., rfl⟩

theorem label_entries (s : Session) (name : String) :
    (s.label name).session.entries = s.entries ∨
      (s.label name).session.entries = s.entries ++ [⟨.label name .nowhere, none⟩] := by
  rcases s.label_cases name with ⟨-, hfull⟩ | ⟨-, -, hrefused⟩ | ⟨-, -, hdone⟩
  · exact .inl (by rw [hfull])
  · exact .inl (by rw [hrefused])
  · exact .inr (by rw [hdone]; rfl)

namespace Trace

/-- Each entry is as its origin says. -/
def Agrees (t : Trace) : Prop := List.Forall₂ CameFrom t.session.entries t.origins

theorem agrees_start (mode : Mode) : (start mode).Agrees := .nil

/-- A call that adds entries as their origins say. -/
theorem Agrees.append {t : Trace} (h : t.Agrees) {c : Call} (hc : c ≠ .reset) {new : List Entry}
    (hentries : (c.on t.session).session.entries = t.session.entries ++ new)
    (hnew : List.Forall₂ CameFrom new (List.replicate new.length (c.origin? t.session.listing))) :
    (t.call c).Agrees := by
  have horigins : (t.call c).origins =
      t.origins ++ List.replicate new.length (c.origin? t.session.listing) := by
    have hcount : (c.on t.session).session.statementCount - t.session.statementCount =
        new.length := by
      rw [statementCount, hentries, List.length_append, statementCount, Nat.add_sub_cancel_left]
    rw [← hcount]
    cases c <;> first | rfl | exact absurd rfl hc
  rw [Agrees, horigins, show (t.call c).session = (c.on t.session).session from rfl, hentries]
  exact List.rel_append h hnew

theorem forall₂_entryOf {o : Origin} {sts : List Statement}
    (h : ∀ st ∈ sts, st ∈ (Statement.read o.text).1) :
    List.Forall₂ CameFrom (sts.map (entryOf o.text.toList o.kept))
      (List.replicate sts.length (some o)) := by
  induction sts with
  | nil => exact .nil
  | cons st sts ih =>
    exact .cons (.text (h st (List.mem_cons_self ..)))
      (ih fun u hu => h u (List.mem_cons_of_mem _ hu))

/-- What one call keeps. -/
theorem Agrees.call {t : Trace} (h : t.Agrees) (c : Call) : (t.call c).Agrees := by
  cases c with
  | emit source =>
    obtain ⟨sts, hsts, hentries⟩ := t.session.emit_entries source
    refine h.append nofun hentries ?_
    rw [List.length_map]
    exact @forall₂_entryOf ⟨source, t.session.listing⟩ sts fun st hst => hsts.subset hst
  | label name =>
    rcases t.session.label_entries name with hsame | hmore
    · exact h.append nofun (hsame.trans (List.append_nil _).symm) .nil
    · exact h.append nofun hmore (.cons (.name name) .nil)
  | reset => exact List.Forall₂.nil
  | setLimits _ => exact h.append nofun (List.append_nil _).symm .nil
  | setBase _ => exact h.append nofun (List.append_nil _).symm .nil
  | defineExternal _ _ => exact h.append nofun (List.append_nil _).symm .nil
  | enableListing => exact h.append nofun (List.append_nil _).symm .nil

/-- **What a whole run keeps**: each entry is as its origin says. -/
theorem agrees_run (mode : Mode) (calls : List Call) : (run mode calls).Agrees :=
  List.foldlRecOn calls Trace.call (agrees_start mode) fun _ h c _ => h.call c

/-! ## Lines that are kept -/

theorem run_concat (mode : Mode) (calls : List Call) (c : Call) :
    run mode (calls ++ [c]) = (run mode calls).call c := by
  rw [run, List.foldl_append]
  rfl

/-- No call stops lines from being kept. -/
theorem listing_call {s : Session} (h : s.listing = true) (c : Call) :
    (c.on s).session.listing = true := by
  cases c with
  | emit source =>
    rcases s.emit_done_or_fails source with hdone | ⟨t, d, hfail, hfails⟩
    · rw [Call.on, hdone]
      exact h
    · rw [Call.on, hfail]
      cases hfails <;> exact h
  | label name =>
    rw [Call.on]
    rcases s.label_cases name with ⟨-, hlabel⟩ | ⟨-, -, hlabel⟩ | ⟨-, -, hlabel⟩ <;>
      exact hlabel ▸ h
  | enableListing => rfl
  | reset => exact h
  | setLimits _ => exact h
  | setBase _ => exact h
  | defineExternal _ _ => exact h

theorem listing_run {mode : Mode} {calls : List Call} (h : .enableListing ∈ calls) :
    (run mode calls).session.listing = true := by
  induction calls using List.reverseRecOn with
  | nil => cases h
  | append_singleton calls c ih =>
    rw [run_concat]
    rcases List.mem_append.1 h with h | h
    · exact listing_call (ih h) c
    · rw [← List.mem_singleton.1 h]
      rfl

/-- Listings are asked for before any text is added. -/
def ListsFirst (calls : List Call) : Prop :=
  ∀ before text after, calls = before ++ .emit text :: after → .enableListing ∈ before

theorem ListsFirst.of_concat {calls : List Call} {c : Call} (h : ListsFirst (calls ++ [c])) :
    ListsFirst calls := by
  intro before text after hcalls
  exact h before text (after ++ [c]) (by simp [hcalls])

/-- **Lines are kept of all texts** if listings are asked for before. -/
theorem kept_run {mode : Mode} {calls : List Call} (h : ListsFirst calls) {o : Origin}
    (ho : some o ∈ (run mode calls).origins) : o.kept = true := by
  induction calls using List.reverseRecOn with
  | nil => cases ho
  | append_singleton calls c ih =>
    rw [run_concat] at ho
    have hadded : some o = c.origin? (run mode calls).session.listing → o.kept = true := by
      intro heq
      cases c with
      | emit text =>
        cases heq
        exact listing_run (h calls text [] rfl)
      | _ => cases heq
    have hmem : some o ∈ (run mode calls).origins ∨
        some o = c.origin? (run mode calls).session.listing := by
      cases c with
      | reset => cases ho
      | _ => exact (List.mem_append.1 ho).imp id List.eq_of_mem_replicate
    exact hmem.elim (ih h.of_concat) hadded

end Trace
end Session
end IntelAsm
