/-
A symbol that nothing refers to does not matter. A new label takes no room, and
a new name of a label or an external symbol is one that no expression asks for,
so the items stay as they are but for the label itself, and linking gives the
same code (`Program.code_fresh`, `Session.finish_fresh`).
-/
import IntelAsm.Proofs.Containment
import IntelAsm.Proofs.SessionCode

namespace IntelAsm

/-! ## Programs -/

namespace Program

variable {p q : Program} {name : String}

/-- Definitions of a name that is new, at most one, make no name a duplicate. -/
theorem duplicates_fresh (hdefs : q.labelDefs.filter (·.name ≠ name) = p.labelDefs)
    (hone : (q.labelDefs.map LabelDef.name).count name ≤ 1) :
    q.duplicates = [] ↔ p.duplicates = [] := by
  have hnames : (q.labelDefs.map LabelDef.name).filter (· ≠ name) =
      p.labelDefs.map LabelDef.name := by
    rw [← hdefs, List.filter_map]
    rfl
  rw [duplicates_eq_nil, duplicates_eq_nil, ← hnames]
  constructor
  · exact List.Nodup.filter _
  · rw [List.nodup_iff_count_le_one, List.nodup_iff_count_le_one]
    intro h n
    by_cases hn : n = name
    · exact hn ▸ hone
    · rw [← List.count_filter (p := (· ≠ name)) (by simpa using hn)]
      exact h n

theorem value?_fresh (hdefs : q.labelDefs.filter (·.name ≠ name) = p.labelDefs)
    (hexternals : ∀ n, n ≠ name → q.externals.get? n = p.externals.get? n) {n : String}
    (hn : n ≠ name) : q.value? n = p.value? n := by
  have hfind : p.labelDefs.find? (·.name = n) = q.labelDefs.find? (·.name = n) := by
    rw [← hdefs, List.find?_filter]
    refine List.find?_congr fun d _ => ?_
    by_cases hd : d.name = n
    · simp [hd, hn]
    · simp [hd]
  simp only [value?, valueIn, addressIn, find?_labels, hfind, hexternals n hn]

/-- **A name that nothing waits for can be defined.** The second program has the instructions of the
first, and at most one label more, of a name that nothing waits for. -/
theorem code_fresh (hstop : q.stop = p.stop) (hinstructions : q.instructions = p.instructions)
    (hdefs : q.labelDefs.filter (·.name ≠ name) = p.labelDefs)
    (hone : (q.labelDefs.map LabelDef.name).count name ≤ 1)
    (hexternals : ∀ n, n ≠ name → q.externals.get? n = p.externals.get? n)
    (hwaits : ∀ x ∈ p.instructions, ¬ x.2.Waits name) :
    q.code.map (fun c => (c.1, c.2.1.filter (·.1 ≠ name), c.2.2)) = p.code := by
  have hduplicates := duplicates_fresh hdefs hone
  have hsame : Prod.map id (Instruction.revise (.ofNames id)) = (id : Nat × Instruction → _) := by
    funext ⟨address, i⟩
    exact congrArg (address, ·) (i.revise_of_id rfl rfl)
  have hrevised : Revised (.ofNames id) p q :=
    { stop := hstop
      instructions := by rw [hsame, List.map_id, hinstructions]
      duplicates := hduplicates
      value := fun x hx n hn => value?_fresh hdefs hexternals (by rintro rfl; exact hwaits x hx hn) }
  rw [hrevised.link, code, Option.map_map]
  refine Option.map_congr fun image himage => ?_
  -- Where linking succeeds, all labels count.
  obtain ⟨-, hnone, -, rfl⟩ := link_eq_ok_iff.1 (toOption_eq_some.1 himage)
  have hq : q.labels = q.labelDefs := (labels_of_no_duplicate (hduplicates.2 hnone)).1
  have hp : p.labels = p.labelDefs := (labels_of_no_duplicate hnone).1
  simp only [Function.comp_apply, image, hq, hp, ← hdefs, List.filter_map]
  rfl

section Append

variable (base : Nat) (externals : Externals) (before after : List Item)

theorem instructions_append :
    (⟨base, externals, before ++ after⟩ : Program).instructions =
      (⟨base, externals, before⟩ : Program).instructions ++
        (⟨base + Item.sizes before, externals, after⟩ : Program).instructions := by
  simp only [instructions, place, placeFrom_append, List.filterMap_append]

theorem labelDefs_append :
    (⟨base, externals, before ++ after⟩ : Program).labelDefs =
      (⟨base, externals, before⟩ : Program).labelDefs ++
        (⟨base + Item.sizes before, externals, after⟩ : Program).labelDefs := by
  simp only [labelDefs, place, placeFrom_append, List.filterMap_append]

end Append

theorem filter_labelDefs_of_new (hnew : name ∉ p.labelDefs.map LabelDef.name) :
    p.labelDefs.filter (·.name ≠ name) = p.labelDefs := by
  refine List.filter_eq_self.2 fun d hd => ?_
  simp only [ne_eq, decide_not, Bool.not_eq_true', decide_eq_false_iff_not]
  rintro rfl
  exact hnew (List.mem_map_of_mem hd)

/-- External symbols that nothing waits for leave the code as it is. -/
theorem code_define_external {items : List Item} {base : Nat} {x y : Externals}
    (hexternals : ∀ n, n ≠ name → y.get? n = x.get? n)
    (hnew : name ∉ items.filterMap Item.labelName?)
    (hwaits : ∀ e, .instruction e ∈ items → ¬ e.Waits name) :
    (⟨base, y, items⟩ : Program).code.map (fun c => (c.1, c.2.1.filter (·.1 ≠ name), c.2.2)) =
      (⟨base, x, items⟩ : Program).code := by
  have hnames : name ∉ (⟨base, y, items⟩ : Program).labelDefs.map LabelDef.name := by
    rwa [labelDefs_names]
  refine code_fresh rfl rfl (filter_labelDefs_of_new hnames) ?_ hexternals
    fun x hx => hwaits x.2 (instruction_mem hx)
  rw [List.count_eq_zero.2 hnames]
  exact Nat.zero_le 1

/-- **A label that nothing waits for** takes no room and leaves the code as it is. -/
theorem code_insert_label (base : Nat) (externals : Externals) {before after : List Item}
    {name : String} (span : Span)
    (hnew : name ∉ (before ++ after).filterMap Item.labelName?)
    (hwaits : ∀ e, .instruction e ∈ before ++ after → ¬ e.Waits name) :
    (⟨base, externals, before ++ .label name span :: after⟩ : Program).code.map
        (fun c => (c.1, c.2.1.filter (·.1 ≠ name), c.2.2)) =
      (⟨base, externals, before ++ after⟩ : Program).code := by
  rw [← labelDefs_names base externals] at hnew
  have hkeep := filter_labelDefs_of_new hnew
  have hlabel : (⟨base + Item.sizes before, externals, .label name span :: after⟩ : Program).labelDefs =
      ⟨name, base + Item.sizes before, span⟩ ::
        (⟨base + Item.sizes before, externals, after⟩ : Program).labelDefs := rfl
  refine code_fresh ?_ ?_ ?_ ?_ (fun _ _ => rfl) fun x hx => ?_
  · simp only [stop, Item.sizes_append, Item.sizes, Item.size, Nat.zero_add]
  · rw [instructions_append, instructions_append]
    rfl
  · rw [labelDefs_append, List.filter_append] at hkeep
    rw [labelDefs_append, labelDefs_append, hlabel, List.filter_append, ← hkeep]
    simp
  · rw [labelDefs_append, List.map_append, ← List.count_eq_zero] at hnew
    rw [labelDefs_append, hlabel, List.map_append, List.map_cons, List.count_append,
      List.count_cons_self]
    rw [List.count_append] at hnew
    omega
  · exact hwaits x.2 (instruction_mem hx)

end Program

/-! ## Sessions -/

namespace Statement

/-- Whether a name occurs in a statement, as a label or in an operand. -/
def Mentions (name : String) : Statement → Prop
  | .label l _ => l = name
  | .instruction i => ∃ o ∈ i.operands, name ∈ o.expr.names
  | .mode .. => False

instance (name : String) (st : Statement) : Decidable (st.Mentions name) :=
  match st with
  | .label l _ => inferInstanceAs (Decidable (l = name))
  | .instruction i => inferInstanceAs (Decidable (∃ o ∈ i.operands, name ∈ o.expr.names))
  | .mode .. => inferInstanceAs (Decidable False)

variable {symbols : String → Option Interval}

theorem items?_append (before after : List Statement) (m : Mode) :
    items? symbols m (before ++ after) = (items? symbols m before).bind fun xs =>
      (items? symbols (before.foldl modeAfter m) after).map (xs ++ ·) := by
  induction before generalizing m with
  | nil => simp [items?]
  | cons statement before ih =>
    cases statement with
    | label name span =>
      simp only [List.cons_append, items?, ih, List.foldl_cons, modeAfter, Option.map_bind,
        Option.bind_map, Option.map_map, Function.comp_def]
    | mode m' span => exact ih m'
    | instruction i =>
      simp only [List.cons_append, items?, ih, List.foldl_cons, modeAfter, Option.map_bind,
        Option.bind_map, Option.map_map, Function.comp_def, Option.bind_assoc]

/-- With a label more there is one item more, unless there are no items in either case. -/
theorem items?_insert_label (before after : List Statement) (name : String) (span : Span) (m : Mode) :
    (items? symbols m (before ++ .label name span :: after) = none ∧
        items? symbols m (before ++ after) = none) ∨
      ∃ xs ys, items? symbols m (before ++ .label name span :: after) =
          some (xs ++ .label name span :: ys) ∧
        items? symbols m (before ++ after) = some (xs ++ ys) := by
  simp only [items?_append, items?]
  cases items? symbols m before with
  | none => exact .inl ⟨rfl, rfl⟩
  | some xs =>
    cases items? symbols (before.foldl modeAfter m) after with
    | none => exact .inl ⟨rfl, rfl⟩
    | some ys => exact .inr ⟨xs, ys, rfl, rfl⟩

end Statement

namespace Session

/-- A name that no statement defines or asks for. An external symbol may have it, since nothing asks
for that either. -/
def Fresh (name : String) (s : Session) : Prop := ∀ st ∈ s.statements, ¬ st.Mentions name

instance (name : String) (s : Session) : Decidable (s.Fresh name) :=
  inferInstanceAs (Decidable (∀ _ ∈ _, _))

/-- The session with one definition of a name more: a label anywhere, or an external symbol. -/
inductive Defines (name : String) (s : Session) : Session → Prop
  | label {before after : List Entry} (span : Span) (source : Option String)
    (split : s.entries = before ++ after) :
    Defines name s { s with entries := before ++ ⟨.label name span, source⟩ :: after }
  | external (address : Nat) : Defines name s (s.defineExternal name address)

/-! ### Symbols -/

theorem get?_addLabelBounds {table table' : Symbols} {n : String} (h : table'.get? n = table.get? n)
    (base k : Nat) (statements : List Statement) :
    (addLabelBounds base k statements table').get? n =
      (addLabelBounds base k statements table).get? n := by
  induction statements generalizing k table table' with
  | nil => exact h
  | cons statement rest ih =>
    cases statement with
    | label l span =>
      refine ih ?_ k
      rw [Symbols.get?_extend, Symbols.get?_extend]
      split
      · rename_i heq
        rw [← heq, h]
      · exact h
    | mode m span => exact ih h k
    | instruction i => exact ih h (k + 1)

theorem get?_addLabelBounds_insert {n name : String} (hn : n ≠ name) (base k : Nat)
    (before after : List Statement) (span : Span) (table : Symbols) :
    (addLabelBounds base k (before ++ .label name span :: after) table).get? n =
      (addLabelBounds base k (before ++ after) table).get? n := by
  induction before generalizing k table with
  | nil =>
    refine get?_addLabelBounds ?_ base k after
    rw [Symbols.get?_extend, if_neg hn]
  | cons statement rest ih =>
    cases statement with
    | label l place => exact ih k _
    | mode m place => exact ih k table
    | instruction i => exact ih (k + 1) table

theorem get?_define_ne {n name : String} (hn : n ≠ name) (x : Externals) (address : Nat) :
    (x.define name address).get? n = x.get? n := by
  have hfilter (entries : List (String × Nat)) :
      (entries.filter (·.1 ≠ name)).lookup n = entries.lookup n := by
    induction entries with
    | nil => rfl
    | cons entry rest ih =>
      obtain ⟨other, a⟩ := entry
      by_cases hother : other = name
      · subst hother
        simpa [List.lookup_cons, beq_eq_false_iff_ne.2 hn] using ih
      · simp only [ne_eq, hother, not_false_eq_true, decide_true, List.filter_cons_of_pos,
          List.lookup_cons]
        rw [ih]
  simp only [Externals.get?, Externals.define, List.lookup_cons, beq_eq_false_iff_ne.2 hn]
  exact hfilter x.entries

/-- A definition changes the bounds of its own name only. -/
theorem Defines.symbols {name n : String} {s t : Session} (h : s.Defines name t) (hn : n ≠ name) :
    t.symbols.get? n = s.symbols.get? n := by
  cases h with
  | @label before after span source split =>
    simp only [Session.symbols, statements, split, List.map_append, List.map_cons]
    exact get?_addLabelBounds_insert hn s.base 0 _ _ span _
  | external address =>
    refine get?_addLabelBounds ?_ s.base 0 s.statements
    rw [get?_externalBounds, get?_externalBounds]
    exact congrArg _ (get?_define_ne hn s.externals address)

/-! ### Code -/

variable {name : String} {s t : Session}

theorem Fresh.ne (hfresh : s.Fresh name) {i : ParsedInstruction} (hi : .instruction i ∈ s.statements)
    {n : String} (hn : i.Symbol n) : n ≠ name := by
  rintro rfl
  obtain ⟨o, ho, hname, -⟩ := hn
  exact hfresh _ hi ⟨o, ho, hname⟩

/-- No instruction waits for a fresh name, and no label has it. -/
theorem Fresh.items (hfresh : s.Fresh name) {items : List Item}
    (h : Statement.items? s.symbols.get? s.mode s.statements = some items) :
    name ∉ items.filterMap Item.labelName? ∧ ∀ e, .instruction e ∈ items → ¬ e.Waits name := by
  constructor
  · rw [Statement.items?_labels h]
    intro hmem
    obtain ⟨st, hst, hname⟩ := List.mem_filterMap.1 hmem
    refine hfresh st hst ?_
    cases st with
    | label l span => exact Option.some.inj hname
    | instruction i => cases hname
    | mode m span => cases hname
  · rintro e he ⟨kind, x, hx, hn⟩
    obtain ⟨i, m, hi, hencode⟩ := Statement.items?_instruction h he
    exact hfresh.ne hi (ParsedInstruction.encode_symbols hencode hx hn) rfl

/-- Instructions do not ask for a fresh name, so they are encoded as without it. -/
theorem Fresh.items?_defines (hfresh : s.Fresh name) (ht : s.Defines name t)
    {statements : List Statement}
    (hsub : ∀ i, .instruction i ∈ statements → .instruction i ∈ s.statements) :
    Statement.items? t.symbols.get? s.mode statements =
      Statement.items? s.symbols.get? s.mode statements :=
  Statement.items?_congr (fun i hi => ParsedInstruction.encode_congr fun _ hn =>
    ht.symbols (hfresh.ne (hsub i hi) hn)) s.mode

theorem Fresh.code?_external (hfresh : s.Fresh name) (address : Nat) :
    (s.defineExternal name address).code?.map
        (fun c => (c.1, c.2.1.filter (·.1 ≠ name), c.2.2)) = s.code? := by
  have hitems : (s.defineExternal name address).items? = s.items? := by
    simp only [items?]
    rw [← hfresh.items?_defines (.external address) fun _ h => h]
    rfl
  rw [code?, code?, hitems, Option.map_bind]
  refine Option.bind_congr fun items h => ?_
  obtain ⟨hnew, hwaits⟩ := hfresh.items (items?_eq_some.1 h).2.1
  exact Program.code_define_external (fun n hn => get?_define_ne hn s.externals address) hnew hwaits

theorem Fresh.code?_label (hfresh : s.Fresh name) {before after : List Entry} (span : Span)
    (source : Option String) (split : s.entries = before ++ after) :
    (Session.code? { s with entries := before ++ ⟨.label name span, source⟩ :: after }).map
        (fun c => (c.1, c.2.1.filter (·.1 ≠ name), c.2.2)) = s.code? := by
  have hstatements : s.statements = before.map Entry.statement ++ after.map Entry.statement := by
    rw [statements, split, List.map_append]
  have hlabel := @Fresh.items?_defines name s _ hfresh (.label span source split)
    (before.map Entry.statement ++ .label name span :: after.map Entry.statement)
    fun i hi => by simpa [hstatements] using hi
  have hkeep := @Fresh.items name s hfresh
  rw [hstatements] at hkeep
  rw [code?, code?, items?, items?, hstatements]
  simp only [statements, List.map_append, List.map_cons, hlabel]
  rcases @Statement.items?_insert_label s.symbols.get? (before.map Entry.statement)
    (after.map Entry.statement) name span s.mode with ⟨hnone, hnone'⟩ | ⟨xs, ys, hsome, hsome'⟩
  · simp [hnone, hnone']
  · obtain ⟨hnew, hwaits⟩ := hkeep hsome'
    have hcode := Program.code_insert_label s.base s.externals span hnew hwaits
    rw [hsome, hsome']
    simp only [Option.filter_some, Item.sizes_append, Item.sizes, Item.size, Nat.zero_add]
    split
    · split
      · exact hcode
      · rfl
    · rfl

/-- **A symbol that nothing refers to does not matter.** With a label or an external symbol of a
fresh name the session comes to an end exactly if it does without, with the same bytes, the same
addresses of instructions, and the same other labels. -/
theorem finish_fresh (hfresh : s.Fresh name) (ht : s.Defines name t) :
    t.finish.toOption.map (fun a =>
        (a.bytes, a.labels.filter (·.1 ≠ name), a.instructions.map Prod.fst)) =
      s.finish.toOption.map Assembly.code := by
  have hcode : t.code?.map (fun c => (c.1, c.2.1.filter (·.1 ≠ name), c.2.2)) = s.code? := by
    cases ht with
    | label span source split => exact hfresh.code?_label span source split
    | external address => exact hfresh.code?_external address
  rw [← finish_code, ← finish_code, Option.map_map] at hcode
  exact hcode

/-- A label between two jumps, and an external symbol. -/
theorem finish_fresh_between :
    ∃ s t : Session, s = ((new .bits64).emit "a: jmp b\nb: jmp a").session ∧ s.Fresh "spare" ∧
      s.Defines "spare" t ∧ s.Defines "spare" (s.defineExternal "spare" 7) ∧
      t.finish.toOption.map (fun a =>
          (a.bytes, a.labels.filter (·.1 ≠ "spare"), a.instructions.map Prod.fst)) =
        s.finish.toOption.map Assembly.code ∧
      (s.defineExternal "spare" 7).finish.toOption.map (fun a =>
          (a.bytes, a.labels.filter (·.1 ≠ "spare"), a.instructions.map Prod.fst)) =
        s.finish.toOption.map Assembly.code ∧
      t.finish.toOption.map Assembly.code =
        some ([0xE9, 0, 0, 0, 0, 0xE9, 0xF6, 0xFF, 0xFF, 0xFF],
          [("a", 0), ("spare", 5), ("b", 5)], [0, 5]) := by
  have hfresh : (((new .bits64).emit "a: jmp b\nb: jmp a").session).Fresh "spare" := by
    decide +kernel
  have hlabel := @Defines.label "spare" _ _ _ .nowhere none
    (List.take_append_drop 2 ((new .bits64).emit "a: jmp b\nb: jmp a").session.entries).symm
  exact ⟨_, _, rfl, hfresh, hlabel, .external 7, finish_fresh hfresh hlabel,
    finish_fresh hfresh (.external 7), by decide +kernel⟩

end Session
end IntelAsm
