/-
What a listing shows. Each label and each instruction among the statements of a
session gives one row, in the order of the statements: its address, and for an
instruction its bytes and the source line that was kept for it
(`Session.RowsOf`).

A listing is put together from labels and instructions, which are kept apart, by
their addresses. This finds the rows again since every instruction takes a byte at
least: what follows an instruction has a greater address, and the labels in front
of it have not (`ListingRow.linesFrom_eq`). For the same reason no two instructions
share an address, under which source lines are kept (`ListingRow.lookup_source`).

The rows are the lines of the listing if no label has an end of a line in its name
(`Session.listing_rows`).
-/
import IntelAsm.Proofs.Layout
import IntelAsm.Proofs.StatementOrigin

namespace IntelAsm

/-- A line of a listing: a label, or an instruction with its source line if there is one. -/
inductive ListingRow where
  | label (name : String) (address : Nat)
  | instruction (address : Nat) (instruction : Instruction) (source : Option String)

namespace ListingRow

def line : ListingRow → String
  | .label name address => Assembly.labelLine name address
  | .instruction address i source => Assembly.instructionLine address i source

def address : ListingRow → Nat
  | .label _ address => address
  | .instruction address _ _ => address

def label? : ListingRow → Option (String × Nat)
  | .label name address => some (name, address)
  | .instruction .. => none

def instruction? : ListingRow → Option (Nat × Instruction)
  | .label .. => none
  | .instruction address i _ => some (address, i)

/-- The source line of an instruction, by its address. -/
def source? : ListingRow → Option (Nat × String)
  | .label .. => none
  | .instruction address _ source => source.map fun text => (address, text)

def bytes : ListingRow → List UInt8
  | .label .. => []
  | .instruction _ i _ => i.bytes

end ListingRow

namespace Session

/-- The source line that is shown for an instruction: the line of its text that contains its start,
without blanks at its ends, or nothing if lines of the text were not kept. -/
inductive SourceOf (i : ParsedInstruction) : Option Origin → Option String → Prop where
  | kept {o : Origin} {line : List Char} (hread : .instruction i ∈ (Statement.read o.text).1)
      (hkept : o.kept = true) (hline : Text.LineAt o.text.toList i.span.offset line) :
    SourceOf i (some o) (some (String.ofList (Text.trim line)))
  | dropped {o : Origin} (hread : .instruction i ∈ (Statement.read o.text).1)
      (hkept : o.kept = false) : SourceOf i (some o) none

/-- The rows of statements, from the mode and the address of the first one on. An instruction is
shown as it is encoded in the mode in force and patched for its address. -/
inductive RowsOf (symbols : String → Option Interval) (values : String → Option Int64) :
    Mode → Nat → List (Statement × Option Origin) → List ListingRow → Prop where
  | nil {mode address} : RowsOf symbols values mode address [] []
  | label {mode address name span o rest rows} (tail : RowsOf symbols values mode address rest rows) :
    RowsOf symbols values mode address ((.label name span, o) :: rest) (.label name address :: rows)
  | mode {mode address m span o rest rows} (tail : RowsOf symbols values m address rest rows) :
    RowsOf symbols values mode address ((.mode m span, o) :: rest) rows
  | instruction {mode address i e j o source rest rows}
      (hencode : ParsedInstruction.encode symbols mode i = .ok e)
      (hpatch : j = (e.patch values address).1) (hsource : SourceOf i o source)
      (tail : RowsOf symbols values mode (address + j.bytes.length) rest rows) :
    RowsOf symbols values mode address ((.instruction i, o) :: rest)
      (.instruction address j source :: rows)

end Session

/-! ## Order by address -/

namespace ListingRow

/-- Rows in the order of their addresses; only a label shares its address with what follows. -/
def Precedes (r r' : ListingRow) : Prop :=
  r.address ≤ r'.address ∧ (r.instruction?.isSome = true → r.address < r'.address)

variable {source : Nat → Option String} {rows : List ListingRow}

theorem linesFrom_label {name : String} {start : Nat} {labels : List (String × Nat)}
    {instructions : List (Nat × Instruction)} (h : ∀ x ∈ instructions, start ≤ x.1) :
    Assembly.linesFrom source ((name, start) :: labels) instructions =
      Assembly.labelLine name start :: Assembly.linesFrom source labels instructions := by
  cases instructions with
  | nil => simp [Assembly.linesFrom]
  | cons x instructions =>
    have hstart := h x (List.mem_cons_self ..)
    simp [Assembly.linesFrom, hstart]

theorem linesFrom_instruction {address : Nat} {i : Instruction} {labels : List (String × Nat)}
    {instructions : List (Nat × Instruction)} (h : ∀ l ∈ labels, address < l.2) :
    Assembly.linesFrom source labels ((address, i) :: instructions) =
      Assembly.instructionLine address i (source address) ::
        Assembly.linesFrom source labels instructions := by
  cases labels with
  | nil => simp [Assembly.linesFrom]
  | cons l labels =>
    have hl : ¬ l.2 ≤ address := Nat.not_le.2 (h l (List.mem_cons_self ..))
    simp [Assembly.linesFrom, hl]

/-- **Merging by address finds the rows again.** -/
theorem linesFrom_eq (hrows : rows.Pairwise Precedes)
    (hsource : ∀ address i shown, .instruction address i shown ∈ rows → source address = shown) :
    Assembly.linesFrom source (rows.filterMap label?) (rows.filterMap instruction?) =
      rows.map line := by
  induction rows with
  | nil => rfl
  | cons r rows ih =>
    obtain ⟨hr, hrows⟩ := List.pairwise_cons.1 hrows
    have htail := ih hrows fun address i shown hmem =>
      hsource address i shown (List.mem_cons_of_mem _ hmem)
    cases r with
    | label name start =>
      have hle : ∀ x ∈ rows.filterMap instruction?, start ≤ x.1 := by
        intro x hx
        obtain ⟨r', hr', hsome⟩ := List.mem_filterMap.1 hx
        cases r' with
        | label _ _ => cases hsome
        | instruction address i shown =>
          cases hsome
          exact (hr _ hr').1
      exact (linesFrom_label hle).trans (congrArg _ htail)
    | instruction address i shown =>
      have hlt : ∀ l ∈ rows.filterMap label?, address < l.2 := by
        intro l hl
        obtain ⟨r', hr', hsome⟩ := List.mem_filterMap.1 hl
        cases r' with
        | label name start =>
          cases hsome
          exact (hr _ hr').2 rfl
        | instruction _ _ _ => cases hsome
      refine (linesFrom_instruction hlt).trans ?_
      rw [htail, hsource address i shown (List.mem_cons_self ..)]
      rfl

/-- No two instructions share an address. -/
theorem eq_of_address (hrows : rows.Pairwise Precedes) {address : Nat} {i j : Instruction}
    {shown shown' : Option String} (hi : .instruction address i shown ∈ rows)
    (hj : .instruction address j shown' ∈ rows) : shown = shown' := by
  induction rows with
  | nil => cases hi
  | cons r rows ih =>
    obtain ⟨hr, hrows⟩ := List.pairwise_cons.1 hrows
    rcases List.mem_cons.1 hi with rfl | hi' <;> rcases List.mem_cons.1 hj with hj' | hj'
    · cases hj'
      rfl
    · exact absurd ((hr _ hj').2 rfl) (Nat.lt_irrefl _)
    · subst hj'
      exact absurd ((hr _ hi').2 rfl) (Nat.lt_irrefl _)
    · exact ih hrows hi' hj'

/-- What a row shows at its address. -/
theorem mem_source {address : Nat} {text : String} (h : (address, text) ∈ rows.filterMap source?) :
    ∃ i, .instruction address i (some text) ∈ rows := by
  obtain ⟨r, hr, hsome⟩ := List.mem_filterMap.1 h
  cases r with
  | label _ _ => cases hsome
  | instruction start i shown =>
    obtain ⟨found, rfl, heq⟩ := Option.map_eq_some_iff.1 hsome
    cases heq
    exact ⟨i, hr⟩

/-- **A source line is found under the address of its instruction**, and no other is. -/
theorem lookup_source (hrows : rows.Pairwise Precedes) {address : Nat} {i : Instruction}
    {shown : Option String} (h : .instruction address i shown ∈ rows) :
    (rows.filterMap source?).reverse.lookup address = shown := by
  cases hlookup : (rows.filterMap source?).reverse.lookup address with
  | some text =>
    obtain ⟨before, after, hsplit, -⟩ := List.lookup_eq_some_iff.1 hlookup
    have hmem : (address, text) ∈ rows.filterMap source? := by
      rw [← List.mem_reverse, hsplit]
      simp
    obtain ⟨j, hj⟩ := mem_source hmem
    exact eq_of_address hrows hj h
  | none =>
    cases shown with
    | none => rfl
    | some text =>
      have hmem : (address, text) ∈ (rows.filterMap source?).reverse :=
        List.mem_reverse.2 (List.mem_filterMap.2 ⟨_, h, rfl⟩)
      have hne := List.lookup_eq_none_iff.1 hlookup _ hmem
      simp at hne

end ListingRow

namespace Session.RowsOf

variable {symbols : String → Option Interval} {values : String → Option Int64} {mode : Mode}
  {address : Nat} {statements : List (Statement × Option Origin)} {rows : List ListingRow}

theorem address_le (h : RowsOf symbols values mode address statements rows) {r : ListingRow}
    (hr : r ∈ rows) : address ≤ r.address := by
  induction h with
  | nil => cases hr
  | label _ ih =>
    rcases List.mem_cons.1 hr with rfl | hr
    · exact Nat.le_refl _
    · exact ih hr
  | mode _ ih => exact ih hr
  | instruction _ _ _ _ ih =>
    rcases List.mem_cons.1 hr with rfl | hr
    · exact Nat.le_refl _
    · exact (Nat.le_add_right ..).trans (ih hr)

/-- An instruction takes a byte at least, so what follows it has a greater address. -/
theorem precedes (h : RowsOf symbols values mode address statements rows) :
    rows.Pairwise ListingRow.Precedes := by
  induction h with
  | nil => exact .nil
  | label tail ih => exact .cons (fun r hr => ⟨tail.address_le hr, nofun⟩) ih
  | mode _ ih => exact ih
  | @instruction mode address i e j o source rest rows hencode hpatch _ tail ih =>
    have hpos : 0 < j.bytes.length := by
      rw [hpatch, Instruction.length_bytes, Instruction.size_patch]
      exact (ParsedInstruction.size_encode hencode).1
    refine .cons (fun r hr => ?_) ih
    have hlt : address < r.address :=
      Nat.lt_of_lt_of_le (Nat.lt_add_of_pos_right hpos) (tail.address_le hr)
    exact ⟨Nat.le_of_lt hlt, fun _ => hlt⟩

end Session.RowsOf

/-! ## Rows of a session -/

namespace Session

theorem sources_instruction (s : Session) (n : Nat) (e : Instruction) (records : List Record)
    (address : Nat) (j : Instruction) (instructions : List (Nat × Instruction)) :
    s.sources (⟨n, .instruction e⟩ :: records) ((address, j) :: instructions) =
      ((s.source? n).map fun text => (address, text)).toList ++ s.sources records instructions := by
  simp only [sources, List.filterMap_cons, List.zip_cons_cons]
  cases s.source? n <;> rfl

/-- The source line of an entry that comes from a text. -/
theorem sourceOf_of_cameFrom {i : ParsedInstruction} {shown : Option String} {o : Option Origin}
    (h : CameFrom ⟨.instruction i, shown⟩ o) : SourceOf i o shown := by
  generalize hentry : (⟨.instruction i, shown⟩ : Entry) = entry at h
  cases h with
  | name _ => cases hentry
  | @text o st hread =>
    have hst : .instruction i = st := by
      have := congrArg Entry.statement hentry
      rwa [statement_entryOf] at this
    subst hst
    have hshown : shown = if o.kept then some (sourceLine o.text.toList i.span.offset) else none :=
      congrArg Entry.source hentry
    obtain ⟨line, hline, hsource⟩ := Statement.sourceLine_lineAt hread
    cases hkept : o.kept with
    | true =>
      rw [hshown, hkept, if_pos rfl, hsource]
      exact .kept hread hkept hline
    | false =>
      rw [hshown, hkept]
      exact .dropped hread hkept

/-- What is made of records, from an address on. -/
structure Shown (s : Session) (values : String → Option Int64) (externals : Externals)
    (records : List Record) (address : Nat) (rows : List ListingRow) : Prop where
  labels : (⟨address, externals, records.map Record.item⟩ : Program).labelDefs.map
    (fun d => (d.name, d.address)) = rows.filterMap ListingRow.label?
  instructions : (⟨address, externals, records.map Record.item⟩ : Program).instructions.map
    (fun x => (x.1, (x.2.patch values x.1).1)) = rows.filterMap ListingRow.instruction?
  sources : s.sources records (rows.filterMap ListingRow.instruction?) =
    rows.filterMap ListingRow.source?

theorem Shown.label {s : Session} {values : String → Option Int64} {externals : Externals}
    {records : List Record} {address : Nat} {rows : List ListingRow}
    (h : s.Shown values externals records address rows) (n : Nat) (name : String) (span : Span) :
    s.Shown values externals (⟨n, .label name span⟩ :: records) address
      (.label name address :: rows) :=
  ⟨congrArg ((name, address) :: ·) h.labels, h.instructions, h.sources⟩

theorem Shown.instruction {s : Session} {values : String → Option Int64} {externals : Externals}
    {records : List Record} {address n : Nat} {e : Instruction} {rows : List ListingRow}
    (h : s.Shown values externals records (address + e.size) rows) :
    s.Shown values externals (⟨n, .instruction e⟩ :: records) address
      (.instruction address (e.patch values address).1 (s.source? n) :: rows) := by
  refine ⟨h.labels, ?_, ?_⟩
  · exact congrArg ((address, (e.patch values address).1) :: ·) h.instructions
  · have hrest := h.sources
    simp only [List.filterMap_cons, ListingRow.instruction?, sources_instruction, hrest]
    cases s.source? n <;> rfl

/-- The first of the entries from `n` on, and the others. -/
theorem entry_of_drop {s : Session} {n : Nat} {st : Statement} {rest : List Statement}
    {origins : List (Option Origin)}
    (hstatements : (s.entries.drop n).map Entry.statement = st :: rest)
    (horigins : List.Forall₂ CameFrom (s.entries.drop n) origins) :
    ∃ o os, origins = o :: os ∧ CameFrom ⟨st, s.source? n⟩ o ∧
      (s.entries.drop (n + 1)).map Entry.statement = rest ∧
      List.Forall₂ CameFrom (s.entries.drop (n + 1)) os := by
  obtain ⟨entry, entries, hdrop, rfl, hrest⟩ := List.map_eq_cons_iff.1 hstatements
  have hnext : s.entries.drop (n + 1) = entries := by
    rw [← List.tail_drop, hdrop, List.tail_cons]
  have hsource : s.source? n = entry.source := by
    have hentry : s.entries[n]? = some entry := by
      rw [← Nat.add_zero n, ← List.getElem?_drop, hdrop, List.getElem?_cons_zero]
    rw [source?, hentry]
    rfl
  rw [hdrop] at horigins
  cases horigins with
  | cons hentry hentries =>
    exact ⟨_, _, rfl, by rwa [hsource], by rw [hnext, hrest], by rwa [hnext]⟩

/-- **Encoding and laying out gives rows**, in the order of the statements. -/
theorem exists_rows (s : Session) (values : String → Option Int64) (externals : Externals)
    {mode : Mode} {n : Nat} {statements : List Statement} {records : List Record}
    (h : Translated s.symbols.get? mode n statements records) (address : Nat)
    {origins : List (Option Origin)}
    (hstatements : (s.entries.drop n).map Entry.statement = statements)
    (horigins : List.Forall₂ CameFrom (s.entries.drop n) origins) :
    ∃ rows, RowsOf s.symbols.get? values mode address (statements.zip origins) rows ∧
      s.Shown values externals records address rows := by
  induction h generalizing address origins with
  | nil => exact ⟨[], .nil, rfl, rfl, rfl⟩
  | @label mode n name span rest records tail ih =>
    obtain ⟨o, os, rfl, -, hrest, hos⟩ := entry_of_drop hstatements horigins
    obtain ⟨rows, hrows, hshown⟩ := ih address hrest hos
    exact ⟨_, .label hrows, hshown.label n name span⟩
  | @mode mode n m span rest records tail ih =>
    obtain ⟨o, os, rfl, -, hrest, hos⟩ := entry_of_drop hstatements horigins
    obtain ⟨rows, hrows, hshown⟩ := ih address hrest hos
    exact ⟨rows, .mode hrows, hshown⟩
  | @instruction mode n i e rest records head tail ih =>
    obtain ⟨o, os, rfl, hentry, hrest, hos⟩ := entry_of_drop hstatements horigins
    obtain ⟨rows, hrows, hshown⟩ := ih (address + e.size) hrest hos
    refine ⟨_, .instruction head rfl (sourceOf_of_cameFrom hentry) ?_, hshown.instruction⟩
    rwa [Instruction.length_bytes, Instruction.size_patch]

end Session

/-! ## Lines of a listing -/

namespace Text

theorem newline_not_mem_toDigits (n : Nat) : '\n' ∉ Nat.toDigits 16 n := by
  induction n using Nat.strongRecOn with
  | ind n ih =>
    rw [Nat.toDigits_eq_if (by decide)]
    split
    · simp
    · rw [List.mem_append, not_or]
      exact ⟨ih _ (Nat.div_lt_self (by omega) (by decide)), by simp⟩

theorem toUpper_ne_newline {c : Char} (h : c ≠ '\n') : c.toUpper ≠ '\n' := by
  unfold Char.toUpper
  split
  · rename_i hc
    intro heq
    have hval := congrArg Char.val heq
    dsimp only at hval
    obtain ⟨hle, -⟩ := hc
    rw [eq_sub_of_add_eq hval] at hle
    revert hle
    decide
  · exact h

theorem newline_not_mem_upperHex (bs : List UInt8) : '\n' ∉ (upperHex bs).toList := by
  simp only [upperHex, String.toList_ofList, List.mem_flatMap, List.mem_map, byteDigits]
  rintro ⟨b, -, c, hc, heq⟩
  refine toUpper_ne_newline ?_ heq
  rintro rfl
  simp at hc

theorem trim_sublist (cs : List Char) : (trim cs).Sublist cs := by
  have htail := (List.dropWhile_sublist isBlank (l := (cs.dropWhile isBlank).reverse)).reverse
  rw [List.reverse_reverse] at htail
  exact htail.trans (List.dropWhile_sublist _)

end Text

namespace Assembly

theorem newline_not_mem_addressText (address : Nat) : '\n' ∉ (addressText address).toList := by
  rw [addressText, Text.padLeft, String.toList_append, List.mem_append, not_or]
  constructor
  · rw [String.toList_ofList]
    exact fun hmem => absurd (List.eq_of_mem_replicate hmem) (by decide)
  · rw [String.toUpper, String.toList_map, Text.hex, String.toList_ofList]
    intro hmem
    obtain ⟨c, hc, heq⟩ := List.mem_map.1 hmem
    refine Text.toUpper_ne_newline ?_ heq
    rintro rfl
    exact Text.newline_not_mem_toDigits address hc

/-- Lines with their ends are read back as lines. -/
theorem splitOn_join {ls : List String} (h : ∀ l ∈ ls, '\n' ∉ l.toList) :
    (String.join (ls.map (· ++ "\n"))).toList.splitOn '\n' = ls.map String.toList ++ [[]] := by
  induction ls with
  | nil => rfl
  | cons l ls ih =>
    have htext : (String.join ((l :: ls).map (· ++ "\n"))).toList =
        l.toList ++ '\n' :: (String.join (ls.map (· ++ "\n"))).toList := by
      simp [String.join_cons]
    rw [htext, List.splitOn_append_cons_self_of_not_mem (h l (List.mem_cons_self ..)),
      ih fun l' hl => h l' (List.mem_cons_of_mem _ hl)]
    rfl

theorem newline_not_mem_labelLine {name : String} (h : '\n' ∉ name.toList) (address : Nat) :
    '\n' ∉ (labelLine name address).toList := by
  have haddress := newline_not_mem_addressText address
  have hgap : '\n' ∉ labelGap.toList := by decide +kernel
  simp [labelLine, haddress, hgap, h]

theorem newline_not_mem_instructionLine {source : Option String}
    (h : ∀ text, source = some text → '\n' ∉ text.toList) (address : Nat) (i : Instruction) :
    '\n' ∉ (instructionLine address i source).toList := by
  have haddress := newline_not_mem_addressText address
  have hbytes := Text.newline_not_mem_upperHex i.bytes
  cases source with
  | none => simp [instructionLine, Instruction.text, haddress, hbytes]
  | some text =>
    simp [instructionLine, Instruction.text, Text.padRight, haddress, hbytes, h text rfl]

/-- The value of a symbol in expressions of assembled code. -/
def value? (a : Assembly) (externals : Externals) (name : String) : Option Int64 :=
  ((a.labelAddress? name).orElse fun _ => externals.get? name).bind fun address =>
    (exact64 address).toOption

theorem lookup_labels (ds : List LabelDef) (name : String) :
    (ds.map fun d => (d.name, d.address)).lookup name =
      (ds.find? (·.name = name)).map LabelDef.address := by
  induction ds with
  | nil => rfl
  | cons d ds ih =>
    rw [List.map_cons, List.lookup_cons, List.find?_cons, ih]
    by_cases hname : d.name = name
    · simp [hname]
    · have hother : (name == d.name) = false := beq_false_of_ne (Ne.symm hname)
      simp [hname, hother]

end Assembly

namespace Session

theorem SourceOf.unbroken {i : ParsedInstruction} {o : Option Origin} {source : Option String}
    (h : SourceOf i o source) {text : String} (htext : source = some text) :
    '\n' ∉ text.toList := by
  cases h with
  | dropped _ _ => cases htext
  | kept _ _ hline =>
    cases htext
    obtain ⟨before, after, -, hbreak, -⟩ := hline
    rw [String.toList_ofList]
    exact fun hmem => hbreak ((Text.trim_sublist _).subset hmem)

namespace RowsOf

variable {symbols : String → Option Interval} {values : String → Option Int64} {mode : Mode}
  {address : Nat} {statements : List (Statement × Option Origin)} {rows : List ListingRow}

/-- Where no name of a label has an end of a line, no row has. -/
theorem unbroken (h : RowsOf symbols values mode address statements rows)
    (hnames : ∀ l ∈ rows.filterMap ListingRow.label?, '\n' ∉ l.1.toList) {r : ListingRow}
    (hr : r ∈ rows) : '\n' ∉ r.line.toList := by
  induction h with
  | nil => cases hr
  | @label mode address name span o rest rows tail ih =>
    rcases List.mem_cons.1 hr with rfl | hr
    · have hname := hnames (name, address) (List.mem_cons_self ..)
      exact Assembly.newline_not_mem_labelLine hname address
    · exact ih (fun l hl => hnames l (List.mem_cons_of_mem _ hl)) hr
  | mode _ ih => exact ih hnames hr
  | instruction _ _ hsource _ ih =>
    rcases List.mem_cons.1 hr with rfl | hr
    · exact Assembly.newline_not_mem_instructionLine (fun text htext => hsource.unbroken htext) _ _
    · exact ih hnames hr

/-- Where lines of all texts were kept, every instruction shows one. -/
theorem shows_source (h : RowsOf symbols values mode address statements rows)
    (hkept : ∀ st o, (st, some o) ∈ statements → o.kept = true) {r : ListingRow} (hr : r ∈ rows)
    (hinstruction : r.instruction?.isSome = true) : r.source?.isSome = true := by
  induction h with
  | nil => cases hr
  | label _ ih =>
    rcases List.mem_cons.1 hr with rfl | hr
    · cases hinstruction
    · exact ih (fun st o hmem => hkept st o (List.mem_cons_of_mem _ hmem)) hr
  | mode _ ih => exact ih (fun st o hmem => hkept st o (List.mem_cons_of_mem _ hmem)) hr
  | instruction _ _ hsource _ ih =>
    rcases List.mem_cons.1 hr with rfl | hr
    · cases hsource with
      | kept _ _ _ => rfl
      | dropped _ hdropped =>
        have := hkept _ _ (List.mem_cons_self ..)
        rw [hdropped] at this
        cases this
    · exact ih (fun st o hmem => hkept st o (List.mem_cons_of_mem _ hmem)) hr

end RowsOf

/-- What assembled code and its listing show of a session: one row for each label and each
instruction, in the order of the statements. -/
structure Trace.Lists (t : Trace) (a : Assembly) (rows : List ListingRow) : Prop where
  origins : t.origins.length = t.session.statements.length
  shown : RowsOf t.session.symbols.get? (a.value? t.session.externals) t.session.mode a.base
    (t.session.statements.zip t.origins) rows
  labels : a.labels = rows.filterMap ListingRow.label?
  instructions : a.instructions = rows.filterMap ListingRow.instruction?
  bytes : a.bytes = rows.flatMap ListingRow.bytes
  lines : a.lines = rows.map ListingRow.line

theorem value?_eq {s : Session} {a : Assembly} {p : Program} (hp : p.externals = s.externals)
    (ha : a.labels = p.labels.map fun d => (d.name, d.address)) :
    a.value? s.externals = p.value? := by
  funext name
  rw [Assembly.value?, Assembly.labelAddress?, ha, Assembly.lookup_labels, Program.value?,
    Program.valueIn, Program.addressIn, hp]

theorem flatMap_bytes (rows : List ListingRow) :
    (rows.filterMap ListingRow.instruction?).flatMap (fun x => x.2.bytes) =
      rows.flatMap ListingRow.bytes := by
  induction rows with
  | nil => rfl
  | cons r rows ih =>
    cases r with
    | label _ _ => exact ih
    | instruction address i _ => exact congrArg (i.bytes ++ ·) ih

theorem lines_eq {a : Assembly} {rows : List ListingRow} (hrows : rows.Pairwise ListingRow.Precedes)
    (hlabels : a.labels = rows.filterMap ListingRow.label?)
    (hinstructions : a.instructions = rows.filterMap ListingRow.instruction?)
    (hsources : a.sources = rows.filterMap ListingRow.source?) :
    a.lines = rows.map ListingRow.line := by
  rw [Assembly.lines, hlabels, hinstructions]
  refine ListingRow.linesFrom_eq hrows fun address i shown hmem => ?_
  rw [Assembly.sourceAt?, hsources]
  exact ListingRow.lookup_source hrows hmem

/-- **Assembled code shows the rows of its statements.** -/
theorem Trace.exists_lists {t : Trace} (hagrees : t.Agrees) {a : Assembly}
    (h : t.session.finish = .ok a) : ∃ rows, t.Lists a rows := by
  obtain ⟨records, image, hrecords, hlink, -, rfl⟩ := finish_eq_ok h
  obtain ⟨-, hduplicates, -, hbytes, hlabels, hinstructions⟩ := Program.link_eq_ok hlink
  obtain ⟨rows, hrows, hshown⟩ := exists_rows t.session (t.session.program records).value?
    t.session.externals (encodeStrict_translated hrecords) t.session.base rfl hagrees
  have hnames : image.labels = rows.filterMap ListingRow.label? := by
    rw [hlabels, (Program.labels_of_no_duplicate hduplicates).1]
    exact hshown.labels
  have hfound : image.instructions = rows.filterMap ListingRow.instruction? :=
    hinstructions.trans hshown.instructions
  have hsources := hshown.sources
  rw [← hfound] at hsources
  refine ⟨rows, ?_, ?_, hnames, hfound, ?_, lines_eq hrows.precedes hnames hfound hsources⟩
  · rw [← hagrees.length_eq, statements, List.length_map]
  · rw [value?_eq rfl hlabels]
    exact hrows
  · rw [← flatMap_bytes, ← hfound, hinstructions, List.flatMap_map]
    exact hbytes

/-- **A listing follows the source.** After any calls of a session: the listing of the code that it
gives has one line for each label and each instruction, in the order of the statements, each with its own
address; and if listings are asked for before any text is added, every instruction shows the line of
its text that contains its start. -/
theorem listing_rows (mode : Mode) (calls : List Call) {a : Assembly}
    (h : (Trace.run mode calls).session.finish = .ok a)
    (hnames : ∀ l ∈ a.labels, '\n' ∉ l.1.toList) :
    ∃ rows, (Trace.run mode calls).Lists a rows ∧
      a.listing.toList.splitOn '\n' = rows.map (fun r => r.line.toList) ++ [[]] ∧
      (Trace.ListsFirst calls → ∀ r ∈ rows, r.instruction?.isSome = true → r.source?.isSome = true) := by
  obtain ⟨rows, hlists⟩ := Trace.exists_lists (Trace.agrees_run mode calls) h
  refine ⟨rows, hlists, ?_, fun hfirst r hr => ?_⟩
  · have hunbroken : ∀ l ∈ rows.map ListingRow.line, '\n' ∉ l.toList := by
      rw [hlists.labels] at hnames
      intro l hl
      obtain ⟨r, hr, rfl⟩ := List.mem_map.1 hl
      exact hlists.shown.unbroken hnames hr
    rw [Assembly.listing, hlists.lines, Assembly.splitOn_join hunbroken, List.map_map]
    rfl
  · refine hlists.shown.shows_source (fun st o hmem => ?_) hr
    exact Trace.kept_run hfirst (List.of_mem_zip hmem).2

/-- Two texts and two labels added by name, behind a text that was taken back. -/
theorem listing_rows_resumed :
    ∃ calls a rows,
      calls = [.enableListing, .emit "x: nop", .reset, .label "top",
        .emit "  inc eax # one\n.code32\n\tadd ecx, 1", .label "mid", .emit "jmp top\nend:"] ∧
      Trace.ListsFirst calls ∧ (Trace.run .bits64 calls).session.finish = .ok a ∧
      a.labels = [("top", 0), ("mid", 5), ("end", 10)] ∧
      a.lines = ["00000000                  top:", "00000000  FFC0              inc eax # one",
        "00000002  83C101            add ecx, 1", "00000005                  mid:",
        "00000005  E9F6FFFFFF        jmp top", "0000000A                  end:"] ∧
      (Trace.run .bits64 calls).Lists a rows ∧
      a.listing.toList.splitOn '\n' = rows.map (fun r => r.line.toList) ++ [[]] ∧
      ∀ r ∈ rows, r.instruction?.isSome = true → r.source?.isSome = true := by
  generalize hcalls : ([.enableListing, .emit "x: nop", .reset, .label "top",
    .emit "  inc eax # one\n.code32\n\tadd ecx, 1", .label "mid", .emit "jmp top\nend:"] :
      List Call) = calls
  have hfirst : Trace.ListsFirst calls := by
    intro before text after hsplit
    rw [← hcalls] at hsplit
    cases before with
    | nil => cases hsplit
    | cons c before =>
      rw [← (List.cons.inj hsplit).1]
      exact List.mem_cons_self ..
  have hfound : ((Trace.run .bits64 calls).session.finish.toOption.map fun a => (a.labels, a.lines)) =
      some ([("top", 0), ("mid", 5), ("end", 10)],
        ["00000000                  top:", "00000000  FFC0              inc eax # one",
          "00000002  83C101            add ecx, 1", "00000005                  mid:",
          "00000005  E9F6FFFFFF        jmp top", "0000000A                  end:"]) := by
    rw [← hcalls]
    decide +kernel
  obtain ⟨a, ha, hshown⟩ := Option.map_eq_some_iff.1 hfound
  rw [toOption_eq_some] at ha
  obtain ⟨hlabels, hlines⟩ := Prod.mk.inj hshown
  obtain ⟨rows, hlists, hsplit, hsource⟩ := listing_rows .bits64 calls ha (by simp [hlabels])
  exact ⟨calls, a, rows, rfl, hfirst, ha, hlabels, hlines, hlists, hsplit, hsource hfirst⟩

end Session
end IntelAsm
