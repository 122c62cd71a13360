/-
Linking programs that differ in names and places. Values are found by name, so
an instruction with other names is patched as before where the other names have
the same values (`Instruction.patch_revise`), and programs whose instructions
correspond in this way are linked alike (`Program.Revised.link`).

The labels of a program enter in two ways only: no name is defined twice
(`Program.duplicates_eq_nil`), and a symbol has the address of the first label
of its name (`Program.find?_labels`).
-/
import IntelAsm.Proofs.Layout
import IntelAsm.Proofs.PlaceRevision

namespace IntelAsm

/-! ## Fields -/

theorem Expr.resolve_rename {name : String → String} {lookup lookup' : String → Option Int64}
    {e : Expr} (h : ∀ n ∈ e.names, lookup' (name n) = lookup n) :
    ((e.rename name).resolve lookup').toOption = (e.resolve lookup).toOption := by
  induction e with
  | int v => rfl
  | var n =>
    simp only [rename, resolve, h n (by simp [names])]
    cases lookup n <;> rfl
  | unary op inner ih => simp only [rename, resolve, toOption_bind, ih h]
  | binary op left right ihl ihr =>
    simp only [names, List.mem_append] at h
    simp only [rename, resolve, toOption_bind, ihl fun n hn => h n (.inl hn),
      ihr fun n hn => h n (.inr hn)]

/-- The value of a field depends on its place for the diagnostics only. -/
theorem Field.toOption_resolve (lookup : String → Option Int64) (f : Field) (kind : FieldKind)
    (e : Expr) (stop : Nat) (span : Span) :
    (f.resolve lookup kind e stop span).toOption = (e.resolve lookup).toOption.bind fun u =>
      (f.counted u stop .nowhere).toOption.filter f.inRange := by
  have hcounted (u v : Int64) :
      f.counted u stop .nowhere = .ok v ↔ f.counted u stop span = .ok v := by
    have hplaces : f.counted u stop .nowhere = revisedAnswer .bare id (f.counted u stop span) :=
      counted_places .bare f stop span u
    rw [hplaces]
    cases f.counted u stop span <;> simp
  ext v
  simp only [toOption_eq_some, resolve_eq_ok, Option.bind_eq_some_iff, Option.filter_eq_some_iff,
    hcounted]

/-! ## Instructions -/

namespace Instruction

/-- The names that the fields of the instruction wait for. -/
def Waits (i : Instruction) (n : String) : Prop :=
  ∃ kind e, (i.field kind).deferred = some e ∧ n ∈ e.names

section Patch

variable {r : Revision} {lookup lookup' : String → Option Int64} {i : Instruction}

theorem field_revise (r : Revision) (i : Instruction) (kind : FieldKind) :
    (i.revise r).field kind = (i.field kind).revise r := by
  cases kind <;> rfl

theorem settled_revise (h : ∀ n, i.Waits n → lookup' (r.name n) = lookup n) (stop : Nat)
    (kind : FieldKind) :
    ((i.revise r).settled lookup' stop kind).toOption = (i.settled lookup stop kind).toOption := by
  simp only [settled, field_revise]
  cases hd : (i.field kind).deferred with
  | none =>
    simp only [Field.revise, hd, Option.map_none]
  | some e =>
    have hdeferred : ((i.field kind).revise r).deferred = some (e.rename r.name) := by
      rw [Field.revise, hd]
      rfl
    have hresolve := Expr.resolve_rename (e := e) fun n hn => h n ⟨kind, e, hd, hn⟩
    simp only [hdeferred, Field.toOption_resolve, hresolve]
    rfl

theorem settledField_revise (h : ∀ n, i.Waits n → lookup' (r.name n) = lookup n) (stop : Nat)
    (kind : FieldKind) :
    (i.revise r).settledField lookup' stop kind = (i.settledField lookup stop kind).revise r := by
  have hsame := settled_revise h stop kind
  simp only [settledField, field_revise]
  cases hs : i.settled lookup stop kind with
  | ok v =>
    rw [hs] at hsame
    rw [toOption_eq_some.1 hsame]
    rfl
  | error d =>
    rw [hs] at hsame
    cases hs' : (i.revise r).settled lookup' stop kind with
    | ok v =>
      rw [hs'] at hsame
      cases hsame
    | error d' => rfl

theorem patch_eq_nil {address : Nat} :
    (i.patch lookup address).2 = [] ↔
      ∀ kind, ∃ v, i.settled lookup (address + i.size) kind = .ok v := by
  constructor
  · exact settled_of_patch
  · intro h
    simp only [patch_eq, List.flatMap_eq_nil_iff, Option.toList_eq_nil_iff]
    exact fun kind _ => failure?_eq_none.2 (h kind)

/-- **An instruction with other names** is patched as before, where the names have the values of
those they replace. -/
theorem patch_revise (h : ∀ n, i.Waits n → lookup' (r.name n) = lookup n) (address : Nat) :
    ((i.revise r).patch lookup' address).1 = ((i.patch lookup address).1).revise r ∧
      (((i.revise r).patch lookup' address).2 = [] ↔ (i.patch lookup address).2 = []) := by
  constructor
  · simp only [patch_eq, size_revise, settledField_revise h]
    rfl
  · simp only [patch_eq_nil, size_revise, ← toOption_eq_some, settled_revise h]

end Patch
end Instruction

/-! ## Programs -/

theorem unlessReported_eq_ok {α : Type} {ds : List Diagnostic} {value answer : α} :
    unlessReported ds value = .ok answer ↔ ds = [] ∧ value = answer := by
  unfold unlessReported
  cases hds : Diagnostic.ofList? ds with
  | none =>
    rw [Diagnostic.ofList?_eq_none] at hds
    simp [hds]
  | some d =>
    have hne : ds ≠ [] := by
      rintro rfl
      cases hds
    simp [hne]

namespace Program

theorem instruction_mem {p : Program} {x : Nat × Instruction} (h : x ∈ p.instructions) :
    .instruction x.2 ∈ p.items := by
  obtain ⟨before, after, hitems, -⟩ := mem_placeFrom (mem_instructions.1 h)
  rw [hitems]
  simp

/-- Linking gives the image exactly if the program ends within the address space and nothing is
reported. -/
theorem link_eq_ok_iff {p : Program} {image : Image} :
    p.link = .ok image ↔ p.stop ≤ addressLimit ∧ p.duplicates = [] ∧
      (∀ x ∈ p.instructions, (x.2.patch p.value? x.1).2 = []) ∧ p.image = image := by
  have hpatched : p.patched = p.instructions.map fun x => (x.1, x.2.patch p.value? x.1) := rfl
  rw [link_eq, guard_eq_ok, unlessReported_eq_ok, reports, List.append_eq_nil_iff, hpatched,
    List.flatMap_map, List.flatMap_eq_nil_iff, Nat.not_lt, and_assoc]

/-- The code of an image: its bytes, its labels, and the addresses of its instructions. -/
def code (p : Program) : Option (List UInt8 × List (String × Nat) × List Nat) :=
  p.link.toOption.map fun image => (image.bytes, image.labels, image.instructions.map Prod.fst)

/-- The second program has the instructions of the first at the same addresses, with other names
that have the same values, and no more labels defined twice. -/
structure Revised (r : Revision) (p q : Program) : Prop where
  stop : q.stop = p.stop
  instructions : q.instructions = p.instructions.map (Prod.map id (Instruction.revise r))
  duplicates : q.duplicates = [] ↔ p.duplicates = []
  value : ∀ x ∈ p.instructions, ∀ n, x.2.Waits n → q.value? (r.name n) = p.value? n

/-- **Programs that differ in names are linked alike**: to the same bytes and addresses, or not at
all. The labels are those of each. -/
theorem Revised.link {r : Revision} {p q : Program} (h : Revised r p q) :
    q.code = p.link.toOption.map fun image =>
      (image.bytes, q.labels.map fun d => (d.name, d.address), image.instructions.map Prod.fst) := by
  have hpatch := fun x hx => Instruction.patch_revise (h.value x hx) x.1
  have hreports : (∀ y ∈ q.instructions, (y.2.patch q.value? y.1).2 = []) ↔
      ∀ x ∈ p.instructions, (x.2.patch p.value? x.1).2 = [] := by
    rw [h.instructions, List.forall_mem_map]
    exact forall₂_congr fun x hx => (hpatch x hx).2
  have hbytes : q.image.bytes = p.image.bytes := by
    simp only [image, patched, h.instructions, List.flatMap_map]
    refine List.flatMap_congr fun x hx => ?_
    exact (congrArg Instruction.bytes (hpatch x hx).1).trans (Instruction.bytes_revise r _)
  have haddresses : q.image.instructions.map Prod.fst = p.image.instructions.map Prod.fst := by
    simp only [image, patched, h.instructions, List.map_map]
    rfl
  have hlink : (∃ image, q.link = .ok image) ↔ ∃ image, p.link = .ok image := by
    simp only [link_eq_ok_iff, h.stop, h.duplicates, hreports, exists_and_left, exists_eq']
  rw [code]
  cases hp : p.link with
  | ok image =>
    obtain ⟨image', hq⟩ := hlink.2 ⟨image, hp⟩
    obtain rfl := (link_eq_ok_iff.1 hp).2.2.2
    obtain rfl := (link_eq_ok_iff.1 hq).2.2.2
    rw [hq]
    simp only [toOption_ok, Option.map_some, hbytes, haddresses]
    rfl
  | error d =>
    cases hq : q.link with
    | ok image' =>
      obtain ⟨image, hok⟩ := hlink.1 ⟨image', hq⟩
      rw [hp] at hok
      cases hok
    | error d' => rfl

/-! ## Labels -/

theorem splitDefs_eq_nil {seen ds : List LabelDef} :
    (splitDefs seen ds).2 = [] ↔
      (ds.map LabelDef.name).Nodup ∧ ∀ d ∈ ds, ∀ c ∈ seen, c.name ≠ d.name := by
  constructor
  · intro h
    exact (splitDefs_of_no_duplicate h).2
  · induction ds generalizing seen with
    | nil => simp [splitDefs]
    | cons d ds ih =>
      rintro ⟨hnodup, hnew⟩
      rw [List.map_cons, List.nodup_cons] at hnodup
      have hfind : seen.find? (·.name = d.name) = none :=
        List.find?_eq_none.2 fun c hc => by simpa using hnew d (by simp) c hc
      simp only [splitDefs, hfind]
      refine ih ⟨hnodup.2, fun e he c hc => ?_⟩
      rcases List.mem_append.1 hc with hc | hc
      · exact hnew e (by simp [he]) c hc
      · intro heq
        rw [List.mem_singleton.1 hc] at heq
        exact hnodup.1 (heq ▸ List.mem_map_of_mem he)

/-- No label is defined twice exactly if the names of the definitions are distinct. -/
theorem duplicates_eq_nil (p : Program) :
    p.duplicates = [] ↔ (p.labelDefs.map LabelDef.name).Nodup := by
  rw [duplicates, List.map_eq_nil_iff, splitDefs_eq_nil]
  simp

theorem find?_splitDefs (seen ds : List LabelDef) (n : String) :
    (seen ++ (splitDefs seen ds).1).find? (·.name = n) = (seen ++ ds).find? (·.name = n) := by
  induction ds generalizing seen with
  | nil => rfl
  | cons d ds ih =>
    simp only [splitDefs]
    cases hfind : seen.find? (·.name = d.name) with
    | none =>
      have hnext := ih (seen ++ [d])
      rw [List.append_assoc, List.append_assoc] at hnext
      exact hnext
    | some first =>
      -- The name was defined before, so its first definition is found in front.
      simp only
      rw [ih seen, List.find?_append, List.find?_append, List.find?_cons]
      by_cases hn : d.name = n
      · subst hn
        simp [hfind]
      · simp [hn]

/-- A symbol has the address of the first label of its name. -/
theorem find?_labels (p : Program) (n : String) :
    p.labels.find? (·.name = n) = p.labelDefs.find? (·.name = n) :=
  find?_splitDefs [] p.labelDefs n

/-! ## Other names -/

section Names

variable {r : Revision} {p q : Program}

theorem value?_revise (hdefs : q.labelDefs = p.labelDefs.map (LabelDef.revise r))
    (hexternals : ∀ n, q.externals.get? (r.name n) = p.externals.get? n) {n : String}
    (hn : ∀ d ∈ p.labelDefs, r.name d.name = r.name n → d.name = n) :
    q.value? (r.name n) = p.value? n := by
  have hfind : q.labelDefs.find? (·.name = r.name n) =
      (p.labelDefs.find? (·.name = n)).map (LabelDef.revise r) := by
    rw [hdefs, List.find?_map]
    congr 1
    refine List.find?_congr fun d hd => ?_
    rw [Function.comp_apply, decide_eq_decide]
    exact ⟨hn d hd, congrArg r.name⟩
  simp only [value?, valueIn, addressIn, find?_labels, hfind, hexternals, Option.map_map]
  rfl

/-- **A program with other names for its symbols** is linked to the same code, its labels under
their new names. No label may get the name of another symbol. -/
theorem code_revise (hbase : q.base = p.base) (hitems : q.items = p.items.map (Item.revise r))
    (hexternals : ∀ n, q.externals.get? (r.name n) = p.externals.get? n)
    (hlabels : ∀ d ∈ p.labelDefs, ∀ n, r.name d.name = r.name n → d.name = n) :
    q.code = p.code.map fun c => (c.1, c.2.1.map (Prod.map r.name id), c.2.2) := by
  have hdefs := labelDefs_revise hbase hitems
  have hduplicates : q.duplicates = [] ↔ p.duplicates = [] := by
    have hnames : q.labelDefs.map LabelDef.name = (p.labelDefs.map LabelDef.name).map r.name := by
      rw [hdefs, List.map_map, List.map_map]
      rfl
    rw [duplicates_eq_nil, duplicates_eq_nil, hnames]
    refine ⟨List.Nodup.of_map _, List.Nodup.map_on fun l hl n _ hsame => ?_⟩
    obtain ⟨d, hd, rfl⟩ := List.mem_map.1 hl
    exact hlabels d hd n hsame
  have hrevised : Revised r p q :=
    { stop := stop_revise hbase hitems
      instructions := instructions_revise hbase hitems
      duplicates := hduplicates
      value := fun _ _ n _ => value?_revise hdefs hexternals fun d hd => hlabels d hd n }
  rw [hrevised.link, code, Option.map_map]
  refine Option.map_congr fun image himage => ?_
  -- Where linking succeeds, all labels count, so those of both programs correspond.
  obtain ⟨-, hnone, -, rfl⟩ := link_eq_ok_iff.1 (toOption_eq_some.1 himage)
  have hq : q.labels = q.labelDefs := (labels_of_no_duplicate (hduplicates.2 hnone)).1
  have hp : p.labels = p.labelDefs := (labels_of_no_duplicate hnone).1
  simp only [Function.comp_apply, image, hq, hp, hdefs, List.map_map]
  rfl

end Names
end Program
end IntelAsm
