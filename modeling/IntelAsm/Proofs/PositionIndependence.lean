/-
Code that can stand anywhere. Moving the base of a program moves every label and
every instruction by the same amount (`Program.place_atBase`). In a program whose
operands are all relocatable the fields that wait for labels come out as the
value of a label plus a constant, counted from the instruction, and that is the
same number at every base; so are the bytes (`Session.finish_setBase`).
-/
import IntelAsm.Proofs.LabelOffsets
import IntelAsm.Proofs.SessionCode

namespace IntelAsm

/-! ## Programs at a base -/

/-- A label moved by a distance. -/
def LabelDef.moved (distance : Nat) (d : LabelDef) : LabelDef :=
  { d with address := distance + d.address }

namespace Program

/-- Items as a program at a base. -/
def atBase (externals : Externals) (items : List Item) (base : Nat) : Program :=
  ⟨base, externals, items⟩

variable {externals : Externals} {items : List Item} {b b' : Nat}

theorem place_atBase (externals : Externals) (items : List Item) (b : Nat) :
    (atBase externals items b).place =
      (atBase externals items 0).place.map (Prod.map (b + ·) id) := by
  have hplace (k : Nat) (items : List Item) :
      placeFrom (b + k) items = (placeFrom k items).map (Prod.map (b + ·) id) := by
    induction items generalizing k with
    | nil => rfl
    | cons item items ih =>
      simp only [placeFrom, List.map_cons, Nat.add_assoc, ih, Prod.map, id_eq]
  exact hplace 0 items

theorem instructions_atBase (externals : Externals) (items : List Item) (b : Nat) :
    (atBase externals items b).instructions =
      (atBase externals items 0).instructions.map (Prod.map (b + ·) id) := by
  rw [instructions, instructions, place_atBase, List.filterMap_map, List.map_filterMap]
  congr 1
  funext x
  obtain ⟨address, item⟩ := x
  cases item <;> rfl

theorem labelDefs_atBase (externals : Externals) (items : List Item) (b : Nat) :
    (atBase externals items b).labelDefs =
      (atBase externals items 0).labelDefs.map (LabelDef.moved b) := by
  rw [labelDefs, labelDefs, place_atBase, List.filterMap_map, List.map_filterMap]
  congr 1
  funext x
  obtain ⟨address, item⟩ := x
  cases item <;> rfl

/-- A label is at the same distance from every base. -/
theorem value?_atBase (externals : Externals) {n : String}
    (hn : n ∈ items.filterMap Item.labelName?) :
    ∃ offset : Nat, ∀ b, (atBase externals items b).value? n =
      (exact64 ((b + offset : Nat) : Int)).toOption := by
  rw [← labelDefs_names 0 externals] at hn
  obtain ⟨d, hd, hname⟩ := List.mem_map.1 hn
  cases hfind : (atBase externals items 0).labelDefs.find? (·.name = n) with
  | none =>
    have hnone := List.find?_eq_none.1 hfind d hd
    simp [hname] at hnone
  | some first =>
    refine ⟨first.address, fun b => ?_⟩
    have hmoved : (atBase externals items b).labelDefs.find? (·.name = n) =
        some (first.moved b) := by
      rw [labelDefs_atBase, List.find?_map]
      exact congrArg (Option.map _) hfind
    simp only [value?, valueIn, addressIn, find?_labels, hmoved]
    rfl

end Program

/-! ## Fields -/

namespace Instruction

/-- Every field that waits is a distance to one of the labels. -/
def Relative (labels : List String) (e : Instruction) : Prop :=
  ∀ kind x, (e.field kind).deferred = some x →
    (∃ n ∈ labels, x.Tracks n) ∧
      ∀ lookup u, x.resolve lookup = .ok u → (e.field kind).pcRelative = true

variable {labels : List String} {e : Instruction} {lookup lookup' : String → Option Int64}

/-- **Distances do not change** when labels and instructions are moved together. -/
theorem settled_moved (he : e.Relative labels) {distance : Int}
    (hlabels : ∀ n ∈ labels, ∀ v v', lookup n = some v → lookup' n = some v' →
      v'.toInt - v.toInt = distance)
    {stop stop' : Nat} (hstop : (stop' : Int) - stop = distance) {kind : FieldKind} {v v' : Int64}
    (hv : e.settled lookup stop kind = .ok v) (hv' : e.settled lookup' stop' kind = .ok v') :
    v' = v := by
  cases hd : (e.field kind).deferred with
  | none =>
    rw [settled, hd] at hv hv'
    cases hv
    cases hv'
    rfl
  | some x =>
    rw [settled, hd] at hv hv'
    obtain ⟨u, hu, hcounted, -⟩ := Field.resolve_eq_ok.1 hv
    obtain ⟨u', hu', hcounted', -⟩ := Field.resolve_eq_ok.1 hv'
    obtain ⟨⟨n, hn, htracks⟩, hpc⟩ := he kind x hd
    have hamount := Field.toInt_counted hcounted
    have hamount' := Field.toInt_counted hcounted'
    simp only [Field.amount, hpc lookup u hu, if_true] at hamount hamount'
    obtain ⟨w, hw⟩ := Expr.resolve_names hu (htracks.mem_names hu)
    obtain ⟨w', hw'⟩ := Expr.resolve_names hu' (htracks.mem_names hu')
    have hdifference := htracks lookup lookup' u u' hu hu'
    have hlabel := hlabels n hn w w' hw hw'
    simp only [symbolValue, hw, hw', Option.map_some, Option.getD_some] at hdifference
    rw [← Int64.toInt_inj]
    omega

theorem patch_moved (distance : Int) (he : e.Relative labels)
    (hlabels : ∀ n ∈ labels, ∀ v v', lookup n = some v → lookup' n = some v' →
      v'.toInt - v.toInt = distance)
    {address address' : Nat} (haddress : (address' : Int) - address = distance)
    (hpatch : (e.patch lookup address).2 = []) (hpatch' : (e.patch lookup' address').2 = []) :
    (e.patch lookup' address').1 = (e.patch lookup address).1 := by
  have hfield (kind : FieldKind) : e.settledField lookup' (address' + e.size) kind =
      e.settledField lookup (address + e.size) kind := by
    obtain ⟨v, hv⟩ := settled_of_patch hpatch kind
    obtain ⟨v', hv'⟩ := settled_of_patch hpatch' kind
    rw [settledField_eq hv, settledField_eq hv',
      settled_moved he hlabels (by omega) hv hv']
  simp only [patch_eq, hfield]

end Instruction

namespace Program

variable {externals : Externals} {items : List Item} {b b' : Nat} {image image' : Image}

/-- **A program of relative instructions has the same bytes at every base.** -/
theorem bytes_atBase
    (hitems : ∀ e, .instruction e ∈ items → e.Relative (items.filterMap Item.labelName?))
    (h : (atBase externals items b).link = .ok image)
    (h' : (atBase externals items b').link = .ok image') : image'.bytes = image.bytes := by
  obtain ⟨-, -, hreports, hbytes, -⟩ := link_eq_ok h
  obtain ⟨-, -, hreports', hbytes', -⟩ := link_eq_ok h'
  rw [instructions_atBase, List.forall_mem_map] at hreports hreports'
  rw [hbytes, hbytes', instructions_atBase, instructions_atBase _ _ b, List.flatMap_map,
    List.flatMap_map]
  refine List.flatMap_congr fun x hx => congrArg Instruction.bytes ?_
  refine Instruction.patch_moved ((b' : Int) - b)
    (hitems x.2 (instruction_mem (p := atBase externals items 0) hx)) (fun n hn v v' hv hv' => ?_) ?_
    (hreports x hx) (hreports' x hx)
  · obtain ⟨offset, hvalue⟩ := value?_atBase externals hn
    rw [hvalue, toOption_eq_some, exact64_eq_ok_iff] at hv hv'
    omega
  · simp only [Prod.map_fst]
    omega

/-- **Labels and instructions move with the base.** -/
theorem link_atBase (h : (atBase externals items b).link = .ok image)
    (h' : (atBase externals items b').link = .ok image') :
    List.Forall₂ (fun l l' => l'.1 = l.1 ∧ (l'.2 : Int) - l.2 = (b' : Int) - b) image.labels
        image'.labels ∧
      List.Forall₂ (fun x x' => (x'.1 : Int) - x.1 = (b' : Int) - b) image.instructions
        image'.instructions := by
  obtain ⟨-, hnone, -, -, hlabels, hinstructions⟩ := link_eq_ok h
  obtain ⟨-, hnone', -, -, hlabels', hinstructions'⟩ := link_eq_ok h'
  rw [(labels_of_no_duplicate hnone).1, labelDefs_atBase, List.map_map] at hlabels
  rw [(labels_of_no_duplicate hnone').1, labelDefs_atBase, List.map_map] at hlabels'
  rw [instructions_atBase, List.map_map] at hinstructions hinstructions'
  rw [hlabels, hlabels', hinstructions, hinstructions']
  simp only [List.forall₂_map_left_iff, List.forall₂_map_right_iff, List.forall₂_same]
  constructor
  · intro d _
    refine ⟨rfl, ?_⟩
    simp only [Function.comp_apply, LabelDef.moved]
    omega
  · intro x _
    simp only [Function.comp_apply, Prod.map_fst]
    omega

end Program

/-! ## Sessions -/

/-- The statement names labels by distance only. -/
def Statement.Relocatable (labels : List String) : Statement → Prop
  | .instruction i => i.Relocatable labels
  | .label .. | .mode .. => True

instance (labels : List String) (st : Statement) : Decidable (st.Relocatable labels) :=
  match st with
  | .instruction i => inferInstanceAs (Decidable (i.Relocatable labels))
  | .label .. | .mode .. => inferInstanceAs (Decidable True)

namespace Session

/-- Every symbol is a label of the session, as the target of a branch or in an offset from the
instruction pointer, and no branch leads to a number. -/
def Relocatable (s : Session) : Prop :=
  ∀ st ∈ s.statements, st.Relocatable (s.statements.filterMap Statement.labelName?)

instance (s : Session) : Decidable s.Relocatable := inferInstanceAs (Decidable (∀ _ ∈ _, _))

/-- The same symbols are known at every base. -/
theorem isNone_addLabelBounds (b b' k : Nat) (statements : List Statement) {table table' : Symbols}
    (h : ∀ n, (table'.get? n).isNone = (table.get? n).isNone) (n : String) :
    ((addLabelBounds b' k statements table').get? n).isNone =
      ((addLabelBounds b k statements table).get? n).isNone := by
  induction statements generalizing k table table' with
  | nil => exact h n
  | cons statement rest ih =>
    cases statement with
    | label l span =>
      refine ih k fun m => ?_
      rw [Symbols.get?_extend, Symbols.get?_extend]
      split
      · rw [Option.isNone_some, Option.isNone_some]
      · exact h m
    | mode m span => exact ih k h
    | instruction i => exact ih (k + 1) h

variable {s : Session} {b b' : Nat}

theorem items?_setBase (hs : s.Relocatable) (b b' : Nat) :
    (s.setBase b').items? = (s.setBase b).items? := by
  have hdefined (n : String) : ((s.setBase b').symbols.get? n).isNone =
      ((s.setBase b).symbols.get? n).isNone :=
    isNone_addLabelBounds b b' 0 s.statements (fun _ => rfl) n
  have hitems : Statement.items? (s.setBase b').symbols.get? s.mode s.statements =
      Statement.items? (s.setBase b).symbols.get? s.mode s.statements :=
    Statement.items?_congr
      (fun i hi => ParsedInstruction.encode_relocatable (hs _ hi) hdefined) s.mode
  have hform (c : Nat) : (s.setBase c).items? = if s.errors.isEmpty then
      (Statement.items? (s.setBase c).symbols.get? s.mode s.statements).filter fun items =>
        Item.sizes items ≤ s.limits.outputBytes
    else none := rfl
  rw [hform, hform, hitems]

/-- What a session at a base is assembled to is the image of its items there. -/
theorem finish_atBase {a : Assembly} (h : (s.setBase b).finish = .ok a) :
    ∃ items image, (s.setBase b).items? = some items ∧
      (Program.atBase s.externals items b).link = .ok image ∧ a.bytes = image.bytes ∧
      a.labels = image.labels ∧ a.instructions = image.instructions := by
  obtain ⟨records, image, hrecords, hlink, -, rfl⟩ := finish_eq_ok h
  exact ⟨_, image, encodeStrict_items.1 ⟨records, hrecords, rfl⟩, hlink, rfl, rfl, rfl⟩

/-- **Position independence.** A session that names labels by distance only has the same bytes at
any two bases where it comes to an end, and every label and every instruction moves by the difference
of the bases. -/
theorem finish_setBase {a a' : Assembly} (hs : s.Relocatable) (h : (s.setBase b).finish = .ok a)
    (h' : (s.setBase b').finish = .ok a') :
    a'.bytes = a.bytes ∧
      List.Forall₂ (fun l l' => l'.1 = l.1 ∧ (l'.2 : Int) - l.2 = (b' : Int) - b) a.labels a'.labels ∧
      List.Forall₂ (fun x x' => (x'.1 : Int) - x.1 = (b' : Int) - b) a.instructions
        a'.instructions := by
  obtain ⟨items, image, hitems, hlink, hbytes, hlabels, hinstructions⟩ := finish_atBase h
  obtain ⟨items', image', hitems', hlink', hbytes', hlabels', hinstructions'⟩ := finish_atBase h'
  rw [items?_setBase hs b b', hitems] at hitems'
  cases hitems'
  have hsource := (items?_eq_some.1 hitems).2.1
  have hrelative : ∀ e, .instruction e ∈ items → e.Relative (items.filterMap Item.labelName?) := by
    intro e he kind x hx
    obtain ⟨i, m, hi, hencode⟩ := Statement.items?_instruction hsource he
    rw [Statement.items?_labels hsource]
    exact ParsedInstruction.encode_tracks (hs _ hi) hencode hx
  rw [hbytes, hbytes', hlabels, hlabels', hinstructions, hinstructions']
  exact ⟨Program.bytes_atBase hrelative hlink hlink', Program.link_atBase hlink hlink'⟩

/-- Jumps both ways, calls, and data behind the code, at zero and at the last addresses that fit a
signed number. -/
theorem finish_setBase_far :
    ∃ (s : Session) (a a' : Assembly),
      s = ((new .bits64).emit
        "top: je end - 1\nmov rax, [rip + data + 4]\ncall [rip + data]\nend: call top\njmp rax\ndata: nop"
        ).session ∧
      s.Relocatable ∧ (s.setBase 0).finish = .ok a ∧
      (s.setBase 0x7FFFFFFFFFFFFFE0).finish = .ok a' ∧ a'.bytes = a.bytes ∧
      a.labels = [("top", 0), ("end", 19), ("data", 26)] ∧
      a'.labels = [("top", 0x7FFFFFFFFFFFFFE0), ("end", 0x7FFFFFFFFFFFFFF3),
        ("data", 0x7FFFFFFFFFFFFFFA)] := by
  have hrelocatable : ((new .bits64).emit
      "top: je end - 1\nmov rax, [rip + data + 4]\ncall [rip + data]\nend: call top\njmp rax\ndata: nop"
      ).session.Relocatable := by decide +kernel
  have hzero : (((new .bits64).emit
      "top: je end - 1\nmov rax, [rip + data + 4]\ncall [rip + data]\nend: call top\njmp rax\ndata: nop"
      ).session.setBase 0).finish.toOption.map Assembly.labels =
        some [("top", 0), ("end", 19), ("data", 26)] := by decide +kernel
  have hfar : (((new .bits64).emit
      "top: je end - 1\nmov rax, [rip + data + 4]\ncall [rip + data]\nend: call top\njmp rax\ndata: nop"
      ).session.setBase 0x7FFFFFFFFFFFFFE0).finish.toOption.map Assembly.labels =
        some [("top", 0x7FFFFFFFFFFFFFE0), ("end", 0x7FFFFFFFFFFFFFF3),
          ("data", 0x7FFFFFFFFFFFFFFA)] := by decide +kernel
  obtain ⟨a, ha, hlabels⟩ := Option.map_eq_some_iff.1 hzero
  obtain ⟨a', ha', hlabels'⟩ := Option.map_eq_some_iff.1 hfar
  rw [toOption_eq_some] at ha ha'
  exact ⟨_, a, a', rfl, hrelocatable, ha, ha', (finish_setBase hrelocatable ha ha').1, hlabels,
    hlabels'⟩

end Session
end IntelAsm
