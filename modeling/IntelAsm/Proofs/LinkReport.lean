/-
When linking succeeds and what it reports otherwise. A field that waits for
symbols is a `Site`; it settles if its expression has a value and the field holds
that value, counted from the end of the instruction where it is a distance
(`Site.Settles`). What is reported of a site that does not settle is read off the
first thing that went wrong (`Site.Reports`).

Linking answers exactly if no name is defined twice and every site settles, and
otherwise it reports every redefinition and every site that does not settle, each
once and in the order of the program (`Program.link_reports`).
-/
import Mathlib
import IntelAsm.Proofs.LinkRevision

namespace IntelAsm

/-! ## Fields -/

namespace Field

/-- The greatest value of a field of that width. -/
def greatest (f : Field) (w : Width) : Int := if f.signed then w.maxSigned else w.maxUnsigned

/-- The number is one of the field: a signed one, or in a field that is not signed an unsigned one
as well. -/
def Holds (f : Field) (n : Int) : Prop :=
  ∃ w ∈ Width.ofBytes? f.size, w.minSigned ≤ n ∧ n ≤ f.greatest w

instance (f : Field) (n : Int) : Decidable (f.Holds n) :=
  inferInstanceAs (Decidable (∃ w ∈ Width.ofBytes? f.size, _))

theorem inRange_iff_holds {f : Field} {w : Width} (hw : Width.ofBytes? f.size = some w) (v : Int64) :
    f.inRange v = true ↔ f.Holds v.toInt := by
  cases hs : f.signed <;> simp [inRange, Holds, greatest, hw, hs]

theorem counted_eq_error {f : Field} {u : Int64} {stop : Nat} {span : Span} {d : Diagnostic}
    (h : f.counted u stop span = .error d) :
    f.pcRelative = true ∧
      ((Int64.maxValue.toInt < stop ∧ d = .valueRange stop 0 Int64.maxValue.toInt span) ∨
        (stop ≤ Int64.maxValue.toInt ∧ f.amount u stop < Int64.minValue.toInt ∧
          d = .valueRange (f.amount u stop) Int64.minValue.toInt Int64.maxValue.toInt span)) := by
  unfold counted at h
  by_cases hpc : f.pcRelative = true
  · refine ⟨hpc, ?_⟩
    have hamount : f.amount u stop = u.toInt - stop := by rw [amount, hpc, if_pos rfl]
    have hmin := Int64.toInt_minValue
    have hmax := Int64.toInt_maxValue
    have hu := u.toInt_lt
    simp only [hpc, if_true, distance, exact64, hmin, hmax] at h
    rw [hamount, hmin, hmax]
    by_cases hstop : (stop : Int) ≤ 9223372036854775807
    · rw [if_pos (by omega)] at h
      split_ifs at h with hdiff
      cases h
      refine .inr ⟨hstop, by omega, rfl⟩
    · rw [if_neg (by omega)] at h
      cases h
      exact .inl ⟨by omega, rfl⟩
  · simp [hpc] at h

theorem checkRange_eq_error {f : Field} {kind : FieldKind} {e : Expr} {span : Span} {v : Int64}
    {d : Diagnostic} (h : f.checkRange kind e span v = .error d) :
    ∃ w, Width.ofBytes? f.size = some w ∧ ¬ f.Holds v.toInt ∧ d = f.rangeDiagnostic w kind e v span := by
  unfold checkRange at h
  cases hw : Width.ofBytes? f.size with
  | none => simp [hw] at h
  | some w =>
    simp only [hw] at h
    by_cases hr : f.inRange v = true
    · simp [hr] at h
    · simp only [hr, Bool.false_eq_true, if_false, Except.error.injEq] at h
      exact ⟨w, rfl, mt (inRange_iff_holds hw v).2 hr, h.symm⟩

end Field

/-! ## Sites -/

/-- A field that waits for symbols, in an instruction that ends at `stop`. -/
structure Site where
  kind : FieldKind
  field : Field
  expr : Expr
  stop : Nat
  span : Span

namespace Site

/-- A distance is counted from an address, and that must be a signed value. -/
def Reachable (s : Site) : Prop := s.field.pcRelative = true → s.stop ≤ Int64.maxValue.toInt

instance (s : Site) : Decidable s.Reachable := inferInstanceAs (Decidable (_ → _))

/-- For the target `u` the field is to hold `v`. -/
def Counts (s : Site) (u v : Int64) : Prop := s.Reachable ∧ v.toInt = s.field.amount u s.stop

/-- The field can be filled: its expression has a value, and the field holds what that counts. -/
def Settles (lookup : String → Option Int64) (s : Site) : Prop :=
  ∃ u ∈ (s.expr.resolve lookup).toOption, s.Reachable ∧ s.field.Holds (s.field.amount u s.stop)

instance (lookup : String → Option Int64) (s : Site) : Decidable (s.Settles lookup) :=
  inferInstanceAs (Decidable (∃ u ∈ (s.expr.resolve lookup).toOption, _))

/-- What is reported of a site: its expression has no value, the instruction ends beyond the signed
values, the distance lies below them, or the field does not hold the amount. Only the field of a
branch has a report of its own for the last. -/
inductive Reports (lookup : String → Option Int64) (s : Site) : Diagnostic → Prop
  | undefined {name : String} (hexpr : s.expr.resolve lookup = .error (.undefined name)) :
    Reports lookup s (.undefinedLabel name s.span)
  | arithmetic {e : ArithError} (hexpr : s.expr.resolve lookup = .error (.arith e)) :
    Reports lookup s (.badOperand ("'" ++ s.expr.text ++ "': " ++ e.message) s.span)
  | far {u : Int64} (hexpr : s.expr.resolve lookup = .ok u) (hpc : s.field.pcRelative = true)
    (hstop : Int64.maxValue.toInt < s.stop) :
    Reports lookup s (.valueRange s.stop 0 Int64.maxValue.toInt s.span)
  | wraps {u : Int64} (hexpr : s.expr.resolve lookup = .ok u) (hpc : s.field.pcRelative = true)
    (hstop : s.stop ≤ Int64.maxValue.toInt)
    (hamount : s.field.amount u s.stop < Int64.minValue.toInt) :
    Reports lookup s (.valueRange (s.field.amount u s.stop) Int64.minValue.toInt
      Int64.maxValue.toInt s.span)
  | branch {u v : Int64} {w : Width} (hkind : s.kind = .branch)
    (hexpr : s.expr.resolve lookup = .ok u) (hcounts : s.Counts u v)
    (hw : Width.ofBytes? s.field.size = some w) (hout : ¬ s.field.Holds v.toInt) :
    Reports lookup s (.branchRange s.expr.text v (Int64.ofInt w.maxSigned) s.span)
  | value {u v : Int64} {w : Width} (hkind : s.kind ≠ .branch)
    (hexpr : s.expr.resolve lookup = .ok u) (hcounts : s.Counts u v)
    (hw : Width.ofBytes? s.field.size = some w) (hout : ¬ s.field.Holds v.toInt) :
    Reports lookup s (.valueRange v.toInt w.minSigned (s.field.greatest w) s.span)

/-- What linking makes of a site. -/
def answer (lookup : String → Option Int64) (s : Site) : Except Diagnostic Int64 :=
  s.field.resolve lookup s.kind s.expr s.stop s.span

variable {lookup : String → Option Int64} {s : Site}

theorem counts_of_counted {u v : Int64} (h : s.field.counted u s.stop s.span = .ok v) :
    s.Counts u v := by
  refine ⟨fun hpc => ?_, Field.toInt_counted h⟩
  by_contra hstop
  have herror : exact64 s.stop = .error .overflow := if_neg fun hin => hstop hin.2
  simp only [Field.counted, hpc, if_true, Field.distance, herror, reduceCtorEq] at h

theorem reports_of_answer {d : Diagnostic} (h : s.answer lookup = .error d) : s.Reports lookup d := by
  unfold answer Field.resolve at h
  cases hexpr : s.expr.resolve lookup with
  | error e =>
    rw [hexpr] at h
    cases e with
    | undefined name =>
      cases h
      exact .undefined hexpr
    | arith e =>
      cases h
      exact .arithmetic hexpr
  | ok u =>
    rw [hexpr] at h
    change (s.field.counted u s.stop s.span >>= s.field.checkRange s.kind s.expr s.span) = _ at h
    cases hcounted : s.field.counted u s.stop s.span with
    | error e =>
      rw [hcounted] at h
      cases h
      obtain ⟨hpc, ⟨hstop, rfl⟩ | ⟨hstop, hamount, rfl⟩⟩ := Field.counted_eq_error hcounted
      · exact .far hexpr hpc hstop
      · exact .wraps hexpr hpc hstop hamount
    | ok v =>
      rw [hcounted] at h
      obtain ⟨w, hw, hout, rfl⟩ := Field.checkRange_eq_error h
      cases hkind : s.kind with
      | branch => exact .branch hkind hexpr (counts_of_counted hcounted) hw hout
      | displacement | immediate =>
        exact .value (by simp [hkind]) hexpr (counts_of_counted hcounted) hw hout

theorem settles_of_answer {w : Width} (hw : Width.ofBytes? s.field.size = some w) {v : Int64}
    (h : s.answer lookup = .ok v) : s.Settles lookup := by
  obtain ⟨u, hexpr, hcounted, hrange⟩ := Field.resolve_eq_ok.1 h
  obtain ⟨hreachable, hamount⟩ := counts_of_counted hcounted
  refine ⟨u, toOption_eq_some.2 hexpr, hreachable, ?_⟩
  rw [← hamount]
  exact (Field.inRange_iff_holds hw v).1 hrange

/-- Only what does not settle is reported. -/
theorem Reports.not_settles {d : Diagnostic} (h : s.Reports lookup d) : ¬ s.Settles lookup := by
  rintro ⟨t, ht, hreachable, hholds⟩
  rw [Option.mem_def, toOption_eq_some] at ht
  cases h with
  | undefined hexpr => simp [hexpr] at ht
  | arithmetic hexpr => simp [hexpr] at ht
  | far hexpr hpc hfar => exact absurd (hreachable hpc) (by omega)
  | wraps hexpr hpc _ hamount =>
    obtain rfl := Except.ok.inj (hexpr.symm.trans ht)
    -- A distance below all signed values is below those of every width.
    obtain ⟨w, -, hmin, -⟩ := hholds
    have hwidth : Int64.minValue.toInt ≤ w.minSigned := by cases w <;> decide
    omega
  | branch _ hexpr hcounts _ hout | value _ hexpr hcounts _ hout =>
    obtain rfl := Except.ok.inj (hexpr.symm.trans ht)
    exact hout (hcounts.2 ▸ hholds)

end Site

/-! ## Instructions -/

/-- The fields of an instruction that wait for symbols. -/
def Instruction.sites (address : Nat) (i : Instruction) : List Site :=
  [FieldKind.displacement, .immediate, .branch].filterMap fun kind =>
    (i.field kind).deferred.map fun e => ⟨kind, i.field kind, e, address + i.size, i.span⟩

/-- The reports of a patch are those of the sites, one by one. -/
theorem Instruction.reports_patch (lookup : String → Option Int64) (address : Nat) (i : Instruction) :
    (i.patch lookup address).2 = (i.sites address).filterMap fun s => failure? (s.answer lookup) := by
  have hkind (kind : FieldKind) : failure? (i.settled lookup (address + i.size) kind) =
      ((i.field kind).deferred.map fun e =>
        (⟨kind, i.field kind, e, address + i.size, i.span⟩ : Site)).bind fun s =>
          failure? (s.answer lookup) := by
    simp only [settled]
    cases (i.field kind).deferred <;> rfl
  rw [sites, List.filterMap_filterMap, List.filterMap_eq_flatMap_toList, patch_eq]
  simp only [hkind]
  rfl

/-! ## Programs -/

namespace Program

/-- The fields that wait for symbols, in the order of the instructions. -/
def sites (p : Program) : List Site := p.instructions.flatMap fun x => x.2.sites x.1

/-- The value of a symbol: the address of the first label of the name, or else of the external
symbol, if it is a signed value. -/
def symbolValue? (p : Program) (name : String) : Option Int64 :=
  ((((p.labelDefs.find? (·.name = name)).map LabelDef.address).or (p.externals.get? name)).filter
    (· < 2 ^ 63)).map Int64.ofNat

/-- A report for each definition of a name that was defined in front, with the place of the first. -/
def redefinitions (p : Program) : List Diagnostic :=
  p.labelDefs.zipIdx.filterMap fun x =>
    ((p.labelDefs.take x.2).find? (·.name = x.1.name)).map fun first =>
      .duplicateLabel x.1.name x.1.span first.span

theorem value?_eq_symbolValue? (p : Program) : p.value? = p.symbolValue? := by
  funext name
  have hvalue (a : Nat) :
      (exact64 a).toOption = ((some a).filter (· < 2 ^ 63)).map Int64.ofNat := by
    have hmin := Int64.toInt_minValue
    have hmax := Int64.toInt_maxValue
    by_cases ha : a < 2 ^ 63
    · rw [exact64, if_pos (by omega), Option.filter_some_pos (by simpa using ha)]
      rfl
    · rw [exact64, if_neg (by omega), Option.filter_some_neg (by simpa using ha)]
      rfl
  rw [value?, valueIn, addressIn, find?_labels, symbolValue?, Option.or_eq_orElse]
  cases ((p.labelDefs.find? (·.name = name)).map LabelDef.address).orElse
    fun _ => p.externals.get? name with
  | none => rfl
  | some a => exact hvalue a

/-- The redefinitions behind definitions in front: those seen before answer for all of them. -/
theorem splitDefs_redefinitions (front : List LabelDef) {seen ds : List LabelDef}
    (hseen : ∀ n, seen.find? (·.name = n) = front.find? (·.name = n)) :
    (splitDefs seen ds).2 = (ds.zipIdx front.length).filterMap fun x =>
      (((front ++ ds).take x.2).find? (·.name = x.1.name)).map fun first => (x.1, first) := by
  induction ds generalizing seen front with
  | nil => rfl
  | cons d ds ih =>
    have hfront : front ++ d :: ds = front ++ [d] ++ ds := by simp
    rw [List.zipIdx_cons, List.filterMap_cons, List.take_left, ← hseen d.name, splitDefs]
    cases hfind : seen.find? (·.name = d.name) with
    | none =>
      simp only [Option.map_none]
      rw [ih (front ++ [d]) fun n => ?_, hfront, List.length_append, List.length_singleton]
      rw [List.find?_append, List.find?_append, hseen]
    | some first =>
      simp only [Option.map_some]
      rw [ih (front ++ [d]) fun n => ?_, hfront, List.length_append, List.length_singleton]
      rw [List.find?_append, ← hseen]
      by_cases hn : d.name = n
      · rw [← hn, hfind]
        rfl
      · simp [hn]

theorem duplicates_eq_redefinitions (p : Program) : p.duplicates = p.redefinitions := by
  rw [duplicates, splitDefs_redefinitions [] fun n => rfl, redefinitions,
    List.map_filterMap]
  simp only [List.length_nil, List.nil_append, Option.map_map]
  rfl

theorem reports_eq (p : Program) :
    p.reports = p.redefinitions ++ p.sites.filterMap fun s => failure? (s.answer p.symbolValue?) := by
  have hpatched : p.patched = p.instructions.map fun x => (x.1, x.2.patch p.value? x.1) := rfl
  rw [reports, duplicates_eq_redefinitions, hpatched, List.flatMap_map, sites, List.filterMap_flatMap,
    ← value?_eq_symbolValue?]
  simp only [Instruction.reports_patch]

theorem Encoded.width_of_mem_sites {p : Program} (hp : p.Encoded) {s : Site} (hs : s ∈ p.sites) :
    ∃ w, Width.ofBytes? s.field.size = some w := by
  obtain ⟨x, hx, hs⟩ := List.mem_flatMap.1 hs
  obtain ⟨kind, -, hs⟩ := List.mem_filterMap.1 hs
  obtain ⟨e, he, rfl⟩ := Option.map_eq_some_iff.1 hs
  obtain ⟨⟨w, hw⟩, -⟩ := hp.patchable hx kind (by simp [he])
  exact ⟨w, by rw [hw, Width.ofBytes?_bytes]⟩

/-- A site of encoded instructions settles, or is reported. -/
theorem Encoded.answer_cases {p : Program} (hp : p.Encoded) {s : Site} (hs : s ∈ p.sites) :
    (failure? (s.answer p.symbolValue?) = none ∧ s.Settles p.symbolValue?) ∨
      ∃ d, failure? (s.answer p.symbolValue?) = some d ∧ ¬ s.Settles p.symbolValue? ∧
        s.Reports p.symbolValue? d := by
  obtain ⟨w, hw⟩ := hp.width_of_mem_sites hs
  cases hanswer : s.answer p.symbolValue? with
  | ok v => exact .inl ⟨rfl, Site.settles_of_answer hw hanswer⟩
  | error d =>
    have hreports := Site.reports_of_answer hanswer
    exact .inr ⟨d, rfl, hreports.not_settles, hreports⟩

end Program

/-- Where a partial function is undefined exactly on the elements with a property, it answers for the
others, in order. -/
theorem forall₂_filterMap {α β : Type} {P : α → Prop} [DecidablePred P] {R : α → β → Prop}
    {f : α → Option β} {as : List α}
    (h : ∀ a ∈ as, (f a = none ∧ P a) ∨ ∃ b, f a = some b ∧ ¬ P a ∧ R a b) :
    List.Forall₂ R (as.filter fun a => ¬ P a) (as.filterMap f) := by
  induction as with
  | nil => exact .nil
  | cons a as ih =>
    have hrest := ih fun b hb => h b (by simp [hb])
    rcases h a (by simp) with ⟨hf, ha⟩ | ⟨b, hf, ha, hr⟩
    · rw [List.filterMap_cons_none hf, List.filter_cons_of_neg (by simpa using ha)]
      exact hrest
    · rw [List.filterMap_cons_some hf, List.filter_cons_of_pos (by simpa using ha)]
      exact .cons hr hrest

namespace Program

/-- **The report of linking is exact.** A program of encoded instructions that ends within the address
space is linked exactly if the names of its labels are distinct and every field that waits for symbols
settles under the final addresses. Otherwise what is reported are the redefinitions, in the order of
the items, and then one diagnostic for each field that does not settle, in the order of the
instructions and of the fields in each. -/
theorem link_reports {p : Program} (hp : p.Encoded) (hstop : p.stop ≤ addressLimit) :
    ((∃ image, p.link = .ok image) ↔
      (p.labelDefs.map LabelDef.name).Nodup ∧ ∀ s ∈ p.sites, s.Settles p.symbolValue?) ∧
    ∃ reports, List.Forall₂ (Site.Reports p.symbolValue?)
        (p.sites.filter fun s => ¬ s.Settles p.symbolValue?) reports ∧
      ∀ d, p.link = .error d ↔ Diagnostic.ofList? (p.redefinitions ++ reports) = some d := by
  have hreports := forall₂_filterMap fun s hs => hp.answer_cases (s := s) hs
  have hlink : p.link = unlessReported p.reports p.image := by
    rw [link_eq, if_neg (Nat.not_lt.2 hstop)]
  rw [hlink, reports_eq]
  refine ⟨?_, _, hreports, fun d => ?_⟩
  · simp only [unlessReported_eq_ok, exists_and_left, exists_eq', and_true, List.append_eq_nil_iff,
      ← duplicates_eq_redefinitions, duplicates_eq_nil]
    refine and_congr_right fun _ => ?_
    rw [← List.length_eq_zero_iff, ← hreports.length_eq, List.length_eq_zero_iff,
      List.filter_eq_nil_iff]
    simp
  · unfold unlessReported
    cases Diagnostic.ofList? _ <;> simp

/-- Two names defined twice; a branch too far, a displacement too large, a jump that settles and a
symbol beyond the signed values. -/
theorem link_reports_redefined :
    ∃ s records,
      Session.load "a: jmp far\n a: mov dword ptr [b], 5\n b: jmp a\n mov rax, lost\n b:" .bits64
        0x7FFFFFFF [("far", 0x7000000000000000), ("lost", 0xF000000000000000)] = .ok s ∧
      s.encodeStrict = .ok records ∧ (s.program records).Encoded ∧
      (s.program records).stop ≤ addressLimit ∧ (s.program records).redefinitions.length = 2 ∧
      ((s.program records).sites.map fun site =>
        decide (site.Settles (s.program records).symbolValue?)) = [false, false, true, false] ∧
      (¬ ∃ image, (s.program records).link = .ok image) ∧
      ∃ reports : List Diagnostic, reports.length = 3 ∧ ∀ d, (s.program records).link = .error d ↔
        Diagnostic.ofList? ((s.program records).redefinitions ++ reports) = some d := by
  have hrun : (do
      let s ← (Session.load "a: jmp far\n a: mov dword ptr [b], 5\n b: jmp a\n mov rax, lost\n b:"
        .bits64 0x7FFFFFFF [("far", 0x7000000000000000), ("lost", 0xF000000000000000)]).toOption
      let records ← s.encodeStrict.toOption
      let p := s.program records
      return (decide (p.stop ≤ addressLimit), p.redefinitions.length,
        p.sites.map fun site => decide (site.Settles p.symbolValue?))) =
        some (true, 2, [false, false, true, false]) := by
    decide +kernel
  simp only [bind, Option.bind_eq_some_iff, Option.pure_def, Option.some.injEq, toOption_eq_some,
    Prod.mk.injEq, decide_eq_true_eq] at hrun
  obtain ⟨s, hs, records, hrec, hstop, hagain, hsettles⟩ := hrun
  have hp := Session.program_encoded hrec
  obtain ⟨hok, reports, hreports, herror⟩ := link_reports hp hstop
  refine ⟨s, records, hs, hrec, hp, hstop, hagain, hsettles, fun hlinked => ?_, reports, ?_, herror⟩
  · have hall := (hok.1 hlinked).2
    have hfalse : false ∈ (s.program records).sites.map fun site =>
        decide (site.Settles (s.program records).symbolValue?) := by simp [hsettles]
    obtain ⟨site, hsite, hno⟩ := List.mem_map.1 hfalse
    exact absurd (hall site hsite) (of_decide_eq_false hno)
  · have hcount : ((s.program records).sites.map fun site =>
        decide (site.Settles (s.program records).symbolValue?)).countP (!·) = 3 := by
      rw [hsettles]
      rfl
    rw [← hreports.length_eq, ← List.countP_eq_length_filter, ← hcount, List.countP_map]
    simp [Function.comp_def]

end Program
end IntelAsm
