/-
The bounds of symbols are bounds of their final addresses. They are found
before anything is encoded, by counting: an instruction in front of a label
takes at least one byte and at most 15. Layout adds up the real sizes, so along
the statements the address stays between the two counts, and every label has
bounds around its place by the time it is passed (`Translated.label_bounds`).
What comes later can only widen them (`Session.addLabelBounds_widens`), which
also covers names that are defined again or are external as well.
-/
import IntelAsm.Proofs.EncodeFacts
import IntelAsm.Proofs.IntervalFacts

namespace IntelAsm

/-! ## Tables -/

namespace Symbols

/-- Every symbol of the first table has bounds in the second, the same or wider. -/
def Widens (t u : Symbols) : Prop :=
  ∀ name b, t.get? name = some b → ∃ c, u.get? name = some c ∧ b.Within c

theorem Widens.refl (t : Symbols) : Widens t t := fun _ b h => ⟨b, h, .refl b⟩

theorem Widens.trans {t u v : Symbols} (h1 : Widens t u) (h2 : Widens u v) : Widens t v := by
  intro name b hb
  obtain ⟨c, hc, hbc⟩ := h1 name b hb
  obtain ⟨d, hd, hcd⟩ := h2 name c hc
  exact ⟨d, hd, hbc.trans hcd⟩

theorem get?_extend_self (t : Symbols) (name : String) (b : Interval) :
    ∃ c, (t.extend name b).get? name = some c ∧ b.Within c := by
  refine ⟨_, get?_define_self t name _, ?_⟩
  split
  · exact Interval.within_union_right _ b
  · exact .refl b

theorem widens_extend (t : Symbols) (name : String) (b : Interval) : Widens t (t.extend name b) := by
  intro other c hc
  rw [extend, get?_define]
  split
  · rename_i heq
    subst heq
    refine ⟨_, rfl, ?_⟩
    rw [hc]
    exact Interval.within_union_left c b
  · exact ⟨c, hc, .refl c⟩

end Symbols

/-! ## Bounds by counting -/

namespace Session

theorem toInt_clamp (address : Nat) :
    (clamp address).toInt = min (address : Int) Int64.maxValue.toInt := by
  have hmin : Int64.minValue.toInt ≤ (address : Int) := by
    rw [Int64.toInt_minValue]
    omega
  by_cases h : (address : Int) ≤ Int64.maxValue.toInt
  · have hok : exact64 address = .ok (Int64.ofInt address) := if_pos ⟨hmin, h⟩
    have hval := exact64_eq_ok_iff.1 hok
    rw [clamp, hok]
    show (Int64.ofInt address).toInt = _
    omega
  · have herr : exact64 address = .error .overflow := if_neg fun hr => h hr.2
    rw [clamp, herr]
    show Int64.maxValue.toInt = _
    omega

theorem mem_clamp {lo address hi : Nat} (h1 : lo ≤ address) (h2 : address ≤ hi) :
    Interval.Mem ⟨clamp lo, clamp hi⟩ (clamp address) := by
  rw [Interval.mem_iff]
  simp only [toInt_clamp]
  omega

/-- Labels further on only widen what the table has. -/
theorem addLabelBounds_widens (base n : Nat) (statements : List Statement) (t : Symbols) :
    t.Widens (addLabelBounds base n statements t) := by
  induction statements generalizing n t with
  | nil => exact .refl t
  | cons statement rest ih =>
    cases statement with
    | label name span =>
      exact (t.widens_extend name _).trans (ih n _)
    | instruction i => exact ih (n + 1) t
    | mode m span => exact ih n t

theorem get?_foldl_define (name : String) {entries : List (String × Nat)}
    (hd : entries.Pairwise fun a b => a.1 ≠ b.1) (t : Symbols) :
    (entries.foldl (fun t entry => t.define entry.1 (.exact (clamp entry.2))) t).get? name =
      ((entries.lookup name).map fun address => .exact (clamp address)).or (t.get? name) := by
  induction entries generalizing t with
  | nil => rfl
  | cons entry rest ih =>
    obtain ⟨n, address⟩ := entry
    obtain ⟨hhead, htail⟩ := List.pairwise_cons.1 hd
    rw [List.foldl_cons, ih htail, Symbols.get?_define, List.lookup_cons]
    by_cases hn : name = n
    · -- No later entry has the name, so the bounds of this one stay.
      subst hn
      have hnone : rest.lookup name = none :=
        List.lookup_eq_none_iff.2 fun p hp => by simpa using hhead p hp
      simp [hnone]
    · simp [hn, beq_eq_false_iff_ne.2 hn]

theorem get?_externalBounds (s : Session) (name : String) :
    s.externalBounds.get? name =
      (s.externals.get? name).map fun address => .exact (clamp address) := by
  have h := get?_foldl_define name s.externals.distinct .empty
  have hempty : Symbols.empty.get? name = none := rfl
  rw [hempty, Option.or_none] at h
  exact h

end Session

/-! ## Labels along a run -/

namespace Translated

variable {symbols : String → Option Interval}

/-- **Where a label can be.** With `c` instructions in front, of one to 15 bytes each, the bounds that
counting gives hold the address that layout gives, whatever the table held before. -/
theorem label_bounds {base : Nat} {mode : Mode} {n : Nat} {statements : List Statement}
    {records : List Record} (h : Translated symbols mode n statements records) {c address : Nat}
    (hlo : base + c ≤ address) (hhi : address ≤ base + c * 15) (t : Symbols) {a : Nat} {name : String}
    {span : Span}
    (ha : (a, Item.label name span) ∈ Program.placeFrom address (records.map Record.item)) :
    ∃ b, (Session.addLabelBounds base c statements t).get? name = some b ∧
      b.Mem (Session.clamp a) := by
  induction h generalizing c address t with
  | nil => simp [Program.placeFrom] at ha
  | @label mode n other span' rest records tail ih =>
    simp only [List.map_cons, Program.placeFrom, List.mem_cons] at ha
    rcases ha with heq | ha
    · cases heq
      obtain ⟨d, hd, hfirst⟩ := Symbols.get?_extend_self t name
        ⟨Session.clamp (base + c), Session.clamp (base + c * 15)⟩
      obtain ⟨b, hb, hwithin⟩ := Session.addLabelBounds_widens base c rest _ name d hd
      exact ⟨b, hb, (hfirst.trans hwithin).mem (Session.mem_clamp hlo hhi)⟩
    · exact ih hlo hhi _ ha
  | mode tail ih => exact ih hlo hhi t ha
  | @instruction mode n i e rest records head tail ih =>
    obtain ⟨hpos, hmax⟩ := ParsedInstruction.size_encode head
    simp only [List.map_cons, Program.placeFrom, List.mem_cons] at ha
    rcases ha with heq | ha
    · cases heq
    · have hsize : (Item.instruction e).size = e.size := rfl
      rw [hsize] at ha
      exact ih (by omega) (by omega) t ha

end Translated

namespace Session

theorem symbols_of_label {s : Session} {records : List Record} (h : s.encodeStrict = .ok records)
    {a : Nat} {name : String} {span : Span}
    (ha : (a, Item.label name span) ∈ (s.program records).place) :
    ∃ b, s.symbols.get? name = some b ∧ b.Mem (clamp a) := by
  exact (encodeStrict_translated h).label_bounds (Nat.le_refl _) (Nat.le_refl _) _ ha

theorem symbols_of_external {s : Session} {a : Nat} {name : String}
    (ha : s.externals.get? name = some a) :
    ∃ b, s.symbols.get? name = some b ∧ b.Mem (clamp a) := by
  have hexact : s.externalBounds.get? name = some (.exact (clamp a)) := by
    rw [get?_externalBounds, ha]
    rfl
  obtain ⟨b, hb, hwithin⟩ := addLabelBounds_widens s.base 0 s.statements s.externalBounds name _ hexact
  exact ⟨b, hb, hwithin.mem (Interval.mem_exact _)⟩

/-- **Bounds hold the final address.** Once all statements are encoded without error, every symbol
that linking can resolve, be it a label at its first definition or an external symbol that no label
hides, has had bounds all along, and its address lies within them. -/
theorem address_mem_symbols {s : Session} {records : List Record} (h : s.encodeStrict = .ok records)
    {name : String} {a : Nat}
    (ha : Program.addressIn (s.program records).labels (s.program records).externals name = some a) :
    ∃ b, s.symbols.get? name = some b ∧ b.Mem (clamp a) := by
  rcases Program.addressIn_eq_some ha with ⟨d, hd, rfl, rfl⟩ | hx
  · exact symbols_of_label h (Program.place_of_mem_labels hd)
  · exact symbols_of_external hx

/-- A label that is defined twice and external besides: its bounds reach from one definition to the
other and further to the external address, and hold the first. -/
theorem address_mem_symbols_redefined :
    ∃ s records, Session.load "a: nop\n a: ret" .bits64 0x7FFFFFFFFFFFFFF0 [("a", 5)] = .ok s ∧
      s.encodeStrict = .ok records ∧
      Program.addressIn (s.program records).labels (s.program records).externals "a" =
        some 0x7FFFFFFFFFFFFFF0 ∧
      ∃ b, s.symbols.get? "a" = some b ∧ b.Mem (clamp 0x7FFFFFFFFFFFFFF0) := by
  have hrun : (do
      let s ← Session.load "a: nop\n a: ret" .bits64 0x7FFFFFFFFFFFFFF0 [("a", 5)]
      let records ← s.encodeStrict
      return Program.addressIn (s.program records).labels (s.program records).externals "a").toOption =
        some (some 0x7FFFFFFFFFFFFFF0) := by
    decide +kernel
  simp only [toOption_eq_some, bind_eq_ok, pure_eq_ok] at hrun
  obtain ⟨s, hs, records, hrec, ha⟩ := hrun
  exact ⟨s, records, hs, hrec, ha, address_mem_symbols hrec ha⟩

end Session
end IntelAsm
