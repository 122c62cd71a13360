/-
The forms that addresses are encoded in. Each function of the encoder has one
inversion here, which says which cases it distinguishes and what it leaves in
each: the displacement fields (`Memory.dispField_eq_ok`, `Memory.dispForm_eq_ok`),
the two kinds of forms (`Memory.encodeWide_eq_ok`, `Memory.encodeWord_eq_ok`) and
the choice between them (`Memory.encode_eq_ok`).
-/
import Mathlib
import IntelAsm.Encoding.Address
import IntelAsm.Proofs.Failure

namespace IntelAsm

theorem scaleCode_eq_ok {scale : Int64} {code : Nat} (h : scaleCode scale = .ok code) :
    code < 4 ∧ scale.toInt = 2 ^ code := by
  unfold scaleCode at h
  split at h
  · rename_i hs; subst hs; cases h; decide
  split at h
  · rename_i hs; subst hs; cases h; decide
  split at h
  · rename_i hs; subst hs; cases h; decide
  split at h
  · rename_i hs; subst hs; cases h; decide
  · cases h

namespace Memory

/-! ## Displacements -/

theorem disp_cases (m : Memory) :
    m.disp = none ∨ (∃ d v, m.disp = some d ∧ d.value = .fixed v) ∨
      ∃ d e b, m.disp = some d ∧ d.value = .symbolic e b := by
  cases hd : m.disp with
  | none => exact .inl rfl
  | some d =>
    cases hv : d.value with
    | fixed v => exact .inr (.inl ⟨d, v, rfl, hv⟩)
    | symbolic e b => exact .inr (.inr ⟨d, e, b, rfl, hv⟩)

/-- A displacement field: none, a known value that it takes, or one to be resolved. -/
theorem dispField_eq_ok {m : Memory} {w : Width} {takes : Int → Bool} {pcRelative signed : Bool}
    {f : Field} (h : m.dispField w takes pcRelative signed = .ok f) :
    (m.disp = none ∧ f = .fixed w.bytes 0) ∨
      (∃ d v, m.disp = some d ∧ d.value = .fixed v ∧ f = .fixed w.bytes v ∧ takes v.toInt = true) ∨
      ∃ d e b, m.disp = some d ∧ d.value = .symbolic e b ∧
        f = { Field.later w.bytes e pcRelative with signed } := by
  unfold dispField at h
  rcases m.disp_cases with hd | ⟨d, v, hd, hv⟩ | ⟨d, e, b, hd, hv⟩
  · rw [hd] at h
    cases h
    exact .inl ⟨hd, rfl⟩
  · simp only [hd, Option.map_some, hv] at h
    split at h
    · rename_i hr
      cases h
      exact .inr (.inl ⟨d, v, hd, hv, rfl, hr⟩)
    · cases h
  · simp only [hd, Option.map_some, hv] at h
    cases h
    exact .inr (.inr ⟨d, e, b, hd, hv, rfl⟩)

/-- Behind a base: no displacement where none is needed, a small known one in a byte, or the wide
one. -/
theorem dispForm_eq_ok {m : Memory} {rm noneCode modBits : Nat} {wide : Except EncodingError Field}
    {f : Field} (h : m.dispForm rm noneCode wide = .ok (modBits, f)) :
    (m.hasNoDisp = true ∧ rm ≠ noneCode ∧ modBits = 0 ∧ f = .absent) ∨
      (m.hasNoDisp = true ∧ modBits = 1 ∧ f = .fixed 1 0) ∨
      (∃ d v, m.disp = some d ∧ d.fixed? = some v ∧ Width.byte.FitsSigned v.toInt ∧ modBits = 1 ∧
        f = .fixed 1 v) ∨
      (modBits = 2 ∧ wide = .ok f) := by
  unfold dispForm at h
  split at h
  · rename_i hz
    rw [Except.ok.injEq] at h
    split at h
    · cases h
      exact .inr (.inl ⟨hz, rfl, rfl⟩)
    · rename_i hne
      cases h
      exact .inl ⟨hz, hne, rfl, rfl⟩
  · split at h
    · rename_i v hv
      split at h
      · rename_i hr
        cases h
        obtain ⟨d, hd, hf⟩ := Option.bind_eq_some_iff.1 hv
        exact .inr (.inr (.inl ⟨d, v, hd, hf, hr, rfl, rfl⟩))
      · obtain ⟨g, hg, heq⟩ := map_eq_ok.1 h
        cases heq
        exact .inr (.inr (.inr ⟨rfl, hg⟩))
    · obtain ⟨g, hg, heq⟩ := map_eq_ok.1 h
      cases heq
      exact .inr (.inr (.inr ⟨rfl, hg⟩))

/-! ## Forms -/

theorem indexCodes_eq_ok {m : Memory} {index : Option (Nat × Nat)} (h : m.indexCodes = .ok index) :
    (m.index = none ∧ index = none) ∨
      ∃ i code, m.index = some i ∧ scaleCode i.scale = .ok code ∧
        (i.register.code = 4 → i.register.isExtended = true) ∧
        index = some (code, i.register.code) := by
  unfold indexCodes at h
  split at h
  · rename_i hi
    cases h
    exact .inl ⟨hi, rfl⟩
  · rename_i i hi
    rw [bind_eq_ok] at h
    obtain ⟨code, hcode, h⟩ := h
    rw [guard_eq_ok] at h
    obtain ⟨hreg, h⟩ := h
    cases h
    exact .inr ⟨i, code, hi, hcode, fun h4 => by simpa [h4] using hreg, rfl⟩

theorem dispForm_modBits_lt {m : Memory} {rm noneCode modBits : Nat}
    {wide : Except EncodingError Field} {f : Field}
    (h : m.dispForm rm noneCode wide = .ok (modBits, f)) : modBits < 3 := by
  rcases dispForm_eq_ok h with ⟨-, -, rfl, -⟩ | ⟨-, rfl, -⟩ | ⟨-, -, -, -, -, rfl, -⟩ | ⟨rfl, -⟩ <;>
    decide

theorem disp_absoluteForm (m : Memory) (address : Width) (mode : Mode) (index : Option (Nat × Nat))
    (disp : Field) : (m.absoluteForm address mode index disp).disp = disp := by
  unfold absoluteForm
  split
  · rfl
  · split <;> rfl

theorem disp_basedForm (m : Memory) (address : Width) (base : Register) (index : Option (Nat × Nat))
    (modBits : Nat) (disp : Field) : (m.basedForm address base index modBits disp).disp = disp := by
  unfold basedForm
  split
  · rfl
  · split <;> rfl

/-- An address of 32 or 64 bits: without base, relative to the instruction, or with a base. -/
theorem encodeWide_eq_ok {m : Memory} {address : Width} {mode : Mode} {a : AddressForm}
    (h : m.encodeWide address mode = .ok a) :
    ∃ index, m.indexCodes = .ok index ∧
      ((m.base = none ∧ ∃ disp, m.disp32 address false = .ok disp ∧
          a = m.absoluteForm address mode index disp) ∨
        (∃ base, m.base = some base ∧ base.isPointer = true ∧ index = none ∧ mode = .bits64 ∧
          ∃ disp, m.disp32 address true = .ok disp ∧ a = ⟨address, 0, 5, none, disp, .free, .free⟩) ∨
        ∃ base, m.base = some base ∧ base.isAddress = true ∧ ∃ modBits disp,
          m.dispForm base.code 5 (m.disp32 address false) = .ok (modBits, disp) ∧
          a = m.basedForm address base index modBits disp) := by
  simp only [encodeWide, bind_eq_ok] at h
  obtain ⟨index, hindex, h⟩ := h
  refine ⟨index, hindex, ?_⟩
  split at h
  · rename_i hbase
    rw [bind_eq_ok] at h
    obtain ⟨disp, hdisp, h⟩ := h
    rw [pure_eq_ok] at h
    exact .inl ⟨hbase, disp, hdisp, h.symm⟩
  · rename_i base hbase
    split at h
    · rename_i hptr
      rw [guard_eq_ok, guard_eq_ok, bind_eq_ok] at h
      obtain ⟨hidx, hmode, disp, hdisp, h⟩ := h
      rw [pure_eq_ok] at h
      exact .inr (.inl ⟨base, hbase, hptr, by simpa using hidx, by simpa using hmode, disp, hdisp,
        h.symm⟩)
    · rw [guard_eq_ok, bind_eq_ok] at h
      obtain ⟨haddr, ⟨modBits, disp⟩, hform, h⟩ := h
      rw [pure_eq_ok] at h
      exact .inr (.inr ⟨base, hbase, by simpa using haddr, modBits, disp, hform, h.symm⟩)

theorem mem_of_lookup_wordPairs {pair : Option Register × Option Register} {rm : Nat}
    (h : wordPairs.lookup pair = some rm) : (pair, rm) ∈ wordPairs := by
  obtain ⟨before, after, heq, -⟩ := List.lookup_eq_some_iff.1 h
  rw [heq]
  simp

theorem wordPair?_eq_some {base index : Option Register} {rm : Nat}
    (h : wordPair? base index = some rm) :
    ((base, index), rm) ∈ wordPairs ∨ ((index, base), rm) ∈ wordPairs := by
  rw [wordPair?, Option.or_eq_some_iff] at h
  rcases h with h | ⟨-, h⟩
  · exact .inl (mem_of_lookup_wordPairs h)
  · exact .inr (mem_of_lookup_wordPairs h)

/-- A pair of registers with an r/m code stands in the table, in one of the two orders. -/
theorem wordCode_eq_ok {base index : Option Register} {code : Option Nat}
    (h : wordCode base index = .ok code) :
    (base = none ∧ index = none ∧ code = none) ∨
      ∃ rm, code = some rm ∧ (((base, index), rm) ∈ wordPairs ∨ ((index, base), rm) ∈ wordPairs) := by
  unfold wordCode at h
  split at h
  · cases h
    exact .inl ⟨rfl, rfl, rfl⟩
  all_goals
    split at h
    · rename_i rm hrm
      cases h
      exact .inr ⟨rm, rfl, wordPair?_eq_some hrm⟩
    · cases h

theorem checkScale_eq_ok {m : Memory} (h : m.checkScale = .ok ()) : ∀ i ∈ m.index, i.scale = 1 := by
  intro i hi
  simp only [checkScale, Option.mem_def.1 hi, guard_eq_ok] at h
  simpa using h.1

theorem checkWidths_eq_ok {m : Memory} {address : Width} (h : m.checkWidths address = .ok ()) :
    (∀ base ∈ m.base, base.width = address) ∧ ∀ i ∈ m.index, i.register.width = address := by
  unfold checkWidths at h
  split at h
  · cases h
  · cases h
  · rename_i hbase hindex
    rw [Option.filter_eq_none_iff] at hbase hindex
    exact ⟨fun base hb => by simpa using hbase base hb, fun i hi => by simpa using hindex i hi⟩

/-- An address of 16 bits: a displacement alone, or one of the pairs of registers. -/
theorem encodeWord_eq_ok {m : Memory} {mode : Mode} {a : AddressForm}
    (h : m.encodeWord mode = .ok a) :
    mode ≠ .bits64 ∧ (∀ i ∈ m.index, i.scale = 1) ∧
      ((m.base = none ∧ m.index = none ∧ ∃ disp, m.disp16 = .ok disp ∧
          a = ⟨.word, 0, 6, none, disp, .free, .free⟩) ∨
        ∃ rm, (((m.base, m.index.map Index.register), rm) ∈ wordPairs ∨
            ((m.index.map Index.register, m.base), rm) ∈ wordPairs) ∧
          ∃ modBits disp, m.dispForm rm 6 m.disp16 = .ok (modBits, disp) ∧
            a = ⟨.word, modBits, rm, none, disp, .free, .free⟩) := by
  unfold encodeWord at h
  rw [guard_eq_ok] at h
  obtain ⟨hmode, h⟩ := h
  simp only [bind_eq_ok] at h
  obtain ⟨⟨⟩, hscale, code, hcode, h⟩ := h
  refine ⟨hmode, checkScale_eq_ok hscale, ?_⟩
  rcases wordCode_eq_ok hcode with ⟨hbase, hindex, rfl⟩ | ⟨rm, rfl, hpair⟩
  · simp only [bind_eq_ok, pure_eq_ok] at h
    obtain ⟨disp, hdisp, rfl⟩ := h
    exact .inl ⟨hbase, Option.map_eq_none_iff.1 hindex, disp, hdisp, rfl⟩
  · simp only [bind_eq_ok, pure_eq_ok] at h
    obtain ⟨⟨modBits, disp⟩, hform, rfl⟩ := h
    exact .inr ⟨rm, hpair, modBits, disp, hform, rfl⟩

theorem encodeWide_width {m : Memory} {address : Width} {mode : Mode} {a : AddressForm}
    (h : m.encodeWide address mode = .ok a) : a.width = address := by
  obtain ⟨index, -, h⟩ := encodeWide_eq_ok h
  rcases h with ⟨-, disp, -, rfl⟩ | ⟨base, -, -, -, -, disp, -, rfl⟩ | ⟨base, -, -, modBits, disp, -, rfl⟩
  · unfold absoluteForm
    split
    · rfl
    · split <;> rfl
  · rfl
  · unfold basedForm
    split
    · rfl
    · split <;> rfl

theorem encodeWord_width {m : Memory} {mode : Mode} {a : AddressForm}
    (h : m.encodeWord mode = .ok a) : a.width = .word := by
  obtain ⟨-, -, h⟩ := encodeWord_eq_ok h
  rcases h with ⟨-, -, disp, -, rfl⟩ | ⟨rm, -, modBits, disp, -, rfl⟩
  · rfl
  · rfl

/-- The form of an address is one of its width, and all its registers have that width. -/
theorem encode_eq_ok {m : Memory} {mode : Mode} {a : AddressForm} (h : m.encode mode = .ok a) :
    a.width = m.effectiveWidth mode ∧ (∀ base ∈ m.base, base.width = a.width) ∧
      (∀ i ∈ m.index, i.register.width = a.width) ∧
      ((a.width = .word ∧ m.encodeWord mode = .ok a) ∨
        (a.width = .dword ∧ m.encodeWide .dword mode = .ok a) ∨
        (a.width = .qword ∧ mode = .bits64 ∧ m.encodeWide .qword mode = .ok a)) := by
  simp only [encode, bind_eq_ok] at h
  obtain ⟨⟨⟩, hwidths, h⟩ := h
  have hkind : a.width = m.effectiveWidth mode ∧
      ((a.width = .word ∧ m.encodeWord mode = .ok a) ∨
        (a.width = .dword ∧ m.encodeWide .dword mode = .ok a) ∨
        (a.width = .qword ∧ mode = .bits64 ∧ m.encodeWide .qword mode = .ok a)) := by
    split at h
    · rename_i hw
      have ha := encodeWord_width h
      exact ⟨by rw [ha, hw], .inl ⟨ha, h⟩⟩
    · rename_i hw
      have ha := encodeWide_width h
      exact ⟨by rw [ha, hw], .inr (.inl ⟨ha, h⟩)⟩
    · rename_i hw
      rw [guard_eq_ok] at h
      obtain ⟨hmode, h⟩ := h
      have ha := encodeWide_width h
      exact ⟨by rw [ha, hw], .inr (.inr ⟨ha, by simpa using hmode, h⟩)⟩
    · cases h
  obtain ⟨hbase, hindex⟩ := checkWidths_eq_ok hwidths
  rw [← hkind.1] at hbase hindex
  exact ⟨hkind.1, hbase, hindex, hkind.2⟩

/-- The mode part of an address is never that of a register. -/
theorem encode_mode_lt {m : Memory} {mode : Mode} {a : AddressForm} (h : m.encode mode = .ok a) :
    a.mode < 3 := by
  have hwide : ∀ {w}, m.encodeWide w mode = .ok a → a.mode < 3 := by
    intro w hw
    obtain ⟨index, -, hw⟩ := encodeWide_eq_ok hw
    rcases hw with ⟨-, disp, -, rfl⟩ | ⟨base, -, -, -, -, disp, -, rfl⟩ |
      ⟨base, -, -, modBits, disp, hd, rfl⟩
    · unfold absoluteForm
      split
      · exact Nat.zero_lt_succ 2
      · split <;> exact Nat.zero_lt_succ 2
    · exact Nat.zero_lt_succ 2
    · have hlt := dispForm_modBits_lt hd
      unfold basedForm
      split
      · exact hlt
      · split <;> exact hlt
  obtain ⟨-, -, -, ⟨-, h⟩ | ⟨-, h⟩ | ⟨-, -, h⟩⟩ := encode_eq_ok h
  · obtain ⟨-, -, ⟨-, -, disp, -, rfl⟩ | ⟨rm, -, modBits, disp, hd, rfl⟩⟩ := encodeWord_eq_ok h
    · exact Nat.zero_lt_succ 2
    · exact dispForm_modBits_lt hd
  · exact hwide h
  · exact hwide h

/-- **Where displacements come from**, as a rule for their properties: there is none, a small value in
a byte, or one of the two wide fields. The property may speak of the width of the address. -/
theorem encode_disp {m : Memory} {mode : Mode} {a : AddressForm} {P : Width → Field → Prop}
    (absent : ∀ w, P w .absent)
    (byte : ∀ w v, Width.byte.FitsSigned v.toInt → P w (.fixed 1 v))
    (double : ∀ w pcRelative f, m.disp32 w pcRelative = .ok f → P w f)
    (word : ∀ f, m.disp16 = .ok f → P .word f) (h : m.encode mode = .ok a) : P a.width a.disp := by
  have hform : ∀ {w rm noneCode modBits wide f}, (∀ g, wide = .ok g → P w g) →
      m.dispForm rm noneCode wide = .ok (modBits, f) → P w f := by
    intro w rm noneCode modBits wide f hwide hf
    rcases dispForm_eq_ok hf with ⟨-, -, -, rfl⟩ | ⟨-, -, rfl⟩ | ⟨d, v, -, -, hr, -, rfl⟩ | ⟨-, hw⟩
    · exact absent w
    · exact byte w 0 (by decide)
    · exact byte w v hr
    · exact hwide f hw
  have hwide : ∀ {w}, m.encodeWide w mode = .ok a → P w a.disp := by
    intro w hw
    obtain ⟨index, -, hw⟩ := encodeWide_eq_ok hw
    rcases hw with ⟨-, disp, hd, rfl⟩ | ⟨base, -, -, -, -, disp, hd, rfl⟩ |
      ⟨base, -, -, modBits, disp, hd, rfl⟩
    · rw [disp_absoluteForm]
      exact double w false disp hd
    · exact double w true disp hd
    · rw [disp_basedForm]
      exact hform (double w false) hd
  obtain ⟨-, -, -, h⟩ := encode_eq_ok h
  rcases h with ⟨hw, h⟩ | ⟨hw, h⟩ | ⟨hw, -, h⟩
  · rw [hw]
    obtain ⟨-, -, h⟩ := encodeWord_eq_ok h
    rcases h with ⟨-, -, disp, hd, rfl⟩ | ⟨rm, -, modBits, disp, hd, rfl⟩
    · exact word disp hd
    · exact hform word hd
  · rw [hw]
    exact hwide h
  · rw [hw]
    exact hwide h

end Memory
end IntelAsm
