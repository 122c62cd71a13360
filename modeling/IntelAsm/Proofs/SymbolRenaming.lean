/-
Names are names only. A renaming of symbols that keeps them apart, from each
other and from the registers, changes nothing in what a session is assembled
to but the names of the labels (`Session.finish_rename`).
-/
import IntelAsm.Proofs.SessionCode

namespace IntelAsm

/-- New names for symbols, different ones for different symbols. Registers keep their names, in
either case, and no symbol gets the name of one. -/
structure Renaming where
  name : String → String
  register : ∀ n, (Register.ofName? n).isSome → name n = n
  symbol : ∀ n, Register.ofName? n = none → Register.ofName? (name n) = none
  injective : Function.Injective name

namespace Renaming

/-- Two symbols with their names exchanged. -/
def swap (a b : String) (ha : Register.ofName? a = none) (hb : Register.ofName? b = none) :
    Renaming where
  name := Equiv.swap a b
  register n hn := by
    refine Equiv.swap_apply_of_ne_of_ne ?_ ?_
    · rintro rfl
      simp [ha] at hn
    · rintro rfl
      simp [hb] at hn
  symbol n hn := by
    rw [Equiv.swap_apply_def]
    split
    · exact hb
    · split
      · exact ha
      · exact hn
  injective := (Equiv.swap a b).injective

theorem ofName?_name (ρ : Renaming) (n : String) :
    Register.ofName? (ρ.name n) = Register.ofName? n := by
  cases h : Register.ofName? n with
  | none => exact ρ.symbol n h
  | some reg => rw [ρ.register n (by simp [h]), h]

end Renaming

/-- External symbols under new names. -/
def Externals.rename (ρ : Renaming) (x : Externals) : Externals where
  entries := x.entries.map (Prod.map ρ.name id)
  distinct := List.pairwise_map.2 (x.distinct.imp fun h hsame => h (ρ.injective hsame))

theorem Externals.get?_rename (ρ : Renaming) (x : Externals) (n : String) :
    (x.rename ρ).get? (ρ.name n) = x.get? n := by
  simp only [get?, rename]
  induction x.entries with
  | nil => rfl
  | cons entry rest ih =>
    obtain ⟨other, address⟩ := entry
    have hname : (ρ.name n == ρ.name other) = (n == other) := by
      rw [Bool.eq_iff_iff, beq_iff_eq, beq_iff_eq, ρ.injective.eq_iff]
    simp only [List.map_cons, Prod.map_apply, List.lookup_cons, hname, ih, id_eq]

namespace Session

/-- The session with new names for labels, external symbols and variables. -/
def rename (ρ : Renaming) (s : Session) : Session :=
  { s with
    externals := s.externals.rename ρ
    entries := s.entries.map fun e => { e with statement := e.statement.revise (.ofNames ρ.name) } }

/-- **Symbols can be renamed.** The session with new names comes to an end exactly if the session
does, with the same bytes and instruction addresses and with its labels, in order, at the same
addresses. -/
theorem finish_rename (ρ : Renaming) (s : Session) :
    (s.rename ρ).finish.toOption.map Assembly.code =
      s.finish.toOption.map fun a =>
        (a.bytes, a.labels.map (Prod.map ρ.name id), a.instructions.map Prod.fst) := by
  have hrevised : Revised (.ofNames ρ.name) s (s.rename ρ) :=
    { bounds := rfl
      register := ρ.ofName?_name
      labels := fun _ _ _ hsame => ρ.injective hsame
      statements := by simp only [statements, rename, List.map_map]; rfl
      externals := s.externals.get?_rename ρ
      errors := rfl
      mode := rfl
      base := rfl
      limits := rfl }
  rw [finish_code, hrevised.code, ← finish_code, Option.map_map]
  rfl

/-- Two labels that jump to each other, exchanged: the code is the same, and each name is at the
address of the other. -/
theorem finish_rename_swapped :
    ∃ (ρ : Renaming) (s : Session),
      ρ = .swap "a" "b" (by decide +kernel) (by decide +kernel) ∧
      s = ((new .bits64).emit "a: jmp b\nnop\nb: jmp a").session ∧
      s.finish.toOption.map Assembly.code =
        some ([0xE9, 1, 0, 0, 0, 0x90, 0xE9, 0xF5, 0xFF, 0xFF, 0xFF], [("a", 0), ("b", 6)],
          [0, 5, 6]) ∧
      (s.rename ρ).finish.toOption.map Assembly.code =
        some ([0xE9, 1, 0, 0, 0, 0x90, 0xE9, 0xF5, 0xFF, 0xFF, 0xFF], [("b", 0), ("a", 6)],
          [0, 5, 6]) :=
  ⟨_, _, rfl, rfl, by decide +kernel, (finish_rename _ _).trans (by decide +kernel)⟩

end Session
end IntelAsm
