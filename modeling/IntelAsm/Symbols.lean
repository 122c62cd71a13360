/-
The table of symbols with the bounds of their addresses, in the order of the
names' bytes. A second definition of a name replaces the first.
-/
import IntelAsm.Interval

namespace IntelAsm

/-- Symbols and their bounds, ordered by name. -/
structure Symbols where
  entries : List (String × Interval)
deriving DecidableEq, Inhabited

namespace Symbols

def empty : Symbols := ⟨[]⟩

/-- The entries with one more, or with one replaced. -/
def insertEntry (name : String) (bounds : Interval) :
    List (String × Interval) → List (String × Interval)
  | [] => [(name, bounds)]
  | (n, b) :: rest =>
    if name = n then (name, bounds) :: rest
    else if name < n then (name, bounds) :: (n, b) :: rest
    else (n, b) :: insertEntry name bounds rest

/-- The table with `name` bounded by `bounds`. -/
def define (t : Symbols) (name : String) (bounds : Interval) : Symbols :=
  ⟨insertEntry name bounds t.entries⟩

/-- The bounds of a name. -/
def get? (t : Symbols) (name : String) : Option Interval := t.entries.lookup name

/-- The table with one more definition of `name`: its bounds reach over all definitions. -/
def extend (t : Symbols) (name : String) (bounds : Interval) : Symbols :=
  t.define name (match t.get? name with
    | some earlier => earlier.union bounds
    | none => bounds)

theorem lookup_cons (other name : String) (bounds : Interval) (rest : List (String × Interval)) :
    ((name, bounds) :: rest).lookup other =
      if other = name then some bounds else rest.lookup other := by
  rw [List.lookup_cons]
  by_cases h : other = name
  · simp [h]
  · simp [h, beq_eq_false_iff_ne.2 h]

theorem lookup_insertEntry (name other : String) (bounds : Interval)
    (entries : List (String × Interval)) :
    (insertEntry name bounds entries).lookup other =
      if other = name then some bounds else entries.lookup other := by
  induction entries with
  | nil => simp only [insertEntry, lookup_cons]
  | cons entry rest ih =>
    obtain ⟨n, b⟩ := entry
    unfold insertEntry
    by_cases hn : name = n
    · subst hn
      by_cases h : other = name <;> simp [lookup_cons, h]
    · rw [if_neg hn]
      by_cases hlt : name < n
      · rw [if_pos hlt, lookup_cons]
      · rw [if_neg hlt, lookup_cons, lookup_cons, ih]
        by_cases ho : other = n
        · subst ho
          simp [Ne.symm hn]
        · simp [ho]

/-- A name has the bounds of its last definition, and the others keep theirs. -/
theorem get?_define (t : Symbols) (name other : String) (bounds : Interval) :
    (t.define name bounds).get? other = if other = name then some bounds else t.get? other :=
  lookup_insertEntry name other bounds t.entries

theorem get?_define_self (t : Symbols) (name : String) (bounds : Interval) :
    (t.define name bounds).get? name = some bounds := by
  rw [get?_define, if_pos rfl]

def size (t : Symbols) : Nat := t.entries.length

end Symbols
end IntelAsm
