/-
Programs of labels and instructions, and their layout in memory. Every item
starts where the one before it ends; a label takes no room. The layout is a
running sum of sizes, so an address is the base plus the sizes of all items in
front (`Program.place`), and only the last address has to be checked against
the end of the address space.
-/
import IntelAsm.Event
import IntelAsm.Instruction

namespace IntelAsm

/-- A label or an instruction. -/
inductive Item where
  | label (name : String) (span : Span)
  | instruction (instruction : Instruction)
deriving DecidableEq, Inhabited

namespace Item

/-- The number of bytes the item takes. -/
def size : Item → Nat
  | .label .. => 0
  | .instruction i => i.size

/-- The number of bytes that items take together. -/
def sizes : List Item → Nat
  | [] => 0
  | item :: items => item.size + sizes items

@[simp] theorem sizes_append (as bs : List Item) : sizes (as ++ bs) = sizes as + sizes bs := by
  induction as with
  | nil => simp [sizes]
  | cons a as ih =>
    simp only [List.cons_append, sizes, ih]
    omega

end Item

/-- Symbols of other programs and their addresses. Each name has one address. -/
structure Externals where
  entries : List (String × Nat)
  distinct : entries.Pairwise fun a b => a.1 ≠ b.1
deriving DecidableEq

namespace Externals

def empty : Externals := ⟨[], .nil⟩

instance : Inhabited Externals := ⟨empty⟩

theorem distinct_replace {entries : List (String × Nat)}
    (h : entries.Pairwise fun a b => a.1 ≠ b.1) (name : String) (address : Nat) :
    ((name, address) :: entries.filter (·.1 ≠ name)).Pairwise fun a b => a.1 ≠ b.1 := by
  refine .cons (fun entry hmem heq => ?_) (h.filter _)
  exact absurd heq.symm (by simpa using (List.mem_filter.1 hmem).2)

/-- The symbols with one more; an address the name had before is forgotten. -/
def define (x : Externals) (name : String) (address : Nat) : Externals :=
  ⟨(name, address) :: x.entries.filter (·.1 ≠ name), distinct_replace x.distinct name address⟩

def get? (x : Externals) (name : String) : Option Nat := x.entries.lookup name

theorem get?_define_self (x : Externals) (name : String) (address : Nat) :
    (x.define name address).get? name = some address := by
  simp [define, get?]

end Externals

/-- Items to be laid out from a base address on. -/
structure Program where
  base : Nat
  externals : Externals
  items : List Item
deriving DecidableEq, Inhabited

/-- A label where it is defined. -/
structure LabelDef where
  name : String
  address : Nat
  span : Span
deriving DecidableEq, Inhabited

namespace Program

/-- The program without items. -/
def empty : Program := ⟨0, .empty, []⟩

/-- The program with one more item behind the others. -/
def add (p : Program) (item : Item) : Program := { p with items := p.items ++ [item] }

/-- Items with their addresses, the first at `address`. -/
def placeFrom : Nat → List Item → List (Nat × Item)
  | _, [] => []
  | address, item :: items => (address, item) :: placeFrom (address + item.size) items

theorem placeFrom_append (address : Nat) (as bs : List Item) :
    placeFrom address (as ++ bs) =
      placeFrom address as ++ placeFrom (address + Item.sizes as) bs := by
  induction as generalizing address with
  | nil => simp [placeFrom, Item.sizes]
  | cons a as ih => simp [placeFrom, Item.sizes, ih, Nat.add_assoc]

/-- The items with their addresses. -/
def place (p : Program) : List (Nat × Item) := placeFrom p.base p.items

/-- The first address behind the program. -/
def stop (p : Program) : Nat := p.base + Item.sizes p.items

/-- The instructions with their addresses. -/
def instructions (p : Program) : List (Nat × Instruction) :=
  p.place.filterMap fun
    | (address, .instruction i) => some (address, i)
    | _ => none

/-- The labels with their addresses, those of a name defined before included. -/
def labelDefs (p : Program) : List LabelDef :=
  p.place.filterMap fun
    | (address, .label name span) => some ⟨name, address, span⟩
    | _ => none

/-- First definitions and redefinitions, apart. A redefinition goes with the first definition of
its name. `seen` are the first definitions in front. -/
def splitDefs (seen : List LabelDef) : List LabelDef → List LabelDef × List (LabelDef × LabelDef)
  | [] => ([], [])
  | d :: ds =>
    match seen.find? (·.name = d.name) with
    | some first =>
      let (firsts, again) := splitDefs seen ds
      (firsts, (d, first) :: again)
    | none =>
      let (firsts, again) := splitDefs (seen ++ [d]) ds
      (d :: firsts, again)

/-- The first definition of each label. -/
def labels (p : Program) : List LabelDef := (splitDefs [] p.labelDefs).1

/-- One diagnostic for each redefinition of a label. -/
def duplicates (p : Program) : List Diagnostic :=
  (splitDefs [] p.labelDefs).2.map fun (d, first) => .duplicateLabel d.name d.span first.span

/-- Addresses have 64 bits. -/
def addressLimit : Nat := UInt64.size - 1

/-- The address of a symbol: a label's, or else that of an external symbol. -/
def addressIn (labels : List LabelDef) (externals : Externals) (name : String) : Option Nat :=
  ((labels.find? (·.name = name)).map LabelDef.address).orElse fun _ => externals.get? name

/-- The value of a symbol in expressions. An address beyond the signed
values has none. -/
def valueIn (labels : List LabelDef) (externals : Externals) (name : String) : Option Int64 :=
  (addressIn labels externals name).bind fun a => (exact64 a).toOption

/-- The value of a symbol under the final addresses. -/
def value? (p : Program) (name : String) : Option Int64 := valueIn p.labels p.externals name

/-- The report of a finished layout. -/
def layoutEvents (p : Program) : List Event :=
  if p.stop ≤ addressLimit then
    [.laidOut p.labels.length p.instructions.length p.base p.stop]
  else []

end Program
end IntelAsm
