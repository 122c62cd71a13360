/-
Plain data, for handing values to other programs and taking them back. A
structure is a record of its fields; on the way back it may also be a list of
them in order, unknown fields are passed over, and a field that is missing
reads as null. An alternative is its name, or a record of its name and its
content. Where an alternative names its own fields, its content is a record of
them and never a list. Every reader answers `none` to data of another form.
-/
namespace IntelAsm

/-- Plain data. A number that is not a whole number has no form here and is only `real`. -/
inductive Data where
  | null
  | bool (value : Bool)
  | int (value : Int)
  | real
  | text (value : String)
  | list (items : List Data)
  | record (fields : List (String × Data))
deriving Inhabited

namespace Data

/-! ## Writing -/

def ofNat (n : Nat) : Data := .int n

def ofInt64 (v : Int64) : Data := .int v.toInt

def ofByte (b : UInt8) : Data := .int b.toNat

def ofOption {α : Type} (write : α → Data) : Option α → Data
  | none => .null
  | some a => write a

def ofList {α : Type} (write : α → Data) (as : List α) : Data := .list (as.map write)

/-- An alternative with content. -/
def tagged (name : String) (content : Data) : Data := .record [(name, content)]

/-! ## Reading -/

def bool? : Data → Option Bool
  | .bool b => some b
  | _ => none

def text? : Data → Option String
  | .text s => some s
  | _ => none

def int? : Data → Option Int
  | .int n => some n
  | _ => none

def list? : Data → Option (List Data)
  | .list items => some items
  | _ => none

/-- A whole number from `lo` up to, and without, `hi`. -/
def intIn? (lo hi : Int) (d : Data) : Option Int := d.int?.filter fun n => lo ≤ n ∧ n < hi

/-- A natural number of so many bits. -/
def nat? (bits : Nat) (d : Data) : Option Nat :=
  (d.intIn? 0 (1 <<< bits : Nat)).map Int.toNat

/-- A signed number of so many bits and one more for the sign. -/
def signed? (bits : Nat) (d : Data) : Option Int :=
  let bound : Nat := 1 <<< bits
  d.intIn? (-bound) bound

def int64? (d : Data) : Option Int64 := (d.signed? 63).map Int64.ofInt

/-- A signed number of 128 bits. -/
def int128? (d : Data) : Option Int := d.signed? 127

def byte? (d : Data) : Option UInt8 := (d.nat? 8).map UInt8.ofNat

def option? {α : Type} (read : Data → Option α) : Data → Option (Option α)
  | .null => some none
  | d => (read d).map some

def listOf? {α : Type} (read : Data → Option α) (d : Data) : Option (List α) := do
  (← d.list?).mapM read

/-- The fields of a record, in the order of `names`. -/
def recordFields? (names : List String) : Data → Option (List Data)
  | .record fields => some (names.map fun n => (fields.lookup n).getD .null)
  | _ => none

/-- The fields of a structure, in the order of `names`. -/
def fields? (names : List String) : Data → Option (List Data)
  | .list items => if items.length = names.length then some items else none
  | d => d.recordFields? names

/-- The name of an alternative and its content, which is null if there is none. -/
def variant? : Data → Option (String × Data)
  | .text name => some (name, .null)
  | .record [(name, content)] => some (name, content)
  | _ => none

/-- One of several named values without content. -/
def named? {α : Type} (names : List (String × α)) (d : Data) : Option α :=
  match d.variant? with
  | some (name, .null) => names.lookup name
  | _ => none

mutual

/-- The depth of nesting. -/
def depth : Data → Nat
  | .list items => 1 + listDepth items
  | .record fields => 1 + fieldsDepth fields
  | _ => 1

/-- The greatest depth of the items. -/
def listDepth : List Data → Nat
  | [] => 0
  | d :: ds => max d.depth (listDepth ds)

/-- The greatest depth of the fields. -/
def fieldsDepth : List (String × Data) → Nat
  | [] => 0
  | f :: fs => max (fieldDepth f) (fieldsDepth fs)

/-- The depth of a field. -/
def fieldDepth : String × Data → Nat
  | (_, d) => d.depth

end

end Data
end IntelAsm
