/-
Fields of an instruction: displacement, immediate and branch distance. A field
has a size in bytes and a value; if the value depends on symbols, the field
keeps the expression, and whether it counts from the end of the instruction.
The bytes of a field are its value's, least significant first.
-/
import IntelAsm.Operand

namespace IntelAsm

/-- The `n` low bytes of an integer, least significant first. -/
def littleEndian : Nat → Int → List UInt8
  | 0, _ => []
  | n + 1, v => UInt8.ofNat (v % 256).toNat :: littleEndian n (v / 256)

@[simp] theorem length_littleEndian (n : Nat) (v : Int) : (littleEndian n v).length = n := by
  induction n generalizing v with
  | zero => rfl
  | succ n ih => simp [littleEndian, ih]

/-- A field; one of size 0 is absent. -/
structure Field where
  size : Nat
  value : Int64
  deferred : Option Expr
  pcRelative : Bool
  signed : Bool
deriving DecidableEq, Inhabited

namespace Field

/-- The field that is not there. -/
def absent : Field := ⟨0, 0, none, false, false⟩

def fixed (size : Nat) (value : Int64) : Field := ⟨size, value, none, false, false⟩

/-- A field to be filled in later. A distance from the instruction is signed. -/
def later (size : Nat) (e : Expr) (pcRelative : Bool) : Field :=
  ⟨size, 0, some e, pcRelative, pcRelative⟩

/-- The field of an immediate. -/
def ofImmediate (size : Nat) (i : Immediate) (signed : Bool) : Field :=
  match i.value with
  | .fixed v => { fixed size v with signed }
  | .symbolic e _ => { later size e false with signed }

def isPresent (f : Field) : Bool := 0 < f.size

def isDeferred (f : Field) : Bool := f.deferred.isSome

def bytes (f : Field) : List UInt8 := littleEndian f.size f.value.toInt

@[simp] theorem length_bytes (f : Field) : f.bytes.length = f.size := length_littleEndian ..

end Field
end IntelAsm
