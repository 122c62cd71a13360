/-
Lists that grow on request. Room is asked for before it is used, and a request
for more bytes than an address space holds is refused with the number of
elements asked for.
-/
import IntelAsm.Error

namespace IntelAsm

/-- Elements that each take `elementBytes` bytes. -/
structure Buffer (α : Type) where
  elementBytes : Nat
  items : List α

namespace Buffer

variable {α : Type}

/-- No buffer takes more bytes than this. -/
def maxBytes : Nat := 0x7FFFFFFFFFFFFFFF

def empty (elementBytes : Nat) : Buffer α := ⟨elementBytes, []⟩

/-- Asks for room for `count` more elements. -/
def reserve (b : Buffer α) (count : Nat) : Except Diagnostic Unit :=
  if (b.items.length + count) * b.elementBytes ≤ maxBytes then .ok ()
  else .error (.allocationFailure count)

/-- The buffer with more elements behind its own. -/
def extend (b : Buffer α) (items : List α) : Except Diagnostic (Buffer α) := do
  b.reserve items.length
  return { b with items := b.items ++ items }

def push (b : Buffer α) (item : α) : Except Diagnostic (Buffer α) := b.extend [item]

end Buffer
end IntelAsm
