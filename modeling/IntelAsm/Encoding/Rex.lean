/-
The REX byte. Operands ask for its bits one by one; the byte exists if any of
them asks for one, and then no operand may forbid it.
-/
import IntelAsm.Error

namespace IntelAsm

/-- What an instruction asks of the four bits of the REX byte. -/
structure RexRequest where
  w : RexBit
  r : RexBit
  x : RexBit
  b : RexBit
deriving DecidableEq, Inhabited

namespace RexBit

/-- Whether the request can only be met with a REX byte. -/
def demands : RexBit → Bool
  | .clear | .set => true
  | .free | .forbidden => false

/-- The bit at its place in the byte. -/
def weight (bit : RexBit) (place : Nat) : Nat := if bit = .set then place else 0

end RexBit

namespace RexRequest

/-- Nothing is asked. -/
def free : RexRequest := ⟨.free, .free, .free, .free⟩

def bits (q : RexRequest) : List RexBit := [q.w, q.r, q.x, q.b]

/-- The byte that meets the request, if one is needed. -/
def compose (q : RexRequest) : Except EncodingError (Option UInt8) :=
  if !q.bits.any RexBit.demands then .ok none
  else if q.bits.contains .forbidden then .error .rexConflict
  else .ok (some (UInt8.ofNat (0x40 + q.w.weight 8 + q.r.weight 4 + q.x.weight 2 + q.b.weight 1)))

end RexRequest
end IntelAsm
