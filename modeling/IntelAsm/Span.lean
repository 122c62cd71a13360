/-
Places in a source text. A span starts at a line and a column, both counted
from 1, and covers the bytes `[offset, offset + len)`; columns, offsets and
lengths count bytes of the UTF-8 text. Lines and columns are words of 32 bits:
counting starts over behind the greatest. The zero span stands for "no place",
as for a label that was added by name and not by text.
-/
namespace IntelAsm

/-- A word as a number. -/
instance wordToNat : Coe UInt32 Nat := ⟨UInt32.toNat⟩

/-- A stretch of source text. -/
structure Span where
  line : UInt32
  col : UInt32
  offset : Nat
  len : Nat
deriving DecidableEq, Inhabited

namespace Span

/-- The span of what was never written in a source text. -/
def nowhere : Span := ⟨0, 0, 0, 0⟩

/-- The offset of the first byte behind the span. -/
def stop (s : Span) : Nat := s.offset + s.len

/-- The span that starts where `s` starts and reaches to the later of both ends. -/
def cover (s t : Span) : Span := { s with len := max t.stop s.stop - s.offset }

/-- How messages name a place: line and column. -/
def text (s : Span) : String := toString s.line ++ ":" ++ toString s.col

@[simp] theorem cover_offset (s t : Span) : (s.cover t).offset = s.offset := rfl

@[simp] theorem stop_cover (s t : Span) : (s.cover t).stop = max t.stop s.stop := by
  simp only [cover, stop]
  omega

end Span
end IntelAsm
