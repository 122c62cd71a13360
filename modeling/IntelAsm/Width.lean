/-
Widths of operands and the three modes of the processor. A width is the size
of a value in memory or in a register; a mode fixes the default widths of
operands and of addresses.
-/
namespace IntelAsm

/-- The size of an operand, an address or an encoded field. -/
inductive Width where
  | byte
  | word
  | dword
  | qword
deriving DecidableEq, Inhabited

namespace Width

/-- Every width, narrow to wide. -/
def all : List Width := [.byte, .word, .dword, .qword]

def bits : Width → Nat
  | .byte => 8
  | .word => 16
  | .dword => 32
  | .qword => 64

def bytes : Width → Nat
  | .byte => 1
  | .word => 2
  | .dword => 4
  | .qword => 8

/-- The width of a field of so many bytes, if one has that size. -/
def ofBytes? : Nat → Option Width
  | 1 => some .byte
  | 2 => some .word
  | 4 => some .dword
  | 8 => some .qword
  | _ => none

/-- The least value of the width read as signed. -/
def minSigned : Width → Int
  | .byte => -0x80
  | .word => -0x8000
  | .dword => -0x80000000
  | .qword => -0x8000000000000000

/-- The greatest value of the width read as signed. -/
def maxSigned : Width → Int
  | .byte => 0x7F
  | .word => 0x7FFF
  | .dword => 0x7FFFFFFF
  | .qword => 0x7FFFFFFFFFFFFFFF

/-- The greatest value of the width read as unsigned. -/
def maxUnsigned : Width → Int
  | .byte => 0xFF
  | .word => 0xFFFF
  | .dword => 0xFFFFFFFF
  | .qword => 0xFFFFFFFFFFFFFFFF

/-- The value is one of the width read as signed. -/
abbrev FitsSigned (w : Width) (v : Int) : Prop := w.minSigned ≤ v ∧ v ≤ w.maxSigned

/-- The value is one of the width read as signed or as unsigned. -/
abbrev Fits (w : Width) (v : Int) : Prop := w.minSigned ≤ v ∧ v ≤ w.maxUnsigned

/-- The size keyword of the assembly language. -/
def keyword : Width → String
  | .byte => "byte"
  | .word => "word"
  | .dword => "dword"
  | .qword => "qword"

@[simp] theorem ofBytes?_bytes (w : Width) : ofBytes? w.bytes = some w := by
  cases w <;> rfl

theorem bits_eq (w : Width) : w.bits = 8 * w.bytes := by
  cases w <;> rfl

theorem FitsSigned.fits {w : Width} {v : Int} (h : w.FitsSigned v) : w.Fits v := by
  refine ⟨h.1, Int.le_trans h.2 ?_⟩
  cases w <;> decide

/-- Every 64-bit integer is a signed value of the widest width. -/
theorem fitsSigned_qword (v : Int64) : qword.FitsSigned v.toInt := by
  have h1 := v.le_toInt
  have h2 := v.toInt_lt
  constructor
  · simp only [minSigned]; omega
  · simp only [maxSigned]; omega

end Width

/-- The processor mode that code is assembled for. -/
inductive Mode where
  | bits16
  | bits32
  | bits64
deriving DecidableEq, Inhabited

namespace Mode

/-- Every mode, oldest first. -/
def all : List Mode := [.bits16, .bits32, .bits64]

/-- The width of an address without an address-size byte. -/
def addressWidth : Mode → Width
  | .bits16 => .word
  | .bits32 => .dword
  | .bits64 => .qword

/-- The width of an operand without an operand-size byte. -/
def operandWidth : Mode → Width
  | .bits16 => .word
  | .bits32 | .bits64 => .dword

def bits (m : Mode) : Nat := m.addressWidth.bits

def ofBits? : Nat → Option Mode
  | 16 => some .bits16
  | 32 => some .bits32
  | 64 => some .bits64
  | _ => none

/-- How messages name the mode. -/
def text (m : Mode) : String := toString m.bits ++ "-bit"

@[simp] theorem ofBits?_bits (m : Mode) : ofBits? m.bits = some m := by
  cases m <;> rfl

end Mode
end IntelAsm
