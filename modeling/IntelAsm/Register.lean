/-
The register file. A general register is a width and a number; the four high
byte registers share their 3-bit codes with the low byte registers 4 to 7 and
are told apart only by the absence of a REX byte, which `Register.rexBit`
records. `Register.ofName?` reads a name in any case.
-/
import IntelAsm.Width

namespace IntelAsm

/-- The segment registers, in the order of their codes. -/
inductive Segment where
  | es
  | cs
  | ss
  | ds
  | fs
  | gs
deriving DecidableEq, Inhabited

namespace Segment

/-- Every segment register, in the order of their codes. -/
def all : List Segment := [.es, .cs, .ss, .ds, .fs, .gs]

def name : Segment → String
  | .es => "es"
  | .cs => "cs"
  | .ss => "ss"
  | .ds => "ds"
  | .fs => "fs"
  | .gs => "gs"

def code : Segment → Nat
  | .es => 0
  | .cs => 1
  | .ss => 2
  | .ds => 3
  | .fs => 4
  | .gs => 5

/-- The byte in front of an instruction that selects the segment. -/
def overrideByte : Segment → UInt8
  | .es => 0x26
  | .cs => 0x2E
  | .ss => 0x36
  | .ds => 0x3E
  | .fs => 0x64
  | .gs => 0x65

end Segment

/-- A register. `general .byte n` is the low byte of register `n`, and `high n` the second byte of
register `n` for the first four. -/
inductive Register where
  | general (width : Width) (number : Fin 16)
  | high (number : Fin 4)
  | segment (segment : Segment)
  | eip
  | rip
  | flags
  | eflags
  | rflags
deriving DecidableEq, Inhabited

/-- What a register is for. -/
inductive RegisterClass where
  | general
  | segment
  | instructionPointer
  | flags
deriving DecidableEq, Inhabited

/-- What a register in an operand asks of a bit of the REX byte: nothing, that there be no REX byte
at all, a REX byte with the bit clear, or one with the bit set. -/
inductive RexBit where
  | free
  | forbidden
  | clear
  | set
deriving DecidableEq, Inhabited

namespace Register

/-- The registers 0 to 15 of a width, in the order of their numbers. -/
def generals (w : Width) : List Register := (List.finRange 16).map (.general w)

/-- Register 0 of a width, which many instructions have short forms for. -/
def accumulator (w : Width) : Register := .general w ⟨0, by decide⟩

/-- Register 1 of a width; its low byte counts shifts. -/
def counter (w : Width) : Register := .general w ⟨1, by decide⟩

/-- Every register: bytes, words, double words, quad words, then the special ones. -/
def all : List Register :=
  (generals .byte).take 4 ++ (List.finRange 4).map .high ++ (generals .byte).drop 4 ++
    generals .word ++ generals .dword ++ generals .qword ++
    Segment.all.map .segment ++ [.eip, .rip, .flags, .eflags, .rflags]

/-- The name of one of the first eight registers at word width. -/
def stem : Fin 16 → String
  | 0 => "ax"
  | 1 => "cx"
  | 2 => "dx"
  | 3 => "bx"
  | 4 => "sp"
  | 5 => "bp"
  | 6 => "si"
  | 7 => "di"
  | n => "r" ++ toString n.val

/-- The name of one of the first eight registers at byte width. -/
def lowByteName : Fin 16 → String
  | 0 => "al"
  | 1 => "cl"
  | 2 => "dl"
  | 3 => "bl"
  | n => stem n ++ "l"

def generalName (w : Width) (n : Fin 16) : String :=
  if n.val < 8 then
    match w with
    | .byte => lowByteName n
    | .word => stem n
    | .dword => "e" ++ stem n
    | .qword => "r" ++ stem n
  else
    match w with
    | .byte => stem n ++ "b"
    | .word => stem n ++ "w"
    | .dword => stem n ++ "d"
    | .qword => stem n

def highName : Fin 4 → String
  | 0 => "ah"
  | 1 => "ch"
  | 2 => "dh"
  | 3 => "bh"

def name : Register → String
  | .general w n => generalName w n
  | .high n => highName n
  | .segment s => s.name
  | .eip => "eip"
  | .rip => "rip"
  | .flags => "flags"
  | .eflags => "eflags"
  | .rflags => "rflags"

/-- The second spelling of the upper eight byte registers: `r8l` for `r8b`. -/
def aliases : List (String × Register) :=
  ((generals .byte).zip (List.finRange 16)).drop 8 |>.map fun (r, n) => (stem n ++ "l", r)

/-- Every spelling of a register. -/
def spellings : List (String × Register) := all.map (fun r => (r.name, r)) ++ aliases

/-- The register of that name, whatever the case of its letters. -/
def ofName? (name : String) : Option Register :=
  let lower := name.toLower
  (spellings.find? fun p => p.1 == lower).map (·.2)

def width : Register → Width
  | .general w _ => w
  | .high _ => .byte
  | .segment _ | .flags => .word
  | .eip | .eflags => .dword
  | .rip | .rflags => .qword

def registerClass : Register → RegisterClass
  | .general .. | .high _ => .general
  | .segment _ => .segment
  | .eip | .rip => .instructionPointer
  | .flags | .eflags | .rflags => .flags

/-- The 3-bit code of the register in an instruction. -/
def code : Register → Nat
  | .general _ n => n.val % 8
  | .high n => n.val + 4
  | .segment s => s.code
  | .eip | .rip | .flags | .eflags | .rflags => 0

/-- Whether the code needs a fourth bit, from the REX byte. -/
def isExtended : Register → Bool
  | .general _ n => 8 ≤ n.val
  | _ => false

/-- What the register asks of the REX bit that extends its code. The byte registers 4 to 7 need a
REX byte, since without one their codes mean the high byte registers. -/
def rexBit : Register → RexBit
  | .general w n =>
    if 8 ≤ n.val then .set else if w = .byte ∧ 4 ≤ n.val then .clear else .free
  | .high _ => .forbidden
  | _ => .free

/-- Whether the register may be part of an address: general, and not a byte. -/
def isAddress : Register → Bool
  | .general w _ => w ≠ .byte
  | _ => false

/-- Whether the register is the instruction pointer. -/
def isPointer (r : Register) : Bool := r.registerClass = .instructionPointer

theorem code_lt (r : Register) : r.code < 8 := by
  cases r with
  | general w n => exact Nat.mod_lt _ (by decide)
  | high n => simp only [code]; omega
  | segment s => cases s <;> decide
  | _ => decide

theorem isAddress_iff {r : Register} :
    r.isAddress = true ↔ r.registerClass = .general ∧ r.width ≠ .byte := by
  cases r <;> simp [isAddress, registerClass, width]

end Register
end IntelAsm
