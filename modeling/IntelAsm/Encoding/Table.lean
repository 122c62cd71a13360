/-
The instruction table: the rows of each mnemonic, in the order in which they
are tried. The first row that takes the operands and has an encoding wins, so
a row with a narrow immediate stands in front of the same row with a wide one.
-/
import IntelAsm.Encoding.Families

namespace IntelAsm
namespace Table

open Row

/-! ## Data movement -/

def mov : List Row :=
  Width.all.map (fun w => intoRm [opcodeFor 0x88 w] w) ++
    Width.all.map (fun w => intoReg [opcodeFor 0x8A w] w) ++
    [form .oi [.reg .byte, .imm .byte] [0xB0] (some .byte),
      form .oi [.reg .word, .imm .word] [0xB8] (some .word),
      form .oi [.reg .dword, .imm .dword] [0xB8] (some .dword),
      rmWith (.immSigned .dword) [0xC7] 0 .qword,
      form .oi [.reg .qword, .imm .qword] [0xB8] (some .qword),
      rmWith (.imm .byte) [0xC6] 0 .byte,
      rmWith (.imm .word) [0xC7] 0 .word,
      rmWith (.imm .dword) [0xC7] 0 .dword] ++
    wideWidths.map (fun w => form .mr [.reg w, .segment] [0x8C] (some w)) ++
    [form .mr [.memAny, .segment] [0x8C] none,
      form .rm [.segment, .rm .word] [0x8E] none,
      form .rm [.segment, .reg .dword] [0x8E] none,
      form .rm [.segment, .memAny] [0x8E] none]

/-- Moves from a narrow operand into a wide register: from bytes, then from words. -/
def extending (byteOpcode : UInt8) : List Row :=
  wideWidths.map (fun w => form .rm [.reg w, .rm .byte] [0x0F, byteOpcode] (some w)) ++
    [.dword, .qword].map fun w => form .rm [.reg w, .rm .word] [0x0F, byteOpcode + 1] (some w)

def movsxd : List Row :=
  [(form .rm [.reg .qword, .rm .dword] [0x63] (some .qword)).onlyIn [.bits64]]

def lea : List Row := wideWidths.map fun w => form .rm [.reg w, .memAny] [0x8D] (some w)

/-- The short form of an exchange with the accumulator would not clear the upper half of `rax` for
`eax` itself in 64-bit mode, where its opcode does nothing at all. -/
def xchg : List Row :=
  [(form .np [accumulator .dword, accumulator .dword] [0x87, 0xC0] (some .dword)).onlyIn
      [.bits64]] ++
    wideWidths.flatMap (fun w =>
      [form .o [accumulator w, .reg w] [0x90] (some w),
        form .o [.reg w, accumulator w] [0x90] (some w)]) ++
    Width.all.map (fun w => intoRm [opcodeFor 0x86 w] w) ++
    Width.all.map (fun w => intoReg [opcodeFor 0x86 w] w)

def cmpxchg : List Row := Width.all.map fun w => intoRm [0x0F, opcodeFor 0xB0 w] w

def xadd : List Row := Width.all.map fun w => intoRm [0x0F, opcodeFor 0xC0 w] w

def bswap : List Row := [.dword, .qword].map fun w => form .o [.reg w] [0x0F, 0xC8] (some w)

/-- Bit scans. -/
def bitScan (opcode : UInt8) : List Row := wideWidths.map (intoReg [0x0F, opcode])

/-! ## Arithmetic -/

def test : List Row :=
  accumulatorWith 0xA8 .byte :: wideWidths.map (accumulatorWith 0xA9) ++
    Width.all.map (fun w => rmWith (fullImmediate w) [opcodeFor 0xF6 w] 0 w) ++
    Width.all.map (fun w => intoRm [opcodeFor 0x84 w] w) ++
    Width.all.map (fun w => intoReg [opcodeFor 0x84 w] w)

/-- Counting up or down, with the short forms of the older modes. -/
def count (shortOpcode : UInt8) (digit : Nat) : List Row :=
  [.word, .dword].map (fun w => (form .o [.reg w] [shortOpcode] (some w)).onlyIn legacy) ++
    Width.all.map fun w => onRm [opcodeFor 0xFE w] digit w

def imul : List Row :=
  unary 5 ++ wideWidths.map (intoReg [0x0F, 0xAF]) ++
    wideWidths.map (fun w => form .rmi [.reg w, .rm w, .immSigned .byte] [0x6B] (some w)) ++
    wideWidths.map fun w => form .rmi [.reg w, .rm w, fullImmediate w] [0x69] (some w)

/-! ## Stack and control flow -/

/-- A register on the stack, in the low bits of the opcode. -/
def stackRegister (opcode : UInt8) : List Row :=
  [(form .o [.reg .qword] [opcode] (some .qword)).wide.onlyIn [.bits64],
    (form .o [.reg .dword] [opcode] (some .dword)).onlyIn legacy,
    form .o [.reg .word] [opcode] (some .word)]

/-- An operand of the size that a mode has by default. -/
def defaultSized (opcode : UInt8) (digit : Nat) : List Row :=
  [((form .m [.rmDefault .qword] [opcode] (some .qword)).withDigit digit).wide.onlyIn [.bits64],
    ((form .m [.rmDefault .dword] [opcode] (some .dword)).withDigit digit).onlyIn [.bits32],
    ((form .m [.rmDefault .word] [opcode] (some .word)).withDigit digit).onlyIn [.bits16]]

/-- A register or memory on the stack. -/
def stackRm (opcode : UInt8) (digit : Nat) : List Row :=
  defaultSized opcode digit ++
    [(onRm [opcode] digit .word).onlyIn modern, (onRm [opcode] digit .dword).onlyIn [.bits16]]

/-- A segment register on the stack. -/
def stackSegment (s : Segment) (opcode : List UInt8) (modes : List Mode) : Row :=
  (form .np [.fixed (.segment s)] opcode none).onlyIn modes

def push : List Row :=
  stackRegister 0x50 ++ stackRm 0xFF 6 ++
    [form .i [.immSigned .byte] [0x6A] none,
      (form .i [.imm .word] [0x68] none).onlyIn [.bits16],
      (form .i [.immSigned .dword] [0x68] none).onlyIn modern,
      stackSegment .fs [0x0F, 0xA0] Mode.all, stackSegment .gs [0x0F, 0xA8] Mode.all,
      stackSegment .es [0x06] legacy, stackSegment .cs [0x0E] legacy,
      stackSegment .ss [0x16] legacy, stackSegment .ds [0x1E] legacy]

def pop : List Row :=
  stackRegister 0x58 ++ stackRm 0x8F 0 ++
    [stackSegment .fs [0x0F, 0xA1] Mode.all, stackSegment .gs [0x0F, 0xA9] Mode.all,
      stackSegment .es [0x07] legacy, stackSegment .ss [0x17] legacy,
      stackSegment .ds [0x1F] legacy]

def jmp : List Row :=
  [form .d [.rel .byte] [0xEB] none, form .d [.rel .dword] [0xE9] (some .dword)] ++
    defaultSized 0xFF 4

def call : List Row := form .d [.rel .dword] [0xE8] (some .dword) :: defaultSized 0xFF 2

def ret : List Row := [form .np [] [0xC3] none, form .i [.imm .word] [0xC2] none]

def interrupt : List Row := [form .i [.imm .byte] [0xCD] none]

def nop : List Row :=
  form .np [] [0x90] none :: [.word, .dword].map (onRm [0x0F, 0x1F] 0)

/-! ## The table -/

/-- The conditions by code, each with all its names. -/
def conditions : List (UInt8 × List String) :=
  [(0x0, ["o"]), (0x1, ["no"]), (0x2, ["b", "c", "nae"]), (0x3, ["ae", "nb", "nc"]),
    (0x4, ["e", "z"]), (0x5, ["ne", "nz"]), (0x6, ["be", "na"]), (0x7, ["a", "nbe"]),
    (0x8, ["s"]), (0x9, ["ns"]), (0xA, ["p", "pe"]), (0xB, ["np", "po"]), (0xC, ["l", "nge"]),
    (0xD, ["ge", "nl"]), (0xE, ["le", "ng"]), (0xF, ["g", "nle"])]

/-- The mnemonics that end in a condition. -/
def conditional : List (String × List Row) :=
  conditions.flatMap fun (code, names) => names.flatMap fun name =>
    [("j" ++ name, jump code), ("set" ++ name, setByte code),
      ("cmov" ++ name, conditionalMove code)]

/-- A string instruction at its four widths. -/
def stringFamily (name : String) (byteOpcode : UInt8) : List (String × List Row) :=
  [(name ++ "b", plain [byteOpcode] none), (name ++ "w", plain [byteOpcode + 1] (some .word)),
    (name ++ "d", plain [byteOpcode + 1] (some .dword)),
    (name ++ "q", plain [byteOpcode + 1] (some .qword))]

/-- The mnemonics without operands. -/
def operandless : List (String × List Row) :=
  [("clc", plain [0xF8] none), ("cld", plain [0xFC] none), ("cli", plain [0xFA] none),
    ("cmc", plain [0xF5] none), ("cpuid", plain [0x0F, 0xA2] none), ("hlt", plain [0xF4] none),
    ("int1", plain [0xF1] none), ("int3", plain [0xCC] none), ("lahf", plain [0x9F] none),
    ("leave", plain [0xC9] none), ("lfence", plain [0x0F, 0xAE, 0xE8] none),
    ("mfence", plain [0x0F, 0xAE, 0xF0] none), ("pause", plain [0xF3, 0x90] none),
    ("popf", plain [0x9D] none), ("pushf", plain [0x9C] none), ("rdtsc", plain [0x0F, 0x31] none),
    ("sahf", plain [0x9E] none), ("sfence", plain [0x0F, 0xAE, 0xF8] none),
    ("stc", plain [0xF9] none), ("std", plain [0xFD] none), ("sti", plain [0xFB] none),
    ("syscall", (plain [0x0F, 0x05] none).map (·.onlyIn [.bits64])),
    ("ud2", plain [0x0F, 0x0B] none), ("xlatb", plain [0xD7] none),
    ("cbw", plain [0x98] (some .word)), ("cwde", plain [0x98] (some .dword)),
    ("cdqe", plain [0x98] (some .qword)), ("cwd", plain [0x99] (some .word)),
    ("cdq", plain [0x99] (some .dword)), ("cqo", plain [0x99] (some .qword))]

/-- The mnemonics with operands and no condition. -/
def general : List (String × List Row) :=
  [("add", arithmetic 0x00 0), ("or", arithmetic 0x08 1), ("adc", arithmetic 0x10 2),
    ("sbb", arithmetic 0x18 3), ("and", arithmetic 0x20 4), ("sub", arithmetic 0x28 5),
    ("xor", arithmetic 0x30 6), ("cmp", arithmetic 0x38 7),
    ("not", unary 2), ("neg", unary 3), ("mul", unary 4), ("div", unary 6), ("idiv", unary 7),
    ("rol", shift 0), ("ror", shift 1), ("rcl", shift 2), ("rcr", shift 3), ("shl", shift 4),
    ("sal", shift 4), ("shr", shift 5), ("sar", shift 7),
    ("bt", bitTest 0xA3 4), ("bts", bitTest 0xAB 5), ("btr", bitTest 0xB3 6),
    ("btc", bitTest 0xBB 7),
    ("mov", mov), ("movzx", extending 0xB6), ("movsx", extending 0xBE), ("movsxd", movsxd),
    ("lea", lea), ("xchg", xchg), ("cmpxchg", cmpxchg), ("xadd", xadd), ("bswap", bswap),
    ("bsf", bitScan 0xBC), ("bsr", bitScan 0xBD),
    ("test", test), ("inc", count 0x40 0), ("dec", count 0x48 1), ("imul", imul),
    ("push", push), ("pop", pop), ("jmp", jmp), ("call", call), ("ret", ret), ("int", interrupt),
    ("nop", nop)]

/-- Every mnemonic with its rows. -/
def entries : List (String × List Row) :=
  general ++ conditional ++ operandless ++ stringFamily "movs" 0xA4 ++ stringFamily "cmps" 0xA6 ++
    stringFamily "stos" 0xAA ++ stringFamily "lods" 0xAC ++ stringFamily "scas" 0xAE

/-- The rows of a mnemonic in lower case. -/
def rows? (mnemonic : String) : Option (List Row) := entries.lookup mnemonic

/-- Every mnemonic, in alphabetical order. -/
def mnemonics : List String := (entries.map (·.1)).mergeSort fun a b => decide (a ≤ b)

end Table
end IntelAsm
