/-
Addresses in an instruction: the mode and r/m parts of the ModR/M byte, the
SIB byte and the displacement. With 32- and 64-bit addresses any register can
be a base, r/m 4 says that a SIB byte follows, and r/m 5 without displacement
means no base (relative to the instruction in 64-bit mode). With 16-bit
addresses eight combinations of `bx`, `bp`, `si` and `di` have an encoding,
and r/m 6 without displacement means no register at all.
-/
import IntelAsm.Encoding.Field
import IntelAsm.Encoding.Rex

namespace IntelAsm

/-- The ModR/M byte of its three parts. -/
def modrmByte (mode reg rm : Nat) : UInt8 := UInt8.ofNat (mode * 64 + reg % 8 * 8 + rm % 8)

/-- The SIB byte of its three parts. -/
def sibByte (scale index base : Nat) : UInt8 := UInt8.ofNat (scale * 64 + index % 8 * 8 + base % 8)

/-- The encoding of an address, but for the register part of the ModR/M byte. -/
structure AddressForm where
  width : Width
  mode : Nat
  rm : Nat
  sib : Option UInt8
  disp : Field
  rexX : RexBit
  rexB : RexBit
deriving DecidableEq, Inhabited

/-- The code of a scale factor. -/
def scaleCode (scale : Int64) : Except EncodingError Nat :=
  if scale = 1 then .ok 0
  else if scale = 2 then .ok 1
  else if scale = 4 then .ok 2
  else if scale = 8 then .ok 3
  else .error (.illegalScale scale)

namespace Memory

/-- Whether the displacement is absent or known to be zero. -/
def hasNoDisp (m : Memory) : Bool :=
  match m.disp with
  | none => true
  | some d => d.fixed? = some 0

/-- The displacement as a field of width `w`: zero if it is absent, a known value that the field
takes, or an expression for later. -/
def dispField (m : Memory) (w : Width) (takes : Int → Bool) (pcRelative signed : Bool) :
    Except EncodingError Field :=
  match m.disp.map Immediate.value with
  | none => .ok (.fixed w.bytes 0)
  | some (.fixed v) =>
    if takes v.toInt then .ok (.fixed w.bytes v) else .error (.displacementRange v)
  | some (.symbolic e _) => .ok { Field.later w.bytes e pcRelative with signed }

/-- The displacement as a field of four bytes. It is sign-extended to an address of 64 bits; with
32 bits an unsigned value does as well. -/
def disp32 (m : Memory) (address : Width) (pcRelative : Bool) : Except EncodingError Field :=
  m.dispField .dword
    (fun v => Width.dword.FitsSigned v ∨ address = .dword ∧ Width.dword.Fits v)
    pcRelative (pcRelative || address = .qword)

/-- The displacement as a field of two bytes. -/
def disp16 (m : Memory) : Except EncodingError Field :=
  m.dispField .word (fun v => Width.word.Fits v) false false

/-- The mode of the ModR/M byte behind a base, and the displacement field: none for zero, one byte
for a small known value, `wide` for all else. A base of code `noneCode` always has a
displacement. -/
def dispForm (m : Memory) (rm noneCode : Nat) (wide : Except EncodingError Field) :
    Except EncodingError (Nat × Field) :=
  if m.hasNoDisp then .ok (if rm = noneCode then (1, .fixed 1 0) else (0, .absent))
  else
    match m.disp.bind Immediate.fixed? with
    | some v =>
      if Width.byte.FitsSigned v.toInt then .ok (1, .fixed 1 v) else (fun f => (2, f)) <$> wide
    | none => (fun f => (2, f)) <$> wide

/-- The scale and register codes of the index. Code 4 without REX extension means no index. -/
def indexCodes (m : Memory) : Except EncodingError (Option (Nat × Nat)) :=
  match m.index with
  | none => .ok none
  | some i => do
    let scale ← scaleCode i.scale
    if i.register.code = 4 && !i.register.isExtended then .error (.invalidIndex i.register)
    else return some (scale, i.register.code)

/-- The REX bit of the index. -/
def indexRex (m : Memory) : RexBit :=
  match m.index with
  | none => .free
  | some i => i.register.rexBit

/-- The form of an address without a base. -/
def absoluteForm (m : Memory) (address : Width) (mode : Mode) (index : Option (Nat × Nat))
    (disp : Field) : AddressForm :=
  match index with
  | some (scale, code) => ⟨address, 0, 4, some (sibByte scale code 5), disp, m.indexRex, .free⟩
  | none =>
    if mode = .bits64 then ⟨address, 0, 4, some (sibByte 0 4 5), disp, .free, .free⟩
    else ⟨address, 0, 5, none, disp, .free, .free⟩

/-- The form of an address with a base register. -/
def basedForm (m : Memory) (address : Width) (base : Register) (index : Option (Nat × Nat))
    (modBits : Nat) (disp : Field) : AddressForm :=
  match index with
  | some (scale, code) =>
    ⟨address, modBits, 4, some (sibByte scale code base.code), disp, m.indexRex, base.rexBit⟩
  | none =>
    if base.code = 4 then
      ⟨address, modBits, 4, some (sibByte 0 4 base.code), disp, .free, base.rexBit⟩
    else ⟨address, modBits, base.code, none, disp, .free, base.rexBit⟩

/-- The form of an address of 32 or 64 bits. -/
def encodeWide (m : Memory) (address : Width) (mode : Mode) : Except EncodingError AddressForm := do
  let index ← m.indexCodes
  match m.base with
  | none =>
    let disp ← m.disp32 address false
    return m.absoluteForm address mode index disp
  | some base =>
    if base.isPointer then
      if index.isSome then .error .ripWithIndex
      else if mode ≠ .bits64 then .error (.invalidBase base)
      else return ⟨address, 0, 5, none, ← m.disp32 address true, .free, .free⟩
    else if !base.isAddress then .error (.invalidBase base)
    else
      let (modBits, disp) ← m.dispForm base.code 5 (m.disp32 address false)
      return m.basedForm address base index modBits disp

/-- A register of word width. -/
def wordRegister (n : Fin 16) : Register := .general .word n

/-- The registers of 16-bit addresses, with their r/m codes: `bx` or `bp` with `si` or `di`, and
each of the four alone. -/
def wordPairs : List ((Option Register × Option Register) × Nat) :=
  let bx := wordRegister 3
  let bp := wordRegister 5
  let si := wordRegister 6
  let di := wordRegister 7
  [((some bx, some si), 0), ((some bx, some di), 1), ((some bp, some si), 2),
    ((some bp, some di), 3), ((some si, none), 4), ((some di, none), 5), ((some bp, none), 6),
    ((some bx, none), 7)]

/-- The r/m code of a pair of registers, in either order. -/
def wordPair? (base index : Option Register) : Option Nat :=
  (wordPairs.lookup (base, index)).or (wordPairs.lookup (index, base))

/-- The r/m part of a 16-bit address, for the pairs of registers that have one. -/
def wordCode (base index : Option Register) : Except EncodingError (Option Nat) :=
  match base, index with
  | none, none => .ok none
  | some r, _ | none, some r =>
    match wordPair? base index with
    | some code => .ok (some code)
    | none => .error (.invalidBase r)

/-- An address of 16 bits has no scaled index. -/
def checkScale (m : Memory) : Except EncodingError Unit :=
  match m.index with
  | some i => if i.scale ≠ 1 then .error (.illegalScale i.scale) else .ok ()
  | none => .ok ()

/-- The form of an address of 16 bits. -/
def encodeWord (m : Memory) (mode : Mode) : Except EncodingError AddressForm := do
  if mode = .bits64 then .error (.addressSize 16 64)
  else
    m.checkScale
    match ← wordCode m.base (m.index.map Index.register) with
    | none => return ⟨.word, 0, 6, none, ← m.disp16, .free, .free⟩
    | some rm =>
      let (modBits, disp) ← m.dispForm rm 6 m.disp16
      return ⟨.word, modBits, rm, none, disp, .free, .free⟩

/-- The width of the address: declared, that of a register, or the mode's. -/
def effectiveWidth (m : Memory) (mode : Mode) : Width :=
  m.addressSize.getD
    (((m.base.orElse fun _ => m.index.map Index.register).map Register.width).getD
      mode.addressWidth)

/-- The registers of an address must have its width: first the base, then the index. -/
def checkWidths (m : Memory) (address : Width) : Except EncodingError Unit :=
  match m.base.filter (·.width ≠ address), m.index.filter (·.register.width ≠ address) with
  | some base, _ => .error (.invalidBase base)
  | none, some i => .error (.invalidIndex i.register)
  | none, none => .ok ()

/-- The encoding of an address. -/
def encode (m : Memory) (mode : Mode) : Except EncodingError AddressForm := do
  let address := m.effectiveWidth mode
  m.checkWidths address
  match address with
  | .word => m.encodeWord mode
  | .dword => m.encodeWide .dword mode
  | .qword =>
    if mode ≠ .bits64 then .error (.addressSize 64 mode.bits) else m.encodeWide .qword mode
  | .byte => .error (.addressSize 8 mode.bits)

end Memory
end IntelAsm
