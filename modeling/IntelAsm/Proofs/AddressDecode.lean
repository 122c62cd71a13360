/-
Addresses, read the way the processor reads them. `decodeAddress` takes the
bytes from the ModR/M byte on and gives the register part, the registers of
the address and the displacement, by the rules of the three address widths:
r/m 4 is followed by a SIB byte, base 5 without displacement is no base, index
4 without extension is no index, and r/m 5 without displacement is a bare
displacement, relative to the instruction in 64-bit mode. With 16-bit addresses
r/m selects a pair of registers, and r/m 6 without displacement selects none.

An encoded address decodes to the address it came from
(`OperandFields.decodeAddress_withRm`): the same bytes are consumed, and the
sum of its parts is the same for every content of the registers.
-/
import Mathlib
import IntelAsm.Encoding.Operands
import IntelAsm.Proofs.AddressFacts
import IntelAsm.Proofs.ByteFacts
import IntelAsm.Proofs.SelectFacts

namespace IntelAsm

/-! ## Decoding -/

/-- The parts of a ModR/M or SIB byte: its two high bits, the next three, and the low three. -/
def byteParts (b : UInt8) : Nat × Nat × Nat := (b.toNat / 64, b.toNat / 8 % 8, b.toNat % 8)

/-- Whether the bit is to be 1 in the REX byte. -/
def RexBit.isSet (bit : RexBit) : Bool := bit = .set

/-- The register of a 3-bit code and its extension bit. -/
def Register.ofCode (w : Width) (extension : Bool) (code : Nat) : Register :=
  .general w ⟨(if extension then code + 8 else code) % 16, Nat.mod_lt _ (by decide)⟩

/-- The instruction pointer of a width. -/
def Register.pointer (w : Width) : Register := if w = .qword then .rip else .eip

/-- The registers that an address is the sum of, and the size of the displacement behind them. -/
structure AddressRegisters where
  base : Option Register
  index : Option (Register × Int)
  dispSize : Nat
deriving DecidableEq

/-- The value of the registers of an address. -/
def AddressRegisters.value (regs : AddressRegisters) (content : Register → Int) : Int :=
  (regs.base.map content).getD 0 + (regs.index.map fun (r, factor) => content r * factor).getD 0

/-- The size of a displacement by the mode part of the ModR/M byte: none, a byte, or `wide`. -/
def dispSize (modBits wide : Nat) : Nat :=
  match modBits with
  | 0 => 0
  | 1 => 1
  | _ => wide

/-- The index of a SIB byte and its factor. Code 4 without extension is none. -/
def sibIndex (w : Width) (rexX : Bool) (scale index : Nat) : Option (Register × Int) :=
  if index = 4 ∧ ¬ rexX then none else some (.ofCode w rexX index, 2 ^ scale)

/-- The registers of an address of 32 or 64 bits. They take up a SIB byte if there is one. -/
def wideRegisters (mode : Mode) (w : Width) (rexX rexB : Bool) (modBits rm : Nat)
    (bytes : List UInt8) : Option (AddressRegisters × List UInt8) :=
  if rm = 4 then
    match bytes with
    | [] => none
    | sib :: bytes =>
      let (scale, index, base) := byteParts sib
      if modBits = 0 ∧ base = 5 then some (⟨none, sibIndex w rexX scale index, 4⟩, bytes)
      else
        some (⟨some (.ofCode w rexB base), sibIndex w rexX scale index, dispSize modBits 4⟩, bytes)
  else if modBits = 0 ∧ rm = 5 then
    some (⟨if mode = .bits64 then some (.pointer w) else none, none, 4⟩, bytes)
  else some (⟨some (.ofCode w rexB rm), none, dispSize modBits 4⟩, bytes)

/-- The registers of an address of 16 bits. -/
def wordRegisters (modBits rm : Nat) : AddressRegisters :=
  let bx : Register := .general .word ⟨3, by decide⟩
  let bp : Register := .general .word ⟨5, by decide⟩
  let si : Register := .general .word ⟨6, by decide⟩
  let di : Register := .general .word ⟨7, by decide⟩
  match modBits, rm with
  | 0, 6 => ⟨none, none, 2⟩
  | _, 0 => ⟨some bx, some (si, 1), dispSize modBits 2⟩
  | _, 1 => ⟨some bx, some (di, 1), dispSize modBits 2⟩
  | _, 2 => ⟨some bp, some (si, 1), dispSize modBits 2⟩
  | _, 3 => ⟨some bp, some (di, 1), dispSize modBits 2⟩
  | _, 4 => ⟨some si, none, dispSize modBits 2⟩
  | _, 5 => ⟨some di, none, dispSize modBits 2⟩
  | _, 6 => ⟨some bp, none, dispSize modBits 2⟩
  | _, _ => ⟨some bx, none, dispSize modBits 2⟩

/-- The registers of an address of width `w`. -/
def addressRegisters (mode : Mode) (w : Width) (rexX rexB : Bool) (modBits rm : Nat)
    (bytes : List UInt8) : Option (AddressRegisters × List UInt8) :=
  match w with
  | .byte => none
  | .word => some (wordRegisters modBits rm, bytes)
  | .dword | .qword => wideRegisters mode w rexX rexB modBits rm bytes

/-- A displacement of `n` bytes, sign-extended. -/
def readDisp (n : Nat) (bytes : List UInt8) : Option (Int × List UInt8) :=
  if bytes.length < n then none else some (signedValue (bytes.take n), bytes.drop n)

/-- What the bytes of an address say, the register part of the ModR/M byte included. -/
structure DecodedAddress where
  reg : Nat
  registers : AddressRegisters
  disp : Int
deriving DecidableEq

/-- The address as a number, before it is cut to its width. -/
def DecodedAddress.value (a : DecodedAddress) (content : Register → Int) : Int :=
  a.registers.value content + a.disp

/-- The address of width `w` at the front of bytes that start with a ModR/M byte, and the bytes
behind it. Mode part 3 means a register, which is not an address. -/
def decodeAddress (mode : Mode) (w : Width) (rexX rexB : Bool) :
    List UInt8 → Option (DecodedAddress × List UInt8)
  | [] => none
  | modrm :: bytes => do
    let (modBits, reg, rm) := byteParts modrm
    if modBits = 3 then none
    else
      let (registers, bytes) ← addressRegisters mode w rexX rexB modBits rm bytes
      let (disp, bytes) ← readDisp registers.dispSize bytes
      return (⟨reg, registers, disp⟩, bytes)

/-! ## Parts read back -/

theorem byteParts_ofNat {high mid low : Nat} (h : high < 4) :
    byteParts (UInt8.ofNat (high * 64 + mid % 8 * 8 + low % 8)) = (high, mid % 8, low % 8) := by
  have hsum : high * 64 + mid % 8 * 8 + low % 8 < 256 := by omega
  have hnat : (UInt8.ofNat (high * 64 + mid % 8 * 8 + low % 8)).toNat =
      high * 64 + mid % 8 * 8 + low % 8 := by
    rw [UInt8.toNat_ofNat', Nat.mod_eq_of_lt hsum]
  simp only [byteParts, hnat, Prod.mk.injEq]
  omega

theorem byteParts_modrmByte {modBits reg rm : Nat} (hm : modBits < 4) (hr : reg < 8) (hrm : rm < 8) :
    byteParts (modrmByte modBits reg rm) = (modBits, reg, rm) := by
  rw [modrmByte, byteParts_ofNat hm, Nat.mod_eq_of_lt hr, Nat.mod_eq_of_lt hrm]

theorem byteParts_sibByte {scale index base : Nat} (hs : scale < 4) (hi : index < 8) (hb : base < 8) :
    byteParts (sibByte scale index base) = (scale, index, base) := by
  rw [sibByte, byteParts_ofNat hs, Nat.mod_eq_of_lt hi, Nat.mod_eq_of_lt hb]

theorem readDisp_bytes (f : Field) (rest : List UInt8) :
    readDisp f.size (f.bytes ++ rest) = some (signedValue f.bytes, rest) := by
  have hlen : f.bytes.length = f.size := f.length_bytes
  have hle : ¬ (f.bytes ++ rest).length < f.size := by
    rw [List.length_append, hlen]
    omega
  rw [readDisp, if_neg hle, ← hlen, List.take_left, List.drop_left]

/-- A numbered register is that of its code and its REX bit. -/
theorem Register.ofCode_general (w : Width) (n : Fin 16) :
    ofCode w (general w n).rexBit.isSet (n.val % 8) = general w n := by
  have hbit : (Register.general w n).rexBit.isSet = decide (8 ≤ n.val) := by
    by_cases hn : 8 ≤ n.val
    · simp [RexBit.isSet, rexBit, hn]
    · by_cases hw : w = .byte ∧ 4 ≤ n.val <;> simp [RexBit.isSet, rexBit, hn, hw]
  have hnumber : (if 8 ≤ n.val then n.val % 8 + 8 else n.val % 8) % 16 = n.val := by
    split <;> omega
  simp only [ofCode, hbit, decide_eq_true_eq, hnumber]

theorem Register.ofCode_code {r : Register} (h : r.isAddress = true) :
    ofCode r.width r.rexBit.isSet r.code = r := by
  cases r with
  | general w n => exact ofCode_general w n
  | _ => cases h

theorem Register.isSet_rexBit {r : Register} (h : r.isExtended = true) : r.rexBit.isSet = true := by
  cases r with
  | general w n =>
    have hn : 8 ≤ n.val := by simpa [isExtended] using h
    simp [RexBit.isSet, rexBit, hn]
  | _ => cases h

theorem Register.eq_pointer {r : Register} (h : r.isPointer = true) : r = pointer r.width := by
  cases r with
  | eip | rip => rfl
  | _ => cases h

/-! ## Displacements -/

namespace Field

/-- The bytes of the field are read as `d`, up to multiples of what addresses of width `w` count
to. -/
def ReadsAs (f : Field) (w : Width) (d : Int) : Prop :=
  signedValue f.bytes % 2 ^ w.bits = d % 2 ^ w.bits

theorem readsAs_of_fitsSigned {w : Width} {v : Int64} (h : w.FitsSigned v.toInt) (address : Width) :
    (fixed w.bytes v).ReadsAs address v.toInt := by
  have hread : signedValue (fixed w.bytes v).bytes = v.toInt := h.signedValue_littleEndian
  rw [ReadsAs, hread]

theorem readsAs_self (w : Width) (v : Int64) : (fixed w.bytes v).ReadsAs w v.toInt := by
  have hread : signedValue (fixed w.bytes v).bytes = v.toInt.bmod (256 ^ w.bytes) :=
    signedValue_littleEndian w.bytes v.toInt
  rw [ReadsAs, hread, ← w.pow_bytes]
  have hmod := Int.bmod_emod (x := v.toInt) (m := 256 ^ w.bytes)
  simpa using hmod

end Field

namespace Memory

/-- The displacement as a number, where it is absent or known. -/
def fixedDisp? (m : Memory) : Option Int :=
  match m.disp with
  | none => some 0
  | some d => d.fixed?.map Int64.toInt

theorem fixedDisp?_none {m : Memory} {d : Int} (h : m.fixedDisp? = some d) (hd : m.disp = none) :
    d = 0 := by
  simp only [fixedDisp?, hd, Option.some.injEq] at h
  exact h.symm

theorem fixedDisp?_fixed {m : Memory} {d : Int} {i : Immediate} {v : Int64}
    (h : m.fixedDisp? = some d) (hd : m.disp = some i) (hv : i.fixed? = some v) : d = v.toInt := by
  simp only [fixedDisp?, hd, hv, Option.map_some, Option.some.injEq] at h
  exact h.symm

theorem fixedDisp?_of_hasNoDisp {m : Memory} {d : Int} (h : m.fixedDisp? = some d)
    (hz : m.hasNoDisp = true) : d = 0 := by
  unfold hasNoDisp at hz
  split at hz
  · rename_i hd
    exact fixedDisp?_none h hd
  · rename_i i hd
    exact fixedDisp?_fixed h hd (by simpa using hz)

/-- A field is read as what it was filled with, if that is a signed value of the field or counts
modulo the field only. -/
theorem dispField_readsAs {m : Memory} {w address : Width} {takes : Int → Bool}
    {pcRelative signed : Bool} {f : Field} {d : Int} (hd : m.fixedDisp? = some d)
    (htakes : ∀ v, takes v = true → w.FitsSigned v ∨ address = w)
    (h : m.dispField w takes pcRelative signed = .ok f) :
    f.size = w.bytes ∧ f.ReadsAs address d := by
  rcases dispField_eq_ok h with ⟨hnone, rfl⟩ | ⟨i, v, hi, hv, rfl, hr⟩ | ⟨i, e, b, hi, hv, -⟩
  · rw [fixedDisp?_none hd hnone]
    exact ⟨rfl, Field.readsAs_of_fitsSigned (v := 0) (by cases w <;> decide) address⟩
  · rw [fixedDisp?_fixed hd hi (by rw [Immediate.fixed?, hv])]
    refine ⟨rfl, ?_⟩
    rcases htakes _ hr with hs | rfl
    · exact Field.readsAs_of_fitsSigned hs address
    · exact Field.readsAs_self address v
  · simp [fixedDisp?, hi, Immediate.fixed?, hv] at hd

theorem disp32_readsAs {m : Memory} {address : Width} {pcRelative : Bool} {f : Field} {d : Int}
    (hd : m.fixedDisp? = some d) (h : m.disp32 address pcRelative = .ok f) :
    f.size = 4 ∧ f.ReadsAs address d := by
  refine dispField_readsAs hd (fun v hv => ?_) h
  rw [decide_eq_true_eq] at hv
  exact hv.imp_right And.left

theorem disp16_readsAs {m : Memory} {f : Field} {d : Int} (hd : m.fixedDisp? = some d)
    (h : m.disp16 = .ok f) : f.size = 2 ∧ f.ReadsAs .word d :=
  dispField_readsAs hd (fun _ _ => .inr rfl) h

/-- The mode part says how long the displacement behind a base is, and it is not that of a form
without base. -/
theorem dispForm_readsAs {m : Memory} {rm noneCode modBits wide : Nat}
    {field : Except EncodingError Field} {address : Width} {f : Field} {d : Int}
    (hd : m.fixedDisp? = some d)
    (hwide : ∀ g, field = .ok g → g.size = wide ∧ g.ReadsAs address d)
    (h : m.dispForm rm noneCode field = .ok (modBits, f)) :
    modBits < 3 ∧ (modBits = 0 → rm ≠ noneCode) ∧ f.size = dispSize modBits wide ∧
      f.ReadsAs address d := by
  rcases dispForm_eq_ok h with ⟨hz, hne, rfl, rfl⟩ | ⟨hz, rfl, rfl⟩ | ⟨i, v, hi, hv, hr, rfl, rfl⟩ |
    ⟨rfl, hw⟩
  · rw [fixedDisp?_of_hasNoDisp hd hz]
    exact ⟨by decide, fun _ => hne, rfl, rfl⟩
  · rw [fixedDisp?_of_hasNoDisp hd hz]
    refine ⟨by decide, fun h0 => absurd h0 (by decide), rfl, ?_⟩
    exact Field.readsAs_of_fitsSigned (w := .byte) (v := 0) (by decide) address
  · rw [fixedDisp?_fixed hd hi hv]
    refine ⟨by decide, fun h0 => absurd h0 (by decide), rfl, ?_⟩
    exact Field.readsAs_of_fitsSigned (w := .byte) hr address
  · obtain ⟨hsize, hread⟩ := hwide f hw
    exact ⟨by decide, fun h0 => absurd h0 (by decide), hsize, hread⟩

/-! ## Forms -/

/-- The value of the registers of an address. -/
def registerValue (m : Memory) (content : Register → Int) : Int :=
  (m.base.map content).getD 0 + (m.index.map fun i => content i.register * i.scale.toInt).getD 0

/-- The value of an address with displacement `d`, before it is cut to its width. -/
def value (m : Memory) (d : Int) (content : Register → Int) : Int := m.registerValue content + d

/-- A form that decodes to an address with displacement `d`: the registers that its bytes name have
the same value, and the field behind them has the size they announce and is read as `d`. -/
structure DecodesTo (mode : Mode) (a : AddressForm) (m : Memory) (d : Int) : Prop where
  modBits_lt : a.mode < 3
  rm_lt : a.rm < 8
  registers : ∃ regs, regs.dispSize = a.disp.size ∧
    (∀ content, regs.value content = m.registerValue content) ∧
    ∀ tail, addressRegisters mode a.width a.rexX.isSet a.rexB.isSet a.mode a.rm
      (a.sib.toList ++ tail) = some (regs, tail)
  disp : a.disp.ReadsAs a.width d

/-- The index with its factor as a number. -/
def scaledIndex (m : Memory) : Option (Register × Int) :=
  m.index.map fun i => (i.register, i.scale.toInt)

theorem value_registers (m : Memory) (n : Nat) (content : Register → Int) :
    AddressRegisters.value ⟨m.base, m.scaledIndex, n⟩ content = m.registerValue content := by
  simp only [AddressRegisters.value, registerValue, scaledIndex, Option.map_map]
  rfl

/-- The index codes of a SIB byte name the index: code 4 is extended if it is one. -/
theorem indexCodes_decode {m : Memory} {w : Width} {scale code : Nat}
    (hindex : ∀ i ∈ m.index, i.register.isAddress = true ∧ i.register.width = w)
    (h : m.indexCodes = .ok (some (scale, code))) :
    scale < 4 ∧ code < 8 ∧ sibIndex w m.indexRex.isSet scale code = m.scaledIndex := by
  rcases indexCodes_eq_ok h with ⟨-, hnone⟩ | ⟨i, c, hi, hc, hext, heq⟩
  · cases hnone
  · cases heq
    obtain ⟨haddr, hwidth⟩ := hindex i hi
    obtain ⟨hlt, hscale⟩ := scaleCode_eq_ok hc
    have hrex : m.indexRex = i.register.rexBit := by rw [indexRex, hi]
    have hnamed : ¬ (i.register.code = 4 ∧ ¬ i.register.rexBit.isSet = true) := by
      rintro ⟨hfour, hnot⟩
      exact hnot (Register.isSet_rexBit (hext hfour))
    refine ⟨hlt, i.register.code_lt, ?_⟩
    rw [sibIndex, hrex, if_neg hnamed, ← hwidth, Register.ofCode_code haddr, scaledIndex, hi,
      Option.map_some, hscale]

theorem scaledIndex_of_indexCodes {m : Memory} (h : m.indexCodes = .ok none) :
    m.scaledIndex = none := by
  rcases indexCodes_eq_ok h with ⟨hi, -⟩ | ⟨i, c, -, -, -, heq⟩
  · rw [scaledIndex, hi]
    rfl
  · cases heq

/-- A SIB byte without base. -/
theorem wideRegisters_sib_absolute {mode : Mode} {w : Width} {rexX rexB : Bool} {scale index : Nat}
    (hs : scale < 4) (hi : index < 8) (tail : List UInt8) :
    wideRegisters mode w rexX rexB 0 4 (sibByte scale index 5 :: tail) =
      some (⟨none, sibIndex w rexX scale index, 4⟩, tail) := by
  simp only [wideRegisters, byteParts_sibByte hs hi (by decide : 5 < 8), and_self, if_true]

/-- A SIB byte with a base. -/
theorem wideRegisters_sib_based {mode : Mode} {w : Width} {rexX rexB : Bool}
    {modBits scale index base : Nat} (hs : scale < 4) (hi : index < 8) (hb : base < 8)
    (hne : modBits = 0 → base ≠ 5) (tail : List UInt8) :
    wideRegisters mode w rexX rexB modBits 4 (sibByte scale index base :: tail) =
      some (⟨some (.ofCode w rexB base), sibIndex w rexX scale index, dispSize modBits 4⟩, tail) := by
  have hbase : ¬ (modBits = 0 ∧ base = 5) := fun h => hne h.1 h.2
  simp only [wideRegisters, byteParts_sibByte hs hi hb, if_true, hbase, if_false]

theorem absoluteForm_registers {m : Memory} {w : Width} {index : Option (Nat × Nat)} (mode : Mode)
    (disp : Field) (hbase : m.base = none)
    (hindex : ∀ i ∈ m.index, i.register.isAddress = true ∧ i.register.width = w)
    (hi : m.indexCodes = .ok index) (tail : List UInt8) :
    let a := m.absoluteForm w mode index disp
    a.mode = 0 ∧ a.rm < 8 ∧
      wideRegisters mode w a.rexX.isSet a.rexB.isSet a.mode a.rm (a.sib.toList ++ tail) =
        some (⟨m.base, m.scaledIndex, 4⟩, tail) := by
  rw [hbase]
  cases index with
  | some codes =>
    obtain ⟨scale, code⟩ := codes
    obtain ⟨hs, hc, hsib⟩ := indexCodes_decode hindex hi
    simp only [absoluteForm, Option.toList_some, List.singleton_append]
    refine ⟨trivial, by decide, ?_⟩
    rw [wideRegisters_sib_absolute hs hc, hsib]
  | none =>
    rw [scaledIndex_of_indexCodes hi]
    by_cases hmode : mode = .bits64
    · simp only [absoluteForm, hmode, if_true, Option.toList_some, List.singleton_append]
      refine ⟨trivial, by decide, ?_⟩
      rw [wideRegisters_sib_absolute (by decide) (by decide)]
      rfl
    · simp only [absoluteForm, hmode, if_false]
      refine ⟨trivial, by decide, ?_⟩
      simp [wideRegisters, hmode]

theorem basedForm_registers {m : Memory} {w : Width} {base : Register} {index : Option (Nat × Nat)}
    {modBits : Nat} (mode : Mode) (disp : Field) (hbase : m.base = some base)
    (haddr : base.isAddress = true) (hwidth : base.width = w)
    (hindex : ∀ i ∈ m.index, i.register.isAddress = true ∧ i.register.width = w)
    (hi : m.indexCodes = .ok index) (hne : modBits = 0 → base.code ≠ 5) (tail : List UInt8) :
    let a := m.basedForm w base index modBits disp
    a.mode = modBits ∧ a.rm < 8 ∧
      wideRegisters mode w a.rexX.isSet a.rexB.isSet a.mode a.rm (a.sib.toList ++ tail) =
        some (⟨m.base, m.scaledIndex, dispSize modBits 4⟩, tail) := by
  have hlt := base.code_lt
  have hname : Register.ofCode w base.rexBit.isSet base.code = base := by
    rw [← hwidth, Register.ofCode_code haddr]
  rw [hbase]
  cases index with
  | some codes =>
    obtain ⟨scale, code⟩ := codes
    obtain ⟨hs, hc, hsib⟩ := indexCodes_decode hindex hi
    simp only [basedForm, Option.toList_some, List.singleton_append]
    refine ⟨trivial, by decide, ?_⟩
    rw [wideRegisters_sib_based hs hc hlt hne, hsib, hname]
  | none =>
    rw [scaledIndex_of_indexCodes hi]
    by_cases hfour : base.code = 4
    · simp only [basedForm, hfour, if_true, Option.toList_some, List.singleton_append]
      rw [hfour] at hlt hne hname
      refine ⟨trivial, by decide, ?_⟩
      rw [wideRegisters_sib_based (by decide) (by decide) hlt hne, hname]
      rfl
    · simp only [basedForm, hfour, if_false]
      refine ⟨trivial, hlt, ?_⟩
      have hfive : ¬ (modBits = 0 ∧ base.code = 5) := fun h => hne h.1 h.2
      simp [wideRegisters, hfour, hfive, hname]

/-- **Addresses of 32 and 64 bits** decode to what they came from. -/
theorem encodeWide_decodesTo {m : Memory} {w : Width} {mode : Mode} {a : AddressForm} {d : Int}
    (hw : w = .dword ∨ w = .qword) (hbase : ∀ base ∈ m.base, base.width = w)
    (hindex : ∀ i ∈ m.index, i.register.isAddress = true ∧ i.register.width = w)
    (hd : m.fixedDisp? = some d) (h : m.encodeWide w mode = .ok a) : DecodesTo mode a m d := by
  have hwidth := encodeWide_width h
  have hwide : ∀ rexX rexB modBits rm bytes, addressRegisters mode w rexX rexB modBits rm bytes =
      wideRegisters mode w rexX rexB modBits rm bytes := by
    rcases hw with rfl | rfl <;> intros <;> rfl
  obtain ⟨index, hi, h⟩ := encodeWide_eq_ok h
  rcases h with ⟨hb, disp, hdisp, rfl⟩ | ⟨base, hb, hptr, rfl, rfl, disp, hdisp, rfl⟩ |
    ⟨base, hb, haddr, modBits, disp, hdisp, rfl⟩
  · obtain ⟨hsize, hread⟩ := disp32_readsAs hd hdisp
    have hregs := absoluteForm_registers mode disp hb hindex hi
    refine ⟨?_, (hregs []).2.1, ⟨_, ?_, value_registers m 4, fun tail => ?_⟩, ?_⟩
    · rw [(hregs []).1]; decide
    · rw [disp_absoluteForm, hsize]
    · rw [hwidth, hwide]
      exact (hregs tail).2.2
    · rw [hwidth, disp_absoluteForm]
      exact hread
  · obtain ⟨hsize, hread⟩ := disp32_readsAs hd hdisp
    refine ⟨by simp, by simp, ⟨_, ?_, value_registers m 4, fun tail => ?_⟩, hread⟩
    · exact hsize.symm
    · rw [hwide, scaledIndex_of_indexCodes hi, hb, Register.eq_pointer hptr, hbase base hb]
      simp [wideRegisters]
  · obtain ⟨hlt, hne, hsize, hread⟩ := dispForm_readsAs hd (fun g => disp32_readsAs hd) hdisp
    have hregs := basedForm_registers mode disp hb haddr (hbase base hb) hindex hi hne
    refine ⟨?_, (hregs []).2.1, ⟨_, ?_, value_registers m (dispSize modBits 4), fun tail => ?_⟩, ?_⟩
    · rw [(hregs []).1]; exact hlt
    · rw [disp_basedForm, hsize]
    · rw [hwidth, hwide]
      exact (hregs tail).2.2
    · rw [hwidth, disp_basedForm]
      exact hread

/-! ## Addresses of 16 bits -/

theorem wordRegisters_of_mem {pair : Option Register × Option Register} {modBits rm : Nat}
    (h : (pair, rm) ∈ wordPairs) (hne : modBits = 0 → rm ≠ 6) :
    rm < 8 ∧ wordRegisters modBits rm = ⟨pair.1, pair.2.map (·, 1), dispSize modBits 2⟩ := by
  simp only [wordPairs, List.mem_cons, Prod.mk.injEq, List.not_mem_nil, or_false] at h
  rcases h with ⟨rfl, rfl⟩ | ⟨rfl, rfl⟩ | ⟨rfl, rfl⟩ | ⟨rfl, rfl⟩ | ⟨rfl, rfl⟩ | ⟨rfl, rfl⟩ |
    ⟨rfl, rfl⟩ | ⟨rfl, rfl⟩
  all_goals refine ⟨by decide, ?_⟩
  all_goals cases modBits with
    | zero => first | rfl | exact absurd rfl (hne rfl)
    | succ n => rfl

/-- Without factors the two registers of an address count alike. -/
theorem registerValue_unscaled {m : Memory} (h : ∀ i ∈ m.index, i.scale = 1)
    (content : Register → Int) :
    m.registerValue content =
      (m.base.map content).getD 0 + ((m.index.map Index.register).map content).getD 0 := by
  unfold registerValue
  cases hi : m.index with
  | none => rfl
  | some i =>
    have hone : i.scale.toInt = 1 := by rw [h i hi]; rfl
    simp [hone]

theorem value_wordRegisters (pair : Option Register × Option Register) (n : Nat)
    (content : Register → Int) :
    AddressRegisters.value ⟨pair.1, pair.2.map (·, 1), n⟩ content =
      (pair.1.map content).getD 0 + (pair.2.map content).getD 0 := by
  simp only [AddressRegisters.value, Option.map_map]
  cases pair.2 <;> simp

/-- **Addresses of 16 bits** decode to what they came from. -/
theorem encodeWord_decodesTo {m : Memory} {mode : Mode} {a : AddressForm} {d : Int}
    (hd : m.fixedDisp? = some d) (h : m.encodeWord mode = .ok a) : DecodesTo mode a m d := by
  obtain ⟨-, hscale, h⟩ := encodeWord_eq_ok h
  rcases h with ⟨hb, hi, disp, hdisp, rfl⟩ | ⟨rm, hpair, modBits, disp, hdisp, rfl⟩
  · obtain ⟨hsize, hread⟩ := disp16_readsAs hd hdisp
    refine ⟨by simp, by simp, ⟨⟨none, none, 2⟩, hsize.symm, ?_, fun tail => rfl⟩, hread⟩
    intro content
    rw [registerValue_unscaled hscale, hb, hi]
    rfl
  · obtain ⟨hlt, hne, hsize, hread⟩ := dispForm_readsAs hd (fun g => disp16_readsAs hd) hdisp
    rcases hpair with hmem | hmem
    · obtain ⟨hrm, hregs⟩ := wordRegisters_of_mem hmem hne
      refine ⟨hlt, hrm, ⟨wordRegisters modBits rm, ?_, fun content => ?_, fun tail => rfl⟩, hread⟩
      · rw [hregs, hsize]
      · rw [hregs, value_wordRegisters, registerValue_unscaled hscale]
    · -- The other order: the sum is the same.
      obtain ⟨hrm, hregs⟩ := wordRegisters_of_mem hmem hne
      refine ⟨hlt, hrm, ⟨wordRegisters modBits rm, ?_, fun content => ?_, fun tail => rfl⟩, hread⟩
      · rw [hregs, hsize]
      · rw [hregs, value_wordRegisters, registerValue_unscaled hscale, Int.add_comm]

theorem encode_decodesTo {m : Memory} {mode : Mode} {a : AddressForm} {d : Int}
    (hindex : ∀ i ∈ m.index, i.register.isAddress = true) (hd : m.fixedDisp? = some d)
    (h : m.encode mode = .ok a) : DecodesTo mode a m d := by
  obtain ⟨-, hbase, hwidth, h⟩ := encode_eq_ok h
  rcases h with ⟨-, h⟩ | ⟨hw, h⟩ | ⟨hw, -, h⟩
  · exact encodeWord_decodesTo hd h
  · rw [hw] at hbase hwidth
    exact encodeWide_decodesTo (.inl rfl) hbase (fun i hi => ⟨hindex i hi, hwidth i hi⟩) hd h
  · rw [hw] at hbase hwidth
    exact encodeWide_decodesTo (.inr rfl) hbase (fun i hi => ⟨hindex i hi, hwidth i hi⟩) hd h

/-- The bytes of a form that decodes to an address, and what follows them. -/
theorem DecodesTo.decodeAddress_eq {mode : Mode} {a : AddressForm} {m : Memory} {d : Int}
    (h : DecodesTo mode a m d) {reg : Nat} (hreg : reg < 8) (rest : List UInt8) :
    ∃ decoded : DecodedAddress,
      decodeAddress mode a.width a.rexX.isSet a.rexB.isSet
        (modrmByte a.mode reg a.rm :: (a.sib.toList ++ (a.disp.bytes ++ rest))) =
          some (decoded, rest) ∧
      decoded.reg = reg ∧
      ∀ content, decoded.value content % 2 ^ a.width.bits = m.value d content % 2 ^ a.width.bits := by
  obtain ⟨hmod, hrm, ⟨regs, hsize, hvalue, hregs⟩, hdisp⟩ := h
  refine ⟨⟨reg, regs, signedValue a.disp.bytes⟩, ?_, rfl, fun content => ?_⟩
  · have hthree : a.mode ≠ 3 := Nat.ne_of_lt hmod
    simp only [decodeAddress, byteParts_modrmByte (Nat.lt_succ_of_lt hmod) hreg hrm, hthree, if_false,
      hregs, Option.bind_eq_bind, Option.bind_some, hsize, readDisp_bytes]
    rfl
  · have hsum : regs.value content + signedValue a.disp.bytes =
        m.registerValue content + signedValue a.disp.bytes := by rw [hvalue]
    rw [DecodedAddress.value, hsum, Memory.value, Int.add_emod, hdisp, ← Int.add_emod]

end Memory

namespace OperandFields

/-- **Addresses round-trip.** For every mode, every register part and every address with a known
displacement and an index that can be one: where the address has an encoding, the processor reads its
bytes to the end and no further, finds the register part, and adds up to the same address for every
content of the registers. -/
theorem decodeAddress_withRm {f g : OperandFields} {reg : Nat} {o : Operand} {m : Memory}
    {mode : Mode} {d : Int} (hm : o.kind = .memory m) (hreg : reg < 8)
    (hindex : ∀ i ∈ m.index, i.register.isAddress = true) (hd : m.fixedDisp? = some d)
    (h : f.withRm reg o mode = .ok g) (rest : List UInt8) :
    ∃ w decoded, g.addressSize = some w ∧ w = m.effectiveWidth mode ∧
      decodeAddress mode w g.rex.x.isSet g.rex.b.isSet
        (g.modrm.toList ++ g.sib.toList ++ g.disp.bytes ++ rest) = some (decoded, rest) ∧
      decoded.reg = reg ∧
      ∀ content, decoded.value content % 2 ^ w.bits = m.value d content % 2 ^ w.bits := by
  rcases withRm_eq_ok h with ⟨r, hr, -⟩ | ⟨m', a, hm', ha, rfl⟩
  · rw [hm] at hr
    cases hr
  · rw [hm] at hm'
    cases hm'
    obtain ⟨hwidth, -⟩ := Memory.encode_eq_ok ha
    obtain ⟨decoded, hdecode, hfields⟩ :=
      (Memory.encode_decodesTo hindex hd ha).decodeAddress_eq hreg rest
    refine ⟨a.width, decoded, rfl, hwidth, ?_, hfields⟩
    simpa [rmAddress] using hdecode

/-- The base `r13` needs a displacement, and the index `r12` its extension. -/
theorem decodeAddress_withRm_r13 :
    ∃ g decoded, withRm (ofRoles .empty .free) 3
        (.ofMemory ⟨some (.general .qword 13), some ⟨.general .qword 12, 8⟩, none, none, none⟩ none
          .nowhere) .bits64 = .ok g ∧
      decodeAddress .bits64 .qword g.rex.x.isSet g.rex.b.isSet
        (g.modrm.toList ++ g.sib.toList ++ g.disp.bytes ++ [0x90]) = some (decoded, [0x90]) ∧
      decoded.reg = 3 ∧
      ∀ content, decoded.value content % 2 ^ 64 =
        (content (.general .qword 13) + content (.general .qword 12) * 8) % 2 ^ 64 := by
  obtain ⟨g, hg⟩ : ∃ g, withRm (ofRoles .empty .free) 3
      (.ofMemory ⟨some (.general .qword 13), some ⟨.general .qword 12, 8⟩, none, none, none⟩ none
        .nowhere) .bits64 = .ok g := ⟨_, rfl⟩
  obtain ⟨w, decoded, -, rfl, hdecode, hreg, hvalue⟩ :=
    decodeAddress_withRm rfl (by decide) (by decide) rfl hg [0x90]
  refine ⟨g, decoded, hg, hdecode, hreg, fun content => (hvalue content).trans ?_⟩
  simp [Memory.value, Memory.registerValue, Memory.effectiveWidth, Register.width, Width.bits]

end OperandFields
end IntelAsm
