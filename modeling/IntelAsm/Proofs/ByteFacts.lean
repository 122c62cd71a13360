/-
Reading fields back from their bytes. `unsignedValue` and `signedValue` are the
two readings of a string of bytes, least significant first; the second one
extends the sign. Writing keeps the value modulo the range of the field, so
a value in the signed range is what the signed reading gives
(`Width.FitsSigned.signedValue_littleEndian`), and a value in the range of
either reading is what one of the two gives.
-/
import Mathlib
import IntelAsm.Instruction

namespace IntelAsm

/-- The number that bytes stand for. -/
def unsignedValue : List UInt8 → Nat
  | [] => 0
  | b :: bs => b.toNat + 256 * unsignedValue bs

/-- The number that bytes stand for if the highest bit is a sign. -/
def signedValue (bs : List UInt8) : Int := (unsignedValue bs : Int).bmod (256 ^ bs.length)

/-- The remainder by a product: the remainder by one factor, and that of the quotient by the
other. -/
theorem emod_mul_eq (v : Int) {m n : Int} (hm : 0 < m) (hn : 0 < n) :
    v % (m * n) = v % m + m * (v / m % n) := by
  have hv := Int.emod_add_mul_ediv v m
  have hq := Int.emod_add_mul_ediv (v / m) n
  have h0 := Int.emod_nonneg v (Int.ne_of_gt hm)
  have h1 := Int.emod_lt_of_pos v hm
  have h2 := Int.emod_nonneg (v / m) (Int.ne_of_gt hn)
  have h3 := Int.emod_lt_of_pos (v / m) hn
  refine ((Int.ediv_emod_unique (q := v / m / n) (Int.mul_pos hm hn)).2 ⟨?_, ?_, ?_⟩).2
  · calc v % m + m * (v / m % n) + m * n * (v / m / n)
        = v % m + m * (v / m % n + n * (v / m / n)) := by
          rw [Int.mul_add, Int.mul_assoc, Int.add_assoc]
      _ = v := by rw [hq, hv]
  · exact Int.add_nonneg h0 (Int.mul_nonneg (Int.le_of_lt hm) h2)
  · calc v % m + m * (v / m % n) < m + m * (v / m % n) := Int.add_lt_add_right h1 _
      _ = m * (v / m % n + 1) := by rw [Int.mul_add, Int.mul_one, Int.add_comm]
      _ ≤ m * n := Int.mul_le_mul_of_nonneg_left h3 (Int.le_of_lt hm)

theorem unsignedValue_littleEndian (n : Nat) (v : Int) :
    (unsignedValue (littleEndian n v) : Int) = v % 256 ^ n := by
  induction n generalizing v with
  | zero => exact (Int.emod_one v).symm
  | succ n ih =>
    have hlow : ((v % 256).toNat : Int) = v % 256 := Int.toNat_of_nonneg (Int.emod_nonneg v (by decide))
    have hbyte : (UInt8.ofNat (v % 256).toNat).toNat = (v % 256).toNat := by
      rw [UInt8.toNat_ofNat', Nat.mod_eq_of_lt (by omega)]
    -- The lowest byte is the remainder by 256, and the others are those of the quotient.
    have hsplit : v % 256 ^ (n + 1) = v % 256 + 256 * (v / 256 % 256 ^ n) := by
      rw [Int.pow_succ, Int.mul_comm, emod_mul_eq v (by decide) (Int.pow_pos (by decide))]
    simp only [littleEndian, unsignedValue, Int.natCast_add, Int.natCast_mul, hbyte, hlow, ih, hsplit]
    rfl

theorem signedValue_littleEndian (n : Nat) (v : Int) :
    signedValue (littleEndian n v) = v.bmod (256 ^ n) := by
  have hcast : (256 ^ n : Int) = ((256 ^ n : Nat) : Int) := by simp
  rw [signedValue, unsignedValue_littleEndian, length_littleEndian, hcast, Int.emod_bmod]

namespace Width

theorem pow_bytes (w : Width) : (256 : Int) ^ w.bytes = 2 ^ w.bits := by
  cases w <;> rfl

theorem eq_bytes_of_ofBytes? {n : Nat} {w : Width} (h : ofBytes? n = some w) : n = w.bytes := by
  unfold ofBytes? at h
  split at h <;> cases h <;> rfl

theorem FitsSigned.bmod_eq {w : Width} {v : Int} (h : w.FitsSigned v) :
    v.bmod (256 ^ w.bytes) = v := by
  obtain ⟨h1, h2⟩ := h
  cases w <;> simp only [minSigned, maxSigned, bytes] at h1 h2 ⊢ <;>
    exact Int.bmod_eq_of_le (by omega) (by omega)

theorem FitsSigned.signedValue_littleEndian {w : Width} {v : Int} (h : w.FitsSigned v) :
    signedValue (littleEndian w.bytes v) = v := by
  rw [IntelAsm.signedValue_littleEndian, h.bmod_eq]

/-- A value of a width is signed, or the remainder that its bytes stand for. -/
theorem Fits.fitsSigned_or {w : Width} {v : Int} (h : w.Fits v) :
    w.FitsSigned v ∨ v % 256 ^ w.bytes = v := by
  obtain ⟨h1, h2⟩ := h
  by_cases hv : v ≤ w.maxSigned
  · exact .inl ⟨h1, hv⟩
  · refine .inr (Int.emod_eq_of_lt ?_ ?_)
    · cases w <;> simp only [maxSigned] at hv <;> omega
    · cases w <;> simp only [maxUnsigned, bytes] at h2 ⊢ <;> omega

/-- **Nothing is lost**: one of the two readings of its bytes is the value. -/
theorem Fits.read_littleEndian {w : Width} {v : Int} (h : w.Fits v) :
    signedValue (littleEndian w.bytes v) = v ∨
      (unsignedValue (littleEndian w.bytes v) : Int) = v := by
  rcases h.fitsSigned_or with hs | hu
  · exact .inl hs.signedValue_littleEndian
  · exact .inr (by rw [unsignedValue_littleEndian, hu])

end Width

namespace Instruction

/-- The bytes of a field stand at its offset in the instruction. -/
theorem field_bytes (i : Instruction) (kind : FieldKind) :
    (i.bytes.drop (i.fieldOffset kind)).take (i.field kind).size = (i.field kind).bytes := by
  cases kind with
  | displacement =>
    simp only [bytes, fieldOffset, field, List.append_assoc, List.drop_left]
    rw [← i.disp.length_bytes, List.take_left]
  | immediate =>
    have hlen : (i.header ++ i.disp.bytes).length = i.header.length + i.disp.size := by simp
    simp only [bytes, fieldOffset, field, List.append_assoc]
    rw [← List.append_assoc, ← hlen, List.drop_left, ← i.imm.length_bytes, List.take_left]
  | branch =>
    have hlen : (i.header ++ i.disp.bytes ++ i.imm.bytes).length =
        i.header.length + i.disp.size + i.imm.size := by simp; omega
    simp only [bytes, fieldOffset, field]
    rw [← hlen, List.drop_left, ← i.rel.length_bytes, List.take_length]

end Instruction
end IntelAsm
