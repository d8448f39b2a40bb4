import Vlstp.Framework.BitSeq

/-!
# Sequence numbers (`vlstp.h`)

`TSN_lt` and `TSN_lte` compare two 32-bit sequence numbers by the sign bit of their difference. What
the TSN map needs of them is stated through the offset `(s - t).toNat` of one number from another:
`TSN_lt` asks whether it is at least `2 ^ 31` (`tsnLt_ne_zero_iff`), so it depends on the difference
alone (`tsnLt_add_right`). Every comparison the map makes is one of the forms under "Offsets from
the base", where `t - b` is the offset of a number from the first one the map has a bit for.
-/

namespace Vlstp

/-- A transmission sequence number, `uint32_t`. -/
abbrev Tsn := BitVec 32

theorem toNat_one_u32 : (1 : BitVec 32).toNat = 1 := rfl

theorem toNat_one_u16 : (1 : BitVec 16).toNat = 1 := rfl

/-- `TSN_SIGN_BIT`. -/
def tsnSignBit : BitVec 32 := 1#32 <<< 31

/-- `TSN_lt`, as the `int` whose non-zero values mean "true". -/
def tsnLt (s t : Tsn) : BitVec 32 := (s - t) &&& tsnSignBit

/-- `TSN_lte`. -/
def tsnLte (s t : Tsn) : Bool := s == t || (s - t) &&& tsnSignBit != 0

/-- The sign bit of a number is set from half the space on. -/
theorem and_tsnSignBit_ne_zero_iff (x : BitVec 32) : x &&& tsnSignBit ≠ 0 ↔ 2 ^ 31 ≤ x.toNat := by
  have hmod : x.toNat % 2 ^ (31 + 1) = x.toNat := Nat.mod_eq_of_lt x.isLt
  rw [tsnSignBit, and_bit_ne_zero_iff_le (by decide), hmod]

theorem tsnLt_ne_zero_iff (s t : Tsn) : tsnLt s t ≠ 0 ↔ 2 ^ 31 ≤ (s - t).toNat :=
  and_tsnSignBit_ne_zero_iff _

theorem tsnLt_eq_zero_iff (s t : Tsn) : tsnLt s t = 0 ↔ (s - t).toNat < 2 ^ 31 := by
  rw [← not_iff_not, ← ne_eq, tsnLt_ne_zero_iff, Nat.not_lt]

theorem tsnLte_iff (s t : Tsn) : tsnLte s t = true ↔ s = t ∨ 2 ^ 31 ≤ (s - t).toNat := by
  rw [← and_tsnSignBit_ne_zero_iff, tsnLte, Bool.or_eq_true, beq_iff_eq, bne_iff_ne]

/-! ### Stream sequence numbers -/

/-- A stream sequence number, `uint16_t`. -/
abbrev Ssn := BitVec 16

/-- `SSN_SIGN_BIT`, an `int`. -/
def ssnSignBit : BitVec 32 := 1#32 <<< 15

/-- `SSN_lt`. The numbers are promoted to `int` before they are subtracted. -/
def ssnLt (s t : Ssn) : BitVec 32 := (s.setWidth 32 - t.setWidth 32) &&& ssnSignBit

/-- `SSN_lte`. -/
def ssnLte (s t : Ssn) : Bool := s == t || (s.setWidth 32 - t.setWidth 32) &&& ssnSignBit != 0

/-- Bit 15 of the difference in 32 bits is the sign bit of the difference in 16. -/
theorem sub_and_ssnSignBit_ne_zero_iff (s t : Ssn) :
    (s.setWidth 32 - t.setWidth 32) &&& ssnSignBit ≠ 0 ↔ 2 ^ 15 ≤ (s - t).toNat := by
  have hs := s.isLt
  have ht := t.isLt
  have hmod : (s.setWidth 32 - t.setWidth 32).toNat % 2 ^ (15 + 1) = (s - t).toNat := by
    simp only [BitVec.toNat_sub, BitVec.toNat_setWidth]
    omega
  rw [ssnSignBit, and_bit_ne_zero_iff_le (by decide), hmod]

theorem ssnLt_ne_zero_iff (s t : Ssn) : ssnLt s t ≠ 0 ↔ 2 ^ 15 ≤ (s - t).toNat :=
  sub_and_ssnSignBit_ne_zero_iff s t

theorem ssnLte_iff (s t : Ssn) : ssnLte s t = true ↔ s = t ∨ 2 ^ 15 ≤ (s - t).toNat := by
  rw [← sub_and_ssnSignBit_ne_zero_iff, ssnLte, Bool.or_eq_true, beq_iff_eq, bne_iff_ne]

/-! ### Offsets from the base -/

section Offsets

variable (t b : Tsn)

/-- `TSN_lt(tsn, base + k)` fails on the `k` numbers' far side: from `base + k` on. -/
theorem tsnLt_add_eq_zero_iff {k : ℕ} (hk : k < 2 ^ 31) :
    tsnLt t (b + BitVec.ofNat 32 k) = 0 ↔ k ≤ (t - b).toNat ∧ (t - b).toNat < 2 ^ 31 + k := by
  rw [tsnLt_eq_zero_iff]
  simp only [BitVec.toNat_sub, BitVec.toNat_add, BitVec.toNat_ofNat]
  omega

/-- `TSN_lte(tsn, base - 1)`, the test for an old number. -/
theorem tsnLte_sub_one_iff {c : Tsn} (hb : b = c + 1) :
    tsnLte t c = true ↔ 2 ^ 31 ≤ (t - b).toNat + 1 := by
  rw [tsnLte_iff, ← BitVec.toNat_inj, hb]
  simp only [BitVec.toNat_sub, BitVec.toNat_add, toNat_one_u32]
  omega

/-- `TSN_lt(max, tsn)`, for a `max` and a `tsn` both near the base. -/
theorem tsnLt_offset_ne_zero_iff {c : Tsn} (hb : b = c + 1) {k : ℕ} (hk : k < 2 ^ 31)
    (ht : (t - b).toNat + 1 < 2 ^ 31) :
    tsnLt (c + BitVec.ofNat 32 k) t ≠ 0 ↔ k < (t - b).toNat + 1 := by
  rw [tsnLt_ne_zero_iff]
  rw [hb] at ht ⊢
  simp only [BitVec.toNat_sub, BitVec.toNat_add, BitVec.toNat_ofNat, toNat_one_u32] at ht ⊢
  omega

/-- A number is the base plus its offset. -/
theorem base_add_offset : b + BitVec.ofNat 32 (t - b).toNat = t := by
  apply BitVec.eq_of_toNat_eq
  simp only [BitVec.toNat_sub, BitVec.toNat_add, BitVec.toNat_ofNat]
  omega

theorem offset_base_add {k : ℕ} (hk : k < 2 ^ 32) : (b + BitVec.ofNat 32 k - b).toNat = k := by
  simp only [BitVec.toNat_sub, BitVec.toNat_add, BitVec.toNat_ofNat]
  omega

end Offsets

/-! ### Translation -/

theorem add_sub_add_right (s t k : Tsn) : s + k - (t + k) = s - t := by
  apply BitVec.eq_of_toNat_eq
  simp only [BitVec.toNat_sub, BitVec.toNat_add]
  omega

theorem tsnLt_add_right (s t k : Tsn) : tsnLt (s + k) (t + k) = tsnLt s t := by
  rw [tsnLt, tsnLt, add_sub_add_right]

theorem tsnLte_add_right (s t k : Tsn) : tsnLte (s + k) (t + k) = tsnLte s t := by
  have hinj : s + k = t + k ↔ s = t := by
    refine ⟨fun h => ?_, fun h => by rw [h]⟩
    have := congrArg (fun x => x - k) h
    simpa using this
  rw [Bool.eq_iff_iff, tsnLte_iff, tsnLte_iff, add_sub_add_right, hinj]

end Vlstp
