import Vlstp.Framework.Select
import Vlstp.Bitmap

/-!
# Positions and ordinals of set bits

`bitmap_pos_to_ord` counts the set bits below a position, and `bitmap_ord_to_pos` goes from one set
bit to the next until it has passed as many. In the terms of `Vlstp.Framework.Select`, the one is
the rank of a set bit and the other selects by it, so each undoes the other
(`ordinals_inverse`).
-/

namespace Vlstp

/-! ### Definitions -/

/-- `bitmap_pos_to_ord`. -/
def bitmapPosToOrd (buf : Ptr) (pos nbits : ℕ) (h : Mem) : Except Fault ℤ := do
  -- `pos >= nbits || !test_bit(pos, buf)`
  if pos ≥ nbits then return -1
  else if !(← testBit pos buf h) then return -1
  else return ↑(← _bitmapWeight buf pos h)

/-- The loop of `bitmap_ord_to_pos`, which ends when `ord` is used up or the size is reached. -/
def ordToPosLoop (buf : Ptr) (nbits : ℕ) (h : Mem) : ℕ → ℕ → Except Fault ℕ
  | 0, pos => .ok pos
  | ord + 1, pos =>
    if pos < nbits then do
      let pos ← findNextBit buf nbits (pos + 1) h
      ordToPosLoop buf nbits h ord pos
    else .ok pos

/-- `bitmap_ord_to_pos`. -/
def bitmapOrdToPos (buf : Ptr) (ord nbits : ℕ) (h : Mem) : Except Fault ℕ := do
  let pos ← findFirstBit buf nbits h
  ordToPosLoop buf nbits h ord pos

section

variable {h : Mem} {b nbits pos j : ℕ} {w : ℕ → Word}

/-! ### Counting -/

theorem bitmapPosToOrd_of_ge (hpos : nbits ≤ pos) :
    bitmapPosToOrd (some b) pos nbits h = .ok (-1) := if_pos hpos

/-- The ordinal of a set bit is its rank. -/
theorem bitmapPosToOrd_eq (hh : h.Holds b (bitsToLongs nbits) w) (hpos : pos < nbits) :
    bitmapPosToOrd (some b) pos nbits h =
      .ok (if bitAt w pos = true then ↑(bitRank (bitAt w) pos) else -1) := by
  have hle : bitsToLongs pos ≤ bitsToLongs nbits := bitsToLongs_mono (Nat.le_of_lt hpos)
  have htest := testBit_eq hh (lt_bitsToLongs_iff.mpr (show 64 * (pos / 64) < nbits by omega))
  rw [bitmapPosToOrd, if_neg (Nat.not_le.mpr hpos), htest, Except.ok_bind]
  cases hbit : bitAt w pos with
  | false => rfl
  | true =>
    rw [_bitmapWeight_eq hh hle]
    rfl

/-! ### Walking -/

/-- **The loop selects**: from the set bit of rank `j` on, it comes to that of rank `j + ord`. -/
theorem ordToPosLoop_select (hh : h.Holds b (bitsToLongs nbits) w) (ord : ℕ)
    (hsel : IsSelect (bitAt w) nbits j pos) :
    ∃ i, ordToPosLoop (some b) nbits h ord pos = .ok i ∧
      IsSelect (bitAt w) nbits (j + ord) i := by
  -- on the set bits left to pass
  induction ord generalizing j pos with
  | zero => exact ⟨pos, rfl, hsel⟩
  | succ ord ih =>
    rw [ordToPosLoop]
    by_cases hlt : pos < nbits
    · have hnext := isFirst_firstIn (bitAt w) (pos + 1) nbits
      rw [if_pos hlt, findNextBit_eq hh le_rfl, Except.ok_bind, Nat.add_comm ord 1, ← Nat.add_assoc]
      exact ih (hsel.succ hlt hnext)
    · rw [if_neg hlt]
      exact ⟨pos, rfl, hsel.of_past (by omega) (by omega)⟩

/-- `bitmap_ord_to_pos` returns the set bit of rank `ord`, or `nbits`. -/
theorem bitmapOrdToPos_select (hh : h.Holds b (bitsToLongs nbits) w) (ord : ℕ) :
    ∃ i, bitmapOrdToPos (some b) ord nbits h = .ok i ∧ IsSelect (bitAt w) nbits ord i := by
  have hfirst := isFirst_firstIn (bitAt w) 0 nbits
  rw [bitmapOrdToPos, findFirstBit_eq hh le_rfl, Except.ok_bind]
  have hloop := ordToPosLoop_select hh ord (IsSelect.zero hfirst)
  rwa [Nat.zero_add] at hloop

end

/-! ### Inverse to each other -/

/-- The maps between the set bits of the bitmap `w` at `b` and their ordinals are inverse to each
other, and answer -1 and `nbits` elsewhere. -/
structure OrdinalsInverse (h : Mem) (b nbits : ℕ) (w : ℕ → Word) : Prop where
  of_pos : ∀ pos, pos < nbits → bitAt w pos = true →
    ∃ ord : ℕ, bitmapPosToOrd (some b) pos nbits h = .ok ord ∧ ord < 2 ^ 31 ∧
      bitmapOrdToPos (some b) ord nbits h = .ok pos
  of_ord : ∀ ord, ord < popCount w nbits →
    ∃ pos, bitmapOrdToPos (some b) ord nbits h = .ok pos ∧ pos < nbits ∧ bitAt w pos = true ∧
      bitmapPosToOrd (some b) pos nbits h = .ok (ord : ℤ)
  neg_one_iff : ∀ pos, bitmapPosToOrd (some b) pos nbits h = .ok (-1) ↔
    nbits ≤ pos ∨ bitAt w pos = false
  past : ∀ ord, popCount w nbits ≤ ord → bitmapOrdToPos (some b) ord nbits h = .ok nbits

/-- **Ordinals and positions are inverse to each other.** -/
theorem ordinals_inverse {h : Mem} {b nbits : ℕ} {w : ℕ → Word}
    (hh : h.Holds b (bitsToLongs nbits) w) (hbits : nbits < 2 ^ 31) :
    OrdinalsInverse h b nbits w where
  of_pos := by
    intro pos hpos hset
    obtain ⟨i, hok, hsel⟩ := bitmapOrdToPos_select hh (bitRank (bitAt w) pos)
    have hrank := bitRank_le (bitAt w) pos
    refine ⟨bitRank (bitAt w) pos, ?_, by omega, ?_⟩
    · rw [bitmapPosToOrd_eq hh hpos, if_pos hset]
    · rw [hok, (IsSelect.of_set hset hpos).unique hsel]
  of_ord := by
    intro ord hord
    obtain ⟨i, hok, hsel⟩ := bitmapOrdToPos_select hh ord
    have hlt : i < nbits := hsel.lt_iff.mpr hord
    obtain ⟨hset, hrank⟩ := hsel.here hlt
    refine ⟨i, hok, hlt, hset, ?_⟩
    rw [bitmapPosToOrd_eq hh hlt, if_pos hset, hrank]
  neg_one_iff := by
    intro pos
    by_cases hpos : nbits ≤ pos
    · exact iff_of_true (bitmapPosToOrd_of_ge hpos) (Or.inl hpos)
    · rw [bitmapPosToOrd_eq hh (by omega), Except.ok.injEq]
      cases bitAt w pos with
      | false => exact iff_of_true rfl (Or.inr rfl)
      | true => exact iff_of_false (by simp) (by simp [hpos])
  past := by
    intro ord hord
    obtain ⟨i, hok, hsel⟩ := bitmapOrdToPos_select hh ord
    have hle := hsel.le
    have hnot : ¬ i < nbits := fun hlt => absurd (hsel.lt_iff.mp hlt) (Nat.not_lt.mpr hord)
    rw [hok, show i = nbits by omega]

/-- A bitmap whose set bits are 0 and 2 of every word. -/
theorem ordinals_inverse_seventy :
    OrdinalsInverse (Heap.ofBlock 2 fun _ => 5) 0 70 fun _ => 5 :=
  ordinals_inverse (Heap.holds_ofBlock 2 _) (by decide)

end Vlstp
