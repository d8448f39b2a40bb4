import Vlstp.Framework.Footprint
import Vlstp.Bitmap.Loops

/-!
# Shifting a bitmap

`__bitmap_shift_right` and `__bitmap_shift_left` move the bits of a bitmap over any number of words.
The destination may be the source, as the TSN map has it when it moves its base: each loop runs in
the direction in which the words a turn reads have not been written yet (`shiftRightTurn_eq`,
`shiftLeftTurn_eq`).

The two agree with the shift of a sequence of bits, up to the end of the last word for a right shift
and below the size for a left shift, which leaves the bits above the size behind. Neither touches a
word that is not of one of the bitmaps. A right shift after a left shift by as much brings the bits
back that have not left the bitmap (`bitmapShifts_exact`).
-/

namespace Vlstp

/-- A left shift from `s` to `d`, then a right shift from `d` to `e`. -/
def shiftLeftRight (e d s : Ptr) (shift nbits : ℕ) (h : Mem) : Except Fault Mem := do
  let h ← _bitmapShiftLeft d s shift nbits h
  _bitmapShiftRight e d shift nbits h

/-- What the shifts from the bitmap `w` at `s` to the bitmap at `d` come to. -/
structure ShiftsExactly (h : Mem) (d s shift nbits : ℕ) (w : ℕ → Word) : Prop where
  right : ∃ h', _bitmapShiftRight (some d) (some s) shift nbits h = .ok h' ∧
    ∀ i, i < 64 * bitsToLongs nbits →
      testBit i (some d) h' = .ok (decide (i + shift < nbits) && bitAt w (i + shift))
  left : ∃ h', _bitmapShiftLeft (some d) (some s) shift nbits h = .ok h' ∧
    ∀ i, i < nbits → testBit i (some d) h' = .ok (decide (shift ≤ i) && bitAt w (i - shift))
  right_footprint :
    h.WritesOnly (BitmapWords [d, s] nbits) (_bitmapShiftRight (some d) (some s) shift nbits)
  left_footprint :
    h.WritesOnly (BitmapWords [d, s] nbits) (_bitmapShiftLeft (some d) (some s) shift nbits)
  round_trip : ∀ e u, h.Holds e (bitsToLongs nbits) u →
    ∃ h', shiftLeftRight (some e) (some d) (some s) shift nbits h = .ok h' ∧
      ∀ i, i < nbits → testBit i (some e) h' = .ok (decide (i < nbits - shift) && bitAt w i)

section

variable {h : Mem} {d s e shift nbits : ℕ} {w v u : ℕ → Word}

theorem _bitmapShiftRight_store (hd : h.Holds d (bitsToLongs nbits) v)
    (hs : h.Holds s (bitsToLongs nbits) w) (hshift : shift ≤ nbits) (hbits : nbits < 2 ^ 32) :
    _bitmapShiftRight (some d) (some s) shift nbits h =
      .ok (h.store d (bitsToLongs nbits) (shiftedRight w shift nbits)) := by
  rw [_bitmapShiftRight_eq hd hs le_rfl le_rfl hshift hbits, Heap.rewritten_all]

theorem _bitmapShiftLeft_store (hd : h.Holds d (bitsToLongs nbits) v)
    (hs : h.Holds s (bitsToLongs nbits) w) (hshift : shift ≤ nbits) :
    _bitmapShiftLeft (some d) (some s) shift nbits h =
      .ok (h.store d (bitsToLongs nbits) (shiftedLeft w shift)) := by
  rw [_bitmapShiftLeft_eq hd hs le_rfl le_rfl hshift, Heap.rewritten_all]

/-- A bit of a bitmap that was just stored. -/
theorem testBit_store {n i : ℕ} (hi : i < 64 * n) :
    testBit i (some d) (h.store d n w) = .ok (bitAt w i) :=
  testBit_eq Heap.holds_store (by omega)

/-- Bringing the bits back: those that a left shift moved above the size are cut off. -/
theorem bitAt_shiftedRight_shiftedLeft (w : ℕ → Word) (shift nbits i : ℕ) :
    bitAt (shiftedRight (shiftedLeft w shift) shift nbits) i =
      (decide (i < nbits - shift) && bitAt w i) := by
  rw [bitAt_shiftedRight, bitAt_shiftedLeft, Nat.add_sub_cancel,
    decide_eq_true (Nat.le_add_left shift i), Bool.true_and]
  congr 1
  exact decide_eq_decide.mpr (by omega)

/-- **The shifts are exact**, in place or not. -/
theorem bitmapShifts_exact (hd : h.Holds d (bitsToLongs nbits) v)
    (hs : h.Holds s (bitsToLongs nbits) w) (hshift : shift ≤ nbits) (hbits : nbits < 2 ^ 32) :
    ShiftsExactly h d s shift nbits w := by
  have hd' : (h.only (BitmapWords [d, s] nbits)).Holds d (bitsToLongs nbits) v :=
    hd.only fun k hk => ⟨by simp, hk⟩
  have hs' : (h.only (BitmapWords [d, s] nbits)).Holds s (bitsToLongs nbits) w :=
    hs.only fun k hk => ⟨by simp, hk⟩
  have hsize := le_mul_bitsToLongs nbits
  have hleft := _bitmapShiftLeft_store hd hs hshift
  have hright := _bitmapShiftRight_store hd hs hshift hbits
  constructor
  case right =>
    refine ⟨_, hright, fun i hi => ?_⟩
    rw [testBit_store hi, bitAt_shiftedRight]
  case left =>
    refine ⟨_, hleft, fun i hi => ?_⟩
    rw [testBit_store (by omega), bitAt_shiftedLeft]
  case right_footprint =>
    have honly := _bitmapShiftRight_store hd' hs' hshift hbits
    exact Heap.writesOnly_of_store (fun k hk => ⟨by simp, hk⟩) hright honly
  case left_footprint =>
    have honly := _bitmapShiftLeft_store hd' hs' hshift
    exact Heap.writesOnly_of_store (fun k hk => ⟨by simp, hk⟩) hleft honly
  case round_trip =>
    intro e u he
    have hmid : (h.store d (bitsToLongs nbits) (shiftedLeft w shift)).Holds d (bitsToLongs nbits)
        (shiftedLeft w shift) := Heap.holds_store
    obtain ⟨u', he'⟩ : ∃ u', (h.store d (bitsToLongs nbits) (shiftedLeft w shift)).Holds e
        (bitsToLongs nbits) u' := by
      by_cases hed : e = d
      · subst hed
        exact ⟨_, hmid⟩
      · exact ⟨u, (Heap.holds_store_of_ne hed).mpr he⟩
    have hback := _bitmapShiftRight_store he' hmid hshift hbits
    have hrun : shiftLeftRight (some e) (some d) (some s) shift nbits h =
        _bitmapShiftRight (some e) (some d) shift nbits
          (h.store d (bitsToLongs nbits) (shiftedLeft w shift)) := by
      rw [shiftLeftRight, hleft, Except.ok_bind]
    refine ⟨_, hrun.trans hback, fun i hi => ?_⟩
    rw [testBit_store (by omega), bitAt_shiftedRight_shiftedLeft]

end

/-- A shift in place by more than a word. -/
theorem bitmapShifts_exact_in_place :
    ShiftsExactly (Heap.ofBlock 2 fun _ => 5) 0 0 65 100 fun _ => 5 :=
  bitmapShifts_exact (Heap.holds_ofBlock 2 _) (Heap.holds_ofBlock 2 _) (by decide) (by decide)

end Vlstp
