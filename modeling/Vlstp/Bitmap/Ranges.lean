import Mathlib.Algebra.Ring.Int.Defs
import Vlstp.Framework.Footprint
import Vlstp.Bitmap

/-!
# Setting and clearing a range of bits

`bitmap_set` and `bitmap_clear` go through the words of a range of bits. The first word is masked by
`BITMAP_FIRST_WORD_MASK`, the last one by `BITMAP_LAST_WORD_MASK` if the range ends inside it, and
those between are not masked. They differ only in what they do with the mask, so they are one
definition with that as a parameter, `bitmapRange`.

Whatever the words are, the masks together let exactly the bits of the range through
(`rangeLoop_eq`): each bit of it is set, or cleared, no other bit changes, and a word without a bit
of it is not even read (`bitmapRanges_exact`).
-/

namespace Vlstp

/-! ### Definitions -/

/-- The common body of `bitmap_set` and `bitmap_clear` from word `p` on, when `len` bits are left
and `bits` of them fit the word. `change` is what is done to a word under a mask. -/
def rangeLoop (change : Word → Word → Word) (map : Ptr) (size : ℕ) :
    ℕ → ℕ → ℤ → ℤ → Word → Mem → Except Fault Mem
  | 0, _, _, _, _, _ => .error .diverge
  | fuel + 1, p, len, bits, mask, h =>
    if len - bits ≥ 0 then do
      let h ← h.write map p (change (← h.read map p) mask)
      rangeLoop change map size fuel (p + 1) (len - bits) 64 (BitVec.allOnes 64) h
    else if len ≠ 0 then do
      h.write map p (change (← h.read map p) (mask &&& lastWordMask size))
    else .ok h

/-- `bitmap_set` and `bitmap_clear`. The size is `unsigned`, 32 bits wide. Every turn but the first
and the last takes 64 bits. -/
def bitmapRange (change : Word → Word → Word) (map : Ptr) (start : ℕ) (len : ℤ) (h : Mem) :
    Except Fault Mem :=
  let size := ((start + len) % 2 ^ 32).toNat
  rangeLoop change map size (len.toNat / 64 + 2) (bitWord start) len (64 - ↑(start % 64))
    (firstWordMask start) h

/-- `bitmap_set`. -/
def bitmapSet : Ptr → ℕ → ℤ → Mem → Except Fault Mem :=
  bitmapRange fun word mask => word ||| mask

/-- `bitmap_clear`. -/
def bitmapClear : Ptr → ℕ → ℤ → Mem → Except Fault Mem :=
  bitmapRange fun word mask => word &&& ~~~mask

/-! ### The bits of a range, word by word -/

/-- The bits of word `k` that lie in `[start, stop)`. -/
def rangeMask (start stop k : ℕ) : Word :=
  BitVec.allOnes 64 <<< (start - 64 * k) &&& ~~~(BitVec.allOnes 64 <<< (stop - 64 * k))

/-- The word after the last one that has a bit of the `len` from `start` on. -/
def rangeEnd (start len : ℕ) : ℕ := if len = 0 then start / 64 else bitsToLongs (start + len)

section

variable {start stop len k j p : ℕ} {w : ℕ → Word} {mask : Word}

theorem getLsbD_allOnes_shiftLeft {m : ℕ} (hj : j < 64) :
    (BitVec.allOnes 64 <<< m).getLsbD j = decide (m ≤ j) := by
  rw [BitVec.getLsbD_shiftLeft, BitVec.getLsbD_allOnes, decide_eq_true hj, Bool.true_and,
    decide_eq_true (show j - m < 64 by omega), Bool.and_true, ← decide_not]
  exact decide_eq_decide.mpr Nat.not_lt

theorem getLsbD_rangeMask (hj : j < 64) :
    (rangeMask start stop k).getLsbD j = decide (start ≤ 64 * k + j ∧ 64 * k + j < stop) := by
  rw [rangeMask, BitVec.getLsbD_and, BitVec.getLsbD_not, getLsbD_allOnes_shiftLeft hj,
    getLsbD_allOnes_shiftLeft hj, decide_eq_true hj, Bool.true_and, ← decide_not, ← Bool.decide_and]
  exact decide_eq_decide.mpr (by omega)

/-- A word without a bit of the range. -/
theorem rangeMask_eq_zero (hk : 64 * (k + 1) ≤ start ∨ stop ≤ 64 * k ∨ stop ≤ start) :
    rangeMask start stop k = 0 := by
  refine BitVec.eq_of_getLsbD_eq fun j hj => ?_
  rw [getLsbD_rangeMask hj]
  exact (decide_eq_false (by omega)).trans BitVec.getLsbD_zero.symm

/-- A word that lies below the end of the range needs no mask but the one for its start. -/
theorem eq_rangeMask_of_le (hmask : ∀ j, j < 64 → mask.getLsbD j = decide (start ≤ 64 * p + j))
    (hp : 64 * (p + 1) ≤ stop) : mask = rangeMask start stop p := by
  refine BitVec.eq_of_getLsbD_eq fun j hj => ?_
  rw [hmask j hj, getLsbD_rangeMask hj]
  exact decide_eq_decide.mpr (by omega)

/-- In the word the range ends in, `BITMAP_LAST_WORD_MASK` cuts off the rest. -/
theorem and_lastWordMask_eq_rangeMask
    (hmask : ∀ j, j < 64 → mask.getLsbD j = decide (start ≤ 64 * p + j)) (hp : 64 * p < stop)
    (hend : stop < 64 * (p + 1)) : mask &&& lastWordMask stop = rangeMask start stop p := by
  refine BitVec.eq_of_getLsbD_eq fun j hj => ?_
  rw [BitVec.getLsbD_and, hmask j hj, getLsbD_lastWordMask (by omega), getLsbD_rangeMask hj,
    ← Bool.decide_and]
  exact decide_eq_decide.mpr (by omega)

theorem bitAt_or_rangeMask (w : ℕ → Word) (start stop i : ℕ) :
    bitAt (fun k => w k ||| rangeMask start stop k) i =
      (bitAt w i || decide (start ≤ i ∧ i < stop)) := by
  have hi := Nat.mod_lt i (by decide : 0 < 64)
  unfold bitAt
  rw [BitVec.getLsbD_or, getLsbD_rangeMask hi, Nat.div_add_mod]

theorem bitAt_and_not_rangeMask (w : ℕ → Word) (start stop i : ℕ) :
    bitAt (fun k => w k &&& ~~~rangeMask start stop k) i =
      (bitAt w i && !decide (start ≤ i ∧ i < stop)) := by
  have hi := Nat.mod_lt i (by decide : 0 < 64)
  unfold bitAt
  rw [BitVec.getLsbD_and, BitVec.getLsbD_not, getLsbD_rangeMask hi, Nat.div_add_mod,
    decide_eq_true hi, Bool.true_and]

end

/-! ### The loop -/

section

variable {h : Mem} {b start stop p : ℕ} {len bits : ℤ} {mask : Word} {w : ℕ → Word}

/-- **The loop changes the words of the range**, each under the bits of the range it has. On entry
the words before `p` are changed, and `mask` lets through the bits of the range from there on. -/
theorem rangeLoop_eq (change : Word → Word → Word) (fuel : ℕ)
    (hh : h.HoldsIn b (start / 64) (bitsToLongs stop) w) (hrange : start < stop)
    (hp : start / 64 ≤ p) (hle : 64 * p ≤ stop) (hlen : len = stop - max start (64 * p))
    (hbits : bits = 64 * (p + 1) - max start (64 * p))
    (hmask : ∀ j, j < 64 → mask.getLsbD j = decide (start ≤ 64 * p + j))
    (hfuel : stop < 64 * (p + fuel)) :
    rangeLoop change (some b) stop fuel p len bits mask
        (h.storeIn b (start / 64) p fun k => change (w k) (rangeMask start stop k)) =
      .ok (h.storeIn b (start / 64) (bitsToLongs stop)
        fun k => change (w k) (rangeMask start stop k)) := by
  -- on the turns left
  induction fuel generalizing p len bits mask with
  | zero => omega
  | succ fuel ih =>
    set v : ℕ → Word := fun k => change (w k) (rangeMask start stop k) with hv
    have hcell : 64 * p < stop → h.cell b p = some (w p) :=
      fun hlt => hh p hp (lt_bitsToLongs_iff.mpr hlt)
    unfold rangeLoop
    by_cases hfull : 64 * (p + 1) ≤ stop
    · -- the range goes on to the end of this word, or beyond
      have hword : change (w p) mask = v p := by
        rw [hv, eq_rangeMask_of_le hmask hfull]
      have hwrite := Heap.storeIn_write_succ (v := v) hp (hcell (by omega))
      rw [if_pos (by omega), Heap.storeIn_read (hcell (by omega)), Except.ok_bind, hword, hwrite,
        Except.ok_bind]
      refine ih (by omega) hfull (by omega) (by omega) (fun j hj => ?_) (by omega)
      rw [BitVec.getLsbD_allOnes, decide_eq_true hj, decide_eq_true (by omega)]
    · rw [if_neg (by omega)]
      by_cases hlt : 64 * p < stop
      · -- the range ends inside this word
        have hword : change (w p) (mask &&& lastWordMask stop) = v p := by
          rw [hv, and_lastWordMask_eq_rangeMask hmask hlt (by omega)]
        have hlast : bitsToLongs stop = p + 1 := by
          unfold bitsToLongs
          omega
        rw [if_pos (by omega), Heap.storeIn_read (hcell hlt), Except.ok_bind, hword, hlast]
        exact Heap.storeIn_write_succ (v := v) hp (hcell hlt)
      · -- it ended with the word before
        have hlast : bitsToLongs stop = p := by
          unfold bitsToLongs
          omega
        rw [if_neg (by omega), hlast]

/-- **A range of bits changed.** The words that have a bit of it are all that has to be there. -/
theorem bitmapRange_eq (change : Word → Word → Word) {len : ℕ}
    (hh : h.HoldsIn b (start / 64) (rangeEnd start len) w) (hsize : start + len < 2 ^ 31) :
    bitmapRange change (some b) start len h =
      .ok (h.storeIn b (start / 64) (rangeEnd start len)
        fun k => change (w k) (rangeMask start (start + len) k)) := by
  have hstop : (((start : ℤ) + (len : ℤ)) % 2 ^ 32).toNat = start + len := by omega
  simp only [bitmapRange, hstop, bitWord, Int.toNat_natCast]
  by_cases hlen : len = 0
  · -- nothing to do, and no word is looked at
    have hend : rangeEnd start len = start / 64 := if_pos hlen
    rw [hend, Heap.storeIn_of_le le_rfl, rangeLoop, if_neg (by omega), if_neg (by omega)]
  · have hend : rangeEnd start len = bitsToLongs (start + len) := if_neg hlen
    rw [hend] at hh ⊢
    have hmask : ∀ j, j < 64 →
        (firstWordMask start).getLsbD j = decide (start ≤ 64 * (start / 64) + j) := by
      intro j hj
      rw [firstWordMask, getLsbD_allOnes_shiftLeft hj]
      exact decide_eq_decide.mpr (by omega)
    have hloop := rangeLoop_eq change (len / 64 + 2) hh (by omega) le_rfl (by omega)
      (show (len : ℤ) = _ by omega) (show (64 - ↑(start % 64) : ℤ) = _ by omega) hmask (by omega)
    rwa [Heap.storeIn_of_le le_rfl] at hloop

end

/-! ### Exactly the range -/

/-- The words of block `b` that have one of the `len` bits from `start` on. -/
def RangeWords (b start len b' k : ℕ) : Prop :=
  b' = b ∧ ∃ i, i < start + len ∧ start ≤ i ∧ i / 64 = k

instance (b start len : ℕ) : DecidableRel (RangeWords b start len) :=
  fun b' k => inferInstanceAs (Decidable (b' = b ∧ ∃ i, i < start + len ∧ start ≤ i ∧ i / 64 = k))

/-- What setting and clearing the `len` bits from `start` on come to, for the bitmap `w` of `n`
words at `b`. -/
structure RangesExactly (h : Mem) (b n start len : ℕ) (w : ℕ → Word) : Prop where
  set : ∃ h', bitmapSet (some b) start len h = .ok h' ∧ ∀ i, i < 64 * n →
    testBit i (some b) h' = .ok (bitAt w i || decide (start ≤ i ∧ i < start + len))
  clear : ∃ h', bitmapClear (some b) start len h = .ok h' ∧ ∀ i, i < 64 * n →
    testBit i (some b) h' = .ok (bitAt w i && !decide (start ≤ i ∧ i < start + len))
  set_footprint : h.WritesOnly (RangeWords b start len) (bitmapSet (some b) start len)
  clear_footprint : h.WritesOnly (RangeWords b start len) (bitmapClear (some b) start len)

section

variable {h : Mem} {b n start len k : ℕ} {w : ℕ → Word}

theorem rangeWords_of_lt (hlo : start / 64 ≤ k) (hk : k < rangeEnd start len) :
    RangeWords b start len b k := by
  unfold rangeEnd at hk
  by_cases hlen : len = 0
  · rw [if_pos hlen] at hk
    omega
  · rw [if_neg hlen, lt_bitsToLongs_iff] at hk
    exact ⟨rfl, max start (64 * k), by omega, by omega, by omega⟩

theorem rangeEnd_le (hin : start + len ≤ 64 * n) : rangeEnd start len ≤ n := by
  unfold rangeEnd bitsToLongs
  by_cases hlen : len = 0
  · rw [if_pos hlen]
    omega
  · rw [if_neg hlen]
    omega

theorem writesOnly_bitmapRange (change : Word → Word → Word) (hh : h.Holds b n w)
    (hsize : start + len < 2 ^ 31) (hin : start + len ≤ 64 * n) :
    h.WritesOnly (RangeWords b start len) (bitmapRange change (some b) start len) := by
  have hwords : h.HoldsIn b (start / 64) (rangeEnd start len) w := hh.holdsIn (rangeEnd_le hin)
  have hS : ∀ k, start / 64 ≤ k → k < rangeEnd start len → RangeWords b start len b k :=
    fun k hlo hk => rangeWords_of_lt hlo hk
  exact Heap.writesOnly_of_storeIn hS (bitmapRange_eq change hwords hsize)
    (bitmapRange_eq change (hwords.only hS) hsize)

/-- The bitmap afterwards. What is not stored would be changed under no bit at all. -/
theorem holds_bitmapRange (change : Word → Word → Word) (hchange : ∀ x, change x 0 = x)
    (hh : h.Holds b n w) (start len : ℕ) :
    (h.storeIn b (start / 64) (rangeEnd start len)
        fun k => change (w k) (rangeMask start (start + len) k)).Holds b n
      fun k => change (w k) (rangeMask start (start + len) k) := by
  refine hh.storeIn fun k hk => ?_
  have hout : 64 * (k + 1) ≤ start ∨ start + len ≤ 64 * k ∨ start + len ≤ start := by
    unfold rangeEnd bitsToLongs at hk
    by_cases hlen : len = 0
    · omega
    · rw [if_neg hlen] at hk
      omega
  rw [rangeMask_eq_zero hout, hchange]

/-- **Setting and clearing a range are exact**: every bit of it is set, or cleared, every other bit
is as before, and no word without a bit of it is read or written. -/
theorem bitmapRanges_exact (hh : h.Holds b n w) (hsize : start + len < 2 ^ 31)
    (hin : start + len ≤ 64 * n) : RangesExactly h b n start len w := by
  have hwords : h.HoldsIn b (start / 64) (rangeEnd start len) w := hh.holdsIn (rangeEnd_le hin)
  constructor
  case set =>
    refine ⟨_, bitmapRange_eq _ hwords hsize, fun i hi => ?_⟩
    have hnone : ∀ x : Word, x ||| 0 = x := fun _ => BitVec.or_zero
    have hafter := holds_bitmapRange (fun x mask => x ||| mask) hnone hh start len
    rw [testBit_eq hafter (by omega), bitAt_or_rangeMask]
  case clear =>
    refine ⟨_, bitmapRange_eq _ hwords hsize, fun i hi => ?_⟩
    have hnone : ∀ x : Word, x &&& ~~~(0 : Word) = x := fun _ => BitVec.and_allOnes
    have hafter := holds_bitmapRange (fun x mask => x &&& ~~~mask) hnone hh start len
    rw [testBit_eq hafter (by omega), bitAt_and_not_rangeMask]
  case set_footprint => exact writesOnly_bitmapRange _ hh hsize hin
  case clear_footprint => exact writesOnly_bitmapRange _ hh hsize hin

end

/-- A range that starts inside a word and ends with the next one. -/
theorem bitmapRanges_exact_two_words :
    RangesExactly (Heap.ofBlock 3 fun _ => 5) 0 3 60 68 fun _ => 5 :=
  bitmapRanges_exact (Heap.holds_ofBlock 3 _) (by decide) (by decide)

end Vlstp
