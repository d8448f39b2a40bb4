import Vlstp.Bitops

/-!
# Bitmaps (`bitmap.h`, `bitmap.c`)

The bitmap operations the rest of the library uses. Each inline function of `bitmap.h` has a fast
path for sizes the compiler knows to be at most one word; `constant` says whether the compiler sees
the size as a constant, and `smallConstNbits` chooses the branch as `small_const_nbits` does. The
functions `__bitmap_*` of `bitmap.c` are `_bitmap*` here.

As for the bit operations, each has one lemma about a block whose words are known. The shift may be
in place, as the TSN map calls it, or between two blocks: `_bitmapShiftRight_eq` covers both.
-/

namespace Vlstp

/-- `small_const_nbits(nbits)`. -/
def smallConstNbits (constant : Bool) (nbits : ℕ) : Bool := constant && decide (nbits ≤ 64)

/-! ### Zeroing and copying -/

/-- `bitmap_zero`. -/
def bitmapZero (constant : Bool) (dst : Ptr) (nbits : ℕ) (h : Mem) : Except Fault Mem :=
  if smallConstNbits constant nbits then h.write dst 0 0
  else h.fill dst 0 (bitsToLongs nbits) 0

/-- `bitmap_copy`. -/
def bitmapCopy (constant : Bool) (dst src : Ptr) (nbits : ℕ) (h : Mem) : Except Fault Mem :=
  if smallConstNbits constant nbits then do h.write dst 0 (← h.read src 0)
  else h.copy dst src (bitsToLongs nbits)

section

variable {h : Mem} {b b' n n' : ℕ} {w w' : ℕ → Word}

theorem bitmapZero_eq (hh : h.Holds b n w) {nbits : ℕ} (hn : bitsToLongs nbits ≤ n) :
    bitmapZero false (some b) nbits h =
      .ok (h.store b n fun k => if k < bitsToLongs nbits then 0 else w k) := by
  simp only [bitmapZero, smallConstNbits, Bool.false_and, Bool.false_eq_true, if_false]
  rw [hh.fill (by omega)]
  congr 2
  funext k
  exact if_congr (by omega) rfl rfl

theorem bitmapCopy_eq (hh : h.Holds b n w) (hh' : h.Holds b' n' w') {nbits : ℕ}
    (hn : bitsToLongs nbits ≤ n) (hn' : bitsToLongs nbits ≤ n') :
    bitmapCopy false (some b) (some b') nbits h =
      .ok (h.store b n fun k => if k < bitsToLongs nbits then w' k else w k) := by
  simp only [bitmapCopy, smallConstNbits, Bool.false_and, Bool.false_eq_true, if_false]
  exact hh.copy hh' hn hn'

end

/-! ### Counting -/

/-- `__bitmap_weight`. -/
def _bitmapWeight (bitmap : Ptr) (bits : ℕ) (h : Mem) : Except Fault ℕ := do
  let lim := bits / 64
  let w ← (List.range lim).foldlM (fun w k => do return w + hweightLong (← h.read bitmap k)) 0
  if bits % 64 ≠ 0 then
    return w + hweightLong ((← h.read bitmap lim) &&& lastWordMask bits)
  else return w

/-- `bitmap_weight`. -/
def bitmapWeight (constant : Bool) (src : Ptr) (nbits : ℕ) (h : Mem) : Except Fault ℕ :=
  if smallConstNbits constant nbits then do
    return hweightLong ((← h.read src 0) &&& lastWordMask nbits)
  else _bitmapWeight src nbits h

/-- The number of set bits of the sequence `w` among the first `m`. -/
def popCount (w : ℕ → Word) (m : ℕ) : ℕ := Nat.count (fun i => bitAt w i = true) m

theorem getLsbD_lastWordMask {nbits j : ℕ} (h : nbits % 64 ≠ 0) :
    (lastWordMask nbits).getLsbD j = decide (j < nbits % 64) := by
  rw [lastWordMask, BitVec.getLsbD_ushiftRight, BitVec.getLsbD_allOnes]
  exact decide_eq_decide.mpr (by omega)

/-- The set bits of the sequence among the first `64 * k + m`, where the last `m` are in word
`k`. -/
theorem popCount_mul_add (w : ℕ → Word) (k : ℕ) {m : ℕ} (hm : m ≤ 64) :
    popCount w (64 * k + m) = popCount w (64 * k) + popBelow (w k) m := by
  unfold popCount popBelow
  rw [Nat.count_add]
  congr 1
  rw [Nat.count_eq_card_filter_range, Nat.count_eq_card_filter_range]
  refine congrArg _ (Finset.filter_congr fun j hj => ?_)
  rw [bitAt_mul_add w k (by have := Finset.mem_range.mp hj; omega)]

/-- Masking a word with the last-word mask keeps the bits the size covers, so it leaves their count
alone. -/
theorem popBelow_and_lastWordMask (x : Word) {nbits : ℕ} (h : nbits % 64 ≠ 0) :
    popBelow (x &&& lastWordMask nbits) 64 = popBelow x (nbits % 64) := by
  -- count the covered bits and the bits above them apart; the mask leaves none of the latter
  have hsplit : popBelow (x &&& lastWordMask nbits) 64 =
      popBelow (x &&& lastWordMask nbits) (nbits % 64 + (64 - nbits % 64)) :=
    congrArg _ (by omega)
  rw [hsplit]
  unfold popBelow
  rw [Nat.count_add, Nat.count_eq_card_filter_range, Nat.count_eq_card_filter_range,
    Nat.count_eq_card_filter_range]
  have hhigh : (Finset.range (64 - nbits % 64)).filter
      (fun j => (x &&& lastWordMask nbits).getLsbD (nbits % 64 + j) = true) = ∅ := by
    refine Finset.filter_eq_empty_iff.mpr fun j _ => ?_
    rw [BitVec.getLsbD_and, getLsbD_lastWordMask h]
    simp
  rw [hhigh, Finset.card_empty, Nat.add_zero]
  refine congrArg _ (Finset.filter_congr fun j hj => ?_)
  rw [BitVec.getLsbD_and, getLsbD_lastWordMask h]
  simp [Finset.mem_range.mp hj]

section

variable {h : Mem} {b n : ℕ} {w : ℕ → Word}

/-- `__bitmap_weight` counts the set bits among the first `bits`. -/
theorem _bitmapWeight_eq (hh : h.Holds b n w) {bits : ℕ} (hn : bitsToLongs bits ≤ n) :
    _bitmapWeight (some b) bits h = .ok (popCount w bits) := by
  -- after `k` turns the accumulator holds the count over the first `k` words
  have hloop : (List.range (bits / 64)).foldlM
      (fun acc k => do return acc + hweightLong (← h.read (some b) k)) 0
        = .ok (popCount w (64 * (bits / 64))) := by
    refine (foldlM_range (fun k => popCount w (64 * k)) (bits / 64) fun k hk => ?_)
    have hk' : k < bitsToLongs bits := lt_bitsToLongs_iff.mpr (by omega)
    rw [hh.read (by omega), Except.ok_bind, Except.pure_eq, hweightLong_eq,
      ← popCount_mul_add w k (Nat.le_refl _), Nat.mul_succ]
  rw [_bitmapWeight, hloop, Except.ok_bind]
  by_cases hr : bits % 64 = 0
  · rw [if_neg (by simpa using hr), Except.pure_eq, show 64 * (bits / 64) = bits by omega]
  · -- the last word is only partly covered
    have hk : bits / 64 < bitsToLongs bits := lt_bitsToLongs_iff.mpr (by omega)
    rw [if_pos hr, hh.read (by omega), Except.ok_bind, Except.pure_eq, hweightLong_eq,
      popBelow_and_lastWordMask _ hr, ← popCount_mul_add w _ (by omega), Nat.div_add_mod]

theorem bitmapWeight_eq (hh : h.Holds b n w) {nbits : ℕ} (hn : bitsToLongs nbits ≤ n) :
    bitmapWeight false (some b) nbits h = .ok (popCount w nbits) := by
  simp only [bitmapWeight, smallConstNbits, Bool.false_and, Bool.false_eq_true, if_false]
  exact _bitmapWeight_eq hh hn

end

/-! ### Shifting right -/

/-- `unsigned` subtraction, 32 bits wide. -/
def subU32 (a b : ℕ) : ℕ := (2 ^ 32 + a - b) % 2 ^ 32

theorem subU32_eq {a b : ℕ} (hba : b ≤ a) (ha : a < 2 ^ 32) : subU32 a b = a - b := by
  unfold subU32
  omega

/-- One turn of the loop of `__bitmap_shift_right`. -/
def shiftRightTurn (dst src : Ptr) (off rem lim : ℕ) (mask : Word) (h : Mem) (k : ℕ) :
    Except Fault Mem := do
  let upper ←
    if rem = 0 ∨ off + k + 1 ≥ lim then pure 0
    else do
      let upper ← h.read src (off + k + 1)
      let upper := if off + k + 1 = lim - 1 then upper &&& mask else upper
      pure (upper <<< (64 - rem))
  let lower ← h.read src (off + k)
  let lower := if off + k = lim - 1 then lower &&& mask else lower
  h.write dst k (lower >>> rem ||| upper)

/-- `__bitmap_shift_right`. -/
def _bitmapShiftRight (dst src : Ptr) (shift nbits : ℕ) (h : Mem) : Except Fault Mem := do
  let lim := bitsToLongs nbits
  let off := shift / 64
  let rem := shift % 64
  let mask := lastWordMask nbits
  -- `for (k = 0; off + k < lim; ++k)`
  let h ← (List.range (lim - off)).foldlM (shiftRightTurn dst src off rem lim mask) h
  if off ≠ 0 then h.fill dst (subU32 lim off) off 0 else return h

/-- `bitmap_shift_right`. -/
def bitmapShiftRight (constant : Bool) (dst src : Ptr) (shift nbits : ℕ) (h : Mem) :
    Except Fault Mem :=
  if smallConstNbits constant nbits then do
    h.write dst 0 (((← h.read src 0) &&& lastWordMask nbits) >>> shift)
  else _bitmapShiftRight dst src shift nbits h

/-- The words of a bitmap of `nbits` bits with the unused bits of the last one cleared, and nothing
after it. -/
def trimmed (w : ℕ → Word) (nbits k : ℕ) : Word :=
  if k < bitsToLongs nbits then
    if k = bitsToLongs nbits - 1 then w k &&& lastWordMask nbits else w k
  else 0

/-- The words a right shift of a bitmap of `nbits` bits leaves. -/
def shiftedRight (w : ℕ → Word) (shift nbits k : ℕ) : Word :=
  trimmed w nbits (shift / 64 + k) >>> (shift % 64) |||
    if shift % 64 = 0 then 0 else trimmed w nbits (shift / 64 + k + 1) <<< (64 - shift % 64)

theorem trimmed_of_lt {w : ℕ → Word} {nbits k : ℕ} (hk : k < bitsToLongs nbits) :
    trimmed w nbits k = if k = bitsToLongs nbits - 1 then w k &&& lastWordMask nbits else w k :=
  if_pos hk

theorem trimmed_of_ge {w : ℕ → Word} {nbits k : ℕ} (hk : bitsToLongs nbits ≤ k) :
    trimmed w nbits k = 0 :=
  if_neg (by omega)

theorem bitAt_trimmed (w : ℕ → Word) (nbits i : ℕ) :
    bitAt (trimmed w nbits) i = (decide (i < nbits) && bitAt w i) := by
  have hi := Nat.mod_lt i (by decide : 0 < 64)
  unfold bitAt trimmed
  by_cases hk : i / 64 < bitsToLongs nbits
  · have hk' := lt_bitsToLongs_iff.mp hk
    rw [if_pos hk]
    by_cases hlast : i / 64 = bitsToLongs nbits - 1
    · -- in the last word the mask decides; a size that fills it has a mask of ones
      rw [if_pos hlast, BitVec.getLsbD_and, lastWordMask, BitVec.getLsbD_ushiftRight,
        BitVec.getLsbD_allOnes, Bool.and_comm]
      congr 1
      unfold bitsToLongs at hlast
      exact decide_eq_decide.mpr (by omega)
    · -- every word before the last one is covered whole
      have hlt : i < nbits := by unfold bitsToLongs at hlast hk; omega
      rw [if_neg hlast]
      simp [hlt]
  · have hge : ¬ i < nbits := fun h => hk (lt_bitsToLongs_iff.mpr (by omega))
    rw [if_neg hk]
    simp [hge]

/-- **A right shift is exact**: bit `i` of the result is bit `i + shift` of the source if that is
within the size, and `0` otherwise, up to the end of the last word. -/
theorem bitAt_shiftedRight (w : ℕ → Word) (shift nbits i : ℕ) :
    bitAt (shiftedRight w shift nbits) i =
      (decide (i + shift < nbits) && bitAt w (i + shift)) := by
  have hi := Nat.mod_lt i (by decide : 0 < 64)
  have hr := Nat.mod_lt shift (by decide : 0 < 64)
  calc bitAt (shiftedRight w shift nbits) i
      = (shiftedRight w shift nbits (i / 64)).getLsbD (i % 64) := rfl
    _ = bitAt (trimmed w nbits) (64 * (i / 64) + i % 64 + (64 * (shift / 64) + shift % 64)) :=
        bitAt_stitch (trimmed w nbits) hr hi
    _ = bitAt (trimmed w nbits) (i + shift) := congrArg _ (by omega)
    _ = (decide (i + shift < nbits) && bitAt w (i + shift)) := bitAt_trimmed ..

section

variable {h : Mem} {d s n m : ℕ} {w w' : ℕ → Word}

/-- Turn `k` of the loop writes word `k` of the shifted bitmap. It reads only words of the source
that no earlier turn has written, also when the destination is the source. -/
theorem shiftRightTurn_eq (hd : h.Holds d n w') (hs : h.Holds s m w) {shift nbits k : ℕ}
    (hk : shift / 64 + k < bitsToLongs nbits) (hn : bitsToLongs nbits ≤ n)
    (hm : bitsToLongs nbits ≤ m) :
    shiftRightTurn (some d) (some s) (shift / 64) (shift % 64) (bitsToLongs nbits)
        (lastWordMask nbits) (h.rewritten d n w' (shiftedRight w shift nbits) 0 k) k =
      .ok (h.rewritten d n w' (shiftedRight w shift nbits) 0 (k + 1)) := by
  have hread : ∀ j, k ≤ j → j < bitsToLongs nbits →
      (h.rewritten d n w' (shiftedRight w shift nbits) 0 k).read (some s) j = .ok (w j) :=
    fun j hkj hj => hd.rewritten_read hs (by omega) (by omega) (by omega)
  have hlower := hread (shift / 64 + k) (by omega) hk
  rw [← Heap.rewritten_write_succ (Nat.zero_le k) (show k < n by omega)]
  unfold shiftRightTurn
  by_cases hup : shift % 64 = 0 ∨ shift / 64 + k + 1 ≥ bitsToLongs nbits
  · -- no upper part: the shift is by whole words, or this is the last word of the source
    simp only [if_pos hup, Except.pure_eq, Except.ok_bind, hlower]
    congr 1
    rw [shiftedRight, trimmed_of_lt hk]
    congr 1
    rcases hup with h0 | hge
    · rw [if_pos h0]
    · rw [trimmed_of_ge hge]
      simp
  · -- the word is stitched together from two words of the source, both not overwritten yet
    have hr : shift % 64 ≠ 0 := fun h => hup (Or.inl h)
    have hlt : shift / 64 + k + 1 < bitsToLongs nbits := by omega
    simp only [if_neg hup, Except.pure_eq, Except.ok_bind, hread _ (by omega) hlt, hlower]
    rw [shiftedRight, if_neg hr, trimmed_of_lt hk, trimmed_of_lt hlt]

/-- A word the loop does not reach would only take bits from beyond the last word. -/
theorem shiftedRight_eq_zero {shift nbits k : ℕ} (hk : bitsToLongs nbits ≤ shift / 64 + k) :
    shiftedRight w shift nbits k = 0 := by
  rw [shiftedRight, trimmed_of_ge hk, trimmed_of_ge (Nat.le_succ_of_le hk)]
  simp

/-- **`__bitmap_shift_right`, in place or not**: the destination reads as the shifted bitmap, and
nothing else changes. -/
theorem _bitmapShiftRight_eq (hd : h.Holds d n w') (hs : h.Holds s m w) {shift nbits : ℕ}
    (hn : bitsToLongs nbits ≤ n) (hm : bitsToLongs nbits ≤ m) (hshift : shift ≤ nbits)
    (hbits : nbits < 2 ^ 32) :
    _bitmapShiftRight (some d) (some s) shift nbits h =
      .ok (h.rewritten d n w' (shiftedRight w shift nbits) 0 (bitsToLongs nbits)) := by
  set lim := bitsToLongs nbits with hlim
  have hoff : shift / 64 ≤ lim := by rw [hlim]; unfold bitsToLongs; omega
  have hlim32 : lim < 2 ^ 32 := by rw [hlim]; unfold bitsToLongs; omega
  have hloop := foldlM_range
    (f := shiftRightTurn (some d) (some s) (shift / 64) (shift % 64) lim (lastWordMask nbits))
    (h.rewritten d n w' (shiftedRight w shift nbits) 0) (lim - shift / 64) fun k hk =>
      shiftRightTurn_eq hd hs (by omega) hn hm
  rw [hd.rewritten_self (Nat.le_refl 0)] at hloop
  rw [_bitmapShiftRight, hloop, Except.ok_bind]
  by_cases hz : shift / 64 = 0
  · -- the loop wrote every word, and no `memset` follows
    rw [if_neg (by simpa using hz), Except.pure_eq, hz, Nat.sub_zero]
  · -- the `memset` clears the `off` words the loop left out
    rw [if_pos hz, subU32_eq hoff hlim32]
    unfold Heap.rewritten
    rw [Heap.holds_store.fill (by omega), Heap.store_store]
    refine congrArg _ (Heap.store_congr fun j _ => ?_)
    by_cases hout : lim - shift / 64 ≤ j ∧ j < lim
    · rw [if_pos (by omega), if_pos (by omega), shiftedRight_eq_zero (by omega)]
    · rw [if_neg (by omega)]
      exact if_congr (by omega) rfl rfl

theorem bitmapShiftRight_eq (hd : h.Holds d n w') (hs : h.Holds s m w) {shift nbits : ℕ}
    (hn : bitsToLongs nbits ≤ n) (hm : bitsToLongs nbits ≤ m) (hshift : shift ≤ nbits)
    (hbits : nbits < 2 ^ 32) :
    bitmapShiftRight false (some d) (some s) shift nbits h =
      .ok (h.store d n fun k =>
        if k < bitsToLongs nbits then shiftedRight w shift nbits k else w' k) := by
  simp only [bitmapShiftRight, smallConstNbits, Bool.false_and, Bool.false_eq_true, if_false]
  rw [_bitmapShiftRight_eq hd hs hn hm hshift hbits]
  exact congrArg _ (Heap.store_congr fun k _ => if_congr (by omega) rfl rfl)

end

end Vlstp
