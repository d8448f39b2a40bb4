import Vlstp.Bitmap

/-!
# The loops of `bitmap.c`

The functions `__bitmap_*` that `Vlstp.Bitmap` does not have yet, for bitmaps of any size. Those
that differ only in the word operation are one definition with the operation as a parameter:

* `bitmapMasked` is `__bitmap_and` and `__bitmap_andnot`, which clear the unused bits of the last
  word and return whether a bit of the result is set;
* `bitmapUnmasked` is `__bitmap_or` and `__bitmap_xor`, which write whole words;
* `bitmapScan` is the loop of `__bitmap_equal`, `__bitmap_intersects` and `__bitmap_subset`, which
  stops at the first word that decides the answer.

Each has one lemma about blocks whose words are known. The destination may be one of the operands: a
turn reads no word that an earlier turn has written.
-/

namespace Vlstp

/-! ### Definitions -/

/-- One turn of the loop of `__bitmap_and` and `__bitmap_andnot`: word `k` of the destination, which
is also or-ed to `result`. -/
def maskedTurn (word : Word → Word → Word) (dst bitmap1 bitmap2 : Ptr) (s : Word × Mem) (k : ℕ) :
    Except Fault (Word × Mem) := do
  let v := word (← s.2.read bitmap1 k) (← s.2.read bitmap2 k)
  let h ← s.2.write dst k v
  return (s.1 ||| v, h)

/-- The common body of `__bitmap_and` and `__bitmap_andnot`. -/
def bitmapMasked (word : Word → Word → Word) (dst bitmap1 bitmap2 : Ptr) (bits : ℕ) (h : Mem) :
    Except Fault (Bool × Mem) := do
  let lim := bits / 64
  let s ← (List.range lim).foldlM (maskedTurn word dst bitmap1 bitmap2) (0, h)
  let s ←
    if bits % 64 ≠ 0 then
      maskedTurn (fun x y => word x y &&& lastWordMask bits) dst bitmap1 bitmap2 s lim
    else pure s
  return (s.1 != 0, s.2)

/-- `__bitmap_and`. -/
def _bitmapAnd : Ptr → Ptr → Ptr → ℕ → Mem → Except Fault (Bool × Mem) :=
  bitmapMasked fun x y => x &&& y

/-- `__bitmap_andnot`. -/
def _bitmapAndnot : Ptr → Ptr → Ptr → ℕ → Mem → Except Fault (Bool × Mem) :=
  bitmapMasked fun x y => x &&& ~~~y

/-- The common body of `__bitmap_or` and `__bitmap_xor`. -/
def bitmapUnmasked (word : Word → Word → Word) (dst bitmap1 bitmap2 : Ptr) (bits : ℕ) (h : Mem) :
    Except Fault Mem :=
  (List.range (bitsToLongs bits)).foldlM
    (fun h k => do h.write dst k (word (← h.read bitmap1 k) (← h.read bitmap2 k))) h

/-- `__bitmap_or`. -/
def _bitmapOr : Ptr → Ptr → Ptr → ℕ → Mem → Except Fault Mem :=
  bitmapUnmasked fun x y => x ||| y

/-- `__bitmap_xor`. -/
def _bitmapXor : Ptr → Ptr → Ptr → ℕ → Mem → Except Fault Mem :=
  bitmapUnmasked fun x y => x ^^^ y

/-- `dst[k] = ~src[k]`. -/
def complementTurn (dst src : Ptr) (h : Mem) (k : ℕ) : Except Fault Mem := do
  h.write dst k (~~~(← h.read src k))

/-- `__bitmap_complement`. -/
def _bitmapComplement (dst src : Ptr) (bits : ℕ) (h : Mem) : Except Fault Mem := do
  let lim := bits / 64
  let h ← (List.range lim).foldlM (complementTurn dst src) h
  if bits % 64 ≠ 0 then complementTurn dst src h lim else return h

/-- The loop that stops at the first pair of words that decides. -/
def scanLoop (decides : Word → Word → Bool) (bitmap1 bitmap2 : Ptr) (h : Mem) :
    List ℕ → Except Fault Bool
  | [] => .ok false
  | k :: ks => do
    if decides (← h.read bitmap1 k) (← h.read bitmap2 k) then return true
    else scanLoop decides bitmap1 bitmap2 h ks

/-- The common body of `__bitmap_equal`, `__bitmap_intersects` and `__bitmap_subset`: whether some
pair of words decides, and of the last pair only the bits `BITMAP_LAST_WORD_MASK` lets through. -/
def bitmapScan (decides : Word → Word → Bool) (word : Word → Word → Word) (bitmap1 bitmap2 : Ptr)
    (bits : ℕ) (h : Mem) : Except Fault Bool := do
  let lim := bits / 64
  if ← scanLoop decides bitmap1 bitmap2 h (List.range lim) then return true
  else if bits % 64 ≠ 0 then
    return word (← h.read bitmap1 lim) (← h.read bitmap2 lim) &&& lastWordMask bits != 0
  else return false

/-- `__bitmap_equal`. -/
def _bitmapEqual (bitmap1 bitmap2 : Ptr) (bits : ℕ) (h : Mem) : Except Fault Bool := do
  return !(← bitmapScan (fun x y => x != y) (fun x y => x ^^^ y) bitmap1 bitmap2 bits h)

/-- `__bitmap_intersects`. -/
def _bitmapIntersects (bitmap1 bitmap2 : Ptr) (bits : ℕ) (h : Mem) : Except Fault Bool :=
  bitmapScan (fun x y => x &&& y != 0) (fun x y => x &&& y) bitmap1 bitmap2 bits h

/-- `__bitmap_subset`. -/
def _bitmapSubset (bitmap1 bitmap2 : Ptr) (bits : ℕ) (h : Mem) : Except Fault Bool := do
  return !(← bitmapScan (fun x y => x &&& ~~~y != 0) (fun x y => x &&& ~~~y) bitmap1 bitmap2 bits h)

/-- One turn of the loop of `__bitmap_shift_left`. -/
def shiftLeftTurn (dst src : Ptr) (off rem : ℕ) (h : Mem) (k : ℕ) : Except Fault Mem := do
  let lower ←
    if rem ≠ 0 ∧ k > 0 then do pure ((← h.read src (k - 1)) >>> (64 - rem))
    else pure 0
  let upper := (← h.read src k) <<< rem
  h.write dst (k + off) (lower ||| upper)

/-- `__bitmap_shift_left`. -/
def _bitmapShiftLeft (dst src : Ptr) (shift nbits : ℕ) (h : Mem) : Except Fault Mem := do
  let lim := bitsToLongs nbits
  let off := shift / 64
  let rem := shift % 64
  -- `for (k = lim - off - 1; k >= 0; --k)`
  let h ← (List.range (lim - off)).reverse.foldlM (shiftLeftTurn dst src off rem) h
  if off ≠ 0 then h.fill dst 0 off 0 else return h

/-! ### Whole words and the last one -/

theorem bitsToLongs_of_dvd {bits : ℕ} (h : bits % 64 = 0) : bitsToLongs bits = bits / 64 := by
  unfold bitsToLongs
  omega

theorem bitsToLongs_of_not_dvd {bits : ℕ} (h : bits % 64 ≠ 0) :
    bitsToLongs bits = bits / 64 + 1 := by
  unfold bitsToLongs
  omega

theorem div_le_bitsToLongs (bits : ℕ) : bits / 64 ≤ bitsToLongs bits := by
  unfold bitsToLongs
  omega

theorem trimmed_of_lt_div (w : ℕ → Word) {bits k : ℕ} (hk : k < bits / 64) :
    trimmed w bits k = w k := by
  rw [trimmed_of_lt (lt_bitsToLongs_iff.mpr (by omega))]
  by_cases hlast : k = bitsToLongs bits - 1
  · -- the last word, and the size fills it: the mask is all ones
    have hz : bits % 64 = 0 := by unfold bitsToLongs at hlast; omega
    rw [if_pos hlast, lastWordMask, hz]
    exact BitVec.and_allOnes
  · rw [if_neg hlast]

theorem trimmed_div (w : ℕ → Word) {bits : ℕ} (h : bits % 64 ≠ 0) :
    trimmed w bits (bits / 64) = w (bits / 64) &&& lastWordMask bits := by
  have hlast := bitsToLongs_of_not_dvd h
  rw [trimmed_of_lt (by omega), if_pos (by omega)]

theorem anyBit_trimmed (w : ℕ → Word) (bits : ℕ) :
    anyBit (trimmed w bits) (64 * bitsToLongs bits) = anyBit w bits := by
  rw [Bool.eq_iff_iff, anyBit_iff, anyBit_iff]
  constructor
  · rintro ⟨i, -, hbit⟩
    rw [bitAt_trimmed, Bool.and_eq_true, decide_eq_true_eq] at hbit
    exact ⟨i, hbit.1, hbit.2⟩
  · rintro ⟨i, hi, hbit⟩
    refine ⟨i, Nat.lt_of_lt_of_le hi (le_mul_bitsToLongs bits), ?_⟩
    rw [bitAt_trimmed, hbit, decide_eq_true hi]
    rfl

/-! ### What the loops write -/

section Writing

variable {h : Mem} {d s₁ s₂ n n₁ n₂ bits : ℕ} {w w₁ w₂ : ℕ → Word}

/-- Turn `k` of the masked loop, when the words of the destination before it are written. -/
theorem maskedTurn_eq (hd : h.Holds d n w) (h₁ : h.Holds s₁ n₁ w₁) (h₂ : h.Holds s₂ n₂ w₂)
    (word : Word → Word → Word) (v : ℕ → Word) (result : Word) {k : ℕ} (hk : k < n) (hk₁ : k < n₁)
    (hk₂ : k < n₂) (hv : v k = word (w₁ k) (w₂ k)) :
    maskedTurn word (some d) (some s₁) (some s₂) (result, h.rewritten d n w v 0 k) k =
      .ok (result ||| v k, h.rewritten d n w v 0 (k + 1)) := by
  unfold maskedTurn
  simp only
  rw [hd.rewritten_read h₁ hk hk₁ (by omega), Except.ok_bind,
    hd.rewritten_read h₂ hk hk₂ (by omega), Except.ok_bind, ← hv,
    Heap.rewritten_write_succ (Nat.zero_le k) hk, Except.ok_bind, Except.pure_eq]

/-- `__bitmap_and` and `__bitmap_andnot` write the combined words with the unused bits of the last
one cleared, and return whether one of the bits is set. -/
theorem bitmapMasked_eq (hd : h.Holds d n w) (h₁ : h.Holds s₁ n₁ w₁) (h₂ : h.Holds s₂ n₂ w₂)
    (word : Word → Word → Word) (hn : bitsToLongs bits ≤ n) (hn₁ : bitsToLongs bits ≤ n₁)
    (hn₂ : bitsToLongs bits ≤ n₂) :
    bitmapMasked word (some d) (some s₁) (some s₂) bits h =
      .ok (anyBit (fun k => word (w₁ k) (w₂ k)) bits,
        h.rewritten d n w (trimmed (fun k => word (w₁ k) (w₂ k)) bits) 0 (bitsToLongs bits)) := by
  set v := trimmed (fun k => word (w₁ k) (w₂ k)) bits with hv
  have hdiv := div_le_bitsToLongs bits
  -- `result` holds the words written so far, or-ed together
  have hloop := foldlM_range (f := maskedTurn word (some d) (some s₁) (some s₂))
    (fun k => (orUpTo v k, h.rewritten d n w v 0 k)) (bits / 64) fun k hk => by
      exact maskedTurn_eq hd h₁ h₂ word v _ (by omega) (by omega) (by omega)
        (trimmed_of_lt_div _ hk)
  have hany : (orUpTo v (bitsToLongs bits) != 0) = anyBit (fun k => word (w₁ k) (w₂ k)) bits := by
    rw [← anyBit_trimmed, Bool.eq_iff_iff, bne_iff_ne, orUpTo_ne_zero_iff, exists_ne_zero_iff]
  rw [hd.rewritten_self (Nat.le_refl 0)] at hloop
  change (List.range (bits / 64)).foldlM (maskedTurn word (some d) (some s₁) (some s₂)) (0, h) = _
    at hloop
  unfold bitmapMasked
  by_cases hr : bits % 64 = 0
  · -- the size is a multiple of the word size: there is no last word to mask
    simp only [hloop, Except.ok_bind, Except.pure_eq, hr, ne_eq, not_true_eq_false, if_false]
    rw [← bitsToLongs_of_dvd hr, hany]
  · have hlast := bitsToLongs_of_not_dvd hr
    have hturn := maskedTurn_eq hd h₁ h₂ (fun x y => word x y &&& lastWordMask bits) v
      (orUpTo v (bits / 64)) (by omega) (by omega) (by omega) (trimmed_div _ hr)
    simp only [hloop, Except.ok_bind, Except.pure_eq, hr, ne_eq, not_false_eq_true, if_true, hturn]
    rw [← hany, hlast]
    rfl

/-- `__bitmap_or` and `__bitmap_xor` write the combined words, unused bits and all. -/
theorem bitmapUnmasked_eq (hd : h.Holds d n w) (h₁ : h.Holds s₁ n₁ w₁) (h₂ : h.Holds s₂ n₂ w₂)
    (word : Word → Word → Word) (hn : bitsToLongs bits ≤ n) (hn₁ : bitsToLongs bits ≤ n₁)
    (hn₂ : bitsToLongs bits ≤ n₂) :
    bitmapUnmasked word (some d) (some s₁) (some s₂) bits h =
      .ok (h.rewritten d n w (fun k => word (w₁ k) (w₂ k)) 0 (bitsToLongs bits)) := by
  set v : ℕ → Word := fun k => word (w₁ k) (w₂ k) with hv
  have hloop := foldlM_range
    (f := fun h k => do h.write (some d) k (word (← h.read (some s₁) k) (← h.read (some s₂) k)))
    (h.rewritten d n w v 0) (bitsToLongs bits) fun k hk => by
      rw [hd.rewritten_read h₁ (by omega) (by omega) (by omega), Except.ok_bind,
        hd.rewritten_read h₂ (by omega) (by omega) (by omega), Except.ok_bind]
      exact Heap.rewritten_write_succ (Nat.zero_le k) (by omega)
  rwa [hd.rewritten_self (Nat.le_refl 0)] at hloop

/-- `__bitmap_complement` complements whole words, unused bits and all. -/
theorem _bitmapComplement_eq (hd : h.Holds d n w) (h₁ : h.Holds s₁ n₁ w₁)
    (hn : bitsToLongs bits ≤ n) (hn₁ : bitsToLongs bits ≤ n₁) :
    _bitmapComplement (some d) (some s₁) bits h =
      .ok (h.rewritten d n w (fun k => ~~~w₁ k) 0 (bitsToLongs bits)) := by
  have hdiv := div_le_bitsToLongs bits
  have hturn : ∀ k, k < bitsToLongs bits →
      complementTurn (some d) (some s₁) (h.rewritten d n w (fun k => ~~~w₁ k) 0 k) k =
        .ok (h.rewritten d n w (fun k => ~~~w₁ k) 0 (k + 1)) := by
    intro k hk
    rw [complementTurn, hd.rewritten_read h₁ (by omega) (by omega) (by omega), Except.ok_bind]
    exact Heap.rewritten_write_succ (v := fun k => ~~~w₁ k) (Nat.zero_le k) (by omega)
  have hloop := foldlM_range _ (bits / 64) fun k hk => hturn k (by omega)
  rw [hd.rewritten_self (Nat.le_refl 0)] at hloop
  rw [_bitmapComplement, hloop, Except.ok_bind]
  by_cases hr : bits % 64 = 0
  · rw [if_neg (by simpa using hr), Except.pure_eq, bitsToLongs_of_dvd hr]
  · rw [if_pos hr, hturn _ (by rw [bitsToLongs_of_not_dvd hr]; omega), bitsToLongs_of_not_dvd hr]

/-! ### Shifting left -/

/-- The words a left shift leaves. -/
def shiftedLeft (w : ℕ → Word) (shift k : ℕ) : Word :=
  if k < shift / 64 then 0
  else
    (if shift % 64 ≠ 0 ∧ k - shift / 64 > 0 then w (k - shift / 64 - 1) >>> (64 - shift % 64)
      else 0) ||| w (k - shift / 64) <<< (shift % 64)

/-- **A left shift is exact**: bit `i` of the result is bit `i - shift` of the source, and `0` below
`shift`. -/
theorem bitAt_shiftedLeft (w : ℕ → Word) (shift i : ℕ) :
    bitAt (shiftedLeft w shift) i = (decide (shift ≤ i) && bitAt w (i - shift)) := by
  have hi := Nat.mod_lt i (by decide : 0 < 64)
  have hr := Nat.mod_lt shift (by decide : 0 < 64)
  unfold bitAt shiftedLeft
  by_cases hk : i / 64 < shift / 64
  · -- a word that takes no bit of the source
    have hlt : ¬ shift ≤ i := by omega
    rw [if_pos hk]
    simp [hlt]
  · rw [if_neg hk, bitAt_stitch_left w hr hi,
      show 64 * (i / 64 - shift / 64) + i % 64 - shift % 64 = i - shift by omega]
    congr 1
    exact decide_eq_decide.mpr (by omega)

/-- Turn `k` of the loop, when the words above `k + off` are written: it reads words `k` and
`k - 1`. -/
theorem shiftLeftTurn_eq (hd : h.Holds d n w) (h₁ : h.Holds s₁ n₁ w₁) {shift k lim : ℕ}
    (hk : k + shift / 64 < lim) (hn : lim ≤ n) (hn₁ : lim ≤ n₁) :
    shiftLeftTurn (some d) (some s₁) (shift / 64) (shift % 64)
        (h.rewritten d n w (shiftedLeft w₁ shift) (k + 1 + shift / 64) lim) k =
      .ok (h.rewritten d n w (shiftedLeft w₁ shift) (k + shift / 64) lim) := by
  have hread : ∀ j, j ≤ k →
      (h.rewritten d n w (shiftedLeft w₁ shift) (k + 1 + shift / 64) lim).read (some s₁) j =
        .ok (w₁ j) :=
    fun j hj => hd.rewritten_read h₁ (by omega) (by omega) (by omega)
  have hword : shiftedLeft w₁ shift (k + shift / 64) =
      (if shift % 64 ≠ 0 ∧ k > 0 then w₁ (k - 1) >>> (64 - shift % 64) else 0) |||
        w₁ k <<< (shift % 64) := by
    rw [shiftedLeft, if_neg (by omega), Nat.add_sub_cancel]
  have hwrite := Heap.rewritten_write_pred (h := h) (b := d) (w := w)
    (v := shiftedLeft w₁ shift) (show k + shift / 64 < lim by omega)
    (show k + shift / 64 < n by omega)
  rw [show k + shift / 64 + 1 = k + 1 + shift / 64 by omega] at hwrite
  rw [← hwrite, hword]
  unfold shiftLeftTurn
  by_cases hlow : shift % 64 ≠ 0 ∧ k > 0
  · simp only [if_pos hlow, hread (k - 1) (by omega), hread k (Nat.le_refl k), Except.ok_bind,
      Except.pure_eq]
  · simp only [if_neg hlow, hread k (Nat.le_refl k), Except.ok_bind, Except.pure_eq]

/-- **`__bitmap_shift_left`, in place or not**: the destination reads as the shifted bitmap, unused
bits and all, and nothing else changes. -/
theorem _bitmapShiftLeft_eq (hd : h.Holds d n w) (h₁ : h.Holds s₁ n₁ w₁) {shift nbits : ℕ}
    (hn : bitsToLongs nbits ≤ n) (hn₁ : bitsToLongs nbits ≤ n₁) (hshift : shift ≤ nbits) :
    _bitmapShiftLeft (some d) (some s₁) shift nbits h =
      .ok (h.rewritten d n w (shiftedLeft w₁ shift) 0 (bitsToLongs nbits)) := by
  set lim := bitsToLongs nbits with hlim
  have hoff : shift / 64 ≤ lim := by rw [hlim]; unfold bitsToLongs; omega
  have hloop := foldlM_range_reverse
    (f := shiftLeftTurn (some d) (some s₁) (shift / 64) (shift % 64))
    (fun k => h.rewritten d n w (shiftedLeft w₁ shift) (k + shift / 64) lim)
    (lim - shift / 64) fun k hk => shiftLeftTurn_eq hd h₁ (by omega) hn hn₁
  rw [hd.rewritten_self (by omega), Nat.zero_add] at hloop
  rw [_bitmapShiftLeft, ← hlim, hloop, Except.ok_bind]
  by_cases hz : shift / 64 = 0
  · rw [if_neg (by simpa using hz), Except.pure_eq, hz]
  · -- the `memset` clears the words below the loop's last
    rw [if_pos hz]
    unfold Heap.rewritten
    rw [Heap.holds_store.fill (by omega), Heap.store_store]
    refine congrArg _ (Heap.store_congr fun j _ => ?_)
    by_cases hj : j < shift / 64
    · rw [if_pos (by omega), if_pos (by omega), shiftedLeft, if_pos hj]
    · rw [if_neg (by omega)]
      exact if_congr (by omega) rfl rfl

end Writing

/-! ### What the scans return -/

section Scanning

variable {h : Mem} {s₁ s₂ n₁ n₂ bits : ℕ} {w₁ w₂ : ℕ → Word}

theorem scanLoop_eq (h₁ : h.Holds s₁ n₁ w₁) (h₂ : h.Holds s₂ n₂ w₂)
    (decides : Word → Word → Bool) (ks : List ℕ) (hks : ∀ k ∈ ks, k < n₁ ∧ k < n₂) :
    scanLoop decides (some s₁) (some s₂) h ks =
      .ok (ks.any fun k => decides (w₁ k) (w₂ k)) := by
  induction ks with
  | nil => rfl
  | cons k ks ih =>
    obtain ⟨hk₁, hk₂⟩ := hks k (List.mem_cons_self ..)
    rw [scanLoop, h₁.read hk₁, Except.ok_bind, h₂.read hk₂, Except.ok_bind, List.any_cons]
    cases decides (w₁ k) (w₂ k) with
    | true => rfl
    | false => exact ih fun k hk => hks k (List.mem_cons_of_mem _ hk)

/-- A scan answers whether the combined words have a set bit among the first `bits`. -/
theorem bitmapScan_eq (h₁ : h.Holds s₁ n₁ w₁) (h₂ : h.Holds s₂ n₂ w₂)
    {decides : Word → Word → Bool} {word : Word → Word → Word}
    (hdecides : ∀ x y, decides x y = (word x y != 0)) (hn₁ : bitsToLongs bits ≤ n₁)
    (hn₂ : bitsToLongs bits ≤ n₂) :
    bitmapScan decides word (some s₁) (some s₂) bits h =
      .ok (anyBit (fun k => word (w₁ k) (w₂ k)) bits) := by
  set v : ℕ → Word := fun k => word (w₁ k) (w₂ k) with hv
  have hdiv := div_le_bitsToLongs bits
  -- the answer looked for, word by word
  have hany : anyBit v bits = true ↔ ∃ k, k < bitsToLongs bits ∧ trimmed v bits k ≠ 0 := by
    rw [← anyBit_trimmed, exists_ne_zero_iff]
  rw [bitmapScan, scanLoop_eq h₁ h₂ _ _ fun k hk => by
    have := List.mem_range.mp hk
    omega]
  rw [Except.ok_bind]
  by_cases hfound : ∃ k, k < bits / 64 ∧ v k ≠ 0
  · -- one of the whole words decides
    obtain ⟨k, hk, hne⟩ := hfound
    have htrue : (List.range (bits / 64)).any (fun k => decides (w₁ k) (w₂ k)) = true := by
      rw [List.any_eq_true]
      exact ⟨k, List.mem_range.mpr hk, by rw [hdecides]; exact bne_iff_ne.mpr hne⟩
    have hanswer : anyBit v bits = true :=
      hany.mpr ⟨k, by omega, by rw [trimmed_of_lt_div v hk]; exact hne⟩
    rw [if_pos htrue, hanswer, Except.pure_eq]
  · -- none does: the answer is that of the last word, if it is only partly covered
    have hfalse : (List.range (bits / 64)).any (fun k => decides (w₁ k) (w₂ k)) = false := by
      rw [List.any_eq_false]
      intro k hk hdec
      rw [hdecides, bne_iff_ne] at hdec
      exact hfound ⟨k, List.mem_range.mp hk, hdec⟩
    rw [hfalse, if_neg (by simp)]
    by_cases hr : bits % 64 = 0
    · rw [if_neg (by simpa using hr), Except.pure_eq]
      refine congrArg _ (Bool.eq_false_iff.mpr fun htrue => ?_).symm
      obtain ⟨k, hk, hne⟩ := hany.mp htrue
      rw [bitsToLongs_of_dvd hr] at hk
      rw [trimmed_of_lt_div v hk] at hne
      exact hfound ⟨k, hk, hne⟩
    · have hlast := bitsToLongs_of_not_dvd hr
      rw [if_pos hr, h₁.read (by omega), Except.ok_bind, h₂.read (by omega), Except.ok_bind,
        Except.pure_eq]
      refine congrArg _ ?_
      rw [Bool.eq_iff_iff, bne_iff_ne, hany, ← trimmed_div v hr]
      constructor
      · exact fun hne => ⟨bits / 64, by omega, hne⟩
      · rintro ⟨k, hk, hne⟩
        by_cases hkl : k < bits / 64
        · rw [trimmed_of_lt_div v hkl] at hne
          exact absurd ⟨k, hkl, hne⟩ hfound
        · rwa [show k = bits / 64 by omega] at hne

theorem _bitmapEqual_eq (h₁ : h.Holds s₁ n₁ w₁) (h₂ : h.Holds s₂ n₂ w₂)
    (hn₁ : bitsToLongs bits ≤ n₁) (hn₂ : bitsToLongs bits ≤ n₂) :
    _bitmapEqual (some s₁) (some s₂) bits h =
      .ok (!anyBit (fun k => w₁ k ^^^ w₂ k) bits) := by
  have hdecides : ∀ x y : Word, (x != y) = (x ^^^ y != 0) := by
    intro x y
    have hxor : x ^^^ y = 0 ↔ x = y := BitVec.xor_eq_zero_iff
    rw [Bool.eq_iff_iff, bne_iff_ne, bne_iff_ne, ne_eq, ne_eq, hxor]
  rw [_bitmapEqual, bitmapScan_eq h₁ h₂ hdecides hn₁ hn₂, Except.ok_bind, Except.pure_eq]

theorem _bitmapIntersects_eq (h₁ : h.Holds s₁ n₁ w₁) (h₂ : h.Holds s₂ n₂ w₂)
    (hn₁ : bitsToLongs bits ≤ n₁) (hn₂ : bitsToLongs bits ≤ n₂) :
    _bitmapIntersects (some s₁) (some s₂) bits h =
      .ok (anyBit (fun k => w₁ k &&& w₂ k) bits) :=
  bitmapScan_eq h₁ h₂ (fun _ _ => rfl) hn₁ hn₂

theorem _bitmapSubset_eq (h₁ : h.Holds s₁ n₁ w₁) (h₂ : h.Holds s₂ n₂ w₂)
    (hn₁ : bitsToLongs bits ≤ n₁) (hn₂ : bitsToLongs bits ≤ n₂) :
    _bitmapSubset (some s₁) (some s₂) bits h =
      .ok (!anyBit (fun k => w₁ k &&& ~~~w₂ k) bits) := by
  rw [_bitmapSubset, bitmapScan_eq h₁ h₂ (fun _ _ => rfl) hn₁ hn₂, Except.ok_bind, Except.pure_eq]

end Scanning

end Vlstp
