import Mathlib.Data.Nat.Count
import Vlstp.Framework.BitSeq
import Vlstp.Framework.Heap

/-!
# Bit operations (`bitops.h`, `bitops.c`)

The bit operations on arrays of `unsigned long`, 64 bits wide as `config.h` has it, translated to
functions of the heap: one that only reads returns its result, one that writes returns the new heap.
Sizes, offsets and bit numbers are natural numbers; the additions in these loops stay below `2 ^ 64`
for every array that fits in memory. `set_bit` alone takes its bit number as an `int`, and the
conversion is part of its model.

Each operation has one lemma that says what it does on a block whose words are known (`setBit_eq`,
`testBit_eq`, `findNextBit_eq`, `findFirst_eq`, ...). They assume of the block only that the words
the operation is entitled to lie inside it, so that each is also a proof that no other word is
touched.
-/

namespace Vlstp

/-- `unsigned long`. -/
abbrev Word := BitVec 64

/-- The memory `vlstp` runs in. -/
abbrev Mem := Heap Word

/-! ### Words and masks -/

/-- `BIT_MASK(nr)`. -/
def bitMask (nr : ℕ) : Word := 1#64 <<< (nr % 64)

/-- `BIT_WORD(nr)`. -/
def bitWord (nr : ℕ) : ℕ := nr / 64

/-- `BITS_TO_LONGS(nr)`. -/
def bitsToLongs (nr : ℕ) : ℕ := (nr + 64 - 1) / 64

theorem lt_bitsToLongs_iff {k nr : ℕ} : k < bitsToLongs nr ↔ 64 * k < nr := by
  unfold bitsToLongs
  omega

theorem bitsToLongs_mono {m nr : ℕ} (hle : m ≤ nr) : bitsToLongs m ≤ bitsToLongs nr := by
  unfold bitsToLongs
  omega

theorem le_mul_bitsToLongs (nr : ℕ) : nr ≤ 64 * bitsToLongs nr := by
  unfold bitsToLongs
  omega

/-- The words of the bitmaps of `nbits` bits at `bs`. -/
def BitmapWords (bs : List ℕ) (nbits b k : ℕ) : Prop := b ∈ bs ∧ k < bitsToLongs nbits

instance (bs : List ℕ) (nbits : ℕ) : DecidableRel (BitmapWords bs nbits) :=
  fun b k => inferInstanceAs (Decidable (b ∈ bs ∧ k < bitsToLongs nbits))

/-! ### Single bits -/

/-- `set_bit`, which takes its `bit` as an `int`: an `unsigned int` from `2 ^ 31` on is negative
there, and so is its `BIT_WORD`. -/
def setBit (bit : ℕ) (addr : Ptr) (h : Mem) : Except Fault Mem := do
  let bit : ℤ := (BitVec.ofNat 32 bit).toInt
  if bit < 0 then .error .beforeArray
  else
    let p ← h.read addr (bitWord bit.toNat)
    h.write addr (bitWord bit.toNat) (p ||| bitMask bit.toNat)

/-- `clear_bit`. -/
def clearBit (bit : ℕ) (addr : Ptr) (h : Mem) : Except Fault Mem := do
  let p ← h.read addr (bitWord bit)
  h.write addr (bitWord bit) (p &&& ~~~bitMask bit)

/-- `test_bit`. -/
def testBit (bit : ℕ) (addr : Ptr) (h : Mem) : Except Fault Bool := do
  let p ← h.read addr (bitWord bit)
  return p &&& bitMask bit != 0

section

variable {h : Mem} {b n : ℕ} {w : ℕ → Word}

/-- A bit number below `2 ^ 31` is the same as an `int`. -/
theorem toInt_ofNat_of_lt {i : ℕ} (hlt : i < 2 ^ 31) : (BitVec.ofNat 32 i).toInt = i := by
  have hnat : (BitVec.ofNat 32 i).toNat = i := Nat.mod_eq_of_lt (by omega)
  rw [BitVec.toInt_eq_toNat_of_lt (by omega), hnat]

/-- The bits `set_bit` can name. -/
theorem setBit_of_lt {i : ℕ} (hlt : i < 2 ^ 31) (p : Ptr) (h : Mem) :
    setBit i p h = h.read p (bitWord i) >>= fun x => h.write p (bitWord i) (x ||| bitMask i) := by
  unfold setBit
  simp only [toInt_ofNat_of_lt hlt, Int.toNat_natCast]
  exact if_neg (Int.not_lt.mpr (Int.natCast_nonneg i))

/-- From `2 ^ 31` on it writes before the array. -/
theorem setBit_of_ge {i : ℕ} (hge : 2 ^ 31 ≤ i) (hlt : i < 2 ^ 32) (p : Ptr) (h : Mem) :
    setBit i p h = .error .beforeArray := by
  have hneg : (BitVec.ofNat 32 i).toInt < 0 := by
    rw [BitVec.toInt_neg_iff, BitVec.toNat_ofNat, Nat.mod_eq_of_lt hlt]
    omega
  exact if_pos hneg

/-- `set_bit` writes to the block of the array only. -/
theorem cell_of_setBit {h' : Mem} {i s : ℕ} (hset : setBit i (some b) h = .ok h') (hne : s ≠ b) :
    h'.cell s = h.cell s := by
  unfold setBit at hset
  simp only at hset
  by_cases hneg : (BitVec.ofNat 32 i).toInt < 0
  · rw [if_pos hneg] at hset
    cases hset
  · rw [if_neg hneg] at hset
    obtain ⟨x, -, hwrite⟩ := Except.bind_eq_ok.mp hset
    exact Heap.cell_of_write hwrite hne

theorem setBit_eq (hh : h.Holds b n w) {i : ℕ} (hlt : i < 2 ^ 31) (hi : i / 64 < n) :
    setBit i (some b) h =
      .ok (h.store b n (Function.update w (i / 64) (w (i / 64) ||| 1#64 <<< (i % 64)))) := by
  simp only [setBit_of_lt hlt, bitWord, bitMask, hh.read hi, hh.write hi, Except.ok_bind]

theorem clearBit_eq (hh : h.Holds b n w) {i : ℕ} (hi : i / 64 < n) :
    clearBit i (some b) h =
      .ok (h.store b n (Function.update w (i / 64) (w (i / 64) &&& ~~~(1#64 <<< (i % 64))))) := by
  simp only [clearBit, bitWord, bitMask, hh.read hi, hh.write hi, Except.ok_bind]

theorem testBit_eq (hh : h.Holds b n w) {i : ℕ} (hi : i / 64 < n) :
    testBit i (some b) h = .ok (bitAt w i) := by
  -- the word masked with one bit is non-zero exactly when that bit is set
  have hiff := and_bit_ne_zero_iff (by decide : 0 < 64) w i
  simp only [testBit, bitWord, bitMask, hh.read hi, Except.ok_bind, Except.pure_eq]
  congr 1
  cases hb : bitAt w i with
  | true => exact bne_iff_ne.mpr (hiff.mpr hb)
  | false => simpa [hb] using hiff

end

/-! ### Counting and scanning one word -/

/-- `!!((w) & (1ULL << i))`. -/
def bitValue (w : Word) (i : ℕ) : ℕ := if w &&& 1#64 <<< i ≠ 0 then 1 else 0

/-- `__const_hweight8`. -/
def hweight8 (w : Word) : ℕ :=
  bitValue w 0 + bitValue w 1 + bitValue w 2 + bitValue w 3 +
    bitValue w 4 + bitValue w 5 + bitValue w 6 + bitValue w 7

/-- `__const_hweight16`. -/
def hweight16 (w : Word) : ℕ := hweight8 w + hweight8 (w >>> 8)

/-- `__const_hweight32`. -/
def hweight32 (w : Word) : ℕ := hweight16 w + hweight16 (w >>> 16)

/-- `__const_hweight64`. -/
def hweight64 (w : Word) : ℕ := hweight32 w + hweight32 (w >>> 32)

/-- `hweight_long`, where `sizeof(long)` is 8. -/
def hweightLong (w : Word) : ℕ := hweight64 w

/-- The number of set bits of `w` among the first `m`. -/
def popBelow (w : Word) (m : ℕ) : ℕ := Nat.count (fun j => w.getLsbD j = true) m

theorem bitValue_eq (w : Word) {i : ℕ} (hi : i < 64) :
    bitValue w i = if w.getLsbD i = true then 1 else 0 := by
  have hiff := and_bit_ne_zero_iff (by decide : 0 < 64) (fun _ => w) i
  simp only [bitAt, Nat.mod_eq_of_lt hi] at hiff
  exact if_congr hiff rfl rfl

/-- Counting the high half of a range in the shifted word. -/
theorem popBelow_add (w : Word) (m : ℕ) :
    popBelow w (m + m) = popBelow w m + popBelow (w >>> m) m := by
  simp only [popBelow, Nat.count_add, BitVec.getLsbD_ushiftRight]

theorem hweight8_eq (w : Word) : hweight8 w = popBelow w 8 := by
  unfold hweight8 popBelow
  simp only [Nat.count_succ, Nat.count_zero]
  rw [bitValue_eq w (by omega), bitValue_eq w (by omega), bitValue_eq w (by omega),
    bitValue_eq w (by omega), bitValue_eq w (by omega), bitValue_eq w (by omega),
    bitValue_eq w (by omega), bitValue_eq w (by omega), Nat.zero_add]

/-- The nested halving of the `__const_hweight` macros counts the set bits of the word. -/
theorem hweightLong_eq (w : Word) : hweightLong w = popBelow w 64 := by
  have h16 (w : Word) : hweight16 w = popBelow w 16 := by
    rw [hweight16, hweight8_eq, hweight8_eq, ← popBelow_add]
  have h32 (w : Word) : hweight32 w = popBelow w 32 := by
    rw [hweight32, h16, h16, ← popBelow_add]
  calc hweightLong w = hweight32 w + hweight32 (w >>> 32) := rfl
    _ = popBelow w 32 + popBelow (w >>> 32) 32 := by rw [h32, h32]
    _ = popBelow w 64 := (popBelow_add w 32).symm

/-- One halving step of `__ffs`: if the low `k` bits, those of `mask`, are all clear, go on above
them. -/
def ffsStep (k : ℕ) (mask : Word) (s : ℕ × Word) : ℕ × Word :=
  if s.2 &&& mask = 0 then (s.1 + k, s.2 >>> k) else s

/-- `__ffs`. -/
def ffs (word : Word) : ℕ :=
  let s := ffsStep 32 0xffffffff (0, word)
  let s := ffsStep 16 0xffff s
  let s := ffsStep 8 0xff s
  let s := ffsStep 4 0xf s
  let s := ffsStep 2 0x3 s
  if s.2 &&& 0x1 = 0 then s.1 + 1 else s.1

/-- Where `__ffs` stands after it has halved its range to `k` bits: everything before `num` is
clear, `x` is the word from there on, and one of the next `k` bits is set. -/
structure FfsInv (word : Word) (k : ℕ) (s : ℕ × Word) : Prop where
  below : ∀ j, j < s.1 → word.getLsbD j = false
  rest : ∀ j, s.2.getLsbD j = word.getLsbD (s.1 + j)
  within : ∃ j, j < k ∧ s.2.getLsbD j = true

theorem FfsInv.step {word mask : Word} {k : ℕ} {s : ℕ × Word} (hI : FfsInv word (k + k) s)
    (hmask : ∀ j, j < 64 → mask.getLsbD j = decide (j < k)) :
    FfsInv word k (ffsStep k mask s) := by
  obtain ⟨num, x⟩ := s
  -- `j₀` is a set bit of the range; it decides which half is kept
  obtain ⟨j₀, hj₀, hbit₀⟩ := hI.within
  have hj64 : j₀ < 64 := by
    by_contra hge
    rw [BitVec.getLsbD_of_ge _ _ (by omega)] at hbit₀
    exact absurd hbit₀ (by simp)
  by_cases hz : x &&& mask = 0
  · -- the low half is clear, so `j₀` lies in the high half, which is shifted down
    have hclear : ∀ j, j < k → x.getLsbD j = false := by
      intro j hj
      by_cases hj' : j < 64
      · have := congrArg (fun y => BitVec.getLsbD y j) hz
        simpa [BitVec.getLsbD_and, hmask j hj', hj] using this
      · exact BitVec.getLsbD_of_ge _ _ (by omega)
    rw [ffsStep, if_pos hz]
    refine ⟨fun j hj => ?_, fun j => ?_, j₀ - k, ?_, ?_⟩
    · by_cases hlt : j < num
      · exact hI.below j hlt
      · have := hclear (j - num) (by simp only at hj; omega)
        rw [hI.rest, show num + (j - num) = j by omega] at this
        exact this
    · rw [BitVec.getLsbD_ushiftRight, hI.rest, Nat.add_assoc]
    · omega
    · have hle : k ≤ j₀ := by
        by_contra hlt
        rw [hclear j₀ (by omega)] at hbit₀
        exact absurd hbit₀ (by simp)
      rw [BitVec.getLsbD_ushiftRight, show k + (j₀ - k) = j₀ by omega]
      exact hbit₀
  · -- the low half has a set bit: nothing moves, only the range shrinks
    rw [ffsStep, if_neg hz]
    refine ⟨hI.below, hI.rest, ?_⟩
    obtain ⟨j, hj, hbit⟩ := exists_getLsbD_of_ne_zero hz
    rw [BitVec.getLsbD_and, hmask j hj] at hbit
    simp only [Bool.and_eq_true, decide_eq_true_eq] at hbit
    exact ⟨j, hbit.2, hbit.1⟩

/-- The last `if` of `__ffs` is a step by one bit. -/
theorem ffs_eq_steps (word : Word) :
    ffs word = (ffsStep 1 0x1 (ffsStep 2 0x3 (ffsStep 4 0xf (ffsStep 8 0xff (ffsStep 16 0xffff
      (ffsStep 32 0xffffffff (0, word))))))).1 := by
  generalize hs : ffsStep 2 0x3 (ffsStep 4 0xf (ffsStep 8 0xff (ffsStep 16 0xffff
    (ffsStep 32 0xffffffff (0, word))))) = s
  rw [ffs, hs, ffsStep, apply_ite Prod.fst]

/-- `__ffs` finds the lowest set bit of a word that has one. -/
theorem isFirst_ffs {word : Word} (hne : word ≠ 0) :
    IsFirst word.getLsbD 0 64 (ffs word) ∧ ffs word < 64 := by
  have h64 : FfsInv word (32 + 32) (0, word) :=
    ⟨fun j hj => absurd hj (Nat.not_lt_zero j), fun j => by simp, exists_getLsbD_of_ne_zero hne⟩
  have h32 : FfsInv word (16 + 16) (ffsStep 32 0xffffffff _) := h64.step (by decide)
  have h16 : FfsInv word (8 + 8) (ffsStep 16 0xffff _) := h32.step (by decide)
  have h8 : FfsInv word (4 + 4) (ffsStep 8 0xff _) := h16.step (by decide)
  have h4 : FfsInv word (2 + 2) (ffsStep 4 0xf _) := h8.step (by decide)
  have h2 : FfsInv word (1 + 1) (ffsStep 2 0x3 _) := h4.step (by decide)
  have h1 : FfsInv word 1 (ffsStep 1 0x1 _) := h2.step (by decide)
  -- the range is one bit now, so the bit at `num` is the set one
  obtain ⟨j, hj, hbit⟩ := h1.within
  obtain rfl : j = 0 := by omega
  rw [h1.rest, Nat.add_zero, ← ffs_eq_steps] at hbit
  have hlt : ffs word < 64 := by
    by_contra hge
    rw [BitVec.getLsbD_of_ge _ _ (by omega)] at hbit
    exact absurd hbit (by simp)
  refine ⟨⟨hlt.le, fun j _ hj => h1.below j ?_, fun _ => ⟨Nat.zero_le _, hbit⟩⟩, hlt⟩
  rwa [← ffs_eq_steps]

/-! ### Searching an array -/

/-- `BITMAP_FIRST_WORD_MASK(start)`. -/
def firstWordMask (start : ℕ) : Word := BitVec.allOnes 64 <<< (start % 64)

/-- `BITMAP_LAST_WORD_MASK(nbits)`: the shift is `-(nbits) & 63`. -/
def lastWordMask (nbits : ℕ) : Word := BitVec.allOnes 64 >>> ((64 - nbits % 64) % 64)

/-- The `while (!tmp)` loop of `_find_next_bit`. It ends after as many turns as there are words. -/
def findNextLoop (addr : Ptr) (nbits : ℕ) (invert : Word) (h : Mem) :
    ℕ → ℕ → Word → Except Fault ℕ
  | 0, _, _ => .error .diverge
  | fuel + 1, start, tmp =>
    if tmp = 0 then
      let start := start + 64
      if start ≥ nbits then .ok nbits
      else do
        let w ← h.read addr (start / 64)
        findNextLoop addr nbits invert h fuel start (w ^^^ invert)
    else .ok (min (start + ffs tmp) nbits)

/-- `_find_next_bit`. -/
def _findNextBit (addr : Ptr) (nbits start : ℕ) (invert : Word) (h : Mem) : Except Fault ℕ :=
  if nbits = 0 ∨ start ≥ nbits then .ok nbits
  else do
    let w ← h.read addr (start / 64)
    let tmp := (w ^^^ invert) &&& firstWordMask start
    -- `round_down(start, BITS_PER_LONG)`
    let start := start - start % 64
    findNextLoop addr nbits invert h (bitsToLongs nbits) start tmp

/-- `find_next_bit`. -/
def findNextBit (addr : Ptr) (size offset : ℕ) (h : Mem) : Except Fault ℕ :=
  _findNextBit addr size offset 0 h

/-- `find_next_zero_bit`. -/
def findNextZeroBit (addr : Ptr) (size offset : ℕ) (h : Mem) : Except Fault ℕ :=
  _findNextBit addr size offset (~~~0) h

/-- The common body of `find_first_bit` and `find_first_zero_bit`, which differ in the word they
look at: `addr[idx]` for the one, `~addr[idx]` for the other (`addr[idx] != ~0UL`, `ffz`). -/
def findFirstLoop (look : Word → Word) (addr : Ptr) (size : ℕ) (h : Mem) : ℕ → ℕ → Except Fault ℕ
  | 0, _ => .error .diverge
  | fuel + 1, idx =>
    if idx * 64 < size then do
      let w ← h.read addr idx
      if look w ≠ 0 then .ok (min (idx * 64 + ffs (look w)) size)
      else findFirstLoop look addr size h fuel (idx + 1)
    else .ok size

/-- `find_first_bit`. -/
def findFirstBit (addr : Ptr) (size : ℕ) (h : Mem) : Except Fault ℕ :=
  findFirstLoop id addr size h (bitsToLongs size + 1) 0

/-- `find_first_zero_bit`. -/
def findFirstZeroBit (addr : Ptr) (size : ℕ) (h : Mem) : Except Fault ℕ :=
  findFirstLoop (~~~ ·) addr size h (bitsToLongs size + 1) 0

section Search

variable {h : Mem} {b n : ℕ} {w : ℕ → Word}

/-- What the loop of `_find_next_bit` returns, from word `k` on: `tmp` is the word it looks at, with
the bits before `lo` cleared, and nothing was found below it. -/
theorem findNextLoop_eq (hh : h.Holds b n w) {nbits lo : ℕ} (hn : bitsToLongs nbits ≤ n)
    (invert : Word) {fuel k : ℕ} {tmp : Word} (hk : 64 * k < nbits)
    (hlo : lo < 64 * (k + 1)) (hfuel : bitsToLongs nbits < fuel + k + 1)
    (htmp : ∀ j, j < 64 → tmp.getLsbD j =
      (decide (lo ≤ 64 * k + j) && bitAt (fun k => w k ^^^ invert) (64 * k + j)))
    (hbefore : ∀ j, lo ≤ j → j < 64 * k → bitAt (fun k => w k ^^^ invert) j = false) :
    findNextLoop (some b) nbits invert h fuel (64 * k) tmp =
      .ok (firstIn (bitAt fun k => w k ^^^ invert) lo nbits) := by
  set v : ℕ → Word := fun k => w k ^^^ invert with hv
  induction fuel generalizing k tmp with
  | zero =>
    have := (@lt_bitsToLongs_iff k nbits).mpr hk
    omega
  | succ fuel ih =>
    unfold findNextLoop
    by_cases hz : tmp = 0
    · -- this word has nothing to offer, so nothing lies before the next one
      have hclear : ∀ j, lo ≤ j → j < 64 * (k + 1) → bitAt v j = false := by
        intro j hlo hj
        by_cases hjk : j < 64 * k
        · exact hbefore j hlo hjk
        · have hbit := htmp (j - 64 * k) (by omega)
          rw [show 64 * k + (j - 64 * k) = j by omega, hz] at hbit
          simpa [hlo] using hbit.symm
      simp only [if_pos hz]
      by_cases hend : 64 * k + 64 ≥ nbits
      · -- the size is reached
        rw [if_pos hend]
        exact congrArg _ (IsFirst.of_forall fun j hlo hj => hclear j hlo (by omega)).eq_firstIn
      · -- the loop takes the next word whole, so it lies inside the block and starts after `lo`
        rw [if_neg hend, show (64 * k + 64) / 64 = k + 1 by omega,
          hh.read (lt_of_lt_of_le (lt_bitsToLongs_iff.mpr (by omega)) hn), Except.ok_bind,
          show 64 * k + 64 = 64 * (k + 1) by omega]
        refine ih (by omega) (by omega) (by omega) (fun j hj => ?_) hclear
        have hle : lo ≤ 64 * (k + 1) + j := by omega
        rw [bitAt_mul_add v _ hj]
        simp [hle, hv]
    · -- the first set bit of this word, cut off at the size
      rw [if_neg hz]
      obtain ⟨hfirst, hlt⟩ := isFirst_ffs hz
      exact congrArg _ (IsFirst.of_word htmp hbefore hfirst hlt).eq_firstIn

/-- `_find_next_bit` returns the first bit of the words under `invert` from `start` on that is set,
or `nbits`. -/
theorem _findNextBit_eq (hh : h.Holds b n w) {nbits start : ℕ} (hn : bitsToLongs nbits ≤ n)
    (invert : Word) :
    _findNextBit (some b) nbits start invert h =
      .ok (firstIn (bitAt fun k => w k ^^^ invert) start nbits) := by
  unfold _findNextBit
  by_cases hle : nbits ≤ start
  · rw [if_pos (Or.inr hle)]
    exact congrArg _ (IsFirst.of_le hle).eq_firstIn
  · have hk : start / 64 < bitsToLongs nbits := lt_bitsToLongs_iff.mpr (by omega)
    rw [if_neg (by omega), hh.read (by omega), Except.ok_bind,
      show start - start % 64 = 64 * (start / 64) by omega]
    -- the loop starts at the word of `start`, whose earlier bits `BITMAP_FIRST_WORD_MASK` clears
    refine findNextLoop_eq hh hn invert (by omega) (by omega) (by omega) (fun j hj => ?_)
      fun j hlo hj => by omega
    rw [bitAt_mul_add _ _ hj, BitVec.getLsbD_and, firstWordMask, BitVec.getLsbD_shiftLeft,
      BitVec.getLsbD_allOnes, Bool.and_comm]
    congr 1
    by_cases hj' : start ≤ 64 * (start / 64) + j
    · have h1 : ¬ j < start % 64 := by omega
      have h2 : j - start % 64 < 64 := by omega
      simp [hj', h1, h2, hj]
    · have h1 : j < start % 64 := by omega
      simp [hj', h1]

/-- `find_next_bit` returns the first set bit from `offset` on, or `size`. -/
theorem findNextBit_eq (hh : h.Holds b n w) {size offset : ℕ} (hn : bitsToLongs size ≤ n) :
    findNextBit (some b) size offset h = .ok (firstIn (bitAt w) offset size) := by
  rw [findNextBit, _findNextBit_eq hh hn]
  simp

/-- The first index where a predicate fails to hold, searched through the complemented words. -/
theorem firstIn_not (w : ℕ → Word) (lo hi : ℕ) :
    firstIn (bitAt fun k => ~~~w k) lo hi = firstIn (fun i => !bitAt w i) lo hi := by
  have hnot : ∀ i, bitAt (fun k => ~~~w k) i = !bitAt w i := fun i => by
    simp [bitAt, Nat.mod_lt]
  rw [show (bitAt fun k => ~~~w k) = fun i => !bitAt w i from funext hnot]

/-- `find_next_zero_bit` returns the first clear bit from `offset` on, or `size`. -/
theorem findNextZeroBit_eq (hh : h.Holds b n w) {size offset : ℕ} (hn : bitsToLongs size ≤ n) :
    findNextZeroBit (some b) size offset h =
      .ok (firstIn (fun i => !bitAt w i) offset size) := by
  rw [findNextZeroBit, _findNextBit_eq hh hn, ← firstIn_not]
  congr 3
  funext k
  -- `invert` is all ones here
  exact BitVec.xor_allOnes

/-- What the loop of the `find_first` functions returns from word `idx` on, when nothing was found
before it. -/
theorem findFirstLoop_eq (hh : h.Holds b n w) (look : Word → Word) {size : ℕ}
    (hn : bitsToLongs size ≤ n) {fuel idx : ℕ} (hfuel : bitsToLongs size < fuel + idx)
    (hidx : idx ≤ bitsToLongs size)
    (hbefore : ∀ j, 0 ≤ j → j < 64 * idx → bitAt (fun k => look (w k)) j = false) :
    findFirstLoop look (some b) size h fuel idx =
      .ok (firstIn (bitAt fun k => look (w k)) 0 size) := by
  set v : ℕ → Word := fun k => look (w k) with hv
  induction fuel generalizing idx with
  | zero => omega
  | succ fuel ih =>
    unfold findFirstLoop
    by_cases hlt : idx * 64 < size
    · have hk : idx < bitsToLongs size := lt_bitsToLongs_iff.mpr (by omega)
      rw [if_pos hlt, hh.read (by omega), Except.ok_bind]
      have hword : ∀ j, j < 64 → (look (w idx)).getLsbD j =
          (decide (0 ≤ 64 * idx + j) && bitAt v (64 * idx + j)) := by
        intro j hj
        rw [bitAt_mul_add v _ hj]
        simp [hv]
      by_cases hz : look (w idx) = 0
      · -- on to the next word: this one is clear, and so is everything before it
        rw [if_neg (by simpa using hz)]
        refine ih (by omega) (by omega) fun j _ hj => ?_
        by_cases hjk : j < 64 * idx
        · exact hbefore j (Nat.zero_le _) hjk
        · have hbit := hword (j - 64 * idx) (by omega)
          rw [show 64 * idx + (j - 64 * idx) = j by omega, hz] at hbit
          simpa using hbit.symm
      · rw [if_pos hz, Nat.mul_comm idx 64]
        obtain ⟨hfirst, hf⟩ := isFirst_ffs hz
        exact congrArg _ (IsFirst.of_word hword hbefore hfirst hf).eq_firstIn
    · -- past the last word
      rw [if_neg hlt]
      exact congrArg _ (IsFirst.of_forall fun j h0 hj => hbefore j h0 (by omega)).eq_firstIn

/-- `find_first_bit` returns the first set bit, or `size`. -/
theorem findFirstBit_eq (hh : h.Holds b n w) {size : ℕ} (hn : bitsToLongs size ≤ n) :
    findFirstBit (some b) size h = .ok (firstIn (bitAt w) 0 size) := by
  rw [findFirstBit, findFirstLoop_eq hh _ hn (by omega) (by omega) (fun j _ hj => by omega)]
  rfl

/-- `find_first_zero_bit` returns the first clear bit, or `size`. -/
theorem findFirstZeroBit_eq (hh : h.Holds b n w) {size : ℕ} (hn : bitsToLongs size ≤ n) :
    findFirstZeroBit (some b) size h = .ok (firstIn (fun i => !bitAt w i) 0 size) := by
  rw [findFirstZeroBit, findFirstLoop_eq hh _ hn (by omega) (by omega) (fun j _ hj => by omega),
    ← firstIn_not]

end Search

end Vlstp
