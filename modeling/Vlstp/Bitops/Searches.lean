import Vlstp.Framework.Footprint
import Vlstp.Bitops

/-!
# Searching a bitmap (`bitops.c`)

The five searches of `bitops.c`, and what each promises: the least index from an offset on whose bit
is set, or clear, or the greatest one whose bit is set, and the size if there is none.

`Vlstp.Bitops` has the four that go upwards. `find_last_bit` goes down from the last word, masked by
`BITMAP_LAST_WORD_MASK`, and scans the first word that is not zero from the top: `__fls` mirrors
`__ffs` (`fls_eq`). All five meet their contract on every bitmap (`searches_meet`).
-/

namespace Vlstp

/-! ### Scanning one word from the top -/

/-- One halving step of `__fls`: if the high `k` bits are all clear, go on below them. -/
def flsStep (k : ℕ) (s : ℕ × Word) : ℕ × Word :=
  if s.2 &&& BitVec.allOnes 64 <<< (64 - k) = 0 then (s.1 - k, s.2 <<< k) else s

/-- `__fls`. -/
def fls (word : Word) : ℕ :=
  let s := flsStep 32 (63, word)
  let s := flsStep 16 s
  let s := flsStep 8 s
  let s := flsStep 4 s
  let s := flsStep 2 s
  if s.2 &&& BitVec.allOnes 64 <<< 63 = 0 then s.1 - 1 else s.1

/-- The state `s` of `__fls` and the state `t` of `__ffs` at the mirrored word. At least `lo` bits
are still below the number `s.1`. -/
structure Mirrored (lo : ℕ) (s t : ℕ × Word) : Prop where
  lo_le : lo ≤ s.1
  num : s.1 + t.1 = 63
  word : t.2 = s.2.reverse

/-- The last `if` of `__fls` is a step by one bit. -/
theorem fls_eq_steps (word : Word) :
    fls word =
      (flsStep 1 (flsStep 2 (flsStep 4 (flsStep 8 (flsStep 16 (flsStep 32 (63, word))))))).1 := by
  generalize hs : flsStep 2 (flsStep 4 (flsStep 8 (flsStep 16 (flsStep 32 (63, word))))) = s
  rw [fls, hs, flsStep, apply_ite Prod.fst]

theorem getLsbD_reverse_word (x : Word) {j : ℕ} (hj : j < 64) :
    x.reverse.getLsbD j = x.getLsbD (63 - j) := by
  rw [BitVec.getLsbD_reverse, BitVec.getMsbD_eq_getLsbD, decide_eq_true hj, Bool.true_and]

/-- The high bits of a word are the low bits of the mirrored word. -/
theorem and_highMask_eq_zero_iff (x : Word) {k : ℕ} {mask : Word} (hk : k ≤ 64)
    (hmask : ∀ j, j < 64 → mask.getLsbD j = decide (j < k)) :
    x &&& BitVec.allOnes 64 <<< (64 - k) = 0 ↔ x.reverse &&& mask = 0 := by
  have hrev : (x &&& BitVec.allOnes 64 <<< (64 - k)).reverse = x.reverse &&& mask := by
    refine BitVec.eq_of_getLsbD_eq fun j hj => ?_
    rw [getLsbD_reverse_word _ hj, BitVec.getLsbD_and, BitVec.getLsbD_and,
      getLsbD_reverse_word _ hj, BitVec.getLsbD_shiftLeft, BitVec.getLsbD_allOnes, hmask j hj]
    congr 1
    by_cases hjk : j < k
    · have h1 : 63 - j < 64 := by omega
      have h2 : ¬ 63 - j < 64 - k := by omega
      have h3 : 63 - j - (64 - k) < 64 := by omega
      simp [hjk, h1, h2, h3]
    · have h2 : 63 - j < 64 - k := by omega
      simp [hjk, h2]
  rw [← hrev]
  exact BitVec.reverse_eq_zero_iff.symm

theorem reverse_shiftLeft (x : Word) (k : ℕ) : (x <<< k).reverse = x.reverse >>> k := by
  refine BitVec.eq_of_getLsbD_eq fun j hj => ?_
  rw [getLsbD_reverse_word _ hj, BitVec.getLsbD_ushiftRight, BitVec.getLsbD_shiftLeft]
  by_cases hjk : k + j < 64
  · have h1 : 63 - j < 64 := by omega
    have h2 : ¬ 63 - j < k := by omega
    rw [getLsbD_reverse_word _ hjk, show 63 - j - k = 63 - (k + j) by omega]
    simp [h1, h2]
  · have h2 : 63 - j < k := by omega
    rw [BitVec.getLsbD_of_ge _ _ (show 64 ≤ k + j by omega)]
    simp [h2]

/-- **One step of both.** They keep corresponding halves of the word. -/
theorem Mirrored.step {lo k : ℕ} {mask : Word} {s t : ℕ × Word} (hm : Mirrored (lo + k) s t)
    (hmask : ∀ j, j < 64 → mask.getLsbD j = decide (j < k)) :
    Mirrored lo (flsStep k s) (ffsStep k mask t) := by
  have hle := hm.lo_le
  have hnum := hm.num
  have hiff := and_highMask_eq_zero_iff s.2 (by omega) hmask
  rw [← hm.word] at hiff
  unfold flsStep ffsStep
  by_cases hz : s.2 &&& BitVec.allOnes 64 <<< (64 - k) = 0
  · rw [if_pos hz, if_pos (hiff.mp hz)]
    refine ⟨?_, ?_, ?_⟩
    · change lo ≤ s.1 - k
      omega
    · change s.1 - k + (t.1 + k) = 63
      omega
    · change t.2 >>> k = (s.2 <<< k).reverse
      rw [hm.word, reverse_shiftLeft]
  · rw [if_neg hz, if_neg fun h => hz (hiff.mpr h)]
    exact ⟨by omega, hnum, hm.word⟩

/-- **`__fls` is `__ffs` from the other end.** -/
theorem fls_add_ffs_reverse (word : Word) : fls word + ffs word.reverse = 63 := by
  have h63 : Mirrored (31 + 32) (63, word) (0, word.reverse) := ⟨le_rfl, rfl, rfl⟩
  have h31 : Mirrored (15 + 16) (flsStep 32 _) (ffsStep 32 0xffffffff _) := h63.step (by decide)
  have h15 : Mirrored (7 + 8) (flsStep 16 _) (ffsStep 16 0xffff _) := h31.step (by decide)
  have h7 : Mirrored (3 + 4) (flsStep 8 _) (ffsStep 8 0xff _) := h15.step (by decide)
  have h3 : Mirrored (1 + 2) (flsStep 4 _) (ffsStep 4 0xf _) := h7.step (by decide)
  have h1 : Mirrored (0 + 1) (flsStep 2 _) (ffsStep 2 0x3 _) := h3.step (by decide)
  have h0 : Mirrored 0 (flsStep 1 _) (ffsStep 1 0x1 _) := h1.step (by decide)
  rw [fls_eq_steps, ffs_eq_steps]
  exact h0.num

/-- `__fls` finds the highest set bit of a word that has one. -/
theorem isLast_fls {word : Word} (hne : word ≠ 0) :
    IsLast word.getLsbD 64 (fls word) ∧ fls word < 64 := by
  have hrev : word.reverse ≠ 0 := fun h => hne (BitVec.reverse_eq_zero_iff.mp h)
  obtain ⟨hfirst, hlt⟩ := isFirst_ffs hrev
  obtain ⟨-, hbit⟩ := hfirst.here hlt
  rw [getLsbD_reverse_word _ hlt] at hbit
  have hsum := fls_add_ffs_reverse word
  rw [show 63 - ffs word.reverse = fls word by omega] at hbit
  refine ⟨⟨by omega, fun _ => hbit, fun j hj hor => ?_⟩, by omega⟩
  have hclear := hfirst.before (63 - j) (Nat.zero_le _) (by omega)
  rwa [getLsbD_reverse_word _ (by omega), show 63 - (63 - j) = j by omega] at hclear

/-! ### Searching downwards -/

/-- The `do`-`while` loop of `find_last_bit`, from word `idx` on. `val` masks that word. -/
def findLastLoop (addr : Ptr) (size : ℕ) (h : Mem) (idx : ℕ) (val : Word) : Except Fault ℕ := do
  let val := val &&& (← h.read addr idx)
  if val ≠ 0 then return idx * 64 + fls val
  else
    match idx with
    | 0 => return size
    | idx + 1 => findLastLoop addr size h idx (BitVec.allOnes 64)

/-- `find_last_bit`. -/
def findLastBit (addr : Ptr) (size : ℕ) (h : Mem) : Except Fault ℕ :=
  if size ≠ 0 then findLastLoop addr size h ((size - 1) / 64) (lastWordMask size) else .ok size

section

variable {h : Mem} {b n size : ℕ} {w : ℕ → Word}

/-- One turn: a masked word that is not zero has the answer, one that is zero has nothing to
offer. -/
theorem last_of_masked {idx : ℕ} {val : Word}
    (hval : ∀ j, j < 64 → val.getLsbD j = decide (64 * idx + j < size))
    (hafter : ∀ j, 64 * (idx + 1) ≤ j → j < size → bitAt w j = false) :
    (val &&& w idx ≠ 0 → IsLast (bitAt w) size (idx * 64 + fls (val &&& w idx))) ∧
      (val &&& w idx = 0 → ∀ j, 64 * idx ≤ j → j < size → bitAt w j = false) := by
  have hword : ∀ j, j < 64 → (val &&& w idx).getLsbD j =
      (decide (64 * idx + j < size) && bitAt w (64 * idx + j)) := by
    intro j hj
    rw [BitVec.getLsbD_and, hval j hj, bitAt_mul_add w idx hj]
  constructor
  · intro hne
    obtain ⟨hlast, hlt⟩ := isLast_fls hne
    rw [Nat.mul_comm idx 64]
    exact IsLast.of_word hword hafter hlast hlt
  · intro hz j hlo hj
    by_cases hjk : 64 * (idx + 1) ≤ j
    · exact hafter j hjk hj
    · have hbit := hword (j - 64 * idx) (by omega)
      rw [hz, show 64 * idx + (j - 64 * idx) = j by omega, decide_eq_true hj] at hbit
      simpa using hbit.symm

/-- What the loop returns from word `idx` on, when nothing was found above it and `val` lets the
bits below the size through. -/
theorem findLastLoop_eq (hh : h.Holds b n w) (hn : bitsToLongs size ≤ n) {idx : ℕ} {val : Word}
    (hidx : idx < bitsToLongs size)
    (hval : ∀ j, j < 64 → val.getLsbD j = decide (64 * idx + j < size))
    (hafter : ∀ j, 64 * (idx + 1) ≤ j → j < size → bitAt w j = false) :
    ∃ i, findLastLoop (some b) size h idx val = .ok i ∧ IsLast (bitAt w) size i := by
  induction idx generalizing val with
  | zero =>
    obtain ⟨hfound, hclear⟩ := last_of_masked hval hafter
    rw [findLastLoop, hh.read (by omega), Except.ok_bind]
    by_cases hz : val &&& w 0 = 0
    · refine ⟨size, by rw [hz]; rfl, IsLast.of_forall fun j hj => ?_⟩
      exact hclear hz j (Nat.zero_le j) hj
    · exact ⟨_, if_pos hz, hfound hz⟩
  | succ idx ih =>
    obtain ⟨hfound, hclear⟩ := last_of_masked hval hafter
    rw [findLastLoop, hh.read (by omega), Except.ok_bind]
    by_cases hz : val &&& w (idx + 1) = 0
    · -- on to the word below, whole: it lies below the size
      have hall : ∀ j, j < 64 →
          (BitVec.allOnes 64).getLsbD j = decide (64 * idx + j < size) := by
        intro j hj
        have hlt := lt_bitsToLongs_iff.mp hidx
        rw [BitVec.getLsbD_allOnes, decide_eq_true hj, decide_eq_true (by omega)]
      obtain ⟨i, hok, hlast⟩ := ih (by omega) hall (hclear hz)
      refine ⟨i, ?_, hlast⟩
      rw [hz]
      exact hok
    · exact ⟨_, if_pos hz, hfound hz⟩

/-- `find_last_bit` returns the last set bit, or `size`. -/
theorem isLast_findLastBit (hh : h.Holds b n w) (hn : bitsToLongs size ≤ n) :
    ∃ i, findLastBit (some b) size h = .ok i ∧ IsLast (bitAt w) size i := by
  unfold findLastBit
  by_cases hsize : size = 0
  · subst hsize
    exact ⟨0, rfl, IsLast.of_forall fun j hj => absurd hj (Nat.not_lt_zero j)⟩
  · rw [if_pos hsize]
    have hidx : (size - 1) / 64 < bitsToLongs size := lt_bitsToLongs_iff.mpr (by omega)
    -- the mask lets through the bits of the last word below the size
    have hmask : ∀ j, j < 64 →
        (lastWordMask size).getLsbD j = decide (64 * ((size - 1) / 64) + j < size) := by
      intro j hj
      rw [lastWordMask, BitVec.getLsbD_ushiftRight, BitVec.getLsbD_allOnes]
      exact decide_eq_decide.mpr (by omega)
    exact findLastLoop_eq hh hn hidx hmask fun j hlo hj => by omega

end

/-! ### The contract of the searches -/

/-- The searches of `bitops.c`. -/
inductive Search
  | next (offset : ℕ)
  | nextZero (offset : ℕ)
  | first
  | firstZero
  | last
  deriving DecidableEq

namespace Search

/-- The call of the search. -/
def run (addr : Ptr) (size : ℕ) (h : Mem) : Search → Except Fault ℕ
  | next offset => findNextBit addr size offset h
  | nextZero offset => findNextZeroBit addr size offset h
  | first => findFirstBit addr size h
  | firstZero => findFirstZeroBit addr size h
  | last => findLastBit addr size h

/-- What the search promises of its answer `i`, for the sequence of bits `p`. -/
def Meets (p : ℕ → Bool) (size i : ℕ) : Search → Prop
  | next offset => IsFirst p offset size i
  | nextZero offset => IsFirst (fun j => !p j) offset size i
  | first => IsFirst p 0 size i
  | firstZero => IsFirst (fun j => !p j) 0 size i
  | last => IsLast p size i

variable {h : Mem} {b size i i' : ℕ} {w : ℕ → Word} {p q : ℕ → Bool}

/-- Only the bits below the size matter. -/
theorem Meets.congr {s : Search} (hi : s.Meets p size i) (hpq : ∀ j, j < size → p j = q j) :
    s.Meets q size i := by
  cases s with
  | next offset => exact IsFirst.congr hi fun j _ hj => hpq j hj
  | nextZero offset => exact IsFirst.congr hi fun j _ hj => by rw [hpq j hj]
  | first => exact IsFirst.congr hi fun j _ hj => hpq j hj
  | firstZero => exact IsFirst.congr hi fun j _ hj => by rw [hpq j hj]
  | last => exact IsLast.congr hi hpq

/-- The answer is determined by the bits below the size. -/
theorem Meets.unique {s : Search} (hi : s.Meets p size i) (hi' : s.Meets q size i')
    (hpq : ∀ j, j < size → p j = q j) : i = i' := by
  cases s with
  | next offset => exact (IsFirst.congr hi fun j _ hj => hpq j hj).unique hi'
  | nextZero offset => exact (IsFirst.congr hi fun j _ hj => by rw [hpq j hj]).unique hi'
  | first => exact (IsFirst.congr hi fun j _ hj => hpq j hj).unique hi'
  | firstZero => exact (IsFirst.congr hi fun j _ hj => by rw [hpq j hj]).unique hi'
  | last => exact (IsLast.congr hi hpq).unique hi'

/-- **Every search returns an answer that meets its contract.** -/
theorem exists_meets (s : Search) (hh : h.Holds b (bitsToLongs size) w) :
    ∃ i, s.run (some b) size h = .ok i ∧ s.Meets (bitAt w) size i := by
  have hle := Nat.le_refl (bitsToLongs size)
  cases s with
  | next offset => exact ⟨_, findNextBit_eq hh hle, isFirst_firstIn ..⟩
  | nextZero offset => exact ⟨_, findNextZeroBit_eq hh hle, isFirst_firstIn ..⟩
  | first => exact ⟨_, findFirstBit_eq hh hle, isFirst_firstIn ..⟩
  | firstZero => exact ⟨_, findFirstZeroBit_eq hh hle, isFirst_firstIn ..⟩
  | last => exact isLast_findLastBit hh hle

/-- Two bitmaps that agree below the size are searched alike. -/
theorem run_congr (s : Search) {h' : Mem} {b' : ℕ} {w' : ℕ → Word}
    (hh : h.Holds b (bitsToLongs size) w) (hh' : h'.Holds b' (bitsToLongs size) w')
    (hw : ∀ j, j < size → bitAt w j = bitAt w' j) :
    s.run (some b') size h' = s.run (some b) size h := by
  obtain ⟨i, hok, hi⟩ := s.exists_meets hh
  obtain ⟨i', hok', hi'⟩ := s.exists_meets hh'
  rw [hok, hok', hi.unique hi' hw]

end Search

/-- What the searches of the bitmap `w` at `b` come to. -/
structure SearchesMeet (h : Mem) (b size : ℕ) (w : ℕ → Word) : Prop where
  contract : ∀ s : Search, ∃ i, s.run (some b) size h = .ok i ∧ s.Meets (bitAt w) size i
  first_eq : Search.first.run (some b) size h = (Search.next 0).run (some b) size h
  firstZero_eq : Search.firstZero.run (some b) size h = (Search.nextZero 0).run (some b) size h
  unused : ∀ (s : Search) (h' : Mem) b' w', h'.Holds b' (bitsToLongs size) w' →
    (∀ j, j < size → bitAt w j = bitAt w' j) →
    s.run (some b') size h' = s.run (some b) size h
  footprint : ∀ s : Search, h.ReadsOnly (BitmapWords [b] size) fun h => s.run (some b) size h

/-- **The searches meet their contract** on every bitmap: the answer is the one promised, it depends
on the bits below the size only, and no word that has none of them is read. -/
theorem searches_meet {h : Mem} {b size : ℕ} {w : ℕ → Word}
    (hh : h.Holds b (bitsToLongs size) w) : SearchesMeet h b size w where
  contract s := s.exists_meets hh
  first_eq := by
    have hle := Nat.le_refl (bitsToLongs size)
    exact (findFirstBit_eq hh hle).trans (findNextBit_eq hh hle).symm
  firstZero_eq := by
    have hle := Nat.le_refl (bitsToLongs size)
    exact (findFirstZeroBit_eq hh hle).trans (findNextZeroBit_eq hh hle).symm
  unused s h' b' w' hh' hw := s.run_congr hh hh' hw
  footprint s := s.run_congr hh (hh.only fun k hk => ⟨List.mem_singleton_self b, hk⟩) fun _ _ => rfl

/-- A bitmap of 70 bits whose last set bit is in the second word, with garbage above it. -/
theorem searches_meet_seventy : SearchesMeet (Heap.ofBlock 2 fun _ => 0xa0) 0 70 fun _ => 0xa0 :=
  searches_meet (Heap.holds_ofBlock 2 _)

end Vlstp
