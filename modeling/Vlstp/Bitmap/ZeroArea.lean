import Mathlib.Logic.Relation
import Vlstp.Bitops

/-!
# Searching a zero area (`bitmap_find_next_zero_area_off`)

`bitmap_find_next_zero_area_off` looks for `nr` clear bits in a row, from an index on whose sum with
`align_offset` is a multiple of a power of two. It alternates three steps: the first clear bit from
`start` on, the alignment of that index, and the first set bit of the area there. If that finds a
set bit, the search starts again after it.

The answer is the least fitting index (`bitmapFindNextZeroAreaOff_least`). Each turn of the loop
rules out only indices that do not fit: those before the first clear bit, those between it and the
aligned index, and those whose area the set bit lies in (`Fits.candidate_le`, `Fits.blocker_lt`).
All sums are of `unsigned long`, so this assumes that none of those the search computes overflows
(`NoOverflow`).
-/

namespace Vlstp

/-! ### Definitions -/

/-- `__ALIGN_MASK(x, mask)` on `unsigned long`. -/
def alignMaskUp (x mask : Word) : Word := (x + mask) &&& ~~~mask

/-- The `again:` loop of `bitmap_find_next_zero_area_off`. -/
def zeroAreaLoop (map : Ptr) (size : Word) (nr : BitVec 32) (alignMask alignOffset : Word)
    (h : Mem) : ℕ → Word → Except Fault Word
  | 0, _ => .error .diverge
  | fuel + 1, start => do
    let index : Word := BitVec.ofNat 64 (← findNextZeroBit map size.toNat start.toNat h)
    -- align allocation
    let index := alignMaskUp (index + alignOffset) alignMask - alignOffset
    let «end» := index + nr.setWidth 64
    if «end» > size then return «end»
    else do
      let i : Word := BitVec.ofNat 64 (← findNextBit map «end».toNat index.toNat h)
      if i < «end» then zeroAreaLoop map size nr alignMask alignOffset h fuel (i + 1)
      else return index

/-- `bitmap_find_next_zero_area_off`. Every turn but the last moves `start` up, so it ends after at
most as many turns as there are bits, and one. -/
def bitmapFindNextZeroAreaOff (map : Ptr) (size start : Word) (nr : BitVec 32)
    (alignMask alignOffset : Word) (h : Mem) : Except Fault Word :=
  zeroAreaLoop map size nr alignMask alignOffset h (size.toNat + 1) start

/-! ### The search on natural numbers -/

/-- What is looked for: an area of `nr` clear bits of the first `size` bits of `p`, at an index
whose sum with `off` is a multiple of `2 ^ k`. -/
structure AreaSearch where
  p : ℕ → Bool
  size : ℕ
  nr : ℕ
  k : ℕ
  off : ℕ
  nr_pos : 0 < nr

namespace AreaSearch

variable (A : AreaSearch)

/-- The area fits at `s`, which is not before `start`. -/
structure Fits (start s : ℕ) : Prop where
  start_le : start ≤ s
  aligned : 2 ^ A.k ∣ s + A.off
  end_le : s + A.nr ≤ A.size
  clear : ∀ i, s ≤ i → i < s + A.nr → A.p i = false

/-- The first clear bit from `start` on. -/
def firstClear (start : ℕ) : ℕ := firstIn (fun i => !A.p i) start A.size

/-- Where a turn of the search looks for the area: the first clear bit, aligned. -/
def candidate (start : ℕ) : ℕ := alignUp A.k (A.firstClear start + A.off) - A.off

/-- The first set bit of the area there, or its end. -/
def blocker (start : ℕ) : ℕ := firstIn A.p (A.candidate start) (A.candidate start + A.nr)

/-- From `start` the search goes on at `start'`. -/
def Again (start start' : ℕ) : Prop :=
  A.candidate start + A.nr ≤ A.size ∧ A.blocker start < A.candidate start + A.nr ∧
    start' = A.blocker start + 1

/-- The search from `start` computes no sum of `2 ^ 64` or more: not in its first turn, and not in
any later one. -/
def NoOverflow (start : ℕ) : Prop :=
  ∀ s, Relation.ReflTransGen A.Again start s →
    A.firstClear s + A.off + (2 ^ A.k - 1) < 2 ^ 64 ∧ A.candidate s + A.nr < 2 ^ 64

/-- The answer the search owes: the least fitting index, or one too large if there is none. -/
structure IsAnswer (start r : ℕ) : Prop where
  least : ∀ s, A.Fits start s → A.Fits start r ∧ r ≤ s
  none : (∀ s, ¬ A.Fits start s) → A.size < r

variable {A} {start s r : ℕ}

theorem candidate_add (start : ℕ) :
    A.candidate start + A.off = alignUp A.k (A.firstClear start + A.off) := by
  have hle := le_alignUp A.k (A.firstClear start + A.off)
  unfold candidate
  omega

theorem firstClear_le_candidate (start : ℕ) : A.firstClear start ≤ A.candidate start := by
  have hle := le_alignUp A.k (A.firstClear start + A.off)
  unfold candidate
  omega

theorem firstClear_le (start : ℕ) : A.firstClear start ≤ A.size :=
  (isFirst_firstIn (fun i => !A.p i) start A.size).le

/-- Nothing fits before the aligned first clear bit. -/
theorem Fits.candidate_le (hs : A.Fits start s) : A.candidate start ≤ s := by
  have hfirst := isFirst_firstIn (fun i => !A.p i) start A.size
  have hnr := A.nr_pos
  have hend := hs.end_le
  -- the index itself is clear, so the first clear bit is not after it
  have hle : A.firstClear start ≤ s := by
    by_contra hlt
    have hbit := hfirst.before s hs.start_le (Nat.not_le.mp hlt)
    rw [hs.clear s (Nat.le_refl s) (by omega)] at hbit
    exact absurd hbit (by decide)
  have halign : A.candidate start + A.off ≤ s + A.off := by
    rw [candidate_add]
    exact alignUp_le (by omega) hs.aligned
  omega

/-- Nothing fits before the set bit that blocks the area at the candidate, nor at it. -/
theorem Fits.blocker_lt (hs : A.Fits start s)
    (hblock : A.blocker start < A.candidate start + A.nr) : A.blocker start < s := by
  have hle := hs.candidate_le
  obtain ⟨-, hset⟩ := (isFirst_firstIn A.p _ (A.candidate start + A.nr)).here hblock
  by_contra hge
  -- otherwise the set bit lies in the area
  have hclear := hs.clear (A.blocker start) (by omega) (by omega)
  change A.p (A.blocker start) = true at hset
  rw [hclear] at hset
  exact absurd hset (by decide)

/-- The search stays behind its start only if there is nothing left to search. -/
theorem start_le_candidate (hend : A.candidate start + A.nr ≤ A.size) :
    start ≤ A.candidate start := by
  have hnr := A.nr_pos
  have hle := firstClear_le_candidate (A := A) start
  have hfirst := isFirst_firstIn (fun i => !A.p i) start A.size
  by_cases hlt : A.firstClear start < A.size
  · exact Nat.le_trans (hfirst.here hlt).1 hle
  · omega

/-- The candidate fits if no set bit blocks it. -/
theorem fits_candidate (hend : A.candidate start + A.nr ≤ A.size)
    (hfree : ¬ A.blocker start < A.candidate start + A.nr) :
    A.Fits start (A.candidate start) where
  start_le := start_le_candidate hend
  aligned := by
    rw [candidate_add]
    exact dvd_alignUp ..
  end_le := hend
  clear i hi hi' :=
    (isFirst_firstIn A.p _ (A.candidate start + A.nr)).before i hi
      (Nat.lt_of_lt_of_le hi' (Nat.not_lt.mp hfree))

theorem le_blocker (start : ℕ) : A.candidate start ≤ A.blocker start :=
  (isFirst_firstIn A.p _ _).lo_le (Nat.le_add_right ..)

/-- What fits is not lost when the search goes on after the set bit. -/
theorem fits_again_iff {start' : ℕ} (hagain : A.Again start start') :
    A.Fits start' s ↔ A.Fits start s := by
  obtain ⟨hend, hblock, rfl⟩ := hagain
  have hstart := start_le_candidate hend
  have hle := le_blocker (A := A) start
  constructor
  · intro hs
    exact ⟨by have := hs.start_le; omega, hs.aligned, hs.end_le, hs.clear⟩
  · intro hs
    exact ⟨hs.blocker_lt hblock, hs.aligned, hs.end_le, hs.clear⟩

/-- So the answer is the same. -/
theorem IsAnswer.of_again {start' : ℕ} (hagain : A.Again start start')
    (hr : A.IsAnswer start' r) : A.IsAnswer start r where
  least s hs := by
    obtain ⟨hfits, hle⟩ := hr.least s ((fits_again_iff hagain).mpr hs)
    exact ⟨(fits_again_iff hagain).mp hfits, hle⟩
  none hno := hr.none fun s hs => hno s ((fits_again_iff hagain).mp hs)

theorem isAnswer_of_past_end (hpast : A.size < A.candidate start + A.nr) :
    A.IsAnswer start (A.candidate start + A.nr) where
  least _ hs := by
    have hle := hs.candidate_le
    have hend := hs.end_le
    omega
  none _ := hpast

theorem isAnswer_candidate (hend : A.candidate start + A.nr ≤ A.size)
    (hfree : ¬ A.blocker start < A.candidate start + A.nr) :
    A.IsAnswer start (A.candidate start) where
  least _ hs := ⟨fits_candidate hend hfree, hs.candidate_le⟩
  none hno := absurd (fits_candidate hend hfree) (hno _)

/-- The sums stay below `2 ^ 64` if those for the largest index do. -/
theorem noOverflow_of_le (hoff : A.size + A.off + (2 ^ A.k - 1) < 2 ^ 64)
    (hnr : A.size + (2 ^ A.k - 1) + A.nr < 2 ^ 64) : A.NoOverflow start := by
  intro s _
  have hle := firstClear_le (A := A) s
  have hup := alignUp_le_add A.k (A.firstClear s + A.off)
  have hcand := candidate_add (A := A) s
  omega

theorem NoOverflow.again {start' : ℕ} (hover : A.NoOverflow start) (hagain : A.Again start start') :
    A.NoOverflow start' :=
  fun s hs => hover s (.head hagain hs)

end AreaSearch

/-! ### The code computes the search -/

theorem toNat_alignMaskUp {x mask : Word} {k : ℕ} (hmask : mask.toNat = 2 ^ k - 1)
    (hlt : x.toNat + (2 ^ k - 1) < 2 ^ 64) : (alignMaskUp x mask).toNat = alignUp k x.toNat := by
  have heq : mask = BitVec.ofNat 64 (2 ^ k - 1) := by
    apply BitVec.eq_of_toNat_eq
    rw [hmask, BitVec.toNat_ofNat, Nat.mod_eq_of_lt (by omega)]
  have hsum : (x + mask).toNat = x.toNat + (2 ^ k - 1) := by
    rw [BitVec.toNat_add, hmask, Nat.mod_eq_of_lt hlt]
  calc (alignMaskUp x mask).toNat
      = ((x + mask) &&& ~~~BitVec.ofNat 64 (2 ^ k - 1)).toNat := by rw [alignMaskUp, ← heq]
    _ = (x + mask).toNat / 2 ^ k * 2 ^ k := toNat_and_not_lowMask _ k
    _ = alignUp k x.toNat := by rw [hsum, alignUp]

section

variable {h : Mem} {b n k : ℕ} {w : ℕ → Word} {size start alignMask alignOffset : Word}
  {nr : BitVec 32}

/-- The search a call makes. -/
def areaSearch (w : ℕ → Word) (size : Word) (nr : BitVec 32) (k : ℕ) (alignOffset : Word)
    (hnr : 0 < nr.toNat) : AreaSearch where
  p := bitAt w
  size := size.toNat
  nr := nr.toNat
  k := k
  off := alignOffset.toNat
  nr_pos := hnr

/-- The index a turn computes is the candidate, if no sum of it overflows. -/
theorem toNat_aligned_index {A : AreaSearch} {s : ℕ} (hmask : alignMask.toNat = 2 ^ A.k - 1)
    (hoff : alignOffset.toNat = A.off)
    (hlt : A.firstClear s + A.off + (2 ^ A.k - 1) < 2 ^ 64) :
    (alignMaskUp (BitVec.ofNat 64 (A.firstClear s) + alignOffset) alignMask - alignOffset).toNat =
      A.candidate s := by
  have hsum : (BitVec.ofNat 64 (A.firstClear s) + alignOffset).toNat = A.firstClear s + A.off := by
    rw [BitVec.toNat_add, BitVec.toNat_ofNat, hoff]
    omega
  have hup := toNat_alignMaskUp hmask (x := BitVec.ofNat 64 (A.firstClear s) + alignOffset)
    (by rw [hsum]; exact hlt)
  have hcand := A.candidate_add s
  have hle := alignUp_le_add A.k (A.firstClear s + A.off)
  rw [BitVec.toNat_sub, hup, hsum, hoff]
  omega

/-- From every start the loop reaches the answer, if it has a turn for every bit left and one. -/
theorem zeroAreaLoop_answer (hh : h.Holds b n w) (hn : bitsToLongs size.toNat ≤ n)
    (hnr : 0 < nr.toNat) (hmask : alignMask.toNat = 2 ^ k - 1) {fuel : ℕ}
    (hfuel : size.toNat < fuel + start.toNat) (hpos : 0 < fuel)
    (hover : (areaSearch w size nr k alignOffset hnr).NoOverflow start.toNat) :
    ∃ r, zeroAreaLoop (some b) size nr alignMask alignOffset h fuel start = .ok r ∧
      (areaSearch w size nr k alignOffset hnr).IsAnswer start.toNat r.toNat := by
  set A := areaSearch w size nr k alignOffset hnr with hA
  -- on the turns left; where the search starts again, the answer it owes is the same
  induction fuel generalizing start with
  | zero => exact absurd hpos (Nat.lt_irrefl 0)
  | succ fuel ih =>
    obtain ⟨hlt, hend⟩ := hover start.toNat .refl
    have hzero : findNextZeroBit (some b) size.toNat start.toNat h =
        .ok (A.firstClear start.toNat) := findNextZeroBit_eq hh hn
    set index : Word := alignMaskUp (BitVec.ofNat 64 (A.firstClear start.toNat) + alignOffset)
      alignMask - alignOffset with hindex
    have hi : index.toNat = A.candidate start.toNat :=
      toNat_aligned_index (A := A) hmask rfl hlt
    have he : (index + nr.setWidth 64).toNat = A.candidate start.toNat + A.nr := by
      have hnr' : (nr.setWidth 64).toNat = A.nr := by
        rw [BitVec.toNat_setWidth]
        exact Nat.mod_eq_of_lt (Nat.lt_of_lt_of_le nr.isLt (by decide))
      rw [BitVec.toNat_add, hi, hnr', Nat.mod_eq_of_lt hend]
    rw [zeroAreaLoop, hzero, Except.ok_bind]
    simp only [← hindex]
    by_cases hpast : index + nr.setWidth 64 > size
    · -- the area would reach past the end, as would every later one
      have hpast' : A.size < A.candidate start.toNat + A.nr := by
        rw [← he]
        exact BitVec.lt_def.mp hpast
      rw [if_pos hpast]
      exact ⟨_, rfl, he ▸ AreaSearch.isAnswer_of_past_end hpast'⟩
    · have hin : A.candidate start.toNat + A.nr ≤ A.size := by
        rw [← he]
        exact Nat.not_lt.mp fun hgt => hpast (BitVec.lt_def.mpr hgt)
      have hset : findNextBit (some b) (index + nr.setWidth 64).toNat index.toNat h =
          .ok (A.blocker start.toNat) := by
        have hfit : bitsToLongs (index + nr.setWidth 64).toNat ≤ n := by
          rw [he]
          refine Nat.le_trans ?_ hn
          change A.candidate start.toNat + A.nr ≤ size.toNat at hin
          unfold bitsToLongs
          omega
        rw [findNextBit_eq hh hfit, he, hi]
        rfl
      have hble : A.blocker start.toNat ≤ A.candidate start.toNat + A.nr :=
        (isFirst_firstIn A.p _ _).le
      have hbw : (BitVec.ofNat 64 (A.blocker start.toNat)).toNat = A.blocker start.toNat := by
        rw [BitVec.toNat_ofNat]
        exact Nat.mod_eq_of_lt (by omega)
      rw [if_neg hpast, hset, Except.ok_bind]
      by_cases hblock : A.blocker start.toNat < A.candidate start.toNat + A.nr
      · -- a set bit in the area: the search goes on after it
        have hlt' : BitVec.ofNat 64 (A.blocker start.toNat) < index + nr.setWidth 64 := by
          rw [BitVec.lt_def, hbw, he]
          exact hblock
        have hnext : (BitVec.ofNat 64 (A.blocker start.toNat) + 1).toNat =
            A.blocker start.toNat + 1 := by
          rw [BitVec.toNat_add, hbw]
          exact Nat.mod_eq_of_lt (by change _ + 1 < _; omega)
        have hagain : A.Again start.toNat (A.blocker start.toNat + 1) := ⟨hin, hblock, rfl⟩
        have hstart := AreaSearch.start_le_candidate hin
        have hle := AreaSearch.le_blocker (A := A) start.toNat
        have hsize : A.size = size.toNat := rfl
        rw [if_pos hlt']
        have hrest : (areaSearch w size nr k alignOffset hnr).NoOverflow
            (BitVec.ofNat 64 (A.blocker start.toNat) + 1).toNat := by
          rw [hnext]
          exact hover.again hagain
        obtain ⟨r, hr, hanswer⟩ := ih (by rw [hnext]; omega) (by omega) hrest
        rw [hnext] at hanswer
        exact ⟨r, hr, hanswer.of_again hagain⟩
      · -- none: this is the least index
        have hge : ¬ BitVec.ofNat 64 (A.blocker start.toNat) < index + nr.setWidth 64 := by
          rw [BitVec.lt_def, hbw, he]
          exact hblock
        rw [if_neg hge]
        exact ⟨_, rfl, hi ▸ AreaSearch.isAnswer_candidate hin hblock⟩

/-- **`bitmap_find_next_zero_area_off` is correct and minimal.** For every bitmap, every start,
every number of bits and every alignment, it returns, and what it returns is the least index that
fits, or is beyond the size if none does. -/
theorem bitmapFindNextZeroAreaOff_least (hh : h.Holds b n w) (hn : bitsToLongs size.toNat ≤ n)
    (hnr : 0 < nr.toNat) (hmask : alignMask.toNat = 2 ^ k - 1)
    (hover : (areaSearch w size nr k alignOffset hnr).NoOverflow start.toNat) :
    ∃ r, bitmapFindNextZeroAreaOff (some b) size start nr alignMask alignOffset h = .ok r ∧
      (areaSearch w size nr k alignOffset hnr).IsAnswer start.toNat r.toNat :=
  zeroAreaLoop_answer hh hn hnr hmask (by omega) (Nat.succ_pos _) hover

end

/-- Two bits at an even index of a map whose bits 0 and 2 are set. -/
theorem bitmapFindNextZeroAreaOff_least_five :
    ∃ r, bitmapFindNextZeroAreaOff (some 0) 8 0 2 1 0 (Heap.ofBlock 1 fun _ => 5) = .ok r ∧
      (areaSearch (fun _ => 5) 8 2 1 0 (by decide)).IsAnswer 0 r.toNat :=
  bitmapFindNextZeroAreaOff_least (Heap.holds_ofBlock 1 _) (by decide) (by decide) (by decide)
    (AreaSearch.noOverflow_of_le (by decide) (by decide))

end Vlstp
