import Mathlib.Algebra.Group.Nat.Defs
import Mathlib.Logic.Function.Basic
import Mathlib.Tactic.Common

/-!
# Bit sequences packed in machine words

A bit map is an array of `n`-bit words read as one sequence of bits: bit `i` is bit `i % n` of word
`i / n`. `bitAt w` is that sequence, and the lemmas here say what the usual word operations do to
it: setting and clearing one bit, and the word stitched from two neighbours that a multi-word shift
writes (`bitAt_stitch`).

The other half is searching. `IsFirst p lo hi i` is the contract of a search for the first index in
`[lo, hi)` where `p` holds that answers `hi` when there is none. It determines its answer
(`IsFirst.unique`), `firstIn` computes it, and `IsFirst.of_word` is the step of a search that looks
at one word at a time. `positions` are the indexes that one search after the other finds. `IsLast`
is the same as `IsFirst` for a search downwards.
-/

/-! ### Searching -/

/-- `i` is the first index of `[lo, hi)` where `p` holds, or `hi` if it holds nowhere there. -/
structure IsFirst (p : ℕ → Bool) (lo hi i : ℕ) : Prop where
  le : i ≤ hi
  before : ∀ j, lo ≤ j → j < i → p j = false
  here : i < hi → lo ≤ i ∧ p i = true

namespace IsFirst

variable {p q : ℕ → Bool} {lo hi i i' : ℕ}

theorem unique (h : IsFirst p lo hi i) (h' : IsFirst p lo hi i') : i = i' := by
  rcases Nat.lt_trichotomy i i' with hlt | heq | hlt
  · -- the later answer has passed over an index where `p` holds
    obtain ⟨hlo, hp⟩ := h.here (by have := h'.le; omega)
    rw [h'.before i hlo hlt] at hp
    exact absurd hp (by simp)
  · exact heq
  · obtain ⟨hlo, hp⟩ := h'.here (by have := h.le; omega)
    rw [h.before i' hlo hlt] at hp
    exact absurd hp (by simp)

/-- The answer depends only on the part of the sequence that is searched. -/
theorem congr (h : IsFirst p lo hi i) (hpq : ∀ j, lo ≤ j → j < hi → p j = q j) :
    IsFirst q lo hi i where
  le := h.le
  before j hlo hj := by rw [← hpq j hlo (by have := h.le; omega)]; exact h.before j hlo hj
  here hi := by
    obtain ⟨hlo, hp⟩ := h.here hi
    exact ⟨hlo, by rw [← hpq i hlo hi]; exact hp⟩

/-- An empty search answers its upper end. -/
theorem of_le (h : hi ≤ lo) : IsFirst p lo hi hi where
  le := Nat.le_refl _
  before j hlo hj := by omega
  here hlt := by omega

/-- A search that has found nothing answers its upper end. -/
theorem of_forall (h : ∀ j, lo ≤ j → j < hi → p j = false) : IsFirst p lo hi hi where
  le := Nat.le_refl _
  before := h
  here hlt := by omega

theorem lo_le (h : IsFirst p lo hi i) (hlo : lo ≤ hi) : lo ≤ i := by
  by_cases hi' : i < hi
  · exact (h.here hi').1
  · have := h.le; omega

end IsFirst

/-- The first index of the `n` from `lo` on where `p` holds, or the index after them. -/
def seek (p : ℕ → Bool) : ℕ → ℕ → ℕ
  | lo, 0 => lo
  | lo, n + 1 => if p lo then lo else seek p (lo + 1) n

/-- The first index of `[lo, hi)` where `p` holds, or `hi`. -/
def firstIn (p : ℕ → Bool) (lo hi : ℕ) : ℕ :=
  if hi ≤ lo then hi else seek p lo (hi - lo)

theorem isFirst_seek (p : ℕ → Bool) (lo n : ℕ) : IsFirst p lo (lo + n) (seek p lo n) := by
  induction n generalizing lo with
  | zero => exact IsFirst.of_le (Nat.le_refl _)
  | succ n ih =>
    unfold seek
    by_cases hp : p lo
    · rw [if_pos hp]
      exact ⟨by omega, fun j h₁ h₂ => by omega, fun _ => ⟨(Nat.le_refl _), hp⟩⟩
    · -- not at `lo`: the answer is that of the search from the next index on
      rw [if_neg hp]
      have hrec := ih (lo + 1)
      rw [show lo + 1 + n = lo + (n + 1) by omega] at hrec
      refine ⟨hrec.le, fun j h₁ h₂ => ?_, fun hlt => ?_⟩
      · by_cases hj : j = lo
        · subst hj; simpa using hp
        · exact hrec.before j (by omega) h₂
      · obtain ⟨hle, hq⟩ := hrec.here hlt
        exact ⟨by omega, hq⟩

theorem isFirst_firstIn (p : ℕ → Bool) (lo hi : ℕ) : IsFirst p lo hi (firstIn p lo hi) := by
  unfold firstIn
  by_cases h : hi ≤ lo
  · rw [if_pos h]
    exact IsFirst.of_le h
  · rw [if_neg h]
    have := isFirst_seek p lo (hi - lo)
    rwa [show lo + (hi - lo) = hi by omega] at this

theorem IsFirst.eq_firstIn {p : ℕ → Bool} {lo hi i : ℕ} (h : IsFirst p lo hi i) :
    i = firstIn p lo hi :=
  h.unique (isFirst_firstIn p lo hi)

/-! ### Searching on and on -/

/-- The indexes of `[lo, hi)` where `p` holds, in order. -/
def positions (p : ℕ → Bool) (lo hi : ℕ) : List ℕ := (List.range' lo (hi - lo)).filter p

section Positions

variable {p : ℕ → Bool} {lo hi i : ℕ}

@[simp] theorem mem_positions : i ∈ positions p lo hi ↔ (lo ≤ i ∧ i < hi) ∧ p i = true := by
  unfold positions
  rw [List.mem_filter, List.mem_range'_1]
  exact and_congr_left fun _ => by omega

theorem positions_of_le (hle : hi ≤ firstIn p lo hi) : positions p lo hi = [] := by
  have hfirst := isFirst_firstIn p lo hi
  unfold positions
  rw [List.filter_eq_nil_iff]
  intro j hj
  rw [List.mem_range'_1] at hj
  rw [hfirst.before j hj.1 (by omega)]
  exact Bool.false_ne_true

/-- The first of them is what a search from `lo` on finds, and a search from behind it finds the
others. -/
theorem positions_of_lt (hlt : firstIn p lo hi < hi) :
    positions p lo hi = firstIn p lo hi :: positions p (firstIn p lo hi + 1) hi := by
  have hfirst := isFirst_firstIn p lo hi
  obtain ⟨hlo, hp⟩ := hfirst.here hlt
  set f := firstIn p lo hi with hf
  -- the range is cut at `f`
  have hcut : List.range' lo (hi - lo) =
      List.range' lo (f - lo) ++ f :: List.range' (f + 1) (hi - (f + 1)) := by
    rw [← List.range'_succ, show hi - (f + 1) + 1 = hi - f by omega]
    have happend := List.range'_append_1 (s := lo) (m := f - lo) (n := hi - f)
    rwa [show lo + (f - lo) = f by omega, show f - lo + (hi - f) = hi - lo by omega, eq_comm]
      at happend
  have hnone : (List.range' lo (f - lo)).filter p = [] := by
    rw [List.filter_eq_nil_iff]
    intro j hj
    rw [List.mem_range'_1] at hj
    rw [hfirst.before j hj.1 (by omega)]
    exact Bool.false_ne_true
  unfold positions
  rw [hcut, List.filter_append, hnone, List.nil_append, List.filter_cons_of_pos hp]

end Positions

/-- `i` is the last index below `hi` where `p` holds, or `hi` if it holds nowhere there. -/
structure IsLast (p : ℕ → Bool) (hi i : ℕ) : Prop where
  le : i ≤ hi
  here : i < hi → p i = true
  after : ∀ j, j < hi → i < j ∨ i = hi → p j = false

namespace IsLast

variable {p q : ℕ → Bool} {hi i i' : ℕ}

theorem unique (h : IsLast p hi i) (h' : IsLast p hi i') : i = i' := by
  -- of two different answers, the one that is an index is passed over by the other
  have hpass : ∀ {i i'}, IsLast p hi i → IsLast p hi i' → i < hi → ¬ (i' < i ∨ i' = hi) := by
    intro i i' h h' hlt hor
    have hset := h.here hlt
    rw [h'.after i hlt hor] at hset
    cases hset
  have hle := h.le
  have hle' := h'.le
  by_cases hlt : i < hi
  · have hnot := hpass h h' hlt
    have hnot' := hpass h' h (by omega)
    omega
  · by_cases hlt' : i' < hi
    · have hnot' := hpass h' h hlt'
      omega
    · omega

/-- The answer depends only on the part of the sequence that is searched. -/
theorem congr (h : IsLast p hi i) (hpq : ∀ j, j < hi → p j = q j) : IsLast q hi i where
  le := h.le
  here hlt := (hpq i hlt).symm.trans (h.here hlt)
  after j hj hor := (hpq j hj).symm.trans (h.after j hj hor)

/-- A search that has found nothing answers its upper end. -/
theorem of_forall (h : ∀ j, j < hi → p j = false) : IsLast p hi hi where
  le := Nat.le_refl _
  here hlt := absurd hlt (Nat.lt_irrefl hi)
  after j hj _ := h j hj

end IsLast

/-! ### Words as bits -/

section Words

variable {n : ℕ}

/-- Bit `i` of the sequence packed in the words `w`. -/
def bitAt (w : ℕ → BitVec n) (i : ℕ) : Bool :=
  (w (i / n)).getLsbD (i % n)

theorem bitAt_mul_add (w : ℕ → BitVec n) (k : ℕ) {j : ℕ} (hj : j < n) :
    bitAt w (n * k + j) = (w k).getLsbD j := by
  unfold bitAt
  rw [Nat.mul_add_div (by omega), Nat.div_eq_of_lt hj, Nat.mul_add_mod, Nat.mod_eq_of_lt hj,
    Nat.add_zero]

/-- The bits of the first word. -/
theorem bitAt_of_lt (w : ℕ → BitVec n) {j : ℕ} (hj : j < n) : bitAt w j = (w 0).getLsbD j := by
  rw [← bitAt_mul_add w 0 hj, Nat.mul_zero, Nat.zero_add]

/-- A word that is not zero has a set bit. -/
theorem exists_getLsbD_of_ne_zero {x : BitVec n} (hx : x ≠ 0) :
    ∃ j, j < n ∧ x.getLsbD j = true := by
  by_contra hnone
  push Not at hnone
  refine hx (BitVec.eq_of_getLsbD_eq fun j hj => ?_)
  simpa using hnone j hj

/-- The mask with the single bit `i`. -/
theorem getLsbD_one_shiftLeft {i j : ℕ} (hj : j < n) : (1#n <<< i).getLsbD j = decide (j = i) := by
  rw [← BitVec.twoPow_eq, BitVec.getLsbD_twoPow]
  by_cases hji : j = i
  · simp [hji, hji ▸ hj]
  · simp [hji, Ne.symm hji]

/-- Bits of one word differ in their place in it. -/
theorem mod_eq_mod_iff {i j : ℕ} (hword : j / n = i / n) : j % n = i % n ↔ j = i := by
  refine ⟨fun h => ?_, fun h => by rw [h]⟩
  rw [← Nat.div_add_mod j n, ← Nat.div_add_mod i n, hword, h]

/-- Replacing the word of bit `i` changes only the bits of that word. -/
theorem bitAt_update_of_ne {w : ℕ → BitVec n} {k : ℕ} {x : BitVec n} {j : ℕ} (hj : j / n ≠ k) :
    bitAt (Function.update w k x) j = bitAt w j := by
  unfold bitAt
  rw [Function.update_of_ne hj]

/-- Setting bit `i` in its word sets bit `i` of the sequence and no other. -/
theorem bitAt_set (hn : 0 < n) (w : ℕ → BitVec n) (i j : ℕ) :
    bitAt (Function.update w (i / n) (w (i / n) ||| 1#n <<< (i % n))) j
      = (decide (j = i) || bitAt w j) := by
  by_cases hword : j / n = i / n
  · -- a bit of the word that is written
    have hmask := getLsbD_one_shiftLeft (i := i % n) (Nat.mod_lt j hn)
    unfold bitAt
    rw [hword, Function.update_self, BitVec.getLsbD_or, hmask, Bool.or_comm,
      decide_eq_decide.mpr (mod_eq_mod_iff hword)]
  · rw [bitAt_update_of_ne hword]
    have hji : j ≠ i := fun h => hword (by rw [h])
    simp [hji]

/-- Clearing bit `i` in its word clears bit `i` of the sequence and no other. -/
theorem bitAt_clear (hn : 0 < n) (w : ℕ → BitVec n) (i j : ℕ) :
    bitAt (Function.update w (i / n) (w (i / n) &&& ~~~(1#n <<< (i % n)))) j
      = (!decide (j = i) && bitAt w j) := by
  by_cases hword : j / n = i / n
  · -- a bit of the word that is written
    have hj := Nat.mod_lt j hn
    have hmask := getLsbD_one_shiftLeft (i := i % n) hj
    unfold bitAt
    rw [hword, Function.update_self, BitVec.getLsbD_and, BitVec.getLsbD_not, hmask,
      decide_eq_true hj, Bool.true_and, Bool.and_comm, decide_eq_decide.mpr (mod_eq_mod_iff hword)]
  · rw [bitAt_update_of_ne hword]
    have hji : j ≠ i := fun h => hword (by rw [h])
    simp [hji]

/-- Masking the selected word with the single bit `i` tests bit `i` of the sequence. -/
theorem and_bit_ne_zero_iff (hn : 0 < n) (w : ℕ → BitVec n) (i : ℕ) :
    w (i / n) &&& 1#n <<< (i % n) ≠ 0 ↔ bitAt w i = true := by
  have hi := Nat.mod_lt i hn
  constructor
  · intro hne
    -- the only bit the mask lets through is bit `i`
    obtain ⟨j, hj, hbit⟩ := exists_getLsbD_of_ne_zero hne
    rw [BitVec.getLsbD_and, getLsbD_one_shiftLeft hj, Bool.and_eq_true, decide_eq_true_eq] at hbit
    obtain ⟨hbit, rfl⟩ := hbit
    exact hbit
  · intro hbit hz
    have hgl : (w (i / n) &&& 1#n <<< (i % n)).getLsbD (i % n) = true := by
      rw [BitVec.getLsbD_and, getLsbD_one_shiftLeft hi, ← bitAt, hbit, decide_eq_true rfl]
      rfl
    rw [hz] at hgl
    simp at hgl

/-- Bit `k` of a word, read off its value. -/
theorem and_bit_ne_zero_iff_le {x : BitVec n} {k : ℕ} (hk : k < n) :
    x &&& 1#n <<< k ≠ 0 ↔ 2 ^ k ≤ x.toNat % 2 ^ (k + 1) := by
  have hiff := and_bit_ne_zero_iff (Nat.zero_lt_of_lt hk) (fun _ => x) k
  rw [bitAt_of_lt _ hk, Nat.mod_eq_of_lt hk] at hiff
  rw [hiff, BitVec.getLsbD, Nat.testBit_eq_decide_div_mod_eq, decide_eq_true_eq, Nat.mod_pow_succ]
  have hlow := Nat.mod_lt x.toNat (Nat.two_pow_pos k)
  rcases Nat.mod_two_eq_zero_or_one (x.toNat / 2 ^ k) with hzero | hone
  · rw [hzero]
    omega
  · rw [hone]
    omega

/-- The step of a search word by word. Word `k` is looked at through a copy `x` in which the bits
before `lo` are cleared; if its lowest set bit is `f`, that is the answer, cut off at `hi`. -/
theorem IsFirst.of_word {w : ℕ → BitVec n} {x : BitVec n} {lo hi k f : ℕ}
    (hx : ∀ j, j < n → x.getLsbD j = (decide (lo ≤ n * k + j) && bitAt w (n * k + j)))
    (hbefore : ∀ j, lo ≤ j → j < n * k → bitAt w j = false) (hf : IsFirst x.getLsbD 0 n f)
    (hfn : f < n) : IsFirst (bitAt w) lo hi (min (n * k + f) hi) := by
  obtain ⟨-, hbit⟩ := hf.here hfn
  rw [hx f hfn] at hbit
  simp only [Bool.and_eq_true, decide_eq_true_eq] at hbit
  refine ⟨by omega, fun j hlo hj => ?_, fun hlt => ?_⟩
  · by_cases hjk : j < n * k
    · exact hbefore j hlo hjk
    · -- in the word, before its lowest set bit
      have hj' := hf.before (j - n * k) (by omega) (by omega)
      rw [hx _ (by omega), show n * k + (j - n * k) = j by omega] at hj'
      simpa [hlo] using hj'
  · have : min (n * k + f) hi = n * k + f := by omega
    rw [this]
    exact hbit

/-- The step of a search downwards. Word `k` is looked at through a copy `x` in which the bits from
`hi` on are cleared; its highest set bit is the answer. -/
theorem IsLast.of_word {w : ℕ → BitVec n} {x : BitVec n} {hi k f : ℕ}
    (hx : ∀ j, j < n → x.getLsbD j = (decide (n * k + j < hi) && bitAt w (n * k + j)))
    (hafter : ∀ j, n * (k + 1) ≤ j → j < hi → bitAt w j = false) (hf : IsLast x.getLsbD n f)
    (hfn : f < n) : IsLast (bitAt w) hi (n * k + f) := by
  have hbit := hf.here hfn
  rw [hx f hfn, Bool.and_eq_true, decide_eq_true_eq] at hbit
  obtain ⟨hlt, hbit⟩ := hbit
  refine ⟨Nat.le_of_lt hlt, fun _ => hbit, fun j hj hor => ?_⟩
  rw [Nat.mul_succ] at hafter
  by_cases hjk : n * k + n ≤ j
  · exact hafter j hjk hj
  · -- in the word, after its highest set bit
    have hj' := hf.after (j - n * k) (by omega) (by omega)
    rw [hx _ (by omega), show n * k + (j - n * k) = j by omega, decide_eq_true hj] at hj'
    exact hj'

/-- **The word a multi-word right shift writes.** Word `k + off` shifted down by `rem`, under the
low `rem` bits of the word above it moved to the top, is word `k` of the sequence shifted down by
`n * off + rem`. -/
theorem bitAt_stitch (w : ℕ → BitVec n) {off rem k j : ℕ} (hrem : rem < n) (hj : j < n) :
    ((w (off + k) >>> rem) ||| (if rem = 0 then 0 else w (off + k + 1) <<< (n - rem))).getLsbD j
      = bitAt w (n * k + j + (n * off + rem)) := by
  have hsum : n * k + j + (n * off + rem) = n * (off + k) + (j + rem) := by
    rw [Nat.mul_add]; omega
  rw [hsum, BitVec.getLsbD_or, BitVec.getLsbD_ushiftRight]
  by_cases hlt : j + rem < n
  · -- the bit comes from the lower word
    rw [bitAt_mul_add w _ hlt, Nat.add_comm rem j]
    by_cases h0 : rem = 0
    · simp [h0]
    · have : j < n - rem := by omega
      simp [h0, this]
  · -- the bit comes from the word above
    have hr : rem ≠ 0 := by omega
    have hsucc : n * (off + k) + (j + rem) = n * (off + k + 1) + (j + rem - n) := by
      rw [Nat.mul_add n (off + k) 1]; omega
    rw [hsucc, bitAt_mul_add w _ (by omega), if_neg hr, BitVec.getLsbD_shiftLeft,
      BitVec.getLsbD_of_ge _ _ (show n ≤ rem + j by omega)]
    have h1 : ¬ j < n - rem := by omega
    rw [show j - (n - rem) = j + rem - n by omega]
    simp [hj, h1]

/-! ### Whole sequences -/

/-- Some bit of the first `m` is set. -/
def anyBit (w : ℕ → BitVec n) (m : ℕ) : Bool := (List.range m).any (bitAt w)

theorem anyBit_iff (w : ℕ → BitVec n) (m : ℕ) :
    anyBit w m = true ↔ ∃ i, i < m ∧ bitAt w i = true := by
  simp [anyBit]

/-- A search for a set bit comes back empty-handed exactly when there is none. -/
theorem firstIn_eq_iff (w : ℕ → BitVec n) (m : ℕ) :
    firstIn (bitAt w) 0 m = m ↔ anyBit w m = false := by
  have hfirst := isFirst_firstIn (bitAt w) 0 m
  rw [← Bool.not_eq_true, anyBit_iff]
  constructor
  · rintro heq ⟨i, hi, hbit⟩
    rw [hfirst.before i (Nat.zero_le i) (by omega)] at hbit
    exact absurd hbit (by simp)
  · intro hnone
    by_contra hne
    have hlt : firstIn (bitAt w) 0 m < m := Nat.lt_of_le_of_ne hfirst.le hne
    exact hnone ⟨_, hlt, (hfirst.here hlt).2⟩

/-- The words up to `k`, or-ed together. -/
def orUpTo (w : ℕ → BitVec n) : ℕ → BitVec n
  | 0 => 0
  | k + 1 => orUpTo w k ||| w k

theorem orUpTo_ne_zero_iff (w : ℕ → BitVec n) (m : ℕ) :
    orUpTo w m ≠ 0 ↔ ∃ k, k < m ∧ w k ≠ 0 := by
  induction m with
  | zero => simp [orUpTo]
  | succ m ih =>
    have hor : orUpTo w m ||| w m = 0 ↔ orUpTo w m = 0 ∧ w m = 0 := BitVec.or_eq_zero_iff
    rw [orUpTo, ne_eq, hor, not_and_or, ← ne_eq, ih]
    constructor
    · rintro (⟨k, hk, hne⟩ | hne)
      · exact ⟨k, by omega, hne⟩
      · exact ⟨m, by omega, hne⟩
    · rintro ⟨k, hk, hne⟩
      by_cases hkm : k = m
      · exact Or.inr (hkm ▸ hne)
      · exact Or.inl ⟨k, by omega, hne⟩

/-- A word of the first `m` is not zero exactly when it has a set bit. -/
theorem exists_ne_zero_iff (w : ℕ → BitVec n) (m : ℕ) :
    (∃ k, k < m ∧ w k ≠ 0) ↔ anyBit w (n * m) = true := by
  rw [anyBit_iff]
  constructor
  · rintro ⟨k, hk, hne⟩
    obtain ⟨j, hj, hbit⟩ := exists_getLsbD_of_ne_zero hne
    refine ⟨n * k + j, ?_, by rwa [bitAt_mul_add w k hj]⟩
    calc n * k + j < n * (k + 1) := by rw [Nat.mul_succ]; omega
      _ ≤ n * m := Nat.mul_le_mul_left n hk
  · rintro ⟨i, hi, hbit⟩
    refine ⟨i / n, Nat.div_lt_of_lt_mul hi, fun hz => ?_⟩
    rw [bitAt, hz] at hbit
    simp at hbit

/-- **The word a multi-word left shift writes.** Word `k` shifted up by `rem`, over the high `rem`
bits of the word below it moved to the bottom, is word `k` of the sequence shifted up by `rem`. -/
theorem bitAt_stitch_left (w : ℕ → BitVec n) {rem k j : ℕ} (hrem : rem < n) (hj : j < n) :
    ((if rem ≠ 0 ∧ k > 0 then w (k - 1) >>> (n - rem) else 0) ||| w k <<< rem).getLsbD j
      = (decide (rem ≤ n * k + j) && bitAt w (n * k + j - rem)) := by
  rw [BitVec.getLsbD_or, BitVec.getLsbD_shiftLeft]
  by_cases hle : rem ≤ j
  · -- the bit comes from word `k`; the word below reaches only the bits under `rem`
    have hlow : (if rem ≠ 0 ∧ k > 0 then w (k - 1) >>> (n - rem) else 0).getLsbD j = false := by
      split
      · rw [BitVec.getLsbD_ushiftRight]
        exact BitVec.getLsbD_of_ge _ _ (by omega)
      · simp
    rw [hlow, show n * k + j - rem = n * k + (j - rem) by omega, bitAt_mul_add w k (by omega)]
    have hle' : rem ≤ n * k + j := by omega
    simp [hj, hle, hle']
  · -- the bit comes from the word below, if there is one
    have hr : rem ≠ 0 := by omega
    have hlt : j < rem := by omega
    by_cases hk : k = 0
    · subst hk
      simp [hlt, hle]
    · obtain ⟨k, rfl⟩ := Nat.exists_eq_succ_of_ne_zero hk
      have hidx : n * (k + 1) + j - rem = n * k + (n - rem + j) := by rw [Nat.mul_succ]; omega
      have hle' : rem ≤ n * (k + 1) + j := by rw [Nat.mul_succ]; omega
      rw [if_pos ⟨hr, Nat.succ_pos k⟩, BitVec.getLsbD_ushiftRight, Nat.succ_sub_one, hidx,
        bitAt_mul_add w k (by omega)]
      simp [hlt, hle']

end Words

/-! ### Alignment -/

/-- The multiples of `2 ^ k` from `x` on start here. -/
def alignUp (k x : ℕ) : ℕ := (x + (2 ^ k - 1)) / 2 ^ k * 2 ^ k

theorem dvd_alignUp (k x : ℕ) : 2 ^ k ∣ alignUp k x := Nat.dvd_mul_left ..

theorem le_alignUp (k x : ℕ) : x ≤ alignUp k x := by
  have hpos := Nat.two_pow_pos k
  have hdiv := Nat.div_add_mod' (x + (2 ^ k - 1)) (2 ^ k)
  have hmod := Nat.mod_lt (x + (2 ^ k - 1)) hpos
  unfold alignUp
  omega

theorem alignUp_le_add (k x : ℕ) : alignUp k x ≤ x + (2 ^ k - 1) := Nat.div_mul_le_self ..

/-- No multiple of `2 ^ k` from `x` on comes before. -/
theorem alignUp_le {k x y : ℕ} (hxy : x ≤ y) (hy : 2 ^ k ∣ y) : alignUp k x ≤ y := by
  obtain ⟨m, rfl⟩ := hy
  have hpos := Nat.two_pow_pos k
  have hlt : (x + (2 ^ k - 1)) / 2 ^ k < m + 1 := by
    apply Nat.div_lt_of_lt_mul
    rw [Nat.mul_succ]
    omega
  calc alignUp k x ≤ m * 2 ^ k := Nat.mul_le_mul_right _ (Nat.lt_succ_iff.mp hlt)
    _ = 2 ^ k * m := Nat.mul_comm ..

/-- Clearing the low `k` bits of a word rounds it down to a multiple of `2 ^ k`. -/
theorem toNat_and_not_lowMask {n : ℕ} (x : BitVec n) (k : ℕ) :
    (x &&& ~~~BitVec.ofNat n (2 ^ k - 1)).toNat = x.toNat / 2 ^ k * 2 ^ k := by
  -- clearing the low bits is shifting them out and back
  have hshift : x &&& ~~~BitVec.ofNat n (2 ^ k - 1) = x >>> k <<< k := by
    refine BitVec.eq_of_getLsbD_eq fun i hi => ?_
    rw [BitVec.getLsbD_and, BitVec.getLsbD_not, BitVec.getLsbD_ofNat, Nat.testBit_two_pow_sub_one,
      BitVec.getLsbD_shiftLeft, BitVec.getLsbD_ushiftRight]
    by_cases hk : i < k
    · simp [hi, hk]
    · simp [hi, hk, Nat.add_sub_cancel' (Nat.not_lt.mp hk)]
  have hle := Nat.div_mul_le_self x.toNat (2 ^ k)
  rw [hshift, BitVec.toNat_shiftLeft, BitVec.toNat_ushiftRight, Nat.shiftRight_eq_div_pow,
    Nat.shiftLeft_eq]
  exact Nat.mod_eq_of_lt (Nat.lt_of_le_of_lt hle x.isLt)
