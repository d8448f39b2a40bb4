import Mathlib.Data.Nat.Count
import Vlstp.Framework.BitSeq

/-!
# Rank and select

The rank of an index in a sequence of bits is the number of set bits before it, `bitRank`. Select
goes the other way: `IsSelect p hi j i` says that `i` is the index below `hi` whose bit is set and
has rank `j`, or `hi` if there is none. It determines its answer (`IsSelect.unique`), and a set bit
is the one selected by its rank (`IsSelect.of_set`).

A program selects by going from one set bit to the next: `IsSelect.zero` and `IsSelect.succ` are the
steps of such a loop, for the searches that `IsFirst` describes.
-/

/-- The number of indexes below `n` where `p` holds. -/
def bitRank (p : ℕ → Bool) (n : ℕ) : ℕ := Nat.count (fun i => p i = true) n

section Rank

variable {p : ℕ → Bool} {lo hi i : ℕ}

theorem bitRank_zero (p : ℕ → Bool) : bitRank p 0 = 0 := Nat.count_zero _

theorem bitRank_mono (h : lo ≤ hi) : bitRank p lo ≤ bitRank p hi := Nat.count_monotone _ h

theorem bitRank_le (p : ℕ → Bool) (n : ℕ) : bitRank p n ≤ n := Nat.count_le _

/-- A set bit counts for the indexes after it. -/
theorem bitRank_succ (hp : p i = true) : bitRank p (i + 1) = bitRank p i + 1 :=
  Nat.count_succ_eq_succ_count_iff.mpr hp

theorem bitRank_lt (hp : p i = true) (hlt : i < hi) : bitRank p i < bitRank p hi :=
  Nat.count_strict_mono hp hlt

/-- The rank does not change where no bit is set. -/
theorem bitRank_eq_of_forall (hle : lo ≤ hi) (hnone : ∀ j, lo ≤ j → j < hi → p j = false) :
    bitRank p hi = bitRank p lo := by
  refine Nat.le_antisymm ?_ (bitRank_mono hle)
  by_contra hgt
  obtain ⟨j, hj, hset⟩ := Nat.exists_of_count_lt_count (Nat.lt_of_not_le hgt)
  obtain ⟨hlo, hhi⟩ := Set.mem_Ico.mp hj
  rw [hnone j hlo hhi] at hset
  cases hset

/-- Only the indexes below count. -/
theorem bitRank_congr {q : ℕ → Bool} (hpq : ∀ j, j < hi → p j = q j) :
    bitRank p hi = bitRank q hi := by
  unfold bitRank
  rw [Nat.count_eq_card_filter_range, Nat.count_eq_card_filter_range]
  refine congrArg Finset.card (Finset.filter_congr fun j hj => ?_)
  rw [hpq j (Finset.mem_range.mp hj)]

end Rank

/-- `i` is the index below `hi` where `p` holds that has `j` such indexes before it, or `hi`. -/
structure IsSelect (p : ℕ → Bool) (hi j i : ℕ) : Prop where
  le : i ≤ hi
  here : i < hi → p i = true ∧ bitRank p i = j
  past : i = hi → bitRank p hi ≤ j

namespace IsSelect

variable {p : ℕ → Bool} {hi j j' i i' : ℕ}

/-- There is such an index exactly when `p` holds at more than `j` of them. -/
theorem lt_iff (h : IsSelect p hi j i) : i < hi ↔ j < bitRank p hi := by
  constructor
  · intro hlt
    obtain ⟨hset, hrank⟩ := h.here hlt
    rw [← hrank]
    exact bitRank_lt hset hlt
  · intro hj
    have hle := h.le
    have hne : i ≠ hi := fun heq => absurd (h.past heq) (Nat.not_le.mpr hj)
    omega

theorem unique (h : IsSelect p hi j i) (h' : IsSelect p hi j i') : i = i' := by
  have hle := h.le
  have hle' := h'.le
  have hiff := h.lt_iff.trans h'.lt_iff.symm
  by_cases hlt : i < hi
  · -- two set bits of one rank
    obtain ⟨hset, hrank⟩ := h.here hlt
    obtain ⟨hset', hrank'⟩ := h'.here (hiff.mp hlt)
    exact Nat.count_injective hset hset' (hrank.trans hrank'.symm)
  · omega

/-- Only the bits below `hi` matter. -/
theorem congr {q : ℕ → Bool} (h : IsSelect p hi j i) (hpq : ∀ k, k < hi → p k = q k) :
    IsSelect q hi j i where
  le := h.le
  here hlt := by
    obtain ⟨hset, hrank⟩ := h.here hlt
    refine ⟨(hpq i hlt).symm.trans hset, ?_⟩
    rw [← hrank]
    exact (bitRank_congr fun k hk => hpq k (hk.trans hlt)).symm
  past heq := (bitRank_congr hpq).symm.le.trans (h.past heq)

/-- A set bit is selected by its rank. -/
theorem of_set (hset : p i = true) (hlt : i < hi) : IsSelect p hi (bitRank p i) i :=
  ⟨Nat.le_of_lt hlt, fun _ => ⟨hset, rfl⟩, fun heq => absurd heq (Nat.ne_of_lt hlt)⟩

/-- **The first set bit** has rank zero. -/
theorem zero (h : IsFirst p 0 hi i) : IsSelect p hi 0 i := by
  have hrank : bitRank p i = 0 := by
    calc bitRank p i = bitRank p 0 := bitRank_eq_of_forall (Nat.zero_le i) h.before
      _ = 0 := bitRank_zero p
  exact ⟨h.le, fun hlt => ⟨(h.here hlt).2, hrank⟩, fun heq => by rw [← heq, hrank]⟩

/-- **The next set bit** has the next rank. -/
theorem succ (h : IsSelect p hi j i) (hlt : i < hi) (hnext : IsFirst p (i + 1) hi i') :
    IsSelect p hi (j + 1) i' := by
  obtain ⟨hset, hrank⟩ := h.here hlt
  -- between the two no bit is set
  have hrank' : bitRank p i' = j + 1 := by
    calc bitRank p i' = bitRank p (i + 1) :=
          bitRank_eq_of_forall (hnext.lo_le hlt) hnext.before
      _ = bitRank p i + 1 := bitRank_succ hset
      _ = j + 1 := by rw [hrank]
  exact ⟨hnext.le, fun hlt' => ⟨(hnext.here hlt').2, hrank'⟩, fun heq => by rw [← heq, hrank']⟩

/-- After the last set bit there is none of any higher rank. -/
theorem of_past (h : IsSelect p hi j i) (hle : hi ≤ i) (hj : j ≤ j') : IsSelect p hi j' i := by
  have heq : i = hi := Nat.le_antisymm h.le hle
  exact ⟨h.le, fun hlt => absurd hlt (Nat.not_lt.mpr hle), fun _ => (h.past heq).trans hj⟩

end IsSelect
