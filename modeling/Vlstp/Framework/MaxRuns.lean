import Mathlib.Algebra.Ring.Nat
import Mathlib.Data.Nat.Count
import Vlstp.Framework.BitSeq

/-!
# The maximal runs of a bit sequence

`IsRuns p hi lo runs` says that `runs` are the maximal runs of indices of `[lo, hi)` where `p`
holds, each as its first and last index and in order. It is what a scan finds that looks for the
next index where `p` holds, from there for the next one where it does not, and goes on from that.

The list is determined (`IsRuns.unique`), its runs cover exactly the indices where `p` holds
(`IsRuns.covers_iff`), between two of them there is an index where it does not (`IsRuns.pairwise`),
and together they are as long as there are indices to cover (`IsRuns.sum_length`).
-/

variable {p : ℕ → Bool} {lo hi : ℕ} {runs : List (ℕ × ℕ)}

/-- The maximal runs of `p` in `[lo, hi)`, in order. -/
inductive IsRuns (p : ℕ → Bool) (hi : ℕ) : ℕ → List (ℕ × ℕ) → Prop
  | nil {lo : ℕ} (hnone : ∀ i, lo ≤ i → i < hi → p i = false) : IsRuns p hi lo []
  | cons {lo i j : ℕ} {runs : List (ℕ × ℕ)} (hfirst : IsFirst p lo hi i) (hij : i ≤ j)
      (hj : j < hi) (hlast : IsFirst (fun k => !p k) i hi (j + 1))
      (hrest : IsRuns p hi (j + 1) runs) : IsRuns p hi lo ((i, j) :: runs)

/-- Everything inside a run was passed over by the search for its end. -/
theorem IsFirst.true_of_mem_run {i j k : ℕ} (hlast : IsFirst (fun k => !p k) i hi (j + 1))
    (hik : i ≤ k) (hkj : k ≤ j) : p k = true := by
  simpa using hlast.before k hik (Nat.lt_succ_of_le hkj)

namespace IsRuns

theorem unique {runs' : List (ℕ × ℕ)} (h : IsRuns p hi lo runs) (h' : IsRuns p hi lo runs') :
    runs = runs' := by
  -- both lists start with what the two searches find
  induction h generalizing runs' with
  | nil hnone =>
    cases h' with
    | nil _ => rfl
    | cons hfirst hij hj hlast _ =>
      obtain ⟨hlo, hp⟩ := hfirst.here (Nat.lt_of_le_of_lt hij hj)
      rw [hnone _ hlo (Nat.lt_of_le_of_lt hij hj)] at hp
      exact Bool.noConfusion hp
  | cons hfirst hij hj hlast _ ih =>
    cases h' with
    | nil hnone =>
      obtain ⟨hlo, hp⟩ := hfirst.here (Nat.lt_of_le_of_lt hij hj)
      rw [hnone _ hlo (Nat.lt_of_le_of_lt hij hj)] at hp
      exact Bool.noConfusion hp
    | cons hfirst' hij' hj' hlast' hrest' =>
      obtain rfl := hfirst.unique hfirst'
      obtain rfl := Nat.succ.inj (hlast.unique hlast')
      rw [ih hrest']

/-- A run lies in the interval. -/
theorem bounds (h : IsRuns p hi lo runs) {r : ℕ × ℕ} (hr : r ∈ runs) :
    lo ≤ r.1 ∧ r.1 ≤ r.2 ∧ r.2 < hi := by
  induction h with
  | nil _ => cases hr
  | @cons lo i j runs hfirst hij hj _ _ ih =>
    have hlo := (hfirst.here (Nat.lt_of_le_of_lt hij hj)).1
    rcases List.mem_cons.mp hr with rfl | hr
    · exact ⟨hlo, hij, hj⟩
    · have hb := ih hr
      exact ⟨by omega, hb.2⟩

/-- **The runs cover exactly the indices where `p` holds.** -/
theorem covers_iff (h : IsRuns p hi lo runs) {k : ℕ} (hlo : lo ≤ k) (hk : k < hi) :
    p k = true ↔ ∃ r ∈ runs, r.1 ≤ k ∧ k ≤ r.2 := by
  induction h with
  | nil hnone => simp [hnone k hlo hk]
  | @cons lo i j runs hfirst hij hj hlast hrest ih =>
    rw [List.exists_mem_cons_iff]
    by_cases hkj : k ≤ j
    · -- up to the end of the first run: only that run can cover `k`
      have hlater : ¬ ∃ r ∈ runs, r.1 ≤ k ∧ k ≤ r.2 := by
        rintro ⟨r, hr, hrk, -⟩
        have := (hrest.bounds hr).1
        omega
      rw [or_iff_left hlater]
      constructor
      · intro hp
        refine ⟨?_, hkj⟩
        by_contra hki
        rw [hfirst.before k hlo (Nat.not_le.mp hki)] at hp
        exact Bool.noConfusion hp
      · rintro ⟨hik, -⟩
        exact hlast.true_of_mem_run hik hkj
    · -- beyond it: the first run does not
      rw [ih (by omega)]
      exact (or_iff_right fun hcov => hkj hcov.2).symm

/-- A run that follows starts beyond an index where `p` does not hold. -/
theorem succ_lt (h : IsRuns p hi lo runs) (hlo : p lo = false) {r : ℕ × ℕ} (hr : r ∈ runs) :
    lo < r.1 := by
  obtain ⟨hle, hle', hlt⟩ := h.bounds hr
  rcases Nat.lt_or_eq_of_le hle with hlt' | heq
  · exact hlt'
  · have hp := (h.covers_iff hle (Nat.lt_of_le_of_lt hle' hlt)).mpr ⟨r, hr, Nat.le_refl _, hle'⟩
    rw [← heq, hlo] at hp
    exact Bool.noConfusion hp

/-- **Between two runs there is an index where `p` does not hold.** -/
theorem pairwise (h : IsRuns p hi lo runs) : runs.Pairwise fun r r' => r.2 + 1 < r'.1 := by
  induction h with
  | nil _ => exact List.Pairwise.nil
  | @cons lo i j runs hfirst hij hj hlast hrest ih =>
    refine List.Pairwise.cons (fun r hr => ?_) ih
    -- a later run ends before `hi`, so the search for the end of this one stopped at a clear index
    have hlt : j + 1 < hi := by
      have := hrest.bounds hr
      omega
    have hclear : p (j + 1) = false := by simpa using (hlast.here hlt).2
    exact hrest.succ_lt hclear hr

/-! ### Counting -/

/-- Where `p` does not hold there is nothing to count. -/
theorem count_of_forall_false {a b : ℕ} (hab : a ≤ b) (h : ∀ i, a ≤ i → i < b → p i = false) :
    Nat.count (fun i => p i = true) b = Nat.count (fun i => p i = true) a := by
  obtain ⟨n, rfl⟩ := Nat.exists_eq_add_of_le hab
  have hnone : Nat.count (fun k => p (a + k) = true) n = 0 :=
    Nat.count_of_forall_not fun k hk => by
      simp [h (a + k) (Nat.le_add_right a k) (by omega)]
  rw [Nat.count_add, hnone, Nat.add_zero]

theorem count_of_forall_true {a b : ℕ} (hab : a ≤ b) (h : ∀ i, a ≤ i → i < b → p i = true) :
    Nat.count (fun i => p i = true) b = Nat.count (fun i => p i = true) a + (b - a) := by
  obtain ⟨n, rfl⟩ := Nat.exists_eq_add_of_le hab
  rw [Nat.count_add, Nat.count_of_forall fun k hk => h (a + k) (Nat.le_add_right a k) (by omega),
    Nat.add_sub_cancel_left]

/-- **The runs are as long, together, as there are indices where `p` holds.** -/
theorem sum_length (h : IsRuns p hi lo runs) (hlo : lo ≤ hi) :
    Nat.count (fun i => p i = true) lo + (runs.map fun r => r.2 - r.1 + 1).sum =
      Nat.count (fun i => p i = true) hi := by
  induction h with
  | nil hnone =>
    rw [List.map_nil, List.sum_nil, Nat.add_zero, count_of_forall_false hlo hnone]
  | @cons lo i j runs hfirst hij hj hlast hrest ih =>
    have hstart := (hfirst.here (Nat.lt_of_le_of_lt hij hj)).1
    -- nothing before the run, and every index in it
    have hgap : Nat.count (fun k => p k = true) i = Nat.count (fun k => p k = true) lo :=
      count_of_forall_false hstart hfirst.before
    have hrun : Nat.count (fun k => p k = true) (j + 1) =
        Nat.count (fun k => p k = true) i + (j + 1 - i) :=
      count_of_forall_true (by omega) fun k hik hkj =>
        hlast.true_of_mem_run hik (Nat.le_of_lt_succ hkj)
    calc Nat.count (fun k => p k = true) lo + (((i, j) :: runs).map fun r => r.2 - r.1 + 1).sum
        = Nat.count (fun k => p k = true) lo +
            (j - i + 1 + (runs.map fun r => r.2 - r.1 + 1).sum) := by
          rw [List.map_cons, List.sum_cons]
      _ = Nat.count (fun k => p k = true) (j + 1) + (runs.map fun r => r.2 - r.1 + 1).sum := by
          omega
      _ = Nat.count (fun k => p k = true) hi := ih hj

end IsRuns
