import Mathlib.Algebra.BigOperators.Group.Finset.Piecewise
import Mathlib.Data.Fintype.Basic

/-!
# Tallies kept by several parties

A number that several parties share out among themselves: party `t` has `f t` of it, and all have
`∑ t, f t`. A step of one party changes its own part, so these are the rules of
`Function.update` under the sum.
-/

section Tally

variable {T : Type} [Fintype T] [DecidableEq T] (f : T → ℕ) (t : T)

/-- One part is replaced. -/
theorem sum_update_add (v : ℕ) : ∑ u, Function.update f t v u + f t = ∑ u, f u + v := by
  have hrest : ∑ u ∈ Finset.univ \ {t}, f u + f t = ∑ u, f u := by
    have hsplit := Finset.sum_sdiff (f := f) (Finset.subset_univ {t})
    rwa [Finset.sum_singleton] at hsplit
  calc ∑ u, Function.update f t v u + f t
      = v + ∑ u ∈ Finset.univ \ {t}, f u + f t := by
        rw [Finset.sum_update_of_mem (Finset.mem_univ t)]
    _ = ∑ u, f u + v := by rw [Nat.add_assoc, hrest, Nat.add_comm]

/-- One part grows by one. -/
theorem sum_update_succ : ∑ u, Function.update f t (f t + 1) u = ∑ u, f u + 1 := by
  have hsum := sum_update_add f t (f t + 1)
  omega

/-- One part shrinks by one. -/
theorem sum_update_pred (ht : 0 < f t) :
    ∑ u, Function.update f t (f t - 1) u + 1 = ∑ u, f u := by
  have hsum := sum_update_add f t (f t - 1)
  omega

end Tally
