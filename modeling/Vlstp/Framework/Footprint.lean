import Vlstp.Framework.Heap

/-!
# The words a program touches

`h.only S` is the heap `h` with the words outside `S` taken away: what is left of a block reads and
writes as before, and every other access faults. A program that does the same on `h.only S` as on
`h` has touched no word outside `S`: this is `ReadsOnly` for a program that returns a value, and
`WritesOnly` for one that returns a heap, of which the words outside `S` are also unchanged.

The loops of a program usually touch an interval of words of one block. `h.HoldsIn b lo hi w` says
that these lie inside the block and read as `w`, and `h.storeIn b lo hi w` is the heap that differs
from `h` in reading so: `Holds` and `store` for blocks whose other words need not be there.
-/

namespace Heap

variable {W α : Type}

/-! ### The heap without the other words -/

/-- The heap in which only the words of `S` lie inside their blocks. -/
def only (S : ℕ → ℕ → Prop) [DecidableRel S] (h : Heap W) : Heap W :=
  { h with cell := fun b k => if S b k then h.cell b k else none }

/-- `f` reads no word outside `S`. -/
def ReadsOnly (S : ℕ → ℕ → Prop) [DecidableRel S] (f : Heap W → Except Fault α) (h : Heap W) :
    Prop :=
  f (h.only S) = f h

/-- `f` reads and writes no word outside `S`. -/
def WritesOnly (S : ℕ → ℕ → Prop) [DecidableRel S] (f : Heap W → Except Fault (Heap W))
    (h : Heap W) : Prop :=
  f (h.only S) = (f h).map (only S) ∧
    ∀ h', f h = .ok h' → ∀ b k, ¬ S b k → h'.cell b k = h.cell b k

section Only

variable {S : ℕ → ℕ → Prop} [DecidableRel S] {h h' : Heap W} {b n : ℕ} {w : ℕ → W}

theorem Holds.only (hh : h.Holds b n w) (hS : ∀ k, k < n → S b k) : (h.only S).Holds b n w := by
  intro k hk
  exact (if_pos (hS k hk)).trans (hh k hk)

end Only

/-! ### Intervals of words -/

/-- The words of `[lo, hi)` lie inside block `b` and read as `w`. -/
def HoldsIn (h : Heap W) (b lo hi : ℕ) (w : ℕ → W) : Prop :=
  ∀ k, lo ≤ k → k < hi → h.cell b k = some (w k)

/-- The heap with the words of `[lo, hi)` of block `b` reading as `w`. -/
def storeIn (h : Heap W) (b lo hi : ℕ) (w : ℕ → W) : Heap W :=
  { h with
    cell := Function.update h.cell b
      fun k => if lo ≤ k ∧ k < hi then some (w k) else h.cell b k }

section Intervals

variable {S : ℕ → ℕ → Prop} [DecidableRel S] {h h' : Heap W} {b b' lo hi k n : ℕ} {w v : ℕ → W}

theorem Holds.holdsIn (hh : h.Holds b n w) (hn : hi ≤ n) : h.HoldsIn b lo hi w :=
  fun k _ hk => hh k (by omega)

theorem storeIn_cell_self :
    (h.storeIn b lo hi w).cell b = fun k => if lo ≤ k ∧ k < hi then some (w k) else h.cell b k :=
  Function.update_self ..

theorem storeIn_cell_of_ne (hne : b' ≠ b) : (h.storeIn b lo hi w).cell b' = h.cell b' :=
  Function.update_of_ne hne ..

/-- Words outside the interval are as before. -/
theorem storeIn_cell_of_not (hk : ¬ (b' = b ∧ lo ≤ k ∧ k < hi)) :
    (h.storeIn b lo hi w).cell b' k = h.cell b' k := by
  by_cases hb : b' = b
  · subst hb
    rw [storeIn_cell_self]
    exact if_neg fun hin => hk ⟨rfl, hin⟩
  · rw [storeIn_cell_of_ne hb]

theorem holdsIn_storeIn : (h.storeIn b lo hi w).HoldsIn b lo hi w := by
  intro k hlo hhi
  rw [storeIn_cell_self]
  exact if_pos ⟨hlo, hhi⟩

/-- A block whose other words are as before. -/
theorem Holds.storeIn (hh : h.Holds b n w) (hv : ∀ k, ¬ (lo ≤ k ∧ k < hi) → v k = w k) :
    (h.storeIn b lo hi v).Holds b n v := by
  intro k hk
  rw [storeIn_cell_self]
  by_cases hin : lo ≤ k ∧ k < hi
  · exact if_pos hin
  · exact (if_neg hin).trans (by rw [hv k hin, hh k hk])

/-- A heap with the whole block stored is one with an interval stored. -/
theorem store_eq_storeIn : h.store b n w = h.storeIn b 0 n w := by
  symm
  refine eq_store _ rfl rfl rfl (fun b' hne => ?_) fun k => ?_
  · exact storeIn_cell_of_ne hne
  · rw [storeIn_cell_self]
    exact if_congr (by omega) rfl rfl

/-- An interval stored in a block, the rest of which is stored as it was. -/
theorem Holds.storeIn_eq_store (hh : h.Holds b n w) (hhi : hi ≤ n)
    (hv : ∀ k, ¬ (lo ≤ k ∧ k < hi) → v k = w k) : h.storeIn b lo hi v = h.store b n v := by
  refine eq_store _ rfl rfl rfl (fun b' hne => storeIn_cell_of_ne hne) fun k => ?_
  by_cases hk : k < n
  · rw [if_pos hk]
    exact hh.storeIn hv k hk
  · rw [if_neg hk]
    exact storeIn_cell_of_not (by omega)

/-- Nothing stored. -/
theorem storeIn_of_le (hle : hi ≤ lo) : h.storeIn b lo hi w = h := by
  refine ext_cell rfl (funext fun b' => funext fun k => ?_) rfl rfl
  exact storeIn_cell_of_not (by omega)

/-- A turn of a loop that rewrites its words one after the other: the word to be rewritten reads as
before the loop. -/
theorem storeIn_read (hk : h.cell b hi = some (w hi)) :
    (h.storeIn b lo hi v).read (some b) hi = .ok (w hi) := by
  have hcell : (h.storeIn b lo hi v).cell b hi = some (w hi) := by
    rw [storeIn_cell_of_not (by omega), hk]
  simp only [Heap.read, hcell]

/-- The turn then writes it. -/
theorem storeIn_write_succ (hlo : lo ≤ hi) (hk : h.cell b hi = some (w hi)) :
    (h.storeIn b lo hi v).write (some b) hi (v hi) = .ok (h.storeIn b lo (hi + 1) v) := by
  have hcell : (h.storeIn b lo hi v).cell b hi = some (w hi) := by
    rw [storeIn_cell_of_not (by omega), hk]
  simp only [Heap.write, hcell]
  refine congrArg _ (ext_cell rfl (funext fun b' => funext fun k => ?_) rfl rfl)
  by_cases hb : b' = b
  · subst hb
    by_cases hkhi : k = hi
    · subst hkhi
      simp only [Function.update_self, storeIn_cell_self, if_pos (show lo ≤ k ∧ k < k + 1 by omega)]
    · simp only [Function.update_self, Function.update_of_ne hkhi, storeIn_cell_self]
      exact if_congr (by omega) rfl rfl
  · simp only [Function.update_of_ne hb, storeIn_cell_of_ne hb]

theorem HoldsIn.only (hh : h.HoldsIn b lo hi w) (hS : ∀ k, lo ≤ k → k < hi → S b k) :
    (h.only S).HoldsIn b lo hi w := by
  intro k hlo hhi
  exact (if_pos (hS k hlo hhi)).trans (hh k hlo hhi)

/-- Storing words of `S` and taking away the others are independent. -/
theorem storeIn_only (hS : ∀ k, lo ≤ k → k < hi → S b k) :
    (h.storeIn b lo hi w).only S = (h.only S).storeIn b lo hi w := by
  refine ext_cell rfl (funext fun b' => funext fun k => ?_) rfl rfl
  by_cases hin : b' = b ∧ lo ≤ k ∧ k < hi
  · obtain ⟨rfl, hlo, hhi⟩ := hin
    rw [holdsIn_storeIn k hlo hhi]
    exact (if_pos (hS k hlo hhi)).trans (holdsIn_storeIn k hlo hhi)
  · rw [storeIn_cell_of_not hin]
    exact if_congr Iff.rfl (storeIn_cell_of_not hin) rfl

/-- **A program that amounts to storing words of `S`**, with or without the others, touches no
other. -/
theorem writesOnly_of_storeIn {f : Heap W → Except Fault (Heap W)}
    (hS : ∀ k, lo ≤ k → k < hi → S b k) (hf : f h = .ok (h.storeIn b lo hi w))
    (honly : f (h.only S) = .ok ((h.only S).storeIn b lo hi w)) : WritesOnly S f h := by
  refine ⟨?_, fun h' hok b' k hnot => ?_⟩
  · rw [hf, honly, ← storeIn_only hS]
    rfl
  · obtain rfl := Except.ok.inj (hf.symm.trans hok)
    refine storeIn_cell_of_not fun hin => hnot ?_
    obtain ⟨rfl, hlo, hhi⟩ := hin
    exact hS k hlo hhi

theorem writesOnly_of_store {f : Heap W → Except Fault (Heap W)} (hS : ∀ k, k < n → S b k)
    (hf : f h = .ok (h.store b n w)) (honly : f (h.only S) = .ok ((h.only S).store b n w)) :
    WritesOnly S f h := by
  rw [store_eq_storeIn] at hf honly
  exact writesOnly_of_storeIn (fun k _ hk => hS k hk) hf honly

end Intervals

end Heap
