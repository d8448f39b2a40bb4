import Mathlib.Algebra.BigOperators.Group.Finset.Basic
import Mathlib.Order.Interval.Finset.Nat

/-!
# Areas handed out

An allocator hands out areas of `[0, size)` and takes them back. `Pool size` is what it has handed
out at a time. That no area is empty, that each lies inside and that no two overlap are fields of
it, so an allocator that is shown to go through pools keeps these.

* `Pool.take` and `Pool.give` — the two things that happen to a pool, with the numbers in use
  afterwards (`Pool.mem_used_take`, `Pool.mem_used_give`);
* `Pool.card_used` — the numbers in use are as many as the areas are long, together.
-/

/-- The numbers of `[start, start + len)`. -/
structure Area where
  start : ℕ
  len : ℕ
  deriving DecidableEq

namespace Area

/-- The numbers of an area. -/
def cells (a : Area) : Finset ℕ := Finset.Ico a.start (a.start + a.len)

@[simp] theorem mem_cells {a : Area} {i : ℕ} :
    i ∈ a.cells ↔ a.start ≤ i ∧ i < a.start + a.len :=
  Finset.mem_Ico

@[simp] theorem card_cells (a : Area) : a.cells.card = a.len :=
  (Nat.card_Ico ..).trans (Nat.add_sub_cancel_left ..)

end Area

/-- The areas of `[0, size)` that are handed out. -/
structure Pool (size : ℕ) where
  out : Finset Area
  pos : ∀ a ∈ out, 0 < a.len
  le : ∀ a ∈ out, a.start + a.len ≤ size
  apart : (out : Set Area).PairwiseDisjoint Area.cells

namespace Pool

variable {size : ℕ}

/-- Nothing handed out. -/
def none (size : ℕ) : Pool size where
  out := ∅
  pos a ha := absurd ha (Finset.notMem_empty a)
  le a ha := absurd ha (Finset.notMem_empty a)
  apart a ha := absurd ha (Finset.notMem_empty a)

/-- The numbers in use. -/
def used (P : Pool size) : Finset ℕ := P.out.biUnion Area.cells

/-- One more area is handed out. -/
def take (P : Pool size) (a : Area) (hpos : 0 < a.len) (hle : a.start + a.len ≤ size)
    (hfree : Disjoint a.cells P.used) : Pool size where
  out := insert a P.out
  pos := by
    intro c hc
    rcases Finset.mem_insert.mp hc with rfl | hc
    · exact hpos
    · exact P.pos c hc
  le := by
    intro c hc
    rcases Finset.mem_insert.mp hc with rfl | hc
    · exact hle
    · exact P.le c hc
  apart := by
    rw [Finset.coe_insert]
    refine P.apart.insert fun c hc _ => ?_
    exact hfree.mono_right (Finset.subset_biUnion_of_mem Area.cells hc)

/-- An area is taken back. -/
def give (P : Pool size) (a : Area) : Pool size where
  out := P.out.erase a
  pos c hc := P.pos c (Finset.mem_of_mem_erase hc)
  le c hc := P.le c (Finset.mem_of_mem_erase hc)
  apart := P.apart.subset (Finset.coe_subset.mpr (Finset.erase_subset a P.out))

variable {P : Pool size} {a : Area} {i : ℕ}

theorem mem_used : i ∈ P.used ↔ ∃ a ∈ P.out, i ∈ a.cells := Finset.mem_biUnion

@[simp] theorem notMem_used_none : i ∉ (none size).used := by
  intro hi
  obtain ⟨a, ha, -⟩ := mem_used.mp hi
  exact Finset.notMem_empty a ha

theorem lt_of_mem_used (hi : i ∈ P.used) : i < size := by
  obtain ⟨a, ha, hia⟩ := mem_used.mp hi
  exact Nat.lt_of_lt_of_le (Area.mem_cells.mp hia).2 (P.le a ha)

@[simp] theorem mem_used_take {hpos : 0 < a.len} {hle : a.start + a.len ≤ size}
    {hfree : Disjoint a.cells P.used} :
    i ∈ (P.take a hpos hle hfree).used ↔ i ∈ a.cells ∨ i ∈ P.used := by
  unfold used take
  rw [Finset.biUnion_insert, Finset.mem_union]

/-- An area that is taken back shares no number with those that stay. -/
theorem mem_used_give (ha : a ∈ P.out) : i ∈ (P.give a).used ↔ i ∈ P.used ∧ i ∉ a.cells := by
  constructor
  · intro hi
    obtain ⟨c, hc, hic⟩ := mem_used.mp hi
    obtain ⟨hne, hout⟩ := Finset.mem_erase.mp hc
    exact ⟨mem_used.mpr ⟨c, hout, hic⟩, Finset.disjoint_left.mp (P.apart hout ha hne) hic⟩
  · rintro ⟨hi, hia⟩
    obtain ⟨c, hc, hic⟩ := mem_used.mp hi
    have hne : c ≠ a := fun heq => hia (heq ▸ hic)
    exact mem_used.mpr ⟨c, Finset.mem_erase.mpr ⟨hne, hc⟩, hic⟩

/-- **The numbers in use** are as many as the areas handed out are long, together. -/
theorem card_used (P : Pool size) : P.used.card = ∑ a ∈ P.out, a.len :=
  calc P.used.card = ∑ a ∈ P.out, a.cells.card := Finset.card_biUnion fun _ ha _ hc => P.apart ha hc
    _ = ∑ a ∈ P.out, a.len := Finset.sum_congr rfl fun a _ => a.card_cells

end Pool
