import Vlstp.Framework.Reach
import Vlstp.Framework.Areas
import Vlstp.Bitmap.Ranges
import Vlstp.Bitmap.ZeroArea

/-!
# Handing out areas of a bitmap

`bitmap_find_next_zero_area_off` is made for handing out areas: what it finds is set with
`bitmap_set`, and cleared with `bitmap_clear` when it is given back. Each of the three is exact
about the words of one bitmap; here they are used together, in any order and for as long as one
likes, on a map that `bitmap_zero` has cleared.

What the map stands for is a `Pool`, the set of the areas handed out. A request is answered with the
least index that fits, and refused only if nothing does; areas handed out never overlap, whatever
was asked for and given back before, since a pool has no other. The map has a bit set exactly for
each index in use, so that `bitmap_weight` is the sum of the lengths, and no word beyond the map is
ever written (`area_runs_refine`).
-/

namespace Vlstp

/-! ### Definitions -/

/-- `bitmap_find_next_zero_area`. -/
def bitmapFindNextZeroArea (map : Ptr) (size start : Word) (nr : BitVec 32) (alignMask : Word)
    (h : Mem) : Except Fault Word :=
  bitmapFindNextZeroAreaOff map size start nr alignMask 0 h

/-- What is asked for: `nr` bits from `start` on, at an index that is a multiple of `2 ^ k`, or, if
there is an offset, whose sum with it is. The bound keeps every sum of the search below `2 ^ 64`. -/
structure AreaRequest where
  start : Word
  nr : BitVec 32
  k : ℕ
  offset : Option Word
  nr_pos : 0 < nr.toNat
  bound : (offset.getD 0).toNat + 2 ^ k ≤ 2 ^ 63

/-- The mask that goes with the alignment. -/
def AreaRequest.alignMask (r : AreaRequest) : Word := BitVec.ofNat 64 (2 ^ r.k - 1)

/-- The call that looks for the area. -/
def AreaRequest.find (map : Ptr) (size : ℕ) (r : AreaRequest) (h : Mem) : Except Fault Word :=
  match r.offset with
  | none => bitmapFindNextZeroArea map (BitVec.ofNat 64 size) r.start r.nr r.alignMask h
  | some offset =>
    bitmapFindNextZeroAreaOff map (BitVec.ofNat 64 size) r.start r.nr r.alignMask offset h

/-- An area is asked for, or one is given back. -/
inductive AreaCall
  | take (r : AreaRequest)
  | give (a : Area)

/-- What is done for a call, and what it answers. An index beyond the size means that there is no
such area. -/
def areaStep (map : Ptr) (size : ℕ) (h : Mem) : AreaCall → Except Fault (Option ℕ × Mem)
  | .take r => do
    let index ← r.find map size h
    if index.toNat < size then
      let h ← bitmapSet map index.toNat r.nr.toNat h
      return (some index.toNat, h)
    else return (none, h)
  | .give a => do
    let h ← bitmapClear map a.start a.len h
    return (none, h)

/-! ### What the calls are for -/

/-- The search for `r` in what the pool leaves free. -/
def AreaRequest.search {size : ℕ} (r : AreaRequest) (P : Pool size) : AreaSearch where
  p i := decide (i ∈ P.used)
  size := size
  nr := r.nr.toNat
  k := r.k
  off := (r.offset.getD 0).toNat
  nr_pos := r.nr_pos

/-- The indexes that fit the request. -/
def AreaRequest.FitsAt {size : ℕ} (r : AreaRequest) (P : Pool size) (s : ℕ) : Prop :=
  (r.search P).Fits r.start.toNat s

theorem AreaRequest.FitsAt.disjoint {size s : ℕ} {r : AreaRequest} {P : Pool size}
    (hs : r.FitsAt P s) : Disjoint (Area.cells ⟨s, r.nr.toNat⟩) P.used := by
  rw [Finset.disjoint_left]
  intro i hi hused
  obtain ⟨hlo, hhi⟩ := Area.mem_cells.mp hi
  have hclear : decide (i ∈ P.used) = false := hs.clear i hlo hhi
  exact of_decide_eq_false hclear hused

/-- **Handing out areas.** A request is answered with the least index that fits, and refused if none
does. What is given back must have been handed out. -/
inductive AreaMove {size : ℕ} : Pool size → AreaCall × Option ℕ → Pool size → Prop
  | taken {P : Pool size} {r : AreaRequest} {s : ℕ} (hs : r.FitsAt P s)
      (hleast : ∀ s', r.FitsAt P s' → s ≤ s') :
      AreaMove P (.take r, some s) (P.take ⟨s, r.nr.toNat⟩ r.nr_pos hs.end_le hs.disjoint)
  | refused {P : Pool size} {r : AreaRequest} (hno : ∀ s, ¬ r.FitsAt P s) :
      AreaMove P (.take r, none) P
  | given {P : Pool size} {a : Area} (ha : a ∈ P.out) : AreaMove P (.give a, none) (P.give a)

/-- Every request has an answer. -/
theorem AreaMove.answered {size : ℕ} (P : Pool size) (r : AreaRequest) :
    ∃ answer P', AreaMove P (.take r, answer) P' := by
  classical
  by_cases hfits : ∃ s, r.FitsAt P s
  · exact ⟨_, _, .taken (Nat.find_spec hfits) fun s hs => Nat.find_min' hfits hs⟩
  · exact ⟨_, _, .refused (not_exists.mp hfits)⟩

/-! ### The map of a pool -/

/-- The map of `size` bits at `b` has a bit set for each index in use, and the rest of the memory is
as in `h₀`. -/
structure HoldsPool {size : ℕ} (h₀ h : Mem) (b : ℕ) (P : Pool size) : Prop where
  holds : ∃ w, h.Holds b (bitsToLongs size) w ∧
    ∀ i, i < 64 * bitsToLongs size → bitAt w i = decide (i ∈ P.used)
  frame : ∀ b' k, ¬ (b' = b ∧ k < bitsToLongs size) → h.cell b' k = h₀.cell b' k

section

variable {size b : ℕ} {h₀ h : Mem} {P Q : Pool size} {a : Area} {r : AreaRequest}

/-- A range of bits is set, or cleared, where the pool says so. -/
theorem HoldsPool.change (hP : HoldsPool h₀ h b P) (hsize : size < 2 ^ 31)
    (ha : a.start + a.len ≤ size) (change : Word → Word → Word) (hzero : ∀ x, change x 0 = x)
    (hbits : ∀ w i, bitAt w i = decide (i ∈ P.used) →
      bitAt (fun k => change (w k) (rangeMask a.start (a.start + a.len) k)) i =
        decide (i ∈ Q.used)) :
    ∃ h', bitmapRange change (some b) a.start a.len h = .ok h' ∧ HoldsPool h₀ h' b Q := by
  obtain ⟨w, hw, hused⟩ := hP.holds
  have hend : rangeEnd a.start a.len ≤ bitsToLongs size :=
    rangeEnd_le (ha.trans (le_mul_bitsToLongs size))
  refine ⟨_, bitmapRange_eq change (hw.holdsIn hend) (Nat.lt_of_le_of_lt ha hsize), ?_, ?_⟩
  · exact ⟨_, holds_bitmapRange change hzero hw a.start a.len, fun i hi => hbits w i (hused i hi)⟩
  · intro b' k hout
    rw [← hP.frame b' k hout]
    refine Heap.storeIn_cell_of_not ?_
    rintro ⟨rfl, -, hk⟩
    exact hout ⟨rfl, Nat.lt_of_lt_of_le hk hend⟩

/-- `bitmap_set` on an area that was free. -/
theorem HoldsPool.set (hP : HoldsPool h₀ h b P) (hsize : size < 2 ^ 31) (hpos : 0 < a.len)
    (hle : a.start + a.len ≤ size) (hfree : Disjoint a.cells P.used) :
    ∃ h', bitmapSet (some b) a.start a.len h = .ok h' ∧
      HoldsPool h₀ h' b (P.take a hpos hle hfree) := by
  refine hP.change hsize hle (fun word mask => word ||| mask) (fun _ => BitVec.or_zero) ?_
  intro w i hw
  rw [bitAt_or_rangeMask, hw, ← Bool.decide_or]
  refine decide_eq_decide.mpr ?_
  rw [Pool.mem_used_take, Area.mem_cells, or_comm]

/-- `bitmap_clear` on an area that was handed out. -/
theorem HoldsPool.clear (hP : HoldsPool h₀ h b P) (hsize : size < 2 ^ 31) (ha : a ∈ P.out) :
    ∃ h', bitmapClear (some b) a.start a.len h = .ok h' ∧ HoldsPool h₀ h' b (P.give a) := by
  refine hP.change hsize (P.le a ha) (fun word mask => word &&& ~~~mask)
    (fun _ => BitVec.and_allOnes) ?_
  intro w i hw
  rw [bitAt_and_not_rangeMask, hw, ← decide_not, ← Bool.decide_and]
  refine decide_eq_decide.mpr ?_
  rw [Pool.mem_used_give ha, Area.mem_cells]

/-! ### The search -/

/-- Two searches in which the same indexes fit owe the same answer. -/
theorem AreaSearch.IsAnswer.congr {A B : AreaSearch} {start x : ℕ} (hx : A.IsAnswer start x)
    (hfits : ∀ s, A.Fits start s ↔ B.Fits start s) (hsize : A.size = B.size) :
    B.IsAnswer start x where
  least s hs := by
    obtain ⟨hfit, hle⟩ := hx.least s ((hfits s).mpr hs)
    exact ⟨(hfits x).mp hfit, hle⟩
  none hno := by
    rw [← hsize]
    exact hx.none fun s hs => hno s ((hfits s).mp hs)

/-- **The search finds what the pool leaves free.** -/
theorem HoldsPool.find (hP : HoldsPool h₀ h b P) (hsize : size < 2 ^ 31) (r : AreaRequest) :
    ∃ index, r.find (some b) size h = .ok index ∧
      (r.search P).IsAnswer r.start.toNat index.toNat := by
  obtain ⟨w, hw, hused⟩ := hP.holds
  have hsz : (BitVec.ofNat 64 size).toNat = size := by
    rw [BitVec.toNat_ofNat]
    exact Nat.mod_eq_of_lt (by omega)
  have hbound := r.bound
  have hpow := Nat.two_pow_pos r.k
  have hmask : r.alignMask.toNat = 2 ^ r.k - 1 := by
    unfold AreaRequest.alignMask
    rw [BitVec.toNat_ofNat]
    exact Nat.mod_eq_of_lt (by omega)
  have hnr := r.nr.isLt
  set A := areaSearch w (BitVec.ofNat 64 size) r.nr r.k (r.offset.getD 0) r.nr_pos with hA
  have hover : A.NoOverflow r.start.toNat := by
    refine AreaSearch.noOverflow_of_le ?_ ?_
    · change (BitVec.ofNat 64 size).toNat + (r.offset.getD 0).toNat + (2 ^ r.k - 1) < 2 ^ 64
      omega
    · change (BitVec.ofNat 64 size).toNat + (2 ^ r.k - 1) + r.nr.toNat < 2 ^ 64
      omega
  obtain ⟨index, hindex, hanswer⟩ := zeroAreaLoop_answer hw (le_of_eq (congrArg bitsToLongs hsz))
    r.nr_pos hmask (show (BitVec.ofNat 64 size).toNat <
      (BitVec.ofNat 64 size).toNat + 1 + r.start.toNat by omega) (Nat.succ_pos _) hover
  refine ⟨index, ?_, hanswer.congr (fun s => ?_) hsz⟩
  · -- without an offset it is the same search, with the offset 0
    unfold AreaRequest.find
    cases hoff : r.offset with
    | none =>
      rw [hoff] at hindex
      exact hindex
    | some offset =>
      rw [hoff] at hindex
      exact hindex
  · -- the map and the pool agree on every bit the area may have
    have hbit : ∀ i, i < s + r.nr.toNat → s + r.nr.toNat ≤ size →
        A.p i = (r.search P).p i := fun i hi hle =>
      hused i (Nat.lt_of_lt_of_le hi (hle.trans (le_mul_bitsToLongs size)))
    constructor
    · intro hs
      have hle : s + r.nr.toNat ≤ size := hs.end_le.trans (le_of_eq hsz)
      refine ⟨hs.start_le, hs.aligned, hle, fun i hi hi' => ?_⟩
      rw [← hbit i hi' hle]
      exact hs.clear i hi hi'
    · intro hs
      have hle : s + r.nr.toNat ≤ size := hs.end_le
      refine ⟨hs.start_le, hs.aligned, hle.trans (le_of_eq hsz.symm), fun i hi hi' => ?_⟩
      rw [hbit i hi' hle]
      exact hs.clear i hi hi'

/-! ### Any run -/

/-- **One call.** -/
theorem AreaMove.step {call : AreaCall} {answer : Option ℕ} (hmove : AreaMove P (call, answer) Q)
    (hP : HoldsPool h₀ h b P) (hsize : size < 2 ^ 31) :
    ∃ h', areaStep (some b) size h call = .ok (answer, h') ∧ HoldsPool h₀ h' b Q := by
  cases hmove with
  | @taken r s hs hleast =>
    obtain ⟨index, hfind, hanswer⟩ := hP.find hsize r
    obtain ⟨hfits, hle⟩ := hanswer.least s hs
    -- both are the least index that fits
    obtain rfl : index.toNat = s := Nat.le_antisymm hle (hleast _ hfits)
    have hlt : index.toNat < size := by
      have hend : index.toNat + r.nr.toNat ≤ size := hfits.end_le
      have hpos := r.nr_pos
      omega
    obtain ⟨h', hset, hQ⟩ := hP.set hsize r.nr_pos hs.end_le hs.disjoint
    refine ⟨h', ?_, hQ⟩
    simp only [areaStep, hfind, Except.ok_bind, if_pos hlt]
    rw [hset, Except.ok_bind, Except.pure_eq]
  | @refused r hno =>
    obtain ⟨index, hfind, hanswer⟩ := hP.find hsize r
    have hpast : size < index.toNat := hanswer.none hno
    refine ⟨h, ?_, hP⟩
    simp only [areaStep, hfind, Except.ok_bind, if_neg (Nat.not_lt.mpr hpast.le)]
    rfl
  | @given a ha =>
    obtain ⟨h', hclear, hQ⟩ := hP.clear hsize ha
    refine ⟨h', ?_, hQ⟩
    simp only [areaStep, hclear, Except.ok_bind]
    rfl

/-- `bitmap_zero` makes the map of the pool that has nothing handed out. -/
theorem holdsPool_bitmapZero {w : ℕ → Word} (hh : h₀.Holds b (bitsToLongs size) w) :
    ∃ h₁, bitmapZero false (some b) size h₀ = .ok h₁ ∧ HoldsPool h₀ h₁ b (Pool.none size) := by
  refine ⟨_, bitmapZero_eq hh le_rfl, ⟨_, Heap.holds_store, fun i hi => ?_⟩, fun b' k hout => ?_⟩
  · have hk : i / 64 < bitsToLongs size := by omega
    unfold bitAt
    beta_reduce
    rw [if_pos hk, decide_eq_false Pool.notMem_used_none]
    exact BitVec.getLsbD_zero
  · rw [Heap.store_eq_storeIn]
    refine Heap.storeIn_cell_of_not ?_
    rintro ⟨rfl, -, hk⟩
    exact hout ⟨rfl, hk⟩

/-- The weight of the map is the number of indexes in use. -/
theorem HoldsPool.weight (hP : HoldsPool h₀ h b P) :
    bitmapWeight false (some b) size h = .ok P.used.card := by
  obtain ⟨w, hw, hused⟩ := hP.holds
  rw [bitmapWeight_eq hw le_rfl]
  unfold popCount
  rw [Nat.count_eq_card_filter_range]
  congr 2
  ext i
  rw [Finset.mem_filter, Finset.mem_range]
  constructor
  · rintro ⟨hi, hbit⟩
    rw [hused i (Nat.lt_of_lt_of_le hi (le_mul_bitsToLongs size))] at hbit
    exact of_decide_eq_true hbit
  · intro hi
    have hlt := Pool.lt_of_mem_used hi
    rw [hused i (Nat.lt_of_lt_of_le hlt (le_mul_bitsToLongs size))]
    exact ⟨hlt, decide_eq_true hi⟩

/-- **Runs of requests.** On a map that was cleared, every run of requests and of areas given back
is answered as it should be, and leaves the map of what is handed out; its weight is the length of
that, and the rest of the memory is as before. -/
theorem area_runs_refine {w : ℕ → Word} (hh : h₀.Holds b (bitsToLongs size) w)
    (hsize : size < 2 ^ 31) {trace : List (AreaCall × Option ℕ)}
    (hrun : Run AreaMove (Pool.none size) trace P) :
    ∃ h₁ h, bitmapZero false (some b) size h₀ = .ok h₁ ∧
      exec (areaStep (some b) size) h₁ (trace.map Prod.fst) = .ok (trace.map Prod.snd, h) ∧
      HoldsPool h₀ h b P ∧
      bitmapWeight false (some b) size h = .ok (∑ a ∈ P.out, a.len) := by
  obtain ⟨h₁, hzero, h₁P⟩ := holdsPool_bitmapZero hh
  obtain ⟨h, hexec, hP⟩ : ∃ h, exec (areaStep (some b) size) h₁ (trace.map Prod.fst) =
      .ok (trace.map Prod.snd, h) ∧ HoldsPool h₀ h b P :=
    hrun.returns_trace h₁P fun _ _ _ _ _ hR hmove => hmove.step hR hsize
  exact ⟨h₁, h, hzero, hexec, hP, hP.weight.trans (congrArg _ P.card_used)⟩

end

/-- Three bits of a map of five: a second area of three is refused until the first is given back. -/
theorem area_runs_refine_again :
    let r : AreaRequest := ⟨0, 3, 0, none, by decide, by decide⟩
    ∃ (h₁ h : Mem) (P : Pool 5),
      bitmapZero false (some 0) 5 (Heap.ofBlock 1 fun _ => 7) = .ok h₁ ∧
      exec (areaStep (some 0) 5) h₁ [.take r, .take r, .give ⟨0, 3⟩, .take r] =
        .ok ([some 0, none, none, some 0], h) ∧
      HoldsPool (Heap.ofBlock 1 fun _ => 7) h 0 P ∧
      bitmapWeight false (some 0) 5 h = .ok (∑ a ∈ P.out, a.len) := by
  intro r
  have hfirst {P : Pool 5} (hP : ∀ i, i ∉ P.used) : r.FitsAt P 0 :=
    ⟨le_rfl, show 2 ^ 0 ∣ 0 + 0 by decide, show 0 + 3 ≤ 5 by decide,
      fun i _ _ => decide_eq_false (hP i)⟩
  have hleast {P : Pool 5} : ∀ s, r.FitsAt P s → 0 ≤ s := fun s _ => Nat.zero_le s
  have h₁ := Run.nil.snoc (AreaMove.taken (hfirst fun _ => Pool.notMem_used_none) hleast)
  have h₂ := h₁.snoc (AreaMove.refused (r := r) fun s hs => by
    -- every area of three of the five bits has bit 2
    have hend : s + 3 ≤ 5 := hs.end_le
    have htwo : 2 ∈ Area.cells ⟨s, 3⟩ :=
      Area.mem_cells.mpr ⟨show s ≤ 2 by omega, show 2 < s + 3 by omega⟩
    have hused : 2 ∈ Area.cells ⟨0, 3⟩ := by decide
    exact Finset.disjoint_left.mp hs.disjoint htwo (Pool.mem_used_take.mpr (Or.inl hused)))
  have h₃ := h₂.snoc (AreaMove.given (a := ⟨0, 3⟩) (Finset.mem_insert_self ..))
  have h₄ := h₃.snoc (AreaMove.taken (hfirst fun i hi => by
    obtain ⟨hi, hout⟩ := (Pool.mem_used_give (Finset.mem_insert_self ..)).mp hi
    exact (Pool.mem_used_take.mp hi).elim hout Pool.notMem_used_none) hleast)
  obtain ⟨h₁, h, hzero, hrest⟩ :=
    area_runs_refine (Heap.holds_ofBlock 1 fun _ => 7) (by decide) h₄
  exact ⟨h₁, h, _, hzero, hrest⟩

end Vlstp
