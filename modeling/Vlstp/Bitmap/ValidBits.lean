import Mathlib.Data.Finset.SymmDiff
import Vlstp.Bitmap.UnusedBits

/-!
# The set of valid bits

A bitmap of `nbits` bits stands for the set of its set bits below `nbits`, `validBits`. The
operations of `bitmap.c` that compare, count and combine two bitmaps are the operations of sets that
their names say: `Combine.sets` for the four that write a bitmap, `Query.answer` for the values they
return (`Query.run_eq`, `Combine.run_eq`).

Each of their loops has its own way with the last word, but none lets an unused bit through. So the
operations agree with each other as the operations of sets do, and nothing they return depends on
the bits at or above the size (`bitmapQueries_agree`).
-/

namespace Vlstp

/-- The set bits below the size. -/
def validBits (w : ℕ → Word) (nbits : ℕ) : Finset ℕ :=
  (Finset.range nbits).filter fun i => bitAt w i = true

section

variable {w w' : ℕ → Word} {nbits i : ℕ}

@[simp] theorem mem_validBits : i ∈ validBits w nbits ↔ i < nbits ∧ bitAt w i = true := by
  rw [validBits, Finset.mem_filter, Finset.mem_range]

/-- Only the bits below the size count. -/
theorem validBits_congr (hw : ∀ i, i < nbits → bitAt w i = bitAt w' i) :
    validBits w nbits = validBits w' nbits := by
  refine Finset.filter_congr fun i hi => ?_
  rw [hw i (Finset.mem_range.mp hi)]

theorem popCount_eq_card (w : ℕ → Word) (nbits : ℕ) : popCount w nbits = (validBits w nbits).card :=
  Nat.count_eq_card_filter_range ..

theorem card_validBits_le (w : ℕ → Word) (nbits : ℕ) : (validBits w nbits).card ≤ nbits :=
  (Finset.card_filter_le ..).trans (Finset.card_range nbits).le

/-- There is no set bit below the size exactly when the set is empty. -/
theorem anyBit_eq_false_iff : anyBit w nbits = false ↔ validBits w nbits = ∅ := by
  rw [← Bool.not_eq_true, anyBit_iff, Finset.eq_empty_iff_forall_notMem]
  constructor
  · intro hnone i hi
    exact hnone ⟨i, mem_validBits.mp hi⟩
  · rintro hempty ⟨i, hi⟩
    exact hempty i (mem_validBits.mpr hi)

theorem validBits_and (w w' : ℕ → Word) (nbits : ℕ) :
    validBits (fun k => w k &&& w' k) nbits = validBits w nbits ∩ validBits w' nbits := by
  ext i
  simp only [mem_validBits, Finset.mem_inter, bitAt, BitVec.getLsbD_and, Bool.and_eq_true]
  tauto

theorem validBits_or (w w' : ℕ → Word) (nbits : ℕ) :
    validBits (fun k => w k ||| w' k) nbits = validBits w nbits ∪ validBits w' nbits := by
  ext i
  simp only [mem_validBits, Finset.mem_union, bitAt, BitVec.getLsbD_or, Bool.or_eq_true]
  tauto

theorem validBits_andnot (w w' : ℕ → Word) (nbits : ℕ) :
    validBits (fun k => w k &&& ~~~w' k) nbits = validBits w nbits \ validBits w' nbits := by
  ext i
  have hi := Nat.mod_lt i (by decide : 0 < 64)
  simp only [mem_validBits, Finset.mem_sdiff, bitAt, BitVec.getLsbD_and, BitVec.getLsbD_not, hi,
    decide_true, Bool.true_and, Bool.and_eq_true, Bool.not_eq_true']
  rw [← Bool.not_eq_true]
  tauto

theorem validBits_xor (w w' : ℕ → Word) (nbits : ℕ) :
    validBits (fun k => w k ^^^ w' k) nbits =
      symmDiff (validBits w nbits) (validBits w' nbits) := by
  ext i
  simp only [mem_validBits, Finset.mem_symmDiff, bitAt, BitVec.getLsbD_xor, bne_iff_ne]
  cases (w (i / 64)).getLsbD (i % 64) with
  | true => cases (w' (i / 64)).getLsbD (i % 64) <;> simp
  | false => cases (w' (i / 64)).getLsbD (i % 64) <;> simp

theorem validBits_trimmed (w : ℕ → Word) (nbits : ℕ) :
    validBits (trimmed w nbits) nbits = validBits w nbits := by
  refine validBits_congr fun i hi => ?_
  rw [bitAt_trimmed, decide_eq_true hi, Bool.true_and]

end

/-! ### Combining two bitmaps -/

/-- The operations that write a bitmap made of two. -/
inductive Combine
  | and
  | or
  | xor
  | andnot
  deriving DecidableEq

namespace Combine

/-- The call of the operation. -/
def call (bitmap1 bitmap2 : ℕ) : Combine → BitmapWrite
  | and => .and bitmap1 bitmap2
  | or => .or bitmap1 bitmap2
  | xor => .xor bitmap1 bitmap2
  | andnot => .andnot bitmap1 bitmap2

/-- The operation on sets. -/
def sets (A B : Finset ℕ) : Combine → Finset ℕ
  | and => A ∩ B
  | or => A ∪ B
  | xor => symmDiff A B
  | andnot => A \ B

variable {h : Mem} {d nbits x y : ℕ} {c : ℕ → ℕ → Word} {u : ℕ → Word}

theorem validBits_output (op : Combine) :
    validBits ((op.call x y).output c nbits) nbits =
      op.sets (validBits (c x) nbits) (validBits (c y) nbits) := by
  cases op with
  | and => exact (validBits_trimmed ..).trans (validBits_and ..)
  | or => exact validBits_or ..
  | xor => exact validBits_xor ..
  | andnot => exact (validBits_trimmed ..).trans (validBits_andnot ..)

theorem run_eq (op : Combine) (hd : h.Holds d (bitsToLongs nbits) u)
    (hx : h.Holds x (bitsToLongs nbits) (c x)) (hy : h.Holds y (bitsToLongs nbits) (c y))
    (hbits : nbits < 2 ^ 31) :
    (op.call x y).run (some d) nbits h =
      .ok (h.store d (bitsToLongs nbits) ((op.call x y).output c nbits)) := by
  have hshift : (op.call x y).shift = 0 := by
    cases op with
    | and | or | xor | andnot => rfl
  have hinputs : (op.call x y).inputs = [x, y] := by
    cases op with
    | and | or | xor | andnot => rfl
  refine (op.call x y).run_eq hd (fun b hb => ?_) (by omega) (by omega)
  rw [hinputs, List.mem_cons, List.mem_singleton] at hb
  rcases hb with rfl | rfl
  · exact hx
  · exact hy

end Combine

/-! ### What is returned -/

/-- The values that depend on two bitmaps: those returned, and the weights of what is written. -/
inductive Query
  | weight (bitmap : ℕ)
  | weightOf (op : Combine) (bitmap1 bitmap2 : ℕ)
  | and (bitmap1 bitmap2 : ℕ)
  | andnot (bitmap1 bitmap2 : ℕ)
  | equal (bitmap1 bitmap2 : ℕ)
  | intersects (bitmap1 bitmap2 : ℕ)
  | subset (bitmap1 bitmap2 : ℕ)
  deriving DecidableEq

namespace Query

/-- The value, for a destination `dst`. -/
def run (dst : Ptr) (nbits : ℕ) (h : Mem) : Query → Except Fault ℕ
  | weight bitmap => _bitmapWeight (some bitmap) nbits h
  | weightOf op bitmap1 bitmap2 => do
    let h ← (op.call bitmap1 bitmap2).run dst nbits h
    _bitmapWeight dst nbits h
  | and bitmap1 bitmap2 => do
    return (← _bitmapAnd dst (some bitmap1) (some bitmap2) nbits h).1.toNat
  | andnot bitmap1 bitmap2 => do
    return (← _bitmapAndnot dst (some bitmap1) (some bitmap2) nbits h).1.toNat
  | equal bitmap1 bitmap2 => do
    return (← _bitmapEqual (some bitmap1) (some bitmap2) nbits h).toNat
  | intersects bitmap1 bitmap2 => do
    return (← _bitmapIntersects (some bitmap1) (some bitmap2) nbits h).toNat
  | subset bitmap1 bitmap2 => do
    return (← _bitmapSubset (some bitmap1) (some bitmap2) nbits h).toNat

/-- The bitmaps asked about. -/
def inputs : Query → List ℕ
  | weight bitmap => [bitmap]
  | weightOf _ bitmap1 bitmap2 | and bitmap1 bitmap2 | andnot bitmap1 bitmap2
  | equal bitmap1 bitmap2 | intersects bitmap1 bitmap2 | subset bitmap1 bitmap2 =>
    [bitmap1, bitmap2]

/-- The value, told from the set `A b` each bitmap `b` stands for. -/
def answer (A : ℕ → Finset ℕ) : Query → ℕ
  | weight bitmap => (A bitmap).card
  | weightOf op bitmap1 bitmap2 => (op.sets (A bitmap1) (A bitmap2)).card
  | and bitmap1 bitmap2 => if A bitmap1 ∩ A bitmap2 = ∅ then 0 else 1
  | andnot bitmap1 bitmap2 => if A bitmap1 ⊆ A bitmap2 then 0 else 1
  | equal bitmap1 bitmap2 => if A bitmap1 = A bitmap2 then 1 else 0
  | intersects bitmap1 bitmap2 => if A bitmap1 ∩ A bitmap2 = ∅ then 0 else 1
  | subset bitmap1 bitmap2 => if A bitmap1 ⊆ A bitmap2 then 1 else 0

/-- Only the bitmaps asked about matter. -/
theorem answer_congr (q : Query) {A A' : ℕ → Finset ℕ} (hA : ∀ x ∈ q.inputs, A x = A' x) :
    q.answer A = q.answer A' := by
  cases q with
  | weight x => rw [answer, answer, hA x (by simp [inputs])]
  | weightOf op x y | and x y | andnot x y | equal x y | intersects x y | subset x y =>
    simp only [answer, hA x (by simp [inputs]), hA y (by simp [inputs])]

section

variable {h : Mem} {d nbits : ℕ} {c : ℕ → ℕ → Word} {u : ℕ → Word}

theorem toNat_eq_ite {x : Bool} {p : Prop} [Decidable p] (hx : x = true ↔ p) :
    x.toNat = if p then 1 else 0 := by
  by_cases hp : p
  · rw [if_pos hp, hx.mpr hp]
    rfl
  · rw [if_neg hp, Bool.eq_false_iff.mpr fun h => hp (hx.mp h)]
    rfl

/-- Whether a bit is set, as an `int`. -/
theorem toNat_anyBit {w : ℕ → Word} {p : Prop} [Decidable p]
    (hp : validBits w nbits = ∅ ↔ p) : (anyBit w nbits).toNat = if p then 0 else 1 := by
  have hany : anyBit w nbits = true ↔ ¬ p := by
    rw [← hp, ← anyBit_eq_false_iff, Bool.not_eq_false]
  rw [toNat_eq_ite hany, ite_not]

/-- Whether none is. -/
theorem toNat_not_anyBit {w : ℕ → Word} {p : Prop} [Decidable p]
    (hp : validBits w nbits = ∅ ↔ p) : (!anyBit w nbits).toNat = if p then 1 else 0 := by
  have hnone : (!anyBit w nbits) = true ↔ p := by
    rw [← hp, ← anyBit_eq_false_iff, Bool.not_eq_true']
  exact toNat_eq_ite hnone

/-- **The values are those of the sets.** -/
theorem run_eq (q : Query) (hd : h.Holds d (bitsToLongs nbits) u)
    (hin : ∀ b ∈ q.inputs, h.Holds b (bitsToLongs nbits) (c b)) (hbits : nbits < 2 ^ 31) :
    q.run (some d) nbits h = .ok (q.answer fun b => validBits (c b) nbits) := by
  have hle := Nat.le_refl (bitsToLongs nbits)
  have hpair : ∀ {x y}, q.inputs = [x, y] →
      h.Holds x (bitsToLongs nbits) (c x) ∧ h.Holds y (bitsToLongs nbits) (c y) := by
    intro x y hq
    rw [hq] at hin
    exact ⟨hin x (by simp), hin y (by simp)⟩
  cases q with
  | weight x =>
    rw [run, _bitmapWeight_eq (hin x (by simp [inputs])) hle, popCount_eq_card]
    rfl
  | weightOf op x y =>
    -- the bitmap written is the set the operation makes, and its weight is counted
    obtain ⟨hx, hy⟩ := hpair rfl
    rw [run, op.run_eq hd hx hy hbits, Except.ok_bind, _bitmapWeight_eq Heap.holds_store hle,
      popCount_eq_card, op.validBits_output]
    rfl
  | and x y =>
    obtain ⟨hx, hy⟩ := hpair rfl
    rw [run, _bitmapAnd, bitmapMasked_eq hd hx hy _ hle hle hle, Except.ok_bind, Except.pure_eq,
      toNat_anyBit (by rw [validBits_and])]
    rfl
  | andnot x y =>
    obtain ⟨hx, hy⟩ := hpair rfl
    rw [run, _bitmapAndnot, bitmapMasked_eq hd hx hy _ hle hle hle, Except.ok_bind, Except.pure_eq,
      toNat_anyBit (by rw [validBits_andnot, Finset.sdiff_eq_empty_iff_subset])]
    rfl
  | equal x y =>
    -- no word differs from its partner: the symmetric difference is empty
    obtain ⟨hx, hy⟩ := hpair rfl
    have hequal : validBits (fun k => c x k ^^^ c y k) nbits = ∅ ↔
        validBits (c x) nbits = validBits (c y) nbits := by
      rw [validBits_xor]
      exact symmDiff_eq_bot
    rw [run, _bitmapEqual_eq hx hy hle hle, Except.ok_bind, Except.pure_eq,
      toNat_not_anyBit hequal]
    rfl
  | intersects x y =>
    obtain ⟨hx, hy⟩ := hpair rfl
    rw [run, _bitmapIntersects_eq hx hy hle hle, Except.ok_bind, Except.pure_eq,
      toNat_anyBit (by rw [validBits_and])]
    rfl
  | subset x y =>
    obtain ⟨hx, hy⟩ := hpair rfl
    rw [run, _bitmapSubset_eq hx hy hle hle, Except.ok_bind, Except.pure_eq,
      toNat_not_anyBit (by rw [validBits_andnot, Finset.sdiff_eq_empty_iff_subset])]
    rfl

end

end Query

/-! ### Two bitmaps -/

/-- Two bitmaps `a` and `b`, of contents `c`, and one to write to: a third one, or one of them. -/
structure Operands (h : Mem) (a b d nbits : ℕ) (c : ℕ → ℕ → Word) : Prop where
  inputs : ∀ x ∈ [a, b], h.Holds x (bitsToLongs nbits) (c x)
  output : ∃ u, h.Holds d (bitsToLongs nbits) u

/-- The values `val` belong together, and they are what the operations on `a` and `b` return. -/
structure QueriesAgree (h : Mem) (a b d nbits : ℕ) (c : ℕ → ℕ → Word) (val : Query → ℕ) : Prop where
  returns : ∀ q : Query, q.inputs ⊆ [a, b] → q.run (some d) nbits h = .ok (val q)
  weight : ∀ x ∈ [a, b],
    val (.weight x) = Nat.count (fun i => bitAt (c x) i = true) nbits ∧ val (.weight x) < 2 ^ 31
  and_iff : val (.and a b) ≠ 0 ↔ val (.intersects a b) ≠ 0
  andnot_iff : val (.andnot a b) = 0 ↔ val (.subset a b) = 1
  equal_iff : val (.equal a b) = 1 ↔ val (.subset a b) = 1 ∧ val (.subset b a) = 1
  and_add_or : val (.weightOf .and a b) + val (.weightOf .or a b) =
    val (.weight a) + val (.weight b)
  xor_eq : val (.weightOf .xor a b) = val (.weightOf .andnot a b) + val (.weightOf .andnot b a)
  unused_values : ∀ (h' : Mem) c', Operands h' a b d nbits c' →
    (∀ x ∈ [a, b], ∀ i, i < nbits → bitAt (c x) i = bitAt (c' x) i) →
    ∀ q : Query, q.inputs ⊆ [a, b] → q.run (some d) nbits h' = .ok (val q)
  unused_outputs : ∀ (h' : Mem) c', Operands h' a b d nbits c' →
    (∀ x ∈ [a, b], ∀ i, i < nbits → bitAt (c x) i = bitAt (c' x) i) →
    ∀ (op : Combine) x y, x ∈ [a, b] → y ∈ [a, b] →
      ∃ g g', (op.call x y).run (some d) nbits h = .ok g ∧
        (op.call x y).run (some d) nbits h' = .ok g' ∧
        ∀ i, i < nbits → ∃ bit, testBit i (some d) g = .ok bit ∧ testBit i (some d) g' = .ok bit

section

variable {h h' : Mem} {a b d nbits x y : ℕ} {c c' : ℕ → ℕ → Word}

theorem Operands.query (H : Operands h a b d nbits c) (hbits : nbits < 2 ^ 31) {q : Query}
    (hq : q.inputs ⊆ [a, b]) :
    q.run (some d) nbits h = .ok (q.answer fun b => validBits (c b) nbits) := by
  obtain ⟨u, hd⟩ := H.output
  exact q.run_eq hd (fun b hb => H.inputs b (hq hb)) hbits

/-- The bitmap an operation writes, bit by bit. -/
theorem Operands.combine (H : Operands h a b d nbits c) (hbits : nbits < 2 ^ 31) (op : Combine)
    (hx : x ∈ [a, b]) (hy : y ∈ [a, b]) :
    ∃ g, (op.call x y).run (some d) nbits h = .ok g ∧ ∀ i, i < nbits →
      testBit i (some d) g =
        .ok (decide (i ∈ op.sets (validBits (c x) nbits) (validBits (c y) nbits))) := by
  obtain ⟨u, hd⟩ := H.output
  have hsize := le_mul_bitsToLongs nbits
  refine ⟨_, op.run_eq hd (H.inputs x hx) (H.inputs y hy) hbits, fun i hi => ?_⟩
  rw [testBit_eq Heap.holds_store (by omega), ← op.validBits_output, Except.ok.injEq,
    Bool.eq_iff_iff, decide_eq_true_iff, mem_validBits]
  exact ⟨fun hbit => ⟨hi, hbit⟩, fun hbit => hbit.2⟩

/-- The elements of either set alone are counted one set after the other. -/
theorem card_symmDiff_eq (A B : Finset ℕ) :
    (symmDiff A B).card = (A \ B).card + (B \ A).card :=
  Finset.card_union_of_disjoint disjoint_sdiff_sdiff

/-- **The operations agree** with each other and with the sets of valid bits, for every size and
whatever the unused bits are. -/
theorem bitmapQueries_agree (H : Operands h a b d nbits c) (hbits : nbits < 2 ^ 31) :
    ∃ val, QueriesAgree h a b d nbits c val := by
  set A : ℕ → Finset ℕ := fun b => validBits (c b) nbits with hA
  refine ⟨fun q => q.answer A, ?_⟩
  constructor
  case returns => exact fun q hq => H.query hbits hq
  case weight =>
    intro x _
    have hle : (A x).card ≤ nbits := card_validBits_le (c x) nbits
    exact ⟨(popCount_eq_card (c x) nbits).symm, by simp only [Query.answer]; omega⟩
  case and_iff => exact Iff.rfl
  case andnot_iff =>
    simp only [Query.answer]
    by_cases hsub : A a ⊆ A b
    · rw [if_pos hsub, if_pos hsub]
      exact iff_of_true rfl rfl
    · rw [if_neg hsub, if_neg hsub]
      exact iff_of_false (by decide) (by decide)
  case equal_iff =>
    simp only [Query.answer, ite_eq_left_iff, zero_ne_one, imp_false, not_not]
    exact Finset.Subset.antisymm_iff
  case and_add_or =>
    rw [Nat.add_comm]
    exact Finset.card_union_add_card_inter (A a) (A b)
  case xor_eq => exact card_symmDiff_eq (A a) (A b)
  case unused_values =>
    intro h' c' H' hc q hq
    rw [H'.query hbits hq]
    refine congrArg _ (q.answer_congr fun x hx => ?_)
    exact (validBits_congr (hc x (hq hx))).symm
  case unused_outputs =>
    intro h' c' H' hc op x y hx hy
    obtain ⟨g, hg, hbit⟩ := H.combine hbits op hx hy
    obtain ⟨g', hg', hbit'⟩ := H'.combine hbits op hx hy
    rw [← validBits_congr (hc x hx), ← validBits_congr (hc y hy)] at hbit'
    exact ⟨g, g', hg, hg', fun i hi => ⟨_, hbit i hi, hbit' i hi⟩⟩

end

/-- Two bitmaps of three bits with garbage above them, and a third one. -/
theorem bitmapQueries_agree_three :
    ∃ val, QueriesAgree
      (((Heap.ofBlock 1 fun _ => 0xf5).store 1 1 fun _ => 0x36).store 2 1 fun _ => 0) 0 1 2 3
      (fun b _ => if b = 0 then 0xf5 else 0x36) val := by
  refine bitmapQueries_agree ⟨fun x hx => ?_, fun _ => 0, Heap.holds_store⟩ (by decide)
  rw [List.mem_cons, List.mem_singleton] at hx
  rcases hx with rfl | rfl
  · refine (Heap.holds_store_of_ne (by decide)).mpr ?_
    exact (Heap.holds_store_of_ne (by decide)).mpr (Heap.holds_ofBlock 1 _)
  · exact (Heap.holds_store_of_ne (by decide)).mpr Heap.holds_store

end Vlstp
