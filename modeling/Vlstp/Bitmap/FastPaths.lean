import Vlstp.Bitmap.Loops

/-!
# The single-word fast paths of `bitmap.h`

The inline functions of `bitmap.h` work on one word directly where the compiler knows the size to be
at most one word, and call the loops of `bitmap.c` otherwise. Which of the two runs is not for the
caller to see, so they should not differ.

For sizes from 1 to 64 they do not (`fastAgrees_of_ne_zero`), however the operands overlap and
whatever their unused bits are. For the size 0 they do. `BITMAP_LAST_WORD_MASK(0)` is all ones, so a
fast path that reads sees the whole word, and one that writes writes it, while the loops touch
nothing (`fastPaths_agree_iff`).
-/

namespace Vlstp

/-! ### Definitions -/

/-- `bitmap_and`. -/
def bitmapAnd (constant : Bool) (dst src1 src2 : Ptr) (nbits : ℕ) (h : Mem) :
    Except Fault (Bool × Mem) :=
  if smallConstNbits constant nbits then do
    let v := (← h.read src1 0) &&& (← h.read src2 0) &&& lastWordMask nbits
    return (v != 0, ← h.write dst 0 v)
  else _bitmapAnd dst src1 src2 nbits h

/-- `bitmap_or`. -/
def bitmapOr (constant : Bool) (dst src1 src2 : Ptr) (nbits : ℕ) (h : Mem) : Except Fault Mem :=
  if smallConstNbits constant nbits then do
    h.write dst 0 ((← h.read src1 0) ||| (← h.read src2 0))
  else _bitmapOr dst src1 src2 nbits h

/-- `bitmap_xor`. -/
def bitmapXor (constant : Bool) (dst src1 src2 : Ptr) (nbits : ℕ) (h : Mem) : Except Fault Mem :=
  if smallConstNbits constant nbits then do
    h.write dst 0 ((← h.read src1 0) ^^^ (← h.read src2 0))
  else _bitmapXor dst src1 src2 nbits h

/-- `bitmap_andnot`. -/
def bitmapAndnot (constant : Bool) (dst src1 src2 : Ptr) (nbits : ℕ) (h : Mem) :
    Except Fault (Bool × Mem) :=
  if smallConstNbits constant nbits then do
    let v := (← h.read src1 0) &&& ~~~(← h.read src2 0) &&& lastWordMask nbits
    return (v != 0, ← h.write dst 0 v)
  else _bitmapAndnot dst src1 src2 nbits h

/-- `bitmap_complement`. -/
def bitmapComplement (constant : Bool) (dst src : Ptr) (nbits : ℕ) (h : Mem) : Except Fault Mem :=
  if smallConstNbits constant nbits then do h.write dst 0 (~~~(← h.read src 0))
  else _bitmapComplement dst src nbits h

/-- `bitmap_equal`. -/
def bitmapEqual (constant : Bool) (src1 src2 : Ptr) (nbits : ℕ) (h : Mem) : Except Fault Bool :=
  if smallConstNbits constant nbits then do
    return !(((← h.read src1 0) ^^^ (← h.read src2 0)) &&& lastWordMask nbits != 0)
  else _bitmapEqual src1 src2 nbits h

/-- `bitmap_intersects`. -/
def bitmapIntersects (constant : Bool) (src1 src2 : Ptr) (nbits : ℕ) (h : Mem) :
    Except Fault Bool :=
  if smallConstNbits constant nbits then do
    return (← h.read src1 0) &&& (← h.read src2 0) &&& lastWordMask nbits != 0
  else _bitmapIntersects src1 src2 nbits h

/-- `bitmap_subset`. -/
def bitmapSubset (constant : Bool) (src1 src2 : Ptr) (nbits : ℕ) (h : Mem) : Except Fault Bool :=
  if smallConstNbits constant nbits then do
    return !((← h.read src1 0) &&& ~~~(← h.read src2 0) &&& lastWordMask nbits != 0)
  else _bitmapSubset src1 src2 nbits h

/-- `bitmap_empty`. -/
def bitmapEmpty (constant : Bool) (src : Ptr) (nbits : ℕ) (h : Mem) : Except Fault Bool :=
  if smallConstNbits constant nbits then do
    return !((← h.read src 0) &&& lastWordMask nbits != 0)
  else do return (← findFirstBit src nbits h) == nbits

/-- `bitmap_full`. -/
def bitmapFull (constant : Bool) (src : Ptr) (nbits : ℕ) (h : Mem) : Except Fault Bool :=
  if smallConstNbits constant nbits then do
    return !(~~~(← h.read src 0) &&& lastWordMask nbits != 0)
  else do return (← findFirstZeroBit src nbits h) == nbits

/-- `bitmap_shift_left`. -/
def bitmapShiftLeft (constant : Bool) (dst src : Ptr) (shift nbits : ℕ) (h : Mem) :
    Except Fault Mem :=
  if smallConstNbits constant nbits then do
    h.write dst 0 ((← h.read src 0) <<< shift &&& lastWordMask nbits)
  else _bitmapShiftLeft dst src shift nbits h

/-- The operations of `bitmap.h` that have a fast path. -/
inductive BitmapOp
  | zero
  | copy
  | and
  | or
  | xor
  | andnot
  | complement
  | equal
  | intersects
  | subset
  | empty
  | full
  | weight
  | shiftRight
  | shiftLeft
  deriving DecidableEq, Repr

/-- A call of the operation: the value it returns, if it returns one, and the memory after it. -/
def BitmapOp.run (constant : Bool) (dst src1 src2 : Ptr) (shift nbits : ℕ) (h : Mem) :
    BitmapOp → Except Fault (Option ℕ × Mem)
  | zero => do return (none, ← bitmapZero constant dst nbits h)
  | copy => do return (none, ← bitmapCopy constant dst src1 nbits h)
  | and => do
    let (r, h) ← bitmapAnd constant dst src1 src2 nbits h
    return (some r.toNat, h)
  | or => do return (none, ← bitmapOr constant dst src1 src2 nbits h)
  | xor => do return (none, ← bitmapXor constant dst src1 src2 nbits h)
  | andnot => do
    let (r, h) ← bitmapAndnot constant dst src1 src2 nbits h
    return (some r.toNat, h)
  | complement => do return (none, ← bitmapComplement constant dst src1 nbits h)
  | equal => do return (some (← bitmapEqual constant src1 src2 nbits h).toNat, h)
  | intersects => do return (some (← bitmapIntersects constant src1 src2 nbits h).toNat, h)
  | subset => do return (some (← bitmapSubset constant src1 src2 nbits h).toNat, h)
  | empty => do return (some (← bitmapEmpty constant src1 nbits h).toNat, h)
  | full => do return (some (← bitmapFull constant src1 nbits h).toNat, h)
  | weight => do return (some (← bitmapWeight constant src1 nbits h), h)
  | shiftRight => do return (none, ← bitmapShiftRight constant dst src1 shift nbits h)
  | shiftLeft => do return (none, ← bitmapShiftLeft constant dst src1 shift nbits h)

/-- The fast path and the loops agree on a call: they return the same value, the destinations agree
on every bit below the size, and a word that holds no such bit is left as it was by the one exactly
when it is by the other. -/
def FastAgrees (op : BitmapOp) (d s₁ s₂ shift nbits : ℕ) (h : Mem) : Prop :=
  ∃ r hf hg, op.run true (some d) (some s₁) (some s₂) shift nbits h = .ok (r, hf) ∧
    op.run false (some d) (some s₁) (some s₂) shift nbits h = .ok (r, hg) ∧
    (∀ i, i < nbits → testBit i (some d) hf = testBit i (some d) hg) ∧
    ∀ b k, (b = d → nbits ≤ 64 * k) → (hf.cell b k = h.cell b k ↔ hg.cell b k = h.cell b k)

/-! ### One word, masked -/

section Masked

variable {nbits : ℕ}

theorem smallConstNbits_true (hle : nbits ≤ 64) : smallConstNbits true nbits = true := by
  rw [smallConstNbits, Bool.true_and]
  exact decide_eq_true hle

theorem bitsToLongs_eq_one (hne : nbits ≠ 0) (hle : nbits ≤ 64) : bitsToLongs nbits = 1 := by
  unfold bitsToLongs
  omega

/-- The masked word of a fast path is the one word of the bitmap with the unused bits cleared. -/
theorem and_lastWordMask_eq (w : ℕ → Word) (hne : nbits ≠ 0) (hle : nbits ≤ 64) :
    w 0 &&& lastWordMask nbits = trimmed w nbits 0 := by
  have hone := bitsToLongs_eq_one hne hle
  rw [trimmed_of_lt (by omega), if_pos (by omega)]

theorem getLsbD_and_lastWordMask (x : Word) (hne : nbits ≠ 0) (hle : nbits ≤ 64) (j : ℕ) :
    (x &&& lastWordMask nbits).getLsbD j = (decide (j < nbits) && x.getLsbD j) := by
  rw [BitVec.getLsbD_and, Bool.and_comm, lastWordMask, BitVec.getLsbD_ushiftRight,
    BitVec.getLsbD_allOnes]
  congr 1
  exact decide_eq_decide.mpr (by omega)

/-- What a fast path that returns a truth value tests. -/
theorem and_lastWordMask_bne (w : ℕ → Word) (hne : nbits ≠ 0) (hle : nbits ≤ 64) :
    (w 0 &&& lastWordMask nbits != 0) = anyBit w nbits := by
  have hone := bitsToLongs_eq_one hne hle
  rw [and_lastWordMask_eq w hne hle, ← anyBit_trimmed, hone, Bool.eq_iff_iff, bne_iff_ne,
    ← exists_ne_zero_iff]
  constructor
  · exact fun h => ⟨0, by decide, h⟩
  · rintro ⟨k, hk, h⟩
    obtain rfl : k = 0 := by omega
    exact h

theorem popBelow_and_mask (w : ℕ → Word) (hne : nbits ≠ 0) (hle : nbits ≤ 64) :
    popBelow (w 0 &&& lastWordMask nbits) 64 = popCount w nbits := by
  by_cases hr : nbits % 64 = 0
  · -- a full word: the mask is all ones
    obtain rfl : nbits = 64 := by omega
    have hcount := popCount_mul_add w 0 (Nat.le_refl 64)
    rw [show lastWordMask 64 = BitVec.allOnes 64 from rfl, BitVec.and_allOnes]
    simpa [popCount] using hcount.symm
  · have hlt : nbits < 64 := by omega
    have hcount := popCount_mul_add w 0 hle
    rw [popBelow_and_lastWordMask _ hr, Nat.mod_eq_of_lt hlt]
    simpa [popCount] using hcount.symm

end Masked

/-! ### What the loops do -/

namespace BitmapOp

/-- The value an operation returns on operands that read as `w₁` and `w₂`. -/
def value (w₁ w₂ : ℕ → Word) (nbits : ℕ) : BitmapOp → Option ℕ
  | and | intersects => some (anyBit (fun k => w₁ k &&& w₂ k) nbits).toNat
  | andnot => some (anyBit (fun k => w₁ k &&& ~~~w₂ k) nbits).toNat
  | equal => some (!anyBit (fun k => w₁ k ^^^ w₂ k) nbits).toNat
  | subset => some (!anyBit (fun k => w₁ k &&& ~~~w₂ k) nbits).toNat
  | empty => some (!anyBit w₁ nbits).toNat
  | full => some (!anyBit (fun k => ~~~w₁ k) nbits).toNat
  | weight => some (popCount w₁ nbits)
  | zero | copy | or | xor | complement | shiftRight | shiftLeft => none

/-- The words the loops write, if the operation has a destination. -/
def output (w₁ w₂ : ℕ → Word) (shift nbits : ℕ) : BitmapOp → Option (ℕ → Word)
  | zero => some fun _ => 0
  | copy => some w₁
  | and => some (trimmed (fun k => w₁ k &&& w₂ k) nbits)
  | or => some fun k => w₁ k ||| w₂ k
  | xor => some fun k => w₁ k ^^^ w₂ k
  | andnot => some (trimmed (fun k => w₁ k &&& ~~~w₂ k) nbits)
  | complement => some fun k => ~~~w₁ k
  | shiftRight => some (shiftedRight w₁ shift nbits)
  | shiftLeft => some (shiftedLeft w₁ shift)
  | equal | intersects | subset | empty | full | weight => none

/-- The word a fast path writes, from the operands' words. -/
def fastWord (x y : Word) (shift nbits : ℕ) : BitmapOp → Option Word
  | zero => some 0
  | copy => some x
  | and => some (x &&& y &&& lastWordMask nbits)
  | or => some (x ||| y)
  | xor => some (x ^^^ y)
  | andnot => some (x &&& ~~~y &&& lastWordMask nbits)
  | complement => some (~~~x)
  | shiftRight => some ((x &&& lastWordMask nbits) >>> shift)
  | shiftLeft => some (x <<< shift &&& lastWordMask nbits)
  | equal | intersects | subset | empty | full | weight => none

end BitmapOp

/-- The memory after the first `n` words of block `d` have been written, or nothing has. -/
def written (h : Mem) (d n : ℕ) : Option (ℕ → Word) → Mem
  | some v => h.store d n v
  | none => h

section

variable {h : Mem} {c : ℕ → ℕ → Word} {d s₁ s₂ shift nbits : ℕ}

/-- **The general branch, for any size**: the value and the words every operation computes. -/
theorem BitmapOp.run_loops_eq (op : BitmapOp) (hd : h.Holds d (bitsToLongs nbits) (c d))
    (h₁ : h.Holds s₁ (bitsToLongs nbits) (c s₁)) (h₂ : h.Holds s₂ (bitsToLongs nbits) (c s₂))
    (hshift : shift ≤ nbits) (hbits : nbits < 2 ^ 32) :
    op.run false (some d) (some s₁) (some s₂) shift nbits h =
      .ok (op.value (c s₁) (c s₂) nbits,
        written h d (bitsToLongs nbits) (op.output (c s₁) (c s₂) shift nbits)) := by
  have hle := Nat.le_refl (bitsToLongs nbits)
  have hfalse : smallConstNbits false nbits = false := rfl
  -- some of the loops describe the words of the destination they do not reach, too
  have hstore : ∀ v w : ℕ → Word,
      (h.store d (bitsToLongs nbits) fun k => if k < bitsToLongs nbits then v k else w k) =
        h.store d (bitsToLongs nbits) v :=
    fun v w => Heap.store_congr fun k hk => if_pos hk
  have hempty : ∀ w : ℕ → Word, (firstIn (bitAt w) 0 nbits == nbits) = !anyBit w nbits := by
    intro w
    rw [Bool.eq_iff_iff, beq_iff_eq, firstIn_eq_iff, Bool.not_eq_true']
  cases op with
  | zero =>
    rw [run, bitmapZero_eq hd hle, hstore]
    rfl
  | copy =>
    rw [run, bitmapCopy_eq hd h₁ hle hle, hstore]
    rfl
  | and =>
    have heq := bitmapMasked_eq hd h₁ h₂ (fun x y => x &&& y) hle hle hle
    simp only [run, bitmapAnd, hfalse, _bitmapAnd, heq, Heap.rewritten_all]
    rfl
  | or =>
    have heq := bitmapUnmasked_eq hd h₁ h₂ (fun x y => x ||| y) hle hle hle
    simp only [run, bitmapOr, hfalse, _bitmapOr, heq, Heap.rewritten_all]
    rfl
  | xor =>
    have heq := bitmapUnmasked_eq hd h₁ h₂ (fun x y => x ^^^ y) hle hle hle
    simp only [run, bitmapXor, hfalse, _bitmapXor, heq, Heap.rewritten_all]
    rfl
  | andnot =>
    have heq := bitmapMasked_eq hd h₁ h₂ (fun x y => x &&& ~~~y) hle hle hle
    simp only [run, bitmapAndnot, hfalse, _bitmapAndnot, heq, Heap.rewritten_all]
    rfl
  | complement =>
    have heq := _bitmapComplement_eq hd h₁ hle hle
    simp only [run, bitmapComplement, hfalse, heq, Heap.rewritten_all]
    rfl
  | equal =>
    simp only [run, bitmapEqual, hfalse, _bitmapEqual_eq h₁ h₂ hle hle]
    rfl
  | intersects =>
    simp only [run, bitmapIntersects, hfalse, _bitmapIntersects_eq h₁ h₂ hle hle]
    rfl
  | subset =>
    simp only [run, bitmapSubset, hfalse, _bitmapSubset_eq h₁ h₂ hle hle]
    rfl
  | empty =>
    simp only [run, bitmapEmpty, hfalse, findFirstBit_eq h₁ hle, Bool.false_eq_true, if_false,
      Except.ok_bind, Except.pure_eq, hempty]
    rfl
  | full =>
    simp only [run, bitmapFull, hfalse, findFirstZeroBit_eq h₁ hle, ← firstIn_not,
      Bool.false_eq_true, if_false, Except.ok_bind, Except.pure_eq, hempty]
    rfl
  | weight =>
    rw [run, bitmapWeight_eq h₁ hle]
    rfl
  | shiftRight =>
    rw [run, bitmapShiftRight_eq hd h₁ hle hle hshift hbits, hstore]
    rfl
  | shiftLeft =>
    have heq := _bitmapShiftLeft_eq hd h₁ hle hle hshift
    simp only [run, bitmapShiftLeft, hfalse, heq, Heap.rewritten_all]
    rfl

/-! ### What the fast paths do -/

/-- The fast path of an operation on one word. -/
theorem BitmapOp.run_fast_eq (op : BitmapOp) (shift : ℕ) (hd : h.Holds d 1 (c d))
    (h₁ : h.Holds s₁ 1 (c s₁)) (h₂ : h.Holds s₂ 1 (c s₂)) (hne : nbits ≠ 0) (hle : nbits ≤ 64) :
    op.run true (some d) (some s₁) (some s₂) shift nbits h =
      .ok (op.value (c s₁) (c s₂) nbits,
        written h d 1 ((op.fastWord (c s₁ 0) (c s₂ 0) shift nbits).map fun v _ => v)) := by
  have hsmall := smallConstNbits_true hle
  have hr₁ : h.read (some s₁) 0 = .ok (c s₁ 0) := h₁.read (by decide)
  have hr₂ : h.read (some s₂) 0 = .ok (c s₂ 0) := h₂.read (by decide)
  have hw := fun v => hd.write_first (v := v)
  -- the five tests on the masked word
  have hx := and_lastWordMask_bne (c s₁) hne hle
  have hnot := and_lastWordMask_bne (fun k => ~~~c s₁ k) hne hle
  have hand := and_lastWordMask_bne (fun k => c s₁ k &&& c s₂ k) hne hle
  have handnot := and_lastWordMask_bne (fun k => c s₁ k &&& ~~~c s₂ k) hne hle
  have hxor := and_lastWordMask_bne (fun k => c s₁ k ^^^ c s₂ k) hne hle
  have hcount := popBelow_and_mask (c s₁) hne hle
  cases op <;>
    simp only [run, bitmapZero, bitmapCopy, bitmapAnd, bitmapOr, bitmapXor, bitmapAndnot,
      bitmapComplement, bitmapEqual, bitmapIntersects, bitmapSubset, bitmapEmpty, bitmapFull,
      bitmapWeight, bitmapShiftRight, bitmapShiftLeft, hsmall, if_true, hr₁, hr₂, hw,
      Except.ok_bind, Except.pure_eq, value, fastWord, written, Option.map, hweightLong_eq,
      hx, hnot, hand, handnot, hxor, hcount]

/-- Where the fast path writes a word, the loops write one with the same bits below the size. -/
theorem BitmapOp.getLsbD_fastWord (op : BitmapOp) {w₁ w₂ : ℕ → Word} (hne : nbits ≠ 0)
    (hle : nbits ≤ 64) (hs : shift < 64) {x : Word}
    (hx : op.fastWord (w₁ 0) (w₂ 0) shift nbits = some x) :
    ∃ v, op.output w₁ w₂ shift nbits = some v ∧
      ∀ j, j < nbits → x.getLsbD j = (v 0).getLsbD j := by
  cases op with
  | equal | intersects | subset | empty | full | weight => simp [fastWord] at hx
  | zero | copy | or | xor | complement =>
    -- the same word, unused bits and all
    obtain rfl := Option.some.inj hx
    exact ⟨_, rfl, fun _ _ => rfl⟩
  | and | andnot =>
    obtain rfl := Option.some.inj hx
    refine ⟨_, rfl, fun j _ => ?_⟩
    rw [← and_lastWordMask_eq _ hne hle]
  | shiftRight =>
    obtain rfl := Option.some.inj hx
    refine ⟨_, rfl, fun j hj => ?_⟩
    have hbit := bitAt_shiftedRight w₁ shift nbits j
    rw [bitAt_of_lt _ (by omega)] at hbit
    rw [hbit, BitVec.getLsbD_ushiftRight, getLsbD_and_lastWordMask _ hne hle, Nat.add_comm shift j]
    -- a bit that comes from below the size lies in the one word there is
    by_cases hlt : j + shift < nbits
    · rw [bitAt_of_lt _ (by omega)]
    · simp [hlt]
  | shiftLeft =>
    obtain rfl := Option.some.inj hx
    refine ⟨_, rfl, fun j hj => ?_⟩
    have hbit := bitAt_shiftedLeft w₁ shift j
    rw [bitAt_of_lt _ (by omega)] at hbit
    rw [hbit, getLsbD_and_lastWordMask _ hne hle, BitVec.getLsbD_shiftLeft,
      bitAt_of_lt _ (by omega)]
    -- below the shift both have a zero
    by_cases hle' : shift ≤ j
    · have hj64 : j < 64 := by omega
      simp [hj, hle', hj64]
    · have hlt : j < shift := by omega
      simp [hle', hlt]

/-- An operation whose fast path writes nothing has no destination. -/
theorem BitmapOp.output_eq_none (op : BitmapOp) {w₁ w₂ : ℕ → Word} {x y : Word}
    (hx : op.fastWord x y shift nbits = none) : op.output w₁ w₂ shift nbits = none := by
  cases op with
  | equal | intersects | subset | empty | full | weight => rfl
  | zero | copy | and | or | xor | andnot | complement | shiftRight | shiftLeft =>
    simp [fastWord] at hx

/-! ### Agreement -/

/-- For sizes from 1 to 64 the two branches agree. -/
theorem BitmapOp.fastAgrees_of_ne_zero (op : BitmapOp) (hd : h.Holds d 1 (c d))
    (h₁ : h.Holds s₁ 1 (c s₁)) (h₂ : h.Holds s₂ 1 (c s₂)) (hne : nbits ≠ 0) (hle : nbits ≤ 64)
    (hshift : shift ≤ nbits) (hs : shift < 64) :
    FastAgrees op d s₁ s₂ shift nbits h := by
  have hone := bitsToLongs_eq_one hne hle
  have hfast := op.run_fast_eq shift hd h₁ h₂ hne hle
  rw [← hone] at hd h₁ h₂
  have hloops := op.run_loops_eq hd h₁ h₂ hshift (by omega)
  rw [hone] at hloops
  refine ⟨_, _, _, hfast, hloops, ?_, ?_⟩
  · intro i hi
    cases hx : op.fastWord (c s₁ 0) (c s₂ 0) shift nbits with
    | none => rw [op.output_eq_none hx, Option.map_none]
    | some x =>
      obtain ⟨v, hv, hbits⟩ := op.getLsbD_fastWord hne hle hs hx
      rw [hv]
      change testBit i (some d) (h.store d 1 fun _ => x) = testBit i (some d) (h.store d 1 v)
      rw [testBit_eq Heap.holds_store (by omega), testBit_eq Heap.holds_store (by omega),
        bitAt_of_lt _ (by omega), bitAt_of_lt _ (by omega), hbits i hi]
  · -- a word that holds no bit below the size is not the first of the destination
    have hkeep : ∀ (o : Option (ℕ → Word)) (b k : ℕ), (b = d → nbits ≤ 64 * k) →
        (written h d 1 o).cell b k = h.cell b k := by
      intro o b k hk
      cases o with
      | none => rfl
      | some v =>
        by_cases hb : b = d
        · subst hb
          have hk' := hk rfl
          rw [written, Heap.store_cell_self]
          exact if_neg (by omega)
        · rw [written, Heap.store_cell_of_ne hb]
    intro b k hk
    rw [hkeep _ b k hk, hkeep _ b k hk]

/-- For the size 0 the loops write nothing. -/
theorem BitmapOp.run_loops_zero (op : BitmapOp) :
    op.run false (some d) (some s₁) (some s₂) 0 0 h = .ok (op.value (c s₁) (c s₂) 0, h) := by
  have hnone : ∀ (b : ℕ) (w : ℕ → Word), h.Holds b (bitsToLongs 0) w :=
    fun b w k hk => absurd hk (Nat.not_lt_zero k)
  have hrun := op.run_loops_eq (c := c) (d := d) (hnone d _) (hnone s₁ _) (hnone s₂ _)
    (Nat.le_refl 0) (by decide)
  rw [hrun]
  cases op.output (c s₁) (c s₂) 0 0 with
  | none => rfl
  | some v => rw [written, (hnone d v).store_self]

/-- So a fast path that agrees with them has written the word that was there. -/
theorem word_eq_of_fastAgrees_zero (op : BitmapOp) {r : Option ℕ} {x : Word}
    (hd : h.Holds d 1 (c d))
    (hfast : op.run true (some d) (some s₁) (some s₂) 0 0 h = .ok (r, h.store d 1 fun _ => x))
    (hagree : FastAgrees op d s₁ s₂ 0 0 h) : x = c d 0 := by
  obtain ⟨r', hf, hg, hfast', hloops, -, hkeep⟩ := hagree
  rw [op.run_loops_zero (c := c)] at hloops
  obtain ⟨-, rfl⟩ := Prod.mk.inj (Except.ok.inj (hfast.symm.trans hfast'))
  obtain ⟨-, rfl⟩ := Prod.mk.inj (Except.ok.inj hloops)
  have hcell := (hkeep d 0 fun _ => Nat.zero_le _).mpr rfl
  rw [hd 0 (by decide), Heap.holds_store 0 (by decide)] at hcell
  exact Option.some.inj hcell

/-- **The fast paths agree with the loops for every size but 0.** For the size 0, whatever the
memory, one of `bitmap_zero`, `bitmap_copy` and `bitmap_complement` changes the first word of its
destination on the fast path and no word on the other. -/
theorem fastPaths_agree_iff (hd : h.Holds d 1 (c d)) (h₁ : h.Holds s₁ 1 (c s₁))
    (h₂ : h.Holds s₂ 1 (c s₂)) (hle : nbits ≤ 64) (hshift : shift ≤ nbits) (hs : shift < 64) :
    (∀ op : BitmapOp, FastAgrees op d s₁ s₂ shift nbits h) ↔ nbits ≠ 0 := by
  constructor
  · rintro hall rfl
    obtain rfl : shift = 0 := by omega
    have hr₁ : h.read (some s₁) 0 = .ok (c s₁ 0) := h₁.read (by decide)
    have hw := fun v => hd.write_first (v := v)
    -- what the three fast paths write, and would have to find there already
    have hzero : (0 : Word) = c d 0 := word_eq_of_fastAgrees_zero .zero hd (by
      simp only [BitmapOp.run, bitmapZero, smallConstNbits_true hle, if_true, hw]
      rfl) (hall .zero)
    have hcopy : c s₁ 0 = c d 0 := word_eq_of_fastAgrees_zero .copy hd (by
      simp only [BitmapOp.run, bitmapCopy, smallConstNbits_true hle, if_true, hr₁, hw,
        Except.ok_bind]
      rfl) (hall .copy)
    have hnot : ~~~c s₁ 0 = c d 0 := word_eq_of_fastAgrees_zero .complement hd (by
      simp only [BitmapOp.run, bitmapComplement, smallConstNbits_true hle, if_true, hr₁, hw,
        Except.ok_bind]
      rfl) (hall .complement)
    rw [hcopy, ← hzero] at hnot
    exact absurd hnot (by decide)
  · exact fun hne op => op.fastAgrees_of_ne_zero hd h₁ h₂ hne hle hshift hs

end

theorem fastPaths_agree_one_bit :
    (∀ op : BitmapOp, FastAgrees op 0 0 0 1 1 (Heap.ofBlock 1 fun _ => 5)) ↔ (1 : ℕ) ≠ 0 :=
  fastPaths_agree_iff (c := fun _ _ => 5) (Heap.holds_ofBlock 1 _) (Heap.holds_ofBlock 1 _)
    (Heap.holds_ofBlock 1 _) (by decide) (by decide) (by decide)

/-- `bitmap_zero` of no bits clears a word on the fast path. -/
theorem bitmapZero_of_no_bits :
    ¬ ∀ (op : BitmapOp) (h : Mem) (c : ℕ → ℕ → Word) (d s₁ s₂ shift nbits : ℕ),
      h.Holds d 1 (c d) → h.Holds s₁ 1 (c s₁) → h.Holds s₂ 1 (c s₂) → nbits ≤ 64 →
      shift ≤ nbits → shift < 64 → FastAgrees op d s₁ s₂ shift nbits h := by
  intro hall
  have hd := Heap.holds_ofBlock 1 fun _ => (5 : Word)
  have hagree := hall .zero _ (fun _ _ => 5) 0 0 0 0 0 hd hd hd (by decide) (by decide) (by decide)
  have hfast : BitmapOp.zero.run true (some 0) (some 0) (some 0) 0 0 (Heap.ofBlock 1 fun _ => 5) =
      .ok (none, (Heap.ofBlock 1 fun _ => (5 : Word)).store 0 1 fun _ => 0) := by
    simp only [BitmapOp.run, bitmapZero, smallConstNbits_true (Nat.zero_le _), if_true,
      hd.write_first]
    rfl
  exact absurd (word_eq_of_fastAgrees_zero (c := fun _ _ => 5) .zero hd hfast hagree) (by decide)

end Vlstp
