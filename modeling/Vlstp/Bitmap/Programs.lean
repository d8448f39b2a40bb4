import Mathlib.Order.Interval.Finset.Nat
import Vlstp.Framework.Reach
import Vlstp.Bitops.TestAnd
import Vlstp.Bitops.Searches
import Vlstp.Bitmap.Ordinals
import Vlstp.Bitmap.Ranges
import Vlstp.Bitmap.FastPaths
import Vlstp.Bitmap.ValidBits
import Vlstp.Bitmap.Fold

/-!
# Programs over bitmaps

The operations of `bitops.h`, `bitmap.h` and `bitmap.c` are made to be used one after the other, on
as many bitmaps of one size as one likes, and the destination of one is an operand of the next. Each
leaves other rubbish behind in the unused bits of its destination, and takes another path where the
compiler knows the size.

What a program computes is nevertheless what the same program computes with sets. Every bitmap
stands for the set of its valid bits (`HoldsSets`), each operation does to these sets what its name
says (`BitmapCall.after`) and answers what they say (`BitmapCall.Answers`), whether or not the
compiler knew the size, with all ways in which destination and operands can be the same bitmap. So
it goes on for any number of calls (`bitmap_runs_refine`).
-/

namespace Vlstp

/-! ### What the operations of `bitmap.h` do to sets -/

namespace BitmapOp

/-- The set an operation makes of the sets `A` and `B`, if it has a destination. -/
def sets (A B : Finset ℕ) (shift nbits : ℕ) : BitmapOp → Option (Finset ℕ)
  | zero => some ∅
  | copy => some A
  | and => some (A ∩ B)
  | or => some (A ∪ B)
  | xor => some (symmDiff A B)
  | andnot => some (A \ B)
  | complement => some (Finset.range nbits \ A)
  | shiftRight => some ((Finset.range nbits).filter fun i => i + shift ∈ A)
  | shiftLeft => some ((Finset.range nbits).filter fun i => shift ≤ i ∧ i - shift ∈ A)
  | equal | intersects | subset | empty | full | weight => none

/-- The value it returns, if it returns one. -/
def answer (A B : Finset ℕ) (nbits : ℕ) : BitmapOp → Option ℕ
  | and | intersects => some (if A ∩ B = ∅ then 0 else 1)
  | andnot => some (if A ⊆ B then 0 else 1)
  | equal => some (if A = B then 1 else 0)
  | subset => some (if A ⊆ B then 1 else 0)
  | empty => some (if A = ∅ then 1 else 0)
  | full => some (if A = Finset.range nbits then 1 else 0)
  | weight => some A.card
  | zero | copy | or | xor | complement | shiftRight | shiftLeft => none

end BitmapOp

section

variable {h : Mem} {c : ℕ → ℕ → Word} {w w₁ w₂ : ℕ → Word} {d s₁ s₂ shift nbits : ℕ}

theorem validBits_subset_range (w : ℕ → Word) (nbits : ℕ) :
    validBits w nbits ⊆ Finset.range nbits :=
  Finset.filter_subset ..

theorem bitAt_not (w : ℕ → Word) (i : ℕ) : bitAt (fun k => ~~~w k) i = !bitAt w i := by
  unfold bitAt
  rw [BitVec.getLsbD_not, decide_eq_true (Nat.mod_lt i (by decide)), Bool.true_and]

theorem validBits_not (w : ℕ → Word) (nbits : ℕ) :
    validBits (fun k => ~~~w k) nbits = Finset.range nbits \ validBits w nbits := by
  ext i
  simp only [mem_validBits, bitAt_not, Finset.mem_sdiff, Finset.mem_range, Bool.not_eq_true',
    not_and, Bool.not_eq_true]
  exact and_congr_right fun hi => ⟨fun hbit _ => hbit, fun hbit => hbit hi⟩

theorem validBits_zero (nbits : ℕ) : validBits (fun _ => 0) nbits = ∅ := by
  rw [← anyBit_eq_false_iff, ← Bool.not_eq_true, anyBit_iff]
  rintro ⟨i, -, hbit⟩
  exact Bool.noConfusion ((BitVec.getLsbD_zero (i := i % 64)).symm.trans hbit)

/-- **The words the loops write** are those of the set. -/
theorem BitmapOp.validBits_output (op : BitmapOp) :
    (op.output w₁ w₂ shift nbits).map (validBits · nbits) =
      op.sets (validBits w₁ nbits) (validBits w₂ nbits) shift nbits := by
  cases op with
  | equal | intersects | subset | empty | full | weight | copy => rfl
  | zero => exact congrArg some (validBits_zero nbits)
  | and => exact congrArg some ((validBits_trimmed ..).trans (validBits_and ..))
  | or => exact congrArg some (validBits_or ..)
  | xor => exact congrArg some (validBits_xor ..)
  | andnot => exact congrArg some ((validBits_trimmed ..).trans (validBits_andnot ..))
  | complement => exact congrArg some (validBits_not ..)
  | shiftRight =>
    refine congrArg some (Finset.ext fun i => ?_)
    rw [mem_validBits, bitAt_shiftedRight, Bool.and_eq_true, decide_eq_true_iff, Finset.mem_filter,
      Finset.mem_range, mem_validBits]
  | shiftLeft =>
    refine congrArg some (Finset.ext fun i => ?_)
    rw [mem_validBits, bitAt_shiftedLeft, Bool.and_eq_true, decide_eq_true_iff, Finset.mem_filter,
      Finset.mem_range, mem_validBits]
    -- a bit that comes from below the size less the shift comes from below the size
    exact and_congr_right fun hi => and_congr_right fun _ =>
      ⟨fun hbit => ⟨by omega, hbit⟩, fun hbit => hbit.2⟩

/-- **The value the loops return** is that of the set. -/
theorem BitmapOp.value_eq (op : BitmapOp) :
    op.value w₁ w₂ nbits = op.answer (validBits w₁ nbits) (validBits w₂ nbits) nbits := by
  cases op with
  | zero | copy | or | xor | complement | shiftRight | shiftLeft => rfl
  | and | intersects => exact congrArg some (Query.toNat_anyBit (by rw [validBits_and]))
  | andnot =>
    refine congrArg some (Query.toNat_anyBit ?_)
    rw [validBits_andnot, Finset.sdiff_eq_empty_iff_subset]
  | equal =>
    refine congrArg some (Query.toNat_not_anyBit ?_)
    rw [validBits_xor]
    exact symmDiff_eq_bot
  | subset =>
    refine congrArg some (Query.toNat_not_anyBit ?_)
    rw [validBits_andnot, Finset.sdiff_eq_empty_iff_subset]
  | empty => exact congrArg some (Query.toNat_not_anyBit Iff.rfl)
  | full =>
    refine congrArg some (Query.toNat_not_anyBit ?_)
    rw [validBits_not, Finset.sdiff_eq_empty_iff_subset]
    exact ⟨(validBits_subset_range w₁ nbits).antisymm, fun heq => heq.ge⟩
  | weight => exact congrArg some (popCount_eq_card w₁ nbits)

/-- **A call, on either path.** It returns what the sets say, and the destination, if there is one,
stands for the set the operation makes. -/
theorem BitmapOp.run_sets (op : BitmapOp) (constant : Bool)
    (hd : h.Holds d (bitsToLongs nbits) (c d)) (h₁ : h.Holds s₁ (bitsToLongs nbits) (c s₁))
    (h₂ : h.Holds s₂ (bitsToLongs nbits) (c s₂)) (hpos : 0 < nbits) (hbits : nbits < 2 ^ 31)
    (hshift : shift ≤ nbits) (hword : smallConstNbits constant nbits = true → shift < 64) :
    ∃ o, op.run constant (some d) (some s₁) (some s₂) shift nbits h =
        .ok (op.answer (validBits (c s₁) nbits) (validBits (c s₂) nbits) nbits,
          written h d (bitsToLongs nbits) o) ∧
      o.map (validBits · nbits) =
        op.sets (validBits (c s₁) nbits) (validBits (c s₂) nbits) shift nbits := by
  have hloops := op.run_loops_eq hd h₁ h₂ hshift (by omega)
  rw [op.value_eq] at hloops
  cases hsmall : smallConstNbits constant nbits with
  | false =>
    -- the path of the loops, and the size may still be known
    have hrun : op.run constant (some d) (some s₁) (some s₂) shift nbits h =
        op.run false (some d) (some s₁) (some s₂) shift nbits h := by
      have hfalse : smallConstNbits false nbits = false := rfl
      cases op with
      | _ =>
        simp only [run, bitmapZero, bitmapCopy, bitmapAnd, bitmapOr, bitmapXor, bitmapAndnot,
          bitmapComplement, bitmapEqual, bitmapIntersects, bitmapSubset, bitmapEmpty, bitmapFull,
          bitmapWeight, bitmapShiftRight, bitmapShiftLeft, hsmall, hfalse]
    exact ⟨_, hrun.trans hloops, op.validBits_output⟩
  | true =>
    obtain ⟨rfl, hle⟩ : constant = true ∧ nbits ≤ 64 := by
      unfold smallConstNbits at hsmall
      obtain ⟨hconst, hle⟩ := Bool.and_eq_true_iff.mp hsmall
      exact ⟨hconst, of_decide_eq_true hle⟩
    have hne : nbits ≠ 0 := Nat.ne_of_gt hpos
    have hone := bitsToLongs_eq_one hne hle
    rw [hone] at hd h₁ h₂ ⊢
    have hfast := op.run_fast_eq shift hd h₁ h₂ hne hle
    rw [op.value_eq] at hfast
    refine ⟨_, hfast, ?_⟩
    rw [← op.validBits_output]
    cases hx : op.fastWord (c s₁ 0) (c s₂ 0) shift nbits with
    | none => rw [op.output_eq_none hx, Option.map_none, Option.map_none]
    | some x =>
      obtain ⟨v, hv, hsame⟩ := op.getLsbD_fastWord hne hle (hword hsmall) hx
      rw [hv]
      refine congrArg some (validBits_congr fun i hi => ?_)
      rw [bitAt_of_lt _ (by omega), bitAt_of_lt _ (by omega)]
      exact hsame i hi

end

/-! ### Programs -/

/-- A call of one of the functions on bitmaps. `constant` says that the compiler knows the size. -/
inductive BitmapCall
  | op (constant : Bool) (f : BitmapOp) (dst src1 src2 shift : ℕ)
  | fill (constant : Bool) (dst : ℕ)
  | fold (dst orig sz : ℕ)
  | set (map start len : ℕ)
  | clear (map start len : ℕ)
  | updateBit (f : BitUpdate) (bit addr : ℕ)
  | testBit (bit addr : ℕ)
  | search (f : Search) (addr : ℕ)
  | posToOrd (buf pos : ℕ)
  | ordToPos (buf ord : ℕ)

/-- The call, on bitmaps of `nbits` bits. -/
def bitmapStep (nbits : ℕ) (h : Mem) : BitmapCall → Except Fault (Option ℤ × Mem)
  | .op constant f dst src1 src2 shift => do
    let (r, h) ← f.run constant (some dst) (some src1) (some src2) shift nbits h
    return (r.map (↑), h)
  | .fill constant dst => do return (none, ← bitmapFill constant (some dst) nbits h)
  | .fold dst orig sz => do return (none, ← bitmapFold (some dst) (some orig) sz nbits h)
  | .set map start len => do return (none, ← bitmapSet (some map) start len h)
  | .clear map start len => do return (none, ← bitmapClear (some map) start len h)
  | .updateBit f bit addr => do return (none, ← f.plain bit (some addr) h)
  | .testBit bit addr => do return (some (← testBit bit (some addr) h).toNat, h)
  | .search f addr => do return (some ↑(← f.run (some addr) nbits h), h)
  | .posToOrd buf pos => do return (some (← bitmapPosToOrd (some buf) pos nbits h), h)
  | .ordToPos buf ord => do return (some ↑(← bitmapOrdToPos (some buf) ord nbits h), h)

/-- The operation on sets that goes with updating one bit. -/
def BitUpdate.sets (A : Finset ℕ) (bit : ℕ) : BitUpdate → Finset ℕ
  | set => insert bit A
  | clear => A.erase bit
  | change => symmDiff A {bit}

namespace BitmapCall

/-- The bitmap a call writes, and the set it makes of it, if it writes one. -/
def writes (nbits : ℕ) (A : ℕ → Finset ℕ) : BitmapCall → Option (ℕ × Finset ℕ)
  | op _ f dst src1 src2 shift => (f.sets (A src1) (A src2) shift nbits).map fun S => (dst, S)
  | fill _ dst => some (dst, Finset.range nbits)
  | fold dst orig sz => if dst = orig then none else some (dst, (A orig).image (· % sz))
  | set map start len => some (map, A map ∪ Finset.Ico start (start + len))
  | clear map start len => some (map, A map \ Finset.Ico start (start + len))
  | updateBit f bit addr => some (addr, f.sets (A addr) bit)
  | testBit .. | search .. | posToOrd .. | ordToPos .. => none

/-- The sets after a call. -/
def after (nbits : ℕ) (A : ℕ → Finset ℕ) (call : BitmapCall) : ℕ → Finset ℕ :=
  match call.writes nbits A with
  | some (dst, S) => Function.update A dst S
  | none => A

/-- The answers to a call: one at most, and for the searches the one their contract allows. -/
def Answers (nbits : ℕ) (A : ℕ → Finset ℕ) (call : BitmapCall) (r : Option ℤ) : Prop :=
  match call with
  | op _ f _ src1 src2 _ => r = (f.answer (A src1) (A src2) nbits).map (↑)
  | fill .. | fold .. | set .. | clear .. | updateBit .. => r = none
  | testBit bit addr => r = some (if bit ∈ A addr then 1 else 0)
  | search f addr => ∃ i : ℕ, f.Meets (fun j => decide (j ∈ A addr)) nbits i ∧ r = some ↑i
  | posToOrd buf pos => r = some (if pos ∈ A buf then ↑((A buf).filter (· < pos)).card else -1)
  | ordToPos buf ord => ∃ i : ℕ, IsSelect (fun j => decide (j ∈ A buf)) nbits ord i ∧ r = some ↑i

/-- What the caller sees to: the operands are bitmaps of the program, and what is written lies in
them. A shift on the path of one word must be one that the processor has. -/
def Valid (maps : Set ℕ) (nbits : ℕ) : BitmapCall → Prop
  | op constant _ dst src1 src2 shift => dst ∈ maps ∧ src1 ∈ maps ∧ src2 ∈ maps ∧ shift ≤ nbits ∧
      (smallConstNbits constant nbits = true → shift < 64)
  | fill _ dst => dst ∈ maps
  | fold dst orig sz => dst ∈ maps ∧ orig ∈ maps ∧ 0 < sz
  | set map start len | clear map start len => map ∈ maps ∧ start + len ≤ nbits
  | updateBit _ bit addr | testBit bit addr => addr ∈ maps ∧ bit < nbits
  | search _ addr => addr ∈ maps
  | posToOrd buf _ | ordToPos buf _ => buf ∈ maps

end BitmapCall

/-- **A program over sets**: every call is answered, and does to the sets, what its name says. -/
inductive SetsMove (nbits : ℕ) :
    (ℕ → Finset ℕ) → BitmapCall × Option ℤ → (ℕ → Finset ℕ) → Prop
  | call {A : ℕ → Finset ℕ} {call : BitmapCall} {r : Option ℤ} (hr : call.Answers nbits A r) :
      SetsMove nbits A (call, r) (call.after nbits A)

/-- Each of the bitmaps `maps` stands for its set, and the rest of the memory is as in `h₀`. -/
structure HoldsSets (h₀ h : Mem) (maps : Set ℕ) (nbits : ℕ) (A : ℕ → Finset ℕ) : Prop where
  holds : ∀ b ∈ maps, ∃ w, h.Holds b (bitsToLongs nbits) w ∧ validBits w nbits = A b
  frame : ∀ b k, ¬ (b ∈ maps ∧ k < bitsToLongs nbits) → h.cell b k = h₀.cell b k

section

variable {h₀ h : Mem} {maps : Set ℕ} {nbits b d : ℕ} {A : ℕ → Finset ℕ} {S : Finset ℕ}
  {w v : ℕ → Word} {start len i : ℕ}

/-! ### One call -/

/-- A bitmap is written that stands for the set `S` then. -/
theorem HoldsSets.store (hA : HoldsSets h₀ h maps nbits A) (hd : d ∈ maps)
    (hv : validBits v nbits = S) :
    HoldsSets h₀ (h.store d (bitsToLongs nbits) v) maps nbits (Function.update A d S) where
  holds b hb := by
    by_cases hbd : b = d
    · subst hbd
      exact ⟨v, Heap.holds_store, by rw [Function.update_self, hv]⟩
    · obtain ⟨w, hw, hset⟩ := hA.holds b hb
      exact ⟨w, (Heap.holds_store_of_ne hbd).mpr hw, by rw [Function.update_of_ne hbd, hset]⟩
  frame b k hout := by
    rw [← hA.frame b k hout, Heap.store_eq_storeIn]
    refine Heap.storeIn_cell_of_not ?_
    rintro ⟨rfl, -, hk⟩
    exact hout ⟨hd, hk⟩

/-- Which bits are set can be told from the set. -/
theorem bitAt_eq_of_validBits (hset : validBits w nbits = S) (hi : i < nbits) :
    bitAt w i = decide (i ∈ S) := by
  rw [← hset, Bool.eq_iff_iff, decide_eq_true_iff, mem_validBits]
  exact ⟨fun hbit => ⟨hi, hbit⟩, fun hbit => hbit.2⟩

theorem bitmapRange_store (change : Word → Word → Word) (hzero : ∀ x, change x 0 = x)
    (hw : h.Holds b (bitsToLongs nbits) w) (hle : start + len ≤ nbits) (hbits : nbits < 2 ^ 31) :
    bitmapRange change (some b) start len h =
      .ok (h.store b (bitsToLongs nbits)
        fun k => change (w k) (rangeMask start (start + len) k)) := by
  have hend : rangeEnd start len ≤ bitsToLongs nbits :=
    rangeEnd_le (hle.trans (le_mul_bitsToLongs nbits))
  rw [bitmapRange_eq change (hw.holdsIn hend) (Nat.lt_of_le_of_lt hle hbits)]
  refine congrArg _ (hw.storeIn_eq_store hend fun k hk => ?_)
  -- a word the loop does not come to has no bit of the range
  rw [rangeMask_eq_zero, hzero]
  unfold rangeEnd bitsToLongs at hk
  by_cases hlen : len = 0
  · omega
  · rw [if_neg hlen] at hk
    omega

/-- `bitmap_set` and `bitmap_clear`. -/
theorem validBits_setRange (hle : start + len ≤ nbits) (hset : validBits w nbits = S) :
    validBits (fun k => w k ||| rangeMask start (start + len) k) nbits =
      S ∪ Finset.Ico start (start + len) := by
  ext i
  rw [mem_validBits, bitAt_or_rangeMask, Bool.or_eq_true, decide_eq_true_iff, Finset.mem_union,
    ← hset, mem_validBits, Finset.mem_Ico]
  constructor
  · rintro ⟨hi, hbit | hin⟩
    · exact Or.inl ⟨hi, hbit⟩
    · exact Or.inr hin
  · rintro (⟨hi, hbit⟩ | hin)
    · exact ⟨hi, Or.inl hbit⟩
    · exact ⟨by omega, Or.inr hin⟩

theorem validBits_clearRange (hset : validBits w nbits = S) :
    validBits (fun k => w k &&& ~~~rangeMask start (start + len) k) nbits =
      S \ Finset.Ico start (start + len) := by
  ext i
  rw [mem_validBits, bitAt_and_not_rangeMask, Bool.and_eq_true, Bool.not_eq_true',
    decide_eq_false_iff_not, Finset.mem_sdiff, ← hset, mem_validBits, Finset.mem_Ico, and_assoc]

/-- The set after one bit has been updated: no other element comes or goes. -/
theorem BitUpdate.mem_sets_of_ne (f : BitUpdate) {j : ℕ} (hne : j ≠ i) :
    j ∈ f.sets S i ↔ j ∈ S := by
  cases f with
  | set => exact Finset.mem_insert.trans (or_iff_right hne)
  | clear => exact Finset.mem_erase.trans (and_iff_right hne)
  | change => simp [BitUpdate.sets, Finset.mem_symmDiff, hne]

theorem BitUpdate.bitAt_updated_self (f : BitUpdate) (hbit : bitAt w i = decide (i ∈ S)) :
    bitAt (f.updated w i) i = decide (i ∈ f.sets S i) := by
  have hi := Nat.mod_lt i (by decide : 0 < 64)
  have hmask : (1#64 <<< (i % 64)).getLsbD (i % 64) = true := by
    rw [getLsbD_one_shiftLeft hi]
    exact decide_eq_true rfl
  have hword : bitAt (f.updated w i) i =
      (f.combine (w (i / 64)) (1#64 <<< (i % 64))).getLsbD (i % 64) := by
    unfold bitAt BitUpdate.updated
    rw [Function.update_self]
  have hold : (w (i / 64)).getLsbD (i % 64) = decide (i ∈ S) := hbit
  rw [hword]
  cases f with
  | set =>
    change (w (i / 64) ||| 1#64 <<< (i % 64)).getLsbD (i % 64) = decide (i ∈ insert i S)
    rw [BitVec.getLsbD_or, hmask, Bool.or_true, decide_eq_true (Finset.mem_insert_self i S)]
  | clear =>
    change (w (i / 64) &&& ~~~(1#64 <<< (i % 64))).getLsbD (i % 64) = decide (i ∈ S.erase i)
    rw [BitVec.getLsbD_and, BitVec.getLsbD_not, hmask, Bool.not_true, Bool.and_false,
      Bool.and_false, decide_eq_false (Finset.notMem_erase i S)]
  | change =>
    change (w (i / 64) ^^^ 1#64 <<< (i % 64)).getLsbD (i % 64) = decide (i ∈ symmDiff S {i})
    rw [BitVec.getLsbD_xor, hmask, hold, Bool.xor_true, ← decide_not]
    exact decide_eq_decide.mpr (by simp [Finset.mem_symmDiff])

theorem validBits_updated (f : BitUpdate) (hi : i < nbits) (hset : validBits w nbits = S) :
    validBits (f.updated w i) nbits = f.sets S i := by
  ext j
  rw [mem_validBits]
  by_cases hj : j = i
  · subst hj
    rw [f.bitAt_updated_self (bitAt_eq_of_validBits hset hi), decide_eq_true_iff,
      and_iff_right hi]
  · rw [f.bitAt_updated w hj, f.mem_sets_of_ne hj, ← hset, mem_validBits]

/-- Folding a bitmap into another one. -/
theorem HoldsSets.fold (hA : HoldsSets h₀ h maps nbits A) {s : ℕ} (sz : ℕ) (hd : d ∈ maps)
    (hs : s ∈ maps) (hne : d ≠ s) (hsmall : nbits < 2 ^ 31) :
    ∃ v, bitmapFold (some d) (some s) sz nbits h = .ok (h.store d (bitsToLongs nbits) v) ∧
      validBits v nbits = (A s).image (· % sz) := by
  obtain ⟨w, hw, hset⟩ := hA.holds s hs
  obtain ⟨u, hu, -⟩ := hA.holds d hd
  obtain ⟨v, hv, hbits, -⟩ := bitmapFold_eq sz hu hw hne le_rfl le_rfl hsmall.le
  refine ⟨v, hv, Finset.ext fun j => ?_⟩
  rw [mem_validBits, Finset.mem_image, ← hset]
  have hle := le_mul_bitsToLongs nbits
  constructor
  · rintro ⟨hj, hbit⟩
    obtain ⟨i, hi, hset, hij⟩ := (hbits j (by omega)).mp hbit
    exact ⟨i, mem_validBits.mpr ⟨hi, hset⟩, hij⟩
  · rintro ⟨i, hmem, hij⟩
    obtain ⟨hi, hset⟩ := mem_validBits.mp hmem
    have hmod := Nat.mod_le i sz
    exact ⟨by omega, (hbits j (by omega)).mpr ⟨i, hi, hset, hij⟩⟩

/-- The rank of an element is the number of elements before it. -/
theorem bitRank_eq_card (hset : validBits w nbits = S) (hi : i ≤ nbits) :
    bitRank (bitAt w) i = (S.filter (· < i)).card := by
  unfold bitRank
  rw [Nat.count_eq_card_filter_range, ← hset]
  congr 1
  ext j
  rw [Finset.mem_filter, Finset.mem_range, Finset.mem_filter, mem_validBits]
  constructor
  · rintro ⟨hj, hbit⟩
    exact ⟨⟨by omega, hbit⟩, hj⟩
  · rintro ⟨⟨-, hbit⟩, hj⟩
    exact ⟨hj, hbit⟩

/-- A search is answered from the set. -/
theorem Search.run_sets (f : Search) (hw : h.Holds b (bitsToLongs nbits) w)
    (hset : validBits w nbits = S) :
    ∃ i, f.run (some b) nbits h = .ok i ∧ f.Meets (fun j => decide (j ∈ S)) nbits i := by
  obtain ⟨i, hrun, hi⟩ := f.exists_meets hw
  exact ⟨i, hrun, hi.congr fun j hj => bitAt_eq_of_validBits hset hj⟩

/-- So is `bitmap_ord_to_pos`. -/
theorem bitmapOrdToPos_sets (ord : ℕ) (hw : h.Holds b (bitsToLongs nbits) w)
    (hset : validBits w nbits = S) :
    ∃ i, bitmapOrdToPos (some b) ord nbits h = .ok i ∧
      IsSelect (fun j => decide (j ∈ S)) nbits ord i := by
  obtain ⟨i, hrun, hi⟩ := bitmapOrdToPos_select hw ord
  exact ⟨i, hrun, hi.congr fun j hj => bitAt_eq_of_validBits hset hj⟩

/-- **One call.** It returns what the sets say, and leaves the sets they say. -/
theorem HoldsSets.step (hA : HoldsSets h₀ h maps nbits A) (hpos : 0 < nbits)
    (hbits : nbits < 2 ^ 31) {call : BitmapCall} (hvalid : call.Valid maps nbits) :
    ∃ r h', bitmapStep nbits h call = .ok (r, h') ∧ call.Answers nbits A r ∧
      HoldsSets h₀ h' maps nbits (call.after nbits A) := by
  -- a call that only writes, and one that only reads
  have hwrite {x : Except Fault Mem} {h' : Mem} (hx : x = .ok h') :
      (do return ((none : Option ℤ), ← x)) = Except.ok (none, h') := by
    rw [hx]
    rfl
  have hread {α : Type} {x : Except Fault α} {a : α} (f : α → ℤ) (hx : x = .ok a) :
      (do return (some (f (← x)), h)) = Except.ok (some (f a), h) := by
    rw [hx]
    rfl
  have hk {i : ℕ} (hi : i < nbits) : i / 64 < bitsToLongs nbits :=
    lt_bitsToLongs_iff.mpr (by omega)
  cases call with
  | op constant f dst src1 src2 shift =>
    obtain ⟨hdst, h₁, h₂, hshift, hword⟩ := hvalid
    -- the contents of every bitmap of the program
    choose! c hc using hA.holds
    obtain ⟨o, hrun, ho⟩ := f.run_sets constant (hc dst hdst).1 (hc src1 h₁).1 (hc src2 h₂).1 hpos
      hbits hshift hword
    rw [(hc src1 h₁).2, (hc src2 h₂).2] at hrun ho
    refine ⟨_, written h dst (bitsToLongs nbits) o, ?_, rfl, ?_⟩
    · simp only [bitmapStep, hrun, Except.ok_bind, Except.pure_eq]
    · simp only [BitmapCall.after, BitmapCall.writes, ← ho]
      cases o with
      | none => exact hA
      | some v => exact hA.store hdst rfl
  | fill constant dst =>
    obtain ⟨w, hw, -⟩ := hA.holds dst hvalid
    have hrun := bitmapFill_eq constant hw le_rfl hpos (by omega)
    refine ⟨_, _, hwrite hrun, rfl, ?_⟩
    rw [Heap.store_congr fun k hk => if_pos hk]
    refine hA.store hvalid (Finset.ext fun i => ?_)
    rw [mem_validBits, bitAt_filled, decide_eq_true_iff, and_self, Finset.mem_range]
  | fold dst orig sz =>
    obtain ⟨hdst, horig, -⟩ := hvalid
    by_cases hne : dst = orig
    · have hrun : bitmapFold (some dst) (some orig) sz nbits h = .ok h :=
        if_pos (congrArg some hne)
      refine ⟨_, _, hwrite hrun, rfl, ?_⟩
      simp only [BitmapCall.after, BitmapCall.writes, if_pos hne]
      exact hA
    · obtain ⟨v, hrun, hv⟩ := hA.fold sz hdst horig hne hbits
      refine ⟨_, _, hwrite hrun, rfl, ?_⟩
      simp only [BitmapCall.after, BitmapCall.writes, if_neg hne]
      exact hA.store hdst hv
  | set map start len =>
    obtain ⟨hmap, hin⟩ := hvalid
    obtain ⟨w, hw, hset⟩ := hA.holds map hmap
    have hrun : bitmapSet (some map) start len h = _ :=
      bitmapRange_store _ (fun _ => BitVec.or_zero) hw hin hbits
    refine ⟨_, _, hwrite hrun, rfl, ?_⟩
    exact hA.store hmap (validBits_setRange hin hset)
  | clear map start len =>
    obtain ⟨hmap, hin⟩ := hvalid
    obtain ⟨w, hw, hset⟩ := hA.holds map hmap
    have hrun : bitmapClear (some map) start len h = _ :=
      bitmapRange_store _ (fun _ => BitVec.and_allOnes) hw hin hbits
    refine ⟨_, _, hwrite hrun, rfl, ?_⟩
    exact hA.store hmap (validBits_clearRange hset)
  | updateBit f bit addr =>
    obtain ⟨haddr, hbit⟩ := hvalid
    obtain ⟨w, hw, hset⟩ := hA.holds addr haddr
    have hrun := f.plain_eq hw (hk hbit) fun _ => hbit.trans hbits
    refine ⟨_, _, hwrite hrun, rfl, ?_⟩
    exact hA.store haddr (validBits_updated f hbit hset)
  | testBit bit addr =>
    obtain ⟨haddr, hbit⟩ := hvalid
    obtain ⟨w, hw, hset⟩ := hA.holds addr haddr
    have hrun := testBit_eq hw (hk hbit)
    rw [bitAt_eq_of_validBits hset hbit] at hrun
    refine ⟨_, h, hread (fun bit : Bool => (bit.toNat : ℤ)) hrun, ?_, hA⟩
    change some ((decide (bit ∈ A addr)).toNat : ℤ) = some (if bit ∈ A addr then 1 else 0)
    by_cases hmem : bit ∈ A addr
    · rw [if_pos hmem, decide_eq_true hmem]
      rfl
    · rw [if_neg hmem, decide_eq_false hmem]
      rfl
  | search f addr =>
    obtain ⟨w, hw, hset⟩ := hA.holds addr hvalid
    obtain ⟨i, hrun, hi⟩ := f.run_sets hw hset
    exact ⟨_, h, hread (fun i : ℕ => (i : ℤ)) hrun, ⟨i, hi, rfl⟩, hA⟩
  | posToOrd buf pos =>
    obtain ⟨w, hw, hset⟩ := hA.holds buf hvalid
    by_cases hpos' : pos < nbits
    · have hrun := bitmapPosToOrd_eq hw hpos'
      rw [bitAt_eq_of_validBits hset hpos', bitRank_eq_card hset hpos'.le] at hrun
      refine ⟨_, h, hread id hrun, ?_, hA⟩
      simp only [BitmapCall.Answers, decide_eq_true_iff, id]
    · -- beyond the size there is no element
      have hmem : pos ∉ A buf := fun hmem => hpos' (mem_validBits.mp (hset ▸ hmem)).1
      have hrun := bitmapPosToOrd_of_ge (h := h) (b := buf) (Nat.not_lt.mp hpos')
      exact ⟨_, h, hread id hrun, by rw [BitmapCall.Answers, if_neg hmem, id], hA⟩
  | ordToPos buf ord =>
    obtain ⟨w, hw, hset⟩ := hA.holds buf hvalid
    obtain ⟨i, hrun, hi⟩ := bitmapOrdToPos_sets ord hw hset
    exact ⟨_, h, hread (fun i : ℕ => (i : ℤ)) hrun, ⟨i, hi, rfl⟩, hA⟩

/-! ### Programs -/

/-- **A program over bitmaps is a program over sets.** Whatever the bitmaps hold at first, and
whichever sizes the compiler knows, every program returns what the same program over their sets of
valid bits returns, and leaves bitmaps of the sets that one leaves. No other memory changes. -/
theorem bitmap_runs_refine (hA : ∀ b ∈ maps, ∃ w, h₀.Holds b (bitsToLongs nbits) w ∧
      validBits w nbits = A b) (hpos : 0 < nbits) (hbits : nbits < 2 ^ 31)
    {calls : List BitmapCall} (hvalid : ∀ call ∈ calls, call.Valid maps nbits) :
    ∃ trace h A', trace.map Prod.fst = calls ∧
      exec (bitmapStep nbits) h₀ calls = .ok (trace.map Prod.snd, h) ∧
      Run (SetsMove nbits) A trace A' ∧ HoldsSets h₀ h maps nbits A' := by
  refine exec_refines (R := fun h A => HoldsSets h₀ h maps nbits A) calls
    ⟨hA, fun _ _ _ => rfl⟩ fun h A call hcall hA => ?_
  obtain ⟨r, h', hstep, hr, hA'⟩ := hA.step hpos hbits (hvalid call hcall)
  exact ⟨r, h', _, hstep, .call hr, hA'⟩

end

/-- Two bitmaps of 70 bits with rubbish in them: a program that writes the one from the other, with
and without a known size, and onto itself. -/
theorem bitmap_runs_refine_seventy :
    let h₀ : Mem := (Heap.ofBlock 2 fun _ => 5).store 1 2 fun _ => 9
    ∃ trace h A', trace.map Prod.fst =
        [.fill false 0, .clear 0 3 60, .op true .complement 1 0 0 0, .op false .weight 1 1 1 0,
          .op false .shiftLeft 1 1 1 8, .search .last 1] ∧
      exec (bitmapStep 70) h₀ [.fill false 0, .clear 0 3 60, .op true .complement 1 0 0 0,
          .op false .weight 1 1 1 0, .op false .shiftLeft 1 1 1 8, .search .last 1] =
        .ok (trace.map Prod.snd, h) ∧
      Run (SetsMove 70) (fun b => validBits (if b = 0 then fun _ => 5 else fun _ => 9) 70) trace
        A' ∧ HoldsSets h₀ h {0, 1} 70 A' := by
  intro h₀
  have hzero : h₀.Holds 0 2 fun _ => 5 :=
    (Heap.holds_store_of_ne (by decide)).mpr (Heap.holds_ofBlock 2 _)
  have hone : h₀.Holds 1 2 fun _ => 9 := Heap.holds_store
  have h₀mem : (0 : ℕ) ∈ ({0, 1} : Set ℕ) := Or.inl rfl
  have h₁mem : (1 : ℕ) ∈ ({0, 1} : Set ℕ) := Or.inr rfl
  refine bitmap_runs_refine (fun b hb => ?_) (by decide) (by decide)
    fun call hcall => ?_
  · rcases hb with rfl | rfl
    · exact ⟨_, hzero, rfl⟩
    · exact ⟨_, hone, rfl⟩
  · simp only [List.mem_cons, List.not_mem_nil, or_false] at hcall
    rcases hcall with rfl | rfl | rfl | rfl | rfl | rfl
    · exact h₀mem
    · exact ⟨h₀mem, by decide⟩
    · exact ⟨h₁mem, h₀mem, h₀mem, by decide, fun _ => by decide⟩
    · exact ⟨h₁mem, h₁mem, h₁mem, by decide, fun _ => by decide⟩
    · exact ⟨h₁mem, h₁mem, h₁mem, by decide, fun _ => by decide⟩
    · exact h₁mem

/-! ### What the compiler knows -/

namespace BitmapCall

/-- The call, when the compiler does not know the size. -/
def general : BitmapCall → BitmapCall
  | op _ f dst src1 src2 shift => op false f dst src1 src2 shift
  | fill _ dst => fill false dst
  | call => call

variable {nbits : ℕ} {A : ℕ → Finset ℕ} {r r' : Option ℤ}

theorem writes_general (call : BitmapCall) : call.general.writes nbits A = call.writes nbits A := by
  cases call <;> rfl

theorem after_general (call : BitmapCall) : call.general.after nbits A = call.after nbits A := by
  rw [after, writes_general, after]

theorem answers_general (call : BitmapCall) :
    call.general.Answers nbits A r ↔ call.Answers nbits A r := by
  cases call <;> exact Iff.rfl

/-- There is one answer to a call. -/
theorem Answers.unique {call : BitmapCall} (hr : call.Answers nbits A r)
    (hr' : call.Answers nbits A r') : r = r' := by
  cases call with
  | op | fill | fold | set | clear | updateBit | testBit | posToOrd => exact hr.trans hr'.symm
  | search f addr =>
    obtain ⟨i, hi, rfl⟩ := hr
    obtain ⟨i', hi', rfl⟩ := hr'
    rw [hi.unique hi' fun _ _ => rfl]
  | ordToPos buf ord =>
    obtain ⟨i, hi, rfl⟩ := hr
    obtain ⟨i', hi', rfl⟩ := hr'
    rw [hi.unique hi']

end BitmapCall

section

variable {h₀ h₀' : Mem} {maps : Set ℕ} {nbits : ℕ} {A A₁ A₂ : ℕ → Finset ℕ}

/-- Programs over sets that differ in what the compiler knows have one result. -/
theorem setsRun_unique {trace trace' : List (BitmapCall × Option ℤ)}
    (hrun : Run (SetsMove nbits) A trace A₁) (hrun' : Run (SetsMove nbits) A trace' A₂)
    (hcalls : trace.map (fun p => p.1.general) = trace'.map fun p => p.1.general) :
    trace.map Prod.snd = trace'.map Prod.snd ∧ A₁ = A₂ := by
  induction hrun generalizing trace' A₂ with
  | nil =>
    obtain rfl := List.map_eq_nil_iff.mp hcalls.symm
    exact ⟨rfl, hrun'.eq_of_nil.symm⟩
  | @snoc trace B B' p _ hmove ih =>
    rcases List.eq_nil_or_concat' trace' with rfl | ⟨trace', p', rfl⟩
    · exact absurd (List.map_eq_nil_iff.mp hcalls) (List.append_ne_nil_of_right_ne_nil _ (by simp))
    · obtain ⟨B₁, hrun', hmove'⟩ := hrun'.of_snoc
      rw [List.map_append, List.map_append] at hcalls
      obtain ⟨hcalls, hlast⟩ := List.append_inj' hcalls rfl
      obtain ⟨hrs, rfl⟩ := ih hrun' hcalls
      cases hmove with
      | @call call r hr =>
      cases hmove' with
      | @call call' r' hr' =>
        -- the last calls differ in what the compiler knows, and in nothing else
        have hsame : call.general = call'.general := (List.cons.inj hlast).1
        have hans : r = r' := by
          rw [← BitmapCall.answers_general, hsame, BitmapCall.answers_general] at hr
          exact hr.unique hr'
        refine ⟨?_, ?_⟩
        · rw [List.map_append, List.map_append, hrs]
          exact congrArg _ (congrArg (fun r => [r]) hans)
        · rw [← call.after_general, hsame, call'.after_general]

/-- **What the compiler knows is not observable**, nor is what the unused bits hold: two programs
that differ in nothing else, on bitmaps of the same sets, return the same and leave the same
sets. -/
theorem bitmap_runs_agree
    (hA : ∀ b ∈ maps, ∃ w, h₀.Holds b (bitsToLongs nbits) w ∧ validBits w nbits = A b)
    (hA' : ∀ b ∈ maps, ∃ w, h₀'.Holds b (bitsToLongs nbits) w ∧ validBits w nbits = A b)
    (hpos : 0 < nbits) (hbits : nbits < 2 ^ 31) {calls calls' : List BitmapCall}
    (hvalid : ∀ call ∈ calls, call.Valid maps nbits)
    (hvalid' : ∀ call ∈ calls', call.Valid maps nbits)
    (hcalls : calls.map BitmapCall.general = calls'.map BitmapCall.general) :
    ∃ rs h h' A', exec (bitmapStep nbits) h₀ calls = .ok (rs, h) ∧
      exec (bitmapStep nbits) h₀' calls' = .ok (rs, h') ∧
      HoldsSets h₀ h maps nbits A' ∧ HoldsSets h₀' h' maps nbits A' := by
  obtain ⟨trace, h, A₁, rfl, hexec, hrun, hA₁⟩ := bitmap_runs_refine hA hpos hbits hvalid
  obtain ⟨trace', h', A₂, rfl, hexec', hrun', hA₂⟩ := bitmap_runs_refine hA' hpos hbits hvalid'
  rw [List.map_map, List.map_map] at hcalls
  obtain ⟨hrs, rfl⟩ := setsRun_unique hrun hrun' hcalls
  exact ⟨_, h, h', A₁, hexec, by rw [hexec', hrs], hA₁, hA₂⟩

end

end Vlstp
