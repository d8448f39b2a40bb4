import Vlstp.Bitmap.Loops

/-!
# The unused bits of a bitmap

The header of `bitmap.c` states a rule on the bits of the last word that lie at or above the size:
an operation given bitmaps with none of them set outputs none of them set. This module decides the
rule for the seven operations of the file that write a bitmap.

`__bitmap_and` and `__bitmap_andnot` mask the last word, `__bitmap_or` and `__bitmap_xor` combine
clear bits to clear bits, and `__bitmap_shift_right` masks what it reads and moves it down. The
other two mask nothing. `__bitmap_complement` sets every unused bit there is, and
`__bitmap_shift_left` moves set bits up into them. `outputClear_iff` gives the exact condition for
each operation.
-/

namespace Vlstp

/-- None of the unused bits is set: those at or above the size in its last word. -/
def UnusedClear (w : ℕ → Word) (nbits : ℕ) : Prop :=
  ∀ i, nbits ≤ i → i < 64 * bitsToLongs nbits → bitAt w i = false

/-- A call of one of the operations of `bitmap.c` that write a bitmap, with the blocks of the
bitmaps it reads. -/
inductive BitmapWrite
  | complement (src : ℕ)
  | shiftRight (src shift : ℕ)
  | shiftLeft (src shift : ℕ)
  | and (bitmap1 bitmap2 : ℕ)
  | or (bitmap1 bitmap2 : ℕ)
  | xor (bitmap1 bitmap2 : ℕ)
  | andnot (bitmap1 bitmap2 : ℕ)
  deriving DecidableEq, Repr

namespace BitmapWrite

/-- The memory after the call. -/
def run (dst : Ptr) (nbits : ℕ) (h : Mem) : BitmapWrite → Except Fault Mem
  | complement src => _bitmapComplement dst (some src) nbits h
  | shiftRight src shift => _bitmapShiftRight dst (some src) shift nbits h
  | shiftLeft src shift => _bitmapShiftLeft dst (some src) shift nbits h
  | and bitmap1 bitmap2 => do return (← _bitmapAnd dst (some bitmap1) (some bitmap2) nbits h).2
  | or bitmap1 bitmap2 => _bitmapOr dst (some bitmap1) (some bitmap2) nbits h
  | xor bitmap1 bitmap2 => _bitmapXor dst (some bitmap1) (some bitmap2) nbits h
  | andnot bitmap1 bitmap2 => do
    return (← _bitmapAndnot dst (some bitmap1) (some bitmap2) nbits h).2

/-- The blocks of the input bitmaps. -/
def inputs : BitmapWrite → List ℕ
  | complement src | shiftRight src _ | shiftLeft src _ => [src]
  | and bitmap1 bitmap2 | or bitmap1 bitmap2 | xor bitmap1 bitmap2 | andnot bitmap1 bitmap2 =>
    [bitmap1, bitmap2]

/-- How far a shift shifts; the other operations do not. -/
def shift : BitmapWrite → ℕ
  | shiftRight _ shift | shiftLeft _ shift => shift
  | _ => 0

/-- The words the call writes, where block `b` reads as `c b`. -/
def output (c : ℕ → ℕ → Word) (nbits : ℕ) : BitmapWrite → ℕ → Word
  | complement src => fun k => ~~~c src k
  | shiftRight src shift => shiftedRight (c src) shift nbits
  | shiftLeft src shift => shiftedLeft (c src) shift
  | and bitmap1 bitmap2 => trimmed (fun k => c bitmap1 k &&& c bitmap2 k) nbits
  | or bitmap1 bitmap2 => fun k => c bitmap1 k ||| c bitmap2 k
  | xor bitmap1 bitmap2 => fun k => c bitmap1 k ^^^ c bitmap2 k
  | andnot bitmap1 bitmap2 => trimmed (fun k => c bitmap1 k &&& ~~~c bitmap2 k) nbits

section

variable {h : Mem} {c : ℕ → ℕ → Word} {d nbits : ℕ} {w : ℕ → Word}

theorem run_eq (op : BitmapWrite) (hd : h.Holds d (bitsToLongs nbits) w)
    (hin : ∀ b ∈ op.inputs, h.Holds b (bitsToLongs nbits) (c b)) (hshift : op.shift ≤ nbits)
    (hbits : nbits < 2 ^ 32) :
    op.run (some d) nbits h = .ok (h.store d (bitsToLongs nbits) (op.output c nbits)) := by
  have hle := Nat.le_refl (bitsToLongs nbits)
  rw [← Heap.rewritten_all (w := w)]
  cases op with
  | complement src =>
    exact _bitmapComplement_eq hd (hin src (by simp [inputs])) hle hle
  | shiftRight src shift =>
    exact _bitmapShiftRight_eq hd (hin src (by simp [inputs])) hle hle hshift hbits
  | shiftLeft src shift =>
    exact _bitmapShiftLeft_eq hd (hin src (by simp [inputs])) hle hle hshift
  | and bitmap1 bitmap2 =>
    have heq := bitmapMasked_eq hd (hin bitmap1 (by simp [inputs])) (hin bitmap2 (by simp [inputs]))
      (fun x y => x &&& y) hle hle hle
    rw [run, _bitmapAnd, heq]
    rfl
  | or bitmap1 bitmap2 =>
    exact bitmapUnmasked_eq hd (hin bitmap1 (by simp [inputs])) (hin bitmap2 (by simp [inputs]))
      (fun x y => x ||| y) hle hle hle
  | xor bitmap1 bitmap2 =>
    exact bitmapUnmasked_eq hd (hin bitmap1 (by simp [inputs])) (hin bitmap2 (by simp [inputs]))
      (fun x y => x ^^^ y) hle hle hle
  | andnot bitmap1 bitmap2 =>
    have heq := bitmapMasked_eq hd (hin bitmap1 (by simp [inputs])) (hin bitmap2 (by simp [inputs]))
      (fun x y => x &&& ~~~y) hle hle hle
    rw [run, _bitmapAndnot, heq]
    rfl

/-! ### The rule -/

/-- The call returns, and the bitmap it has written has no unused bit set. -/
def OutputClear (op : BitmapWrite) (d nbits : ℕ) (h : Mem) : Prop :=
  ∃ h' w', op.run (some d) nbits h = .ok h' ∧ h'.Holds d (bitsToLongs nbits) w' ∧
    UnusedClear w' nbits

/-- When the rule holds of a call: a complement has no unused bits to set, a left shift moves no set
bit into them. -/
def StaysClear (c : ℕ → ℕ → Word) (nbits : ℕ) : BitmapWrite → Prop
  | complement _ => 64 ∣ nbits
  | shiftLeft src shift =>
    ∀ i, i < nbits → nbits ≤ i + shift → i + shift < 64 * bitsToLongs nbits →
      bitAt (c src) i = false
  | _ => True

/-- Unused bits are told from the words of the bitmap alone. -/
theorem outputClear_iff_of_run {op : BitmapWrite} {v : ℕ → Word}
    (hrun : op.run (some d) nbits h = .ok (h.store d (bitsToLongs nbits) v)) :
    op.OutputClear d nbits h ↔ UnusedClear v nbits := by
  constructor
  · rintro ⟨h', w', hrun', hholds, hclear⟩ i hi hi'
    obtain rfl := Except.ok.inj (hrun.symm.trans hrun')
    have hk : i / 64 < bitsToLongs nbits := by omega
    have hword : v (i / 64) = w' (i / 64) :=
      Option.some.inj ((Heap.holds_store _ hk).symm.trans (hholds _ hk))
    rw [bitAt, hword]
    exact hclear i hi hi'
  · exact fun hclear => ⟨_, v, hrun, Heap.holds_store, hclear⟩

theorem unusedClear_trimmed (v : ℕ → Word) (nbits : ℕ) : UnusedClear (trimmed v nbits) nbits := by
  intro i hi _
  have hge : ¬ i < nbits := by omega
  rw [bitAt_trimmed]
  simp [hge]

theorem unusedClear_shiftedRight (v : ℕ → Word) (shift nbits : ℕ) :
    UnusedClear (shiftedRight v shift nbits) nbits := by
  intro i hi _
  have hge : ¬ i + shift < nbits := by omega
  rw [bitAt_shiftedRight]
  simp [hge]

theorem unusedClear_complement {v : ℕ → Word} (hv : UnusedClear v nbits) :
    UnusedClear (fun k => ~~~v k) nbits ↔ 64 ∣ nbits := by
  constructor
  · -- the first unused bit would be set
    intro hclear
    by_contra hdvd
    have hlt : nbits < 64 * bitsToLongs nbits := by unfold bitsToLongs; omega
    have hset := hclear nbits (Nat.le_refl _) hlt
    have hbit := hv nbits (Nat.le_refl _) hlt
    unfold bitAt at hset hbit
    rw [BitVec.getLsbD_not, hbit] at hset
    simp [Nat.mod_lt] at hset
  · -- a size that fills its words has no unused bits
    intro hdvd i hi hi'
    unfold bitsToLongs at hi'
    omega

theorem unusedClear_shiftedLeft {v : ℕ → Word} (hv : UnusedClear v nbits) (shift : ℕ) :
    UnusedClear (shiftedLeft v shift) nbits ↔
      ∀ i, i < nbits → nbits ≤ i + shift → i + shift < 64 * bitsToLongs nbits →
        bitAt v i = false := by
  constructor
  · intro hclear i _ hi hi'
    have hbit := hclear (i + shift) hi hi'
    rw [bitAt_shiftedLeft, Nat.add_sub_cancel] at hbit
    simpa using hbit
  · intro hnone i hi hi'
    rw [bitAt_shiftedLeft]
    by_cases hle : shift ≤ i
    · -- the bit comes from `i - shift`, which is below the size or unused itself
      have hbit : bitAt v (i - shift) = false := by
        by_cases hlt : i - shift < nbits
        · exact hnone (i - shift) hlt (by omega) (by omega)
        · exact hv (i - shift) (by omega) (by omega)
      rw [hbit, Bool.and_false]
    · rw [decide_eq_false hle, Bool.false_and]

/-- **Which operations keep the unused bits clear.** Given bitmaps without unused bits set, an
operation outputs one exactly when `StaysClear` holds of the call: always for `and`, `or`, `xor`,
`andnot` and a right shift, for a complement when the size fills its words, and for a left shift
when no set bit moves into the unused ones. -/
theorem outputClear_iff (op : BitmapWrite) (hd : h.Holds d (bitsToLongs nbits) w)
    (hin : ∀ b ∈ op.inputs, h.Holds b (bitsToLongs nbits) (c b))
    (hclear : ∀ b ∈ op.inputs, UnusedClear (c b) nbits) (hshift : op.shift ≤ nbits)
    (hbits : nbits < 2 ^ 32) :
    op.OutputClear d nbits h ↔ op.StaysClear c nbits := by
  rw [outputClear_iff_of_run (op.run_eq hd hin hshift hbits)]
  cases op with
  | complement src => exact unusedClear_complement (hclear src (by simp [inputs]))
  | shiftRight src shift => exact iff_of_true (unusedClear_shiftedRight _ shift nbits) trivial
  | shiftLeft src shift => exact unusedClear_shiftedLeft (hclear src (by simp [inputs])) shift
  | and bitmap1 bitmap2 => exact iff_of_true (unusedClear_trimmed _ nbits) trivial
  | or bitmap1 bitmap2 =>
    refine iff_of_true (fun i hi hi' => ?_) trivial
    have h₁ := hclear bitmap1 (by simp [inputs]) i hi hi'
    have h₂ := hclear bitmap2 (by simp [inputs]) i hi hi'
    unfold bitAt at h₁ h₂
    simp only [output, bitAt, BitVec.getLsbD_or, h₁, h₂, Bool.or_false]
  | xor bitmap1 bitmap2 =>
    refine iff_of_true (fun i hi hi' => ?_) trivial
    have h₁ := hclear bitmap1 (by simp [inputs]) i hi hi'
    have h₂ := hclear bitmap2 (by simp [inputs]) i hi hi'
    unfold bitAt at h₁ h₂
    simp only [output, bitAt, BitVec.getLsbD_xor, h₁, h₂, Bool.xor_false]
  | andnot bitmap1 bitmap2 => exact iff_of_true (unusedClear_trimmed _ nbits) trivial

end

theorem outputClear_complement_whole_word :
    (complement 0).OutputClear 0 64 (Heap.ofBlock 1 fun _ => 5) ↔
      (complement 0).StaysClear (fun _ _ => 5) 64 :=
  outputClear_iff (complement 0) (w := fun _ => 5) (Heap.holds_ofBlock 1 _)
    (fun b hb => by rw [List.mem_singleton.mp hb]; exact Heap.holds_ofBlock 1 _)
    (fun _ _ i hi hi' => absurd hi' (Nat.not_lt.mpr hi)) (Nat.zero_le _) (by decide)

/-- The complement of an empty bitmap of one bit has all its unused bits set. -/
theorem complement_sets_unused_bits :
    ¬ ∀ (op : BitmapWrite) (h : Mem) (c : ℕ → ℕ → Word) (d nbits : ℕ) (w : ℕ → Word),
      1 ≤ nbits → nbits < 2 ^ 32 → op.shift ≤ nbits → h.Holds d (bitsToLongs nbits) w →
      (∀ b ∈ op.inputs, h.Holds b (bitsToLongs nbits) (c b)) →
      (∀ b ∈ op.inputs, UnusedClear (c b) nbits) → op.OutputClear d nbits h := by
  intro hall
  have hclear : UnusedClear (fun _ => 0) 1 := fun i _ _ => by simp [bitAt]
  have hin : ∀ b ∈ (complement 0).inputs,
      (Heap.ofBlock 1 fun _ => (0 : Word)).Holds b (bitsToLongs 1) fun _ => 0 := by
    intro b hb
    rw [List.mem_singleton.mp hb]
    exact Heap.holds_ofBlock 1 _
  have hout := hall (complement 0) _ (fun _ _ => 0) 0 1 _ (by decide) (by decide) (by decide)
    (Heap.holds_ofBlock 1 _) hin fun _ _ => hclear
  rw [outputClear_iff_of_run (run_eq (complement 0) (Heap.holds_ofBlock 1 _) hin (by decide)
    (by decide))] at hout
  exact absurd ((unusedClear_complement hclear).mp hout) (by decide)

end BitmapWrite

end Vlstp
