import Vlstp.Bitops

/-!
# Read-modify-write bit operations (`bitops.h`)

`test_and_set_bit`, `test_and_clear_bit` and `test_and_change_bit` are meant to do what `set_bit`,
`clear_bit` and `change_bit` do and to return what `test_bit` would have returned before. They keep
the word they read in `res`, an `unsigned int`, which holds only its lower half: what is tested is
that half, and what is written back is the word with its upper half cleared. They take the number
of the bit as an `unsigned int`, as all of these functions do but `set_bit`, which takes an `int`.

So each of the three agrees with its plain counterpart exactly when the upper half of the word of
the bit is clear and `set_bit`, if that is the counterpart, can name the bit (`testAnd_agrees_iff`).
One argument serves all three: it asks of the operation only that it leaves alone the bits the mask
does not name.
-/

namespace Vlstp

/-- `change_bit`. -/
def changeBit (bit : ℕ) (addr : Ptr) (h : Mem) : Except Fault Mem := do
  let p ← h.read addr (bitWord bit)
  h.write addr (bitWord bit) (p ^^^ bitMask bit)

/-- `unsigned int`. -/
abbrev UInt := BitVec 32

/-- The common body of the `test_and` functions, which differ in how they combine `res` and the
mask. `res` is an `unsigned int`, widened again where it meets the mask. -/
def testAndBit (combine : Word → Word → Word) (bit : ℕ) (addr : Ptr) (h : Mem) :
    Except Fault (Bool × Mem) := do
  let mask := bitMask bit
  let res : UInt := (← h.read addr (bitWord bit)).setWidth 32
  let h ← h.write addr (bitWord bit) (combine (res.setWidth 64) mask)
  return (res.setWidth 64 &&& mask != 0, h)

/-- `test_and_set_bit`. -/
def testAndSetBit : ℕ → Ptr → Mem → Except Fault (Bool × Mem) :=
  testAndBit fun res mask => res ||| mask

/-- `test_and_clear_bit`. -/
def testAndClearBit : ℕ → Ptr → Mem → Except Fault (Bool × Mem) :=
  testAndBit fun res mask => res &&& ~~~mask

/-- `test_and_change_bit`. -/
def testAndChangeBit : ℕ → Ptr → Mem → Except Fault (Bool × Mem) :=
  testAndBit fun res mask => res ^^^ mask

/-! ### One bit updated -/

/-- The three ways to update one bit. -/
inductive BitUpdate
  | set
  | clear
  | change
  deriving DecidableEq, Repr

namespace BitUpdate

/-- The word with the bits of the mask updated. -/
def combine : BitUpdate → Word → Word → Word
  | set => fun x mask => x ||| mask
  | clear => fun x mask => x &&& ~~~mask
  | change => fun x mask => x ^^^ mask

/-- The plain operation. -/
def plain : BitUpdate → ℕ → Ptr → Mem → Except Fault Mem
  | set => setBit
  | clear => clearBit
  | change => changeBit

/-- The read-modify-write operation. -/
def testAnd : BitUpdate → ℕ → Ptr → Mem → Except Fault (Bool × Mem)
  | set => testAndSetBit
  | clear => testAndClearBit
  | change => testAndChangeBit

theorem testAnd_eq_testAndBit (op : BitUpdate) : op.testAnd = testAndBit op.combine := by
  cases op <;> rfl

/-- A bit the mask does not name is left alone. -/
theorem getLsbD_combine (op : BitUpdate) (x : Word) {mask : Word} {j : ℕ} (hj : j < 64)
    (hmask : mask.getLsbD j = false) : (op.combine x mask).getLsbD j = x.getLsbD j := by
  cases op with
  | set =>
    show (x ||| mask).getLsbD j = _
    rw [BitVec.getLsbD_or, hmask, Bool.or_false]
  | clear =>
    show (x &&& ~~~mask).getLsbD j = _
    rw [BitVec.getLsbD_and, BitVec.getLsbD_not, hmask]
    simp [hj]
  | change =>
    show (x ^^^ mask).getLsbD j = _
    rw [BitVec.getLsbD_xor, hmask, Bool.xor_false]

section

variable {h : Mem} {b n i : ℕ} {w : ℕ → Word}

/-- The words after bit `i` has been updated. -/
def updated (op : BitUpdate) (w : ℕ → Word) (i : ℕ) : ℕ → Word :=
  Function.update w (i / 64) (op.combine (w (i / 64)) (1#64 <<< (i % 64)))

/-- The plain operation can name bit `i`. -/
def Names (op : BitUpdate) (i : ℕ) : Prop := op = .set → i < 2 ^ 31

theorem plain_eq (op : BitUpdate) (hh : h.Holds b n w) (hi : i / 64 < n) (hname : op.Names i) :
    op.plain i (some b) h = .ok (h.store b n (op.updated w i)) := by
  cases op with
  | set => exact setBit_eq hh (hname rfl) hi
  | clear => exact clearBit_eq hh hi
  | change =>
    show changeBit i (some b) h = _
    simp only [changeBit, bitWord, bitMask, hh.read hi, hh.write hi, Except.ok_bind]
    rfl

/-- A bit the plain operation cannot name is not updated by it. -/
theorem names_of_plain (op : BitUpdate) {p : Ptr} {h' : Mem} (hbit : i < 2 ^ 32)
    (hplain : op.plain i p h = .ok h') : op.Names i := by
  rintro rfl
  by_contra hge
  have hout : setBit i p h = .error .beforeArray := setBit_of_ge (Nat.not_lt.mp hge) hbit p h
  exact nomatch hout.symm.trans hplain

/-- No bit but the one named changes. -/
theorem bitAt_updated (op : BitUpdate) (w : ℕ → Word) {j : ℕ} (hne : j ≠ i) :
    bitAt (op.updated w i) j = bitAt w j := by
  by_cases hword : j / 64 = i / 64
  · have hj := Nat.mod_lt j (by decide : 0 < 64)
    have hmask : (1#64 <<< (i % 64)).getLsbD (j % 64) = false := by
      rw [getLsbD_one_shiftLeft hj]
      exact decide_eq_false fun heq => hne ((mod_eq_mod_iff hword).mp heq)
    unfold updated bitAt
    rw [hword, Function.update_self, op.getLsbD_combine _ hj hmask]
  · exact bitAt_update_of_ne hword

/-- A word as it comes back from an `unsigned int`. -/
def throughUInt (x : Word) : Word := (x.setWidth 32 : UInt).setWidth 64

theorem throughUInt_eq_iff (x : Word) : throughUInt x = x ↔ x.toNat < 2 ^ 32 := by
  rw [← BitVec.toNat_inj, throughUInt, BitVec.toNat_setWidth, BitVec.toNat_setWidth]
  omega

/-- What a `test_and` function returns and writes: both come from the word as an `unsigned int`
holds it. -/
theorem testAnd_eq (op : BitUpdate) (hh : h.Holds b n w) (hi : i / 64 < n) :
    op.testAnd i (some b) h =
      .ok ((throughUInt (w (i / 64))).getLsbD (i % 64),
        h.store b n (Function.update w (i / 64)
          (op.combine (throughUInt (w (i / 64))) (1#64 <<< (i % 64))))) := by
  have hiff := and_bit_ne_zero_iff (by decide : 0 < 64) (fun k => throughUInt (w k)) i
  rw [testAnd_eq_testAndBit]
  simp only [testAndBit, bitWord, bitMask, hh.read hi, hh.write hi, Except.ok_bind, Except.pure_eq]
  congr 2
  cases hb : (throughUInt (w (i / 64))).getLsbD (i % 64) with
  | true => exact bne_iff_ne.mpr (hiff.mpr hb)
  | false =>
    have hz : throughUInt (w (i / 64)) &&& 1#64 <<< (i % 64) = 0 := by simpa [bitAt, hb] using hiff
    exact bne_eq_false_iff_eq.mpr hz

/-! ### Agreement -/

/-- The read-modify-write operation agrees with the plain one on bit `i`: it returns what `test_bit`
would have returned, and leaves the memory as the plain operation would, which changes no other bit
of the bitmap and nothing outside it. -/
def Agrees (op : BitUpdate) (i : ℕ) (h : Mem) (b n : ℕ) (w : ℕ → Word) : Prop :=
  ∃ r w', testBit i (some b) h = .ok r ∧ op.plain i (some b) h = .ok (h.store b n w') ∧
    (∀ j, j ≠ i → bitAt w' j = bitAt w j) ∧
    op.testAnd i (some b) h = .ok (r, h.store b n w')

/-- Agreement on a bit that can be named is that its word survives the `unsigned int`. -/
theorem agrees_iff_throughUInt (op : BitUpdate) (hh : h.Holds b n w) (hi : i / 64 < n)
    (hname : op.Names i) :
    op.Agrees i h b n w ↔ throughUInt (w (i / 64)) = w (i / 64) := by
  constructor
  · intro hagree
    obtain ⟨r, w', htest, hplain, -, hrmw⟩ := hagree
    rw [testBit_eq hh hi] at htest
    rw [op.plain_eq hh hi hname] at hplain
    rw [op.testAnd_eq hh hi, ← Except.ok.inj htest, ← Except.ok.inj hplain] at hrmw
    obtain ⟨hres, hheap⟩ := Prod.mk.inj (Except.ok.inj hrmw)
    apply BitVec.eq_of_getLsbD_eq
    intro j hj
    by_cases hji : j = i % 64
    · -- the bit named: the value returned is that bit
      rw [hji]
      exact hres
    · -- any other bit: the operation has left it alone on both sides
      have hword := Heap.eq_of_store_eq hheap hi
      have hmask : (1#64 <<< (i % 64)).getLsbD j = false := by
        rw [getLsbD_one_shiftLeft hj]
        exact decide_eq_false hji
      unfold updated at hword
      rw [Function.update_self, Function.update_self] at hword
      calc (throughUInt (w (i / 64))).getLsbD j
          = (op.combine (throughUInt (w (i / 64))) (1#64 <<< (i % 64))).getLsbD j :=
            (op.getLsbD_combine _ hj hmask).symm
        _ = (op.combine (w (i / 64)) (1#64 <<< (i % 64))).getLsbD j := by rw [hword]
        _ = (w (i / 64)).getLsbD j := op.getLsbD_combine _ hj hmask
  · intro hword
    refine ⟨bitAt w i, op.updated w i, testBit_eq hh hi, op.plain_eq hh hi hname, ?_, ?_⟩
    · exact fun j hne => op.bitAt_updated w hne
    · rw [op.testAnd_eq hh hi, hword]
      rfl

/-- **The `test_and` functions agree with the plain operations on words below `2 ^ 32` only**, and
with `set_bit` on bits below `2 ^ 31` only. On any other word the value returned or the word written
back is wrong, whichever bit is named, and on any other bit `set_bit` writes before the bitmap. Bit
numbers are of the type `unsigned int`. -/
theorem testAnd_agrees_iff (op : BitUpdate) (hh : h.Holds b n w) (hi : i / 64 < n)
    (hbit : i < 2 ^ 32) :
    op.Agrees i h b n w ↔ (w (i / 64)).toNat < 2 ^ 32 ∧ (op = .set → i < 2 ^ 31) := by
  constructor
  · intro hagree
    obtain ⟨_, _, -, hplain, -, -⟩ := id hagree
    have hname : op.Names i := op.names_of_plain hbit hplain
    have hword := (agrees_iff_throughUInt op hh hi hname).mp hagree
    exact ⟨(throughUInt_eq_iff _).mp hword, hname⟩
  · rintro ⟨hword, hname⟩
    exact (agrees_iff_throughUInt op hh hi hname).mpr ((throughUInt_eq_iff _).mpr hword)

end

theorem testAnd_agrees_five :
    BitUpdate.Agrees .set 3 (Heap.ofBlock 1 fun _ => 5) 0 1 (fun _ => 5) ↔
      (5#64).toNat < 2 ^ 32 ∧ (BitUpdate.set = .set → 3 < 2 ^ 31) :=
  testAnd_agrees_iff .set (Heap.holds_ofBlock 1 _) (by decide) (by decide)

/-- Setting bit 0 of a word whose bit 32 is set clears bit 32. -/
theorem testAndSetBit_drops_high_half :
    ¬ ∀ (op : BitUpdate) (h : Mem) (b n i : ℕ) (w : ℕ → Word), h.Holds b n w → i / 64 < n →
      i < 2 ^ 32 → op.Agrees i h b n w := by
  intro hall
  have hholds := Heap.holds_ofBlock 1 fun _ => (0x100000000 : Word)
  have hagree := hall .set _ 0 1 0 _ hholds (by decide) (by decide)
  rw [agrees_iff_throughUInt .set hholds (by decide) fun _ => by decide] at hagree
  exact absurd hagree (by decide)

end BitUpdate

end Vlstp
