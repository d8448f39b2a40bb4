import Vlstp.Bitops.ForEach
import Vlstp.Bitmap

/-!
# Filling and folding (`bitmap_fill`, `bitmap_fold`)

`bitmap_fill` sets the bits of a map with a `memset` up to the last word, whose unused bits it
clears.

`bitmap_fold` folds a map into a smaller one, modulo `sz`: it clears the destination and then walks
along the set bits of the original. Bit `j` is set afterwards exactly if a set bit of the original
is `j` modulo `sz` (`bitmapFold_exact`), and folding twice, modulo a multiple of `sz` first, is
folding once (`bitmapFold_fold`). The bits it sets are named to `set_bit` by an `int`, so this is so
of maps of less than `2 ^ 31` bits. A map cannot be folded in place, and `bitmap_fold` does nothing
then.
-/

namespace Vlstp

/-! ### Filling -/

/-- `bitmap_fill`. The length of the `memset` is in bytes, in an `unsigned`. -/
def bitmapFill (constant : Bool) (dst : Ptr) (nbits : ℕ) (h : Mem) : Except Fault Mem := do
  let nlongs := bitsToLongs nbits
  let h ← (if ¬ smallConstNbits constant nbits then
      let len := subU32 nlongs 1 * 8 % 2 ^ 32
      h.fill dst 0 (len / 8) (BitVec.allOnes 64)
    else pure h)
  h.write dst (subU32 nlongs 1) (lastWordMask nbits)

/-! ### Folding -/

/-- `bitmap_fold`. The size is a variable here, so that `bitmap_zero` takes its general path. -/
def bitmapFold (dst orig : Ptr) (sz nbits : ℕ) (h : Mem) : Except Fault Mem :=
  if dst = orig then .ok h -- following doesn't handle inplace mappings
  else do
    let h ← bitmapZero false dst nbits h
    forEachSetBit id orig nbits (fun oldbit h => setBit (oldbit % sz) dst h) h

section

variable {h : Mem} {b d s n m nbits sz i j : ℕ} {w w' : ℕ → Word}

theorem bitAt_allOnes (i : ℕ) : bitAt (fun _ => BitVec.allOnes 64) i = true := by
  unfold bitAt
  rw [BitVec.getLsbD_allOnes]
  exact decide_eq_true (Nat.mod_lt i (by decide))

/-- The words `bitmap_fill` leaves. -/
def filled (nbits k : ℕ) : Word := trimmed (fun _ => BitVec.allOnes 64) nbits k

theorem bitAt_filled (nbits i : ℕ) : bitAt (filled nbits) i = decide (i < nbits) :=
  (bitAt_trimmed ..).trans (by rw [bitAt_allOnes, Bool.and_true])

/-- **`bitmap_fill`** sets the bits of a map that is not empty, and clears the unused ones of its
last word. Both paths come to the same. -/
theorem bitmapFill_eq (constant : Bool) (hh : h.Holds b n w) (hn : bitsToLongs nbits ≤ n)
    (hpos : 0 < nbits) (hbits : nbits < 2 ^ 32) :
    bitmapFill constant (some b) nbits h =
      .ok (h.store b n fun k => if k < bitsToLongs nbits then filled nbits k else w k) := by
  obtain ⟨last, hlast⟩ : ∃ last, bitsToLongs nbits = last + 1 :=
    Nat.exists_eq_add_one.mpr (lt_bitsToLongs_iff.mpr (by omega))
  have hsmall : last < 2 ^ 26 := by
    unfold bitsToLongs at hlast
    omega
  have hsub : subU32 (last + 1) 1 = last := subU32_eq (by omega) (by omega)
  have hlen : last * 8 % 2 ^ 32 / 8 = last := by omega
  -- the words before the last one are filled, if there are any
  have hbefore : (if ¬ smallConstNbits constant nbits then
        h.fill (some b) 0 (last * 8 % 2 ^ 32 / 8) (BitVec.allOnes 64) else pure h) =
      .ok (h.store b n fun k => if k < last then BitVec.allOnes 64 else w k) := by
    rw [hlen]
    by_cases hconst : smallConstNbits constant nbits = true
    · have hle : nbits ≤ 64 := by
        unfold smallConstNbits at hconst
        exact of_decide_eq_true (Bool.and_eq_true_iff.mp hconst).2
      obtain rfl : last = 0 := by
        unfold bitsToLongs at hlast
        omega
      rw [if_neg (not_not.mpr hconst), Except.pure_eq]
      refine congrArg _ (hh.store_self.symm.trans (Heap.store_congr fun k _ => ?_))
      exact (if_neg (Nat.not_lt_zero k)).symm
    · rw [if_pos hconst, hh.fill (by omega)]
      exact congrArg _ (Heap.store_congr fun k _ => if_congr (by omega) rfl rfl)
  simp only [bitmapFill, hlast, hsub]
  rw [hbefore, Except.ok_bind, Heap.write_store (by omega)]
  refine congrArg _ (Heap.store_congr fun k hk => ?_)
  unfold filled trimmed
  rw [hlast, Nat.add_sub_cancel]
  by_cases hk : k = last
  · rw [hk, Function.update_self, if_pos (Nat.lt_succ_self last), if_pos (Nat.lt_succ_self last),
      if_pos rfl, BitVec.allOnes_and]
  · rw [Function.update_of_ne hk]
    by_cases hlt : k < last
    · rw [if_pos hlt, if_pos (by omega), if_pos (by omega), if_neg hk]
    · rw [if_neg hlt, if_neg (by omega)]

/-- Setting the bits `f i`, one after the other. -/
theorem foldlM_setBit (hd : h.Holds d n w) (f : ℕ → ℕ) {l : List ℕ}
    (hl : ∀ i ∈ l, f i < 2 ^ 31 ∧ f i / 64 < n) :
    ∃ v, l.foldlM (fun h i => setBit (f i) (some d) h) h = .ok (h.store d n v) ∧
      ∀ j, bitAt v j = true ↔ bitAt w j = true ∨ ∃ i ∈ l, f i = j := by
  induction l generalizing h w with
  | nil => exact ⟨w, congrArg _ hd.store_self.symm, fun j => by simp⟩
  | cons i l ih =>
    obtain ⟨hlt, hi⟩ := hl i List.mem_cons_self
    obtain ⟨v, hv, hbits⟩ := ih Heap.holds_store fun j hj => hl j (List.mem_cons_of_mem i hj)
    refine ⟨v, ?_, fun j => ?_⟩
    · rw [List.foldlM_cons, setBit_eq hd hlt hi, Except.ok_bind, hv, Heap.store_store]
    · rw [hbits j, bitAt_set (by decide), Bool.or_eq_true, decide_eq_true_eq,
        List.exists_mem_cons_iff, eq_comm (a := j)]
      tauto

/-- A body that sets bits of another map leaves the one the loop walks along as it is. -/
theorem bitsAhead_setBit {h' : Mem} (hne : d ≠ s) (hahead : BitsAhead id s m nbits w i h)
    (hset : setBit j (some d) h = .ok h') : BitsAhead id s m nbits w (i + 1) h' := by
  obtain ⟨v, hv, hbits⟩ := hahead
  refine ⟨v, fun k hk => ?_, fun k hk => hbits k (Nat.le_of_succ_le hk)⟩
  rw [id, cell_of_setBit hset (Ne.symm hne)]
  exact hv k hk

/-- What folding the map `w` at `s` into the map `w'` of `n` words at `d` comes to. Nothing but the
destination changes, and of that nothing but the words of the map. -/
structure FoldsExactly (h : Mem) (d s n sz nbits : ℕ) (w w' : ℕ → Word) : Prop where
  in_place : bitmapFold (some s) (some s) sz nbits h = .ok h
  folded : ∃ v, bitmapFold (some d) (some s) sz nbits h = .ok (h.store d n v) ∧
    (∀ j, j < 64 * bitsToLongs nbits →
      (bitAt v j = true ↔ ∃ i < nbits, bitAt w i = true ∧ i % sz = j)) ∧
    (∀ j, j < 64 * bitsToLongs nbits → bitAt v j = true → j < sz) ∧
    ∀ j, 64 * bitsToLongs nbits ≤ j → bitAt v j = bitAt w' j

/-- `bitmap_fold` into another map. The bits it sets are below `nbits`, and as an `int` none of them
is negative if `nbits` is at most `2 ^ 31`. -/
theorem bitmapFold_eq (sz : ℕ) (hd : h.Holds d n w') (hs : h.Holds s m w) (hne : d ≠ s)
    (hn : bitsToLongs nbits ≤ n) (hm : bitsToLongs nbits ≤ m) (hbits : nbits ≤ 2 ^ 31) :
    ∃ v, bitmapFold (some d) (some s) sz nbits h = .ok (h.store d n v) ∧
      (∀ j, j < 64 * bitsToLongs nbits →
        (bitAt v j = true ↔ ∃ i < nbits, bitAt w i = true ∧ i % sz = j)) ∧
      ∀ j, 64 * bitsToLongs nbits ≤ j → bitAt v j = bitAt w' j := by
  set zeroed : ℕ → Word := fun k => if k < bitsToLongs nbits then 0 else w' k with hzeroed
  set h₁ := h.store d n zeroed with hh₁
  have hs₁ : h₁.Holds s m w := (Heap.holds_store_of_ne (Ne.symm hne)).mpr hs
  have hloop : forEachSetBit id (some s) nbits
      (fun oldbit h => setBit (oldbit % sz) (some d) h) h₁ =
      (positions (bitAt w) 0 nbits).foldlM (fun h i => setBit (i % sz) (some d) h) h₁ :=
    forEachSetBit_eq hs₁ hm fun i _ _ _ hahead hset => bitsAhead_setBit hne hahead hset
  have hin : ∀ i ∈ positions (bitAt w) 0 nbits, i % sz < 2 ^ 31 ∧ i % sz / 64 < n := by
    intro i hi
    obtain ⟨⟨-, hlt⟩, -⟩ := mem_positions.mp hi
    have hle := Nat.mod_le i sz
    have hk : i % sz / 64 < bitsToLongs nbits := lt_bitsToLongs_iff.mpr (by omega)
    constructor <;> omega
  obtain ⟨v, hv, hset⟩ := foldlM_setBit (show h₁.Holds d n zeroed from Heap.holds_store)
    (fun i => i % sz) hin
  refine ⟨v, ?_, fun j hj => ?_, fun j hj => ?_⟩
  · have hptr : some d ≠ some s := fun heq => hne (Option.some.inj heq)
    rw [bitmapFold, if_neg hptr, bitmapZero_eq hd hn, Except.ok_bind, hloop, hv, Heap.store_store]
  · -- a bit of the map was cleared first
    have hclear : bitAt zeroed j = false := by
      unfold bitAt
      rw [hzeroed]
      beta_reduce
      rw [if_pos (by omega)]
      exact BitVec.getLsbD_zero
    rw [hset j, hclear]
    constructor
    · rintro (hfalse | ⟨i, hi, hij⟩)
      · exact absurd hfalse Bool.false_ne_true
      · obtain ⟨⟨-, hlt⟩, hbit⟩ := mem_positions.mp hi
        exact ⟨i, hlt, hbit, hij⟩
    · rintro ⟨i, hlt, hbit, hij⟩
      exact Or.inr ⟨i, mem_positions.mpr ⟨⟨Nat.zero_le i, hlt⟩, hbit⟩, hij⟩
  · -- behind the map there is nothing to fold into
    have hsame : bitAt zeroed j = bitAt w' j := by
      unfold bitAt
      rw [hzeroed]
      beta_reduce
      rw [if_neg (by omega)]
    have hnone : ¬ ∃ i ∈ positions (bitAt w) 0 nbits, i % sz = j := by
      rintro ⟨i, hi, hij⟩
      obtain ⟨⟨-, hlt⟩, -⟩ := mem_positions.mp hi
      have hle := Nat.mod_le i sz
      unfold bitsToLongs at hj
      omega
    rw [← hsame, Bool.eq_iff_iff, hset j]
    exact or_iff_left hnone

/-- **Folding is exact**, for the sizes an `int` can hold. In the destination bit `j` is set exactly
if a set bit of the original is `j` modulo `sz`, so all are below `sz`, and the rest of the memory
is as before; in place nothing happens. -/
theorem bitmapFold_exact (hd : h.Holds d n w') (hs : h.Holds s m w) (hne : d ≠ s)
    (hn : bitsToLongs nbits ≤ n) (hm : bitsToLongs nbits ≤ m) (hbits : nbits < 2 ^ 31)
    (hsz : 0 < sz) :
    FoldsExactly h d s n sz nbits w w' where
  in_place := if_pos rfl
  folded := by
    obtain ⟨v, hv, hiff, hrest⟩ := bitmapFold_eq sz hd hs hne hn hm hbits.le
    refine ⟨v, hv, hiff, fun j hj hset => ?_, hrest⟩
    obtain ⟨i, -, -, rfl⟩ := (hiff j hj).mp hset
    exact Nat.mod_lt i hsz

/-- **Folding twice**, modulo a multiple first, leaves the same destination as folding once. -/
theorem bitmapFold_fold {c n' sz' : ℕ} {w'' : ℕ → Word} (hd : h.Holds d n w') (hs : h.Holds s m w)
    (hc : h.Holds c n' w'') (hds : d ≠ s) (hcs : c ≠ s) (hdc : d ≠ c)
    (hn : bitsToLongs nbits ≤ n) (hm : bitsToLongs nbits ≤ m) (hn' : bitsToLongs nbits ≤ n')
    (hbits : nbits < 2 ^ 31) (hdvd : sz ∣ sz') :
    ∃ v u, bitmapFold (some d) (some s) sz nbits h = .ok (h.store d n v) ∧
      bitmapFold (some c) (some s) sz' nbits h = .ok (h.store c n' u) ∧
      bitmapFold (some d) (some c) sz nbits (h.store c n' u) =
        .ok ((h.store c n' u).store d n v) := by
  obtain ⟨v, hv, hvbits, hvrest⟩ := bitmapFold_eq sz hd hs hds hn hm hbits.le
  obtain ⟨u, hu, hubits, -⟩ := bitmapFold_eq sz' hc hs hcs hn' hm hbits.le
  have hd' : (h.store c n' u).Holds d n w' := (Heap.holds_store_of_ne hdc).mpr hd
  obtain ⟨x, hx, hxbits, hxrest⟩ :=
    bitmapFold_eq sz hd' (Heap.holds_store (w := u)) hdc hn hn' hbits.le
  refine ⟨v, u, hv, hu, hx.trans (congrArg _ (Heap.store_congr fun k _ => ?_))⟩
  -- the two destinations agree bit by bit
  refine BitVec.eq_of_getLsbD_eq fun i hi => ?_
  rw [← bitAt_mul_add x k hi, ← bitAt_mul_add v k hi]
  generalize 64 * k + i = j
  by_cases hlt : j < 64 * bitsToLongs nbits
  · rw [Bool.eq_iff_iff, hxbits j hlt, hvbits j hlt]
    constructor
    · rintro ⟨_, hlt', hset, rfl⟩
      obtain ⟨i, hi, hw, rfl⟩ := (hubits _ (by unfold bitsToLongs; omega)).mp hset
      exact ⟨i, hi, hw, (Nat.mod_mod_of_dvd i hdvd).symm⟩
    · rintro ⟨i, hi, hw, rfl⟩
      have hle := Nat.mod_le i sz'
      refine ⟨i % sz', by omega, ?_, Nat.mod_mod_of_dvd i hdvd⟩
      exact (hubits _ (by unfold bitsToLongs; omega)).mpr ⟨i, hi, hw, rfl⟩
  · rw [hxrest j (by omega), hvrest j (by omega)]

end

/-- Bits 1 and 6 of a map of eight are folded modulo 4 onto 1 and 2. -/
theorem bitmapFold_exact_four :
    FoldsExactly ((Heap.ofBlock 1 fun _ => 66).store 1 1 fun _ => 0) 1 0 1 4 8 (fun _ => 66)
      fun _ => 0 :=
  bitmapFold_exact (m := 1) Heap.holds_store
    ((Heap.holds_store_of_ne (by decide)).mpr (Heap.holds_ofBlock 1 _)) (by decide) (by decide)
    (by decide) (by decide) (by decide)

end Vlstp
