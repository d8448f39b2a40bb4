import Vlstp.Framework.Fallible

/-!
# Words as bytes

A word of `n` bytes is taken apart into its bytes (`byteOf`), the least significant being byte 0,
and put together again (`ofBytes`). The two are inverse to each other. Where a word is kept in a
buffer, `overwrite` says what a buffer holds after its bytes have been stored.
-/

/-- Byte `k` of a word. -/
def byteOf {w : ℕ} (v : BitVec w) (k : ℕ) : BitVec 8 := v.extractLsb' (8 * k) 8

/-- The word of `n` bytes whose byte `k` is `f k`. -/
def ofBytes : (n : ℕ) → (ℕ → BitVec 8) → BitVec (8 * n)
  | 0, _ => 0#0
  | n + 1, f => (f n ++ ofBytes n f).cast (by omega)

section

variable {n k : ℕ} {f g : ℕ → BitVec 8}

theorem getLsbD_byteOf {w : ℕ} (v : BitVec w) {i : ℕ} (hi : i < 8) :
    (byteOf v k).getLsbD i = v.getLsbD (8 * k + i) := by
  rw [byteOf, BitVec.getLsbD_extractLsb', decide_eq_true hi, Bool.true_and]

theorem getLsbD_ofBytes {i : ℕ} (hi : i < 8 * n) :
    (ofBytes n f).getLsbD i = (f (i / 8)).getLsbD (i % 8) := by
  induction n with
  | zero => omega
  | succ n ih =>
    rw [ofBytes, BitVec.getLsbD_cast, BitVec.getLsbD_append]
    by_cases hlt : i < 8 * n
    · rw [if_pos hlt, ih hlt]
    · -- the bit is one of the last byte
      have hdiv : i / 8 = n := by omega
      have hmod : i % 8 = i - 8 * n := by omega
      rw [if_neg hlt, hdiv, hmod]

/-- The bytes of a word that was put together. -/
theorem byteOf_ofBytes (hk : k < n) : byteOf (ofBytes n f) k = f k := by
  apply BitVec.eq_of_getLsbD_eq
  intro i hi
  have hdiv : (8 * k + i) / 8 = k := by omega
  have hmod : (8 * k + i) % 8 = i := by omega
  rw [getLsbD_byteOf _ hi, getLsbD_ofBytes (by omega), hdiv, hmod]

/-- The word put together from its bytes. -/
theorem ofBytes_byteOf (v : BitVec (8 * n)) : ofBytes n (byteOf v) = v := by
  apply BitVec.eq_of_getLsbD_eq
  intro i hi
  rw [getLsbD_ofBytes hi, getLsbD_byteOf _ (Nat.mod_lt _ (by decide)), Nat.div_add_mod]

theorem ofBytes_congr (h : ∀ k < n, f k = g k) : ofBytes n f = ofBytes n g := by
  apply BitVec.eq_of_getLsbD_eq
  intro i hi
  rw [getLsbD_ofBytes hi, getLsbD_ofBytes hi, h (i / 8) (by omega)]

/-- A word is determined by its bytes. -/
theorem eq_of_byteOf_eq {v v' : BitVec (8 * n)} (h : ∀ k < n, byteOf v k = byteOf v' k) :
    v = v' := by
  rw [← ofBytes_byteOf v, ← ofBytes_byteOf v', ofBytes_congr h]

end

/-! ### Buffers -/

section Buffers

variable {α : Type} {l : List α} {p n i : ℕ} {f : ℕ → α}

/-- The buffer whose elements from `p` on are `f 0` to `f (n - 1)`. -/
def overwrite (p n : ℕ) (f : ℕ → α) (l : List α) : List α :=
  l.mapIdx fun i x => if p ≤ i ∧ i < p + n then f (i - p) else x

@[simp] theorem length_overwrite : (overwrite p n f l).length = l.length := List.length_mapIdx

theorem getElem?_overwrite : (overwrite p n f l)[i]? =
    if p ≤ i ∧ i < p + n then l[i]?.map fun _ => f (i - p) else l[i]? := by
  rw [overwrite, List.getElem?_mapIdx]
  split
  · rfl
  · exact Option.map_id'

/-- One more element is stored. -/
theorem overwrite_set : (overwrite p n f l).set (p + n) (f n) = overwrite p (n + 1) f l := by
  apply List.ext_getElem?
  intro i
  rw [List.getElem?_set, getElem?_overwrite, getElem?_overwrite, length_overwrite]
  by_cases hi : p + n = i
  · subst hi
    rw [if_pos rfl, if_pos (by omega : p ≤ p + n ∧ p + n < p + (n + 1)), Nat.add_sub_cancel_left]
    by_cases hlt : p + n < l.length
    · rw [if_pos hlt, List.getElem?_eq_getElem hlt, Option.map_some]
    · rw [if_neg hlt, List.getElem?_eq_none (by omega), Option.map_none]
  · rw [if_neg hi]
    exact if_congr (by omega) rfl rfl

end Buffers
