import Mathlib.Algebra.Ring.Nat
import Vlstp.Jhash

/-!
# What the hash functions compute

`hashWords` hashes the words `w 0`, `w 1`, … by their index, those from the `n`-th on being zero.
Both hash functions are shown to return it of the words of their key (`jhash2_eq`, `jhash_eq`), so
`jhash` agrees with `jhash2` on the words its bytes make up (`jhash_eq_jhash2`). The bytes of the
last block count as little-endian whatever the processor does.
-/

namespace Vlstp

/-- The three words after `t` blocks. -/
def mixBlocks (w : ℕ → UInt32T) (s : Mixed) : ℕ → Mixed
  | 0 => s
  | t + 1 => _jhashMix ((mixBlocks w s t).add (w (3 * t)) (w (3 * t + 1)) (w (3 * t + 2)))

/-- The hash of `n` words, the last block of which is mixed differently. -/
def hashWords (w : ℕ → UInt32T) (n : ℕ) (s : Mixed) : Mixed :=
  let t := (n - 1) / 3
  if n = 0 then s
  else _jhashFinal ((mixBlocks w s t).add (w (3 * t)) (w (3 * t + 1)) (w (3 * t + 2)))

variable {α : Type} {w : ℕ → UInt32T} {s : Mixed} {n t size fuel : ℕ}

theorem readAt_of_lt [Inhabited α] {k : List α} {i : ℕ} (hi : i < k.length) :
    readAt k i = .ok k[i]! := by
  rw [readAt, List.getElem?_eq_getElem hi, getElem!_pos k i hi]

/-- The loop takes up all blocks but the last one. -/
theorem blockLoop_eq {read : ℕ → Except Fault (UInt32T × UInt32T × UInt32T)} (hsize : 0 < size)
    (hsize' : size < 2 ^ 32) (hn : n < 2 ^ 32)
    (hread : ∀ t < (n - 1) / size,
      read (size * t) = .ok (w (3 * t), w (3 * t + 1), w (3 * t + 2)))
    (ht : t ≤ (n - 1) / size) (hfuel : (n - 1) / size - t < fuel) :
    blockLoop size read fuel (mixBlocks w s t) (BitVec.ofNat 32 (n - size * t)) (size * t) =
      .ok (mixBlocks w s ((n - 1) / size), BitVec.ofNat 32 (n - size * ((n - 1) / size)),
        size * ((n - 1) / size)) := by
  induction fuel generalizing t with
  | zero => omega
  | succ fuel ih =>
    have hnext : size * (t + 1) = size * t + size := Nat.mul_succ size t
    -- one more block is taken up while more than one is left
    have hmore : t < (n - 1) / size ↔ size < n - size * t := by
      rw [← Nat.succ_le_iff, Nat.le_div_iff_mul_le hsize, Nat.mul_comm, hnext]
      omega
    have hlong : BitVec.ofNat 32 size < BitVec.ofNat 32 (n - size * t) ↔ t < (n - 1) / size := by
      rw [BitVec.lt_def, BitVec.toNat_ofNat, BitVec.toNat_ofNat, Nat.mod_eq_of_lt hsize',
        Nat.mod_eq_of_lt (by omega), hmore]
    rw [blockLoop]
    by_cases hlt : t < (n - 1) / size
    · have hlen : BitVec.ofNat 32 (n - size * t) - BitVec.ofNat 32 size =
          BitVec.ofNat 32 (n - size * (t + 1)) := by
        rw [hnext, ← Nat.sub_sub,
          BitVec.ofNat_sub_ofNat_of_le _ _ hsize' (Nat.le_of_lt (hmore.mp hlt))]
      rw [if_pos (hlong.mpr hlt), hread t hlt, Except.ok_bind, ← hnext, hlen]
      exact ih hlt (by omega)
    · obtain rfl : t = (n - 1) / size := by omega
      rw [if_neg fun h => hlt (hlong.mp h)]

theorem addAt_zero (s : Mixed) (j : ℕ) : s.addAt j 0 = s := by
  simp [Mixed.addAt, Mixed.add]

/-- The cases of the `switch`. A case that is not entered might as well add zero. -/
theorem lastBlock_eq {read : ℕ → Except Fault UInt32T} {word : ℕ → ℕ} {length : UInt32T}
    {v : ℕ → UInt32T} (hread : ∀ i < length.toNat, read i = .ok (v i))
    (hzero : ∀ i, length.toNat ≤ i → v i = 0) :
    lastBlock size read word length s =
      let s := (List.range size).reverse.foldl (fun s i => s.addAt (word i) (v i)) s
      .ok (if length = 0 then s else _jhashFinal s) := by
  have hcase : (fun (s : Mixed) (i : ℕ) => (if i < length.toNat then do
      return s.addAt (word i) (← read i) else .ok s : Except Fault Mixed)) =
      fun s i => pure (s.addAt (word i) (v i)) := by
    funext s i
    split
    · next hi => rw [hread i hi]; rfl
    · next hi => rw [hzero i (by omega), addAt_zero]; rfl
  rw [lastBlock, hcase, List.foldlM_pure]
  rfl

/-- The loop and the `switch` together: `n` is the length in the units of the function, of which a
block has `size`, and `words` is the number of words these are. -/
theorem loop_switch_eq {read : ℕ → Except Fault (UInt32T × UInt32T × UInt32T)}
    (read' : ℕ → ℕ → Except Fault UInt32T) {word : ℕ → ℕ} (v : ℕ → UInt32T) {words : ℕ}
    {length : UInt32T} (hsize : 0 < size) (hsize' : size < 2 ^ 32) (hn : length.toNat = n)
    (ht : (n - 1) / size = t) (hwords : (words - 1) / 3 = t) (hzero : words = 0 ↔ n = 0)
    (hread : ∀ t' < t, read (size * t') = .ok (w (3 * t'), w (3 * t' + 1), w (3 * t' + 2)))
    (hread' : ∀ i, size * t + i < n → read' (size * t) i = .ok (v i))
    (hv : ∀ i, n ≤ size * t + i → v i = 0)
    (hlast : ∀ s : Mixed, (List.range size).reverse.foldl (fun s i => s.addAt (word i) (v i)) s =
      s.add (w (3 * t)) (w (3 * t + 1)) (w (3 * t + 2))) :
    (do let (s, length, k) ← blockLoop size read (length.toNat + 1) s length 0
        let s ← lastBlock size (read' k) word length s
        return s.c : Except Fault UInt32T) = .ok (hashWords w words s).c := by
  have hlt : n < 2 ^ 32 := hn ▸ length.isLt
  have hmul : size * t ≤ n - 1 := ht ▸ Nat.mul_div_le (n - 1) size
  have hloop : blockLoop size read (n + 1) s length 0 =
      .ok (mixBlocks w s t, BitVec.ofNat 32 (n - size * t), size * t) := by
    have hle : (n - 1) / size ≤ n - 1 := Nat.div_le_self ..
    have hfuel : (n - 1) / size - 0 < n + 1 := by omega
    have hall := blockLoop_eq (s := s) hsize hsize' hlt (ht ▸ hread) (Nat.zero_le _) hfuel
    have hlen : BitVec.ofNat 32 (n - size * 0) = length := by
      rw [Nat.mul_zero, Nat.sub_zero, ← hn, BitVec.ofNat_toNat, BitVec.setWidth_eq]
    rw [hlen, ht] at hall
    exact hall
  -- what is left of the key
  have hrest : (BitVec.ofNat 32 (n - size * t)).toNat = n - size * t := by
    rw [BitVec.toNat_ofNat, Nat.mod_eq_of_lt (by omega)]
  have hempty : BitVec.ofNat 32 (n - size * t) = 0 ↔ words = 0 := by
    rw [← BitVec.toNat_inj, hrest, hzero]
    change n - size * t = 0 ↔ n = 0
    omega
  have hswitch (s : Mixed) : lastBlock size (read' (size * t)) word
      (BitVec.ofNat 32 (n - size * t)) s = .ok (if words = 0 then
        s.add (w (3 * t)) (w (3 * t + 1)) (w (3 * t + 2))
        else _jhashFinal (s.add (w (3 * t)) (w (3 * t + 1)) (w (3 * t + 2)))) := by
    rw [lastBlock_eq (v := v) (fun i hi => hread' i (by rw [hrest] at hi; omega)) fun i hi =>
      hv i (by rw [hrest] at hi; omega)]
    simp only [hlast, hempty]
  rw [hn, hloop, Except.ok_bind]
  change (lastBlock size (read' (size * t)) word (BitVec.ofNat 32 (n - size * t))
    (mixBlocks w s t) >>= _) = _
  rw [hswitch, hashWords, hwords]
  split
  · next hnil =>
    -- nothing is added to an empty key
    have hn0 : n = 0 := hzero.mp hnil
    have ht0 : t = 0 := by rw [← ht, hn0, Nat.zero_sub, Nat.zero_div]
    have hnone : (fun (s : Mixed) (i : ℕ) => s.addAt (word i) (v i)) = fun s _ => s := by
      funext s i
      rw [hv i (by omega), addAt_zero]
    have hsame := hlast s
    rw [hnone, List.foldl_fixed] at hsame
    rw [ht0] at hsame ⊢
    exact congrArg (fun s => Except.ok (Mixed.c s)) hsame.symm
  · rfl

/-- The three cases of `jhash2`. -/
theorem addAt_words (s : Mixed) (v : ℕ → UInt32T) :
    (List.range 3).reverse.foldl (fun s i => s.addAt (id i) (v i)) s =
      s.add (v 0) (v 1) (v 2) := by
  rw [show (List.range 3).reverse = [2, 1, 0] from rfl]
  simp only [List.foldl, Mixed.addAt, Mixed.add]
  simp

/-- The twelve cases of `jhash`. -/
theorem addAt_bytes (s : Mixed) (v : ℕ → UInt32T) :
    (List.range 12).reverse.foldl (fun s i => s.addAt (i / 4) (v i)) s =
      s.add (v 3 + v 2 + v 1 + v 0) (v 7 + v 6 + v 5 + v 4) (v 11 + v 10 + v 9 + v 8) := by
  rw [show (List.range 12).reverse = [11, 10, 9, 8, 7, 6, 5, 4, 3, 2, 1, 0] from rfl]
  simp only [List.foldl, Mixed.addAt, Mixed.add]
  simp [BitVec.add_assoc]

/-! ### `jhash2` -/

/-- The words of an array, and zeros behind the first `n`. -/
def wordAt (key : List UInt32T) (n i : ℕ) : UInt32T := if i < n then key[i]! else 0

/-- `jhash2` hashes the words of its key. -/
theorem jhash2_eq {key : List UInt32T} {length : UInt32T} (hlen : length.toNat ≤ key.length)
    (initval : UInt32T) :
    jhash2 key length initval = .ok (hashWords (wordAt key length.toNat) length.toNat
      (.seed (JHASH_INITVAL + (length <<< 2) + initval))).c := by
  obtain ⟨n, hn⟩ : ∃ n, length.toNat = n := ⟨_, rfl⟩
  obtain ⟨t, ht⟩ : ∃ t, (n - 1) / 3 = t := ⟨_, rfl⟩
  rw [hn] at hlen
  have hread (i : ℕ) (hi : i < n) : readAt key i = .ok (wordAt key n i) := by
    rw [readAt_of_lt (by omega), wordAt, if_pos hi]
  rw [hn]
  refine loop_switch_eq (fun k i => readAt key (k + i)) (fun i => wordAt key n (3 * t + i))
    (by omega) (by omega) hn ht ht Iff.rfl (fun t' ht' => ?_) (fun i hi => hread _ hi)
    (fun i hi => ?_) fun s => ?_
  · rw [jhash2Read, hread _ (by omega), hread _ (by omega), hread _ (by omega)]
    rfl
  · rw [wordAt, if_neg (by omega)]
  · exact addAt_words s _

/-- `jhash_3words` is `jhash2` of the three words; only the seeds are different. -/
theorem jhash2_three (a b c initval : UInt32T) :
    jhash2 [a, b, c] 3 initval = .ok (jhash3words (a + (12 + initval)) (b + (12 + initval)) c
      (JHASH_INITVAL + (12 + initval))) := by
  have hseed : JHASH_INITVAL + (3 : UInt32T) <<< 2 + initval = JHASH_INITVAL + (12 + initval) := by
    rw [← BitVec.add_assoc]
    rfl
  have hlen : (3 : UInt32T).toNat ≤ [a, b, c].length := Nat.le_refl 3
  have hword (x : UInt32T) :
      JHASH_INITVAL + (12 + initval) + x = x + (12 + initval) + JHASH_INITVAL := by
    rw [BitVec.add_comm, BitVec.add_assoc, BitVec.add_comm (12 + initval)]
  have hsum : (Mixed.seed (JHASH_INITVAL + (12 + initval))).add a b c =
      ⟨a + (12 + initval) + JHASH_INITVAL, b + (12 + initval) + JHASH_INITVAL,
        c + (JHASH_INITVAL + (12 + initval))⟩ :=
    Mixed.ext (hword a) (hword b) (BitVec.add_comm _ c)
  rw [jhash2_eq hlen, hseed, jhash3words, ← hsum]
  rfl

/-! ### Tables -/

/-- A hash is cut down to an index of a table of size `2 ^ n`. -/
theorem and_jhashMask (v : UInt32T) (hn : n < 32) :
    (v &&& jhashMask n).toNat = v.toNat % (jhashSize n).toNat := by
  have hsize : (jhashSize n).toNat = 2 ^ n := by
    rw [jhashSize, BitVec.toNat_shiftLeft, Nat.shiftLeft_eq, BitVec.toNat_ofNat]
    have hlt : 2 ^ n < 2 ^ 32 := Nat.pow_lt_pow_right (by decide) hn
    rw [Nat.mod_eq_of_lt (by decide : 1 < 2 ^ 32), Nat.one_mul, Nat.mod_eq_of_lt hlt]
  have hmask : (jhashMask n).toNat = 2 ^ n - 1 := by
    have hle : (1 : UInt32T) ≤ jhashSize n := by
      rw [BitVec.le_def, hsize]
      exact Nat.one_le_two_pow
    rw [jhashMask, BitVec.toNat_sub_of_le hle, hsize]
    rfl
  rw [BitVec.toNat_and, hmask, Nat.and_two_pow_sub_one_eq_mod, hsize]

/-! ### `jhash` -/

/-- The bytes of a key, and zeros behind the first `n`. -/
def byteAt (key : List UInt8T) (n i : ℕ) : UInt8T := if i < n then key[i]! else 0

/-- The words that the first `n` bytes of a key make up. In the last block the order of the bytes is
fixed, and what is missing is zero. -/
def keyWord (order : ByteOrder) (key : List UInt8T) (n i : ℕ) : UInt32T :=
  (if i / 3 < (n - 1) / 12 then order else .little).load (byteAt key n (4 * i))
    (byteAt key n (4 * i + 1)) (byteAt key n (4 * i + 2)) (byteAt key n (4 * i + 3))

/-- `jhash` hashes the words its bytes make up. -/
theorem jhash_eq {order : ByteOrder} {key : List UInt8T} {length : UInt32T}
    (hlen : length.toNat ≤ key.length) (initval : UInt32T) :
    jhash order key length initval = .ok (hashWords (keyWord order key length.toNat)
      ((length.toNat + 3) / 4) (.seed (JHASH_INITVAL + length + initval))).c := by
  obtain ⟨n, hn⟩ : ∃ n, length.toNat = n := ⟨_, rfl⟩
  obtain ⟨t, ht⟩ : ∃ t, (n - 1) / 12 = t := ⟨_, rfl⟩
  rw [hn] at hlen
  have hread (i : ℕ) (hi : i < n) : readAt key i = .ok (byteAt key n i) := by
    rw [readAt_of_lt (by omega), byteAt, if_pos hi]
  have hword (i : ℕ) (hi : i / 3 < t) :
      _getUnalignedCpu32 order key (4 * i) = .ok (keyWord order key n i) := by
    rw [_getUnalignedCpu32, hread _ (by omega), hread _ (by omega), hread _ (by omega),
      hread _ (by omega), keyWord, ht, if_pos hi]
    rfl
  rw [hn]
  refine loop_switch_eq (t := t) (jhashCase key)
    (fun i => (byteAt key n (12 * t + i)).setWidth 32 <<< (8 * (i % 4))) (by omega) (by omega) hn
    ht (by omega) (by omega) (fun t' ht' => ?_) (fun i hi => ?_) (fun i hi => ?_) fun s => ?_
  · have h0 := hword (3 * t') (by omega)
    have h1 := hword (3 * t' + 1) (by omega)
    have h2 := hword (3 * t' + 2) (by omega)
    rw [show 4 * (3 * t') = 12 * t' by omega] at h0
    rw [show 4 * (3 * t' + 1) = 12 * t' + 4 by omega] at h1
    rw [show 4 * (3 * t' + 2) = 12 * t' + 8 by omega] at h2
    rw [jhashRead, h0, h1, h2]
    rfl
  · rw [jhashCase, hread _ hi]
    rfl
  · rw [byteAt, if_neg (by omega)]
    simp
  · -- the words of the last block are little-endian
    have hlast (j : ℕ) (hj : j < 3) : keyWord order key n (3 * t + j) =
        fromBytes (byteAt key n (12 * t + (4 * j))) (byteAt key n (12 * t + (4 * j + 1)))
          (byteAt key n (12 * t + (4 * j + 2))) (byteAt key n (12 * t + (4 * j + 3))) := by
      have hfour : 4 * (3 * t + j) = 12 * t + 4 * j := by omega
      rw [keyWord, ht, if_neg (by omega), hfour]
      rfl
    have h0 := hlast 0 (by omega)
    rw [Nat.add_zero] at h0
    rw [addAt_bytes, h0, hlast 1 (by omega), hlast 2 (by omega)]
    simp [fromBytes]

/-- `jhash` and `jhash2` of the same words. The initial value is corrected by the bytes that are
missing to full words. -/
theorem jhash_eq_jhash2_of_words {order : ByteOrder} {key : List UInt8T} {length : UInt32T}
    (hlen : length.toNat ≤ key.length) {words : List UInt32T}
    (hcount : words.length = (length.toNat + 3) / 4)
    (hword : ∀ i < words.length, keyWord order key length.toNat i = words[i]!)
    (initval : UInt32T) :
    jhash order key length initval = jhash2 words (BitVec.ofNat 32 words.length)
      (initval + length - BitVec.ofNat 32 (4 * words.length)) := by
  obtain ⟨n, hn⟩ : ∃ n, length.toNat = n := ⟨_, rfl⟩
  have hlt : n < 2 ^ 32 := hn ▸ length.isLt
  rw [hn] at hcount hword
  have htoNat : (BitVec.ofNat 32 words.length).toNat = words.length := by
    rw [BitVec.toNat_ofNat, Nat.mod_eq_of_lt (by omega)]
  have hwords : wordAt words words.length = keyWord order key n := by
    funext i
    rw [wordAt]
    split
    · next hi => exact (hword i hi).symm
    · next hi =>
      -- behind the last word there are no bytes
      have hbyte (j : ℕ) (hj : 4 * i ≤ j) : byteAt key n j = 0 := by
        rw [byteAt, if_neg (by omega)]
      rw [keyWord, hbyte _ (by omega), hbyte _ (by omega), hbyte _ (by omega), hbyte _ (by omega)]
      split
      · cases order <;> rfl
      · rfl
  have hseed : JHASH_INITVAL + BitVec.ofNat 32 words.length <<< 2 +
      (initval + length - BitVec.ofNat 32 (4 * words.length)) =
        JHASH_INITVAL + length + initval := by
    have hshift : BitVec.ofNat 32 words.length <<< 2 = BitVec.ofNat 32 (4 * words.length) := by
      apply BitVec.eq_of_toNat_eq
      rw [BitVec.toNat_shiftLeft, htoNat, BitVec.toNat_ofNat, Nat.shiftLeft_eq, Nat.mul_comm]
    rw [hshift]
    grind
  rw [jhash_eq hlen, hn, ← hcount, jhash2_eq (by rw [htoNat]), htoNat, hwords, hseed]

/-- **`jhash` agrees with `jhash2`.** Of a key of any length, `jhash` is the hash of the words its
bytes make up, with the initial value corrected by the bytes that are missing to full words. -/
theorem jhash_eq_jhash2 (order : ByteOrder) {key : List UInt8T} {length : UInt32T}
    (hlen : length.toNat ≤ key.length) (initval : UInt32T) :
    jhash order key length initval =
      jhash2 ((List.range ((length.toNat + 3) / 4)).map (keyWord order key length.toNat))
        (BitVec.ofNat 32 ((length.toNat + 3) / 4))
        (initval + length - BitVec.ofNat 32 (4 * ((length.toNat + 3) / 4))) := by
  obtain ⟨words, hwords⟩ : ∃ words, words =
    (List.range ((length.toNat + 3) / 4)).map (keyWord order key length.toNat) := ⟨_, rfl⟩
  have hcount : words.length = (length.toNat + 3) / 4 := by simp [hwords]
  rw [← hwords, ← hcount]
  refine jhash_eq_jhash2_of_words hlen hcount (fun i hi => ?_) initval
  rw [hcount] at hi
  simp [hwords, hi]

/-- Five bytes, on a big-endian processor. -/
theorem jhash_eq_jhash2_five :
    jhash .big [1, 2, 3, 4, 5] 5 7 = jhash2 [0x04030201, 5] 2 (7 + 5 - 8) :=
  jhash_eq_jhash2 .big (by decide) 7

end Vlstp
