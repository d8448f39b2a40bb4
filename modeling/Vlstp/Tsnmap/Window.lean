import Vlstp.Framework.BitSeq
import Vlstp.Tsnmap.Defs

/-!
# The window of a TSN map

What the words and the wrapped numbers of a TSN map stand for: a `Window` is the cumulative ack
point, how far beyond it the highest number seen lies, how many numbers past it there is a bit for,
and those bits. A number is addressed by its *offset* from the first one after the ack point, so
nothing here wraps. The fields say what every map the code can work with satisfies, whatever its
bits are; that a bit is set only for a number that was received is a property of its own, `Clean`.

The operations are the ones the code performs on such a map. Skipping is shifting, also where the
code zeroes the map (`skip`); and where no bit is set, raising the ack point without touching the
map is the same as setting a bit and shifting it out (`Clean.bump_eq`).
-/

namespace Vlstp

/-- The part of the sequence space a TSN map keeps track of. -/
@[ext]
structure Window where
  /-- `cumulative_tsn_ack_point`. -/
  cum : Tsn
  /-- How far `max_tsn_seen` is ahead of it. -/
  span : ℕ
  /-- The number of bits. -/
  len : ℕ
  /-- Bit `i` is about the number `cum + 1 + i`. -/
  bit : ℕ → Bool
  span_le : span ≤ len
  len_pos : 0 < len
  len_le : len ≤ tsnMapSize
  dvd_len : 64 ∣ len
  lt_of_bit : ∀ i, bit i = true → i < len

namespace Window

variable (W : Window)

/-- The offset of a number from the first one after the ack point. -/
def offset (t : Tsn) : ℕ := (t - (W.cum + 1)).toNat

/-- The number at an offset. -/
def tsnAt (i : ℕ) : Tsn := W.cum + 1 + BitVec.ofNat 32 i

theorem tsnAt_offset (t : Tsn) : W.tsnAt (W.offset t) = t :=
  base_add_offset t (W.cum + 1)

/-- A number is as far past the ack point as its offset says, and one more. -/
theorem cum_add_offset (t : Tsn) : W.cum + BitVec.ofNat 32 (W.offset t + 1) = t := by
  calc W.cum + BitVec.ofNat 32 (W.offset t + 1)
      = W.cum + (1 + BitVec.ofNat 32 (W.offset t)) := by
        rw [BitVec.ofNat_add, BitVec.add_comm 1]
        rfl
    _ = W.cum + 1 + BitVec.ofNat 32 (W.offset t) := (BitVec.add_assoc ..).symm
    _ = t := W.tsnAt_offset t

theorem offset_tsnAt {i : ℕ} (hi : i < 2 ^ 32) : W.offset (W.tsnAt i) = i :=
  offset_base_add (W.cum + 1) hi

theorem offset_lt (t : Tsn) : W.offset t < 2 ^ 32 := BitVec.isLt _

theorem offset_lt_of_bit {i : ℕ} (h : W.bit i = true) : i < 4096 :=
  lt_of_lt_of_le (W.lt_of_bit i h) W.len_le

theorem bit_of_le {i : ℕ} (hi : W.len ≤ i) : W.bit i = false := by
  by_contra hbit
  have := W.lt_of_bit i (by simpa using hbit)
  omega

/-! ### Operations -/

/-- The empty window of a freshly initialised map, with bits as the memory has them. -/
def fresh (cum : Tsn) (len : ℕ) (c : ℕ → Word) (hpos : 0 < len) (hle : len ≤ tsnMapSize)
    (hdvd : 64 ∣ len) : Window where
  cum := cum
  span := 0
  len := len
  bit i := decide (i < len) && bitAt c i
  span_le := Nat.zero_le _
  len_pos := hpos
  len_le := hle
  dvd_len := hdvd
  lt_of_bit i h := by simpa using And.left (by simpa using h)

/-- The window of a map that is initialised again in place. -/
def restart (cum : Tsn) : Window where
  cum := cum
  span := 0
  len := W.len
  bit _ := false
  span_le := Nat.zero_le _
  len_pos := W.len_pos
  len_le := W.len_le
  dvd_len := W.dvd_len
  lt_of_bit i h := by simp at h

/-- Acknowledge the next `n` numbers, whether they were received or not. -/
def shift (n : ℕ) : Window where
  cum := W.cum + BitVec.ofNat 32 n
  span := W.span - n
  len := W.len
  bit i := W.bit (i + n)
  span_le := (Nat.sub_le _ _).trans W.span_le
  len_pos := W.len_pos
  len_le := W.len_le
  dvd_len := W.dvd_len
  lt_of_bit i h := by have := W.lt_of_bit _ h; omega

/-- How many numbers from the first one on have been received, up to the highest number seen. -/
def received : ℕ := firstIn (fun i => !W.bit i) 0 W.span

/-- Acknowledge the numbers that have been received without a gap. -/
def update : Window := W.shift W.received

/-- Record the number at offset `d`. -/
def put (d : ℕ) (hd : d < W.len) : Window where
  cum := W.cum
  span := max W.span (d + 1)
  len := W.len
  bit i := decide (i = d) || W.bit i
  span_le := Nat.max_le.mpr ⟨W.span_le, hd⟩
  len_pos := W.len_pos
  len_le := W.len_le
  dvd_len := W.dvd_len
  lt_of_bit i h := by
    rcases Bool.or_eq_true_iff.mp h with h | h
    · rw [of_decide_eq_true h]; exact hd
    · exact W.lt_of_bit i h

/-- Acknowledge the next number without touching the bits. -/
def bump : Window := { W with cum := W.cum + 1 }

/-- Record the number at offset `d` and acknowledge what that allows. -/
def accept (d : ℕ) (hd : d < W.len) : Window :=
  if W.span = 0 ∧ d = 0 then W.bump else (W.put d hd).update

/-- Forget the number at offset `d`. -/
def forget (d : ℕ) : Window where
  cum := W.cum
  span := W.span
  len := W.len
  bit i := !decide (i = d) && W.bit i
  span_le := W.span_le
  len_pos := W.len_pos
  len_le := W.len_le
  dvd_len := W.dvd_len
  lt_of_bit i h := W.lt_of_bit i (Bool.and_eq_true_iff.mp h).2

/-- Acknowledge everything up to offset `d`, and then what has been received beyond it. -/
def skip (d : ℕ) : Window := (W.shift (d + 1)).update

/-- The length a map of `len` bits grows to so that `size` bits fit. -/
def grownTo (len size : ℕ) : ℕ := min (len + ((size - len + 63) / 64 * 64 + 64)) tsnMapSize

/-- How many bits a growing map copies: the whole words that reach up to the highest number seen. -/
def copied : ℕ := 64 * bitsToLongs W.span

theorem copied_le : W.copied ≤ W.len := by
  have hspan := W.span_le
  have hdvd := W.dvd_len
  unfold copied bitsToLongs
  omega

/-- Make room for offset `d`, in a buffer that reads as `c`. -/
def grow (c : ℕ → Word) (d : ℕ) (hd : W.len ≤ d) (hlt : d < tsnMapSize) : Window where
  cum := W.cum
  span := W.span
  len := grownTo W.len (d + 1)
  bit i := if i < W.copied then W.bit i else decide (i < grownTo W.len (d + 1)) && bitAt c i
  span_le := by have := W.span_le; unfold grownTo; omega
  len_pos := by have := W.len_pos; unfold grownTo; omega
  len_le := by unfold grownTo; omega
  dvd_len := by have := W.dvd_len; unfold grownTo tsnMapSize; omega
  lt_of_bit i h := by
    by_cases hi : i < W.copied
    · have := W.copied_le
      unfold grownTo
      omega
    · rw [if_neg hi] at h
      exact of_decide_eq_true (Bool.and_eq_true_iff.mp h).1

theorem lt_grownTo {len d : ℕ} (hd : len ≤ d) (hlt : d < tsnMapSize) :
    d < grownTo len (d + 1) := by
  unfold grownTo
  omega

/-- The window in which offset `d` has a bit: the map is grown if it has to be. -/
def room (c : ℕ → Word) (d : ℕ) (hlt : d < tsnMapSize) : Window :=
  if hd : W.len ≤ d then W.grow c d hd hlt else W

theorem lt_len_room (c : ℕ → Word) {d : ℕ} (hlt : d < tsnMapSize) : d < (W.room c d hlt).len := by
  unfold room
  by_cases hd : W.len ≤ d
  · rw [dif_pos hd]
    exact lt_grownTo hd hlt
  · rw [dif_neg hd]
    omega

@[simp] theorem room_cum (c : ℕ → Word) {d : ℕ} (hlt : d < tsnMapSize) :
    (W.room c d hlt).cum = W.cum := by
  unfold room
  by_cases hd : W.len ≤ d
  · rw [dif_pos hd]
    rfl
  · rw [dif_neg hd]

@[simp] theorem room_offset (c : ℕ → Word) {d : ℕ} (hlt : d < tsnMapSize) (t : Tsn) :
    (W.room c d hlt).offset t = W.offset t :=
  congrArg (fun cum => (t - (cum + 1)).toNat) (W.room_cum c hlt)

/-- What `vlstp_tsnmap_mark` does with the number at offset `d`, when memory is available. -/
def receive (c : ℕ → Word) (d : ℕ) (hlt : d < tsnMapSize) : Window :=
  (W.room c d hlt).accept d (W.lt_len_room c hlt)

/-! ### Observations -/

/-- What `vlstp_tsnmap_check` answers about the number at offset `d`. -/
def check (d : ℕ) : ℤ :=
  if 2 ^ 31 ≤ d + 1 then 1 else if tsnMapSize ≤ d then -1 else if W.bit d then 1 else 0

/-- What `vlstp_tsnmap_pending` counts. The bit of the only number beyond the ack point is taken to
be clear without looking. -/
def pending : ℕ :=
  if W.span ≤ 1 then W.span else W.span - Nat.count (fun i => W.bit i = true) W.span

/-- The run of received numbers `vlstp_tsnmap_find_gap_ack` finds from offset `off` on, as its first
and last offset. A run that starts at offset 0 is taken for no run. -/
def findRun (off : ℕ) : Option (ℕ × ℕ) :=
  let i := firstIn W.bit off W.len
  if i < W.len ∧ i ≠ 0 then some (i, firstIn (fun i => !W.bit i) i W.len - 1) else none

/-- The run `vlstp_tsnmap_next_gap_ack` finds for an iterator at offset `off`. -/
def nextRun (off : ℕ) : Option (ℕ × ℕ) :=
  if off + 1 < W.span then W.findRun off else none

/-- What a run that was found is: the first one from `off` on, all of it, and not at offset 0. -/
theorem findRun_eq_some {off i j : ℕ} (h : W.findRun off = some (i, j)) :
    0 < i ∧ i ≤ j ∧ j < W.len ∧ IsFirst W.bit off W.len i ∧
      IsFirst (fun k => !W.bit k) i W.len (j + 1) := by
  simp only [findRun, Option.ite_none_right_eq_some, Option.some.injEq, Prod.mk.injEq] at h
  obtain ⟨⟨hlt, hpos⟩, rfl, rfl⟩ := h
  have hi : IsFirst W.bit off W.len _ := isFirst_firstIn _ _ _
  set i := firstIn W.bit off W.len
  have hj : IsFirst (fun k => !W.bit k) i W.len _ := isFirst_firstIn _ _ _
  set e := firstIn (fun k => !W.bit k) i W.len
  -- the run is not empty: its first bit is set, so the search for a clear one goes beyond it
  have hle : i < e := by
    have hle := hj.lo_le hlt.le
    rcases Nat.lt_or_eq_of_le hle with hlt' | heq
    · exact hlt'
    · have hclear := (hj.here (heq ▸ hlt)).2
      rw [← heq] at hclear
      simp [(hi.here hlt).2] at hclear
  have hend := hj.le
  refine ⟨Nat.pos_of_ne_zero hpos, by omega, by omega, hi, ?_⟩
  rw [Nat.sub_add_cancel (by omega)]
  exact hj

/-- In the window, the check reads the bit. -/
theorem check_of_lt {d : ℕ} (hlt : d < tsnMapSize) :
    W.check d = if W.bit d then 1 else 0 := by
  unfold tsnMapSize at hlt
  unfold check tsnMapSize
  rw [if_neg (show ¬ 2 ^ 31 ≤ d + 1 by omega), if_neg (show ¬ 4096 ≤ d by omega)]

/-! ### Shifting out what was received -/

@[simp] theorem shift_zero : W.shift 0 = W := by
  ext1 <;> simp [shift]

@[simp] theorem shift_bit (n i : ℕ) : (W.shift n).bit i = W.bit (i + n) := rfl

@[simp] theorem shift_span (n : ℕ) : (W.shift n).span = W.span - n := rfl

@[simp] theorem shift_len (n : ℕ) : (W.shift n).len = W.len := rfl

@[simp] theorem shift_cum (n : ℕ) : (W.shift n).cum = W.cum + BitVec.ofNat 32 n := rfl

theorem isFirst_received : IsFirst (fun i => !W.bit i) 0 W.span W.received :=
  isFirst_firstIn _ _ _

theorem received_le : W.received ≤ W.span := W.isFirst_received.le

/-- Everything `update` acknowledges was received. -/
theorem bit_of_lt_received {i : ℕ} (hi : i < W.received) : W.bit i = true := by
  simpa using W.isFirst_received.before i (Nat.zero_le _) hi

/-- A gap below the highest number seen stops `update`. -/
theorem bit_received (h : W.received < W.span) : W.bit W.received = false := by
  simpa using (W.isFirst_received.here h).2

theorem received_eq_zero (h : W.bit 0 = false) : W.received = 0 := by
  by_contra hne
  have := W.bit_of_lt_received (Nat.pos_of_ne_zero hne)
  rw [h] at this
  exact absurd this (by simp)

/-- A shift past the end leaves no bit set. -/
theorem shift_bit_of_len_le {n : ℕ} (hn : W.len ≤ n) (i : ℕ) : (W.shift n).bit i = false :=
  W.bit_of_le (by omega)

/-- Where the code zeroes the map, there is nothing left to acknowledge. -/
theorem skip_of_len_le {d : ℕ} (hd : W.len ≤ d + 1) : W.skip d = W.shift (d + 1) := by
  rw [skip, update, received_eq_zero _ (W.shift_bit_of_len_le hd 0), shift_zero]

/-! ### Windows of received numbers -/

/-- The bits are those of numbers that were received: none beyond the highest number seen. -/
def Below : Prop := ∀ i, W.bit i = true → i < W.span

/-- The bits are as the operations leave them: none beyond the highest number seen, and the first
number after the ack point has not been received. -/
structure Clean : Prop where
  below : W.Below
  zero : W.bit 0 = false

variable {W}

/-- Acknowledging what was received leaves a clean window. -/
theorem Below.update (h : W.Below) : W.update.Clean where
  below i hi := by
    have := h _ hi
    simp only [Window.update, shift_span]
    omega
  zero := by
    rw [Window.update, shift_bit, Nat.zero_add]
    by_cases hlt : W.received < W.span
    · exact W.bit_received hlt
    · -- everything up to the highest number seen was received, and there is no bit beyond it
      by_contra hbit
      have := h _ (by simpa using hbit)
      omega

theorem Below.shift (h : W.Below) (n : ℕ) : (W.shift n).Below := by
  intro i hi
  have := h _ hi
  rw [shift_span]
  omega

theorem Below.put (h : W.Below) {d : ℕ} (hd : d < W.len) : (W.put d hd).Below := by
  intro i hi
  simp only [Window.put, Bool.or_eq_true, decide_eq_true_eq] at hi ⊢
  rcases hi with rfl | hi
  · omega
  · have := h i hi
    omega

theorem Clean.skip (h : W.Clean) (d : ℕ) : (W.skip d).Clean :=
  (h.below.shift _).update

theorem Clean.forget (h : W.Clean) (d : ℕ) : (W.forget d).Clean where
  below i hi := h.below i (Bool.and_eq_true_iff.mp hi).2
  zero := by simp [Window.forget, h.zero]

theorem clean_restart (cum : Tsn) : (W.restart cum).Clean where
  below i hi := by simp [restart] at hi
  zero := rfl

theorem clean_fresh {cum : Tsn} {len : ℕ} (hpos : 0 < len) (hle : len ≤ tsnMapSize)
    (hdvd : 64 ∣ len) : (fresh cum len (fun _ => 0) hpos hle hdvd).Clean where
  below i hi := by simp [fresh, bitAt] at hi
  zero := by simp [fresh, bitAt]

/-- In a clean window, raising the ack point is the same as setting the bit and shifting it out. -/
theorem Clean.bump_eq (h : W.Clean) (hspan : W.span = 0) :
    W.bump = (W.put 0 W.len_pos).update := by
  have hclear : ∀ i, W.bit i = false := by
    intro i
    by_contra hbit
    have := h.below i (by simpa using hbit)
    omega
  -- with bit 0 put, exactly that one number can be acknowledged
  have hfirst : IsFirst (fun i => !(W.put 0 W.len_pos).bit i) 0 (W.put 0 W.len_pos).span 1 := by
    refine ⟨?_, ?_, ?_⟩
    · simp [put, hspan]
    · intro j _ hj
      obtain rfl : j = 0 := by omega
      simp [put]
    · intro hlt
      simp [put, hspan] at hlt
  have hrec : (W.put 0 W.len_pos).received = 1 := hfirst.eq_firstIn.symm
  rw [update, hrec]
  refine Window.ext rfl ?_ rfl ?_
  · simp [bump, put, hspan]
  · funext i
    simp [bump, put, hclear]

theorem Clean.accept_eq (h : W.Clean) {d : ℕ} (hd : d < W.len) :
    W.accept d hd = (W.put d hd).update := by
  unfold accept
  by_cases hz : W.span = 0 ∧ d = 0
  · -- the fast path of `vlstp_tsnmap_mark`
    obtain ⟨hspan, rfl⟩ := hz
    rw [if_pos ⟨hspan, rfl⟩, h.bump_eq hspan]
  · rw [if_neg hz]

theorem Clean.accept (h : W.Clean) {d : ℕ} (hd : d < W.len) : (W.accept d hd).Clean := by
  rw [h.accept_eq hd]
  exact (h.below.put hd).update

/-- A clean window grown into zeroed memory has the same bits. -/
theorem Clean.grow_bit (h : W.Clean) {d : ℕ} (hd : W.len ≤ d) (hlt : d < tsnMapSize) (i : ℕ) :
    (W.grow (fun _ => 0) d hd hlt).bit i = W.bit i := by
  by_cases hi : i < W.copied
  · simp [Window.grow, hi]
  · -- what is not copied lies beyond the highest number seen
    have hclear : W.bit i = false := by
      by_contra hbit
      have := h.below i (by simpa using hbit)
      unfold copied bitsToLongs at hi
      omega
    simp [Window.grow, hi, hclear, bitAt]

theorem Clean.grow (h : W.Clean) {d : ℕ} (hd : W.len ≤ d) (hlt : d < tsnMapSize) :
    (W.grow (fun _ => 0) d hd hlt).Clean where
  below i hi := by
    rw [h.grow_bit] at hi
    exact h.below i hi
  zero := by rw [h.grow_bit, h.zero]

theorem Clean.room (h : W.Clean) {d : ℕ} (hlt : d < tsnMapSize) :
    (W.room (fun _ => 0) d hlt).Clean := by
  unfold Window.room
  by_cases hd : W.len ≤ d
  · rw [dif_pos hd]
    exact h.grow hd hlt
  · rw [dif_neg hd]
    exact h

theorem Clean.receive (h : W.Clean) {d : ℕ} (hlt : d < tsnMapSize) :
    (W.receive (fun _ => 0) d hlt).Clean :=
  (h.room hlt).accept _

end Window

end Vlstp
