import Vlstp.Tsnmap.Window

/-!
# The TSN map stands for a window

`Represents map h W` says that the struct `map`, with what its pointer points to in the heap `h`,
stands for the window `W`: the numbers are those of the window (`Numbers`), and the pointer leads to
a live block of exactly `len >> 3` bytes whose words hold the bits (`Buffer`).

Each function of `tsnmap.c` has one lemma here: applied to a map that represents a window it
returns, and what it returns represents, or is, the result of the window's operation. That it
returns says that every word it touched lies in the buffer.
-/

namespace Vlstp

/-- The struct has the numbers of the window. -/
structure Numbers (map : TsnMap) (W : Window) : Prop where
  cum : map.cumulativeTsnAckPoint = W.cum
  base : map.baseTsn = W.cum + 1
  max : map.maxTsnSeen = W.cum + BitVec.ofNat 32 W.span
  len : map.len.toNat = W.len

/-- Block `b`, which `p` points to, is a buffer for the bits of the window: live, of the size asked
for, not the next one to be handed out, and its words `w` hold the bits. -/
structure Buffer (h : Mem) (p : Ptr) (b : ℕ) (w : ℕ → Word) (W : Window) : Prop where
  ptr : p = some b
  lt_next : b < h.next
  live : h.status b = .live (W.len / 8)
  holds : h.Holds b (W.len / 64) w
  bits : ∀ i, i < W.len → bitAt w i = W.bit i

/-- **The representation relation.** -/
structure Represents (map : TsnMap) (h : Mem) (W : Window) : Prop where
  numbers : Numbers map W
  buffer : ∃ b w, Buffer h map.tsnMap b w W

/-! ### The bits in the buffer -/

theorem Window.bitsToLongs_len (W : Window) : bitsToLongs W.len = W.len / 64 := by
  have := W.dvd_len
  unfold bitsToLongs
  omega

theorem Window.bitsToLongs_le (W : Window) {n : ℕ} (hn : n ≤ W.len) :
    bitsToLongs n ≤ W.len / 64 := by
  rw [← W.bitsToLongs_len]
  exact bitsToLongs_mono hn

namespace Buffer

variable {h : Mem} {p : Ptr} {b : ℕ} {w : ℕ → Word} {W W' : Window}

/-- Rewriting the words of the buffer. -/
theorem store (hb : Buffer h p b w W) (hlen : W'.len = W.len) {w' : ℕ → Word}
    (hbits : ∀ i, i < W.len → bitAt w' i = W'.bit i) :
    Buffer (h.store b (W.len / 64) w') p b w' W' where
  ptr := hb.ptr
  lt_next := hb.lt_next
  live := by rw [hlen]; exact hb.live
  holds := by rw [hlen]; exact Heap.holds_store
  bits i hi := hbits i (hlen ▸ hi)

/-- The same buffer, for a window with the same bits. -/
theorem congr (hb : Buffer h p b w W) (hlen : W'.len = W.len) (hbit : W'.bit = W.bit) :
    Buffer h p b w W' where
  ptr := hb.ptr
  lt_next := hb.lt_next
  live := by rw [hlen]; exact hb.live
  holds := by rw [hlen]; exact hb.holds
  bits i hi := by rw [hbit]; exact hb.bits i (hlen ▸ hi)

theorem test (hb : Buffer h p b w W) {d : ℕ} (hd : d < W.len) :
    testBit d p h = .ok (W.bit d) := by
  have := W.dvd_len
  rw [hb.ptr, testBit_eq hb.holds (by omega), hb.bits d hd]

theorem set (hb : Buffer h p b w W) {d : ℕ} (hd : d < W.len) :
    ∃ w' h', setBit d p h = .ok h' ∧ h.SameBlocks h' ∧ Buffer h' p b w' (W.put d hd) := by
  have := W.dvd_len
  have hlen : (W.put d hd).len = W.len := rfl
  have hle : d < tsnMapSize := hd.trans_le W.len_le
  unfold tsnMapSize at hle
  rw [hb.ptr, setBit_eq hb.holds (by omega) (by omega)]
  refine ⟨_, _, rfl, ⟨rfl, rfl, rfl⟩, hb.ptr ▸ hb.store hlen fun i hi => ?_⟩
  rw [bitAt_set (by decide), hb.bits i hi]
  rfl

theorem clear (hb : Buffer h p b w W) {d : ℕ} (hd : d < W.len) :
    ∃ w' h', clearBit d p h = .ok h' ∧ h.SameBlocks h' ∧ Buffer h' p b w' (W.forget d) := by
  have := W.dvd_len
  have hlen : (W.forget d).len = W.len := rfl
  rw [hb.ptr, clearBit_eq hb.holds (by omega)]
  refine ⟨_, _, rfl, ⟨rfl, rfl, rfl⟩, hb.ptr ▸ hb.store hlen fun i hi => ?_⟩
  rw [bitAt_clear (by decide), hb.bits i hi]
  rfl

/-- Zeroing the whole map. -/
theorem zero (hb : Buffer h p b w W) (hlen : W'.len = W.len) (hbit : ∀ i, W'.bit i = false) :
    ∃ w' h', bitmapZero false p W.len h = .ok h' ∧ h.SameBlocks h' ∧ Buffer h' p b w' W' := by
  rw [hb.ptr, bitmapZero_eq hb.holds W.bitsToLongs_len.le]
  refine ⟨_, _, rfl, ⟨rfl, rfl, rfl⟩, hb.ptr ▸ hb.store hlen fun i hi => ?_⟩
  have := W.dvd_len
  rw [hbit i, bitAt, if_pos (by rw [W.bitsToLongs_len]; omega)]
  simp

theorem shiftRight (hb : Buffer h p b w W) {n : ℕ} (hn : n ≤ W.len) :
    ∃ w' h', bitmapShiftRight false p p n W.len h = .ok h' ∧ h.SameBlocks h' ∧
      Buffer h' p b w' (W.shift n) := by
  have hle := W.len_le
  have hdvd := W.dvd_len
  have hlen : (W.shift n).len = W.len := rfl
  have hlt : W.len < 2 ^ 32 := by unfold tsnMapSize at hle; omega
  have hfit := W.bitsToLongs_len.le
  rw [hb.ptr, bitmapShiftRight_eq hb.holds hb.holds hfit hfit hn hlt]
  refine ⟨_, _, rfl, ⟨rfl, rfl, rfl⟩, hb.ptr ▸ hb.store hlen fun i hi => ?_⟩
  rw [bitAt, if_pos (by rw [W.bitsToLongs_len]; omega), ← bitAt, bitAt_shiftedRight, W.shift_bit]
  -- the bits shifted in come from the map, and past its end they are 0
  by_cases hin : i + n < W.len
  · rw [hb.bits _ hin, decide_eq_true hin, Bool.true_and]
  · rw [W.bit_of_le (by omega), decide_eq_false hin, Bool.false_and]

/-- Searching for the first clear bit among the first `n`. -/
theorem firstZero (hb : Buffer h p b w W) {n : ℕ} (hn : n ≤ W.len) :
    findFirstZeroBit p n h = .ok (firstIn (fun i => !W.bit i) 0 n) := by
  rw [hb.ptr, findFirstZeroBit_eq hb.holds (W.bitsToLongs_le hn)]
  refine congrArg _ (IsFirst.eq_firstIn ((isFirst_firstIn _ _ _).congr fun i _ hi => ?_))
  rw [hb.bits i (by omega)]

theorem nextSet (hb : Buffer h p b w W) (off : ℕ) :
    findNextBit p W.len off h = .ok (firstIn W.bit off W.len) := by
  rw [hb.ptr, findNextBit_eq hb.holds W.bitsToLongs_len.le]
  exact congrArg _ (IsFirst.eq_firstIn ((isFirst_firstIn _ _ _).congr fun i _ hi => hb.bits i hi))

theorem nextZero (hb : Buffer h p b w W) (off : ℕ) :
    findNextZeroBit p W.len off h = .ok (firstIn (fun i => !W.bit i) off W.len) := by
  rw [hb.ptr, findNextZeroBit_eq hb.holds W.bitsToLongs_len.le]
  refine congrArg _ (IsFirst.eq_firstIn ((isFirst_firstIn _ _ _).congr fun i _ hi => ?_))
  rw [hb.bits i hi]

/-- Counting the set bits among the first `n`. -/
theorem weight (hb : Buffer h p b w W) {n : ℕ} (hn : n ≤ W.len) :
    bitmapWeight false p n h = .ok (Nat.count (fun i => W.bit i = true) n) := by
  rw [hb.ptr, bitmapWeight_eq hb.holds (W.bitsToLongs_le hn), popCount,
    Nat.count_eq_card_filter_range, Nat.count_eq_card_filter_range]
  refine congrArg _ (congrArg _ (Finset.filter_congr fun i hi => ?_))
  rw [hb.bits i (by have := Finset.mem_range.mp hi; omega)]

end Buffer

/-- What a map stands for depends only on the blocks of the heap, not on how many there will be. -/
theorem Represents.frame {map : TsnMap} {h h' : Mem} {W : Window} (hr : Represents map h W)
    (hnext : h.next ≤ h'.next) (hstatus : h'.status = h.status) (hcell : h'.cell = h.cell) :
    Represents map h' W := by
  obtain ⟨hn, b, w, hb⟩ := hr
  refine ⟨hn, b, w, hb.ptr, hb.lt_next.trans_le hnext, ?_, ?_, hb.bits⟩
  · rw [hstatus]
    exact hb.live
  · unfold Heap.Holds
    rw [hcell]
    exact hb.holds

/-! ### The numbers in the struct -/

namespace Numbers

variable {map : TsnMap} {W : Window}

theorem offset_eq (hn : Numbers map W) (t : Tsn) : (t - map.baseTsn).toNat = W.offset t := by
  rw [hn.base, Window.offset]

theorem span_lt (W : Window) : W.span < 2 ^ 16 := by
  have := W.span_le
  have := W.len_le
  unfold tsnMapSize at this
  omega

/-- The distance of `max_tsn_seen` from the ack point. -/
theorem max_sub_cum (hn : Numbers map W) :
    (map.maxTsnSeen - map.cumulativeTsnAckPoint).toNat = W.span := by
  have := span_lt W
  rw [hn.max, hn.cum]
  exact offset_base_add W.cum (by omega)

/-- The same distance, cut to 16 bits. -/
theorem max_sub_cum_u16 (hn : Numbers map W) :
    ((map.maxTsnSeen - map.cumulativeTsnAckPoint).setWidth 16).toNat = W.span := by
  have := span_lt W
  rw [BitVec.toNat_setWidth, hn.max_sub_cum]
  omega

theorem hasGap_eq (hn : Numbers map W) : vlstpTsnmapHasGap map = decide (W.span ≠ 0) := by
  have := span_lt W
  have hiff : map.cumulativeTsnAckPoint = map.maxTsnSeen ↔ W.span = 0 := by
    rw [← hn.max_sub_cum, ← BitVec.toNat_inj, BitVec.toNat_sub]
    omega
  rw [Bool.eq_iff_iff, vlstpTsnmapHasGap, bne_iff_ne, decide_eq_true_iff, not_iff_not]
  exact hiff

/-- The 16-bit gap of `vlstp_tsnmap_mark`. -/
theorem gap_toNat (hn : Numbers map W) (t : Tsn) :
    ((t - map.baseTsn).setWidth 16).toNat = W.offset t % 65536 := by
  rw [BitVec.toNat_setWidth, hn.offset_eq]

/-- In the window nothing is cut off. -/
theorem gap_toNat_of_lt (hn : Numbers map W) {t : Tsn} (hlt : W.offset t < tsnMapSize) :
    ((t - map.baseTsn).setWidth 16).toNat = W.offset t := by
  have hlt' : W.offset t < 4096 := hlt
  rw [hn.gap_toNat]
  omega

/-- The size a growing mark asks for, `gap + 1` in 16 bits. -/
theorem size_toNat (hn : Numbers map W) (t : Tsn) :
    ((t - map.baseTsn).setWidth 16 + 1).toNat = (W.offset t % 65536 + 1) % 65536 := by
  rw [BitVec.toNat_add, hn.gap_toNat, toNat_one_u16]

theorem size_toNat_of_lt (hn : Numbers map W) {t : Tsn} (hlt : W.offset t < tsnMapSize) :
    ((t - map.baseTsn).setWidth 16 + 1).toNat = W.offset t + 1 := by
  have hlt' : W.offset t < 4096 := hlt
  rw [hn.size_toNat]
  omega

theorem tsnLt_base_ne_zero_iff (hn : Numbers map W) {t : Tsn} :
    tsnLt t map.baseTsn ≠ 0 ↔ 2 ^ 31 ≤ W.offset t := by
  rw [tsnLt_ne_zero_iff, hn.offset_eq]

theorem tsnLt_base_eq_zero_iff (hn : Numbers map W) {t : Tsn} :
    tsnLt t map.baseTsn = 0 ↔ W.offset t < 2 ^ 31 := by
  rw [tsnLt_eq_zero_iff, hn.offset_eq]

/-- The tests for numbers beyond the window, or beyond the map. -/
theorem tsnLt_far_eq_zero_iff (hn : Numbers map W) {t : Tsn} {k : ℕ} (hk : k ≤ tsnMapSize) :
    tsnLt t (map.baseTsn + BitVec.ofNat 32 k) = 0 ↔ k ≤ W.offset t ∧ W.offset t < 2 ^ 31 + k := by
  have hk' : k ≤ 4096 := hk
  rw [tsnLt_add_eq_zero_iff t map.baseTsn (by omega), hn.offset_eq]

/-- `map->len`, widened. -/
theorem len_u32 (hn : Numbers map W) : map.len.zeroExtend 32 = BitVec.ofNat 32 W.len := by
  rw [← BitVec.toNat_inj, BitVec.toNat_ofNat, ← hn.len]
  simp only [BitVec.toNat_setWidth]

/-- A number in the window raises `max_tsn_seen` if it lies beyond it. -/
theorem tsnLt_max_ne_zero_iff (hn : Numbers map W) {t : Tsn} (hlt : W.offset t < tsnMapSize) :
    tsnLt map.maxTsnSeen t ≠ 0 ↔ W.span < W.offset t + 1 := by
  have hlt' : W.offset t < 4096 := hlt
  have hspan := span_lt W
  rw [hn.max]
  exact tsnLt_offset_ne_zero_iff t (W.cum + 1) rfl (by omega) (show W.offset t + 1 < _ by omega)

/-- Acknowledging the next `n` numbers. -/
theorem shift (hn : Numbers map W) {n : ℕ} (hle : n ≤ W.span) :
    Numbers { map with
      baseTsn := map.baseTsn + BitVec.ofNat 32 n
      cumulativeTsnAckPoint := map.cumulativeTsnAckPoint + BitVec.ofNat 32 n } (W.shift n) where
  cum := by simp only [hn.cum, Window.shift_cum]
  base := by
    simp only [hn.base, Window.shift_cum]
    rw [BitVec.add_assoc, BitVec.add_comm 1, ← BitVec.add_assoc]
  max := by
    calc map.maxTsnSeen = W.cum + BitVec.ofNat 32 W.span := hn.max
      _ = W.cum + BitVec.ofNat 32 (n + (W.span - n)) := by rw [Nat.add_sub_cancel' hle]
      _ = W.cum + BitVec.ofNat 32 n + BitVec.ofNat 32 (W.span - n) := by
        rw [BitVec.ofNat_add, BitVec.add_assoc]
  len := hn.len

end Numbers

/-! ### Marking -/

/-- `max_tsn_seen` raised to a number that lies beyond it, as marking and skipping do. -/
def TsnMap.raiseMax (map : TsnMap) (tsn : Tsn) : TsnMap :=
  if tsnLt map.maxTsnSeen tsn ≠ 0 then { map with maxTsnSeen := tsn } else map

section

variable (map : TsnMap) (tsn : Tsn)

theorem raiseMax_def :
    (if tsnLt map.maxTsnSeen tsn ≠ 0 then { map with maxTsnSeen := tsn } else map) =
      map.raiseMax tsn := rfl

@[simp] theorem raiseMax_tsnMap : (map.raiseMax tsn).tsnMap = map.tsnMap := by
  unfold TsnMap.raiseMax
  split <;> rfl

@[simp] theorem raiseMax_len : (map.raiseMax tsn).len = map.len := by
  unfold TsnMap.raiseMax
  split <;> rfl

@[simp] theorem raiseMax_baseTsn : (map.raiseMax tsn).baseTsn = map.baseTsn := by
  unfold TsnMap.raiseMax
  split <;> rfl

@[simp] theorem raiseMax_cumulativeTsnAckPoint :
    (map.raiseMax tsn).cumulativeTsnAckPoint = map.cumulativeTsnAckPoint := by
  unfold TsnMap.raiseMax
  split <;> rfl

end

/-- `vlstp_tsnmap_mark` from the point on where the map has a bit for the number. -/
def recordTsn (map : TsnMap) (tsn : Tsn) (gap : BitVec 16) (h : Mem) :
    Except Fault (ℤ × TsnMap × Mem) :=
  if !vlstpTsnmapHasGap map && gap == 0 then
    .ok (0, { map with
      maxTsnSeen := map.maxTsnSeen + 1
      cumulativeTsnAckPoint := map.cumulativeTsnAckPoint + 1
      baseTsn := map.baseTsn + 1 }, h)
  else do
    let map := if tsnLt map.maxTsnSeen tsn ≠ 0 then { map with maxTsnSeen := tsn } else map
    let h ← setBit gap.toNat map.tsnMap h
    let (map, h) ← vlstpTsnmapUpdate map h
    return (0, map, h)

section

variable {map : TsnMap} {h : Mem} {W : Window} {t : Tsn}

variable {alloc : ℕ → Mem → Ptr × Mem}

theorem markWith_of_old (ht : tsnLt t map.baseTsn ≠ 0) :
    vlstpTsnmapMarkWith alloc map t h = .ok (0, map, h) := by
  rw [vlstpTsnmapMarkWith, if_pos ht]
  rfl

theorem markWith_of_room (ht : tsnLt t map.baseTsn = 0)
    (hgap : ((t - map.baseTsn).setWidth 16).toNat < map.len.toNat) :
    vlstpTsnmapMarkWith alloc map t h = recordTsn map t ((t - map.baseTsn).setWidth 16) h := by
  rw [vlstpTsnmapMarkWith, if_neg (not_not.mpr ht)]
  simp only [if_neg (Nat.not_le.mpr hgap)]
  rfl

theorem markWith_of_grow (ht : tsnLt t map.baseTsn = 0)
    (hgap : map.len.toNat ≤ ((t - map.baseTsn).setWidth 16).toNat) :
    vlstpTsnmapMarkWith alloc map t h =
      (vlstpTsnmapGrowWith alloc map ((t - map.baseTsn).setWidth 16 + 1) h).bind
        fun (grown, map', h') =>
          if !grown then .ok (-enomem, map', h')
          else recordTsn map' t ((t - map.baseTsn).setWidth 16) h' := by
  rw [vlstpTsnmapMarkWith, if_neg (not_not.mpr ht)]
  simp only [if_pos hgap]
  rfl

theorem mark_of_old (ht : tsnLt t map.baseTsn ≠ 0) : vlstpTsnmapMark map t h = .ok (0, map, h) :=
  markWith_of_old ht

theorem mark_of_room (ht : tsnLt t map.baseTsn = 0)
    (hgap : ((t - map.baseTsn).setWidth 16).toNat < map.len.toNat) :
    vlstpTsnmapMark map t h = recordTsn map t ((t - map.baseTsn).setWidth 16) h :=
  markWith_of_room ht hgap

theorem mark_of_grow (ht : tsnLt t map.baseTsn = 0)
    (hgap : map.len.toNat ≤ ((t - map.baseTsn).setWidth 16).toNat) :
    vlstpTsnmapMark map t h =
      (vlstpTsnmapGrow map ((t - map.baseTsn).setWidth 16 + 1) h).bind fun (grown, map', h') =>
        if !grown then .ok (-enomem, map', h')
        else recordTsn map' t ((t - map.baseTsn).setWidth 16) h' :=
  markWith_of_grow ht hgap

/-- `vlstp_tsnmap_update`. -/
theorem Represents.update (hr : Represents map h W) :
    ∃ map' h', vlstpTsnmapUpdate map h = .ok (map', h') ∧ Represents map' h' W.update ∧
      h.SameBlocks h' := by
  obtain ⟨hn, b, w, hb⟩ := hr
  have hspan := W.span_le
  unfold vlstpTsnmapUpdate
  simp only [hn.max_sub_cum_u16, hb.firstZero hspan, Except.ok_bind]
  change ∃ map' h', (if W.received = 0 then _ else _) = _ ∧ _
  by_cases hz : W.received = 0
  · -- the first number is missing: nothing to acknowledge
    rw [if_pos hz, Window.update, hz, W.shift_zero]
    exact ⟨map, h, rfl, ⟨hn, b, w, hb⟩, .refl h⟩
  · have hle := W.received_le
    obtain ⟨w', h', hshift, hsame, hb'⟩ := hb.shiftRight (hle.trans hspan)
    rw [if_neg hz]
    simp only [hn.len]
    rw [show firstIn (fun i => !W.bit i) 0 W.span = W.received from rfl, hshift, Except.ok_bind]
    exact ⟨_, h', rfl, ⟨hn.shift hle, b, w', hb'⟩, hsame⟩

theorem Numbers.bump (hn : Numbers map W) :
    Numbers { map with
      maxTsnSeen := map.maxTsnSeen + 1
      cumulativeTsnAckPoint := map.cumulativeTsnAckPoint + 1
      baseTsn := map.baseTsn + 1 } W.bump where
  cum := by simp only [hn.cum, Window.bump]
  base := by simp only [hn.base, Window.bump]
  max := by
    simp only [hn.max, Window.bump]
    rw [BitVec.add_assoc, BitVec.add_comm _ 1, ← BitVec.add_assoc]
  len := hn.len

/-- What raising does to the highest number seen: it is the larger of the two. -/
theorem raiseMax_maxTsnSeen (hn : Numbers map W) (hlt : W.offset t < tsnMapSize) :
    (map.raiseMax t).maxTsnSeen = W.cum + BitVec.ofNat 32 (max W.span (W.offset t + 1)) := by
  unfold TsnMap.raiseMax
  by_cases hraise : tsnLt map.maxTsnSeen t ≠ 0
  · -- beyond the highest number
    have hpast := (hn.tsnLt_max_ne_zero_iff hlt).mp hraise
    rw [if_pos hraise, Nat.max_eq_right hpast.le]
    exact (W.cum_add_offset t).symm
  · have hpast : ¬ W.span < W.offset t + 1 := fun h => hraise ((hn.tsnLt_max_ne_zero_iff hlt).mpr h)
    rw [if_neg hraise, Nat.max_eq_left (Nat.not_lt.mp hpast)]
    exact hn.max

/-- Raising `max_tsn_seen` to a number the map has a bit for. -/
theorem Numbers.raise (hn : Numbers map W) (hd : W.offset t < W.len) :
    Numbers (map.raiseMax t) (W.put (W.offset t) hd) where
  cum := by
    rw [raiseMax_cumulativeTsnAckPoint]
    exact hn.cum
  base := by
    rw [raiseMax_baseTsn]
    exact hn.base
  max := raiseMax_maxTsnSeen hn (hd.trans_le W.len_le)
  len := by
    rw [raiseMax_len]
    exact hn.len

/-- The part of `vlstp_tsnmap_mark` that records. -/
theorem Represents.record (hr : Represents map h W) (hd : W.offset t < W.len) :
    ∃ map' h', recordTsn map t ((t - map.baseTsn).setWidth 16) h = .ok (0, map', h') ∧
      Represents map' h' (W.accept (W.offset t) hd) ∧ h.SameBlocks h' := by
  obtain ⟨hn, b, w, hb⟩ := hr
  have hgap := hn.gap_toNat_of_lt (hd.trans_le W.len_le)
  have hcond : (!vlstpTsnmapHasGap map && (t - map.baseTsn).setWidth 16 == 0) =
      decide (W.span = 0 ∧ W.offset t = 0) := by
    rw [hn.hasGap_eq, Bool.eq_iff_iff, Bool.and_eq_true, beq_iff_eq, ← BitVec.toNat_inj, hgap]
    simp
  unfold recordTsn Window.accept
  rw [hcond]
  by_cases hz : W.span = 0 ∧ W.offset t = 0
  · -- the next number in turn, and no gap: the bits are not touched
    rw [if_pos (decide_eq_true hz), if_pos hz]
    exact ⟨_, h, rfl, ⟨hn.bump, b, w, hb.congr rfl rfl⟩, .refl h⟩
  · -- the bit is set, and what is complete is shifted out
    rw [if_neg (by simpa using hz), if_neg hz, hgap]
    obtain ⟨w', h', hset, hsame, hb'⟩ := hb.set hd
    simp only [raiseMax_def, raiseMax_tsnMap, hset, Except.ok_bind]
    have hput : Represents (map.raiseMax t) h' (W.put (W.offset t) hd) := by
      refine ⟨hn.raise hd, b, w', ?_⟩
      rw [raiseMax_tsnMap]
      exact hb'
    obtain ⟨map'', h'', hupd, hr'', hsame'⟩ := hput.update
    rw [hupd, Except.ok_bind]
    exact ⟨map'', h'', rfl, hr'', hsame.trans hsame'⟩

end

/-! ### Growing -/

/-- The length a growing map gets, as the source computes it in three widths. -/
theorem toNat_grownLen {len size : BitVec 16} (hle : len.toNat ≤ size.toNat)
    (hsize : size.toNat ≤ tsnMapSize) :
    (grownLen len size).toNat = Window.grownTo len.toNat size.toNat := by
  unfold tsnMapSize at hsize
  have h63 : (63 : BitVec 32).toNat = 63 := rfl
  have hdiff : (size.zeroExtend 32 - len.zeroExtend 32).toNat = size.toNat - len.toNat := by
    simp only [BitVec.toNat_sub, BitVec.toNat_setWidth]
    omega
  set inc32 : BitVec 32 := ((size.zeroExtend 32 - len.zeroExtend 32 + 63) &&& ~~~63) +
    tsnMapIncrement with hinc32
  have hinc : inc32.toNat = (size.toNat - len.toNat + 63) / 64 * 64 + 64 := by
    have h64 : tsnMapIncrement.toNat = 64 := rfl
    -- `ALIGN(x, 64)` adds 63 and rounds down
    have halign (x : BitVec 32) : (x &&& ~~~63).toNat = x.toNat / 64 * 64 :=
      toNat_and_not_lowMask x 6
    rw [hinc32, BitVec.toNat_add, halign, BitVec.toNat_add, hdiff, h63, h64]
    omega
  -- `inc` is an `int` and gets sign-extended, but it is never negative
  have hsext : (inc32.signExtend 64).toNat = inc32.toNat := by
    have hmsb : inc32.msb = false := by
      rw [BitVec.msb_eq_decide, decide_eq_false_iff_not]
      omega
    rw [BitVec.signExtend_eq_setWidth_of_msb_false hmsb, BitVec.toNat_setWidth]
    omega
  have hsum : (len.zeroExtend 64 + inc32.signExtend 64).toNat =
      len.toNat + ((size.toNat - len.toNat + 63) / 64 * 64 + 64) := by
    simp only [BitVec.toNat_add, hsext, hinc, BitVec.toNat_setWidth]
    omega
  have hmax : (BitVec.ofNat 64 tsnMapSize).toNat = 4096 := rfl
  simp only [grownLen, ← hinc32, BitVec.lt_def, hsum, hmax, Window.grownTo]
  change _ = min _ 4096
  by_cases hlt : len.toNat + ((size.toNat - len.toNat + 63) / 64 * 64 + 64) < 4096
  · rw [if_pos hlt, BitVec.toNat_setWidth, hsum, Nat.min_eq_left hlt.le,
      Nat.mod_eq_of_lt (by omega)]
  · rw [if_neg hlt, BitVec.toNat_setWidth, hmax, Nat.min_eq_right (Nat.not_lt.mp hlt)]

/-- The bytes a map of `len` bits asks for. -/
theorem toNat_ushiftRight_three (len : BitVec 16) : (len >>> 3).toNat = len.toNat / 8 := by
  rw [BitVec.toNat_ushiftRight, Nat.shiftRight_eq_div_pow]

section

variable {map : TsnMap} {h : Mem} {W : Window} {d : ℕ} {size : BitVec 16} {c : ℕ → Word}

/-- `vlstp_tsnmap_grow` without memory. -/
theorem Represents.grow_of_none (hsize : size.toNat ≤ tsnMapSize) (ho : h.oracle h.next = none) :
    vlstpTsnmapGrow map size h = .ok (false, map, { h with next := h.next + 1 }) := by
  simp only [vlstpTsnmapGrowWith, if_neg (Nat.not_lt.mpr hsize), malloc, Heap.malloc_of_none ho,
    if_true, Except.pure_eq]

/-- `vlstp_tsnmap_grow` into memory that reads as `c`. -/
theorem Represents.grow (hr : Represents map h W) (hd : W.len ≤ d) (hlt : d < tsnMapSize)
    (hsize : size.toNat = d + 1) (ho : h.oracle h.next = some c) :
    ∃ map' h', vlstpTsnmapGrow map size h = .ok (true, map', h') ∧
      Represents map' h' (W.grow c d hd hlt) ∧ h'.next = h.next + 1 ∧ h'.oracle = h.oracle := by
  obtain ⟨hn, b, w, hb⟩ := hr
  set W' := W.grow c d hd hlt with hW'
  have hsize' : size.toNat ≤ tsnMapSize := by omega
  have hlen : (grownLen map.len size).toNat = W'.len := by
    rw [toNat_grownLen (by rw [hn.len]; omega) hsize', hn.len, hsize]
    rfl
  have hdvd := W'.dvd_len
  have hne : b ≠ h.next := Nat.ne_of_lt hb.lt_next
  obtain ⟨h₁, hmalloc, hnext₁, horacle₁, hlive₁, hexc₁, hholds₁⟩ :=
    Heap.malloc_of_some ho 8 (grownLen map.len size >>> 3).toNat
  rw [toNat_ushiftRight_three, hlen] at hlive₁ hholds₁
  -- the old words reach the new block, and the old block is then freed
  have hnew := hholds₁ (W'.len / 64) (by omega)
  have hold := hexc₁.holds hne hb.holds
  have hfit : bitsToLongs W.span ≤ W'.len / 64 := by
    refine W'.bitsToLongs_le ?_
    have := W.span_le
    have := Window.lt_grownTo hd hlt
    rw [hW']
    simp only [Window.grow]
    omega
  have hcopy := bitmapCopy_eq hnew hold hfit (W.bitsToLongs_le W.span_le)
  set w' : ℕ → Word := fun k => if k < bitsToLongs W.span then w k else c k with hw'
  have hlive₂ : (h₁.store h.next (W'.len / 64) w').status b = .live (W.len / 8) := by
    rw [Heap.store_status, (hexc₁ b hne).1, hb.live]
  obtain ⟨h₃, hfree, hnext₃, horacle₃, -, hexc₃⟩ := Heap.free_of_live hlive₂
  refine ⟨{ map with tsnMap := some h.next, len := grownLen map.len size }, h₃, ?_, ⟨?_, ?_⟩,
    by rw [hnext₃, Heap.store_next, hnext₁], by rw [horacle₃, Heap.store_oracle, horacle₁]⟩
  · rw [← hb.ptr] at hcopy hfree
    simp only [vlstpTsnmapGrowWith, if_neg (Nat.not_lt.mpr hsize'), malloc, hmalloc, reduceCtorEq,
      if_false, hn.max_sub_cum, hcopy, Except.ok_bind, hfree, Except.pure_eq]
  · exact ⟨hn.cum, hn.base, hn.max, hlen⟩
  · refine ⟨h.next, w', rfl, ?_, ?_, ?_, fun i hi => ?_⟩
    · rw [hnext₃, Heap.store_next, hnext₁]
      exact Nat.lt_succ_self _
    · rw [(hexc₃ h.next hne.symm).1, Heap.store_status, hlive₁]
    · exact hexc₃.holds hne.symm Heap.holds_store
    · -- a bit is copied with its word, or is what the new block reads as
      have hcop := W.copied_le
      change _ = if i < W.copied then W.bit i else decide (i < W'.len) && bitAt c i
      by_cases hlow : i < W.copied
      · rw [if_pos hlow, ← hb.bits i (by omega), bitAt, bitAt]
        unfold Window.copied at hlow
        rw [hw']
        simp only
        rw [if_pos (by omega)]
      · rw [if_neg hlow, decide_eq_true hi, Bool.true_and, bitAt, bitAt]
        unfold Window.copied at hlow
        rw [hw']
        simp only
        rw [if_neg (by omega)]

end

/-! ### The functions of the map -/

section

variable {map : TsnMap} {h : Mem} {W : Window} {t : Tsn} {c : ℕ → Word}

/-- An old number is not marked again. -/
theorem Represents.mark_old (hr : Represents map h W) (hd : 2 ^ 31 ≤ W.offset t) :
    vlstpTsnmapMark map t h = .ok (0, map, h) :=
  mark_of_old (hr.numbers.tsnLt_base_ne_zero_iff.mpr hd)

/-- **`vlstp_tsnmap_mark` in the window**, when there is memory if the map has to grow. -/
theorem Represents.mark (hr : Represents map h W) (hlt : W.offset t < tsnMapSize)
    (ho : W.len ≤ W.offset t → h.oracle h.next = some c) :
    ∃ map' h', vlstpTsnmapMark map t h = .ok (0, map', h') ∧
      Represents map' h' (W.receive c (W.offset t) hlt) ∧ h'.oracle = h.oracle ∧
      h'.next = h.next + if W.len ≤ W.offset t then 1 else 0 := by
  have hn := hr.numbers
  have hnew : tsnLt t map.baseTsn = 0 := hn.tsnLt_base_eq_zero_iff.mpr (hlt.trans (by decide))
  have hgap := hn.gap_toNat_of_lt hlt
  have hroom := W.lt_len_room c hlt
  unfold Window.receive
  by_cases hd : W.len ≤ W.offset t
  · -- the map is grown first
    have hsize := hn.size_toNat_of_lt hlt
    obtain ⟨map₁, h₁, hgrow, hr₁, hnext₁, horacle₁⟩ := hr.grow hd hlt hsize (ho hd)
    have hroom_eq : W.room c (W.offset t) hlt = W.grow c (W.offset t) hd hlt := dif_pos hd
    rw [← hroom_eq] at hr₁
    have hsame : t - map₁.baseTsn = t - map.baseTsn := by
      rw [hr₁.numbers.base, hn.base, hroom_eq]
      rfl
    have hoff := W.room_offset c hlt t
    obtain ⟨map₂, h₂, hrec, hr₂, hblocks⟩ := hr₁.record (by rw [hoff]; exact hroom)
    rw [mark_of_grow hnew (by rw [hgap, hn.len]; exact hd), hgrow, ← hsame]
    refine ⟨map₂, h₂, hrec, ?_, ?_, ?_⟩
    · simpa only [hoff] using hr₂
    · rw [hblocks.2.2, horacle₁]
    · rw [hblocks.2.1, hnext₁, if_pos hd]
  · -- the map has a bit for the number
    have hroom_eq : W.room c (W.offset t) hlt = W := dif_neg hd
    obtain ⟨map₁, h₁, hrec, hr₁, hblocks⟩ := hr.record (Nat.not_le.mp hd)
    rw [mark_of_room hnew (by rw [hgap, hn.len]; omega)]
    refine ⟨map₁, h₁, hrec, ?_, hblocks.2.2, by rw [hblocks.2.1, if_neg hd, Nat.add_zero]⟩
    simpa only [hroom_eq] using hr₁

/-- `vlstp_tsnmap_mark` when the map has to grow and there is no memory. -/
theorem Represents.mark_of_none (hr : Represents map h W) (hlt : W.offset t < tsnMapSize)
    (hd : W.len ≤ W.offset t) (ho : h.oracle h.next = none) :
    vlstpTsnmapMark map t h = .ok (-enomem, map, { h with next := h.next + 1 }) := by
  have hn := hr.numbers
  have hnew : tsnLt t map.baseTsn = 0 := hn.tsnLt_base_eq_zero_iff.mpr (hlt.trans (by decide))
  have hgap := hn.gap_toNat_of_lt hlt
  have hsize : ((t - map.baseTsn).setWidth 16 + 1).toNat ≤ tsnMapSize := by
    rw [hn.size_toNat_of_lt hlt]
    exact hlt
  rw [mark_of_grow hnew (by rw [hgap, hn.len]; exact hd), Represents.grow_of_none hsize ho]
  rfl

/-- `vlstp_tsnmap_mark` of a number whose offset, cut to 16 bits, is out of the window. -/
theorem Represents.mark_of_far (hr : Represents map h W) (hd : W.offset t < 2 ^ 31)
    (hfar : tsnMapSize ≤ W.offset t % 65536) (hlast : W.offset t % 65536 ≠ 65535) :
    vlstpTsnmapMark map t h = .ok (-enomem, map, h) := by
  have hn := hr.numbers
  have hlen := W.len_le
  have hgap := hn.gap_toNat t
  -- cut to 16 bits, `gap + 1` still exceeds the largest map, as it does not come out as 0
  have hsize : ((t - map.baseTsn).setWidth 16 + 1).toNat > tsnMapSize := by
    rw [hn.size_toNat]
    omega
  rw [mark_of_grow (hn.tsnLt_base_eq_zero_iff.mpr hd) (by rw [hgap, hn.len]; omega),
    vlstpTsnmapGrow, vlstpTsnmapGrowWith, if_pos hsize]
  rfl

/-- The numbers `vlstp_tsnmap_skip` refuses. -/
theorem Represents.skip_of_far (hr : Represents map h W) (hd : tsnMapSize ≤ W.offset t) :
    vlstpTsnmapSkip map t h = .ok (map, h) := by
  have hn := hr.numbers
  unfold vlstpTsnmapSkip
  by_cases hold : 2 ^ 31 ≤ W.offset t
  · rw [if_pos (hn.tsnLt_base_ne_zero_iff.mpr hold)]
    rfl
  · have hfar : tsnLt t (map.baseTsn + BitVec.ofNat 32 tsnMapSize) = 0 :=
      (hn.tsnLt_far_eq_zero_iff (Nat.le_refl _)).mpr ⟨hd, by omega⟩
    rw [if_neg (fun h => hold (hn.tsnLt_base_ne_zero_iff.mp h)), if_pos hfar]
    rfl

/-- Raising `max_tsn_seen` over the number at offset `d` and then acknowledging up to it. -/
theorem Numbers.skip (hn : Numbers map W) (hlt : W.offset t < tsnMapSize) :
    Numbers { map.raiseMax t with
      baseTsn := map.baseTsn + (t - map.baseTsn + 1)
      cumulativeTsnAckPoint := map.cumulativeTsnAckPoint + (t - map.baseTsn + 1) }
      (W.shift (W.offset t + 1)) := by
  have hgap : t - map.baseTsn + 1 = BitVec.ofNat 32 (W.offset t + 1) := by
    rw [BitVec.ofNat_add, Window.offset, BitVec.ofNat_toNat, BitVec.setWidth_eq, hn.base]
    rfl
  refine ⟨?_, ?_, ?_, ?_⟩
  · simp only [hgap, hn.cum, Window.shift_cum]
  · rw [hgap, hn.base, Window.shift_cum, BitVec.add_assoc, BitVec.add_comm 1, ← BitVec.add_assoc]
  · -- nothing is left of the span where the number lies beyond it
    simp only [raiseMax_maxTsnSeen hn hlt, Window.shift_cum, Window.shift_span]
    rw [BitVec.add_assoc, ← BitVec.ofNat_add]
    exact congrArg (fun n => W.cum + BitVec.ofNat 32 n) (by omega)
  · simp only [raiseMax_len]
    exact hn.len

/-- **`vlstp_tsnmap_skip` in the window.** -/
theorem Represents.skip (hr : Represents map h W) (hlt : W.offset t < tsnMapSize) :
    ∃ map' h', vlstpTsnmapSkip map t h = .ok (map', h') ∧
      Represents map' h' (W.skip (W.offset t)) ∧ h.SameBlocks h' := by
  obtain ⟨hn, b, w, hb⟩ := hr
  have hlt' : W.offset t < 4096 := hlt
  have hnew : ¬ tsnLt t map.baseTsn ≠ 0 := fun h => by
    have := hn.tsnLt_base_ne_zero_iff.mp h
    omega
  have hnear : ¬ tsnLt t (map.baseTsn + BitVec.ofNat 32 tsnMapSize) = 0 := fun h =>
    Nat.not_le.mpr hlt ((hn.tsnLt_far_eq_zero_iff (Nat.le_refl _)).mp h).1
  have hgap : (t - map.baseTsn + 1).toNat = W.offset t + 1 := by
    rw [BitVec.toNat_add, hn.offset_eq, toNat_one_u32]
    omega
  have hnum := hn.skip hlt
  unfold vlstpTsnmapSkip
  rw [if_neg hnew, if_neg hnear]
  simp only [raiseMax_def, raiseMax_baseTsn, raiseMax_len, raiseMax_tsnMap,
    raiseMax_cumulativeTsnAckPoint, hgap, hn.len] at hnum ⊢
  by_cases hd : W.offset t + 1 ≥ W.len
  · -- past the map: it is zeroed
    obtain ⟨w', h', hzero, hblocks, hb'⟩ :=
      hb.zero (W.shift_len _) (W.shift_bit_of_len_le hd)
    rw [if_pos hd, hzero, Except.ok_bind, W.skip_of_len_le hd]
    exact ⟨_, h', rfl, ⟨hnum, b, w', hb'⟩, hblocks⟩
  · -- in the map: it is shifted, and what is complete behind the number is shifted out
    obtain ⟨w', h', hshift, hblocks, hb'⟩ := hb.shiftRight (show W.offset t + 1 ≤ W.len by omega)
    rw [if_neg hd, hshift, Except.ok_bind]
    obtain ⟨map'', h'', hupd, hr'', hblocks'⟩ := Represents.update ⟨hnum, b, w', hb'⟩
    exact ⟨map'', h'', hupd, hr'', hblocks.trans hblocks'⟩

/-- `vlstp_tsnmap_renege` of a number the map has no bit for. -/
theorem Represents.renege_of_far (hr : Represents map h W) (hd : W.len ≤ W.offset t) :
    vlstpTsnmapRenege map t h = .ok h := by
  have hn := hr.numbers
  unfold vlstpTsnmapRenege
  by_cases hold : 2 ^ 31 ≤ W.offset t
  · rw [if_pos (hn.tsnLt_base_ne_zero_iff.mpr hold)]
  · have hfar : tsnLt t (map.baseTsn + map.len.zeroExtend 32) = 0 := by
      rw [hn.len_u32]
      exact (hn.tsnLt_far_eq_zero_iff W.len_le).mpr ⟨hd, by omega⟩
    rw [if_neg (fun h => hold (hn.tsnLt_base_ne_zero_iff.mp h)), if_pos hfar]

/-- **`vlstp_tsnmap_renege` of a number the map has a bit for.** -/
theorem Represents.renege (hr : Represents map h W) (hd : W.offset t < W.len) :
    ∃ h', vlstpTsnmapRenege map t h = .ok h' ∧ Represents map h' (W.forget (W.offset t)) ∧
      h.SameBlocks h' := by
  obtain ⟨hn, b, w, hb⟩ := hr
  have hle : W.len ≤ 4096 := W.len_le
  have hnew : ¬ tsnLt t map.baseTsn ≠ 0 := fun h => by
    have := hn.tsnLt_base_ne_zero_iff.mp h
    omega
  have hnear : ¬ tsnLt t (map.baseTsn + map.len.zeroExtend 32) = 0 := by
    rw [hn.len_u32, hn.tsnLt_far_eq_zero_iff W.len_le]
    exact fun h => Nat.not_le.mpr hd h.1
  obtain ⟨w', h', hclear, hblocks, hb'⟩ := hb.clear hd
  unfold vlstpTsnmapRenege
  rw [if_neg hnew, if_neg hnear, hn.offset_eq, hclear]
  exact ⟨h', rfl, ⟨⟨hn.cum, hn.base, hn.max, hn.len⟩, b, w', hb'⟩, hblocks⟩

end

/-! ### Initialising and reading -/

section

variable {map : TsnMap} {h : Mem} {W : Window} {t : Tsn} {c : ℕ → Word}

theorem sub_one_add_one (t : Tsn) : t - 1 + 1 = t := BitVec.sub_add_cancel t 1

/-- `vlstp_tsnmap_init` takes a buffer of whatever length it is given. -/
theorem init_of_malloc {alloc : ℕ → Mem → Ptr × Mem} (hp : map.tsnMap = none) (len : BitVec 16)
    {b : ℕ} {h₁ : Mem} (halloc : alloc (len >>> 3).toNat h = (some b, h₁)) :
    vlstpTsnmapInitWith alloc map len t h =
      .ok (true, vlstpTsnmapInit.start t { map with tsnMap := some b, len := len }, h₁) := by
  simp only [vlstpTsnmapInitWith, if_pos hp, halloc, reduceCtorEq, if_false, Except.pure_eq]

/-- **`vlstp_tsnmap_init` of a struct without a buffer.** -/
theorem init_of_none (hp : map.tsnMap = none) {len : BitVec 16} (hpos : 0 < len.toNat)
    (hle : len.toNat ≤ tsnMapSize) (hdvd : 64 ∣ len.toNat) (ho : h.oracle h.next = some c) :
    ∃ map' h', vlstpTsnmapInit map len t h = .ok (true, map', h') ∧
      Represents map' h' (Window.fresh (t - 1) len.toNat c hpos hle hdvd) ∧
      h'.next = h.next + 1 ∧ h'.oracle = h.oracle := by
  obtain ⟨h₁, hmalloc, hnext₁, horacle₁, hlive₁, -, hholds₁⟩ :=
    Heap.malloc_of_some ho 8 (len >>> 3).toNat
  rw [toNat_ushiftRight_three] at hlive₁ hholds₁
  have hholds := hholds₁ (len.toNat / 64) (show len.toNat / 64 * 8 ≤ len.toNat / 8 by omega)
  refine ⟨_, h₁, init_of_malloc hp len hmalloc, ⟨⟨rfl, (sub_one_add_one t).symm, ?_, rfl⟩,
    h.next, c, rfl, ?_, hlive₁, hholds, fun i hi => ?_⟩, hnext₁, horacle₁⟩
  · simp [vlstpTsnmapInit.start, Window.fresh]
  · rw [hnext₁]
    exact Nat.lt_succ_self _
  · have hi' : i < len.toNat := hi
    simp [Window.fresh, hi']

/-- **`vlstp_tsnmap_init` of a map in use**: the buffer and its length stay. -/
theorem Represents.init (hr : Represents map h W) (len : BitVec 16) (t : Tsn) :
    ∃ map' h', vlstpTsnmapInit map len t h = .ok (true, map', h') ∧
      Represents map' h' (W.restart (t - 1)) ∧ h.SameBlocks h' := by
  obtain ⟨hn, b, w, hb⟩ := hr
  have hp : map.tsnMap ≠ none := by
    rw [hb.ptr]
    exact Option.some_ne_none b
  have hlen : (W.restart (t - 1)).len = W.len := rfl
  obtain ⟨w', h', hzero, hblocks, hb'⟩ := hb.zero hlen fun _ => rfl
  have hinit : vlstpTsnmapInit map len t h = .ok (true, vlstpTsnmapInit.start t map, h') := by
    simp only [vlstpTsnmapInitWith, if_neg hp, hn.len, hzero, Except.ok_bind, Except.pure_eq]
  refine ⟨_, h', hinit, ⟨⟨rfl, (sub_one_add_one t).symm, ?_, hn.len⟩, b, w', hb'⟩, hblocks⟩
  simp [vlstpTsnmapInit.start, Window.restart]

/-- **`vlstp_tsnmap_check`.** -/
theorem Represents.check (hr : Represents map h W) (t : Tsn) :
    vlstpTsnmapCheck map t h = .ok (W.check (W.offset t)) := by
  obtain ⟨hn, b, w, hb⟩ := hr
  have hlt := W.offset_lt t
  have hold : tsnLte t map.cumulativeTsnAckPoint = true ↔ 2 ^ 31 ≤ W.offset t + 1 := by
    rw [← hn.offset_eq]
    exact tsnLte_sub_one_iff t map.baseTsn (by rw [hn.base, hn.cum])
  have hfar := hn.tsnLt_far_eq_zero_iff (t := t) (Nat.le_refl _)
  unfold vlstpTsnmapCheck Window.check
  by_cases ho : 2 ^ 31 ≤ W.offset t + 1
  · rw [if_pos (hold.mpr ho), if_pos ho]
  · rw [if_neg (fun h => ho (hold.mp h)), if_neg ho]
    by_cases hf : tsnMapSize ≤ W.offset t
    · rw [if_pos (hfar.mpr ⟨hf, by omega⟩), if_pos hf]
    · -- in the window; past the length of the map no bit is read
      rw [if_neg (fun h => hf (hfar.mp h).1), if_neg hf]
      simp only [hn.offset_eq, hn.len]
      by_cases hd : W.offset t < W.len
      · rw [if_pos hd, hb.test hd]
        rfl
      · rw [if_neg hd, W.bit_of_le (Nat.not_lt.mp hd)]
        rfl

/-- **`vlstp_tsnmap_pending`.** -/
theorem Represents.pending (hr : Represents map h W) :
    vlstpTsnmapPending map h = .ok (BitVec.ofNat 16 W.pending) := by
  obtain ⟨hn, b, w, hb⟩ := hr
  have hspan := W.span_le
  have hspan' := Numbers.span_lt W
  have hpending : (map.maxTsnSeen - map.cumulativeTsnAckPoint).setWidth 16 =
      BitVec.ofNat 16 W.span := by
    rw [← BitVec.toNat_inj, hn.max_sub_cum_u16, BitVec.toNat_ofNat]
    omega
  have hgap : map.maxTsnSeen - map.baseTsn = BitVec.ofNat 32 W.span - 1 := by
    rw [hn.max, hn.base, BitVec.add_comm W.cum, BitVec.add_comm W.cum, add_sub_add_right]
  unfold vlstpTsnmapPending Window.pending
  simp only [hpending, hgap, hn.len]
  have hgap' : (BitVec.ofNat 32 W.span - 1).toNat = (W.span + 2 ^ 32 - 1) % 2 ^ 32 := by
    rw [BitVec.toNat_sub, BitVec.toNat_ofNat, toNat_one_u32]
    omega
  -- without a gap `max - base` wraps around, which is what `gap >= len` catches
  have hcond : (BitVec.ofNat 32 W.span - 1 = 0 ∨ (BitVec.ofNat 32 W.span - 1).toNat ≥ W.len) ↔
      W.span ≤ 1 := by
    have hzero : (0 : BitVec 32).toNat = 0 := rfl
    have hle : W.len ≤ 4096 := W.len_le
    rw [← BitVec.toNat_inj, hgap', hzero]
    omega
  by_cases h1 : W.span ≤ 1
  · rw [if_pos (hcond.mpr h1), if_pos h1]
  · have hnum : (BitVec.ofNat 32 W.span - 1 + 1).toNat = W.span := by
      rw [sub_one_add_one, BitVec.toNat_ofNat]
      omega
    rw [if_neg (fun h => h1 (hcond.mp h)), if_neg h1, hnum, hb.weight hspan, Except.ok_bind,
      Except.pure_eq]
    have hcount : Nat.count (fun i => W.bit i = true) W.span ≤ W.span := Nat.count_le _
    congr 1
    rw [← BitVec.toNat_inj]
    simp only [BitVec.toNat_sub, BitVec.toNat_ofNat]
    omega

/-- The block reported for a run: the numbers count from the ack point, one before the first bit. -/
def gapAckBlock (run : ℕ × ℕ) : GapAckBlock :=
  ⟨BitVec.ofNat 16 (run.1 + 1), BitVec.ofNat 16 (run.2 + 1)⟩

/-- `vlstp_tsnmap_find_gap_ack`: an end of 0 says that the run reaches the end of the map. -/
theorem Represents.findGapAck (hr : Represents map h W) {off : BitVec 16} :
    vlstpTsnmapFindGapAck map.tsnMap off map.len 0 0 h =
      .ok (match W.findRun off.toNat with
        | none => (0, 0)
        | some (i, j) => (BitVec.ofNat 16 i, if j + 1 < W.len then BitVec.ofNat 16 j else 0)) := by
  obtain ⟨hn, b, w, hb⟩ := hr
  have hlen : W.len ≤ 4096 := W.len_le
  simp only [vlstpTsnmapFindGapAck, hn.len, hb.nextSet, hb.nextZero, Except.ok_bind]
  cases hrun : W.findRun off.toNat with
  | none =>
    -- no set bit, or the one at offset 0, which the 0 that stands for "not found" hides
    have hstart : (if firstIn W.bit off.toNat W.len < W.len then
        BitVec.ofNat 16 (firstIn W.bit off.toNat W.len) else 0) = 0 := by
      simp only [Window.findRun, ite_eq_right_iff, reduceCtorEq, imp_false, not_and,
        not_not] at hrun
      by_cases hlt : firstIn W.bit off.toNat W.len < W.len
      · rw [if_pos hlt, hrun hlt]
        rfl
      · rw [if_neg hlt]
    rw [hstart]
    rfl
  | some run =>
    obtain ⟨i, j⟩ := run
    obtain ⟨hpos, hij, hj, hi, he⟩ := W.findRun_eq_some hrun
    have hne : BitVec.ofNat 16 i ≠ 0 := by
      intro hzero
      have := congrArg BitVec.toNat hzero
      rw [BitVec.toNat_ofNat] at this
      change i % 65536 = 0 at this
      omega
    rw [← hi.eq_firstIn, if_pos (show i < W.len by omega), if_pos hne, ← he.eq_firstIn]
    rfl

/-- **`vlstp_tsnmap_next_gap_ack`**, for an iterator in the window. -/
theorem Represents.nextGapAck (hr : Represents map h W) {off : ℕ} (hoff : off ≤ W.len) :
    vlstpTsnmapNextGapAck map ⟨W.tsnAt off⟩ h =
      .ok (match W.nextRun off with
        | none => (none, ⟨W.tsnAt off⟩)
        | some run => (some (gapAckBlock run), ⟨W.tsnAt (run.2 + 1)⟩)) := by
  have hn := hr.numbers
  have hspan := W.span_le
  have hlen : W.len ≤ 4096 := W.len_le
  have hdone : tsnLte map.maxTsnSeen (W.tsnAt off) = true ↔ ¬ off + 1 < W.span := by
    rw [tsnLte_iff, ← BitVec.toNat_inj, hn.max, Window.tsnAt]
    simp only [BitVec.toNat_sub, BitVec.toNat_add, BitVec.toNat_ofNat, toNat_one_u32]
    omega
  unfold vlstpTsnmapNextGapAck Window.nextRun
  by_cases hgo : off + 1 < W.span
  · have hoffset : ((W.tsnAt off - map.baseTsn).setWidth 16).toNat = off := by
      rw [BitVec.toNat_setWidth, hn.offset_eq, W.offset_tsnAt (by omega)]
      omega
    rw [if_neg (fun h => hdone.mp h hgo), if_pos hgo]
    simp only [hr.findGapAck, hoffset, Except.ok_bind]
    cases hrun : W.findRun off with
    | none => rfl
    | some run =>
      obtain ⟨i, j⟩ := run
      obtain ⟨hpos, hij, hj, -, -⟩ := W.findRun_eq_some hrun
      have hnz : ∀ k, 0 < k → k < 65536 → BitVec.ofNat 16 k ≠ 0 := by
        intro k hk hk' hzero
        have := congrArg BitVec.toNat hzero
        rw [BitVec.toNat_ofNat] at this
        change k % 65536 = 0 at this
        omega
      -- an end of 0 is patched up to the last bit of the map, which is where the run ends
      have hstop : (if BitVec.ofNat 16 i ≠ 0 ∧
          (if j + 1 < W.len then BitVec.ofNat 16 j else 0) = 0 then map.len - 1
          else if j + 1 < W.len then BitVec.ofNat 16 j else 0) = BitVec.ofNat 16 j := by
        by_cases hend : j + 1 < W.len
        · rw [if_pos hend, if_neg fun h => hnz j (by omega) (by omega) h.2]
        · rw [if_neg hend, if_pos ⟨hnz i (by omega) (by omega), rfl⟩, ← BitVec.toNat_inj,
            BitVec.toNat_sub, hn.len, BitVec.toNat_ofNat]
          change (65536 - 1 + W.len) % 65536 = j % 65536
          omega
      have hnext : map.cumulativeTsnAckPoint + (BitVec.ofNat 16 j + 1).zeroExtend 32 + 1 =
          W.tsnAt (j + 1) := by
        rw [hn.cum, Window.tsnAt, ← BitVec.toNat_inj]
        simp only [BitVec.toNat_add, BitVec.toNat_setWidth, BitVec.toNat_ofNat, toNat_one_u16,
          toNat_one_u32]
        omega
      simp only [hstop, if_pos (hnz j (by omega) (by omega)), hnext, Except.pure_eq, gapAckBlock,
        BitVec.ofNat_add]
      rfl
  · -- the iterator has reached the highest number seen
    rw [if_pos (hdone.mpr hgo), if_neg hgo]

end

end Vlstp
