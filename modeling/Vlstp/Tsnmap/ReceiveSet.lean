import Mathlib.Order.Bounds.Basic
import Vlstp.Tsnmap.Calls

/-!
# The TSN map as a set of received numbers

What the TSN map is for, said without bits and buffers: a `ReceiveSet` is the cumulative ack point,
the highest number seen, and the set of numbers received beyond the ack point. `ReceiveSet.Move`
says what marking, skipping, reneging and initialising do to it, and `tsnmap_refines` that every run
of the code follows such moves when `malloc` hands out zeroed memory: `Abstracts` reads the set off
the struct and the buffer, `Window.move` matches one call, and `Run.simulate` a whole run.

Sequence numbers are used again after `2 ^ 32` of them, so a number leaves the set as soon as it is
acknowledged.
-/

namespace Vlstp

/-! ### The abstract receiver -/

/-- The numbers `(c, c + n]`. -/
def tsnIoc (c : Tsn) (n : ℕ) : Set Tsn := {t | ∃ k, 1 ≤ k ∧ k ≤ n ∧ t = c + BitVec.ofNat 32 k}

/-- `t` is larger than `c` in serial arithmetic. -/
def SerialLt (c t : Tsn) : Prop := 0 < (t - c).toNat ∧ (t - c).toNat < 2 ^ 31

instance (c t : Tsn) : Decidable (SerialLt c t) := by
  unfold SerialLt
  infer_instance

/-- What the receiver knows: the cumulative ack point, the highest number seen, and the numbers
received beyond the ack point. -/
@[ext]
structure ReceiveSet where
  cum : Tsn
  max : Tsn
  recv : Set Tsn

namespace ReceiveSet

/-- Nothing received; the next number expected is `initialTsn`. -/
def initial (initialTsn : Tsn) : ReceiveSet := ⟨initialTsn - 1, initialTsn - 1, ∅⟩

/-- The highest number seen, after `t`. -/
def raise (a : ReceiveSet) (t : Tsn) : Tsn := if SerialLt a.max t then t else a.max

/-- The ack point moves on to the largest `c'` such that everything in `(c, c']` was received. -/
structure Advance (a a' : ReceiveSet) (n : ℕ) : Prop where
  greatest : IsGreatest {m | tsnIoc a.cum m ⊆ a.recv} n
  cum : a'.cum = a.cum + BitVec.ofNat 32 n
  max : a'.max = a.max
  recv : a'.recv = a.recv \ tsnIoc a.cum n

/-- **The moves of the abstract receiver.** -/
inductive Move : ReceiveSet → TsnCall → ReceiveSet → Prop
  | init (a : ReceiveSet) (len : BitVec 16) (t : Tsn) : Move a (.init len t) (initial t)
  | mark {a a' : ReceiveSet} {t : Tsn} {n : ℕ} (ht : t ∈ tsnIoc a.cum tsnMapSize)
      (hnew : t ∉ a.recv) (h : Advance ⟨a.cum, a.raise t, insert t a.recv⟩ a' n) :
      Move a (.mark t) a'
  | skip {a a' : ReceiveSet} {t : Tsn} {n : ℕ} (ht : t ∈ tsnIoc a.cum tsnMapSize)
      (h : Advance ⟨t, a.raise t, {r ∈ a.recv | SerialLt t r}⟩ a' n) : Move a (.skip t) a'
  | skipFar {a : ReceiveSet} {t : Tsn} (ht : t ∉ tsnIoc a.cum tsnMapSize) : Move a (.skip t) a
  | renege (a : ReceiveSet) (t : Tsn) : Move a (.renege t) { a with recv := a.recv \ {t} }

open Classical in
/-- What `vlstp_tsnmap_check` should answer: old or received, too far out, or not seen. -/
noncomputable def check (a : ReceiveSet) (t : Tsn) : ℤ :=
  if t = a.cum ∨ 2 ^ 31 ≤ (t - a.cum).toNat then 1
  else if t ∉ tsnIoc a.cum tsnMapSize then -1
  else if t ∈ a.recv then 1 else 0

end ReceiveSet

/-! ### A window as a receive set -/

namespace Window

variable (W : Window)

/-- The set of numbers the bits of the window are about. -/
def receiveSet : ReceiveSet where
  cum := W.cum
  max := W.cum + BitVec.ofNat 32 W.span
  recv := {t | W.bit (W.offset t) = true}

theorem mem_recv {t : Tsn} : t ∈ W.receiveSet.recv ↔ W.bit (W.offset t) = true := Iff.rfl

theorem offset_inj {t t' : Tsn} : W.offset t = W.offset t' ↔ t = t' := by
  refine ⟨fun h => ?_, fun h => by rw [h]⟩
  rw [← W.tsnAt_offset t, h, W.tsnAt_offset]

/-- The offset of a number `k` past the ack point. -/
theorem offset_cum_add {k : ℕ} (hk : 1 ≤ k) (hlt : k ≤ 2 ^ 32) :
    W.offset (W.cum + BitVec.ofNat 32 k) = k - 1 := by
  simp only [offset, BitVec.toNat_sub, BitVec.toNat_add, BitVec.toNat_ofNat, toNat_one_u32]
  omega

theorem mem_tsnIoc_iff {t : Tsn} {n : ℕ} (hn : n ≤ 2 ^ 32) :
    t ∈ tsnIoc W.cum n ↔ W.offset t < n := by
  constructor
  · rintro ⟨k, hk, hkn, rfl⟩
    rw [W.offset_cum_add hk (by omega)]
    omega
  · intro hlt
    exact ⟨W.offset t + 1, by omega, hlt, (W.cum_add_offset t).symm⟩

/-- Shifting moves every number beyond the ones shifted out nearer, and the others out of sight. -/
theorem bit_offset_shift {n : ℕ} (hn : n ≤ tsnMapSize) (t : Tsn) :
    (W.shift n).bit ((W.shift n).offset t) = true ↔
      W.bit (W.offset t) = true ∧ n ≤ W.offset t := by
  unfold tsnMapSize at hn
  -- a number that was shifted out wraps round to an offset far beyond the last bit
  have hoff : (W.shift n).offset t + n = W.offset t ∨
      W.offset t < n ∧ (W.shift n).offset t + n = W.offset t + 2 ^ 32 := by
    simp only [offset, shift_cum, BitVec.toNat_sub, BitVec.toNat_add, BitVec.toNat_ofNat,
      toNat_one_u32]
    omega
  rw [shift_bit]
  rcases hoff with heq | ⟨hlt, heq⟩
  · rw [heq]
    exact ⟨fun h => ⟨h, by omega⟩, And.left⟩
  · rw [heq]
    refine ⟨fun h => ?_, fun h => by omega⟩
    have := W.offset_lt_of_bit h
    omega

/-- The highest number seen, when the number at offset `d` has been seen too. -/
theorem raise_receiveSet {t : Tsn} (hlt : W.offset t < tsnMapSize) :
    W.receiveSet.raise t = W.cum + BitVec.ofNat 32 (max W.span (W.offset t + 1)) := by
  have hspan := Numbers.span_lt W
  unfold tsnMapSize at hlt
  have ht : t = W.cum + BitVec.ofNat 32 (W.offset t + 1) := (W.cum_add_offset t).symm
  -- both are less than `2 ^ 31` past the ack point, so serial order is the order of the distances
  have hiff : SerialLt W.receiveSet.max t ↔ W.span < W.offset t + 1 := by
    have hsub : (t - W.receiveSet.max).toNat = (2 ^ 32 + (W.offset t + 1) - W.span) % 2 ^ 32 := by
      conv_lhs => rw [ht]
      simp only [receiveSet, BitVec.toNat_sub, BitVec.toNat_add, BitVec.toNat_ofNat]
      omega
    unfold SerialLt
    rw [hsub]
    omega
  unfold ReceiveSet.raise
  by_cases hraise : SerialLt W.receiveSet.max t
  · have := hiff.mp hraise
    rw [if_pos hraise, Nat.max_eq_right (by omega)]
    exact ht
  · have : ¬ W.span < W.offset t + 1 := fun h => hraise (hiff.mpr h)
    rw [if_neg hraise, Nat.max_eq_left (by omega)]
    rfl

variable {W}

/-- **`vlstp_tsnmap_update` is the advance of the ack point.** -/
theorem Below.advance (h : W.Below) :
    ReceiveSet.Advance W.receiveSet W.update.receiveSet W.received where
  greatest := by
    have hspan := Numbers.span_lt W
    have hle := W.received_le
    refine ⟨fun t ht => ?_, fun m hm => ?_⟩
    · rw [mem_recv]
      exact W.bit_of_lt_received ((W.mem_tsnIoc_iff (by omega)).mp ht)
    · -- the first number that is missing bounds every such `m`
      by_contra hlt
      have hmem : W.cum + BitVec.ofNat 32 (W.received + 1) ∈ tsnIoc W.cum m :=
        ⟨W.received + 1, by omega, by omega, rfl⟩
      have hbit : W.bit W.received = true := by
        have := hm hmem
        rwa [mem_recv, W.offset_cum_add (by omega) (by omega), Nat.add_sub_cancel] at this
      have := h _ hbit
      rw [W.bit_received this] at hbit
      exact absurd hbit (by simp)
  cum := rfl
  max := by
    calc W.cum + BitVec.ofNat 32 W.received + BitVec.ofNat 32 (W.span - W.received)
        = W.cum + BitVec.ofNat 32 (W.received + (W.span - W.received)) := by
          rw [BitVec.add_assoc, ← BitVec.ofNat_add]
      _ = W.cum + BitVec.ofNat 32 W.span := by rw [Nat.add_sub_cancel' W.received_le]
  recv := by
    have hspan := Numbers.span_lt W
    have hle := W.received_le
    have hlen := W.span_le.trans W.len_le
    ext t
    -- what was shifted out is the interval that was acknowledged
    rw [mem_recv, Window.update, W.bit_offset_shift (by omega), Set.mem_sdiff, mem_recv,
      show W.receiveSet.cum = W.cum from rfl, W.mem_tsnIoc_iff (by omega), Nat.not_lt]

/-- Growing into zeroed memory does not change the set. -/
theorem Clean.receiveSet_room (h : W.Clean) {d : ℕ} (hlt : d < tsnMapSize) :
    (W.room (fun _ => 0) d hlt).receiveSet = W.receiveSet := by
  unfold Window.room
  by_cases hd : W.len ≤ d
  · rw [dif_pos hd]
    refine ReceiveSet.ext rfl rfl ?_
    ext t
    rw [mem_recv, h.grow_bit, mem_recv]
    rfl
  · rw [dif_neg hd]

theorem receiveSet_put {t : Tsn} (hd : W.offset t < W.len) :
    (W.put (W.offset t) hd).receiveSet =
      ⟨W.cum, W.receiveSet.raise t, insert t W.receiveSet.recv⟩ := by
  refine ReceiveSet.ext rfl ?_ ?_
  · exact (W.raise_receiveSet (hd.trans_le W.len_le)).symm
  · ext r
    change (decide (W.offset r = W.offset t) || W.bit (W.offset r)) = true ↔ _
    rw [Bool.or_eq_true, decide_eq_true_iff, W.offset_inj]
    rfl

theorem receiveSet_shift {t : Tsn} (hlt : W.offset t < tsnMapSize) :
    (W.shift (W.offset t + 1)).receiveSet =
      ⟨t, W.receiveSet.raise t, {r ∈ W.receiveSet.recv | SerialLt t r}⟩ := by
  refine ReceiveSet.ext (W.cum_add_offset t) ?_ ?_
  · -- a skip beyond the highest number seen raises that number to the new ack point
    rw [W.raise_receiveSet hlt]
    simp only [receiveSet, shift_cum, shift_span]
    rw [BitVec.add_assoc, ← BitVec.ofNat_add]
    congr 2
    omega
  · ext r
    rw [mem_recv, W.bit_offset_shift hlt, Set.mem_ofPred_eq, mem_recv]
    refine and_congr_right fun hbit => ?_
    have hr := W.offset_lt_of_bit hbit
    unfold tsnMapSize at hlt
    unfold SerialLt
    simp only [offset, BitVec.toNat_sub, BitVec.toNat_add, toNat_one_u32] at hr hlt ⊢
    omega

/-- **One call moves the receive set as it should.** -/
theorem Clean.move (h : W.Clean) {answer : Option (ℕ → Word)} {op : TsnCall}
    (hans : answer = some fun _ => 0) (hop : op.IsUpdate ∨ ∃ len t, op = .init len t)
    (hmark : ∀ t, op = .mark t → W.offset t < tsnMapSize ∧ W.bit (W.offset t) = false) :
    ReceiveSet.Move W.receiveSet op (W.after answer op).receiveSet := by
  cases op with
  | init len t =>
    have hset : (W.restart (t - 1)).receiveSet = ReceiveSet.initial t := by
      refine ReceiveSet.ext rfl ?_ ?_
      · simp [receiveSet, restart, ReceiveSet.initial]
      · ext r
        simp [receiveSet, restart, ReceiveSet.initial]
    simp only [Window.after, hset]
    exact .init _ len t
  | mark t =>
    obtain ⟨hlt, hnew⟩ := hmark t rfl
    have hne : ¬ (W.len ≤ W.offset t ∧ answer = none) := by simp [hans]
    have hroom := W.lt_len_room (fun _ => 0) hlt
    have hoff := W.room_offset (fun _ => 0) hlt t
    simp only [Window.after, dif_pos hlt, if_neg hne]
    rw [hans, Option.getD_some, Window.receive, (h.room hlt).accept_eq]
    -- growing keeps the set, putting adds the number, updating is the advance
    have hadv := ((h.room hlt).below.put hroom).advance
    have hput := (W.room (fun _ => 0) (W.offset t) hlt).receiveSet_put (t := t)
      (by rw [hoff]; exact hroom)
    simp only [hoff] at hput
    rw [hput, h.receiveSet_room hlt, W.room_cum] at hadv
    exact .mark ((W.mem_tsnIoc_iff (by decide)).mpr hlt) (by simp [mem_recv, hnew]) hadv
  | skip t =>
    simp only [Window.after]
    by_cases hlt : W.offset t < tsnMapSize
    · -- the skipped numbers are shifted out first, and then the ack point advances
      rw [if_pos hlt]
      have hadv := (h.below.shift (W.offset t + 1)).advance
      rw [receiveSet_shift hlt] at hadv
      exact .skip ((W.mem_tsnIoc_iff (by decide)).mpr hlt) hadv
    · rw [if_neg hlt]
      exact .skipFar fun ht => hlt ((W.mem_tsnIoc_iff (by decide)).mp ht)
  | renege t =>
    have hset : (W.forget (W.offset t)).receiveSet =
        { W.receiveSet with recv := W.receiveSet.recv \ {t} } := by
      refine ReceiveSet.ext rfl rfl ?_
      ext r
      change (!decide (W.offset r = W.offset t) && W.bit (W.offset r)) = true ↔ _
      rw [Bool.and_eq_true, Bool.not_eq_true', decide_eq_false_iff_not, W.offset_inj, and_comm]
      rfl
    simp only [Window.after, hset]
    exact .renege _ t
  | free | check | pending | iterInit | nextGapAck | numGabs =>
    simp [TsnCall.IsUpdate] at hop

open Classical in
theorem check_receiveSet (t : Tsn) : W.receiveSet.check t = W.check (W.offset t) := by
  have hold : (t = W.cum ∨ 2 ^ 31 ≤ (t - W.cum).toNat) ↔ 2 ^ 31 ≤ W.offset t + 1 := by
    rw [← BitVec.toNat_inj]
    simp only [offset, BitVec.toNat_sub, BitVec.toNat_add, toNat_one_u32]
    omega
  unfold ReceiveSet.check Window.check
  rw [show W.receiveSet.cum = W.cum from rfl]
  by_cases ho : 2 ^ 31 ≤ W.offset t + 1
  · rw [if_pos (hold.mpr ho), if_pos ho]
  · have hmem : t ∉ tsnIoc W.cum tsnMapSize ↔ tsnMapSize ≤ W.offset t := by
      rw [W.mem_tsnIoc_iff (by decide), Nat.not_lt]
    rw [if_neg (fun h => ho (hold.mp h)), if_neg ho]
    exact if_congr hmem rfl (if_congr W.mem_recv rfl rfl)

end Window

/-! ### The refinement -/

/-- The struct and its buffer stand for the receive set `a`. -/
structure Abstracts (s : TsnState) (a : ReceiveSet) : Prop where
  cum : s.map.cumulativeTsnAckPoint = a.cum
  base : s.map.baseTsn = a.cum + 1
  max : s.map.maxTsnSeen = a.max
  /-- Bit `i` of the map is set iff the number it is about was received. -/
  bit : ∀ i, i < s.map.len.toNat → ∃ r, testBit i s.map.tsnMap s.heap = .ok r ∧
    (r = true ↔ s.map.baseTsn + BitVec.ofNat 32 i ∈ a.recv)
  /-- The first number after the ack point was not received: bit 0 is clear. -/
  first : s.map.baseTsn ∉ a.recv
  /-- There is a bit for every number up to the highest one seen. -/
  span_le : (s.map.maxTsnSeen - s.map.cumulativeTsnAckPoint).toNat ≤ s.map.len.toNat
  /-- Nothing beyond the highest number seen was received: no bit there is set. -/
  recv_subset :
    a.recv ⊆ tsnIoc a.cum (s.map.maxTsnSeen - s.map.cumulativeTsnAckPoint).toNat
  check : ∀ t, vlstpTsnmapCheck s.map t s.heap = .ok (a.check t)

theorem Represents.abstracts {s : TsnState} {W : Window} (hr : Represents s.map s.heap W)
    (hc : W.Clean) : Abstracts s W.receiveSet := by
  obtain ⟨hn, b, w, hb⟩ := id hr
  have hspan := Numbers.span_lt W
  have hbase (i : ℕ) : s.map.baseTsn + BitVec.ofNat 32 i = W.tsnAt i := by rw [hn.base]; rfl
  refine ⟨hn.cum, hn.base, hn.max, fun i hi => ?_, ?_, ?_, fun t ht => ?_, fun t => ?_⟩
  · rw [hn.len] at hi
    refine ⟨W.bit i, hb.test hi, ?_⟩
    have hlt := hi.trans_le W.len_le
    unfold tsnMapSize at hlt
    rw [hbase, W.mem_recv, W.offset_tsnAt (by omega)]
  · have hz := hbase 0
    rw [BitVec.add_zero] at hz
    rw [hz, W.mem_recv, W.offset_tsnAt (by decide), hc.zero]
    simp
  · rw [hn.max_sub_cum, hn.len]
    exact W.span_le
  · rw [hn.max_sub_cum]
    exact (W.mem_tsnIoc_iff (by omega)).mpr (hc.below _ ht)
  · rw [hr.check, W.check_receiveSet]

/-- The calls the refinement is about: marks of numbers that were not seen, skips and reneges, and
initialising the map again. -/
def UpdatesChecked (s : TsnState) (op : TsnCall) : Prop :=
  (op.IsUpdate ∨ ∃ len t, op = .init len t) ∧ MarksChecked s op

theorem UpdatesChecked.ne_free {s : TsnState} {op : TsnCall} (h : UpdatesChecked s op) :
    op ≠ .free := by
  rintro rfl
  simp [UpdatesChecked, TsnCall.IsUpdate] at h

/-- **The TSN map refines the receive set.** After `vlstp_tsnmap_init`, with zeroed memory always
available, every run follows the moves of the abstract receiver, every state reached stands for the
set those moves lead to, and no call that the receiver may make next goes wrong. -/
theorem tsnmap_refines (map : TsnMap) (iter : TsnMapIter) (h : Mem) (len : BitVec 16)
    (initialTsn : Tsn) (hnull : map.tsnMap = none) (hpos : 0 < len.toNat)
    (hle : len.toNat ≤ tsnMapSize) (hdvd : 64 ∣ len.toNat) (hzero : ZeroFilled h.oracle)
    (hmem : Available h.oracle) :
    ∃ s₀, tsnStep ⟨map, iter, h⟩ (.init len initialTsn) = .ok (.map true, s₀) ∧
      ∀ ops s, Reaches UpdatesChecked tsnStep s₀ ops s →
        (∃ a, Run ReceiveSet.Move (.initial initialTsn) ops a ∧ Abstracts s a) ∧
          ∀ op, UpdatesChecked s op → ∃ r s', tsnStep s op = .ok (r, s') := by
  obtain ⟨c, ho⟩ := Option.ne_none_iff_exists'.mp (hmem h.next)
  obtain rfl := hzero _ _ ho
  have hfirst := step_init (s := ⟨map, iter, h⟩) hnull hpos hle hdvd initialTsn ho
  obtain ⟨s₀, hinit, hr₀, horacle₀, -⟩ := hfirst
  have hans (s : TsnState) (horacle : s.heap.oracle = h.oracle) :
      s.heap.oracle s.heap.next = some fun _ => 0 := by
    obtain ⟨c, hc⟩ := Option.ne_none_iff_exists'.mp (hmem s.heap.next)
    rw [horacle, hc, hzero _ _ hc]
  refine ⟨s₀, hinit, fun ops s hrun => ?_⟩
  -- a state is related to the receive set of the window it represents
  set R : TsnState → ReceiveSet → Prop := fun s a =>
    ∃ W, Represents s.map s.heap W ∧ W.Clean ∧ s.heap.oracle = h.oracle ∧ a = W.receiveSet with hR
  have hstart : R s₀ (.initial initialTsn) := by
    refine ⟨_, hr₀, Window.clean_fresh hpos hle hdvd, horacle₀, ReceiveSet.ext rfl ?_ ?_⟩
    · simp [ReceiveSet.initial, Window.receiveSet, Window.fresh]
    · ext t
      simp [ReceiveSet.initial, Window.receiveSet, Window.fresh, bitAt]
  have hmove : ∀ s a op s', R s a → Returns UpdatesChecked tsnStep s op s' →
      ∃ a', ReceiveSet.Move a op a' ∧ R s' a' := by
    rintro s a op s' ⟨W, hr, hc, horacle, rfl⟩ ⟨hop, r, hs⟩
    obtain ⟨hr', horacle', -⟩ := hr.of_step hop.ne_free (hr.inReach hop.2) hs
    refine ⟨_, hc.move (hans s horacle) hop.1 ?_, _, hr', hc.after ?_ op,
      horacle'.trans horacle, rfl⟩
    · rintro t rfl
      exact (hr.check_eq_zero_iff t).mp hop.2
    · intro c hc
      rw [hans s horacle] at hc
      exact (Option.some.inj hc).symm
  -- along the run the moves match step by step, and the state reached is related to the set reached
  obtain ⟨a, hpath, W, hr, hc, -, rfl⟩ := hrun.simulate hstart hmove
  refine ⟨⟨_, hpath, hr.abstracts hc⟩, fun op hop => ?_⟩
  obtain ⟨r, s', hs, -⟩ := hr.step hop.ne_free (hr.inReach hop.2)
  exact ⟨r, s', hs⟩

/-- The refinement, from a zeroed struct and close to the end of the sequence space. -/
theorem tsnmap_refines_rollover :
    ∃ s₀, tsnStep (.zeroed zeroMemory) (.init 64 0xfffffff0) = .ok (.map true, s₀) ∧
      ∀ ops s, Reaches UpdatesChecked tsnStep s₀ ops s →
        (∃ a, Run ReceiveSet.Move (.initial 0xfffffff0) ops a ∧ Abstracts s a) ∧
          ∀ op, UpdatesChecked s op → ∃ r s', tsnStep s op = .ok (r, s') :=
  tsnmap_refines _ _ _ 64 0xfffffff0 rfl (by decide) (by decide) (by decide)
    zeroFilled_zeroMemory available_zeroMemory

end Vlstp
