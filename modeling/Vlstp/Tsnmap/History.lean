import Vlstp.Tsnmap.GapBlocks

/-!
# What a TSN map knows of its history

A receiver marks numbers as they arrive, in any order and more than once, and skips what will not
come. Counted from the initial TSN, and not around the circle, the numbers it marked and skipped are
a set of natural numbers (`Received`). The map is a function of that set, however long the run and
however often the sequence numbers have been used again: `Tells` says which window stands for a set,
and a receipt that the map accepts adds its number to the set (`Tells.receive`, `Tells.skip`).

So what the map reports is the set and nothing else (`history_reported`): the ack point and the gap
ack blocks say which numbers have been received, and the order and repetitions of the receipts, the
lengths of the buffers and the failures of `malloc` leave no trace (`order_unobservable`).
-/

namespace Vlstp

/-! ### Receipts -/

/-- Something a receiver does with the number `n` places after the initial TSN. -/
inductive Receipt
  | mark (n : ℕ)
  | skip (n : ℕ)

/-- The number `n` places after the initial TSN. -/
def numbered (initialTsn : Tsn) (n : ℕ) : Tsn := initialTsn + BitVec.ofNat 32 n

def Receipt.call (initialTsn : Tsn) : Receipt → TsnCall
  | .mark n => .mark (numbered initialTsn n)
  | .skip n => .skip (numbered initialTsn n)

def Receipt.number : Receipt → ℕ
  | .mark n | .skip n => n

/-- The numbers a receipt is about. -/
def Receipt.numbers : Receipt → Set ℕ
  | .mark n => {n}
  | .skip n => Set.Iic n

/-- A map, and the receipts it has accepted. -/
structure Receiver where
  sys : TsnState
  log : List Receipt

/-- The numbers received, marked or skipped. -/
def Received (log : List Receipt) : Set ℕ := {n | ∃ r ∈ log, n ∈ r.numbers}

/-- `vlstp_tsnmap_mark` has not failed. -/
def TsnResult.accepted : TsnResult → Bool
  | .int r => r == 0
  | _ => true

/-- One receipt. -/
def receiverStep (initialTsn : Tsn) (p : Receiver) (r : Receipt) :
    Except Fault (TsnResult × Receiver) := do
  let (result, sys) ← tsnStep p.sys (r.call initialTsn)
  return (result, ⟨sys, if result.accepted then p.log ++ [r] else p.log⟩)

/-- The number lies in the window that begins with the first number missing, or in the half of the
sequence space before it. -/
def Timely (p : Receiver) (r : Receipt) : Prop :=
  ∃ n, IsLeast (Received p.log)ᶜ n ∧ n ≤ r.number + 2 ^ 31 ∧ r.number < n + tsnMapSize

/-- A map without a buffer that finds zeroed memory. -/
structure Startable (s : TsnState) (len : BitVec 16) : Prop where
  null : s.map.tsnMap = none
  pos : 0 < len.toNat
  le : len.toNat ≤ tsnMapSize
  dvd : 64 ∣ len.toNat
  zeroFilled : ZeroFilled s.heap.oracle
  found : s.heap.oracle s.heap.next ≠ none

/-- **The map reports the set `S`**: by its ack point, by the highest number seen, when it is asked
about a number, by the count of missing numbers, and by the gap ack blocks. -/
structure ReportsReceived (s : TsnState) (initialTsn : Tsn) (S : Set ℕ) (next top : ℕ)
    (blocks : List GapAckBlock) : Prop where
  /-- `next` is the first number missing, -/
  least : IsLeast Sᶜ next
  /-- and `top` comes after the last one received. -/
  bound : IsLeast {m | next ≤ m ∧ ∀ k ∈ S, k < m} top
  ctsn : vlstpTsnmapGetCtsn s.map = numbered initialTsn next - 1
  maxTsnSeen : vlstpTsnmapGetMaxTsnSeen s.map = numbered initialTsn top - 1
  check : ∀ k, next ≤ k + 2 ^ 31 → k + 1 < next + 2 ^ 31 →
    ∃ r, vlstpTsnmapCheck s.map (numbered initialTsn k) s.heap = .ok r ∧
      (0 < r ↔ k ∈ S) ∧ (r < 0 ↔ next + tsnMapSize ≤ k)
  pending : vlstpTsnmapPending s.map s.heap = .ok (BitVec.ofNat 16 {k | k < top ∧ k ∉ S}.ncard)
  gapAcks : GapAcks s.map s.heap (vlstpTsnmapIterInit s.map) blocks
  gaps : blocks.Pairwise fun b b' => b.stop.toNat + 1 < b'.start.toNat
  /-- The ack point and the blocks together are the set. -/
  recovered : ∀ k, k ∈ S ↔ k < next ∨ ∃ b ∈ blocks, b.Covers (k + 1 - next)

/-! ### The window of a set -/

/-- The window of the set `S`, of which everything before `next` was acknowledged. -/
structure Tells (initialTsn : Tsn) (S : Set ℕ) (next : ℕ) (W : Window) : Prop where
  acked : ∀ k, k < next → k ∈ S
  cum : W.cum + 1 = numbered initialTsn next
  bit : ∀ i, W.bit i = true ↔ next + i ∈ S
  top : ∀ d, W.span = d + 1 → next + d ∈ S

section

variable {t₀ : Tsn} {S S' : Set ℕ} {next next' d k n : ℕ} {W W' : Window}

theorem numbered_add (t₀ : Tsn) (n m : ℕ) :
    numbered t₀ (n + m) = numbered t₀ n + BitVec.ofNat 32 m := by
  rw [numbered, numbered, BitVec.ofNat_add, BitVec.add_assoc]

theorem Tells.offset_of_le (h : Tells t₀ S next W) (hle : next ≤ k) (hlt : k < next + 2 ^ 32) :
    W.offset (numbered t₀ k) = k - next := by
  unfold Window.offset
  rw [h.cum]
  simp only [numbered, BitVec.toNat_sub, BitVec.toNat_add, BitVec.toNat_ofNat]
  omega

theorem Tells.offset_of_lt (h : Tells t₀ S next W) (hlt : k < next) (hle : next ≤ k + 2 ^ 31) :
    W.offset (numbered t₀ k) = 2 ^ 32 - (next - k) := by
  unfold Window.offset
  rw [h.cum]
  simp only [numbered, BitVec.toNat_sub, BitVec.toNat_add, BitVec.toNat_ofNat]
  omega

/-- Everything up to the highest number seen is at or before the last one received. -/
theorem Tells.lt_of_mem (h : Tells t₀ S next W) (hbelow : W.Below) (hk : k ∈ S) :
    k < next + W.span := by
  by_cases hlt : k < next
  · exact hlt.trans_le (Nat.le_add_right ..)
  · have hbit : W.bit (k - next) = true := by
      rw [h.bit, Nat.add_sub_cancel' (Nat.not_lt.mp hlt)]
      exact hk
    have := hbelow _ hbit
    omega

theorem Tells.notMem (h : Tells t₀ S next W) (hc : W.Clean) : next ∉ S := by
  have hbit := h.bit 0
  rw [hc.zero, Nat.add_zero] at hbit
  exact fun hmem => Bool.noConfusion (hbit.mpr hmem)

theorem Tells.isLeast (h : Tells t₀ S next W) (hc : W.Clean) : IsLeast Sᶜ next :=
  ⟨h.notMem hc, fun _ hk => Nat.not_lt.mp fun hlt => hk (h.acked _ hlt)⟩

/-! ### Receipts in the window -/

theorem Tells.update (h : Tells t₀ S next W) : Tells t₀ S (next + W.received) W.update where
  acked k hk := by
    by_cases hlt : k < next
    · exact h.acked k hlt
    · -- a number that is acknowledged now had its bit set
      have hbit := W.bit_of_lt_received (i := k - next) (by omega)
      rwa [h.bit, Nat.add_sub_cancel' (Nat.not_lt.mp hlt)] at hbit
  cum := by
    rw [Window.update, Window.shift_cum, BitVec.add_assoc, BitVec.add_comm _ 1,
      ← BitVec.add_assoc, h.cum, numbered_add]
  bit i := by
    rw [Window.update, Window.shift_bit, h.bit, Nat.add_comm i, Nat.add_assoc]
  top d hd := by
    rw [Window.update, Window.shift_span] at hd
    rw [Nat.add_assoc]
    exact h.top _ (by omega)

/-- Setting the bit of a number adds it to the set. -/
theorem Tells.put (h : Tells t₀ S next W) (hd : d < W.len) :
    Tells t₀ (insert (next + d) S) next (W.put d hd) where
  acked k hk := Set.mem_insert_of_mem _ (h.acked k hk)
  cum := h.cum
  bit i := by
    change (decide (i = d) || W.bit i) = true ↔ _
    rw [Bool.or_eq_true, decide_eq_true_iff, h.bit, Set.mem_insert_iff, Nat.add_left_cancel_iff]
  top e he := by
    change max W.span (d + 1) = e + 1 at he
    rcases Nat.le_total W.span (d + 1) with hle | hle
    · -- the new number is the highest
      rw [max_eq_right hle] at he
      obtain rfl : d = e := Nat.succ.inj he
      exact Set.mem_insert ..
    · rw [max_eq_left hle] at he
      exact Set.mem_insert_of_mem _ (h.top e he)

/-- Passing over numbers adds them to the set. -/
theorem Tells.shift (h : Tells t₀ S next W) (d : ℕ) :
    Tells t₀ (S ∪ Set.Iic (next + d)) (next + (d + 1)) (W.shift (d + 1)) where
  acked k hk := Or.inr (Nat.lt_succ_iff.mp hk)
  cum := by
    rw [Window.shift_cum, BitVec.add_assoc, BitVec.add_comm _ 1,
      ← BitVec.add_assoc, h.cum, numbered_add]
  bit i := by
    rw [Window.shift_bit, h.bit, Nat.add_comm i, ← Nat.add_assoc, Set.mem_union, Set.mem_Iic]
    exact (or_iff_left (by omega)).symm
  top e he := by
    rw [Window.shift_span] at he
    rw [Nat.add_assoc]
    exact Or.inl (h.top _ (by omega))

/-- A map that has grown into zeroed memory stands for the same set. -/
theorem Tells.room (h : Tells t₀ S next W) (hc : W.Clean) (hlt : d < tsnMapSize) :
    Tells t₀ S next (W.room (fun _ => 0) d hlt) := by
  unfold Window.room
  by_cases hd : W.len ≤ d
  · rw [dif_pos hd]
    refine ⟨h.acked, h.cum, fun i => ?_, h.top⟩
    rw [hc.grow_bit]
    exact h.bit i
  · rw [dif_neg hd]
    exact h

/-- **A mark** adds its number. -/
theorem Tells.receive (h : Tells t₀ S next W) (hc : W.Clean) (hlt : d < tsnMapSize) :
    ∃ next', Tells t₀ (insert (next + d) S) next' (W.receive (fun _ => 0) d hlt) := by
  rw [Window.receive, (hc.room hlt).accept_eq]
  exact ⟨_, ((h.room hc hlt).put _).update⟩

/-- **A skip** adds all numbers up to its own. -/
theorem Tells.skip (h : Tells t₀ S next W) (d : ℕ) :
    ∃ next', Tells t₀ (S ∪ Set.Iic (next + d)) next' (W.skip d) :=
  ⟨_, (h.shift d).update⟩

/-! ### One receipt -/

theorem received_snoc (log : List Receipt) (r : Receipt) :
    Received (log ++ [r]) = Received log ∪ r.numbers := by
  ext k
  simp only [Received, List.mem_append, List.mem_singleton, Set.mem_ofPred_eq, Set.mem_union]
  constructor
  · rintro ⟨r', hr' | rfl, hk⟩
    · exact Or.inl ⟨r', hr', hk⟩
    · exact Or.inr hk
  · rintro (⟨r', hr', hk⟩ | hk)
    · exact ⟨r', Or.inl hr', hk⟩
    · exact ⟨r, Or.inr rfl, hk⟩

/-- The map stands for what it has received, in memory that is zeroed as it is handed out. -/
def Keeps (t₀ : Tsn) (p : Receiver) : Prop :=
  ∃ W next, Represents p.sys.map p.sys.heap W ∧ W.Clean ∧ ZeroFilled p.sys.heap.oracle ∧
    Tells t₀ (Received p.log) next W

theorem Tells.receipt {p : Receiver} {r : Receipt} (h : Tells t₀ (Received p.log) next W)
    (hc : W.Clean) (hr : Timely p r) :
    (W.offset (numbered t₀ r.number) < tsnMapSize ∧
        next + W.offset (numbered t₀ r.number) = r.number) ∨
      (2 ^ 31 ≤ W.offset (numbered t₀ r.number) ∧
        Received (p.log ++ [r]) = Received p.log) := by
  obtain ⟨n, hleast, hle, hlt⟩ := hr
  obtain rfl := hleast.unique (h.isLeast hc)
  unfold tsnMapSize at hlt
  by_cases hk : n ≤ r.number
  · rw [h.offset_of_le hk (by omega)]
    unfold tsnMapSize
    exact Or.inl ⟨by omega, Nat.add_sub_cancel' hk⟩
  · -- an old number, which has been received
    have hk := Nat.not_le.mp hk
    refine Or.inr ⟨?_, ?_⟩
    · rw [h.offset_of_lt hk hle]
      omega
    · rw [received_snoc, Set.union_eq_left]
      intro k hmem
      refine h.acked k ?_
      cases r with
      | mark m => exact (Set.mem_singleton_iff.mp hmem).trans_lt hk
      | skip m => exact (Set.mem_Iic.mp hmem).trans_lt hk

theorem receiverStep_ok {p : Receiver} {r : Receipt} {result : TsnResult} {sys : TsnState}
    (hs : tsnStep p.sys (r.call t₀) = .ok (result, sys)) :
    receiverStep t₀ p r =
      .ok (result, ⟨sys, if result.accepted then p.log ++ [r] else p.log⟩) := by
  unfold receiverStep
  rw [hs]
  rfl

/-- **One receipt.** It returns, and the map stands for what has been received then. -/
theorem Keeps.step {p : Receiver} (hp : Keeps t₀ p) {r : Receipt} (hr : Timely p r) :
    ∃ result p', receiverStep t₀ p r = .ok (result, p') ∧ Keeps t₀ p' := by
  obtain ⟨W, next, hrep, hc, hzero, htells⟩ := hp
  have hcase := htells.receipt hc hr
  cases r with
  | mark k =>
    rcases hcase with ⟨hlt, hsum⟩ | ⟨hold, hsame⟩
    · simp only [Receipt.number] at hlt hsum
      by_cases hnone : W.len ≤ W.offset (numbered t₀ k) ∧ p.sys.heap.oracle p.sys.heap.next = none
      · -- there is no memory to grow into, and nothing is recorded
        have hmark := hrep.mark_of_none hlt hnone.1 hnone.2
        have hs : tsnStep p.sys (.mark (numbered t₀ k)) = .ok (.int (-enomem),
            ⟨p.sys.map, p.sys.iter, { p.sys.heap with next := p.sys.heap.next + 1 }⟩) := by
          simp only [tsnStepWith, hmark, Except.ok_bind, Except.pure_eq]
        exact ⟨_, _, receiverStep_ok hs, W, next, hrep.frame (Nat.le_succ _) rfl rfl, hc, hzero,
          htells⟩
      · have hans : W.len ≤ W.offset (numbered t₀ k) → p.sys.heap.oracle p.sys.heap.next =
            some fun _ => 0 := by
          intro hd
          obtain ⟨c, ho⟩ := Option.ne_none_iff_exists'.mp fun hans => hnone ⟨hd, hans⟩
          rw [ho, hzero _ c ho]
        obtain ⟨map', h', hmark, hrep', horacle, -⟩ := hrep.mark hlt hans
        have hs : tsnStep p.sys (.mark (numbered t₀ k)) =
            .ok (.int 0, ⟨map', p.sys.iter, h'⟩) := by
          simp only [tsnStepWith, hmark, Except.ok_bind, Except.pure_eq]
        obtain ⟨next', htells'⟩ := htells.receive hc hlt
        refine ⟨_, _, receiverStep_ok hs, _, next', hrep', hc.receive hlt, ?_, ?_⟩
        · intro m c ho
          rw [horacle] at ho
          exact hzero m c ho
        · rw [hsum] at htells'
          change Tells t₀ (Received (p.log ++ [.mark k])) next' _
          rw [received_snoc, Set.union_comm]
          exact htells'
    · simp only [Receipt.number] at hold
      have hmark := hrep.mark_old hold
      have hs : tsnStep p.sys (.mark (numbered t₀ k)) = .ok (.int 0, p.sys) := by
        simp only [tsnStepWith, hmark, Except.ok_bind, Except.pure_eq]
      refine ⟨_, _, receiverStep_ok hs, W, next, hrep, hc, hzero, ?_⟩
      change Tells t₀ (Received (p.log ++ [.mark k])) next W
      rwa [hsame]
  | skip k =>
    rcases hcase with ⟨hlt, hsum⟩ | ⟨hold, hsame⟩
    · simp only [Receipt.number] at hlt hsum
      obtain ⟨map', h', hskip, hrep', hblocks⟩ := hrep.skip hlt
      have hs : tsnStep p.sys (.skip (numbered t₀ k)) =
          .ok (.void, ⟨map', p.sys.iter, h'⟩) := by
        simp only [tsnStepWith, hskip, Except.ok_bind, Except.pure_eq]
      obtain ⟨next', htells'⟩ := htells.skip (W.offset (numbered t₀ k))
      refine ⟨_, _, receiverStep_ok hs, _, next', hrep', hc.skip _, ?_, ?_⟩
      · intro m c ho
        rw [hblocks.2.2] at ho
        exact hzero m c ho
      · rw [hsum] at htells'
        change Tells t₀ (Received (p.log ++ [.skip k])) next' _
        rw [received_snoc]
        exact htells'
    · simp only [Receipt.number] at hold
      have hfar : tsnMapSize ≤ W.offset (numbered t₀ k) := Nat.le_trans (by decide) hold
      have hskip := hrep.skip_of_far hfar
      have hs : tsnStep p.sys (.skip (numbered t₀ k)) = .ok (.void, p.sys) := by
        simp only [tsnStepWith, hskip, Except.ok_bind, Except.pure_eq]
      refine ⟨_, _, receiverStep_ok hs, W, next, hrep, hc, hzero, ?_⟩
      change Tells t₀ (Received (p.log ++ [.skip k])) next W
      rwa [hsame]

/-! ### What is reported -/

/-- The last number received is the highest number seen. -/
theorem Tells.isLeast_bound (h : Tells t₀ S next W) (hc : W.Clean) :
    IsLeast {m | next ≤ m ∧ ∀ k ∈ S, k < m} (next + W.span) := by
  refine ⟨⟨Nat.le_add_right .., fun k hk => h.lt_of_mem hc.below hk⟩, fun m ⟨hle, hm⟩ => ?_⟩
  rcases Nat.eq_zero_or_eq_succ_pred W.span with hzero | hsucc
  · rwa [hzero]
  · have := hm _ (h.top _ hsucc)
    omega

/-- The answers of `vlstp_tsnmap_check` are about the set. -/
theorem Tells.check (h : Tells t₀ S next W) (hlow : next ≤ k + 2 ^ 31)
    (hhigh : k + 1 < next + 2 ^ 31) :
    (0 < W.check (W.offset (numbered t₀ k)) ↔ k ∈ S) ∧
      (W.check (W.offset (numbered t₀ k)) < 0 ↔ next + tsnMapSize ≤ k) := by
  by_cases hlt : k < next
  · -- acknowledged
    have hold : 2 ^ 31 ≤ W.offset (numbered t₀ k) + 1 := by
      rw [h.offset_of_lt hlt hlow]
      omega
    rw [Window.check, if_pos hold]
    exact ⟨iff_of_true (by decide) (h.acked k hlt), iff_of_false (by decide) (by omega)⟩
  · have hle := Nat.not_lt.mp hlt
    have hoff := h.offset_of_le hle (by omega)
    have hbit := h.bit (k - next)
    rw [Nat.add_sub_cancel' hle] at hbit
    rw [hoff, ← hbit, Window.check, if_neg (by omega)]
    by_cases hfar : tsnMapSize ≤ k - next
    · -- past the window there is no bit
      rw [if_pos hfar, W.bit_of_le (W.len_le.trans hfar)]
      exact ⟨iff_of_false (by decide) (by decide), iff_of_true (by decide) (by omega)⟩
    · rw [if_neg hfar]
      cases W.bit (k - next) with
      | true => exact ⟨iff_of_true (by decide) rfl, iff_of_false (by decide) (by omega)⟩
      | false => exact ⟨iff_of_false (by decide) (by decide), iff_of_false (by decide) (by omega)⟩

/-- One number is missing for each clear bit. -/
theorem Tells.ncard_missing (h : Tells t₀ S next W) (hc : W.Clean) :
    {k | k < next + W.span ∧ k ∉ S}.ncard = W.pending := by
  set clear := (Finset.range W.span).filter fun i => ¬ W.bit i = true with hclear
  have himage : {k | k < next + W.span ∧ k ∉ S} = (next + ·) '' clear := by
    ext k
    simp only [hclear, Set.mem_ofPred_eq, Set.mem_image, Finset.coe_filter, Finset.mem_range, h.bit]
    constructor
    · rintro ⟨hlt, hnot⟩
      have hle : next ≤ k := Nat.not_lt.mp fun hk => hnot (h.acked k hk)
      have hsum : next + (k - next) = k := Nat.add_sub_cancel' hle
      exact ⟨k - next, ⟨by omega, by rwa [hsum]⟩, hsum⟩
    · rintro ⟨i, ⟨hi, hnot⟩, rfl⟩
      exact ⟨Nat.add_lt_add_left hi next, hnot⟩
  -- set and clear bits together are all of them
  have hboth : ((Finset.range W.span).filter fun i => W.bit i = true).card + clear.card =
      W.span := by
    rw [hclear, Finset.card_filter_add_card_filter_not, Finset.card_range]
  rw [← Nat.count_eq_card_filter_range, ← hc.count_len] at hboth
  have hpending := hc.pending_eq
  calc {k | k < next + W.span ∧ k ∉ S}.ncard
      = clear.card := by
        rw [himage, (add_right_injective next).injOn.ncard_image, Set.ncard_coe_finset]
    _ = W.pending := by omega

/-- The blocks, and the ack point. -/
theorem Tells.recovered (h : Tells t₀ S next W) {runs : List (ℕ × ℕ)}
    (hruns : IsRuns W.bit W.len 0 runs) (k : ℕ) :
    k ∈ S ↔ k < next ∨ ∃ b ∈ runs.map gapAckBlock, b.Covers (k + 1 - next) := by
  have hcover {r : ℕ × ℕ} (hr : r ∈ runs) (hle : next ≤ k) :
      (gapAckBlock r).Covers (k + 1 - next) ↔ r.1 ≤ k - next ∧ k - next ≤ r.2 := by
    obtain ⟨-, hle', hlt⟩ := hruns.bounds hr
    obtain ⟨hstart, hstop⟩ := toNat_gapAckBlock (W := W) hle' hlt
    rw [GapAckBlock.Covers, hstart, hstop]
    omega
  by_cases hlt : k < next
  · exact iff_of_true (h.acked k hlt) (Or.inl hlt)
  · have hle := Nat.not_lt.mp hlt
    rw [or_iff_right hlt]
    have hbit := h.bit (k - next)
    rw [Nat.add_sub_cancel' hle] at hbit
    rw [← hbit]
    constructor
    · intro hset
      obtain ⟨r, hr, hcov⟩ :=
        (hruns.covers_iff (Nat.zero_le _) (W.lt_of_bit _ hset)).mp hset
      exact ⟨_, List.mem_map_of_mem hr, (hcover hr hle).mpr hcov⟩
    · rintro ⟨b, hb, hcov⟩
      obtain ⟨r, hr, rfl⟩ := List.mem_map.mp hb
      have hcov := (hcover hr hle).mp hcov
      have hlast := (hruns.bounds hr).2.2
      exact (hruns.covers_iff (Nat.zero_le _) (by omega)).mpr ⟨r, hr, hcov⟩

theorem Tells.cum_eq (h : Tells t₀ S next W) : W.cum = numbered t₀ next - 1 := by
  rw [← h.cum, BitVec.add_sub_cancel]

theorem Tells.max_eq (h : Tells t₀ S next W) :
    W.cum + BitVec.ofNat 32 W.span = numbered t₀ (next + W.span) - 1 := by
  rw [numbered_add, ← h.cum, BitVec.add_assoc, BitVec.add_comm 1, ← BitVec.add_assoc,
    BitVec.add_sub_cancel]

/-- What is kept is reported. -/
theorem Keeps.reports {p : Receiver} (hp : Keeps t₀ p) :
    ∃ next top blocks, ReportsReceived p.sys t₀ (Received p.log) next top blocks := by
  obtain ⟨W, next, hrep, hc, -, h⟩ := hp
  obtain ⟨runs, hruns, hacks⟩ := hrep.gapAcks hc
  have hn := hrep.numbers
  refine ⟨next, next + W.span, _, h.isLeast hc, h.isLeast_bound hc, ?_, ?_, fun k hlow hhigh => ?_,
    ?_, hacks, (hrep.exactBlocks hc hruns).gaps, h.recovered hruns⟩
  · exact hn.cum.trans h.cum_eq
  · exact hn.max.trans h.max_eq
  · exact ⟨_, hrep.check _, h.check hlow hhigh⟩
  · rw [hrep.pending, h.ncard_missing hc]

theorem received_nil : Received [] = ∅ := by
  ext k
  simp [Received]

/-- An initialised map keeps the empty set. -/
theorem Startable.init {s : TsnState} {len : BitVec 16} (hs : Startable s len) (t₀ : Tsn) :
    ∃ s₀, tsnStep s (.init len t₀) = .ok (.map true, s₀) ∧ Keeps t₀ ⟨s₀, []⟩ := by
  obtain ⟨c, ho⟩ := Option.ne_none_iff_exists'.mp hs.found
  obtain rfl := hs.zeroFilled _ _ ho
  obtain ⟨s₀, hinit, hrep, horacle, -⟩ := step_init hs.null hs.pos hs.le hs.dvd t₀ ho
  refine ⟨s₀, hinit, _, 0, hrep, Window.clean_fresh hs.pos hs.le hs.dvd, ?_, ?_, ?_, ?_, ?_⟩
  · intro m c ho
    rw [horacle] at ho
    exact hs.zeroFilled m c ho
  · exact fun k hk => absurd hk (Nat.not_lt_zero k)
  · change t₀ - 1 + 1 = t₀ + BitVec.ofNat 32 0
    rw [BitVec.sub_add_cancel, BitVec.add_zero]
  · intro i
    rw [received_nil]
    simp [Window.fresh, bitAt]
  · exact fun d hd => absurd hd (Nat.succ_ne_zero d).symm

/-- Every run keeps what it has received. -/
theorem Keeps.run {p₀ p : Receiver} {ops : List Receipt} (hp : Keeps t₀ p₀)
    (hrun : Reaches Timely (receiverStep t₀) p₀ ops p) : Keeps t₀ p := by
  refine hrun.invariant_state (Keeps t₀) hp ?_
  rintro p r p' hp ⟨htimely, result, hstep⟩
  obtain ⟨result', p'', hstep', hp'⟩ := hp.step htimely
  obtain ⟨-, rfl⟩ := Prod.mk.inj (Except.ok.inj (hstep.symm.trans hstep'))
  exact hp'

end

/-- **The map reports what was received.** After `vlstp_tsnmap_init`, in zeroed memory and whether
or not later calls find any, every run of receipts goes through, and in every state it reaches the
map reports the set of numbers marked and skipped: what a peer reads off the ack point and the gap
ack blocks is the whole history and nothing else. -/
theorem history_reported {s : TsnState} {len : BitVec 16} (hs : Startable s len)
    (initialTsn : Tsn) :
    ∃ s₀, tsnStep s (.init len initialTsn) = .ok (.map true, s₀) ∧
      ∀ ops p, Reaches Timely (receiverStep initialTsn) ⟨s₀, []⟩ ops p →
        (∃ next top blocks, ReportsReceived p.sys initialTsn (Received p.log) next top blocks) ∧
          ∀ r, Timely p r → ∃ result p', receiverStep initialTsn p r = .ok (result, p') := by
  obtain ⟨s₀, hinit, hkeeps⟩ := hs.init initialTsn
  refine ⟨s₀, hinit, fun ops p hrun => ⟨(hkeeps.run hrun).reports, fun r hr => ?_⟩⟩
  obtain ⟨result, p', hstep, -⟩ := (hkeeps.run hrun).step hr
  exact ⟨result, p', hstep⟩

theorem startable_zeroed : Startable (.zeroed zeroMemory) 64 :=
  ⟨rfl, by decide, by decide, by decide, zeroFilled_zeroMemory, Option.some_ne_none _⟩

/-- A map that starts close to the end of the sequence space. -/
theorem history_reported_rollover :
    ∃ s₀, tsnStep (.zeroed zeroMemory) (.init 64 0xfffffff0) = .ok (.map true, s₀) ∧
      ∀ ops p, Reaches Timely (receiverStep 0xfffffff0) ⟨s₀, []⟩ ops p →
        (∃ next top blocks, ReportsReceived p.sys 0xfffffff0 (Received p.log) next top blocks) ∧
          ∀ r, Timely p r → ∃ result p', receiverStep 0xfffffff0 p r = .ok (result, p') :=
  history_reported startable_zeroed 0xfffffff0

/-! ### The order of the receipts -/

section

variable {t₀ : Tsn} {S : Set ℕ} {next next' : ℕ} {W W' : Window} {map map' : TsnMap} {h h' : Mem}

/-- A set has one window, but for the length of the buffer. -/
theorem Tells.unique (ht : Tells t₀ S next W) (hc : W.Clean) (ht' : Tells t₀ S next' W')
    (hc' : W'.Clean) : W'.cum = W.cum ∧ W'.span = W.span ∧ W'.bit = W.bit := by
  obtain rfl := (ht.isLeast hc).unique (ht'.isLeast hc')
  have hspan := (ht.isLeast_bound hc).unique (ht'.isLeast_bound hc')
  refine ⟨?_, by omega, ?_⟩
  · rw [ht.cum_eq, ht'.cum_eq]
  · funext i
    rw [Bool.eq_iff_iff, ht.bit, ht'.bit]

/-- The search for a run does not depend on how far the buffer goes on behind the last set bit. -/
theorem Window.findRun_congr (hbit : W'.bit = W.bit) (off : ℕ) :
    W'.findRun off = W.findRun off := by
  -- one direction is enough
  suffices hsome : ∀ {V V' : Window} {r : ℕ × ℕ}, V'.bit = V.bit → V.findRun off = some r →
      V'.findRun off = some r by
    cases hrun : W.findRun off with
    | some r => exact hsome hbit hrun
    | none =>
      cases hrun' : W'.findRun off with
      | none => rfl
      | some r =>
        rw [hsome hbit.symm hrun'] at hrun
        exact absurd hrun (Option.some_ne_none r)
  rintro V V' ⟨i, j⟩ hbit hrun
  obtain ⟨hpos, hij, hj, hfirst, hlast⟩ := V.findRun_eq_some hrun
  obtain ⟨hlo, hi⟩ := hfirst.here (by omega)
  -- both ends of the run lie in the other buffer too
  have hset : V'.bit j = true := by
    rw [hbit]
    exact hlast.true_of_mem_run hij le_rfl
  have hlt := V'.lt_of_bit j hset
  have hfirst' : IsFirst V'.bit off V'.len i := by
    rw [hbit]
    exact ⟨by omega, hfirst.before, fun _ => ⟨hlo, hi⟩⟩
  have hlast' : IsFirst (fun k => !V'.bit k) i V'.len (j + 1) := by
    refine ⟨hlt, ?_, fun hend => ⟨by omega, ?_⟩⟩
    · rw [hbit]
      exact hlast.before
    · rw [hbit]
      by_cases hend' : j + 1 < V.len
      · exact (hlast.here hend').2
      · rw [V.bit_of_le (Nat.not_lt.mp hend')]
        rfl
  have hfound : i < V'.len ∧ i ≠ 0 := ⟨by omega, by omega⟩
  simp only [Window.findRun, ← hfirst'.eq_firstIn, if_pos hfound, ← hlast'.eq_firstIn,
    Nat.add_sub_cancel]

/-- `vlstp_tsnmap_next_gap_ack`, for an iterator anywhere. -/
theorem Represents.nextGapAck_anywhere (hr : Represents map h W) (iter : TsnMapIter) :
    vlstpTsnmapNextGapAck map iter h =
      .ok (if tsnLte map.maxTsnSeen iter.start then (none, iter) else
        match W.findRun ((iter.start - map.baseTsn).setWidth 16 : BitVec 16).toNat with
        | none => (none, iter)
        | some run => (some (gapAckBlock run),
            ⟨map.cumulativeTsnAckPoint + (gapAckBlock run).stop.zeroExtend 32 + 1⟩)) := by
  have hlen : W.len ≤ 4096 := W.len_le
  unfold vlstpTsnmapNextGapAck
  by_cases hdone : tsnLte map.maxTsnSeen iter.start = true
  · rw [if_pos hdone, if_pos hdone]
  rw [if_neg hdone, if_neg hdone]
  simp only [hr.findGapAck, Except.ok_bind]
  cases hrun : W.findRun ((iter.start - map.baseTsn).setWidth 16 : BitVec 16).toNat with
  | none => rfl
  | some run =>
    obtain ⟨i, j⟩ := run
    obtain ⟨hpos, hij, hj, -, -⟩ := W.findRun_eq_some hrun
    have hnz (k : ℕ) (hk : 0 < k) (hk' : k < 65536) : BitVec.ofNat 16 k ≠ 0 := by
      intro hzero
      have hnat := congrArg BitVec.toNat hzero
      rw [BitVec.toNat_ofNat] at hnat
      change k % 65536 = 0 at hnat
      omega
    -- an end of 0 is patched up to the last bit of the map, which is where the run ends
    have hstop : (if BitVec.ofNat 16 i ≠ 0 ∧
        (if j + 1 < W.len then BitVec.ofNat 16 j else 0) = 0 then map.len - 1
        else if j + 1 < W.len then BitVec.ofNat 16 j else 0) = BitVec.ofNat 16 j := by
      by_cases hend : j + 1 < W.len
      · rw [if_pos hend, if_neg fun h => hnz j (by omega) (by omega) h.2]
      · rw [if_neg hend, if_pos ⟨hnz i (by omega) (by omega), rfl⟩, ← BitVec.toNat_inj,
          BitVec.toNat_sub, hr.numbers.len, BitVec.toNat_ofNat]
        change (65536 - 1 + W.len) % 65536 = j % 65536
        omega
    simp only [hstop, if_pos (hnz j (by omega) (by omega)), Except.pure_eq, gapAckBlock,
      BitVec.ofNat_add]
    rfl

/-- Maps that stand for one set answer alike. -/
theorem Represents.sameResults_of_bits (hr : Represents map h W) (hr' : Represents map' h' W')
    (hcum : W'.cum = W.cum) (hspan : W'.span = W.span) (hbit : W'.bit = W.bit) :
    SameResults map h map' h' where
  check t := by
    have hoff : W'.offset t = W.offset t := by unfold Window.offset; rw [hcum]
    rw [hr.check, hr'.check, hoff, Window.check, Window.check, hbit]
  ctsn := by
    change map'.cumulativeTsnAckPoint = map.cumulativeTsnAckPoint
    rw [hr.numbers.cum, hr'.numbers.cum, hcum]
  maxTsnSeen := by
    change map'.maxTsnSeen = map.maxTsnSeen
    rw [hr.numbers.max, hr'.numbers.max, hcum, hspan]
  pending := by
    rw [hr.pending, hr'.pending, Window.pending, Window.pending, hspan, hbit]
  nextGapAck iter := by
    have hbase : map'.baseTsn = map.baseTsn := by rw [hr.numbers.base, hr'.numbers.base, hcum]
    have hctsn : map'.cumulativeTsnAckPoint = map.cumulativeTsnAckPoint := by
      rw [hr.numbers.cum, hr'.numbers.cum, hcum]
    have hmax : map'.maxTsnSeen = map.maxTsnSeen := by
      rw [hr.numbers.max, hr'.numbers.max, hcum, hspan]
    rw [hr.nextGapAck_anywhere, hr'.nextGapAck_anywhere, hbase, hctsn, hmax,
      Window.findRun_congr hbit]

/-- What `vlstp_tsnmap_num_gabs` writes follows from the answers of `vlstp_tsnmap_next_gap_ack`. -/
theorem SameResults.numGabs (hs : SameResults map h map' h') (gabs : ℕ → GapAckBlock) :
    vlstpTsnmapNumGabs map' gabs h' = vlstpTsnmapNumGabs map gabs h := by
  have hctsn : map'.cumulativeTsnAckPoint = map.cumulativeTsnAckPoint := hs.ctsn
  have hmax : map'.maxTsnSeen = map.maxTsnSeen := hs.maxTsnSeen
  have hloop (fuel : ℕ) (iter : TsnMapIter) (ngaps : ℕ) (gabs : ℕ → GapAckBlock) :
      numGabsLoop map' h' fuel iter ngaps gabs = numGabsLoop map h fuel iter ngaps gabs := by
    induction fuel generalizing iter ngaps gabs with
    | zero => rfl
    | succ fuel ih => simp only [numGabsLoop, hs.nextGapAck, ih]
  unfold vlstpTsnmapNumGabs vlstpTsnmapHasGap vlstpTsnmapIterInit
  rw [hctsn, hmax, hloop]

end

/-- **The order of the receipts is not observable**, nor how often a number was marked, whether it
was marked or skipped, how long the maps were at first and when they grew: two maps that have
received the same numbers answer every call alike. -/
theorem order_unobservable {s s' : TsnState} {len len' : BitVec 16} (hs : Startable s len)
    (hs' : Startable s' len') (initialTsn : Tsn) :
    ∃ s₀ s₀', tsnStep s (.init len initialTsn) = .ok (.map true, s₀) ∧
      tsnStep s' (.init len' initialTsn) = .ok (.map true, s₀') ∧
      ∀ ops p ops' p', Reaches Timely (receiverStep initialTsn) ⟨s₀, []⟩ ops p →
        Reaches Timely (receiverStep initialTsn) ⟨s₀', []⟩ ops' p' →
        Received p'.log = Received p.log →
        SameResults p.sys.map p.sys.heap p'.sys.map p'.sys.heap ∧
          ∀ gabs, vlstpTsnmapNumGabs p'.sys.map gabs p'.sys.heap =
            vlstpTsnmapNumGabs p.sys.map gabs p.sys.heap := by
  obtain ⟨s₀, hinit, hkeeps⟩ := hs.init initialTsn
  obtain ⟨s₀', hinit', hkeeps'⟩ := hs'.init initialTsn
  refine ⟨s₀, s₀', hinit, hinit', fun ops p ops' p' hrun hrun' hsame => ?_⟩
  obtain ⟨W, next, hrep, hc, -, ht⟩ := hkeeps.run hrun
  obtain ⟨W', next', hrep', hc', -, ht'⟩ := hkeeps'.run hrun'
  rw [hsame] at ht'
  obtain ⟨hcum, hspan, hbit⟩ := ht.unique hc ht' hc'
  have hresults := hrep.sameResults_of_bits hrep' hcum hspan hbit
  exact ⟨hresults, hresults.numGabs⟩

/-- Maps of 64 and of 4096 bits. -/
theorem order_unobservable_lengths :
    ∃ s₀ s₀', tsnStep (.zeroed zeroMemory) (.init 64 0xfffffff0) = .ok (.map true, s₀) ∧
      tsnStep (.zeroed zeroMemory) (.init 4096 0xfffffff0) = .ok (.map true, s₀') ∧
      ∀ ops p ops' p', Reaches Timely (receiverStep 0xfffffff0) ⟨s₀, []⟩ ops p →
        Reaches Timely (receiverStep 0xfffffff0) ⟨s₀', []⟩ ops' p' →
        Received p'.log = Received p.log →
        SameResults p.sys.map p.sys.heap p'.sys.map p'.sys.heap ∧
          ∀ gabs, vlstpTsnmapNumGabs p'.sys.map gabs p'.sys.heap =
            vlstpTsnmapNumGabs p.sys.map gabs p.sys.heap :=
  order_unobservable startable_zeroed
    ⟨rfl, by decide, by decide, by decide, zeroFilled_zeroMemory, Option.some_ne_none _⟩ 0xfffffff0

end Vlstp
