import Mathlib.Data.Set.Card
import Vlstp.Framework.MaxRuns
import Vlstp.Tsnmap.ReceiveSet

/-!
# Gap ack blocks

What the peer is told about the numbers beyond the ack point. Iterating `vlstp_tsnmap_next_gap_ack`
over a map that stands for a clean window finds the maximal runs of its bits (`Represents.gapAcks`):
the code's zero for "not found" is not mistaken, as bit 0 is clear; the end that is patched up is
the end of the map; and the early exit at the highest number seen misses nothing, as the iterator
only ever stands on a clear bit.

From that, `gap_acks_exact`: the blocks and the ack point determine what was received, and
`vlstp_tsnmap_num_gabs` reports the first 16 of them. And `pending_exact`: `vlstp_tsnmap_pending`,
which counts bits instead, accounts for the same numbers.
-/

namespace Vlstp

/-- From `iter` on, `vlstp_tsnmap_next_gap_ack` yields `blocks` and then returns 0. -/
inductive GapAcks (map : TsnMap) (h : Mem) : TsnMapIter → List GapAckBlock → Prop
  | done {iter iter' : TsnMapIter}
      (hnext : vlstpTsnmapNextGapAck map iter h = .ok (none, iter')) : GapAcks map h iter []
  | block {iter iter' : TsnMapIter} {b : GapAckBlock} {blocks : List GapAckBlock}
      (hnext : vlstpTsnmapNextGapAck map iter h = .ok (some b, iter'))
      (hrest : GapAcks map h iter' blocks) : GapAcks map h iter (b :: blocks)

/-- The bit of `t` is set in the map. -/
def InMap (map : TsnMap) (h : Mem) (t : Tsn) : Prop :=
  (t - map.baseTsn).toNat < map.len.toNat ∧
    testBit (t - map.baseTsn).toNat map.tsnMap h = .ok true

/-- The block covers the number `d` past the ack point. -/
def GapAckBlock.Covers (b : GapAckBlock) (d : ℕ) : Prop := b.start.toNat ≤ d ∧ d ≤ b.stop.toNat

/-- The block as `vlstp_tsnmap_num_gabs` writes it. -/
def GapAckBlock.hton (b : GapAckBlock) : GapAckBlock := ⟨htons b.start, htons b.stop⟩

/-- The array `gabs` with `blocks` written over its first entries, in network byte order. -/
def withBlocks (gabs : ℕ → GapAckBlock) (blocks : List GapAckBlock) (k : ℕ) : GapAckBlock :=
  match blocks[k]? with
  | some b => b.hton
  | none => gabs k

/-- What can be iterated at all is determined. -/
theorem GapAcks.unique {map : TsnMap} {h : Mem} {iter : TsnMapIter}
    {blocks blocks' : List GapAckBlock} (hb : GapAcks map h iter blocks)
    (hb' : GapAcks map h iter blocks') : blocks = blocks' := by
  induction hb generalizing blocks' with
  | done hnext =>
    cases hb' with
    | done _ => rfl
    | block hnext' _ =>
      rw [hnext] at hnext'
      exact absurd hnext' (by simp)
  | block hnext _ ih =>
    cases hb' with
    | done hnext' =>
      rw [hnext] at hnext'
      exact absurd hnext' (by simp)
    | block hnext' hrest' =>
      rw [hnext] at hnext'
      obtain ⟨hblock, rfl⟩ := Prod.mk.inj (Except.ok.inj hnext')
      rw [Option.some.inj hblock, ih hrest']

theorem GapAcks.iff_eq {map : TsnMap} {h : Mem} {iter : TsnMapIter}
    {blocks : List GapAckBlock} (hb : GapAcks map h iter blocks) (bs : List GapAckBlock) :
    GapAcks map h iter bs ↔ bs = blocks :=
  ⟨fun hbs => hbs.unique hb, fun heq => heq ▸ hb⟩

theorem withBlocks_nil (gabs : ℕ → GapAckBlock) : withBlocks gabs [] = gabs := rfl

theorem withBlocks_concat (gabs : ℕ → GapAckBlock) (blocks : List GapAckBlock) (b : GapAckBlock) :
    withBlocks gabs (blocks ++ [b]) =
      Function.update (withBlocks gabs blocks) blocks.length b.hton := by
  funext k
  unfold withBlocks
  rcases Nat.lt_trichotomy k blocks.length with hlt | rfl | hgt
  · rw [Function.update_of_ne (Nat.ne_of_lt hlt), List.getElem?_append_left hlt]
  · rw [Function.update_self, List.getElem?_concat_length]
  · have hlen : (blocks ++ [b]).length ≤ k := by
      rw [List.length_append, List.length_singleton]
      exact hgt
    rw [Function.update_of_ne (Nat.ne_of_gt hgt), List.getElem?_eq_none hlen,
      List.getElem?_eq_none (Nat.le_of_lt hgt)]

/-! ### The iteration -/

section

variable {map : TsnMap} {h : Mem} {W : Window}

theorem Represents.inMap_iff (hr : Represents map h W) (t : Tsn) :
    InMap map h t ↔ W.bit (W.offset t) = true := by
  obtain ⟨hn, b, w, hb⟩ := hr
  unfold InMap
  rw [hn.offset_eq, hn.len]
  by_cases hlt : W.offset t < W.len
  · rw [hb.test hlt, Except.ok.injEq]
    exact and_iff_right hlt
  · rw [W.bit_of_le (Nat.not_lt.mp hlt)]
    exact ⟨fun hin => absurd hin.1 hlt, fun hbit => Bool.noConfusion hbit⟩

/-- Where the search gives up, no bit is left. -/
theorem Window.Clean.nextRun_none (hc : W.Clean) {off : ℕ} (hoff : W.bit off = false)
    (hnone : W.nextRun off = none) (i : ℕ) (hle : off ≤ i) : W.bit i = false := by
  by_contra hbit
  have hbit : W.bit i = true := by simpa using hbit
  have hne : off ≠ i := by
    rintro rfl
    rw [hoff] at hbit
    exact Bool.noConfusion hbit
  -- a bit beyond the iterator is below the highest number seen, so the search did look
  have hspan := hc.below i hbit
  have hlen := W.lt_of_bit i hbit
  rw [Window.nextRun, if_pos (by omega), Window.findRun] at hnone
  have hfirst : IsFirst W.bit off W.len (firstIn W.bit off W.len) := isFirst_firstIn ..
  -- it found a bit no later than `i`, and not at offset 0, so it did not give up
  have hle' : firstIn W.bit off W.len ≤ i := by
    by_contra hlt
    rw [hfirst.before i hle (Nat.not_le.mp hlt)] at hbit
    exact Bool.noConfusion hbit
  have hhere := hfirst.here (by omega)
  have hpos : firstIn W.bit off W.len ≠ 0 := by
    intro hzero
    rw [hzero, hc.zero] at hhere
    exact Bool.noConfusion hhere.2
  simp only [if_pos (show firstIn W.bit off W.len < W.len ∧ firstIn W.bit off W.len ≠ 0 from
    ⟨by omega, hpos⟩), reduceCtorEq] at hnone

/-- From a clear bit on, the blocks are the maximal runs of the bits from there on. -/
theorem Represents.gapAcks_from (hr : Represents map h W) (hc : W.Clean) (off : ℕ)
    (hle : off ≤ W.len) (hoff : W.bit off = false) :
    ∃ runs, IsRuns W.bit W.len off runs ∧
      GapAcks map h ⟨W.tsnAt off⟩ (runs.map gapAckBlock) := by
  -- on the number of bits left
  induction hn : W.len - off using Nat.strong_induction_on generalizing off with
  | _ n ih =>
    have hnext := hr.nextGapAck hle
    cases hrun : W.nextRun off with
    | none =>
      rw [hrun] at hnext
      exact ⟨[], .nil fun i hi _ => hc.nextRun_none hoff hrun i hi, .done hnext⟩
    | some run =>
      rw [hrun] at hnext
      obtain ⟨i, j⟩ := run
      unfold Window.nextRun at hrun
      by_cases hgo : off + 1 < W.span
      · rw [if_pos hgo] at hrun
        obtain ⟨hpos, hij, hj, hfirst, hlast⟩ := W.findRun_eq_some hrun
        have hlo := (hfirst.here (by omega)).1
        -- the iterator goes on from the clear bit after the run
        have hclear : W.bit (j + 1) = false := by
          by_cases hend : j + 1 < W.len
          · simpa using (hlast.here hend).2
          · exact W.bit_of_le (Nat.not_lt.mp hend)
        obtain ⟨runs, hruns, hacks⟩ := ih _ (by omega) (j + 1) hj hclear rfl
        exact ⟨(i, j) :: runs, .cons hfirst hij hj hlast hruns, .block hnext hacks⟩
      · rw [if_neg hgo] at hrun
        exact absurd hrun (by simp)

theorem Represents.iterInit_eq (hr : Represents map h W) :
    vlstpTsnmapIterInit map = ⟨W.tsnAt 0⟩ := by
  rw [vlstpTsnmapIterInit, hr.numbers.cum, Window.tsnAt, BitVec.add_zero]

/-- **The blocks are the maximal runs of the bits.** -/
theorem Represents.gapAcks (hr : Represents map h W) (hc : W.Clean) :
    ∃ runs, IsRuns W.bit W.len 0 runs ∧
      GapAcks map h (vlstpTsnmapIterInit map) (runs.map gapAckBlock) := by
  rw [hr.iterInit_eq]
  exact hr.gapAcks_from hc 0 (Nat.zero_le _) hc.zero

/-- A run in the map as a block. -/
theorem toNat_gapAckBlock {run : ℕ × ℕ} (hle : run.1 ≤ run.2) (hlt : run.2 < W.len) :
    (gapAckBlock run).start.toNat = run.1 + 1 ∧ (gapAckBlock run).stop.toNat = run.2 + 1 := by
  have hlen : W.len ≤ 4096 := W.len_le
  simp only [gapAckBlock, BitVec.toNat_ofNat]
  omega

/-! ### `vlstp_tsnmap_num_gabs` -/

/-- The loop, once the blocks `pre` are written. -/
theorem GapAcks.numGabsLoop {iter : TsnMapIter} {blocks : List GapAckBlock}
    (hacks : GapAcks map h iter blocks) (gabs : ℕ → GapAckBlock) (pre : List GapAckBlock) (fuel : ℕ)
    (hpre : pre.length < maxGabs) (hfuel : maxGabs ≤ fuel + pre.length) :
    Vlstp.numGabsLoop map h fuel iter pre.length (withBlocks gabs pre) =
      .ok (((pre ++ blocks).take maxGabs).length,
        withBlocks gabs ((pre ++ blocks).take maxGabs)) := by
  induction hacks generalizing pre fuel with
  | done hnext =>
    obtain ⟨fuel, rfl⟩ : ∃ n, fuel = n + 1 := ⟨fuel - 1, by omega⟩
    rw [Vlstp.numGabsLoop, hnext, List.append_nil, List.take_of_length_le hpre.le]
    rfl
  | @block iter iter' b blocks hnext _ ih =>
    obtain ⟨fuel, rfl⟩ : ∃ n, fuel = n + 1 := ⟨fuel - 1, by omega⟩
    -- `b` becomes the last of the blocks written
    have hsplit : pre ++ b :: blocks = (pre ++ [b]) ++ blocks := by simp
    have hone : pre.length + 1 = (pre ++ [b]).length := by simp
    rw [Vlstp.numGabsLoop, hnext, Except.ok_bind]
    change (if pre.length + 1 ≥ maxGabs then
        Except.ok (pre.length + 1, Function.update (withBlocks gabs pre) pre.length b.hton)
      else Vlstp.numGabsLoop map h fuel iter' (pre.length + 1)
        (Function.update (withBlocks gabs pre) pre.length b.hton)) = _
    rw [← withBlocks_concat, hone, hsplit]
    by_cases hfull : (pre ++ [b]).length ≥ maxGabs
    · -- the array is full
      have hlen : (pre ++ [b]).length = maxGabs := by omega
      rw [if_pos hfull, ← hlen, List.take_left]
    · rw [if_neg hfull]
      exact ih (pre ++ [b]) fuel (Nat.not_le.mp hfull) (by omega)

/-- **`vlstp_tsnmap_num_gabs`**: the first 16 blocks, and nothing past them. -/
theorem Represents.numGabs (hr : Represents map h W) {blocks : List GapAckBlock}
    (hacks : GapAcks map h (vlstpTsnmapIterInit map) blocks) (gabs : ℕ → GapAckBlock) :
    vlstpTsnmapNumGabs map gabs h =
      .ok (BitVec.ofNat 16 (min maxGabs blocks.length), withBlocks gabs (blocks.take maxGabs)) := by
  unfold vlstpTsnmapNumGabs
  by_cases hgap : vlstpTsnmapHasGap map = true
  · have hloop := hacks.numGabsLoop gabs [] maxGabs (by decide) (Nat.le_refl _)
    rw [List.nil_append, withBlocks_nil, List.length_nil, List.length_take] at hloop
    rw [if_pos hgap, hloop]
    rfl
  · -- without a gap the iterator finds nothing
    have hspan : W.span = 0 := by simpa [hr.numbers.hasGap_eq] using hgap
    have hnext := hr.nextGapAck (Nat.zero_le _)
    have hnone : W.nextRun 0 = none := by rw [Window.nextRun, if_neg (by omega)]
    rw [hnone, ← hr.iterInit_eq] at hnext
    cases hacks with
    | done _ => rw [if_neg hgap]; rfl
    | block hnext' _ =>
      rw [hnext] at hnext'
      exact absurd hnext' (by simp)

end

/-! ### What the blocks say -/

/-- The numbers the blocks cover, counted from the ack point. -/
def coveredBy (ctsn : Tsn) (blocks : List GapAckBlock) : Set Tsn :=
  {t | ∃ b ∈ blocks, b.Covers (t - ctsn).toNat}

/-- `blocks` are the maximal runs of the numbers in the map: they do not reach the ack point or the
number after it, there is a missing number between any two of them, and they cover what is in the
map and nothing else. -/
structure ExactBlocks (map : TsnMap) (h : Mem) (blocks : List GapAckBlock) : Prop where
  bounds : ∀ b ∈ blocks,
    2 ≤ b.start.toNat ∧ b.start.toNat ≤ b.stop.toNat ∧ b.stop.toNat ≤ tsnMapSize
  gaps : blocks.Pairwise fun b b' => b.stop.toNat + 1 < b'.start.toNat
  covers : {t | InMap map h t} = coveredBy map.cumulativeTsnAckPoint blocks

section

variable {map : TsnMap} {h : Mem} {W : Window}

/-- The blocks of a clean window, from its runs. -/
theorem Represents.exactBlocks (hr : Represents map h W) (hc : W.Clean) {runs : List (ℕ × ℕ)}
    (hruns : IsRuns W.bit W.len 0 runs) : ExactBlocks map h (runs.map gapAckBlock) := by
  have hlen := W.len_le
  have hnum {r : ℕ × ℕ} (hr : r ∈ runs) :
      (gapAckBlock r).start.toNat = r.1 + 1 ∧ (gapAckBlock r).stop.toNat = r.2 + 1 :=
    toNat_gapAckBlock (hruns.bounds hr).2.1 (hruns.bounds hr).2.2
  refine ⟨fun b hb => ?_, ?_, ?_⟩
  · obtain ⟨r, hmem, rfl⟩ := List.mem_map.mp hb
    obtain ⟨-, hle, hlt⟩ := hruns.bounds hmem
    -- bit 0 is clear, so no run starts there
    have hpos := hruns.succ_lt hc.zero hmem
    rw [(hnum hmem).1, (hnum hmem).2]
    omega
  · rw [List.pairwise_map]
    refine hruns.pairwise.imp_of_mem fun {r r'} hmem hmem' hlt => ?_
    rw [(hnum hmem).2, (hnum hmem').1]
    omega
  · ext t
    -- a number `d` past the ack point has its bit at `d - 1`
    have hoff : (t - W.cum).toNat = if W.offset t + 1 < 2 ^ 32 then W.offset t + 1 else 0 := by
      unfold Window.offset
      rw [BitVec.toNat_sub, BitVec.toNat_sub, BitVec.toNat_add, toNat_one_u32]
      split <;> omega
    rw [Set.mem_ofPred_eq, hr.inMap_iff, hr.numbers.cum]
    unfold coveredBy
    rw [Set.mem_ofPred_eq]
    constructor
    · intro hbit
      have hlt := W.lt_of_bit _ hbit
      unfold tsnMapSize at hlen
      rw [if_pos (by omega)] at hoff
      obtain ⟨r, hmem, hle, hle'⟩ := (hruns.covers_iff (Nat.zero_le _) hlt).mp hbit
      refine ⟨_, List.mem_map_of_mem hmem, ?_⟩
      rw [GapAckBlock.Covers, (hnum hmem).1, (hnum hmem).2, hoff]
      omega
    · rintro ⟨b, hb, hcov⟩
      obtain ⟨r, hmem, rfl⟩ := List.mem_map.mp hb
      rw [GapAckBlock.Covers, (hnum hmem).1, (hnum hmem).2, hoff] at hcov
      have hlt := (hruns.bounds hmem).2.2
      by_cases hwrap : W.offset t + 1 < 2 ^ 32
      · rw [if_pos hwrap] at hcov
        exact (hruns.covers_iff (Nat.zero_le _) (by omega)).mpr ⟨r, hmem, by omega, by omega⟩
      · -- the ack point itself, which no block covers
        rw [if_neg hwrap] at hcov
        omega

/-! ### The missing numbers -/

/-- All set bits are below the highest number seen. -/
theorem Window.Clean.count_len (hc : W.Clean) :
    Nat.count (fun i => W.bit i = true) W.len = Nat.count (fun i => W.bit i = true) W.span := by
  refine IsRuns.count_of_forall_false W.span_le fun i hi _ => ?_
  by_contra hbit
  have := hc.below i (by simpa using hbit)
  omega

/-- A clean window counts its missing numbers without an exception. -/
theorem Window.Clean.pending_eq (hc : W.Clean) :
    W.pending + Nat.count (fun i => W.bit i = true) W.len = W.span := by
  have hle : Nat.count (fun i => W.bit i = true) W.span ≤ W.span := Nat.count_le _
  rw [hc.count_len, Window.pending]
  by_cases hone : W.span ≤ 1
  · -- the bit not looked at is bit 0, which is clear
    have hnone : Nat.count (fun i => W.bit i = true) W.span = 0 := by
      refine Nat.count_of_forall_not fun i hi => ?_
      obtain rfl : i = 0 := by omega
      simp [hc.zero]
    rw [if_pos hone, hnone, Nat.add_zero]
  · rw [if_neg hone]
    omega

/-- The first number after the ack point is missing, if anything beyond it was seen. -/
theorem Window.Clean.pending_eq_zero_iff (hc : W.Clean) : W.pending = 0 ↔ W.span = 0 := by
  have hsum := hc.pending_eq
  rw [hc.count_len] at hsum
  constructor
  · -- bit 0 is below the highest number seen and clear, so it is counted as missing
    intro hzero
    by_contra hne
    obtain ⟨n, hn⟩ : ∃ n, W.span = 1 + n := ⟨W.span - 1, by omega⟩
    have hfirst : Nat.count (fun i => W.bit i = true) 1 = 0 :=
      Nat.count_of_forall_not fun i hi => by
        obtain rfl : i = 0 := by omega
        simp [hc.zero]
    have hrest : Nat.count (fun i => W.bit (1 + i) = true) n ≤ n := Nat.count_le _
    rw [hn, Nat.count_add, hfirst] at hsum
    omega
  · intro hzero
    omega

/-- The numbers up to the highest one seen that are not in the map, one for each clear bit. -/
theorem Represents.ncard_missing (hr : Represents map h W) (hc : W.Clean) :
    {t ∈ tsnIoc W.cum W.span | ¬ InMap map h t}.ncard = W.pending := by
  have hspan := Numbers.span_lt W
  set clear := (Finset.range W.span).filter fun i => ¬ W.bit i = true with hclear
  have himage : {t ∈ tsnIoc W.cum W.span | ¬ InMap map h t} = W.tsnAt '' clear := by
    ext t
    rw [Set.mem_ofPred_eq, W.mem_tsnIoc_iff (by omega), hr.inMap_iff, Set.mem_image]
    constructor
    · rintro ⟨hlt, hbit⟩
      refine ⟨W.offset t, ?_, W.tsnAt_offset t⟩
      simp only [hclear, Finset.coe_filter, Finset.mem_range, Set.mem_ofPred_eq]
      exact ⟨hlt, hbit⟩
    · rintro ⟨i, hi, rfl⟩
      simp only [hclear, Finset.coe_filter, Finset.mem_range, Set.mem_ofPred_eq] at hi
      rw [W.offset_tsnAt (by omega)]
      exact hi
  have hinj : Set.InjOn W.tsnAt clear := by
    intro i hi j hj heq
    simp only [hclear, Finset.coe_filter, Finset.mem_range, Set.mem_ofPred_eq] at hi hj
    rw [← W.offset_tsnAt (show i < 2 ^ 32 by omega), heq, W.offset_tsnAt (by omega)]
  have hcount : ((Finset.range W.span).filter fun i => W.bit i = true).card =
      Nat.count (fun i => W.bit i = true) W.len := by
    rw [hc.count_len, Nat.count_eq_card_filter_range]
  -- set and clear bits together are all of them
  have hboth : ((Finset.range W.span).filter fun i => W.bit i = true).card + clear.card =
      W.span := by
    rw [hclear, Finset.card_filter_add_card_filter_not, Finset.card_range]
  have hpending := hc.pending_eq
  calc {t ∈ tsnIoc W.cum W.span | ¬ InMap map h t}.ncard
      = clear.card := by rw [himage, hinj.ncard_image, Set.ncard_coe_finset]
    _ = W.span - Nat.count (fun i => W.bit i = true) W.len := by omega
    _ = W.pending := by omega

/-- The lengths of the blocks of a window. -/
theorem Window.sum_blocks {runs : List (ℕ × ℕ)} (hruns : IsRuns W.bit W.len 0 runs) :
    ((runs.map gapAckBlock).map fun b => b.stop.toNat - b.start.toNat + 1).sum =
      Nat.count (fun i => W.bit i = true) W.len := by
  have hsum := hruns.sum_length (Nat.zero_le _)
  rw [Nat.count_zero, Nat.zero_add] at hsum
  rw [← hsum, List.map_map]
  refine congrArg List.sum (List.map_congr_left fun r hr => ?_)
  obtain ⟨-, hle, hlt⟩ := hruns.bounds hr
  obtain ⟨hstart, hstop⟩ := toNat_gapAckBlock (W := W) hle hlt
  simp only [Function.comp_apply, hstart, hstop]
  omega

end

/-! ### Along runs -/

/-- Every state of a run in zeroed memory stands for a clean window. -/
theorem reaches_clean {map : TsnMap} {iter : TsnMapIter} {h : Mem} {len : BitVec 16} {t : Tsn}
    (hnull : map.tsnMap = none) (hpos : 0 < len.toNat) (hle : len.toNat ≤ tsnMapSize)
    (hdvd : 64 ∣ len.toNat) (hzero : ZeroFilled h.oracle) (hmem : h.oracle h.next ≠ none) :
    ∃ s₀, tsnStep ⟨map, iter, h⟩ (.init len t) = .ok (.map true, s₀) ∧
      ∀ ops s, Reaches UpdatesChecked tsnStep s₀ ops s →
        ∃ W, Represents s.map s.heap W ∧ W.Clean := by
  obtain ⟨c, ho⟩ := Option.ne_none_iff_exists'.mp hmem
  obtain rfl := hzero _ _ ho
  obtain ⟨s₀, hinit, hr₀, horacle₀, -⟩ :=
    step_init (s := ⟨map, iter, h⟩) hnull hpos hle hdvd t ho
  refine ⟨s₀, hinit, fun ops s hrun => ?_⟩
  -- the invariant carries `malloc` along, whose later answers are zeroed blocks too
  have hinv : ∃ W, Represents s.map s.heap W ∧ W.Clean ∧ s.heap.oracle = h.oracle := by
    refine hrun.invariant_state
      (fun s => ∃ W, Represents s.map s.heap W ∧ W.Clean ∧ s.heap.oracle = h.oracle) ?_ ?_
    · exact ⟨_, hr₀, Window.clean_fresh hpos hle hdvd, horacle₀⟩
    · rintro s op s' ⟨W, hr, hc, horacle⟩ ⟨hop, r, hs⟩
      obtain ⟨hr', horacle', -⟩ := hr.of_step hop.ne_free (hr.inReach hop.2) hs
      exact ⟨_, hr', hc.after (fun c hc => hzero _ c (horacle ▸ hc)) op, horacle'.trans horacle⟩
  obtain ⟨W, hr, hc, -⟩ := hinv
  exact ⟨W, hr, hc⟩

/-- **Gap ack blocks are exactly the maximal runs of received numbers.** In every state a run
reaches from `vlstp_tsnmap_init` in zeroed memory, whether or not later calls find memory: the
iteration ends, always with the same blocks; these and the ack point determine which numbers are in
the map; and `vlstp_tsnmap_num_gabs` returns how many of the first 16 there are and writes those,
and nothing past them. -/
theorem gap_acks_exact (map : TsnMap) (iter : TsnMapIter) (h : Mem) (len : BitVec 16)
    (initialTsn : Tsn) (hnull : map.tsnMap = none) (hpos : 0 < len.toNat)
    (hle : len.toNat ≤ tsnMapSize) (hdvd : 64 ∣ len.toNat) (hzero : ZeroFilled h.oracle)
    (hmem : h.oracle h.next ≠ none) :
    ∃ s₀, tsnStep ⟨map, iter, h⟩ (.init len initialTsn) = .ok (.map true, s₀) ∧
      ∀ ops s, Reaches UpdatesChecked tsnStep s₀ ops s →
        ∃ blocks,
          (∀ bs, GapAcks s.map s.heap (vlstpTsnmapIterInit s.map) bs ↔ bs = blocks) ∧
          ExactBlocks s.map s.heap blocks ∧
          ∀ gabs, vlstpTsnmapNumGabs s.map gabs s.heap =
            .ok (BitVec.ofNat 16 (min maxGabs blocks.length),
              withBlocks gabs (blocks.take maxGabs)) := by
  obtain ⟨s₀, hinit, hclean⟩ := reaches_clean hnull hpos hle hdvd hzero hmem
  refine ⟨s₀, hinit, fun ops s hrun => ?_⟩
  obtain ⟨W, hr, hc⟩ := hclean ops s hrun
  obtain ⟨runs, hruns, hacks⟩ := hr.gapAcks hc
  exact ⟨_, hacks.iff_eq, hr.exactBlocks hc hruns, hr.numGabs hacks⟩

/-- The blocks of a map that starts close to the end of the sequence space. -/
theorem gap_acks_exact_rollover :
    ∃ s₀, tsnStep (.zeroed zeroMemory) (.init 64 0xfffffff0) = .ok (.map true, s₀) ∧
      ∀ ops s, Reaches UpdatesChecked tsnStep s₀ ops s →
        ∃ blocks,
          (∀ bs, GapAcks s.map s.heap (vlstpTsnmapIterInit s.map) bs ↔ bs = blocks) ∧
          ExactBlocks s.map s.heap blocks ∧
          ∀ gabs, vlstpTsnmapNumGabs s.map gabs s.heap =
            .ok (BitVec.ofNat 16 (min maxGabs blocks.length),
              withBlocks gabs (blocks.take maxGabs)) :=
  gap_acks_exact _ _ _ 64 0xfffffff0 rfl (by decide) (by decide) (by decide) zeroFilled_zeroMemory
    (Option.some_ne_none _)

/-- **The missing count agrees with the blocks.** In every such state `vlstp_tsnmap_pending` is the
number of numbers up to the highest one seen that are not in the map; with the lengths of the blocks
it makes up the whole distance from the ack point to that number; and it is 0 exactly when there is
no gap. -/
theorem pending_exact (map : TsnMap) (iter : TsnMapIter) (h : Mem) (len : BitVec 16)
    (initialTsn : Tsn) (hnull : map.tsnMap = none) (hpos : 0 < len.toNat)
    (hle : len.toNat ≤ tsnMapSize) (hdvd : 64 ∣ len.toNat) (hzero : ZeroFilled h.oracle)
    (hmem : h.oracle h.next ≠ none) :
    ∃ s₀, tsnStep ⟨map, iter, h⟩ (.init len initialTsn) = .ok (.map true, s₀) ∧
      ∀ ops s, Reaches UpdatesChecked tsnStep s₀ ops s →
        ∃ n, vlstpTsnmapPending s.map s.heap = .ok n ∧
          n.toNat = {t ∈ tsnIoc s.map.cumulativeTsnAckPoint
            (s.map.maxTsnSeen - s.map.cumulativeTsnAckPoint).toNat |
              ¬ InMap s.map s.heap t}.ncard ∧
          (∃ blocks, (∀ bs, GapAcks s.map s.heap (vlstpTsnmapIterInit s.map) bs ↔ bs = blocks) ∧
            (blocks.map fun b => b.stop.toNat - b.start.toNat + 1).sum + n.toNat =
              (s.map.maxTsnSeen - s.map.cumulativeTsnAckPoint).toNat) ∧
          (n = 0 ↔ vlstpTsnmapHasGap s.map = false) := by
  obtain ⟨s₀, hinit, hclean⟩ := reaches_clean hnull hpos hle hdvd hzero hmem
  refine ⟨s₀, hinit, fun ops s hrun => ?_⟩
  obtain ⟨W, hr, hc⟩ := hclean ops s hrun
  obtain ⟨runs, hruns, hacks⟩ := hr.gapAcks hc
  have hsum := hc.pending_eq
  have hspan := Numbers.span_lt W
  have hn : (BitVec.ofNat 16 W.pending).toNat = W.pending := by
    rw [BitVec.toNat_ofNat]
    omega
  refine ⟨_, hr.pending, ?_, ⟨_, hacks.iff_eq, ?_⟩, ?_⟩
  · rw [hn, hr.numbers.max_sub_cum, hr.numbers.cum, hr.ncard_missing hc]
  · rw [hn, hr.numbers.max_sub_cum, Window.sum_blocks hruns]
    omega
  · rw [hr.numbers.hasGap_eq, decide_eq_false_iff_not, not_not, ← BitVec.toNat_inj, hn]
    exact hc.pending_eq_zero_iff

/-- The count for a map that starts close to the end of the sequence space. -/
theorem pending_exact_rollover :
    ∃ s₀, tsnStep (.zeroed zeroMemory) (.init 64 0xfffffff0) = .ok (.map true, s₀) ∧
      ∀ ops s, Reaches UpdatesChecked tsnStep s₀ ops s →
        ∃ n, vlstpTsnmapPending s.map s.heap = .ok n ∧
          n.toNat = {t ∈ tsnIoc s.map.cumulativeTsnAckPoint
            (s.map.maxTsnSeen - s.map.cumulativeTsnAckPoint).toNat |
              ¬ InMap s.map s.heap t}.ncard ∧
          (∃ blocks, (∀ bs, GapAcks s.map s.heap (vlstpTsnmapIterInit s.map) bs ↔ bs = blocks) ∧
            (blocks.map fun b => b.stop.toNat - b.start.toNat + 1).sum + n.toNat =
              (s.map.maxTsnSeen - s.map.cumulativeTsnAckPoint).toNat) ∧
          (n = 0 ↔ vlstpTsnmapHasGap s.map = false) :=
  pending_exact _ _ _ 64 0xfffffff0 rfl (by decide) (by decide) (by decide) zeroFilled_zeroMemory
    (Option.some_ne_none _)

end Vlstp
