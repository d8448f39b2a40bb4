import Vlstp.Framework.Reach
import Vlstp.Tsnmap.Represents

/-!
# Calls of the TSN map

A program that uses one TSN map makes calls of the functions of `tsnmap.h`, in any order. `tsnStep`
is one such call: it takes the struct, the iterator and the heap from one state to the next and
returns what the function returns.

`Window.after` is what a call does to the window a state stands for, given what the next `malloc`
answers, and `Represents.step` says that the code does just that: every call but `vlstp_tsnmap_free`
returns, as long as marks stay clear of the numbers whose offset is cut off wrongly (`InReach`).
`Clean.after` is the invariant of the runs in which `malloc` hands out zeroed memory.
-/

namespace Vlstp

/-- A call of a function of `tsnmap.h`. -/
inductive TsnCall
  | init (len : BitVec 16) (initialTsn : Tsn)
  | free
  | mark (tsn : Tsn)
  | skip (tsn : Tsn)
  | renege (tsn : Tsn)
  | check (tsn : Tsn)
  | pending
  | iterInit
  | nextGapAck
  | numGabs (gabs : ℕ → GapAckBlock)

/-- What such a call returns. -/
inductive TsnResult
  | void
  /-- Whether `vlstp_tsnmap_init` returned the map. -/
  | map (returned : Bool)
  | int (r : ℤ)
  | count (n : BitVec 16)
  /-- The block, where `vlstp_tsnmap_next_gap_ack` returned 1. -/
  | block (b : Option GapAckBlock)
  /-- The count `vlstp_tsnmap_num_gabs` returned, and the array it was given. -/
  | gabs (n : BitVec 16) (gabs : ℕ → GapAckBlock)

/-- The memory of a program that uses one map and one iterator. -/
structure TsnState where
  map : TsnMap
  iter : TsnMapIter
  heap : Mem

/-- A program before its first call, with its struct zeroed. -/
def TsnState.zeroed (oracle : ℕ → Option (ℕ → Word)) : TsnState where
  map := ⟨none, 0, 0, 0, 0, 0, fun _ => 0⟩
  iter := ⟨0⟩
  heap := .empty oracle

/-- One call, with `alloc` for `malloc`. -/
def tsnStepWith (alloc : ℕ → Mem → Ptr × Mem) (s : TsnState) :
    TsnCall → Except Fault (TsnResult × TsnState)
  | .init len initialTsn => do
    let (returned, map, heap) ← vlstpTsnmapInitWith alloc s.map len initialTsn s.heap
    return (.map returned, { s with map := map, heap := heap })
  | .free => do
    let (map, heap) ← vlstpTsnmapFree s.map s.heap
    return (.void, { s with map := map, heap := heap })
  | .mark tsn => do
    let (r, map, heap) ← vlstpTsnmapMarkWith alloc s.map tsn s.heap
    return (.int r, { s with map := map, heap := heap })
  | .skip tsn => do
    let (map, heap) ← vlstpTsnmapSkip s.map tsn s.heap
    return (.void, { s with map := map, heap := heap })
  | .renege tsn => do
    let heap ← vlstpTsnmapRenege s.map tsn s.heap
    return (.void, { s with heap := heap })
  | .check tsn => do
    let r ← vlstpTsnmapCheck s.map tsn s.heap
    return (.int r, s)
  | .pending => do
    let n ← vlstpTsnmapPending s.map s.heap
    return (.count n, s)
  | .iterInit => return (.void, { s with iter := vlstpTsnmapIterInit s.map })
  | .nextGapAck => do
    let (b, iter) ← vlstpTsnmapNextGapAck s.map s.iter s.heap
    return (.block b, { s with iter := iter })
  | .numGabs gabs => do
    let (n, gabs) ← vlstpTsnmapNumGabs s.map gabs s.heap
    return (.gabs n gabs, s)

/-- One call. -/
abbrev tsnStep := tsnStepWith malloc

/-! ### Which calls a program makes -/

/-- Marks, skips and reneges. -/
def TsnCall.IsUpdate : TsnCall → Prop
  | .mark _ | .skip _ | .renege _ => True
  | _ => False

/-- Calls that do not change the map. -/
def TsnCall.IsQuery : TsnCall → Prop
  | .check _ | .pending | .iterInit | .nextGapAck | .numGabs _ => True
  | _ => False

/-- The discipline of the receiver: a number is marked only when `vlstp_tsnmap_check` says that it
has not been seen. -/
def MarksChecked (s : TsnState) : TsnCall → Prop
  | .mark tsn => vlstpTsnmapCheck s.map tsn s.heap = .ok 0
  | _ => True

/-- Every block `malloc` hands out reads as zero. -/
def ZeroFilled (oracle : ℕ → Option (ℕ → Word)) : Prop :=
  ∀ n c, oracle n = some c → c = fun _ => 0

/-- `malloc` always finds memory. -/
def Available (oracle : ℕ → Option (ℕ → Word)) : Prop := ∀ n, oracle n ≠ none

/-- The `malloc` of a system that always has zeroed memory. -/
def zeroMemory (_ : ℕ) : Option (ℕ → Word) := some fun _ => 0

theorem zeroFilled_zeroMemory : ZeroFilled zeroMemory :=
  fun _ _ h => (Option.some.inj h).symm

theorem available_zeroMemory : Available zeroMemory := fun _ => Option.some_ne_none _

/-- The `malloc` of a system whose memory is never clean. -/
def dirtyMemory (_ : ℕ) : Option (ℕ → Word) := some fun _ => BitVec.allOnes 64

theorem available_dirtyMemory : Available dirtyMemory := fun _ => Option.some_ne_none _

/-! ### What a call does to the window -/

/-- The marks whose offset the 16 bits of `gap` do not spoil: in the window, old, or so far out that
the map refuses to grow. -/
def InReach (d : ℕ) : Prop :=
  d < tsnMapSize ∨ 2 ^ 31 ≤ d ∨ tsnMapSize ≤ d % 65536 ∧ d % 65536 ≠ 65535

instance (d : ℕ) : Decidable (InReach d) := by
  unfold InReach
  infer_instance

namespace Window

variable (W : Window)

/-- The window after a call, where `answer` is what the next `malloc` answers. -/
def after (answer : Option (ℕ → Word)) : TsnCall → Window
  | .init _ initialTsn => W.restart (initialTsn - 1)
  | .mark tsn =>
    if hlt : W.offset tsn < tsnMapSize then
      if W.len ≤ W.offset tsn ∧ answer = none then W
      else W.receive (answer.getD fun _ => 0) (W.offset tsn) hlt
    else W
  | .skip tsn => if W.offset tsn < tsnMapSize then W.skip (W.offset tsn) else W
  | .renege tsn => W.forget (W.offset tsn)
  | _ => W

/-- How often a call consults `malloc`. -/
def mallocs : TsnCall → ℕ
  | .mark tsn => if W.len ≤ W.offset tsn ∧ W.offset tsn < tsnMapSize then 1 else 0
  | _ => 0

/-- Marks stay in reach. -/
def MarksInReach : TsnCall → Prop
  | .mark tsn => InReach (W.offset tsn)
  | _ => True

theorem forget_of_len_le {d : ℕ} (hd : W.len ≤ d) : W.forget d = W := by
  refine Window.ext rfl rfl rfl (funext fun i => ?_)
  by_cases hi : i = d
  · subst hi
    simp [forget, W.bit_of_le hd]
  · simp [forget, hi]

/-- What a mark finds in a new buffer, where `malloc` hands out zeroed memory or none. -/
theorem getD_of_zero {answer : Option (ℕ → Word)} (hzero : ∀ c, answer = some c → c = fun _ => 0) :
    answer.getD (fun _ => 0) = fun _ => 0 := by
  cases hans : answer with
  | none => rfl
  | some c => exact hzero c hans

/-- **The invariant of runs with zeroed memory.** -/
theorem Clean.after {W : Window} (h : W.Clean) {answer : Option (ℕ → Word)}
    (hzero : ∀ c, answer = some c → c = fun _ => 0) (op : TsnCall) : (W.after answer op).Clean := by
  cases op with
  | init len t => exact clean_restart _
  | mark t =>
    simp only [Window.after]
    by_cases hlt : W.offset t < tsnMapSize
    · rw [dif_pos hlt]
      by_cases hnone : W.len ≤ W.offset t ∧ answer = none
      · -- no memory to grow into
        rw [if_pos hnone]
        exact h
      · rw [if_neg hnone, getD_of_zero hzero]
        exact h.receive hlt
    · rw [dif_neg hlt]
      exact h
  | skip t =>
    simp only [Window.after]
    by_cases hlt : W.offset t < tsnMapSize
    · rw [if_pos hlt]
      exact h.skip _
    · rw [if_neg hlt]
      exact h
  | renege t => exact h.forget _
  | free | check | pending | iterInit | nextGapAck | numGabs => exact h

end Window

/-! ### The code does it -/

section

variable {s : TsnState} {W : Window}

/-- `vlstp_tsnmap_check` allows a mark only in the window, of a number that was not received. -/
theorem Represents.check_eq_zero_iff {map : TsnMap} {h : Mem} (hr : Represents map h W) (t : Tsn) :
    vlstpTsnmapCheck map t h = .ok 0 ↔
      W.offset t < tsnMapSize ∧ W.bit (W.offset t) = false := by
  rw [hr.check, Except.ok.injEq]
  unfold Window.check tsnMapSize
  by_cases hold : 2 ^ 31 ≤ W.offset t + 1
  · -- old numbers answer 1
    rw [if_pos hold]
    simp only [one_ne_zero, false_iff]
    omega
  · rw [if_neg hold]
    by_cases hfar : 4096 ≤ W.offset t
    · -- numbers past the window answer -1
      rw [if_pos hfar]
      omega
    · rw [if_neg hfar]
      have hlt : W.offset t < 4096 := Nat.not_le.mp hfar
      cases W.bit (W.offset t) with
      | true => simp
      | false => simp [hlt]

/-- Checked marks are in reach. -/
theorem Represents.inReach (hr : Represents s.map s.heap W) {op : TsnCall} (h : MarksChecked s op) :
    W.MarksInReach op := by
  cases op with
  | mark t => exact Or.inl ((hr.check_eq_zero_iff t).mp h).1
  | _ => trivial

/-- An iterator anywhere is answered. -/
theorem Represents.nextGapAck_returns {map : TsnMap} {h : Mem} (hr : Represents map h W)
    (iter : TsnMapIter) : ∃ r, vlstpTsnmapNextGapAck map iter h = .ok r := by
  unfold vlstpTsnmapNextGapAck
  by_cases hdone : tsnLte map.maxTsnSeen iter.start = true
  · rw [if_pos hdone]
    exact ⟨_, rfl⟩
  · -- the only fallible step is the search, and it succeeds from every offset
    rw [if_neg hdone]
    obtain ⟨p, hp⟩ : ∃ p, vlstpTsnmapFindGapAck map.tsnMap ((iter.start - map.baseTsn).setWidth 16)
        map.len 0 0 h = .ok p := ⟨_, hr.findGapAck⟩
    simp only [hp, Except.ok_bind]
    by_cases hstop : (if p.1 ≠ 0 ∧ p.2 = 0 then map.len - 1 else p.2) ≠ 0
    · rw [if_pos hstop]
      exact ⟨_, rfl⟩
    · rw [if_neg hstop]
      exact ⟨_, rfl⟩

/-- The loop of `vlstp_tsnmap_num_gabs` leaves before it is out of turns. -/
theorem Represents.numGabsLoop_returns {map : TsnMap} {h : Mem} (hr : Represents map h W)
    {fuel : ℕ} {iter : TsnMapIter} {ngaps : ℕ} {gabs : ℕ → GapAckBlock}
    (hfuel : maxGabs ≤ fuel + ngaps) (hpos : 0 < fuel) :
    ∃ r, numGabsLoop map h fuel iter ngaps gabs = .ok r := by
  induction fuel generalizing iter ngaps gabs with
  | zero => omega
  | succ fuel ih =>
    obtain ⟨⟨block, iter'⟩, hnext⟩ := hr.nextGapAck_returns iter
    unfold numGabsLoop
    rw [hnext, Except.ok_bind]
    cases block with
    | none => exact ⟨_, rfl⟩
    | some block =>
      simp only
      -- every turn stores a block, and the array ends the loop before the fuel does
      by_cases hend : ngaps + 1 ≥ maxGabs
      · rw [if_pos hend]
        exact ⟨_, rfl⟩
      · rw [if_neg hend]
        exact ih (by omega) (by omega)

theorem Represents.numGabs_returns {map : TsnMap} {h : Mem} (hr : Represents map h W)
    (gabs : ℕ → GapAckBlock) : ∃ r, vlstpTsnmapNumGabs map gabs h = .ok r := by
  unfold vlstpTsnmapNumGabs
  by_cases hgap : vlstpTsnmapHasGap map = true
  · obtain ⟨r, hloop⟩ : ∃ r, numGabsLoop map h maxGabs (vlstpTsnmapIterInit map) 0 gabs = .ok r :=
      hr.numGabsLoop_returns (Nat.le_refl _) (by decide)
    rw [if_pos hgap, hloop, Except.ok_bind]
    exact ⟨_, rfl⟩
  · rw [if_neg hgap]
    exact ⟨_, rfl⟩

/-- **What one call does.** Every call but `vlstp_tsnmap_free` returns, as long as marks stay in
reach, and does to the window what `Window.after` says. -/
theorem Represents.step (hr : Represents s.map s.heap W) {op : TsnCall} (hfree : op ≠ .free)
    (hmark : W.MarksInReach op) :
    ∃ r s', tsnStep s op = .ok (r, s') ∧
      Represents s'.map s'.heap (W.after (s.heap.oracle s.heap.next) op) ∧
      s'.heap.oracle = s.heap.oracle ∧ s'.heap.next = s.heap.next + W.mallocs op := by
  cases op with
  | free => exact absurd rfl hfree
  | init len t =>
    obtain ⟨map', h', hinit, hr', hblocks⟩ := hr.init len t
    have hstep : tsnStep s (.init len t) = .ok (.map true, ⟨map', s.iter, h'⟩) := by
      simp only [tsnStepWith, hinit, Except.ok_bind, Except.pure_eq]
    exact ⟨_, _, hstep, hr', hblocks.2.2, hblocks.2.1⟩
  | mark t =>
    simp only [Window.after, Window.mallocs]
    by_cases hlt : W.offset t < tsnMapSize
    · rw [dif_pos hlt]
      by_cases hnone : W.len ≤ W.offset t ∧ s.heap.oracle s.heap.next = none
      · -- the map has to grow and there is no memory: only `malloc` was consulted
        have hmark := hr.mark_of_none hlt hnone.1 hnone.2
        rw [if_pos hnone, if_pos ⟨hnone.1, hlt⟩]
        refine ⟨.int (-enomem), ⟨s.map, s.iter, { s.heap with next := s.heap.next + 1 }⟩,
          by simp only [tsnStepWith, hmark, Except.ok_bind, Except.pure_eq], ?_, rfl, rfl⟩
        exact hr.frame (Nat.le_succ _) rfl rfl
      · -- the number is recorded, in a larger buffer if it has to be
        have hans : W.len ≤ W.offset t → s.heap.oracle s.heap.next =
            some ((s.heap.oracle s.heap.next).getD fun _ => 0) := by
          intro hd
          cases hans : s.heap.oracle s.heap.next with
          | none => exact absurd ⟨hd, hans⟩ hnone
          | some c => rfl
        obtain ⟨map', h', hmark, hr', horacle, hnext⟩ := hr.mark hlt hans
        rw [if_neg hnone]
        refine ⟨.int 0, ⟨map', s.iter, h'⟩,
          by simp only [tsnStepWith, hmark, Except.ok_bind, Except.pure_eq], hr', horacle, ?_⟩
        rw [hnext]
        exact congrArg _ (if_congr (by simp [hlt]) rfl rfl)
    · -- outside the window a mark in reach changes nothing
      rw [dif_neg hlt, if_neg fun h => hlt h.2]
      rcases hmark with hnear | hold | hfar
      · exact absurd hnear hlt
      · have hmark := hr.mark_old hold
        exact ⟨.int 0, s, by simp only [tsnStepWith, hmark, Except.ok_bind, Except.pure_eq], hr,
          rfl, rfl⟩
      · by_cases hold : 2 ^ 31 ≤ W.offset t
        · have hmark := hr.mark_old hold
          exact ⟨.int 0, s, by simp only [tsnStepWith, hmark, Except.ok_bind, Except.pure_eq], hr,
            rfl, rfl⟩
        · have hmark := hr.mark_of_far (Nat.not_le.mp hold) hfar.1 hfar.2
          exact ⟨.int (-enomem), s,
            by simp only [tsnStepWith, hmark, Except.ok_bind, Except.pure_eq], hr, rfl, rfl⟩
  | skip t =>
    simp only [Window.after]
    by_cases hlt : W.offset t < tsnMapSize
    · obtain ⟨map', h', hskip, hr', hblocks⟩ := hr.skip hlt
      rw [if_pos hlt]
      have hstep : tsnStep s (.skip t) = .ok (.void, ⟨map', s.iter, h'⟩) := by
        simp only [tsnStepWith, hskip, Except.ok_bind, Except.pure_eq]
      exact ⟨_, _, hstep, hr', hblocks.2.2, hblocks.2.1⟩
    · have hskip := hr.skip_of_far (Nat.not_lt.mp hlt)
      rw [if_neg hlt]
      exact ⟨.void, s, by simp only [tsnStepWith, hskip, Except.ok_bind, Except.pure_eq], hr, rfl,
        rfl⟩
  | renege t =>
    simp only [Window.after]
    by_cases hd : W.offset t < W.len
    · obtain ⟨h', hren, hr', hblocks⟩ := hr.renege hd
      have hstep : tsnStep s (.renege t) = .ok (.void, { s with heap := h' }) := by
        simp only [tsnStepWith, hren, Except.ok_bind, Except.pure_eq]
      exact ⟨_, _, hstep, hr', hblocks.2.2, hblocks.2.1⟩
    · -- there is no bit to clear
      have hren := hr.renege_of_far (Nat.not_lt.mp hd)
      rw [W.forget_of_len_le (Nat.not_lt.mp hd)]
      exact ⟨.void, s, by simp only [tsnStepWith, hren, Except.ok_bind, Except.pure_eq], hr, rfl,
        rfl⟩
  | check t =>
    exact ⟨.int (W.check (W.offset t)), s,
      by simp only [tsnStepWith, hr.check, Except.ok_bind, Except.pure_eq], hr, rfl, rfl⟩
  | pending =>
    exact ⟨.count (.ofNat 16 W.pending), s,
      by simp only [tsnStepWith, hr.pending, Except.ok_bind, Except.pure_eq], hr, rfl, rfl⟩
  | iterInit => exact ⟨_, _, rfl, hr, rfl, rfl⟩
  | nextGapAck =>
    obtain ⟨⟨b, iter⟩, hnext⟩ := hr.nextGapAck_returns s.iter
    exact ⟨.block b, { s with iter := iter },
      by simp only [tsnStepWith, hnext, Except.ok_bind, Except.pure_eq], hr, rfl, rfl⟩
  | numGabs gabs =>
    obtain ⟨⟨n, gabs'⟩, hnum⟩ := hr.numGabs_returns gabs
    exact ⟨.gabs n gabs', s, by simp only [tsnStepWith, hnum, Except.ok_bind, Except.pure_eq], hr,
      rfl, rfl⟩

/-- The first call of a program: `vlstp_tsnmap_init` of a struct without a buffer. -/
theorem step_init (hnull : s.map.tsnMap = none) {len : BitVec 16} (hpos : 0 < len.toNat)
    (hle : len.toNat ≤ tsnMapSize) (hdvd : 64 ∣ len.toNat) (t : Tsn) {c : ℕ → Word}
    (ho : s.heap.oracle s.heap.next = some c) :
    ∃ s₀, tsnStep s (.init len t) = .ok (.map true, s₀) ∧
      Represents s₀.map s₀.heap (Window.fresh (t - 1) len.toNat c hpos hle hdvd) ∧
      s₀.heap.oracle = s.heap.oracle ∧ s₀.heap.next = s.heap.next + 1 ∧ s₀.iter = s.iter := by
  obtain ⟨map₀, h₀, hinit, hr₀, hnext₀, horacle₀⟩ :=
    init_of_none (t := t) hnull hpos hle hdvd ho
  exact ⟨⟨map₀, s.iter, h₀⟩, by simp only [tsnStepWith, hinit, Except.ok_bind, Except.pure_eq], hr₀,
    horacle₀, hnext₀, rfl⟩

/-- What a call that returned has done. -/
theorem Represents.of_step (hr : Represents s.map s.heap W) {op : TsnCall} (hfree : op ≠ .free)
    (hmark : W.MarksInReach op) {r : TsnResult} {s' : TsnState} (hs : tsnStep s op = .ok (r, s')) :
    Represents s'.map s'.heap (W.after (s.heap.oracle s.heap.next) op) ∧
      s'.heap.oracle = s.heap.oracle ∧ s'.heap.next = s.heap.next + W.mallocs op := by
  obtain ⟨r', s'', hs', hr', horacle, hnext⟩ := hr.step hfree hmark
  rw [hs] at hs'
  obtain ⟨-, rfl⟩ := Prod.mk.inj (Except.ok.inj hs')
  exact ⟨hr', horacle, hnext⟩

/-- Every state of a run stands for a window, if no call of it frees the map and its marks are in
reach. -/
theorem Represents.of_reaches {guard : TsnState → TsnCall → Prop}
    (hguard : ∀ s W op, Represents s.map s.heap W → guard s op → op ≠ .free ∧ W.MarksInReach op)
    {s₀ : TsnState} {W₀ : Window} {ops : List TsnCall} (hr₀ : Represents s₀.map s₀.heap W₀)
    (hrun : Reaches guard tsnStep s₀ ops s) : ∃ W, Represents s.map s.heap W := by
  refine hrun.invariant_state (fun s => ∃ W, Represents s.map s.heap W) ⟨W₀, hr₀⟩ ?_
  rintro s op s' ⟨W, hr⟩ ⟨hop, r, hs⟩
  obtain ⟨hfree, hmark⟩ := hguard s W op hr hop
  exact ⟨_, (hr.of_step hfree hmark hs).1⟩

end

/-! ### The results of the queries -/

/-- Two maps, each with its memory, answer every query alike. -/
structure SameResults (map : TsnMap) (h : Mem) (map' : TsnMap) (h' : Mem) : Prop where
  check : ∀ t, vlstpTsnmapCheck map' t h' = vlstpTsnmapCheck map t h
  ctsn : vlstpTsnmapGetCtsn map' = vlstpTsnmapGetCtsn map
  maxTsnSeen : vlstpTsnmapGetMaxTsnSeen map' = vlstpTsnmapGetMaxTsnSeen map
  pending : vlstpTsnmapPending map' h' = vlstpTsnmapPending map h
  nextGapAck : ∀ iter, vlstpTsnmapNextGapAck map' iter h' = vlstpTsnmapNextGapAck map iter h

theorem SameResults.refl (map : TsnMap) (h : Mem) : SameResults map h map h :=
  ⟨fun _ => rfl, rfl, rfl, rfl, fun _ => rfl⟩

/-- The answers depend only on the window. -/
theorem Represents.sameResults {map map' : TsnMap} {h h' : Mem} {W : Window}
    (hr : Represents map h W) (hr' : Represents map' h' W) : SameResults map h map' h' where
  check t := by rw [hr.check, hr'.check]
  ctsn := hr'.numbers.cum.trans hr.numbers.cum.symm
  maxTsnSeen := hr'.numbers.max.trans hr.numbers.max.symm
  pending := by rw [hr.pending, hr'.pending]
  nextGapAck iter := by
    -- the numbers are those of the window, and the search reads the bits of the window
    have hbase : map'.baseTsn = map.baseTsn := hr'.numbers.base.trans hr.numbers.base.symm
    have hcum : map'.cumulativeTsnAckPoint = map.cumulativeTsnAckPoint :=
      hr'.numbers.cum.trans hr.numbers.cum.symm
    have hmax : map'.maxTsnSeen = map.maxTsnSeen := hr'.numbers.max.trans hr.numbers.max.symm
    have hlen : map'.len = map.len :=
      BitVec.eq_of_toNat_eq (hr'.numbers.len.trans hr.numbers.len.symm)
    have hfind (off : BitVec 16) : vlstpTsnmapFindGapAck map'.tsnMap off map.len 0 0 h' =
        vlstpTsnmapFindGapAck map.tsnMap off map.len 0 0 h := by
      rw [hr.findGapAck, ← hlen, hr'.findGapAck]
    simp only [vlstpTsnmapNextGapAck, hfind, hbase, hcum, hmax, hlen]

end Vlstp
