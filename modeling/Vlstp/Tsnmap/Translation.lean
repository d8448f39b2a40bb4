import Vlstp.Tsnmap.Calls

/-!
# The TSN map is invariant under translation

Nothing the TSN map does depends on where in the sequence space it is. Adding one number `k`, modulo
`2 ^ 32`, to every number in the struct, to the iterator and to every argument adds `k` to the
numbers the functions leave behind and changes nothing else: no result, no bit, no fault. So rolling
over past `0xffffffff` is never observed.

Every comparison in the code is one of differences (`tsnLt_add_right`, `add_sub_add_right`), so each
function commutes with the translation, and `exec_map` carries that over to whole runs. Nothing is
assumed about the map: it may be of any length, in any state, and out of memory.
-/

namespace Vlstp

variable (k : Tsn)

/-! ### Adding `k` to every number -/

/-- The struct with its sequence numbers moved on by `k`. -/
def TsnMap.translate (map : TsnMap) : TsnMap :=
  { map with
    baseTsn := map.baseTsn + k
    cumulativeTsnAckPoint := map.cumulativeTsnAckPoint + k
    maxTsnSeen := map.maxTsnSeen + k }

def TsnMapIter.translate (iter : TsnMapIter) : TsnMapIter := ⟨iter.start + k⟩

def TsnState.translate (s : TsnState) : TsnState :=
  ⟨s.map.translate k, s.iter.translate k, s.heap⟩

def TsnCall.translate : TsnCall → TsnCall
  | .init len initialTsn => .init len (initialTsn + k)
  | .free => .free
  | .mark tsn => .mark (tsn + k)
  | .skip tsn => .skip (tsn + k)
  | .renege tsn => .renege (tsn + k)
  | .check tsn => .check (tsn + k)
  | .pending => .pending
  | .iterInit => .iterInit
  | .nextGapAck => .nextGapAck
  | .numGabs gabs => .numGabs gabs

/-- A translated number plus something is the translation of the sum. -/
theorem add_right_comm_tsn (t d : Tsn) : t + k + d = t + d + k := by
  rw [BitVec.add_assoc, BitVec.add_comm k, ← BitVec.add_assoc]

theorem sub_one_add_right (t : Tsn) : t + k - 1 = t - 1 + k := by
  rw [BitVec.sub_eq_add_neg, BitVec.sub_eq_add_neg, add_right_comm_tsn]

/-! ### Each function commutes with it -/

section

variable (map : TsnMap) (h : Mem) (tsn : Tsn)

theorem hasGap_translate : vlstpTsnmapHasGap (map.translate k) = vlstpTsnmapHasGap map := by
  rw [vlstpTsnmapHasGap, vlstpTsnmapHasGap, Bool.eq_iff_iff, bne_iff_ne, bne_iff_ne]
  exact not_congr (BitVec.add_left_inj k)

theorem init_translate (len : BitVec 16) :
    vlstpTsnmapInit (map.translate k) len (tsn + k) h =
      (vlstpTsnmapInit map len tsn h).map fun r => (r.1, r.2.1.translate k, r.2.2) := by
  have hstart (m : TsnMap) : vlstpTsnmapInit.start (tsn + k) (m.translate k) =
      (vlstpTsnmapInit.start tsn m).translate k := by
    simp only [vlstpTsnmapInit.start, TsnMap.translate, sub_one_add_right]
  unfold vlstpTsnmapInit vlstpTsnmapInitWith
  -- the pointer, the length and the memory are the same on both sides
  by_cases hp : map.tsnMap = none
  · have hp' : (map.translate k).tsnMap = none := hp
    rw [if_pos hp, if_pos hp']
    obtain ⟨p, h'⟩ := malloc (len >>> 3).toNat h
    cases p with
    | none => rfl
    | some b =>
      have hnew := hstart { map with tsnMap := some b, len := len }
      exact congrArg (fun m => Except.ok (true, m, h')) hnew
  · have hp' : ¬ (map.translate k).tsnMap = none := hp
    rw [if_neg hp, if_neg hp', Except.map_bind]
    change (bitmapZero false map.tsnMap map.len.toNat h >>= _) = _
    congr 1
    funext h'
    exact congrArg (fun m => Except.ok (true, m, h')) (hstart map)

theorem free_translate :
    vlstpTsnmapFree (map.translate k) h =
      (vlstpTsnmapFree map h).map fun r => (r.1.translate k, r.2) := by
  simp only [vlstpTsnmapFree, TsnMap.translate, Except.map_bind]
  rfl

theorem check_translate :
    vlstpTsnmapCheck (map.translate k) (tsn + k) h = vlstpTsnmapCheck map tsn h := by
  simp only [vlstpTsnmapCheck, TsnMap.translate, tsnLte_add_right, add_right_comm_tsn k,
    tsnLt_add_right, add_sub_add_right]

theorem grow_translate (size : BitVec 16) :
    vlstpTsnmapGrow (map.translate k) size h =
      (vlstpTsnmapGrow map size h).map fun r => (r.1, r.2.1.translate k, r.2.2) := by
  simp only [vlstpTsnmapGrowWith, TsnMap.translate, add_sub_add_right, Except.map_ite,
    Except.map_bind, Except.pure_eq, Except.map_of_ok]

theorem update_translate :
    vlstpTsnmapUpdate (map.translate k) h =
      (vlstpTsnmapUpdate map h).map fun r => (r.1.translate k, r.2) := by
  simp only [vlstpTsnmapUpdate, TsnMap.translate, add_sub_add_right, add_right_comm_tsn k,
    Except.map_ite, Except.map_bind, Except.pure_eq, Except.map_of_ok]

theorem raiseMax_translate :
    (map.translate k).raiseMax (tsn + k) = (map.raiseMax tsn).translate k := by
  have hlt : tsnLt (map.translate k).maxTsnSeen (tsn + k) = tsnLt map.maxTsnSeen tsn :=
    tsnLt_add_right ..
  unfold TsnMap.raiseMax
  rw [hlt]
  by_cases hraise : tsnLt map.maxTsnSeen tsn ≠ 0
  · rw [if_pos hraise, if_pos hraise]
    rfl
  · rw [if_neg hraise, if_neg hraise]

theorem record_translate (gap : BitVec 16) :
    recordTsn (map.translate k) (tsn + k) gap h =
      (recordTsn map tsn gap h).map fun r => (r.1, r.2.1.translate k, r.2.2) := by
  unfold recordTsn
  rw [hasGap_translate, raiseMax_def, raiseMax_def, raiseMax_translate, Except.map_ite]
  set map₁ := map.raiseMax tsn
  have hptr : (map₁.translate k).tsnMap = map₁.tsnMap := rfl
  congr 1
  · simp only [TsnMap.translate, add_right_comm_tsn k, Except.map_of_ok]
  · simp only [hptr, Except.map_bind, update_translate, Except.bind_map, Except.pure_eq,
      Except.map_of_ok]

theorem mark_translate :
    vlstpTsnmapMark (map.translate k) (tsn + k) h =
      (vlstpTsnmapMark map tsn h).map fun r => (r.1, r.2.1.translate k, r.2.2) := by
  have hbase : (tsn + k) - (map.translate k).baseTsn = tsn - map.baseTsn :=
    add_sub_add_right ..
  have hlt : tsnLt (tsn + k) (map.translate k).baseTsn = tsnLt tsn map.baseTsn :=
    tsnLt_add_right ..
  by_cases hold : tsnLt tsn map.baseTsn = 0
  · -- the offset from the base is the same, so both marks grow the map or neither does
    by_cases hgap : ((tsn - map.baseTsn).setWidth 16).toNat < map.len.toNat
    · rw [mark_of_room hold hgap, mark_of_room (hlt.trans hold) (by rw [hbase]; exact hgap), hbase,
        record_translate]
    · rw [mark_of_grow hold (Nat.not_lt.mp hgap),
        mark_of_grow (hlt.trans hold) (by rw [hbase]; exact Nat.not_lt.mp hgap), hbase,
        grow_translate]
      cases vlstpTsnmapGrow map ((tsn - map.baseTsn).setWidth 16 + 1) h with
      | error e => rfl
      | ok r =>
        obtain ⟨grown, map', h'⟩ := r
        cases grown with
        | false => rfl
        | true => exact record_translate k map' h' tsn _
  · rw [mark_of_old hold, mark_of_old (by rw [hlt]; exact hold)]
    rfl

theorem skip_translate :
    vlstpTsnmapSkip (map.translate k) (tsn + k) h =
      (vlstpTsnmapSkip map tsn h).map fun r => (r.1.translate k, r.2) := by
  have hlt : tsnLt (tsn + k) (map.translate k).baseTsn = tsnLt tsn map.baseTsn :=
    tsnLt_add_right ..
  have hfar : tsnLt (tsn + k) ((map.translate k).baseTsn + BitVec.ofNat 32 tsnMapSize) =
      tsnLt tsn (map.baseTsn + BitVec.ofNat 32 tsnMapSize) := by
    change tsnLt (tsn + k) (map.baseTsn + k + _) = _
    rw [add_right_comm_tsn k, tsnLt_add_right]
  unfold vlstpTsnmapSkip
  rw [hlt, hfar, raiseMax_def, raiseMax_def, raiseMax_translate, Except.map_ite, Except.map_ite]
  set map₁ := map.raiseMax tsn
  have hgap : (tsn + k) - (map₁.translate k).baseTsn + 1 = tsn - map₁.baseTsn + 1 :=
    congrArg (· + 1) (add_sub_add_right ..)
  -- the base and the ack point move on by the same number of steps
  have hmove : ({ map₁.translate k with
      baseTsn := (map₁.translate k).baseTsn + (tsn - map₁.baseTsn + 1)
      cumulativeTsnAckPoint :=
        (map₁.translate k).cumulativeTsnAckPoint + (tsn - map₁.baseTsn + 1) } : TsnMap) =
      ({ map₁ with
        baseTsn := map₁.baseTsn + (tsn - map₁.baseTsn + 1)
        cumulativeTsnAckPoint :=
          map₁.cumulativeTsnAckPoint + (tsn - map₁.baseTsn + 1) } : TsnMap).translate k := by
    simp only [TsnMap.translate, add_right_comm_tsn k]
  simp only [] at hmove
  simp only [hgap, hmove, update_translate, Except.map_ite, Except.map_bind, Except.pure_eq,
    Except.map_of_ok]
  rfl

theorem renege_translate :
    vlstpTsnmapRenege (map.translate k) (tsn + k) h = vlstpTsnmapRenege map tsn h := by
  simp only [vlstpTsnmapRenege, TsnMap.translate, add_right_comm_tsn k, tsnLt_add_right,
    add_sub_add_right]

theorem pending_translate : vlstpTsnmapPending (map.translate k) h = vlstpTsnmapPending map h := by
  simp only [vlstpTsnmapPending, TsnMap.translate, add_sub_add_right]

theorem iterInit_translate :
    vlstpTsnmapIterInit (map.translate k) = (vlstpTsnmapIterInit map).translate k := by
  simp only [vlstpTsnmapIterInit, TsnMap.translate, TsnMapIter.translate, add_right_comm_tsn k]

theorem nextGapAck_translate (iter : TsnMapIter) :
    vlstpTsnmapNextGapAck (map.translate k) (iter.translate k) h =
      (vlstpTsnmapNextGapAck map iter h).map fun r => (r.1, r.2.translate k) := by
  simp only [vlstpTsnmapNextGapAck, TsnMap.translate, TsnMapIter.translate, tsnLte_add_right,
    add_sub_add_right, add_right_comm_tsn k, Except.map_ite, Except.map_bind, Except.pure_eq,
    Except.map_of_ok]

theorem numGabsLoop_translate (fuel : ℕ) (iter : TsnMapIter) (ngaps : ℕ) (gabs : ℕ → GapAckBlock) :
    numGabsLoop (map.translate k) h fuel (iter.translate k) ngaps gabs =
      numGabsLoop map h fuel iter ngaps gabs := by
  induction fuel generalizing iter ngaps gabs with
  | zero => rfl
  | succ fuel ih =>
    unfold numGabsLoop
    rw [nextGapAck_translate, Except.bind_map]
    congr 1
    funext r
    obtain ⟨block, iter'⟩ := r
    cases block with
    | none => rfl
    | some block => simp only [ih]

theorem numGabs_translate (gabs : ℕ → GapAckBlock) :
    vlstpTsnmapNumGabs (map.translate k) gabs h = vlstpTsnmapNumGabs map gabs h := by
  simp only [vlstpTsnmapNumGabs, hasGap_translate, iterInit_translate, numGabsLoop_translate]

end

/-! ### Runs -/

/-- One call from a translated state. -/
theorem tsnStep_translate (s : TsnState) (op : TsnCall) :
    tsnStep (s.translate k) (op.translate k) =
      (tsnStep s op).map fun p => (p.1, p.2.translate k) := by
  obtain ⟨map, iter, h⟩ := s
  -- each case is the lemma of the function called, with the struct put back into the state
  cases op with
  | init len t =>
    simp only [tsnStepWith, TsnState.translate, TsnCall.translate, init_translate, Except.bind_map,
      Except.map_bind, Except.pure_eq, Except.map_of_ok]
  | free =>
    simp only [tsnStepWith, TsnState.translate, TsnCall.translate, free_translate, Except.bind_map,
      Except.map_bind, Except.pure_eq, Except.map_of_ok]
  | mark t =>
    simp only [tsnStepWith, TsnState.translate, TsnCall.translate, mark_translate, Except.bind_map,
      Except.map_bind, Except.pure_eq, Except.map_of_ok]
  | skip t =>
    simp only [tsnStepWith, TsnState.translate, TsnCall.translate, skip_translate, Except.bind_map,
      Except.map_bind, Except.pure_eq, Except.map_of_ok]
  | renege t =>
    simp only [tsnStepWith, TsnState.translate, TsnCall.translate, renege_translate,
      Except.map_bind, Except.pure_eq, Except.map_of_ok]
  | check t =>
    simp only [tsnStepWith, TsnState.translate, TsnCall.translate, check_translate, Except.map_bind,
      Except.pure_eq, Except.map_of_ok]
  | pending =>
    simp only [tsnStepWith, TsnState.translate, TsnCall.translate, pending_translate,
      Except.map_bind, Except.pure_eq, Except.map_of_ok]
  | iterInit =>
    simp only [tsnStepWith, TsnState.translate, TsnCall.translate, iterInit_translate,
      Except.pure_eq, Except.map_of_ok]
  | nextGapAck =>
    simp only [tsnStepWith, TsnState.translate, TsnCall.translate, nextGapAck_translate,
      Except.bind_map, Except.map_bind, Except.pure_eq, Except.map_of_ok]
  | numGabs gabs =>
    simp only [tsnStepWith, TsnState.translate, TsnCall.translate, numGabs_translate,
      Except.map_bind, Except.pure_eq, Except.map_of_ok]

/-- `vlstp_tsnmap_init` that returns the map has overwritten every number of the struct, so what
they were before does not matter. -/
theorem init_of_translate {map : TsnMap} {h : Mem} {len : BitVec 16} {t : Tsn} {map' : TsnMap}
    {h' : Mem} (hinit : vlstpTsnmapInit (map.translate k) len t h = .ok (true, map', h')) :
    vlstpTsnmapInit map len t h = .ok (true, map', h') := by
  -- the two structs differ in the numbers alone, which `start` overwrites
  unfold vlstpTsnmapInit vlstpTsnmapInitWith at hinit ⊢
  by_cases hp : map.tsnMap = none
  · have hp' : (map.translate k).tsnMap = none := hp
    rw [if_pos hp'] at hinit
    rw [if_pos hp]
    generalize malloc (len >>> 3).toNat h = r at hinit ⊢
    obtain ⟨p, hm⟩ := r
    cases p with
    | none => simp at hinit
    | some b => exact hinit
  · have hp' : ¬ (map.translate k).tsnMap = none := hp
    rw [if_neg hp'] at hinit
    rw [if_neg hp]
    exact hinit

/-- Whether `vlstp_tsnmap_init` returns the map, and whether it faults, depends on the buffer
only. -/
theorem init_returned (map : TsnMap) (h : Mem) (len : BitVec 16) (t t' : Tsn) :
    (vlstpTsnmapInit map len t' h).map Prod.fst = (vlstpTsnmapInit map len t h).map Prod.fst := by
  unfold vlstpTsnmapInit vlstpTsnmapInitWith
  by_cases hp : map.tsnMap = none
  · rw [if_pos hp, if_pos hp]
    obtain ⟨p, hm⟩ := malloc (len >>> 3).toNat h
    cases p with
    | none => rfl
    | some b => rfl
  · rw [if_neg hp, if_neg hp, Except.map_bind, Except.map_bind]
    rfl

theorem step_init_returned (s : TsnState) (len : BitVec 16) (t : Tsn) :
    (tsnStep s (.init len t)).map Prod.fst =
      ((vlstpTsnmapInit s.map len t s.heap).map Prod.fst).map TsnResult.map := by
  simp only [vlstpTsnmapInit, tsnStepWith]
  cases vlstpTsnmapInitWith malloc s.map len t s.heap with
  | error e => rfl
  | ok r => rfl

/-- **Rolling over is never observed.** Two programs initialise the same map in the same memory, one
at `i` and the other, whose iterator is `k` further on, at `i + k`. Both get the same answer; and if
they get the map, then whatever calls follow, with `k` added to every number passed in the second
program, both get the same results up to the same fault, and are left with the same bit map, the
same memory, and numbers that differ by `k`. -/
theorem rollover_unobservable (k : Tsn) (map : TsnMap) (iter : TsnMapIter) (h : Mem)
    (len : BitVec 16) (i : Tsn) :
    (tsnStep ⟨map, iter.translate k, h⟩ (.init len (i + k))).map Prod.fst =
        (tsnStep ⟨map, iter, h⟩ (.init len i)).map Prod.fst ∧
      ∀ s, tsnStep ⟨map, iter, h⟩ (.init len i) = .ok (.map true, s) →
        tsnStep ⟨map, iter.translate k, h⟩ (.init len (i + k)) =
            .ok (.map true, s.translate k) ∧
          ∀ ops : List TsnCall, exec tsnStep (s.translate k) (ops.map (TsnCall.translate k)) =
            (exec tsnStep s ops).map fun p => (p.1, p.2.translate k) := by
  refine ⟨?_, fun s hs => ⟨?_, fun ops => ?_⟩⟩
  · rw [step_init_returned, step_init_returned, init_returned map h len i (i + k)]
  · obtain ⟨⟨returned, map', h'⟩, hinit, hret⟩ := Except.bind_eq_ok.mp hs
    obtain ⟨hreturned, rfl⟩ := Prod.mk.inj (Except.ok.inj hret)
    obtain rfl : returned = true := by simpa using hreturned
    have hinit' : vlstpTsnmapInit (map.translate k) len (i + k) h =
        .ok (true, map'.translate k, h') := by
      rw [init_translate, vlstpTsnmapInit, hinit, Except.map_of_ok]
    simp only [tsnStepWith, init_of_translate k hinit', Except.ok_bind, Except.pure_eq]
    rfl
  · exact exec_map (TsnCall.translate k) (TsnState.translate k) (tsnStep_translate k) s ops

/-- Two maps of 64 bits, one initialised at `0` and one at the last number before the wrap: marking
`2` in the first is marking `1` in the second. -/
theorem rollover_unobservable_64 :
    ∃ s, tsnStep (.zeroed zeroMemory) (.init 64 0) = .ok (.map true, s) ∧
      tsnStep ⟨(TsnState.zeroed zeroMemory).map, ⟨0xffffffff⟩, .empty zeroMemory⟩
          (.init 64 0xffffffff) =
        .ok (.map true, s.translate 0xffffffff) ∧
      exec tsnStep (s.translate 0xffffffff) [.mark 1, .pending, .check 1] =
        (exec tsnStep s [.mark 2, .pending, .check 2]).map
          fun p => (p.1, p.2.translate 0xffffffff) := by
  obtain ⟨-, hrun⟩ := rollover_unobservable 0xffffffff (TsnState.zeroed zeroMemory).map ⟨0⟩
    (.empty zeroMemory) 64 0
  obtain ⟨hinit, hops⟩ := hrun _ rfl
  exact ⟨_, rfl, hinit, hops [.mark 2, .pending, .check 2]⟩

end Vlstp
