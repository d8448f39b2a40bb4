import Vlstp.Tsnmap.ReceiveSet

/-!
# Marking agrees with checking, in reach

`vlstp_tsnmap_check` bounds the distance of a number from the base in 32 bits, `vlstp_tsnmap_mark`
computes the same distance in 16 and relies on `vlstp_tsnmap_grow` to refuse what is too far out.
`MarkAgrees` says what a caller may expect of the two together: a number that was seen is marked
without effect, a new one is recorded or refused for want of memory, an invalid one is refused, and
a refusal changes nothing.

The two agree exactly on the numbers in reach (`markAgrees_iff`): at a distance of 65536 the mark
lands on the next number expected instead. In a run whose marks stay in reach they agree in every
state, and the ack point passes only numbers that were marked or skipped (`mark_agrees_in_reach`).
-/

namespace Vlstp

/-! ### What a caller expects -/

/-- `vlstp_tsnmap_check` says that the number has been seen. -/
def Seen (map : TsnMap) (h : Mem) (t : Tsn) : Prop :=
  ∃ r, vlstpTsnmapCheck map t h = .ok r ∧ 0 < r

/-- The blocks and what they hold are the same. -/
def SameMemory (h h' : Mem) : Prop := h'.status = h.status ∧ h'.cell = h.cell

/-- Memory in which the next `malloc` answers `out`. -/
def answering (h : Mem) (out : Option (ℕ → Word)) : Mem :=
  { h with oracle := Function.update h.oracle h.next out }

/-- **Marking `t` agrees with checking it.** -/
structure MarkAgrees (map : TsnMap) (h : Mem) (t : Tsn) : Prop where
  /-- The check returns. -/
  checked : ∃ r, vlstpTsnmapCheck map t h = .ok r
  /-- A number that was seen is marked without effect. -/
  seen : Seen map h t →
    ∃ map' h', vlstpTsnmapMark map t h = .ok (0, map', h') ∧ SameResults map h map' h'
  /-- A new number is recorded, and it alone becomes seen; or there is no memory and nothing
  changes. -/
  new : vlstpTsnmapCheck map t h = .ok 0 →
    (∃ map' h', vlstpTsnmapMark map t h = .ok (0, map', h') ∧ Seen map' h' t ∧
      ∀ u, u ≠ t → Seen map' h' u → Seen map h u) ∨
    ∃ h', vlstpTsnmapMark map t h = .ok (-enomem, map, h') ∧ SameMemory h h'
  /-- An invalid number is refused and nothing changes. -/
  invalid : (∃ r, vlstpTsnmapCheck map t h = .ok r ∧ r < 0) →
    ∃ e h', e < 0 ∧ vlstpTsnmapMark map t h = .ok (e, map, h') ∧ SameMemory h h'

section

variable {map map' : TsnMap} {h h' : Mem} {t : Tsn}

/-! What has to be shown for each answer of the check. -/

theorem MarkAgrees.of_seen (hcheck : vlstpTsnmapCheck map t h = .ok 1)
    (hmark : vlstpTsnmapMark map t h = .ok (0, map', h')) (hsame : SameResults map h map' h') :
    MarkAgrees map h t where
  checked := ⟨1, hcheck⟩
  seen _ := ⟨map', h', hmark, hsame⟩
  new hz := absurd (Except.ok.inj (hcheck.symm.trans hz)) (by decide)
  invalid := by
    rintro ⟨r, hz, hneg⟩
    obtain rfl := Except.ok.inj (hcheck.symm.trans hz)
    exact absurd hneg (by decide)

theorem MarkAgrees.of_new (hcheck : vlstpTsnmapCheck map t h = .ok 0)
    (hnew : (∃ map' h', vlstpTsnmapMark map t h = .ok (0, map', h') ∧ Seen map' h' t ∧
        ∀ u, u ≠ t → Seen map' h' u → Seen map h u) ∨
      ∃ h', vlstpTsnmapMark map t h = .ok (-enomem, map, h') ∧ SameMemory h h') :
    MarkAgrees map h t where
  checked := ⟨0, hcheck⟩
  seen := by
    rintro ⟨r, hz, hpos⟩
    obtain rfl := Except.ok.inj (hcheck.symm.trans hz)
    exact absurd hpos (by decide)
  new _ := hnew
  invalid := by
    rintro ⟨r, hz, hneg⟩
    obtain rfl := Except.ok.inj (hcheck.symm.trans hz)
    exact absurd hneg (by decide)

theorem MarkAgrees.of_invalid (hcheck : vlstpTsnmapCheck map t h = .ok (-1)) {e : ℤ} (he : e < 0)
    (hmark : vlstpTsnmapMark map t h = .ok (e, map, h')) (hsame : SameMemory h h') :
    MarkAgrees map h t where
  checked := ⟨-1, hcheck⟩
  seen := by
    rintro ⟨r, hz, hpos⟩
    obtain rfl := Except.ok.inj (hcheck.symm.trans hz)
    exact absurd hpos (by decide)
  new hz := absurd (Except.ok.inj (hcheck.symm.trans hz)) (by decide)
  invalid _ := ⟨e, h', he, hmark, hsame⟩

end

/-! ### Checking and marking in the window -/

namespace Window

variable {W : Window}

theorem check_pos_iff {d : ℕ} : 0 < W.check d ↔ 2 ^ 31 ≤ d + 1 ∨ W.bit d = true := by
  unfold check
  by_cases hold : 2 ^ 31 ≤ d + 1
  · rw [if_pos hold]
    exact iff_of_true (by decide) (Or.inl hold)
  · rw [if_neg hold]
    by_cases hfar : tsnMapSize ≤ d
    · have hbit : W.bit d = false := W.bit_of_le (W.len_le.trans hfar)
      rw [if_pos hfar, hbit]
      exact iff_of_false (by decide) (by simpa using hold)
    · rw [if_neg hfar]
      cases W.bit d with
      | true => exact iff_of_true (by decide) (Or.inr rfl)
      | false => exact iff_of_false (by decide) (by simpa using hold)

/-- What is seen after `n` numbers have been acknowledged: those numbers, what was recorded beyond
them, and the old numbers less the `n` oldest. -/
theorem check_shift_pos_iff {n : ℕ} (hn : n ≤ tsnMapSize) (t : Tsn) :
    0 < (W.shift n).check ((W.shift n).offset t) ↔
      W.offset t < n ∨ W.bit (W.offset t) = true ∧ n ≤ W.offset t ∨
        2 ^ 31 + n ≤ W.offset t + 1 := by
  rw [check_pos_iff, W.bit_offset_shift hn]
  have hold : 2 ^ 31 ≤ (W.shift n).offset t + 1 ↔
      W.offset t < n ∨ 2 ^ 31 + n ≤ W.offset t + 1 := by
    unfold tsnMapSize at hn
    simp only [offset, shift_cum, BitVec.toNat_sub, BitVec.toNat_add, BitVec.toNat_ofNat,
      toNat_one_u32]
    omega
  rw [hold]
  tauto

/-- A clean window in which a number is marked: the window with room for it and its bit set, shifted
by what that lets it acknowledge. -/
theorem Clean.receive_eq (h : W.Clean) {t : Tsn} (hlt : W.offset t < tsnMapSize) :
    ∃ n ≤ tsnMapSize, ∃ V : Window, V.cum = W.cum ∧
      (∀ i, V.bit i = (decide (i = W.offset t) || W.bit i)) ∧
      (∀ i, i < n → V.bit i = true) ∧ W.receive (fun _ => 0) (W.offset t) hlt = V.shift n := by
  have hroom := W.lt_len_room (fun _ => 0) hlt
  set V := (W.room (fun _ => 0) (W.offset t) hlt).put (W.offset t) hroom with hV
  have hbit : ∀ i, (W.room (fun _ => 0) (W.offset t) hlt).bit i = W.bit i := by
    intro i
    unfold Window.room
    by_cases hd : W.len ≤ W.offset t
    · rw [dif_pos hd, h.grow_bit]
    · rw [dif_neg hd]
  have hrec : V.received ≤ tsnMapSize := V.received_le.trans (V.span_le.trans V.len_le)
  refine ⟨V.received, hrec, V, W.room_cum _ hlt, ?_, ?_, ?_⟩
  · intro i
    rw [← hbit i]
    rfl
  · exact fun i hi => V.bit_of_lt_received hi
  · rw [Window.receive, (h.room hlt).accept_eq, Window.update]

/-- A number is seen once it has been marked. -/
theorem Clean.check_receive_self (h : W.Clean) {t : Tsn} (hlt : W.offset t < tsnMapSize) :
    0 < (W.receive (fun _ => 0) (W.offset t) hlt).check
      ((W.receive (fun _ => 0) (W.offset t) hlt).offset t) := by
  obtain ⟨n, hn, V, hcum, hbit, -, heq⟩ := h.receive_eq hlt
  have hoff : V.offset t = W.offset t := by unfold Window.offset; rw [hcum]
  rw [heq, check_shift_pos_iff hn, hoff, hbit]
  by_cases hlt : W.offset t < n
  · exact Or.inl hlt
  · exact Or.inr (Or.inl ⟨by simp, Nat.not_lt.mp hlt⟩)

/-- Marking makes no other number seen. -/
theorem Clean.check_of_receive (h : W.Clean) {t u : Tsn} (hlt : W.offset t < tsnMapSize)
    (hne : u ≠ t) (hpos : 0 < (W.receive (fun _ => 0) (W.offset t) hlt).check
      ((W.receive (fun _ => 0) (W.offset t) hlt).offset u)) : 0 < W.check (W.offset u) := by
  obtain ⟨n, hn, V, hcum, hbit, hrecv, heq⟩ := h.receive_eq hlt
  have hoff : V.offset u = W.offset u := by unfold Window.offset; rw [hcum]
  have hbit' : V.bit (W.offset u) = W.bit (W.offset u) := by
    have hd : W.offset u ≠ W.offset t := fun h => hne (W.offset_inj.mp h)
    rw [hbit, decide_eq_false hd, Bool.false_or]
  rw [heq, check_shift_pos_iff hn, hoff, hbit'] at hpos
  rw [check_pos_iff]
  rcases hpos with hlt' | hrec | hold
  · exact Or.inr (hbit' ▸ hrecv _ hlt')
  · exact Or.inr hrec.1
  · exact Or.inl (by omega)

/-- Marking a number that is recorded already changes nothing. -/
theorem Clean.receive_of_bit (h : W.Clean) {d : ℕ} (hlt : d < tsnMapSize) (hbit : W.bit d = true) :
    W.receive (fun _ => 0) d hlt = W := by
  have hd : d < W.len := W.lt_of_bit d hbit
  have hroom : W.room (fun _ => 0) d hlt = W := dif_neg (Nat.not_le.mpr hd)
  have hput : W.put d hd = W := by
    have hspan := h.below d hbit
    refine Window.ext rfl ?_ rfl (funext fun i => ?_)
    · exact Nat.max_eq_left hspan
    · change (decide (i = d) || W.bit i) = W.bit i
      by_cases hi : i = d
      · rw [hi, hbit, Bool.or_true]
      · rw [decide_eq_false hi, Bool.false_or]
  have haccept : W.accept d hd = W := by
    rw [h.accept_eq hd, hput, Window.update, W.received_eq_zero h.zero, W.shift_zero]
  unfold Window.receive
  simp only [hroom]
  exact haccept

end Window

/-! ### In reach, and only there -/

section

variable {map map' : TsnMap} {h h' : Mem} {W W' : Window} {t u : Tsn}

theorem Represents.seen_iff (hr : Represents map h W) :
    Seen map h t ↔ 0 < W.check (W.offset t) := by
  unfold Seen
  simp only [hr.check, Except.ok.injEq, exists_eq_left']

theorem Represents.of_answering (hr : Represents map h W) (out : Option (ℕ → Word)) :
    Represents map (answering h out) W :=
  hr.frame (Nat.le_refl _) rfl rfl

/-- Where the map has recorded a number, it returns 0. -/
theorem recordTsn_result {gap : BitVec 16} {r : ℤ} (h : recordTsn map t gap h = .ok (r, map', h')) :
    r = 0 := by
  unfold recordTsn at h
  by_cases hbump : (!vlstpTsnmapHasGap map && gap == 0) = true
  · rw [if_pos hbump] at h
    exact (Prod.mk.inj (Except.ok.inj h)).1.symm
  · rw [if_neg hbump, Except.bind_eq_ok] at h
    obtain ⟨h₁, -, h⟩ := h
    rw [Except.bind_eq_ok] at h
    obtain ⟨⟨map₂, h₂⟩, -, h⟩ := h
    exact (Prod.mk.inj (Except.ok.inj h)).1.symm

/-- With memory, `vlstp_tsnmap_grow` refuses only sizes beyond the largest map. -/
theorem grow_result {size : BitVec 16} {grown : Bool} {c : ℕ → Word}
    (hsize : size.toNat ≤ tsnMapSize) (ho : h.oracle h.next = some c)
    (hgrow : vlstpTsnmapGrow map size h = .ok (grown, map', h')) : grown = true := by
  obtain ⟨h₁, hmalloc, -⟩ := Heap.malloc_of_some ho 8 (grownLen map.len size >>> 3).toNat
  simp only [vlstpTsnmapGrowWith, if_neg (Nat.not_lt.mpr hsize), malloc, hmalloc, reduceCtorEq,
    if_false, Except.bind_eq_ok, Except.pure_eq, Except.ok.injEq, Prod.mk.injEq] at hgrow
  obtain ⟨-, -, -, -, rfl, -⟩ := hgrow
  rfl

/-- With memory, a number less than half the space ahead is refused only if its distance, cut to 16
bits, is beyond the window. -/
theorem mark_result {r : ℤ} {c : ℕ → Word} (hnew : tsnLt t map.baseTsn = 0)
    (hsize : ((t - map.baseTsn).setWidth 16 + 1).toNat ≤ tsnMapSize) (ho : h.oracle h.next = some c)
    (hmark : vlstpTsnmapMark map t h = .ok (r, map', h')) : r = 0 := by
  by_cases hgap : ((t - map.baseTsn).setWidth 16).toNat < map.len.toNat
  · rw [mark_of_room hnew hgap] at hmark
    exact recordTsn_result hmark
  · rw [mark_of_grow hnew (Nat.not_lt.mp hgap)] at hmark
    obtain ⟨⟨grown, map₁, h₁⟩, hgrow, hrec⟩ := Except.bind_eq_ok.mp hmark
    obtain rfl := grow_result hsize ho hgrow
    exact recordTsn_result hrec

/-- A number in reach is marked as a caller expects, whether or not there is memory. -/
theorem Represents.markAgrees (hr : Represents map h W) (hc : W.Clean)
    (hd : InReach (W.offset t)) {out : Option (ℕ → Word)}
    (ho : out = none ∨ out = some fun _ => 0) : MarkAgrees map (answering h out) t := by
  have hr' := hr.of_answering out
  have hout : (answering h out).oracle (answering h out).next = out :=
    Function.update_self ..
  set g := answering h out with hg
  by_cases hold : 2 ^ 31 ≤ W.offset t
  · -- an old number: neither the check nor the mark looks at the map
    have hmark := hr'.mark_old hold
    have hcheck : vlstpTsnmapCheck map t g = .ok 1 := by
      rw [hr'.check, Window.check, if_pos (by omega)]
    exact .of_seen hcheck hmark (.refl _ _)
  by_cases hlt : W.offset t < tsnMapSize
  · have hlt' : W.offset t < 4096 := hlt
    have hcheck : vlstpTsnmapCheck map t g = .ok (if W.bit (W.offset t) then 1 else 0) := by
      rw [hr'.check, Window.check, if_neg (by omega), if_neg (Nat.not_le.mpr hlt)]
    cases hbit : W.bit (W.offset t) with
    | true =>
      -- recorded: the bit is set again and nothing can be acknowledged
      rw [hbit, if_pos rfl] at hcheck
      have hlen := W.lt_of_bit _ hbit
      obtain ⟨map', h', hmark, hr'', -⟩ :=
        hr'.mark (c := fun _ => 0) hlt fun hd => absurd hd (Nat.not_le.mpr hlen)
      rw [hc.receive_of_bit hlt hbit] at hr''
      exact .of_seen hcheck hmark (hr'.sameResults hr'')
    | false =>
      rw [hbit] at hcheck
      refine .of_new hcheck ?_
      by_cases hnone : W.len ≤ W.offset t ∧ out = none
      · -- the map has to grow, and there is no memory
        exact Or.inr ⟨_, hr'.mark_of_none hlt hnone.1 (hout.trans hnone.2), rfl, rfl⟩
      · have hmem : W.len ≤ W.offset t → g.oracle g.next = some fun _ => 0 := by
          intro hd
          rw [hout]
          exact ho.resolve_left fun h => hnone ⟨hd, h⟩
        obtain ⟨map', h', hmark, hr'', -⟩ := hr'.mark hlt hmem
        refine Or.inl ⟨map', h', hmark, ?_, fun u hne hseen => ?_⟩
        · exact hr''.seen_iff.mpr (hc.check_receive_self hlt)
        · exact hr'.seen_iff.mpr (hc.check_of_receive hlt hne (hr''.seen_iff.mp hseen))
  · -- too far out for the 16 bits as well
    obtain ⟨hfar, hlast⟩ := (hd.resolve_left hlt).resolve_left hold
    have hmark := hr'.mark_of_far (Nat.not_le.mp hold) hfar hlast
    have hcheck : vlstpTsnmapCheck map t g = .ok (-1) := by
      rw [hr'.check, Window.check, if_neg (by omega), if_pos (Nat.not_lt.mp hlt)]
    exact .of_invalid hcheck (by decide) hmark ⟨rfl, rfl⟩

/-- A number out of reach is not: with memory it is not refused though it is invalid, or without
memory it is refused though it is old. -/
theorem Represents.not_markAgrees (hr : Represents map h W) (hd : ¬ InReach (W.offset t)) :
    ∃ out : Option (ℕ → Word), (out = none ∨ out = some fun _ => 0) ∧
      ¬ MarkAgrees map (answering h out) t := by
  have hn := hr.numbers
  unfold InReach tsnMapSize at hd
  push Not at hd
  obtain ⟨hfar, hhalf, hcut⟩ := hd
  have hnew := hn.tsnLt_base_eq_zero_iff.mpr hhalf
  have hgap := hn.gap_toNat t
  have hsize : ((t - map.baseTsn).setWidth 16 + 1).toNat ≤ tsnMapSize := by
    rw [hn.size_toNat]
    unfold tsnMapSize
    omega
  by_cases hedge : 2 ^ 31 ≤ W.offset t + 1
  · -- the number just before the half of the space counts as old, and asks for a map of size 0
    refine ⟨none, Or.inl rfl, fun hagree => ?_⟩
    have hr' := hr.of_answering none
    have hseen : Seen map (answering h none) t := by
      rw [hr'.seen_iff, Window.check_pos_iff]
      exact Or.inl hedge
    obtain ⟨map', h', hmark, -⟩ := hagree.seen hseen
    have hlen : W.len ≤ 4096 := W.len_le
    rw [mark_of_grow hnew (by rw [hgap, hn.len]; omega),
      Represents.grow_of_none hsize (Function.update_self ..)] at hmark
    exact absurd (Prod.mk.inj (Except.ok.inj hmark)).1 (by decide)
  · -- any other is too large, and the map grows for what is left of its distance
    refine ⟨some fun _ => 0, Or.inr rfl, fun hagree => ?_⟩
    have hr' := hr.of_answering (some fun _ => 0)
    have hcheck : vlstpTsnmapCheck map t (answering h (some fun _ => 0)) = .ok (-1) := by
      rw [hr'.check, Window.check, if_neg hedge]
      exact congrArg _ (if_pos hfar)
    obtain ⟨e, h', hneg, hmark, -⟩ := hagree.invalid ⟨-1, hcheck, by decide⟩
    obtain rfl := mark_result hnew hsize (Function.update_self ..) hmark
    exact absurd hneg (by decide)

/-- **Marking agrees with checking exactly in reach.** -/
theorem Represents.markAgrees_iff (hr : Represents map h W) (hc : W.Clean) :
    (∀ out : Option (ℕ → Word), (out = none ∨ out = some fun _ => 0) →
      MarkAgrees map (answering h out) t) ↔ InReach (W.offset t) := by
  refine ⟨fun hagree => ?_, fun hd out ho => hr.markAgrees hc hd ho⟩
  by_contra hd
  obtain ⟨out, ho, hnot⟩ := hr.not_markAgrees hd
  exact hnot (hagree out ho)

end

/-! ### Runs whose marks stay in reach -/

/-- Marks, skips and reneges, where every number marked is in reach. -/
def UpdatesInReach (s : TsnState) (op : TsnCall) : Prop :=
  op.IsUpdate ∧ ∀ t, op = .mark t → InReach (t - s.map.baseTsn).toNat

/-- `t` is recorded beyond the ack point. -/
def Recorded (s : TsnState) (t : Tsn) : Prop :=
  (t - s.map.baseTsn).toNat < tsnMapSize ∧ vlstpTsnmapCheck s.map t s.heap = .ok 1

/-- One of the calls `ops` made from `s₀` was the mark of `t`, and `t` has been recorded ever
since. -/
def MarkedSince (s₀ : TsnState) (ops : List TsnCall) (t : Tsn) : Prop :=
  ∃ pre post, ops = pre ++ .mark t :: post ∧
    ∀ mid s, mid <+: post →
      Reaches UpdatesInReach tsnStep s₀ (pre ++ .mark t :: mid) s → Recorded s t

section

variable {s s' s₀ : TsnState} {W : Window} {t u : Tsn} {op : TsnCall} {r : TsnResult}
variable {ops : List TsnCall} {answer : Option (ℕ → Word)}

theorem Represents.recorded_iff (hr : Represents s.map s.heap W) :
    Recorded s t ↔ W.bit (W.offset t) = true := by
  unfold Recorded
  rw [hr.numbers.offset_eq, hr.check, Except.ok.injEq]
  unfold tsnMapSize
  constructor
  · rintro ⟨hlt, hcheck⟩
    have hpos : 0 < W.check (W.offset t) := by rw [hcheck]; decide
    exact (Window.check_pos_iff.mp hpos).resolve_left (by omega)
  · intro hbit
    have hlt := W.offset_lt_of_bit hbit
    refine ⟨hlt, ?_⟩
    unfold Window.check tsnMapSize
    rw [if_neg (by omega), if_neg (by omega), hbit, if_pos rfl]

theorem Represents.marksInReach (hr : Represents s.map s.heap W) (hop : UpdatesInReach s op) :
    op ≠ .free ∧ W.MarksInReach op := by
  obtain ⟨hup, hmark⟩ := hop
  cases op with
  | mark t =>
    refine ⟨TsnCall.noConfusion, ?_⟩
    have := hmark t rfl
    rwa [hr.numbers.offset_eq] at this
  | skip t => exact ⟨TsnCall.noConfusion, trivial⟩
  | renege t => exact ⟨TsnCall.noConfusion, trivial⟩
  | free | init | check | pending | iterInit | nextGapAck | numGabs => exact hup.elim

/-- What is recorded after a call was recorded before, or was marked by it. -/
theorem Window.Clean.bit_after (h : W.Clean) (hzero : ∀ c, answer = some c → c = fun _ => 0)
    (hbit : (W.after answer op).bit ((W.after answer op).offset t) = true) :
    W.bit (W.offset t) = true ∨ op = .mark t := by
  cases op with
  | mark u =>
    simp only [Window.after] at hbit
    by_cases hlt : W.offset u < tsnMapSize
    · rw [dif_pos hlt] at hbit
      by_cases hnone : W.len ≤ W.offset u ∧ answer = none
      · rw [if_pos hnone] at hbit
        exact Or.inl hbit
      · obtain ⟨n, hn, V, hcum, hV, -, heq⟩ := h.receive_eq hlt
        have hoff : V.offset t = W.offset t := by unfold Window.offset; rw [hcum]
        rw [if_neg hnone, Window.getD_of_zero hzero, heq, V.bit_offset_shift hn, hoff, hV,
          Bool.or_eq_true, decide_eq_true_iff, W.offset_inj] at hbit
        rcases hbit.1 with rfl | hbit
        · exact Or.inr rfl
        · exact Or.inl hbit
    · rw [dif_neg hlt] at hbit
      exact Or.inl hbit
  | skip u =>
    simp only [Window.after] at hbit
    by_cases hlt : W.offset u < tsnMapSize
    · rw [if_pos hlt, Window.skip, Window.update, Window.bit_offset_shift, W.bit_offset_shift hlt]
        at hbit
      · exact Or.inl hbit.1.1
      · exact (Window.received_le _).trans ((Window.span_le _).trans (Window.len_le _))
    · rw [if_neg hlt] at hbit
      exact Or.inl hbit
  | renege u => exact Or.inl (Bool.and_eq_true_iff.mp hbit).2
  | init len u => exact absurd hbit (by simp [Window.after, Window.restart])
  | free | check | pending | iterInit | nextGapAck | numGabs => exact Or.inl hbit

/-- The numbers a mark acknowledges were recorded before, or marked by it. -/
theorem Window.Clean.mark_passes (h : W.Clean) (hzero : ∀ c, answer = some c → c = fun _ => 0)
    (hpass : t ∈ tsnIoc W.cum ((W.after answer (.mark u)).cum - W.cum).toNat) :
    W.bit (W.offset t) = true ∨ t = u := by
  simp only [Window.after] at hpass
  have hstay : t ∉ tsnIoc W.cum (W.cum - W.cum).toNat := by
    rintro ⟨k, hk, hle, -⟩
    simp at hle
    omega
  by_cases hlt : W.offset u < tsnMapSize
  · rw [dif_pos hlt] at hpass
    by_cases hnone : W.len ≤ W.offset u ∧ answer = none
    · rw [if_pos hnone] at hpass
      exact absurd hpass hstay
    · obtain ⟨n, hn, V, hcum, hV, hrecv, heq⟩ := h.receive_eq hlt
      unfold tsnMapSize at hn
      -- the numbers passed are those whose bits were shifted out
      have hadv : ((V.shift n).cum - W.cum).toNat = n := by
        rw [Window.shift_cum, hcum]
        exact offset_base_add W.cum (by omega)
      rw [if_neg hnone, Window.getD_of_zero hzero, heq, hadv, W.mem_tsnIoc_iff (by omega)] at hpass
      have hset := hrecv _ hpass
      rw [hV, Bool.or_eq_true, decide_eq_true_iff, W.offset_inj] at hset
      exact hset.symm
  · rw [dif_neg hlt] at hpass
    exact absurd hpass hstay

/-- A record that survives one more call has been there ever since the mark. -/
theorem MarkedSince.snoc (h : MarkedSince s₀ ops t)
    (hnow : ∀ s', Reaches UpdatesInReach tsnStep s₀ (ops ++ [op]) s' → Recorded s' t) :
    MarkedSince s₀ (ops ++ [op]) t := by
  obtain ⟨pre, post, rfl, hrec⟩ := h
  refine ⟨pre, post ++ [op], by simp, fun mid s hmid hs => ?_⟩
  rcases List.prefix_concat_iff.mp hmid with rfl | hmid
  · exact hnow s (by simpa using hs)
  · exact hrec mid s hmid hs

end

/-- **Along a run whose marks stay in reach**, from a map `vlstp_tsnmap_init` has set up in zeroed
memory and whether or not later calls find memory: marking agrees with checking exactly on the
numbers in reach, and a mark makes the ack point pass only numbers that have been marked and
recorded since. -/
theorem mark_agrees_in_reach (map : TsnMap) (iter : TsnMapIter) (h : Mem) (len : BitVec 16)
    (initialTsn : Tsn) (hnull : map.tsnMap = none) (hpos : 0 < len.toNat)
    (hle : len.toNat ≤ tsnMapSize) (hdvd : 64 ∣ len.toNat) (hzero : ZeroFilled h.oracle)
    (hmem : h.oracle h.next ≠ none) :
    ∃ s₀, tsnStep ⟨map, iter, h⟩ (.init len initialTsn) = .ok (.map true, s₀) ∧
      ∀ ops s, Reaches UpdatesInReach tsnStep s₀ ops s →
        (∀ t, (∀ out : Option (ℕ → Word), (out = none ∨ out = some fun _ => 0) →
          MarkAgrees s.map (answering s.heap out) t) ↔ InReach (t - s.map.baseTsn).toNat) ∧
        ∀ t s', Returns UpdatesInReach tsnStep s (.mark t) s' →
          ∀ u ∈ tsnIoc s.map.cumulativeTsnAckPoint
              (s'.map.cumulativeTsnAckPoint - s.map.cumulativeTsnAckPoint).toNat,
            u = t ∨ MarkedSince s₀ ops u := by
  obtain ⟨c, ho⟩ := Option.ne_none_iff_exists'.mp hmem
  obtain rfl := hzero _ _ ho
  obtain ⟨s₀, hinit, hr₀, horacle₀, -⟩ :=
    step_init (s := ⟨map, iter, h⟩) hnull hpos hle hdvd initialTsn ho
  refine ⟨s₀, hinit, fun ops s hrun => ?_⟩
  have hans (s : TsnState) (horacle : s.heap.oracle = h.oracle) :
      ∀ c, s.heap.oracle s.heap.next = some c → c = fun _ => 0 := by
    intro c hc
    exact hzero _ c (horacle ▸ hc)
  -- every record goes back to a mark
  have hinv : ∃ W, Represents s.map s.heap W ∧ W.Clean ∧ s.heap.oracle = h.oracle ∧
      ∀ u, W.bit (W.offset u) = true → MarkedSince s₀ ops u := by
    refine hrun.invariant_run (fun ops s => ∃ W, Represents s.map s.heap W ∧ W.Clean ∧
      s.heap.oracle = h.oracle ∧ ∀ u, W.bit (W.offset u) = true → MarkedSince s₀ ops u) ?_ ?_
    · refine ⟨_, hr₀, Window.clean_fresh hpos hle hdvd, horacle₀, fun u hu => ?_⟩
      simp [Window.fresh, bitAt] at hu
    · rintro ops s op s' hrun ⟨W, hr, hc, horacle, hsince⟩ ⟨hop, r, hs⟩
      obtain ⟨hfree, hreach⟩ := hr.marksInReach hop
      obtain ⟨hr', horacle', -⟩ := hr.of_step hfree hreach hs
      refine ⟨_, hr', hc.after (hans s horacle) op, horacle'.trans horacle, fun u hu => ?_⟩
      have hnow : ∀ s'', Reaches UpdatesInReach tsnStep s₀ (ops ++ [op]) s'' → Recorded s'' u := by
        intro s'' hs''
        obtain rfl := Reaches.unique hs'' (hrun.snoc ⟨hop, r, hs⟩)
        exact hr'.recorded_iff.mpr hu
      rcases hc.bit_after (hans s horacle) hu with hbit | rfl
      · exact (hsince u hbit).snoc hnow
      · refine ⟨ops, [], rfl, fun mid s'' hmid hs'' => ?_⟩
        obtain rfl := List.prefix_nil.mp hmid
        exact hnow s'' hs''
  obtain ⟨W, hr, hc, horacle, hsince⟩ := hinv
  refine ⟨fun t => ?_, fun t s' hmark u hu => ?_⟩
  · rw [hr.numbers.offset_eq]
    exact hr.markAgrees_iff hc
  · obtain ⟨hop, r, hs⟩ := hmark
    obtain ⟨hfree, hreach⟩ := hr.marksInReach hop
    obtain ⟨hr', -⟩ := hr.of_step hfree hreach hs
    rw [hr.numbers.cum, hr'.numbers.cum] at hu
    rcases hc.mark_passes (hans s horacle) hu with hbit | rfl
    · exact Or.inr (hsince u hbit)
    · exact Or.inl rfl

/-- Agreement along runs, from a zeroed struct and close to the end of the sequence space. -/
theorem mark_agrees_in_reach_rollover :
    ∃ s₀, tsnStep (.zeroed zeroMemory) (.init 64 0xfffffff0) = .ok (.map true, s₀) ∧
      ∀ ops s, Reaches UpdatesInReach tsnStep s₀ ops s →
        (∀ t, (∀ out : Option (ℕ → Word), (out = none ∨ out = some fun _ => 0) →
          MarkAgrees s.map (answering s.heap out) t) ↔ InReach (t - s.map.baseTsn).toNat) ∧
        ∀ t s', Returns UpdatesInReach tsnStep s (.mark t) s' →
          ∀ u ∈ tsnIoc s.map.cumulativeTsnAckPoint
              (s'.map.cumulativeTsnAckPoint - s.map.cumulativeTsnAckPoint).toNat,
            u = t ∨ MarkedSince s₀ ops u :=
  mark_agrees_in_reach _ _ _ 64 0xfffffff0 rfl (by decide) (by decide) (by decide)
    zeroFilled_zeroMemory (Option.some_ne_none _)

/-- **Out of reach they disagree**: 65536 is too large for a map that expects 0 next, but the mark
accepts it, and acknowledges 0, which was never marked. -/
theorem mark_65536_accepted :
    ∃ s₀ s₁, tsnStep (.zeroed zeroMemory) (.init 64 0) = .ok (.map true, s₀) ∧
      s₀.map.cumulativeTsnAckPoint = 0xffffffff ∧
      vlstpTsnmapCheck s₀.map 65536 s₀.heap = .ok (-1) ∧
      tsnStep s₀ (.mark 65536) = .ok (.int 0, s₁) ∧ s₁.map.cumulativeTsnAckPoint = 0 ∧
      ¬ MarkAgrees s₀.map s₀.heap 65536 := by
  refine ⟨_, _, rfl, rfl, rfl, rfl, rfl, fun hagree => ?_⟩
  obtain ⟨e, h', hneg, hmark, -⟩ := hagree.invalid ⟨-1, rfl, by decide⟩
  have hret : (.ok 0 : Except Fault ℤ) = .ok e := congrArg (Except.map Prod.fst) hmark
  obtain rfl := Except.ok.inj hret
  exact absurd hneg (by decide)

end Vlstp
