import Vlstp.Tsnmap.Calls

/-!
# Reporting duplicates

A receiver notes the numbers that arrive again, and fetches what it has noted for each SACK:
`vlstp_tsnmap_mark_dup`, `vlstp_tsnmap_num_dups` and `vlstp_tsnmap_get_dups`, in any order and
between any other calls of the map. The array holds the first 16 numbers noted since it was last
fetched, in the byte order of the network, and no other call but `vlstp_tsnmap_init` touches it
(`SameDups`).

The count is reset when the array is fetched, so it has to be asked for before.
-/

namespace Vlstp

/-- A call of a map, or one about its duplicates. -/
inductive SackCall
  | tsnmap (op : TsnCall)
  | markDup (tsn : Tsn)
  | numDups
  | getDups

/-- What it returns. -/
inductive SackResult
  | tsnmap (r : TsnResult)
  | void
  | count (n : BitVec 16)
  | dups (array : ℕ → Tsn)

/-- A program with one map, and the duplicates it has noted since they were last fetched. -/
structure SackProgram where
  sys : TsnState
  noted : List Tsn

/-- What is noted after a call of the map: an initialisation that succeeds starts again. -/
def TsnResult.noted (noted : List Tsn) : TsnResult → List Tsn
  | .map true => []
  | _ => noted

/-- One call. -/
def sackStep (p : SackProgram) : SackCall → Except Fault (SackResult × SackProgram)
  | .tsnmap op => do
    let (r, sys) ← tsnStep p.sys op
    return (.tsnmap r, ⟨sys, r.noted p.noted⟩)
  | .markDup tsn =>
    .ok (.void, ⟨{ p.sys with map := vlstpTsnmapMarkDup p.sys.map tsn }, p.noted ++ [tsn]⟩)
  | .numDups => .ok (.count (vlstpTsnmapNumDups p.sys.map), p)
  | .getDups =>
    let (array, map) := vlstpTsnmapGetDups p.sys.map
    .ok (.dups array, ⟨{ p.sys with map := map }, []⟩)

/-! ### The other calls -/

/-- The duplicates are the same. -/
def SameDups (map map' : TsnMap) : Prop :=
  map'.numDupTsns = map.numDupTsns ∧ map'.dupTsns = map.dupTsns

section

variable {map map' map'' : TsnMap} {h : Mem} {t : Tsn}

theorem SameDups.refl (map : TsnMap) : SameDups map map := ⟨rfl, rfl⟩

theorem SameDups.trans (h₁ : SameDups map map') (h₂ : SameDups map' map'') : SameDups map map'' :=
  ⟨h₂.1.trans h₁.1, h₂.2.trans h₁.2⟩

/-- If the computation returns, the map `out` of what it returns has the same duplicates. -/
def KeepsDups {α : Type} (map : TsnMap) (x : Except Fault α) (out : α → TsnMap) : Prop :=
  x.Sat (fun a => SameDups map (out a)) fun _ => True

theorem KeepsDups.bind {α β : Type} {x : Except Fault α} {f : α → Except Fault β} {out : β → TsnMap}
    (hf : ∀ a, KeepsDups map (f a) out) : KeepsDups map (x >>= f) out := by
  have hx : x.Sat (fun _ => True) fun _ => True := by
    cases x <;> trivial
  exact hx.bind fun a _ => hf a

theorem keepsDups_grow (size : BitVec 16) (h : Mem) :
    KeepsDups map (vlstpTsnmapGrow map size h) fun r => r.2.1 := by
  unfold vlstpTsnmapGrow vlstpTsnmapGrowWith
  refine .ite (fun _ => .refl map) fun _ => ?_
  refine .ite (fun _ => .refl map) fun _ => ?_
  exact KeepsDups.bind fun h₁ => KeepsDups.bind fun h₂ => ⟨rfl, rfl⟩

theorem keepsDups_update (h : Mem) :
    KeepsDups map (vlstpTsnmapUpdate map h) fun r => r.1 := by
  unfold vlstpTsnmapUpdate
  refine KeepsDups.bind fun zeroBit => ?_
  exact .ite (fun _ => .refl map) fun _ => KeepsDups.bind fun h₁ => ⟨rfl, rfl⟩

/-- A computation on a map with the same duplicates. -/
theorem KeepsDups.trans {α : Type} {x : Except Fault α} {out : α → TsnMap}
    (hsame : SameDups map map') (hx : KeepsDups map' x out) : KeepsDups map x out :=
  hx.imp fun _ h => hsame.trans h

theorem KeepsDups.of_ok {α : Type} {x : Except Fault α} {out : α → TsnMap} {a : α}
    (hx : KeepsDups map x out) (ha : x = .ok a) : SameDups map (out a) := by
  rw [KeepsDups, ha] at hx
  exact hx

theorem keepsDups_record (t : Tsn) (gap : BitVec 16) (h : Mem) :
    KeepsDups map (recordTsn map t gap h) fun r => r.2.1 := by
  unfold recordTsn
  refine .ite (fun _ => ⟨rfl, rfl⟩) fun _ => KeepsDups.bind fun h₁ => ?_
  have hraise : SameDups map
      (if tsnLt map.maxTsnSeen t ≠ 0 then { map with maxTsnSeen := t } else map) := by
    split
    · exact ⟨rfl, rfl⟩
    · exact .refl map
  refine Except.Sat.bind (KeepsDups.trans hraise (keepsDups_update h₁)) ?_
  rintro ⟨map₂, h₂⟩ hsame
  exact hsame

theorem keepsDups_mark (t : Tsn) (h : Mem) :
    KeepsDups map (vlstpTsnmapMark map t h) fun r => r.2.1 := by
  by_cases hold : tsnLt t map.baseTsn = 0
  · by_cases hgap : ((t - map.baseTsn).setWidth 16).toNat < map.len.toNat
    · rw [mark_of_room hold hgap]
      exact keepsDups_record ..
    · -- the map grows first
      rw [mark_of_grow hold (Nat.not_lt.mp hgap)]
      refine Except.Sat.bind (keepsDups_grow _ h) ?_
      rintro ⟨grown, map₁, h₁⟩ hsame
      exact .ite (fun _ => hsame) fun _ => KeepsDups.trans hsame (keepsDups_record ..)
  · rw [mark_of_old hold]
    exact .refl map

theorem keepsDups_skip (t : Tsn) (h : Mem) :
    KeepsDups map (vlstpTsnmapSkip map t h) fun r => r.1 := by
  unfold vlstpTsnmapSkip
  refine .ite (fun _ => .refl map) fun _ => ?_
  refine .ite (fun _ => .refl map) fun _ => ?_
  have hraise (base cum : Tsn) : SameDups map
      { (if tsnLt map.maxTsnSeen t ≠ 0 then { map with maxTsnSeen := t } else map) with
        baseTsn := base, cumulativeTsnAckPoint := cum } := by
    split
    · exact ⟨rfl, rfl⟩
    · exact ⟨rfl, rfl⟩
  refine .ite (fun _ => KeepsDups.bind fun h₁ => hraise _ _) fun _ => KeepsDups.bind fun h₁ => ?_
  exact KeepsDups.trans (hraise _ _) (keepsDups_update h₁)

/-- **Every other call leaves the duplicates alone**, but for an initialisation that succeeds. -/
theorem sameDups_step {s s' : TsnState} {op : TsnCall} {r : TsnResult}
    (hs : tsnStep s op = .ok (r, s')) (hinit : ∀ len t, op ≠ .init len t) :
    SameDups s.map s'.map ∧ r ≠ .map true := by
  cases op with
  | init len t => exact absurd rfl (hinit len t)
  | mark t =>
    obtain ⟨⟨r', map', h'⟩, hmark, hret⟩ := Except.bind_eq_ok.mp hs
    obtain ⟨rfl, rfl⟩ := Prod.mk.inj (Except.ok.inj hret)
    exact ⟨(keepsDups_mark t s.heap).of_ok hmark, TsnResult.noConfusion⟩
  | skip t =>
    obtain ⟨⟨map', h'⟩, hskip, hret⟩ := Except.bind_eq_ok.mp hs
    obtain ⟨rfl, rfl⟩ := Prod.mk.inj (Except.ok.inj hret)
    exact ⟨(keepsDups_skip t s.heap).of_ok hskip, TsnResult.noConfusion⟩
  | free =>
    obtain ⟨⟨map', h'⟩, hfree, hret⟩ := Except.bind_eq_ok.mp hs
    obtain ⟨rfl, rfl⟩ := Prod.mk.inj (Except.ok.inj hret)
    unfold vlstpTsnmapFree at hfree
    obtain ⟨h'', -, hpair⟩ := Except.bind_eq_ok.mp hfree
    obtain ⟨rfl, rfl⟩ := Prod.mk.inj (Except.ok.inj hpair)
    exact ⟨⟨rfl, rfl⟩, TsnResult.noConfusion⟩
  | renege t =>
    obtain ⟨h', -, hret⟩ := Except.bind_eq_ok.mp hs
    obtain ⟨rfl, rfl⟩ := Prod.mk.inj (Except.ok.inj hret)
    exact ⟨⟨rfl, rfl⟩, TsnResult.noConfusion⟩
  | check t =>
    obtain ⟨c, -, hret⟩ := Except.bind_eq_ok.mp hs
    obtain ⟨rfl, rfl⟩ := Prod.mk.inj (Except.ok.inj hret)
    exact ⟨.refl _, TsnResult.noConfusion⟩
  | pending =>
    obtain ⟨n, -, hret⟩ := Except.bind_eq_ok.mp hs
    obtain ⟨rfl, rfl⟩ := Prod.mk.inj (Except.ok.inj hret)
    exact ⟨.refl _, TsnResult.noConfusion⟩
  | iterInit =>
    obtain ⟨rfl, rfl⟩ := Prod.mk.inj (Except.ok.inj hs)
    exact ⟨.refl _, TsnResult.noConfusion⟩
  | nextGapAck =>
    obtain ⟨⟨b, iter⟩, -, hret⟩ := Except.bind_eq_ok.mp hs
    obtain ⟨rfl, rfl⟩ := Prod.mk.inj (Except.ok.inj hret)
    exact ⟨⟨rfl, rfl⟩, TsnResult.noConfusion⟩
  | numGabs gabs =>
    obtain ⟨⟨n, gabs'⟩, -, hret⟩ := Except.bind_eq_ok.mp hs
    obtain ⟨rfl, rfl⟩ := Prod.mk.inj (Except.ok.inj hret)
    exact ⟨.refl _, TsnResult.noConfusion⟩

/-! ### The array -/

/-- The array holds the first 16 numbers noted, in the byte order of the network. -/
structure Holds16 (map : TsnMap) (noted : List Tsn) : Prop where
  count : map.numDupTsns = BitVec.ofNat 16 (min maxDupTsns noted.length)
  array : ∀ (i : ℕ) t, i < maxDupTsns → noted[i]? = some t → map.dupTsns i = htonl t

theorem Holds16.congr {noted : List Tsn} (hm : Holds16 map noted) (hsame : SameDups map map') :
    Holds16 map' noted where
  count := hsame.1.trans hm.count
  array i t hi ht := by
    rw [hsame.2]
    exact hm.array i t hi ht

theorem holds16_nil (hzero : map.numDupTsns = 0) : Holds16 map [] :=
  ⟨hzero, fun i t _ ht => absurd ht (by simp)⟩

theorem Holds16.count_toNat {noted : List Tsn} (hm : Holds16 map noted) :
    map.numDupTsns.toNat = min maxDupTsns noted.length := by
  have hle : min maxDupTsns noted.length ≤ 16 := min_le_left ..
  rw [hm.count, BitVec.toNat_ofNat]
  exact Nat.mod_eq_of_lt (by omega)

/-- Noting one more number. -/
theorem Holds16.markDup {noted : List Tsn} (hm : Holds16 map noted) (t : Tsn) :
    Holds16 (vlstpTsnmapMarkDup map t) (noted ++ [t]) := by
  have hcount := hm.count_toNat
  unfold vlstpTsnmapMarkDup
  by_cases hroom : noted.length < maxDupTsns
  · -- it is stored behind the others
    rw [min_eq_right hroom.le] at hcount
    rw [if_pos (by rwa [hcount])]
    refine ⟨?_, fun i u hi hu => ?_⟩
    · rw [List.length_append, List.length_singleton, min_eq_right hroom]
      change map.numDupTsns + 1 = _
      rw [hm.count, min_eq_right hroom.le, BitVec.ofNat_add]
      rfl
    · change Function.update map.dupTsns map.numDupTsns.toNat (htonl t) i = htonl u
      rw [hcount]
      rcases Nat.lt_trichotomy i noted.length with hlt | rfl | hgt
      · rw [Function.update_of_ne hlt.ne]
        rw [List.getElem?_append_left hlt] at hu
        exact hm.array i u hi hu
      · rw [List.getElem?_concat_length] at hu
        rw [Function.update_self, Option.some.inj hu]
      · rw [List.getElem?_eq_none (by simpa using Nat.succ_le_of_lt hgt)] at hu
        exact absurd hu (by simp)
  · -- there is no room for it, and none for what follows
    have hfull := Nat.not_lt.mp hroom
    rw [min_eq_left hfull] at hcount
    rw [if_neg (by rw [hcount]; exact Nat.lt_irrefl _)]
    refine ⟨?_, fun i u hi hu => ?_⟩
    · rw [hm.count, min_eq_left hfull, min_eq_left]
      rw [List.length_append]
      exact hfull.trans (Nat.le_add_right ..)
    · rw [List.getElem?_append_left (hi.trans_le hfull)] at hu
      exact hm.array i u hi hu

/-- An initialisation that succeeds resets the count, and one that fails leaves it alone. -/
theorem dups_init {s s' : TsnState} {len : BitVec 16} {r : TsnResult}
    (hs : tsnStep s (.init len t) = .ok (r, s')) :
    r = .map true ∧ s'.map.numDupTsns = 0 ∨ r = .map false ∧ SameDups s.map s'.map := by
  obtain ⟨⟨returned, map', h'⟩, hinit, hret⟩ := Except.bind_eq_ok.mp hs
  obtain ⟨rfl, rfl⟩ := Prod.mk.inj (Except.ok.inj hret)
  unfold vlstpTsnmapInitWith at hinit
  by_cases hnull : s.map.tsnMap = none
  · rw [if_pos hnull] at hinit
    by_cases hfail : (malloc (len >>> 3).toNat s.heap).1 = none
    · simp only [hfail, if_true, Except.pure_eq] at hinit
      obtain ⟨rfl, hpair⟩ := Prod.mk.inj (Except.ok.inj hinit)
      obtain ⟨rfl, rfl⟩ := Prod.mk.inj hpair
      exact Or.inr ⟨rfl, rfl, rfl⟩
    · simp only [hfail, if_false, Except.pure_eq] at hinit
      obtain ⟨rfl, hpair⟩ := Prod.mk.inj (Except.ok.inj hinit)
      obtain ⟨rfl, rfl⟩ := Prod.mk.inj hpair
      exact Or.inl ⟨rfl, rfl⟩
  · rw [if_neg hnull] at hinit
    obtain ⟨h₁, -, hret⟩ := Except.bind_eq_ok.mp hinit
    obtain ⟨rfl, hpair⟩ := Prod.mk.inj (Except.ok.inj hret)
    obtain ⟨rfl, rfl⟩ := Prod.mk.inj hpair
    exact Or.inl ⟨rfl, rfl⟩

/-- **One call.** -/
theorem Holds16.step {p p' : SackProgram} {op : SackCall} {r : SackResult}
    (hm : Holds16 p.sys.map p.noted) (hs : sackStep p op = .ok (r, p')) :
    Holds16 p'.sys.map p'.noted := by
  cases op with
  | tsnmap op =>
    obtain ⟨⟨result, sys⟩, hstep, hret⟩ := Except.bind_eq_ok.mp hs
    obtain ⟨rfl, rfl⟩ := Prod.mk.inj (Except.ok.inj hret)
    by_cases hinit : ∃ len t, op = .init len t
    · obtain ⟨len, t, rfl⟩ := hinit
      rcases dups_init hstep with ⟨rfl, hzero⟩ | ⟨rfl, hsame⟩
      · exact holds16_nil hzero
      · exact hm.congr hsame
    · obtain ⟨hsame, hne⟩ := sameDups_step hstep fun len t heq => hinit ⟨len, t, heq⟩
      have hnoted : result.noted p.noted = p.noted := by
        unfold TsnResult.noted
        split
        · exact absurd rfl hne
        · rfl
      change Holds16 sys.map (result.noted p.noted)
      rw [hnoted]
      exact hm.congr hsame
  | markDup t =>
    obtain ⟨rfl, rfl⟩ := Prod.mk.inj (Except.ok.inj hs)
    exact hm.markDup t
  | numDups =>
    obtain ⟨rfl, rfl⟩ := Prod.mk.inj (Except.ok.inj hs)
    exact hm
  | getDups =>
    obtain ⟨rfl, rfl⟩ := Prod.mk.inj (Except.ok.inj hs)
    exact holds16_nil rfl

end

/-- **Duplicates over whole runs.** Whatever calls come in between, and whatever `malloc` answers,
`vlstp_tsnmap_num_dups` is the number of duplicates noted since the array was last fetched, up to
16, and `vlstp_tsnmap_get_dups` returns an array that begins with them. -/
theorem duplicates_reported (s₀ : TsnState) {len : BitVec 16} {initialTsn : Tsn} {s : TsnState}
    (hinit : tsnStep s₀ (.init len initialTsn) = .ok (.map true, s)) {ops : List SackCall}
    {p : SackProgram} (hrun : Reaches (fun _ _ => True) sackStep ⟨s, []⟩ ops p) :
    vlstpTsnmapNumDups p.sys.map = BitVec.ofNat 16 (min 16 p.noted.length) ∧
      ∀ (i : ℕ) t, i < 16 → p.noted[i]? = some t →
        (vlstpTsnmapGetDups p.sys.map).1 i = htonl t := by
  -- whatever the struct held before
  have hempty : Holds16 s.map [] := by
    rcases dups_init hinit with ⟨-, hzero⟩ | ⟨hfail, -⟩
    · exact holds16_nil hzero
    · exact absurd (TsnResult.map.inj hfail) (by decide)
  have hm : Holds16 p.sys.map p.noted := by
    refine hrun.invariant_state (fun p => Holds16 p.sys.map p.noted) hempty ?_
    rintro p op p' hm ⟨-, r, hs⟩
    exact hm.step hs
  exact ⟨hm.count, hm.array⟩

/-- Two numbers are noted. -/
theorem duplicates_reported_two :
    ∃ s p, tsnStep (.zeroed zeroMemory) (.init 64 0xfffffff0) = .ok (.map true, s) ∧
      Reaches (fun _ _ => True) sackStep ⟨s, []⟩
        [.markDup 0xffffffee, .numDups, .markDup 0xffffffef] p ∧
      vlstpTsnmapNumDups p.sys.map = 2 ∧
        (vlstpTsnmapGetDups p.sys.map).1 1 = htonl 0xffffffef := by
  obtain ⟨s, hinit, -⟩ :=
    step_init (s := .zeroed zeroMemory) rfl (show 0 < (64 : BitVec 16).toNat by decide)
      (by decide) (by decide) 0xfffffff0 (c := fun _ => 0) rfl
  have h₁ : Reaches (fun _ _ => True) sackStep ⟨s, []⟩ [.markDup 0xffffffee] _ :=
    Run.nil.snoc ⟨trivial, .void, rfl⟩
  have h₂ := h₁.snoc (show Returns (fun _ _ => True) sackStep _ .numDups _ from
    ⟨trivial, _, rfl⟩)
  have h₃ := h₂.snoc (show Returns (fun _ _ => True) sackStep _ (.markDup 0xffffffef) _ from
    ⟨trivial, .void, rfl⟩)
  obtain ⟨hcount, harray⟩ := duplicates_reported _ hinit h₃
  exact ⟨s, _, hinit, h₃, hcount, harray 1 _ (by decide) rfl⟩

end Vlstp
