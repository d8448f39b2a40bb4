import Vlstp.Tsnmap.Calls

/-!
# The words the TSN map touches

A map of `len` bits asks `malloc` for `len >> 3` bytes, but every bit operation reads and writes
whole words of 64 bits. For a length that is a multiple of 64 the two agree, and growing keeps it
one, so no call ever leaves the buffer. For any other length the last bits lie in a word that is not
wholly inside: the very first check of one of them leaves the buffer (`check_outside`).
-/

namespace Vlstp

/-- The calls of a receiver: marks of numbers that have not been seen, skips, reneges and
queries. -/
def CallsChecked (s : TsnState) (op : TsnCall) : Prop :=
  (op.IsUpdate ∨ op.IsQuery) ∧ MarksChecked s op

theorem CallsChecked.ne_free {s : TsnState} {op : TsnCall} (h : CallsChecked s op) :
    op ≠ .free := by
  rintro rfl
  exact h.1.elim id id

/-- A map whose buffer has a length in whole words stays inside it, and stays such a map. -/
theorem Represents.reaches_checked {s₀ s : TsnState} {W₀ : Window} {ops : List TsnCall}
    (hr₀ : Represents s₀.map s₀.heap W₀) (hrun : Reaches CallsChecked tsnStep s₀ ops s) :
    ∃ W, Represents s.map s.heap W := by
  refine Represents.of_reaches (fun s W op hr hop => ?_) hr₀ hrun
  exact ⟨hop.ne_free, hr.inReach hop.2⟩

/-- The check of the first number in the last, incomplete word of the map. -/
theorem check_outside {map : TsnMap} {h : Mem} {len : BitVec 16} {t : Tsn} {c : ℕ → Word}
    (hnull : map.tsnMap = none) (hle : len.toNat ≤ tsnMapSize) (hdvd : ¬ 64 ∣ len.toNat)
    (ho : h.oracle h.next = some c) :
    ∃ map' h', vlstpTsnmapInit map len t h = .ok (true, map', h') ∧
      vlstpTsnmapCheck map' (t + BitVec.ofNat 32 (len.toNat / 64 * 64)) h' =
        .error (.outOfBounds h.next (len.toNat / 64)) := by
  obtain ⟨h₁, hmalloc, -, -, hlive, -, -⟩ := Heap.malloc_of_some ho 8 (len >>> 3).toNat
  refine ⟨_, h₁, init_of_malloc hnull len hmalloc, ?_⟩
  set d := len.toNat / 64 * 64 with hd
  unfold tsnMapSize at hle
  have hlt : d < len.toNat := by omega
  -- the number is new, in the window, and within the length of the map
  have hoff : (t + BitVec.ofNat 32 d - t).toNat = d := offset_base_add t (by omega)
  have hnew : ¬ tsnLte (t + BitVec.ofNat 32 d) (t - 1) = true := by
    rw [tsnLte_sub_one_iff _ t (sub_one_add_one t).symm, hoff]
    omega
  have hnear : ¬ tsnLt (t + BitVec.ofNat 32 d) (t + BitVec.ofNat 32 tsnMapSize) = 0 := by
    rw [tsnLt_add_eq_zero_iff _ t (by decide), hoff]
    unfold tsnMapSize
    omega
  -- but its word is not wholly inside the block
  have hcell : h₁.cell h.next (len.toNat / 64) = none := by
    have hcell := Heap.malloc_cell ho 8 (len >>> 3).toNat (len.toNat / 64)
    rw [hmalloc, toNat_ushiftRight_three] at hcell
    rw [hcell, if_neg (by omega)]
  have hstatus : h₁.status h.next ≠ .freed := by
    rw [hlive]
    exact Status.noConfusion
  have hword : bitWord d = len.toNat / 64 := by
    unfold bitWord
    omega
  simp only [vlstpTsnmapCheck, vlstpTsnmapInit.start, if_neg hnew, if_neg hnear, hoff, if_pos hlt,
    testBit, hword, Heap.read, hcell, Heap.accessFault, if_neg hstatus, Except.error_bind]

/-- **The calls stay inside the buffer exactly for lengths in whole words.** For every length a map
may be given, every run of the receiver's calls touches only words inside the buffer if and only if
the length is a multiple of 64. -/
theorem in_bounds_iff (map : TsnMap) (iter : TsnMapIter) (h : Mem) (len : BitVec 16)
    (initialTsn : Tsn) (hnull : map.tsnMap = none) (hpos : 0 < len.toNat)
    (hle : len.toNat ≤ tsnMapSize) (hmem : Available h.oracle) :
    ∃ s₀, tsnStep ⟨map, iter, h⟩ (.init len initialTsn) = .ok (.map true, s₀) ∧
      ((∀ ops s op, Reaches CallsChecked tsnStep s₀ ops s → CallsChecked s op →
        ∃ r, tsnStep s op = .ok r) ↔ 64 ∣ len.toNat) := by
  obtain ⟨c, ho⟩ := Option.ne_none_iff_exists'.mp (hmem h.next)
  by_cases hdvd : 64 ∣ len.toNat
  · -- the map represents a window after every run, and then no call goes wrong
    obtain ⟨s₀, hinit, hr₀, -⟩ :=
      step_init (s := ⟨map, iter, h⟩) hnull hpos hle hdvd initialTsn ho
    refine ⟨s₀, hinit, iff_of_true ?_ hdvd⟩
    intro ops s op hrun hop
    obtain ⟨W, hr⟩ := hr₀.reaches_checked hrun
    obtain ⟨r, s', hs, -⟩ := hr.step hop.ne_free (hr.inReach hop.2)
    exact ⟨(r, s'), hs⟩
  · -- the empty run and one check
    obtain ⟨map', h', hinit, hout⟩ := check_outside (t := initialTsn) hnull hle hdvd ho
    refine ⟨⟨map', iter, h'⟩, by simp only [tsnStepWith, hinit, Except.ok_bind, Except.pure_eq],
      iff_of_false ?_ hdvd⟩
    intro hsafe
    obtain ⟨r, hr⟩ := hsafe [] _ (.check (initialTsn + BitVec.ofNat 32 (len.toNat / 64 * 64)))
      .nil ⟨Or.inr trivial, trivial⟩
    simp only [tsnStepWith, hout, Except.error_bind, reduceCtorEq] at hr

/-- A map of the smallest length in whole words, from a zeroed struct. -/
theorem in_bounds_iff_64 :
    ∃ s₀, tsnStep (.zeroed dirtyMemory) (.init 64 0xfffffff0) = .ok (.map true, s₀) ∧
      ((∀ ops s op, Reaches CallsChecked tsnStep s₀ ops s → CallsChecked s op →
        ∃ r, tsnStep s op = .ok r) ↔ 64 ∣ 64) :=
  in_bounds_iff _ _ _ 64 0xfffffff0 rfl (by decide) (by decide) available_dirtyMemory

/-- **One bit short**: a map of 63 bits has a buffer of 7 bytes, and checking the first number reads
a word that is not inside it. -/
theorem check_outside_63 :
    ∃ s₀, tsnStep (.zeroed zeroMemory) (.init 63 0) = .ok (.map true, s₀) ∧
      tsnStep s₀ (.check 0) = .error (.outOfBounds 0 0) :=
  ⟨_, rfl, rfl⟩

end Vlstp
