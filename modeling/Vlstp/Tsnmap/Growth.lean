import Vlstp.Tsnmap.Calls

/-!
# Making room

`vlstp_tsnmap_mark` grows the map when the offset of a number, in the 16 bits of `gap`, lies beyond
its end, and goes on to set that bit. It asks `vlstp_tsnmap_grow` for `gap + 1` bits, which are 16
bits as well: for the largest gap they are 0. No map is too small for that, so the request is not
refused; the new buffer is shorter than the old one, and what is copied may not even fit.

For every other gap a map that was grown has room for it, and has kept its bits
(`grow_makes_room_iff`).
-/

namespace Vlstp

/-- Calls about numbers in the window. -/
def CallsInWindow (s : TsnState) : TsnCall → Prop
  | .mark tsn | .skip tsn | .renege tsn => (tsn - s.map.baseTsn).toNat < tsnMapSize
  | .free => False
  | _ => True

/-- `gap` in `vlstp_tsnmap_mark`. -/
def TsnMap.gap (map : TsnMap) (tsn : Tsn) : BitVec 16 := (tsn - map.baseTsn).setWidth 16

/-- `vlstp_tsnmap_mark` calls `vlstp_tsnmap_grow`. -/
def MarkGrows (map : TsnMap) (tsn : Tsn) : Prop :=
  tsnLt tsn map.baseTsn = 0 ∧ map.len.toNat ≤ (map.gap tsn).toNat

instance (map : TsnMap) (tsn : Tsn) : Decidable (MarkGrows map tsn) :=
  inferInstanceAs (Decidable (_ ∧ _))

/-- The number of bits `vlstp_tsnmap_grow` copies. -/
def TsnMap.seen (map : TsnMap) : ℕ := (map.maxTsnSeen - map.cumulativeTsnAckPoint).toNat

/-- `map'` with its buffer in `h'` is `map` with room for bit `gap`: it is longer than that, as long
as `map` at least and not too long, the words copied lie in both buffers, and no bit up to the
highest number seen has changed. -/
structure MadeRoom (map : TsnMap) (h : Mem) (gap : BitVec 16) (map' : TsnMap) (h' : Mem) :
    Prop where
  gap_lt : gap.toNat < map'.len.toNat
  len_le : map.len.toNat ≤ map'.len.toNat
  le_size : map'.len.toNat ≤ tsnMapSize
  fits : ∃ b bytes, map.tsnMap = some b ∧ h.status b = .live bytes ∧
    bitsToLongs map.seen ≤ bytes / 8
  fits' : ∃ b bytes, map'.tsnMap = some b ∧ h'.status b = .live bytes ∧
    bitsToLongs map.seen ≤ bytes / 8
  same : ∀ i, i < map.seen →
    ∃ v, testBit i map.tsnMap h = .ok v ∧ testBit i map'.tsnMap h' = .ok v

/-- The call of `vlstp_tsnmap_grow` that marking `tsn` makes returns, and if it reports success it
has made room. -/
def GrowMakesRoom (map : TsnMap) (tsn : Tsn) (h : Mem) : Prop :=
  ∃ grown map' h', vlstpTsnmapGrow map (map.gap tsn + 1) h = .ok (grown, map', h') ∧
    (grown = true → MadeRoom map h (map.gap tsn) map' h')

section

variable {s : TsnState} {map : TsnMap} {h : Mem} {W : Window} {t : Tsn} {gap : BitVec 16}
  {c : ℕ → Word}

theorem Represents.callInWindow (hr : Represents s.map s.heap W) {op : TsnCall}
    (hop : CallsInWindow s op) : op ≠ .free ∧ W.MarksInReach op := by
  cases op with
  | mark t =>
    refine ⟨TsnCall.noConfusion, Or.inl ?_⟩
    rw [← hr.numbers.offset_eq]
    exact hop
  | free => exact hop.elim
  | _ => exact ⟨TsnCall.noConfusion, trivial⟩

/-! ### One call -/

/-- A gap in reach of the map, with memory to grow into. -/
theorem Represents.madeRoom (hr : Represents map h W) (hlen : map.len.toNat ≤ gap.toNat)
    (hlt : gap.toNat < tsnMapSize) (hsize : (gap + 1).toNat = gap.toNat + 1)
    (ho : h.oracle h.next = some c) :
    ∃ map' h', vlstpTsnmapGrow map (gap + 1) h = .ok (true, map', h') ∧
      MadeRoom map h gap map' h' := by
  have hd : W.len ≤ gap.toNat := by rwa [← hr.numbers.len]
  obtain ⟨map', h', hgrow, hr', -, -⟩ := hr.grow hd hlt hsize ho
  have hseen : map.seen = W.span := hr.numbers.max_sub_cum
  have hlen' : map'.len.toNat = Window.grownTo W.len (gap.toNat + 1) := hr'.numbers.len
  have hroom : gap.toNat < map'.len.toNat := by
    rw [hlen']
    exact Window.lt_grownTo hd hlt
  have hle : map.len.toNat ≤ map'.len.toNat := hlen.trans hroom.le
  obtain ⟨b, w, hb⟩ := hr.buffer
  obtain ⟨b', w', hb'⟩ := hr'.buffer
  have hspan := W.span_le
  have hgrown : W.len ≤ (W.grow c gap.toNat hd hlt).len := by
    rw [← hr.numbers.len, ← hr'.numbers.len]
    exact hle
  refine ⟨map', h', hgrow, hroom, hle, ?_, ⟨b, _, hb.ptr, hb.live, ?_⟩,
    ⟨b', _, hb'.ptr, hb'.live, ?_⟩, fun i hi => ⟨W.bit i, ?_, ?_⟩⟩
  · rw [hr'.numbers.len]
    exact (W.grow c gap.toNat hd hlt).len_le
  · -- a buffer has a word for every 64 bits
    rw [hseen, Nat.div_div_eq_div_mul]
    exact W.bitsToLongs_le hspan
  · rw [hseen, Nat.div_div_eq_div_mul]
    exact Window.bitsToLongs_le _ (hspan.trans hgrown)
  · rw [hseen] at hi
    exact hb.test (hi.trans_le hspan)
  · -- it lies in a word that is copied
    rw [hseen] at hi
    have hcopied : i < W.copied := by
      unfold Window.copied bitsToLongs
      omega
    have htest := hb'.test (hi.trans_le (hspan.trans hgrown))
    rw [htest]
    exact congrArg _ (if_pos hcopied)

/-- A request of 0 bits is not refused. If there is memory for it the map is not long enough for
the largest gap, since none is. -/
theorem not_makesRoom_of_wrap (hgap : map.gap t = 65535) (ho : h.oracle h.next = some c) :
    ¬ GrowMakesRoom map t h := by
  rintro ⟨grown, map', h', hgrow, hroom⟩
  have hsize : map.gap t + 1 = 0 := by
    rw [hgap]
    rfl
  have hpass : ¬ (0 : BitVec 16).toNat > tsnMapSize := by decide
  obtain ⟨h₁, hmalloc, -⟩ := Heap.malloc_of_some ho 8 (grownLen map.len 0 >>> 3).toNat
  rw [hsize] at hgrow
  simp only [vlstpTsnmapGrowWith, if_neg hpass, malloc, hmalloc, reduceCtorEq, if_false] at hgrow
  -- the copy and the `free` return, and then success is reported
  obtain ⟨h₂, -, hgrow⟩ := Except.bind_eq_ok.mp hgrow
  obtain ⟨h₃, -, hgrow⟩ := Except.bind_eq_ok.mp hgrow
  have htrue : true = grown := congrArg Prod.fst (Except.ok.inj hgrow)
  have hlt := (hroom htrue.symm).gap_lt
  rw [hgap] at hlt
  have hbound := map'.len.isLt
  have hmax : (65535 : BitVec 16).toNat = 65535 := rfl
  omega

/-- **One call makes room** unless the gap is the largest one and there is memory. -/
theorem Represents.makesRoom_iff (hr : Represents map h W) (hgrows : MarkGrows map t) :
    GrowMakesRoom map t h ↔ map.gap t ≠ 65535 ∨ h.oracle h.next = none := by
  constructor
  · intro hroom
    by_contra hnot
    rw [not_or, not_not] at hnot
    obtain ⟨c, ho⟩ := Option.ne_none_iff_exists'.mp hnot.2
    exact not_makesRoom_of_wrap hnot.1 ho hroom
  · intro hcond
    by_cases hbig : (map.gap t + 1).toNat > tsnMapSize
    · -- refused
      refine ⟨false, map, h, ?_, fun h => absurd h Bool.false_ne_true⟩
      rw [vlstpTsnmapGrow, vlstpTsnmapGrowWith, if_pos hbig]
      rfl
    · cases ho : h.oracle h.next with
      | none =>
        exact ⟨false, map, _, Represents.grow_of_none (Nat.not_lt.mp hbig) ho,
          fun h => absurd h Bool.false_ne_true⟩
      | some c =>
        have hne : map.gap t ≠ 65535 := hcond.resolve_right fun hnone => by
          rw [ho] at hnone
          cases hnone
        have hsize : (map.gap t + 1).toNat = (map.gap t).toNat + 1 := by
          have hmax : (65535 : BitVec 16).toNat = 65535 := rfl
          have hone : (1 : BitVec 16).toNat = 1 := rfl
          have hnat : (map.gap t).toNat ≠ 65535 := fun heq => hne (BitVec.eq_of_toNat_eq heq)
          have hlt := (map.gap t).isLt
          rw [BitVec.toNat_add, hone]
          omega
        have hlt : (map.gap t).toNat < tsnMapSize := by omega
        obtain ⟨map', h', hgrow, hroom⟩ := hr.madeRoom hgrows.2 hlt hsize ho
        exact ⟨true, map', h', hgrow, fun _ => hroom⟩

end

/-- **Growing makes room exactly for every gap but the largest one**, in every state that calls in
the window lead to, and for every number whose marking grows the map. -/
theorem grow_makes_room_iff (map : TsnMap) (iter : TsnMapIter) (h : Mem) (len : BitVec 16)
    (initialTsn : Tsn) (hnull : map.tsnMap = none) (hpos : 0 < len.toNat)
    (hle : len.toNat ≤ tsnMapSize) (hdvd : 64 ∣ len.toNat) (hmem : h.oracle h.next ≠ none) :
    ∃ s₀, tsnStep ⟨map, iter, h⟩ (.init len initialTsn) = .ok (.map true, s₀) ∧
      ∀ ops s tsn, Reaches CallsInWindow tsnStep s₀ ops s → MarkGrows s.map tsn →
        (GrowMakesRoom s.map tsn s.heap ↔
          s.map.gap tsn ≠ 65535 ∨ s.heap.oracle s.heap.next = none) := by
  obtain ⟨c, ho⟩ := Option.ne_none_iff_exists'.mp hmem
  obtain ⟨s₀, hinit, hr₀, -⟩ := step_init (s := ⟨map, iter, h⟩) hnull hpos hle hdvd initialTsn ho
  refine ⟨s₀, hinit, fun ops s tsn hrun hgrows => ?_⟩
  obtain ⟨W, hr⟩ := Represents.of_reaches (fun _ _ _ hr hop => hr.callInWindow hop) hr₀ hrun
  exact hr.makesRoom_iff hgrows

/-- A map of 64 bits grows for bit 100. -/
theorem grow_makes_room_hundred :
    ∃ s₀, tsnStep (.zeroed dirtyMemory) (.init 64 0) = .ok (.map true, s₀) ∧
      MarkGrows s₀.map 100 ∧ GrowMakesRoom s₀.map 100 s₀.heap := by
  obtain ⟨s₀, hinit, hiff⟩ := grow_makes_room_iff (TsnState.zeroed dirtyMemory).map ⟨0⟩
    (.empty dirtyMemory) 64 0 rfl (by decide) (by decide) (by decide) (available_dirtyMemory 0)
  have hmap : s₀.map.baseTsn = 0 ∧ s₀.map.len = 64 := by
    obtain ⟨-, rfl⟩ := Prod.mk.inj (Except.ok.inj hinit)
    exact ⟨rfl, rfl⟩
  have hgap : s₀.map.gap 100 = 100 := by
    rw [TsnMap.gap, hmap.1]
    rfl
  have hgrows : MarkGrows s₀.map 100 := by
    rw [MarkGrows, hgap, hmap.1, hmap.2]
    decide
  refine ⟨s₀, hinit, hgrows, (hiff [] s₀ 100 .nil hgrows).mpr (Or.inl ?_)⟩
  rw [hgap]
  decide

/-- **A map that was grown is 64 bits long, and bit 65535 is set in it.** -/
theorem grown_without_room :
    ∃ s₀, tsnStep (.zeroed zeroMemory) (.init 64 0) = .ok (.map true, s₀) ∧
      MarkGrows s₀.map 65535 ∧ ¬ GrowMakesRoom s₀.map 65535 s₀.heap ∧
      tsnStep s₀ (.mark 65535) = .error (.outOfBounds 1 1023) := by
  refine ⟨_, rfl, by decide, not_makesRoom_of_wrap rfl rfl, rfl⟩

end Vlstp
