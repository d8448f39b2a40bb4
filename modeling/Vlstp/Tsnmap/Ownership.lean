import Vlstp.Tsnmap.Calls

/-!
# Who owns the buffer

`vlstp_tsnmap_init` decides by the pointer alone whether to allocate or to reuse,
`vlstp_tsnmap_free` frees the buffer without clearing the pointer, and `vlstp_tsnmap_grow` frees it
in the middle of a mark. A run keeps to the rules of ownership if no call frees a block twice or
touches a freed one and every `vlstp_tsnmap_init` that returns the map leaves it with a live block
of at least its own length (`KeepsOwnership`). `ownership_iff` says which runs do: those in which a
map that was freed is not initialised, marked or freed again, and in which the lengths are whole
numbers of bytes (`MayCall`).

The heap of these runs knows blocks by their identities only: they are live or freed, and have no
bounds (`mallocUnbounded`). An access beyond the end of a live block does not end a run here, so
that what comes after it is judged as well; which runs stay inside the buffer is another matter.

The invariant (`Owner`, `Dangling`) is that the map has no buffer, or owns its buffer, or points to
a freed block and has length 0. In the last state skips and reneges are harmless, as they look at
the length first.
-/

namespace Vlstp

/-! ### The rules -/

/-- `malloc` where blocks have no bounds. A word takes no room there, so that every word of a block
lies inside it until the block is freed. -/
def mallocUnbounded (bytes : ℕ) (h : Mem) : Ptr × Mem := h.malloc 0 bytes

/-- One call, on a heap whose blocks have no bounds. -/
abbrev ownershipStep := tsnStepWith mallocUnbounded

/-- Initialisations, marks that `vlstp_tsnmap_check` allows, skips, reneges and frees. -/
def LifecycleCall (s : TsnState) : TsnCall → Prop
  | .mark tsn => vlstpTsnmapCheck s.map tsn s.heap = .ok 0
  | .init _ _ | .skip _ | .renege _ | .free => True
  | _ => False

/-- The map has a live block of at least `len` bits, and `len` is positive. -/
def Backed (map : TsnMap) (h : Mem) : Prop :=
  0 < map.len.toNat ∧
    ∃ b bytes, map.tsnMap = some b ∧ h.status b = .live bytes ∧ map.len.toNat ≤ 8 * bytes

/-- The call frees no block twice, touches no freed block, and leaves the map backed if it is a
`vlstp_tsnmap_init` that returns the map. Following a `NULL` that was never replaced by a buffer is
the one fault that is not held against it. -/
def KeepsOwnership (s : TsnState) (op : TsnCall) : Prop :=
  (ownershipStep s op).Sat
    (fun (r, s') => (∃ len t, op = .init len t) → r = .map true → Backed s'.map s'.heap)
    (· = .nullDeref)

/-- The state in which a call may be made: a map whose buffer was freed is only skipped and reneged,
the first length is a positive number of whole bytes, and so is that of a buffer that is used
again. -/
def MayCall (s : TsnState) : TsnCall → Prop
  | .init len _ =>
    s.heap.NotFreed s.map.tsnMap ∧ (s.map.tsnMap = none → 0 < len.toNat ∧ 8 ∣ len.toNat) ∧
      -- this can fail only if a mark came first, with any number in `len`, and grew the map from it
      (s.map.tsnMap ≠ none → 8 ∣ s.map.len.toNat)
  -- a number before the base is ignored; once the map was initialised, `LifecycleCall` excludes it
  | .mark tsn => s.heap.NotFreed s.map.tsnMap ∨ tsnLt tsn s.map.baseTsn ≠ 0
  | .free => s.heap.NotFreed s.map.tsnMap
  | _ => True

/-! ### The invariant -/

/-- Block `b` is the map's: it was handed out, is live with the bytes of the map's length, and is
open. -/
structure Owns (map : TsnMap) (h : Mem) (b : ℕ) : Prop where
  lt_next : b < h.next
  live : h.status b = .live (map.len.toNat / 8)
  pos : 0 < map.len.toNat
  isOpen : h.Open (some b)

/-- The map has no buffer, or owns it. -/
structure Owner (map : TsnMap) (h : Mem) : Prop where
  available : Available h.oracle
  owns : ∀ b, map.tsnMap = some b → Owns map h b

/-- The map was freed. -/
structure Dangling (map : TsnMap) (h : Mem) : Prop where
  available : Available h.oracle
  freed : ∃ b, map.tsnMap = some b ∧ b < h.next ∧ h.status b = .freed ∧ ∀ k, h.cell b k = none
  len : map.len = 0

section

variable {map map' : TsnMap} {h h' : Mem} {b : ℕ} {t : Tsn}

theorem Owner.notFreed (ho : Owner map h) : h.NotFreed map.tsnMap := by
  intro b hb
  rw [(ho.owns b hb).live]
  exact Status.noConfusion

theorem Owner.isOpen (ho : Owner map h) : h.Open map.tsnMap := by
  intro b hb
  exact (ho.owns b hb).isOpen b rfl

theorem Dangling.not_notFreed (hd : Dangling map h) : ¬ h.NotFreed map.tsnMap := by
  obtain ⟨b, hb, -, hfreed, -⟩ := hd.freed
  exact fun hn => hn b hb hfreed

theorem Owns.of_sameShape (hown : Owns map h b) (hs : h.SameShape h') (hlen : map'.len = map.len) :
    Owns map' h' b where
  lt_next := by rw [hs.blocks.2.1]; exact hown.lt_next
  live := by rw [hs.blocks.1, hlen]; exact hown.live
  pos := by rw [hlen]; exact hown.pos
  isOpen := hown.isOpen.of_sameShape hs

/-- Accesses keep ownership, and so do changes of the numbers. -/
theorem Owner.of_sameShape (ho : Owner map h) (hs : h.SameShape h')
    (hptr : map'.tsnMap = map.tsnMap) (hlen : map'.len = map.len) : Owner map' h' where
  available := by rw [hs.blocks.2.2]; exact ho.available
  owns b hb := (ho.owns b (hptr ▸ hb)).of_sameShape hs hlen

/-- A fresh block, which is the map's if it has a positive length. -/
theorem mallocUnbounded_eq (ha : Available h.oracle) (len : BitVec 16) :
    ∃ h', mallocUnbounded (len >>> 3).toNat h = (some h.next, h') ∧ h'.oracle = h.oracle ∧
      h'.status h.next = .live (len.toNat / 8) ∧ h.SameExcept h' h.next ∧
      ∀ map : TsnMap, map.len = len → 0 < len.toNat → Owns map h' h.next := by
  obtain ⟨c, hc⟩ := Option.ne_none_iff_exists'.mp (ha h.next)
  obtain ⟨h', hm, hnext, horacle, hlive, hexc, hholds⟩ :=
    Heap.malloc_of_some hc 0 (len >>> 3).toNat
  rw [toNat_ushiftRight_three] at hlive
  refine ⟨h', hm, horacle, hlive, hexc, ?_⟩
  rintro map rfl hpos
  refine ⟨?_, hlive, hpos, ?_⟩
  · rw [hnext]
    exact Nat.lt_succ_self _
  · -- word `k` is one of the first `k + 1`, which take no room
    intro b hb k hnone
    obtain rfl := Option.some.inj hb
    have hk := hholds (k + 1) (Nat.zero_le _) k (Nat.lt_succ_self k)
    exact nomatch hnone.symm.trans hk

end

/-! ### The bit operations -/

section

variable {h : Mem} {p : Ptr}

/-- The gaps of the map have 16 bits, so `set_bit` can name them. -/
theorem sat_setBit (hp : h.Open p) (gap : BitVec 16) :
    (setBit gap.toNat p h).Sat h.SameShape (· = .nullDeref) := by
  rw [setBit_of_lt (gap.isLt.trans (by decide))]
  exact (Heap.sat_read hp).bind fun _ _ => Heap.sat_write (.refl h) hp

theorem sat_clearBit (hp : h.Open p) (bit : ℕ) :
    (clearBit bit p h).Sat h.SameShape (· = .nullDeref) :=
  (Heap.sat_read hp).bind fun _ _ => Heap.sat_write (.refl h) hp

/-- From word `idx` on, the loop has turns left for all words of the map and one more, so it comes
to an end. -/
theorem sat_findFirstLoop (hp : h.Open p) (look : Word → Word) {size fuel idx : ℕ}
    (hfuel : bitsToLongs size ≤ idx + fuel) :
    (findFirstLoop look p size h (fuel + 1) idx).Sat (fun _ => True) (· = .nullDeref) := by
  induction fuel generalizing idx with
  | zero =>
    -- the last turn is past the map
    have hpast : ¬ idx * 64 < size := by
      have hle := le_mul_bitsToLongs size
      omega
    unfold findFirstLoop
    rw [if_neg hpast]
    trivial
  | succ fuel ih =>
    unfold findFirstLoop
    refine Except.Sat.ite (fun _ => ?_) fun _ => trivial
    refine (Heap.sat_read hp).bind fun w _ => ?_
    exact Except.Sat.ite (fun _ => trivial) fun _ => ih (by omega)

theorem sat_findFirstZeroBit (hp : h.Open p) (size : ℕ) :
    (findFirstZeroBit p size h).Sat (fun _ => True) (· = .nullDeref) :=
  sat_findFirstLoop hp _ (Nat.zero_add _).ge

theorem sat_bitmapZero (hp : h.Open p) (nbits : ℕ) :
    (bitmapZero false p nbits h).Sat h.SameShape (· = .nullDeref) :=
  Heap.sat_fill (.refl h) hp

/-- Zeroing a buffer that there is cannot fail. -/
theorem bitmapZero_of_open {b : ℕ} (hb : h.Open (some b)) (nbits : ℕ) :
    ∃ h', bitmapZero false (some b) nbits h = .ok h' ∧ h.SameShape h' := by
  obtain ⟨w, hw⟩ := hb.exists_holds
  exact ⟨_, bitmapZero_eq (hw (bitsToLongs nbits)) le_rfl, (hw _).sameShape_store⟩

theorem sat_bitmapCopy {q : Ptr} (hp : h.Open p) (hq : h.Open q) (nbits : ℕ) :
    (bitmapCopy false p q nbits h).Sat h.SameShape (· = .nullDeref) :=
  Heap.sat_copy (.refl h) hp hq

theorem sat_bitmapShiftRight (hp : h.Open p) (shift nbits : ℕ) :
    (bitmapShiftRight false p p shift nbits h).Sat h.SameShape (· = .nullDeref) := by
  change (_bitmapShiftRight p p shift nbits h).Sat _ _
  unfold _bitmapShiftRight
  -- the turns keep the shape of the heap, so the block is open after them as it was before
  refine (Except.Sat.foldlM _ (Heap.SameShape.refl h) fun h₁ k _ hs => ?_).bind fun h₁ hs => ?_
  · have hp₁ := hp.of_sameShape hs
    have hlower (upper : Word) : (do
        let lower ← h₁.read p (shift / 64 + k)
        let lower := if shift / 64 + k = bitsToLongs nbits - 1 then
          lower &&& lastWordMask nbits else lower
        h₁.write p k (lower >>> (shift % 64) ||| upper)).Sat h.SameShape (· = Fault.nullDeref) :=
      (Heap.sat_read hp₁).bind fun _ _ => Heap.sat_write hs hp
    unfold shiftRightTurn
    refine Except.Sat.ite (fun _ => hlower 0) fun _ => ?_
    exact (Heap.sat_read hp₁).bind fun _ _ => hlower _
  · exact Except.Sat.ite (fun _ => Heap.sat_fill hs hp) fun _ => hs

end

/-! ### Calls on a map that was not freed -/

section

variable {map : TsnMap} {h : Mem} {t : Tsn}

/-- A call leaves the map with the buffer it owns, unless it has followed `NULL`. -/
theorem Owner.update (ho : Owner map h) :
    (vlstpTsnmapUpdate map h).Sat (fun r => Owner r.1 r.2) (· = .nullDeref) := by
  unfold vlstpTsnmapUpdate
  refine (sat_findFirstZeroBit ho.isOpen _).bind fun zeroBit _ => ?_
  refine Except.Sat.ite (fun _ => ho) fun _ => ?_
  refine (sat_bitmapShiftRight ho.isOpen _ _).bind fun h' hs => ?_
  exact ho.of_sameShape hs rfl rfl

theorem Owner.raiseMax (ho : Owner map h) : Owner (map.raiseMax t) h :=
  ho.of_sameShape (.refl h) (raiseMax_tsnMap ..) (raiseMax_len ..)

theorem Owner.record (ho : Owner map h) (gap : BitVec 16) :
    (recordTsn map t gap h).Sat (fun r => Owner r.2.1 r.2.2) (· = .nullDeref) := by
  unfold recordTsn
  -- without a gap only the numbers change
  refine Except.Sat.ite (fun _ => ho.of_sameShape (.refl h) rfl rfl) fun _ => ?_
  have ho₁ : Owner (map.raiseMax t) h := ho.raiseMax
  refine (sat_setBit ho₁.isOpen _).bind fun h' hs => ?_
  have ho' : Owner (map.raiseMax t) h' := ho₁.of_sameShape hs rfl rfl
  exact ho'.update.bind fun r hr => hr

/-- `vlstp_tsnmap_grow` frees the old block once the words are in the new one. -/
theorem Owner.grow (ho : Owner map h) {size : BitVec 16} (hlen : map.len.toNat ≤ size.toNat) :
    (vlstpTsnmapGrowWith mallocUnbounded map size h).Sat (fun r => Owner r.2.1 r.2.2)
      (· = .nullDeref) := by
  unfold vlstpTsnmapGrowWith
  refine Except.Sat.ite (fun _ => ho) fun hsize => ?_
  have hsize : size.toNat ≤ tsnMapSize := Nat.not_lt.mp hsize
  have hpos : 0 < (grownLen map.len size).toNat := by
    rw [toNat_grownLen hlen hsize]
    unfold Window.grownTo tsnMapSize
    omega
  obtain ⟨h₁, hm, horacle₁, -, hexc₁, howns⟩ :=
    mallocUnbounded_eq ho.available (grownLen map.len size)
  have hnew : Owns { map with tsnMap := some h.next, len := grownLen map.len size } h₁ h.next :=
    howns _ rfl hpos
  simp only [hm, reduceCtorEq, if_false]
  -- the old block is as it was, and open while its words are copied
  have hne : ∀ b, map.tsnMap = some b → b ≠ h.next :=
    fun b hb => Nat.ne_of_lt (ho.owns b hb).lt_next
  have hold : h₁.Open map.tsnMap := by
    intro b hb k
    rw [(hexc₁ b (hne b hb)).2]
    exact ho.isOpen b hb k
  refine (sat_bitmapCopy hnew.isOpen hold _).bind fun h₂ hs => ?_
  have hnew₂ : Owns { map with tsnMap := some h.next, len := grownLen map.len size } h₂ h.next :=
    hnew.of_sameShape hs rfl
  have horacle₂ : Available h₂.oracle := by
    rw [hs.blocks.2.2, horacle₁]
    exact ho.available
  cases hp : map.tsnMap with
  | none =>
    -- there was no buffer before, and `free` of `NULL` does nothing
    refine ⟨horacle₂, fun b hb => ?_⟩
    obtain rfl := Option.some.inj hb
    exact hnew₂
  | some b =>
    have hlive : h₂.status b = .live (map.len.toNat / 8) := by
      rw [hs.blocks.1, (hexc₁ b (hne b hp)).1]
      exact (ho.owns b hp).live
    obtain ⟨h₃, hfree, hnext₃, horacle₃, -, hexc₃⟩ := Heap.free_of_live hlive
    simp only [hfree, Except.ok_bind, Except.pure_eq]
    -- freeing the old block leaves the new one alone
    have hkeep := hexc₃ h.next (hne b hp).symm
    refine ⟨horacle₃ ▸ horacle₂, fun b' hb' => ?_⟩
    obtain rfl := Option.some.inj hb'
    refine ⟨hnext₃ ▸ hnew₂.lt_next, hkeep.1.trans hnew₂.live, hpos, ?_⟩
    intro b' hb' k
    obtain rfl := Option.some.inj hb'
    rw [hkeep.2]
    exact hnew₂.isOpen _ rfl k

/-- A mark that `vlstp_tsnmap_check` allows is in the window. -/
theorem offset_lt_of_check (hcheck : vlstpTsnmapCheck map t h = .ok 0)
    (hold : tsnLt t map.baseTsn = 0) : (t - map.baseTsn).toNat < tsnMapSize := by
  -- past the window, the check answers 1 or -1
  have hnear : tsnLt t (map.baseTsn + BitVec.ofNat 32 tsnMapSize) ≠ 0 := by
    intro hfar
    unfold vlstpTsnmapCheck at hcheck
    by_cases hseen : tsnLte t map.cumulativeTsnAckPoint = true
    · rw [if_pos hseen] at hcheck
      exact absurd (Except.ok.inj hcheck) (by decide)
    · rw [if_neg hseen, if_pos hfar] at hcheck
      exact absurd (Except.ok.inj hcheck) (by decide)
  rw [ne_eq, tsnLt_add_eq_zero_iff t map.baseTsn (by decide)] at hnear
  rw [tsnLt_eq_zero_iff] at hold
  unfold tsnMapSize at hnear ⊢
  omega

theorem Owner.mark (ho : Owner map h) (hcheck : vlstpTsnmapCheck map t h = .ok 0) :
    (vlstpTsnmapMarkWith mallocUnbounded map t h).Sat (fun r => Owner r.2.1 r.2.2)
      (· = .nullDeref) := by
  by_cases hold : tsnLt t map.baseTsn = 0
  · have hd := offset_lt_of_check hcheck hold
    -- the 16 bits of `gap` hold the offset
    have hgap : ((t - map.baseTsn).setWidth 16).toNat = (t - map.baseTsn).toNat := by
      rw [BitVec.toNat_setWidth]
      unfold tsnMapSize at hd
      omega
    by_cases hroom : ((t - map.baseTsn).setWidth 16).toNat < map.len.toNat
    · rw [markWith_of_room hold hroom]
      exact ho.record _
    · have hsize : map.len.toNat ≤ ((t - map.baseTsn).setWidth 16 + 1).toNat := by
        unfold tsnMapSize at hd
        rw [BitVec.toNat_add, toNat_one_u16]
        omega
      rw [markWith_of_grow hold (Nat.not_lt.mp hroom)]
      refine (ho.grow hsize).bind fun (grown, map', h') hg => ?_
      exact Except.Sat.ite (fun _ => hg) fun _ => hg.record _
  · rw [markWith_of_old hold]
    exact ho

theorem Owner.skip (ho : Owner map h) :
    (vlstpTsnmapSkip map t h).Sat (fun r => Owner r.1 r.2) (· = .nullDeref) := by
  unfold vlstpTsnmapSkip
  refine Except.Sat.ite (fun _ => ho) fun _ => Except.Sat.ite (fun _ => ho) fun _ => ?_
  have ho₁ : Owner (map.raiseMax t) h := ho.raiseMax
  refine Except.Sat.ite (fun _ => ?_) fun _ => ?_
  · -- everything is skipped: the map is zeroed
    exact (sat_bitmapZero ho₁.isOpen _).bind fun h' hs => ho₁.of_sameShape hs rfl rfl
  · -- the rest is shifted down and what follows acknowledged
    refine (sat_bitmapShiftRight ho₁.isOpen _ _).bind fun h' hs => ?_
    exact Owner.update (ho₁.of_sameShape hs rfl rfl)

theorem Owner.renege (ho : Owner map h) :
    (vlstpTsnmapRenege map t h).Sat (fun h' => Owner map h') (· = .nullDeref) := by
  unfold vlstpTsnmapRenege
  refine Except.Sat.ite (fun _ => ho) fun _ => Except.Sat.ite (fun _ => ho) fun _ => ?_
  exact (sat_clearBit ho.isOpen _).imp fun h' hs => ho.of_sameShape hs rfl rfl

theorem Owner.free (ho : Owner map h) :
    (vlstpTsnmapFree map h).Sat (fun r => Owner r.1 r.2 ∨ Dangling r.1 r.2) (· = .nullDeref) := by
  unfold vlstpTsnmapFree
  cases hp : map.tsnMap with
  | none => exact Or.inl ⟨ho.available, fun b hb => by simp at hb⟩
  | some b =>
    -- the pointer stays, and dangles
    have hown := ho.owns b hp
    obtain ⟨h', hfree, hnext, horacle, hfreed, -⟩ := Heap.free_of_live hown.live
    simp only [hfree, Except.ok_bind, Except.pure_eq]
    refine Or.inr ⟨horacle ▸ ho.available, ⟨b, rfl, hnext ▸ hown.lt_next, hfreed, ?_⟩, rfl⟩
    exact Heap.free_cell hfree

/-- A live block of `len / 8` bytes has room for `len` bits if `len` is a number of whole bytes. -/
theorem backed_iff {b : ℕ} (hp : map.tsnMap = some b)
    (hlive : h.status b = .live (map.len.toNat / 8)) :
    Backed map h ↔ 0 < map.len.toNat ∧ 8 ∣ map.len.toNat := by
  constructor
  · rintro ⟨hpos, b', bytes, hb, hlive', hle⟩
    obtain rfl := Option.some.inj (hp.symm.trans hb)
    obtain rfl : map.len.toNat / 8 = bytes := Status.live.inj (hlive.symm.trans hlive')
    exact ⟨hpos, by omega⟩
  · rintro ⟨hpos, hdvd⟩
    exact ⟨hpos, b, _, hp, hlive, by omega⟩

/-- Initialising a map again keeps its buffer and its length. -/
theorem Owner.init_some (ho : Owner map h) {b : ℕ} (hp : map.tsnMap = some b) (len : BitVec 16) :
    ∃ map' h', vlstpTsnmapInitWith mallocUnbounded map len t h = .ok (true, map', h') ∧
      Owner map' h' ∧ (Backed map' h' ↔ 8 ∣ map.len.toNat) := by
  have hown := ho.owns b hp
  obtain ⟨h', hzero, hs⟩ := bitmapZero_of_open hown.isOpen map.len.toNat
  have ho' : Owner (vlstpTsnmapInit.start t map) h' := ho.of_sameShape hs rfl rfl
  refine ⟨_, h', ?_, ho', ?_⟩
  · unfold vlstpTsnmapInitWith
    rw [if_neg (by simp [hp]), hp, hzero]
    rfl
  · calc Backed (vlstpTsnmapInit.start t map) h'
        ↔ 0 < map.len.toNat ∧ 8 ∣ map.len.toNat := backed_iff hp (ho'.owns b hp).live
      _ ↔ 8 ∣ map.len.toNat := and_iff_right hown.pos

/-- A first initialisation takes the length it is given. -/
theorem Owner.init_none (ho : Owner map h) (hp : map.tsnMap = none) (len : BitVec 16) :
    ∃ map' h', vlstpTsnmapInitWith mallocUnbounded map len t h = .ok (true, map', h') ∧
      (0 < len.toNat → Owner map' h') ∧ (Backed map' h' ↔ 0 < len.toNat ∧ 8 ∣ len.toNat) := by
  obtain ⟨h₁, hm, horacle₁, hlive₁, -, howns⟩ := mallocUnbounded_eq ho.available len
  refine ⟨_, h₁, init_of_malloc hp len hm, fun hpos => ⟨horacle₁ ▸ ho.available, ?_⟩,
    backed_iff rfl hlive₁⟩
  intro b hb
  obtain rfl := Option.some.inj hb
  exact howns _ rfl hpos

/-- **`vlstp_tsnmap_init`** returns the map. It is backed just if the length it has then, given or
kept, is a positive number of whole bytes. -/
theorem Owner.init (ho : Owner map h) (len : BitVec 16) :
    ∃ map' h', vlstpTsnmapInitWith mallocUnbounded map len t h = .ok (true, map', h') ∧
      (Backed map' h' ↔ (map.tsnMap = none → 0 < len.toNat ∧ 8 ∣ len.toNat) ∧
        (map.tsnMap ≠ none → 8 ∣ map.len.toNat)) ∧
      (Backed map' h' → Owner map' h') := by
  cases hp : map.tsnMap with
  | none =>
    obtain ⟨map', h', hinit, howner, hbacked⟩ := ho.init_none (t := t) hp len
    refine ⟨map', h', hinit, ?_, fun hb => howner (hbacked.mp hb).1⟩
    rw [hbacked]
    simp
  | some b =>
    obtain ⟨map', h', hinit, howner, hbacked⟩ := ho.init_some (t := t) hp len
    refine ⟨map', h', hinit, ?_, fun _ => howner⟩
    rw [hbacked]
    simp

end

/-! ### Calls on a map that was freed -/

section

variable {map : TsnMap} {h : Mem} {t : Tsn}

theorem Dangling.bitmapZero_len (hd : Dangling map h) (map' : TsnMap) (hlen : map'.len = map.len) :
    bitmapZero false map'.tsnMap map'.len.toNat h = .ok h := by
  rw [hlen, hd.len]
  rfl

/-- Every distance is beyond a map of length 0, so a skip zeroes its no words. -/
theorem Dangling.skip (hd : Dangling map h) :
    ∃ map', vlstpTsnmapSkip map t h = .ok (map', h) ∧ Dangling map' h := by
  have hkeep (map' : TsnMap) (hptr : map'.tsnMap = map.tsnMap) (hlen : map'.len = map.len) :
      Dangling map' h := ⟨hd.available, by rw [hptr]; exact hd.freed, hlen.trans hd.len⟩
  unfold vlstpTsnmapSkip
  by_cases hold : tsnLt t map.baseTsn ≠ 0
  · rw [if_pos hold]
    exact ⟨map, rfl, hd⟩
  · rw [if_neg hold]
    by_cases hfar : tsnLt t (map.baseTsn + BitVec.ofNat 32 tsnMapSize) = 0
    · rw [if_pos hfar]
      exact ⟨map, rfl, hd⟩
    · rw [if_neg hfar]
      have hlen : (map.raiseMax t).len = map.len := raiseMax_len ..
      -- no distance is below the length 0, so the branch that zeroes the map is taken
      have hge : (t - (map.raiseMax t).baseTsn + 1).toNat ≥ (map.raiseMax t).len.toNat := by
        rw [hlen, hd.len]
        exact Nat.zero_le _
      simp only [raiseMax_def, if_pos hge, hd.bitmapZero_len _ hlen, Except.ok_bind]
      exact ⟨_, rfl, hkeep _ (raiseMax_tsnMap ..) hlen⟩

theorem Dangling.renege (hd : Dangling map h) : vlstpTsnmapRenege map t h = .ok h := by
  unfold vlstpTsnmapRenege
  by_cases hold : tsnLt t map.baseTsn = 0
  · rw [if_neg (not_not.mpr hold), hd.len, if_pos]
    simpa using hold
  · rw [if_pos hold]

/-- A mark grows the map, which copies from the freed block or frees it. -/
theorem Dangling.mark (hd : Dangling map h) (hcheck : vlstpTsnmapCheck map t h = .ok 0)
    (hold : tsnLt t map.baseTsn = 0) :
    ∃ f, vlstpTsnmapMarkWith mallocUnbounded map t h = .error f ∧ f ≠ .nullDeref := by
  obtain ⟨b, hp, hlt, hfreed, hcell⟩ := hd.freed
  have hoff := offset_lt_of_check hcheck hold
  have hlen : map.len.toNat ≤ ((t - map.baseTsn).setWidth 16).toNat := by
    rw [hd.len]
    exact Nat.zero_le _
  have hsize : ¬ ((t - map.baseTsn).setWidth 16 + 1).toNat > tsnMapSize := by
    unfold tsnMapSize at hoff ⊢
    rw [BitVec.toNat_add, BitVec.toNat_setWidth, toNat_one_u16]
    omega
  -- `vlstp_tsnmap_grow` gets a new block, and the old one stays freed
  obtain ⟨h₁, hm, -, -, hexc₁, -⟩ :=
    mallocUnbounded_eq hd.available (grownLen map.len ((t - map.baseTsn).setWidth 16 + 1))
  obtain ⟨hstatus₁, hcell₁⟩ := hexc₁ b (Nat.ne_of_lt hlt)
  have hfreed₁ : h₁.status b = .freed := hstatus₁.trans hfreed
  rw [markWith_of_grow hold hlen, vlstpTsnmapGrowWith, if_neg hsize]
  simp only [hm, reduceCtorEq, if_false, hp]
  by_cases hspan : bitsToLongs (map.maxTsnSeen - map.cumulativeTsnAckPoint).toNat = 0
  · -- nothing to copy: the freed block is freed again
    have hcopy : bitmapCopy false (some h.next) (some b)
        (map.maxTsnSeen - map.cumulativeTsnAckPoint).toNat h₁ = .ok h₁ := by
      change h₁.copy (some h.next) (some b) _ = _
      rw [hspan]
      rfl
    refine ⟨.doubleFree b, ?_, Fault.noConfusion⟩
    rw [hcopy, Except.ok_bind, Heap.free_of_freed hfreed₁]
    rfl
  · -- the first word copied is read from the freed block
    have hcopy : bitmapCopy false (some h.next) (some b)
        (map.maxTsnSeen - map.cumulativeTsnAckPoint).toNat h₁ = .error (.useAfterFree b) :=
      Heap.copy_of_freed hfreed₁ (fun k => by rw [hcell₁]; exact hcell k) _
        (Nat.pos_of_ne_zero hspan)
    refine ⟨.useAfterFree b, ?_, Fault.noConfusion⟩
    rw [hcopy]
    rfl

theorem Dangling.free (hd : Dangling map h) :
    ∃ f, vlstpTsnmapFree map h = .error f ∧ f ≠ .nullDeref := by
  obtain ⟨b, hp, -, hfreed, -⟩ := hd.freed
  refine ⟨.doubleFree b, ?_, Fault.noConfusion⟩
  simp only [vlstpTsnmapFree, hp, Heap.free_of_freed hfreed, Except.error_bind]

/-- **The map comes back with length 0 and its freed block.** -/
theorem Dangling.init (hd : Dangling map h) (len : BitVec 16) :
    ∃ map', vlstpTsnmapInitWith mallocUnbounded map len t h = .ok (true, map', h) ∧
      map'.len = 0 := by
  obtain ⟨b, hp, -⟩ := hd.freed
  refine ⟨vlstpTsnmapInit.start t map, ?_, hd.len⟩
  unfold vlstpTsnmapInitWith
  rw [if_neg (by simp [hp]), hd.bitmapZero_len map rfl]
  rfl

end

/-! ### One call -/

section

variable {s s' : TsnState} {op : TsnCall} {r : TsnResult}

/-- **The invariant of the runs that keep to the rules.** -/
def OwnerOrDangling (s : TsnState) : Prop := Owner s.map s.heap ∨ Dangling s.map s.heap

/-- A call on a map that was not freed. -/
theorem Owner.step (ho : Owner s.map s.heap) (hcall : LifecycleCall s op) (hmay : MayCall s op) :
    (ownershipStep s op).Sat
      (fun (r, s') => OwnerOrDangling s' ∧
        ((∃ len t, op = .init len t) → r = .map true → Backed s'.map s'.heap))
      (· = .nullDeref) := by
  cases op with
  | init len t =>
    obtain ⟨-, hlen⟩ := hmay
    obtain ⟨map', h', hinit, hiff, howner⟩ := ho.init (t := t) len
    have hbacked := hiff.mpr hlen
    simp only [tsnStepWith, hinit, Except.ok_bind, Except.pure_eq]
    exact ⟨Or.inl (howner hbacked), fun _ _ => hbacked⟩
  | mark t =>
    refine (ho.mark hcall).bind ?_
    rintro ⟨n, map', h'⟩ hr
    exact ⟨Or.inl hr, fun hinit => absurd hinit (by simp)⟩
  | skip t =>
    refine ho.skip.bind ?_
    rintro ⟨map', h'⟩ hr
    exact ⟨Or.inl hr, fun hinit => absurd hinit (by simp)⟩
  | renege t =>
    refine ho.renege.bind fun h' hr => ?_
    exact ⟨Or.inl hr, fun hinit => absurd hinit (by simp)⟩
  | free =>
    refine ho.free.bind ?_
    rintro ⟨map', h'⟩ hr
    exact ⟨hr, fun hinit => absurd hinit (by simp)⟩
  | check | pending | iterInit | nextGapAck | numGabs => exact hcall.elim

/-- A length that is not a positive number of whole bytes leaves the map without its bits. -/
theorem Owner.mayCall (ho : Owner s.map s.heap) (hcall : LifecycleCall s op)
    (hkeeps : KeepsOwnership s op) : MayCall s op := by
  cases op with
  | init len t =>
    obtain ⟨map', h', hinit, hiff, -⟩ := ho.init (t := t) len
    simp only [KeepsOwnership, tsnStepWith, hinit, Except.ok_bind, Except.pure_eq] at hkeeps
    exact ⟨ho.notFreed, hiff.mp (hkeeps ⟨len, t, rfl⟩ rfl)⟩
  | mark t => exact Or.inl ho.notFreed
  | free => exact ho.notFreed
  | skip | renege => trivial
  | check | pending | iterInit | nextGapAck | numGabs => exact hcall.elim

/-- A call on a map that was freed: what may be called leaves it so. -/
theorem Dangling.step (hd : Dangling s.map s.heap) (hcall : LifecycleCall s op)
    (hmay : MayCall s op) :
    ∃ r s', ownershipStep s op = .ok (r, s') ∧ Dangling s'.map s'.heap ∧
      ¬ ∃ len t, op = .init len t := by
  cases op with
  | init len t => exact absurd hmay.1 hd.not_notFreed
  | mark t =>
    have hold : tsnLt t s.map.baseTsn ≠ 0 := hmay.resolve_left hd.not_notFreed
    exact ⟨.int 0, s,
      by simp only [tsnStepWith, markWith_of_old hold, Except.ok_bind, Except.pure_eq], hd, by simp⟩
  | skip t =>
    obtain ⟨map', hskip, hd'⟩ := hd.skip (t := t)
    have hstep : ownershipStep s (.skip t) = .ok (.void, { s with map := map' }) := by
      simp only [tsnStepWith, hskip, Except.ok_bind, Except.pure_eq]
    exact ⟨_, _, hstep, hd', by simp⟩
  | renege t =>
    exact ⟨.void, s, by simp only [tsnStepWith, hd.renege, Except.ok_bind, Except.pure_eq], hd,
      by simp⟩
  | free => exact absurd hmay hd.not_notFreed
  | check | pending | iterInit | nextGapAck | numGabs => exact hcall.elim

/-- What may not be called breaks the rules. -/
theorem Dangling.mayCall (hd : Dangling s.map s.heap) (hcall : LifecycleCall s op)
    (hkeeps : KeepsOwnership s op) : MayCall s op := by
  cases op with
  | init len t =>
    obtain ⟨map', hinit, hlen⟩ := hd.init (t := t) len
    -- the map came back, but with length 0
    simp only [KeepsOwnership, tsnStepWith, hinit, Except.ok_bind, Except.pure_eq] at hkeeps
    have hpos := (hkeeps ⟨len, t, rfl⟩ rfl).1
    rw [hlen] at hpos
    exact absurd hpos (Nat.lt_irrefl 0)
  | mark t =>
    by_contra hnot
    have hold : tsnLt t s.map.baseTsn = 0 := by
      by_contra hold
      exact hnot (Or.inr hold)
    obtain ⟨f, hmark, hf⟩ := hd.mark hcall hold
    simp only [KeepsOwnership, tsnStepWith, hmark, Except.error_bind,
      Except.Sat.error_iff] at hkeeps
    exact absurd hkeeps hf
  | free =>
    obtain ⟨f, hfree, hf⟩ := hd.free
    simp only [KeepsOwnership, tsnStepWith, hfree, Except.error_bind,
      Except.Sat.error_iff] at hkeeps
    exact absurd hkeeps hf
  | skip | renege => trivial
  | check | pending | iterInit | nextGapAck | numGabs => exact hcall.elim

theorem OwnerOrDangling.keeps_iff (hI : OwnerOrDangling s) (hcall : LifecycleCall s op) :
    KeepsOwnership s op ↔ MayCall s op := by
  rcases hI with ho | hd
  · exact ⟨ho.mayCall hcall, fun hmay => (ho.step hcall hmay).imp fun _ h => h.2⟩
  · refine ⟨hd.mayCall hcall, fun hmay => ?_⟩
    obtain ⟨r, s', hs, -, hno⟩ := hd.step hcall hmay
    unfold KeepsOwnership
    rw [hs]
    exact fun hinit => absurd hinit hno

theorem OwnerOrDangling.step (hI : OwnerOrDangling s) (hcall : LifecycleCall s op)
    (hmay : MayCall s op) (hs : ownershipStep s op = .ok (r, s')) : OwnerOrDangling s' := by
  rcases hI with ho | hd
  · have hsat := ho.step hcall hmay
    rw [hs] at hsat
    exact hsat.1
  · obtain ⟨r', s'', hs', hd', -⟩ := hd.step hcall hmay
    rw [hs] at hs'
    obtain ⟨-, rfl⟩ := Prod.mk.inj (Except.ok.inj hs')
    exact Or.inr hd'

end

/-! ### Runs -/

/-- **Which runs keep to the rules of ownership.** A program makes any calls, from a struct whose
`tsn_map` is `NULL`, on a system whose `malloc` finds memory, wherever in the blocks they read and
write. It frees no block twice, touches no freed block and has a live buffer of positive length,
with room for it, after every `vlstp_tsnmap_init`, if and only if it does not initialise, mark (a
number that is not before the base) or free a map it has freed, its first length is a positive
multiple of 8, and so is every length that is initialised again. -/
theorem ownership_iff (map : TsnMap) (iter : TsnMapIter) (h : Mem) (hnull : map.tsnMap = none)
    (hmem : Available h.oracle) (ops : List TsnCall)
    (hops : EveryStep ownershipStep LifecycleCall ⟨map, iter, h⟩ ops) :
    EveryStep ownershipStep KeepsOwnership ⟨map, iter, h⟩ ops ↔
      EveryStep ownershipStep MayCall ⟨map, iter, h⟩ ops := by
  have hI : OwnerOrDangling ⟨map, iter, h⟩ :=
    Or.inl ⟨hmem, fun b hb => absurd (hnull.symm.trans hb) (Option.some_ne_none b).symm⟩
  set s₀ : TsnState := ⟨map, iter, h⟩
  -- the rules are equivalent at every state the invariant holds of, and keeping them keeps it
  have hboth :
      EveryStep ownershipStep (fun s op => LifecycleCall s op ∧ KeepsOwnership s op) s₀ ops ↔
      EveryStep ownershipStep (fun s op => LifecycleCall s op ∧ MayCall s op) s₀ ops := by
    refine EveryStep.congr_of_invariant OwnerOrDangling hI ?_ ?_
    · intro s op r s' hI ⟨hcall, hkeeps⟩ hs
      exact hI.step hcall ((hI.keeps_iff hcall).mp hkeeps) hs
    · intro s op hI
      exact and_congr_right fun hcall => hI.keeps_iff hcall
  rw [EveryStep.and_iff, EveryStep.and_iff] at hboth
  constructor
  · intro hkeeps
    exact (hboth.mp ⟨hops, hkeeps⟩).2
  · intro hmay
    exact (hboth.mpr ⟨hops, hmay⟩).2

/-- A map that is initialised, marked beyond its length, so that it grows, and freed. -/
theorem ownership_iff_grown :
    EveryStep ownershipStep KeepsOwnership (.zeroed dirtyMemory) [.init 64 0, .mark 100, .free] ↔
      EveryStep ownershipStep MayCall (.zeroed dirtyMemory) [.init 64 0, .mark 100, .free] := by
  refine ownership_iff _ _ _ rfl available_dirtyMemory _ (.cons trivial fun r s hs => ?_)
  obtain rfl := (Prod.mk.inj (Except.ok.inj hs)).2
  refine .cons rfl fun r s hs => .cons trivial fun r s hs => .nil

/-- **A map that is initialised, freed and initialised again** comes back with length 0 and its
freed block; `vlstp_tsnmap_check` allows the next mark, which frees the block a second time. -/
theorem freed_map_reused :
    ∃ s, Reaches LifecycleCall ownershipStep (.zeroed zeroMemory)
        [.init 64 0, .free, .init 64 0] s ∧
      s.map.len = 0 ∧ s.heap.status 0 = .freed ∧ s.map.tsnMap = some 0 ∧
      vlstpTsnmapCheck s.map 0 s.heap = .ok 0 ∧
      ownershipStep s (.mark 0) = .error (.doubleFree 0) :=
  ⟨_, ((Run.nil.snoc ⟨trivial, _, rfl⟩).snoc ⟨trivial, _, rfl⟩).snoc ⟨trivial, _, rfl⟩,
    rfl, rfl, rfl, rfl, rfl⟩

end Vlstp
