import Vlstp.Tsnmap.Calls

/-!
# What fresh memory holds shows through

`vlstp_tsnmap_init` and `vlstp_tsnmap_grow` take their buffers from `malloc` and do not clear them,
although the map is meant to be all zero where nothing was received, and although initialising a map
again does clear it. So what the memory held before is read as received numbers.

This module says how far: two runs of the same calls, in two memories, answer every query alike
exactly if the memories agree on the bits that the code leaves as it finds them
(`results_agree_iff`). These are the whole first buffer, and of a buffer a mark grows into
(`FreshAgree`) the bits beyond the words that are copied, less the one that is set.

The proof rests on `Window.eq_of_sameResults`: equal answers mean equal windows. Since what `update`
shifts out of a window is all ones (`Window.update_inj`), a difference in fresh memory is never
lost.
-/

namespace Vlstp

/-! ### Equal answers, equal windows -/

namespace Window

variable {W W₁ W₂ : Window}

/-- Two windows of one length whose maps answer every query alike are the same. -/
theorem eq_of_sameResults {map₁ map₂ : TsnMap} {h₁ h₂ : Mem} (hr₁ : Represents map₁ h₁ W₁)
    (hr₂ : Represents map₂ h₂ W₂) (hlen : W₁.len = W₂.len)
    (hsame : SameResults map₁ h₁ map₂ h₂) : W₁ = W₂ := by
  have hcum : W₁.cum = W₂.cum :=
    calc W₁.cum = map₁.cumulativeTsnAckPoint := hr₁.numbers.cum.symm
      _ = map₂.cumulativeTsnAckPoint := hsame.ctsn.symm
      _ = W₂.cum := hr₂.numbers.cum
  -- the distance of the two numbers the queries return
  have hspan : W₁.span = W₂.span := by
    rw [← hr₁.numbers.max_sub_cum, ← hr₂.numbers.max_sub_cum]
    have hmax : map₂.maxTsnSeen = map₁.maxTsnSeen := hsame.maxTsnSeen
    have hack : map₂.cumulativeTsnAckPoint = map₁.cumulativeTsnAckPoint := hsame.ctsn
    rw [hmax, hack]
  refine Window.ext hcum hspan hlen (funext fun i => ?_)
  -- a bit of the map is what the check of its number reads
  by_cases hi : i < W₁.len
  · have hlt := hi.trans_le W₁.len_le
    unfold tsnMapSize at hlt
    have hcheck := hsame.check (W₁.tsnAt i)
    have hat : W₁.tsnAt i = W₂.tsnAt i := by rw [tsnAt, tsnAt, hcum]
    rw [hr₁.check, hr₂.check, W₁.offset_tsnAt (by omega), hat, W₂.offset_tsnAt (by omega),
      Except.ok.injEq, W₁.check_of_lt hlt, W₂.check_of_lt hlt] at hcheck
    cases hb₁ : W₁.bit i <;> cases hb₂ : W₂.bit i <;> simp_all
  · rw [W₁.bit_of_le (Nat.not_lt.mp hi), W₂.bit_of_le (by omega)]

/-- **Nothing is lost in an update.** What is shifted out was all ones, so windows that agree after
the update agreed before it. -/
theorem update_inj (hcum : W₁.cum = W₂.cum) (hspan : W₁.span = W₂.span) (hlen : W₁.len = W₂.len)
    (h : W₁.update = W₂.update) : W₁ = W₂ := by
  have hspan₁ := Numbers.span_lt W₁
  have hspan₂ := Numbers.span_lt W₂
  have hle₁ := W₁.received_le
  have hle₂ := W₂.received_le
  -- the ack points moved on by the same amount
  have hrec : W₁.received = W₂.received := by
    have hmove : W₁.cum + BitVec.ofNat 32 W₁.received = W₂.cum + BitVec.ofNat 32 W₂.received :=
      congrArg Window.cum h
    rw [hcum, BitVec.add_right_inj, ← BitVec.toNat_inj, BitVec.toNat_ofNat,
      BitVec.toNat_ofNat] at hmove
    omega
  refine Window.ext hcum hspan hlen (funext fun i => ?_)
  by_cases hi : i < W₁.received
  · -- shifted out of both
    rw [W₁.bit_of_lt_received hi, W₂.bit_of_lt_received (hrec ▸ hi)]
  · -- still there, that many places lower
    have hbit := congrFun (congrArg Window.bit h) (i - W₁.received)
    simp only [update, shift_bit, ← hrec] at hbit
    rwa [Nat.sub_add_cancel (Nat.not_lt.mp hi)] at hbit

/-- Two fresh windows are the same if the memory is, as far as the map reaches. -/
theorem fresh_eq_iff {cum : Tsn} {len : ℕ} {c₁ c₂ : ℕ → Word} (hpos : 0 < len)
    (hle : len ≤ tsnMapSize) (hdvd : 64 ∣ len) :
    fresh cum len c₁ hpos hle hdvd = fresh cum len c₂ hpos hle hdvd ↔
      ∀ i, i < len → bitAt c₁ i = bitAt c₂ i := by
  constructor
  · intro h i hi
    have hbit := congrFun (congrArg Window.bit h) i
    simpa [fresh, hi] using hbit
  · intro h
    refine Window.ext rfl rfl rfl (funext fun i => ?_)
    by_cases hi : i < len
    · simp [fresh, hi, h i hi]
    · simp [fresh, hi]

/-- **A mark that grows the map, in two memories.** -/
theorem receive_eq_iff {c₁ c₂ : ℕ → Word} {d : ℕ} (hd : W.len ≤ d) (hlt : d < tsnMapSize) :
    W.receive c₁ d hlt = W.receive c₂ d hlt ↔
      ∀ i, W.copied ≤ i → i < grownTo W.len (d + 1) → i ≠ d → bitAt c₁ i = bitAt c₂ i := by
  have hpos := W.len_pos
  -- the fast path needs offset 0, which never makes a map grow
  have hrec (c : ℕ → Word) : W.receive c d hlt =
      ((W.grow c d hd hlt).put d (lt_grownTo hd hlt)).update := by
    unfold receive accept
    rw [if_neg (by omega)]
    have hroom : W.room c d hlt = W.grow c d hd hlt := dif_pos hd
    simp only [hroom]
  -- apart from the bits, the contents do not matter
  have hcum (c : ℕ → Word) : ((W.grow c d hd hlt).put d (lt_grownTo hd hlt)).cum = W.cum := rfl
  have hspan (c : ℕ → Word) :
      ((W.grow c d hd hlt).put d (lt_grownTo hd hlt)).span = max W.span (d + 1) := rfl
  have hlen (c : ℕ → Word) :
      ((W.grow c d hd hlt).put d (lt_grownTo hd hlt)).len = grownTo W.len (d + 1) := rfl
  rw [hrec, hrec]
  constructor
  · -- equal after the update, so equal before it
    intro h i hcop hi hne
    have hput : (W.grow c₁ d hd hlt).put d (lt_grownTo hd hlt) =
        (W.grow c₂ d hd hlt).put d (lt_grownTo hd hlt) :=
      update_inj ((hcum c₁).trans (hcum c₂).symm) ((hspan c₁).trans (hspan c₂).symm)
        ((hlen c₁).trans (hlen c₂).symm) h
    have hbit := congrFun (congrArg Window.bit hput) i
    have hcop' : ¬ i < W.copied := Nat.not_lt.mpr hcop
    simpa [put, grow, hne, hcop', hi] using hbit
  · intro h
    refine congrArg update (Window.ext ((hcum c₁).trans (hcum c₂).symm)
      ((hspan c₁).trans (hspan c₂).symm) ((hlen c₁).trans (hlen c₂).symm) (funext fun i => ?_))
    simp only [put, grow]
    by_cases hne : i = d
    · simp [hne]
    · by_cases hcop : i < W.copied
      · simp [hcop]
      · by_cases hi : i < grownTo W.len (d + 1)
        · simp [hcop, hi, h i (Nat.not_lt.mp hcop) hi hne]
        · simp [hcop, hi]

end Window

/-! ### Two memories -/

/-- Bit `i` of what the `n`-th `malloc` hands out. -/
def contents (oracle : ℕ → Option (ℕ → Word)) (n i : ℕ) : Bool :=
  bitAt ((oracle n).getD fun _ => 0) i

/-- Marks, skips and reneges of numbers in the window. -/
def UpdatesInWindow (s : TsnState) : TsnCall → Prop
  | .mark tsn | .skip tsn | .renege tsn => (tsn - s.map.baseTsn).toNat < tsnMapSize
  | _ => False

/-- The two memories agree on the bits a call leaves as `malloc` returned them: those a growing mark
does not copy from the old buffer, except the one it sets. -/
def FreshAgree (o₁ o₂ : ℕ → Option (ℕ → Word)) (s : TsnState) : TsnCall → Prop
  | .mark tsn =>
    let gap := (tsn - s.map.baseTsn).toNat
    s.map.len.toNat ≤ gap →
      ∀ i, 64 * bitsToLongs (s.map.maxTsnSeen - s.map.cumulativeTsnAckPoint).toNat ≤ i →
        i < (grownLen s.map.len (BitVec.ofNat 16 (gap + 1))).toNat → i ≠ gap →
        contents o₁ s.heap.next i = contents o₂ s.heap.next i
  | _ => True

section

variable {s s₁ s₂ : TsnState} {W : Window} {op : TsnCall} {o₁ o₂ : ℕ → Option (ℕ → Word)}

theorem Represents.inWindow (hr : Represents s.map s.heap W) (hop : UpdatesInWindow s op) :
    op ≠ .free ∧ W.MarksInReach op := by
  cases op with
  | mark t =>
    refine ⟨TsnCall.noConfusion, Or.inl ?_⟩
    rw [← hr.numbers.offset_eq]
    exact hop
  | skip t => exact ⟨TsnCall.noConfusion, trivial⟩
  | renege t => exact ⟨TsnCall.noConfusion, trivial⟩
  | free | init | check | pending | iterInit | nextGapAck | numGabs => exact hop.elim

/-- Which calls stay in the window depends on the window alone. -/
theorem Represents.updatesInWindow_congr (hr₁ : Represents s₁.map s₁.heap W)
    (hr₂ : Represents s₂.map s₂.heap W) (hop : UpdatesInWindow s₁ op) : UpdatesInWindow s₂ op := by
  have hbase : s₂.map.baseTsn = s₁.map.baseTsn := hr₂.numbers.base.trans hr₁.numbers.base.symm
  cases op with
  | mark t | skip t | renege t =>
    unfold UpdatesInWindow at hop ⊢
    rw [hbase]
    exact hop
  | free | init | check | pending | iterInit | nextGapAck | numGabs => exact hop.elim

/-- One call in two memories leads to the same window exactly if they agree where they are fresh. -/
theorem Represents.after_eq_iff (hr : Represents s.map s.heap W) (hop : UpdatesInWindow s op)
    (h₁ : Available o₁) (h₂ : Available o₂) :
    W.after (o₁ s.heap.next) op = W.after (o₂ s.heap.next) op ↔ FreshAgree o₁ o₂ s op := by
  have hn := hr.numbers
  cases op with
  | mark t =>
    have hlt : W.offset t < tsnMapSize := by
      rw [← hn.offset_eq]
      exact hop
    have hlt' : W.offset t < 4096 := hlt
    have hne₁ : ¬ (W.len ≤ W.offset t ∧ o₁ s.heap.next = none) := fun h => h₁ _ h.2
    have hne₂ : ¬ (W.len ≤ W.offset t ∧ o₂ s.heap.next = none) := fun h => h₂ _ h.2
    simp only [Window.after, dif_pos hlt, if_neg hne₁, if_neg hne₂]
    unfold FreshAgree
    simp only [hn.offset_eq, hn.len, hn.max_sub_cum]
    by_cases hd : W.len ≤ W.offset t
    · have hsize : (BitVec.ofNat 16 (W.offset t + 1)).toNat = W.offset t + 1 := by
        rw [BitVec.toNat_ofNat]
        omega
      have hgrown : (grownLen s.map.len (BitVec.ofNat 16 (W.offset t + 1))).toNat =
          Window.grownTo W.len (W.offset t + 1) := by
        rw [toNat_grownLen (by rw [hsize, hn.len]; omega) (by rw [hsize]; exact hlt), hn.len, hsize]
      rw [Window.receive_eq_iff hd hlt, hgrown]
      exact ⟨fun h _ => h, fun h => h hd⟩
    · -- without growth the answer of `malloc` is not asked for
      have hroom (c : ℕ → Word) : W.room c (W.offset t) hlt = W := dif_neg hd
      simp only [Window.receive, hroom, true_iff]
      exact fun h => absurd h hd
  | skip t => exact iff_of_true rfl trivial
  | renege t => exact iff_of_true rfl trivial
  | free | init | check | pending | iterInit | nextGapAck | numGabs => exact hop.elim

/-- How long the map is after a call does not depend on what the memory holds. -/
theorem Window.len_after (hop : op ≠ .free) {a₁ a₂ : Option (ℕ → Word)} (h₁ : a₁ ≠ none)
    (h₂ : a₂ ≠ none) : (W.after a₁ op).len = (W.after a₂ op).len := by
  have hlen (V : Window) (d : ℕ) (hd : d < V.len) : (V.accept d hd).len = V.len := by
    unfold Window.accept
    by_cases hz : V.span = 0 ∧ d = 0
    · rw [if_pos hz]
      rfl
    · rw [if_neg hz]
      rfl
  cases op with
  | mark t =>
    have hne₁ : ¬ (W.len ≤ W.offset t ∧ a₁ = none) := fun h => h₁ h.2
    have hne₂ : ¬ (W.len ≤ W.offset t ∧ a₂ = none) := fun h => h₂ h.2
    by_cases hlt : W.offset t < tsnMapSize
    · simp only [Window.after, dif_pos hlt, if_neg hne₁, if_neg hne₂, Window.receive, hlen]
      unfold Window.room
      by_cases hd : W.len ≤ W.offset t
      · rw [dif_pos hd, dif_pos hd]
        rfl
      · rw [dif_neg hd, dif_neg hd]
    · simp only [Window.after, dif_neg hlt]
  | free => exact absurd rfl hop
  | init | skip | renege | check | pending | iterInit | nextGapAck | numGabs => rfl

end

/-! ### Two runs -/

/-- After every prefix of the calls `ops`, made from `s₁` and from `s₂`, both maps answer every
query alike. -/
def ResultsAgree (s₁ s₂ : TsnState) (ops : List TsnCall) : Prop :=
  ∀ pre, pre <+: ops → ∃ t₁ t₂, Reaches UpdatesInWindow tsnStep s₁ pre t₁ ∧
    Reaches UpdatesInWindow tsnStep s₂ pre t₂ ∧ SameResults t₁.map t₁.heap t₂.map t₂.heap

section

variable {s s' s₁ s₂ : TsnState} {W₁ W₂ : Window} {op : TsnCall} {ops : List TsnCall}
variable {o₁ o₂ : ℕ → Option (ℕ → Word)}

theorem ResultsAgree.snoc_iff : ResultsAgree s₁ s₂ (ops ++ [op]) ↔
    ResultsAgree s₁ s₂ ops ∧ ∃ t₁ t₂, Reaches UpdatesInWindow tsnStep s₁ (ops ++ [op]) t₁ ∧
      Reaches UpdatesInWindow tsnStep s₂ (ops ++ [op]) t₂ ∧
      SameResults t₁.map t₁.heap t₂.map t₂.heap := by
  constructor
  · intro h
    exact ⟨fun pre hpre => h pre (hpre.trans (List.prefix_append _ _)), h _ (List.prefix_refl _)⟩
  · rintro ⟨h, hlast⟩ pre hpre
    rcases List.prefix_concat_iff.mp hpre with rfl | hpre
    · exact hlast
    · exact h pre hpre

theorem ResultsAgree.nil_iff :
    ResultsAgree s₁ s₂ [] ↔ SameResults s₁.map s₁.heap s₂.map s₂.heap := by
  constructor
  · intro h
    obtain ⟨t₁, t₂, ht₁, ht₂, hsame⟩ := h [] (List.prefix_refl _)
    rwa [ht₁.eq_of_nil, ht₂.eq_of_nil] at hsame
  · intro h pre hpre
    obtain rfl := List.prefix_nil.mp hpre
    exact ⟨s₁, s₂, .nil, .nil, h⟩

/-- The second run keeps up with the first: from the same window, the same call leads to a window
that differs at most in what the memory holds. -/
theorem Represents.keeps_up {u : TsnState} {W : Window} (hr : Represents s.map s.heap W)
    (hu : Represents u.map u.heap W) (hop : UpdatesInWindow s op)
    (hnext : u.heap.next = s.heap.next) :
    ∃ u', Returns UpdatesInWindow tsnStep u op u' ∧
      Represents u'.map u'.heap (W.after (u.heap.oracle s.heap.next) op) ∧
      u'.heap.oracle = u.heap.oracle ∧ u'.heap.next = s.heap.next + W.mallocs op := by
  obtain ⟨hfree, hreach⟩ := hr.inWindow hop
  obtain ⟨r, u', hs, hr', ho, hnext'⟩ := hu.step hfree hreach
  rw [hnext] at hr' hnext'
  exact ⟨u', ⟨hr.updatesInWindow_congr hu hop, r, hs⟩, hr', ho, hnext'⟩

/-- **Two runs answer alike exactly if the memories agree where they are fresh**: the first buffers,
which the windows `W₁` and `W₂` show, and every buffer a mark grows into. -/
theorem resultsAgree_iff (h₁ : Available o₁) (h₂ : Available o₂)
    (hr₁ : Represents s₁.map s₁.heap W₁) (hr₂ : Represents s₂.map s₂.heap W₂)
    (hlen : W₁.len = W₂.len) (ho₁ : s₁.heap.oracle = o₁) (ho₂ : s₂.heap.oracle = o₂)
    (hnext : s₁.heap.next = s₂.heap.next)
    (hrun : Reaches UpdatesInWindow tsnStep s₁ ops s) :
    ResultsAgree s₁ s₂ ops ↔ W₁ = W₂ ∧ EveryStep tsnStep (FreshAgree o₁ o₂) s₁ ops := by
  -- the invariant adds that the second run has kept up as long as the memories agree
  set Agree : List TsnCall → Prop := fun ops =>
    W₁ = W₂ ∧ EveryStep tsnStep (FreshAgree o₁ o₂) s₁ ops with hAgree
  suffices h : (ResultsAgree s₁ s₂ ops ↔ Agree ops) ∧
      ∃ W, Represents s.map s.heap W ∧ s.heap.oracle = o₁ ∧
        (Agree ops → ∃ u, Reaches UpdatesInWindow tsnStep s₂ ops u ∧
          Represents u.map u.heap W ∧ u.heap.oracle = o₂ ∧ u.heap.next = s.heap.next) from h.1
  refine hrun.invariant_run (fun ops s => (ResultsAgree s₁ s₂ ops ↔ Agree ops) ∧
      ∃ W, Represents s.map s.heap W ∧ s.heap.oracle = o₁ ∧
        (Agree ops → ∃ u, Reaches UpdatesInWindow tsnStep s₂ ops u ∧
          Represents u.map u.heap W ∧ u.heap.oracle = o₂ ∧ u.heap.next = s.heap.next)) ?_ ?_
  · -- before the first call the two windows are `W₁` and `W₂`
    refine ⟨?_, W₁, hr₁, ho₁, ?_⟩
    · rw [ResultsAgree.nil_iff]
      constructor
      · intro hsame
        exact ⟨Window.eq_of_sameResults hr₁ hr₂ hlen hsame, EveryStep.nil⟩
      · rintro ⟨rfl, -⟩
        exact hr₁.sameResults hr₂
    · rintro ⟨rfl, -⟩
      exact ⟨s₂, .nil, hr₂, ho₂, hnext.symm⟩
  · rintro ops s op s' hrun ⟨hiff, W, hr, ho, hkept⟩ ⟨hop, r, hs⟩
    obtain ⟨hfree, hreach⟩ := hr.inWindow hop
    obtain ⟨hr', ho', hnext'⟩ := hr.of_step hfree hreach hs
    have hrun' : Reaches UpdatesInWindow tsnStep s₁ (ops ++ [op]) s' := hrun.snoc ⟨hop, r, hs⟩
    have hsnoc : Agree (ops ++ [op]) ↔ Agree ops ∧ FreshAgree o₁ o₂ s op := by
      rw [hAgree]
      simp only [EveryStep.snoc_iff (Reaches.forget hrun), and_assoc]
    rw [ho] at hr'
    -- the second run makes the call too, with what its own memory holds
    have hsecond : Agree ops → ∃ u', Reaches UpdatesInWindow tsnStep s₂ (ops ++ [op]) u' ∧
        Represents u'.map u'.heap (W.after (o₂ s.heap.next) op) ∧ u'.heap.oracle = o₂ ∧
        u'.heap.next = s'.heap.next := by
      intro hagree
      obtain ⟨u, hrunu, hu, hou, hnextu⟩ := hkept hagree
      obtain ⟨u', hmove, hu', hou', hnextu'⟩ := hr.keeps_up hu hop hnextu
      rw [hou] at hu'
      exact ⟨u', hrunu.snoc hmove, hu', hou'.trans hou, hnextu'.trans hnext'.symm⟩
    refine ⟨?_, _, hr', ho'.trans ho, ?_⟩
    · rw [ResultsAgree.snoc_iff, hiff, hsnoc]
      refine and_congr_right fun hagree => ?_
      obtain ⟨u', hrunu', hu', -⟩ := hsecond hagree
      rw [← hr.after_eq_iff hop h₁ h₂]
      constructor
      · -- the runs are deterministic, so the states with the same answers are these two
        rintro ⟨t₁, t₂, ht₁, ht₂, hsame⟩
        obtain rfl := Reaches.unique ht₁ hrun'
        obtain rfl := Reaches.unique ht₂ hrunu'
        exact Window.eq_of_sameResults hr' hu' (Window.len_after hfree (h₁ _) (h₂ _)) hsame
      · intro heq
        exact ⟨s', u', hrun', hrunu', hr'.sameResults (heq ▸ hu')⟩
    · intro hagree
      obtain ⟨hagree, hfresh⟩ := hsnoc.mp hagree
      obtain ⟨u', hrunu', hu', hou', hnextu'⟩ := hsecond hagree
      rw [← (hr.after_eq_iff hop h₁ h₂).mpr hfresh] at hu'
      exact ⟨u', hrunu', hu', hou', hnextu'⟩

end

/-- **The results depend on what fresh memory holds, exactly where the code leaves it as it was.**
From one struct and in two memories, for every run of marks, skips and reneges in the window: both
runs answer every query alike after every prefix, if and only if the memories agree on the first
`len` bits of the first buffer and, at each mark that grows the map, on the bits `FreshAgree`
names. -/
theorem results_agree_iff (map : TsnMap) (iter : TsnMapIter) (h : Mem)
    (o₁ o₂ : ℕ → Option (ℕ → Word)) (len : BitVec 16) (initialTsn : Tsn)
    (hnull : map.tsnMap = none) (hpos : 0 < len.toNat) (hle : len.toNat ≤ tsnMapSize)
    (hdvd : 64 ∣ len.toNat) (h₁ : Available o₁) (h₂ : Available o₂) :
    ∃ s₁ s₂, tsnStep ⟨map, iter, { h with oracle := o₁ }⟩ (.init len initialTsn) =
        .ok (.map true, s₁) ∧
      tsnStep ⟨map, iter, { h with oracle := o₂ }⟩ (.init len initialTsn) = .ok (.map true, s₂) ∧
      ∀ ops s, Reaches UpdatesInWindow tsnStep s₁ ops s →
        (ResultsAgree s₁ s₂ ops ↔
          (∀ i, i < len.toNat → contents o₁ h.next i = contents o₂ h.next i) ∧
            EveryStep tsnStep (FreshAgree o₁ o₂) s₁ ops) := by
  obtain ⟨c₁, hc₁⟩ := Option.ne_none_iff_exists'.mp (h₁ h.next)
  obtain ⟨c₂, hc₂⟩ := Option.ne_none_iff_exists'.mp (h₂ h.next)
  obtain ⟨s₁, hinit₁, hr₁, ho₁, hnext₁, -⟩ :=
    step_init (s := ⟨map, iter, { h with oracle := o₁ }⟩) hnull hpos hle hdvd initialTsn hc₁
  obtain ⟨s₂, hinit₂, hr₂, ho₂, hnext₂, -⟩ :=
    step_init (s := ⟨map, iter, { h with oracle := o₂ }⟩) hnull hpos hle hdvd initialTsn hc₂
  refine ⟨s₁, s₂, hinit₁, hinit₂, fun ops s hrun => ?_⟩
  rw [resultsAgree_iff h₁ h₂ hr₁ hr₂ rfl ho₁ ho₂ (hnext₁.trans hnext₂.symm) hrun,
    Window.fresh_eq_iff]
  unfold contents
  rw [hc₁, hc₂]
  rfl

/-- The two memories of the counterexample below. -/
theorem results_agree_iff_dirty :
    ∃ s₁ s₂, tsnStep (.zeroed zeroMemory) (.init 64 0) = .ok (.map true, s₁) ∧
      tsnStep (.zeroed dirtyMemory) (.init 64 0) = .ok (.map true, s₂) ∧
      ∀ ops s, Reaches UpdatesInWindow tsnStep s₁ ops s →
        (ResultsAgree s₁ s₂ ops ↔
          (∀ i, i < 64 → contents zeroMemory 0 i = contents dirtyMemory 0 i) ∧
            EveryStep tsnStep (FreshAgree zeroMemory dirtyMemory) s₁ ops) :=
  results_agree_iff _ ⟨0⟩ (.empty zeroMemory) zeroMemory dirtyMemory 64 0 rfl (by decide)
    (by decide) (by decide) available_zeroMemory available_dirtyMemory

/-- **A number is seen before anything was received**, if the memory held a one there. -/
theorem seen_in_dirty_memory :
    ∃ s₁ s₂, tsnStep (.zeroed zeroMemory) (.init 64 0) = .ok (.map true, s₁) ∧
      tsnStep (.zeroed dirtyMemory) (.init 64 0) = .ok (.map true, s₂) ∧
      vlstpTsnmapCheck s₁.map 0 s₁.heap = .ok 0 ∧ vlstpTsnmapCheck s₂.map 0 s₂.heap = .ok 1 ∧
      ¬ ResultsAgree s₁ s₂ [] := by
  refine ⟨_, _, rfl, rfl, rfl, rfl, fun hagree => ?_⟩
  have hsame := (ResultsAgree.nil_iff.mp hagree).check 0
  exact absurd (Except.ok.inj (show (.ok 1 : Except Fault ℤ) = .ok 0 from hsame)) (by decide)

end Vlstp
