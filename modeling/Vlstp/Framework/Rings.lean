import Mathlib.Data.List.Lattice
import Vlstp.Framework.Ring

/-!
# Memories that hold several rings

What a memory of list links is for: a `Rings N` says which nodes head a list, and which nodes that
list has. `L.Holds a` says that the links `L` hold these lists, each as a ring, no two of which
share a node.

An edit is put together of four rules. `Holds.forget` drops a ring from sight, `Holds.frame` is for
stores to nodes that lie on none, `Holds.insert` takes up a ring whose nodes lie on none, and
`Ring.graft` is the surgery on one ring: the nodes between two of its places are replaced by others,
and nothing has to be known but the links at the seam. Taking out (`Holds.takeOut`) and putting in
(`Holds.putIn`) are the two halves every edit of lists is made of.
-/

/-- The lists of a memory: the nodes after each head, `none` for a node that heads no list. -/
abbrev Rings (N : Type) := N → Option (List N)

namespace Rings

variable {N : Type} {a : Rings N} {h h' n : N} {l : List N}

/-- `n` heads one of the lists or is on it. -/
def On (a : Rings N) (n : N) : Prop := ∃ h l, a h = some l ∧ n ∈ h :: l

variable [DecidableEq N]

/-- The list of `h` is `l`. -/
def set (a : Rings N) (h : N) (l : List N) : Rings N := Function.update a h (some l)

/-- `h` heads no list. -/
def erase (a : Rings N) (h : N) : Rings N := Function.update a h none

@[simp] theorem set_self (a : Rings N) (h : N) (l : List N) : a.set h l h = some l :=
  Function.update_self ..

theorem erase_self (a : Rings N) (h : N) : a.erase h h = none := Function.update_self ..

theorem set_of_ne (hne : h' ≠ h) (l : List N) : a.set h l h' = a h' := Function.update_of_ne hne ..

theorem erase_of_ne (hne : h' ≠ h) : a.erase h h' = a h' := Function.update_of_ne hne ..

@[simp] theorem erase_set (a : Rings N) (h : N) (l : List N) : (a.erase h).set h l = a.set h l :=
  Function.update_idem ..

@[simp] theorem set_set (a : Rings N) (h : N) (l l' : List N) :
    (a.set h l).set h l' = a.set h l' :=
  Function.update_idem ..

theorem erase_set_comm (hne : h ≠ h') (l : List N) :
    (a.erase h).set h' l = (a.set h' l).erase h :=
  Function.update_comm hne ..

theorem erase_of_none (ha : a h = none) : a.erase h = a := by
  rw [erase, ← ha, Function.update_eq_self]

theorem erase_eq_some_iff {l : List N} : a.erase h h' = some l ↔ h' ≠ h ∧ a h' = some l := by
  by_cases hh : h' = h
  · subst hh
    simp [erase_self]
  · simp [erase_of_ne hh, hh]

theorem set_eq_some_iff {l l' : List N} :
    a.set h l h' = some l' ↔ (h' = h ∧ l' = l) ∨ a.erase h h' = some l' := by
  by_cases hh : h' = h
  · subst hh
    simp [erase_self, eq_comm]
  · simp [set_of_ne hh, erase_of_ne hh, hh]

theorem On.of_erase (hn : (a.erase h).On n) : a.On n := by
  obtain ⟨h', l, ha, hmem⟩ := hn
  exact ⟨h', l, (erase_eq_some_iff.mp ha).2, hmem⟩

omit [DecidableEq N] in
theorem not_on_none : ¬ On (fun _ => none) n := by
  rintro ⟨h, l, ha, -⟩
  cases ha

theorem on_set_iff : (a.set h l).On n ↔ n ∈ h :: l ∨ (a.erase h).On n := by
  constructor
  · rintro ⟨h', l', ha, hn⟩
    rcases set_eq_some_iff.mp ha with ⟨rfl, rfl⟩ | ha
    · exact Or.inl hn
    · exact Or.inr ⟨h', l', ha, hn⟩
  · rintro (hn | ⟨h', l', ha, hn⟩)
    · exact ⟨h, l, set_self .., hn⟩
    · exact ⟨h', l', set_eq_some_iff.mpr (Or.inr ha), hn⟩

theorem not_on_set (hn : n ∉ h :: l) (ha : ¬ a.On n) : ¬ (a.set h l).On n := by
  rw [on_set_iff, not_or]
  exact ⟨hn, fun hon => ha hon.of_erase⟩

theorem not_on_erase (ha : ¬ a.On n) : ¬ (a.erase h).On n := fun hon => ha hon.of_erase

end Rings

namespace Links

variable {N : Type} {L L' : Links N} {a : Rings N} {h n x : N} {l l' pre mid mid' post : List N}

/-! ### Surgery on one ring -/

/-- The node before the last one. -/
theorem Chain.prev_eq {b : N} (hc : L.Chain x l b) : L.prev b = some (l.getLastD x) := by
  induction l generalizing x with
  | nil => exact hc.2
  | cons y l ih => rw [ih hc.2, List.getLastD_cons]

/-- The front part of a chain. -/
theorem Chain.front {b : N} (hc : L.Chain x (pre ++ post) b) : L.Chain x pre (post.headD b) := by
  cases post with
  | nil => rwa [List.append_nil] at hc
  | cons c post => exact (chain_append_iff.mp hc).1

/-- The two nodes at any place of a ring are linked. -/
theorem Ring.seam (hr : L.Ring h (pre ++ post)) : L.Linked (pre.getLastD h) (post.headD h) := by
  have hback {z : N} (hc : L.Chain z ([] ++ post) h) : L.Linked z (post.headD h) := hc.front
  rcases List.eq_nil_or_concat' pre with rfl | ⟨pre, z, rfl⟩
  · exact hback hr.chain
  · have hchain := hr.chain
    rw [List.append_assoc, List.singleton_append] at hchain
    have hlast : (pre ++ [z]).getLastD h = z := by simp
    rw [hlast]
    exact hback (chain_append_iff.mp hchain).2

/-! ### Reading backwards -/

/-- The links read the other way round. -/
def flip (L : Links N) : Links N := ⟨L.prev, L.next⟩

theorem Chain.flip {b : N} (hc : L.Chain x l b) : L.flip.Chain b l.reverse x := by
  induction l generalizing x with
  | nil => exact hc.symm
  | cons y l ih =>
    rw [List.reverse_cons]
    exact chain_append_iff.mpr ⟨ih hc.2, hc.1.symm⟩

/-- A ring read backwards. -/
theorem Ring.flip (hr : L.Ring h l) : L.flip.Ring h l.reverse where
  nodup := by
    have hnodup := List.nodup_cons.mp hr.nodup
    exact List.nodup_cons.mpr ⟨by simpa using hnodup.1, List.nodup_reverse.mpr hnodup.2⟩
  chain := hr.chain.flip

theorem Ring.of_flip (hr : L.flip.Ring h l.reverse) : L.Ring h l := by
  have hring : L.Ring h l.reverse.reverse := hr.flip
  rwa [List.reverse_reverse] at hring

/-! ### Replacing nodes -/

/-- **Grafting.** Between two places of a ring the nodes `mid` are replaced by `mid'`. Only the
links at the seam are new, so only `next` of the node before and `prev` of the node behind may
differ. -/
theorem Ring.graft (hr : L.Ring h (pre ++ mid ++ post))
    (hnodup : (h :: (pre ++ mid' ++ post)).Nodup)
    (hseam : L'.Chain (pre.getLastD h) mid' (post.headD h))
    (hnext : ∀ n ∈ h :: (pre ++ post), n ≠ pre.getLastD h → L'.next n = L.next n)
    (hprev : ∀ n ∈ h :: (pre ++ post), n ≠ post.headD h → L'.prev n = L.prev n) :
    L'.Ring h (pre ++ mid' ++ post) := by
  refine ⟨hnodup, ?_⟩
  have hchain := hr.chain
  have hold := hr.nodup
  -- what comes behind the seam, as a chain from the node before it
  have hback (z : N) (hz : L'.Chain z mid' (post.headD h)) : L'.Chain z (mid' ++ post) h := by
    cases post with
    | nil => rwa [List.append_nil]
    | cons c post =>
      refine chain_append_iff.mpr ⟨hz, (chain_append_iff.mp hchain).2.congr ?_ ?_⟩
      · intro n hn
        refine hnext n (by simp_all) ?_
        rintro rfl
        rcases List.eq_nil_or_concat' pre with rfl | ⟨pre, z, rfl⟩
        · simp_all
        · simp_all
          grind
      · intro n hn
        refine hprev n (by grind) ?_
        rintro rfl
        grind
  rcases List.eq_nil_or_concat' pre with rfl | ⟨pre, z, rfl⟩
  · exact hback h hseam
  · rw [List.append_assoc, List.append_assoc, List.singleton_append]
    rw [List.append_assoc, List.append_assoc, List.singleton_append] at hchain
    have hlast : (pre ++ [z]).getLastD h = z := by simp
    rw [hlast] at hseam
    refine chain_append_iff.mpr ⟨(chain_append_iff.mp hchain).1.congr ?_ ?_, hback z hseam⟩
    · intro n hn
      refine hnext n (by grind) ?_
      rintro rfl
      rw [hlast] at hn
      grind
    · intro n hn
      refine hprev n (by grind) ?_
      rintro rfl
      cases post with
      | nil => grind
      | cons c post => grind

/-- **Anchoring anew.** The nodes of a chain are linked to two other ends. -/
theorem Chain.reanchor {b a' b' : N} (hc : L.Chain x l b) (hnodup : l.Nodup) (hne : l ≠ [])
    (hfirst : L'.Linked a' (l.headD a')) (hlast : L'.Linked (l.getLastD b') b')
    (hnext : ∀ n ∈ l, n ≠ l.getLastD b' → L'.next n = L.next n)
    (hprev : ∀ n ∈ l, n ≠ l.headD a' → L'.prev n = L.prev n) : L'.Chain a' l b' := by
  cases l with
  | nil => exact absurd rfl hne
  | cons y l =>
    refine ⟨hfirst, ?_⟩
    rcases List.eq_nil_or_concat' l with rfl | ⟨l, z, rfl⟩
    · exact hlast
    · -- between the first node and the last one the links are the old ones
      have hz : (y :: (l ++ [z])).getLastD b' = z := by
        rw [List.getLastD_cons]
        exact List.getLastD_concat
      rw [hz] at hlast hnext
      refine chain_append_iff.mpr ⟨(chain_append_iff.mp hc.2).1.congr ?_ ?_, hlast⟩
      · intro n hn
        refine hnext n (by grind) ?_
        rintro rfl
        exact last_notMem hnodup hn
      · intro n hn
        refine hprev n (by grind) ?_
        rintro rfl
        exact (List.nodup_cons.mp hnodup).1 hn

/-! ### Families of rings -/

/-- The links hold the lists `a`: each is a ring, and no two share a node. -/
structure Holds (L : Links N) (a : Rings N) : Prop where
  ring : ∀ {h l}, a h = some l → L.Ring h l
  disjoint : ∀ {h l h' l'}, a h = some l → a h' = some l' → h ≠ h' →
    (h :: l).Disjoint (h' :: l')

/-- Any links hold no lists. -/
theorem Holds.none (L : Links N) : L.Holds fun _ => none where
  ring ha := by cases ha
  disjoint ha := by cases ha

/-- **The frame rule.** Stores to nodes that lie on no list change none. -/
theorem Holds.frame (hL : L.Holds a)
    (hsame : ∀ n, a.On n → L'.next n = L.next n ∧ L'.prev n = L.prev n) : L'.Holds a where
  ring ha := (hL.ring ha).congr (fun n hn => (hsame n ⟨_, _, ha, hn⟩).1)
    fun n hn => (hsame n ⟨_, _, ha, hn⟩).2
  disjoint := hL.disjoint

/-- A node lies on one list only. -/
theorem Holds.eq_of_mem (hL : L.Holds a) {h' : N} (ha : a h = some l) (ha' : a h' = some l')
    (hn : n ∈ h :: l) (hn' : n ∈ h' :: l') : h = h' := by
  by_contra hne
  exact hL.disjoint ha ha' hne hn hn'

section Update

variable [DecidableEq N]

/-- Stores to a node that lies on no list. -/
theorem Holds.setNext (hL : L.Holds a) (hx : ¬ a.On x) (v : Option N) :
    (L.setNext x v).Holds a := by
  refine hL.frame fun n hn => ⟨setNext_next_of_ne ?_ v, rfl⟩
  rintro rfl
  exact hx hn

theorem Holds.setPrev (hL : L.Holds a) (hx : ¬ a.On x) (v : Option N) :
    (L.setPrev x v).Holds a := by
  refine hL.frame fun n hn => ⟨rfl, setPrev_prev_of_ne ?_ v⟩
  rintro rfl
  exact hx hn

/-- A list dropped from sight. -/
theorem Holds.forget (hL : L.Holds a) (h : N) : L.Holds (a.erase h) where
  ring ha := hL.ring (Rings.erase_eq_some_iff.mp ha).2
  disjoint ha₁ ha₂ hne :=
    hL.disjoint (Rings.erase_eq_some_iff.mp ha₁).2 (Rings.erase_eq_some_iff.mp ha₂).2 hne

/-- The nodes of a list dropped from sight lie on no other. -/
theorem Holds.off_forget (hL : L.Holds a) (ha : a h = some l) (hn : n ∈ h :: l) :
    ¬ (a.erase h).On n := by
  rintro ⟨h', l', ha', hn'⟩
  obtain ⟨hh, ha'⟩ := Rings.erase_eq_some_iff.mp ha'
  exact hh (hL.eq_of_mem ha ha' hn hn').symm

/-- A ring of nodes that lie on no list is taken up. -/
theorem Holds.insert (hL : L.Holds a) (hr : L.Ring h l) (hoff : ∀ n ∈ h :: l, ¬ a.On n) :
    L.Holds (a.set h l) where
  ring {h' l'} ha := by
    rcases Rings.set_eq_some_iff.mp ha with ⟨rfl, rfl⟩ | ha
    · exact hr
    · exact (hL.forget h).ring ha
  disjoint {h₁ l₁ h₂ l₂} ha₁ ha₂ hne := by
    -- a list other than the new one has none of its nodes
    have hother {h' : N} {l' : List N} (ha : a.erase h h' = some l') :
        (h' :: l').Disjoint (h :: l) :=
      fun n hn hn' => hoff n hn' ⟨h', l', (Rings.erase_eq_some_iff.mp ha).2, hn⟩
    rcases Rings.set_eq_some_iff.mp ha₁ with ⟨rfl, rfl⟩ | hb₁
    · rcases Rings.set_eq_some_iff.mp ha₂ with ⟨rfl, rfl⟩ | hb₂
      · exact absurd rfl hne
      · exact (hother hb₂).symm
    · rcases Rings.set_eq_some_iff.mp ha₂ with ⟨rfl, rfl⟩ | hb₂
      · exact hother hb₁
      · exact (hL.forget h).disjoint hb₁ hb₂ hne

/-- **Grafting in a family.** Between two places of a list the nodes `mid` are replaced by nodes
`mid'` that lie on no list. -/
theorem Holds.graft (hL : L.Holds a) (ha : a h = some (pre ++ mid ++ post)) (hnodup : mid'.Nodup)
    (hoff : ∀ n ∈ mid', ¬ a.On n)
    (hseam : L'.Chain (pre.getLastD h) mid' (post.headD h))
    (hnext : ∀ n, a.On n → n ∉ mid → n ≠ pre.getLastD h → L'.next n = L.next n)
    (hprev : ∀ n, a.On n → n ∉ mid → n ≠ post.headD h → L'.prev n = L.prev n) :
    L'.Holds (a.set h (pre ++ mid' ++ post)) := by
  have hold := (hL.ring ha).nodup
  have hon {n : N} (hn : n ∈ h :: (pre ++ mid ++ post)) : a.On n := ⟨h, _, ha, hn⟩
  have hmid' {n : N} (hn : n ∈ mid') : n ∉ h :: (pre ++ mid ++ post) := fun h => hoff n hn (hon h)
  have hnew : (h :: (pre ++ mid' ++ post)).Nodup := by grind
  have hkept {n : N} (hn : n ∈ h :: (pre ++ post)) : n ∉ mid := by grind
  have hsub {n : N} (hn : n ∈ h :: (pre ++ post)) : n ∈ h :: (pre ++ mid ++ post) := by grind
  have hring : L'.Ring h (pre ++ mid' ++ post) := (hL.ring ha).graft hnew hseam
    (fun n hn => hnext n (hon (hsub hn)) (hkept hn))
    fun n hn => hprev n (hon (hsub hn)) (hkept hn)
  -- the other lists have none of the nodes that are written
  rw [← Rings.erase_set]
  refine Holds.insert ((hL.forget h).frame fun n hn => ?_) hring fun n hn => ?_
  · have hout : n ∉ h :: (pre ++ mid ++ post) := fun hmem => hL.off_forget ha hmem hn
    have hp : pre.getLastD h ∈ h :: pre := List.getLastD_mem_cons ..
    have hq : post.headD h ∈ h :: post := by cases post <;> simp
    exact ⟨hnext n hn.of_erase (by grind) (by grind), hprev n hn.of_erase (by grind) (by grind)⟩
  · by_cases hn' : n ∈ mid'
    · exact fun hon' => hoff n hn' hon'.of_erase
    · exact hL.off_forget ha (by grind)

/-- Nodes taken out lie on no list. -/
theorem Holds.off_of_mem (hL : L.Holds a) (ha : a h = some (pre ++ mid ++ post)) (hn : n ∈ mid) :
    ¬ (a.set h (pre ++ post)).On n := by
  have hold := (hL.ring ha).nodup
  rw [Rings.on_set_iff, not_or]
  exact ⟨by grind, hL.off_forget ha (by grind)⟩

/-- One node taken out lies on no list. -/
theorem Holds.off_middle (hL : L.Holds a) (ha : a h = some (pre ++ x :: post)) :
    ¬ (a.set h (pre ++ post)).On x := by
  have ha' : a h = some (pre ++ [x] ++ post) := by simpa using ha
  exact hL.off_of_mem ha' (List.mem_singleton_self x)

end Update

end Links
