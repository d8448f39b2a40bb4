import Mathlib.Data.List.Nodup
import Mathlib.Logic.Function.Basic

/-!
# Circular doubly linked lists

A memory of list links is a `Links N`: for every node of the type `N`, where its two pointers lead,
`none` for `NULL`. `L.Chain a l b` says that following `next` from `a` leads through the nodes `l`
to `b`, and following `prev` back the same way. A ring is a chain from its head to itself, whose
nodes are distinct (`Ring`).

Every edit of a ring writes four pointers at most: linking a node in before another
(`Chain.link_end`, `Ring.link`) and taking one out (`Ring.unlink`). A chain depends only on the
pointers between its nodes (`Chain.congr`), which is the frame rule of both. Nothing here depends on
what the nodes are part of.
-/

/-- Where the two pointers of each node lead. -/
@[ext]
structure Links (N : Type) where
  next : N → Option N
  prev : N → Option N

namespace Links

variable {N : Type}

/-- `a->next = b` and `b->prev = a`. -/
def Linked (L : Links N) (a b : N) : Prop := L.next a = some b ∧ L.prev b = some a

/-- From `a` through `l` to `b`, both ways. -/
def Chain (L : Links N) (a : N) : List N → N → Prop
  | [], b => L.Linked a b
  | x :: l, b => L.Linked a x ∧ Chain L x l b

/-- The nodes of `l`, in this order, are linked in a ring with the head `h`, each once. -/
structure Ring (L : Links N) (h : N) (l : List N) : Prop where
  nodup : (h :: l).Nodup
  chain : L.Chain h l h

variable {L L' : Links N} {a b h x : N} {l l₁ l₂ : List N}

theorem chain_cons_iff : L.Chain a (x :: l) b ↔ L.Linked a x ∧ L.Chain x l b := Iff.rfl

/-- A chain splits at every node of it. -/
theorem chain_append_iff : L.Chain a (l₁ ++ x :: l₂) b ↔ L.Chain a l₁ x ∧ L.Chain x l₂ b := by
  induction l₁ generalizing a with
  | nil => exact Iff.rfl
  | cons y l₁ ih => rw [List.cons_append, chain_cons_iff, ih, chain_cons_iff, and_assoc]

/-- **The frame rule.** A chain reads `next` of every node but its last one and `prev` of every node
but its first one. -/
theorem Chain.congr (hc : L.Chain a l b) (hnext : ∀ n ∈ a :: l, L'.next n = L.next n)
    (hprev : ∀ n ∈ l ++ [b], L'.prev n = L.prev n) : L'.Chain a l b := by
  induction l generalizing a with
  | nil =>
    refine ⟨?_, ?_⟩
    · rw [hnext a (List.mem_singleton_self a)]
      exact hc.1
    · rw [hprev b (List.mem_singleton_self b)]
      exact hc.2
  | cons x l ih =>
    obtain ⟨⟨hn, hp⟩, hrest⟩ := hc
    refine ⟨⟨?_, ?_⟩, ih hrest (fun n hn => hnext n (List.mem_cons_of_mem a hn))
      fun n hn => hprev n (List.mem_cons_of_mem x hn)⟩
    · rw [hnext a (List.mem_cons_self ..)]
      exact hn
    · rw [hprev x (List.mem_cons_self ..)]
      exact hp

/-- The node after the first one. -/
theorem Chain.next_eq (hc : L.Chain a l b) : L.next a = some (l.headD b) := by
  cases l with
  | nil => exact hc.1
  | cons x l => exact hc.1.1

/-- The node before the last one. -/
theorem Chain.exists_prev (hc : L.Chain a l b) :
    ∃ z, L.prev b = some z ∧ L.next z = some b ∧ z ∈ a :: l := by
  induction l generalizing a with
  | nil => exact ⟨a, hc.2, hc.1, List.mem_singleton_self a⟩
  | cons x l ih =>
    obtain ⟨z, hp, hn, hz⟩ := ih hc.2
    exact ⟨z, hp, hn, List.mem_cons_of_mem a hz⟩

/-- Following `next` leads through one list of nodes only. -/
theorem Chain.unique {l' : List N} (hc : L.Chain a l b) (hc' : L.Chain a l' b) (hb : b ∉ l)
    (hb' : b ∉ l') : l = l' := by
  induction l generalizing a l' with
  | nil =>
    cases l' with
    | nil => rfl
    | cons y l' =>
      obtain rfl : b = y := Option.some.inj (hc.1.symm.trans hc'.1.1)
      exact absurd (List.mem_cons_self ..) hb'
  | cons x l ih =>
    cases l' with
    | nil =>
      obtain rfl : b = x := Option.some.inj (hc'.1.symm.trans hc.1.1)
      exact absurd (List.mem_cons_self ..) hb
    | cons y l' =>
      obtain rfl : x = y := Option.some.inj (hc.1.1.symm.trans hc'.1.1)
      rw [ih hc.2 hc'.2 (List.not_mem_of_not_mem_cons hb) (List.not_mem_of_not_mem_cons hb')]

/-- In a list without repetitions the last node is not one of those before it. -/
theorem last_notMem {z : N} (hnodup : (a :: (l ++ [z])).Nodup) : z ∉ a :: l := by
  rw [← List.cons_append] at hnodup
  exact fun hz => (List.nodup_append.mp hnodup).2.2 z hz z (List.mem_singleton_self z) rfl

/-- Two memories agree on the pointers of a chain that both hold. -/
theorem Chain.agree (hc : L.Chain a l b) (hc' : L'.Chain a l b) :
    (∀ n ∈ a :: l, L.next n = L'.next n) ∧ ∀ n ∈ l ++ [b], L.prev n = L'.prev n := by
  induction l generalizing a with
  | nil =>
    refine ⟨fun n hn => ?_, fun n hn => ?_⟩
    · rw [List.mem_singleton.mp hn]
      exact hc.1.trans hc'.1.symm
    · rw [List.mem_singleton.mp hn]
      exact hc.2.trans hc'.2.symm
  | cons x l ih =>
    obtain ⟨hnext, hprev⟩ := ih hc.2 hc'.2
    refine ⟨fun n hn => ?_, fun n hn => ?_⟩
    · rcases List.mem_cons.mp hn with rfl | hn
      · exact hc.1.1.trans hc'.1.1.symm
      · exact hnext n hn
    · rcases List.mem_cons.mp hn with rfl | hn
      · exact hc.1.2.trans hc'.1.2.symm
      · exact hprev n hn

/-- A head that points to itself. -/
theorem Ring.empty (hlink : L.Linked h h) : L.Ring h [] := ⟨List.nodup_singleton h, hlink⟩

/-- A memory holds one ring with the head `h`. -/
theorem Ring.unique {l' : List N} (hr : L.Ring h l) (hr' : L.Ring h l') : l = l' :=
  hr.chain.unique hr'.chain (List.nodup_cons.mp hr.nodup).1 (List.nodup_cons.mp hr'.nodup).1

/-- Two memories that hold the same ring agree on its pointers. -/
theorem Ring.agree (hr : L.Ring h l) (hr' : L'.Ring h l) {n : N} (hn : n ∈ h :: l) :
    L.next n = L'.next n ∧ L.prev n = L'.prev n := by
  obtain ⟨hnext, hprev⟩ := hr.chain.agree hr'.chain
  have hturn : n ∈ l ++ [h] := (List.perm_append_singleton h l).mem_iff.mpr hn
  exact ⟨hnext n hn, hprev n hturn⟩

theorem Ring.congr (hr : L.Ring h l) (hnext : ∀ n ∈ h :: l, L'.next n = L.next n)
    (hprev : ∀ n ∈ h :: l, L'.prev n = L.prev n) : L'.Ring h l where
  nodup := hr.nodup
  chain := hr.chain.congr hnext fun n hn => hprev n (by
    rcases List.mem_append.mp hn with hn | hn
    · exact List.mem_cons_of_mem h hn
    · rw [List.mem_singleton.mp hn]
      exact List.mem_cons_self ..)

/-- Every node of a ring points to another one. -/
theorem Ring.next_ne_none (hr : L.Ring h l) (hx : x ∈ h :: l) : L.next x ≠ none := by
  rcases List.mem_cons.mp hx with rfl | hx
  · rw [hr.chain.next_eq]
    exact Option.some_ne_none _
  · obtain ⟨l₁, l₂, rfl⟩ := List.append_of_mem hx
    rw [(chain_append_iff.mp hr.chain).2.next_eq]
    exact Option.some_ne_none _

/-! ### Edits -/

section Edits

variable [DecidableEq N] {new : N}

/-- `p->next = v`. -/
def setNext (L : Links N) (p : N) (v : Option N) : Links N :=
  { L with next := Function.update L.next p v }

/-- `p->prev = v`. -/
def setPrev (L : Links N) (p : N) (v : Option N) : Links N :=
  { L with prev := Function.update L.prev p v }

/-- Link `new` in between `z` and `b`. -/
def linkBetween (L : Links N) (new z b : N) : Links N :=
  (((L.setPrev b (some new)).setNext new (some b)).setPrev new (some z)).setNext z (some new)

/-- Link `z` and `b` to each other. -/
def bypass (L : Links N) (z b : N) : Links N := (L.setPrev b (some z)).setNext z (some b)

@[simp] theorem setNext_next_self (p : N) (v : Option N) : (L.setNext p v).next p = v :=
  Function.update_self ..

@[simp] theorem setPrev_prev_self (p : N) (v : Option N) : (L.setPrev p v).prev p = v :=
  Function.update_self ..

@[simp] theorem setNext_prev (p : N) (v : Option N) : (L.setNext p v).prev = L.prev := rfl

@[simp] theorem setPrev_next (p : N) (v : Option N) : (L.setPrev p v).next = L.next := rfl

theorem setNext_next_of_ne {p n : N} (hn : n ≠ p) (v : Option N) :
    (L.setNext p v).next n = L.next n :=
  Function.update_of_ne hn ..

theorem setPrev_prev_of_ne {p n : N} (hn : n ≠ p) (v : Option N) :
    (L.setPrev p v).prev n = L.prev n :=
  Function.update_of_ne hn ..

theorem linkBetween_next_of_ne {z n : N} (hz : n ≠ z) (hnew : n ≠ new) :
    (L.linkBetween new z b).next n = L.next n := by
  rw [linkBetween, setNext_next_of_ne hz, setPrev_next, setNext_next_of_ne hnew, setPrev_next]

theorem linkBetween_prev_of_ne {z n : N} (hb : n ≠ b) (hnew : n ≠ new) :
    (L.linkBetween new z b).prev n = L.prev n := by
  rw [linkBetween, setNext_prev, setPrev_prev_of_ne hnew, setNext_prev, setPrev_prev_of_ne hb]

theorem bypass_next_of_ne {z n : N} (hz : n ≠ z) : (L.bypass z b).next n = L.next n := by
  rw [bypass, setNext_next_of_ne hz, setPrev_next]

theorem bypass_prev_of_ne {z n : N} (hb : n ≠ b) : (L.bypass z b).prev n = L.prev n := by
  rw [bypass, setNext_prev, setPrev_prev_of_ne hb]

theorem linked_bypass (z : N) : (L.bypass z b).Linked z b :=
  ⟨setNext_next_self .., by rw [bypass, setNext_prev, setPrev_prev_self]⟩

/-- The two links a new node gets. -/
theorem linked_linkBetween {z : N} (hz : z ≠ new) (hb : b ≠ new) :
    (L.linkBetween new z b).Linked z new ∧ (L.linkBetween new z b).Linked new b := by
  refine ⟨⟨setNext_next_self .., ?_⟩, ?_, ?_⟩
  · rw [linkBetween, setNext_prev, setPrev_prev_self]
  · rw [linkBetween, setNext_next_of_ne hz.symm, setPrev_next, setNext_next_self]
  · rw [linkBetween, setNext_prev, setPrev_prev_of_ne hb, setNext_prev, setPrev_prev_self]

/-- Linking a new node in at the end of a chain. -/
theorem Chain.link_end (hc : L.Chain a l b) (hnodup : (a :: l).Nodup) (hb : b ∉ l)
    (hnew : new ∉ a :: l) (hne : new ≠ b) :
    ∃ z, L.prev b = some z ∧ z ∈ a :: l ∧ (L.linkBetween new z b).Chain a (l ++ [new]) b := by
  rcases List.eq_nil_or_concat' l with rfl | ⟨l', z, rfl⟩
  · -- nothing in between: the new node is linked to both ends
    have hz : a ≠ new := fun heq => hnew (heq ▸ List.mem_cons_self ..)
    exact ⟨a, hc.2, List.mem_cons_self .., linked_linkBetween hz hne.symm⟩
  · -- the links up to the last node `z` are left alone
    obtain ⟨hfront, hlast⟩ := chain_append_iff.mp hc
    have hz : z ≠ new := fun heq => hnew (by simp [heq])
    refine ⟨z, hlast.2, by simp, ?_⟩
    rw [List.append_assoc, List.singleton_append]
    refine chain_append_iff.mpr ⟨hfront.congr (fun n hn => ?_) fun n hn => ?_,
      linked_linkBetween hz hne.symm⟩
    · refine linkBetween_next_of_ne ?_ ?_
      · rintro rfl
        exact last_notMem hnodup hn
      · rintro rfl
        exact hnew (by rw [← List.cons_append]; exact List.mem_append_left _ hn)
    · refine linkBetween_prev_of_ne ?_ ?_
      · rintro rfl
        exact hb hn
      · rintro rfl
        exact hnew (List.mem_cons_of_mem a hn)

/-- Replacing the end of a chain by another node. -/
theorem Chain.bypass_end (hc : L.Chain a l x) (hnodup : (a :: l).Nodup) (hb : b ∉ l) :
    ∃ z, L.prev x = some z ∧ z ∈ a :: l ∧ (L.bypass z b).Chain a l b := by
  rcases List.eq_nil_or_concat' l with rfl | ⟨l', z, rfl⟩
  · exact ⟨a, hc.2, List.mem_cons_self .., linked_bypass a⟩
  · -- only `next` of the last node and `prev` of the new end are written
    obtain ⟨hfront, hlast⟩ := chain_append_iff.mp hc
    refine ⟨z, hlast.2, by simp, ?_⟩
    refine chain_append_iff.mpr ⟨hfront.congr (fun n hn => ?_) fun n hn => ?_, linked_bypass z⟩
    · refine bypass_next_of_ne ?_
      rintro rfl
      exact last_notMem hnodup hn
    · refine bypass_prev_of_ne ?_
      rintro rfl
      exact hb hn

/-! ### Edits of a ring -/

/-- **Linking in.** A new node is linked in before the first node of `post`, or before the head. -/
theorem Ring.link {pre post : List N} (hr : L.Ring h (pre ++ post))
    (hnew : new ∉ h :: (pre ++ post)) :
    ∃ z, L.prev (post.headD h) = some z ∧ L.next z = some (post.headD h) ∧ z ∈ h :: pre ∧
      (L.linkBetween new z (post.headD h)).Ring h (pre ++ new :: post) := by
  have hnodup' : (h :: (pre ++ new :: post)).Nodup := by
    -- the new node may as well come first
    have hperm : (h :: (pre ++ new :: post)).Perm (new :: h :: (pre ++ post)) :=
      (List.perm_middle.cons h).trans (List.Perm.swap ..)
    exact hperm.nodup_iff.mpr (List.nodup_cons.mpr ⟨hnew, hr.nodup⟩)
  have hnewpre : new ∉ h :: pre := fun hmem => hnew (by
    rw [← List.cons_append]
    exact List.mem_append_left _ hmem)
  cases post with
  | nil =>
    -- at the end of the ring: the whole of it is the chain in front
    have hchain := hr.chain
    rw [List.append_nil] at hchain
    have hnodup : (h :: pre).Nodup := by
      have := hr.nodup
      rwa [List.append_nil] at this
    obtain ⟨z, hprev, hz, hlinked⟩ := hchain.link_end hnodup (List.nodup_cons.mp hnodup).1 hnewpre
      fun heq => hnewpre (heq ▸ List.mem_cons_self ..)
    obtain ⟨z', hprev', hnext', -⟩ := hchain.exists_prev
    obtain rfl : z' = z := Option.some.inj (hprev'.symm.trans hprev)
    exact ⟨z', hprev, hnext', hz, hnodup', hlinked⟩
  | cons c post =>
    -- before `c`: the chain up to `c` gets a new end, the chain from `c` on stays
    obtain ⟨hfront, hback⟩ := chain_append_iff.mp hr.chain
    have hsplit := hr.nodup
    rw [← List.cons_append] at hsplit
    obtain ⟨hpre, hpost, hdisj⟩ := List.nodup_append.mp hsplit
    have hc : c ∉ h :: pre := fun hmem => hdisj c hmem c (List.mem_cons_self ..) rfl
    have hnewc : new ≠ c := by
      rintro rfl
      exact hnew (by simp)
    have hcpre : c ∉ pre := fun hmem => hc (List.mem_cons_of_mem h hmem)
    obtain ⟨z, hprev, hz, hlinked⟩ := hfront.link_end hpre hcpre hnewpre hnewc
    obtain ⟨z', hprev', hnext', -⟩ := hfront.exists_prev
    obtain rfl : z' = z := Option.some.inj (hprev'.symm.trans hprev)
    refine ⟨z', hprev, hnext', hz, hnodup', ?_⟩
    -- behind the new node nothing changes
    have hrest : (L.linkBetween new z' c).Chain c post h := by
      refine hback.congr (fun n hn => ?_) fun n hn => ?_
      · refine linkBetween_next_of_ne ?_ ?_
        · rintro rfl
          exact hdisj n hz n hn rfl
        · rintro rfl
          exact hnew (List.mem_cons_of_mem h (List.mem_append_right pre hn))
      · refine linkBetween_prev_of_ne ?_ ?_
        · rintro rfl
          rcases List.mem_append.mp hn with hn | hn
          · exact (List.nodup_cons.mp hpost).1 hn
          · exact hc (List.mem_singleton.mp hn ▸ List.mem_cons_self ..)
        · rintro rfl
          rcases List.mem_append.mp hn with hn | hn
          · exact hnew (by simp [hn])
          · exact hnewpre (List.mem_singleton.mp hn ▸ List.mem_cons_self ..)
    have hall := chain_append_iff.mpr ⟨hlinked, hrest⟩
    rwa [List.append_assoc] at hall

/-- **Taking out.** The neighbours of a node of a ring are linked to each other. -/
theorem Ring.unlink {pre post : List N} (hr : L.Ring h (pre ++ x :: post)) :
    ∃ z, L.prev x = some z ∧ L.next x = some (post.headD h) ∧ z ∈ h :: pre ∧
      (L.bypass z (post.headD h)).Ring h (pre ++ post) := by
  obtain ⟨hfront, hback⟩ := chain_append_iff.mp hr.chain
  have hsub : (h :: (pre ++ post)).Sublist (h :: (pre ++ x :: post)) :=
    ((List.sublist_cons_self x post).append_left pre).cons_cons h
  have hnodup' : (h :: (pre ++ post)).Nodup := hr.nodup.sublist hsub
  have hsplit := hr.nodup
  rw [← List.cons_append] at hsplit
  obtain ⟨hpre, hpost, hdisj⟩ := List.nodup_append.mp hsplit
  -- the node behind is the next one or the head, neither of which comes before
  have hb : post.headD h ∉ pre := by
    cases post with
    | nil => exact (List.nodup_cons.mp hpre).1
    | cons c post =>
      exact fun hmem => hdisj c (List.mem_cons_of_mem h hmem) c (by simp) rfl
  obtain ⟨z, hprev, hz, hlinked⟩ := hfront.bypass_end hpre hb
  refine ⟨z, hprev, hback.next_eq, hz, hnodup', ?_⟩
  cases post with
  | nil =>
    rw [List.append_nil]
    exact hlinked
  | cons c post =>
    have hc : c ∉ h :: pre := fun hmem => hdisj c hmem c (by simp) rfl
    -- behind `c` nothing changes
    refine chain_append_iff.mpr ⟨hlinked, hback.2.congr (fun n hn => ?_) fun n hn => ?_⟩
    · refine bypass_next_of_ne ?_
      rintro rfl
      exact hdisj n hz n (List.mem_cons_of_mem x hn) rfl
    · refine bypass_prev_of_ne ?_
      rintro rfl
      rcases List.mem_append.mp hn with hn | hn
      · exact (List.nodup_cons.mp (List.nodup_cons.mp hpost).2).1 hn
      · exact hc (List.mem_singleton.mp hn ▸ List.mem_cons_self ..)

end Edits

end Links
