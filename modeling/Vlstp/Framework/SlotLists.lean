import Mathlib.Data.List.Lattice
import Mathlib.Data.List.Nodup
import Mathlib.Logic.Function.Basic

/-!
# Lists whose nodes know what points to them

A list whose head is one pointer, and whose nodes hold the address of the pointer that leads to
them. Such a pointer is a `Slot`: the one of a head, or the `next` of a node, so a node can be taken
out without knowing which of the two is in front of it. Heads and nodes are of different types.

`L.Chain s l e` says that following the pointers from the slot `s` leads through the nodes `l` to
`e`, and that each of these nodes, and the one `e` points to, holds the address of the slot in
front of it. A list of the head `h` is a chain from the slot of `h` to `NULL`. As for rings, an edit
is one surgery (`Chain.graft`), and a memory holds a family of lists (`SlotLinks.Holds`), in which
the surgery on one leaves the others alone (`Holds.graft`).
-/

/-- Where a pointer to a node is kept. -/
inductive Slot (H N : Type)
  | head (h : H)
  | next (n : N)
  deriving DecidableEq

/-- What the slots point to, and which slot each node says it is led to by. -/
@[ext]
structure SlotLinks (H N : Type) where
  ptr : Slot H N → Option N
  pprev : N → Option (Slot H N)

namespace SlotLinks

variable {H N : Type} {L L' : SlotLinks H N} {s : Slot H N} {e : Option N} {x y : N}
  {l pre mid mid' post : List N}

/-! ### Stores -/

section Stores

variable [DecidableEq H] [DecidableEq N]

/-- `*s = v`. -/
def setPtr (L : SlotLinks H N) (s : Slot H N) (v : Option N) : SlotLinks H N :=
  { L with ptr := Function.update L.ptr s v }

/-- `n->pprev = v`. -/
def setPprev (L : SlotLinks H N) (n : N) (v : Option (Slot H N)) : SlotLinks H N :=
  { L with pprev := Function.update L.pprev n v }

@[simp] theorem setPtr_ptr_self (v : Option N) : (L.setPtr s v).ptr s = v :=
  Function.update_self ..

@[simp] theorem setPtr_ptr_of_ne {t : Slot H N} (hne : t ≠ s) (v : Option N) :
    (L.setPtr s v).ptr t = L.ptr t :=
  Function.update_of_ne hne ..

omit [DecidableEq H] in
@[simp] theorem setPprev_ptr (n : N) (v : Option (Slot H N)) :
    (L.setPprev n v).ptr = L.ptr := rfl

@[simp] theorem setPtr_pprev (v : Option N) : (L.setPtr s v).pprev = L.pprev := rfl

omit [DecidableEq H] in
@[simp] theorem setPprev_pprev_self (v : Option (Slot H N)) : (L.setPprev x v).pprev x = v :=
  Function.update_self ..

omit [DecidableEq H] in
@[simp] theorem setPprev_pprev_of_ne (hne : y ≠ x) (v : Option (Slot H N)) :
    (L.setPprev x v).pprev y = L.pprev y :=
  Function.update_of_ne hne ..

end Stores

/-! ### Chains -/

/-- `s` leads to `e`, and the node there, if there is one, says so. -/
def Linked (L : SlotLinks H N) (s : Slot H N) (e : Option N) : Prop :=
  L.ptr s = e ∧ ∀ y, e = some y → L.pprev y = some s

/-- From `s` through `l` to `e`. -/
def Chain (L : SlotLinks H N) (s : Slot H N) : List N → Option N → Prop
  | [], e => L.Linked s e
  | x :: l, e => L.Linked s (some x) ∧ Chain L (.next x) l e

/-- The slot behind the nodes `l`. -/
def lastSlot (s : Slot H N) : List N → Slot H N
  | [] => s
  | x :: l => lastSlot (.next x) l

@[simp] theorem lastSlot_nil : lastSlot s [] = s := rfl

@[simp] theorem lastSlot_cons : lastSlot s (x :: l) = lastSlot (.next x) l := rfl

@[simp] theorem lastSlot_concat : lastSlot s (l ++ [x]) = .next x := by
  induction l generalizing s with
  | nil => rfl
  | cons y l ih => exact ih

theorem lastSlot_eq : lastSlot s l = s ∨ ∃ x ∈ l, lastSlot s l = .next x := by
  induction l generalizing s with
  | nil => exact Or.inl rfl
  | cons x l ih =>
    rcases ih (s := .next x) with heq | ⟨y, hy, heq⟩
    · exact Or.inr ⟨x, List.mem_cons_self .., heq⟩
    · exact Or.inr ⟨y, List.mem_cons_of_mem x hy, heq⟩

/-- The `next` of a node that is not in front of a place is not the slot there. -/
theorem next_ne_lastSlot {h : H} (hx : x ∉ l) : Slot.next x ≠ lastSlot (.head h) l := by
  rcases lastSlot_eq (s := Slot.head h) (l := l) with heq | ⟨y, hy, heq⟩
  · simp [heq]
  · rw [heq]
    rintro ⟨⟩
    exact hx hy

/-- The pointer of another head is not either. -/
theorem head_ne_lastSlot {h h' : H} (hne : h' ≠ h) : Slot.head h' ≠ lastSlot (.head h) l := by
  rcases lastSlot_eq (s := Slot.head h) (l := l) with heq | ⟨y, _, heq⟩
  · rw [heq]
    rintro ⟨⟩
    exact hne rfl
  · simp [heq]

theorem chain_cons_iff : L.Chain s (x :: l) e ↔ L.Linked s (some x) ∧ L.Chain (.next x) l e :=
  Iff.rfl

/-- A chain splits at every node of it. -/
theorem chain_append_iff :
    L.Chain s (pre ++ x :: post) e ↔ L.Chain s pre (some x) ∧ L.Chain (.next x) post e := by
  induction pre generalizing s with
  | nil => exact Iff.rfl
  | cons y pre ih => rw [List.cons_append, chain_cons_iff, ih, chain_cons_iff, and_assoc]

/-- A chain splits at every place of it. -/
theorem Chain.split (hc : L.Chain s (pre ++ post) e) :
    L.Chain s pre (post.head?.or e) ∧ L.Chain (lastSlot s pre) post e := by
  induction pre generalizing s with
  | nil =>
    refine ⟨?_, hc⟩
    cases post with
    | nil => exact hc
    | cons y post => exact hc.1
  | cons x pre ih => exact ⟨⟨hc.1, (ih hc.2).1⟩, (ih hc.2).2⟩

/-- The links at a place of a chain. -/
theorem Chain.seam (hc : L.Chain s (pre ++ post) e) :
    L.Linked (lastSlot s pre) (post.head?.or e) := by
  have hback := hc.split.2
  cases post with
  | nil => exact hback
  | cons y post => exact hback.1

/-- **The frame rule.** A chain reads the slots in front of its nodes and the last one, and what its
nodes and the one it leads to say. -/
theorem Chain.congr (hc : L.Chain s l e)
    (hptr : ∀ t ∈ s :: l.map .next, L'.ptr t = L.ptr t)
    (hpprev : ∀ n, n ∈ l ∨ e = some n → L'.pprev n = L.pprev n) : L'.Chain s l e := by
  induction l generalizing s with
  | nil =>
    refine ⟨(hptr s (List.mem_singleton_self s)).trans hc.1, fun y hy => ?_⟩
    exact (hpprev y (Or.inr hy)).trans (hc.2 y hy)
  | cons x l ih =>
    refine ⟨⟨(hptr s (List.mem_cons_self ..)).trans hc.1.1, fun y hy => ?_⟩, ?_⟩
    · obtain rfl := Option.some.inj hy
      exact (hpprev x (Or.inl (List.mem_cons_self ..))).trans (hc.1.2 x rfl)
    · refine ih hc.2 (fun t ht => hptr t (List.mem_cons_of_mem s ht)) fun n hn => hpprev n ?_
      exact hn.imp_left (List.mem_cons_of_mem x)

/-- **Grafting.** Between two places of a chain the nodes `mid` are replaced by `mid'`. Only the
links at the seam are new. -/
theorem Chain.graft (hc : L.Chain s (pre ++ mid ++ post) none)
    (hs : ∀ n ∈ pre ++ post, s ≠ .next n) (hnodup : (pre ++ post).Nodup)
    (hseam : L'.Chain (lastSlot s pre) mid' post.head?)
    (hptr : ∀ t, (t = s ∨ ∃ n ∈ pre ++ post, t = .next n) → t ≠ lastSlot s pre →
      L'.ptr t = L.ptr t)
    (hpprev : ∀ n ∈ pre ++ post, post.head? ≠ some n → L'.pprev n = L.pprev n) :
    L'.Chain s (pre ++ mid' ++ post) none := by
  induction pre generalizing s with
  | nil =>
    cases post with
    | nil => rwa [List.append_nil]
    | cons y post =>
      obtain ⟨hy, -⟩ := List.nodup_cons.mp hnodup
      refine chain_append_iff.mpr ⟨hseam, (chain_append_iff.mp hc).2.congr ?_ ?_⟩
      · -- behind the seam nothing is written
        intro t ht
        obtain ⟨n, hn, rfl⟩ := List.mem_map.mp (show t ∈ (y :: post).map .next from ht)
        exact hptr _ (Or.inr ⟨n, hn, rfl⟩) (hs n hn).symm
      · rintro n (hn | hn)
        · refine hpprev n (List.mem_cons_of_mem y hn) fun heq => ?_
          obtain rfl := Option.some.inj heq
          exact hy hn
        · cases hn
  | cons x pre ih =>
    obtain ⟨hx, hnodup⟩ := List.nodup_cons.mp hnodup
    have hsx : s ≠ lastSlot (.next x) pre := by
      rcases lastSlot_eq (s := Slot.next x) (l := pre) with heq | ⟨y, hy, heq⟩
      · rw [heq]
        exact hs x (List.mem_cons_self ..)
      · rw [heq]
        exact hs y (List.mem_cons_of_mem x (List.mem_append_left _ hy))
    refine ⟨⟨(hptr s (Or.inl rfl) hsx).trans hc.1.1, fun y hy => ?_⟩, ih hc.2 ?_ hnodup hseam ?_ ?_⟩
    · obtain rfl := Option.some.inj hy
      refine (hpprev x (List.mem_cons_self ..) fun heq => hx ?_).trans (hc.1.2 x rfl)
      exact List.mem_append_right _ (List.mem_of_mem_head? heq)
    · rintro n hn heq
      obtain rfl : x = n := by simpa using heq
      exact hx hn
    · rintro t (rfl | ⟨n, hn, rfl⟩) hne
      · exact hptr _ (Or.inr ⟨x, List.mem_cons_self .., rfl⟩) hne
      · exact hptr _ (Or.inr ⟨n, List.mem_cons_of_mem x hn, rfl⟩) hne
    · exact fun n hn hne => hpprev n (List.mem_cons_of_mem x hn) hne

/-! ### Families of lists -/

/-- The lists of a memory: the nodes behind each head, `none` for a head that has not been
initialised. -/
abbrev Lists (H N : Type) := H → Option (List N)

/-- `n` is on one of the lists. -/
def Lists.On (a : Lists H N) (n : N) : Prop := ∃ h l, a h = some l ∧ n ∈ l

/-- The pointers are those of the lists `a`, no two of which share a node. -/
structure Holds (L : SlotLinks H N) (a : Lists H N) : Prop where
  nodup : ∀ {h l}, a h = some l → l.Nodup
  chain : ∀ {h l}, a h = some l → L.Chain (.head h) l none
  disjoint : ∀ {h l h' l'}, a h = some l → a h' = some l' → h ≠ h' → l.Disjoint l'

/-- Any pointers hold no lists. -/
theorem holds_none (L : SlotLinks H N) : L.Holds fun _ => none where
  nodup ha := by cases ha
  chain ha := by cases ha
  disjoint ha := by cases ha

section Family

variable {a : Lists H N} {h h' : H} {l' : List N}

/-- What is at a place of a list. -/
theorem Holds.seam (hL : L.Holds a) (ha : a h = some (pre ++ post)) :
    L.Linked (lastSlot (.head h) pre) post.head? := by
  have hseam := (hL.chain ha).seam
  rwa [Option.or_none] at hseam

/-- What is in front of a node of a list, and behind it. -/
theorem Holds.seams_of_mem (hL : L.Holds a) (ha : a h = some (pre ++ x :: post)) :
    L.Linked (lastSlot (.head h) pre) (some x) ∧ L.Linked (.next x) post.head? := by
  refine ⟨hL.seam ha, ?_⟩
  have ha' : a h = some ((pre ++ [x]) ++ post) := by simpa using ha
  simpa using hL.seam ha'

/-- **The frame rule.** Stores to nodes that are on no list, and to heads that head none, change no
list. -/
theorem Holds.frame (hL : L.Holds a) (hhead : ∀ h, a h ≠ none → L'.ptr (.head h) = L.ptr (.head h))
    (hnode : ∀ n, a.On n → L'.ptr (.next n) = L.ptr (.next n) ∧ L'.pprev n = L.pprev n) :
    L'.Holds a where
  nodup := hL.nodup
  disjoint := hL.disjoint
  chain {h l} ha := by
    refine (hL.chain ha).congr (fun t ht => ?_) fun n hn => (hnode n ⟨h, l, ha, ?_⟩).2
    · rcases List.mem_cons.mp ht with rfl | ht
      · exact hhead h (by simp [ha])
      · obtain ⟨n, hn, rfl⟩ := List.mem_map.mp ht
        exact (hnode n ⟨h, l, ha, hn⟩).1
    · exact hn.resolve_right (by simp)

variable [DecidableEq H]

/-- The list of `h` is `l`. -/
def Lists.set (a : Lists H N) (h : H) (l : List N) : Lists H N := Function.update a h (some l)

/-- `h` heads no list. -/
def Lists.erase (a : Lists H N) (h : H) : Lists H N := Function.update a h none

@[simp] theorem Lists.set_self (a : Lists H N) (h : H) (l : List N) : a.set h l h = some l :=
  Function.update_self ..

theorem Lists.set_of_ne (hne : h' ≠ h) (l : List N) : a.set h l h' = a h' :=
  Function.update_of_ne hne ..

@[simp] theorem Lists.erase_set (a : Lists H N) (h : H) (l : List N) :
    (a.erase h).set h l = a.set h l :=
  Function.update_idem ..

@[simp] theorem Lists.set_set (a : Lists H N) (h : H) (l l' : List N) :
    (a.set h l).set h l' = a.set h l' :=
  Function.update_idem ..

@[simp] theorem Lists.set_erase (a : Lists H N) (h : H) (l : List N) :
    (a.set h l).erase h = a.erase h :=
  Function.update_idem ..

theorem Lists.set_erase_comm (hne : h ≠ h') (l : List N) :
    (a.set h l).erase h' = (a.erase h').set h l :=
  Function.update_comm hne ..

theorem Lists.erase_eq_some_iff : a.erase h h' = some l ↔ h' ≠ h ∧ a h' = some l := by
  by_cases hh : h' = h
  · subst hh
    simp [Lists.erase]
  · simp [Lists.erase, hh]

theorem Lists.set_eq_some_iff :
    a.set h l h' = some l' ↔ (h' = h ∧ l' = l) ∨ a.erase h h' = some l' := by
  by_cases hh : h' = h
  · subst hh
    simp [eq_comm, Lists.erase]
  · simp [Lists.set_of_ne hh, Lists.erase, hh]

theorem Lists.On.of_erase (hx : (a.erase h).On x) : a.On x := by
  obtain ⟨h', l, ha, hmem⟩ := hx
  exact ⟨h', l, (Lists.erase_eq_some_iff.mp ha).2, hmem⟩

theorem Lists.on_set_iff : (a.set h l).On x ↔ x ∈ l ∨ (a.erase h).On x := by
  constructor
  · rintro ⟨h', l', ha, hx⟩
    rcases Lists.set_eq_some_iff.mp ha with ⟨rfl, rfl⟩ | ha
    · exact Or.inl hx
    · exact Or.inr ⟨h', l', ha, hx⟩
  · rintro (hx | ⟨h', l', ha, hx⟩)
    · exact ⟨h, l, Lists.set_self .., hx⟩
    · exact ⟨h', l', Lists.set_eq_some_iff.mpr (Or.inr ha), hx⟩

/-- What is on a list after an edit was on the old one, or is one of the nodes put in. -/
theorem Lists.On.of_set (hx : (a.set h l).On x) : x ∈ l ∨ a.On x :=
  (Lists.on_set_iff.mp hx).imp_right Lists.On.of_erase

/-- A list dropped from sight. -/
theorem Holds.forget (hL : L.Holds a) (h : H) : L.Holds (a.erase h) where
  nodup ha := hL.nodup (Lists.erase_eq_some_iff.mp ha).2
  chain ha := hL.chain (Lists.erase_eq_some_iff.mp ha).2
  disjoint ha₁ ha₂ hne :=
    hL.disjoint (Lists.erase_eq_some_iff.mp ha₁).2 (Lists.erase_eq_some_iff.mp ha₂).2 hne

/-- The nodes of a list dropped from sight are on no other. -/
theorem Holds.off_forget (hL : L.Holds a) (ha : a h = some l) (hx : x ∈ l) :
    ¬ (a.erase h).On x := by
  rintro ⟨h', l', ha', hx'⟩
  obtain ⟨hne, ha'⟩ := Lists.erase_eq_some_iff.mp ha'
  exact hL.disjoint ha' ha hne hx' hx

/-- A chain of nodes that are on no other list is taken up. -/
theorem Holds.insert (hL : L.Holds (a.erase h)) (hnodup : l.Nodup)
    (hc : L.Chain (.head h) l none) (hoff : ∀ n ∈ l, ¬ (a.erase h).On n) :
    L.Holds (a.set h l) where
  nodup ha := by
    rcases Lists.set_eq_some_iff.mp ha with ⟨rfl, rfl⟩ | ha
    · exact hnodup
    · exact hL.nodup ha
  chain ha := by
    rcases Lists.set_eq_some_iff.mp ha with ⟨rfl, rfl⟩ | ha
    · exact hc
    · exact hL.chain ha
  disjoint {h₁ l₁ h₂ l₂} ha₁ ha₂ hne := by
    rcases Lists.set_eq_some_iff.mp ha₁ with ⟨rfl, rfl⟩ | hb₁
    · rcases Lists.set_eq_some_iff.mp ha₂ with ⟨rfl, rfl⟩ | hb₂
      · exact absurd rfl hne
      · exact fun n hn hn' => hoff n hn ⟨h₂, l₂, hb₂, hn'⟩
    · rcases Lists.set_eq_some_iff.mp ha₂ with ⟨rfl, rfl⟩ | hb₂
      · exact fun n hn hn' => hoff n hn' ⟨h₁, l₁, hb₁, hn⟩
      · exact hL.disjoint hb₁ hb₂ hne

/-- **Grafting in a family.** Between two places of a list the nodes `mid` are replaced by nodes
`mid'` that are on no list. -/
theorem Holds.graft (hL : L.Holds a) (ha : a h = some (pre ++ mid ++ post)) (hnodup : mid'.Nodup)
    (hoff : ∀ n ∈ mid', ¬ a.On n)
    (hseam : L'.Chain (lastSlot (.head h) pre) mid' post.head?)
    (hhead : ∀ h', .head h' ≠ lastSlot (.head h) pre → L'.ptr (.head h') = L.ptr (.head h'))
    (hnext : ∀ n, a.On n → n ∉ mid → .next n ≠ lastSlot (.head h) pre →
      L'.ptr (.next n) = L.ptr (.next n))
    (hpprev : ∀ n, a.On n → n ∉ mid → post.head? ≠ some n → L'.pprev n = L.pprev n) :
    L'.Holds (a.set h (pre ++ mid' ++ post)) := by
  have hold := hL.nodup ha
  have hon {n : N} (hn : n ∈ pre ++ mid ++ post) : a.On n := ⟨h, _, ha, hn⟩
  have hfresh {n : N} (hn : n ∈ mid') : n ∉ pre ++ mid ++ post := fun h => hoff n hn (hon h)
  have hkept {n : N} (hn : n ∈ pre ++ post) : n ∈ pre ++ mid ++ post ∧ n ∉ mid := by grind
  have hchain : L'.Chain (.head h) (pre ++ mid' ++ post) none := by
    refine (hL.chain ha).graft (fun n _ => by simp) (by grind) hseam ?_ ?_
    · rintro t (rfl | ⟨n, hn, rfl⟩) hne
      · exact hhead h hne
      · exact hnext n (hon (hkept hn).1) (hkept hn).2 hne
    · exact fun n hn hne => hpprev n (hon (hkept hn).1) (hkept hn).2 hne
  -- the other lists have none of the nodes that are written, and neither have their heads
  refine Holds.insert ((hL.forget h).frame (fun h' hne => hhead h' ?_) fun n hn => ?_) (by grind)
    hchain fun n hn => ?_
  · refine head_ne_lastSlot fun heq => hne ?_
    rw [heq]
    exact Function.update_self ..
  · have hout : n ∉ pre ++ mid ++ post := fun hmem => hL.off_forget ha hmem hn
    have hslot : Slot.next n ≠ lastSlot (.head h) pre := next_ne_lastSlot (by grind)
    refine ⟨hnext n hn.of_erase (by grind) hslot, hpprev n hn.of_erase (by grind) fun hfirst => ?_⟩
    exact hout (List.mem_append_right _ (List.mem_of_mem_head? hfirst))
  · by_cases hn' : n ∈ mid'
    · exact fun hon' => hoff n hn' hon'.of_erase
    · exact hL.off_forget ha (by grind)

/-- A node taken out is on no list. -/
theorem Holds.off_middle (hL : L.Holds a) (ha : a h = some (pre ++ x :: post)) :
    ¬ (a.set h (pre ++ post)).On x := by
  have hold := hL.nodup ha
  rw [Lists.on_set_iff, not_or]
  exact ⟨by grind, hL.off_forget ha (by simp)⟩

end Family

end SlotLinks
