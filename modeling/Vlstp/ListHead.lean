import Vlstp.Framework.Heap
import Vlstp.Framework.Ring

/-!
# Linked lists (`list.h`)

The list functions the timers use, over the links of any type of nodes. A pointer to a
`struct list_head` is a node or `NULL`, and following `NULL` is a fault. Where an argument is the
address of a `struct list_head` it is a node.

Each function has a lemma about a list that is a ring: `listAdd` and `listAddTail` link a node in,
`listDelInit` takes it out and leaves it linked to itself, and neither touches other nodes.
-/

namespace Vlstp

variable {N : Type} [DecidableEq N]

/-- `p->next`. -/
def readNext (p : Option N) (L : Links N) : Except Fault (Option N) :=
  match p with
  | none => .error .nullDeref
  | some n => .ok (L.next n)

/-- `p->next = v`. -/
def writeNext (p v : Option N) (L : Links N) : Except Fault (Links N) :=
  match p with
  | none => .error .nullDeref
  | some n => .ok (L.setNext n v)

/-- `p->prev = v`. -/
def writePrev (p v : Option N) (L : Links N) : Except Fault (Links N) :=
  match p with
  | none => .error .nullDeref
  | some n => .ok (L.setPrev n v)

/-- `INIT_LIST_HEAD`. -/
def initListHead (list : N) (L : Links N) : Links N :=
  (L.setNext list (some list)).setPrev list (some list)

/-- `__list_add`. -/
def _listAdd (new : N) (prev next : Option N) (L : Links N) : Except Fault (Links N) := do
  let L ← writePrev next (some new) L
  let L := (L.setNext new next).setPrev new prev
  writeNext prev (some new) L

/-- `list_add`. -/
def listAdd (new : N) (head : Option N) (L : Links N) : Except Fault (Links N) := do
  let next ← readNext head L
  _listAdd new head next L

/-- `list_add_tail`. -/
def listAddTail (new head : N) (L : Links N) : Except Fault (Links N) :=
  _listAdd new (L.prev head) (some head) L

/-- `__list_del`. -/
def _listDel (prev next : Option N) (L : Links N) : Except Fault (Links N) := do
  let L ← writePrev next prev L
  writeNext prev next L

/-- `list_del_init`. -/
def listDelInit (entry : N) (L : Links N) : Except Fault (Links N) := do
  let L ← _listDel (L.prev entry) (L.next entry) L
  return initListHead entry L

/-! ### On a ring -/

/-- `L'` has the links of `L` outside the nodes `l`. -/
def SameLinks (L L' : Links N) (l : List N) : Prop :=
  ∀ n, n ∉ l → L'.next n = L.next n ∧ L'.prev n = L.prev n

section

variable {L : Links N} {h x new : N} {l pre post : List N}

omit [DecidableEq N] in
/-- The node after `x`. -/
theorem headD_mem : post.headD h ∈ h :: (pre ++ x :: post) := by
  cases post with
  | nil => exact List.mem_cons_self ..
  | cons c post => simp

theorem linked_initListHead : (initListHead x L).Linked x x :=
  ⟨Links.setNext_next_self .., Links.setPrev_prev_self ..⟩

/-- Initialising a node changes no other. -/
theorem sameLinks_initListHead : SameLinks L (initListHead x L) [x] := by
  intro n hn
  have hne : n ≠ x := fun heq => hn (List.mem_singleton.mpr heq)
  exact ⟨Links.setNext_next_of_ne hne _, Links.setPrev_prev_of_ne hne _⟩

/-- `__list_add`, between the first node of `post`, or the head, and the node before it. -/
theorem _listAdd_ring (hr : L.Ring h (pre ++ post)) (hnew : new ∉ h :: (pre ++ post)) :
    ∃ L', _listAdd new (L.prev (post.headD h)) (some (post.headD h)) L = .ok L' ∧
      L'.Ring h (pre ++ new :: post) ∧ SameLinks L L' (h :: (pre ++ new :: post)) := by
  obtain ⟨z, hprev, -, hz, hring⟩ := hr.link hnew
  -- only the new node and its two neighbours are written
  refine ⟨_, ?_, hring, fun n hn => ?_⟩
  · rw [hprev]
    rfl
  · have hne : ∀ m ∈ h :: (pre ++ new :: post), n ≠ m := fun m hm heq => hn (heq ▸ hm)
    have hzmem : z ∈ h :: (pre ++ new :: post) := by
      rw [← List.cons_append]
      exact List.mem_append_left _ hz
    have hnewne := hne new (by simp)
    exact ⟨Links.linkBetween_next_of_ne (hne z hzmem) hnewne,
      Links.linkBetween_prev_of_ne (hne _ headD_mem) hnewne⟩

/-- `list_add(new, pos->prev)`, for a node `pos` of the ring: `new` comes before it. -/
theorem listAdd_ring (hr : L.Ring h (pre ++ x :: post)) (hnew : new ∉ h :: (pre ++ x :: post)) :
    ∃ L', listAdd new (L.prev x) L = .ok L' ∧ L'.Ring h (pre ++ new :: x :: post) ∧
      SameLinks L L' (h :: (pre ++ new :: x :: post)) := by
  obtain ⟨z, hprev, hnext, -⟩ := hr.link hnew
  obtain ⟨L', hadd, hring, hsame⟩ := _listAdd_ring hr hnew
  refine ⟨L', ?_, hring, hsame⟩
  -- the node after `pos->prev` is `pos` again, so `new` comes in between
  simp only [List.headD_cons] at hprev hnext hadd
  rw [hprev] at hadd
  rw [listAdd, hprev, readNext, Except.ok_bind, hnext]
  exact hadd

/-- `list_add_tail`. -/
theorem listAddTail_ring (hr : L.Ring h l) (hnew : new ∉ h :: l) :
    ∃ L', listAddTail new h L = .ok L' ∧ L'.Ring h (l ++ [new]) ∧
      SameLinks L L' (h :: (l ++ [new])) := by
  have hr' : L.Ring h (l ++ []) := by rwa [List.append_nil]
  exact _listAdd_ring hr' (by rwa [List.append_nil])

/-- `list_del_init` of a node of the ring. -/
theorem listDelInit_ring (hr : L.Ring h (pre ++ x :: post)) :
    ∃ L', listDelInit x L = .ok L' ∧ L'.Ring h (pre ++ post) ∧ L'.Linked x x ∧
      SameLinks L L' (h :: (pre ++ x :: post)) := by
  obtain ⟨z, hprev, hnext, hz, hring⟩ := hr.unlink
  have hx : x ∉ h :: (pre ++ post) := by
    have hperm : (h :: (pre ++ x :: post)).Perm (x :: h :: (pre ++ post)) :=
      (List.perm_middle.cons h).trans (List.Perm.swap ..)
    exact (List.nodup_cons.mp (hperm.nodup_iff.mp hr.nodup)).1
  refine ⟨initListHead x (L.bypass z (post.headD h)), ?_, ?_, linked_initListHead, fun n hn => ?_⟩
  · rw [listDelInit, hprev, hnext]
    rfl
  · -- the node taken out is not one of those left
    have hother (n : N) (hn : n ∈ h :: (pre ++ post)) : n ∉ [x] := by
      rw [List.mem_singleton]
      rintro rfl
      exact hx hn
    exact hring.congr (fun n hn => (sameLinks_initListHead n (hother n hn)).1)
      fun n hn => (sameLinks_initListHead n (hother n hn)).2
  · have hne : ∀ m ∈ h :: (pre ++ x :: post), n ≠ m := fun m hm heq => hn (heq ▸ hm)
    have hzmem : z ∈ h :: (pre ++ x :: post) := by
      rw [← List.cons_append]
      exact List.mem_append_left _ hz
    have hinit := sameLinks_initListHead (L := L.bypass z (post.headD h)) (x := x) n
      fun hmem => hne x (by simp) (List.mem_singleton.mp hmem)
    rw [hinit.1, hinit.2]
    exact ⟨Links.bypass_next_of_ne (hne z hzmem), Links.bypass_prev_of_ne (hne _ headD_mem)⟩

/-- `list_del_init` of a node that is linked to itself changes nothing. -/
theorem listDelInit_self (hself : L.Linked x x) : listDelInit x L = .ok L := by
  -- every store writes back the value that is there
  have hsame : initListHead x ((L.setPrev x (some x)).setNext x (some x)) = L := by
    refine Links.ext (funext fun n => ?_) (funext fun n => ?_)
    · by_cases hn : n = x
      · subst hn
        exact linked_initListHead.1.trans hself.1.symm
      · simp [initListHead, Links.setNext_next_of_ne hn]
    · by_cases hn : n = x
      · subst hn
        exact linked_initListHead.2.trans hself.2.symm
      · simp [initListHead, Links.setPrev_prev_of_ne hn]
  rw [listDelInit, hself.1, hself.2]
  exact congrArg Except.ok hsame

/-- `list_del_init` of a node whose links are `NULL` follows them. -/
theorem listDelInit_null (hnull : L.next x = none) : listDelInit x L = .error .nullDeref := by
  rw [listDelInit, hnull]
  rfl

end

end Vlstp
