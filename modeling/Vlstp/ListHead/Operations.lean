import Mathlib.Data.List.Rotate
import Vlstp.Framework.Rings
import Vlstp.ListHead

/-!
# Operations on linked lists (`list.h`)

The functions of `list.h` the timers do not use, and what each of all of them does to a memory that
holds several lists (`Links.Holds`). A place of a list is where it is split, `pre ++ post`: the node
before it is the last of `pre` or the head, the node behind it the first of `post` or the head.

`list_del` leaves the poison pointers in the entry. What they are depends on the configuration, so
they are arguments: nothing depends on them but what the entry taken out holds.
-/

namespace Vlstp

variable {N : Type} [DecidableEq N]

/-! ### Definitions -/

/-- `__list_del_entry`. -/
def _listDelEntry (entry : N) (L : Links N) : Except Fault (Links N) :=
  _listDel (L.prev entry) (L.next entry) L

/-- `list_del`, which leaves `LIST_POISON1` and `LIST_POISON2`. -/
def listDel (poison1 poison2 : Option N) (entry : N) (L : Links N) : Except Fault (Links N) := do
  let L ← _listDel (L.prev entry) (L.next entry) L
  return (L.setNext entry poison1).setPrev entry poison2

/-- `list_replace`. -/
def listReplace (old new : N) (L : Links N) : Except Fault (Links N) := do
  let L := L.setNext new (L.next old)
  let L ← writePrev (L.next new) (some new) L
  let L := L.setPrev new (L.prev old)
  writeNext (L.prev new) (some new) L

/-- `list_replace_init`. -/
def listReplaceInit (old new : N) (L : Links N) : Except Fault (Links N) := do
  let L ← listReplace old new L
  return initListHead old L

/-- `list_move`. -/
def listMove (list head : N) (L : Links N) : Except Fault (Links N) := do
  let L ← _listDelEntry list L
  listAdd list (some head) L

/-- `list_move_tail`. -/
def listMoveTail (list head : N) (L : Links N) : Except Fault (Links N) := do
  let L ← _listDelEntry list L
  listAddTail list head L

/-- `list_is_last`. -/
def listIsLast (list head : N) (L : Links N) : Bool := L.next list == some head

/-- `list_empty`. -/
def listEmpty (head : N) (L : Links N) : Bool := L.next head == some head

/-- `list_empty_careful`. -/
def listEmptyCareful (head : N) (L : Links N) : Bool :=
  let next := L.next head
  next == some head && next == L.prev head

/-- `list_rotate_left`. -/
def listRotateLeft (head : N) (L : Links N) : Except Fault (Links N) :=
  if !listEmpty head L then
    match L.next head with
    | none => .error .nullDeref
    | some first => listMoveTail first head L
  else .ok L

/-- `list_is_singular`. -/
def listIsSingular (head : N) (L : Links N) : Bool :=
  !listEmpty head L && L.next head == L.prev head

/-- `__list_cut_position`. -/
def _listCutPosition (list head entry : N) (L : Links N) : Except Fault (Links N) := do
  let newFirst := L.next entry
  let L := L.setNext list (L.next head)
  let L ← writePrev (L.next list) (some list) L
  let L := L.setPrev list (some entry)
  let L := L.setNext entry (some list)
  let L := L.setNext head newFirst
  writePrev newFirst (some head) L

/-- `list_cut_position`. -/
def listCutPosition (list head entry : N) (L : Links N) : Except Fault (Links N) :=
  if listEmpty head L then .ok L
  else if listIsSingular head L && (L.next head != some entry && head != entry) then .ok L
  else if entry = head then .ok (initListHead list L)
  else _listCutPosition list head entry L

/-- `__list_splice`. -/
def _listSplice (list : N) (prev next : Option N) (L : Links N) : Except Fault (Links N) := do
  let first := L.next list
  let last := L.prev list
  let L ← writePrev first prev L
  let L ← writeNext prev first L
  let L ← writeNext last next L
  writePrev next last L

/-- `list_splice`. -/
def listSplice (list head : N) (L : Links N) : Except Fault (Links N) :=
  if !listEmpty list L then _listSplice list (some head) (L.next head) L else .ok L

/-- `list_splice_tail`. -/
def listSpliceTail (list head : N) (L : Links N) : Except Fault (Links N) :=
  if !listEmpty list L then _listSplice list (L.prev head) (some head) L else .ok L

/-- `list_splice_init`. -/
def listSpliceInit (list head : N) (L : Links N) : Except Fault (Links N) :=
  if !listEmpty list L then do
    let L ← _listSplice list (some head) (L.next head) L
    return initListHead list L
  else .ok L

/-- `list_splice_tail_init`. -/
def listSpliceTailInit (list head : N) (L : Links N) : Except Fault (Links N) :=
  if !listEmpty list L then do
    let L ← _listSplice list (L.prev head) (some head) L
    return initListHead list L
  else .ok L

/-! ### One place of a list -/

section

variable {L : Links N} {a : Rings N} {h x new : N} {l pre post : List N}

/-- Initialising a node that lies on no list makes it the head of an empty one. -/
theorem initListHead_holds (hL : L.Holds a) (hx : ¬ a.On x) :
    (initListHead x L).Holds (a.set x []) := by
  refine ((hL.setNext hx _).setPrev hx _).insert (Links.Ring.empty linked_initListHead) ?_
  exact fun n hn => by rwa [List.mem_singleton.mp hn]

/-- `__list_add` at a place of a list. -/
theorem _listAdd_holds (hL : L.Holds a) (ha : a h = some (pre ++ post)) (hnew : ¬ a.On new) :
    ∃ L', _listAdd new (some (pre.getLastD h)) (some (post.headD h)) L = .ok L' ∧
      L'.Holds (a.set h (pre ++ new :: post)) := by
  refine ⟨L.linkBetween new (pre.getLastD h) (post.headD h), rfl, ?_⟩
  have hp : pre.getLastD h ∈ h :: pre := List.getLastD_mem_cons ..
  have hq : post.headD h ∈ h :: post := by cases post <;> simp
  have hoff {n : N} (hn : a.On n) : n ≠ new := by
    rintro rfl
    exact hnew hn
  have hpnew : pre.getLastD h ≠ new := hoff ⟨h, _, ha, by grind⟩
  have hqnew : post.headD h ≠ new := hoff ⟨h, _, ha, by grind⟩
  have hseam := Links.linked_linkBetween (L := L) hpnew hqnew
  have ha' : a h = some (pre ++ [] ++ post) := by simpa using ha
  have hgraft := hL.graft ha'
    (List.nodup_singleton new) (fun n hn => by rwa [List.mem_singleton.mp hn]) hseam
    (fun n hn _ hne => Links.linkBetween_next_of_ne hne (hoff hn))
    fun n hn _ hne => Links.linkBetween_prev_of_ne hne (hoff hn)
  simpa using hgraft

/-- `list_add` after a node. -/
theorem listAdd_holds (hL : L.Holds a) (ha : a h = some (pre ++ post)) (hnew : ¬ a.On new) :
    ∃ L', listAdd new (some (pre.getLastD h)) L = .ok L' ∧
      L'.Holds (a.set h (pre ++ new :: post)) := by
  rw [listAdd, readNext, (hL.ring ha).seam.1, Except.ok_bind]
  exact _listAdd_holds hL ha hnew

/-- `list_add_tail` before a node. -/
theorem listAddTail_holds (hL : L.Holds a) (ha : a h = some (pre ++ post)) (hnew : ¬ a.On new) :
    ∃ L', listAddTail new (post.headD h) L = .ok L' ∧
      L'.Holds (a.set h (pre ++ new :: post)) := by
  rw [listAddTail, (hL.ring ha).seam.2]
  exact _listAdd_holds hL ha hnew

/-- `__list_del_entry`. -/
theorem _listDelEntry_holds (hL : L.Holds a) (ha : a h = some (pre ++ x :: post)) :
    ∃ L', _listDelEntry x L = .ok L' ∧ L'.Holds (a.set h (pre ++ post)) := by
  have hbefore : L.Linked (pre.getLastD h) x := (hL.ring ha).seam
  have hbehind : L.Linked x (post.headD h) := by
    have ha' : a h = some ((pre ++ [x]) ++ post) := by simpa using ha
    simpa using (hL.ring ha').seam
  refine ⟨L.bypass (pre.getLastD h) (post.headD h), ?_, ?_⟩
  · rw [_listDelEntry, hbefore.2, hbehind.1]
    rfl
  · have ha' : a h = some (pre ++ [x] ++ post) := by simpa using ha
    have hgraft := hL.graft ha' List.nodup_nil
      (fun n hn => absurd hn List.not_mem_nil) (Links.linked_bypass (L := L) (pre.getLastD h))
      (fun n _ _ hne => Links.bypass_next_of_ne hne) fun n _ _ hne => Links.bypass_prev_of_ne hne
    simpa using hgraft

/-- `list_del`: the entry holds the poison pointers. -/
theorem listDel_holds (hL : L.Holds a) (ha : a h = some (pre ++ x :: post))
    (poison1 poison2 : Option N) :
    ∃ L', listDel poison1 poison2 x L = .ok L' ∧ L'.Holds (a.set h (pre ++ post)) ∧
      L'.next x = poison1 ∧ L'.prev x = poison2 := by
  obtain ⟨L', hdel, hL'⟩ := _listDelEntry_holds hL ha
  have hx := hL.off_middle ha
  refine ⟨(L'.setNext x poison1).setPrev x poison2, ?_, (hL'.setNext hx _).setPrev hx _,
    Links.setNext_next_self .., Links.setPrev_prev_self ..⟩
  rw [listDel, show _listDel (L.prev x) (L.next x) L = .ok L' from hdel]
  rfl

/-- `__list_del_entry` of a node that is linked to itself. -/
theorem _listDelEntry_empty_holds (hL : L.Holds a) (hx : a x = some []) :
    ∃ L', _listDelEntry x L = .ok L' ∧ L'.Holds (a.erase x) := by
  have hself : L.Linked x x := (hL.ring hx).chain
  have hoff := hL.off_forget hx (List.mem_cons_self ..)
  refine ⟨L.bypass x x, ?_, ((hL.forget x).setPrev hoff _).setNext hoff _⟩
  rw [_listDelEntry, hself.1, hself.2]
  rfl

/-- `list_del` of a node that is linked to itself. -/
theorem listDel_empty_holds (hL : L.Holds a) (hx : a x = some []) (poison1 poison2 : Option N) :
    ∃ L', listDel poison1 poison2 x L = .ok L' ∧ L'.Holds (a.erase x) ∧
      L'.next x = poison1 ∧ L'.prev x = poison2 := by
  obtain ⟨L', hdel, hL'⟩ := _listDelEntry_empty_holds hL hx
  have hoff := hL.off_forget hx (List.mem_cons_self ..)
  refine ⟨(L'.setNext x poison1).setPrev x poison2, ?_, (hL'.setNext hoff _).setPrev hoff _,
    Links.setNext_next_self .., Links.setPrev_prev_self ..⟩
  rw [listDel, show _listDel (L.prev x) (L.next x) L = .ok L' from hdel]
  rfl

/-- `list_del_init` of a node on a list: it heads an empty list. -/
theorem listDelInit_holds (hL : L.Holds a) (ha : a h = some (pre ++ x :: post)) :
    ∃ L', listDelInit x L = .ok L' ∧ L'.Holds ((a.set h (pre ++ post)).set x []) := by
  obtain ⟨L', hdel, hL'⟩ := _listDelEntry_holds hL ha
  have hx := hL.off_middle ha
  refine ⟨initListHead x L', ?_, initListHead_holds hL' hx⟩
  rw [listDelInit, show _listDel (L.prev x) (L.next x) L = .ok L' from hdel]
  rfl

omit [DecidableEq N] in
/-- The links before and behind a node on a list. -/
theorem linked_of_mem (hL : L.Holds a) (ha : a h = some (pre ++ x :: post)) :
    L.Linked (pre.getLastD h) x ∧ L.Linked x (post.headD h) := by
  refine ⟨(hL.ring ha).seam, ?_⟩
  have ha' : a h = some ((pre ++ [x]) ++ post) := by simpa using ha
  simpa using (hL.ring ha').seam

/-- `list_replace` links the new node in between the neighbours of the old one. The pointer
`old->prev` is read after a store to the node behind, so that node must not be `old`. -/
theorem listReplace_eq {p q : N} (hprev : L.prev x = some p) (hnext : L.next x = some q)
    (hq : x ≠ q) : listReplace x new L = .ok (L.linkBetween new p q) := by
  have hread : ((L.setNext new (some q)).setPrev q (some new)).prev x = some p :=
    (Links.setPrev_prev_of_ne hq _).trans hprev
  simp only [listReplace, hnext, Links.setNext_next_self, writePrev, Except.ok_bind]
  rw [hread, Links.setPrev_prev_self]
  rfl

/-- `list_replace` of a node on a list. -/
theorem listReplace_holds (hL : L.Holds a) (ha : a h = some (pre ++ x :: post))
    (hnew : ¬ a.On new) :
    ∃ L', listReplace x new L = .ok L' ∧ L'.Holds (a.set h (pre ++ new :: post)) := by
  have hnodup := (hL.ring ha).nodup
  obtain ⟨hbefore, hbehind⟩ := linked_of_mem hL ha
  have hp : pre.getLastD h ∈ h :: pre := List.getLastD_mem_cons ..
  have hq : post.headD h ∈ h :: post := by cases post <;> simp
  have hoff {n : N} (hn : a.On n) : n ≠ new := by
    rintro rfl
    exact hnew hn
  have hpnew : pre.getLastD h ≠ new := hoff ⟨h, _, ha, by grind⟩
  have hqnew : post.headD h ≠ new := hoff ⟨h, _, ha, by grind⟩
  have hqx : x ≠ post.headD h := by grind
  refine ⟨_, listReplace_eq hbefore.2 hbehind.1 hqx, ?_⟩
  have hseam := Links.linked_linkBetween (L := L) hpnew hqnew
  have ha' : a h = some (pre ++ [x] ++ post) := by simpa using ha
  have hgraft := hL.graft ha'
    (List.nodup_singleton new) (fun n hn => by rwa [List.mem_singleton.mp hn]) hseam
    (fun n hn _ hne => Links.linkBetween_next_of_ne hne (hoff hn))
    fun n hn _ hne => Links.linkBetween_prev_of_ne hne (hoff hn)
  simpa using hgraft

/-- `list_replace` of a head: the new node heads the list. An empty head is overwritten: `new` ends
up linked to itself, because `old->prev` has become `new` by the time it is read. -/
theorem listReplace_head_holds (hL : L.Holds a) (ha : a x = some l) (hnew : ¬ a.On new) :
    ∃ L', listReplace x new L = .ok L' ∧ L'.Holds ((a.erase x).set new l) := by
  have hr := hL.ring ha
  have hx : ¬ (a.erase x).On x := hL.off_forget ha (List.mem_cons_self ..)
  have hnew' : ¬ (a.erase x).On new := fun h => hnew h.of_erase
  have hxnew : x ≠ new := by
    rintro rfl
    exact hnew ⟨x, l, ha, List.mem_cons_self ..⟩
  cases l with
  | nil =>
    -- an empty head: the store to `old->next->prev` is one to `old->prev`
    have hself : L.next x = some x := hr.chain.1
    refine ⟨((((L.setNext new (some x)).setPrev x (some new)).setPrev new (some new)).setNext new
      (some new)), ?_, ?_⟩
    · simp only [listReplace, hself, Links.setNext_next_self, writePrev, Except.ok_bind,
        Links.setPrev_prev_self]
      rfl
    · refine ((((hL.forget x).setNext hnew' _).setPrev hx _).setPrev hnew' _).setNext hnew' _
        |>.insert (Links.Ring.empty ⟨Links.setNext_next_self .., Links.setPrev_prev_self ..⟩) ?_
      exact fun n hn => by rwa [List.mem_singleton.mp hn]
  | cons c t =>
    have hnodup := hr.nodup
    have hlast : t.getLastD c ∈ c :: t := List.getLastD_mem_cons ..
    have hother {n : N} (hn : n ∈ x :: c :: t) : n ≠ new := by
      rintro rfl
      exact hnew ⟨x, _, ha, hn⟩
    have hoff {n : N} (hn : n ∈ x :: c :: t) : ¬ (a.erase x).On n := hL.off_forget ha hn
    have hprev : L.prev x = some (t.getLastD c) := by
      rw [hr.chain.prev_eq, List.getLastD_cons]
    refine ⟨_, listReplace_eq hprev hr.chain.next_eq (by grind), ?_⟩
    obtain ⟨hlinked, hlinked'⟩ := Links.linked_linkBetween (L := L) (z := t.getLastD c) (b := c)
      (hother (by grind)) (hother (by grind))
    have hring : (L.linkBetween new (t.getLastD c) c).Ring new (c :: t) := by
      refine ⟨by grind, hr.chain.reanchor (by grind) (by simp) hlinked' ?_ ?_ ?_⟩
      · rwa [List.getLastD_cons]
      · intro n hn hne
        rw [List.getLastD_cons] at hne
        exact Links.linkBetween_next_of_ne hne (hother (List.mem_cons_of_mem x hn))
      · exact fun n hn hne => Links.linkBetween_prev_of_ne hne (hother (List.mem_cons_of_mem x hn))
    refine Links.Holds.insert ((hL.forget x).frame fun n hn => ?_) hring fun n hn => ?_
    · have hne {m : N} (hm : ¬ (a.erase x).On m) : n ≠ m := by
        rintro rfl
        exact hm hn
      exact ⟨Links.linkBetween_next_of_ne (hne (hoff (by grind))) (hne hnew'),
        Links.linkBetween_prev_of_ne (hne (hoff (by grind))) (hne hnew')⟩
    · rcases List.mem_cons.mp hn with rfl | hn
      · exact hnew'
      · exact hoff (List.mem_cons_of_mem x hn)

/-- `list_replace_init` of a node on a list: it heads an empty list. -/
theorem listReplaceInit_holds (hL : L.Holds a) (ha : a h = some (pre ++ x :: post))
    (hnew : ¬ a.On new) :
    ∃ L', listReplaceInit x new L = .ok L' ∧
      L'.Holds ((a.set h (pre ++ new :: post)).set x []) := by
  obtain ⟨L', hreplace, hL'⟩ := listReplace_holds hL ha hnew
  have hnodup := (hL.ring ha).nodup
  have hx : ¬ (a.set h (pre ++ new :: post)).On x := by
    have hxnew : x ≠ new := by
      rintro rfl
      exact hnew ⟨h, _, ha, by grind⟩
    rw [Rings.on_set_iff, not_or]
    exact ⟨by grind, hL.off_forget ha (by grind)⟩
  refine ⟨initListHead x L', ?_, initListHead_holds hL' hx⟩
  rw [listReplaceInit, hreplace]
  rfl

/-- `list_replace_init` of a head: it heads an empty list instead. -/
theorem listReplaceInit_head_holds (hL : L.Holds a) (ha : a x = some l) (hnew : ¬ a.On new) :
    ∃ L', listReplaceInit x new L = .ok L' ∧ L'.Holds (((a.erase x).set new l).set x []) := by
  obtain ⟨L', hreplace, hL'⟩ := listReplace_head_holds hL ha hnew
  have hnodup := (hL.ring ha).nodup
  have hx : ¬ ((a.erase x).set new l).On x := by
    have hxnew : x ≠ new := by
      rintro rfl
      exact hnew ⟨x, _, ha, List.mem_cons_self ..⟩
    rw [Rings.on_set_iff, not_or]
    exact ⟨by grind, fun hon => hL.off_forget ha (List.mem_cons_self ..) hon.of_erase⟩
  refine ⟨initListHead x L', ?_, initListHead_holds hL' hx⟩
  rw [listReplaceInit, hreplace]
  rfl

/-! ### Two places -/

section Move

variable {h' : N} {pre' post' : List N}

/-- `list_move`: taken out of its list, the node comes after another one. -/
theorem listMove_holds (hL : L.Holds a) (ha : a h = some (pre ++ x :: post))
    (ha' : a.set h (pre ++ post) h' = some (pre' ++ post')) :
    ∃ L', listMove x (pre'.getLastD h') L = .ok L' ∧
      L'.Holds ((a.set h (pre ++ post)).set h' (pre' ++ x :: post')) := by
  obtain ⟨L', hdel, hL'⟩ := _listDelEntry_holds hL ha
  have hx := hL.off_middle ha
  rw [listMove, hdel, Except.ok_bind]
  exact listAdd_holds hL' ha' hx

/-- `list_move_tail`: taken out of its list, the node comes before another one. -/
theorem listMoveTail_holds (hL : L.Holds a) (ha : a h = some (pre ++ x :: post))
    (ha' : a.set h (pre ++ post) h' = some (pre' ++ post')) :
    ∃ L', listMoveTail x (post'.headD h') L = .ok L' ∧
      L'.Holds ((a.set h (pre ++ post)).set h' (pre' ++ x :: post')) := by
  obtain ⟨L', hdel, hL'⟩ := _listDelEntry_holds hL ha
  have hx := hL.off_middle ha
  rw [listMoveTail, hdel, Except.ok_bind]
  exact listAddTail_holds hL' ha' hx

/-- `list_move` of a node that is linked to itself puts it on a list. -/
theorem listMove_empty_holds (hL : L.Holds a) (hx : a x = some [])
    (ha : a.erase x h = some (pre ++ post)) :
    ∃ L', listMove x (pre.getLastD h) L = .ok L' ∧
      L'.Holds ((a.erase x).set h (pre ++ x :: post)) := by
  obtain ⟨L', hdel, hL'⟩ := _listDelEntry_empty_holds hL hx
  rw [listMove, hdel, Except.ok_bind]
  exact listAdd_holds hL' ha (hL.off_forget hx (List.mem_cons_self ..))

/-- `list_move_tail` of a node that is linked to itself puts it on a list. -/
theorem listMoveTail_empty_holds (hL : L.Holds a) (hx : a x = some [])
    (ha : a.erase x h = some (pre ++ post)) :
    ∃ L', listMoveTail x (post.headD h) L = .ok L' ∧
      L'.Holds ((a.erase x).set h (pre ++ x :: post)) := by
  obtain ⟨L', hdel, hL'⟩ := _listDelEntry_empty_holds hL hx
  rw [listMoveTail, hdel, Except.ok_bind]
  exact listAddTail_holds hL' ha (hL.off_forget hx (List.mem_cons_self ..))

end Move

/-! ### Questions -/

/-- `list_empty`. -/
theorem listEmpty_iff (hL : L.Holds a) (ha : a h = some l) : listEmpty h L = true ↔ l = [] := by
  have hnodup := (hL.ring ha).nodup
  rw [listEmpty, (hL.ring ha).chain.next_eq, beq_iff_eq, Option.some_inj]
  cases l with
  | nil => simp
  | cons c t => grind

/-- `list_empty_careful` agrees with `list_empty`. -/
theorem listEmptyCareful_iff (hL : L.Holds a) (ha : a h = some l) :
    listEmptyCareful h L = true ↔ l = [] := by
  have hempty := listEmpty_iff hL ha
  rw [listEmpty, beq_iff_eq] at hempty
  rw [listEmptyCareful, Bool.and_eq_true, beq_iff_eq, beq_iff_eq, hempty, and_iff_left_iff_imp]
  rintro rfl
  rw [(hL.ring ha).chain.next_eq, (hL.ring ha).chain.prev_eq]
  rfl

/-- `list_is_singular`. -/
theorem listIsSingular_iff (hL : L.Holds a) (ha : a h = some l) :
    listIsSingular h L = true ↔ ∃ x, l = [x] := by
  have hempty := listEmpty_iff hL ha
  have hnodup := (hL.ring ha).nodup
  rw [listIsSingular, Bool.and_eq_true, Bool.not_eq_true', ← Bool.not_eq_true, hempty, beq_iff_eq,
    (hL.ring ha).chain.next_eq, (hL.ring ha).chain.prev_eq, Option.some_inj]
  rcases List.eq_nil_or_concat' l with rfl | ⟨l, z, rfl⟩
  · simp
  · cases l with
    | nil => simp
    | cons c t =>
      -- the first node and the last one differ
      have hlast : (c :: t ++ [z]).getLastD h = z := List.getLastD_concat
      rw [hlast]
      constructor
      · rintro ⟨-, heq⟩
        grind
      · rintro ⟨x, heq⟩
        simp at heq

/-- `list_is_last`. -/
theorem listIsLast_iff (hL : L.Holds a) (ha : a h = some (pre ++ x :: post)) :
    listIsLast x h L = true ↔ post = [] := by
  have hnodup := (hL.ring ha).nodup
  rw [listIsLast, (linked_of_mem hL ha).2.1, beq_iff_eq, Option.some_inj]
  cases post with
  | nil => simp
  | cons c t => grind

/-! ### Whole lists -/

/-- `list_rotate_left`. -/
theorem listRotateLeft_holds (hL : L.Holds a) (ha : a h = some l) :
    ∃ L', listRotateLeft h L = .ok L' ∧ L'.Holds (a.set h (l.rotate 1)) := by
  have hempty := listEmpty_iff hL ha
  cases l with
  | nil =>
    refine ⟨L, ?_, ?_⟩
    · rw [listRotateLeft, hempty.mpr rfl]
      rfl
    · rw [List.rotate_nil, Rings.set, ← ha, Function.update_eq_self]
      exact hL
  | cons c t =>
    have hfirst : L.next h = some c := (hL.ring ha).chain.next_eq
    have hnot : listEmpty h L = false := by
      rw [← Bool.not_eq_true, hempty]
      simp
    have ha' : a h = some ([] ++ c :: t) := ha
    have hplace : a.set h ([] ++ t) h = some (t ++ []) := by simp
    obtain ⟨L', hmove, hL'⟩ := listMoveTail_holds hL ha' hplace
    refine ⟨L', ?_, ?_⟩
    · rw [listRotateLeft, hnot, hfirst]
      exact hmove
    · simpa using hL'

/-- `list_cut_position` at a node: the list up to there moves to `new`, which heads no list of
others or one that is given up. -/
theorem listCutPosition_holds (hL : L.Holds a) (ha : a h = some (pre ++ x :: post))
    (hnew : ¬ (a.erase new).On new) (hne : new ≠ h) :
    ∃ L', listCutPosition new h x L = .ok L' ∧
      L'.Holds ((a.set h post).set new (pre ++ [x])) := by
  have hr := hL.ring ha
  have hnodup := hr.nodup
  have hempty : listEmpty h L = false := by
    rw [← Bool.not_eq_true, listEmpty_iff hL ha]
    simp
  -- if the list has one node, it is the one to cut at
  have hguard : (listIsSingular h L && (L.next h != some x && h != x)) = false := by
    by_cases hsing : listIsSingular h L = true
    · obtain ⟨y, hy⟩ := (listIsSingular_iff hL ha).mp hsing
      have hpre : pre = [] := by
        cases pre with
        | nil => rfl
        | cons c t => simp at hy
      subst hpre
      rw [hr.chain.next_eq]
      simp
    · rw [Bool.not_eq_true] at hsing
      rw [hsing, Bool.false_and]
  have hxh : x ≠ h := by grind
  obtain ⟨first, t, hfirst⟩ : ∃ c t, pre ++ [x] = c :: t := by cases pre <;> simp
  have ha' : a h = some ((pre ++ [x]) ++ post) := by simpa using ha
  have hnext : L.next h = some first := by
    rw [(hL.ring ha').chain.next_eq, hfirst]
    rfl
  have hbehind : L.next x = some (post.headD h) := (linked_of_mem hL ha).2.1
  have hout {n : N} (hn : n ∈ h :: (pre ++ x :: post)) : n ≠ new := by
    rintro rfl
    exact hnew ⟨h, _, by rwa [Rings.erase_of_ne hne.symm], hn⟩
  have hmem {n : N} (hn : n ∈ pre ++ [x]) : n ∈ h :: (pre ++ x :: post) := by grind
  have hfirstmem : first ∈ pre ++ [x] := by simp [hfirst]
  have hq : post.headD h ∈ h :: post := by cases post <;> simp
  refine ⟨((L.bypass new first).bypass x new).bypass h (post.headD h), ?_, ?_⟩
  · rw [listCutPosition, hempty, if_neg (by simp), hguard, if_neg (by simp), if_neg hxh,
      _listCutPosition, hnext, hbehind]
    simp only [Links.setNext_next_self, writePrev, Except.ok_bind]
    rfl
  · set L' := ((L.bypass new first).bypass x new).bypass h (post.headD h) with hL'
    -- `h` is linked to what is left, and `new` to both ends of what was cut off
    have hxnew : x ≠ new := hout (by simp)
    have hfirstnew : first ≠ new := hout (hmem hfirstmem)
    have hqnew : post.headD h ≠ new := hout (by grind)
    have hfirstq : first ≠ post.headD h := by grind
    have hsame {n : N} (hnew : n ≠ new) (hx : n ≠ x) (hh : n ≠ h) : L'.next n = L.next n := by
      rw [hL', Links.bypass_next_of_ne hh, Links.bypass_next_of_ne hx,
        Links.bypass_next_of_ne hnew]
    have hsame' {n : N} (hf : n ≠ first) (hnew : n ≠ new) (hq : n ≠ post.headD h) :
        L'.prev n = L.prev n := by
      rw [hL', Links.bypass_prev_of_ne hq, Links.bypass_prev_of_ne hnew,
        Links.bypass_prev_of_ne hf]
    have hlinkfirst : L'.Linked new first := by
      refine ⟨?_, ?_⟩
      · rw [hL', Links.bypass_next_of_ne hne, Links.bypass_next_of_ne hxnew.symm]
        exact (Links.linked_bypass new).1
      · rw [hL', Links.bypass_prev_of_ne hfirstq, Links.bypass_prev_of_ne hfirstnew]
        exact (Links.linked_bypass new).2
    have hlinklast : L'.Linked x new := by
      refine ⟨?_, ?_⟩
      · rw [hL', Links.bypass_next_of_ne hxh]
        exact (Links.linked_bypass x).1
      · rw [hL', Links.bypass_prev_of_ne hqnew.symm]
        exact (Links.linked_bypass x).2
    have hring : L'.Ring new (pre ++ [x]) := by
      have hhead : (pre ++ [x]).headD new = first := by rw [hfirst, List.headD_cons]
      have hlast : (pre ++ [x]).getLastD new = x := List.getLastD_concat
      refine ⟨List.nodup_cons.mpr ⟨fun hn => hout (hmem hn) rfl, by grind⟩,
        (hL.ring ha').chain.front.reanchor (by grind) (by simp) ?_ ?_ ?_ ?_⟩
      · rwa [hhead]
      · rwa [hlast]
      · intro n hn hne'
        rw [hlast] at hne'
        exact hsame (hout (hmem hn)) hne' (by grind)
      · intro n hn hne'
        rw [hhead] at hne'
        exact hsame' hne' (hout (hmem hn)) (by grind)
    have hoff {n : N} (hn : (a.erase new).On n) : n ≠ new := by
      rintro rfl
      exact hnew hn
    have hae : a.erase new h = some ([] ++ (pre ++ [x]) ++ post) := by
      rwa [Rings.erase_of_ne hne.symm]
    have hseam : L'.Chain h [] (post.headD h) := Links.linked_bypass h
    have hgraft := (hL.forget new).graft hae List.nodup_nil
      (fun n hn => absurd hn List.not_mem_nil) hseam
      (fun n hn hmid hh => hsame (hoff hn) (by grind) hh)
      fun n hn hmid hq => hsame' (by grind) (hoff hn) hq
    have hcut := hgraft.insert hring fun n hn => ?_
    · rw [List.nil_append, List.nil_append, Rings.erase_set_comm hne, Rings.erase_set] at hcut
      exact hcut
    · rcases List.mem_cons.mp hn with rfl | hn
      · rw [Rings.on_set_iff, not_or]
        exact ⟨fun hn => hout (by grind) rfl, fun hon => hnew hon.of_erase⟩
      · exact (hL.forget new).off_of_mem hae hn

/-- `list_cut_position` at the head: nothing is cut off. -/
theorem listCutPosition_head_holds (hL : L.Holds a) (ha : a h = some l) (hl : l ≠ [])
    (hnew : ¬ (a.erase new).On new) :
    ∃ L', listCutPosition new h h L = .ok L' ∧ L'.Holds (a.set new []) := by
  have hempty : listEmpty h L = false := by
    rw [← Bool.not_eq_true, listEmpty_iff hL ha]
    exact hl
  refine ⟨initListHead new L, ?_, ?_⟩
  · rw [listCutPosition, hempty]
    simp
  · rw [← Rings.erase_set]
    exact initListHead_holds (hL.forget new) hnew

/-- `__list_splice` at a place of a list: the nodes of another list are put in, and the head of that
list keeps stale links. -/
theorem _listSplice_holds {list : N} (hL : L.Holds a) (ha : a h = some (pre ++ post))
    (hl : a list = some l) (hnil : l ≠ []) (hne : list ≠ h) :
    ∃ L', _listSplice list (some (pre.getLastD h)) (some (post.headD h)) L = .ok L' ∧
      L'.Holds ((a.erase list).set h (pre ++ l ++ post)) := by
  have hr := hL.ring hl
  have hnodup := hr.nodup
  have hp : pre.getLastD h ∈ h :: pre := List.getLastD_mem_cons ..
  have hq : post.headD h ∈ h :: post := by cases post <;> simp
  obtain ⟨first, t, rfl⟩ := List.exists_cons_of_ne_nil hnil
  have hlast : t.getLastD first ∈ first :: t := List.getLastD_mem_cons ..
  have hprev : L.prev list = some (t.getLastD first) := by
    rw [hr.chain.prev_eq, List.getLastD_cons]
  have hout {n m : N} (hn : n ∈ h :: (pre ++ post)) (hm : m ∈ list :: first :: t) : n ≠ m := by
    rintro rfl
    exact hL.disjoint ha hl hne.symm hn hm
  refine ⟨(L.bypass (pre.getLastD h) first).bypass (t.getLastD first) (post.headD h), ?_, ?_⟩
  · rw [_listSplice, hr.chain.next_eq, hprev]
    rfl
  · set p := pre.getLastD h
    set q := post.headD h
    have hplast : p ≠ t.getLastD first := hout (by grind) (by grind)
    have hqfirst : q ≠ first := hout (by grind) (by grind)
    have hae : a.erase list h = some (pre ++ [] ++ post) := by
      rw [Rings.erase_of_ne hne.symm, List.append_nil]
      exact ha
    have hoff {n : N} (hn : n ∈ list :: first :: t) : ¬ (a.erase list).On n :=
      hL.off_forget hl hn
    have hmid {n m : N} (hn : (a.erase list).On n) (hm : m ∈ first :: t) : n ≠ m := by
      rintro rfl
      exact hoff (List.mem_cons_of_mem list hm) hn
    refine (hL.forget list).graft hae (by grind)
      (fun n hn => hoff (List.mem_cons_of_mem list hn)) ?_ (fun n hn _ hnp => ?_)
      fun n hn _ hnq => ?_
    · -- the nodes of the other list are linked to the place at both ends
      refine hr.chain.reanchor (by grind) hnil ⟨?_, ?_⟩ ?_ ?_ ?_
      · rw [Links.bypass_next_of_ne hplast]
        exact (Links.linked_bypass p).1
      · rw [List.headD_cons, Links.bypass_prev_of_ne hqfirst.symm]
        exact (Links.linked_bypass p).2
      · rw [List.getLastD_cons]
        exact Links.linked_bypass _
      · intro n hn hne'
        rw [List.getLastD_cons] at hne'
        rw [Links.bypass_next_of_ne hne', Links.bypass_next_of_ne (hout (by grind) (by grind)).symm]
      · intro n hn hne'
        rw [List.headD_cons] at hne'
        rw [Links.bypass_prev_of_ne (hout (by grind) (by grind)).symm, Links.bypass_prev_of_ne hne']
    · rw [Links.bypass_next_of_ne (hmid hn hlast), Links.bypass_next_of_ne hnp]
    · rw [Links.bypass_prev_of_ne hnq, Links.bypass_prev_of_ne (hmid hn (by simp))]

section Splice

variable {list : N}

omit [DecidableEq N] in
/-- The two pointers at a place of a list. -/
theorem seam_of_holds (hL : L.Holds a) (ha : a h = some (pre ++ post)) :
    L.next (pre.getLastD h) = some (post.headD h) ∧
      L.prev (post.headD h) = some (pre.getLastD h) :=
  (hL.ring ha).seam

/-- `list_splice`, after a node of another list. -/
theorem listSplice_holds (hL : L.Holds a) (ha : a h = some (pre ++ post)) (hl : a list = some l)
    (hne : list ≠ h) :
    ∃ L', listSplice list (pre.getLastD h) L = .ok L' ∧
      L'.Holds (if l = [] then a else (a.erase list).set h (pre ++ l ++ post)) := by
  rw [listSplice, (seam_of_holds hL ha).1]
  by_cases hnil : l = []
  · rw [if_pos hnil, (listEmpty_iff hL hl).mpr hnil]
    exact ⟨L, rfl, hL⟩
  · rw [if_neg hnil, Bool.eq_false_iff.mpr fun h => hnil ((listEmpty_iff hL hl).mp h)]
    exact _listSplice_holds hL ha hl hnil hne

/-- `list_splice_tail`, before a node of another list. -/
theorem listSpliceTail_holds (hL : L.Holds a) (ha : a h = some (pre ++ post))
    (hl : a list = some l) (hne : list ≠ h) :
    ∃ L', listSpliceTail list (post.headD h) L = .ok L' ∧
      L'.Holds (if l = [] then a else (a.erase list).set h (pre ++ l ++ post)) := by
  rw [listSpliceTail, (seam_of_holds hL ha).2]
  by_cases hnil : l = []
  · rw [if_pos hnil, (listEmpty_iff hL hl).mpr hnil]
    exact ⟨L, rfl, hL⟩
  · rw [if_neg hnil, Bool.eq_false_iff.mpr fun h => hnil ((listEmpty_iff hL hl).mp h)]
    exact _listSplice_holds hL ha hl hnil hne

/-- After a splice the head that was spliced is initialised: both lists are known again. -/
theorem splice_init_holds {L' : Links N} (hL : L.Holds a) (ha : a h = some (pre ++ post))
    (hl : a list = some l) (hne : list ≠ h)
    (hL' : L'.Holds ((a.erase list).set h (pre ++ l ++ post))) :
    (initListHead list L').Holds ((a.set h (pre ++ l ++ post)).set list []) := by
  have hoff : ¬ (a.erase list).On list := hL.off_forget hl (List.mem_cons_self ..)
  have hlist : ¬ ((a.erase list).set h (pre ++ l ++ post)).On list := by
    have hnodup := (hL.ring hl).nodup
    have hout : list ∉ h :: (pre ++ post) :=
      fun hmem => hoff ⟨h, _, by rwa [Rings.erase_of_ne hne.symm], hmem⟩
    rw [Rings.on_set_iff, not_or]
    exact ⟨by grind, fun hon => hoff hon.of_erase⟩
  have hinit := initListHead_holds hL' hlist
  rwa [Rings.erase_set_comm hne, Rings.erase_set] at hinit

/-- Splicing an empty list changes none. -/
theorem splice_nil_eq (ha : a h = some (pre ++ post)) (hl : a list = some []) :
    (a.set h (pre ++ [] ++ post)).set list [] = a := by
  rw [List.append_nil, Rings.set, Rings.set, ← ha, Function.update_eq_self, ← hl,
    Function.update_eq_self]

/-- `list_splice_init`. -/
theorem listSpliceInit_holds (hL : L.Holds a) (ha : a h = some (pre ++ post))
    (hl : a list = some l) (hne : list ≠ h) :
    ∃ L', listSpliceInit list (pre.getLastD h) L = .ok L' ∧
      L'.Holds ((a.set h (pre ++ l ++ post)).set list []) := by
  rw [listSpliceInit, (seam_of_holds hL ha).1]
  by_cases hnil : l = []
  · subst hnil
    rw [splice_nil_eq ha hl, (listEmpty_iff hL hl).mpr rfl]
    exact ⟨L, rfl, hL⟩
  · obtain ⟨L', hsplice, hL'⟩ := _listSplice_holds hL ha hl hnil hne
    rw [Bool.eq_false_iff.mpr fun h => hnil ((listEmpty_iff hL hl).mp h), hsplice]
    exact ⟨_, rfl, splice_init_holds hL ha hl hne hL'⟩

/-- `list_splice_tail_init`. -/
theorem listSpliceTailInit_holds (hL : L.Holds a) (ha : a h = some (pre ++ post))
    (hl : a list = some l) (hne : list ≠ h) :
    ∃ L', listSpliceTailInit list (post.headD h) L = .ok L' ∧
      L'.Holds ((a.set h (pre ++ l ++ post)).set list []) := by
  rw [listSpliceTailInit, (seam_of_holds hL ha).2]
  by_cases hnil : l = []
  · subst hnil
    rw [splice_nil_eq ha hl, (listEmpty_iff hL hl).mpr rfl]
    exact ⟨L, rfl, hL⟩
  · obtain ⟨L', hsplice, hL'⟩ := _listSplice_holds hL ha hl hnil hne
    rw [Bool.eq_false_iff.mpr fun h => hnil ((listEmpty_iff hL hl).mp h), hsplice]
    exact ⟨_, rfl, splice_init_holds hL ha hl hne hL'⟩

end Splice

end

end Vlstp
