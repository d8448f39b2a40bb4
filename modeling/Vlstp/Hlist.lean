import Vlstp.Framework.Heap
import Vlstp.Framework.SlotLists

/-!
# Lists with a single pointer head (`list.h`)

The `hlist` half of `list.h`. A `struct hlist_node **` is the address of a slot, of a head or of a
node. What each function does to a memory that holds several lists is a lemma about the place where
it edits one of them: `pre ++ post` is a list split there, and `lastSlot` is the slot in front of
`post`.

Besides the nodes on lists a memory has nodes that are on none and that the functions may be asked
about: those that `INIT_HLIST_NODE` has unhashed and those that `hlist_add_fake` makes appear to be
on a list. So each lemma also says which nodes keep their two pointers (`SameNodes`).
-/

namespace Vlstp

open SlotLinks

variable {H N : Type} [DecidableEq H] [DecidableEq N]

/-! ### Definitions -/

/-- `*p = v`. -/
def writeSlot (p : Option (Slot H N)) (v : Option N) (L : SlotLinks H N) :
    Except Fault (SlotLinks H N) :=
  match p with
  | none => .error .nullDeref
  | some s => .ok (L.setPtr s v)

/-- `if (p) p->pprev = v`. -/
def setPprevIf (p : Option N) (v : Option (Slot H N)) (L : SlotLinks H N) : SlotLinks H N :=
  match p with
  | none => L
  | some n => L.setPprev n v

/-- `INIT_HLIST_HEAD`. -/
def initHlistHead (ptr : H) (L : SlotLinks H N) : SlotLinks H N := L.setPtr (.head ptr) none

/-- `INIT_HLIST_NODE`. -/
def initHlistNode (h : N) (L : SlotLinks H N) : SlotLinks H N :=
  (L.setPtr (.next h) none).setPprev h none

/-- `hlist_unhashed`. -/
def hlistUnhashed (h : N) (L : SlotLinks H N) : Bool := (L.pprev h).isNone

/-- `hlist_empty`. -/
def hlistEmpty (h : H) (L : SlotLinks H N) : Bool := (L.ptr (.head h)).isNone

/-- `__hlist_del`. -/
def _hlistDel (n : N) (L : SlotLinks H N) : Except Fault (SlotLinks H N) := do
  let next := L.ptr (.next n)
  let pprev := L.pprev n
  let L ← writeSlot pprev next L
  return setPprevIf next pprev L

/-- `hlist_del`, which leaves `LIST_POISON1` and `LIST_POISON2`. -/
def hlistDel (poison1 : Option N) (poison2 : Option (Slot H N)) (n : N) (L : SlotLinks H N) :
    Except Fault (SlotLinks H N) := do
  let L ← _hlistDel n L
  return (L.setPtr (.next n) poison1).setPprev n poison2

/-- `hlist_del_init`. -/
def hlistDelInit (n : N) (L : SlotLinks H N) : Except Fault (SlotLinks H N) :=
  if hlistUnhashed n L then .ok L
  else do
    let L ← _hlistDel n L
    return initHlistNode n L

/-- `hlist_add_head`. -/
def hlistAddHead (n : N) (h : H) (L : SlotLinks H N) : SlotLinks H N :=
  let first := L.ptr (.head h)
  let L := L.setPtr (.next n) first
  let L := setPprevIf first (some (.next n)) L
  (L.setPtr (.head h) (some n)).setPprev n (some (.head h))

/-- `hlist_add_before`. -/
def hlistAddBefore (n next : N) (L : SlotLinks H N) : Except Fault (SlotLinks H N) :=
  let L := L.setPprev n (L.pprev next)
  let L := L.setPtr (.next n) (some next)
  let L := L.setPprev next (some (.next n))
  writeSlot (L.pprev n) (some n) L

/-- `hlist_add_after`, which puts `next` behind `n`. -/
def hlistAddAfter (n next : N) (L : SlotLinks H N) : SlotLinks H N :=
  let L := L.setPtr (.next next) (L.ptr (.next n))
  let L := L.setPtr (.next n) (some next)
  let L := L.setPprev next (some (.next n))
  setPprevIf (L.ptr (.next next)) (some (.next next)) L

/-- `hlist_add_fake`. -/
def hlistAddFake (n : N) (L : SlotLinks H N) : SlotLinks H N := L.setPprev n (some (.next n))

/-- `hlist_move_list`. -/
def hlistMoveList (old new : H) (L : SlotLinks H N) : SlotLinks H N :=
  let L := L.setPtr (.head new) (L.ptr (.head old))
  let L := setPprevIf (L.ptr (.head new)) (some (.head new)) L
  L.setPtr (.head old) none

/-! ### Nodes left alone -/

/-- The nodes outside `P` hold what they held. -/
def SameNodes (L L' : SlotLinks H N) (P : N → Prop) : Prop :=
  ∀ n, ¬ P n → L'.ptr (.next n) = L.ptr (.next n) ∧ L'.pprev n = L.pprev n

section

variable {L : SlotLinks H N} {a : Lists H N} {h : H} {n x : N} {l pre post : List N}

omit [DecidableEq H] in
@[simp] theorem setPprevIf_ptr (p : Option N) (v : Option (Slot H N)) :
    (setPprevIf p v L).ptr = L.ptr := by
  cases p <;> rfl

omit [DecidableEq H] in
theorem setPprevIf_pprev_self {p : Option N} (hp : p = some x) (v : Option (Slot H N)) :
    (setPprevIf p v L).pprev x = v := by
  subst hp
  exact setPprev_pprev_self v

omit [DecidableEq H] in
theorem setPprevIf_pprev_of_ne {p : Option N} (hp : p ≠ some x) (v : Option (Slot H N)) :
    (setPprevIf p v L).pprev x = L.pprev x := by
  cases p with
  | none => rfl
  | some y => exact setPprev_pprev_of_ne (fun heq => hp (by rw [heq])) v

/-! ### What the functions do to lists -/

/-- `INIT_HLIST_HEAD`. -/
theorem initHlistHead_holds (hL : L.Holds a) :
    (initHlistHead h L).Holds (a.set h []) ∧ SameNodes L (initHlistHead h L) fun _ => False := by
  have hnode (n : N) : (initHlistHead h L).ptr (.next n) = L.ptr (.next n) ∧
      (initHlistHead h L).pprev n = L.pprev n := ⟨setPtr_ptr_of_ne (by simp) _, rfl⟩
  refine ⟨?_, fun n _ => hnode n⟩
  have hothers : (initHlistHead h L).Holds (a.erase h) := by
    refine (hL.forget h).frame (fun h' hne => setPtr_ptr_of_ne ?_ _) fun n _ => hnode n
    rintro heq
    obtain rfl : h' = h := by simpa using heq
    exact hne (Function.update_self ..)
  exact hothers.insert List.nodup_nil ⟨setPtr_ptr_self _, by simp⟩ (by simp)

/-- Stores to a node that is on no list. -/
theorem store_holds (hL : L.Holds a) (hn : ¬ a.On n) (v : Option N) (v' : Option (Slot H N)) :
    ((L.setPtr (.next n) v).setPprev n v').Holds a := by
  refine hL.frame (fun h _ => by simp) fun m hm => ?_
  have hne : m ≠ n := fun heq => hn (heq ▸ hm)
  exact ⟨by simp [hne], setPprev_pprev_of_ne hne _⟩

theorem store_sameNodes (v : Option N) (v' : Option (Slot H N)) :
    SameNodes L ((L.setPtr (.next n) v).setPprev n v') (· = n) := by
  intro m hm
  simp [hm]

omit [DecidableEq H] in
/-- `hlist_add_fake`. -/
theorem hlistAddFake_holds (hL : L.Holds a) (hn : ¬ a.On n) :
    (hlistAddFake n L).Holds a ∧ SameNodes L (hlistAddFake n L) (· = n) := by
  have hnode {m : N} (hne : m ≠ n) : (hlistAddFake n L).pprev m = L.pprev m :=
    setPprev_pprev_of_ne hne _
  refine ⟨hL.frame (fun _ _ => rfl) fun m hm => ⟨rfl, hnode ?_⟩, fun m hm => ⟨rfl, hnode hm⟩⟩
  exact fun heq => hn (heq ▸ hm)

/-- `hlist_add_head`. -/
theorem hlistAddHead_holds (hL : L.Holds a) (ha : a h = some l) (hn : ¬ a.On n) :
    (hlistAddHead n h L).Holds (a.set h (n :: l)) ∧
      SameNodes L (hlistAddHead n h L) fun m => a.On m ∨ m = n := by
  have ha' : a h = some ([] ++ [] ++ l) := ha
  have hfirst : L.ptr (.head h) = l.head? := (hL.seam ha').1
  have hout {y : N} (hy : l.head? = some y) : y ≠ n := by
    rintro rfl
    exact hn ⟨h, l, ha, List.mem_of_mem_head? hy⟩
  have hother {m : N} (hm : m ≠ n) (hhead : l.head? ≠ some m) :
      (hlistAddHead n h L).pprev m = L.pprev m := by
    rw [hlistAddHead, setPprev_pprev_of_ne hm, setPtr_pprev, hfirst, setPprevIf_pprev_of_ne hhead,
      setPtr_pprev]
  have hptr {t : Slot H N} (hnext : t ≠ .next n) (hhead : t ≠ .head h) :
      (hlistAddHead n h L).ptr t = L.ptr t := by
    rw [hlistAddHead, setPprev_ptr, setPtr_ptr_of_ne hhead, setPprevIf_ptr, setPtr_ptr_of_ne hnext]
  refine ⟨?_, fun m hm => ?_⟩
  · refine hL.graft ha' (List.nodup_singleton n) (by simpa using hn) ⟨⟨?_, ?_⟩, ?_, ?_⟩ ?_ ?_ ?_
    · simp [hlistAddHead]
    · rintro y hy
      obtain rfl := Option.some.inj hy
      simp [hlistAddHead]
    · simp [hlistAddHead, hfirst]
    · intro y hy
      rw [hlistAddHead, setPprev_pprev_of_ne (hout hy), setPtr_pprev, hfirst]
      exact setPprevIf_pprev_self hy _
    · exact fun h' hne => hptr (by simp) hne
    · exact fun m hm _ _ => hptr (fun heq => hn (by simp_all)) (by simp)
    · exact fun m hm _ hhead => hother (fun heq => hn (heq ▸ hm)) hhead
  · rw [not_or] at hm
    refine ⟨hptr (by simpa using hm.2) (by simp), hother hm.2 fun hhead => hm.1 ?_⟩
    exact ⟨h, l, ha, List.mem_of_mem_head? hhead⟩

/-- `hlist_add_before`. -/
theorem hlistAddBefore_holds (hL : L.Holds a) (ha : a h = some (pre ++ x :: post))
    (hn : ¬ a.On n) :
    ∃ L', hlistAddBefore n x L = .ok L' ∧ L'.Holds (a.set h (pre ++ n :: x :: post)) ∧
      SameNodes L L' fun m => a.On m ∨ m = n := by
  have ha' : a h = some (pre ++ [] ++ x :: post) := by simpa using ha
  have hback : L.pprev x = some (lastSlot (.head h) pre) := (hL.seam ha).2 x rfl
  have hx : a.On x := ⟨h, _, ha, by simp⟩
  have hxn : x ≠ n := fun heq => hn (heq ▸ hx)
  have hlast : Slot.next n ≠ lastSlot (.head h) pre :=
    next_ne_lastSlot fun hmem => hn ⟨h, _, ha, List.mem_append_left _ hmem⟩
  obtain ⟨L', hL'⟩ : ∃ L', L' = ((((L.setPprev n (L.pprev x)).setPtr (.next n) (some x)).setPprev x
      (some (.next n))).setPtr (lastSlot (.head h) pre) (some n)) := ⟨_, rfl⟩
  have hother {m : N} (hm : m ≠ n) (hmx : m ≠ x) : L'.pprev m = L.pprev m := by
    simp [hL', hm, hmx]
  have hptr {t : Slot H N} (hnext : t ≠ .next n) (hne : t ≠ lastSlot (.head h) pre) :
      L'.ptr t = L.ptr t := by
    simp [hL', hnext, hne]
  refine ⟨L', ?_, ?_, fun m hm => ?_⟩
  · have hpprev : (((L.setPprev n (L.pprev x)).setPtr (.next n) (some x)).setPprev x
        (some (.next n))).pprev n = some (lastSlot (.head h) pre) := by
      simp [hxn.symm, hback]
    rw [hlistAddBefore, hpprev, hL']
    rfl
  · have hgraft : L'.Holds (a.set h (pre ++ [n] ++ x :: post)) := by
      refine hL.graft ha' (List.nodup_singleton n) (by simpa using hn) ⟨⟨?_, ?_⟩, ?_, ?_⟩ ?_ ?_ ?_
      · simp [hL']
      · rintro y hy
        obtain rfl := Option.some.inj hy
        simp [hL', hxn.symm, hback]
      · simp [hL', hlast]
      · rintro y hy
        obtain rfl := Option.some.inj hy
        simp [hL']
      · exact fun h' hne => hptr (by simp) hne
      · exact fun m hm _ hne => hptr (fun heq => hn (by simp_all)) hne
      · refine fun m hm _ hhead => hother (fun heq => hn (heq ▸ hm)) fun heq => hhead ?_
        rw [heq]
        rfl
    simpa using hgraft
  · rw [not_or] at hm
    have hslot : Slot.next m ≠ lastSlot (.head h) pre :=
      next_ne_lastSlot fun hmem => hm.1 ⟨h, _, ha, List.mem_append_left _ hmem⟩
    exact ⟨hptr (by simpa using hm.2) hslot, hother hm.2 fun heq => hm.1 (heq ▸ hx)⟩

/-- `hlist_add_after`. -/
theorem hlistAddAfter_holds (hL : L.Holds a) (ha : a h = some (pre ++ x :: post))
    (hn : ¬ a.On n) :
    (hlistAddAfter x n L).Holds (a.set h (pre ++ x :: n :: post)) ∧
      SameNodes L (hlistAddAfter x n L) fun m => a.On m ∨ m = n := by
  have ha' : a h = some ((pre ++ [x]) ++ [] ++ post) := by simpa using ha
  have hbehind : L.ptr (.next x) = post.head? := (hL.seams_of_mem ha).2.1
  have hx : a.On x := ⟨h, _, ha, by simp⟩
  have hxn : x ≠ n := fun heq => hn (heq ▸ hx)
  have hout {y : N} (hy : post.head? = some y) : a.On y :=
    ⟨h, _, ha, by simp [List.mem_of_mem_head? hy]⟩
  have hread : (((L.setPtr (.next n) post.head?).setPtr (.next x) (some n)).setPprev n
      (some (.next x))).ptr (.next n) = post.head? := by
    simp [hxn.symm]
  have hother {m : N} (hm : m ≠ n) (hhead : post.head? ≠ some m) :
      (hlistAddAfter x n L).pprev m = L.pprev m := by
    rw [hlistAddAfter, hbehind, hread, setPprevIf_pprev_of_ne hhead, setPprev_pprev_of_ne hm]
    rfl
  have hptr {t : Slot H N} (hnext : t ≠ .next n) (hne : t ≠ .next x) :
      (hlistAddAfter x n L).ptr t = L.ptr t := by
    simp [hlistAddAfter, hnext, hne]
  refine ⟨?_, fun m hm => ?_⟩
  · have hgraft : (hlistAddAfter x n L).Holds (a.set h ((pre ++ [x]) ++ [n] ++ post)) := by
      refine hL.graft ha' (List.nodup_singleton n) (by simpa using hn) ?_ ?_ ?_ ?_
      · rw [lastSlot_concat]
        refine ⟨⟨?_, ?_⟩, ?_, ?_⟩
        · simp [hlistAddAfter]
        · rintro y hy
          obtain rfl := Option.some.inj hy
          have hhead : post.head? ≠ some n := fun heq => hn (hout heq)
          rw [hlistAddAfter, hbehind, hread, setPprevIf_pprev_of_ne hhead, setPprev_pprev_self]
        · simp [hlistAddAfter, hbehind, hxn.symm]
        · intro y hy
          rw [hlistAddAfter, hbehind, hread, setPprevIf_pprev_self hy]
      · exact fun h' hne => hptr (by simp) (by simp)
      · refine fun m hm _ hne => hptr (fun heq => hn ?_) (by simpa using hne)
        simp_all
      · exact fun m hm _ hhead => hother (fun heq => hn (heq ▸ hm)) hhead
    simpa using hgraft
  · rw [not_or] at hm
    have hmx : m ≠ x := fun heq => hm.1 (heq ▸ hx)
    exact ⟨hptr (by simpa using hm.2) (by simpa using hmx),
      hother hm.2 fun hhead => hm.1 (hout hhead)⟩

/-- `__hlist_del`. -/
theorem _hlistDel_holds (hL : L.Holds a) (ha : a h = some (pre ++ x :: post)) :
    ∃ L', _hlistDel x L = .ok L' ∧ L'.Holds (a.set h (pre ++ post)) ∧ SameNodes L L' a.On := by
  have ha' : a h = some (pre ++ [x] ++ post) := by simpa using ha
  obtain ⟨hfront, hbehind⟩ := hL.seams_of_mem ha
  have hback : L.pprev x = some (lastSlot (.head h) pre) := hfront.2 x rfl
  have hout {y : N} (hy : post.head? = some y) : a.On y :=
    ⟨h, _, ha, by simp [List.mem_of_mem_head? hy]⟩
  obtain ⟨L', hL'⟩ : ∃ L', L' = setPprevIf post.head? (some (lastSlot (.head h) pre))
      (L.setPtr (lastSlot (.head h) pre) post.head?) := ⟨_, rfl⟩
  have hother {m : N} (hhead : post.head? ≠ some m) : L'.pprev m = L.pprev m := by
    rw [hL', setPprevIf_pprev_of_ne hhead, setPtr_pprev]
  have hptr {t : Slot H N} (hne : t ≠ lastSlot (.head h) pre) : L'.ptr t = L.ptr t := by
    simp [hL', hne]
  refine ⟨L', ?_, ?_, fun m hm => ⟨hptr ?_, hother fun hhead => hm (hout hhead)⟩⟩
  · rw [_hlistDel, hback, hbehind.1, hL']
    rfl
  · have hgraft : L'.Holds (a.set h (pre ++ [] ++ post)) := by
      refine hL.graft ha' List.nodup_nil (by simp) ⟨?_, ?_⟩ (fun h' hne => hptr hne)
        (fun m _ _ hne => hptr hne) fun m _ _ hhead => hother hhead
      · simp [hL']
      · intro y hy
        rw [hL', setPprevIf_pprev_self hy]
    simpa using hgraft
  · exact next_ne_lastSlot fun hmem => hm ⟨h, _, ha, List.mem_append_left _ hmem⟩

/-- `__hlist_del` of a node that only appears to be on a list. -/
theorem _hlistDel_fake (hpprev : L.pprev x = some (.next x)) (hnext : L.ptr (.next x) = none) :
    _hlistDel x L = .ok L := by
  have hsame : L.setPtr (.next x) none = L := by
    refine SlotLinks.ext (funext fun t => ?_) rfl
    by_cases ht : t = .next x
    · rw [ht, setPtr_ptr_self, hnext]
    · exact setPtr_ptr_of_ne ht _
  rw [_hlistDel, hpprev, hnext]
  exact congrArg Except.ok hsame

/-- `hlist_move_list`. The nodes of the list `new` has headed are lost, and so are those of `old`
when the two are one. -/
theorem hlistMoveList_holds {old new : H} (hL : L.Holds a) (ha : a old = some l) :
    (hlistMoveList old new L).Holds ((a.set new l).set old []) ∧
      SameNodes L (hlistMoveList old new L) a.On := by
  have ha' : a old = some ([] ++ l) := ha
  have hfirst : L.ptr (.head old) = l.head? := (hL.seam ha').1
  have hmem {y : N} (hy : l.head? = some y) : y ∈ l := List.mem_of_mem_head? hy
  have hread : (L.setPtr (.head new) l.head?).ptr (.head new) = l.head? := setPtr_ptr_self _
  have hnext (m : N) : (hlistMoveList old new L).ptr (.next m) = L.ptr (.next m) := by
    simp [hlistMoveList]
  have hother {m : N} (hhead : l.head? ≠ some m) :
      (hlistMoveList old new L).pprev m = L.pprev m := by
    rw [hlistMoveList, hfirst, hread, setPtr_pprev, setPprevIf_pprev_of_ne hhead, setPtr_pprev]
  have hself {m : N} (hhead : l.head? = some m) :
      (hlistMoveList old new L).pprev m = some (.head new) := by
    rw [hlistMoveList, hfirst, hread, setPtr_pprev, setPprevIf_pprev_self hhead]
  have hnull : (hlistMoveList old new L).Chain (.head old) [] none :=
    ⟨by simp [hlistMoveList], by simp⟩
  -- no other list has the node that is written
  have hothers : (hlistMoveList old new L).Holds ((a.erase old).erase new) := by
    refine ((hL.forget old).forget new).frame (fun h' hne => ?_) fun m hm => ⟨hnext m, ?_⟩
    · have hh : h' ≠ new := by
        rintro rfl
        exact hne (Function.update_self ..)
      have hh' : h' ≠ old := by
        rintro rfl
        rw [Lists.erase, Function.update_of_ne hh] at hne
        exact hne (Function.update_self ..)
      simp [hlistMoveList, hh, hh']
    · exact hother fun hhead => hL.off_forget ha (hmem hhead) hm.of_erase
  refine ⟨?_, fun m hm => ⟨hnext m, hother fun hhead => hm ⟨old, l, ha, hmem hhead⟩⟩⟩
  by_cases hno : new = old
  · subst hno
    have hsame : (a.erase new).erase new = (a.set new l).erase new := by
      rw [Lists.set_erase]
      exact Function.update_idem ..
    rw [hsame] at hothers
    exact hothers.insert List.nodup_nil hnull (by simp)
  · have hchain : (hlistMoveList old new L).Chain (.head new) l none := by
      cases l with
      | nil => exact ⟨by simp [hlistMoveList, hno, hfirst], by simp⟩
      | cons y l =>
        have hy : y ∉ l := (List.nodup_cons.mp (hL.nodup ha)).1
        refine ⟨⟨by simp [hlistMoveList, hno, hfirst], fun z hz => ?_⟩, ?_⟩
        · obtain rfl := Option.some.inj hz
          exact hself rfl
        · refine (hL.chain ha).2.congr (fun t ht => ?_) fun m hm => hother fun heq => ?_
          · obtain ⟨m, -, rfl⟩ := List.mem_map.mp (show t ∈ (y :: l).map .next from ht)
            exact hnext m
          · obtain rfl := Option.some.inj heq
            exact hy (hm.resolve_right (by simp))
    have hmoved := hothers.insert (hL.nodup ha) hchain fun m hm hon =>
      hL.off_forget ha hm hon.of_erase
    rw [← Lists.set_erase_comm hno] at hmoved
    exact hmoved.insert List.nodup_nil hnull (by simp)

end

end Vlstp
