import Mathlib.Data.List.Sort
import Mathlib.Algebra.Order.Group.Int
import Vlstp.Framework.Fallible
import Vlstp.Framework.Heap
import Vlstp.Framework.SlotPaths

/-!
# Insertion into a sorted list (`test_uls.c`)

`link_test1` and `list_test2` do the same thing in two ways. Both put a number of nodes in their
places in a sorted list, then print the list and free it. The one walks along with the address of
the pointer that leads to the current node, and stores the new node there; the other keeps the
node before the current one, and has to tell the front of the list apart.

They do the same to every memory, good or bad (`linkInsert_eq_listInsert`). Whatever the values are
and in whichever order they come, what is printed are the values in order, and every node that was
allocated has been freed (`sorted_insertion`).
-/

namespace Vlstp

open SlotLinks

/-! ### Definitions -/

/-- The variable `head`, and the memory of the `struct node`s. -/
structure NodeMem where
  ptr : Slot Unit ℕ → Option ℕ
  value : ℕ → ℤ
  live : ℕ → Bool

namespace NodeMem

/-- A node is looked at. -/
def touch (n : ℕ) (m : NodeMem) : Except Fault Unit :=
  if m.live n then .ok () else .error (.useAfterFree n)

/-- A slot is looked at: `&head`, or the `next` of a node. -/
def touchSlot (s : Slot Unit ℕ) (m : NodeMem) : Except Fault Unit :=
  match s with
  | .head _ => .ok ()
  | .next n => m.touch n

/-- `*s`. -/
def load (s : Slot Unit ℕ) (m : NodeMem) : Except Fault (Option ℕ) := do
  m.touchSlot s
  return m.ptr s

/-- `*s = p`. -/
def store (s : Slot Unit ℕ) (p : Option ℕ) (m : NodeMem) : Except Fault NodeMem := do
  m.touchSlot s
  return { m with ptr := Function.update m.ptr s p }

/-- `n->value`. -/
def loadValue (n : ℕ) (m : NodeMem) : Except Fault ℤ := do
  m.touch n
  return m.value n

/-- `free(n)`. -/
def free (n : ℕ) (m : NodeMem) : Except Fault NodeMem :=
  if m.live n then .ok { m with live := Function.update m.live n false }
  else .error (.doubleFree n)

end NodeMem

/-- `new = malloc(sizeof(struct node)); new->value = i; new->next = current;`, where `malloc` has
answered `p`, which is not checked. -/
def newNode (p : Ptr) (i : ℤ) (current : Option ℕ) (m : NodeMem) : Except Fault (ℕ × NodeMem) :=
  match p with
  | none => .error .nullDeref
  | some new => .ok (new,
      { ptr := Function.update m.ptr (.next new) current
        value := Function.update m.value new i
        live := Function.update m.live new true })

/-- The `while` loop of `link_test1`, with the address `ppev` of a pointer. -/
def linkLoop (i : ℤ) (m : NodeMem) : ℕ → Slot Unit ℕ → Except Fault (Slot Unit ℕ × Option ℕ)
  | 0, _ => .error .diverge
  | fuel + 1, ppev => do
    match ← m.load ppev with
    | none => return (ppev, none)
    | some current =>
      if (← m.loadValue current) < i then linkLoop i m fuel (.next current)
      else return (ppev, some current)

/-- The body of the `for` loop of `link_test1`. -/
def linkInsert (fuel : ℕ) (i : ℤ) (p : Ptr) (m : NodeMem) : Except Fault NodeMem := do
  let (ppev, current) ← linkLoop i m fuel (.head ())
  let (new, m) ← newNode p i current m
  m.store ppev (some new)

/-- The `while` loop of `list_test2`, with the node `ppev` before the current one. -/
def listLoop (i : ℤ) (m : NodeMem) :
    ℕ → Option ℕ → Option ℕ → Except Fault (Option ℕ × Option ℕ)
  | 0, _, _ => .error .diverge
  | _ + 1, ppev, none => .ok (ppev, none)
  | fuel + 1, ppev, some current => do
    if (← m.loadValue current) < i then
      let next ← m.load (.next current)
      listLoop i m fuel (some current) next
    else return (ppev, some current)

/-- The body of the `for` loop of `list_test2`. -/
def listInsert (fuel : ℕ) (i : ℤ) (p : Ptr) (m : NodeMem) : Except Fault NodeMem := do
  let (ppev, current) ← listLoop i m fuel none (m.ptr (.head ()))
  let (new, m) ← newNode p i current m
  match ppev with
  | none => m.store (.head ()) (some new)
  | some n => m.store (.next n) (some new)

/-- The last loop of both, which prints the values and frees the nodes. -/
def printAndDelete : ℕ → NodeMem → Except Fault (List ℤ × NodeMem)
  | 0, _ => .error .diverge
  | fuel + 1, m =>
    match m.ptr (.head ()) with
    | none => .ok ([], m)
    | some head => do
      let next ← m.load (.next head)
      let value ← m.loadValue head
      let m ← m.free head
      let m ← m.store (.head ()) next
      let (values, m) ← printAndDelete fuel m
      return (value :: values, m)

/-- What `link_test1` and `list_test2` have in common: a node with the value `first`, then one for
each of the values `is`, and the list is printed and deleted. The `k`-th call of `malloc` answers
`malloc k`. -/
def insertionTest (insert : ℕ → ℤ → Ptr → NodeMem → Except Fault NodeMem) (first : ℤ) (is : List ℤ)
    (malloc : ℕ → Ptr) (fuel : ℕ) (m : NodeMem) : Except Fault (List ℤ × NodeMem) := do
  let (head, m) ← newNode (malloc 0) first none m
  let m ← m.store (.head ()) (some head)
  let m ← (is.zipIdx 1).foldlM (fun m ik => insert fuel ik.1 (malloc ik.2) m) m
  printAndDelete fuel m

/-- `link_test1`. -/
def linkTest1 : (ℕ → Ptr) → ℕ → NodeMem → Except Fault (List ℤ × NodeMem) :=
  insertionTest linkInsert 20 ((List.range 20).map (↑))

/-- `list_test2`. -/
def listTest2 : (ℕ → Ptr) → ℕ → NodeMem → Except Fault (List ℤ × NodeMem) :=
  insertionTest listInsert 20 ((List.range 20).map (↑))

/-! ### The two ways to insert -/

/-- The slot behind the node `ppev`, or the front of the list. -/
def slotBehind : Option ℕ → Slot Unit ℕ
  | none => .head ()
  | some n => .next n

section

variable {fuel k : ℕ} {i : ℤ} {p : Ptr} {m m₀ : NodeMem} {l pre post : List ℕ} {s : Slot Unit ℕ}
  {n : ℕ}

theorem NodeMem.touch_of_live (hn : m.live n = true) : m.touch n = .ok () := if_pos hn

theorem NodeMem.load_next (hn : m.live n = true) : m.load (.next n) = .ok (m.ptr (.next n)) := by
  rw [NodeMem.load, NodeMem.touchSlot, touch_of_live hn]
  rfl

theorem NodeMem.loadValue_eq (hn : m.live n = true) : m.loadValue n = .ok (m.value n) := by
  rw [NodeMem.loadValue, touch_of_live hn]
  rfl

/-- The loops take the same turns, and stop at the same place. -/
theorem linkLoop_eq_listLoop (ppev : Option ℕ) {current : Option ℕ}
    (hload : m.load (slotBehind ppev) = .ok current) :
    linkLoop i m fuel (slotBehind ppev) =
      (listLoop i m fuel ppev current).map fun s => (slotBehind s.1, s.2) := by
  induction fuel generalizing ppev current with
  | zero => rfl
  | succ fuel ih =>
    rw [linkLoop, hload, Except.ok_bind]
    cases current with
    | none => rfl
    | some current =>
      simp only [listLoop]
      by_cases hlive : m.live current = true
      · have hnext := NodeMem.load_next hlive
        simp only [NodeMem.loadValue_eq hlive, Except.ok_bind, hnext]
        by_cases hlt : m.value current < i
        · rw [if_pos hlt, if_pos hlt]
          exact ih (some current) hnext
        · rw [if_neg hlt, if_neg hlt]
          rfl
      · -- both fault when they look at the value
        have hfault : m.loadValue current = .error (.useAfterFree current) := by
          rw [NodeMem.loadValue, NodeMem.touch, if_neg hlive]
          rfl
        simp only [hfault]
        rfl

/-- **The two ways to insert are one**, in every memory. -/
theorem linkInsert_eq_listInsert (fuel : ℕ) (i : ℤ) (p : Ptr) (m : NodeMem) :
    linkInsert fuel i p m = listInsert fuel i p m := by
  have hfront : m.load (.head ()) = .ok (m.ptr (.head ())) := rfl
  have hloop : linkLoop i m fuel (.head ()) =
      (listLoop i m fuel none (m.ptr (.head ()))).map fun s => (slotBehind s.1, s.2) :=
    linkLoop_eq_listLoop none hfront
  unfold linkInsert listInsert
  rw [hloop]
  cases listLoop i m fuel none (m.ptr (.head ())) with
  | error e => rfl
  | ok s =>
    obtain ⟨ppev, current⟩ := s
    simp only [Except.map, Except.ok_bind]
    cases newNode p i current m with
    | error e => rfl
    | ok q =>
      cases ppev with
      | none => rfl
      | some n => rfl

/-! ### One insertion -/

/-- The list at `head` has the nodes `l`, which are allocated, and nothing else is that was not in
`m₀`. -/
structure HoldsNodes (m₀ m : NodeMem) (l : List ℕ) : Prop where
  path : SlotPath m.ptr (.head ()) l none
  nodup : l.Nodup
  live : ∀ n, m.live n = true ↔ m₀.live n = true ∨ n ∈ l
  fresh : ∀ n ∈ l, m₀.live n = false

/-- The loop stops at the first node whose value is not below `i`. -/
theorem linkLoop_eq (hp : SlotPath m.ptr s l none) (hs : m.touchSlot s = .ok ())
    (hlive : ∀ n ∈ l, m.live n = true) (hfuel : l.length < fuel) :
    linkLoop i m fuel s = .ok (lastSlot s (l.takeWhile fun n => ¬ i ≤ m.value n),
      (l.dropWhile fun n => ¬ i ≤ m.value n).head?) := by
  induction l generalizing s fuel with
  | nil =>
    obtain ⟨fuel, rfl⟩ : ∃ n, fuel = n + 1 := ⟨fuel - 1, by omega⟩
    have hload : m.load s = .ok none := by
      rw [NodeMem.load, hs, Except.ok_bind, show m.ptr s = none from hp]
      rfl
    rw [linkLoop, hload]
    rfl
  | cons x l ih =>
    obtain ⟨fuel, rfl⟩ : ∃ n, fuel = n + 1 := ⟨fuel - 1, by omega⟩
    obtain ⟨hx, hlive⟩ := List.forall_mem_cons.mp hlive
    rw [List.length_cons] at hfuel
    have hload : m.load s = .ok (some x) := by
      rw [NodeMem.load, hs, Except.ok_bind, hp.1]
      rfl
    rw [linkLoop, hload]
    simp only [Except.ok_bind, NodeMem.loadValue_eq hx, List.takeWhile_cons, List.dropWhile_cons]
    by_cases hlt : m.value x < i
    · rw [if_pos hlt, decide_eq_true (Int.not_le.mpr hlt)]
      exact ih hp.2 (NodeMem.touch_of_live hx) hlive (by omega)
    · rw [if_neg hlt, decide_eq_false (not_not.mpr (Int.not_lt.mp hlt))]
      rfl

/-- **One insertion.** The new node comes in front of the first one whose value is not below `i`. -/
theorem HoldsNodes.insert (hl : HoldsNodes m₀ m l) (hfresh : m₀.live n = false) (hn : n ∉ l)
    (hfuel : l.length < fuel) :
    ∃ m', linkInsert fuel i (some n) m = .ok m' ∧
      HoldsNodes m₀ m' ((l.takeWhile fun n => ¬ i ≤ m.value n) ++
        n :: l.dropWhile fun n => ¬ i ≤ m.value n) ∧
      m'.value = Function.update m.value n i := by
  set pre := l.takeWhile fun n => ¬ i ≤ m.value n with hpre
  set post := l.dropWhile fun n => ¬ i ≤ m.value n with hpost
  have hsplit : pre ++ post = l := List.takeWhile_append_dropWhile
  have hlive (x : ℕ) (hx : x ∈ l) : m.live x = true := (hl.live x).mpr (Or.inr hx)
  have hloop := linkLoop_eq (i := i) hl.path rfl hlive hfuel
  rw [← hpre, ← hpost] at hloop
  rw [← hsplit] at hl hn
  have hseam : m.ptr (lastSlot (.head ()) pre) = post.head? := by
    have hseam := hl.path.seam
    rwa [Option.or_none] at hseam
  -- the memory with the new node, which nothing points to yet
  set m₁ : NodeMem :=
    { ptr := Function.update m.ptr (.next n) post.head?
      value := Function.update m.value n i
      live := Function.update m.live n true } with hm₁
  have hslot : m₁.touchSlot (lastSlot (.head ()) pre) = .ok () := by
    rcases lastSlot_eq (s := Slot.head ()) (l := pre) with heq | ⟨x, hx, heq⟩
    · rw [heq]
      rfl
    · rw [heq]
      refine NodeMem.touch_of_live (m := m₁) ?_
      have hne : x ≠ n := fun heq => hn (heq ▸ List.mem_append_left post hx)
      exact (Function.update_of_ne hne ..).trans
        ((hl.live x).mpr (Or.inr (List.mem_append_left post hx)))
  have hhead (x : ℕ) : (Slot.head () : Slot Unit ℕ) ≠ .next x := by
    rintro ⟨⟩
  have hpath := hl.path.insert hl.nodup (fun x _ => hhead x) (hhead n) hn
  rw [hseam] at hpath
  have hperm : (pre ++ n :: post).Perm (n :: (pre ++ post)) := List.perm_middle
  refine ⟨{ m₁ with ptr := Function.update m₁.ptr (lastSlot (.head ()) pre) (some n) }, ?_,
    ⟨hpath, ?_, fun x => ?_, fun x hx => ?_⟩, rfl⟩
  · simp only [linkInsert, hloop, Except.ok_bind, newNode]
    rw [← hm₁, NodeMem.store, hslot]
    rfl
  · exact hperm.nodup_iff.mpr (List.nodup_cons.mpr ⟨hn, hl.nodup⟩)
  · rw [hperm.mem_iff, List.mem_cons]
    by_cases hxn : x = n
    · subst hxn
      exact iff_of_true (Function.update_self ..) (Or.inr (Or.inl rfl))
    · have hold : m₁.live x = m.live x := Function.update_of_ne hxn ..
      change m₁.live x = true ↔ _
      rw [hold, hl.live x, or_iff_right hxn]
  · rcases List.mem_cons.mp (hperm.mem_iff.mp hx) with rfl | hx
    · exact hfresh
    · exact hl.fresh x hx

/-- The values after an insertion. -/
theorem map_value_insert (hn : n ∉ l) :
    (((l.takeWhile fun n => ¬ i ≤ m.value n) ++ n :: l.dropWhile fun n => ¬ i ≤ m.value n).map
      (Function.update m.value n i)) = (l.map m.value).orderedInsert (· ≤ ·) i := by
  have hsame {l' : List ℕ} (hl' : ∀ x ∈ l', x ∈ l) :
      l'.map (Function.update m.value n i) = l'.map m.value := by
    refine List.map_congr_left fun x hx => Function.update_of_ne ?_ ..
    rintro rfl
    exact hn (hl' x hx)
  rw [List.orderedInsert_eq_take_drop, List.takeWhile_map, List.dropWhile_map, List.map_append,
    List.map_cons, Function.update_self, hsame fun x hx => (List.takeWhile_sublist _).subset hx,
    hsame fun x hx => (List.dropWhile_sublist _).subset hx]
  rfl

/-! ### Any number of insertions -/

/-- `malloc` finds memory for `k` nodes, and nobody else has it. -/
structure Mallocs (malloc : ℕ → Ptr) (m₀ : NodeMem) (k : ℕ) : Prop where
  found : ∀ j, j < k → ∃ n, malloc j = some n ∧ m₀.live n = false
  distinct : ∀ i j, i < k → j < k → malloc i = malloc j → i = j

theorem Mallocs.mono {malloc : ℕ → Ptr} {j : ℕ} (hm : Mallocs malloc m₀ k) (hj : j ≤ k) :
    Mallocs malloc m₀ j where
  found i hi := hm.found i (hi.trans_le hj)
  distinct i i' hi hi' := hm.distinct i i' (hi.trans_le hj) (hi'.trans_le hj)

/-- The list has the values `vs`, in nodes that the first `k` calls of `malloc` have handed out. -/
structure HoldsValues (malloc : ℕ → Ptr) (k : ℕ) (m₀ m : NodeMem) (vs : List ℤ) : Prop where
  nodes : ∃ l, HoldsNodes m₀ m l ∧ l.map m.value = vs ∧ ∀ n ∈ l, ∃ j < k, malloc j = some n

variable {malloc : ℕ → Ptr} {vs is : List ℤ} {first : ℤ}

theorem HoldsValues.insert (hv : HoldsValues malloc k m₀ m vs) (hm : Mallocs malloc m₀ (k + 1))
    (hfuel : vs.length < fuel) :
    ∃ m', linkInsert fuel i (malloc k) m = .ok m' ∧
      HoldsValues malloc (k + 1) m₀ m' (vs.orderedInsert (· ≤ ·) i) := by
  obtain ⟨l, hl, rfl, hmalloc⟩ := hv.nodes
  obtain ⟨n, hn, hfresh⟩ := hm.found k (Nat.lt_succ_self k)
  have hout : n ∉ l := by
    intro hmem
    obtain ⟨j, hj, hjn⟩ := hmalloc n hmem
    have heq := hm.distinct j k (Nat.lt_succ_of_lt hj) (Nat.lt_succ_self k) (hjn.trans hn.symm)
    exact absurd heq (Nat.ne_of_lt hj)
  rw [List.length_map] at hfuel
  obtain ⟨m', hins, hl', hvalue⟩ := hl.insert (i := i) hfresh hout hfuel
  refine ⟨m', by rw [hn, hins], ⟨_, hl', ?_, fun x hx => ?_⟩⟩
  · rw [hvalue, map_value_insert hout]
  · rcases List.mem_cons.mp (List.perm_middle.mem_iff.mp hx) with rfl | hx
    · exact ⟨k, Nat.lt_succ_self k, hn⟩
    · rw [List.takeWhile_append_dropWhile] at hx
      obtain ⟨j, hj, hjn⟩ := hmalloc x hx
      exact ⟨j, by omega, hjn⟩

/-- The `for` loop. -/
theorem HoldsValues.run (hv : HoldsValues malloc k m₀ m vs)
    (hm : Mallocs malloc m₀ (k + is.length)) (hfuel : vs.length + is.length < fuel) :
    ∃ m', (is.zipIdx k).foldlM (fun m ik => linkInsert fuel ik.1 (malloc ik.2) m) m = .ok m' ∧
      HoldsValues malloc (k + is.length) m₀ m'
        (is.foldl (fun vs i => vs.orderedInsert (· ≤ ·) i) vs) := by
  induction is generalizing k vs m with
  | nil => exact ⟨m, rfl, hv⟩
  | cons i is ih =>
    rw [List.length_cons] at hm hfuel
    obtain ⟨m₁, hins, hv₁⟩ := hv.insert (i := i) (hm.mono (by omega))
      (by omega : vs.length < fuel)
    have hlen : (vs.orderedInsert (· ≤ ·) i).length = vs.length + 1 := List.orderedInsert_length ..
    obtain ⟨m', hrun, hv'⟩ := ih hv₁ (hm.mono (by omega)) (by omega)
    refine ⟨m', ?_, ?_⟩
    · rw [List.zipIdx_cons, List.foldlM_cons, hins, Except.ok_bind]
      exact hrun
    · rw [List.length_cons, Nat.add_comm is.length 1, ← Nat.add_assoc]
      exact hv'

/-- The last loop prints the values and frees the nodes. -/
theorem HoldsNodes.printAndDelete (hl : HoldsNodes m₀ m l) (hfuel : l.length < fuel) :
    ∃ m', Vlstp.printAndDelete fuel m = .ok (l.map m.value, m') ∧ m'.live = m₀.live := by
  induction l generalizing m fuel with
  | nil =>
    obtain ⟨fuel, rfl⟩ : ∃ n, fuel = n + 1 := ⟨fuel - 1, by omega⟩
    refine ⟨m, ?_, funext fun n => ?_⟩
    · rw [Vlstp.printAndDelete, show m.ptr (.head ()) = none from hl.path]
      rfl
    · rw [Bool.eq_iff_iff, hl.live n, or_iff_left List.not_mem_nil]
  | cons x l ih =>
    obtain ⟨fuel, rfl⟩ : ∃ n, fuel = n + 1 := ⟨fuel - 1, by omega⟩
    obtain ⟨hx, hnodup⟩ := List.nodup_cons.mp hl.nodup
    have hlive : m.live x = true := (hl.live x).mpr (Or.inr List.mem_cons_self)
    rw [List.length_cons] at hfuel
    -- the memory without the first node
    set m₁ : NodeMem :=
      { ptr := Function.update m.ptr (.head ()) (m.ptr (.next x))
        value := m.value
        live := Function.update m.live x false } with hm₁
    have hptr : m₁.ptr = Function.update m.ptr (.head ()) (m.ptr (.next x)) := rfl
    have hlv : m₁.live = Function.update m.live x false := rfl
    have hfront : m₁.ptr (.head ()) = m.ptr (.next x) := by rw [hptr, Function.update_self]
    have hback (n : ℕ) : m₁.ptr (.next n) = m.ptr (.next n) := by
      rw [hptr, Function.update_of_ne]
      rintro ⟨⟩
    have hl₁ : HoldsNodes m₀ m₁ l := by
      refine ⟨hl.path.2.congr hfront fun n _ => hback n, hnodup, fun n => ?_,
        fun n hn => hl.fresh n (List.mem_cons_of_mem x hn)⟩
      by_cases hnx : n = x
      · -- it was not allocated before, and is not any more
        subst hnx
        have hfresh := hl.fresh n List.mem_cons_self
        rw [hlv, Function.update_self, hfresh]
        exact iff_of_false Bool.false_ne_true (not_or.mpr ⟨Bool.false_ne_true, hx⟩)
      · rw [hlv, Function.update_of_ne hnx, hl.live n, List.mem_cons, or_iff_right (a := n = x) hnx]
    obtain ⟨m', hrun, hend⟩ := ih hl₁ (by omega : l.length < fuel)
    refine ⟨m', ?_, hend⟩
    have hfree : m.free x = .ok { m with live := Function.update m.live x false } := if_pos hlive
    have hstore : NodeMem.store (.head ()) (m.ptr (.next x))
        { m with live := Function.update m.live x false } = .ok m₁ := rfl
    rw [Vlstp.printAndDelete, hl.path.1]
    simp only [NodeMem.load_next hlive, NodeMem.loadValue_eq hlive, hfree, Except.ok_bind, hstore,
      hrun]
    rfl

/-! ### The tests -/

/-- What the two tests do: they do the same, and if `malloc` always finds memory they print the
values in order and free what they have allocated. -/
structure SortsExactly (first : ℤ) (is : List ℤ) (malloc : ℕ → Ptr) (fuel : ℕ) (m : NodeMem) :
    Prop where
  same : insertionTest listInsert first is malloc fuel m =
    insertionTest linkInsert first is malloc fuel m
  sorted : ∃ m', insertionTest linkInsert first is malloc fuel m =
      .ok ((first :: is).insertionSort (· ≤ ·), m') ∧ m'.live = m.live

/-- Insertion one by one sorts. -/
theorem foldl_orderedInsert_eq (vs is : List ℤ) (hvs : vs.Pairwise (· ≤ ·)) :
    is.foldl (fun vs i => vs.orderedInsert (· ≤ ·) i) vs = (vs ++ is).insertionSort (· ≤ ·) := by
  induction is generalizing vs with
  | nil => rw [List.append_nil, hvs.insertionSort_eq, List.foldl_nil]
  | cons i is ih =>
    rw [List.foldl_cons, ih _ (hvs.orderedInsert i vs)]
    -- both sides are the same values in order
    refine List.Perm.eq_of_pairwise' (List.pairwise_insertionSort _ _)
      (List.pairwise_insertionSort _ _) ?_
    have hins : (vs.orderedInsert (· ≤ ·) i ++ is).Perm (i :: vs ++ is) :=
      (List.perm_orderedInsert ..).append_right is
    have hmove : (i :: vs ++ is).Perm (vs ++ i :: is) := List.perm_middle.symm
    exact (List.perm_insertionSort ..).trans
      ((hins.trans hmove).trans (List.perm_insertionSort ..).symm)

/-- **The tests sort**, whatever the values are and in whichever order they come, and wherever
`malloc` finds memory: both print the values in order and free every node they have allocated. The
loops end, after a turn for each node and one more. -/
theorem sorted_insertion (hm : Mallocs malloc m (is.length + 1)) (hfuel : is.length + 1 < fuel) :
    SortsExactly first is malloc fuel m where
  same := by
    unfold insertionTest
    simp only [linkInsert_eq_listInsert]
  sorted := by
    obtain ⟨n, hn, hfresh⟩ := hm.found 0 (Nat.succ_pos _)
    -- the list of the first node
    set m₁ : NodeMem :=
      { ptr := Function.update (Function.update m.ptr (.next n) none) (.head ()) (some n)
        value := Function.update m.value n first
        live := Function.update m.live n true } with hm₁
    have hptr : m₁.ptr =
        Function.update (Function.update m.ptr (.next n) none) (.head ()) (some n) := rfl
    have hlv : m₁.live = Function.update m.live n true := rfl
    have hvl : m₁.value = Function.update m.value n first := rfl
    have hhead : m₁.ptr (.head ()) = some n := by rw [hptr, Function.update_self]
    have hnext : m₁.ptr (.next n) = none := by
      rw [hptr, Function.update_of_ne, Function.update_self]
      rintro ⟨⟩
    have hv₁ : HoldsValues malloc 1 m m₁ [first] := by
      refine ⟨[n], ⟨⟨hhead, hnext⟩, List.nodup_singleton n, fun x => ?_, fun x hx => ?_⟩, ?_,
        fun x hx => ⟨0, Nat.one_pos, ?_⟩⟩
      · rw [List.mem_singleton, hlv]
        by_cases hxn : x = n
        · subst hxn
          exact iff_of_true (Function.update_self ..) (Or.inr rfl)
        · rw [Function.update_of_ne hxn, or_iff_left hxn]
      · rwa [List.mem_singleton.mp hx]
      · rw [List.map_singleton, hvl, Function.update_self]
      · rw [List.mem_singleton.mp hx, hn]
    rw [Nat.add_comm] at hm hfuel
    obtain ⟨m₂, hrun, l, hl, hvalues, -⟩ := hv₁.run hm hfuel
    rw [foldl_orderedInsert_eq _ _ (List.pairwise_singleton ..)] at hvalues
    have hlen : l.length = 1 + is.length := by
      rw [← List.length_map (f := m₂.value), hvalues, List.length_insertionSort, List.length_append,
        List.length_singleton]
    obtain ⟨m₃, hprint, hlive⟩ := hl.printAndDelete (by omega : l.length < fuel)
    refine ⟨m₃, ?_, hlive⟩
    have hnew : newNode (malloc 0) first none m =
        .ok (n, ⟨Function.update m.ptr (.next n) none, m₁.value, m₁.live⟩) := by
      rw [hn]
      rfl
    have hstore : NodeMem.store (.head ()) (some n)
        ⟨Function.update m.ptr (.next n) none, m₁.value, m₁.live⟩ = .ok m₁ := rfl
    simp only [insertionTest, hnew, hstore, hrun, hprint, hvalues, Except.ok_bind]
    rfl

end

/-- `link_test1` and `list_test2`, when `malloc` answers the addresses from 0 on. -/
theorem sorted_insertion_test1 :
    SortsExactly 20 ((List.range 20).map (↑)) some 22 ⟨fun _ => none, fun _ => 0, fun _ => false⟩ ∧
      listTest2 some 22 ⟨fun _ => none, fun _ => 0, fun _ => false⟩ =
        linkTest1 some 22 ⟨fun _ => none, fun _ => 0, fun _ => false⟩ := by
  have hsorts : SortsExactly 20 ((List.range 20).map (↑)) some 22
      ⟨fun _ => none, fun _ => 0, fun _ => false⟩ :=
    sorted_insertion ⟨fun j _ => ⟨j, rfl, rfl⟩, fun i j _ _ heq => Option.some.inj heq⟩ (by decide)
  exact ⟨hsorts, hsorts.same⟩

end Vlstp
