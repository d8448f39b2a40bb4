import Vlstp.Framework.Reach
import Vlstp.ListHead.Operations

/-!
# Runs of list operations

`listStep` is one call of a function of `list.h`, with what it returns. `ListMove` is what the
comments in `list.h` say about it: which lists there are before, what the caller has to keep to, and
which lists there are behind. A node that is taken out and initialised heads an empty list, as the
code cannot tell the two apart.

`list_runs_refine` puts the two together for runs of any length, from memory with arbitrary
contents: as long as the callers keep to the contracts, no `NULL` is followed, every question is
answered as the lists have it, and the memory holds just the lists of the abstract run.
-/

namespace Vlstp

variable {N : Type} [DecidableEq N]

/-! ### Calls -/

/-- A call of a function of `list.h`. -/
inductive ListCall (N : Type)
  | init (list : N)
  | add (new head : N)
  | addTail (new head : N)
  | del (entry : N)
  | delInit (entry : N)
  | replace (old new : N)
  | replaceInit (old new : N)
  | move (list head : N)
  | moveTail (list head : N)
  | rotateLeft (head : N)
  | cutPosition (list head entry : N)
  | splice (list head : N)
  | spliceTail (list head : N)
  | spliceInit (list head : N)
  | spliceTailInit (list head : N)
  | isLast (list head : N)
  | empty (head : N)
  | emptyCareful (head : N)
  | isSingular (head : N)
  deriving DecidableEq

/-- One call. The functions that ask something return an answer, the others nothing. -/
def listStep (poison1 poison2 : Option N) (L : Links N) :
    ListCall N → Except Fault (Option Bool × Links N)
  | .init list => .ok (none, initListHead list L)
  | .add new head => do return (none, ← listAdd new (some head) L)
  | .addTail new head => do return (none, ← listAddTail new head L)
  | .del entry => do return (none, ← listDel poison1 poison2 entry L)
  | .delInit entry => do return (none, ← listDelInit entry L)
  | .replace old new => do return (none, ← listReplace old new L)
  | .replaceInit old new => do return (none, ← listReplaceInit old new L)
  | .move list head => do return (none, ← listMove list head L)
  | .moveTail list head => do return (none, ← listMoveTail list head L)
  | .rotateLeft head => do return (none, ← listRotateLeft head L)
  | .cutPosition list head entry => do return (none, ← listCutPosition list head entry L)
  | .splice list head => do return (none, ← listSplice list head L)
  | .spliceTail list head => do return (none, ← listSpliceTail list head L)
  | .spliceInit list head => do return (none, ← listSpliceInit list head L)
  | .spliceTailInit list head => do return (none, ← listSpliceTailInit list head L)
  | .isLast list head => .ok (some (listIsLast list head L), L)
  | .empty head => .ok (some (listEmpty head L), L)
  | .emptyCareful head => .ok (some (listEmptyCareful head L), L)
  | .isSingular head => .ok (some (listIsSingular head L), L)

/-! ### The lists -/

/-- `p` is the node before the place `pre ++ post` of the list of `h`. -/
structure PlaceAfter (a : Rings N) (p h : N) (pre post : List N) : Prop where
  list : a h = some (pre ++ post)
  node : pre.getLastD h = p

/-- `p` is the node behind the place `pre ++ post` of the list of `h`. -/
structure PlaceBefore (a : Rings N) (p h : N) (pre post : List N) : Prop where
  list : a h = some (pre ++ post)
  node : post.headD h = p

/-- **What the calls do to lists.** A node that is put on a list, or made the head of one, is on the
list of no other; if it heads a list itself, as a node does that was initialised, that list is given
up (`a.erase`). -/
inductive ListMove : Rings N → ListCall N × Option Bool → Rings N → Prop
  | init {a : Rings N} {x : N} (hx : ¬ (a.erase x).On x) : ListMove a (.init x, none) (a.set x [])
  | add {a : Rings N} {new p h : N} {pre post : List N}
      (hp : PlaceAfter (a.erase new) p h pre post) (hnew : ¬ (a.erase new).On new) :
      ListMove a (.add new p, none) ((a.erase new).set h (pre ++ new :: post))
  | addTail {a : Rings N} {new p h : N} {pre post : List N}
      (hp : PlaceBefore (a.erase new) p h pre post) (hnew : ¬ (a.erase new).On new) :
      ListMove a (.addTail new p, none) ((a.erase new).set h (pre ++ new :: post))
  | del {a : Rings N} {x h : N} {pre post : List N} (hx : a h = some (pre ++ x :: post)) :
      ListMove a (.del x, none) (a.set h (pre ++ post))
  | delEmpty {a : Rings N} {x : N} (hx : a x = some []) :
      ListMove a (.del x, none) (a.erase x)
  | delInit {a : Rings N} {x h : N} {pre post : List N} (hx : a h = some (pre ++ x :: post)) :
      ListMove a (.delInit x, none) ((a.set h (pre ++ post)).set x [])
  /-- A node that has been taken out already. -/
  | delInitEmpty {a : Rings N} {x : N} (hx : a x = some []) : ListMove a (.delInit x, none) a
  | replace {a : Rings N} {x new h : N} {pre post : List N}
      (hx : a.erase new h = some (pre ++ x :: post)) (hnew : ¬ (a.erase new).On new) :
      ListMove a (.replace x new, none) ((a.erase new).set h (pre ++ new :: post))
  | replaceHead {a : Rings N} {x new : N} {l : List N} (hx : a.erase new x = some l)
      (hnew : ¬ (a.erase new).On new) :
      ListMove a (.replace x new, none) (((a.erase new).erase x).set new l)
  | replaceInit {a : Rings N} {x new h : N} {pre post : List N}
      (hx : a.erase new h = some (pre ++ x :: post)) (hnew : ¬ (a.erase new).On new) :
      ListMove a (.replaceInit x new, none)
        (((a.erase new).set h (pre ++ new :: post)).set x [])
  | replaceInitHead {a : Rings N} {x new : N} {l : List N} (hx : a.erase new x = some l)
      (hnew : ¬ (a.erase new).On new) :
      ListMove a (.replaceInit x new, none) ((((a.erase new).erase x).set new l).set x [])
  /-- The place is one of the list the node has left. -/
  | move {a : Rings N} {x h p h' : N} {pre post pre' post' : List N}
      (hx : a h = some (pre ++ x :: post))
      (hp : PlaceAfter (a.set h (pre ++ post)) p h' pre' post') :
      ListMove a (.move x p, none) ((a.set h (pre ++ post)).set h' (pre' ++ x :: post'))
  | moveTail {a : Rings N} {x h p h' : N} {pre post pre' post' : List N}
      (hx : a h = some (pre ++ x :: post))
      (hp : PlaceBefore (a.set h (pre ++ post)) p h' pre' post') :
      ListMove a (.moveTail x p, none) ((a.set h (pre ++ post)).set h' (pre' ++ x :: post'))
  | moveEmpty {a : Rings N} {x p h : N} {pre post : List N} (hx : a x = some [])
      (hp : PlaceAfter (a.erase x) p h pre post) :
      ListMove a (.move x p, none) ((a.erase x).set h (pre ++ x :: post))
  | moveTailEmpty {a : Rings N} {x p h : N} {pre post : List N} (hx : a x = some [])
      (hp : PlaceBefore (a.erase x) p h pre post) :
      ListMove a (.moveTail x p, none) ((a.erase x).set h (pre ++ x :: post))
  | rotateLeft {a : Rings N} {h : N} {l : List N} (hl : a h = some l) :
      ListMove a (.rotateLeft h, none) (a.set h (l.rotate 1))
  | cutPosition {a : Rings N} {x h list : N} {pre post : List N}
      (hx : a h = some (pre ++ x :: post)) (hlist : ¬ (a.erase list).On list) (hne : list ≠ h) :
      ListMove a (.cutPosition list h x, none) ((a.set h post).set list (pre ++ [x]))
  | cutPositionHead {a : Rings N} {h list : N} {l : List N} (hl : a h = some l) (hnil : l ≠ [])
      (hlist : ¬ (a.erase list).On list) :
      ListMove a (.cutPosition list h h, none) (a.set list [])
  /-- Of an empty list nothing is cut off, and the other head is not written. -/
  | cutPositionEmpty {a : Rings N} {x h list : N} (hl : a h = some []) :
      ListMove a (.cutPosition list h x, none) a
  | splice {a : Rings N} {p h list : N} {l pre post : List N} (hp : PlaceAfter a p h pre post)
      (hl : a list = some l) (hne : list ≠ h) :
      ListMove a (.splice list p, none)
        (if l = [] then a else (a.erase list).set h (pre ++ l ++ post))
  | spliceTail {a : Rings N} {p h list : N} {l pre post : List N} (hp : PlaceBefore a p h pre post)
      (hl : a list = some l) (hne : list ≠ h) :
      ListMove a (.spliceTail list p, none)
        (if l = [] then a else (a.erase list).set h (pre ++ l ++ post))
  | spliceInit {a : Rings N} {p h list : N} {l pre post : List N} (hp : PlaceAfter a p h pre post)
      (hl : a list = some l) (hne : list ≠ h) :
      ListMove a (.spliceInit list p, none) ((a.set h (pre ++ l ++ post)).set list [])
  | spliceTailInit {a : Rings N} {p h list : N} {l pre post : List N}
      (hp : PlaceBefore a p h pre post) (hl : a list = some l) (hne : list ≠ h) :
      ListMove a (.spliceTailInit list p, none) ((a.set h (pre ++ l ++ post)).set list [])
  | isLast {a : Rings N} {x h : N} {pre post : List N} (hx : a h = some (pre ++ x :: post)) :
      ListMove a (.isLast x h, some (decide (post = []))) a
  | empty {a : Rings N} {h : N} {l : List N} (hl : a h = some l) :
      ListMove a (.empty h, some (decide (l = []))) a
  | emptyCareful {a : Rings N} {h : N} {l : List N} (hl : a h = some l) :
      ListMove a (.emptyCareful h, some (decide (l = []))) a
  | isSingular {a : Rings N} {h : N} {l : List N} (hl : a h = some l) :
      ListMove a (.isSingular h, some (decide (l.length = 1))) a

/-! ### The refinement -/

section

variable {L : Links N} {a a' : Rings N} {call : ListCall N} {r : Option Bool}
  {poison1 poison2 : Option N}

/-- A call that has been shown to return a memory, as a step. -/
theorem listStep_of_returns {x : Except Fault (Links N)}
    (hstep : listStep poison1 poison2 L call = (do return (none, ← x)))
    (hx : ∃ L', x = .ok L' ∧ L'.Holds a') :
    ∃ L', listStep poison1 poison2 L call = .ok (none, L') ∧ L'.Holds a' := by
  obtain ⟨L', rfl, hL'⟩ := hx
  exact ⟨L', hstep, hL'⟩

/-- **One call.** -/
theorem ListMove.step (hmove : ListMove a (call, r) a') (hL : L.Holds a) :
    ∃ L', listStep poison1 poison2 L call = .ok (r, L') ∧ L'.Holds a' := by
  cases hmove with
  | @init x hx =>
    -- the node may have been the head of another list, which is forgotten
    refine ⟨_, rfl, ?_⟩
    rw [← Rings.erase_set]
    exact initListHead_holds (hL.forget x) hx
  | add hp hnew =>
    -- the new node is on no list, so what its links were does not matter
    obtain ⟨ha, rfl⟩ := hp
    exact listStep_of_returns rfl (listAdd_holds (hL.forget _) ha hnew)
  | addTail hp hnew =>
    obtain ⟨ha, rfl⟩ := hp
    exact listStep_of_returns rfl (listAddTail_holds (hL.forget _) ha hnew)
  | del hx =>
    -- the links of the node deleted are poisoned, and it is on no list any more
    obtain ⟨L', hdel, hL', -⟩ := listDel_holds hL hx poison1 poison2
    exact listStep_of_returns rfl ⟨L', hdel, hL'⟩
  | delEmpty hx =>
    -- a head that is alone unlinks itself from itself
    obtain ⟨L', hdel, hL', -⟩ := listDel_empty_holds hL hx poison1 poison2
    exact listStep_of_returns rfl ⟨L', hdel, hL'⟩
  | delInit hx => exact listStep_of_returns rfl (listDelInit_holds hL hx)
  | delInitEmpty hx =>
    -- the node is linked to itself
    exact listStep_of_returns rfl ⟨L, listDelInit_self (hL.ring hx).chain, hL⟩
  | replace hx hnew => exact listStep_of_returns rfl (listReplace_holds (hL.forget _) hx hnew)
  | replaceHead hx hnew =>
    -- the new node becomes the head of the list
    exact listStep_of_returns rfl (listReplace_head_holds (hL.forget _) hx hnew)
  | replaceInit hx hnew =>
    exact listStep_of_returns rfl (listReplaceInit_holds (hL.forget _) hx hnew)
  | replaceInitHead hx hnew =>
    -- and the old one is left as the head of an empty list
    exact listStep_of_returns rfl (listReplaceInit_head_holds (hL.forget _) hx hnew)
  | move hx hp =>
    -- the place is one in the lists without the node, which may be on the same list
    obtain ⟨ha, rfl⟩ := hp
    exact listStep_of_returns rfl (listMove_holds hL hx ha)
  | moveTail hx hp =>
    obtain ⟨ha, rfl⟩ := hp
    exact listStep_of_returns rfl (listMoveTail_holds hL hx ha)
  | moveEmpty hx hp =>
    -- the head of an empty list is put on a list itself
    obtain ⟨ha, rfl⟩ := hp
    exact listStep_of_returns rfl (listMove_empty_holds hL hx ha)
  | moveTailEmpty hx hp =>
    obtain ⟨ha, rfl⟩ := hp
    exact listStep_of_returns rfl (listMoveTail_empty_holds hL hx ha)
  | rotateLeft hl => exact listStep_of_returns rfl (listRotateLeft_holds hL hl)
  | cutPosition hx hlist hne =>
    -- the list is divided behind the entry
    exact listStep_of_returns rfl (listCutPosition_holds hL hx hlist hne)
  | cutPositionHead hl hnil hlist =>
    -- nothing comes before the head, so the other list gets nothing
    exact listStep_of_returns rfl (listCutPosition_head_holds hL hl hnil hlist)
  | cutPositionEmpty hl =>
    -- the function looks whether the list is empty, and leaves everything as it is
    refine listStep_of_returns rfl ⟨L, ?_, hL⟩
    rw [listCutPosition, (listEmpty_iff hL hl).mpr rfl]
    rfl
  | splice hp hl hne =>
    -- the head the entries are taken from is left with links into the other list
    obtain ⟨ha, rfl⟩ := hp
    exact listStep_of_returns rfl (listSplice_holds hL ha hl hne)
  | spliceTail hp hl hne =>
    obtain ⟨ha, rfl⟩ := hp
    exact listStep_of_returns rfl (listSpliceTail_holds hL ha hl hne)
  | spliceInit hp hl hne =>
    -- here it is left as the head of an empty list
    obtain ⟨ha, rfl⟩ := hp
    exact listStep_of_returns rfl (listSpliceInit_holds hL ha hl hne)
  | spliceTailInit hp hl hne =>
    obtain ⟨ha, rfl⟩ := hp
    exact listStep_of_returns rfl (listSpliceTailInit_holds hL ha hl hne)
  | isLast hx =>
    -- the tests write nothing, and what they answer is read off the ring
    refine ⟨L, ?_, hL⟩
    simp only [listStep, Bool.eq_iff_iff.mpr ((listIsLast_iff hL hx).trans decide_eq_true_iff.symm)]
  | empty hl =>
    refine ⟨L, ?_, hL⟩
    simp only [listStep, Bool.eq_iff_iff.mpr ((listEmpty_iff hL hl).trans decide_eq_true_iff.symm)]
  | emptyCareful hl =>
    refine ⟨L, ?_, hL⟩
    simp only [listStep,
      Bool.eq_iff_iff.mpr ((listEmptyCareful_iff hL hl).trans decide_eq_true_iff.symm)]
  | isSingular hl =>
    refine ⟨L, ?_, hL⟩
    have hiff := (listIsSingular_iff hL hl).trans List.length_eq_one_iff.symm
    simp only [listStep, Bool.eq_iff_iff.mpr (hiff.trans decide_eq_true_iff.symm)]

end

/-- **Runs of list operations.** Whatever the memory contains at first, every run of calls that keep
to their contracts returns what the lists say, and leaves a memory that holds just these lists. -/
theorem list_runs_refine (poison1 poison2 : Option N) (L₀ : Links N)
    {trace : List (ListCall N × Option Bool)} {a : Rings N}
    (hrun : Run ListMove (fun _ => none) trace a) :
    ∃ L, exec (listStep poison1 poison2) L₀ (trace.map Prod.fst) = .ok (trace.map Prod.snd, L) ∧
      L.Holds a :=
  hrun.returns_trace (.none L₀) fun _ _ _ _ _ hL hmove => hmove.step hL

/-- One list, headed by 0. -/
def oneList (l : List ℕ) : Rings ℕ := Rings.set (fun _ => none) 0 l

theorem oneList_addTail {l : List ℕ} {x : ℕ} (hx : x ∉ 0 :: l) :
    ListMove (oneList l) (.addTail x 0, none) (oneList (l ++ [x])) := by
  have hoff : ¬ (oneList l).On x := Rings.not_on_set hx Rings.not_on_none
  have herase : (oneList l).erase x = oneList l := by
    refine Rings.erase_of_none (Rings.set_of_ne ?_ l)
    exact fun heq => hx (heq ▸ List.mem_cons_self ..)
  have hp : PlaceBefore ((oneList l).erase x) 0 0 l [] := ⟨by rw [herase]; simp [oneList], rfl⟩
  have hmove := ListMove.addTail hp (Rings.not_on_erase hoff)
  rwa [herase, oneList, Rings.set_set] at hmove

/-- Two nodes are put on a list, which is then rotated. -/
theorem list_runs_refine_rotate :
    ∃ L, exec (listStep none none) ⟨fun _ => none, fun _ => none⟩
        [.init 0, .addTail 1 0, .addTail 2 0, .rotateLeft 0, .isLast 1 0] =
      .ok ([none, none, none, none, some true], L) ∧ L.Holds (oneList [2, 1]) := by
  have h₁ : ListMove (fun _ => none) (.init 0, none) (oneList []) :=
    .init (Rings.not_on_erase Rings.not_on_none)
  have h₂ : ListMove (oneList []) (.addTail 1 0, none) (oneList [1]) :=
    oneList_addTail (by decide)
  have h₃ : ListMove (oneList [1]) (.addTail 2 0, none) (oneList [1, 2]) :=
    oneList_addTail (by decide)
  have h₄ : ListMove (oneList [1, 2]) (.rotateLeft 0, none) (oneList [2, 1]) := by
    have hmove := ListMove.rotateLeft (a := oneList [1, 2]) (h := 0) (l := [1, 2]) rfl
    rwa [oneList, Rings.set_set] at hmove
  have h₅ : ListMove (oneList [2, 1]) (.isLast 1 0, some true) (oneList [2, 1]) := by
    have hx : oneList [2, 1] 0 = some ([2] ++ 1 :: []) := rfl
    exact .isLast hx
  exact list_runs_refine none none ⟨fun _ => none, fun _ => none⟩
    (((((Run.nil.snoc h₁).snoc h₂).snoc h₃).snoc h₄).snoc h₅)

end Vlstp
