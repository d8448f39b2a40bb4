import Vlstp.Framework.Reach
import Vlstp.Hlist

/-!
# Runs of `hlist` operations

`hlistStep` is one call of an `hlist` function, with what it returns. An abstract state (`Hlists`)
has the lists and the nodes that are on none of them but can be asked about. `HlistMove` says what
the calls do to it and what their callers have to keep to.

`hlist_runs_refine` is about runs of any length, from memory with arbitrary contents. In particular
a node that was made to appear to be on a list is deleted like one that is.
-/

namespace Vlstp

open SlotLinks

variable {H N : Type} [DecidableEq H] [DecidableEq N]

/-! ### Calls -/

/-- A call of an `hlist` function. -/
inductive HlistCall (H N : Type)
  | initHead (ptr : H)
  | initNode (h : N)
  | del (n : N)
  | delInit (n : N)
  | addHead (n : N) (h : H)
  | addBefore (n next : N)
  | addAfter (n next : N)
  | addFake (n : N)
  | moveList (old new : H)
  | unhashed (h : N)
  | empty (h : H)
  deriving DecidableEq

/-- One call. The functions that ask something return an answer, the others nothing. -/
def hlistStep (poison1 : Option N) (poison2 : Option (Slot H N)) (L : SlotLinks H N) :
    HlistCall H N → Except Fault (Option Bool × SlotLinks H N)
  | .initHead ptr => .ok (none, initHlistHead ptr L)
  | .initNode h => .ok (none, initHlistNode h L)
  | .del n => do return (none, ← hlistDel poison1 poison2 n L)
  | .delInit n => do return (none, ← hlistDelInit n L)
  | .addHead n h => .ok (none, hlistAddHead n h L)
  | .addBefore n next => do return (none, ← hlistAddBefore n next L)
  | .addAfter n next => .ok (none, hlistAddAfter n next L)
  | .addFake n => .ok (none, hlistAddFake n L)
  | .moveList old new => .ok (none, hlistMoveList old new L)
  | .unhashed h => .ok (some (hlistUnhashed h L), L)
  | .empty h => .ok (some (hlistEmpty h L), L)

/-! ### The lists -/

/-- What a node that is on no list looks like. -/
inductive Idle
  | unhashed
  | fake
  deriving DecidableEq

/-- The `pprev` of such a node. -/
def Idle.pprev (n : N) : Idle → Option (Slot H N)
  | .unhashed => none
  | .fake => some (.next n)

/-- The lists, and the nodes that are on none and known to be. -/
structure Hlists (H N : Type) where
  lists : Lists H N
  idle : N → Option Idle

/-- What is known to be: nothing. -/
def Hlists.unknown : Hlists H N := ⟨fun _ => none, fun _ => none⟩

/-- The node is `k`. -/
def Hlists.setIdle (b : Hlists H N) (n : N) (k : Option Idle) : Hlists H N :=
  { b with idle := Function.update b.idle n k }

/-- The list of `h` is `l`. -/
def Hlists.setList (b : Hlists H N) (h : H) (l : List N) : Hlists H N :=
  { b with lists := b.lists.set h l }

/-- **What the calls do to lists.** -/
inductive HlistMove : Hlists H N → HlistCall H N × Option Bool → Hlists H N → Prop
  | initHead {b : Hlists H N} {h : H} : HlistMove b (.initHead h, none) (b.setList h [])
  | initNode {b : Hlists H N} {n : N} (hn : ¬ b.lists.On n) :
      HlistMove b (.initNode n, none) (b.setIdle n (some .unhashed))
  | del {b : Hlists H N} {n : N} {h : H} {pre post : List N}
      (hn : b.lists h = some (pre ++ n :: post)) :
      HlistMove b (.del n, none) (b.setList h (pre ++ post))
  | delFake {b : Hlists H N} {n : N} (hn : b.idle n = some .fake) :
      HlistMove b (.del n, none) (b.setIdle n none)
  | delInit {b : Hlists H N} {n : N} {h : H} {pre post : List N}
      (hn : b.lists h = some (pre ++ n :: post)) :
      HlistMove b (.delInit n, none) ((b.setList h (pre ++ post)).setIdle n (some .unhashed))
  | delInitIdle {b : Hlists H N} {n : N} {k : Idle} (hn : b.idle n = some k) :
      HlistMove b (.delInit n, none) (b.setIdle n (some .unhashed))
  | addHead {b : Hlists H N} {n : N} {h : H} {l : List N} (hl : b.lists h = some l)
      (hn : ¬ b.lists.On n) :
      HlistMove b (.addHead n h, none) ((b.setList h (n :: l)).setIdle n none)
  | addBefore {b : Hlists H N} {n next : N} {h : H} {pre post : List N}
      (hnext : b.lists h = some (pre ++ next :: post)) (hn : ¬ b.lists.On n) :
      HlistMove b (.addBefore n next, none)
        ((b.setList h (pre ++ n :: next :: post)).setIdle n none)
  | addAfter {b : Hlists H N} {n next : N} {h : H} {pre post : List N}
      (hn : b.lists h = some (pre ++ n :: post)) (hnext : ¬ b.lists.On next) :
      HlistMove b (.addAfter n next, none)
        ((b.setList h (pre ++ n :: next :: post)).setIdle next none)
  /-- The function does not write `next`, so the node has to be initialised. -/
  | addFake {b : Hlists H N} {n : N} {k : Idle} (hn : b.idle n = some k) :
      HlistMove b (.addFake n, none) (b.setIdle n (some .fake))
  | moveList {b : Hlists H N} {old new : H} {l : List N} (hl : b.lists old = some l) :
      HlistMove b (.moveList old new, none) ((b.setList new l).setList old [])
  | unhashed {b : Hlists H N} {n : N} {h : H} {l : List N} (hl : b.lists h = some l)
      (hn : n ∈ l) : HlistMove b (.unhashed n, some false) b
  | unhashedIdle {b : Hlists H N} {n : N} {k : Idle} (hn : b.idle n = some k) :
      HlistMove b (.unhashed n, some (decide (k = .unhashed))) b
  | empty {b : Hlists H N} {h : H} {l : List N} (hl : b.lists h = some l) :
      HlistMove b (.empty h, some (decide (l = []))) b

/-! ### The refinement -/

/-- The memory has the lists and the idle nodes of `b`. -/
structure HoldsHlists (L : SlotLinks H N) (b : Hlists H N) : Prop where
  holds : L.Holds b.lists
  off : ∀ {n k}, b.idle n = some k → ¬ b.lists.On n
  idle : ∀ {n k}, b.idle n = some k → L.ptr (.next n) = none ∧ L.pprev n = k.pprev n

section

variable {L L' : SlotLinks H N} {b b' : Hlists H N} {call : HlistCall H N} {r : Option Bool}
  {n : N} {h : H} {l pre post : List N} {poison1 : Option N} {poison2 : Option (Slot H N)}

omit [DecidableEq H] in
/-- Only nodes of the lists and the node `n` were touched, and only `n` was put on a list. -/
theorem HoldsHlists.edit {k : Option Idle} {lists : Lists H N} (hR : HoldsHlists L b)
    (hL' : L'.Holds lists) (hsame : SameNodes L L' fun m => b.lists.On m ∨ m = n)
    (hon : ∀ m, lists.On m → b.lists.On m ∨ m = n)
    (hn : ∀ k', k = some k' → ¬ lists.On n ∧ L'.ptr (.next n) = none ∧ L'.pprev n = k'.pprev n) :
    HoldsHlists L' (Hlists.setIdle ⟨lists, b.idle⟩ n k) := by
  refine ⟨hL', fun {m k'} hm hon' => ?_, fun {m k'} hm => ?_⟩
  · by_cases hmn : m = n
    · subst hmn
      exact (hn k' (by simpa [Hlists.setIdle] using hm)).1 hon'
    · exact hR.off (by simpa [Hlists.setIdle, hmn] using hm) ((hon m hon').resolve_right hmn)
  · by_cases hmn : m = n
    · subst hmn
      exact (hn k' (by simpa [Hlists.setIdle] using hm)).2
    · have hold : b.idle m = some k' := by simpa [Hlists.setIdle, hmn] using hm
      have hkept := hsame m (not_or.mpr ⟨hR.off hold, hmn⟩)
      exact ⟨hkept.1.trans (hR.idle hold).1, hkept.2.trans (hR.idle hold).2⟩

omit [DecidableEq H] [DecidableEq N] in
/-- Only nodes of the lists were touched, and none was put on a list. -/
theorem HoldsHlists.shrink {lists : Lists H N} (hR : HoldsHlists L b) (hL' : L'.Holds lists)
    (hsame : SameNodes L L' b.lists.On) (hon : ∀ m, lists.On m → b.lists.On m) :
    HoldsHlists L' ⟨lists, b.idle⟩ := by
  refine ⟨hL', fun hm hon' => hR.off hm (hon _ hon'), fun {m k} hm => ?_⟩
  have hkept := hsame m (hR.off hm)
  exact ⟨hkept.1.trans (hR.idle hm).1, hkept.2.trans (hR.idle hm).2⟩

omit [DecidableEq H] [DecidableEq N] in
theorem SameNodes.mono {P Q : N → Prop} (hsame : SameNodes L L' P) (h : ∀ m, P m → Q m) :
    SameNodes L L' Q := fun m hm => hsame m fun hP => hm (h m hP)

/-- A node is put on a list. -/
theorem HoldsHlists.add (hR : HoldsHlists L b) (hl : b.lists h = some (pre ++ post))
    (hL' : L'.Holds (b.lists.set h (pre ++ n :: post)))
    (hsame : SameNodes L L' fun m => b.lists.On m ∨ m = n) :
    HoldsHlists L' ((b.setList h (pre ++ n :: post)).setIdle n none) := by
  refine hR.edit hL' hsame (fun m hm => ?_) (by simp)
  rcases hm.of_set with hm | hm
  · have hcases : m = n ∨ m ∈ pre ++ post := by grind
    exact hcases.symm.imp_left fun hm => ⟨h, _, hl, hm⟩
  · exact Or.inl hm

omit [DecidableEq N] in
/-- What is left of a list. -/
theorem on_of_removed (hl : b.lists h = some (pre ++ n :: post)) (m : N)
    (hm : (b.lists.set h (pre ++ post)).On m) : b.lists.On m :=
  hm.of_set.elim (fun hm => ⟨h, _, hl, by grind⟩) id

/-- **One call.** -/
theorem HlistMove.step (hmove : HlistMove b (call, r) b') (hR : HoldsHlists L b) :
    ∃ L', hlistStep poison1 poison2 L call = .ok (r, L') ∧ HoldsHlists L' b' := by
  cases hmove with
  | initHead =>
    obtain ⟨hL', hsame⟩ := initHlistHead_holds hR.holds
    refine ⟨_, rfl, hR.shrink hL' (hsame.mono (by simp)) fun m hm => ?_⟩
    exact hm.of_set.elim (by simp) id
  | @initNode n hn =>
    -- the node is on no list, so only what is known of it alone changes
    refine ⟨_, rfl, hR.edit (store_holds hR.holds hn none none) ?_ (fun m => Or.inl) ?_⟩
    · exact (store_sameNodes none none).mono fun m => Or.inr
    · rintro k' ⟨⟩
      exact ⟨hn, setPtr_ptr_self _, setPprev_pprev_self _⟩
  | @del n h pre post hn =>
    -- the list is joined over the node, whose own links are then poisoned
    obtain ⟨L', hdel, hL', hsame⟩ := _hlistDel_holds hR.holds hn
    have hoff := hR.holds.off_middle hn
    refine ⟨(L'.setPtr (.next n) poison1).setPprev n poison2, ?_, ?_⟩
    · simp [hlistStep, hlistDel, hdel]
    · refine hR.shrink (store_holds hL' hoff poison1 poison2) (fun m hm => ?_) (on_of_removed hn)
      have hmn : m ≠ n := fun heq => hm (heq ▸ ⟨h, _, hn, by simp⟩)
      have hstore := store_sameNodes (L := L') (n := n) poison1 poison2 m hmn
      exact ⟨hstore.1.trans (hsame m hm).1, hstore.2.trans (hsame m hm).2⟩
  | @delFake n hn =>
    -- `pprev` points to the node's own `next`, so the write through it stays in the node
    have hoff := hR.off hn
    obtain ⟨hnext, hpprev⟩ := hR.idle hn
    refine ⟨(L.setPtr (.next n) poison1).setPprev n poison2, ?_, ?_⟩
    · simp [hlistStep, hlistDel, _hlistDel_fake hpprev hnext]
    · refine hR.edit (store_holds hR.holds hoff poison1 poison2) ?_ (fun m => Or.inl) (by simp)
      exact (store_sameNodes poison1 poison2).mono fun m => Or.inr
  | @delInit n h pre post hn =>
    -- a node on a list has a `pprev`, so it counts as hashed and is deleted
    obtain ⟨L', hdel, hL', hsame⟩ := _hlistDel_holds hR.holds hn
    have hoff := hR.holds.off_middle hn
    have hpprev := ((hR.holds.seams_of_mem hn).1.2 n rfl)
    refine ⟨initHlistNode n L', ?_, ?_⟩
    · simp [hlistStep, hlistDelInit, hlistUnhashed, hpprev, hdel]
    · refine hR.edit (store_holds hL' hoff none none) (fun m hm => ?_)
        (fun m hm => Or.inl (on_of_removed hn m hm)) ?_
      · rw [not_or] at hm
        have hstore := store_sameNodes (L := L') (n := n) none none m hm.2
        exact ⟨hstore.1.trans (hsame m hm.1).1, hstore.2.trans (hsame m hm.1).2⟩
      · rintro k' ⟨⟩
        exact ⟨hoff, setPtr_ptr_self _, setPprev_pprev_self _⟩
  | @delInitIdle n k hn =>
    have hoff := hR.off hn
    obtain ⟨hnext, hpprev⟩ := hR.idle hn
    cases k with
    | unhashed =>
      -- nothing is done
      refine ⟨L, ?_, ?_⟩
      · have hnull : L.pprev n = none := hpprev
        simp [hlistStep, hlistDelInit, hlistUnhashed, hnull]
      · refine hR.edit hR.holds (fun m _ => ⟨rfl, rfl⟩) (fun m => Or.inl) ?_
        rintro k' ⟨⟩
        exact ⟨hoff, hnext, hpprev⟩
    | fake =>
      -- it counts as hashed, and is deleted from itself
      have hback : L.pprev n = some (.next n) := hpprev
      refine ⟨initHlistNode n L, ?_, ?_⟩
      · simp [hlistStep, hlistDelInit, hlistUnhashed, hback, _hlistDel_fake hback hnext]
      · refine hR.edit (store_holds hR.holds hoff none none) ?_ (fun m => Or.inl) ?_
        · exact (store_sameNodes none none).mono fun m => Or.inr
        · rintro k' ⟨⟩
          exact ⟨hoff, setPtr_ptr_self _, setPprev_pprev_self _⟩
  | @addHead n h l hl hn =>
    -- the front of the list is where nothing comes before
    obtain ⟨hL', hsame⟩ := hlistAddHead_holds hR.holds hl hn
    have hfront : b.lists h = some ([] ++ l) := hl
    exact ⟨_, rfl, hR.add hfront hL' hsame⟩
  | addBefore hnext hn =>
    obtain ⟨L', hadd, hL', hsame⟩ := hlistAddBefore_holds hR.holds hnext hn
    refine ⟨L', ?_, hR.add hnext hL' hsame⟩
    simp [hlistStep, hadd]
  | @addAfter n next h pre post hn hnext =>
    -- `n` is the node on the list here, and `next` the one that is added
    obtain ⟨hL', hsame⟩ := hlistAddAfter_holds hR.holds hn hnext
    have hl : b.lists h = some ((pre ++ [n]) ++ post) := by simpa using hn
    refine ⟨hlistAddAfter n next L, rfl, ?_⟩
    have hsplit : pre ++ n :: next :: post = (pre ++ [n]) ++ next :: post := by simp
    rw [hsplit] at hL' ⊢
    exact hR.add hl hL' hsame
  | @addFake n k hn =>
    -- only `pprev` is written; `next` is `NULL` as in every node that is idle
    obtain ⟨hL', hsame⟩ := hlistAddFake_holds hR.holds (hR.off hn)
    refine ⟨hlistAddFake n L, rfl, hR.edit hL' (hsame.mono fun m => Or.inr) (fun m => Or.inl) ?_⟩
    rintro k' ⟨⟩
    exact ⟨hR.off hn, (hR.idle hn).1, setPprev_pprev_self _⟩
  | @moveList old new l hl =>
    -- what the new head had is given up, and the old one is left empty
    obtain ⟨hL', hsame⟩ : (hlistMoveList old new L).Holds ((b.lists.set new l).set old []) ∧
        SameNodes L (hlistMoveList old new L) b.lists.On := hlistMoveList_holds hR.holds hl
    refine ⟨hlistMoveList old new L, rfl, hR.shrink hL' hsame fun m hm => ?_⟩
    rcases hm.of_set with hm | hm
    · cases hm
    · exact hm.of_set.elim (fun hm => ⟨old, l, hl, hm⟩) id
  | @unhashed n h l hl hn =>
    -- a node on a list has a `pprev`
    obtain ⟨pre, post, rfl⟩ := List.append_of_mem hn
    refine ⟨L, ?_, hR⟩
    simp [hlistStep, hlistUnhashed, (hR.holds.seams_of_mem hl).1.2 n rfl]
  | @unhashedIdle n k hn =>
    -- of the nodes on no list those made to appear on one have a `pprev` as well
    refine ⟨L, ?_, hR⟩
    simp only [hlistStep, hlistUnhashed, (hR.idle hn).2]
    cases k <;> rfl
  | @empty h l hl =>
    -- the head points to the first node, or is `NULL`
    have hfront : b.lists h = some ([] ++ l) := hl
    have hfirst : L.ptr (.head h) = l.head? := (hR.holds.seam hfront).1
    refine ⟨L, ?_, hR⟩
    simp only [hlistStep, hlistEmpty, hfirst]
    cases l <;> rfl

omit [DecidableEq H] [DecidableEq N] in
theorem holdsHlists_unknown (L : SlotLinks H N) : HoldsHlists L .unknown where
  holds := holds_none L
  off hk := by cases hk
  idle hk := by cases hk

/-- **Runs of `hlist` operations.** Whatever the memory contains at first, every run of calls that
keep to their contracts returns what the lists say, and leaves a memory that holds just these
lists. -/
theorem hlist_runs_refine (poison1 : Option N) (poison2 : Option (Slot H N)) (L₀ : SlotLinks H N)
    {trace : List (HlistCall H N × Option Bool)} {b : Hlists H N}
    (hrun : Run HlistMove .unknown trace b) :
    ∃ L, exec (hlistStep poison1 poison2) L₀ (trace.map Prod.fst) =
        .ok (trace.map Prod.snd, L) ∧ HoldsHlists L b :=
  hrun.returns_trace (holdsHlists_unknown L₀) fun _ _ _ _ _ hL hmove => hmove.step hL

end

/-- A node that is on no list is made to appear to be on one, and deleted; then it is put on a list
that is moved to another head. -/
theorem hlist_runs_refine_fake :
    ∃ L b, exec (hlistStep none none) (⟨fun _ => none, fun _ => none⟩ : SlotLinks ℕ ℕ)
        [.initNode 7, .addFake 7, .unhashed 7, .del 7, .initHead 0, .addHead 7 0, .moveList 0 1,
          .empty 0] =
      .ok ([none, none, some false, none, none, none, none, some true], L) ∧
      HoldsHlists L b ∧ b.lists 1 = some [7] := by
  have hoff {b : Hlists ℕ ℕ} (hb : ∀ h, b.lists h = none ∨ b.lists h = some []) :
      ¬ b.lists.On 7 := by
    rintro ⟨h, l, hl, hmem⟩
    rcases hb h with hb | hb
    · simp [hb] at hl
    · obtain rfl : l = [] := by simpa [hb] using hl.symm
      cases hmem
  have h₁ := Run.nil.snoc (HlistMove.initNode (hoff (b := .unknown) fun h => Or.inl rfl))
  have h₂ := h₁.snoc (HlistMove.addFake (n := 7) rfl)
  have h₃ := h₂.snoc (HlistMove.unhashedIdle (n := 7) rfl)
  have h₄ := h₃.snoc (HlistMove.delFake (n := 7) rfl)
  have h₅ := h₄.snoc (HlistMove.initHead (h := 0))
  have h₆ := h₅.snoc (HlistMove.addHead (h := 0) rfl (hoff fun h => by
    by_cases hh : h = 0
    · exact Or.inr (by simp [hh, Hlists.setList])
    · exact Or.inl (by simp [Hlists.setList, Lists.set_of_ne hh]; rfl)))
  have h₇ := h₆.snoc (@HlistMove.moveList _ _ _ _ _ 0 1 [7] rfl)
  have h₈ := h₇.snoc (HlistMove.empty (h := 0) rfl)
  obtain ⟨L, hexec, hL⟩ := hlist_runs_refine none none ⟨fun _ => none, fun _ => none⟩ h₈
  exact ⟨L, _, hexec, hL, rfl⟩

end Vlstp
