import Vlstp.Timer.AbstractQueue

/-!
# The functions on a queue

`Queue s l` says that the list at `__timer_sys.timer_list` is a ring of the timers `l`. Each
function of `timer.c` but `dispatch_timer` has one lemma here about memory that holds a queue:
`internal_add_timer` inserts before the first timer that is due later (`enqueue`), `detach_timer`
takes a timer out, `mod_timer` does both. None of them touches the links of a timer that is neither
on the list nor its argument (`Untouched`).
-/

namespace Vlstp

/-- The timers `l`, in this order, are the list. -/
structure Queue (s : TimerSys) (l : List ℕ) : Prop where
  inited : s.inited = true
  ring : s.links.Ring .head (l.map .timer)

/-- The links of the timers outside `l` are the same. -/
def Untouched (L L' : Links Node) (l : List ℕ) : Prop :=
  ∀ u, u ∉ l → L'.next (.timer u) = L.next (.timer u) ∧ L'.prev (.timer u) = L.prev (.timer u)

section

variable {s : TimerSys} {L L' L'' : Links Node} {l l' pre post : List ℕ} {t u : ℕ}

@[simp] theorem timer_mem_map : Node.timer t ∈ l.map .timer ↔ t ∈ l := by
  simp

theorem timer_notMem (ht : t ∉ l) : Node.timer t ∉ .head :: l.map .timer := by
  simp [ht]

/-- A pointer to the first timer of a list, or to the head. -/
def firstNode : List ℕ → Node
  | [] => .head
  | t :: _ => .timer t

theorem headD_map : (l.map Node.timer).headD .head = firstNode l := by
  cases l <;> rfl

theorem Queue.next_head (hq : Queue s l) : s.links.next .head = some (firstNode l) := by
  rw [hq.ring.chain.next_eq, headD_map]

/-- The successor of a timer on the list. -/
theorem next_of_ring (hr : L.Ring .head ((pre ++ t :: post).map .timer)) :
    L.next (.timer t) = some (firstNode post) := by
  rw [List.map_append, List.map_cons] at hr
  rw [(Links.chain_append_iff.mp hr.chain).2.next_eq, headD_map]

/-- Every list of distinct timers is the list in some memory. -/
theorem exists_queue (hl : l.Nodup) (expires : ℕ → Time) (function : ℕ → ℕ)
    (data : ℕ → BitVec 64) :
    ∃ s : TimerSys, Queue s l ∧ s.expires = expires ∧ s.function = function ∧ s.data = data := by
  suffices hlinks : ∃ L : Links Node, L.Ring .head (l.map .timer) by
    obtain ⟨L, hring⟩ := hlinks
    exact ⟨⟨L, true, expires, function, data⟩, ⟨rfl, hring⟩, rfl, rfl, rfl⟩
  -- the timers are linked in one after the other, each as the last
  induction l using List.reverseRecOn with
  | nil =>
    exact ⟨initListHead .head ⟨fun _ => none, fun _ => none⟩, .empty linked_initListHead⟩
  | append_singleton l t ih =>
    rw [List.nodup_append_comm, List.singleton_append, List.nodup_cons] at hl
    obtain ⟨L, hring⟩ := ih hl.2
    obtain ⟨L', -, hring', -⟩ := listAddTail_ring hring (timer_notMem hl.1)
    refine ⟨L', ?_⟩
    rw [List.map_append]
    exact hring'

theorem Queue.nodup (hq : Queue s l) : l.Nodup :=
  (List.nodup_cons.mp hq.ring.nodup).2.of_map _

/-- A timer that is linked to itself is not on the list. -/
theorem Queue.notMem_of_linked (hq : Queue s l) (hself : s.links.Linked (.timer t) (.timer t)) :
    t ∉ l := by
  intro ht
  obtain ⟨pre, post, rfl⟩ := List.append_of_mem ht
  have hnodup := hq.nodup
  rw [List.nodup_middle, List.nodup_cons, List.mem_append, not_or] at hnodup
  -- its successor is the timer behind it, or the head
  have hnext : some (Node.timer t) = some (firstNode post) :=
    hself.1.symm.trans (next_of_ring hq.ring)
  cases post with
  | nil => exact Node.noConfusion (Option.some.inj hnext)
  | cons u post =>
    obtain rfl : t = u := Node.timer.inj (Option.some.inj hnext)
    exact hnodup.1.2 (List.mem_cons_self ..)

theorem Untouched.mono (h : Untouched L L' l) (hsub : l ⊆ l') : Untouched L L' l' :=
  fun u hu => h u fun hmem => hu (hsub hmem)

theorem Untouched.trans (h : Untouched L L' l) (h' : Untouched L' L'' l') (hsub : l' ⊆ l) :
    Untouched L L'' l := by
  intro u hu
  obtain ⟨hn, hp⟩ := h u hu
  obtain ⟨hn', hp'⟩ := h' u fun hmem => hu (hsub hmem)
  exact ⟨hn'.trans hn, hp'.trans hp⟩

/-- A timer that is linked to itself stays so. -/
theorem Untouched.linked (h : Untouched L L' l) (hu : u ∉ l)
    (hself : L.Linked (.timer u) (.timer u)) : L'.Linked (.timer u) (.timer u) := by
  obtain ⟨hn, hp⟩ := h u hu
  exact ⟨hn.trans hself.1, hp.trans hself.2⟩

theorem untouched_of_sameLinks {nodes : List Node} (hs : SameLinks L L' nodes)
    (hsub : ∀ u, .timer u ∈ nodes → u ∈ l) : Untouched L L' l :=
  fun u hu => hs _ fun hmem => hu (hsub u hmem)

/-! ### `internal_add_timer` -/

/-- The loop, once it has passed the timers `pre`. -/
theorem insertLoop_ring {fuel : ℕ} (hr : s.links.Ring .head ((pre ++ post).map .timer))
    (ht : t ∉ pre ++ post) (hfuel : post.length < fuel) :
    ∃ L', insertLoop t s fuel (some (firstNode post)) = .ok L' ∧
      L'.Ring .head ((pre ++ enqueue s.expires t post).map .timer) ∧
      Untouched s.links L' (t :: (pre ++ post)) := by
  -- on the timers still to be passed
  induction post generalizing pre fuel with
  | nil =>
    -- `!done`: back at the head, so `t` becomes the last
    obtain ⟨fuel, rfl⟩ : ∃ n, fuel = n + 1 := ⟨fuel - 1, by simp at hfuel; omega⟩
    obtain ⟨L', hadd, hring, hsame⟩ := listAddTail_ring hr (timer_notMem ht)
    refine ⟨L', hadd, ?_, untouched_of_sameLinks hsame fun u hu => ?_⟩
    · simpa [enqueue] using hring
    · simpa [or_comm] using hu
  | cons c post ih =>
    obtain ⟨fuel, rfl⟩ : ∃ n, fuel = n + 1 := ⟨fuel - 1, by simp at hfuel; omega⟩
    rw [firstNode, insertLoop]
    by_cases hbefore : timeBefore (s.expires t) (s.expires c) = true
    · -- `c` expires later: insert before it
      rw [List.map_append, List.map_cons] at hr
      have hnew : Node.timer t ∉ .head :: (pre.map .timer ++ .timer c :: post.map .timer) := by
        have := timer_notMem ht
        rwa [List.map_append, List.map_cons] at this
      obtain ⟨L', hadd, hring, hsame⟩ := listAdd_ring hr hnew
      rw [if_pos hbefore, enqueue, List.orderedInsert_cons, if_pos hbefore]
      refine ⟨L', hadd, ?_, untouched_of_sameLinks hsame fun u hu => ?_⟩
      · simpa using hring
      · simp only [List.mem_cons, List.mem_append, timer_mem_map, Node.timer.injEq, reduceCtorEq,
          false_or] at hu ⊢
        tauto
    · -- it does not: go on to the next
      have hnext := next_of_ring hr
      have hsplit : pre ++ c :: post = (pre ++ [c]) ++ post := by simp
      rw [hsplit] at hr ht
      obtain ⟨L', hloop, hring, hunt⟩ := ih hr ht (Nat.lt_of_succ_lt_succ hfuel)
      rw [if_neg hbefore, hnext, enqueue, List.orderedInsert_cons, if_neg hbefore]
      refine ⟨L', hloop, ?_, by rwa [hsplit]⟩
      rw [List.append_assoc, List.singleton_append] at hring
      exact hring

theorem Queue.internalAddTimer {fuel : ℕ} (hq : Queue s l) (ht : t ∉ l) (hfuel : l.length < fuel) :
    ∃ L', internalAddTimer fuel t s = .ok { s with links := L' } ∧
      Queue { s with links := L' } (enqueue s.expires t l) ∧ Untouched s.links L' (t :: l) := by
  have hstart : s.links.Ring .head (([] ++ l).map .timer) := hq.ring
  obtain ⟨L', hloop, hring, hunt⟩ := insertLoop_ring hstart ht hfuel
  refine ⟨L', ?_, ⟨hq.inited, hring⟩, hunt⟩
  rw [Vlstp.internalAddTimer, hq.next_head, hloop]
  rfl

/-! ### The other functions -/

/-- `detach_timer` of a timer on the list. -/
theorem Queue.detachTimer (hq : Queue s (pre ++ t :: post)) :
    ∃ L', detachTimer t s = .ok { s with links := L' } ∧
      Queue { s with links := L' } (pre ++ post) ∧ L'.Linked (.timer t) (.timer t) ∧
      Untouched s.links L' (pre ++ t :: post) := by
  have hr := hq.ring
  rw [List.map_append, List.map_cons] at hr
  obtain ⟨L', hdel, hring, hself, hsame⟩ := listDelInit_ring hr
  refine ⟨L', ?_, ⟨hq.inited, by rwa [List.map_append]⟩, hself,
    untouched_of_sameLinks hsame fun u hu => ?_⟩
  · rw [Vlstp.detachTimer, hdel]
    rfl
  · simpa using hu

/-- `detach_timer` of a timer that is linked to itself. -/
theorem detachTimer_self (hself : s.links.Linked (.timer t) (.timer t)) :
    detachTimer t s = .ok s := by
  rw [Vlstp.detachTimer, listDelInit_self hself]
  rfl

/-- Taking the only occurrence out of a list. -/
theorem erase_middle (hnodup : (pre ++ t :: post).Nodup) :
    (pre ++ t :: post).erase t = pre ++ post := by
  rw [List.nodup_middle, List.nodup_cons, List.mem_append, not_or] at hnodup
  rw [List.erase_append_right _ hnodup.1.1, List.erase_cons_head]

/-- `detach_timer` of a timer that is on the list or linked to itself. -/
theorem Queue.detachTimer_erase (hq : Queue s l)
    (hidle : t ∉ l → s.links.Linked (.timer t) (.timer t)) :
    ∃ L', Vlstp.detachTimer t s = .ok { s with links := L' } ∧
      Queue { s with links := L' } (l.erase t) ∧ L'.Linked (.timer t) (.timer t) ∧
      Untouched s.links L' l := by
  by_cases hmem : t ∈ l
  · obtain ⟨pre, post, rfl⟩ := List.append_of_mem hmem
    rw [erase_middle hq.nodup]
    exact hq.detachTimer
  · rw [List.erase_of_not_mem hmem]
    have hself := hidle hmem
    exact ⟨s.links, detachTimer_self hself, hq, hself, fun _ _ => ⟨rfl, rfl⟩⟩

/-- Such a timer is pending: it points to its successor, or to itself. -/
theorem Queue.panding (hq : Queue s l) (hidle : t ∉ l → s.links.Linked (.timer t) (.timer t)) :
    timerPanding t s = true := by
  unfold timerPanding
  rw [bne_iff_ne]
  by_cases hmem : t ∈ l
  · exact hq.ring.next_ne_none (List.mem_cons_of_mem _ (timer_mem_map.mpr hmem))
  · rw [(hidle hmem).1]
    exact Option.some_ne_none _

/-- `mod_timer` of such a timer, to another time. -/
theorem Queue.modTimer {fuel : ℕ} {e : Time} (hq : Queue s l)
    (hidle : t ∉ l → s.links.Linked (.timer t) (.timer t)) (hne : s.expires t ≠ e)
    (hfuel : (l.erase t).length < fuel) :
    ∃ L', modTimer fuel t e s =
        .ok (0, { s with links := L', expires := Function.update s.expires t e }) ∧
      Queue { s with links := L', expires := Function.update s.expires t e }
        (enqueue (Function.update s.expires t e) t (l.erase t)) ∧
      Untouched s.links L' (t :: l) := by
  obtain ⟨L₁, hdetach, hq₁, -, hunt₁⟩ := hq.detachTimer_erase hidle
  have hq₂ : Queue { s with links := L₁, expires := Function.update s.expires t e } (l.erase t) :=
    ⟨hq₁.inited, hq₁.ring⟩
  obtain ⟨L₂, hadd, hq₃, hunt₂⟩ := hq₂.internalAddTimer hq.nodup.not_mem_erase hfuel
  refine ⟨L₂, ?_, hq₃, ?_⟩
  · -- the timer is pending, but its time is another one
    have hskip : (timerPanding t s && s.expires t == e) = false := by
      rw [Bool.and_eq_false_iff]
      exact Or.inr (beq_eq_false_iff_ne.mpr hne)
    unfold Vlstp.modTimer
    simp only [hskip, Bool.false_eq_true, if_false, hdetach, hadd, Except.ok_bind, Except.pure_eq]
  · have hunt : Untouched s.links L₁ (t :: l) := hunt₁.mono (List.subset_cons_self t l)
    exact hunt.trans hunt₂ (List.cons_subset_cons t List.erase_subset)

/-- The calls made for the timers `l`. -/
def firings (s : TimerSys) (l : List ℕ) : List Firing :=
  l.map fun t => ⟨t, s.function t, s.data t⟩

/-- `timer_next_msecs` looks at the first timer. -/
theorem Queue.timerNextMsecs (hq : Queue s l) (now : Time) :
    timerNextMsecs now s = .ok (nextMsecs now s.expires l) := by
  unfold Vlstp.timerNextMsecs
  rw [hq.next_head]
  cases l with
  | nil => rfl
  | cons t l => rfl

end

end Vlstp
