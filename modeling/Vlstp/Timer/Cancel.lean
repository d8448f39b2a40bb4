import Vlstp.Timer.Callbacks

/-!
# Timer functions that delete timers

The functions of the timers call `del_timer` on timers of the list. `dispatch_timer` has read the
address of the next timer before it makes a call, and goes on there after it. A timer that was
deleted is linked to itself, so when a function deletes that next timer the loop never leaves it:
it fires it again and again if it is due, and turns without an end in any case
(`cancelLoop_stuck`). Every other deletion does no harm.
-/

namespace Vlstp

/-- The function of a timer `t` calls `del_timer` on each of `dels t`. -/
def cancel (dels : ℕ → List ℕ) : TimerFunctions := fun c s =>
  (dels c.timer).foldlM (fun s u => delTimer u s) s

/-- `dispatch_timer` returns after finitely many turns, no timer is fired twice, and none after a
function has deleted it. -/
def SurvivesCancels (dels : ℕ → List ℕ) (now : Time) (s : TimerSys) : Prop :=
  ∃ turns calls s', (∀ fuel, turns ≤ fuel →
      dispatchTimerWith (cancel dels) fuel now s = .ok (calls, s')) ∧
    (calls.map Firing.timer).Nodup ∧ calls.Pairwise fun c d => d.timer ∉ dels c.timer

/-- No function that is called deletes the timer behind its own. The list is what is still on it
from the loop's place on. -/
inductive SparesNext (now : Time) (expires : ℕ → Time) (dels : ℕ → List ℕ) : List ℕ → Prop
  | nil : SparesNext now expires dels []
  | undue {t : ℕ} {post : List ℕ} (hdue : ¬ timeAfterEq now (expires t) = true)
      (hrest : SparesNext now expires dels post) : SparesNext now expires dels (t :: post)
  | due {t : ℕ} {post : List ℕ} (hdue : timeAfterEq now (expires t) = true)
      (hnext : ∀ u ∈ post.head?, u ∉ dels t)
      (hrest : SparesNext now expires dels (post.filter (· ∉ dels t))) :
      SparesNext now expires dels (t :: post)

/-- Of the timers `all` those in `l` are on the list, in this order, and the others are linked to
themselves. -/
structure Settled (s : TimerSys) (all l : List ℕ) : Prop where
  queue : Queue s l
  off : ∀ u ∈ all, u ∉ l → s.links.Linked (.timer u) (.timer u)

section

variable {s : TimerSys} {now : Time} {dels : ℕ → List ℕ} {all l pre post D : List ℕ} {t u : ℕ}
  {fuel : ℕ}

/-! ### Deleting -/

theorem Settled.detachTimer (h : Settled s all l) (ht : t ∈ all) :
    ∃ L, detachTimer t s = .ok { s with links := L } ∧
      Settled { s with links := L } all (l.erase t) := by
  obtain ⟨L, hdetach, hq, hself, hunt⟩ := h.queue.detachTimer_erase (h.off t ht)
  refine ⟨L, hdetach, hq, fun u hu hoff => ?_⟩
  by_cases hut : u = t
  · rwa [hut]
  · have hu' : u ∉ l := fun hmem => hoff (h.queue.nodup.mem_erase_iff.mpr ⟨hut, hmem⟩)
    exact hunt.linked hu' (h.off u hu hu')

/-- All of the timers look pending, so `del_timer` detaches them. -/
theorem Settled.delTimer (h : Settled s all l) (ht : t ∈ all) :
    delTimer t s = Vlstp.detachTimer t s :=
  if_pos (h.queue.panding (h.off t ht))

/-- Taking one timer out, and then those of `D`. -/
theorem filter_cons_erase (hnodup : l.Nodup) :
    l.filter (· ∉ u :: D) = (l.erase u).filter (· ∉ D) := by
  rw [hnodup.erase_eq_filter, List.filter_filter]
  apply List.filter_congr
  intro w _
  simp only [List.mem_cons, not_or, Bool.decide_and, decide_not, bne]
  exact Bool.and_comm ..

/-- What a function that deletes `D` does. -/
theorem Settled.cancel (h : Settled s all l) (hD : D ⊆ all) :
    ∃ L, D.foldlM (fun s u => Vlstp.delTimer u s) s = .ok { s with links := L } ∧
      Settled { s with links := L } all (l.filter (· ∉ D)) := by
  induction D generalizing s l with
  | nil =>
    refine ⟨s.links, rfl, ?_⟩
    rwa [List.filter_eq_self.mpr fun u _ => by simp]
  | cons u D ih =>
    rw [List.cons_subset] at hD
    obtain ⟨L, hdetach, h₁⟩ := h.detachTimer hD.1
    obtain ⟨L', hfold, h₂⟩ := ih h₁ hD.2
    refine ⟨L', ?_, by rwa [filter_cons_erase h.queue.nodup]⟩
    rw [List.foldlM_cons, h.delTimer hD.1, hdetach]
    exact hfold

/-- **One firing**, of a timer that is on the list or was on it. -/
theorem Settled.turn (h : Settled s all l) (ht : t ∈ all) (hD : dels t ⊆ all)
    (hdue : timeAfterEq now (s.expires t) = true) :
    ∃ L, dispatchTurnWith (Vlstp.cancel dels) now t s =
        .ok ([⟨t, s.function t, s.data t⟩], { s with links := L }) ∧
      Settled { s with links := L } all ((l.filter (· ∉ dels t)).erase t) := by
  obtain ⟨L, hfold, h₁⟩ := h.cancel hD
  have hcall : Vlstp.cancel dels ⟨t, s.function t, s.data t⟩ s = .ok { s with links := L } := hfold
  obtain ⟨L', hdetach, h₂⟩ := h₁.detachTimer ht
  have hturn := dispatchTurnWith_of_detach hdue hcall hdetach
  exact ⟨L', hturn, h₂⟩

/-! ### The loop -/

/-- **A loop that goes on at a deleted timer never ends.** The timer is its own successor, and no
function puts it back on the list. -/
theorem cancelLoop_stuck (h : Settled s all l) (hD : ∀ t ∈ all, dels t ⊆ all) (ht : t ∈ all)
    (hoff : t ∉ l) :
    dispatchLoopWith (cancel dels) now fuel (some (.timer t)) (some (.timer t)) s =
      .error .diverge := by
  induction fuel generalizing s l with
  | zero => rfl
  | succ fuel ih =>
    by_cases hdue : timeAfterEq now (s.expires t) = true
    · -- fired once more, and unlinked from itself
      obtain ⟨L, hturn, h'⟩ := h.turn ht (hD t ht) hdue
      have hoff' : t ∉ (l.filter (· ∉ dels t)).erase t :=
        (h.queue.nodup.filter _).not_mem_erase
      have hnext := (h'.off t ht hoff').1
      rw [dispatchLoopWith_succ hturn, hnext, ih h' hoff']
      rfl
    · rw [dispatchLoopWith_succ (dispatchTurnWith_undue hdue), (h.off t ht hoff).1, ih h hoff]
      rfl

/-- The part of the list behind the loop's place after a firing. -/
theorem filter_turn (hnodup : (pre ++ t :: post).Nodup) :
    ((pre ++ t :: post).filter (· ∉ D)).erase t = pre.filter (· ∉ D) ++ post.filter (· ∉ D) := by
  rw [(hnodup.filter _).erase_eq_filter, List.filter_comm, ← hnodup.erase_eq_filter,
    erase_middle hnodup, List.filter_append]

/-- The timer behind is still the next one unless it was deleted. -/
theorem firstNode_filter (hnext : ∀ u ∈ post.head?, u ∉ D) :
    firstNode (post.filter (· ∉ D)) = firstNode post := by
  cases post with
  | nil => rfl
  | cons u post =>
    have hu : u ∉ D := hnext u rfl
    rw [List.filter_cons, if_pos (decide_eq_true hu)]
    rfl

/-- The loop, once it has passed the timers `pre`, when no function deletes the timer behind its
own. -/
theorem cancelLoop_ok (hspares : SparesNext now s.expires dels post)
    (h : Settled s all (pre ++ post)) (hpost : post ⊆ all) (hD : ∀ t ∈ all, dels t ⊆ all) :
    ∃ calls s', (∀ fuel, post.length < fuel →
        dispatchLoopWith (cancel dels) now fuel (some (firstNode post))
          (s.links.next (firstNode post)) s = .ok (calls, s')) ∧
      (calls.map Firing.timer).Sublist post ∧
      calls.Pairwise fun c d => d.timer ∉ dels c.timer := by
  generalize hexpires : s.expires = expires at hspares
  induction hspares generalizing s pre with
  | nil =>
    refine ⟨[], s, fun fuel hfuel => ?_, List.Sublist.refl _, List.Pairwise.nil⟩
    obtain ⟨fuel, rfl⟩ := Nat.exists_eq_add_of_lt hfuel
    rfl
  | @undue t post hdue hrest ih =>
    rw [List.cons_subset] at hpost
    have hnext := next_of_ring h.queue.ring
    have hsplit : pre ++ t :: post = (pre ++ [t]) ++ post := by simp
    rw [hsplit] at h
    obtain ⟨calls, s', hloop, hsub, hdel⟩ := ih h hpost.2 hexpires
    refine ⟨calls, s', fun fuel hfuel => ?_, hsub.cons t, hdel⟩
    obtain ⟨fuel, rfl⟩ : ∃ n, fuel = n + 1 := ⟨fuel - 1, by simp at hfuel; omega⟩
    rw [← hexpires] at hdue
    rw [firstNode, hnext, dispatchLoopWith_succ (dispatchTurnWith_undue hdue),
      hloop fuel (Nat.lt_of_succ_lt_succ hfuel)]
    rfl
  | @due t post hdue hspared hrest ih =>
    -- the successor is read before the call, and the loop then goes on at what is left of the list
    rw [List.cons_subset] at hpost
    have hnext := next_of_ring h.queue.ring
    rw [← hexpires] at hdue
    obtain ⟨L, hturn, h'⟩ := h.turn hpost.1 (hD t hpost.1) hdue
    rw [filter_turn h.queue.nodup] at h'
    have hkept : post.filter (· ∉ dels t) ⊆ all := fun u hu =>
      hpost.2 (List.mem_of_mem_filter hu)
    obtain ⟨calls, s', hloop, hsub, hdel⟩ := ih h' hkept hexpires
    rw [firstNode_filter hspared] at hloop
    refine ⟨⟨t, s.function t, s.data t⟩ :: calls, s', fun fuel hfuel => ?_, ?_, ?_⟩
    · obtain ⟨fuel, rfl⟩ : ∃ n, fuel = n + 1 := ⟨fuel - 1, by simp at hfuel; omega⟩
      have hfuel' : (post.filter (· ∉ dels t)).length < fuel :=
        (List.length_filter_le ..).trans_lt (Nat.lt_of_succ_lt_succ hfuel)
      rw [firstNode, hnext, dispatchLoopWith_succ hturn, hloop fuel hfuel']
      rfl
    · exact (hsub.trans List.filter_sublist).cons_cons t
    · -- whatever is fired later was not deleted by the function of `t`
      refine List.Pairwise.cons (fun d hd => ?_) hdel
      have hmem := hsub.subset (List.mem_map_of_mem hd)
      exact of_decide_eq_true (List.mem_filter.mp hmem).2

/-- And when one does, the loop never ends. -/
theorem cancelLoop_diverges (fuel : ℕ) (hdeletes : ¬ SparesNext now s.expires dels post)
    (h : Settled s all (pre ++ post)) (hpost : post ⊆ all) (hD : ∀ t ∈ all, dels t ⊆ all) :
    dispatchLoopWith (cancel dels) now fuel (some (firstNode post))
      (s.links.next (firstNode post)) s = .error .diverge := by
  induction fuel generalizing s pre post with
  | zero => rfl
  | succ fuel ih =>
    cases post with
    | nil => exact absurd .nil hdeletes
    | cons t post =>
      rw [List.cons_subset] at hpost
      have hnext := next_of_ring h.queue.ring
      rw [firstNode, hnext]
      by_cases hdue : timeAfterEq now (s.expires t) = true
      · obtain ⟨L, hturn, h'⟩ := h.turn hpost.1 (hD t hpost.1) hdue
        rw [dispatchLoopWith_succ hturn]
        by_cases hspared : ∀ u ∈ post.head?, u ∉ dels t
        · -- a later firing is the one that deletes the timer behind it
          rw [filter_turn h.queue.nodup] at h'
          have hkept : post.filter (· ∉ dels t) ⊆ all := fun u hu =>
            hpost.2 (List.mem_of_mem_filter hu)
          have hrest := ih (s := { s with links := L })
            (fun hrest => hdeletes (.due hdue hspared hrest)) h' hkept
          rw [firstNode_filter hspared] at hrest
          rw [hrest]
          rfl
        · -- this firing deletes the next timer
          push Not at hspared
          obtain ⟨u, hu, hdel⟩ := hspared
          obtain ⟨post, rfl⟩ : ∃ post', post = u :: post' := List.head?_eq_some_iff.mp hu
          have hmem : u ∈ all := (List.cons_subset.mp hpost.2).1
          have hoff : u ∉ ((pre ++ t :: u :: post).filter (· ∉ dels t)).erase t := by
            intro hmem'
            have hkept := List.mem_filter.mp (List.mem_of_mem_erase hmem')
            exact of_decide_eq_true hkept.2 hdel
          rw [firstNode, (h'.off u hmem hoff).1, cancelLoop_stuck h' hD hmem hoff]
          rfl
      · have hsplit : pre ++ t :: post = (pre ++ [t]) ++ post := by simp
        rw [hsplit] at h
        have hrest := ih (fun hrest => hdeletes (.undue hdue hrest)) h hpost.2
        rw [dispatchLoopWith_succ (dispatchTurnWith_undue hdue), hrest]
        rfl

/-- **A dispatch survives the deletions exactly when no function that is called deletes the timer
behind its own.** -/
theorem survivesCancels_iff (hq : Queue s l) (hD : ∀ t ∈ l, dels t ⊆ l) :
    SurvivesCancels dels now s ↔ SparesNext now s.expires dels l := by
  have hstart : Settled s l ([] ++ l) := ⟨hq, fun u hu hoff => absurd hu hoff⟩
  refine ⟨fun h => ?_, fun hspares => ?_⟩
  · by_contra hdeletes
    obtain ⟨turns, calls, s', hreturns, -⟩ := h
    have hdiverges := cancelLoop_diverges turns hdeletes hstart (List.Subset.refl l) hD
    rw [← hq.dispatchTimerWith, hreturns turns le_rfl] at hdiverges
    cases hdiverges
  · obtain ⟨calls, s', hloop, hsub, hdel⟩ :=
      cancelLoop_ok hspares hstart (List.Subset.refl l) hD
    refine ⟨l.length + 1, calls, s', fun fuel hfuel => ?_, hq.nodup.sublist hsub, hdel⟩
    rw [hq.dispatchTimerWith]
    exact hloop fuel hfuel

end

/-- Three due timers: the first one deletes the last one. -/
theorem survivesCancels_three :
    ∃ s, Queue s [0, 1, 2] ∧ SurvivesCancels (fun t => if t = 0 then [2] else []) 5 s := by
  obtain ⟨s, hq, hexpires, -⟩ := exists_queue (l := [0, 1, 2]) (by decide) (fun _ => 4)
    (fun _ => 0) fun _ => 0
  refine ⟨s, hq, (survivesCancels_iff hq (by decide)).mpr ?_⟩
  rw [hexpires]
  exact .due (by decide) (by decide) (.due (by decide) (by decide) .nil)

/-- Two due timers: the first one deletes the second one. -/
theorem not_survivesCancels_next :
    ¬ ∀ (s : TimerSys) (l : List ℕ) (now : Time) (dels : ℕ → List ℕ), Queue s l →
      (l.Pairwise fun u v => timeBefore (s.expires v) (s.expires u) = false) →
      (∀ t ∈ l, ∀ u ∈ dels t, u ∈ l ∧ u ≠ t) → SurvivesCancels dels now s := by
  intro hall
  obtain ⟨s, hq, hexpires, -⟩ := exists_queue (l := [0, 1]) (by decide) (fun _ => 4)
    (fun _ => 0) fun _ => 0
  have hsorted : [0, 1].Pairwise fun u v => timeBefore (s.expires v) (s.expires u) = false := by
    rw [hexpires]
    decide
  have hother : ∀ t ∈ [0, 1], ∀ u ∈ (if t = 0 then [1] else []), u ∈ [0, 1] ∧ u ≠ t := by decide
  obtain ⟨turns, calls, s', hreturns, -⟩ := hall s _ 5 (fun t => if t = 0 then [1] else []) hq
    hsorted hother
  have hdeletes : ¬ SparesNext 5 s.expires (fun t => if t = 0 then [1] else []) [0, 1] := by
    rw [hexpires]
    intro hspares
    cases hspares with
    | undue hdue hrest => exact hdue (by decide)
    | due hdue hnext hrest => exact hnext 1 rfl (by decide)
  have hstart : Settled s [0, 1] ([] ++ [0, 1]) := ⟨hq, fun u hu hoff => absurd hu hoff⟩
  have hdiverges := cancelLoop_diverges turns hdeletes hstart (List.Subset.refl _)
    fun t ht u hu => (hother t ht u hu).1
  rw [← hq.dispatchTimerWith, hreturns turns le_rfl] at hdiverges
  cases hdiverges

end Vlstp
