import Vlstp.Timer.Callbacks

/-!
# What a dispatch fires

`Queue.dispatchTimer` says that `dispatch_timer` fires what `time_after_eq` says is due, in the
order of the list. Here that is read in terms of times on the circle: as long as the times of the
timers and the current time lie in less than half of it, counted from any `base`, what is due are
the timers with a time at or before the current one, and a list sorted by `time_before` is sorted by
time, equal times by the order of arming.
-/

namespace Vlstp

/-- The time of a timer, counted from `base`. -/
def TimerSys.dueAt (s : TimerSys) (base : Time) (t : ℕ) : ℕ := (s.expires t - base).toNat

/-- `t` is due before `u`, or at the same time and was armed before it. -/
def TimerSys.DueBefore (s : TimerSys) (base : Time) (log : List TimerEvent) (t u : ℕ) : Prop :=
  s.dueAt base t < s.dueAt base u ∨ s.dueAt base t = s.dueAt base u ∧ ArmedBefore log t u

/-- What a dispatch of the timers `l` owes at a time that is `now` from `base`: it calls the
function of each timer that is due, with its own data, each once and in the order of the times,
calls no other, and leaves the rest on the list, in the order they were in. -/
structure FiresDue (s s' : TimerSys) (base : Time) (now : ℕ) (log : List TimerEvent) (l : List ℕ)
    (calls : List Firing) : Prop where
  fired : ∀ t, t ∈ calls.map Firing.timer ↔ t ∈ l ∧ s.dueAt base t ≤ now
  once : (calls.map Firing.timer).Nodup
  own : ∀ c ∈ calls, c.function = s.function c.timer ∧ c.data = s.data c.timer
  ordered : (calls.map Firing.timer).Pairwise (s.DueBefore base log)
  left : Queue s' (l.filter fun t => now < s.dueAt base t)
  times : s'.expires = s.expires

section

variable {s : TimerSys} {base now : Time} {l : List ℕ} {log : List TimerEvent}

/-- `time_after_eq` is the opposite of `time_before`. -/
theorem timeAfterEq_eq_not (a b : Time) : timeAfterEq a b = !timeBefore a b := by
  unfold timeAfterEq timeBefore timeAfter
  rw [BitVec.sle_eq_not_slt]

/-- A timer is due if its time is not after the current one. -/
theorem timeAfterEq_iff {t : ℕ} (ht : s.dueAt base t < 2 ^ 63)
    (hnow : (now - base).toNat < 2 ^ 63) :
    timeAfterEq now (s.expires t) = true ↔ s.dueAt base t ≤ (now - base).toNat := by
  rw [timeAfterEq_eq_not, Bool.not_eq_true', ← Bool.not_eq_true, timeBefore_iff hnow ht, Nat.not_lt]
  exact Iff.rfl

theorem dueBefore_of_precedes {t u : ℕ} (ht : s.dueAt base t < 2 ^ 63)
    (hu : s.dueAt base u < 2 ^ 63) (h : TimerQueue.Precedes s.expires log t u) :
    s.DueBefore base log t u := by
  rcases h with hbefore | ⟨heq, harmed⟩
  · exact Or.inl ((timeBefore_iff ht hu).mp hbefore)
  · exact Or.inr ⟨eq_iff_distance.mp heq, harmed⟩

theorem timers_firings (s : TimerSys) (l : List ℕ) : (firings s l).map Firing.timer = l := by
  rw [firings, List.map_map]
  exact List.map_id l

/-- **Dispatch fires exactly what is due.** For a sorted list of any length, times that lie in less
than half of the circle and functions that do not touch the timers. -/
theorem dispatchTimer_firesDue {fuel : ℕ} (hq : Queue s l)
    (hsorted : l.Pairwise (TimerQueue.Precedes s.expires log))
    (hhalf : ∀ t ∈ l, s.dueAt base t < 2 ^ 63) (hnow : (now - base).toNat < 2 ^ 63)
    (hfuel : l.length < fuel) :
    ∃ calls s', dispatchTimer fuel now s = .ok (calls, s') ∧
      FiresDue s s' base (now - base).toNat log l calls := by
  obtain ⟨L', hdispatch, hqueue, -, -⟩ := hq.dispatchTimer now hfuel
  refine ⟨_, _, hdispatch, ?_, ?_, ?_, ?_, ?_, rfl⟩
  · intro t
    rw [timers_firings, due, List.mem_filter]
    exact and_congr_right fun ht => timeAfterEq_iff (hhalf t ht) hnow
  · rw [timers_firings]
    exact hq.nodup.filter _
  · intro c hc
    obtain ⟨t, -, rfl⟩ := List.mem_map.mp hc
    exact ⟨rfl, rfl⟩
  · rw [timers_firings]
    refine (hsorted.filter _).imp_of_mem fun ht hu h => ?_
    exact dueBefore_of_precedes (hhalf _ (List.mem_of_mem_filter ht))
      (hhalf _ (List.mem_of_mem_filter hu)) h
  · -- what is left is what is not due
    have hundue : undue now s.expires l =
        l.filter fun t => (now - base).toNat < s.dueAt base t := by
      refine List.filter_congr fun t ht => ?_
      rw [Bool.eq_iff_iff, Bool.not_eq_true', ← Bool.not_eq_true, timeAfterEq_iff (hhalf t ht) hnow,
        decide_eq_true_iff, Nat.not_le]
    rwa [hundue] at hqueue

end

/-- Two timers, due at 4 and at 7, at the time 5. -/
theorem dispatchTimer_firesDue_two :
    ∃ s calls s', dispatchTimer 3 5 s = .ok (calls, s') ∧
      FiresDue s s' 0 5 [.arm 1, .arm 2] [1, 2] calls := by
  obtain ⟨s, hq, hexpires, -⟩ := exists_queue (l := [1, 2]) (by decide)
    (fun t => if t = 1 then 4 else 7) (fun _ => 0) fun _ => 0
  have hsorted : [1, 2].Pairwise (TimerQueue.Precedes s.expires [.arm 1, .arm 2]) := by
    rw [hexpires]
    refine List.pairwise_pair.mpr (Or.inl ?_)
    decide
  have hhalf : ∀ t ∈ [1, 2], s.dueAt 0 t < 2 ^ 63 := by
    unfold TimerSys.dueAt
    rw [hexpires]
    decide
  have hnow : ((5 : Time) - 0).toNat < 2 ^ 63 := by decide
  have hfuel : [1, 2].length < 3 := by decide
  obtain ⟨calls, s', hdispatch, hfires⟩ := dispatchTimer_firesDue hq hsorted hhalf hnow hfuel
  exact ⟨s, calls, s', hdispatch, hfires⟩

end Vlstp
