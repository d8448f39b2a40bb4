import Mathlib.Algebra.Order.Ring.Int
import Mathlib.Data.List.Sort
import Vlstp.Timer.Calls

/-!
# The timer queue

What the timer list is for: a `TimerQueue` is the timers that are queued, in order, when each
expires, and the history. `TimerQueue.after` says what a call does to it; there are no links here.

The queue is exactly what the history says is armed (`TimerQueue.Exact`), and as long as the times
queued lie in less than half of the circle (`InWindow`) it is sorted by them, equal ones in the
order of arming (`TimerQueue.Sorted`). Each is an invariant of its own, kept by every call that may
be made.
-/

namespace Vlstp

/-! ### Times on the circle -/

section

variable {base a b : Time}

/-- Within half of the circle, the comparison of the macros is that of the distances from its
start. -/
theorem timeBefore_iff (ha : (a - base).toNat < 2 ^ 63) (hb : (b - base).toNat < 2 ^ 63) :
    timeBefore a b = true ↔ (a - base).toNat < (b - base).toNat := by
  unfold timeBefore timeAfter
  change (a - b).slt (0#64) = true ↔ _
  rw [BitVec.slt_zero_iff_msb_cond, BitVec.msb_eq_decide, decide_eq_true_iff]
  simp only [BitVec.toNat_sub] at ha hb ⊢
  omega

theorem eq_iff_distance : a = b ↔ (a - base).toNat = (b - base).toNat := by
  rw [← BitVec.toNat_inj]
  simp only [BitVec.toNat_sub]
  omega

end

/-! ### Times that are integers -/

/-- The time on the clock of 64 bits. -/
def clock (x : ℤ) : Time := BitVec.ofInt 64 x

section

variable {x y : ℤ}

theorem clock_sub (x y : ℤ) : clock x - clock y = clock (x - y) := by
  unfold clock
  rw [BitVec.sub_eq_add_neg, ← BitVec.ofInt_neg, ← BitVec.ofInt_add, ← sub_eq_add_neg]

theorem toInt_clock (hlow : -2 ^ 63 ≤ x) (hhigh : x < 2 ^ 63) : (clock x).toInt = x :=
  BitVec.toInt_ofInt_eq_self (by decide) hlow hhigh

/-- Less than half of the circle apart, the clock shows which time is earlier. -/
theorem timeBefore_clock (hxy : |x - y| < 2 ^ 63) :
    timeBefore (clock x) (clock y) = true ↔ x < y := by
  obtain ⟨hlow, hhigh⟩ := abs_lt.mp hxy
  unfold timeBefore timeAfter
  rw [clock_sub, BitVec.slt_iff_toInt_lt, toInt_clock (by omega) hhigh]
  change x - y < 0 ↔ x < y
  exact sub_neg

theorem clock_inj (hxy : |x - y| < 2 ^ 63) (heq : clock x = clock y) : x = y := by
  obtain ⟨hlow, hhigh⟩ := abs_lt.mp hxy
  have hzero : (clock (x - y)).toInt = 0 := by
    rw [← clock_sub, heq, BitVec.sub_self]
    rfl
  rw [toInt_clock (by omega) hhigh] at hzero
  omega

/-- The difference `timer_next_msecs` returns, if it is positive. -/
theorem toNat_positive_clock (hlow : -2 ^ 63 ≤ x) (hhigh : x < 2 ^ 63) :
    ((if (0 : Time).slt (clock x) then clock x else 0).toNat : ℤ) = max 0 x := by
  have hpos : (0 : Time).slt (clock x) = true ↔ 0 < x := by
    rw [BitVec.slt_iff_toInt_lt, toInt_clock hlow hhigh]
    rfl
  by_cases hx : 0 < x
  · have hnat : ((clock x).toNat : ℤ) = x := by
      have hint := toInt_clock hlow hhigh
      rw [BitVec.toInt_eq_toNat_cond] at hint
      split at hint
      · exact hint
      · omega
    rw [if_pos (hpos.mpr hx), hnat, max_eq_right hx.le]
  · rw [if_neg (fun h => hx (hpos.mp h)), max_eq_left (Int.not_lt.mp hx)]
    rfl

end

/-! ### Operations -/

/-- The queue `l` with `t` inserted before the first timer that expires later. -/
def enqueue (expires : ℕ → Time) (t : ℕ) (l : List ℕ) : List ℕ :=
  l.orderedInsert (fun a b => timeBefore (expires a) (expires b) = true) t

theorem mem_enqueue {expires : ℕ → Time} : u ∈ enqueue expires t l ↔ u = t ∨ u ∈ l :=
  List.mem_orderedInsert _

/-- The timers that are due. -/
def due (now : Time) (expires : ℕ → Time) (l : List ℕ) : List ℕ :=
  l.filter fun t => timeAfterEq now (expires t)

/-- The timers that are not. -/
def undue (now : Time) (expires : ℕ → Time) (l : List ℕ) : List ℕ :=
  l.filter fun t => !timeAfterEq now (expires t)

section

variable {now : Time} {expires expires' : ℕ → Time} {t : ℕ} {l : List ℕ}

theorem due_cons (hdue : timeAfterEq now (expires t) = true) :
    due now expires (t :: l) = t :: due now expires l ∧
      undue now expires (t :: l) = undue now expires l := by
  simp [due, undue, hdue]

theorem undue_cons (hdue : ¬ timeAfterEq now (expires t) = true) :
    due now expires (t :: l) = due now expires l ∧
      undue now expires (t :: l) = t :: undue now expires l := by
  simp [due, undue, hdue]

/-- What is due depends on the times of the timers of the list. -/
theorem due_congr (hsame : ∀ u ∈ l, expires' u = expires u) :
    due now expires' l = due now expires l ∧ undue now expires' l = undue now expires l :=
  ⟨List.filter_congr fun u hu => by rw [hsame u hu],
    List.filter_congr fun u hu => by rw [hsame u hu]⟩

end

/-- How long the event loop may sleep. -/
def nextMsecs (now : Time) (expires : ℕ → Time) : List ℕ → Time
  | [] => 1000
  | t :: _ => if (0 : Time).slt (expires t - now - 5) then expires t - now - 5 else 0

/-- The timers that are queued, when each timer expires, and what has happened. -/
structure TimerQueue where
  queue : List ℕ
  expires : ℕ → Time
  log : List TimerEvent

namespace TimerQueue

variable (q : TimerQueue)

/-- Fire what is due. -/
def fire (now : Time) : TimerQueue where
  queue := undue now q.expires q.queue
  expires := q.expires
  log := q.log ++ (due now q.expires q.queue).map .fire

/-- Queue `t`, which is not queued, for the time `e`. -/
def arm (t : ℕ) (e : Time) : TimerQueue where
  queue := enqueue (Function.update q.expires t e) t (q.queue.erase t)
  expires := Function.update q.expires t e
  log := q.log ++ [.arm t]

/-- The queue after a call. -/
def after : TimerCall → TimerQueue
  | .setExpires t e => { q with expires := Function.update q.expires t e }
  | .setupTimer t _ _ => { q with log := q.log ++ [.setup t] }
  | .addTimer t => q.arm t (q.expires t)
  | .modTimer t e => if q.expires t = e then q else q.arm t e
  | .delTimer t => { q with queue := q.queue.erase t, log := q.log ++ [.del t] }
  | .dispatchTimer now => q.fire now
  | .timerNextMsecs _ => q
  | .dispatchEvent _ ret later => if ret = 0 then q.fire later else q

theorem after_modTimer_same {q : TimerQueue} {t : ℕ} {e : Time} (he : q.expires t = e) :
    q.after (.modTimer t e) = q :=
  if_pos he

theorem after_modTimer_of_ne {q : TimerQueue} {t : ℕ} {e : Time} (he : ¬ q.expires t = e) :
    q.after (.modTimer t e) = q.arm t e :=
  if_neg he

/-- The calls that keep to the queue: only timers that are not queued are added and set up, and only
timers that were added since are modified. -/
def MayCall : TimerCall → Prop
  | .addTimer t | .setupTimer t _ _ => t ∉ q.queue
  | .modTimer t _ => Added q.log t
  | _ => True

/-! ### The queue is what is armed -/

/-- The timers queued are those whose last arming was not followed by a deletion or a firing, each
once. -/
structure Exact : Prop where
  nodup : q.queue.Nodup
  armed : ∀ t, t ∈ q.queue ↔ Armed q.log t

variable {q}

theorem Exact.fire (hq : q.Exact) (now : Time) : (q.fire now).Exact where
  nodup := hq.nodup.filter _
  armed t := by
    simp only [TimerQueue.fire]
    -- a timer of the queue stays in it unless it was fired
    rw [armed_append_fire_iff, ← hq.armed, undue, due, List.mem_filter, List.mem_filter]
    simp only [Bool.not_eq_true', not_and, Bool.not_eq_true]
    exact and_congr_right fun hmem => ⟨fun h _ => h, fun h => h hmem⟩

theorem Exact.arm (hq : q.Exact) (t : ℕ) (e : Time) : (q.arm t e).Exact where
  nodup := by
    have hcons : (t :: q.queue.erase t).Nodup :=
      List.nodup_cons.mpr ⟨hq.nodup.not_mem_erase, hq.nodup.erase t⟩
    exact (List.perm_orderedInsert _ t _).nodup_iff.mpr hcons
  armed u := by
    simp only [TimerQueue.arm]
    rw [mem_enqueue, armed_snoc_iff, hq.nodup.mem_erase_iff, ← hq.armed]
    by_cases hu : u = t
    · simp [hu]
    · simp [hu, Ne.symm hu]

/-- **Every call keeps the queue exact.** -/
theorem Exact.after (hq : q.Exact) {op : TimerCall} (hop : q.MayCall op) : (q.after op).Exact := by
  cases op with
  | setExpires t e => exact ⟨hq.nodup, hq.armed⟩
  | setupTimer t func data =>
    refine ⟨hq.nodup, fun u => ?_⟩
    simp only [TimerQueue.after]
    rw [armed_snoc_iff, hq.armed]
    simp
  | addTimer t => exact hq.arm t _
  | modTimer t e =>
    by_cases he : q.expires t = e
    · rwa [after_modTimer_same he]
    · rw [after_modTimer_of_ne he]
      exact hq.arm t e
  | delTimer t =>
    refine ⟨hq.nodup.erase t, fun u => ?_⟩
    simp only [TimerQueue.after]
    rw [hq.nodup.mem_erase_iff, armed_snoc_iff, hq.armed]
    simp only [reduceCtorEq, TimerEvent.del.injEq, ne_eq, not_false_eq_true, and_true, false_or]
    tauto
  | dispatchTimer now => exact hq.fire now
  | timerNextMsecs now => exact hq
  | dispatchEvent now ret later =>
    simp only [TimerQueue.after]
    by_cases hret : ret = 0
    · rw [if_pos hret]
      exact hq.fire later
    · rw [if_neg hret]
      exact hq

/-- There are no more timers in the queue than events in the history. -/
theorem Exact.length_le (hq : q.Exact) : q.queue.length ≤ q.log.length := by
  -- each timer of the queue has an arming in the history
  have hnodup : (q.queue.map TimerEvent.arm).Nodup :=
    hq.nodup.map fun t u h => TimerEvent.arm.inj h
  have hsub : q.queue.map TimerEvent.arm ⊆ q.log := by
    intro e he
    obtain ⟨t, ht, rfl⟩ := List.mem_map.mp he
    exact ((hq.armed t).mp ht).mem
  calc q.queue.length = (q.queue.map TimerEvent.arm).length := (List.length_map _).symm
    _ ≤ q.log.length := (List.subperm_of_subset hnodup hsub).length_le

/-! ### The order of the queue -/

/-- `t` is due before `u`, or at the same time and was armed before it. -/
def Precedes (expires : ℕ → Time) (log : List TimerEvent) (t u : ℕ) : Prop :=
  timeBefore (expires t) (expires u) = true ∨ expires t = expires u ∧ ArmedBefore log t u

/-- The queue is sorted by the time of expiry, and equal times by the order of arming. -/
def Sorted (q : TimerQueue) : Prop := q.queue.Pairwise (Precedes q.expires q.log)

/-- The times of the timers `l` lie in less than half of the circle. -/
def WithinHalf (expires : ℕ → Time) (l : List ℕ) : Prop :=
  ∃ base, ∀ t ∈ l, (expires t - base).toNat < 2 ^ 63

section

variable {expires expires' : ℕ → Time} {log events : List TimerEvent} {t u : ℕ} {l : List ℕ}

/-- The order does not change if neither timer is armed again or given another time. -/
theorem Precedes.mono (h : Precedes expires log t u) (ht : expires' t = expires t)
    (hu : expires' u = expires u) (hevents : .arm t ∉ events) :
    Precedes expires' (log ++ events) t u := by
  unfold Precedes
  rw [ht, hu]
  exact h.imp_right fun ⟨heq, hbefore⟩ => ⟨heq, hbefore.append hevents⟩

theorem Precedes.congr (h : Precedes expires log t u) (ht : expires' t = expires t)
    (hu : expires' u = expires u) : Precedes expires' log t u := by
  unfold Precedes
  rwa [ht, hu]

/-- **Inserting a timer that was just armed keeps the order.** -/
theorem sorted_enqueue (hl : l.Pairwise (Precedes expires log)) (hwin : WithinHalf expires (t :: l))
    (ht : t ∉ l) (harmed : ∀ u ∈ l, .arm u ∈ log) :
    (enqueue expires t l).Pairwise (Precedes expires (log ++ [.arm t])) := by
  obtain ⟨base, hbase⟩ := hwin
  -- the timers that were there keep their order, as none of them is armed again
  have hkeep {u v : ℕ} (hu : u ∈ l) (h : Precedes expires log u v) :
      Precedes expires (log ++ [.arm t]) u v := by
    refine h.mono rfl rfl fun hmem => ht ?_
    obtain rfl := TimerEvent.arm.inj (List.mem_singleton.mp hmem)
    exact hu
  induction l with
  | nil => exact List.pairwise_singleton _ _
  | cons c l ih =>
    obtain ⟨hc, hl'⟩ := List.pairwise_cons.mp hl
    have hbt := hbase t (by simp)
    have hbc := hbase c (by simp)
    rw [enqueue, List.orderedInsert_cons]
    by_cases hbefore : timeBefore (expires t) (expires c) = true
    · -- due before the first timer, so before all of them
      rw [if_pos hbefore]
      have hlt := (timeBefore_iff hbt hbc).mp hbefore
      refine List.pairwise_cons.mpr ⟨fun u hu => Or.inl ?_, ?_⟩
      · have hbu := hbase u (List.mem_cons_of_mem t hu)
        rw [timeBefore_iff hbt hbu]
        rcases List.mem_cons.mp hu with rfl | hu
        · exact hlt
        · rcases hc u hu with hcu | ⟨heq, -⟩
          · calc (expires t - base).toNat < (expires c - base).toNat := hlt
              _ < (expires u - base).toNat := (timeBefore_iff hbc hbu).mp hcu
          · rwa [← heq]
      · exact hl.imp_of_mem fun hu _ h => hkeep hu h
    · -- behind the first timer, which is not due later
      rw [if_neg hbefore]
      refine List.pairwise_cons.mpr ⟨fun u hu => ?_, ?_⟩
      · rcases List.mem_orderedInsert _ |>.mp hu with rfl | hu
        · -- at equal times `t`, armed last, comes second
          have hle : (expires c - base).toNat ≤ (expires u - base).toNat :=
            Nat.not_lt.mp fun hlt => hbefore ((timeBefore_iff hbt hbc).mpr hlt)
          rcases Nat.lt_or_eq_of_le hle with hlt | heq
          · exact Or.inl ((timeBefore_iff hbc hbt).mpr hlt)
          · exact Or.inr ⟨eq_iff_distance.mpr heq, armedBefore_last (harmed c (by simp))⟩
        · exact hkeep (List.mem_cons_self ..) (hc u hu)
      · refine ih hl' (fun hmem => ht (List.mem_cons_of_mem c hmem))
          (fun u hu => harmed u (List.mem_cons_of_mem c hu)) (fun u hu => hbase u ?_)
          fun hu h => hkeep (List.mem_cons_of_mem c hu) h
        rcases List.mem_cons.mp hu with rfl | hu
        · exact List.mem_cons_self ..
        · exact List.mem_cons_of_mem t (List.mem_cons_of_mem c hu)

end

/-- **The sleep is the distance to the earliest time**, less 5, for times that are less than half of
the circle apart and that far from now. -/
theorem nextMsecs_eq {expires : ℕ → Time} {log : List TimerEvent} {l : List ℕ}
    (hs : l.Pairwise (Precedes expires log)) {N : ℤ} {E : ℕ → ℤ}
    (hE : ∀ t ∈ l, expires t = clock (E t)) (hnear : ∀ t ∈ l, ∀ u ∈ l, |E t - E u| < 2 ^ 63)
    (hnow : ∀ t ∈ l, -2 ^ 63 ≤ E t - N - 5 ∧ E t - N < 2 ^ 63) :
    (l = [] ∧ nextMsecs (clock N) expires l = 1000) ∨
      ∃ m ∈ l, (∀ t ∈ l, E m ≤ E t) ∧
        ((nextMsecs (clock N) expires l).toNat : ℤ) = max 0 (E m - N - 5) := by
  cases l with
  | nil => exact Or.inl ⟨rfl, rfl⟩
  | cons m l =>
    have hm : m ∈ m :: l := List.mem_cons_self ..
    -- the first timer precedes all others, so none expires before it
    refine Or.inr ⟨m, hm, fun t ht => ?_, ?_⟩
    · rcases List.mem_cons.mp ht with rfl | htl
      · exact le_rfl
      · rcases (List.pairwise_cons.mp hs).1 t htl with hbefore | ⟨heq, -⟩
        · rw [hE m hm, hE t ht, timeBefore_clock (hnear m hm t ht)] at hbefore
          exact hbefore.le
        · rw [hE m hm, hE t ht] at heq
          exact (clock_inj (hnear m hm t ht) heq).le
    · obtain ⟨hlow, hhigh⟩ := hnow m hm
      have hdist : expires m - clock N - 5 = clock (E m - N - 5) := by
        calc expires m - clock N - 5 = clock (E m) - clock N - 5 := by rw [hE m hm]
          _ = clock (E m - N) - clock 5 := by rw [clock_sub]; rfl
          _ = clock (E m - N - 5) := clock_sub (E m - N) 5
      rw [nextMsecs, hdist]
      exact toNat_positive_clock hlow (by omega)

/-- The times queued lie in less than half of the circle. -/
def InWindow (q : TimerQueue) : Prop := WithinHalf q.expires q.queue

theorem Sorted.fire (hs : q.Sorted) (now : Time) : (q.fire now).Sorted := by
  refine (List.Pairwise.filter _ hs).imp fun h => h.mono rfl rfl ?_
  simp

theorem Sorted.arm (hs : q.Sorted) (hq : q.Exact) {t : ℕ} {e : Time}
    (hwin : (q.arm t e).InWindow) : (q.arm t e).Sorted := by
  have hother {u : ℕ} (hu : u ∈ q.queue.erase t) :
      Function.update q.expires t e u = q.expires u := by
    refine Function.update_of_ne ?_ ..
    rintro rfl
    exact hq.nodup.not_mem_erase hu
  have hrest : (q.queue.erase t).Pairwise (Precedes (Function.update q.expires t e) q.log) := by
    exact (hs.sublist List.erase_sublist).imp_of_mem fun hu hv h => h.congr (hother hu) (hother hv)
  refine sorted_enqueue hrest ?_ hq.nodup.not_mem_erase fun u hu => ?_
  · obtain ⟨base, hbase⟩ := hwin
    exact ⟨base, fun u hu => hbase u (mem_enqueue.mpr (List.mem_cons.mp hu))⟩
  · exact ((hq.armed u).mp (List.mem_of_mem_erase hu)).mem

/-- **Every call keeps the queue sorted**, if the times queued after it lie in less than half of the
circle and no time is written behind the queue's back. -/
theorem Sorted.after (hs : q.Sorted) (hq : q.Exact) {op : TimerCall}
    (hwrite : ∀ t e, op = .setExpires t e → t ∉ q.queue) (hwin : (q.after op).InWindow) :
    (q.after op).Sorted := by
  cases op with
  | setExpires t e =>
    -- the time of a timer that is not queued
    have hother {u : ℕ} (hu : u ∈ q.queue) : Function.update q.expires t e u = q.expires u := by
      refine Function.update_of_ne ?_ ..
      rintro rfl
      exact hwrite u e rfl hu
    exact List.Pairwise.imp_of_mem (fun hu hv h => h.congr (hother hu) (hother hv)) hs
  | setupTimer t func data => exact hs.imp fun h => h.mono rfl rfl (by simp)
  | addTimer t => exact hs.arm hq hwin
  | modTimer t e =>
    by_cases he : q.expires t = e
    · rwa [after_modTimer_same he]
    · rw [after_modTimer_of_ne he] at hwin ⊢
      exact hs.arm hq hwin
  | delTimer t =>
    exact (hs.sublist List.erase_sublist).imp fun h => h.mono rfl rfl (by simp)
  | dispatchTimer now => exact hs.fire now
  | timerNextMsecs now => exact hs
  | dispatchEvent now ret later =>
    simp only [TimerQueue.after]
    by_cases hret : ret = 0
    · rw [if_pos hret]
      exact hs.fire later
    · rw [if_neg hret]
      exact hs

end TimerQueue

end Vlstp
