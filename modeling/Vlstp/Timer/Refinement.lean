import Vlstp.Timer.Callbacks

/-!
# The timer system refines the queue

`Realises p q` says that the memory of the program `p` holds the queue `q`: the list is a ring of
the timers queued, a timer that was added and is not queued is linked to itself, and one that was
not added since it was set up has `NULL` links. Every call that may be made keeps that up
(`Realises.step`), and what follows about runs is read off the queue.
-/

namespace Vlstp

/-- The memory holds the queue. -/
structure Realises (p : TimerProgram) (q : TimerQueue) : Prop where
  expires : p.sys.expires = q.expires
  log : p.log = q.log
  queue : Queue p.sys q.queue
  idle : ∀ t, t ∉ q.queue → Added q.log t → p.sys.links.Linked (.timer t) (.timer t)
  null : ∀ t, ¬ Added q.log t → p.sys.links.next (.timer t) = none

section

variable {p : TimerProgram} {q : TimerQueue} {L : Links Node} {t : ℕ}

theorem Realises.added_of_mem (hr : Realises p q) (ht : t ∈ q.queue) : Added q.log t := by
  by_contra hnot
  refine hr.queue.ring.next_ne_none (x := .timer t) ?_ (hr.null t hnot)
  exact List.mem_cons_of_mem _ (timer_mem_map.mpr ht)

theorem Realises.panding_iff (hr : Realises p q) :
    timerPanding t p.sys = true ↔ Added q.log t := by
  constructor
  · intro hpanding
    by_contra hnot
    rw [timerPanding, hr.null t hnot] at hpanding
    exact absurd hpanding (by decide)
  · exact fun hadded => hr.queue.panding fun hmem => hr.idle t hmem hadded

theorem Realises.length_lt (hr : Realises p q) (hq : q.Exact) : q.queue.length < p.turns := by
  have hle := hq.length_le
  unfold TimerProgram.turns
  rw [hr.log]
  omega

/-- A timer that was taken out, or was not queued, has been put in its place. -/
theorem Realises.arm {e : Time} (hr : Realises p q) (hq : q.Exact)
    (hqueue : Queue { p.sys with links := L, expires := Function.update p.sys.expires t e }
      (enqueue (Function.update p.sys.expires t e) t (q.queue.erase t)))
    (hunt : Untouched p.sys.links L (t :: q.queue)) :
    Realises ⟨{ p.sys with links := L, expires := Function.update p.sys.expires t e },
      p.log ++ [.arm t]⟩ (q.arm t e) := by
  refine ⟨?_, ?_, ?_, fun u hu hadded => ?_, fun u hadded => ?_⟩
  · exact congrArg (Function.update · t e) hr.expires
  · exact congrArg (· ++ [.arm t]) hr.log
  · simp only [TimerQueue.arm, ← hr.expires]
    exact hqueue
  · -- a timer that is not queued now was neither queued before nor is it `t`
    simp only [TimerQueue.arm] at hu hadded
    rw [mem_enqueue, not_or, hq.nodup.mem_erase_iff, not_and] at hu
    obtain ⟨hne, hmem⟩ := hu
    have hnot : u ∉ t :: q.queue := by
      rw [List.mem_cons, not_or]
      exact ⟨hne, hmem hne⟩
    rw [added_snoc_iff] at hadded
    have hadded' : Added q.log u :=
      (hadded.resolve_left fun heq => hne (TimerEvent.arm.inj heq).symm).1
    exact hunt.linked hnot (hr.idle u (hmem hne) hadded')
  · simp only [TimerQueue.arm] at hadded
    rw [added_snoc_iff, not_or] at hadded
    have hnot : ¬ Added q.log u := fun h => hadded.2 ⟨h, TimerEvent.noConfusion⟩
    have hout : u ∉ t :: q.queue := by
      rw [List.mem_cons, not_or]
      refine ⟨?_, fun hmem => hnot (hr.added_of_mem hmem)⟩
      rintro rfl
      exact hadded.1 rfl
    exact (hunt u hout).1.trans (hr.null u hnot)

theorem Realises.addTimer (hr : Realises p q) (hq : q.Exact) (ht : t ∉ q.queue) :
    ∃ sys', addTimer p.turns t p.sys = .ok sys' ∧
      Realises ⟨sys', p.log ++ [.arm t]⟩ (q.arm t (q.expires t)) := by
  obtain ⟨L, hadd, hqueue, hunt⟩ := hr.queue.internalAddTimer ht (hr.length_lt hq)
  have hr' : Realises ⟨{ p.sys with
      links := L, expires := Function.update p.sys.expires t (q.expires t) },
      p.log ++ [.arm t]⟩ (q.arm t (q.expires t)) := by
    refine hr.arm hq ?_ hunt
    rw [List.erase_of_not_mem ht, ← hr.expires, Function.update_eq_self]
    exact hqueue
  -- the time is the one it has
  rw [← hr.expires, Function.update_eq_self] at hr'
  refine ⟨_, ?_, by rw [← hr.expires]; exact hr'⟩
  have hinited : (!p.sys.inited) = false := by
    rw [hr.queue.inited]
    rfl
  rw [Vlstp.addTimer, hinited]
  exact hadd

theorem Realises.modTimer (hr : Realises p q) (hq : q.Exact) (ht : Added q.log t) (e : Time) :
    ∃ r sys', modTimer p.turns t e p.sys = .ok (r, sys') ∧
      Realises ⟨sys', if r = 0 then p.log ++ [.arm t] else p.log⟩
        (if q.expires t = e then q else q.arm t e) := by
  by_cases he : q.expires t = e
  · -- the time is the old one, and `timer_panding` holds also of a timer that is not queued
    have hskip : (timerPanding t p.sys && p.sys.expires t == e) = true := by
      rw [hr.panding_iff.mpr ht, Bool.true_and, hr.expires]
      exact beq_iff_eq.mpr he
    refine ⟨1, p.sys, ?_, ?_⟩
    · rw [Vlstp.modTimer, hskip]
      rfl
    · rw [if_pos he, if_neg (by decide)]
      exact hr
  · -- taken out if it is queued, and linked to itself if not
    have hne : p.sys.expires t ≠ e := by rwa [hr.expires]
    have hlen : (q.queue.erase t).length < p.turns :=
      calc (q.queue.erase t).length ≤ q.queue.length := List.erase_sublist.length_le
        _ < p.turns := hr.length_lt hq
    obtain ⟨L, hmod, hqueue, hunt⟩ :=
      hr.queue.modTimer (fun hmem => hr.idle t hmem ht) hne hlen
    refine ⟨0, _, hmod, ?_⟩
    rw [if_neg he, if_pos rfl]
    exact hr.arm hq hqueue hunt

theorem Realises.delTimer (hr : Realises p q) (hq : q.Exact) :
    ∃ sys', delTimer t p.sys = .ok sys' ∧
      Realises ⟨sys', p.log ++ [.del t]⟩
        { q with queue := q.queue.erase t, log := q.log ++ [.del t] } := by
  have hadded (u : ℕ) : Added (q.log ++ [.del t]) u ↔ Added q.log u := by
    rw [added_snoc_iff]
    simp
  unfold Vlstp.delTimer
  by_cases hadd : Added q.log t
  · -- taken out if it is queued, and linked to itself if not
    obtain ⟨L, hdetach, hqueue, hself, hunt⟩ :=
      hr.queue.detachTimer_erase fun hmem => hr.idle t hmem hadd
    rw [if_pos (hr.panding_iff.mpr hadd)]
    refine ⟨_, hdetach, hr.expires, congrArg (· ++ [.del t]) hr.log, hqueue, fun u hu hu' => ?_,
      fun u hu => ?_⟩
    · by_cases hut : u = t
      · rw [hut]
        exact hself
      · have hnot : u ∉ q.queue := fun h => hu ((hq.nodup.mem_erase_iff).mpr ⟨hut, h⟩)
        exact hunt.linked hnot (hr.idle u hnot ((hadded u).mp hu'))
    · have hnot : ¬ Added q.log u := fun h => hu ((hadded u).mpr h)
      exact (hunt u fun h => hnot (hr.added_of_mem h)).1.trans (hr.null u hnot)
  · -- its links are `NULL`
    have hmem : t ∉ q.queue := fun h => hadd (hr.added_of_mem h)
    rw [if_neg fun h => hadd (hr.panding_iff.mp h), List.erase_of_not_mem hmem]
    exact ⟨p.sys, rfl, hr.expires, congrArg (· ++ [.del t]) hr.log, hr.queue,
      fun u hu hu' => hr.idle u hu ((hadded u).mp hu'), fun u hu =>
      hr.null u fun h => hu ((hadded u).mpr h)⟩

theorem fireEvents_firings (s : TimerSys) (l : List ℕ) :
    fireEvents (firings s l) = l.map .fire := by
  simp [fireEvents, firings]

theorem Realises.dispatchTimer (hr : Realises p q) (hq : q.Exact) (now : Time) :
    ∃ sys', dispatchTimer p.turns now p.sys =
        .ok (firings p.sys (due now q.expires q.queue), sys') ∧
      Realises ⟨sys', p.log ++ fireEvents (firings p.sys (due now q.expires q.queue))⟩
        (q.fire now) := by
  obtain ⟨L', hdispatch, hqueue, hselves, hunt⟩ :=
    hr.queue.dispatchTimer now (hr.length_lt hq)
  rw [hr.expires] at hdispatch hqueue hselves
  rw [fireEvents_firings]
  refine ⟨_, hdispatch, rfl, ?_, hqueue, fun u hu hadd => ?_, fun u hadd => ?_⟩
  · exact congrArg (· ++ _) hr.log
  · simp only [TimerQueue.fire] at hu hadd
    rw [added_append_fire_iff] at hadd
    -- not queued any more, or not queued before
    by_cases hmem : u ∈ q.queue
    · refine hselves u (List.mem_filter.mpr ⟨hmem, ?_⟩)
      by_contra hnot
      exact hu (List.mem_filter.mpr ⟨hmem, by simpa using hnot⟩)
    · exact hunt.linked hmem (hr.idle u hmem hadd)
  · simp only [TimerQueue.fire] at hadd
    rw [added_append_fire_iff] at hadd
    exact (hunt u fun hmem => hadd (hr.added_of_mem hmem)).1.trans (hr.null u hadd)

theorem Realises.setupTimer (hr : Realises p q) (ht : t ∉ q.queue) (func : ℕ) (data : BitVec 64) :
    Realises ⟨setupTimer t func data p.sys, p.log ++ [.setup t]⟩
      { q with log := q.log ++ [.setup t] } := by
  have hother {n : Node} (hn : n ≠ .timer t) :
      (Vlstp.setupTimer t func data p.sys).links.next n = p.sys.links.next n ∧
        (Vlstp.setupTimer t func data p.sys).links.prev n = p.sys.links.prev n := by
    refine ⟨?_, ?_⟩
    · rw [Vlstp.setupTimer, Links.setNext_next_of_ne hn, Links.setPrev_next]
    · rw [Vlstp.setupTimer, Links.setNext_prev, Links.setPrev_prev_of_ne hn]
  -- the timer is not queued, so the ring does not go through it
  have hring {n : Node} (hn : n ∈ .head :: q.queue.map .timer) : n ≠ .timer t := by
    rintro rfl
    exact timer_notMem ht hn
  refine ⟨hr.expires, congrArg (· ++ [.setup t]) hr.log, ⟨hr.queue.inited, ?_⟩, fun u hu hadd => ?_,
    fun u hadd => ?_⟩
  · exact hr.queue.ring.congr (fun n hn => (hother (hring hn)).1) fun n hn => (hother (hring hn)).2
  · have hadd' := (added_snoc_iff.mp hadd).resolve_left TimerEvent.noConfusion
    have hne : Node.timer u ≠ .timer t := by
      rintro heq
      exact hadd'.2 (congrArg TimerEvent.setup (Node.timer.inj heq).symm)
    obtain ⟨hn, hp⟩ := hother hne
    obtain ⟨hself, hself'⟩ := hr.idle u hu hadd'.1
    exact ⟨hn.trans hself, hp.trans hself'⟩
  · by_cases hut : u = t
    · rw [hut]
      exact Links.setNext_next_self ..
    · -- another timer has been added exactly if it had been before
      have hnot : ¬ Added q.log u := fun h => hadd (added_snoc_iff.mpr (Or.inr
        ⟨h, fun heq => hut (TimerEvent.setup.inj heq).symm⟩))
      exact (hother fun heq => hut (Node.timer.inj heq)).1.trans (hr.null u hnot)

/-- **One call.** A call that may be made returns, and does to the queue what `TimerQueue.after`
says. -/
theorem Realises.step (hr : Realises p q) (hq : q.Exact) {op : TimerCall} (hop : q.MayCall op) :
    ∃ r p', timerStep p op = .ok (r, p') ∧ Realises p' (q.after op) := by
  cases op with
  | setExpires t e =>
    refine ⟨_, _, rfl, ?_, hr.log, ⟨hr.queue.inited, hr.queue.ring⟩, hr.idle, hr.null⟩
    exact congrArg (Function.update · t e) hr.expires
  | setupTimer t func data => exact ⟨_, _, rfl, hr.setupTimer hop func data⟩
  | addTimer t =>
    obtain ⟨sys', hadd, hr'⟩ := hr.addTimer hq hop
    exact ⟨.void, _, by simp only [timerStep, hadd, Except.ok_bind, Except.pure_eq], hr'⟩
  | modTimer t e =>
    obtain ⟨r, sys', hmod, hr'⟩ := hr.modTimer hq hop e
    exact ⟨.int r, _, by simp only [timerStep, hmod, Except.ok_bind, Except.pure_eq], hr'⟩
  | delTimer t =>
    obtain ⟨sys', hdel, hr'⟩ := hr.delTimer (t := t) hq
    exact ⟨.void, _, by simp only [timerStep, hdel, Except.ok_bind, Except.pure_eq], hr'⟩
  | dispatchTimer now =>
    obtain ⟨sys', hdispatch, hr'⟩ := hr.dispatchTimer hq now
    exact ⟨.fired (firings p.sys (due now q.expires q.queue)), _, by
      simp only [timerStep, hdispatch, Except.ok_bind, Except.pure_eq], hr'⟩
  | timerNextMsecs now =>
    have hnext := hr.queue.timerNextMsecs now
    exact ⟨.msecs (nextMsecs now p.sys.expires q.queue), p, by
      simp only [timerStep, hnext, Except.ok_bind, Except.pure_eq], hr⟩
  | dispatchEvent now ret later =>
    -- the queue is read at `now` and fired at `later`
    set ms := nextMsecs now p.sys.expires q.queue
    have hnext : Vlstp.timerNextMsecs now p.sys = .ok ms := hr.queue.timerNextMsecs now
    by_cases hret : ret = 0
    · obtain ⟨sys', hdispatch, hr'⟩ := hr.dispatchTimer hq later
      refine ⟨.event ⟨ms / 1000, ms % 1000 * 1000⟩ (firings p.sys (due later q.expires q.queue)), _,
        ?_, by simp only [TimerQueue.after, if_pos hret]; exact hr'⟩
      simp only [timerStep, vlstpDispatchEvent, hnext, Except.ok_bind, Except.pure_eq, if_pos hret,
        hdispatch]
    · refine ⟨.event ⟨ms / 1000, ms % 1000 * 1000⟩ [], p, ?_,
        by simp only [TimerQueue.after, if_neg hret]; exact hr⟩
      simp only [timerStep, vlstpDispatchEvent, hnext, Except.ok_bind, Except.pure_eq, if_neg hret,
        fireEvents, List.map_nil, List.append_nil]

end

end Vlstp
