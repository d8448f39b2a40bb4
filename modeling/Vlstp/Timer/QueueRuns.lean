import Vlstp.Timer.Start

/-!
# The queue over whole runs

A run of prepared calls that writes no `expires` of a queued timer, and after each call of which the
times queued lie in less than half of the circle (`QueueMove`), carries a queue along: the memory
holds it from the first `add_timer` on, it is exact and it is sorted (`Tracks`). What
`timer_next_msecs` returns follows from the order: the time until the earliest timer.
-/

namespace Vlstp

/-- The times queued lie in less than half of the circle. -/
def QueuedWithinHalf (p : TimerProgram) : Prop :=
  ∃ base, ∀ t, Armed p.log t → (p.sys.expires t - base).toNat < 2 ^ 63

/-- A prepared call that does not write the time of a queued timer behind the queue's back. -/
def QueueCall (p : TimerProgram) (op : TimerCall) : Prop :=
  Prepared p op ∧ ∀ t e, op = .setExpires t e → ¬ Armed p.log t

/-- One call of a run. -/
def QueueMove (p : TimerProgram) (op : TimerCall) (p' : TimerProgram) : Prop :=
  Returns QueueCall timerStep p op p' ∧ QueuedWithinHalf p'

/-- The list is a ring of the timers `l`: each that is armed, once, and in the order of the times,
equal times in the order of arming. -/
structure SortedQueue (p : TimerProgram) (l : List ℕ) : Prop where
  ring : p.sys.links.Ring .head (l.map .timer)
  nodup : l.Nodup
  armed : ∀ t, t ∈ l ↔ Armed p.log t
  sorted : l.Pairwise (TimerQueue.Precedes p.sys.expires p.log)

/-- The clock shows the times `E` of the timers queued and the time `N`. The times are less than
half of the circle apart, and so is `N` from them, also when 5 more is taken off. -/
structure Shows (p : TimerProgram) (N : ℤ) (E : ℕ → ℤ) : Prop where
  expires : ∀ t, Armed p.log t → p.sys.expires t = clock (E t)
  near : ∀ t u, Armed p.log t → Armed p.log u → |E t - E u| < 2 ^ 63
  now : ∀ t, Armed p.log t → -2 ^ 63 ≤ E t - N - 5 ∧ E t - N < 2 ^ 63

/-- `ms` is 1000 if nothing is queued, and otherwise 5 less than what is left until the earliest
time, but not less than 0. -/
def UntilEarliest (p : TimerProgram) (N : ℤ) (E : ℕ → ℤ) (ms : Time) : Prop :=
  ((∀ t, ¬ Armed p.log t) ∧ ms = 1000) ∨
    ∃ m, Armed p.log m ∧ (∀ t, Armed p.log t → E m ≤ E t) ∧
      (ms.toNat : ℤ) = max 0 (E m - N - 5)

/-! ### The queue carried along -/

/-- The queue after the calls `ops`. -/
structure Tracks (ops : List TimerCall) (p : TimerProgram) (q : TimerQueue) : Prop where
  /-- The memory holds it, once `add_timer` was called. -/
  holds : (Unstarted p q ∧ ∀ t, .addTimer t ∉ ops) ∨ Realises p q
  queued : q.Exact
  sorted : q.Sorted

section

variable {ops : List TimerCall} {op : TimerCall} {p p' : TimerProgram} {q : TimerQueue}

theorem tracks_start (expires : ℕ → Time) (function : ℕ → ℕ) (data : ℕ → BitVec 64) :
    Tracks [] (start expires function data) ⟨[], expires, []⟩ where
  holds := Or.inl ⟨unstarted_start expires function data, fun _ => List.not_mem_nil⟩
  queued := (unstarted_start expires function data).exact
  sorted := List.Pairwise.nil

theorem Tracks.expires (ht : Tracks ops p q) : p.sys.expires = q.expires := by
  obtain ⟨hu, -⟩ | hr := ht.holds
  · exact hu.expires
  · exact hr.expires

theorem Tracks.log (ht : Tracks ops p q) : p.log = q.log := by
  obtain ⟨hu, -⟩ | hr := ht.holds
  · exact hu.log
  · exact hr.log

theorem Tracks.armed_iff (ht : Tracks ops p q) (t : ℕ) : t ∈ q.queue ↔ Armed p.log t := by
  rw [ht.log]
  exact ht.queued.armed t

/-- A call of a run returns, and what it leaves holds the queue after it. -/
theorem Tracks.returns (ht : Tracks ops p q) (hop : QueueCall p op) :
    ∃ r p', timerStep p op = .ok (r, p') ∧
      ((Unstarted p' (q.after op) ∧ ∀ t, .addTimer t ∉ ops ++ [op]) ∨
        Realises p' (q.after op)) := by
  have hmay : q.MayCall op := hop.1.mayCall ht.log ht.queued
  obtain ⟨hu, hnever⟩ | hr := ht.holds
  · -- before the first `add_timer`, which may be this call
    obtain ⟨r, p', hstep, hp'⟩ := hu.step hop.1
    refine ⟨r, p', hstep, hp'.imp_left fun ⟨hu', hne⟩ => ⟨hu', fun t hmem => ?_⟩⟩
    rcases List.mem_append.mp hmem with hmem | hmem
    · exact hnever t hmem
    · exact hne t (List.mem_singleton.mp hmem).symm
  · obtain ⟨r, p', hstep, hr'⟩ := hr.step ht.queued hmay
    exact ⟨r, p', hstep, Or.inr hr'⟩

/-- **One call.** -/
theorem Tracks.step (ht : Tracks ops p q) (hmove : QueueMove p op p') :
    Tracks (ops ++ [op]) p' (q.after op) := by
  obtain ⟨⟨hop, r, hstep⟩, base, hbase⟩ := hmove
  have hqueued := ht.queued.after (hop.1.mayCall ht.log ht.queued)
  obtain ⟨r', p'', hstep', hholds⟩ := ht.returns hop
  obtain ⟨-, rfl⟩ := Prod.mk.inj (Except.ok.inj (hstep.symm.trans hstep'))
  -- the memory and the queue agree on the times and on what is queued
  have hagree : p'.sys.expires = (q.after op).expires ∧ p'.log = (q.after op).log := by
    obtain ⟨hu, -⟩ | hr := hholds
    · exact ⟨hu.expires, hu.log⟩
    · exact ⟨hr.expires, hr.log⟩
  have hwin : (q.after op).InWindow := by
    refine ⟨base, fun t hmem => ?_⟩
    rw [← hagree.1]
    apply hbase
    rw [hagree.2]
    exact (hqueued.armed t).mp hmem
  refine ⟨hholds, hqueued, ht.sorted.after ht.queued (fun t e heq => ?_) hwin⟩
  rw [ht.armed_iff]
  exact hop.2 t e heq

/-- A run carries a queue along. -/
theorem exists_tracks {expires : ℕ → Time} {function : ℕ → ℕ} {data : ℕ → BitVec 64}
    (hrun : Run QueueMove (start expires function data) ops p) : ∃ q, Tracks ops p q := by
  have hstart := tracks_start expires function data
  refine hrun.invariant (fun ops p => ∃ q, Tracks ops p q) ⟨_, hstart⟩ ?_
  rintro ops p op p' ⟨q, ht⟩ hmove
  exact ⟨_, ht.step hmove⟩

theorem Tracks.sortedQueue (ht : Tracks ops p q) (hr : Realises p q) : SortedQueue p q.queue where
  ring := hr.queue.ring
  nodup := ht.queued.nodup
  armed := ht.armed_iff
  sorted := by
    rw [ht.expires, ht.log]
    exact ht.sorted

/-- `timer_next_msecs` looks at the first timer, and that is the earliest. -/
theorem SortedQueue.untilEarliest {l : List ℕ} (hl : SortedQueue p l) {N : ℤ} {E : ℕ → ℤ}
    (hshows : Shows p N E) : UntilEarliest p N E (nextMsecs (clock N) p.sys.expires l) := by
  have harmed {t : ℕ} (ht : t ∈ l) : Armed p.log t := (hl.armed t).mp ht
  obtain ⟨rfl, hms⟩ | ⟨m, hm, hleast, hms⟩ := TimerQueue.nextMsecs_eq hl.sorted
    (fun t ht => hshows.expires t (harmed ht))
    (fun t ht u hu => hshows.near t u (harmed ht) (harmed hu)) fun t ht => hshows.now t (harmed ht)
  · refine Or.inl ⟨fun t ht => ?_, hms⟩
    exact List.not_mem_nil ((hl.armed t).mpr ht)
  · exact Or.inr ⟨m, harmed hm, fun t ht => hleast t ((hl.armed t).mpr ht), hms⟩

end

/-- **The timer queue over whole runs.** From the first `add_timer` on the list is a ring of exactly
the timers that are armed, each once, sorted by time and equal times by the order of arming;
`timer_next_msecs` returns the time until the earliest; and every call the run may go on with
returns. -/
theorem timer_queue_sorted (expires : ℕ → Time) (function : ℕ → ℕ) (data : ℕ → BitVec 64)
    {ops : List TimerCall} {p : TimerProgram}
    (hrun : Run QueueMove (start expires function data) ops p) (hadd : ∃ t, .addTimer t ∈ ops) :
    (∃ l, SortedQueue p l) ∧
      (∀ N E, Shows p N E →
        ∃ ms, timerNextMsecs (clock N) p.sys = .ok ms ∧ UntilEarliest p N E ms) ∧
      ∀ op, QueueCall p op → ∃ r p', timerStep p op = .ok (r, p') := by
  obtain ⟨q, ht⟩ := exists_tracks hrun
  -- a run with an `add_timer` in it has left the initial state
  have hr : Realises p q := by
    obtain ⟨t, hmem⟩ := hadd
    exact ht.holds.resolve_left fun h => h.2 t hmem
  have hl := ht.sortedQueue hr
  refine ⟨⟨_, hl⟩, fun N E hshows => ?_, fun op hop => ?_⟩
  · exact ⟨_, hr.queue.timerNextMsecs (clock N), hl.untilEarliest hshows⟩
  · obtain ⟨r, p', hstep, -⟩ := ht.returns hop
    exact ⟨r, p', hstep⟩

/-- One timer, due at 7: at 0 the event loop may sleep for 2. -/
theorem timer_queue_sorted_one :
    ∃ p, Run QueueMove (start (fun _ => 7) (fun _ => 0) fun _ => 0) [.addTimer 3] p ∧
      (∃ l, SortedQueue p l) ∧
      ∃ ms, timerNextMsecs (clock 0) p.sys = .ok ms ∧ UntilEarliest p 0 (fun _ => 7) ms := by
  have hmove : ∃ p, QueueMove (start (fun _ => 7) (fun _ => 0) fun _ => 0) (.addTimer 3) p ∧
      ∀ t, p.sys.expires t = 7 := by
    refine ⟨_, ⟨⟨⟨armed_nil, fun _ _ => TimerCall.noConfusion⟩, .void, rfl⟩, 7, fun t _ => ?_⟩,
      fun t => rfl⟩
    change ((7 : Time) - 7).toNat < 2 ^ 63
    decide
  obtain ⟨p, hp, hexpires⟩ := hmove
  have hrun : Run QueueMove _ [.addTimer 3] p := Run.nil.snoc hp
  obtain ⟨hqueue, hnext, -⟩ := timer_queue_sorted _ _ _ hrun ⟨3, List.mem_singleton_self _⟩
  have hshows : Shows p 0 fun _ => 7 := by
    refine ⟨fun t _ => ?_, fun _ _ _ _ => by decide, fun _ _ => by decide⟩
    rw [hexpires]
    rfl
  exact ⟨p, hrun, hqueue, hnext 0 _ hshows⟩

end Vlstp
