import Vlstp.Timer.QueueRuns

/-!
# The states of a timer

A timer was never added since it was set up, is queued, or was added and is not queued any more. Its
links tell the first state from the others only: they are `NULL` before `add_timer`, lead to the
neighbours in the queue, and after `list_del_init` to the timer itself.

`timer_panding` asks whether the links are not `NULL`, so it holds of the timers that are queued and
of those that no longer are (`panding_iff_onList_iff`). `mod_timer` trusts it: a timer that is not
queued any more is not queued again if its time stays the same. And a timer that was never added is
detached all the same, through its `NULL` links (`modTimer_arms_iff`).
-/

namespace Vlstp

/-- The calls that leave the timers queued alone: none of them is set up, added or given another
time. -/
def SparesQueued (p : TimerProgram) : TimerCall → Prop
  | .setExpires t _ | .setupTimer t _ _ | .addTimer t => ¬ Armed p.log t
  | _ => True

/-- A call of a run. -/
def LifecycleMove : TimerProgram → TimerCall → TimerProgram → Prop :=
  Returns SparesQueued timerStep

/-- A call of a run whose times queued lie in less than half of the circle. -/
def HalfMove (p : TimerProgram) (op : TimerCall) (p' : TimerProgram) : Prop :=
  LifecycleMove p op p' ∧ QueuedWithinHalf p'

/-- `t` is linked on the timer list. -/
def OnList (p : TimerProgram) (t : ℕ) : Prop :=
  ∃ l : List ℕ, p.sys.links.Ring .head (l.map .timer) ∧ t ∈ l

/-- `mod_timer(t, e)` returns with `t` on the list `l'` once, for the time `e`, and the other timers
of the list as they were. -/
structure ArmedBy (p : TimerProgram) (t : ℕ) (e : Time) (p' : TimerProgram) (l' : List ℕ) :
    Prop where
  returns : ∃ r, timerStep p (.modTimer t e) = .ok (r, p')
  ring : p'.sys.links.Ring .head (l'.map .timer)
  once : l'.count t = 1
  expires : p'.sys.expires t = e
  others : ∃ l : List ℕ, p.sys.links.Ring .head (l.map .timer) ∧ l'.erase t = l.erase t

/-- `t` was added since it was set up, and it is queued or gets another time. -/
def Rearmable (p : TimerProgram) (t : ℕ) (e : Time) : Prop :=
  Added p.log t ∧ (Armed p.log t ∨ p.sys.expires t ≠ e)

/-- With the time `e` for `t` the times queued lie in less than half of the circle. -/
def FitsHalf (p : TimerProgram) (t : ℕ) (e : Time) : Prop :=
  ∃ base, ∀ u, u = t ∨ Armed p.log u →
    (Function.update p.sys.expires t e u - base).toNat < 2 ^ 63

section

variable {p p' : TimerProgram} {q : TimerQueue} {op : TimerCall} {r : TimerResult} {t : ℕ}
  {e : Time} {l : List ℕ}

/-! ### Runs -/

/-- Of these calls the ones that return are prepared: the others follow a `NULL` link. -/
theorem Holds.prepared_of_returns (hp : Holds p) (hop : SparesQueued p op)
    (hstep : timerStep p op = .ok (r, p')) : Prepared p op := by
  by_contra hnot
  have hfault : timerStep p op = .error .nullDeref := by
    cases op with
    | modTimer t e =>
      obtain ⟨q, -, hu | hr⟩ := hp
      · exact modTimer_null (hu.null t) e
      · exact modTimer_null (hr.null t (hr.log ▸ hnot)) e
    | addTimer t => exact absurd hop hnot
    | setupTimer t func data => exact absurd hop hnot
    | setExpires t e => exact absurd trivial hnot
    | delTimer t => exact absurd trivial hnot
    | dispatchTimer now => exact hp.faults trivial trivial hnot
    | timerNextMsecs now => exact hp.faults trivial trivial hnot
    | dispatchEvent now ret later => exact hp.faults trivial trivial hnot
  rw [hstep] at hfault
  cases hfault

theorem Holds.queueCall_of_returns (hp : Holds p) (hop : SparesQueued p op)
    (hstep : timerStep p op = .ok (r, p')) : QueueCall p op := by
  refine ⟨hp.prepared_of_returns hop hstep, fun t e heq => ?_⟩
  subst heq
  exact hop

theorem Holds.move (hp : Holds p) (hmove : LifecycleMove p op p') : Holds p' := by
  obtain ⟨hop, r, hstep⟩ := hmove
  obtain ⟨r', p'', hstep', hp'', -⟩ := hp.step (hp.prepared_of_returns hop hstep)
  rw [hstep] at hstep'
  obtain ⟨-, rfl⟩ := Prod.mk.inj (Except.ok.inj hstep')
  exact hp''

theorem holds_of_run {expires : ℕ → Time} {function : ℕ → ℕ} {data : ℕ → BitVec 64}
    {ops : List TimerCall} (hrun : Run LifecycleMove (start expires function data) ops p) :
    Holds p :=
  hrun.invariant_state Holds (holds_start expires function data) fun _ _ _ hp hmove =>
    hp.move hmove

/-- A run within half of the circle carries a queue along. -/
theorem exists_tracks_of_run {expires : ℕ → Time} {function : ℕ → ℕ} {data : ℕ → BitVec 64}
    {ops : List TimerCall}
    (hrun : Run HalfMove (start expires function data) ops p) : ∃ q, Tracks ops p q := by
  have hqueue : Run QueueMove (start expires function data) ops p := by
    refine hrun.mono_of_invariant Holds (holds_start expires function data)
      (fun p op p' hp hmove => hp.move hmove.1) fun p op p' hp hmove => ?_
    obtain ⟨⟨hop, r, hstep⟩, hhalf⟩ := hmove
    exact ⟨⟨hp.queueCall_of_returns hop hstep, r, hstep⟩, hhalf⟩
  exact exists_tracks hqueue

theorem Holds.realises (hp : Holds p) (hinited : p.sys.inited = true) :
    ∃ q : TimerQueue, q.Exact ∧ Realises p q := by
  obtain ⟨q, hq, hu | hr⟩ := hp
  · rw [hu.inited] at hinited
    exact absurd hinited Bool.false_ne_true
  · exact ⟨q, hq, hr⟩

/-! ### `timer_panding` -/

theorem map_timer_injective : Function.Injective (List.map Node.timer) :=
  List.map_injective_iff.mpr fun _ _ => Node.timer.inj

theorem Realises.ring_eq (hr : Realises p q) (hring : p.sys.links.Ring .head (l.map .timer)) :
    l = q.queue :=
  map_timer_injective (hring.unique hr.queue.ring)

theorem Realises.onList_iff (hr : Realises p q) : OnList p t ↔ t ∈ q.queue := by
  constructor
  · rintro ⟨l, hring, ht⟩
    rwa [hr.ring_eq hring] at ht
  · exact fun ht => ⟨q.queue, hr.queue.ring, ht⟩

/-- Before the first `add_timer` there is no list. -/
theorem Unstarted.not_onList (hu : Unstarted p q) : ¬ OnList p t := by
  rintro ⟨l, hring, -⟩
  exact hring.next_ne_none (List.mem_cons_self ..) hu.head

theorem Holds.panding_agrees_iff (hp : Holds p) (t : ℕ) :
    (timerPanding t p.sys = true ↔ OnList p t) ↔ ¬ (Added p.log t ∧ ¬ Armed p.log t) := by
  obtain ⟨q, hq, hu | hr⟩ := hp
  · -- no timer was added
    have hpanding : ¬ timerPanding t p.sys = true := by simp [timerPanding, hu.null t]
    have hadded : ¬ Added p.log t := fun h => hu.never t (hu.log ▸ h.mem)
    exact iff_of_true (iff_of_false hpanding hu.not_onList) fun h => hadded h.1
  · rw [hr.panding_iff, hr.onList_iff, hr.log, ← hq.armed]
    have hqueued : t ∈ q.queue → Added q.log t := hr.added_of_mem
    tauto

/-! ### `mod_timer` -/

/-- A timer that may be re-armed is. -/
theorem Realises.armedBy (hr : Realises p q) (hq : q.Exact) (hmay : Rearmable p t e) :
    ∃ p', ArmedBy p t e p' (q.after (.modTimer t e)).queue := by
  obtain ⟨hadded, hchange⟩ := hmay
  rw [hr.log] at hadded hchange
  rw [← hq.armed, hr.expires] at hchange
  have hop : q.MayCall (.modTimer t e) := hadded
  obtain ⟨r, p', hstep, hr'⟩ := hr.step hq hop
  have hq' := hq.after hop
  refine ⟨p', ⟨r, hstep⟩, hr'.queue.ring, ?_, ?_, q.queue, hr.queue.ring, ?_⟩
  · -- it was queued for the same time, or is now queued for the new one
    refine List.count_eq_one_of_mem hq'.nodup ?_
    by_cases he : q.expires t = e
    · rw [TimerQueue.after_modTimer_same he]
      exact hchange.resolve_right fun hne => hne he
    · rw [TimerQueue.after_modTimer_of_ne he]
      exact mem_enqueue.mpr (Or.inl rfl)
  · rw [hr'.expires]
    by_cases he : q.expires t = e
    · rwa [TimerQueue.after_modTimer_same he]
    · rw [TimerQueue.after_modTimer_of_ne he]
      exact Function.update_self ..
  · by_cases he : q.expires t = e
    · rw [TimerQueue.after_modTimer_same he]
    · rw [TimerQueue.after_modTimer_of_ne he]
      exact List.erase_orderedInsert_of_notMem hq.nodup.not_mem_erase

/-- And only such a timer is: one that was not added makes `mod_timer` follow a `NULL` link, and one
that is not queued stays so when its time is the same. -/
theorem Realises.rearmable (hr : Realises p q) (hq : q.Exact)
    (harms : ∃ p' l', ArmedBy p t e p' l') : Rearmable p t e := by
  obtain ⟨p', l', hby⟩ := harms
  obtain ⟨r, hstep⟩ := hby.returns
  have hadded : Added p.log t := by
    by_contra hnot
    rw [modTimer_null (hr.null t (hr.log ▸ hnot)) e] at hstep
    cases hstep
  refine ⟨hadded, ?_⟩
  by_contra hsame
  rw [not_or, not_not, hr.log, ← hq.armed, hr.expires] at hsame
  obtain ⟨hidle, he⟩ := hsame
  have hop : q.MayCall (.modTimer t e) := by
    change Added q.log t
    rwa [← hr.log]
  obtain ⟨r', p'', hstep', hr'⟩ := hr.step hq hop
  obtain ⟨-, rfl⟩ := Prod.mk.inj (Except.ok.inj (hstep.symm.trans hstep'))
  -- the queue is the same
  rw [TimerQueue.after_modTimer_same he] at hr'
  have hmem : t ∈ l' := List.count_pos_iff.mp (by rw [hby.once]; exact Nat.one_pos)
  rw [hr'.ring_eq hby.ring] at hmem
  exact hidle hmem

/-- In a run within half of the circle the list is sorted as well. -/
theorem Tracks.armedBy {ops : List TimerCall} (ht : Tracks ops p q)
    (hinited : p.sys.inited = true) (hhalf : FitsHalf p t e) (hmay : Rearmable p t e) :
    ∃ p' l', ArmedBy p t e p' l' ∧
      l'.Pairwise (TimerQueue.Precedes p'.sys.expires p'.log) := by
  have hr : Realises p q := by
    obtain ⟨hu, -⟩ | hr := ht.holds
    · rw [hu.inited] at hinited
      exact absurd hinited Bool.false_ne_true
    · exact hr
  obtain ⟨p', hby⟩ := hr.armedBy ht.queued hmay
  obtain ⟨r, hstep⟩ := hby.returns
  have hop : QueueCall p (.modTimer t e) := ⟨hmay.1, fun _ _ => TimerCall.noConfusion⟩
  obtain ⟨r', p'', hstep', hr'⟩ := hr.step ht.queued (hop.1.mayCall ht.log ht.queued)
  obtain ⟨-, rfl⟩ := Prod.mk.inj (Except.ok.inj (hstep.symm.trans hstep'))
  have hmove : QueueMove p (.modTimer t e) p' := by
    obtain ⟨base, hbase⟩ := hhalf
    refine ⟨⟨hop, r, hstep⟩, base, fun u hu => ?_⟩
    -- the new times and what is armed now
    have hlog := (ht.queued.after (hop.1.mayCall ht.log ht.queued)).armed u
    rw [hr'.log, ← hlog] at hu
    rw [hr'.expires]
    by_cases he : q.expires t = e
    · rw [TimerQueue.after_modTimer_same he] at hu ⊢
      have hsame : Function.update p.sys.expires t e = q.expires := by
        rw [hr.expires, ← he, Function.update_eq_self]
      rw [← hsame]
      exact hbase u (Or.inr ((ht.armed_iff u).mp hu))
    · rw [TimerQueue.after_modTimer_of_ne he] at hu ⊢
      simp only [TimerQueue.arm] at hu ⊢
      rw [← hr.expires]
      refine hbase u ((mem_enqueue.mp hu).imp_right fun hmem => ?_)
      exact (ht.armed_iff u).mp (List.mem_of_mem_erase hmem)
  exact ⟨p', _, hby, ((ht.step hmove).sortedQueue hr').sorted⟩

end

/-- **`timer_panding` tells the truth about a timer unless it was added since it was set up and is
not queued any more**, in every state a run reaches. -/
theorem panding_iff_onList_iff (expires : ℕ → Time) (function : ℕ → ℕ) (data : ℕ → BitVec 64)
    {ops : List TimerCall} {p : TimerProgram}
    (hrun : Run LifecycleMove (start expires function data) ops p) (t : ℕ) :
    (timerPanding t p.sys = true ↔ OnList p t) ↔ ¬ (Added p.log t ∧ ¬ Armed p.log t) :=
  (holds_of_run hrun).panding_agrees_iff t

/-- **`mod_timer` arms a timer exactly when it was added since it was set up, and is queued or gets
another time**, in every state a run reaches once the list head is initialised. If the times queued
lie in less than half of the circle all along, it leaves the list sorted. -/
theorem modTimer_arms_iff (expires : ℕ → Time) (function : ℕ → ℕ) (data : ℕ → BitVec 64)
    {ops : List TimerCall} {p : TimerProgram}
    (hrun : Run LifecycleMove (start expires function data) ops p)
    (hinited : p.sys.inited = true) (t : ℕ) (e : Time) :
    ((∃ p' l', ArmedBy p t e p' l') ↔ Rearmable p t e) ∧
      (Run HalfMove (start expires function data) ops p → FitsHalf p t e →
        ((∃ p' l', ArmedBy p t e p' l' ∧
            l'.Pairwise (TimerQueue.Precedes p'.sys.expires p'.log)) ↔ Rearmable p t e)) := by
  obtain ⟨q, hq, hr⟩ := (holds_of_run hrun).realises hinited
  refine ⟨⟨hr.rearmable hq, fun hmay => ?_⟩, fun hrun' hhalf => ⟨?_, fun hmay => ?_⟩⟩
  · obtain ⟨p', hby⟩ := hr.armedBy hq hmay
    exact ⟨p', _, hby⟩
  · rintro ⟨p', l', hby, -⟩
    exact hr.rearmable hq ⟨p', l', hby⟩
  · obtain ⟨q', ht⟩ := exists_tracks_of_run hrun'
    exact ht.armedBy hinited hhalf hmay

/-! ### One timer -/

/-- A timer is set up, added and deleted. -/
theorem exists_run_deleted :
    ∃ p p', Run HalfMove (start (fun _ => 7) (fun _ => 0) fun _ => 0)
        [.setupTimer 3 0 0, .addTimer 3] p ∧
      p.sys.inited = true ∧ p.log = [.setup 3, .arm 3] ∧ (∀ t, p.sys.expires t = 7) ∧
      LifecycleMove p (.delTimer 3) p' ∧ p'.log = [.setup 3, .arm 3, .del 3] := by
  obtain ⟨p₁, p₂, p₃, hsetup, hadd, hdel, hlog₁, hlog₂, hlog₃, hinited, hexpires₁, hexpires₂⟩ :
      ∃ p₁ p₂ p₃, timerStep (start (fun _ => 7) (fun _ => 0) fun _ => 0) (.setupTimer 3 0 0) =
          .ok (.void, p₁) ∧
        timerStep p₁ (.addTimer 3) = .ok (.void, p₂) ∧
        timerStep p₂ (.delTimer 3) = .ok (.void, p₃) ∧ p₁.log = [.setup 3] ∧
        p₂.log = [.setup 3, .arm 3] ∧ p₃.log = [.setup 3, .arm 3, .del 3] ∧
        p₂.sys.inited = true ∧ (∀ t, p₁.sys.expires t = 7) ∧ ∀ t, p₂.sys.expires t = 7 :=
    ⟨_, _, _, rfl, rfl, rfl, rfl, rfl, rfl, rfl, fun _ => rfl, fun _ => rfl⟩
  have hhalf {p : TimerProgram} (hexpires : ∀ t, p.sys.expires t = 7) : QueuedWithinHalf p := by
    refine ⟨7, fun t _ => ?_⟩
    rw [hexpires, BitVec.sub_self]
    decide
  have hidle : SparesQueued p₁ (.addTimer 3) := by
    change ¬ Armed p₁.log 3
    rw [hlog₁]
    exact fun h => absurd h.mem (by decide)
  have hmove₁ : HalfMove (start (fun _ => 7) (fun _ => 0) fun _ => 0) (.setupTimer 3 0 0) p₁ :=
    ⟨⟨armed_nil, .void, hsetup⟩, hhalf hexpires₁⟩
  have hmove₂ : HalfMove p₁ (.addTimer 3) p₂ := ⟨⟨hidle, .void, hadd⟩, hhalf hexpires₂⟩
  exact ⟨p₂, p₃, (Run.nil.snoc hmove₁).snoc hmove₂, hinited, hlog₂, hexpires₂,
    ⟨trivial, .void, hdel⟩, hlog₃⟩

/-- Added, it is pending and on the list. -/
theorem panding_iff_onList_added :
    ∃ p, Run LifecycleMove (start (fun _ => 7) (fun _ => 0) fun _ => 0)
        [.setupTimer 3 0 0, .addTimer 3] p ∧ (timerPanding 3 p.sys = true ↔ OnList p 3) := by
  obtain ⟨p, -, hrun, -, hlog, -⟩ := exists_run_deleted
  have hrun' := hrun.mono fun _ _ _ h => h.1
  refine ⟨p, hrun', (panding_iff_onList_iff _ _ _ hrun' 3).mpr ?_⟩
  rw [hlog]
  exact fun h => h.2 ⟨[.setup 3], [], rfl, List.not_mem_nil, List.not_mem_nil⟩

/-- Deleted, it is pending and not on the list. -/
theorem deleted_timer_panding :
    ¬ ∀ (expires : ℕ → Time) (function : ℕ → ℕ) (data : ℕ → BitVec 64) (ops : List TimerCall)
      (p : TimerProgram) (t : ℕ), Run LifecycleMove (start expires function data) ops p →
      TimerEvent.setup t ∈ p.log → (timerPanding t p.sys = true ↔ OnList p t) := by
  intro hall
  obtain ⟨p, p', hrun, -, -, -, hdel, hlog⟩ := exists_run_deleted
  have hrun' := (hrun.mono fun _ _ _ h => h.1).snoc hdel
  have hagree := hall _ _ _ _ p' 3 hrun' (by simp [hlog])
  rw [(holds_of_run hrun').panding_agrees_iff, hlog] at hagree
  refine hagree ⟨⟨[.setup 3], [.del 3], rfl, by decide⟩, ?_⟩
  -- the last event is the deletion
  change ¬ Armed ([.setup 3, .arm 3] ++ [.del 3]) 3
  rw [armed_snoc_iff]
  simp

/-- Added, it is given another time. -/
theorem modTimer_arms_added :
    ∃ p, Run LifecycleMove (start (fun _ => 7) (fun _ => 0) fun _ => 0)
        [.setupTimer 3 0 0, .addTimer 3] p ∧
      ∃ p' l', ArmedBy p 3 9 p' l' ∧
        l'.Pairwise (TimerQueue.Precedes p'.sys.expires p'.log) := by
  obtain ⟨p, -, hrun, hinited, hlog, hexpires, -⟩ := exists_run_deleted
  have hrun' := hrun.mono fun _ _ _ h => h.1
  have hhalf : FitsHalf p 3 9 := by
    refine ⟨7, fun u _ => ?_⟩
    by_cases hu : u = 3
    · rw [hu, Function.update_self]
      decide
    · rw [Function.update_of_ne hu, hexpires]
      decide
  have hmay : Rearmable p 3 9 := by
    rw [Rearmable, hlog]
    exact ⟨⟨[.setup 3], [], rfl, List.not_mem_nil⟩,
      Or.inl ⟨[.setup 3], [], rfl, List.not_mem_nil, List.not_mem_nil⟩⟩
  exact ⟨p, hrun', ((modTimer_arms_iff _ _ _ hrun' hinited 3 9).2 hrun hhalf).mpr hmay⟩

/-- Another timer, set up and not added. -/
theorem not_armed_before_add :
    ¬ ∀ (expires : ℕ → Time) (function : ℕ → ℕ) (data : ℕ → BitVec 64) (ops : List TimerCall)
      (p : TimerProgram) (t : ℕ) (e : Time), Run LifecycleMove (start expires function data) ops p →
      p.sys.inited = true → TimerEvent.setup t ∈ p.log → ∃ p' l', ArmedBy p t e p' l' := by
  intro hall
  obtain ⟨p, -, hrun, hinited, hlog, -⟩ := exists_run_deleted
  have hidle : SparesQueued p (.setupTimer 4 0 0) := by
    change ¬ Armed p.log 4
    rw [hlog]
    exact fun h => absurd h.mem (by decide)
  have hrun' := (hrun.mono fun _ _ _ h => h.1).snoc ⟨hidle, .void, rfl⟩
  obtain ⟨p', l', hby⟩ := hall _ _ _ _ _ 4 9 hrun' hinited (List.mem_append_right _ (by decide))
  -- its links are `NULL`
  obtain ⟨r, hstep⟩ := hby.returns
  rw [modTimer_null (Links.setNext_next_self ..)] at hstep
  cases hstep

end Vlstp
