import Vlstp.Timer.Refinement

/-!
# From the start of the program

`__timer_sys` starts with a list head that is `NULL`, and only `add_timer` initialises it. Until
then (`Unstarted`) every function that walks the list follows that `NULL`: `timer_next_msecs`,
`dispatch_timer` and with them the event loop. A timer that was set up and not added since has
`NULL` links as well, and `mod_timer` follows those.

`Prepared` says which calls find what they need. A run of such calls follows no `NULL` link, and
while nothing is queued the event loop sleeps for a second and fires nothing; in a run of the calls
that are legal, and that sets up no timer while it is queued, the other calls all fault
(`usable_iff_prepared`).
-/

namespace Vlstp

/-- `add_timer` has not been called. -/
structure Unstarted (p : TimerProgram) (q : TimerQueue) : Prop where
  expires : p.sys.expires = q.expires
  log : p.log = q.log
  inited : p.sys.inited = false
  head : p.sys.links.next .head = none
  empty : q.queue = []
  null : ∀ t, p.sys.links.next (.timer t) = none
  never : ∀ t, .arm t ∉ q.log

/-- The program before its first call. -/
def start (expires : ℕ → Time) (function : ℕ → ℕ) (data : ℕ → BitVec 64) : TimerProgram :=
  ⟨.static expires function data, []⟩

theorem unstarted_start (expires : ℕ → Time) (function : ℕ → ℕ) (data : ℕ → BitVec 64) :
    Unstarted (start expires function data) ⟨[], expires, []⟩ :=
  ⟨rfl, rfl, rfl, rfl, rfl, fun _ => rfl, fun _ => List.not_mem_nil⟩

/-- The calls that find what they walk: the readers an initialised list, `mod_timer` a timer that
was added since it was set up. A timer that is queued is neither added nor set up. -/
def Prepared (p : TimerProgram) : TimerCall → Prop
  | .setExpires _ _ | .delTimer _ => True
  | .setupTimer t _ _ | .addTimer t => ¬ Armed p.log t
  | .modTimer t _ => Added p.log t
  | .dispatchTimer _ | .timerNextMsecs _ | .dispatchEvent _ _ _ => p.sys.inited = true

section

variable {p p' : TimerProgram} {q : TimerQueue} {op : TimerCall} {r : TimerResult}

theorem Prepared.mayCall (hop : Prepared p op) (hlog : p.log = q.log) (hq : q.Exact) :
    q.MayCall op := by
  have hqueue (t : ℕ) (ht : ¬ Armed p.log t) : t ∉ q.queue := by
    rwa [hq.armed, ← hlog]
  cases op with
  | setupTimer t func data => exact hqueue t hop
  | addTimer t => exact hqueue t hop
  | modTimer t e =>
    change Added q.log t
    rwa [← hlog]
  | _ => exact trivial

/-! ### Before the first `add_timer` -/

theorem Unstarted.exact (hu : Unstarted p q) : q.Exact where
  nodup := by
    rw [hu.empty]
    exact List.nodup_nil
  armed t := by
    rw [hu.empty]
    exact iff_of_false List.not_mem_nil fun harmed => hu.never t harmed.mem

/-- The first `add_timer`. -/
theorem Unstarted.addTimer (hu : Unstarted p q) (t : ℕ) :
    ∃ sys', addTimer p.turns t p.sys = .ok sys' ∧
      Realises ⟨sys', p.log ++ [.arm t]⟩ (q.arm t (q.expires t)) := by
  set p₁ : TimerProgram :=
    ⟨{ p.sys with links := initListHead .head p.sys.links, inited := true }, p.log⟩ with hp₁
  -- an initialised head is an empty queue
  have hr : Realises p₁ q := by
    refine ⟨hu.expires, hu.log, ⟨rfl, ?_⟩, fun u _ hadded => ?_, fun u _ => ?_⟩
    · rw [hu.empty]
      exact Links.Ring.empty linked_initListHead
    · exact absurd hadded.mem (hu.never u)
    · have hsame := sameLinks_initListHead (L := p.sys.links) (x := .head) (.timer u) (by simp)
      exact hsame.1.trans (hu.null u)
  have ht : t ∉ q.queue := by
    rw [hu.empty]
    exact List.not_mem_nil
  obtain ⟨sys', hadd, hr'⟩ := hr.addTimer hu.exact ht
  refine ⟨sys', ?_, hr'⟩
  rw [← hadd, hp₁]
  unfold Vlstp.addTimer
  rw [hu.inited]
  rfl

/-- **One call before the first `add_timer`**, of those that are prepared: it returns, and only
`add_timer` starts the system. -/
theorem Unstarted.step (hu : Unstarted p q) (hop : Prepared p op) :
    ∃ r p', timerStep p op = .ok (r, p') ∧
      ((Unstarted p' (q.after op) ∧ ∀ t, op ≠ .addTimer t) ∨ Realises p' (q.after op)) := by
  have hnot {b : Prop} (hinited : p.sys.inited = true) : b := by
    rw [hu.inited] at hinited
    exact absurd hinited Bool.false_ne_true
  cases op with
  | setExpires t e =>
    refine ⟨_, _, rfl, Or.inl ⟨?_, fun _ => TimerCall.noConfusion⟩⟩
    exact ⟨congrArg (Function.update · t e) hu.expires, hu.log, hu.inited, hu.head, hu.empty,
      hu.null, hu.never⟩
  | setupTimer t func data =>
    have hlog : p.log ++ [.setup t] = q.log ++ [.setup t] := congrArg (· ++ [.setup t]) hu.log
    refine ⟨_, _, rfl, Or.inl ⟨⟨hu.expires, hlog, hu.inited, ?_, hu.empty, fun u => ?_,
      fun u hmem => ?_⟩, fun _ => TimerCall.noConfusion⟩⟩
    · exact hu.head
    · by_cases hut : u = t
      · rw [hut]
        exact Links.setNext_next_self ..
      · have hne : Node.timer u ≠ .timer t := fun heq => hut (Node.timer.inj heq)
        exact (Links.setNext_next_of_ne hne _).trans (hu.null u)
    · rcases List.mem_append.mp hmem with hmem | hmem
      · exact hu.never u hmem
      · simp at hmem
  | addTimer t =>
    obtain ⟨sys', hadd, hr⟩ := hu.addTimer t
    exact ⟨.void, _, by simp only [timerStep, hadd, Except.ok_bind, Except.pure_eq], Or.inr hr⟩
  | modTimer t e =>
    -- nothing was added yet
    have hadded : Added q.log t := hu.log ▸ hop
    exact absurd hadded.mem (hu.never t)
  | delTimer t =>
    -- the links of the timer are `NULL`
    have hdel : delTimer t p.sys = .ok p.sys := by
      simp [Vlstp.delTimer, timerPanding, hu.null t]
    refine ⟨.void, ⟨p.sys, p.log ++ [.del t]⟩, by
      simp only [timerStep, hdel, Except.ok_bind, Except.pure_eq],
      Or.inl ⟨⟨hu.expires, congrArg (· ++ [.del t]) hu.log, hu.inited, hu.head, ?_, hu.null,
        fun u hmem => ?_⟩, fun _ => TimerCall.noConfusion⟩⟩
    · simp [TimerQueue.after, hu.empty]
    · rcases List.mem_append.mp hmem with hmem | hmem
      · exact hu.never u hmem
      · simp at hmem
  | dispatchTimer now => exact hnot hop
  | timerNextMsecs now => exact hnot hop
  | dispatchEvent now ret later => exact hnot hop

theorem Unstarted.timerNextMsecs (hu : Unstarted p q) (now : Time) :
    timerNextMsecs now p.sys = .error .nullDeref := by
  unfold Vlstp.timerNextMsecs
  rw [hu.head]

theorem Unstarted.dispatchTimer (hu : Unstarted p q) (fuel : ℕ) (now : Time) :
    dispatchTimer fuel now p.sys = .error .nullDeref := by
  unfold Vlstp.dispatchTimer
  rw [hu.head]
  rfl

/-! ### Usable calls -/

/-- The calls a program may make: timers that are queued are not added, and only timers that were
added before are modified. -/
def LegalCall (p : TimerProgram) : TimerCall → Prop
  | .addTimer t => ¬ Armed p.log t
  | .modTimer t _ => .arm t ∈ p.log
  | _ => True

/-- A timer is not set up while it is queued. -/
def SetsUpUnqueued (p : TimerProgram) : TimerCall → Prop
  | .setupTimer t _ _ => ¬ Armed p.log t
  | _ => True

/-- What the readers do while nothing is queued: the event loop sleeps a second, nothing is fired
and the list stays empty. -/
def IdleCall (r : TimerResult) (p' : TimerProgram) : TimerCall → Prop
  | .timerNextMsecs _ => r = .msecs 1000
  | .dispatchTimer _ => r = .fired [] ∧ Queue p'.sys []
  | .dispatchEvent _ _ _ => r = .event ⟨1, 0⟩ [] ∧ Queue p'.sys []
  | _ => True

/-- The call follows no `NULL` link (it returns), and does nothing while nothing is queued. -/
def UsableCall (p : TimerProgram) (op : TimerCall) : Prop :=
  ∃ r p', timerStep p op = .ok (r, p') ∧ ((∀ t, ¬ Armed p.log t) → IdleCall r p' op)

/-- On an empty list the readers have nothing to do. -/
theorem Queue.idleCall (hq : Queue p.sys []) (hstep : timerStep p op = .ok (r, p')) :
    IdleCall r p' op := by
  have hnext (now : Time) : Vlstp.timerNextMsecs now p.sys = .ok 1000 := hq.timerNextMsecs now
  cases op with
  | timerNextMsecs now =>
    simp only [timerStep, hnext, Except.ok_bind, Except.pure_eq, Except.ok.injEq,
      Prod.mk.injEq] at hstep
    exact hstep.1.symm
  | dispatchTimer now =>
    obtain ⟨L', hdispatch, hqueue, -⟩ := hq.dispatchTimer now p.log.length.succ_pos
    rw [timerStep, TimerProgram.turns, hdispatch] at hstep
    obtain ⟨rfl, rfl⟩ := Prod.mk.inj (Except.ok.inj hstep)
    exact ⟨rfl, hqueue⟩
  | dispatchEvent now ret later =>
    obtain ⟨L', hdispatch, hqueue, -⟩ := hq.dispatchTimer later p.log.length.succ_pos
    rw [timerStep, vlstpDispatchEvent, hnext, Except.ok_bind, TimerProgram.turns] at hstep
    by_cases hret : ret = 0
    · simp only [if_pos hret, hdispatch, Except.ok_bind, Except.pure_eq] at hstep
      obtain ⟨rfl, rfl⟩ := Prod.mk.inj (Except.ok.inj hstep)
      exact ⟨rfl, hqueue⟩
    · simp only [if_neg hret, Except.ok_bind, Except.pure_eq] at hstep
      obtain ⟨rfl, rfl⟩ := Prod.mk.inj (Except.ok.inj hstep)
      exact ⟨rfl, hq⟩
  | _ => exact trivial

/-- `mod_timer` of a timer whose links are `NULL`. -/
theorem modTimer_null {t : ℕ} (hnull : p.sys.links.next (.timer t) = none) (e : Time) :
    timerStep p (.modTimer t e) = .error .nullDeref := by
  -- `timer_panding` is false, which skips the comparison of the times but not `detach_timer`
  have hdetach : detachTimer t p.sys = .error .nullDeref := by
    rw [detachTimer, listDelInit_null hnull]
    rfl
  simp only [timerStep, Vlstp.modTimer, timerPanding, hnull, hdetach, bne_self_eq_false,
    Bool.false_and, Bool.false_eq_true, if_false, Except.error_bind]

/-! ### Runs -/

/-- The memory holds a queue, or there is none yet. -/
def Holds (p : TimerProgram) : Prop := ∃ q : TimerQueue, q.Exact ∧ (Unstarted p q ∨ Realises p q)

theorem holds_start (expires : ℕ → Time) (function : ℕ → ℕ) (data : ℕ → BitVec 64) :
    Holds (start expires function data) :=
  have hu := unstarted_start expires function data
  ⟨_, hu.exact, Or.inl hu⟩

/-- A prepared call returns, keeps that up, and has nothing to do if nothing is queued. -/
theorem Holds.step (hp : Holds p) (hop : Prepared p op) :
    ∃ r p', timerStep p op = .ok (r, p') ∧ Holds p' ∧
      ((∀ t, ¬ Armed p.log t) → IdleCall r p' op) := by
  obtain ⟨q, hq, hu | hr⟩ := hp
  · obtain ⟨r, p', hstep, hp'⟩ := hu.step hop
    have hq' := hq.after (hop.mayCall hu.log hq)
    refine ⟨r, p', hstep, ⟨q.after op, hq', hp'.imp_left And.left⟩, fun _ => ?_⟩
    -- the readers are not prepared yet
    cases op with
    | timerNextMsecs now => exact absurd (hu.inited.symm.trans hop) Bool.false_ne_true
    | dispatchTimer now => exact absurd (hu.inited.symm.trans hop) Bool.false_ne_true
    | dispatchEvent now ret later => exact absurd (hu.inited.symm.trans hop) Bool.false_ne_true
    | _ => exact trivial
  · obtain ⟨r, p', hstep, hr'⟩ := hr.step hq (hop.mayCall hr.log hq)
    have hq' := hq.after (hop.mayCall hr.log hq)
    refine ⟨r, p', hstep, ⟨q.after op, hq', Or.inr hr'⟩, fun hidle => ?_⟩
    -- nothing armed, so nothing queued
    have hempty : q.queue = [] := by
      refine List.eq_nil_iff_forall_not_mem.mpr fun t ht => hidle t ?_
      rw [hr.log]
      exact (hq.armed t).mp ht
    exact (hempty ▸ hr.queue).idleCall hstep

theorem Holds.unstarted (hp : Holds p) (hinited : ¬ p.sys.inited = true) : ∃ q, Unstarted p q := by
  obtain ⟨q, -, hu | hr⟩ := hp
  · exact ⟨q, hu⟩
  · exact absurd hr.queue.inited hinited

/-- A legal call that is not prepared follows a `NULL` link: the readers that of the list head,
`mod_timer` that of a timer set up again. -/
theorem Holds.faults (hp : Holds p) (hlegal : LegalCall p op) (hsetup : SetsUpUnqueued p op)
    (hnot : ¬ Prepared p op) : timerStep p op = .error .nullDeref := by
  cases op with
  | setExpires t e => exact absurd trivial hnot
  | delTimer t => exact absurd trivial hnot
  | setupTimer t func data => exact absurd hsetup hnot
  | addTimer t => exact absurd hlegal hnot
  | modTimer t e =>
    obtain ⟨q, -, hu | hr⟩ := hp
    · have harm : .arm t ∈ p.log := hlegal
      rw [hu.log] at harm
      exact absurd harm (hu.never t)
    · exact modTimer_null (hr.null t (hr.log ▸ hnot)) e
  | dispatchTimer now =>
    obtain ⟨q, hu⟩ := hp.unstarted hnot
    rw [timerStep, hu.dispatchTimer]
    rfl
  | timerNextMsecs now =>
    obtain ⟨q, hu⟩ := hp.unstarted hnot
    rw [timerStep, hu.timerNextMsecs]
    rfl
  | dispatchEvent now ret later =>
    obtain ⟨q, hu⟩ := hp.unstarted hnot
    rw [timerStep, vlstpDispatchEvent, hu.timerNextMsecs]
    rfl

theorem Prepared.legal (hop : Prepared p op) : LegalCall p op ∧ SetsUpUnqueued p op := by
  cases op with
  | addTimer t => exact ⟨hop, trivial⟩
  | setupTimer t func data => exact ⟨trivial, hop⟩
  | modTimer t e => exact ⟨Added.mem hop, trivial⟩
  | _ => exact ⟨trivial, trivial⟩

/-- **A legal call is usable if and only if it is prepared.** -/
theorem Holds.usable_iff (hp : Holds p) :
    (LegalCall p op ∧ SetsUpUnqueued p op) ∧ UsableCall p op ↔ Prepared p op := by
  constructor
  · rintro ⟨⟨hlegal, hsetup⟩, r, p', hstep, -⟩
    by_contra hnot
    rw [hp.faults hlegal hsetup hnot] at hstep
    cases hstep
  · intro hop
    obtain ⟨r, p', hstep, -, hidle⟩ := hp.step hop
    exact ⟨hop.legal, r, p', hstep, hidle⟩

end

/-- **The timer system is usable from the start of the program, if the event loop is entered after
the first `add_timer`.** In a run of legal calls that sets up no timer while it is queued, every
call is usable if and only if the readers come after the first `add_timer` and `mod_timer` modifies
only timers that were added since they were set up. -/
theorem usable_iff_prepared (expires : ℕ → Time) (function : ℕ → ℕ) (data : ℕ → BitVec 64)
    (ops : List TimerCall)
    (hlegal : EveryStep timerStep LegalCall (start expires function data) ops)
    (hsetup : EveryStep timerStep SetsUpUnqueued (start expires function data) ops) :
    EveryStep timerStep UsableCall (start expires function data) ops ↔
      EveryStep timerStep Prepared (start expires function data) ops := by
  have hkeep (p : TimerProgram) (op : TimerCall) (r : TimerResult) (p' : TimerProgram)
      (hp : Holds p) (hop : Prepared p op) (hstep : timerStep p op = .ok (r, p')) : Holds p' := by
    obtain ⟨r', p'', hstep', hp'', -⟩ := hp.step hop
    rw [hstep] at hstep'
    obtain ⟨-, rfl⟩ := Prod.mk.inj (Except.ok.inj hstep')
    exact hp''
  rw [← EveryStep.congr_of_invariant Holds (holds_start expires function data)
    (fun p op r p' hp hop => hkeep p op r p' hp (hp.usable_iff.mp hop))
    fun p op hp => hp.usable_iff, EveryStep.and_iff, EveryStep.and_iff]
  exact ⟨fun h => ⟨⟨hlegal, hsetup⟩, h⟩, And.right⟩

/-- A timer is added, and the event loop fires it. -/
theorem usable_one_timer :
    EveryStep timerStep UsableCall (start (fun _ => 4) (fun _ => 0) fun _ => 0)
      [.addTimer 3, .dispatchEvent 0 0 5] := by
  refine (usable_iff_prepared _ _ _ _ ?_ ?_).mpr ?_
  · exact .cons armed_nil fun _ _ _ => .cons trivial fun _ _ _ => .nil
  · exact .cons trivial fun _ _ _ => .cons trivial fun _ _ _ => .nil
  · refine .cons armed_nil fun r s hstep => .cons ?_ fun _ _ _ => .nil
    have hinited := congrArg (fun x => x.toOption.map fun y => y.2.sys.inited) hstep
    exact (Option.some.inj hinited).symm

/-- The event loop is entered before the first `add_timer`. -/
theorem event_loop_first :
    EveryStep timerStep LegalCall (start (fun _ => 0) (fun _ => 0) fun _ => 0)
        [.dispatchEvent 0 0 0] ∧
      timerStep (start (fun _ => 0) (fun _ => 0) fun _ => 0) (.dispatchEvent 0 0 0) =
        .error .nullDeref ∧
      ¬ EveryStep timerStep UsableCall (start (fun _ => 0) (fun _ => 0) fun _ => 0)
        [.dispatchEvent 0 0 0] := by
  have hfault : timerStep (start (fun _ => 0) (fun _ => 0) fun _ => 0) (.dispatchEvent 0 0 0) =
      .error .nullDeref := rfl
  refine ⟨.cons trivial fun _ _ _ => .nil, hfault, fun h => ?_⟩
  obtain ⟨r, p', hstep, -⟩ := h [] _ _ (List.prefix_refl _) .nil
  rw [hfault] at hstep
  cases hstep

end Vlstp
