import Vlstp.Framework.Reach
import Vlstp.Timer.Defs

/-!
# Calls of the timer system

A program that uses timers makes calls of the functions of `timer.h`, sets `timer->expires` itself
before it adds a timer, and runs the event loop. `timerStep` is one such call.

Next to the memory a `TimerProgram` carries the history of its timers, which the code does not have:
when each was armed, deleted, fired and set up. `Armed` reads off it which timers should be queued,
and `ArmedBefore` in which order they were armed.

Every loop gets one turn more than there are events in the history: more than a walk over distinct
timers that were all armed can use.
-/

namespace Vlstp

/-- A call, or a store to `timer->expires`. -/
inductive TimerCall
  | setExpires (t : ℕ) (expires : Time)
  | setupTimer (t func : ℕ) (data : BitVec 64)
  | addTimer (t : ℕ)
  | modTimer (t : ℕ) (expires : Time)
  | delTimer (t : ℕ)
  | dispatchTimer (now : Time)
  | timerNextMsecs (now : Time)
  | dispatchEvent (now : Time) (ret : ℤ) (later : Time)

/-- What it returns, and the calls of timer functions it makes. -/
inductive TimerResult
  | void
  | int (r : ℤ)
  | msecs (ms : Time)
  | fired (calls : List Firing)
  | event (tv : Timeval) (calls : List Firing)

/-- What has happened to a timer. An arming is an `add_timer`, or a `mod_timer` that returned 0. -/
inductive TimerEvent
  | arm (t : ℕ)
  | del (t : ℕ)
  | fire (t : ℕ)
  | setup (t : ℕ)
  deriving DecidableEq

structure TimerProgram where
  sys : TimerSys
  /-- What has happened so far, the latest event last. -/
  log : List TimerEvent

/-- The turns each loop may take. -/
def TimerProgram.turns (p : TimerProgram) : ℕ := p.log.length + 1

/-- The firings as events. -/
def fireEvents (calls : List Firing) : List TimerEvent := calls.map fun c => .fire c.timer

/-- One call. -/
def timerStep (p : TimerProgram) : TimerCall → Except Fault (TimerResult × TimerProgram)
  | .setExpires t e =>
    .ok (.void, { p with sys := { p.sys with expires := Function.update p.sys.expires t e } })
  | .setupTimer t func data => .ok (.void, ⟨setupTimer t func data p.sys, p.log ++ [.setup t]⟩)
  | .addTimer t => do
    let sys ← addTimer p.turns t p.sys
    return (.void, ⟨sys, p.log ++ [.arm t]⟩)
  | .modTimer t e => do
    let (r, sys) ← modTimer p.turns t e p.sys
    return (.int r, ⟨sys, if r = 0 then p.log ++ [.arm t] else p.log⟩)
  | .delTimer t => do
    let sys ← delTimer t p.sys
    return (.void, ⟨sys, p.log ++ [.del t]⟩)
  | .dispatchTimer now => do
    let (calls, sys) ← dispatchTimer p.turns now p.sys
    return (.fired calls, ⟨sys, p.log ++ fireEvents calls⟩)
  | .timerNextMsecs now => do
    let ms ← timerNextMsecs now p.sys
    return (.msecs ms, p)
  | .dispatchEvent now ret later => do
    let (tv, calls, sys) ← vlstpDispatchEvent p.turns now ret later p.sys
    return (.event tv calls, ⟨sys, p.log ++ fireEvents calls⟩)

/-! ### What the history says -/

/-- The last arming of `t` has not been followed by a deletion or a firing. -/
def Armed (log : List TimerEvent) (t : ℕ) : Prop :=
  ∃ pre post, log = pre ++ .arm t :: post ∧ .del t ∉ post ∧ .fire t ∉ post

/-- The last arming of `t` came before the last arming of `u`. -/
def ArmedBefore (log : List TimerEvent) (t u : ℕ) : Prop :=
  ∃ pre post, log = pre ++ .arm u :: post ∧ .arm t ∈ pre ∧ .arm t ∉ post

/-- `t` was armed since it was last set up. -/
def Added (log : List TimerEvent) (t : ℕ) : Prop :=
  ∃ pre post, log = pre ++ .arm t :: post ∧ .setup t ∉ post

section

variable {log events : List TimerEvent} {e : TimerEvent} {t u : ℕ}

/-- A list with one more element, split at `a`: at its end, or where it was split before. -/
theorem snoc_eq_append_cons_iff {α : Type} {l pre post : List α} {a x : α} :
    l ++ [x] = pre ++ a :: post ↔
      (post = [] ∧ l = pre ∧ x = a) ∨ ∃ post', post = post' ++ [x] ∧ l = pre ++ a :: post' := by
  rcases List.eq_nil_or_concat' post with rfl | ⟨post', y, rfl⟩
  · simp
  · constructor
    · intro heq
      rw [← List.cons_append, ← List.append_assoc] at heq
      obtain ⟨rfl, hx⟩ := List.append_inj' heq rfl
      obtain rfl : x = y := by simpa using hx
      exact Or.inr ⟨post', rfl, rfl⟩
    · rintro (⟨hnil, -, -⟩ | ⟨post'', heq, rfl⟩)
      · simp at hnil
      · obtain ⟨rfl, hx⟩ := List.append_inj' heq rfl
        obtain rfl : y = x := by simpa using hx
        simp

/-- An `a` with only elements that satisfy `P` behind it, in a list with one more element. -/
theorem exists_split_snoc_iff {α : Type} {l : List α} {a x : α} {P : α → Prop} :
    (∃ pre post, l ++ [x] = pre ++ a :: post ∧ ∀ y ∈ post, P y) ↔
      x = a ∨ (∃ pre post, l = pre ++ a :: post ∧ ∀ y ∈ post, P y) ∧ P x := by
  constructor
  · rintro ⟨pre, post, heq, hpost⟩
    -- the new element is `a` itself, or the last of those behind it
    rcases snoc_eq_append_cons_iff.mp heq with ⟨-, -, rfl⟩ | ⟨post', rfl, rfl⟩
    · exact Or.inl rfl
    · obtain ⟨hpost', hx⟩ := List.forall_mem_append.mp hpost
      exact Or.inr ⟨⟨pre, post', rfl, hpost'⟩, hx x (List.mem_singleton_self x)⟩
  · rintro (rfl | ⟨⟨pre, post, rfl, hpost⟩, hx⟩)
    · exact ⟨l, [], rfl, fun y hy => absurd hy List.not_mem_nil⟩
    · refine ⟨pre, post ++ [x], by simp, List.forall_mem_append.mpr ⟨hpost, fun y hy => ?_⟩⟩
      rwa [List.mem_singleton.mp hy]

theorem armed_nil : ¬ Armed [] t := by
  rintro ⟨pre, post, heq, -⟩
  simp at heq

/-- One more event. -/
theorem armed_snoc_iff :
    Armed (log ++ [e]) t ↔ e = .arm t ∨ Armed log t ∧ e ≠ .del t ∧ e ≠ .fire t := by
  simp only [Armed, ← List.forall_mem_ne', ← forall₂_and]
  exact exists_split_snoc_iff

/-- Firings disarm the timers fired, and no others. -/
theorem armed_append_fire_iff {l : List ℕ} :
    Armed (log ++ l.map .fire) t ↔ Armed log t ∧ t ∉ l := by
  -- the last firing is the last event
  induction l using List.reverseRecOn with
  | nil => simp
  | append_singleton l u ih =>
    rw [List.map_append, List.map_singleton, ← List.append_assoc, armed_snoc_iff, ih,
      List.mem_append, List.mem_singleton, not_or]
    constructor
    · rintro (heq | ⟨⟨harm, hmem⟩, -, hne⟩)
      · exact TimerEvent.noConfusion heq
      · exact ⟨harm, hmem, fun heq => hne (heq ▸ rfl)⟩
    · rintro ⟨harm, hmem, hne⟩
      refine Or.inr ⟨⟨harm, hmem⟩, TimerEvent.noConfusion, fun heq => hne ?_⟩
      exact (TimerEvent.fire.inj heq).symm

theorem Armed.mem (h : Armed log t) : .arm t ∈ log := by
  obtain ⟨pre, post, rfl, -⟩ := h
  simp

/-- The order of arming is not changed by an event that is not another arming of the first. -/
theorem ArmedBefore.append (h : ArmedBefore log t u) (hevents : .arm t ∉ events) :
    ArmedBefore (log ++ events) t u := by
  obtain ⟨pre, post, rfl, hmem, hnot⟩ := h
  refine ⟨pre, post ++ events, by simp, hmem, ?_⟩
  rw [List.mem_append, not_or]
  exact ⟨hnot, hevents⟩

/-- The timer armed last was armed after all others. -/
theorem armedBefore_last (h : .arm t ∈ log) : ArmedBefore (log ++ [.arm u]) t u :=
  ⟨log, [], rfl, h, List.not_mem_nil⟩

theorem Added.mem (h : Added log t) : .arm t ∈ log := by
  obtain ⟨pre, post, rfl, -⟩ := h
  simp

theorem added_snoc_iff : Added (log ++ [e]) t ↔ e = .arm t ∨ Added log t ∧ e ≠ .setup t := by
  simp only [Added, ← List.forall_mem_ne']
  exact exists_split_snoc_iff

theorem added_append_fire_iff {l : List ℕ} : Added (log ++ l.map .fire) t ↔ Added log t := by
  induction l using List.reverseRecOn with
  | nil => simp
  | append_singleton l u ih =>
    rw [List.map_append, List.map_singleton, ← List.append_assoc, added_snoc_iff, ih]
    simp

end

end Vlstp
