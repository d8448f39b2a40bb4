import Mathlib.Algebra.Order.BigOperators.Group.Finset
import Vlstp.Framework.Heap
import Vlstp.Framework.Reach
import Vlstp.Framework.Tally

/-!
# Reference counting (`vlstp.c`, `test_uls.c`)

An object that several threads hold references to. The counter is changed by
`vlstp_atomic_inc` and `vlstp_atomic_dec` alone, each one step. Everything else may come in between:
a thread that has given up a reference still has to look at what the decrement returned, and the one
for which it returned zero destroys the object in several steps, each of which faults on memory that
is not allocated. So a step of the system is one such step of one thread, in any order.

A thread that takes a reference, or uses the object, holds one; it may hand one over to another
thread. And there are never `2 ^ 64` of them, since the counter would be zero again. Under this
contract `refcount_safe` says that no step of any thread faults, that the object is destroyed once
at most, and not while anybody holds a reference, and that it does not stay behind: when all
references are given up and all threads are done, both blocks have been freed.

The invariant is that the object is in one of three phases (`Phase`).
-/

namespace Vlstp

/-- `vlstp_atomic_t`. -/
abbrev VlstpAtomic := BitVec 64

/-- `vlstp_atomic_inc`: what is stored, and returned. -/
def vlstpAtomicInc (value : VlstpAtomic) : VlstpAtomic := value + 1

/-- `vlstp_atomic_dec`. -/
def vlstpAtomicDec (value : VlstpAtomic) : VlstpAtomic := value - 1

/-! ### The object and the threads -/

/-- Where a thread is. -/
inductive Pc
  /-- Outside of the functions. -/
  | idle
  /-- In `objbase_release`, after `vlstp_atomic_dec` has returned. -/
  | released (r : VlstpAtomic)
  /-- In `typedobj_destroy`: before `LOGI`, `free(obj->buf)`, `obj->buf = NULL` and `free(obj)`. -/
  | log
  | freeBuf
  | clearBuf
  | freeObj
  deriving DecidableEq

/-- The object, and the threads `T`. -/
structure ObjSys (T : Type) where
  refcnt : VlstpAtomic
  /-- `obj->buf` is not `NULL`. -/
  buf : Bool
  objLive : Bool
  bufLive : Bool
  /-- The number of calls of `obj->destroy`. -/
  destroyed : ℕ
  /-- The references of each thread. -/
  held : T → ℕ
  pc : T → Pc

/-- A step of a thread. -/
inductive ObjAct (T : Type)
  | addref
  | release
  | pass (u : T)
  | use
  /-- The next step of the function it is in. -/
  | go

variable {T : Type} [DecidableEq T]

/-- `typedobj_new`, by the thread `t`. -/
def typedobjNew (t : T) : ObjSys T where
  refcnt := 1
  buf := true
  objLive := true
  bufLive := true
  destroyed := 0
  held := Function.update (fun _ => 0) t 1
  pc := fun _ => .idle

/-- A field of the object is accessed. -/
def touchObj (s : ObjSys T) : Except Fault Unit :=
  if s.objLive then .ok () else .error (.useAfterFree 0)

/-- The buffer is read, through `obj->buf`. -/
def touchBuf (s : ObjSys T) : Except Fault Unit := do
  touchObj s
  if s.buf && !s.bufLive then .error (.useAfterFree 1) else .ok ()

/-- The next step of the function the thread is in. -/
def objGo (s : ObjSys T) (t : T) : Pc → Except Fault (ObjSys T)
  | .idle => .ok s
  | .released r =>
    -- `if (vlstp_atomic_dec(&obj->refcnt) <= 0)`, of an unsigned number
    if r ≤ 0 then do
      touchObj s
      return { s with destroyed := s.destroyed + 1, pc := Function.update s.pc t .log }
    else return { s with pc := Function.update s.pc t .idle }
  | .log => do
    touchBuf s
    return { s with pc := Function.update s.pc t .freeBuf }
  | .freeBuf => do
    touchObj s
    let s ← if s.buf then
      if s.bufLive then pure { s with bufLive := false } else .error (.doubleFree 1)
    else pure s
    return { s with pc := Function.update s.pc t .clearBuf }
  | .clearBuf => do
    touchObj s
    return { s with buf := false, pc := Function.update s.pc t .freeObj }
  | .freeObj =>
    if s.objLive then .ok { s with objLive := false, pc := Function.update s.pc t .idle }
    else .error (.doubleFree 0)

/-- A step of the thread `t`. -/
def objStep (s : ObjSys T) : T × ObjAct T → Except Fault (Unit × ObjSys T)
  | (t, .addref) => do
    -- `objbase_addref`
    touchObj s
    return ((), { s with
      refcnt := vlstpAtomicInc s.refcnt
      held := Function.update s.held t (s.held t + 1) })
  | (t, .release) => do
    -- `objbase_release`, up to the decrement
    touchObj s
    let r := vlstpAtomicDec s.refcnt
    return ((), { s with
      refcnt := r
      held := Function.update s.held t (s.held t - 1)
      pc := Function.update s.pc t (.released r) })
  | (t, .pass u) =>
    let held := Function.update s.held t (s.held t - 1)
    .ok ((), { s with held := Function.update held u (held u + 1) })
  | (_, .use) => do
    touchBuf s
    return ((), s)
  | (t, .go) => do
    let s ← objGo s t (s.pc t)
    return ((), s)

/-- What a thread may do: only one that holds a reference uses the object, and there are fewer than
`2 ^ 64`. -/
def ObjAllowed [Fintype T] (s : ObjSys T) : T × ObjAct T → Prop
  | (t, .addref) => s.pc t = .idle ∧ 0 < s.held t ∧ ∑ u, s.held u + 1 < 2 ^ 64
  | (t, .release) => s.pc t = .idle ∧ 0 < s.held t
  | (t, .pass _) => s.pc t = .idle ∧ 0 < s.held t
  | (t, .use) => s.pc t = .idle ∧ 0 < s.held t
  | (t, .go) => s.pc t ≠ .idle

/-! ### The invariant -/

/-- A thread that will not look at the object unless it holds a reference. -/
def Quiet (p : Pc) : Prop := p = .idle ∨ ∃ r, r ≠ 0 ∧ p = .released r

/-- How far the thread that destroys the object is: whether `obj->buf` is set, whether the buffer is
allocated, and whether `destroy` was called. -/
def stage : Pc → Option (Bool × Bool × ℕ)
  | .idle => none
  | .released r => if r = 0 then some (true, true, 0) else none
  | .log => some (true, true, 1)
  | .freeBuf => some (true, true, 1)
  | .clearBuf => some (true, false, 1)
  | .freeObj => some (false, false, 1)

section

variable [Fintype T]

/-- References are held, and no thread is about to destroy the object. -/
structure Alive (s : ObjSys T) : Prop where
  count : s.refcnt.toNat = ∑ t, s.held t
  held : 0 < ∑ t, s.held t
  obj : s.objLive = true
  buf : s.buf = true
  bufLive : s.bufLive = true
  destroyed : s.destroyed = 0
  quiet : ∀ t, Quiet (s.pc t)

/-- No references are held, and the thread `t` is destroying the object. -/
structure Dying (s : ObjSys T) (t : T) : Prop where
  held : ∑ t, s.held t = 0
  obj : s.objLive = true
  progress : stage (s.pc t) = some (s.buf, s.bufLive, s.destroyed)
  quiet : ∀ u, u ≠ t → Quiet (s.pc u)

/-- The object has been destroyed. -/
structure Gone (s : ObjSys T) : Prop where
  held : ∑ t, s.held t = 0
  obj : s.objLive = false
  bufLive : s.bufLive = false
  destroyed : s.destroyed = 1
  quiet : ∀ t, Quiet (s.pc t)

/-- **The phases of the object.** -/
def Phase (s : ObjSys T) : Prop := Alive s ∨ (∃ t, Dying s t) ∨ Gone s

variable {s s' : ObjSys T} {t : T} {a : ObjAct T}

omit [Fintype T] in
/-- A thread that moves on is quiet if it is where a quiet one can be. -/
theorem quiet_update {p : Pc} (hp : Quiet p) {u : T} (hu : u ≠ t → Quiet (s.pc u)) :
    Quiet (Function.update s.pc t p u) := by
  by_cases hut : u = t
  · rw [hut, Function.update_self]
    exact hp
  · rw [Function.update_of_ne hut]
    exact hu hut

omit [Fintype T] in
/-- Another thread is where it was. -/
theorem quiet_of_ne {p : Pc} {u : T} (hu : u ≠ t) (hq : Quiet (s.pc u)) :
    Quiet (Function.update s.pc t p u) := by
  rwa [Function.update_of_ne hu]

omit [DecidableEq T] in
/-- Whoever holds a reference keeps the object alive. -/
theorem Phase.alive_of_held (hs : Phase s) (ht : 0 < s.held t) : Alive s := by
  have hpos : 0 < ∑ u, s.held u :=
    lt_of_lt_of_le ht (Finset.single_le_sum (fun _ _ => Nat.zero_le _) (Finset.mem_univ t))
  rcases hs with hs | ⟨u, hs⟩ | hs
  · exact hs
  · have hnone := hs.held
    omega
  · have hnone := hs.held
    omega

theorem alive_typedobjNew (t : T) : Alive (typedobjNew t) := by
  have hsum : ∑ u, (typedobjNew t).held u = 1 := by
    have hadd := sum_update_add (fun _ : T => 0) t 1
    rwa [Finset.sum_const_zero, Nat.add_zero, Nat.zero_add] at hadd
  refine ⟨?_, ?_, rfl, rfl, rfl, rfl, fun u => Or.inl rfl⟩
  · rw [hsum]
    rfl
  · rw [hsum]
    omega

omit [DecidableEq T] [Fintype T] in
theorem touchObj_of_live (hobj : s.objLive = true) : touchObj s = .ok () := if_pos hobj

omit [DecidableEq T] [Fintype T] in
theorem touchBuf_of_live (hobj : s.objLive = true) (hbufLive : s.bufLive = true) :
    touchBuf s = .ok () := by
  rw [touchBuf, touchObj_of_live hobj, hbufLive]
  simp

theorem stage_of_quiet {p : Pc} (hp : Quiet p) : stage p = none := by
  rcases hp with rfl | ⟨r, hr, rfl⟩
  · rfl
  · exact if_neg hr

theorem destroyed_le_of_stage {p : Pc} {buf bufLive : Bool} {destroyed : ℕ}
    (hp : stage p = some (buf, bufLive, destroyed)) : destroyed ≤ 1 := by
  cases p with
  | released r =>
    rw [stage] at hp
    split at hp
    · simp only [Option.some.injEq, Prod.mk.injEq] at hp
      omega
    · cases hp
  | idle => cases hp
  | _ =>
    simp only [stage, Option.some.injEq, Prod.mk.injEq] at hp
    omega

/-- A quiet thread moves on. -/
theorem Phase.quiet_go (hs : Phase s) (ht : Quiet (s.pc t)) {p : Pc} (hp : Quiet p) :
    Phase { s with pc := Function.update s.pc t p } := by
  rcases hs with hs | ⟨u, hs⟩ | hs
  · exact Or.inl { hs with quiet := fun w => quiet_update hp fun _ => hs.quiet w }
  · -- the one that destroys the object is another thread
    have hut : u ≠ t := by
      rintro rfl
      have hstage := hs.progress
      rw [stage_of_quiet ht] at hstage
      cases hstage
    refine Or.inr (Or.inl
      ⟨u, hs.held, hs.obj, ?_, fun w hw => quiet_update hp fun _ => hs.quiet w hw⟩)
    have hpc : Function.update s.pc t p u = s.pc u := Function.update_of_ne hut ..
    exact (congrArg stage hpc).trans hs.progress
  · exact Or.inr (Or.inr { hs with quiet := fun w => quiet_update hp fun _ => hs.quiet w })

/-- The thread that destroys the object moves on in the destruction. -/
theorem Dying.next (hs : Dying s t) {p : Pc} (hheld : s'.held = s.held) (hobj : s'.objLive = true)
    (hpc : s'.pc = Function.update s.pc t p)
    (hp : stage p = some (s'.buf, s'.bufLive, s'.destroyed)) : Phase s' := by
  refine Or.inr (Or.inl ⟨t, ?_, hobj, ?_, fun u hu => ?_⟩)
  · rw [hheld]
    exact hs.held
  · rwa [hpc, Function.update_self]
  · rw [hpc, Function.update_of_ne hu]
    exact hs.quiet u hu

omit [DecidableEq T] in
/-- Where the thread is says what is left of the object. -/
theorem Dying.left (hs : Dying s t) {buf bufLive : Bool} {destroyed : ℕ}
    (hstage : stage (s.pc t) = some (buf, bufLive, destroyed)) :
    s.buf = buf ∧ s.bufLive = bufLive ∧ s.destroyed = destroyed := by
  rw [hs.progress] at hstage
  simpa using hstage

theorem Dying.go (hs : Dying s t) : ∃ s', objGo s t (s.pc t) = .ok s' ∧ Phase s' := by
  have htouch := touchObj_of_live hs.obj
  cases hpc : s.pc t with
  | idle =>
    have hstage := hs.progress
    rw [hpc] at hstage
    cases hstage
  | released r =>
    by_cases hr : r = 0
    · obtain ⟨hbuf, hbufLive, hdestroyed⟩ := hs.left (by rw [hpc, stage, if_pos hr])
      refine ⟨{ s with destroyed := s.destroyed + 1, pc := Function.update s.pc t .log }, ?_, ?_⟩
      · rw [objGo, if_pos (hr ▸ BitVec.le_refl r), htouch]
        rfl
      · exact hs.next rfl hs.obj rfl (by simp [stage, hbuf, hbufLive, hdestroyed])
    · have hstage := hs.progress
      rw [hpc, stage, if_neg hr] at hstage
      cases hstage
  | log =>
    obtain ⟨hbuf, hbufLive, hdestroyed⟩ := hs.left (by rw [hpc, stage])
    refine ⟨{ s with pc := Function.update s.pc t .freeBuf }, ?_, ?_⟩
    · rw [objGo, touchBuf_of_live hs.obj hbufLive]
      rfl
    · exact hs.next rfl hs.obj rfl (by simp [stage, hbuf, hbufLive, hdestroyed])
  | freeBuf =>
    obtain ⟨hbuf, hbufLive, hdestroyed⟩ := hs.left (by rw [hpc, stage])
    refine ⟨{ s with bufLive := false, pc := Function.update s.pc t .clearBuf }, ?_, ?_⟩
    · rw [objGo, htouch, Except.ok_bind, if_pos hbuf, if_pos hbufLive]
      rfl
    · exact hs.next rfl hs.obj rfl (by simp [stage, hbuf, hdestroyed])
  | clearBuf =>
    obtain ⟨-, hbufLive, hdestroyed⟩ := hs.left (by rw [hpc, stage])
    refine ⟨{ s with buf := false, pc := Function.update s.pc t .freeObj }, ?_, ?_⟩
    · rw [objGo, htouch]
      rfl
    · exact hs.next rfl hs.obj rfl (by simp [stage, hbufLive, hdestroyed])
  | freeObj =>
    obtain ⟨-, hbufLive, hdestroyed⟩ := hs.left (by rw [hpc, stage])
    refine ⟨{ s with objLive := false, pc := Function.update s.pc t .idle }, ?_, ?_⟩
    · rw [objGo, if_pos hs.obj]
    · refine Or.inr (Or.inr ⟨hs.held, rfl, hbufLive, hdestroyed, fun u => ?_⟩)
      exact quiet_update (Or.inl rfl) fun hu => hs.quiet u hu

/-- What a thread in the middle of a function does next. -/
theorem Phase.go (hs : Phase s) (ht : s.pc t ≠ .idle) :
    ∃ s', objGo s t (s.pc t) = .ok s' ∧ Phase s' := by
  by_cases hquiet : Quiet (s.pc t)
  · -- what the decrement returned was not zero, so the function returns
    obtain ⟨r, hr, hpc⟩ := hquiet.resolve_left ht
    refine ⟨{ s with pc := Function.update s.pc t .idle }, ?_, hs.quiet_go hquiet (Or.inl rfl)⟩
    have hpos : ¬ r ≤ 0 := by
      intro hle
      exact hr (BitVec.le_zero_iff.mp hle)
    rw [hpc, objGo, if_neg hpos]
    rfl
  · rcases hs with hs | ⟨u, hs⟩ | hs
    · exact absurd (hs.quiet t) hquiet
    · by_cases htu : t = u
      · exact htu ▸ hs.go
      · exact absurd (hs.quiet t htu) hquiet
    · exact absurd (hs.quiet t) hquiet

/-- **One step.** An allowed step does not fault, and keeps the invariant. -/
theorem Phase.step (hs : Phase s) (ha : ObjAllowed s (t, a)) :
    ∃ s', objStep s (t, a) = .ok ((), s') ∧ Phase s' := by
  cases a with
  | addref =>
    obtain ⟨-, ht, hroom⟩ := ha
    have hal := hs.alive_of_held ht
    have hsum := sum_update_succ s.held t
    refine ⟨_, by simp only [objStep, touchObj_of_live hal.obj, Except.ok_bind]; rfl, Or.inl ?_⟩
    refine ⟨?_, by rw [hsum]; omega, hal.obj, hal.buf, hal.bufLive, hal.destroyed, hal.quiet⟩
    rw [hsum, vlstpAtomicInc, BitVec.toNat_add, hal.count]
    exact Nat.mod_eq_of_lt hroom
  | release =>
    obtain ⟨-, ht⟩ := ha
    have hal := hs.alive_of_held ht
    have hsum := sum_update_pred s.held t ht
    have hcount := hal.count
    have hlt := s.refcnt.isLt
    have hdec : (vlstpAtomicDec s.refcnt).toNat = s.refcnt.toNat - 1 := by
      rw [vlstpAtomicDec, BitVec.toNat_sub_of_le]
      · rfl
      · rw [BitVec.le_def]
        change 1 ≤ s.refcnt.toNat
        omega
    refine ⟨_, by simp only [objStep, touchObj_of_live hal.obj, Except.ok_bind]; rfl, ?_⟩
    have hleft : (vlstpAtomicDec s.refcnt).toNat =
        ∑ u, Function.update s.held t (s.held t - 1) u := by
      rw [hdec]
      omega
    by_cases hlast : vlstpAtomicDec s.refcnt = 0
    · -- the last reference: this thread will destroy the object
      have hnone : ∑ u, Function.update s.held t (s.held t - 1) u = 0 := by
        rw [← hleft, hlast]
        rfl
      have hstage : stage (Function.update s.pc t (.released (vlstpAtomicDec s.refcnt)) t) =
          some (s.buf, s.bufLive, s.destroyed) := by
        rw [Function.update_self, stage, if_pos hlast, hal.buf, hal.bufLive, hal.destroyed]
      exact Or.inr (Or.inl ⟨t, hnone, hal.obj, hstage, fun u hu =>
        quiet_of_ne hu (hal.quiet u)⟩)
    · have hsome : 0 < ∑ u, Function.update s.held t (s.held t - 1) u := by
        rw [← hleft, Nat.pos_iff_ne_zero]
        intro heq
        exact hlast (BitVec.eq_of_toNat_eq heq)
      refine Or.inl ⟨hleft, hsome, hal.obj, hal.buf, hal.bufLive, hal.destroyed, fun u => ?_⟩
      exact quiet_update (Or.inr ⟨_, hlast, rfl⟩) fun _ => hal.quiet u
  | pass u =>
    obtain ⟨-, ht⟩ := ha
    have hal := hs.alive_of_held ht
    -- the number of references is the same
    have hsum : ∑ w, Function.update (Function.update s.held t (s.held t - 1)) u
        (Function.update s.held t (s.held t - 1) u + 1) w = ∑ w, s.held w := by
      rw [sum_update_succ, sum_update_pred s.held t ht]
    refine ⟨_, rfl, Or.inl ⟨?_, ?_, hal.obj, hal.buf, hal.bufLive, hal.destroyed, hal.quiet⟩⟩
    · rw [hsum]
      exact hal.count
    · rw [hsum]
      exact hal.held
  | use =>
    obtain ⟨-, ht⟩ := ha
    have hal := hs.alive_of_held ht
    refine ⟨s, ?_, hs⟩
    simp only [objStep, touchBuf_of_live hal.obj hal.bufLive, Except.ok_bind]
    rfl
  | go =>
    obtain ⟨s', hgo, hs'⟩ := hs.go ha
    refine ⟨s', ?_, hs'⟩
    simp only [objStep, hgo, Except.ok_bind]
    rfl

/-- **Reference counting is safe.** Whatever the order in which the threads take their steps, no
allowed step faults; `destroy` is called once at most, and while references are held it has not been
and both blocks are allocated; and when none are held and all threads are done, it has been called
and both blocks have been freed. -/
theorem refcount_safe (t₀ : T) {ops : List (T × ObjAct T)}
    (hrun : Reaches ObjAllowed objStep (typedobjNew t₀) ops s) :
    (∀ op, ObjAllowed s op → ∃ s', objStep s op = .ok ((), s')) ∧ s.destroyed ≤ 1 ∧
      (0 < ∑ t, s.held t → s.destroyed = 0 ∧ s.objLive = true ∧ s.bufLive = true) ∧
      (∑ t, s.held t = 0 → (∀ t, s.pc t = .idle) →
        s.destroyed = 1 ∧ s.objLive = false ∧ s.bufLive = false) := by
  have hphase : Phase s := by
    refine hrun.invariant_state Phase (Or.inl (alive_typedobjNew t₀)) ?_
    rintro s ⟨t, a⟩ s' hs ⟨hallowed, r, hr⟩
    obtain ⟨s'', hstep, hs''⟩ := hs.step hallowed
    obtain ⟨-, rfl⟩ := Prod.mk.inj (Except.ok.inj (hstep.symm.trans hr))
    exact hs''
  refine ⟨fun ⟨t, a⟩ ha => ?_, ?_, ?_, ?_⟩
  · obtain ⟨s', hstep, -⟩ := hphase.step ha
    exact ⟨s', hstep⟩
  · rcases hphase with hs | ⟨t, hs⟩ | hs
    · exact hs.destroyed ▸ Nat.zero_le 1
    · exact destroyed_le_of_stage hs.progress
    · exact hs.destroyed.le
  · intro hheld
    rcases hphase with hs | ⟨t, hs⟩ | hs
    · exact ⟨hs.destroyed, hs.obj, hs.bufLive⟩
    · exact absurd hs.held (Nat.pos_iff_ne_zero.mp hheld)
    · exact absurd hs.held (Nat.pos_iff_ne_zero.mp hheld)
  · intro hheld hidle
    rcases hphase with hs | ⟨t, hs⟩ | hs
    · exact absurd hheld (Nat.pos_iff_ne_zero.mp hs.held)
    · have hstage := hs.progress
      rw [hidle t] at hstage
      cases hstage
    · exact ⟨hs.destroyed, hs.obj, hs.bufLive⟩

end

/-- A reference is handed over, and the thread that got it gives it up. -/
theorem refcount_safe_pass :
    ∃ s : ObjSys (Fin 2),
      Reaches ObjAllowed objStep (typedobjNew 0) [(0, .pass 1), (1, .use), (1, .release)] s ∧
        s.destroyed ≤ 1 ∧ ∃ s', objStep s (1, .go) = .ok ((), s') := by
  have h₁ : Reaches ObjAllowed objStep (typedobjNew (0 : Fin 2)) [(0, .pass 1)] _ :=
    Run.nil.snoc ⟨⟨rfl, by decide⟩, (), rfl⟩
  have h₂ := h₁.snoc (show Returns ObjAllowed objStep _ (1, .use) _ from
    ⟨⟨rfl, by decide⟩, (), rfl⟩)
  have h₃ := h₂.snoc (show Returns ObjAllowed objStep _ (1, .release) _ from
    ⟨⟨rfl, by decide⟩, (), rfl⟩)
  have hsafe := refcount_safe 0 h₃
  exact ⟨_, h₃, hsafe.2.1, hsafe.1 (1, .go) fun hidle => by cases hidle⟩

end Vlstp
