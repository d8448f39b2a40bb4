import Mathlib.Algebra.BigOperators.Fin
import Mathlib.Algebra.Order.BigOperators.Group.Finset
import Vlstp.Framework.Fallible
import Vlstp.Framework.Reach
import Vlstp.Framework.Tally

/-!
# A counter shared by threads (`thread.c`)

`main` starts threads that add to a shared counter, waits for all of them and prints it. The threads
run as soon as they are started, in any order, while `main` still starts others. An addition is one
step (`__sync_fetch_and_add`), and `pthread_join` returns when the thread it waits for has ended.

The numbers of threads and of turns are parameters, 20 and 20000 in the source.
-/

namespace Vlstp

/-- The counter, and where `main` and the threads are. -/
structure CounterSys (threads : ℕ) where
  /-- An `int`. -/
  count : BitVec 32
  /-- `i` in the loop of `main` that calls `pthread_create`. -/
  created : ℕ
  /-- `i` in the loop that calls `pthread_join`. -/
  joined : ℕ
  printed : Option (BitVec 32)
  /-- `i` in the loop of each thread. -/
  turn : Fin threads → ℕ

/-- A step of `main` or of a thread. -/
inductive CounterOp (threads : ℕ)
  | create
  | add (t : Fin threads)
  | join
  | print

/-- Before `main`. -/
def CounterSys.start (threads : ℕ) : CounterSys threads where
  count := 0
  created := 0
  joined := 0
  printed := none
  turn := fun _ => 0

variable {threads turns : ℕ}

/-- A step, when it can be taken. -/
inductive CounterMove (turns : ℕ) :
    CounterSys threads → CounterOp threads → CounterSys threads → Prop
  /-- `pthread_create`. -/
  | create {s : CounterSys threads} (hs : s.created < threads) :
      CounterMove turns s .create { s with created := s.created + 1 }
  /-- A turn of `test_func`: `__sync_fetch_and_add(&count, 1)`. -/
  | add {s : CounterSys threads} {t : Fin threads} (ht : t < s.created) (hturn : s.turn t < turns) :
      CounterMove turns s (.add t)
        { s with count := s.count + 1, turn := Function.update s.turn t (s.turn t + 1) }
  /-- `pthread_join`: the thread has left its loop. -/
  | join {s : CounterSys threads} (hs : s.created = threads) (hj : s.joined < threads)
      (hturn : s.turn ⟨s.joined, hj⟩ = turns) :
      CounterMove turns s .join { s with joined := s.joined + 1 }
  | print {s : CounterSys threads} (hs : s.created = threads) (hj : s.joined = threads)
      (hprinted : s.printed = none) : CounterMove turns s .print { s with printed := some s.count }

/-- **The invariant.** No addition is lost, and the threads joined have made all of theirs. -/
structure CounterInv (turns : ℕ) (s : CounterSys threads) : Prop where
  count : s.count = BitVec.ofNat 32 (∑ t, s.turn t)
  joined : ∀ t : Fin threads, t < s.joined → s.turn t = turns
  printed : ∀ v, s.printed = some v → v = BitVec.ofNat 32 (threads * turns)

theorem CounterInv.step {s s' : CounterSys threads} {op : CounterOp threads}
    (hs : CounterInv turns s) (hmove : CounterMove turns s op s') : CounterInv turns s' := by
  cases hmove with
  | create => exact ⟨hs.count, hs.joined, hs.printed⟩
  | @add t ht hturn =>
    refine ⟨?_, fun u hu => ?_, hs.printed⟩
    · change s.count + 1 = BitVec.ofNat 32 (∑ u, Function.update s.turn t (s.turn t + 1) u)
      rw [sum_update_succ, hs.count, BitVec.ofNat_add]
      rfl
    · -- a thread that has been joined is not in its loop
      have hne : u ≠ t := by
        rintro rfl
        have hdone := hs.joined u hu
        omega
      exact (Function.update_of_ne hne ..).trans (hs.joined u hu)
  | join _ hj hturn =>
    refine ⟨hs.count, fun u hu => ?_, hs.printed⟩
    rcases Nat.lt_succ_iff_lt_or_eq.mp hu with hu | hu
    · exact hs.joined u hu
    · obtain rfl : u = ⟨s.joined, hj⟩ := Fin.ext hu
      exact hturn
  | print _ hj _ =>
    refine ⟨hs.count, hs.joined, fun v hv => ?_⟩
    obtain rfl : s.count = v := Option.some.inj hv
    have hall : ∑ t, s.turn t = threads * turns := by
      calc ∑ t, s.turn t = ∑ _t : Fin threads, turns :=
            Finset.sum_congr rfl fun t _ => hs.joined t (lt_of_lt_of_eq t.isLt hj.symm)
        _ = threads * turns := by simp
    rw [hs.count, hall]

/-- **What is printed.** In every interleaving, what `main` prints is the number of all additions,
as an `int`; and at any time the counter has all additions made so far. -/
theorem counter_printed {ops : List (CounterOp threads)} {s : CounterSys threads}
    (hrun : Run (CounterMove turns) (.start threads) ops s) :
    s.count = BitVec.ofNat 32 (∑ t, s.turn t) ∧
      ∀ v, s.printed = some v → v = BitVec.ofNat 32 (threads * turns) := by
  have hinv : CounterInv turns s := by
    refine hrun.invariant_state _ ⟨?_, fun t ht => absurd ht (Nat.not_lt_zero _), fun v hv => ?_⟩
      fun s op s' hs hmove => hs.step hmove
    · simp [CounterSys.start]
    · cases hv
  exact ⟨hinv.count, hinv.printed⟩

/-- One thread, and one turn. -/
theorem counter_printed_one :
    ∃ s : CounterSys 1, Run (CounterMove 1) (.start 1) [.create, .add 0, .join, .print] s ∧
      s.printed = some 1 := by
  have h₁ : Run (CounterMove 1) (.start 1) [.create] _ := Run.nil.snoc (.create (by decide))
  have h₂ := h₁.snoc (.add (t := 0) (by decide) (by decide))
  have h₃ := h₂.snoc (.join rfl (by decide) rfl)
  have h₄ := h₃.snoc (.print rfl rfl rfl)
  refine ⟨_, h₄, congrArg some ((counter_printed h₄).2 _ rfl)⟩

end Vlstp
