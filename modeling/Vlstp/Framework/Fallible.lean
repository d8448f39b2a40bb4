import Mathlib.Data.List.Basic

/-!
# Pre- and postconditions of fallible computations

A computation that may end in a fault is a value `x : Except ε α`. The rules here are the ones every
proof about such computations goes through:

* `Except.bind_eq_ok` and `Except.ok_bind` take a sequence of computations apart;
* `Except.Sat x Q E` — if `x` returns then `Q` holds of the result, and if it faults then `E` holds
  of the fault — with one rule for each way of building a computation;
* `foldlM_range` is the rule of a counting loop whose `k`-th turn is known exactly, and
  `Except.Sat.foldlM` the rule of a loop with an invariant.
-/

variable {α β ε : Type}

namespace Except

/-- A sequence returns exactly when both halves do. -/
theorem bind_eq_ok {x : Except ε α} {f : α → Except ε β} {b : β} :
    (x >>= f) = .ok b ↔ ∃ a, x = .ok a ∧ f a = .ok b := by
  cases x with
  | error e => simp [bind, Except.bind]
  | ok a => simp [bind, Except.bind]

@[simp] theorem ok_bind (a : α) (f : α → Except ε β) : (Except.ok a >>= f) = f a := rfl

@[simp] theorem error_bind (e : ε) (f : α → Except ε β) :
    ((Except.error e : Except ε α) >>= f) = .error e := rfl

@[simp] theorem pure_eq (a : α) : (pure a : Except ε α) = .ok a := rfl

/-! ### Results renamed -/

section Map

variable {γ : Type}

theorem map_of_ok (g : α → β) (a : α) : (Except.ok a : Except ε α).map g = .ok (g a) := rfl

theorem map_bind (g : β → γ) (x : Except ε α) (f : α → Except ε β) :
    (x >>= f).map g = x >>= fun a => (f a).map g := by
  cases x with
  | error e => rfl
  | ok a => rfl

theorem bind_map (g : α → β) (x : Except ε α) (f : β → Except ε γ) :
    x.map g >>= f = x >>= fun a => f (g a) := by
  cases x with
  | error e => rfl
  | ok a => rfl

theorem map_ite (g : α → β) (c : Prop) [Decidable c] (x y : Except ε α) :
    (if c then x else y).map g = if c then x.map g else y.map g := by
  by_cases hc : c
  · rw [if_pos hc, if_pos hc]
  · rw [if_neg hc, if_neg hc]

end Map

/-! ### Partial correctness with a condition on the fault -/

/-- If `x` returns then `Q` holds of what it returns; if `x` faults then `E` holds of the fault. -/
def Sat (x : Except ε α) (Q : α → Prop) (E : ε → Prop) : Prop :=
  match x with
  | .ok a => Q a
  | .error e => E e

namespace Sat

variable {Q Q' : α → Prop} {R : β → Prop} {E : ε → Prop}

@[simp] theorem error_iff {e : ε} : Sat (.error e : Except ε α) Q E ↔ E e := Iff.rfl

/-- The rule of consequence. -/
theorem imp {x : Except ε α} (h : Sat x Q E) (hQ : ∀ a, Q a → Q' a) : Sat x Q' E := by
  cases x with
  | error e => exact h
  | ok a => exact hQ a h

/-- The rule of sequencing. -/
theorem bind {x : Except ε α} {f : α → Except ε β} (hx : Sat x Q E)
    (hf : ∀ a, Q a → Sat (f a) R E) : Sat (x >>= f) R E := by
  cases x with
  | error e => exact hx
  | ok a => exact hf a hx

/-- The rule of a conditional. -/
theorem ite {c : Prop} [Decidable c] {x y : Except ε α} (ht : c → Sat x Q E)
    (he : ¬ c → Sat y Q E) : Sat (if c then x else y) Q E := by
  by_cases hc : c
  · rw [if_pos hc]; exact ht hc
  · rw [if_neg hc]; exact he hc

/-- The rule of a loop over a list: an invariant of one turn is an invariant of the loop. -/
theorem foldlM {γ : Type} {f : α → γ → Except ε α} (l : List γ) {a : α} (ha : Q a)
    (hf : ∀ a c, c ∈ l → Q a → Sat (f a c) Q E) : Sat (l.foldlM f a) Q E := by
  induction l generalizing a with
  | nil => exact ha
  | cons c l ih =>
    rw [List.foldlM_cons]
    refine (hf a c (List.mem_cons_self ..) ha).bind fun a' ha' => ?_
    exact ih ha' fun a c hc => hf a c (List.mem_cons_of_mem _ hc)

end Sat

end Except

/-- **The rule of a counting loop.** If turn `k` takes the state `I k` to `I (k + 1)`, then `n`
turns take `I 0` to `I n`. -/
theorem foldlM_range {f : α → ℕ → Except ε α} (I : ℕ → α) (n : ℕ)
    (hf : ∀ k, k < n → f (I k) k = .ok (I (k + 1))) :
    (List.range n).foldlM f (I 0) = .ok (I n) := by
  induction n with
  | zero => rfl
  | succ n ih =>
    rw [List.range_succ, List.foldlM_append, ih fun k hk => hf k (by omega), Except.ok_bind,
      List.foldlM_cons, hf n (by omega), Except.ok_bind, List.foldlM_nil, Except.pure_eq]

/-- **The rule of a loop that counts down.** If turn `k` takes the state `I (k + 1)` to `I k`, then
`n` turns take `I n` to `I 0`. -/
theorem foldlM_range_reverse {f : α → ℕ → Except ε α} (I : ℕ → α) (n : ℕ)
    (hf : ∀ k, k < n → f (I (k + 1)) k = .ok (I k)) :
    (List.range n).reverse.foldlM f (I n) = .ok (I 0) := by
  induction n with
  | zero => rfl
  | succ n ih =>
    rw [List.range_succ, List.reverse_append, List.reverse_singleton, List.singleton_append,
      List.foldlM_cons, hf n (by omega), Except.ok_bind]
    exact ih fun k hk => hf k (by omega)
