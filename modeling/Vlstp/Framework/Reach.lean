import Mathlib.Data.List.Infix

/-!
# Runs of a fallible transition function

A program is read as a function `step : σ → ω → Except ε (ρ × σ)`: in state `s` the call `op` either
returns a result and a new state, or ends the program with a fault. This file has what every run
argument over such a function needs, and nothing about any particular program:

* `Run move s₀ ops s` — the moves `ops` lead from `s₀` to `s`, with `Run.invariant` (what one move
  preserves, a whole run preserves) and `Run.simulate` (a forward simulation of one move is a
  forward simulation of a run);
* `Returns guard step` — the move "the call is allowed by `guard` and it returns";
* `EveryStep step P s₀ ops` — `P` holds of every call the run `ops` makes, up to the first fault;
* `EveryStep.congr_of_invariant` — two properties of calls that agree wherever an invariant holds
  hold of the same runs;
* `Since` — what a history has had since something last happened in it;
* `exec` — the results of a whole run and its last state; `Run.returns_trace` is the rule that what
  an abstract program may do the concrete one does, result by result.
-/

variable {σ σ' ω ρ ε : Type}

/-! ### Relational runs -/

/-- The moves `ops`, in this order, lead from `s₀` to `s`. -/
inductive Run (move : σ → ω → σ → Prop) (s₀ : σ) : List ω → σ → Prop
  | nil : Run move s₀ [] s₀
  | snoc {ops : List ω} {s s' : σ} {op : ω} (h : Run move s₀ ops s) (hm : move s op s') :
      Run move s₀ (ops ++ [op]) s'

namespace Run

variable {move : σ → ω → σ → Prop} {s₀ s : σ} {ops : List ω}

/-- **The invariant rule.** A property of a history and a state that holds at the start and that
every move preserves holds of every run. -/
theorem invariant (I : List ω → σ → Prop) (h₀ : I [] s₀)
    (hstep : ∀ ops s op s', I ops s → move s op s' → I (ops ++ [op]) s')
    (h : Run move s₀ ops s) : I ops s := by
  induction h with
  | nil => exact h₀
  | snoc _ hm ih => exact hstep _ _ _ _ ih hm

/-- The invariant rule for a property that speaks about the run itself. -/
theorem invariant_run (I : List ω → σ → Prop) (h₀ : I [] s₀)
    (hstep : ∀ ops s op s', Run move s₀ ops s → I ops s → move s op s' → I (ops ++ [op]) s')
    (h : Run move s₀ ops s) : I ops s := by
  induction h with
  | nil => exact h₀
  | snoc hrun hm ih => exact hstep _ _ _ _ hrun ih hm

/-- The invariant rule for a property of the state alone. -/
theorem invariant_state (I : σ → Prop) (h₀ : I s₀)
    (hstep : ∀ s op s', I s → move s op s' → I s') (h : Run move s₀ ops s) : I s :=
  h.invariant (fun _ s => I s) h₀ fun _ s op s' hI hm => hstep s op s' hI hm

/-- **The simulation rule.** If every move from a related state is matched by an abstract move on
the same call, then every run is matched by an abstract run. -/
theorem simulate {amove : σ' → ω → σ' → Prop} {R : σ → σ' → Prop} {a₀ : σ'} (h₀ : R s₀ a₀)
    (hstep : ∀ s a op s', R s a → move s op s' → ∃ a', amove a op a' ∧ R s' a')
    (h : Run move s₀ ops s) : ∃ a, Run amove a₀ ops a ∧ R s a := by
  induction h with
  | nil => exact ⟨a₀, .nil, h₀⟩
  | snoc _ hm ih =>
    obtain ⟨a, ha, hR⟩ := ih
    obtain ⟨a', ha', hR'⟩ := hstep _ _ _ _ hR hm
    exact ⟨a', ha.snoc ha', hR'⟩

/-- A run of one kind of move is a run of any other kind that allows as much wherever the invariant
`I` holds. -/
theorem mono_of_invariant {move' : σ → ω → σ → Prop} (I : σ → Prop) (h₀ : I s₀)
    (hstep : ∀ s op s', I s → move s op s' → I s')
    (hmove : ∀ s op s', I s → move s op s' → move' s op s') (h : Run move s₀ ops s) :
    Run move' s₀ ops s := by
  induction h with
  | nil => exact .nil
  | snoc hrun hm ih => exact ih.snoc (hmove _ _ _ (hrun.invariant_state I h₀ hstep) hm)

/-- A run of one kind of move is a run of any other kind that allows as much. -/
theorem mono {move' : σ → ω → σ → Prop} (hmove : ∀ s op s', move s op s' → move' s op s')
    (h : Run move s₀ ops s) : Run move' s₀ ops s :=
  h.mono_of_invariant (fun _ => True) trivial (fun _ _ _ _ _ => trivial)
    fun s op s' _ => hmove s op s'

/-- A run of no moves stays where it is. -/
theorem eq_of_nil (h : Run move s₀ [] s) : s = s₀ := by
  generalize hops : ([] : List ω) = ops at h
  cases h with
  | nil => rfl
  | snoc _ _ => simp at hops

/-- One run after the other. -/
theorem append {ops' : List ω} {s' : σ} (h : Run move s₀ ops s) (h' : Run move s ops' s') :
    Run move s₀ (ops ++ ops') s' := by
  induction h' with
  | nil => rwa [List.append_nil]
  | snoc _ hm ih =>
    rw [← List.append_assoc]
    exact ih.snoc hm

/-- The last move of a run, split off. -/
theorem of_snoc {op : ω} (h : Run move s₀ (ops ++ [op]) s) :
    ∃ t, Run move s₀ ops t ∧ move t op s := by
  generalize hops : ops ++ [op] = l at h
  cases h with
  | nil => simp at hops
  | snoc h hm =>
    obtain ⟨rfl, hop⟩ := List.append_inj' hops rfl
    obtain rfl : op = _ := by simpa using hop
    exact ⟨_, h, hm⟩

/-- The first move of a run, split off. -/
theorem of_cons {op : ω} {ops : List ω} (h : Run move s₀ (op :: ops) s) :
    ∃ s₁, move s₀ op s₁ ∧ Run move s₁ ops s := by
  generalize hops : op :: ops = l at h
  -- runs grow at their end, so the first move is found by going back to the start
  induction h generalizing op ops with
  | nil => simp at hops
  | @snoc pre s s' op' hrun hm ih =>
    cases pre with
    | nil =>
      obtain ⟨rfl, rfl⟩ : op = op' ∧ ops = [] := by simpa using hops
      obtain rfl := hrun.eq_of_nil
      exact ⟨s', hm, .nil⟩
    | cons op₁ pre =>
      obtain ⟨rfl, rfl⟩ : op = op₁ ∧ ops = pre ++ [op'] := by simpa using hops
      obtain ⟨s₁, hm₁, hrun₁⟩ := ih rfl
      exact ⟨s₁, hm₁, hrun₁.snoc hm⟩

end Run

/-! ### Calls that return -/

/-- The move "`op` is allowed in `s` by `guard`, and the call returns with the state `s'`". -/
def Returns (guard : σ → ω → Prop) (step : σ → ω → Except ε (ρ × σ)) (s : σ) (op : ω) (s' : σ) :
    Prop :=
  guard s op ∧ ∃ r, step s op = .ok (r, s')

/-- The states the calls `ops` lead to from `s₀`, each call allowed by `guard` and returning. -/
abbrev Reaches (guard : σ → ω → Prop) (step : σ → ω → Except ε (ρ × σ)) (s₀ : σ) (ops : List ω)
    (s : σ) : Prop :=
  Run (Returns guard step) s₀ ops s

/-- A guarded run is a run. -/
theorem Reaches.forget {guard : σ → ω → Prop} {step : σ → ω → Except ε (ρ × σ)} {s₀ s : σ}
    {ops : List ω} (h : Reaches guard step s₀ ops s) : Reaches (fun _ _ => True) step s₀ ops s :=
  h.mono fun _ _ _ hm => ⟨trivial, hm.2⟩

/-- Calls are deterministic, so a run is. -/
theorem Reaches.unique {guard : σ → ω → Prop} {step : σ → ω → Except ε (ρ × σ)} {s₀ s t : σ}
    {ops : List ω} (h : Reaches guard step s₀ ops s) (h' : Reaches guard step s₀ ops t) :
    s = t := by
  induction h generalizing t with
  | nil => exact (Run.eq_of_nil h').symm
  | snoc _ hm ih =>
    -- up to the last call both runs lead to the same state
    obtain ⟨u, hu, hm'⟩ := Run.of_snoc h'
    obtain rfl := ih hu
    obtain ⟨-, r, hr⟩ := hm
    obtain ⟨-, r', hr'⟩ := hm'
    rw [hr] at hr'
    exact (Prod.mk.inj (Except.ok.inj hr')).2

/-! ### Properties of every call of a run -/

/-- `P` holds of every call the run `ops` makes from `s₀`: of each call whose predecessors all
returned. -/
def EveryStep (step : σ → ω → Except ε (ρ × σ)) (P : σ → ω → Prop) (s₀ : σ) (ops : List ω) : Prop :=
  ∀ pre op s, pre ++ [op] <+: ops → Reaches (fun _ _ => True) step s₀ pre s → P s op

namespace EveryStep

variable {step : σ → ω → Except ε (ρ × σ)} {P Q : σ → ω → Prop} {s₀ s : σ} {ops pre : List ω}

/-- The last call of a run is one more call. -/
theorem snoc_iff {op : ω} (hrun : Reaches (fun _ _ => True) step s₀ ops s) :
    EveryStep step P s₀ (ops ++ [op]) ↔ EveryStep step P s₀ ops ∧ P s op := by
  constructor
  · intro h
    refine ⟨fun pre op' s' hpre hs' => ?_, h ops op s (List.prefix_refl _) hrun⟩
    exact h pre op' s' (hpre.trans (List.prefix_append _ _)) hs'
  · rintro ⟨h, hlast⟩ pre op' s' hpre hs'
    rcases List.prefix_concat_iff.mp hpre with heq | hpre
    · -- the prefix is the whole run, which is deterministic
      obtain ⟨rfl, hop⟩ := List.append_inj' heq rfl
      obtain rfl : op' = op := by simpa using hop
      obtain rfl := Reaches.unique hrun hs'
      exact hlast
    · exact h pre op' s' hpre hs'

theorem nil : EveryStep step P s₀ [] := by
  intro pre op s hpre _
  have := hpre.length_le
  simp at this

/-- A run whose first call satisfies `P` and whose other calls do. -/
theorem cons {op : ω} (hop : P s₀ op)
    (hrest : ∀ r s, step s₀ op = .ok (r, s) → EveryStep step P s ops) :
    EveryStep step P s₀ (op :: ops) := by
  intro pre op' s hpre hrun
  -- a prefix is empty, and then `op'` is the first call, or it starts with that call
  cases pre with
  | nil =>
    obtain rfl := Run.eq_of_nil hrun
    obtain rfl : op' = op := by simpa using hpre
    exact hop
  | cons op₁ pre =>
    obtain ⟨rfl, hrest'⟩ : op₁ = op ∧ pre ++ [op'] <+: ops := by
      simpa [List.cons_prefix_cons] using hpre
    obtain ⟨s₁, ⟨-, r, hr⟩, hrun⟩ := Run.of_cons hrun
    exact hrest r s₁ hr pre op' s hrest' hrun

theorem and_iff : EveryStep step (fun s op => P s op ∧ Q s op) s₀ ops ↔
    EveryStep step P s₀ ops ∧ EveryStep step Q s₀ ops :=
  ⟨fun h => ⟨fun pre op s hpre hs => (h pre op s hpre hs).1,
      fun pre op s hpre hs => (h pre op s hpre hs).2⟩,
    fun h pre op s hpre hs => ⟨h.1 pre op s hpre hs, h.2 pre op s hpre hs⟩⟩

/-- Along a run whose calls all satisfy `P`, an invariant preserved by calls that satisfy `P` holds
in every state passed through. -/
theorem invariant (I : σ → Prop) (h₀ : I s₀)
    (hstep : ∀ s op r s', I s → P s op → step s op = .ok (r, s') → I s')
    (h : EveryStep step P s₀ ops) (hpre : pre <+: ops)
    (hrun : Reaches (fun _ _ => True) step s₀ pre s) : I s := by
  induction hrun with
  | nil => exact h₀
  | snoc hrun hm ih =>
    obtain ⟨-, r, hr⟩ := hm
    have hle := (List.prefix_append _ _).trans hpre
    exact hstep _ _ _ _ (ih hle) (h _ _ _ hpre hrun) hr

/-- If `P` implies `Q` wherever the invariant holds, and calls that satisfy `P` keep the invariant,
then a run all of whose calls satisfy `P` is one all of whose calls satisfy `Q`. -/
theorem mono_of_invariant (I : σ → Prop) (h₀ : I s₀)
    (hstep : ∀ s op r s', I s → P s op → step s op = .ok (r, s') → I s')
    (hPQ : ∀ s op, I s → P s op → Q s op) (h : EveryStep step P s₀ ops) :
    EveryStep step Q s₀ ops := by
  intro pre op s hpre hrun
  have hle : pre <+: ops := (List.prefix_append _ _).trans hpre
  exact hPQ s op (h.invariant I h₀ hstep hle hrun) (h pre op s hpre hrun)

/-- **Two descriptions of the good calls agree on runs.** If `P` and `Q` are equivalent wherever
the invariant holds, and the invariant survives every call that satisfies them, then the runs all of
whose calls satisfy `P` are those all of whose calls satisfy `Q`. -/
theorem congr_of_invariant (I : σ → Prop) (h₀ : I s₀)
    (hstep : ∀ s op r s', I s → P s op → step s op = .ok (r, s') → I s')
    (hPQ : ∀ s op, I s → (P s op ↔ Q s op)) :
    EveryStep step P s₀ ops ↔ EveryStep step Q s₀ ops :=
  ⟨mono_of_invariant I h₀ hstep fun s op hI => (hPQ s op hI).mp,
    mono_of_invariant I h₀ (fun s op r s' hI hQ => hstep s op r s' hI ((hPQ s op hI).mpr hQ))
      fun s op hI => (hPQ s op hI).mpr⟩

end EveryStep

/-! ### Results of a run -/

/-- The results the calls `ops` return from `s`, in order, and the state they leave. -/
def exec (step : σ → ω → Except ε (ρ × σ)) (s : σ) : List ω → Except ε (List ρ × σ)
  | [] => .ok ([], s)
  | op :: ops => do
    let (r, s) ← step s op
    let (rs, s) ← exec step s ops
    return (r :: rs, s)

/-- **Lockstep.** Two programs that run in lockstep on every call, through a renaming `f` of calls
and `g` of states, run in lockstep on every list of calls: they return the same results, fault at
the same call with the same fault, and leave renamed states. -/
theorem exec_map {step : σ → ω → Except ε (ρ × σ)} (f : ω → ω) (g : σ → σ)
    (hstep : ∀ s op, step (g s) (f op) = (step s op).map fun p => (p.1, g p.2))
    (s : σ) (ops : List ω) :
    exec step (g s) (ops.map f) = (exec step s ops).map fun p => (p.1, g p.2) := by
  induction ops generalizing s with
  | nil => rfl
  | cons op ops ih =>
    simp only [List.map_cons, exec, hstep]
    cases step s op with
    | error e => rfl
    | ok p =>
      simp only [Except.map, bind, Except.bind, ih]
      cases exec step p.2 ops with
      | error e => rfl
      | ok q => rfl

/-- One more call. -/
theorem exec_snoc {step : σ → ω → Except ε (ρ × σ)} {s s' s'' : σ} {ops : List ω} {op : ω}
    {rs : List ρ} {r : ρ} (h : exec step s ops = .ok (rs, s')) (hop : step s' op = .ok (r, s'')) :
    exec step s (ops ++ [op]) = .ok (rs ++ [r], s'') := by
  induction ops generalizing s rs with
  | nil =>
    obtain ⟨rfl, rfl⟩ := Prod.mk.inj (Except.ok.inj h)
    simp only [List.nil_append, exec, hop]
    rfl
  | cons op' ops ih =>
    simp only [exec, List.cons_append] at h ⊢
    cases hs : step s op' with
    | error e =>
      rw [hs] at h
      cases h
    | ok p =>
      rw [hs] at h
      cases hrest : exec step p.2 ops with
      | error e =>
        simp only [bind, Except.bind, hrest] at h
        cases h
      | ok q =>
        simp only [bind, Except.bind, hrest] at h
        obtain ⟨rfl, rfl⟩ := Prod.mk.inj (Except.ok.inj h)
        simp only [bind, Except.bind, ih hrest]
        rfl

/-- **The rule of refinement by results.** If from related states every abstract move is a call that
returns the result the move says, and ends in related states, then the calls of an abstract run
return just the results of the run. -/
theorem Run.returns_trace {step : σ → ω → Except ε (ρ × σ)} {amove : σ' → ω × ρ → σ' → Prop}
    {R : σ → σ' → Prop} {s₀ : σ} {a₀ a : σ'} {trace : List (ω × ρ)} (h₀ : R s₀ a₀)
    (hstep : ∀ s a op r a', R s a → amove a (op, r) a' → ∃ s', step s op = .ok (r, s') ∧ R s' a')
    (h : Run amove a₀ trace a) :
    ∃ s, exec step s₀ (trace.map Prod.fst) = .ok (trace.map Prod.snd, s) ∧ R s a := by
  induction h with
  | nil => exact ⟨s₀, rfl, h₀⟩
  | @snoc ops t t' op _ hm ih =>
    obtain ⟨s, hs, hR⟩ := ih
    obtain ⟨s', hs', hR'⟩ := hstep _ _ _ _ _ hR hm
    rw [List.map_append, List.map_append]
    exact ⟨s', exec_snoc hs hs', hR'⟩

/-- **The rule of refinement by programs.** If from related states every call of a program returns,
and there is an abstract move with the result it returns that ends in related states, then the whole
program returns, and its results are those of an abstract run. -/
theorem exec_refines {step : σ → ω → Except ε (ρ × σ)} {amove : σ' → ω × ρ → σ' → Prop}
    {R : σ → σ' → Prop} {s₀ : σ} {a₀ : σ'} (ops : List ω) (h₀ : R s₀ a₀)
    (hstep : ∀ s a op, op ∈ ops → R s a →
      ∃ r s' a', step s op = .ok (r, s') ∧ amove a (op, r) a' ∧ R s' a') :
    ∃ trace s a, trace.map Prod.fst = ops ∧ exec step s₀ ops = .ok (trace.map Prod.snd, s) ∧
      Run amove a₀ trace a ∧ R s a := by
  -- on the calls, the last one first
  induction ops using List.reverseRecOn with
  | nil => exact ⟨[], s₀, a₀, rfl, rfl, .nil, h₀⟩
  | append_singleton ops op ih =>
    obtain ⟨trace, s, a, htrace, hs, hrun, hR⟩ :=
      ih fun s a op' hop' => hstep s a op' (List.mem_append_left _ hop')
    obtain ⟨r, s', a', hs', hmove, hR'⟩ :=
      hstep s a op (List.mem_append_right _ (List.mem_singleton_self op)) hR
    refine ⟨trace ++ [(op, r)], s', a', ?_, ?_, hrun.snoc hmove, hR'⟩
    · rw [List.map_append, htrace]
      rfl
    · rw [List.map_append]
      exact exec_snoc hs hs'

/-! ### Since -/

/-- Some element of the history is one of `starts`, and every later one is one of `keeps`. -/
def Since (starts keeps : ω → Prop) (ops : List ω) : Prop :=
  ∃ pre op post, ops = pre ++ op :: post ∧ starts op ∧ ∀ op' ∈ post, keeps op'

section Since

variable {starts keeps : ω → Prop} {ops : List ω} {op : ω}

theorem not_since_nil : ¬ Since starts keeps [] := by
  rintro ⟨pre, op, post, heq, -, -⟩
  exact absurd heq.symm (List.append_ne_nil_of_right_ne_nil pre (List.cons_ne_nil op post))

/-- One element more. -/
theorem since_snoc :
    Since starts keeps (ops ++ [op]) ↔ starts op ∨ (Since starts keeps ops ∧ keeps op) := by
  constructor
  · rintro ⟨pre, x, post, heq, hx, hpost⟩
    rcases List.eq_nil_or_concat' post with rfl | ⟨post, y, rfl⟩
    · -- it is the last one that starts
      obtain ⟨-, hlast⟩ := List.append_inj' heq rfl
      rw [List.cons.inj hlast |>.1]
      exact Or.inl hx
    · rw [← List.cons_append, ← List.append_assoc] at heq
      obtain ⟨hinit, hlast⟩ := List.append_inj' heq rfl
      rw [List.cons.inj hlast |>.1]
      refine Or.inr ⟨⟨pre, x, post, hinit, hx, fun z hz => ?_⟩, ?_⟩
      · exact hpost z (List.mem_append_left _ hz)
      · exact hpost y (List.mem_append_right _ (List.mem_singleton_self y))
  · rintro (hop | ⟨⟨pre, x, post, rfl, hx, hpost⟩, hop⟩)
    · exact ⟨ops, op, [], rfl, hop, fun _ h => absurd h List.not_mem_nil⟩
    · refine ⟨pre, x, post ++ [op], List.append_assoc .., hx, fun z hz => ?_⟩
      rcases List.mem_append.mp hz with hz | hz
      · exact hpost z hz
      · rw [List.mem_singleton.mp hz]
        exact hop

end Since
