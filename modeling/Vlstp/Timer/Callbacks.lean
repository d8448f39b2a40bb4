import Vlstp.Timer.Queue

/-!
# Timer functions that use the timers

The function of a timer runs in the middle of the loop of `dispatch_timer` and may itself call the
functions of `timer.h`. Here the loop is translated once more with what a timer function does as a
parameter: `call c` takes the memory before the call `c` to the memory after it. The loop of
`Vlstp.Timer.Defs` is this one with functions that do nothing (`dispatchTimerWith_quiet`).

The loop has read two pointers when it makes a call: that of the timer it fires and that of the
next one. After the call it takes the timer out, wherever it is by then, and goes on at the next
one, wherever that is. If no turn does more than take out the timer it fires (`TakesOut`), the loop
fires what is due, in order, and takes it out (`TakesOut.dispatch`). `dispatch_timer` with functions
that do nothing is one such loop (`Queue.dispatchTimer`).
-/

namespace Vlstp

/-- What the functions of the timers do. -/
abbrev TimerFunctions := Firing → TimerSys → Except Fault TimerSys

/-- Timer functions that leave the timers alone. -/
def quiet : TimerFunctions := fun _ s => .ok s

/-- One turn of the loop of `dispatch_timer`. -/
def dispatchTurnWith (call : TimerFunctions) (now : Time) (t : ℕ) (s : TimerSys) :
    Except Fault (List Firing × TimerSys) :=
  if timeAfterEq now (s.expires t) then do
    let c : Firing := ⟨t, s.function t, s.data t⟩
    let s ← call c s
    let links ← listDelInit (.timer t) s.links
    return ([c], { s with links := links })
  else .ok ([], s)

/-- The `list_for_each_entry_safe` loop of `dispatch_timer`. -/
def dispatchLoopWith (call : TimerFunctions) (now : Time) :
    ℕ → Option Node → Option Node → TimerSys → Except Fault (List Firing × TimerSys)
  | 0, _, _, _ => .error .diverge
  | fuel + 1, timer, timer1, s =>
    match timer with
    | none => .error .nullDeref
    | some .head => .ok ([], s)
    | some (.timer t) => do
      let (fired, s) ← dispatchTurnWith call now t s
      -- `timer1` was read before the turn, its successor is read after it
      let next ← readNext timer1 s.links
      let (rest, s) ← dispatchLoopWith call now fuel timer1 next s
      return (fired ++ rest, s)

/-- `dispatch_timer`, at the time `now`. -/
def dispatchTimerWith (call : TimerFunctions) (fuel : ℕ) (now : Time) (s : TimerSys) :
    Except Fault (List Firing × TimerSys) := do
  let timer := s.links.next .head
  let timer1 ← readNext timer s.links
  dispatchLoopWith call now fuel timer timer1 s

section

variable {call : TimerFunctions} {now : Time} {s s' : TimerSys} {l pre post : List ℕ} {t : ℕ}
  {fuel : ℕ}

/-- With functions that do nothing this is the loop without them. -/
theorem dispatchLoopWith_quiet (fuel : ℕ) (timer timer1 : Option Node) (s : TimerSys) :
    dispatchLoopWith quiet now fuel timer timer1 s = dispatchLoop now fuel timer timer1 s := by
  induction fuel generalizing timer timer1 s with
  | zero => rfl
  | succ fuel ih =>
    cases timer with
    | none => rfl
    | some node =>
      cases node with
      | head => rfl
      | timer t =>
        simp only [dispatchLoopWith, dispatchLoop, ih]
        rfl

theorem dispatchTimerWith_quiet (fuel : ℕ) (now : Time) (s : TimerSys) :
    dispatchTimerWith quiet fuel now s = dispatchTimer fuel now s := by
  rw [dispatchTimerWith, dispatchTimer]
  cases readNext (s.links.next .head) s.links with
  | error f => rfl
  | ok timer1 => exact dispatchLoopWith_quiet fuel _ _ s

/-! ### Turns on a queue -/

/-- A timer that is not due is passed over. -/
theorem dispatchTurnWith_undue (hdue : ¬ timeAfterEq now (s.expires t) = true) :
    dispatchTurnWith call now t s = .ok ([], s) :=
  if_neg hdue

/-- A timer that is due is called and then detached. -/
theorem dispatchTurnWith_of_detach {L : Links Node} (hdue : timeAfterEq now (s.expires t) = true)
    (hcall : call ⟨t, s.function t, s.data t⟩ s = .ok s')
    (hdetach : detachTimer t s' = .ok { s' with links := L }) :
    dispatchTurnWith call now t s =
      .ok ([⟨t, s.function t, s.data t⟩], { s' with links := L }) := by
  obtain ⟨L', hdel, heq⟩ := Except.bind_eq_ok.mp hdetach
  have hL : L' = L := congrArg TimerSys.links (Except.ok.inj heq)
  rw [dispatchTurnWith, if_pos hdue]
  simp only [hcall, hdel, hL, Except.ok_bind, Except.pure_eq]

/-- On the list, it is off it after its turn. -/
theorem dispatchTurnWith_due (hdue : timeAfterEq now (s.expires t) = true)
    (hcall : call ⟨t, s.function t, s.data t⟩ s = .ok s') (hq : Queue s' (pre ++ t :: post)) :
    ∃ L, dispatchTurnWith call now t s =
        .ok ([⟨t, s.function t, s.data t⟩], { s' with links := L }) ∧
      Queue { s' with links := L } (pre ++ post) ∧ L.Linked (.timer t) (.timer t) ∧
      Untouched s'.links L (pre ++ t :: post) := by
  obtain ⟨L, hdetach, hrest⟩ := hq.detachTimer
  exact ⟨L, dispatchTurnWith_of_detach hdue hcall hdetach, hrest⟩

/-- A turn that returns is followed by the rest of the loop. -/
theorem dispatchLoopWith_succ {fired : List Firing} {timer1 : Node}
    (hturn : dispatchTurnWith call now t s = .ok (fired, s')) :
    dispatchLoopWith call now (fuel + 1) (some (.timer t)) (some timer1) s =
      (dispatchLoopWith call now fuel (some timer1) (s'.links.next timer1) s').map
        fun x => (fired ++ x.1, x.2) := by
  simp only [dispatchLoopWith, hturn, Except.ok_bind, readNext]
  cases dispatchLoopWith call now fuel (some timer1) (s'.links.next timer1) s' with
  | error f => rfl
  | ok x => rfl

theorem Queue.dispatchTimerWith (hq : Queue s l) :
    dispatchTimerWith call fuel now s =
      dispatchLoopWith call now fuel (some (firstNode l)) (s.links.next (firstNode l)) s := by
  rw [Vlstp.dispatchTimerWith, hq.next_head]
  rfl

end

/-! ### Turns that take out what they fire -/

/-- The fields of `u` other than `entry` are the same. -/
def SameFields (s s' : TimerSys) (u : ℕ) : Prop :=
  s'.expires u = s.expires u ∧ s'.function u = s.function u ∧ s'.data u = s.data u

/-- On a list of at most `bound` timers, the turn of a timer that is due calls its function and
leaves it off the list, linked to itself, and the other timers as they were. Every turn keeps to
`R`. -/
structure TakesOut (call : TimerFunctions) (now : Time) (bound : ℕ)
    (R : TimerSys → TimerSys → Prop) : Prop where
  refl : ∀ s, R s s
  trans : ∀ {s s' s''}, R s s' → R s' s'' → R s s''
  turn : ∀ {s : TimerSys} {pre post : List ℕ} {t : ℕ}, Queue s (pre ++ t :: post) →
    timeAfterEq now (s.expires t) = true → (pre ++ t :: post).length ≤ bound →
    ∃ s', dispatchTurnWith call now t s = .ok ([⟨t, s.function t, s.data t⟩], s') ∧
      Queue s' (pre ++ post) ∧ s'.links.Linked (.timer t) (.timer t) ∧
      Untouched s.links s'.links (pre ++ t :: post) ∧ (∀ u, u ≠ t → SameFields s s' u) ∧ R s s'

section

variable {call : TimerFunctions} {now : Time} {s : TimerSys} {l pre post : List ℕ}
  {bound fuel : ℕ} {R : TimerSys → TimerSys → Prop}

theorem firings_congr {s' : TimerSys} (hsame : ∀ u ∈ l, SameFields s s' u) :
    firings s' l = firings s l := by
  refine List.map_congr_left fun u hu => ?_
  obtain ⟨-, hfunction, hdata⟩ := hsame u hu
  rw [hfunction, hdata]

/-- The loop, once it has passed the timers `pre` that stay. -/
theorem TakesOut.loop (hcall : TakesOut call now bound R) (hq : Queue s (pre ++ post))
    (hbound : (pre ++ post).length ≤ bound) (hfuel : post.length < fuel) :
    ∃ s', dispatchLoopWith call now fuel (some (firstNode post)) (s.links.next (firstNode post)) s =
        .ok (firings s (due now s.expires post), s') ∧
      Queue s' (pre ++ undue now s.expires post) ∧
      (∀ t ∈ due now s.expires post, s'.links.Linked (.timer t) (.timer t)) ∧
      Untouched s.links s'.links (pre ++ post) ∧ R s s' := by
  induction post generalizing s pre fuel with
  | nil =>
    obtain ⟨fuel, rfl⟩ : ∃ n, fuel = n + 1 := ⟨fuel - 1, by simp at hfuel; omega⟩
    exact ⟨s, rfl, hq, fun t ht => absurd ht List.not_mem_nil, fun _ _ => ⟨rfl, rfl⟩, hcall.refl s⟩
  | cons c post ih =>
    obtain ⟨fuel, rfl⟩ : ∃ n, fuel = n + 1 := ⟨fuel - 1, by simp at hfuel; omega⟩
    have hnext := next_of_ring hq.ring
    have hnodup := hq.nodup
    rw [List.nodup_middle, List.nodup_cons] at hnodup
    rw [firstNode, hnext]
    by_cases hdue : timeAfterEq now (s.expires c) = true
    · -- fired and taken out; the successor was read before
      obtain ⟨s₁, hturn, hq₁, hself, hunt₁, hsame, hR₁⟩ := hcall.turn hq hdue hbound
      have hbound₁ : (pre ++ post).length ≤ bound := by
        simp only [List.length_append, List.length_cons] at hbound ⊢
        omega
      obtain ⟨s', hloop, hq', hselves, hunt, hR⟩ :=
        ih hq₁ hbound₁ (Nat.lt_of_succ_lt_succ hfuel)
      -- the timers behind have the fields they had
      have hbehind : ∀ u ∈ post, SameFields s s₁ u := by
        intro u hu
        apply hsame
        rintro rfl
        exact hnodup.1 (List.mem_append_right pre hu)
      obtain ⟨hdues, hundues⟩ := due_cons (l := post) hdue
      have hdues₁ : due now s₁.expires post = due now s.expires post :=
        (due_congr fun u hu => (hbehind u hu).1).1
      have hundues₁ : undue now s₁.expires post = undue now s.expires post :=
        (due_congr fun u hu => (hbehind u hu).1).2
      rw [hdues₁] at hloop hselves
      rw [hundues₁] at hq'
      refine ⟨s', ?_, by rwa [hundues], fun t ht => ?_, hunt₁.trans hunt fun u hu => ?_,
        hcall.trans hR₁ hR⟩
      · have hfirings : firings s₁ (due now s.expires post) = firings s (due now s.expires post) :=
          firings_congr fun u hu => hbehind u (List.mem_of_mem_filter hu)
        rw [dispatchLoopWith_succ hturn, hloop, hdues, hfirings]
        rfl
      · rw [hdues] at ht
        rcases List.mem_cons.mp ht with rfl | ht
        · -- nothing that follows touches its links
          exact hunt.linked hnodup.1 hself
        · exact hselves t ht
      · rw [List.perm_middle.mem_iff]
        exact List.mem_cons_of_mem c hu
    · -- it stays
      have hsplit : pre ++ c :: post = (pre ++ [c]) ++ post := by simp
      obtain ⟨hdues, hundues⟩ := undue_cons (l := post) hdue
      rw [hsplit] at hq hbound
      obtain ⟨s', hloop, hq', hselves, hunt, hR⟩ := ih hq hbound (Nat.lt_of_succ_lt_succ hfuel)
      refine ⟨s', ?_, ?_, by rwa [hdues], by rwa [hsplit], hR⟩
      · rw [dispatchLoopWith_succ (dispatchTurnWith_undue hdue), hloop, hdues]
        rfl
      · rw [hundues]
        rwa [List.append_assoc, List.singleton_append] at hq'

/-- **A dispatch whose turns take out what they fire** fires what is due, in the order of the queue,
and takes it out. -/
theorem TakesOut.dispatch (hcall : TakesOut call now bound R) (hq : Queue s l)
    (hbound : l.length ≤ bound) (hfuel : l.length < fuel) :
    ∃ s', Vlstp.dispatchTimerWith call fuel now s =
        .ok (firings s (due now s.expires l), s') ∧
      Queue s' (undue now s.expires l) ∧
      (∀ t ∈ due now s.expires l, s'.links.Linked (.timer t) (.timer t)) ∧
      Untouched s.links s'.links l ∧ R s s' := by
  have hstart : Queue s ([] ++ l) := hq
  rw [hq.dispatchTimerWith]
  exact hcall.loop hstart hbound hfuel

/-- Functions that do nothing. -/
theorem takesOut_quiet (now : Time) (bound : ℕ) :
    TakesOut quiet now bound fun s s' => ∃ L, s' = { s with links := L } where
  refl s := ⟨s.links, rfl⟩
  trans := by
    rintro s _ _ ⟨L, rfl⟩ ⟨L', rfl⟩
    exact ⟨L', rfl⟩
  turn := by
    intro s pre post t hq hdue _
    have hcall : quiet ⟨t, s.function t, s.data t⟩ s = .ok s := rfl
    obtain ⟨L, hturn, hq', hself, hunt⟩ := dispatchTurnWith_due hdue hcall hq
    exact ⟨_, hturn, hq', hself, hunt, fun _ _ => ⟨rfl, rfl, rfl⟩, L, rfl⟩

/-- **`dispatch_timer`** fires what is due, in the order of the queue, and takes it out. -/
theorem Queue.dispatchTimer (hq : Queue s l) (now : Time) (hfuel : l.length < fuel) :
    ∃ L', dispatchTimer fuel now s =
        .ok (firings s (due now s.expires l), { s with links := L' }) ∧
      Queue { s with links := L' } (undue now s.expires l) ∧
      (∀ t ∈ due now s.expires l, L'.Linked (.timer t) (.timer t)) ∧ Untouched s.links L' l := by
  obtain ⟨s', hdispatch, hq', hselves, hunt, L', rfl⟩ :=
    (takesOut_quiet now l.length).dispatch hq le_rfl hfuel
  rw [dispatchTimerWith_quiet] at hdispatch
  exact ⟨L', hdispatch, hq', hselves, hunt⟩

end

end Vlstp
