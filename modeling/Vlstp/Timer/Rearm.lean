import Vlstp.Timer.Callbacks

/-!
# A timer re-armed by its own function

The function of a timer calls `mod_timer` on that timer. While it runs the timer is still on the
list, so `mod_timer` takes it out and puts it back in for the new time. Then `dispatch_timer` goes
on with `list_del_init(&timer->entry)`, which takes it out again: the timer is lost, whatever the
list, the current time and the new time are (`rearmed_timer_is_lost`).
-/

namespace Vlstp

/-- The function of `t` calls `mod_timer(t, e)`; the others leave the timers alone. -/
def rearm (turns t : ℕ) (e : Time) : TimerFunctions := fun c s =>
  if c.timer = t then do return (← modTimer turns t e s).2 else .ok s

/-- When a dispatch returns, `t` is on the list once, with the time `e`, and no timer of the list is
due before one ahead of it. -/
def StaysArmed (call : TimerFunctions) (now : Time) (t : ℕ) (e : Time) (s : TimerSys) : Prop :=
  ∀ fuel calls s', dispatchTimerWith call fuel now s = .ok (calls, s') →
    ∃ l, Queue s' l ∧ l.count t = 1 ∧ s'.expires t = e ∧
      l.Pairwise fun u v => timeBefore (s'.expires v) (s'.expires u) = false

section

variable {s : TimerSys} {now e : Time} {l pre post : List ℕ} {t turns fuel : ℕ}

/-- A queue with one more timer, split at that timer. -/
theorem exists_enqueue_split (expires : ℕ → Time) (t : ℕ) (l : List ℕ) :
    ∃ pre post, enqueue expires t l = pre ++ t :: post ∧ pre ++ post = l :=
  ⟨_, _, List.orderedInsert_eq_take_drop .., List.takeWhile_append_dropWhile⟩

/-- A timer that is due is not due at a later time. -/
theorem ne_of_after (hdue : timeAfterEq now (s.expires t) = true)
    (hafter : timeAfter e now = true) : s.expires t ≠ e := by
  intro heq
  have hbefore : timeBefore now e = true := hafter
  rw [heq, timeAfterEq, BitVec.sle_eq_not_slt, Bool.not_eq_true'] at hdue
  rw [timeBefore, timeAfter, hdue] at hbefore
  exact absurd hbefore (by decide)

/-- **One firing.** Whether it is `t` or another timer, it is off the list after its turn. -/
theorem takesOut_rearm (hafter : timeAfter e now = true) :
    TakesOut (rearm turns t e) now turns fun _ _ => True where
  refl _ := trivial
  trans _ _ := trivial
  turn := by
    intro s pre post c hq hdue hbound
    by_cases hct : c = t
    · -- put back in at its new place, and taken out from there
      subst hct
      have hmem : c ∈ pre ++ c :: post := List.mem_append_right pre (List.mem_cons_self ..)
      have hturns : ((pre ++ c :: post).erase c).length < turns := by
        rw [List.length_erase_of_mem hmem]
        exact (Nat.sub_one_lt (List.length_pos_of_mem hmem).ne').trans_le hbound
      obtain ⟨L, hmod, hq', hunt⟩ :=
        hq.modTimer (fun hnot => absurd hmem hnot) (ne_of_after hdue hafter) hturns
      rw [erase_middle hq.nodup] at hq'
      have hcall : rearm turns c e ⟨c, s.function c, s.data c⟩ s =
          .ok { s with links := L, expires := Function.update s.expires c e } := by
        rw [rearm, if_pos rfl, hmod]
        rfl
      obtain ⟨pre', post', hsplit, hback⟩ :=
        exists_enqueue_split (Function.update s.expires c e) c (pre ++ post)
      rw [hsplit] at hq'
      obtain ⟨L', hturn, hq'', hself, hunt'⟩ := dispatchTurnWith_due hdue hcall hq'
      rw [hback] at hq''
      have hunt₁ : Untouched s.links L (pre ++ c :: post) :=
        hunt.mono (List.cons_subset.mpr ⟨hmem, List.Subset.refl _⟩)
      refine ⟨_, hturn, hq'', hself, hunt₁.trans hunt' fun u hu => ?_, fun u hu => ?_, trivial⟩
      · rw [List.perm_middle.mem_iff, hback] at hu
        rwa [List.perm_middle.mem_iff]
      · exact ⟨Function.update_of_ne hu .., rfl, rfl⟩
    · have hcall : rearm turns t e ⟨c, s.function c, s.data c⟩ s = .ok s := if_neg hct
      obtain ⟨L', hturn, hq', hself, hunt⟩ := dispatchTurnWith_due hdue hcall hq
      exact ⟨_, hturn, hq', hself, hunt, fun _ _ => ⟨rfl, rfl, rfl⟩, trivial⟩

/-- The dispatch returns, and `t` is not on the list. -/
theorem rearm_dispatch (hq : Queue s l) (ht : t ∈ l) (hdue : timeAfterEq now (s.expires t) = true)
    (hafter : timeAfter e now = true) (hturns : l.length < turns) (hfuel : l.length < fuel) :
    ∃ calls s', dispatchTimerWith (rearm turns t e) fuel now s = .ok (calls, s') ∧
      ∀ l', Queue s' l' → t ∉ l' := by
  obtain ⟨s', hdispatch, -, hselves, -⟩ := (takesOut_rearm hafter).dispatch hq hturns.le hfuel
  refine ⟨_, s', hdispatch, fun l' hl' => ?_⟩
  exact hl'.notMem_of_linked (hselves t (List.mem_filter.mpr ⟨ht, hdue⟩))

theorem not_staysArmed_of_off_list {call : TimerFunctions}
    (h : ∃ fuel calls s', dispatchTimerWith call fuel now s = .ok (calls, s') ∧
      ∀ l', Queue s' l' → t ∉ l') : ¬ StaysArmed call now t e s := by
  obtain ⟨fuel, calls, s', hdispatch, hoff⟩ := h
  intro hstays
  obtain ⟨l', hq', hcount, -⟩ := hstays fuel calls s' hdispatch
  have hmem : t ∈ l' := List.count_pos_iff.mp (by omega)
  exact hoff l' hq' hmem

/-- **A timer re-armed by its own function does not stay armed**, whatever the list, the time and
the new time: the dispatch returns and leaves the timer off the list. -/
theorem rearmed_timer_is_lost (hq : Queue s l) (ht : t ∈ l)
    (hdue : timeAfterEq now (s.expires t) = true) (hafter : timeAfter e now = true)
    (hturns : l.length < turns) :
    (∃ fuel calls s', dispatchTimerWith (rearm turns t e) fuel now s = .ok (calls, s')) ∧
      ¬ StaysArmed (rearm turns t e) now t e s := by
  obtain ⟨calls, s', hdispatch, hoff⟩ :=
    rearm_dispatch hq ht hdue hafter hturns (Nat.lt_succ_self l.length)
  exact ⟨⟨_, calls, s', hdispatch⟩, not_staysArmed_of_off_list ⟨_, calls, s', hdispatch, hoff⟩⟩

end

/-- One timer, due at 4: at the time 5 it re-arms itself for 9. -/
theorem rearmed_timer_is_lost_one :
    ∃ s, Queue s [3] ∧
      (∃ fuel calls s', dispatchTimerWith (rearm 2 3 9) fuel 5 s = .ok (calls, s')) ∧
      ¬ StaysArmed (rearm 2 3 9) 5 3 9 s := by
  obtain ⟨s, hq, hexpires, -⟩ := exists_queue (l := [3]) (by decide) (fun _ => 4) (fun _ => 0)
    fun _ => 0
  have hdue : timeAfterEq 5 (s.expires 3) = true := by
    rw [hexpires]
    decide
  exact ⟨s, hq, rearmed_timer_is_lost hq (by decide) hdue (by decide) (by decide)⟩

/-- So re-armed timers do not all stay armed. -/
theorem not_all_rearmed_stay_armed :
    ¬ ∀ (s : TimerSys) (l : List ℕ) (now e : Time) (t turns : ℕ), Queue s l →
      (l.Pairwise fun u v => timeBefore (s.expires v) (s.expires u) = false) → t ∈ l →
      timeAfterEq now (s.expires t) = true → timeAfter e now = true → l.length < turns →
      StaysArmed (rearm turns t e) now t e s := by
  intro hall
  obtain ⟨s, hq, hexpires, -⟩ := exists_queue (l := [3]) (by decide) (fun _ => 4) (fun _ => 0)
    fun _ => 0
  have hdue : timeAfterEq 5 (s.expires 3) = true := by
    rw [hexpires]
    decide
  have hafter : timeAfter 9 5 = true := by decide
  have hturns : [3].length < 2 := by decide
  obtain ⟨calls, s', hdispatch, hoff⟩ := rearm_dispatch hq (by decide) hdue hafter hturns hturns
  exact not_staysArmed_of_off_list ⟨_, calls, s', hdispatch, hoff⟩
    (hall s [3] 5 9 3 2 hq (List.pairwise_singleton _ _) (by decide) hdue hafter hturns)

end Vlstp
