import Mathlib.Data.Finset.Card
import Vlstp.Framework.Reach
import Vlstp.Timer.EventLoop

/-!
# Descriptors to wait for (`fdset_t`)

An `fdset_t` collects descriptors with `fd_set_read` and `fd_set_write`; `fd_select` waits for them,
and `fd_ready_read` and `fd_ready_write` look up what came of it. One pair of sets serves for both:
what `fd_select` is given to wait for, it overwrites with what is ready.

So a descriptor is on a set exactly if it has been put there and every `fd_select` since has found
it ready (`Watched`). One that a single `fd_select` did not report, as none is when that timed out,
is not waited for again until it is set again. The size `fd_select` passes on covers all that is on
the sets, so none of it is overlooked, and the number it returns is that of all that are left
(`fdset_history`).
-/

namespace Vlstp

/-! ### The macros of `select.h` -/

/-- `FD_SETSIZE`. -/
def fdSetSize : ℕ := 1024

/-- `FD_SET`. There is no bit for a negative descriptor, nor for one from `FD_SETSIZE` on. -/
def fdSet (fd : ℤ) (set : Finset ℕ) : Except Fault (Finset ℕ) :=
  if 0 ≤ fd ∧ fd < fdSetSize then .ok (insert fd.toNat set)
  else .error (.outOfBounds 0 (fd.toNat / 64))

/-- `FD_ISSET`. -/
def fdIsset (fd : ℤ) (set : Finset ℕ) : Except Fault ℤ :=
  if 0 ≤ fd ∧ fd < fdSetSize then .ok (if fd.toNat ∈ set then 1 else 0)
  else .error (.outOfBounds 0 (fd.toNat / 64))

/-- What comes of waiting: -1 with an `errno`, or the descriptors that are ready in each way. -/
inductive SelectResult
  | failed (errno : ℕ)
  | ready (read write except : ℕ → Bool)

/-- What `select` makes of a set: of the first `nfds` descriptors those stay that are ready. -/
def leaveReady (nfds : ℤ) (ready : ℕ → Bool) (set : Finset ℕ) : Finset ℕ :=
  set.filter fun fd : ℕ => nfds ≤ fd ∨ ready fd = true

/-- How many of a set `select` finds ready. -/
def countReady (nfds : ℤ) (ready : ℕ → Bool) (set : Finset ℕ) : ℕ :=
  (set.filter fun fd : ℕ => (fd : ℤ) < nfds ∧ ready fd = true).card

/-! ### `fdset_t` -/

/-- `fdset_t`. -/
structure FdsetT where
  fdread : Finset ℕ
  fdwrite : Finset ℕ
  fdexcept : Finset ℕ
  size : ℤ
  numready : ℤ

/-- `fd_create`. -/
def fdCreate : Option FdsetT → Option FdsetT
  | none => none
  | some _ => some ⟨∅, ∅, ∅, 0, 0⟩

/-- `fd_set_read`. -/
def fdSetRead (fd : ℤ) : Option FdsetT → Except Fault (Option FdsetT)
  | none => .ok none
  | some s => do
    let fdread ← fdSet fd s.fdread
    return some { s with fdread := fdread, size := if fd + 1 > s.size then fd + 1 else s.size }

/-- `fd_set_write`. -/
def fdSetWrite (fd : ℤ) : Option FdsetT → Except Fault (Option FdsetT)
  | none => .ok none
  | some s => do
    let fdwrite ← fdSet fd s.fdwrite
    return some { s with fdwrite := fdwrite, size := if fd + 1 > s.size then fd + 1 else s.size }

/-- `fd_select`. What comes of it may depend on how long `select` was told to wait. -/
def fdSelect (ms : Time) (answer : Timeval → SelectResult) : Option FdsetT → ℤ × Option FdsetT
  | none => (0, none)
  | some s =>
    match answer ⟨ms / 1000, ms % 1000 * 1000⟩ with
    | .failed _ => (-1, some { s with numready := -1 })
    | .ready read write except =>
      let numready : ℤ := countReady s.size read s.fdread + countReady s.size write s.fdwrite +
        countReady s.size except s.fdexcept
      (numready,
        some
          { s with
            fdread := leaveReady s.size read s.fdread
            fdwrite := leaveReady s.size write s.fdwrite
            fdexcept := leaveReady s.size except s.fdexcept
            numready := numready })

/-- `fd_ready_read`. -/
def fdReadyRead (fd : ℤ) : Option FdsetT → Except Fault ℤ
  | none => .ok (-1)
  | some s => fdIsset fd s.fdread

/-- `fd_ready_write`. -/
def fdReadyWrite (fd : ℤ) : Option FdsetT → Except Fault ℤ
  | none => .ok (-1)
  | some s => fdIsset fd s.fdwrite

/-- To read from a descriptor, or to write to it. -/
inductive Way
  | read
  | write
  deriving DecidableEq

/-- The calls. -/
inductive FdCall
  | create
  | set (way : Way) (fd : ℤ)
  | select (ms : Time) (answer : Timeval → SelectResult)
  | ready (way : Way) (fd : ℤ)

/-- What a call returns, 0 if nothing, and what it leaves. -/
def fdStep (s : Option FdsetT) : FdCall → Except Fault (ℤ × Option FdsetT)
  | .create => .ok (0, fdCreate s)
  | .set .read fd => do return (0, ← fdSetRead fd s)
  | .set .write fd => do return (0, ← fdSetWrite fd s)
  | .select ms answer => .ok (fdSelect ms answer s)
  | .ready .read fd => do return (← fdReadyRead fd s, s)
  | .ready .write fd => do return (← fdReadyWrite fd s, s)

/-! ### What the calls come to -/

/-- The descriptor of a call has a bit in a set. -/
def FdCall.InRange : FdCall → Prop
  | .set _ fd | .ready _ fd => 0 ≤ fd ∧ fd < fdSetSize
  | .create | .select _ _ => True

/-- The descriptor is reported ready. -/
def SelectResult.Reports (result : SelectResult) (way : Way) (fd : ℕ) : Prop :=
  match result, way with
  | .failed _, _ => False
  | .ready read _ _, .read => read fd = true
  | .ready _ write _, .write => write fd = true

/-- A call after which a descriptor is still on the set. A `fd_select` that fails changes none. -/
def FdCall.Keeps (way : Way) (fd : ℕ) : FdCall → Prop
  | .create => False
  | .select ms answer =>
    (∃ errno, answer ⟨ms / 1000, ms % 1000 * 1000⟩ = .failed errno) ∨
      (answer ⟨ms / 1000, ms % 1000 * 1000⟩).Reports way fd
  | .set _ _ | .ready _ _ => True

/-- The descriptor has been set, and no call since has taken it off. -/
def Watched (calls : List FdCall) (way : Way) (fd : ℕ) : Prop :=
  Since (fun call => call = .set way fd) (FdCall.Keeps way fd) calls

/-- The set for one way. -/
def FdsetT.on (s : FdsetT) : Way → Finset ℕ
  | .read => s.fdread
  | .write => s.fdwrite

/-- What an `fdset_t` shows after the calls. -/
structure ShowsWatched (calls : List FdCall) (s : FdsetT) : Prop where
  watched : ∀ way fd, fd ∈ s.on way ↔ Watched calls way fd
  examined : ∀ way fd, fd ∈ s.on way → (fd : ℤ) < s.size
  except : s.fdexcept = ∅
  size : 0 ≤ s.size ∧ s.size ≤ fdSetSize

/-- What a call returns after the calls before it. -/
def Answers (calls : List FdCall) : FdCall → ℤ → Prop
  | .create, r => r = 0
  | .set _ _, r => r = 0
  | .select ms answer, r =>
    (∃ errno, answer ⟨ms / 1000, ms % 1000 * 1000⟩ = .failed errno ∧ r = -1) ∨
      ∃ R W : Finset ℕ, r = R.card + W.card ∧
        (∀ fd, fd ∈ R ↔ Watched (calls ++ [.select ms answer]) .read fd) ∧
        ∀ fd, fd ∈ W ↔ Watched (calls ++ [.select ms answer]) .write fd
  | .ready way fd, r =>
    (Watched calls way fd.toNat → r = 1) ∧ (¬ Watched calls way fd.toNat → r = 0)

section

variable {calls : List FdCall} {call : FdCall} {s s' : FdsetT} {way : Way} {fd n : ℕ}

theorem watched_snoc : Watched (calls ++ [call]) way fd ↔
    call = .set way fd ∨ (Watched calls way fd ∧ call.Keeps way fd) :=
  since_snoc

theorem fdSet_eq (hn : n < fdSetSize) (set : Finset ℕ) : fdSet n set = .ok (insert n set) :=
  if_pos ⟨Int.natCast_nonneg n, Int.ofNat_lt.mpr hn⟩

theorem fdIsset_eq (hn : n < fdSetSize) (set : Finset ℕ) :
    fdIsset n set = .ok (if n ∈ set then 1 else 0) :=
  if_pos ⟨Int.natCast_nonneg n, Int.ofNat_lt.mpr hn⟩

/-! ### One call -/

theorem FdsetT.on_create : (⟨∅, ∅, ∅, 0, 0⟩ : FdsetT).on way = ∅ := by
  cases way with
  | read => rfl
  | write => rfl

theorem shows_create : ShowsWatched [] ⟨∅, ∅, ∅, 0, 0⟩ where
  watched way fd := by
    rw [FdsetT.on_create]
    exact iff_of_false (Finset.notMem_empty fd) not_since_nil
  examined way fd hfd := by
    rw [FdsetT.on_create] at hfd
    exact absurd hfd (Finset.notMem_empty fd)
  except := rfl
  size := by decide

/-- `fd_create` clears everything. -/
theorem ShowsWatched.create (calls : List FdCall) :
    ShowsWatched (calls ++ [.create]) ⟨∅, ∅, ∅, 0, 0⟩ where
  watched way fd := by
    rw [FdsetT.on_create, watched_snoc]
    refine iff_of_false (Finset.notMem_empty fd) ?_
    rintro (hset | ⟨-, hkeeps⟩)
    · cases hset
    · exact hkeeps
  examined := shows_create.examined
  except := rfl
  size := shows_create.size

/-- What `fd_set_read` and `fd_set_write` leave. -/
def FdsetT.put (s : FdsetT) (n : ℕ) : Way → FdsetT
  | .read => ⟨insert n s.fdread, s.fdwrite, s.fdexcept, max (n + 1) s.size, s.numready⟩
  | .write => ⟨s.fdread, insert n s.fdwrite, s.fdexcept, max (n + 1) s.size, s.numready⟩

theorem fdStep_set (hn : n < fdSetSize) :
    fdStep (some s) (.set way n) = .ok (0, some (s.put n way)) := by
  have hmax : (if (n : ℤ) + 1 > s.size then (n : ℤ) + 1 else s.size) = max (n + 1 : ℤ) s.size := by
    rw [max_comm, max_def_lt]
  cases way with
  | read =>
    simp only [fdStep, fdSetRead, fdSet_eq hn, Except.ok_bind, Except.pure_eq, hmax]
    rfl
  | write =>
    simp only [fdStep, fdSetWrite, fdSet_eq hn, Except.ok_bind, Except.pure_eq, hmax]
    rfl

theorem mem_on_put {way' : Way} :
    fd ∈ (s.put n way).on way' ↔ (way' = way ∧ fd = n) ∨ fd ∈ s.on way' := by
  cases way with
  | read => cases way' <;> simp [FdsetT.put, FdsetT.on]
  | write => cases way' <;> simp [FdsetT.put, FdsetT.on]

theorem size_put : (s.put n way).size = max (n + 1 : ℤ) s.size := by
  cases way with
  | read => rfl
  | write => rfl

theorem except_put : (s.put n way).fdexcept = s.fdexcept := by
  cases way with
  | read => rfl
  | write => rfl

/-- **`fd_set_read` and `fd_set_write`** put the descriptor on their set, and the size covers it. -/
theorem ShowsWatched.put (hs : ShowsWatched calls s) (hn : n < fdSetSize) (way : Way) :
    ShowsWatched (calls ++ [.set way n]) (s.put n way) where
  watched way' fd := by
    rw [mem_on_put, watched_snoc, hs.watched]
    refine or_congr ⟨?_, fun h => ?_⟩ (and_iff_left trivial).symm
    · rintro ⟨rfl, rfl⟩
      rfl
    · obtain ⟨hway, hfd⟩ := FdCall.set.inj h
      exact ⟨hway.symm, (Int.ofNat.inj hfd).symm⟩
  examined way' fd hfd := by
    rw [size_put, lt_max_iff]
    rcases mem_on_put.mp hfd with ⟨-, rfl⟩ | hfd
    · exact Or.inl (Int.lt_succ fd)
    · exact Or.inr (hs.examined way' fd hfd)
  except := except_put.trans hs.except
  size := by
    rw [size_put]
    have hn' : (n : ℤ) + 1 ≤ fdSetSize := Int.add_one_le_of_lt (Int.ofNat_lt.mpr hn)
    exact ⟨le_max_of_le_right hs.size.1, max_le hn' hs.size.2⟩

/-! #### Waiting -/

/-- What `select` leaves, if it does not fail. -/
def FdsetT.leave (s : FdsetT) (read write except : ℕ → Bool) (numready : ℤ) : FdsetT :=
  ⟨leaveReady s.size read s.fdread, leaveReady s.size write s.fdwrite,
    leaveReady s.size except s.fdexcept, s.size, numready⟩

/-- All that is on a set is examined, so what is left of it is what is ready. -/
theorem mem_leaveReady {size : ℤ} {ready : ℕ → Bool} {set : Finset ℕ}
    (hset : ∀ fd ∈ set, (fd : ℤ) < size) :
    fd ∈ leaveReady size ready set ↔ fd ∈ set ∧ ready fd = true := by
  unfold leaveReady
  rw [Finset.mem_filter]
  refine and_congr_right fun hfd => or_iff_right ?_
  exact not_le.mpr (hset fd hfd)

/-- And the number `select` returns counts just these. -/
theorem countReady_eq {size : ℤ} {ready : ℕ → Bool} {set : Finset ℕ}
    (hset : ∀ fd ∈ set, (fd : ℤ) < size) :
    countReady size ready set = (leaveReady size ready set).card := by
  unfold countReady
  congr 1
  ext fd
  rw [Finset.mem_filter, mem_leaveReady hset]
  exact and_congr_right fun hfd => and_iff_right (hset fd hfd)

theorem ShowsWatched.mem_leave (hs : ShowsWatched calls s) {read write except : ℕ → Bool} {r : ℤ} :
    fd ∈ (s.leave read write except r).on way ↔
      fd ∈ s.on way ∧ (SelectResult.ready read write except).Reports way fd := by
  cases way with
  | read => exact mem_leaveReady fun fd hfd => hs.examined .read fd hfd
  | write => exact mem_leaveReady fun fd hfd => hs.examined .write fd hfd

/-- **`fd_select`** leaves on the sets what is ready of them, and returns how much that is. -/
theorem ShowsWatched.select (hs : ShowsWatched calls s) (ms : Time)
    (answer : Timeval → SelectResult) :
    ∃ r s', fdStep (some s) (.select ms answer) = .ok (r, some s') ∧
      ShowsWatched (calls ++ [.select ms answer]) s' ∧ Answers calls (.select ms answer) r := by
  simp only [fdStep, fdSelect]
  cases hanswer : answer ⟨ms / 1000, ms % 1000 * 1000⟩ with
  | failed errno =>
    -- nothing changes
    refine ⟨-1, _, rfl, ⟨fun way fd => ?_, hs.examined, hs.except, hs.size⟩, ?_⟩
    · rw [watched_snoc]
      refine (hs.watched way fd).trans ⟨fun h => Or.inr ⟨h, Or.inl ⟨errno, hanswer⟩⟩, ?_⟩
      rintro (hset | ⟨h, -⟩)
      · cases hset
      · exact h
    · exact Or.inl ⟨errno, hanswer, rfl⟩
  | ready read write except =>
    have hexcept : leaveReady s.size except s.fdexcept = ∅ := by
      rw [hs.except]
      exact Finset.filter_empty _
    have hwatched : ∀ way fd,
        fd ∈ (s.leave read write except 0).on way ↔
          Watched (calls ++ [.select ms answer]) way fd := by
      intro way fd
      rw [hs.mem_leave, watched_snoc, hs.watched]
      constructor
      · rintro ⟨h, hready⟩
        exact Or.inr ⟨h, Or.inr (hanswer ▸ hready)⟩
      · rintro (hset | ⟨h, ⟨errno, hfailed⟩ | hready⟩)
        · cases hset
        · cases hanswer.symm.trans hfailed
        · exact ⟨h, hanswer ▸ hready⟩
    have hcount : (countReady s.size read s.fdread + countReady s.size write s.fdwrite +
        countReady s.size except s.fdexcept : ℤ) =
        (leaveReady s.size read s.fdread).card + (leaveReady s.size write s.fdwrite).card := by
      have hread := @countReady_eq _ read _ (hs.examined .read)
      have hwrite := @countReady_eq _ write _ (hs.examined .write)
      simp only [FdsetT.on] at hread hwrite
      rw [hread, hwrite, hs.except]
      exact Int.add_zero _
    refine ⟨_, _, rfl, ⟨hwatched, fun way fd hfd => ?_, hexcept, hs.size⟩, ?_⟩
    · have hleft : fd ∈ (s.leave read write except 0).on way := hfd
      exact hs.examined way fd (hs.mem_leave.mp hleft).1
    · exact Or.inr ⟨_, _, hcount, hwatched .read, hwatched .write⟩

/-- `fd_ready_read` and `fd_ready_write` look a descriptor up. -/
theorem fdStep_ready (hn : n < fdSetSize) :
    fdStep (some s) (.ready way n) = .ok (if n ∈ s.on way then 1 else 0, some s) := by
  cases way with
  | read =>
    simp only [fdStep, fdReadyRead, fdIsset_eq hn, Except.ok_bind, Except.pure_eq]
    rfl
  | write =>
    simp only [fdStep, fdReadyWrite, fdIsset_eq hn, Except.ok_bind, Except.pure_eq]
    rfl

/-- **One call.** -/
theorem ShowsWatched.step (hs : ShowsWatched calls s) (hin : call.InRange) :
    ∃ r s', fdStep (some s) call = .ok (r, some s') ∧ ShowsWatched (calls ++ [call]) s' ∧
      Answers calls call r := by
  cases call with
  | create => exact ⟨0, _, rfl, .create calls, rfl⟩
  | set way fd =>
    obtain ⟨n, rfl⟩ := Int.eq_ofNat_of_zero_le hin.1
    have hn : n < fdSetSize := Int.ofNat_lt.mp hin.2
    exact ⟨0, _, fdStep_set hn, hs.put hn way, rfl⟩
  | select ms answer => exact hs.select ms answer
  | ready way fd =>
    obtain ⟨n, rfl⟩ := Int.eq_ofNat_of_zero_le hin.1
    have hn : n < fdSetSize := Int.ofNat_lt.mp hin.2
    refine ⟨_, s, fdStep_ready hn, ⟨fun way' fd => ?_, hs.examined, hs.except, hs.size⟩, ?_⟩
    · rw [watched_snoc]
      refine (hs.watched way' fd).trans ⟨fun h => Or.inr ⟨h, trivial⟩, ?_⟩
      rintro (hset | ⟨h, -⟩)
      · cases hset
      · exact h
    · have hn' := hs.watched way n
      exact ⟨fun h => if_pos (hn'.mpr h), fun h => if_neg (mt hn'.mp h)⟩

end

/-! ### Any run -/

/-- **What an `fdset_t` is for.** Created from arbitrary memory, after every run of calls it has on
its sets just the descriptors that were set and that every `fd_select` since has reported; all of
these are examined by the next one. Each call returns what the calls before it say. -/
theorem fdset_history (s₀ : FdsetT) {calls : List FdCall} (hin : ∀ call ∈ calls, call.InRange) :
    ∃ rs s, exec fdStep (fdCreate (some s₀)) calls = .ok (rs, some s) ∧ ShowsWatched calls s ∧
      rs.length = calls.length ∧
      ∀ pre call r, pre ++ [call] <+: calls → rs[pre.length]? = some r → Answers pre call r := by
  -- on the calls, the last one first
  induction calls using List.reverseRecOn with
  | nil =>
    refine ⟨[], _, rfl, shows_create, rfl, fun pre call r hpre _ => ?_⟩
    exact absurd hpre.length_le (by simp)
  | append_singleton calls call ih =>
    obtain ⟨rs, s, hexec, hs, hlength, hanswers⟩ :=
      ih fun call' hmem => hin call' (List.mem_append_left _ hmem)
    obtain ⟨r, s', hstep, hs', hr⟩ :=
      hs.step (hin call (List.mem_append_right _ (List.mem_singleton_self call)))
    refine ⟨rs ++ [r], s', exec_snoc hexec hstep, hs', by simp [hlength], ?_⟩
    intro pre call' r' hpre hget
    rcases List.prefix_concat_iff.mp hpre with heq | hpre
    · obtain ⟨rfl, hcall⟩ := List.append_inj' heq rfl
      obtain rfl : call' = call := List.singleton_inj.mp hcall
      rw [← hlength, List.getElem?_concat_length] at hget
      rw [← Option.some.inj hget]
      exact hr
    · have hlt : pre.length < rs.length := by
        have hle := hpre.length_le
        rw [List.length_append, List.length_singleton] at hle
        omega
      rw [List.getElem?_append_left hlt] at hget
      exact hanswers pre call' r' hpre hget

/-- Two descriptors of which `fd_select` reports one: the next `fd_select` waits for that one only,
also when the other is ready by then. -/
theorem fdset_history_dropped :
    let none : ℕ → Bool := fun _ => false
    let first : FdCall := .select 1000 fun _ => .ready (fun fd => fd = 3) none none
    let both : FdCall := .select 1000 fun _ => .ready (fun _ => true) none none
    let calls : List FdCall := [.set .read 3, .set .read 5, first, both, .ready .read 5]
    ∃ rs s, exec fdStep (fdCreate (some ⟨{7}, ∅, {9}, -4, 6⟩)) calls = .ok (rs, some s) ∧
      ShowsWatched calls s ∧ rs.length = calls.length ∧
      ∀ pre call r, pre ++ [call] <+: calls → rs[pre.length]? = some r → Answers pre call r := by
  intro none first both calls
  refine fdset_history _ fun call hcall => ?_
  simp only [calls, List.mem_cons, List.not_mem_nil, or_false] at hcall
  rcases hcall with rfl | rfl | rfl | rfl | rfl
  · exact ⟨by decide, by decide⟩
  · exact ⟨by decide, by decide⟩
  · trivial
  · trivial
  · exact ⟨by decide, by decide⟩

end Vlstp
