import Mathlib.Data.Int.Notation
import Vlstp.ListHead

/-!
# Timers (`timer.h`, `timer.c`)

The timer queue, translated function by function. The nodes of the list are the head in
`__timer_sys` and the `entry` of each timer; `list_entry` of a timer's node is the timer, as `entry`
is its first member, and of `NULL` it is `NULL`. Times are 64 bits and compared as the macros do, by
the sign of their difference.

The loops over the list take a number of turns they may use, and end in `Fault.diverge` when that is
not enough.
-/

namespace Vlstp

/-- An `unsigned long` number of milliseconds. -/
abbrev Time := BitVec 64

/-- `time_after(a,b)`: `(long)(b) - (long)(a) < 0`. The difference is taken to wrap around, as it
does in the repository's build, which does not optimise, or with `-fwrapv`. ISO C leaves its
overflow undefined, and a compiler that optimises may compare `b` and `a` as they are, also where
they are `2 ^ 63` apart. -/
def timeAfter (a b : Time) : Bool := (b - a).slt 0

/-- `time_before(a,b)`. -/
def timeBefore (a b : Time) : Bool := timeAfter b a

/-- `time_after_eq(a,b)`: `(long)(a) - (long)(b) >= 0`, where the difference wraps around as in
`timeAfter`. -/
def timeAfterEq (a b : Time) : Bool := (0 : Time).sle (a - b)

/-- A `struct list_head` of the timer list: the head, or the `entry` of a timer. -/
inductive Node
  | head
  | timer (t : ℕ)
  deriving DecidableEq

/-- The memory of the timers: `struct timer_sys __timer_sys`, and the fields of every `struct
timer_list`. -/
structure TimerSys where
  /-- `__timer_sys.timer_list` and `timer->entry`. -/
  links : Links Node
  inited : Bool
  expires : ℕ → Time
  function : ℕ → ℕ
  data : ℕ → BitVec 64

/-- A call `timer->function(timer->data)`. -/
structure Firing where
  timer : ℕ
  function : ℕ
  data : BitVec 64
  deriving DecidableEq

/-- The static initial `__timer_sys`, with timers whose `entry` is all `NULL`. -/
def TimerSys.static (expires : ℕ → Time) (function : ℕ → ℕ) (data : ℕ → BitVec 64) : TimerSys where
  links := ⟨fun _ => none, fun _ => none⟩
  inited := false
  expires := expires
  function := function
  data := data

/-- `timer_panding`. -/
def timerPanding (t : ℕ) (s : TimerSys) : Bool := s.links.next (.timer t) != none

/-- `setup_timer`, with `init_timer`. -/
def setupTimer (t func : ℕ) (data : BitVec 64) (s : TimerSys) : TimerSys :=
  { s with
    links := (s.links.setPrev (.timer t) none).setNext (.timer t) none
    function := Function.update s.function t func
    data := Function.update s.data t data }

/-- `detach_timer`. -/
def detachTimer (t : ℕ) (s : TimerSys) : Except Fault TimerSys := do
  let links ← listDelInit (.timer t) s.links
  return { s with links := links }

/-- The `list_for_each` loop of `internal_add_timer`, from `pos` on, and the tail insert after
it. -/
def insertLoop (new : ℕ) (s : TimerSys) : ℕ → Option Node → Except Fault (Links Node)
  | 0, _ => .error .diverge
  | fuel + 1, pos =>
    match pos with
    -- `pos != head`, so `ltimer->expires` is read
    | none => .error .nullDeref
    -- `!done`
    | some .head => listAddTail (.timer new) .head s.links
    | some (.timer l) =>
      if timeBefore (s.expires new) (s.expires l) then
        listAdd (.timer new) (s.links.prev (.timer l)) s.links
      else insertLoop new s fuel (s.links.next (.timer l))

/-- `internal_add_timer`. -/
def internalAddTimer (fuel new : ℕ) (s : TimerSys) : Except Fault TimerSys := do
  let links ← insertLoop new s fuel (s.links.next .head)
  return { s with links := links }

/-- `add_timer`. -/
def addTimer (fuel t : ℕ) (s : TimerSys) : Except Fault TimerSys :=
  let s :=
    if !s.inited then { s with links := initListHead .head s.links, inited := true } else s
  internalAddTimer fuel t s

/-- `mod_timer`. -/
def modTimer (fuel t : ℕ) (expires : Time) (s : TimerSys) : Except Fault (ℤ × TimerSys) := do
  if timerPanding t s && s.expires t == expires then return (1, s)
  let s ← detachTimer t s
  let s := { s with expires := Function.update s.expires t expires }
  let s ← internalAddTimer fuel t s
  return (0, s)

/-- `del_timer`. -/
def delTimer (t : ℕ) (s : TimerSys) : Except Fault TimerSys :=
  if timerPanding t s then detachTimer t s else .ok s

/-- One turn of the loop of `dispatch_timer`. -/
def dispatchTurn (now : Time) (t : ℕ) (s : TimerSys) : Except Fault (List Firing × TimerSys) :=
  if timeAfterEq now (s.expires t) then do
    let links ← listDelInit (.timer t) s.links
    return ([⟨t, s.function t, s.data t⟩], { s with links := links })
  else .ok ([], s)

/-- The `list_for_each_entry_safe` loop of `dispatch_timer`: the timers it fires, in order. -/
def dispatchLoop (now : Time) :
    ℕ → Option Node → Option Node → TimerSys → Except Fault (List Firing × TimerSys)
  | 0, _, _, _ => .error .diverge
  | fuel + 1, timer, timer1, s =>
    match timer with
    | none => .error .nullDeref
    | some .head => .ok ([], s)
    | some (.timer t) => do
      let (fired, s) ← dispatchTurn now t s
      -- `timer1` was read before the turn, its successor is read after it
      let next ← readNext timer1 s.links
      let (rest, s) ← dispatchLoop now fuel timer1 next s
      return (fired ++ rest, s)

/-- `dispatch_timer`, at the time `now`. -/
def dispatchTimer (fuel : ℕ) (now : Time) (s : TimerSys) :
    Except Fault (List Firing × TimerSys) := do
  let timer := s.links.next .head
  let timer1 ← readNext timer s.links
  dispatchLoop now fuel timer timer1 s

/-- `timer_next_msecs`. -/
def timerNextMsecs (now : Time) (s : TimerSys) : Except Fault Time :=
  match s.links.next .head with
  -- `list_empty`
  | some .head => .ok 1000
  | none => .error .nullDeref
  | some (.timer t) =>
    let expires := s.expires t - now - 5
    .ok (if (0 : Time).slt expires then expires else 0)

/-- `struct timeval`. -/
structure Timeval where
  sec : Time
  usec : Time
  deriving DecidableEq

/-- `vlstp_dispatch_event`: it sleeps in `select` from the time `now` to the time `later`, which
returns `ret`. -/
def vlstpDispatchEvent (fuel : ℕ) (now : Time) (ret : ℤ) (later : Time) (s : TimerSys) :
    Except Fault (Timeval × List Firing × TimerSys) := do
  let ms ← timerNextMsecs now s
  let tv : Timeval := ⟨ms / 1000, ms % 1000 * 1000⟩
  if ret = 0 then
    let (fired, s) ← dispatchTimer fuel later s
    return (tv, fired, s)
  else return (tv, [], s)

end Vlstp
