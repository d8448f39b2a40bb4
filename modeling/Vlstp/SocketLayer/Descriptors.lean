import Vlstp.Framework.Reach
import Vlstp.SocketLayer
import Vlstp.Tsnmap.Defs

/-!
# Opening sockets (`fd_create_socket`)

`fd_create_socket` makes up to five system calls, of which four can fail. What has been opened must
be closed again then, for the caller only learns that there is no descriptor. `fd_set_noblock`
changes one of the flags of a descriptor and has to leave the others alone.

The kernel's table of descriptors is `Fds`. A caller that keeps a book of the descriptors it was
given and of what it asked for has the same in it as the kernel has in the table, whatever the
system calls answer and in whatever order sockets are opened, changed and closed: no descriptor is
left open that nobody knows of, and each is bound as it was asked for
(`descriptors_accounted`).
-/

namespace Vlstp

/-! ### System calls -/

/-- An open socket, with its options, what it is bound to and its flags. Address and port are in
network byte order. -/
structure Sock where
  proto : ℤ
  reuseaddr : Bool
  bound : Option (BitVec 32 × BitVec 16)
  device : Option (List Byte)
  flags : BitVec 32

/-- The table of descriptors. -/
abbrev Fds := ℕ → Option Sock

/-- A system call that changes something of an open socket, or fails. -/
def sockCall (ok : Bool) (change : Sock → Sock) (fd : ℕ) (fds : Fds) : ℤ × Fds :=
  match fds fd with
  | none => (-1, fds)
  | some k => if ok then (0, Function.update fds fd (some (change k))) else (-1, fds)

/-- `close`. -/
def close (fd : ℕ) (fds : Fds) : ℤ × Fds :=
  match fds fd with
  | none => (-1, fds)
  | some _ => (0, Function.update fds fd none)

/-- What the system calls of `fd_create_socket` answer: `socket` with a descriptor or not, the
others with success or not. A new descriptor has the flags the kernel gives it: it can be read from
and written to, and `SOCK_NONBLOCK` in the type asked for makes it one that does not block. -/
structure SocketAnswers where
  socket : Option (ℕ × BitVec 32)
  reuseaddr : Bool
  bind : Bool
  bindtodevice : Bool

/-! ### The functions -/

section Functions

-- `inet_addr`, of a string that is not empty
variable (inetAddr : List Byte → BitVec 32)

/-- The address `fd_bind_local` binds to: any, if none is given or the string is empty. -/
def localAddr (addr : Option (List Byte)) : BitVec 32 :=
  match addr with
  | none => htonl 0
  | some [] => htonl 0
  | some (c :: cs) => inetAddr (c :: cs)

/-- `fd_bind_local`. The port is an `int`, of which `htons` takes the low 16 bits. -/
def fdBindLocal (fd : ℕ) (addr : Option (List Byte)) (port : ℤ) (answers : SocketAnswers)
    (fds : Fds) : ℤ × Fds :=
  let (_, fds) := sockCall answers.reuseaddr (fun k => { k with reuseaddr := true }) fd fds
  let addrin := (localAddr inetAddr addr, htons (BitVec.ofInt 16 port))
  let (r, fds) := sockCall answers.bind (fun k => { k with bound := some addrin }) fd fds
  if r = -1 then (-1, fds) else (0, fds)

/-- `IFNAMSIZ`. -/
def ifnamsiz : ℕ := 16

/-- `fd_bind_device`. -/
def fdBindDevice (fd : ℕ) (devname : Option (List Byte)) (answers : SocketAnswers) (fds : Fds) :
    ℤ × Fds :=
  match devname with
  | none => (0, fds)
  | some devname =>
    -- `strncpy`
    let ifrName := devname.take ifnamsiz
    let (r, fds) :=
      sockCall answers.bindtodevice (fun k => { k with device := some ifrName }) fd fds
    if r = -1 then (-1, fds) else (0, fds)

/-- What `fd_create_socket` is asked for. -/
structure SocketRequest where
  proto : ℤ
  devname : Option (List Byte)
  localAddr : Option (List Byte)
  port : ℤ

/-- `fd_create_socket`. -/
def fdCreateSocket (req : SocketRequest) (answers : SocketAnswers) (fds : Fds) : ℤ × Fds :=
  match answers.socket with
  | none => (-1, fds)
  | some (fd, flags) =>
    let fds := Function.update fds fd (some ⟨req.proto, false, none, none, flags⟩)
    let (r, fds) := fdBindLocal inetAddr fd req.localAddr req.port answers fds
    if r = -1 then (-1, (close fd fds).2)
    else
      let (r, fds) := fdBindDevice fd req.devname answers fds
      if r = -1 then (-1, (close fd fds).2) else (fd, fds)

/-- `O_NONBLOCK`. -/
def oNonblock : BitVec 32 := 0x800

/-- `fd_set_noblock`. -/
def fdSetNoblock (fd : ℕ) (noblock : ℤ) (fds : Fds) : ℤ × Fds :=
  -- `fcntl(fd, F_GETFL, 0)`
  let opt : BitVec 32 := match fds fd with
    | none => -1
    | some k => k.flags
  let opt := if noblock = 1 then opt ||| oNonblock else opt &&& ~~~oNonblock
  -- `fcntl(fd, F_SETFL, opt)`
  sockCall true (fun k => { k with flags := opt }) fd fds

/-- The calls. -/
inductive SocketCall
  | create (req : SocketRequest) (answers : SocketAnswers)
  | noblock (fd : ℕ) (noblock : ℤ)
  | close (fd : ℕ)

/-- What a call returns, and the table it leaves. -/
def socketStep (fds : Fds) : SocketCall → Except Fault (ℤ × Fds)
  | .create req answers => .ok (fdCreateSocket inetAddr req answers fds)
  | .noblock fd noblock => .ok (fdSetNoblock fd noblock fds)
  | .close fd => .ok (close fd fds)

end Functions

/-! ### The book of a caller -/

/-- What the caller notes of a descriptor. -/
structure SockEntry where
  proto : ℤ
  bound : Option (BitVec 32 × BitVec 16)
  device : Option (List Byte)
  flags : BitVec 32

/-- The descriptors the caller has. -/
abbrev Book := ℕ → Option SockEntry

/-- A socket as the caller knows it. Whether `SO_REUSEADDR` could be set it is not told. -/
def Sock.entry (k : Sock) : SockEntry := ⟨k.proto, k.bound, k.device, k.flags⟩

/-- The socket that was asked for, with the flags it came with. -/
def SocketRequest.entry (inetAddr : List Byte → BitVec 32) (req : SocketRequest)
    (flags : BitVec 32) : SockEntry where
  proto := req.proto
  bound := some (Vlstp.localAddr inetAddr req.localAddr, htons (BitVec.ofInt 16 req.port))
  device := req.devname.map (List.take ifnamsiz)
  flags := flags

/-- The entry with `O_NONBLOCK` set or not, and all other flags as they are. -/
def SockEntry.noblock (e : SockEntry) (noblock : ℤ) : SockEntry :=
  { e with flags := if noblock = 1 then e.flags ||| oNonblock else e.flags &&& ~~~oNonblock }

/-- No system call that matters fails: there is no device to bind to if none is named. -/
def SocketAnswers.Good (answers : SocketAnswers) (req : SocketRequest) : Prop :=
  answers.bind = true ∧ (req.devname = none ∨ answers.bindtodevice = true)

/-- **What the calls return, and what the caller notes.** A new descriptor is one that is not open.
-/
inductive BookMove (inetAddr : List Byte → BitVec 32) : Book → SocketCall × ℤ → Book → Prop
  | created {book : Book} {req : SocketRequest} {answers : SocketAnswers} {fd : ℕ}
      {flags : BitVec 32} (hsocket : answers.socket = some (fd, flags)) (hnew : book fd = none)
      (hgood : answers.Good req) :
      BookMove inetAddr book (.create req answers, fd)
        (Function.update book fd (some (req.entry inetAddr flags)))
  | failed {book : Book} {req : SocketRequest} {answers : SocketAnswers}
      (hnew : ∀ fd flags, answers.socket = some (fd, flags) → book fd = none)
      (hbad : answers.socket = none ∨ ¬ answers.Good req) :
      BookMove inetAddr book (.create req answers, -1) book
  | noblock {book : Book} {fd : ℕ} {e : SockEntry} (noblock : ℤ) (he : book fd = some e) :
      BookMove inetAddr book (.noblock fd noblock, 0)
        (Function.update book fd (some (e.noblock noblock)))
  | noblockClosed {book : Book} {fd : ℕ} (noblock : ℤ) (hfd : book fd = none) :
      BookMove inetAddr book (.noblock fd noblock, -1) book
  | closed {book : Book} {fd : ℕ} {e : SockEntry} (he : book fd = some e) :
      BookMove inetAddr book (.close fd, 0) (Function.update book fd none)
  | closedTwice {book : Book} {fd : ℕ} (hfd : book fd = none) :
      BookMove inetAddr book (.close fd, -1) book

/-- The book has in it what the table has. -/
def Matches (fds : Fds) (book : Book) : Prop := ∀ fd, (fds fd).map Sock.entry = book fd

section

variable {inetAddr : List Byte → BitVec 32} {fds : Fds} {book book' : Book} {fd : ℕ} {k : Sock}
  {req : SocketRequest} {answers : SocketAnswers} {flags : BitVec 32}

theorem Matches.update (h : Matches fds book) (fd : ℕ) (k : Option Sock) :
    Matches (Function.update fds fd k) (Function.update book fd (k.map Sock.entry)) := by
  intro fd'
  by_cases hfd : fd' = fd
  · subst hfd
    rw [Function.update_self, Function.update_self]
  · rw [Function.update_of_ne hfd, Function.update_of_ne hfd]
    exact h fd'

theorem Matches.none_iff (h : Matches fds book) : fds fd = none ↔ book fd = none := by
  rw [← h fd, Option.map_eq_none_iff]

/-! ### One call -/

theorem sockCall_open (ok : Bool) (change : Sock → Sock) :
    sockCall ok change fd (Function.update fds fd (some k)) =
      if ok then (0, Function.update fds fd (some (change k)))
      else (-1, Function.update fds fd (some k)) := by
  unfold sockCall
  rw [Function.update_self]
  simp only [Function.update_idem]

/-- **`fd_bind_local`** on an open descriptor. Whether the first `setsockopt` fails makes no
difference to what it returns. -/
theorem fdBindLocal_open (addr : Option (List Byte)) (port : ℤ) :
    fdBindLocal inetAddr fd addr port answers (Function.update fds fd (some k)) =
      if answers.bind then
        (0, Function.update fds fd (some
          { k with
            reuseaddr := answers.reuseaddr || k.reuseaddr
            bound := some (localAddr inetAddr addr, htons (BitVec.ofInt 16 port)) }))
      else
        (-1, Function.update fds fd
          (some { k with reuseaddr := answers.reuseaddr || k.reuseaddr })) := by
  have hreuse : (sockCall answers.reuseaddr (fun k => { k with reuseaddr := true }) fd
      (Function.update fds fd (some k))).2 =
        Function.update fds fd (some { k with reuseaddr := answers.reuseaddr || k.reuseaddr }) := by
    rw [sockCall_open]
    cases answers.reuseaddr with
    | false => rfl
    | true => rfl
  simp only [fdBindLocal, hreuse]
  rw [sockCall_open]
  cases answers.bind with
  | false => rfl
  | true => rfl

/-- **`fd_bind_device`** on an open descriptor. -/
theorem fdBindDevice_open (devname : Option (List Byte)) :
    fdBindDevice fd devname answers (Function.update fds fd (some k)) =
      match devname with
      | none => (0, Function.update fds fd (some k))
      | some devname =>
        if answers.bindtodevice then
          (0, Function.update fds fd (some { k with device := some (devname.take ifnamsiz) }))
        else (-1, Function.update fds fd (some k)) := by
  cases devname with
  | none => rfl
  | some devname =>
    simp only [fdBindDevice, sockCall_open]
    cases answers.bindtodevice with
    | false => rfl
    | true => rfl

/-- Closing a new descriptor leaves the table as it was before. -/
theorem close_new (hnew : fds fd = none) :
    (close fd (Function.update fds fd (some k))).2 = fds := by
  unfold close
  rw [Function.update_self]
  calc Function.update (Function.update fds fd (some k)) fd none
      = Function.update fds fd none := Function.update_idem ..
    _ = fds := by rw [← hnew, Function.update_eq_self]

/-- **`fd_create_socket`**, when no system call that matters fails. -/
theorem fdCreateSocket_good (hsocket : answers.socket = some (fd, flags))
    (hgood : answers.Good req) :
    ∃ k, fdCreateSocket inetAddr req answers fds = (↑fd, Function.update fds fd (some k)) ∧
      k.entry = req.entry inetAddr flags := by
  obtain ⟨hbind, hdevice⟩ := hgood
  simp only [fdCreateSocket, hsocket, fdBindLocal_open, hbind, if_true]
  rw [if_neg (by decide), fdBindDevice_open]
  cases hname : req.devname with
  | none =>
    refine ⟨_, rfl, ?_⟩
    simp only [Sock.entry, SocketRequest.entry, hname]
    rfl
  | some devname =>
    obtain hdev : answers.bindtodevice = true := hdevice.resolve_left (by simp [hname])
    simp only [hdev, if_true]
    refine ⟨_, rfl, ?_⟩
    simp only [Sock.entry, SocketRequest.entry, hname]
    rfl

/-- **`fd_create_socket`**, when one fails: it returns -1, and what was opened is closed. -/
theorem fdCreateSocket_bad
    (hnew : ∀ fd flags, answers.socket = some (fd, flags) → fds fd = none)
    (hbad : answers.socket = none ∨ ¬ answers.Good req) :
    fdCreateSocket inetAddr req answers fds = (-1, fds) := by
  cases hsocket : answers.socket with
  | none => simp only [fdCreateSocket, hsocket]
  | some new =>
    obtain ⟨fd, flags⟩ := new
    have hbad : ¬ answers.Good req := hbad.resolve_left (by simp [hsocket])
    simp only [fdCreateSocket, hsocket, fdBindLocal_open]
    cases hbind : answers.bind with
    | false =>
      simp only [Bool.false_eq_true, if_false, if_true]
      rw [close_new (hnew fd flags hsocket)]
    | true =>
      simp only [if_true]
      rw [if_neg (by decide), fdBindDevice_open]
      cases hname : req.devname with
      | none => exact absurd ⟨hbind, Or.inl hname⟩ hbad
      | some devname =>
        cases hdev : answers.bindtodevice with
        | false =>
          simp only [Bool.false_eq_true, if_false, if_true]
          rw [close_new (hnew fd flags hsocket)]
        | true => exact absurd ⟨hbind, Or.inr hdev⟩ hbad

/-- **One call.** -/
theorem BookMove.step {call : SocketCall} {r : ℤ} (hmove : BookMove inetAddr book (call, r) book')
    (h : Matches fds book) :
    ∃ fds', socketStep inetAddr fds call = .ok (r, fds') ∧ Matches fds' book' := by
  cases hmove with
  | @created req answers fd flags hsocket hnew hgood =>
    obtain ⟨k, hcreate, hk⟩ : ∃ k, fdCreateSocket inetAddr req answers fds =
        (↑fd, Function.update fds fd (some k)) ∧ k.entry = req.entry inetAddr flags :=
      fdCreateSocket_good hsocket hgood
    refine ⟨_, congrArg Except.ok hcreate, ?_⟩
    have hmatch := h.update fd (some k)
    rwa [Option.map_some, hk] at hmatch
  | failed hnew hbad =>
    exact ⟨fds, congrArg Except.ok
      (fdCreateSocket_bad (fun fd flags hfd => h.none_iff.mpr (hnew fd flags hfd)) hbad), h⟩
  | @noblock fd e noblock he =>
    obtain ⟨k, hk, rfl⟩ := Option.map_eq_some_iff.mp ((h fd).trans he)
    refine ⟨_, ?_, h.update fd (some { k with flags := (k.entry.noblock noblock).flags })⟩
    simp only [socketStep, fdSetNoblock, sockCall, hk, if_true]
    rfl
  | @noblockClosed fd noblock hfd =>
    have hnone := h.none_iff.mpr hfd
    refine ⟨fds, ?_, h⟩
    simp only [socketStep, fdSetNoblock, sockCall, hnone]
  | @closed fd e he =>
    obtain ⟨k, hk, rfl⟩ := Option.map_eq_some_iff.mp ((h fd).trans he)
    refine ⟨_, ?_, h.update fd none⟩
    simp only [socketStep, close, hk]
  | @closedTwice fd hfd =>
    have hnone := h.none_iff.mpr hfd
    refine ⟨fds, ?_, h⟩
    simp only [socketStep, close, hnone]

/-! ### Any run -/

/-- **No descriptor is lost.** After every run of calls, whatever the system calls answer, the
kernel has open just the descriptors the caller has in its book, each bound and with the flags as
the caller noted. -/
theorem descriptors_accounted {trace : List (SocketCall × ℤ)}
    (hrun : Run (BookMove inetAddr) (fun _ => none) trace book) :
    ∃ fds, exec (socketStep inetAddr) (fun _ => none) (trace.map Prod.fst) =
        .ok (trace.map Prod.snd, fds) ∧ Matches fds book :=
  hrun.returns_trace (fun _ => rfl) fun _ _ _ _ _ h hmove => hmove.step h

end

/-- A socket that cannot be bound to its device; then one that can, on the same descriptor, which is
made not to block and keeps the flag for reading and writing. -/
theorem descriptors_accounted_again :
    let req : SocketRequest := ⟨2, some [101#8, 116#8, 104#8, 48#8], none, 9000⟩
    ∃ fds book, exec (socketStep fun _ => 0) (fun _ => none)
        [.create req ⟨some (3, 2), true, true, false⟩, .create req ⟨some (3, 2), true, true, true⟩,
          .noblock 3 1] = .ok ([-1, 3, 0], fds) ∧
      Matches fds book ∧ (book 3).map SockEntry.flags = some (2 ||| oNonblock) := by
  intro req
  have hbad : ¬ SocketAnswers.Good ⟨some (3, 2), true, true, false⟩ req := by
    rintro ⟨-, hname | hdevice⟩
    · cases hname
    · cases hdevice
  have h₁ : Run (BookMove fun _ => 0) (fun _ => none)
      [(.create req ⟨some (3, 2), true, true, false⟩, -1)] fun _ => none :=
    Run.nil.snoc (.failed (fun _ _ _ => rfl) (Or.inr hbad))
  have hgood : SocketAnswers.Good ⟨some (3, 2), true, true, true⟩ req := ⟨rfl, Or.inr rfl⟩
  have h₂ := h₁.snoc (@BookMove.created _ _ req ⟨some (3, 2), true, true, true⟩ 3 2 rfl rfl hgood)
  have h₃ := h₂.snoc (.noblock 1 (Function.update_self ..))
  obtain ⟨fds, hexec, hmatch⟩ := descriptors_accounted h₃
  refine ⟨fds, _, hexec, hmatch, ?_⟩
  rw [Function.update_self]
  exact congrArg some (by decide)

end Vlstp
