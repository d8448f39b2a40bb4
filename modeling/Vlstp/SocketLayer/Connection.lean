import Mathlib.Algebra.BigOperators.Group.List.Basic
import Mathlib.Algebra.Ring.Int.Defs
import Vlstp.Framework.Reach
import Vlstp.SocketLayer

/-!
# A connection (`fd_write` at one end, `fd_read` at the other)

`fd_write` makes several calls of `send`, and the peer may call `fd_read` between any two of them.
Here the turns of its loop are steps of their own (`fdWriteLoop_eq_turn`), and so is every call of
`fd_read`; a run interleaves them as it likes. The socket is a stream: what `send` accepts is added
to the bytes in flight, and `recv` takes the first of these.

Whatever `send` and `recv` answer, the bytes `fd_read` has handed out followed by those in flight
are the bytes `send` has accepted, in order (`ConnInv`). So no byte is lost, doubled or out of place
on the way from one function to the other, and as long as `fd_write` does not return -1 its values
tell all there is to know: a caller who goes on with what they say is left over sends its message
once (`connection_delivers`).
-/

namespace Vlstp

/-! ### One turn of `fd_write` -/

/-- Where `fd_write` stands: its variables, and the calls of `send` it has made. -/
structure WriteAt where
  output : ℕ
  writeBytes : ℕ
  writes : ℕ
  calls : List SendCall

/-- The calls of `send` after one more, which gives this answer. -/
def WriteAt.sent (s : WriteAt) (data : List Byte) (answer : SendResult) : List SendCall :=
  s.calls ++ [⟨(data.drop s.output).take s.writeBytes, answer⟩]

/-- A turn of the loop of `fd_write`, when `send` gives this answer: it goes on, or returns. -/
def fdWriteTurn (data : List Byte) (s : WriteAt) (answer : SendResult) : WriteAt ⊕ ℤ :=
  match answer with
  | .failed errno => .inr (if errno = eagain then s.writes else -1)
  | .accepted bytes =>
    if bytes = 0 then .inr (-1)
    else if s.writeBytes - bytes > 0 then
      .inl ⟨s.output + bytes, s.writeBytes - bytes, s.writes + bytes, s.sent data answer⟩
    else .inr ↑(s.writes + bytes)

/-- `fd_write` is its turns, one after the other. -/
theorem fdWriteLoop_eq_turn (send : SendOracle) (data : List Byte) (fuel : ℕ) (s : WriteAt) :
    let answer := send.answer s.calls.length s.writeBytes
    fdWriteLoop send data (fuel + 1) s.output s.writeBytes s.writes s.calls =
      match fdWriteTurn data s answer with
      | .inl s' => fdWriteLoop send data fuel s'.output s'.writeBytes s'.writes s'.calls
      | .inr r => .ok (r, s.sent data answer) := by
  intro answer
  cases hanswer : answer with
  | failed errno => exact fdWriteLoop_of_failed hanswer
  | accepted bytes =>
    by_cases hbytes : bytes = 0
    · subst hbytes
      exact fdWriteLoop_of_accepted_zero hanswer
    · rw [fdWriteLoop_of_accepted hanswer hbytes]
      simp only [fdWriteTurn, if_neg hbytes]
      by_cases hmore : s.writeBytes - bytes > 0
      · rw [if_pos hmore, if_pos hmore]
        rfl
      · rw [if_neg hmore, if_neg hmore]
        rfl

/-- `send` gives just the answers of these calls. -/
def Answered (send : SendOracle) (calls : List SendCall) : Prop :=
  ∀ k c, calls[k]? = some c → send.answer k c.offered.length = c.result

/-- A `send` that gives the answers of these calls, if they accept no more than is offered. -/
def replay (calls : List SendCall) : SendOracle where
  answer k n :=
    match calls[k]? with
    | none => .failed eagain
    | some c =>
      match c.result with
      | .failed errno => .failed errno
      | .accepted bytes => if bytes ≤ n then .accepted bytes else .failed eagain
  le := by
    intro k n bytes h
    cases hc : calls[k]? with
    | none => simp [hc] at h
    | some c =>
      cases hr : c.result with
      | failed errno => simp [hc, hr] at h
      | accepted bytes' =>
        by_cases hle : bytes' ≤ n
        · obtain rfl : bytes' = bytes := by simpa [hc, hr, hle] using h
          exact hle
        · simp [hc, hr, hle] at h

theorem answered_replay {calls : List SendCall}
    (hlegal : ∀ c ∈ calls, ∀ bytes, c.result = .accepted bytes → bytes ≤ c.offered.length) :
    Answered (replay calls) calls := by
  intro k c hc
  have hmem := List.mem_of_getElem? hc
  cases hr : c.result with
  | failed errno => simp [replay, hc, hr]
  | accepted bytes => simp [replay, hc, hr, hlegal c hmem bytes hr]

/-- A call of `fd_write`. -/
structure WriteCall where
  data : List Byte
  len : ℕ
  len_le : len ≤ data.length

/-- The turns taken so far are those `fd_write` takes when `send` gives these answers. -/
structure Follows (w : WriteCall) (s : WriteAt) : Prop where
  writing : Writing w.data w.len s.output s.writeBytes s.writes s.calls
  legal : ∀ c ∈ s.calls, ∀ bytes, c.result = .accepted bytes → bytes ≤ c.offered.length
  code : ∀ send, Answered send s.calls → ∃ fuel, s.writeBytes < fuel ∧
    fdWrite send w.data w.len = fdWriteLoop send w.data fuel s.output s.writeBytes s.writes s.calls

/-- A call of `fd_write` that has returned. -/
structure Written where
  call : WriteCall
  value : ℤ
  calls : List SendCall

/-- The call has run as `fd_write` does, and its value tells what was accepted. -/
structure Written.Sound (e : Written) : Prop where
  code : ∃ send, fdWrite send e.call.data e.call.len = .ok (e.value, e.calls)
  told : ∃ n, n ≤ e.call.len ∧ wire e.calls = e.call.data.take n ∧ (e.value = n ∨ e.value = -1)

section

variable {w : WriteCall} {s s' : WriteAt} {answer : SendResult} {r : ℤ}

theorem Follows.start (w : WriteCall) : Follows w ⟨0, w.len, 0, []⟩ where
  writing := ⟨rfl, Nat.zero_add _, rfl⟩
  legal _ hc := absurd hc List.not_mem_nil
  code _ _ := ⟨w.len + 1, Nat.lt_succ_self _, rfl⟩

/-- `send` is offered what is left to write. -/
theorem Follows.offered_length (hs : Follows w s) :
    ((w.data.drop s.output).take s.writeBytes).length = s.writeBytes := by
  have htotal := hs.writing.total
  have houtput := hs.writing.output_eq
  have hlen := w.len_le
  rw [List.length_take, List.length_drop]
  omega

/-- One turn more is one turn more of `fd_write`. -/
theorem Follows.turn_code (hs : Follows w s) {send : SendOracle}
    (hsend : Answered send (s.sent w.data answer)) :
    ∃ fuel, s.writeBytes ≤ fuel ∧ fdWrite send w.data w.len =
      match fdWriteTurn w.data s answer with
      | .inl s' => fdWriteLoop send w.data fuel s'.output s'.writeBytes s'.writes s'.calls
      | .inr r => .ok (r, s.sent w.data answer) := by
  have hbefore : Answered send s.calls := by
    intro k c hc
    obtain ⟨hk, -⟩ := List.getElem?_eq_some_iff.mp hc
    exact hsend k c ((List.getElem?_append_left hk).trans hc)
  have hlast : send.answer s.calls.length s.writeBytes = answer := by
    have hthis := hsend s.calls.length _ (List.getElem?_concat_length ..)
    rwa [hs.offered_length] at hthis
  obtain ⟨fuel, hfuel, hcode⟩ := hs.code send hbefore
  obtain ⟨fuel, rfl⟩ : ∃ n, fuel = n + 1 := ⟨fuel - 1, by omega⟩
  refine ⟨fuel, by omega, hcode.trans ?_⟩
  rw [fdWriteLoop_eq_turn, hlast]

theorem Follows.sent_legal (hs : Follows w s)
    (hle : ∀ bytes, answer = .accepted bytes → bytes ≤ s.writeBytes) :
    ∀ c ∈ s.sent w.data answer, ∀ bytes, c.result = .accepted bytes →
      bytes ≤ c.offered.length := by
  intro c hc bytes hbytes
  rcases List.mem_append.mp hc with hc | hc
  · exact hs.legal c hc bytes hbytes
  · obtain rfl := List.mem_singleton.mp hc
    rw [hs.offered_length]
    exact hle bytes hbytes

/-- **A turn** after which the loop goes on. -/
theorem Follows.turn (hs : Follows w s)
    (hle : ∀ bytes, answer = .accepted bytes → bytes ≤ s.writeBytes)
    (hturn : fdWriteTurn w.data s answer = .inl s') :
    Follows w s' ∧ s'.calls = s.sent w.data answer := by
  have hlegal := hs.sent_legal hle
  have hcode : ∀ send, Answered send (s.sent w.data answer) → _ := fun _ => hs.turn_code
  rw [hturn] at hcode
  cases answer with
  | failed errno => cases hturn
  | accepted bytes =>
    by_cases hbytes : bytes = 0
    · rw [fdWriteTurn, if_pos hbytes] at hturn
      cases hturn
    · by_cases hmore : s.writeBytes - bytes > 0
      · rw [fdWriteTurn, if_neg hbytes, if_pos hmore] at hturn
        cases hturn
        refine ⟨⟨hs.writing.step (hle bytes rfl), hlegal, fun send hsend => ?_⟩, rfl⟩
        obtain ⟨fuel, hfuel, hcode⟩ := hcode send hsend
        exact ⟨fuel, by change s.writeBytes - bytes < fuel; omega, hcode⟩
      · rw [fdWriteTurn, if_neg hbytes, if_neg hmore] at hturn
        cases hturn

/-- **A turn** with which it returns. -/
theorem Follows.last (hs : Follows w s)
    (hle : ∀ bytes, answer = .accepted bytes → bytes ≤ s.writeBytes)
    (hturn : fdWriteTurn w.data s answer = .inr r) :
    Written.Sound ⟨w, r, s.sent w.data answer⟩ := by
  have htotal := hs.writing.total
  have hwire := hs.writing.wire_eq
  have hwrites : s.writes ≤ w.len := by omega
  constructor
  case code =>
    obtain ⟨_, -, hcode⟩ := hs.turn_code (answered_replay (hs.sent_legal hle))
    rw [hturn] at hcode
    exact ⟨_, hcode⟩
  case told =>
    cases answer with
    | failed errno =>
      have hsame := wire_snoc_failed s.calls ((w.data.drop s.output).take s.writeBytes)
        (Or.inl ⟨errno, rfl⟩)
      cases hturn
      refine ⟨s.writes, hwrites, hsame.trans hwire, ?_⟩
      by_cases hagain : errno = eagain
      · exact Or.inl (if_pos hagain)
      · exact Or.inr (if_neg hagain)
    | accepted bytes =>
      by_cases hbytes : bytes = 0
      · subst hbytes
        have hsame := wire_snoc_failed s.calls ((w.data.drop s.output).take s.writeBytes)
          (Or.inr rfl)
        cases hturn
        exact ⟨s.writes, hwrites, hsame.trans hwire, Or.inr rfl⟩
      · have hbound := hle bytes rfl
        have hstep := hs.writing.step hbound
        by_cases hmore : s.writeBytes - bytes > 0
        · rw [fdWriteTurn, if_neg hbytes, if_pos hmore] at hturn
          cases hturn
        · rw [fdWriteTurn, if_neg hbytes, if_neg hmore] at hturn
          cases hturn
          have hsum : s.writes + bytes ≤ w.len := by omega
          exact ⟨s.writes + bytes, hsum, hstep.wire_eq, Or.inl rfl⟩

end

/-! ### `fd_read` -/

/-- What `recv` answers: -1 with an `errno`, or the bytes it has put into the buffer. -/
inductive RecvResult
  | failed (errno : ℕ)
  | received (bytes : List Byte)

/-- The bytes `recv` has put into the buffer. -/
def RecvResult.buf : RecvResult → List Byte
  | .failed _ => []
  | .received bytes => bytes

/-- `fd_read`. -/
def fdRead (answer : RecvResult) : ℤ :=
  match answer with
  | .failed errno => if errno = eagain then 0 else -1
  | .received bytes => if bytes.length = 0 then -1 else bytes.length

/-- The bytes `fd_read` hands to its caller: as many of the buffer as it returns. -/
def handedOut (answer : RecvResult) : List Byte := answer.buf.take (fdRead answer).toNat

/-- `fd_read` hands out just what `recv` has taken from the stream. -/
theorem handedOut_eq (answer : RecvResult) : handedOut answer = answer.buf := by
  cases answer with
  | failed errno => exact List.take_nil
  | received bytes =>
    by_cases hlen : bytes.length = 0
    · obtain rfl := List.eq_nil_of_length_eq_zero hlen
      exact List.take_nil
    · have hvalue : fdRead (.received bytes) = bytes.length := if_neg hlen
      unfold handedOut
      rw [hvalue, Int.toNat_natCast]
      exact List.take_length

/-! ### The connection -/

/-- A connection: the bytes in flight, the call of `fd_write` under way and those that have
returned, and the bytes `fd_read` has handed out. -/
structure Conn where
  inFlight : List Byte
  call : Option (WriteCall × WriteAt)
  returned : List Written
  received : List Byte

/-- Nothing sent yet. -/
def Conn.start : Conn := ⟨[], none, [], []⟩

/-- `fd_write` is called, `send` gives it an answer, or `fd_read` is called and `recv` answers. -/
inductive ConnEvent
  | write (w : WriteCall)
  | send (answer : SendResult)
  | read (len : ℕ) (answer : RecvResult)

/-- The connection after a turn of `fd_write`. What `send` has accepted is in flight now. -/
def Conn.afterSend (c : Conn) (w : WriteCall) (s : WriteAt) (answer : SendResult) : Conn :=
  let offered := (w.data.drop s.output).take s.writeBytes
  let inFlight := c.inFlight ++ (SendCall.mk offered answer).taken
  match fdWriteTurn w.data s answer with
  | .inl s' => ⟨inFlight, some (w, s'), c.returned, c.received⟩
  | .inr r => ⟨inFlight, none, c.returned ++ [⟨w, r, s.sent w.data answer⟩], c.received⟩

/-- **The steps of a connection.** `send` accepts no more than it is offered, and `recv` takes the
first of the bytes in flight, no more than the buffer has room for. -/
inductive ConnMove : Conn → ConnEvent → Conn → Prop
  | write {c : Conn} {w : WriteCall} (hidle : c.call = none) :
      ConnMove c (.write w) { c with call := some (w, ⟨0, w.len, 0, []⟩) }
  | send {c : Conn} {w : WriteCall} {s : WriteAt} {answer : SendResult}
      (hcall : c.call = some (w, s))
      (hle : ∀ bytes, answer = .accepted bytes → bytes ≤ s.writeBytes) :
      ConnMove c (.send answer) (c.afterSend w s answer)
  | read {c : Conn} {len : ℕ} {answer : RecvResult} (hfirst : answer.buf <+: c.inFlight)
      (hroom : answer.buf.length ≤ len) :
      ConnMove c (.read len answer)
        { c with
          inFlight := c.inFlight.drop answer.buf.length
          received := c.received ++ handedOut answer }

/-! ### What holds of every run -/

/-- The calls of `send` the call of `fd_write` under way has made. -/
def Conn.underway (c : Conn) : List SendCall :=
  match c.call with
  | none => []
  | some (_, s) => s.calls

/-- The bytes `send` has accepted, in all calls of `fd_write`. -/
def Conn.accepted (c : Conn) : List Byte :=
  c.returned.flatMap (fun e => wire e.calls) ++ wire c.underway

/-- **The invariant.** What was handed out and what is in flight are what `send` has accepted. -/
structure ConnInv (c : Conn) : Prop where
  stream : c.received ++ c.inFlight = c.accepted
  call : ∀ w s, c.call = some (w, s) → Follows w s
  returned : ∀ e ∈ c.returned, e.Sound

section

variable {c c' : Conn} {w : WriteCall} {s : WriteAt} {answer : SendResult}

theorem connInv_start : ConnInv .start := by
  refine ⟨rfl, fun w s hcall => ?_, fun e he => ?_⟩
  · cases hcall
  · cases he

/-- A turn of `fd_write`: what is accepted comes last in the stream. -/
theorem ConnInv.send (hc : ConnInv c) (hcall : c.call = some (w, s))
    (hle : ∀ bytes, answer = .accepted bytes → bytes ≤ s.writeBytes) :
    ConnInv (c.afterSend w s answer) := by
  have hw := hc.call w s hcall
  have hunder : c.underway = s.calls := by
    unfold Conn.underway
    rw [hcall]
  -- the stream, with the accepted bytes added at its end
  have hstream : c.received ++ (c.inFlight ++
      (SendCall.mk ((w.data.drop s.output).take s.writeBytes) answer).taken) =
        c.returned.flatMap (fun e => wire e.calls) ++ wire (s.sent w.data answer) := by
    rw [← List.append_assoc, hc.stream, Conn.accepted, hunder, WriteAt.sent, wire_snoc,
      List.append_assoc]
  unfold Conn.afterSend
  cases hturn : fdWriteTurn w.data s answer with
  | inl s' =>
    obtain ⟨hw', hcalls⟩ := hw.turn hle hturn
    refine ⟨?_, fun _ _ heq => ?_, hc.returned⟩
    · rw [← hcalls] at hstream
      exact hstream
    · cases heq
      exact hw'
  | inr r =>
    refine ⟨?_, fun _ _ heq => ?_, fun e he => ?_⟩
    · change c.received ++ _ = (c.returned ++ [_]).flatMap _ ++ wire []
      rw [hstream, List.flatMap_append, List.flatMap_singleton]
      exact (List.append_nil _).symm
    · cases heq
    · rcases List.mem_append.mp he with he | he
      · exact hc.returned e he
      · rw [List.mem_singleton.mp he]
        exact hw.last hle hturn

/-- **One step.** -/
theorem ConnInv.step {e : ConnEvent} (hc : ConnInv c) (hmove : ConnMove c e c') : ConnInv c' := by
  cases hmove with
  | @write w hidle =>
    refine ⟨?_, fun w' s hcall => ?_, hc.returned⟩
    · have hunder : c.underway = [] := by
        unfold Conn.underway
        rw [hidle]
      have hstream := hc.stream
      rw [Conn.accepted, hunder] at hstream
      exact hstream
    · cases hcall
      exact .start w
  | send hcall hle => exact hc.send hcall hle
  | @read len answer hfirst hroom =>
    obtain ⟨rest, hrest⟩ := hfirst
    refine ⟨?_, hc.call, hc.returned⟩
    change (c.received ++ handedOut answer) ++ c.inFlight.drop answer.buf.length = c.accepted
    rw [handedOut_eq, ← hc.stream, ← hrest, List.drop_left, List.append_assoc]

end

/-! ### What the caller can rely on -/

/-- The caller goes on with what the values returned say is left over of `msg`. -/
def Resumes (msg : List Byte) (l : List Written) : Prop :=
  ∀ pre e post, l = pre ++ e :: post → e.call.data = msg.drop (pre.map Written.value).sum.toNat

/-- What holds after a run. -/
structure Delivers (c : Conn) : Prop where
  in_order : c.received <+: c.accepted
  nothing_lost : c.received ++ c.inFlight = c.accepted
  returned : ∀ e ∈ c.returned, e.Sound
  resumed : ∀ msg, Resumes msg c.returned → (∀ e ∈ c.returned, e.value ≠ -1) → c.call = none →
    c.received ++ c.inFlight = msg.take (c.returned.map Written.value).sum.toNat

/-- Values that are not -1 add up, and what they tell of is the message up to their sum. -/
theorem Resumes.accepted {msg : List Byte} {l : List Written} (hl : Resumes msg l)
    (htold : ∀ e ∈ l, e.Sound)
    (hok : ∀ e ∈ l, e.value ≠ -1) :
    0 ≤ (l.map Written.value).sum ∧
      l.flatMap (fun e => wire e.calls) = msg.take (l.map Written.value).sum.toNat := by
  -- on the calls, the last one first
  induction l using List.reverseRecOn with
  | nil => exact ⟨Int.le_refl 0, List.take_zero.symm⟩
  | append_singleton l e ih =>
    obtain ⟨hnonneg, hwire⟩ := ih
      (fun pre e' post heq => hl pre e' (post ++ [e]) (by rw [heq, List.append_assoc]; rfl))
      (fun e' he' => htold e' (List.mem_append_left _ he'))
      (fun e' he' => hok e' (List.mem_append_left _ he'))
    have hlast : e ∈ l ++ [e] := List.mem_append_right _ (List.mem_singleton_self e)
    obtain ⟨n, -, hn, hvalue⟩ := (htold e hlast).told
    obtain hvalue : e.value = n := hvalue.resolve_right (hok e hlast)
    have hdata := hl l e [] rfl
    rw [List.map_append, List.sum_append, List.map_singleton, List.sum_singleton, hvalue]
    refine ⟨by omega, ?_⟩
    calc (l ++ [e]).flatMap (fun e => wire e.calls)
        = l.flatMap (fun e => wire e.calls) ++ wire e.calls := by
          rw [List.flatMap_append, List.flatMap_singleton]
      _ = msg.take (l.map Written.value).sum.toNat ++
            (msg.drop (l.map Written.value).sum.toNat).take n := by rw [hwire, hn, hdata]
      _ = msg.take ((l.map Written.value).sum.toNat + n) := List.take_add.symm
      _ = msg.take ((l.map Written.value).sum + n).toNat := by
          rw [show ((l.map Written.value).sum + n).toNat = (l.map Written.value).sum.toNat + n by
            omega]

/-- **The connection delivers.** After every run, however the turns of `fd_write` and the calls of
`fd_read` are interleaved and whatever `send` and `recv` answer, what was handed out is the first
part of what was accepted, and the rest is in flight. If no call has returned -1, a message whose
rest was written again and again, as the values say, is in the stream once. -/
theorem connection_delivers {events : List ConnEvent} {c : Conn}
    (hrun : Run ConnMove .start events c) : Delivers c := by
  have hc : ConnInv c := hrun.invariant_state ConnInv connInv_start fun _ _ _ hc hm => hc.step hm
  refine ⟨⟨c.inFlight, hc.stream⟩, hc.stream, hc.returned, fun msg hmsg hok hidle => ?_⟩
  have hunder : c.underway = [] := by
    unfold Conn.underway
    rw [hidle]
  rw [hc.stream, Conn.accepted, hunder, (hmsg.accepted hc.returned hok).2]
  exact List.append_nil _

/-- Three bytes, of which `send` accepts two before it would block; the peer reads in between. -/
theorem connection_delivers_resumed :
    ∃ c, Run ConnMove .start
        [.write ⟨[1#8, 2#8, 3#8], 3, by decide⟩, .send (.accepted 2), .read 1 (.received [1#8]),
          .send (.failed eagain), .write ⟨[3#8], 1, by decide⟩, .send (.accepted 1),
          .read 4 (.received [2#8, 3#8])] c ∧
      Delivers c ∧ c.returned.map Written.value = [2, 1] ∧ c.received = [1#8, 2#8, 3#8] := by
  have hone : ∀ m n : ℕ, m ≤ n → ∀ bytes, SendResult.accepted m = .accepted bytes → bytes ≤ n := by
    rintro m n hmn bytes ⟨⟩
    exact hmn
  have h₁ := Run.nil.snoc (ConnMove.write (c := .start) (w := ⟨[1#8, 2#8, 3#8], 3, by decide⟩) rfl)
  have h₂ := h₁.snoc (.send rfl (hone 2 3 (by decide)))
  have h₃ := h₂.snoc (@ConnMove.read _ 1 (.received [1#8]) (by decide) (by decide))
  have h₄ := h₃.snoc (@ConnMove.send _ _ _ (.failed eagain) rfl fun _ h => nomatch h)
  have h₅ := h₄.snoc (.write (w := ⟨[3#8], 1, by decide⟩) rfl)
  have h₆ := h₅.snoc (.send rfl (hone 1 1 (by decide)))
  have h₇ := h₆.snoc (@ConnMove.read _ 4 (.received [2#8, 3#8]) (by decide) (by decide))
  exact ⟨_, h₇, connection_delivers h₇, rfl, rfl⟩

end Vlstp
