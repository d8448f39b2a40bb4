import Mathlib.Data.List.Infix
import Vlstp.Framework.Heap

/-!
# Writing to a socket (`socket_layer.c`)

`fd_write` hands a buffer to `send` until all of it is accepted. What `send` answers is not the
program's to decide: a `SendOracle` gives the answer to every call, which is -1 with an `errno` or
the number of bytes accepted, at most as many as were offered.

Whatever the answers are, `fd_write` returns, and the bytes accepted are those of the buffer from
its start on, each once (`fdWrite_returns`). What can go wrong is the value it returns. Once some
bytes have been accepted, the answer `EAGAIN` makes it return their number, but any other failure
and the answer 0 make it return -1; and an empty buffer that `send` accepts counts as a failure,
too. Apart from that the value tells what has been accepted (`fdWrite_reports_iff`).
-/

namespace Vlstp

/-! ### Definitions -/

/-- `unsigned char`. -/
abbrev Byte := BitVec 8

/-- `EAGAIN`. -/
def eagain : ℕ := 11

/-- What `send` answers: -1 with an `errno`, or the number of bytes it accepted. -/
inductive SendResult
  | failed (errno : ℕ)
  | accepted (bytes : ℕ)
  deriving DecidableEq

/-- The answers of `send`: to call `k`, which offers `n` bytes. It accepts no more than that. -/
structure SendOracle where
  answer : (k n : ℕ) → SendResult
  le : ∀ {k n bytes : ℕ}, answer k n = .accepted bytes → bytes ≤ n

/-- A call of `send`. -/
structure SendCall where
  offered : List Byte
  result : SendResult

/-- The bytes a call has accepted. -/
def SendCall.taken (c : SendCall) : List Byte :=
  match c.result with
  | .failed _ => []
  | .accepted bytes => c.offered.take bytes

/-- The bytes accepted over all calls, in order. -/
def wire (calls : List SendCall) : List Byte := calls.flatMap SendCall.taken

/-- The `do`-`while` loop of `fd_write`. The pointer `output` is an index of the buffer, and `calls`
are the calls of `send` made so far. -/
def fdWriteLoop (send : SendOracle) (data : List Byte) :
    ℕ → ℕ → ℕ → ℕ → List SendCall → Except Fault (ℤ × List SendCall)
  | 0, _, _, _, _ => .error .diverge
  | fuel + 1, output, writeBytes, writes, calls =>
    let answer := send.answer calls.length writeBytes
    let calls := calls ++ [⟨(data.drop output).take writeBytes, answer⟩]
    match answer with
    | .failed errno => if errno = eagain then .ok (writes, calls) else .ok (-1, calls)
    | .accepted bytes =>
      if bytes = 0 then .ok (-1, calls)
      else if writeBytes - bytes > 0 then
        fdWriteLoop send data fuel (output + bytes) (writeBytes - bytes) (writes + bytes) calls
      else .ok (↑(writes + bytes), calls)

/-- `fd_write`. Every call of `send` but the last accepts a byte. -/
def fdWrite (send : SendOracle) (data : List Byte) (len : ℕ) :
    Except Fault (ℤ × List SendCall) :=
  fdWriteLoop send data (len + 1) 0 len 0 []

/-- The value `r` returned for `data[0..len)` tells what the calls have accepted: a number of bytes
is that of the bytes accepted, and -1 means that none was, after a call that failed or one that
accepted nothing of what it was offered. -/
structure Reports (data : List Byte) (len : ℕ) (r : ℤ) (calls : List SendCall) : Prop where
  in_order : wire calls <+: data.take len
  count : 0 ≤ r → r = (wire calls).length
  failure : r < 0 → r = -1 ∧ wire calls = [] ∧ ∃ c ∈ calls,
    (∃ errno, c.result = .failed errno) ∨ (c.offered ≠ [] ∧ c.result = .accepted 0)

/-- From call `k` on, with `n` bytes left to write: `send` goes on to accept bytes until none are
left, or answers `EAGAIN`. -/
inductive Unbroken (send : SendOracle) : ℕ → ℕ → Prop
  | done {k : ℕ} : Unbroken send k 0
  | again {k n : ℕ} (hagain : send.answer k n = .failed eagain) : Unbroken send k n
  | more {k n bytes : ℕ} (hbytes : send.answer k n = .accepted bytes) (hpos : bytes ≠ 0)
      (hrest : Unbroken send (k + 1) (n - bytes)) : Unbroken send k n

/-- `send` does not accept an empty buffer, and once it has accepted bytes it is not broken off. -/
def ServedToTheEnd (send : SendOracle) (len : ℕ) : Prop :=
  (len = 0 → send.answer 0 len ≠ .accepted 0) ∧
    ∀ bytes, send.answer 0 len = .accepted bytes → bytes ≠ 0 → Unbroken send 1 (len - bytes)

/-! ### The loop -/

/-- Where the loop stands: `writes` bytes have been accepted, and `write_bytes` are left. -/
structure Writing (data : List Byte) (len output writeBytes writes : ℕ) (calls : List SendCall) :
    Prop where
  output_eq : output = writes
  total : writes + writeBytes = len
  wire_eq : wire calls = data.take writes

section

variable {send : SendOracle} {data : List Byte} {len fuel output writeBytes writes bytes : ℕ}
  {calls : List SendCall}

theorem wire_snoc (calls : List SendCall) (c : SendCall) :
    wire (calls ++ [c]) = wire calls ++ c.taken := by
  simp [wire]

/-- A call that fails or accepts nothing takes nothing. -/
theorem wire_snoc_failed (calls : List SendCall) (offered : List Byte) {answer : SendResult}
    (hanswer : (∃ errno, answer = .failed errno) ∨ answer = .accepted 0) :
    wire (calls ++ [⟨offered, answer⟩]) = wire calls := by
  rw [wire_snoc]
  rcases hanswer with ⟨errno, rfl⟩ | rfl
  · exact List.append_nil _
  · exact List.append_nil _

/-- **One turn** that accepts bytes: they come next in the buffer. -/
theorem Writing.step (hw : Writing data len output writeBytes writes calls)
    (hle : bytes ≤ writeBytes) :
    Writing data len (output + bytes) (writeBytes - bytes) (writes + bytes)
      (calls ++ [⟨(data.drop output).take writeBytes, .accepted bytes⟩]) := by
  have htotal := hw.total
  have houtput := hw.output_eq
  refine ⟨by omega, by omega, ?_⟩
  calc wire (calls ++ [⟨(data.drop output).take writeBytes, .accepted bytes⟩])
      = data.take writes ++ ((data.drop output).take writeBytes).take bytes := by
        rw [wire_snoc, hw.wire_eq]
        rfl
    _ = data.take writes ++ (data.drop writes).take bytes := by
        rw [List.take_take, Nat.min_eq_left hle, houtput]
    _ = data.take (writes + bytes) := List.take_add.symm

/-! #### One turn, by the answer -/

theorem fdWriteLoop_of_failed {errno : ℕ}
    (hanswer : send.answer calls.length writeBytes = .failed errno) :
    fdWriteLoop send data (fuel + 1) output writeBytes writes calls =
      .ok (if errno = eagain then ↑writes else -1,
        calls ++ [⟨(data.drop output).take writeBytes, .failed errno⟩]) := by
  rw [fdWriteLoop, hanswer]
  by_cases hagain : errno = eagain
  · rw [if_pos hagain]
    exact if_pos hagain
  · rw [if_neg hagain]
    exact if_neg hagain

theorem fdWriteLoop_of_accepted_zero
    (hanswer : send.answer calls.length writeBytes = .accepted 0) :
    fdWriteLoop send data (fuel + 1) output writeBytes writes calls =
      .ok (-1, calls ++ [⟨(data.drop output).take writeBytes, .accepted 0⟩]) := by
  rw [fdWriteLoop, hanswer]
  exact if_pos rfl

theorem fdWriteLoop_of_accepted
    (hanswer : send.answer calls.length writeBytes = .accepted bytes) (hbytes : bytes ≠ 0) :
    fdWriteLoop send data (fuel + 1) output writeBytes writes calls =
      if writeBytes - bytes > 0 then
        fdWriteLoop send data fuel (output + bytes) (writeBytes - bytes) (writes + bytes)
          (calls ++ [⟨(data.drop output).take writeBytes, .accepted bytes⟩])
      else .ok (↑(writes + bytes),
        calls ++ [⟨(data.drop output).take writeBytes, .accepted bytes⟩]) := by
  rw [fdWriteLoop, hanswer]
  exact if_neg hbytes

/-! #### All turns -/

/-- **The loop returns**, whatever `send` answers. The bytes accepted are the first of the buffer,
and unless the value is -1 it is their number. -/
theorem Writing.returns (hw : Writing data len output writeBytes writes calls)
    (hfuel : writeBytes < fuel) :
    ∃ r calls' sent, fdWriteLoop send data fuel output writeBytes writes calls = .ok (r, calls') ∧
      writes ≤ sent ∧ sent ≤ len ∧ wire calls' = data.take sent ∧ (r = sent ∨ r = -1) := by
  -- on the turns left
  induction fuel generalizing output writeBytes writes calls with
  | zero => omega
  | succ fuel ih =>
    have htotal := hw.total
    cases hanswer : send.answer calls.length writeBytes with
    | failed errno =>
      have hwire := wire_snoc_failed calls ((data.drop output).take writeBytes)
        (Or.inl ⟨errno, rfl⟩)
      refine ⟨_, _, writes, fdWriteLoop_of_failed hanswer, le_rfl, by omega,
        hwire.trans hw.wire_eq, ?_⟩
      by_cases hagain : errno = eagain
      · exact Or.inl (if_pos hagain)
      · exact Or.inr (if_neg hagain)
    | accepted bytes =>
      by_cases hbytes : bytes = 0
      · subst hbytes
        have hwire := wire_snoc_failed calls ((data.drop output).take writeBytes) (Or.inr rfl)
        exact ⟨-1, _, writes, fdWriteLoop_of_accepted_zero hanswer, le_rfl, by omega,
          hwire.trans hw.wire_eq, Or.inr rfl⟩
      · have hle := send.le hanswer
        have hstep := hw.step hle
        rw [fdWriteLoop_of_accepted hanswer hbytes]
        by_cases hmore : writeBytes - bytes > 0
        · rw [if_pos hmore]
          obtain ⟨r, calls', sent, hloop, hsent, hrest⟩ := ih hstep (by omega)
          exact ⟨r, calls', sent, hloop, by omega, hrest⟩
        · rw [if_neg hmore]
          exact ⟨_, _, writes + bytes, rfl, Nat.le_add_right .., by omega, hstep.wire_eq,
            Or.inl rfl⟩

/-! #### Being broken off -/

theorem not_unbroken_of_failed {k n errno : ℕ} (hpos : n > 0)
    (hanswer : send.answer k n = .failed errno) (hagain : errno ≠ eagain) :
    ¬ Unbroken send k n := by
  intro h
  cases h with
  | done => exact absurd hpos (lt_irrefl 0)
  | again h => exact hagain (SendResult.failed.inj (hanswer.symm.trans h))
  | more h _ _ => cases hanswer.symm.trans h

theorem not_unbroken_of_accepted_zero {k n : ℕ} (hpos : n > 0)
    (hanswer : send.answer k n = .accepted 0) : ¬ Unbroken send k n := by
  intro h
  cases h with
  | done => exact absurd hpos (lt_irrefl 0)
  | again h => cases hanswer.symm.trans h
  | more h hbytes _ => exact hbytes (SendResult.accepted.inj (hanswer.symm.trans h)).symm

theorem unbroken_iff_of_accepted {k n : ℕ} (hpos : n > 0)
    (hanswer : send.answer k n = .accepted bytes) (hbytes : bytes ≠ 0) :
    Unbroken send k n ↔ Unbroken send (k + 1) (n - bytes) := by
  refine ⟨fun h => ?_, .more hanswer hbytes⟩
  cases h with
  | done => exact absurd hpos (lt_irrefl 0)
  | again h => cases hanswer.symm.trans h
  | more h _ hrest =>
    obtain rfl := SendResult.accepted.inj (hanswer.symm.trans h)
    exact hrest

/-- **The loop does not return -1 exactly when `send` is not broken off.** -/
theorem fdWriteLoop_nonneg_iff {r : ℤ} {calls' : List SendCall} (hpos : writeBytes > 0)
    (hloop : fdWriteLoop send data fuel output writeBytes writes calls = .ok (r, calls')) :
    0 ≤ r ↔ Unbroken send calls.length writeBytes := by
  -- on the turns left
  induction fuel generalizing output writeBytes writes calls with
  | zero => cases hloop
  | succ fuel ih =>
    cases hanswer : send.answer calls.length writeBytes with
    | failed errno =>
      rw [fdWriteLoop_of_failed hanswer] at hloop
      cases hloop
      by_cases hagain : errno = eagain
      · rw [if_pos hagain]
        rw [hagain] at hanswer
        exact ⟨fun _ => .again hanswer, fun _ => Int.natCast_nonneg _⟩
      · rw [if_neg hagain]
        exact iff_of_false (by decide) (not_unbroken_of_failed hpos hanswer hagain)
    | accepted bytes =>
      by_cases hbytes : bytes = 0
      · subst hbytes
        rw [fdWriteLoop_of_accepted_zero hanswer] at hloop
        cases hloop
        exact iff_of_false (by decide) (not_unbroken_of_accepted_zero hpos hanswer)
      · rw [fdWriteLoop_of_accepted hanswer hbytes] at hloop
        rw [unbroken_iff_of_accepted hpos hanswer hbytes]
        by_cases hmore : writeBytes - bytes > 0
        · rw [if_pos hmore] at hloop
          have hrest := ih hmore hloop
          rwa [List.length_append] at hrest
        · rw [if_neg hmore] at hloop
          cases hloop
          have hdone : writeBytes - bytes = 0 := by omega
          rw [hdone]
          exact ⟨fun _ => .done, fun _ => Int.natCast_nonneg _⟩

/-! ### `fd_write` -/

/-- **`fd_write` returns**, whatever `send` answers. The bytes accepted are the first of the buffer,
and unless the value is -1 it is their number. -/
theorem fdWrite_returns (send : SendOracle) (data : List Byte) (len : ℕ) :
    ∃ r calls sent, fdWrite send data len = .ok (r, calls) ∧
      sent ≤ len ∧ wire calls = data.take sent ∧ (r = sent ∨ r = -1) := by
  have hstart : Writing data len 0 len 0 [] := ⟨rfl, Nat.zero_add len, rfl⟩
  have hfuel : len < len + 1 := Nat.lt_succ_self len
  obtain ⟨r, calls, sent, hok, hrest⟩ : ∃ r calls sent, fdWrite send data len = .ok (r, calls) ∧
      0 ≤ sent ∧ sent ≤ len ∧ wire calls = data.take sent ∧ (r = sent ∨ r = -1) :=
    hstart.returns hfuel
  exact ⟨r, calls, sent, hok, hrest.2⟩

/-- Once bytes have been accepted, the value returned tells how many exactly when it is not -1. -/
theorem reports_iff_nonneg {r : ℤ} {sent : ℕ} (hwire : wire calls = data.take sent)
    (hpos : 0 < sent) (hle : sent ≤ len) (hlen : len ≤ data.length) (hr : r = sent ∨ r = -1) :
    Reports data len r calls ↔ 0 ≤ r := by
  have hlength : (wire calls).length = sent := by
    rw [hwire, List.length_take]
    omega
  constructor
  · intro hreports
    by_contra hneg
    obtain ⟨-, hnil, -⟩ := hreports.failure (by omega)
    rw [hnil, List.length_nil] at hlength
    omega
  · intro hnonneg
    refine ⟨?_, fun _ => by omega, fun hneg => by omega⟩
    rw [hwire]
    exact List.take_prefix_take_left hle

/-- After a single call that took nothing the value 0 tells so. -/
theorem reports_zero {c : SendCall} (hwire : wire [c] = []) : Reports data len 0 [c] := by
  refine ⟨?_, fun _ => by rw [hwire]; rfl, fun h => absurd h (by decide)⟩
  rw [hwire]
  exact List.nil_prefix

/-- After a single call that took nothing the value -1 tells so exactly when the call failed, or was
offered something. -/
theorem reports_neg_one_iff {c : SendCall} (hwire : wire [c] = []) :
    Reports data len (-1) [c] ↔
      (∃ errno, c.result = .failed errno) ∨ (c.offered ≠ [] ∧ c.result = .accepted 0) := by
  constructor
  · intro hreports
    obtain ⟨-, -, c', hmem, hc'⟩ := hreports.failure (by decide)
    rwa [List.mem_singleton.mp hmem] at hc'
  · intro hc
    refine ⟨?_, fun h => absurd h (by decide), fun _ => ⟨rfl, hwire, c, ?_, hc⟩⟩
    · rw [hwire]
      exact List.nil_prefix
    · exact List.mem_singleton_self c

/-- If the first call accepts bytes, some have been accepted in the end, and their number is
returned exactly when `send` is not broken off afterwards. -/
theorem fdWrite_of_accepted (data : List Byte) (hanswer : send.answer 0 len = .accepted bytes)
    (hbytes : bytes ≠ 0) :
    ∃ r calls sent, fdWrite send data len = .ok (r, calls) ∧
      0 < sent ∧ sent ≤ len ∧ wire calls = data.take sent ∧ (r = sent ∨ r = -1) ∧
      (0 ≤ r ↔ Unbroken send 1 (len - bytes)) := by
  have hle := send.le hanswer
  have hstart : Writing data len 0 len 0 [] := ⟨rfl, Nat.zero_add len, rfl⟩
  obtain ⟨r, calls, sent, hok, hsent, hlen, hwire, hr⟩ :
      ∃ r calls sent, fdWrite send data len = .ok (r, calls) ∧
        0 + bytes ≤ sent ∧ sent ≤ len ∧ wire calls = data.take sent ∧ (r = sent ∨ r = -1) := by
    have hstep := hstart.step hle
    unfold fdWrite
    rw [fdWriteLoop_of_accepted hanswer hbytes]
    by_cases hmore : len - bytes > 0
    · rw [if_pos hmore]
      exact hstep.returns (by omega)
    · rw [if_neg hmore]
      exact ⟨_, _, 0 + bytes, rfl, le_rfl, by omega, hstep.wire_eq, Or.inl rfl⟩
  have hpos : len > 0 := by omega
  refine ⟨r, calls, sent, hok, by omega, hlen, hwire, hr, ?_⟩
  calc 0 ≤ r ↔ Unbroken send 0 len := fdWriteLoop_nonneg_iff hpos hok
    _ ↔ Unbroken send 1 (len - bytes) := unbroken_iff_of_accepted hpos hanswer hbytes

/-- **When `fd_write` keeps its promises.** It returns, with a value that tells what `send` has
accepted, exactly when `send` does not accept an empty buffer and does not break off what it has
begun: a failure after some bytes is `EAGAIN`, and 0 is no answer. -/
theorem fdWrite_reports_iff (send : SendOracle) (data : List Byte) (len : ℕ)
    (hlen : len ≤ data.length) :
    (∃ r calls, fdWrite send data len = .ok (r, calls) ∧ Reports data len r calls) ↔
      ServedToTheEnd send len := by
  have hone : ∀ {r : ℤ} {calls : List SendCall}, fdWrite send data len = .ok (r, calls) →
      ((∃ r calls, fdWrite send data len = .ok (r, calls) ∧ Reports data len r calls) ↔
        Reports data len r calls) := by
    intro r calls hok
    simp [hok]
  cases hanswer : send.answer 0 len with
  | failed errno =>
    -- nothing is accepted, and both 0 and -1 tell so
    have hno : ∀ bytes, send.answer 0 len ≠ .accepted bytes := by
      intro bytes h
      cases hanswer.symm.trans h
    have hwire := wire_snoc_failed [] (data.take len) (Or.inl ⟨errno, rfl⟩)
    rw [hone (fdWriteLoop_of_failed hanswer)]
    refine iff_of_true ?_ ⟨fun _ => hno 0, fun bytes h => absurd h (hno bytes)⟩
    by_cases hagain : errno = eagain
    · rw [if_pos hagain]
      exact reports_zero hwire
    · rw [if_neg hagain]
      exact (reports_neg_one_iff hwire).mpr (Or.inl ⟨errno, rfl⟩)
  | accepted bytes =>
    by_cases hbytes : bytes = 0
    · -- -1 tells so unless the buffer is empty
      subst hbytes
      have hwire := wire_snoc_failed [] ((data.drop 0).take len) (Or.inr rfl)
      have hoffered : (data.drop 0).take len = [] ↔ len = 0 := by
        rw [← List.length_eq_zero_iff, List.length_take, List.drop_zero, Nat.min_eq_left hlen]
      rw [hone (fdWriteLoop_of_accepted_zero hanswer), List.nil_append,
        reports_neg_one_iff hwire]
      constructor
      · rintro (⟨errno, h⟩ | ⟨hne, -⟩)
        · cases h
        · refine ⟨fun h0 => absurd (hoffered.mpr h0) hne, fun bytes h hbytes => ?_⟩
          exact absurd (SendResult.accepted.inj (hanswer.symm.trans h)).symm hbytes
      · intro hserved
        refine Or.inr ⟨fun hnil => ?_, rfl⟩
        exact hserved.1 (hoffered.mp hnil) hanswer
    · obtain ⟨r, calls, sent, hok, hpos, hsent, hwire, hr, hunbroken⟩ :=
        fdWrite_of_accepted data hanswer hbytes
      rw [hone hok, reports_iff_nonneg hwire hpos hsent hlen hr, hunbroken]
      constructor
      · intro h
        refine ⟨fun _ h0 => hbytes (SendResult.accepted.inj (hanswer.symm.trans h0)), ?_⟩
        intro bytes' hanswer' _
        obtain rfl := SendResult.accepted.inj (hanswer.symm.trans hanswer')
        exact h
      · intro h
        exact h.2 bytes hanswer hbytes

end

/-! ### One byte accepted, then a failure -/

/-- `EPIPE`. -/
def epipe : ℕ := 32

/-- A socket that accepts one byte and then fails with `errno`. -/
def acceptsOne (errno : ℕ) : SendOracle where
  answer k n := if k = 0 ∧ n ≠ 0 then .accepted 1 else .failed errno
  le := by
    intro k n bytes h
    by_cases hc : k = 0 ∧ n ≠ 0
    · rw [if_pos hc] at h
      cases h
      omega
    · rw [if_neg hc] at h
      cases h

/-- Of two bytes the first is on the wire when the peer closes the connection, and -1 is returned:
the caller cannot know. -/
theorem fdWrite_forgets_accepted :
    fdWrite (acceptsOne epipe) [7#8, 8#8] 2 =
        .ok (-1, [⟨[7#8, 8#8], .accepted 1⟩, ⟨[8#8], .failed epipe⟩]) ∧
      wire [⟨[7#8, 8#8], .accepted 1⟩, ⟨[8#8], .failed epipe⟩] = [7#8] ∧
      ¬ ∃ r calls, fdWrite (acceptsOne epipe) [7#8, 8#8] 2 = .ok (r, calls) ∧
        Reports [7#8, 8#8] 2 r calls := by
  refine ⟨rfl, rfl, ?_⟩
  rintro ⟨r, calls, hok, hreports⟩
  cases hok
  obtain ⟨-, hnil, -⟩ := hreports.failure (by decide)
  cases hnil

/-- When the socket would block after the first of two bytes, the value tells so. -/
theorem fdWrite_reports_eagain :
    ∃ r calls, fdWrite (acceptsOne eagain) [7#8, 8#8] 2 = .ok (r, calls) ∧
      Reports [7#8, 8#8] 2 r calls := by
  refine (fdWrite_reports_iff (acceptsOne eagain) [7#8, 8#8] 2 (by decide)).mpr ⟨by decide, ?_⟩
  intro bytes hbytes _
  cases hbytes
  exact .again rfl

end Vlstp
