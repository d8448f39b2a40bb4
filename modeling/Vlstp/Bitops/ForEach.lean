import Vlstp.Bitops

/-!
# Walking along the bits of a map (`bitops.h`)

The macros `for_each_set_bit`, `for_each_clear_bit` and their `_from` variants are `for` loops
around a body that may do anything with the memory, the map it walks along included. Each turn
searches the map as the body has left it, from behind the bit the turn was for.

So the body may change the map at this bit and before it, but not behind: whatever it does
otherwise, the loop is then a fold of the body over the bits that are set, or clear, at the start,
in order, and it ends (`forEachBitLoop_eq`, `forEachBit_visits`).
-/

namespace Vlstp

/-! ### The loops -/

section Loops

variable {σ : Type} (mem : σ → Mem) (addr : Ptr) (size : ℕ) (body : ℕ → σ → Except Fault σ)

/-- `for (; (bit) < (size); (bit) = next((bit) + 1))`. Every turn moves `bit` up. -/
def forEachBitLoop (next : ℕ → σ → Except Fault ℕ) : ℕ → ℕ → σ → Except Fault σ
  | 0, _, _ => .error .diverge
  | fuel + 1, bit, s =>
    if bit < size then do
      let s ← body bit s
      let bit ← next (bit + 1) s
      forEachBitLoop next fuel bit s
    else .ok s

/-- `for_each_set_bit`. -/
def forEachSetBit (s : σ) : Except Fault σ := do
  let bit ← findFirstBit addr size (mem s)
  forEachBitLoop size body (fun i s => findNextBit addr size i (mem s)) (size + 1) bit s

/-- `for_each_set_bit_from`. -/
def forEachSetBitFrom (bit : ℕ) (s : σ) : Except Fault σ := do
  let bit ← findNextBit addr size bit (mem s)
  forEachBitLoop size body (fun i s => findNextBit addr size i (mem s)) (size + 1) bit s

/-- `for_each_clear_bit`. -/
def forEachClearBit (s : σ) : Except Fault σ := do
  let bit ← findFirstZeroBit addr size (mem s)
  forEachBitLoop size body (fun i s => findNextZeroBit addr size i (mem s)) (size + 1) bit s

/-- `for_each_clear_bit_from`. -/
def forEachClearBitFrom (bit : ℕ) (s : σ) : Except Fault σ := do
  let bit ← findNextZeroBit addr size bit (mem s)
  forEachBitLoop size body (fun i s => findNextZeroBit addr size i (mem s)) (size + 1) bit s

end Loops

/-! ### What a loop does -/

section

variable {σ : Type} {mem : σ → Mem} {b n size : ℕ} {body : ℕ → σ → Except Fault σ} {s : σ}
  {w : ℕ → Word}

/-- **The rule of a loop.** `I i s` says in particular that a search from `i` on finds in `s` what
it would find at the start. If every turn keeps this behind the bit it is for, the loop runs its
body once for each of the bits that were there at the start, in order. -/
theorem forEachBitLoop_eq {p : ℕ → Bool} {next : ℕ → σ → Except Fault ℕ} (I : ℕ → σ → Prop)
    (hnext : ∀ i s, I i s → next i s = .ok (firstIn p i size))
    (hbody : ∀ i s s', i < size → I i s → body i s = .ok s' → I (i + 1) s')
    (hmono : ∀ i j s, i ≤ j → I i s → I j s) {fuel lo : ℕ} (hI : I lo s)
    (hfuel : size < fuel + lo) (hpos : 0 < fuel) :
    forEachBitLoop size body next fuel (firstIn p lo size) s =
      (positions p lo size).foldlM (fun s i => body i s) s := by
  -- on the turns left
  induction fuel generalizing lo s with
  | zero => exact absurd hpos (Nat.lt_irrefl 0)
  | succ fuel ih =>
    unfold forEachBitLoop
    by_cases hlt : firstIn p lo size < size
    · obtain ⟨hlo, -⟩ := (isFirst_firstIn p lo size).here hlt
      rw [if_pos hlt, positions_of_lt hlt, List.foldlM_cons]
      cases hs : body (firstIn p lo size) s with
      | error e => rfl
      | ok s' =>
        have hI' : I (firstIn p lo size + 1) s' :=
          hbody _ s s' hlt (hmono lo _ s hlo hI) hs
        rw [Except.ok_bind, Except.ok_bind, hnext _ s' hI', Except.ok_bind]
        exact ih hI' (by omega) (by omega)
    · rw [if_neg hlt, positions_of_le (Nat.not_lt.mp hlt)]
      rfl

/-- The bits from `i` on, up to the size, are those of the map `w`. -/
def BitsAhead (mem : σ → Mem) (b n size : ℕ) (w : ℕ → Word) (i : ℕ) (s : σ) : Prop :=
  ∃ v, (mem s).Holds b n v ∧ ∀ j, i ≤ j → j < size → bitAt v j = bitAt w j

theorem BitsAhead.mono {i j : ℕ} (h : BitsAhead mem b n size w i s) (hij : i ≤ j) :
    BitsAhead mem b n size w j s := by
  obtain ⟨v, hv, hbits⟩ := h
  exact ⟨v, hv, fun k hk => hbits k (hij.trans hk)⟩

/-- The first index depends only on the part of the sequence that is searched. -/
theorem firstIn_congr {p q : ℕ → Bool} {lo hi : ℕ} (h : ∀ j, lo ≤ j → j < hi → p j = q j) :
    firstIn p lo hi = firstIn q lo hi :=
  ((isFirst_firstIn p lo hi).congr h).eq_firstIn

theorem BitsAhead.findNextBit {i : ℕ} (h : BitsAhead mem b n size w i s)
    (hn : bitsToLongs size ≤ n) :
    Vlstp.findNextBit (some b) size i (mem s) = .ok (firstIn (bitAt w) i size) := by
  obtain ⟨v, hv, hbits⟩ := h
  rw [findNextBit_eq hv hn, firstIn_congr hbits]

theorem BitsAhead.findNextZeroBit {i : ℕ} (h : BitsAhead mem b n size w i s)
    (hn : bitsToLongs size ≤ n) :
    Vlstp.findNextZeroBit (some b) size i (mem s) =
      .ok (firstIn (fun i => !bitAt w i) i size) := by
  obtain ⟨v, hv, hbits⟩ := h
  rw [findNextZeroBit_eq hv hn, firstIn_congr fun j hlo hj => congrArg not (hbits j hlo hj)]

/-- What the four loops over the map `w` at `b` come to. -/
structure VisitsBits (mem : σ → Mem) (b size : ℕ) (body : ℕ → σ → Except Fault σ) (w : ℕ → Word)
    (s : σ) : Prop where
  set : forEachSetBit mem (some b) size body s =
    (positions (bitAt w) 0 size).foldlM (fun s i => body i s) s
  setFrom : ∀ bit, forEachSetBitFrom mem (some b) size body bit s =
    (positions (bitAt w) bit size).foldlM (fun s i => body i s) s
  clear : forEachClearBit mem (some b) size body s =
    (positions (fun i => !bitAt w i) 0 size).foldlM (fun s i => body i s) s
  clearFrom : ∀ bit, forEachClearBitFrom mem (some b) size body bit s =
    (positions (fun i => !bitAt w i) bit size).foldlM (fun s i => body i s) s

section

variable (hh : (mem s).Holds b n w) (hn : bitsToLongs size ≤ n)
  (hbody : ∀ i s s', i < size → BitsAhead mem b n size w i s → body i s = .ok s' →
    BitsAhead mem b n size w (i + 1) s')

include hh hn hbody

/-- The loops over set bits. -/
theorem forEachBitLoop_set (bit : ℕ) :
    forEachBitLoop size body (fun i s => findNextBit (some b) size i (mem s)) (size + 1)
        (firstIn (bitAt w) bit size) s =
      (positions (bitAt w) bit size).foldlM (fun s i => body i s) s :=
  forEachBitLoop_eq (BitsAhead mem b n size w) (fun _ _ h => h.findNextBit hn) hbody
    (fun _ _ _ hij h => h.mono hij) ⟨w, hh, fun _ _ _ => rfl⟩ (by omega) (Nat.succ_pos size)

/-- The loops over clear bits. -/
theorem forEachBitLoop_clear (bit : ℕ) :
    forEachBitLoop size body (fun i s => findNextZeroBit (some b) size i (mem s)) (size + 1)
        (firstIn (fun i => !bitAt w i) bit size) s =
      (positions (fun i => !bitAt w i) bit size).foldlM (fun s i => body i s) s :=
  forEachBitLoop_eq (BitsAhead mem b n size w) (fun _ _ h => h.findNextZeroBit hn) hbody
    (fun _ _ _ hij h => h.mono hij) ⟨w, hh, fun _ _ _ => rfl⟩ (by omega) (Nat.succ_pos size)

theorem forEachSetBit_eq :
    forEachSetBit mem (some b) size body s =
      (positions (bitAt w) 0 size).foldlM (fun s i => body i s) s := by
  rw [forEachSetBit, findFirstBit_eq hh hn, Except.ok_bind, forEachBitLoop_set hh hn hbody]

/-- **The loops visit the bits that are there at the start**, each once and in order, if the body
leaves the bits behind the one it is called for as they are. What it does to this bit, to those
before it, or to the rest of the memory makes no difference. -/
theorem forEachBit_visits : VisitsBits mem b size body w s := by
  constructor
  case set => exact forEachSetBit_eq hh hn hbody
  case setFrom =>
    intro bit
    rw [forEachSetBitFrom, findNextBit_eq hh hn, Except.ok_bind, forEachBitLoop_set hh hn hbody]
  case clear =>
    rw [forEachClearBit, findFirstZeroBit_eq hh hn, Except.ok_bind,
      forEachBitLoop_clear hh hn hbody]
  case clearFrom =>
    intro bit
    rw [forEachClearBitFrom, findNextZeroBit_eq hh hn, Except.ok_bind,
      forEachBitLoop_clear hh hn hbody]

end

end

/-- A body that clears the bit it is called for, on a map of three bits. -/
theorem forEachBit_visits_clearing :
    VisitsBits id 0 3 (fun i h => clearBit i (some 0) h) (fun _ => 5)
      (Heap.ofBlock 1 fun _ => 5) := by
  refine forEachBit_visits (n := 1) (Heap.holds_ofBlock 1 _) (by decide) ?_
  rintro i h h' hi ⟨v, hv, hbits⟩ hclear
  have hheld : h.Holds 0 1 v := hv
  rw [clearBit_eq hheld (by omega)] at hclear
  cases hclear
  refine ⟨_, Heap.holds_store, fun j hij hj => ?_⟩
  have hne : j ≠ i := by omega
  rw [bitAt_clear (by decide), decide_eq_false hne]
  exact hbits j (by omega) hj

end Vlstp
