import Mathlib.Logic.Function.Basic
import Vlstp.Framework.Fallible

/-!
# A heap of word-addressed blocks

The heap of a C program that keeps arrays of machine words in blocks obtained from `malloc`. A block
is an allocation identity; a pointer is `none` (`NULL`) or the identity of a block. Of each block
the heap knows whether it is live, and with how many bytes, or freed, and which words lie *wholly*
inside it: a block of `n` bytes has the words `k` with `(k + 1) * wordBytes ≤ n`. Every access is
checked, so a program that touches a word it does not own ends in a `Fault` instead of going on.

What `malloc` answers is not the program's to decide. A heap carries the `oracle` its calls will
consult, call by call: `none` for a failure, `some c` for a fresh block whose words read as `c`.

`h.Holds b n w` says that the first `n` words of block `b` are inside it and read as `w`, and
`h.store b n w` is the heap that differs from `h` in reading so. Every operation that writes is
shown to amount to one `store`, which gives the contents and the frame at once.
-/

/-- The ways an access can leave the memory a program owns, and `diverge` for a loop that has used
up the turns it was given. -/
inductive Fault
  | nullDeref
  | outOfBounds (b k : ℕ)
  /-- Touching a word before an array. -/
  | beforeArray
  | useAfterFree (b : ℕ)
  | doubleFree (b : ℕ)
  | diverge
  deriving DecidableEq, Repr

/-- The life of an allocation identity. -/
inductive Status
  | unused
  | live (bytes : ℕ)
  | freed
  deriving DecidableEq, Repr

/-- A pointer to the first word of a block, or `NULL`. -/
abbrev Ptr := Option ℕ

structure Heap (W : Type) where
  status : ℕ → Status
  /-- The words that lie inside each block. -/
  cell : ℕ → ℕ → Option W
  /-- The number of calls of `malloc` so far, and the identity the next one hands out. -/
  next : ℕ
  /-- What each call of `malloc` answers. -/
  oracle : ℕ → Option (ℕ → W)

namespace Heap

variable {W : Type}

/-- No block handed out yet. -/
def empty (oracle : ℕ → Option (ℕ → W)) : Heap W where
  status _ := .unused
  cell _ _ := none
  next := 0
  oracle := oracle

/-- The fault of touching word `k` of a block it is not inside of. -/
def accessFault (h : Heap W) (b k : ℕ) : Fault :=
  if h.status b = .freed then .useAfterFree b else .outOfBounds b k

/-! ### Operations -/

/-- Read word `k` of the block at `p`. -/
def read (h : Heap W) (p : Ptr) (k : ℕ) : Except Fault W :=
  match p with
  | none => .error .nullDeref
  | some b =>
    match h.cell b k with
    | some w => .ok w
    | none => .error (h.accessFault b k)

/-- Write word `k` of the block at `p`. -/
def write (h : Heap W) (p : Ptr) (k : ℕ) (v : W) : Except Fault (Heap W) :=
  match p with
  | none => .error .nullDeref
  | some b =>
    match h.cell b k with
    | some _ =>
      .ok { h with cell := Function.update h.cell b (Function.update (h.cell b) k (some v)) }
    | none => .error (h.accessFault b k)

/-- `malloc(bytes)` on a machine whose words have `wordBytes` bytes. -/
def malloc (wordBytes bytes : ℕ) (h : Heap W) : Ptr × Heap W :=
  match h.oracle h.next with
  | none => (none, { h with next := h.next + 1 })
  | some c =>
    (some h.next,
      { h with
        status := Function.update h.status h.next (.live bytes)
        cell := Function.update h.cell h.next
          fun k => if (k + 1) * wordBytes ≤ bytes then some (c k) else none
        next := h.next + 1 })

/-- `free(p)`: nothing for `NULL`, a fault for a block that is not live. -/
def free (p : Ptr) (h : Heap W) : Except Fault (Heap W) :=
  match p with
  | none => .ok h
  | some b =>
    match h.status b with
    | .live _ =>
      .ok { h with
        status := Function.update h.status b .freed
        cell := Function.update h.cell b fun _ => none }
    | _ => .error (.doubleFree b)

/-- `memset` of the `n` words from word `k` on. -/
def fill (p : Ptr) (k n : ℕ) (v : W) (h : Heap W) : Except Fault (Heap W) :=
  (List.range n).foldlM (fun h j => h.write p (k + j) v) h

/-- `memcpy` of the first `n` words. -/
def copy (dst src : Ptr) (n : ℕ) (h : Heap W) : Except Fault (Heap W) :=
  (List.range n).foldlM (fun h j => do h.write dst j (← h.read src j)) h

/-! ### What a block holds -/

/-- The first `n` words of block `b` lie inside it and read as `w`. -/
def Holds (h : Heap W) (b n : ℕ) (w : ℕ → W) : Prop :=
  ∀ k, k < n → h.cell b k = some (w k)

/-- The heap with the first `n` words of block `b` reading as `w`. -/
def store (h : Heap W) (b n : ℕ) (w : ℕ → W) : Heap W :=
  { h with cell := Function.update h.cell b fun k => if k < n then some (w k) else h.cell b k }

section Store

variable {h : Heap W} {b b' n m k : ℕ} {w w' : ℕ → W} {v : W}

@[simp] theorem store_status : (h.store b n w).status = h.status := rfl

@[simp] theorem store_next : (h.store b n w).next = h.next := rfl

@[simp] theorem store_oracle : (h.store b n w).oracle = h.oracle := rfl

theorem store_cell_self :
    (h.store b n w).cell b = fun k => if k < n then some (w k) else h.cell b k :=
  Function.update_self ..

theorem store_cell_of_ne (hne : b' ≠ b) : (h.store b n w).cell b' = h.cell b' :=
  Function.update_of_ne hne ..

theorem holds_store : (h.store b n w).Holds b n w := by
  intro k hk
  rw [store_cell_self]
  exact if_pos hk

theorem holds_store_of_ne (hne : b' ≠ b) :
    (h.store b n w).Holds b' m w' ↔ h.Holds b' m w' := by
  unfold Holds
  rw [store_cell_of_ne hne]

theorem Holds.mono (hh : h.Holds b n w) (hm : m ≤ n) : h.Holds b m w :=
  fun k hk => hh k (by omega)

theorem Holds.congr (hh : h.Holds b n w) (hw : ∀ k, k < n → w k = w' k) : h.Holds b n w' :=
  fun k hk => by rw [← hw k hk]; exact hh k hk

/-- A heap is determined by its four parts. -/
theorem ext_cell {h' : Heap W} (hs : h.status = h'.status) (hc : h.cell = h'.cell)
    (hn : h.next = h'.next) (ho : h.oracle = h'.oracle) : h = h' := by
  cases h; cases h'; simp only at *; subst_vars; rfl

/-- What has been stored in a block is told from the words of that block. -/
theorem eq_store (h' : Heap W) (hs : h'.status = h.status) (hn : h'.next = h.next)
    (ho : h'.oracle = h.oracle) (hother : ∀ b', b' ≠ b → h'.cell b' = h.cell b')
    (hself : ∀ k, h'.cell b k = if k < n then some (w k) else h.cell b k) :
    h' = h.store b n w := by
  refine ext_cell hs ?_ hn ho
  funext b' k
  by_cases hb : b' = b
  · subst hb
    rw [store_cell_self, hself]
  · rw [store_cell_of_ne hb, hother b' hb]

theorem store_store : (h.store b n w).store b n w' = h.store b n w' := by
  refine eq_store _ rfl rfl rfl (fun b' hne => ?_) fun k => ?_
  · rw [store_cell_of_ne hne, store_cell_of_ne hne]
  · rw [store_cell_self, store_cell_self]
    by_cases hk : k < n <;> simp [hk]

/-- Storing depends only on the words stored. -/
theorem store_congr (hw : ∀ k, k < n → w k = w' k) : h.store b n w = h.store b n w' := by
  refine eq_store _ rfl rfl rfl (fun b' hne => store_cell_of_ne hne) fun k => ?_
  rw [store_cell_self]
  by_cases hk : k < n
  · simp [hk, hw k hk]
  · simp [hk]

/-- The words stored can be read back off the heap. -/
theorem eq_of_store_eq (he : h.store b n w = h.store b n w') (hk : k < n) : w k = w' k := by
  have hcell : (h.store b n w).cell b k = some (w' k) := by
    rw [he]
    exact holds_store k hk
  exact Option.some.inj ((holds_store k hk).symm.trans hcell)

/-- Storing what is already there changes nothing. -/
theorem Holds.store_self (hh : h.Holds b n w) : h.store b n w = h := by
  refine (eq_store h rfl rfl rfl (fun _ _ => rfl) fun k => ?_).symm
  by_cases hk : k < n
  · simp [hk, hh k hk]
  · simp [hk]

/-! ### The operations on blocks whose contents are known -/

theorem Holds.read (hh : h.Holds b n w) (hk : k < n) : h.read (some b) k = .ok (w k) := by
  simp only [Heap.read, hh k hk]

theorem Holds.write (hh : h.Holds b n w) (hk : k < n) :
    h.write (some b) k v = .ok (h.store b n (Function.update w k v)) := by
  simp only [Heap.write, hh k hk]
  refine congrArg _ (eq_store _ rfl rfl rfl (fun b' hne => Function.update_of_ne hne ..)
    fun j => ?_)
  simp only [Function.update_self]
  by_cases hj : j = k
  · subst hj
    simp [hk]
  · by_cases hn : j < n <;> simp [Function.update_of_ne hj, hn, hh j]

/-- Writing to one block leaves the others alone. -/
theorem cell_of_write {h' : Heap W} (hwrite : h.write (some b) k v = .ok h') (hne : b' ≠ b) :
    h'.cell b' = h.cell b' := by
  simp only [Heap.write] at hwrite
  cases hcell : h.cell b k with
  | none =>
    rw [hcell] at hwrite
    cases hwrite
  | some x =>
    rw [hcell] at hwrite
    cases hwrite
    exact Function.update_of_ne hne ..

/-- Writing the first word of a block, as a block of one word. -/
theorem Holds.write_first (hh : h.Holds b 1 w) :
    h.write (some b) 0 v = .ok (h.store b 1 fun _ => v) := by
  rw [hh.write (by decide)]
  refine congrArg _ (store_congr fun k hk => ?_)
  obtain rfl : k = 0 := by omega
  exact Function.update_self ..

/-- Writing a word of a block that was just stored. -/
theorem write_store (hk : k < n) :
    (h.store b n w).write (some b) k v = .ok (h.store b n (Function.update w k v)) := by
  rw [holds_store.write hk, store_store]

end Store

/-! ### Blocks being rewritten

A loop that writes the words of a block one after the other, in either direction, has at any time
rewritten one interval of them. What it reads outside that interval is what the block held before
the loop, also when it reads from the block it writes to. -/

/-- Block `b`, which held `w`, with the words of `[lo, hi)` rewritten to those of `v`. -/
def rewritten (h : Heap W) (b n : ℕ) (w v : ℕ → W) (lo hi : ℕ) : Heap W :=
  h.store b n fun j => if lo ≤ j ∧ j < hi then v j else w j

section Rewritten

variable {h : Heap W} {b b' n m lo hi k : ℕ} {w w' v : ℕ → W}

/-- Nothing rewritten yet. -/
theorem Holds.rewritten_self (hh : h.Holds b n w) (hle : hi ≤ lo) :
    h.rewritten b n w v lo hi = h :=
  (store_congr fun j _ => if_neg (by omega)).trans hh.store_self

/-- All the words rewritten. -/
theorem rewritten_all : h.rewritten b n w v 0 n = h.store b n v :=
  store_congr fun j hj => if_pos ⟨Nat.zero_le j, hj⟩

/-- A turn upwards. -/
theorem rewritten_write_succ (hle : lo ≤ hi) (hhi : hi < n) :
    (h.rewritten b n w v lo hi).write (some b) hi (v hi) =
      .ok (h.rewritten b n w v lo (hi + 1)) := by
  unfold rewritten
  rw [write_store hhi]
  refine congrArg _ (store_congr fun j _ => ?_)
  by_cases hj : j = hi
  · subst hj
    rw [Function.update_self, if_pos (by omega)]
  · rw [Function.update_of_ne hj]
    exact if_congr (by omega) rfl rfl

/-- A turn downwards. -/
theorem rewritten_write_pred (hlt : lo < hi) (hlo : lo < n) :
    (h.rewritten b n w v (lo + 1) hi).write (some b) lo (v lo) =
      .ok (h.rewritten b n w v lo hi) := by
  unfold rewritten
  rw [write_store hlo]
  refine congrArg _ (store_congr fun j _ => ?_)
  by_cases hj : j = lo
  · subst hj
    rw [Function.update_self, if_pos (by omega)]
  · rw [Function.update_of_ne hj]
    exact if_congr (by omega) rfl rfl

/-- A word outside the interval still reads as before, in this block or in another. -/
theorem Holds.rewritten_read (hb : h.Holds b n w) (hb' : h.Holds b' m w') (hn : k < n)
    (hm : k < m) (hk : ¬ (lo ≤ k ∧ k < hi)) :
    (h.rewritten b n w v lo hi).read (some b') k = .ok (w' k) := by
  by_cases hbb : b' = b
  · subst hbb
    rw [rewritten, holds_store.read hn, if_neg hk]
    exact congrArg _ (Option.some.inj ((hb k hn).symm.trans (hb' k hm)))
  · exact ((holds_store_of_ne hbb).mpr hb').read hm

/-- `memset` inside a block. -/
theorem Holds.fill {v : W} (hh : h.Holds b n w) (hk : k + m ≤ n) :
    h.fill (some b) k m v =
      .ok (h.store b n fun j => if k ≤ j ∧ j < k + m then v else w j) := by
  have hloop := foldlM_range (f := fun h j => h.write (some b) (k + j) v)
    (fun i => h.rewritten b n w (fun _ => v) k (k + i)) m fun i hi =>
      rewritten_write_succ (v := fun _ => v) (Nat.le_add_right k i) (by omega)
  rw [Nat.add_zero, hh.rewritten_self (Nat.le_refl k)] at hloop
  exact hloop

/-- `memcpy` between two blocks, or of a block to itself. -/
theorem Holds.copy_rewritten (hh : h.Holds b n w) (hh' : h.Holds b' m w') {i : ℕ}
    (hn : i ≤ n) (hm : i ≤ m) :
    h.copy (some b) (some b') i = .ok (h.rewritten b n w w' 0 i) := by
  have hloop := foldlM_range (f := fun h j => do h.write (some b) j (← h.read (some b') j))
    (h.rewritten b n w w' 0) i fun k hk => by
      -- word `k` is read before it is written, also when the two blocks are one
      rw [hh.rewritten_read hh' (by omega) (by omega) (by omega), Except.ok_bind]
      exact rewritten_write_succ (Nat.zero_le k) (by omega)
  rwa [hh.rewritten_self (Nat.le_refl 0)] at hloop

theorem Holds.copy (hh : h.Holds b n w) (hh' : h.Holds b' m w') {i : ℕ} (hn : i ≤ n)
    (hm : i ≤ m) :
    h.copy (some b) (some b') i = .ok (h.store b n fun j => if j < i then w' j else w j) := by
  rw [hh.copy_rewritten hh' hn hm]
  exact congrArg _ (store_congr fun j _ => if_congr (by omega) rfl rfl)

end Rewritten

/-- A heap with one block, of `n` words. -/
def ofBlock (n : ℕ) (w : ℕ → W) : Heap W := (empty fun _ => none).store 0 n w

theorem holds_ofBlock (n : ℕ) (w : ℕ → W) : (ofBlock n w).Holds 0 n w := holds_store

/-! ### Handing out and freeing blocks -/

/-- `h'` has the blocks of `h`, as they were, apart from block `b`. -/
def SameExcept (h h' : Heap W) (b : ℕ) : Prop :=
  ∀ b', b' ≠ b → h'.status b' = h.status b' ∧ h'.cell b' = h.cell b'

section Blocks

variable {h h' : Heap W} {b b' n : ℕ} {w c : ℕ → W}

theorem SameExcept.holds (hs : h.SameExcept h' b) (hne : b' ≠ b) (hh : h.Holds b' n w) :
    h'.Holds b' n w :=
  fun k hk => by rw [(hs b' hne).2]; exact hh k hk

/-- A `malloc` that finds memory hands out the next identity, as a live block of the bytes asked for
that reads as the memory there happens to. -/
theorem malloc_of_some (ho : h.oracle h.next = some c) (wordBytes bytes : ℕ) :
    ∃ h', h.malloc wordBytes bytes = (some h.next, h') ∧ h'.next = h.next + 1 ∧
      h'.oracle = h.oracle ∧ h'.status h.next = .live bytes ∧ h.SameExcept h' h.next ∧
      ∀ n, n * wordBytes ≤ bytes → h'.Holds h.next n c := by
  refine ⟨{ h with
    status := Function.update h.status h.next (.live bytes)
    cell := Function.update h.cell h.next
      fun k => if (k + 1) * wordBytes ≤ bytes then some (c k) else none
    next := h.next + 1 }, by simp only [malloc, ho], rfl, rfl, ?_, ?_, ?_⟩
  · exact Function.update_self ..
  · exact fun b' hne => ⟨Function.update_of_ne hne .., Function.update_of_ne hne ..⟩
  · intro n hn k hk
    -- word `k` ends where word `k + 1` would start
    have hle : (k + 1) * wordBytes ≤ bytes := Nat.le_trans (Nat.mul_le_mul_right _ hk) hn
    simp [hle]

/-- The words of a fresh block are those that lie wholly inside it. -/
theorem malloc_cell (ho : h.oracle h.next = some c) (wordBytes bytes k : ℕ) :
    (h.malloc wordBytes bytes).2.cell h.next k =
      if (k + 1) * wordBytes ≤ bytes then some (c k) else none := by
  simp only [malloc, ho, Function.update_self]

/-- A `malloc` that finds none is only counted. -/
theorem malloc_of_none (ho : h.oracle h.next = none) (wordBytes bytes : ℕ) :
    h.malloc wordBytes bytes = (none, { h with next := h.next + 1 }) := by
  simp only [malloc, ho]

theorem free_of_live (hl : h.status b = .live n) :
    ∃ h', h.free (some b) = .ok h' ∧ h'.next = h.next ∧ h'.oracle = h.oracle ∧
      h'.status b = .freed ∧ h.SameExcept h' b := by
  refine ⟨{ h with
    status := Function.update h.status b .freed
    cell := Function.update h.cell b fun _ => none }, by simp only [free, hl], rfl, rfl, ?_, ?_⟩
  · exact Function.update_self ..
  · exact fun b' hne => ⟨Function.update_of_ne hne .., Function.update_of_ne hne ..⟩

/-- Nothing of a freed block can be accessed. -/
theorem free_cell (hf : h.free (some b) = .ok h') (k : ℕ) : h'.cell b k = none := by
  unfold free at hf
  simp only at hf
  cases hs : h.status b with
  | live bytes =>
    rw [hs] at hf
    obtain rfl := Except.ok.inj hf
    simp
  | unused | freed =>
    rw [hs] at hf
    simp at hf

theorem read_of_freed (hs : h.status b = .freed) (hc : ∀ k, h.cell b k = none) (k : ℕ) :
    h.read (some b) k = .error (.useAfterFree b) := by
  simp only [Heap.read, hc, accessFault, if_pos hs]

theorem copy_of_freed (hs : h.status b = .freed) (hc : ∀ k, h.cell b k = none) (p : Ptr)
    (hn : 0 < n) : h.copy p (some b) n = .error (.useAfterFree b) := by
  obtain ⟨m, rfl⟩ : ∃ m, n = m + 1 := ⟨n - 1, by omega⟩
  unfold Heap.copy
  rw [List.range_succ_eq_map, List.foldlM_cons, read_of_freed hs hc]
  rfl

theorem free_of_freed (hs : h.status b = .freed) : h.free (some b) = .error (.doubleFree b) := by
  simp only [free, hs]

end Blocks

/-! ### Ownership

Where bounds do not matter but only which blocks are live, the question is what a program does that
reads and writes through pointers to open blocks, all of whose words can be accessed. It hands out
and frees nothing, leaves every open block open, and cannot fault but by following `NULL`. -/

/-- No block has been handed out or freed between `h` and `h'`. -/
def SameBlocks (h h' : Heap W) : Prop :=
  h'.status = h.status ∧ h'.next = h.next ∧ h'.oracle = h.oracle

theorem SameBlocks.refl (h : Heap W) : h.SameBlocks h := ⟨rfl, rfl, rfl⟩

theorem SameBlocks.trans {h h' h'' : Heap W} (h₁ : h.SameBlocks h') (h₂ : h'.SameBlocks h'') :
    h.SameBlocks h'' :=
  ⟨h₂.1.trans h₁.1, h₂.2.1.trans h₁.2.1, h₂.2.2.trans h₁.2.2⟩

/-- The blocks of `h'` are those of `h`, with the same words inside. -/
structure SameShape (h h' : Heap W) : Prop where
  blocks : h.SameBlocks h'
  cells : ∀ b k, h'.cell b k = none ↔ h.cell b k = none

theorem SameShape.refl (h : Heap W) : h.SameShape h := ⟨.refl h, fun _ _ => Iff.rfl⟩

theorem SameShape.trans {h h' h'' : Heap W} (h₁ : h.SameShape h') (h₂ : h'.SameShape h'') :
    h.SameShape h'' where
  blocks := h₁.blocks.trans h₂.blocks
  cells b k := (h₂.cells b k).trans (h₁.cells b k)

/-- `p` is `NULL` or points to a block that has not been freed. -/
def NotFreed (h : Heap W) (p : Ptr) : Prop := ∀ b, p = some b → h.status b ≠ .freed

/-- `p` is `NULL`, or every word of its block can be accessed. -/
def Open (h : Heap W) (p : Ptr) : Prop := ∀ b, p = some b → ∀ k, h.cell b k ≠ none

theorem Open.of_sameShape {h h' : Heap W} {p : Ptr} (hp : h.Open p) (hs : h.SameShape h') :
    h'.Open p :=
  fun b hb k hnone => hp b hb k ((hs.cells b k).mp hnone)

section Ownership

variable {h h₀ h' : Heap W} {p q : Ptr} {b k n : ℕ} {v : W}

/-- A block all of whose words can be accessed holds something, however far one looks. -/
theorem Open.exists_holds (hb : h.Open (some b)) : ∃ w, ∀ n, h.Holds b n w := by
  have hsome (k : ℕ) : ∃ x, h.cell b k = some x := Option.ne_none_iff_exists'.mp (hb b rfl k)
  choose w hw using hsome
  exact ⟨w, fun n k _ => hw k⟩

theorem sat_read (hp : h.Open p) : (h.read p k).Sat (fun _ => True) (· = .nullDeref) := by
  cases p with
  | none => rfl
  | some b =>
    obtain ⟨w, hw⟩ := hp.exists_holds
    rw [(hw (k + 1)).read (Nat.lt_succ_self k)]
    trivial

/-- Storing in words that are inside a block keeps its shape. -/
theorem Holds.sameShape_store {w w' : ℕ → W} (hh : h.Holds b n w) :
    h.SameShape (h.store b n w') := by
  refine ⟨⟨rfl, rfl, rfl⟩, fun b' k => ?_⟩
  by_cases hb : b' = b
  · subst hb
    rw [store_cell_self]
    by_cases hk : k < n
    · simp [hk, hh k hk]
    · simp [hk]
  · rw [store_cell_of_ne hb]

theorem sat_write (hs : h₀.SameShape h) (hp : h₀.Open p) :
    (h.write p k v).Sat h₀.SameShape (· = .nullDeref) := by
  cases p with
  | none => rfl
  | some b =>
    obtain ⟨w, hw⟩ := (hp.of_sameShape hs).exists_holds
    rw [(hw (k + 1)).write (Nat.lt_succ_self k)]
    exact hs.trans (hw (k + 1)).sameShape_store

theorem sat_fill (hs : h₀.SameShape h) (hp : h₀.Open p) :
    (h.fill p k n v).Sat h₀.SameShape (· = .nullDeref) :=
  Except.Sat.foldlM _ hs fun _ _ _ hs => sat_write hs hp

theorem sat_copy (hs : h₀.SameShape h) (hp : h₀.Open p) (hq : h₀.Open q) :
    (h.copy p q n).Sat h₀.SameShape (· = .nullDeref) :=
  Except.Sat.foldlM _ hs fun _ _ _ hs =>
    (sat_read (hq.of_sameShape hs)).bind fun _ _ => sat_write hs hp

end Ownership

end Heap
