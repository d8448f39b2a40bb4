import Vlstp.Framework.Bytes
import Vlstp.Jhash.Words

/-!
# Unaligned words (`packed_struct.h`)

A member of a packed structure may be anywhere in memory, so it is read and written byte by byte, in
the order of the processor. The six functions do so for words of two, four and eight bytes.

Words may overlap when they are of different sizes or not at multiples of them. So what a buffer
holds after a run of stores is said for each byte (`puts_eq`): the last store that covers it counts.
A word can be read as it was stored as long as none of its bytes was stored again
(`unaligned_puts`), and a key that was put together from words in any order is hashed by `jhash` as
the array of these words is by `jhash2`, up to the last block (`jhash_of_puts`).
-/

namespace Vlstp

/-! ### Definitions -/

/-- Which byte of a word of `n` bytes is at offset `k`. -/
def ByteOrder.index : ByteOrder → ℕ → ℕ → ℕ
  | .little, _, k => k
  | .big, n, k => n - 1 - k

/-- `k[i] = x`, of a buffer. -/
def writeAt {α : Type} (k : List α) (i : ℕ) (x : α) : Except Fault (List α) :=
  if i < k.length then .ok (k.set i x) else .error (.outOfBounds 0 i)

/-- `ptr->x`, a word of `n` bytes at `p`. -/
def getUnaligned (order : ByteOrder) (n : ℕ) (key : List UInt8T) (p : ℕ) :
    Except Fault (BitVec (8 * n)) := do
  let bytes ← (List.range n).mapM fun k => readAt key (p + k)
  return ofBytes n fun j => bytes.getD (order.index n j) 0

/-- `ptr->x = val`, a word of `n` bytes at `p`. -/
def putUnaligned (order : ByteOrder) {n : ℕ} (val : BitVec (8 * n)) (p : ℕ) (key : List UInt8T) :
    Except Fault (List UInt8T) :=
  (List.range n).foldlM (fun key k => writeAt key (p + k) (byteOf val (order.index n k))) key

/-- `__get_unaligned_cpu16`. -/
def _getUnalignedCpu16 (order : ByteOrder) (key : List UInt8T) (p : ℕ) :
    Except Fault (BitVec 16) :=
  getUnaligned order 2 key p

/-- `__get_unaligned_cpu64`. -/
def _getUnalignedCpu64 (order : ByteOrder) (key : List UInt8T) (p : ℕ) :
    Except Fault (BitVec 64) :=
  getUnaligned order 8 key p

/-- `__put_unaligned_cpu16`. -/
def _putUnalignedCpu16 (order : ByteOrder) (val : BitVec 16) (p : ℕ) (key : List UInt8T) :
    Except Fault (List UInt8T) :=
  putUnaligned order (n := 2) val p key

/-- `__put_unaligned_cpu32`. -/
def _putUnalignedCpu32 (order : ByteOrder) (val : UInt32T) (p : ℕ) (key : List UInt8T) :
    Except Fault (List UInt8T) :=
  putUnaligned order (n := 4) val p key

/-- `__put_unaligned_cpu64`. -/
def _putUnalignedCpu64 (order : ByteOrder) (val : BitVec 64) (p : ℕ) (key : List UInt8T) :
    Except Fault (List UInt8T) :=
  putUnaligned order (n := 8) val p key

/-! ### One word -/

section

variable {order : ByteOrder} {key : List UInt8T} {n p i k : ℕ}

theorem index_lt (hk : k < n) : order.index n k < n := by
  cases order with
  | little => exact hk
  | big =>
    simp only [ByteOrder.index]
    omega

theorem index_index (hk : k < n) : order.index n (order.index n k) = k := by
  cases order with
  | little => rfl
  | big =>
    simp only [ByteOrder.index]
    omega

/-- A word whose bytes are known is read. -/
theorem getUnaligned_eq {f : ℕ → UInt8T} (hkey : ∀ k < n, key[p + k]? = some (f k)) :
    getUnaligned order n key p = .ok (ofBytes n fun j => f (order.index n j)) := by
  have hbytes (m : ℕ) (hm : m ≤ n) :
      (List.range m).mapM (fun k => readAt key (p + k)) = .ok ((List.range m).map f) := by
    induction m with
    | zero => rfl
    | succ m ih =>
      have hread : readAt key (p + m) = .ok (f m) := by rw [readAt, hkey m hm]
      rw [List.range_succ, List.mapM_append, ih (by omega), List.mapM_cons, List.mapM_nil, hread]
      simp
  rw [getUnaligned, hbytes n le_rfl, Except.ok_bind, Except.pure_eq]
  refine congrArg Except.ok (ofBytes_congr fun j hj => ?_)
  simp [index_lt hj]

/-- The bytes of a word are stored. -/
theorem putUnaligned_eq (val : BitVec (8 * n)) (hp : p + n ≤ key.length) :
    putUnaligned order val p key =
      .ok (overwrite p n (fun k => byteOf val (order.index n k)) key) := by
  have hstart : overwrite p 0 (fun k => byteOf val (order.index n k)) key = key := by
    apply List.ext_getElem?
    intro i
    rw [getElem?_overwrite, if_neg (by omega)]
  have hloop := foldlM_range
    (f := fun key k => writeAt key (p + k) (byteOf val (order.index n k)))
    (fun m => overwrite p m (fun k => byteOf val (order.index n k)) key) n fun k hk => by
      rw [writeAt, if_pos (by rw [length_overwrite]; omega), overwrite_set]
  rw [hstart] at hloop
  exact hloop

/-- **A word is read as it was stored**, if its bytes still are what was stored. -/
theorem getUnaligned_of_bytes (val : BitVec (8 * n))
    (hkey : ∀ k < n, key[p + k]? = some (byteOf val (order.index n k))) :
    getUnaligned order n key p = .ok val := by
  rw [getUnaligned_eq hkey]
  refine congrArg Except.ok (eq_of_byteOf_eq fun k hk => ?_)
  rw [byteOf_ofBytes hk, index_index hk]

theorem offset_cases (hk : k < 4) : k = 0 ∨ k = 1 ∨ k = 2 ∨ k = 3 := by omega

theorem fromBytes_toNat (x₀ x₁ x₂ x₃ : UInt8T) : (fromBytes x₀ x₁ x₂ x₃).toNat =
    x₃.toNat * 2 ^ 24 + x₂.toNat * 2 ^ 16 + x₁.toNat * 2 ^ 8 + x₀.toNat := by
  have h₀ := x₀.isLt
  have h₁ := x₁.isLt
  have h₂ := x₂.isLt
  have h₃ := x₃.isLt
  simp only [fromBytes, BitVec.toNat_add, BitVec.toNat_shiftLeft, BitVec.toNat_setWidth,
    Nat.shiftLeft_eq]
  omega

/-- The bytes of a word put together from four, the least significant one first. -/
theorem byteOf_fromBytes (x₀ x₁ x₂ x₃ : UInt8T) (hk : k < 4) :
    byteOf (fromBytes x₀ x₁ x₂ x₃) k = [x₀, x₁, x₂, x₃].getD k 0 := by
  have h₀ := x₀.isLt
  have h₁ := x₁.isLt
  have h₂ := x₂.isLt
  have h₃ := x₃.isLt
  -- the bytes do not overlap, so each is a digit of the number
  apply BitVec.eq_of_toNat_eq
  rw [byteOf, BitVec.extractLsb'_toNat, fromBytes_toNat, Nat.shiftRight_eq_div_pow]
  rcases offset_cases hk with rfl | rfl | rfl | rfl
  · rw [List.getD_cons_zero]
    omega
  · rw [List.getD_cons_succ, List.getD_cons_zero]
    omega
  · rw [List.getD_cons_succ, List.getD_cons_succ, List.getD_cons_zero]
    omega
  · rw [List.getD_cons_succ, List.getD_cons_succ, List.getD_cons_succ, List.getD_cons_zero]
    omega

/-- A word that is read from four bytes. -/
theorem load_eq (x₀ x₁ x₂ x₃ : UInt8T) : order.load x₀ x₁ x₂ x₃ =
    ofBytes 4 fun j => [x₀, x₁, x₂, x₃].getD (order.index 4 j) 0 := by
  refine eq_of_byteOf_eq (n := 4) fun k hk => ?_
  rw [byteOf_ofBytes hk]
  cases order with
  | little => exact byteOf_fromBytes x₀ x₁ x₂ x₃ hk
  | big =>
    refine (byteOf_fromBytes x₃ x₂ x₁ x₀ hk).trans ?_
    rcases offset_cases hk with rfl | rfl | rfl | rfl <;> rfl

/-- `__get_unaligned_cpu32` is the same for four bytes. -/
theorem _getUnalignedCpu32_eq : _getUnalignedCpu32 order key p = getUnaligned order 4 key p := by
  rw [_getUnalignedCpu32, getUnaligned, show List.range 4 = [0, 1, 2, 3] from rfl]
  simp only [List.mapM_cons, List.mapM_nil, bind_assoc, pure_bind, Nat.add_zero, load_eq]

end

/-! ### Runs of stores -/

/-- A store of a word of any of the three sizes. -/
inductive PutCall
  | put16 (val : BitVec 16) (p : ℕ)
  | put32 (val : UInt32T) (p : ℕ)
  | put64 (val : BitVec 64) (p : ℕ)
  deriving DecidableEq

namespace PutCall

/-- Where the word begins. -/
def addr : PutCall → ℕ
  | put16 _ p | put32 _ p | put64 _ p => p

/-- The number of its bytes. -/
def size : PutCall → ℕ
  | put16 .. => 2
  | put32 .. => 4
  | put64 .. => 8

/-- Byte `k` of it. -/
def byte : PutCall → ℕ → UInt8T
  | put16 val _, k => byteOf val k
  | put32 val _, k => byteOf val k
  | put64 val _, k => byteOf val k

/-- The byte at `i` is one of the word. -/
def Covers (c : PutCall) (i : ℕ) : Prop := c.addr ≤ i ∧ i < c.addr + c.size

instance (c : PutCall) (i : ℕ) : Decidable (c.Covers i) := inferInstanceAs (Decidable (_ ∧ _))

/-- No byte is one of both words. -/
def Apart (c d : PutCall) : Prop := ∀ i, ¬ (c.Covers i ∧ d.Covers i)

/-- The word is read as it was stored. -/
def IsRead (order : ByteOrder) (key : List UInt8T) : PutCall → Prop
  | put16 val p => _getUnalignedCpu16 order key p = .ok val
  | put32 val p => _getUnalignedCpu32 order key p = .ok val
  | put64 val p => _getUnalignedCpu64 order key p = .ok val

end PutCall

/-- One store. -/
def putStep (order : ByteOrder) (key : List UInt8T) : PutCall → Except Fault (List UInt8T)
  | .put16 val p => _putUnalignedCpu16 order val p key
  | .put32 val p => _putUnalignedCpu32 order val p key
  | .put64 val p => _putUnalignedCpu64 order val p key

/-- What the last of the stores that covers the byte at `i` made it. -/
def lastPut (order : ByteOrder) (i : ℕ) : List PutCall → Option UInt8T
  | [] => none
  | c :: puts => (lastPut order i puts).or
      (if c.Covers i then some (c.byte (order.index c.size (i - c.addr))) else none)

section

variable {order : ByteOrder} {key key' : List UInt8T} {c : PutCall} {puts : List PutCall} {i : ℕ}

/-- One store. -/
theorem putStep_eq (hc : c.addr + c.size ≤ key.length) : putStep order key c =
    .ok (overwrite c.addr c.size (fun k => c.byte (order.index c.size k)) key) := by
  cases c with
  | put16 val p => exact putUnaligned_eq (n := 2) val hc
  | put32 val p => exact putUnaligned_eq (n := 4) val hc
  | put64 val p => exact putUnaligned_eq (n := 8) val hc

/-- A word whose bytes are still there is read. -/
theorem isRead_of_bytes
    (hkey : ∀ i, c.Covers i → key[i]? = some (c.byte (order.index c.size (i - c.addr)))) :
    c.IsRead order key := by
  have hbytes (k : ℕ) (hk : k < c.size) :
      key[c.addr + k]? = some (c.byte (order.index c.size k)) := by
    rw [hkey _ ⟨by omega, by omega⟩, Nat.add_sub_cancel_left]
  cases c with
  | put16 val p => exact getUnaligned_of_bytes (n := 2) val hbytes
  | put32 val p => exact _getUnalignedCpu32_eq.trans (getUnaligned_of_bytes (n := 4) val hbytes)
  | put64 val p => exact getUnaligned_of_bytes (n := 8) val hbytes

theorem lastPut_eq_none (hi : ∀ c ∈ puts, ¬ c.Covers i) : lastPut order i puts = none := by
  induction puts with
  | nil => rfl
  | cons c puts ih =>
    obtain ⟨hc, hi⟩ := List.forall_mem_cons.mp hi
    rw [lastPut, ih hi, if_neg hc]
    rfl

/-- A store that is not followed by one that covers the same byte. -/
theorem lastPut_append {before after : List PutCall} (hc : c.Covers i)
    (hafter : ∀ d ∈ after, ¬ d.Covers i) : lastPut order i (before ++ c :: after) =
      some (c.byte (order.index c.size (i - c.addr))) := by
  induction before with
  | nil => rw [List.nil_append, lastPut, lastPut_eq_none hafter, if_pos hc, Option.none_or]
  | cons d before ih => rw [List.cons_append, lastPut, ih, Option.some_or]

/-- **Runs of stores.** Of the stores that cover a byte the last one counts. -/
theorem puts_eq (order : ByteOrder) (hin : ∀ c ∈ puts, c.addr + c.size ≤ key.length) :
    ∃ key', puts.foldlM (putStep order) key = .ok key' ∧ key'.length = key.length ∧
      ∀ i, key'[i]? = key[i]?.map fun x => (lastPut order i puts).getD x := by
  induction puts generalizing key with
  | nil => exact ⟨key, rfl, rfl, fun i => by simp [lastPut]⟩
  | cons c puts ih =>
    obtain ⟨hc, hin⟩ := List.forall_mem_cons.mp hin
    have hin' (d : PutCall) (hd : d ∈ puts) : d.addr + d.size ≤
        (overwrite c.addr c.size (fun k => c.byte (order.index c.size k)) key).length := by
      rw [length_overwrite]
      exact hin d hd
    obtain ⟨key', hrun, hlen, hkey⟩ := ih hin'
    refine ⟨key', ?_, by rw [hlen, length_overwrite], fun i => ?_⟩
    · rw [List.foldlM_cons, putStep_eq hc]
      exact hrun
    · have hput : (overwrite c.addr c.size (fun k => c.byte (order.index c.size k)) key)[i]? =
          if c.Covers i then key[i]?.map fun _ => c.byte (order.index c.size (i - c.addr))
          else key[i]? := getElem?_overwrite
      rw [hkey, hput, lastPut]
      by_cases hi : c.Covers i
      · -- what was there before the store does not matter
        rw [if_pos hi, if_pos hi, Option.map_map]
        cases lastPut order i puts <;> rfl
      · rw [if_neg hi, if_neg hi, Option.or_none]

/-- What a run of stores leaves of a word. -/
theorem puts_bytes {before after : List PutCall} (hputs : puts = before ++ c :: after)
    (hin : ∀ c ∈ puts, c.addr + c.size ≤ key.length) (hafter : ∀ d ∈ after, c.Apart d)
    (hkey : ∀ i, key'[i]? = key[i]?.map fun x => (lastPut order i puts).getD x)
    (hi : c.Covers i) : key'[i]? = some (c.byte (order.index c.size (i - c.addr))) := by
  have hc := hin c (by simp [hputs])
  have hlt : i < key.length := lt_of_lt_of_le hi.2 hc
  rw [hkey, hputs, lastPut_append hi fun d hd hdi => hafter d hd i ⟨hi, hdi⟩,
    List.getElem?_eq_getElem hlt]
  rfl

/-- **No store is lost and none strays.** A run of stores of words of any sizes, anywhere in a
buffer and overlapping in any way, keeps the length of the buffer and every byte it does not cover,
and a word none of whose bytes was stored again is read as it was stored, on either kind of
processor. -/
theorem unaligned_puts (order : ByteOrder) (hin : ∀ c ∈ puts, c.addr + c.size ≤ key.length) :
    ∃ key', puts.foldlM (putStep order) key = .ok key' ∧ key'.length = key.length ∧
      (∀ i, (∀ c ∈ puts, ¬ c.Covers i) → key'[i]? = key[i]?) ∧
      ∀ before c after, puts = before ++ c :: after → (∀ d ∈ after, c.Apart d) →
        c.IsRead order key' := by
  obtain ⟨key', hrun, hlen, hkey⟩ := puts_eq order hin
  refine ⟨key', hrun, hlen, ?_, ?_⟩
  · intro i hi
    rw [hkey, lastPut_eq_none hi]
    exact Option.map_id'
  · intro before c after hputs hafter
    apply isRead_of_bytes
    intro i hi
    exact puts_bytes hputs hin hafter hkey hi

end

/-- A word of two bytes and one of four that overlaps an earlier one, in a buffer of nine bytes. -/
theorem unaligned_puts_nine : ∃ key', [PutCall.put64 1 0, .put16 2 7, .put32 3 3].foldlM
      (putStep .big) (List.replicate 9 0) = .ok key' ∧ _getUnalignedCpu16 .big key' 7 = .ok 2 ∧
    _getUnalignedCpu32 .big key' 3 = .ok 3 := by
  have hin : ∀ c ∈ [PutCall.put64 1 0, .put16 2 7, .put32 3 3],
      c.addr + c.size ≤ (List.replicate 9 (0 : UInt8T)).length := by decide
  obtain ⟨key', hrun, -, -, hread⟩ := unaligned_puts .big hin
  refine ⟨key', hrun, hread [.put64 1 0] (.put16 2 7) [.put32 3 3] rfl fun d hd i hi => ?_,
    hread [.put64 1 0, .put16 2 7] (.put32 3 3) [] rfl (by simp)⟩
  obtain rfl := List.mem_singleton.mp hd
  simp only [PutCall.Covers, PutCall.addr, PutCall.size] at hi
  omega

/-! ### Keys put together from words -/

/-- The bytes of a word in the other order. -/
def swapBytes (w : UInt32T) : UInt32T :=
  fromBytes (byteOf w 3) (byteOf w 2) (byteOf w 1) (byteOf w 0)

/-- What `jhash` takes the words of a key for. It reads the last block as a little-endian processor
would. -/
def takenFor (order : ByteOrder) (words : List UInt32T) : List UInt32T :=
  words.mapIdx fun i w =>
    if order = .big ∧ (words.length - 1) / 3 ≤ i / 3 then swapBytes w else w

section

variable {order : ByteOrder} {key : List UInt8T} {puts : List PutCall} {words : List UInt32T}
  {p : ℕ}

/-- A word is read from its bytes. -/
theorem load_bytes (order : ByteOrder) (w : UInt32T) : order.load (byteOf w (order.index 4 0))
    (byteOf w (order.index 4 1)) (byteOf w (order.index 4 2)) (byteOf w (order.index 4 3)) = w := by
  rw [load_eq]
  refine eq_of_byteOf_eq (n := 4) fun k hk => ?_
  rw [byteOf_ofBytes hk]
  cases order with
  | little => rcases offset_cases hk with rfl | rfl | rfl | rfl <;> rfl
  | big => rcases offset_cases hk with rfl | rfl | rfl | rfl <;> rfl

/-- The words of a key that consists of words. -/
theorem keyWord_eq (hkey : ∀ i < words.length, ∀ k < 4,
      key[4 * i + k]? = some (byteOf words[i]! (order.index 4 k)))
    {i : ℕ} (hi : i < words.length) :
    keyWord order key (4 * words.length) i = (takenFor order words)[i]! := by
  have hbyte (k : ℕ) (hk : k < 4) : byteAt key (4 * words.length) (4 * i + k) =
      byteOf words[i]! (order.index 4 k) := by
    rw [byteAt, if_pos (by omega), List.getElem!_eq_getElem?_getD, hkey i hi k hk, Option.getD_some]
  have htaken : (takenFor order words)[i]! =
      if order = .big ∧ (words.length - 1) / 3 ≤ i / 3 then swapBytes words[i]! else words[i]! := by
    simp [takenFor, hi]
  have hblock : i / 3 < (4 * words.length - 1) / 12 ↔ ¬ (words.length - 1) / 3 ≤ i / 3 := by omega
  have h0 := hbyte 0 (by decide)
  rw [Nat.add_zero] at h0
  rw [keyWord, h0, hbyte 1 (by decide), hbyte 2 (by decide), hbyte 3 (by decide), htaken]
  cases order with
  | little =>
    rw [ite_self, if_neg (by simp)]
    exact load_bytes .little words[i]!
  | big =>
    by_cases hlast : (words.length - 1) / 3 ≤ i / 3
    · rw [if_neg (fun h => hblock.mp h hlast), if_pos ⟨rfl, hlast⟩]
      rfl
    · rw [if_pos (hblock.mpr hlast), if_neg (fun h => hlast h.2)]
      exact load_bytes .big words[i]!

/-- **A key put together from words.** Words are stored one behind the other from anywhere in a
buffer, in any order, among any other stores, and none of them is stored over afterwards. Then
`jhash` of their bytes is `jhash2` of the words; on a big-endian processor the bytes of the last
block count in the other order. -/
theorem jhash_of_puts (order : ByteOrder) (hin : ∀ c ∈ puts, c.addr + c.size ≤ key.length)
    (hputs : ∀ i < words.length, ∃ before after,
      puts = before ++ .put32 words[i]! (p + 4 * i) :: after ∧
        ∀ d ∈ after, (PutCall.put32 words[i]! (p + 4 * i)).Apart d)
    (hlen : 4 * words.length < 2 ^ 32) (initval : UInt32T) :
    ∃ key', puts.foldlM (putStep order) key = .ok key' ∧
      jhash order (key'.drop p) (BitVec.ofNat 32 (4 * words.length)) initval =
        jhash2 (takenFor order words) (BitVec.ofNat 32 words.length) initval := by
  obtain ⟨key', hrun, hkeylen, hkey⟩ := puts_eq order hin
  refine ⟨key', hrun, ?_⟩
  have hbytes (i : ℕ) (hi : i < words.length) (k : ℕ) (hk : k < 4) :
      (key'.drop p)[4 * i + k]? = some (byteOf words[i]! (order.index 4 k)) := by
    obtain ⟨before, after, heq, hafter⟩ := hputs i hi
    have hcovers : (PutCall.put32 words[i]! (p + 4 * i)).Covers (p + (4 * i + k)) :=
      ⟨by simp only [PutCall.addr]; omega, by simp only [PutCall.addr, PutCall.size]; omega⟩
    have hoff : p + (4 * i + k) - (p + 4 * i) = k := by omega
    rw [List.getElem?_drop, puts_bytes heq hin hafter hkey hcovers]
    simp only [PutCall.addr, PutCall.size, PutCall.byte, hoff]
  have htoNat : (BitVec.ofNat 32 (4 * words.length)).toNat = 4 * words.length := by
    rw [BitVec.toNat_ofNat, Nat.mod_eq_of_lt hlen]
  have hcount : (takenFor order words).length = words.length := by simp [takenFor]
  -- every byte of the words is there, so the key is long enough
  have hroom : 4 * words.length ≤ (key'.drop p).length := by
    by_contra hshort
    obtain ⟨i, k, hi, hk, hik⟩ : ∃ i k, i < words.length ∧ k < 4 ∧
        4 * i + k = (key'.drop p).length :=
      ⟨(key'.drop p).length / 4, (key'.drop p).length % 4, by omega, Nat.mod_lt _ (by decide),
        Nat.div_add_mod _ _⟩
    have hbyte := hbytes i hi k hk
    rw [List.getElem?_eq_none (by omega)] at hbyte
    cases hbyte
  have hfour : (takenFor order words).length =
      ((BitVec.ofNat 32 (4 * words.length)).toNat + 3) / 4 := by
    rw [htoNat, hcount]
    omega
  have hword (i : ℕ) (hi : i < (takenFor order words).length) :
      keyWord order (key'.drop p) (BitVec.ofNat 32 (4 * words.length)).toNat i =
        (takenFor order words)[i]! := by
    rw [htoNat]
    exact keyWord_eq hbytes (by rwa [hcount] at hi)
  rw [jhash_eq_jhash2_of_words (by rwa [htoNat]) hfour hword initval, hcount,
    BitVec.add_sub_cancel]

end

/-- Two words are stored at an odd address, the second one first. -/
theorem jhash_of_puts_two : ∃ key', [PutCall.put64 9 2, .put32 7 5, .put32 6 1].foldlM
      (putStep .little) (List.replicate 10 0) = .ok key' ∧
    jhash .little (key'.drop 1) 8 5 = jhash2 [6, 7] 2 5 := by
  have hin : ∀ c ∈ [PutCall.put64 9 2, .put32 7 5, .put32 6 1],
      c.addr + c.size ≤ (List.replicate 10 (0 : UInt8T)).length := by decide
  have hputs (i : ℕ) (hi : i < ([6, 7] : List UInt32T).length) : ∃ before after,
      [PutCall.put64 9 2, .put32 7 5, .put32 6 1] =
        before ++ .put32 ([6, 7] : List UInt32T)[i]! (1 + 4 * i) :: after ∧
      ∀ d ∈ after, (PutCall.put32 ([6, 7] : List UInt32T)[i]! (1 + 4 * i)).Apart d := by
    have hcases : i = 0 ∨ i = 1 := by
      rw [List.length_cons, List.length_singleton] at hi
      omega
    rcases hcases with rfl | rfl
    · exact ⟨[.put64 9 2, .put32 7 5], [], rfl, by simp⟩
    · refine ⟨[.put64 9 2], [.put32 6 1], rfl, fun d hd i hi => ?_⟩
      obtain rfl := List.mem_singleton.mp hd
      simp only [PutCall.Covers, PutCall.addr, PutCall.size] at hi
      omega
  exact jhash_of_puts .little hin hputs (by decide) 5

end Vlstp
