import Vlstp.Framework.Heap

/-!
# The hash function (`jhash.h`, `packed_struct.h`)

`jhash` hashes bytes and `jhash2` words. Both keep three words, take up three words of the key at a
time and mix, and return the last of the three. A key is a buffer; reading outside of it is a fault.

The bytes of a word that is read whole are in the order of the processor, those of the last twelve
bytes at most are put together one by one, the least significant first. So the order is a parameter.
-/

namespace Vlstp

/-- `uint8_t`. -/
abbrev UInt8T := BitVec 8

/-- `uint32_t`. -/
abbrev UInt32T := BitVec 32

/-- `rol32`. -/
def rol32 (x : UInt32T) (k : ℕ) : UInt32T := (x <<< k) ||| (x >>> (32 - k))

/-- `jhash_size`. -/
def jhashSize (n : ℕ) : UInt32T := 1#32 <<< n

/-- `jhash_mask`. -/
def jhashMask (n : ℕ) : UInt32T := jhashSize n - 1

/-- The three words `a`, `b`, `c`. -/
@[ext]
structure Mixed where
  a : UInt32T
  b : UInt32T
  c : UInt32T
  deriving DecidableEq

/-- `__jhash_mix`. -/
def _jhashMix (s : Mixed) : Mixed :=
  let a := s.a
  let b := s.b
  let c := s.c
  let a := a - c
  let a := a ^^^ rol32 c 4
  let c := c + b
  let b := b - a
  let b := b ^^^ rol32 a 6
  let a := a + c
  let c := c - b
  let c := c ^^^ rol32 b 8
  let b := b + a
  let a := a - c
  let a := a ^^^ rol32 c 16
  let c := c + b
  let b := b - a
  let b := b ^^^ rol32 a 19
  let a := a + c
  let c := c - b
  let c := c ^^^ rol32 b 4
  let b := b + a
  ⟨a, b, c⟩

/-- `__jhash_final`. -/
def _jhashFinal (s : Mixed) : Mixed :=
  let a := s.a
  let b := s.b
  let c := s.c
  let c := c ^^^ b
  let c := c - rol32 b 14
  let a := a ^^^ c
  let a := a - rol32 c 11
  let b := b ^^^ a
  let b := b - rol32 a 25
  let c := c ^^^ b
  let c := c - rol32 b 16
  let a := a ^^^ c
  let a := a - rol32 c 4
  let b := b ^^^ a
  let b := b - rol32 a 14
  let c := c ^^^ b
  let c := c - rol32 b 24
  ⟨a, b, c⟩

/-- `JHASH_INITVAL`. -/
def JHASH_INITVAL : UInt32T := 0xdeadbeef#32

/-- `a = b = c = v`. -/
def Mixed.seed (v : UInt32T) : Mixed := ⟨v, v, v⟩

/-- `a += x; b += y; c += z`. -/
def Mixed.add (s : Mixed) (x y z : UInt32T) : Mixed := ⟨s.a + x, s.b + y, s.c + z⟩

/-- `v` is added to the word `j` of the three. -/
def Mixed.addAt (s : Mixed) (j : ℕ) (v : UInt32T) : Mixed :=
  if j = 0 then s.add v 0 0 else if j = 1 then s.add 0 v 0 else s.add 0 0 v

/-! ### Bytes -/

/-- The order of the bytes of a word in memory. -/
inductive ByteOrder
  | little
  | big
  deriving DecidableEq

/-- The word with the bytes `x₀` to `x₃`, the least significant first. -/
def fromBytes (x₀ x₁ x₂ x₃ : UInt8T) : UInt32T :=
  (x₃.setWidth 32 <<< 24) + (x₂.setWidth 32 <<< 16) + (x₁.setWidth 32 <<< 8) + x₀.setWidth 32

/-- The word whose bytes in memory are `x₀` to `x₃`. -/
def ByteOrder.load : ByteOrder → UInt8T → UInt8T → UInt8T → UInt8T → UInt32T
  | .little, x₀, x₁, x₂, x₃ => fromBytes x₀ x₁ x₂ x₃
  | .big, x₀, x₁, x₂, x₃ => fromBytes x₃ x₂ x₁ x₀

/-- `k[i]`, of a buffer. -/
def readAt {α : Type} (k : List α) (i : ℕ) : Except Fault α :=
  match k[i]? with
  | none => .error (.outOfBounds 0 i)
  | some x => .ok x

/-- `__get_unaligned_cpu32`. -/
def _getUnalignedCpu32 (order : ByteOrder) (key : List UInt8T) (p : ℕ) : Except Fault UInt32T := do
  let x₀ ← readAt key p
  let x₁ ← readAt key (p + 1)
  let x₂ ← readAt key (p + 2)
  let x₃ ← readAt key (p + 3)
  return order.load x₀ x₁ x₂ x₃

/-! ### The two loops -/

/-- `while (length > size)`: three words of the key are read and mixed in, and `k` is advanced. The
pointer `k` is an offset into the key. -/
def blockLoop (size : ℕ) (read : ℕ → Except Fault (UInt32T × UInt32T × UInt32T)) :
    ℕ → Mixed → UInt32T → ℕ → Except Fault (Mixed × UInt32T × ℕ)
  | 0, _, _, _ => .error .diverge
  | fuel + 1, s, length, k =>
    if BitVec.ofNat 32 size < length then do
      let (x, y, z) ← read k
      blockLoop size read fuel (_jhashMix (s.add x y z)) (length - BitVec.ofNat 32 size) (k + size)
    else .ok (s, length, k)

/-- `switch (length)`, with the cases `size` to 1 and 0. In `case i + 1` what `read i` returns is
added to the word `word i`. The cases below are entered as well, those above are not. -/
def lastBlock (size : ℕ) (read : ℕ → Except Fault UInt32T) (word : ℕ → ℕ) (length : UInt32T)
    (s : Mixed) : Except Fault Mixed := do
  let s ← (List.range size).reverse.foldlM
    (fun s i => if i < length.toNat then do return s.addAt (word i) (← read i) else .ok s) s
  return if length = 0 then s else _jhashFinal s

/-- The three words `jhash` reads in one turn. -/
def jhashRead (order : ByteOrder) (key : List UInt8T) (k : ℕ) :
    Except Fault (UInt32T × UInt32T × UInt32T) := do
  let x ← _getUnalignedCpu32 order key k
  let y ← _getUnalignedCpu32 order key (k + 4)
  let z ← _getUnalignedCpu32 order key (k + 8)
  return (x, y, z)

/-- What `jhash` adds in `case i + 1`. -/
def jhashCase (key : List UInt8T) (k i : ℕ) : Except Fault UInt32T := do
  let x ← readAt key (k + i)
  return x.setWidth 32 <<< (8 * (i % 4))

/-- `jhash`. -/
def jhash (order : ByteOrder) (key : List UInt8T) (length initval : UInt32T) :
    Except Fault UInt32T := do
  let s := Mixed.seed (JHASH_INITVAL + length + initval)
  let (s, length, k) ← blockLoop 12 (jhashRead order key) (length.toNat + 1) s length 0
  let s ← lastBlock 12 (jhashCase key k) (· / 4) length s
  return s.c

/-- The three words `jhash2` reads in one turn. -/
def jhash2Read (key : List UInt32T) (k : ℕ) : Except Fault (UInt32T × UInt32T × UInt32T) := do
  let x ← readAt key k
  let y ← readAt key (k + 1)
  let z ← readAt key (k + 2)
  return (x, y, z)

/-- `jhash2`. -/
def jhash2 (key : List UInt32T) (length initval : UInt32T) : Except Fault UInt32T := do
  let s := Mixed.seed (JHASH_INITVAL + (length <<< 2) + initval)
  let (s, length, k) ← blockLoop 3 (jhash2Read key) (length.toNat + 1) s length 0
  let s ← lastBlock 3 (fun i => readAt key (k + i)) id length s
  return s.c

/-! ### A few words -/

/-- `jhash_3words`. -/
def jhash3words (a b c initval : UInt32T) : UInt32T :=
  (_jhashFinal ⟨a + JHASH_INITVAL, b + JHASH_INITVAL, c + initval⟩).c

/-- `jhash_2words`. -/
def jhash2words (a b initval : UInt32T) : UInt32T := jhash3words a b 0 initval

/-- `jhash_1word`. -/
def jhash1word (a initval : UInt32T) : UInt32T := jhash3words a 0 0 initval

end Vlstp
