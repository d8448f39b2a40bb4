import Vlstp.Bitmap
import Vlstp.Serial

/-!
# The TSN map (`tsnmap.h`, `tsnmap.c`)

The map of received transmission sequence numbers, translated function by function.
`struct vlstp_tsnmap` is a value that the functions take and return; what `tsn_map` points to is in
the heap. The widths are the source's: TSNs are 32 bits, `len` and the gaps of `vlstp_tsnmap_mark`
16, and every conversion between them is written out.

The functions that allocate take the allocator as an argument (`vlstpTsnmapInitWith`, ...), for the
sake of statements about another heap; the functions of the source are these with `malloc`.

The size arguments of the bitmap functions are never compile-time constants here, so every call
takes their general branch.
-/

namespace Vlstp

/-- `VLSTP_TSN_MAP_INCREMENT`, which is `VLSTP_TSN_MAP_INITIAL`, which is `BITS_PER_LONG`. -/
def tsnMapIncrement : BitVec 32 := 64

/-- `VLSTP_TSN_MAP_SIZE`. -/
def tsnMapSize : ℕ := 4096

/-- `VLSTP_MAX_DUP_TSNS`. -/
def maxDupTsns : ℕ := 16

/-- `VLSTP_MAX_GABS`. -/
def maxGabs : ℕ := 16

/-- `ENOMEM`. -/
def enomem : ℤ := 12

/-- `struct vlstp_tsnmap`. -/
structure TsnMap where
  tsnMap : Ptr
  /-- The TSN at bit 0 of `tsnMap`. -/
  baseTsn : Tsn
  cumulativeTsnAckPoint : Tsn
  maxTsnSeen : Tsn
  /-- The number of bits of `tsnMap`. -/
  len : BitVec 16
  numDupTsns : BitVec 16
  dupTsns : ℕ → Tsn

/-- `struct vlstp_tsnmap_iter`. -/
structure TsnMapIter where
  start : Tsn
  deriving DecidableEq

/-- `struct vlstp_gap_ack_block`. -/
structure GapAckBlock where
  start : BitVec 16
  stop : BitVec 16
  deriving DecidableEq

/-- `htons` on a little-endian machine. -/
def htons (x : BitVec 16) : BitVec 16 := x >>> 8 ||| x <<< 8

/-- `htonl` on a little-endian machine. -/
def htonl (x : BitVec 32) : BitVec 32 :=
  x >>> 24 ||| (x >>> 8 &&& 0xff00) ||| (x <<< 8 &&& 0xff0000) ||| x <<< 24

/-- `malloc`, for words of 8 bytes. -/
def malloc (bytes : ℕ) (h : Mem) : Ptr × Mem := h.malloc 8 bytes

/-! ### Initialisation -/

/-- Keep track of TSNs represented by `tsn_map`: the end of `vlstp_tsnmap_init`. -/
def vlstpTsnmapInit.start (initialTsn : Tsn) (map : TsnMap) : TsnMap :=
  { map with
    baseTsn := initialTsn
    cumulativeTsnAckPoint := initialTsn - 1
    maxTsnSeen := initialTsn - 1
    numDupTsns := 0 }

/-- `vlstp_tsnmap_init`, with `alloc` for `malloc`; the result says whether it returned the map or
`NULL`. -/
def vlstpTsnmapInitWith (alloc : ℕ → Mem → Ptr × Mem) (map : TsnMap) (len : BitVec 16)
    (initialTsn : Tsn) (h : Mem) : Except Fault (Bool × TsnMap × Mem) := do
  if map.tsnMap = none then
    let (p, h) := alloc (len >>> 3).toNat h
    let map := { map with tsnMap := p }
    if p = none then return (false, map, h)
    let map := { map with len := len }
    return (true, vlstpTsnmapInit.start initialTsn map, h)
  else
    let h ← bitmapZero false map.tsnMap map.len.toNat h
    return (true, vlstpTsnmapInit.start initialTsn map, h)

/-- `vlstp_tsnmap_init`. -/
abbrev vlstpTsnmapInit := vlstpTsnmapInitWith malloc

/-- `vlstp_tsnmap_free`. -/
def vlstpTsnmapFree (map : TsnMap) (h : Mem) : Except Fault (TsnMap × Mem) := do
  let map := { map with len := 0 }
  let h ← h.free map.tsnMap
  return (map, h)

/-! ### Marking -/

/-- `vlstp_tsnmap_has_gap`. -/
def vlstpTsnmapHasGap (map : TsnMap) : Bool := map.cumulativeTsnAckPoint != map.maxTsnSeen

/-- `vlstp_tsnmap_check`. -/
def vlstpTsnmapCheck (map : TsnMap) (tsn : Tsn) (h : Mem) : Except Fault ℤ :=
  if tsnLte tsn map.cumulativeTsnAckPoint then .ok 1
  else if tsnLt tsn (map.baseTsn + BitVec.ofNat 32 tsnMapSize) = 0 then .ok (-1)
  else
    let gap := tsn - map.baseTsn
    if gap.toNat < map.len.toNat then do
      let seen ← testBit gap.toNat map.tsnMap h
      return if seen then 1 else 0
    else .ok 0

/-- The length `vlstp_tsnmap_grow` gives the new buffer. `size - map->len` is computed as an `int`,
aligned to `BITS_PER_LONG` and enlarged as one, and widened with its sign to `unsigned long`. -/
def grownLen (len size : BitVec 16) : BitVec 16 :=
  let diff : BitVec 32 := size.zeroExtend 32 - len.zeroExtend 32
  let inc : BitVec 64 := (((diff + 63) &&& ~~~63) + tsnMapIncrement).signExtend 64
  let sum : BitVec 64 := len.zeroExtend 64 + inc
  (if sum < BitVec.ofNat 64 tsnMapSize then sum else BitVec.ofNat 64 tsnMapSize).setWidth 16

/-- `vlstp_tsnmap_grow`, with `alloc` for `malloc`. -/
def vlstpTsnmapGrowWith (alloc : ℕ → Mem → Ptr × Mem) (map : TsnMap) (size : BitVec 16) (h : Mem) :
    Except Fault (Bool × TsnMap × Mem) := do
  if size.toNat > tsnMapSize then return (false, map, h)
  let len := grownLen map.len size
  let (new, h) := alloc (len >>> 3).toNat h
  if new = none then return (false, map, h)
  let h ← bitmapCopy false new map.tsnMap (map.maxTsnSeen - map.cumulativeTsnAckPoint).toNat h
  let h ← h.free map.tsnMap
  return (true, { map with tsnMap := new, len := len }, h)

/-- `vlstp_tsnmap_grow`. -/
abbrev vlstpTsnmapGrow := vlstpTsnmapGrowWith malloc

/-- `vlstp_tsnmap_update`. -/
def vlstpTsnmapUpdate (map : TsnMap) (h : Mem) : Except Fault (TsnMap × Mem) := do
  let len : BitVec 16 := (map.maxTsnSeen - map.cumulativeTsnAckPoint).setWidth 16
  let zeroBit ← findFirstZeroBit map.tsnMap len.toNat h
  if zeroBit = 0 then return (map, h)
  let map :=
    { map with
      baseTsn := map.baseTsn + BitVec.ofNat 32 zeroBit
      cumulativeTsnAckPoint := map.cumulativeTsnAckPoint + BitVec.ofNat 32 zeroBit }
  let h ← bitmapShiftRight false map.tsnMap map.tsnMap zeroBit map.len.toNat h
  return (map, h)

/-- `vlstp_tsnmap_mark`, with `alloc` for `malloc`. -/
def vlstpTsnmapMarkWith (alloc : ℕ → Mem → Ptr × Mem) (map : TsnMap) (tsn : Tsn) (h : Mem) :
    Except Fault (ℤ × TsnMap × Mem) := do
  if tsnLt tsn map.baseTsn ≠ 0 then return (0, map, h)
  let gap : BitVec 16 := (tsn - map.baseTsn).setWidth 16
  let (grown, map, h) ←
    if gap.toNat ≥ map.len.toNat then vlstpTsnmapGrowWith alloc map (gap + 1) h
    else pure (true, map, h)
  if !grown then return (-enomem, map, h)
  if !vlstpTsnmapHasGap map && gap == 0 then
    let map :=
      { map with
        maxTsnSeen := map.maxTsnSeen + 1
        cumulativeTsnAckPoint := map.cumulativeTsnAckPoint + 1
        baseTsn := map.baseTsn + 1 }
    return (0, map, h)
  else
    let map := if tsnLt map.maxTsnSeen tsn ≠ 0 then { map with maxTsnSeen := tsn } else map
    let h ← setBit gap.toNat map.tsnMap h
    let (map, h) ← vlstpTsnmapUpdate map h
    return (0, map, h)

/-- `vlstp_tsnmap_mark`. -/
abbrev vlstpTsnmapMark := vlstpTsnmapMarkWith malloc

/-- `vlstp_tsnmap_skip`. -/
def vlstpTsnmapSkip (map : TsnMap) (tsn : Tsn) (h : Mem) : Except Fault (TsnMap × Mem) := do
  if tsnLt tsn map.baseTsn ≠ 0 then return (map, h)
  if tsnLt tsn (map.baseTsn + BitVec.ofNat 32 tsnMapSize) = 0 then return (map, h)
  let map := if tsnLt map.maxTsnSeen tsn ≠ 0 then { map with maxTsnSeen := tsn } else map
  let gap := tsn - map.baseTsn + 1
  let map :=
    { map with
      baseTsn := map.baseTsn + gap
      cumulativeTsnAckPoint := map.cumulativeTsnAckPoint + gap }
  if gap.toNat ≥ map.len.toNat then
    let h ← bitmapZero false map.tsnMap map.len.toNat h
    return (map, h)
  else
    let h ← bitmapShiftRight false map.tsnMap map.tsnMap gap.toNat map.len.toNat h
    vlstpTsnmapUpdate map h

/-- `vlstp_tsnmap_renege`. -/
def vlstpTsnmapRenege (map : TsnMap) (tsn : Tsn) (h : Mem) : Except Fault Mem :=
  if tsnLt tsn map.baseTsn ≠ 0 then .ok h
  else if tsnLt tsn (map.baseTsn + map.len.zeroExtend 32) = 0 then .ok h
  else clearBit (tsn - map.baseTsn).toNat map.tsnMap h

/-! ### Reading -/

/-- `vlstp_tsnmap_get_ctsn`. -/
def vlstpTsnmapGetCtsn (map : TsnMap) : Tsn := map.cumulativeTsnAckPoint

/-- `vlstp_tsnmap_get_max_tsn_seen`. -/
def vlstpTsnmapGetMaxTsnSeen (map : TsnMap) : Tsn := map.maxTsnSeen

/-- `vlstp_tsnmap_pending`. -/
def vlstpTsnmapPending (map : TsnMap) (h : Mem) : Except Fault (BitVec 16) :=
  let pendingData : BitVec 16 := (map.maxTsnSeen - map.cumulativeTsnAckPoint).setWidth 16
  let gap := map.maxTsnSeen - map.baseTsn
  if gap = 0 ∨ gap.toNat ≥ map.len.toNat then .ok pendingData
  else do
    let weight ← bitmapWeight false map.tsnMap (gap + 1).toNat h
    return pendingData - BitVec.ofNat 16 weight

/-- `vlstp_tsnmap_iter_init`. -/
def vlstpTsnmapIterInit (map : TsnMap) : TsnMapIter := ⟨map.cumulativeTsnAckPoint + 1⟩

/-- `vlstp_tsnmap_find_gap_ack`, which writes through `start` and `end` only what it finds. -/
def vlstpTsnmapFindGapAck (map : Ptr) (off len : BitVec 16) (start stop : BitVec 16) (h : Mem) :
    Except Fault (BitVec 16 × BitVec 16) := do
  let i ← findNextBit map len.toNat off.toNat h
  let start := if i < len.toNat then BitVec.ofNat 16 i else start
  if start ≠ 0 then
    let i ← findNextZeroBit map len.toNat i h
    return (start, if i < len.toNat then BitVec.ofNat 16 (i - 1) else stop)
  else return (start, stop)

/-- `vlstp_tsnmap_next_gap_ack`: the iterator it leaves, and the block if it returns 1. -/
def vlstpTsnmapNextGapAck (map : TsnMap) (iter : TsnMapIter) (h : Mem) :
    Except Fault (Option GapAckBlock × TsnMapIter) :=
  -- If there are no more gap acks possible, get out fast.
  if tsnLte map.maxTsnSeen iter.start then .ok (none, iter)
  else do
    let offset : BitVec 16 := (iter.start - map.baseTsn).setWidth 16
    let (start, stop) ← vlstpTsnmapFindGapAck map.tsnMap offset map.len 0 0 h
    -- The Gap Ack Block happens to end at the end of the map.
    let stop := if start ≠ 0 ∧ stop = 0 then map.len - 1 else stop
    if stop ≠ 0 then
      let block : GapAckBlock := ⟨start + 1, stop + 1⟩
      let next := map.cumulativeTsnAckPoint + block.stop.zeroExtend 32 + 1
      return (some block, ⟨next⟩)
    else return (none, iter)

/-- The `while` loop of `vlstp_tsnmap_num_gabs`, which leaves at `VLSTP_MAX_GABS` blocks. -/
def numGabsLoop (map : TsnMap) (h : Mem) :
    ℕ → TsnMapIter → ℕ → (ℕ → GapAckBlock) → Except Fault (ℕ × (ℕ → GapAckBlock))
  | 0, _, _, _ => .error .diverge
  | fuel + 1, iter, ngaps, gabs => do
    match ← vlstpTsnmapNextGapAck map iter h with
    | (none, _) => return (ngaps, gabs)
    | (some block, iter) =>
      let gabs := Function.update gabs ngaps ⟨htons block.start, htons block.stop⟩
      let ngaps := ngaps + 1
      if ngaps ≥ maxGabs then return (ngaps, gabs)
      else numGabsLoop map h fuel iter ngaps gabs

/-- `vlstp_tsnmap_num_gabs`: the count it returns, and the caller's array `gabs` after it. -/
def vlstpTsnmapNumGabs (map : TsnMap) (gabs : ℕ → GapAckBlock) (h : Mem) :
    Except Fault (BitVec 16 × (ℕ → GapAckBlock)) :=
  if vlstpTsnmapHasGap map then do
    let (ngaps, gabs) ← numGabsLoop map h maxGabs (vlstpTsnmapIterInit map) 0 gabs
    return (BitVec.ofNat 16 ngaps, gabs)
  else .ok (0, gabs)

/-! ### Duplicates -/

/-- `vlstp_tsnmap_num_dups`. -/
def vlstpTsnmapNumDups (map : TsnMap) : BitVec 16 := map.numDupTsns

/-- `vlstp_tsnmap_get_dups`: the array the SACK is built from, and the map with its count reset. -/
def vlstpTsnmapGetDups (map : TsnMap) : (ℕ → Tsn) × TsnMap :=
  (map.dupTsns, { map with numDupTsns := 0 })

/-- `vlstp_tsnmap_mark_dup`. -/
def vlstpTsnmapMarkDup (map : TsnMap) (tsn : Tsn) : TsnMap :=
  if map.numDupTsns.toNat < maxDupTsns then
    { map with
      dupTsns := Function.update map.dupTsns map.numDupTsns.toNat (htonl tsn)
      numDupTsns := map.numDupTsns + 1 }
  else map

end Vlstp
