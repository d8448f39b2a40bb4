import Vlstp.Hlist
import Vlstp.Framework.Reach
import Vlstp.Jhash.Words

/-!
# The hash table (`hash.c`)

A table of `HASH_SIZE` lists of tags. A tag is a block; besides its two list pointers the table has
its name, the bytes in front of the terminating zero, and whether it is allocated. The functions of
`hash.c` fault when they look at a tag that is not, or free it.

To its users a table is the list of the tags added to it, the last one first (`Tags`): looking up a
name finds the first tag that has it, wherever the hash function has put it.
`hash_runs_refine` says so for runs of any length, from memory with arbitrary contents. The loops
are given `fuel` turns, which is enough if the table never holds that many tags.
-/

namespace Vlstp

open SlotLinks

/-- `HASH_SIZE`. -/
def HASH_SIZE : ℕ := 64

/-- The table, and the memory of the tags. -/
structure HashTable where
  links : SlotLinks ℕ ℕ
  name : ℕ → List UInt8T
  live : ℕ → Bool

/-! ### Definitions -/

/-- `jhash(key, strlen(key), 0) & (HASH_SIZE - 1)`. -/
def hashIndex (order : ByteOrder) (key : List UInt8T) : Except Fault ℕ := do
  let h ← jhash order key (BitVec.ofNat 32 key.length) 0
  return (h &&& BitVec.ofNat 32 (HASH_SIZE - 1)).toNat

/-- A tag is looked at. -/
def touch (t : ℕ) (s : HashTable) : Except Fault Unit :=
  if s.live t then .ok () else .error (.useAfterFree t)

/-- What a pointer leads to is looked at, if it leads anywhere. -/
def touchAt (p : Option ℕ) (s : HashTable) : Except Fault Unit :=
  match p with
  | none => .ok ()
  | some t => touch t s

/-- The slot a `pprev` leads to is looked at. -/
def touchSlot (p : Option (Slot ℕ ℕ)) (s : HashTable) : Except Fault Unit :=
  match p with
  | some (.next t) => touch t s
  | _ => .ok ()

/-- `free(t)`. -/
def freeTag (t : ℕ) (s : HashTable) : Except Fault HashTable :=
  if s.live t then .ok { s with live := Function.update s.live t false }
  else .error (.doubleFree t)

/-- The loop of `main` over the lists: `INIT_HLIST_HEAD(&hashtable[i])`. -/
def hashInit (s : HashTable) : HashTable :=
  { s with links := (List.range HASH_SIZE).foldl (fun L i => initHlistHead i L) s.links }

/-- The tag `t` is allocated, and given a name. What else is in it is arbitrary. -/
def newTag (t : ℕ) (name : List UInt8T) (junk : Option ℕ × Option (Slot ℕ ℕ)) (s : HashTable) :
    HashTable :=
  { links := (s.links.setPtr (.next t) junk.1).setPprev t junk.2
    name := Function.update s.name t name
    live := Function.update s.live t true }

/-- `hash_add`. Linking a node in looks at it and at the one in front of which it comes. -/
def hashAdd (order : ByteOrder) (key : List UInt8T) (node : ℕ) (s : HashTable) :
    Except Fault HashTable := do
  let i ← hashIndex order key
  touch node s
  touchAt (s.links.ptr (.head i)) s
  return { s with links := hlistAddHead node i s.links }

/-- `hlist_for_each_entry`, up to the first tag with the name `key`. -/
def hashLookupLoop (key : List UInt8T) (s : HashTable) : ℕ → Option ℕ → Except Fault (Option ℕ)
  | 0, _ => .error .diverge
  | _ + 1, none => .ok none
  | fuel + 1, some t => do
    touch t s
    if s.name t = key then .ok (some t)
    else hashLookupLoop key s fuel (s.links.ptr (.next t))

/-- `hash_lookup_tag`. -/
def hashLookupTag (order : ByteOrder) (fuel : ℕ) (key : List UInt8T) (s : HashTable) :
    Except Fault (Option ℕ) := do
  let i ← hashIndex order key
  hashLookupLoop key s fuel (s.links.ptr (.head i))

/-- `hlist_for_each_entry_safe`, deleting and freeing every tag. Taking a node out looks at the two
beside it. -/
def hashDestroyLoop : ℕ → Option ℕ → HashTable → Except Fault HashTable
  | 0, _, _ => .error .diverge
  | _ + 1, none, s => .ok s
  | fuel + 1, some t, s => do
    touch t s
    let n := s.links.ptr (.next t)
    touchAt n s
    touchSlot (s.links.pprev t) s
    let links ← hlistDelInit t s.links
    let s ← freeTag t { s with links := links }
    hashDestroyLoop fuel n s

/-- `hash_table_destory`. -/
def hashTableDestory (fuel : ℕ) (head : ℕ) (s : HashTable) : Except Fault HashTable :=
  hashDestroyLoop fuel (s.links.ptr (.head head)) s

/-! ### The index -/

/-- The list a key belongs to. -/
def bucket (order : ByteOrder) (key : List UInt8T) : ℕ :=
  ((hashWords (keyWord order key (BitVec.ofNat 32 key.length).toNat)
    (((BitVec.ofNat 32 key.length).toNat + 3) / 4)
    (.seed (JHASH_INITVAL + BitVec.ofNat 32 key.length + 0))).c.toNat) % HASH_SIZE

theorem bucket_lt (order : ByteOrder) (key : List UInt8T) : bucket order key < HASH_SIZE :=
  Nat.mod_lt _ (by decide)

/-- The index is computed, and it is in bounds. -/
theorem hashIndex_eq (order : ByteOrder) (key : List UInt8T) :
    hashIndex order key = .ok (bucket order key) := by
  have hlen : (BitVec.ofNat 32 key.length).toNat ≤ key.length := by
    rw [BitVec.toNat_ofNat]
    exact Nat.mod_le ..
  have hmask (v : UInt32T) :
      (v &&& BitVec.ofNat 32 (HASH_SIZE - 1)).toNat = v.toNat % HASH_SIZE :=
    and_jhashMask v (by decide : 6 < 32)
  rw [hashIndex, jhash_eq hlen, Except.ok_bind, hmask]
  rfl

/-! ### The loops -/

variable {order : ByteOrder} {fuel i : ℕ} {s : HashTable} {a : Lists ℕ ℕ} {l : List ℕ}
  {key : List UInt8T}

/-- The loop finds the first tag of the list with the name. -/
theorem hashLookupLoop_eq {p : Option ℕ} {e : Slot ℕ ℕ} (hc : s.links.Chain e l none)
    (hp : s.links.ptr e = p) (hlive : ∀ t ∈ l, s.live t = true) (hfuel : l.length < fuel) :
    hashLookupLoop key s fuel p = .ok (l.find? fun t => s.name t = key) := by
  induction l generalizing p e fuel with
  | nil =>
    obtain ⟨fuel, rfl⟩ : ∃ n, fuel = n + 1 := ⟨fuel - 1, by omega⟩
    obtain rfl : none = p := hc.1.symm.trans hp
    rfl
  | cons x l ih =>
    obtain ⟨fuel, rfl⟩ : ∃ n, fuel = n + 1 := ⟨fuel - 1, by omega⟩
    obtain rfl : some x = p := hc.1.1.symm.trans hp
    obtain ⟨hx, hlive⟩ := List.forall_mem_cons.mp hlive
    rw [List.length_cons] at hfuel
    rw [hashLookupLoop, touch, if_pos hx, List.find?_cons]
    by_cases hname : s.name x = key
    · simp [hname]
    · simp only [Except.ok_bind, hname, if_false, decide_false]
      exact ih hc.2 rfl hlive (by omega)

/-- The loop frees all tags of the list. -/
theorem hashDestroyLoop_eq (hL : s.links.Holds a) (ha : a i = some l)
    (hlive : ∀ t ∈ l, s.live t = true) (hfuel : l.length < fuel) :
    ∃ s', hashDestroyLoop fuel (s.links.ptr (.head i)) s = .ok s' ∧
      s'.links.Holds (a.set i []) ∧ s'.name = s.name ∧
      s'.live = fun t => s.live t && t ∉ l := by
  induction l generalizing s a fuel with
  | nil =>
    obtain ⟨fuel, rfl⟩ : ∃ n, fuel = n + 1 := ⟨fuel - 1, by omega⟩
    have hsame : a.set i [] = a := by rw [Lists.set, ← ha, Function.update_eq_self]
    refine ⟨s, ?_, by rwa [hsame], rfl, by simp⟩
    rw [(hL.chain ha).1]
    rfl
  | cons x l ih =>
    obtain ⟨fuel, rfl⟩ : ∃ n, fuel = n + 1 := ⟨fuel - 1, by omega⟩
    obtain ⟨hx, hlive⟩ := List.forall_mem_cons.mp hlive
    rw [List.length_cons] at hfuel
    have hnodup := List.nodup_cons.mp (hL.nodup ha)
    have ha' : a i = some ([] ++ x :: l) := ha
    obtain ⟨⟨hfirst, hback⟩, hnext, -⟩ := hL.seams_of_mem ha'
    obtain ⟨L', hdel, hL', -⟩ := _hlistDel_holds hL ha'
    have hdelInit : hlistDelInit x s.links = .ok (initHlistNode x L') := by
      simp [hlistDelInit, hlistUnhashed, hback x rfl, hdel]
    have htouch : touchAt l.head? s = .ok () := by
      cases l with
      | nil => rfl
      | cons y l => exact if_pos (hlive y (List.mem_cons_self ..))
    have hslot : touchSlot (s.links.pprev x) s = .ok () := by
      rw [hback x rfl]
      rfl
    -- the tag is on no list any more, and the others are as they were
    obtain ⟨s₁, hs₁⟩ : ∃ s₁ : HashTable, s₁ = ⟨initHlistNode x L', s.name,
      Function.update s.live x false⟩ := ⟨_, rfl⟩
    have hL₁ : s₁.links.Holds (a.set i l) :=
      hs₁ ▸ store_holds hL' (hL.off_middle ha') none none
    have hlive₁ (t : ℕ) (ht : t ∈ l) : s₁.live t = true := by
      have hne : t ≠ x := fun heq => hnodup.1 (heq ▸ ht)
      rw [hs₁]
      simpa [hne] using hlive t ht
    obtain ⟨s', hloop, hholds, hname, hrest⟩ := ih hL₁ (Lists.set_self ..) hlive₁
      (by omega : l.length < fuel)
    refine ⟨s', ?_, by simpa using hholds, by rw [hname, hs₁], ?_⟩
    · have hhead : s₁.links.ptr (.head i) = s.links.ptr (.next x) := by
        have hfront : (a.set i l) i = some ([] ++ l) := Lists.set_self ..
        rw [hnext]
        exact (hL₁.seam hfront).1
      have hptr : s.links.ptr (.head i) = some x := hfirst
      have hfree : freeTag x ⟨initHlistNode x L', s.name, s.live⟩ = .ok s₁ :=
        (if_pos hx).trans (by rw [hs₁])
      simp only [hptr, hashDestroyLoop, touch, if_pos hx, Except.ok_bind, hnext, htouch, hslot,
        hdelInit, hfree]
      rw [← hnext, ← hhead]
      exact hloop
    · rw [hrest, hs₁]
      funext t
      by_cases ht : t = x
      · simp [ht]
      · simp [ht]

/-! ### Runs -/

/-- A call, or the allocation of a tag. -/
inductive HashCall
  | create (t : ℕ) (name : List UInt8T) (junk : Option ℕ × Option (Slot ℕ ℕ))
  | add (key : List UInt8T) (node : ℕ)
  | lookup (key : List UInt8T)
  | destroy (head : ℕ)

/-- One call. Looking up returns the tag found, the others nothing. -/
def hashStep (order : ByteOrder) (fuel : ℕ) (s : HashTable) :
    HashCall → Except Fault (Option (Option ℕ) × HashTable)
  | .create t name junk => .ok (none, newTag t name junk s)
  | .add key node => do return (none, ← hashAdd order key node s)
  | .lookup key => do return (some (← hashLookupTag order fuel key s), s)
  | .destroy head => do return (none, ← hashTableDestory fuel head s)

/-- The tags in the table, the last one added first; and what the memory of the tags is. -/
structure Tags where
  entries : List ℕ
  name : ℕ → List UInt8T
  live : ℕ → Bool

/-- The tags whose name belongs to the list `i`. -/
def Tags.bucket (order : ByteOrder) (b : Tags) (i : ℕ) : List ℕ :=
  b.entries.filter fun t => Vlstp.bucket order (b.name t) = i

/-- **What the calls do to the table.** A tag is added under its own name, and is not in the table
yet. -/
inductive TagMove (order : ByteOrder) (fuel : ℕ) : Tags → HashCall × Option (Option ℕ) → Tags → Prop
  | create {b : Tags} {t : ℕ} {name : List UInt8T} {junk : Option ℕ × Option (Slot ℕ ℕ)}
      (ht : b.live t = false) :
      TagMove order fuel b (.create t name junk, none)
        ⟨b.entries, Function.update b.name t name, Function.update b.live t true⟩
  | add {b : Tags} {t : ℕ} (hlive : b.live t = true) (ht : t ∉ b.entries)
      (hroom : b.entries.length + 1 < fuel) :
      TagMove order fuel b (.add (b.name t) t, none) { b with entries := t :: b.entries }
  | lookup {b : Tags} {key : List UInt8T} :
      TagMove order fuel b (.lookup key, some (b.entries.find? fun t => b.name t = key)) b
  /-- All tags of one of the lists leave the table, and are freed. -/
  | destroy {b : Tags} {i : ℕ} (hi : i < HASH_SIZE) :
      TagMove order fuel b (.destroy i, none)
        ⟨b.entries.filter (· ∉ b.bucket order i), b.name,
          fun t => b.live t && t ∉ b.bucket order i⟩

/-- The lists of the table. -/
def Tags.lists (order : ByteOrder) (b : Tags) : Lists ℕ ℕ := fun i =>
  if i < HASH_SIZE then some (b.bucket order i) else none

/-- The memory has the table `b`. -/
structure HoldsTags (order : ByteOrder) (fuel : ℕ) (s : HashTable) (b : Tags) : Prop where
  holds : s.links.Holds (b.lists order)
  name : s.name = b.name
  live : s.live = b.live
  nodup : b.entries.Nodup
  allocated : ∀ t ∈ b.entries, b.live t = true
  room : b.entries.length < fuel

section

variable {b b' : Tags} {call : HashCall} {r : Option (Option ℕ)} {t : ℕ}

theorem Tags.lists_of_lt (hi : i < HASH_SIZE) : b.lists order i = some (b.bucket order i) :=
  if_pos hi

/-- A tag on a list is in the table. -/
theorem Tags.mem_of_on (ht : (b.lists order).On t) : t ∈ b.entries := by
  obtain ⟨i, l, hl, ht⟩ := ht
  rw [Tags.lists] at hl
  split at hl
  · obtain rfl := Option.some.inj hl
    exact List.mem_of_mem_filter ht
  · cases hl

theorem Tags.mem_bucket_iff (hi : t ∈ b.entries) :
    t ∈ b.bucket order i ↔ Vlstp.bucket order (b.name t) = i := by
  simp [Tags.bucket, hi]

/-- Looking in the right list is looking everywhere. -/
theorem find_bucket_eq (b : Tags) (key : List UInt8T) :
    (b.bucket order (bucket order key)).find? (fun t => b.name t = key) =
      b.entries.find? fun t => b.name t = key := by
  rw [Tags.bucket, List.find?_filter]
  congr 1
  funext t
  by_cases hname : b.name t = key
  · simp [hname]
  · simp [hname]

/-- **One call.** -/
theorem TagMove.step (hmove : TagMove order fuel b (call, r) b') (hR : HoldsTags order fuel s b) :
    ∃ s', hashStep order fuel s call = .ok (r, s') ∧ HoldsTags order fuel s' b' := by
  cases hmove with
  | @create t name junk ht =>
    have hout : t ∉ b.entries := fun hmem => by
      rw [hR.allocated t hmem] at ht
      cases ht
    have hne (t' : ℕ) (ht' : t' ∈ b.entries) : t' ≠ t := fun heq => hout (heq ▸ ht')
    have hlists : Tags.lists order ⟨b.entries, Function.update b.name t name,
        Function.update b.live t true⟩ = b.lists order := by
      funext i
      rw [Tags.lists, Tags.lists, Tags.bucket, Tags.bucket]
      congr 2
      refine List.filter_congr fun t' ht' => ?_
      simp [hne t' ht']
    refine ⟨newTag t name junk s, rfl, ?_, ?_, ?_, hR.nodup, fun t' ht' => ?_, hR.room⟩
    · rw [hlists]
      exact store_holds hR.holds (fun hon => hout (Tags.mem_of_on hon)) junk.1 junk.2
    · rw [newTag, hR.name]
    · rw [newTag, hR.live]
    · simpa [hne t' ht'] using hR.allocated t' ht'
  | @add t hlive ht hroom =>
    have hi := bucket_lt order (b.name t)
    have hl : b.lists order (bucket order (b.name t)) = some (b.bucket order _) :=
      Tags.lists_of_lt hi
    obtain ⟨hL', -⟩ := hlistAddHead_holds hR.holds hl fun hon => ht (Tags.mem_of_on hon)
    have hlists : (b.lists order).set (bucket order (b.name t))
        (t :: b.bucket order (bucket order (b.name t))) =
        Tags.lists order { b with entries := t :: b.entries } := by
      funext i
      by_cases hi' : i = bucket order (b.name t)
      · subst hi'
        rw [Lists.set_self, Tags.lists_of_lt hi]
        simp [Tags.bucket]
      · rw [Lists.set_of_ne hi', Tags.lists, Tags.lists]
        simp [Tags.bucket, Ne.symm hi']
    have hfirst : s.links.ptr (.head (bucket order (b.name t))) =
        (b.bucket order (bucket order (b.name t))).head? := by
      have hfront : b.lists order (bucket order (b.name t)) =
          some ([] ++ b.bucket order (bucket order (b.name t))) := hl
      exact (hR.holds.seam hfront).1
    rw [hlists] at hL'
    refine ⟨{ s with links := hlistAddHead t (bucket order (b.name t)) s.links }, ?_, hL', hR.name,
      hR.live, List.nodup_cons.mpr ⟨ht, hR.nodup⟩, ?_, hroom⟩
    · have htouch : touch t s = .ok () := if_pos (by rw [hR.live, hlive])
      have htouch' : touchAt (b.bucket order (bucket order (b.name t))).head? s = .ok () := by
        cases hhead : (b.bucket order (bucket order (b.name t))).head? with
        | none => rfl
        | some y =>
          have hy := List.mem_of_mem_filter (List.mem_of_mem_head? hhead)
          exact if_pos (by rw [hR.live, hR.allocated y hy])
      simp only [hashStep, hashAdd, hashIndex_eq, hfirst, htouch, htouch', Except.ok_bind]
      rfl
    · exact List.forall_mem_cons.mpr ⟨hlive, hR.allocated⟩
  | @lookup key =>
    have hl : b.lists order (bucket order key) = some (b.bucket order _) :=
      Tags.lists_of_lt (bucket_lt order key)
    have hlive (t : ℕ) (ht : t ∈ b.bucket order (bucket order key)) : s.live t = true := by
      rw [hR.live]
      exact hR.allocated t (List.mem_of_mem_filter ht)
    have hlen : (b.bucket order (bucket order key)).length < fuel :=
      lt_of_le_of_lt (List.length_filter_le ..) hR.room
    have hloop : hashLookupLoop key s fuel (s.links.ptr (.head (bucket order key))) =
        .ok ((b.bucket order (bucket order key)).find? fun t => s.name t = key) :=
      hashLookupLoop_eq (hR.holds.chain hl) rfl hlive hlen
    rw [hR.name, find_bucket_eq] at hloop
    refine ⟨s, ?_, hR⟩
    simp only [hashStep, hashLookupTag, hashIndex_eq, Except.ok_bind, hloop]
    rfl
  | @destroy i hi =>
    have hlive (t : ℕ) (ht : t ∈ b.bucket order i) : s.live t = true := by
      rw [hR.live]
      exact hR.allocated t (List.mem_of_mem_filter ht)
    have hlen : (b.bucket order i).length < fuel :=
      lt_of_le_of_lt (List.length_filter_le ..) hR.room
    obtain ⟨s', hloop, hL', hname, hrest⟩ :=
      hashDestroyLoop_eq hR.holds (Tags.lists_of_lt hi) hlive hlen
    have hlists : (b.lists order).set i [] = Tags.lists order ⟨b.entries.filter
        (· ∉ b.bucket order i), b.name, fun t => b.live t && t ∉ b.bucket order i⟩ := by
      funext j
      by_cases hj : j = i
      · subst hj
        rw [Lists.set_self, Tags.lists_of_lt hi, Tags.bucket, List.filter_filter]
        refine congrArg some (List.filter_eq_nil_iff.mpr fun t ht => ?_).symm
        simp [Tags.mem_bucket_iff ht]
      · rw [Lists.set_of_ne hj, Tags.lists, Tags.lists, Tags.bucket, Tags.bucket,
          List.filter_filter]
        congr 2
        refine List.filter_congr fun t ht => ?_
        by_cases hb : bucket order (b.name t) = j
        · simp [Tags.mem_bucket_iff ht, hb, hj]
        · simp [hb]
    rw [hlists] at hL'
    refine ⟨s', ?_, hL', by rw [hname, hR.name], by rw [hrest, hR.live], hR.nodup.filter _, ?_, ?_⟩
    · simp only [hashStep, hashTableDestory, hloop]
      rfl
    · intro t ht
      obtain ⟨ht, hout⟩ := List.mem_filter.mp ht
      simpa [hR.allocated t ht] using hout
    · exact lt_of_le_of_lt (List.length_filter_le ..) hR.room

/-- After the loop of `main` every list is empty. -/
theorem hashInit_holds (s : HashTable) :
    (hashInit s).links.Holds (Tags.lists order ⟨[], s.name, s.live⟩) := by
  have hloop (n : ℕ) : ((List.range n).foldl (fun L i => initHlistHead i L) s.links).Holds
      fun i => if i < n then some [] else none := by
    induction n with
    | zero => simpa using holds_none s.links
    | succ n ih =>
      rw [List.range_succ, List.foldl_append, List.foldl_cons, List.foldl_nil]
      have hinit := (initHlistHead_holds (h := n) ih).1
      have hlists : Lists.set (fun i => if i < n then some ([] : List ℕ) else none) n [] =
          fun i => if i < n + 1 then some [] else none := by
        funext i
        by_cases hi : i = n
        · simp [hi]
        · rw [Lists.set_of_ne hi]
          have hiff : i < n + 1 ↔ i < n := by omega
          simp [hiff]
      rwa [hlists] at hinit
  exact hloop HASH_SIZE

/-- The loop of `main` at the end, over the first `n` lists. -/
def destroyAll (n : ℕ) : List (HashCall × Option (Option ℕ)) :=
  (List.range n).map fun i => (.destroy i, none)

/-- The tags whose lists have been destroyed have left the table. -/
theorem run_destroyAll (b : Tags) {n : ℕ} (hn : n ≤ HASH_SIZE) :
    Run (TagMove order fuel) b (destroyAll n)
      ⟨b.entries.filter fun t => n ≤ bucket order (b.name t), b.name,
        fun t => b.live t && !(t ∈ b.entries && bucket order (b.name t) < n)⟩ := by
  induction n with
  | zero =>
    have hnil : Run (TagMove order fuel) b [] b := .nil
    simpa [destroyAll] using hnil
  | succ n ih =>
    have hdestroy := (ih (by omega)).snoc (TagMove.destroy hn)
    have htrace : destroyAll (n + 1) = destroyAll n ++ [(.destroy n, none)] := by
      simp [destroyAll, List.range_succ]
    -- the tags of the list `n` are those of the table that is left
    have hbucket (t : ℕ) : t ∈ Tags.bucket order ⟨b.entries.filter fun t =>
        n ≤ bucket order (b.name t), b.name, fun t => b.live t &&
          !(t ∈ b.entries && bucket order (b.name t) < n)⟩ n ↔
        t ∈ b.entries ∧ bucket order (b.name t) = n := by
      simp only [Tags.bucket, List.mem_filter, decide_eq_true_eq]
      constructor
      · exact fun ⟨⟨ht, _⟩, hn⟩ => ⟨ht, hn⟩
      · exact fun ⟨ht, hn⟩ => ⟨⟨ht, hn.ge⟩, hn⟩
    rw [htrace]
    simp only [hbucket, List.filter_filter] at hdestroy
    convert hdestroy using 2
    · refine List.filter_congr fun t ht => ?_
      simp only [ht, true_and, ← Bool.decide_and, decide_eq_decide]
      omega
    · funext t
      by_cases ht : t ∈ b.entries
      · simp only [ht, true_and, Bool.and_assoc, decide_true, Bool.true_and]
        congr 1
        rw [← decide_not, ← decide_not, ← Bool.decide_and, decide_eq_decide]
        omega
      · simp [ht]

/-- **Runs of the hash table.** Whatever is in memory at first, in every run from the initialised
table, in which tags are added under their own names and never `fuel` of them are in the table at
once, looking up a name finds the tag of that name added last, no tag is looked at or freed after it
was freed, and a tag is freed just when its list is destroyed. When all lists are destroyed in the
end, the tags in the table are freed, and no others. -/
theorem hash_runs_refine (order : ByteOrder) (s₀ : HashTable) (hfuel : 0 < fuel)
    {trace : List (HashCall × Option (Option ℕ))}
    (hrun : Run (TagMove order fuel) ⟨[], s₀.name, s₀.live⟩ trace b) :
    (∃ s, exec (hashStep order fuel) (hashInit s₀) (trace.map Prod.fst) =
        .ok (trace.map Prod.snd, s) ∧ HoldsTags order fuel s b) ∧
      ∃ s rs, exec (hashStep order fuel) (hashInit s₀)
          ((trace ++ destroyAll HASH_SIZE).map Prod.fst) = .ok (rs, s) ∧
        HoldsTags order fuel s ⟨[], b.name, fun t => b.live t && t ∉ b.entries⟩ := by
  have hstart : HoldsTags order fuel (hashInit s₀) ⟨[], s₀.name, s₀.live⟩ :=
    ⟨hashInit_holds s₀, rfl, rfl, List.nodup_nil, by simp, hfuel⟩
  refine ⟨hrun.returns_trace hstart fun _ _ _ _ _ hR hmove => hmove.step hR, ?_⟩
  obtain ⟨s, hexec, hR⟩ := (hrun.append (run_destroyAll b le_rfl)).returns_trace hstart
    fun _ _ _ _ _ hR hmove => hmove.step hR
  refine ⟨s, _, hexec, ?_⟩
  have hnone : b.entries.filter (fun t => HASH_SIZE ≤ bucket order (b.name t)) = [] :=
    List.filter_eq_nil_iff.mpr fun t _ => by simpa using bucket_lt order (b.name t)
  simpa [hnone, bucket_lt] using hR

end

/-- A tag is added, and found under its name alone. -/
theorem hash_runs_refine_one :
    ∃ s, exec (hashStep .little 2) (hashInit ⟨⟨fun _ => none, fun _ => none⟩, fun _ => [],
        fun _ => false⟩) [.create 5 [97] (none, none), .add [97] 5, .lookup [97], .lookup [98]] =
      .ok ([none, none, some (some 5), some none], s) := by
  obtain ⟨b, hb⟩ : ∃ b : Tags, b = ⟨[5], Function.update (fun _ => []) 5 [97],
    Function.update (fun _ => false) 5 true⟩ := ⟨_, rfl⟩
  have hcreate : TagMove .little 2 ⟨[], fun _ => [], fun _ => false⟩
      (.create 5 [97] (none, none), none) ⟨[], b.name, b.live⟩ := hb ▸ .create rfl
  have hadd : TagMove .little 2 ⟨[], b.name, b.live⟩ (.add [97] 5, none) b := by
    subst hb
    exact @TagMove.add .little 2 ⟨[], _, _⟩ 5 rfl List.not_mem_nil (Nat.lt_succ_self 1)
  have hfound : TagMove .little 2 b (.lookup [97], some (some 5)) b := hb ▸ .lookup
  have hmissed : TagMove .little 2 b (.lookup [98], some none) b := hb ▸ .lookup
  have hrun := (((Run.nil.snoc hcreate).snoc hadd).snoc hfound).snoc hmissed
  obtain ⟨s, hexec, -⟩ := (hash_runs_refine .little ⟨⟨fun _ => none, fun _ => none⟩, fun _ => [],
    fun _ => false⟩ (by decide) hrun).1
  exact ⟨s, hexec⟩

end Vlstp
