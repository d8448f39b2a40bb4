import Vlstp.Framework.SlotLists

/-!
# Paths

Nodes that know what comes after them and nothing else. `SlotPath ptr s l e` says that following the
pointers `ptr` from the slot `s` leads through the nodes `l` to `e`. A node is put in with two
stores, one to its own pointer and one to the slot in front of the place (`SlotPath.insert`), and no
other pointer is touched.
-/

open SlotLinks

/-- From `s` through `l` to `e`. -/
def SlotPath {H N : Type} (ptr : Slot H N → Option N) : Slot H N → List N → Option N → Prop
  | s, [], e => ptr s = e
  | s, x :: l, e => ptr s = some x ∧ SlotPath ptr (.next x) l e

namespace SlotPath

variable {H N : Type} {ptr ptr' : Slot H N → Option N} {s : Slot H N} {e : Option N} {x : N}
  {l pre post : List N}

/-- What the slot at a place of a path points to. -/
theorem seam (hp : SlotPath ptr s (pre ++ post) e) : ptr (lastSlot s pre) = post.head?.or e := by
  induction pre generalizing s with
  | nil =>
    cases post with
    | nil => exact hp
    | cons y post => exact hp.1
  | cons y pre ih => exact ih hp.2

/-- The path behind a place. -/
theorem behind (hp : SlotPath ptr s (pre ++ post) e) : SlotPath ptr (lastSlot s pre) post e := by
  induction pre generalizing s with
  | nil => exact hp
  | cons y pre ih => exact ih hp.2

/-- **The frame rule.** A path reads the slot it starts from, whichever that is, and those of its
nodes. -/
theorem congr {s' : Slot H N} (hp : SlotPath ptr s l e) (hs : ptr' s' = ptr s)
    (hnext : ∀ n ∈ l, ptr' (.next n) = ptr (.next n)) : SlotPath ptr' s' l e := by
  induction l generalizing s s' with
  | nil => exact hs.trans hp
  | cons y l ih =>
    obtain ⟨hy, hnext⟩ := List.forall_mem_cons.mp hnext
    exact ⟨hs.trans hp.1, ih hp.2 hy hnext⟩

variable [DecidableEq H] [DecidableEq N]

/-- **Insertion.** The node `x` is put in between `pre` and `post`. -/
theorem insert (hp : SlotPath ptr s (pre ++ post) e) (hnodup : (pre ++ post).Nodup)
    (hs : ∀ n ∈ pre ++ post, s ≠ .next n) (hsx : s ≠ .next x) (hx : x ∉ pre ++ post) :
    SlotPath (Function.update (Function.update ptr (.next x) (ptr (lastSlot s pre)))
      (lastSlot s pre) (some x)) s (pre ++ x :: post) e := by
  induction pre generalizing s with
  | nil =>
    refine ⟨Function.update_self .., ?_⟩
    have hnext : Function.update (Function.update ptr (.next x) (ptr s)) s (some x) (.next x) =
        ptr s := by
      rw [Function.update_of_ne hsx.symm, Function.update_self]
    -- behind the new node nothing is written
    refine hp.congr hnext fun n hn => ?_
    have hne : (Slot.next n : Slot H N) ≠ .next x := by
      rintro ⟨⟩
      exact hx hn
    rw [lastSlot_nil, Function.update_of_ne (hs n hn).symm, Function.update_of_ne hne]
  | cons y pre ih =>
    obtain ⟨hy, hnodup⟩ := List.nodup_cons.mp hnodup
    have hxy : x ≠ y := fun heq => hx (heq ▸ List.mem_cons_self)
    -- the slot the path starts from is in front of the place
    have hplace : s ≠ lastSlot (.next y) pre := by
      rcases lastSlot_eq (s := Slot.next y) (l := pre) with heq | ⟨z, hz, heq⟩
      · rw [heq]
        exact hs y List.mem_cons_self
      · rw [heq]
        exact hs z (List.mem_cons_of_mem y (List.mem_append_left _ hz))
    refine ⟨?_, ih hp.2 hnodup (fun n hn => ?_) ?_ fun hmem => hx (List.mem_cons_of_mem y hmem)⟩
    · rw [lastSlot_cons, Function.update_of_ne hplace, Function.update_of_ne hsx]
      exact hp.1
    · rintro ⟨⟩
      exact hy hn
    · rintro ⟨⟩
      exact hxy rfl

end SlotPath
