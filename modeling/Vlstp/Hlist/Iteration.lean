import Vlstp.Framework.SlotPaths
import Vlstp.Hlist

/-!
# Walking along a list with a single pointer head (`list.h`)

The iteration macros of the `hlist` half. A loop ends at `NULL`, so it knows neither the head nor
which list it is on: a plain loop depends on nothing but the path behind the entry it is at, and a
safe one not even on that entry. `hlistForEach_visits` says just this, of every body.

What the macros are meant for is taking entries out. `hlistForEachSafe_sorts` is about a body that
keeps some entries, deletes and frees others, and moves others to the front of any list, the one
that is walked along not excepted.
-/

namespace Vlstp

open SlotLinks

variable {H N σ : Type}

/-! ### The loops -/

section Loops

variable (links : σ → SlotLinks H N) (body : N → σ → Except Fault σ)

/-- `for (; pos; pos = pos->next)`. -/
def hlistForEachLoop : ℕ → Option N → σ → Except Fault σ
  | 0, _, _ => .error .diverge
  | fuel + 1, pos, s =>
    match pos with
    | none => .ok s
    | some x => do
      let s ← body x s
      hlistForEachLoop fuel ((links s).ptr (.next x)) s

/-- `for (; pos && ({ n = pos->next; 1; }); pos = n)`. -/
def hlistForEachSafeLoop : ℕ → Option N → σ → Except Fault σ
  | 0, _, _ => .error .diverge
  | fuel + 1, pos, s =>
    match pos with
    | none => .ok s
    | some x => do
      -- read before the body, which may free the entry
      let n := (links s).ptr (.next x)
      let s ← body x s
      hlistForEachSafeLoop fuel n s

/-- `hlist_for_each`, `hlist_for_each_entry`. -/
def hlistForEach (head : H) (fuel : ℕ) (s : σ) : Except Fault σ :=
  hlistForEachLoop links body fuel ((links s).ptr (.head head)) s

/-- `hlist_for_each_entry_continue`. -/
def hlistForEachEntryContinue (pos : Option N) (fuel : ℕ) (s : σ) : Except Fault σ :=
  match pos with
  | none => .error .nullDeref
  | some x => hlistForEachLoop links body fuel ((links s).ptr (.next x)) s

/-- `hlist_for_each_entry_from`. -/
def hlistForEachEntryFrom (pos : Option N) (fuel : ℕ) (s : σ) : Except Fault σ :=
  hlistForEachLoop links body fuel pos s

/-- `hlist_for_each_safe`, `hlist_for_each_entry_safe`. -/
def hlistForEachSafe (head : H) (fuel : ℕ) (s : σ) : Except Fault σ :=
  hlistForEachSafeLoop links body fuel ((links s).ptr (.head head)) s

end Loops

/-! ### What a loop does -/

section Rules

variable {links : σ → SlotLinks H N} {body : N → σ → Except Fault σ} {post : List N} {s : σ}
  {fuel : ℕ}

/-- **The rule of a plain loop.** `I post s` says that the entries `post` are still to come. If
every turn leaves them behind the entry it is at, the loop runs its body once on each of them, in
order. -/
theorem hlistForEachLoop_eq (I : List N → σ → Prop)
    (hbody : ∀ x post s s', I (x :: post) s → body x s = .ok s' →
      I post s' ∧ (links s').ptr (.next x) = post.head?)
    (hI : I post s) (hfuel : post.length < fuel) :
    hlistForEachLoop links body fuel post.head? s = post.foldlM (fun s x => body x s) s := by
  induction post generalizing s fuel with
  | nil =>
    obtain ⟨fuel, rfl⟩ : ∃ n, fuel = n + 1 := ⟨fuel - 1, by omega⟩
    rfl
  | cons x post ih =>
    obtain ⟨fuel, rfl⟩ : ∃ n, fuel = n + 1 := ⟨fuel - 1, by omega⟩
    rw [List.length_cons] at hfuel
    rw [List.head?_cons, hlistForEachLoop, List.foldlM_cons]
    cases hs : body x s with
    | error e => rfl
    | ok s' =>
      obtain ⟨hI', hnext⟩ := hbody x post s s' hI hs
      rw [Except.ok_bind, Except.ok_bind, hnext]
      exact ih hI' (by omega)

/-- **The rule of a safe loop.** The entry behind is read before the body, which may do to the entry
it is at whatever it likes. -/
theorem hlistForEachSafeLoop_eq (I : List N → σ → Prop)
    (hnext : ∀ x post s, I (x :: post) s → (links s).ptr (.next x) = post.head?)
    (hbody : ∀ x post s s', I (x :: post) s → body x s = .ok s' → I post s')
    (hI : I post s) (hfuel : post.length < fuel) :
    hlistForEachSafeLoop links body fuel post.head? s = post.foldlM (fun s x => body x s) s := by
  induction post generalizing s fuel with
  | nil =>
    obtain ⟨fuel, rfl⟩ : ∃ n, fuel = n + 1 := ⟨fuel - 1, by omega⟩
    rfl
  | cons x post ih =>
    obtain ⟨fuel, rfl⟩ : ∃ n, fuel = n + 1 := ⟨fuel - 1, by omega⟩
    rw [List.length_cons] at hfuel
    rw [List.head?_cons, hlistForEachSafeLoop, hnext x post s hI, List.foldlM_cons]
    cases hs : body x s with
    | error e => rfl
    | ok s' =>
      rw [Except.ok_bind, Except.ok_bind]
      exact ih (hbody x post s s' hI hs) (by omega)

/-- The entries `post` are behind `x`. -/
def Behind (L : SlotLinks H N) (x : N) (post : List N) : Prop :=
  SlotPath L.ptr (.next x) post none

/-- The next entry, and what is behind that. -/
theorem behind_iff {L : SlotLinks H N} {x : N} :
    Behind L x post ↔ L.ptr (.next x) = post.head? ∧ ∀ y l, post = y :: l → Behind L y l := by
  cases post with
  | nil => simp [Behind, SlotPath]
  | cons y post => simp [Behind, SlotPath]

/-- What there is behind the first of some entries, if there are any. -/
def Coming (links : σ → SlotLinks H N) (rest : List N) (s : σ) : Prop :=
  ∀ x post, rest = x :: post → Behind (links s) x post

theorem Coming.behind {x : N} (hs : Coming links (x :: post) s) : Behind (links s) x post :=
  hs x post rfl

/-- A plain loop whose body leaves what is behind its entry where it is. -/
theorem hlistForEachLoop_of_behind
    (hbody : ∀ x post s s', Behind (links s) x post → body x s = .ok s' → Behind (links s') x post)
    (hs : Coming links post s) (hfuel : post.length < fuel) :
    hlistForEachLoop links body fuel post.head? s = post.foldlM (fun s x => body x s) s := by
  refine hlistForEachLoop_eq (Coming links) ?_ hs hfuel
  intro x post s s' hcome hrun
  obtain ⟨hnext, hcome'⟩ := behind_iff.mp (hbody x post s s' hcome.behind hrun)
  exact ⟨hcome', hnext⟩

/-- A safe loop whose body leaves what is behind the next entry where it is. -/
theorem hlistForEachSafeLoop_of_behind
    (hbody : ∀ x y post s s', Behind (links s) x (y :: post) → body x s = .ok s' →
      Behind (links s') y post)
    (hs : Coming links post s) (hfuel : post.length < fuel) :
    hlistForEachSafeLoop links body fuel post.head? s = post.foldlM (fun s x => body x s) s := by
  refine hlistForEachSafeLoop_eq (Coming links) ?_ ?_ hs hfuel
  · intro x post s hcome
    exact (behind_iff.mp hcome.behind).1
  · -- of the entry the body was called for nothing is known any more
    intro x post s s' hcome hrun y l heq
    subst heq
    exact hbody x y l s s' hcome.behind hrun

/-- What the head leads to, and what is behind its first node. -/
theorem coming_of_path {t : Slot H N} {l : List N} (hp : SlotPath (links s).ptr t l none) :
    (links s).ptr t = l.head? ∧ Coming links l s := by
  cases l with
  | nil => exact ⟨hp, fun x post heq => by cases heq⟩
  | cons y l =>
    refine ⟨hp.1, fun x post heq => ?_⟩
    obtain ⟨rfl, rfl⟩ := List.cons.inj heq
    exact hp.2

/-- **The loops visit their entries.** A plain loop whose body leaves what is behind its entry where
it is, and a safe one whose body leaves what is behind the next entry where it is, whatever else
they do to the lists, run the body once on each entry from where they start, in order, and end. -/
theorem hlistForEach_visits {h : H} {l : List N} (hp : SlotPath (links s).ptr (.head h) l none)
    (hfuel : l.length < fuel) :
    ((∀ x post s s', Behind (links s) x post → body x s = .ok s' → Behind (links s') x post) →
      hlistForEach links body h fuel s = l.foldlM (fun s x => body x s) s ∧
      (∀ pre x post, l = pre ++ x :: post →
        hlistForEachEntryContinue links body (some x) fuel s =
          post.foldlM (fun s x => body x s) s) ∧
      ∀ pre post, l = pre ++ post →
        hlistForEachEntryFrom links body post.head? fuel s =
          post.foldlM (fun s x => body x s) s) ∧
    ((∀ x y post s s', Behind (links s) x (y :: post) → body x s = .ok s' →
        Behind (links s') y post) →
      hlistForEachSafe links body h fuel s = l.foldlM (fun s x => body x s) s) := by
  obtain ⟨hfirst, hall⟩ := coming_of_path hp
  have hshort {pre post : List N} (hl : l = pre ++ post) : post.length < fuel := by
    simp only [hl, List.length_append] at hfuel
    omega
  have hfrom {pre post : List N} (hl : l = pre ++ post) :
      (links s).ptr (lastSlot (.head h) pre) = post.head? ∧ Coming links post s :=
    coming_of_path (hl ▸ hp : SlotPath _ _ (pre ++ post) none).behind
  refine ⟨fun hbody => ⟨?_, ?_, ?_⟩, fun hbody => ?_⟩
  · rw [hlistForEach, hfirst]
    exact hlistForEachLoop_of_behind hbody hall hfuel
  · intro pre x post hl
    have hl' : l = (pre ++ [x]) ++ post := by simpa using hl
    obtain ⟨hnext, hcome⟩ := hfrom hl'
    rw [lastSlot_concat] at hnext
    rw [hlistForEachEntryContinue, hnext]
    exact hlistForEachLoop_of_behind hbody hcome (hshort hl')
  · intro pre post hl
    exact hlistForEachLoop_of_behind hbody (hfrom hl).2 (hshort hl)
  · rw [hlistForEachSafe, hfirst]
    exact hlistForEachSafeLoop_of_behind hbody hall hfuel

end Rules

/-- The list 1, 2 of the head 0. -/
def oneThenTwo : SlotLinks ℕ ℕ where
  ptr
    | .head _ => some 1
    | .next n => if n = 1 then some 2 else none
  pprev n := if n = 1 then some (.head 0) else some (.next 1)

/-- The body of a loop notes the entries it comes to. -/
def noteNode (x : ℕ) (s : SlotLinks ℕ ℕ × List ℕ) : Except Fault (SlotLinks ℕ ℕ × List ℕ) :=
  .ok (s.1, s.2 ++ [x])

/-- Both entries are noted, and the second one alone if the loop continues behind the first. -/
theorem hlistForEach_visits_two :
    hlistForEach Prod.fst noteNode 0 3 (oneThenTwo, []) = .ok (oneThenTwo, [1, 2]) ∧
      hlistForEachEntryContinue Prod.fst noteNode (some 1) 3 (oneThenTwo, []) =
        .ok (oneThenTwo, [2]) := by
  have hpath : SlotPath (Prod.fst (oneThenTwo, ([] : List ℕ))).ptr (.head 0) [1, 2] none :=
    ⟨rfl, rfl, rfl⟩
  have hkept (x : ℕ) (post : List ℕ) (s s' : SlotLinks ℕ ℕ × List ℕ) (hs : Behind s.1 x post)
      (hrun : noteNode x s = .ok s') : Behind s'.1 x post := by
    cases hrun
    exact hs
  obtain ⟨hall, hcontinue, -⟩ :=
    (hlistForEach_visits hpath (by decide : [1, 2].length < 3)).1 hkept
  exact ⟨hall, hcontinue [] 1 [2] rfl⟩

/-! ### Sorting out entries -/

/-- What becomes of an entry. -/
inductive Fate (H : Type)
  | keep
  | delete
  | move (h : H)
  deriving DecidableEq

variable [DecidableEq H] [DecidableEq N]

/-- The body of a loop that sorts out entries. A deleted entry is freed, whatever is in it
afterwards. The state is the memory and the nodes freed so far. -/
def sortOut (poison1 : Option N) (poison2 : Option (Slot H N))
    (junk : N → Option N × Option (Slot H N)) (fate : N → Fate H) (pos : N)
    (s : SlotLinks H N × List N) : Except Fault (SlotLinks H N × List N) :=
  match fate pos with
  | .keep => .ok s
  | .delete => do
    let L ← hlistDel poison1 poison2 pos s.1
    return ((L.setPtr (.next pos) (junk pos).1).setPprev pos (junk pos).2, s.2 ++ [pos])
  | .move h => do
    let L ← hlistDelInit pos s.1
    return (hlistAddHead pos h L, s.2)

/-- The entries with one fate. -/
def withFate (fate : N → Fate H) (k : Fate H) (l : List N) : List N := l.filter (fate · = k)

/-- The lists while the loop over the list of `h` has come through `done` and still has to come to
`rest`. Whatever is moved is put in front, so the last one moved comes first. -/
def sortedOut (fate : N → Fate H) (a : Lists H N) (h : H) (done rest : List N) : Lists H N :=
  fun h' => (a h').map fun l' => (withFate fate (.move h') done).reverse ++
    if h' = h then withFate fate .keep done ++ rest else l'

section SortOut

variable {fate : N → Fate H} {a : Lists H N} {h k : H} {x : N} {l l' done rest : List N}
  {fuel : ℕ} {s : SlotLinks H N × List N} (poison1 : Option N) (poison2 : Option (Slot H N))
  (junk : N → Option N × Option (Slot H N))

omit [DecidableEq N] in
theorem withFate_concat (fate : N → Fate H) (k : Fate H) (l : List N) (x : N) :
    withFate fate k (l ++ [x]) = withFate fate k l ++ if fate x = k then [x] else [] := by
  rw [withFate, List.filter_append, List.filter_singleton]
  simp [withFate]

omit [DecidableEq N] in
/-- The list that is walked along. -/
theorem sortedOut_self (ha : a h = some l) : sortedOut fate a h done rest h =
    some (((withFate fate (.move h) done).reverse ++ withFate fate .keep done) ++ rest) := by
  simp [sortedOut, ha]

omit [DecidableEq N] in
/-- The next entry is taken out. -/
theorem sortedOut_set (ha : a h = some l) :
    (sortedOut fate a h done (x :: rest)).set h
      (((withFate fate (.move h) done).reverse ++ withFate fate .keep done) ++ rest) =
      sortedOut fate a h done rest := by
  funext h'
  by_cases hh : h' = h
  · subst hh
    rw [Lists.set_self, sortedOut_self ha]
  · simp only [Lists.set_of_ne hh, sortedOut, if_neg hh]

omit [DecidableEq N] in
theorem sortedOut_keep (hx : fate x = .keep) :
    sortedOut fate a h (done ++ [x]) rest = sortedOut fate a h done (x :: rest) := by
  funext h'
  simp [sortedOut, withFate_concat, hx]

omit [DecidableEq N] in
theorem sortedOut_delete (hx : fate x = .delete) :
    sortedOut fate a h (done ++ [x]) rest = sortedOut fate a h done rest := by
  funext h'
  simp [sortedOut, withFate_concat, hx]

omit [DecidableEq N] in
theorem sortedOut_move (hx : fate x = .move k) (hk : sortedOut fate a h done rest k = some l') :
    sortedOut fate a h (done ++ [x]) rest = (sortedOut fate a h done rest).set k (x :: l') := by
  funext h'
  by_cases hh : h' = k
  · subst hh
    rw [Lists.set_self]
    obtain ⟨l₀, ha, hl'⟩ := Option.map_eq_some_iff.mp hk
    simp [sortedOut, withFate_concat, hx, ha, ← hl']
  · have hne : (Fate.move k : Fate H) ≠ .move h' := by
      rintro ⟨⟩
      exact hh rfl
    rw [Lists.set_of_ne hh]
    simp [sortedOut, withFate_concat, hx, hne]

/-- One turn of the loop. -/
theorem sortOut_holds (hs : s.1.Holds (sortedOut fate a h done (x :: rest))) (ha : a h = some l)
    (hk : ∀ k, fate x = .move k → a k ≠ none) :
    ∃ s', sortOut poison1 poison2 junk fate x s = .ok s' ∧
      s'.1.Holds (sortedOut fate a h (done ++ [x]) rest) ∧
      s'.2 = s.2 ++ withFate fate .delete [x] := by
  have hlist : sortedOut fate a h done (x :: rest) h =
      some (((withFate fate (.move h) done).reverse ++ withFate fate .keep done) ++ x :: rest) :=
    sortedOut_self ha
  cases hx : fate x with
  | keep => exact ⟨s, by simp [sortOut, hx], sortedOut_keep hx ▸ hs, by simp [withFate, hx]⟩
  | delete =>
    obtain ⟨L', hdel, hL', -⟩ := _hlistDel_holds hs hlist
    have hoff := hs.off_middle hlist
    rw [sortedOut_set ha] at hL' hoff
    refine ⟨((((L'.setPtr (.next x) poison1).setPprev x poison2).setPtr (.next x)
      (junk x).1).setPprev x (junk x).2, s.2 ++ [x]), ?_, ?_, by simp [withFate, hx]⟩
    · simp [sortOut, hx, hlistDel, hdel]
    · -- its pointers are written twice, by `hlist_del` and with what they are made to hold
      rw [sortedOut_delete hx]
      exact store_holds (store_holds hL' hoff poison1 poison2) hoff (junk x).1 (junk x).2
  | move k =>
    obtain ⟨L', hdel, hL', -⟩ := _hlistDel_holds hs hlist
    have hoff := hs.off_middle hlist
    have hpprev := (hs.seams_of_mem hlist).1.2 x rfl
    rw [sortedOut_set ha] at hL' hoff
    -- the node is on no list when it is added
    have hinit : (initHlistNode x L').Holds (sortedOut fate a h done rest) :=
      store_holds hL' hoff none none
    obtain ⟨l₀, hl₀⟩ := Option.ne_none_iff_exists'.mp (hk k hx)
    obtain ⟨l', hl'⟩ : ∃ l', sortedOut fate a h done rest k = some l' :=
      ⟨_, congrArg (Option.map _) hl₀⟩
    refine ⟨(hlistAddHead x k (initHlistNode x L'), s.2), ?_, ?_, by simp [withFate, hx]⟩
    · simp [sortOut, hx, hlistDelInit, hlistUnhashed, hpprev, hdel]
    · rw [sortedOut_move hx hl']
      exact (hlistAddHead_holds hinit hl' hoff).1

/-- The turns for the entries `rest`. -/
theorem foldlM_sortOut (hs : s.1.Holds (sortedOut fate a h done rest)) (ha : a h = some l)
    (hk : ∀ x ∈ rest, ∀ k, fate x = .move k → a k ≠ none) :
    ∃ s', rest.foldlM (fun s x => sortOut poison1 poison2 junk fate x s) s = .ok s' ∧
      s'.1.Holds (sortedOut fate a h (done ++ rest) []) ∧
      s'.2 = s.2 ++ withFate fate .delete rest := by
  induction rest generalizing s done with
  | nil => exact ⟨s, rfl, by rwa [List.append_nil], by simp [withFate]⟩
  | cons x rest ih =>
    obtain ⟨hkx, hk⟩ := List.forall_mem_cons.mp hk
    obtain ⟨s₁, hs₁, hL₁, hfreed₁⟩ := sortOut_holds poison1 poison2 junk hs ha hkx
    obtain ⟨s₂, hs₂, hL₂, hfreed₂⟩ := ih hL₁ hk
    refine ⟨s₂, ?_, by simpa using hL₂, ?_⟩
    · rw [List.foldlM_cons, hs₁]
      exact hs₂
    · rw [hfreed₂, hfreed₁, List.append_assoc, withFate, withFate, withFate, ← List.filter_append,
        List.singleton_append]

/-- **Sorting out in a safe loop.** Of the entries of a list some are kept, some deleted and freed,
and some moved to the front of lists, which may be the list itself. Whatever the deleted ones are
made to hold, the loop comes to each entry once, also when it puts entries in front of those it has
come from, and ends: those kept are still on the list, in their order, those moved are in front of
the lists they belong to, the last one first, and each deleted one has been freed once. -/
theorem hlistForEachSafe_sorts (fate : N → Fate H) {L : SlotLinks H N} (hL : L.Holds a)
    (ha : a h = some l)
    (hk : ∀ x ∈ l, ∀ k, fate x = .move k → a k ≠ none) (hfuel : l.length < fuel) :
    ∃ L', hlistForEachSafe Prod.fst (sortOut poison1 poison2 junk fate) h fuel (L, []) =
        .ok (L', withFate fate .delete l) ∧
      L'.Holds fun h' => (a h').map fun l' => (withFate fate (.move h') l).reverse ++
        if h' = h then withFate fate .keep l else l' := by
  have hstart : L.Holds (sortedOut fate a h [] l) := by
    have hsame : sortedOut fate a h [] l = a := by
      funext h'
      by_cases hh : h' = h
      · subst hh
        rw [sortedOut_self ha, ha]
        rfl
      · simp [sortedOut, withFate, hh]
    rwa [hsame]
  have hwhole : a h = some ([] ++ l) := ha
  have hfirst : L.ptr (.head h) = l.head? := (hL.seam hwhole).1
  have hloop : hlistForEachSafeLoop Prod.fst (sortOut poison1 poison2 junk fate) fuel l.head?
      (L, []) = l.foldlM (fun s x => sortOut poison1 poison2 junk fate x s) (L, []) := by
    refine hlistForEachSafeLoop_eq (fun rest s => ∃ done, l = done ++ rest ∧
      s.1.Holds (sortedOut fate a h done rest)) ?_ ?_ ⟨[], rfl, hstart⟩ hfuel
    · -- the entries to come are the last ones of the list, wherever others were moved
      rintro x post s ⟨done, -, hs⟩
      exact (hs.seams_of_mem (sortedOut_self ha)).2.1
    · rintro x post s s' ⟨done, heq, hs⟩ hbody
      obtain ⟨t, ht, hL', -⟩ := sortOut_holds poison1 poison2 junk hs ha (hk x (by simp [heq]))
      obtain rfl : t = s' := Except.ok.inj (ht.symm.trans hbody)
      exact ⟨done ++ [x], by simp [heq], hL'⟩
  obtain ⟨⟨L', freed⟩, hrun, hL', hfreed⟩ := foldlM_sortOut (s := (L, [])) poison1 poison2
    junk hstart ha hk
  obtain rfl : freed = withFate fate .delete l := by simpa using hfreed
  refine ⟨L', ?_, ?_⟩
  · rw [hlistForEachSafe, hfirst, hloop]
    exact hrun
  · have hlists : sortedOut fate a h ([] ++ l) [] = fun h' => (a h').map fun l' =>
        (withFate fate (.move h') l).reverse ++ if h' = h then withFate fate .keep l else l' := by
      funext h'
      simp [sortedOut]
    rwa [hlists] at hL'

end SortOut

/-- The list 1, 2 of the head 0 as a family, beside an empty list of the head 5. -/
theorem oneThenTwo_holds : (initHlistHead 5 oneThenTwo).Holds
    (Lists.set (Lists.set (fun _ => none) 0 [1, 2]) 5 []) := by
  have hnone : oneThenTwo.Holds (Lists.erase (fun _ => none) 0) := (holds_none oneThenTwo).forget 0
  have hchain : oneThenTwo.Chain (.head 0) [1, 2] none := by
    refine ⟨⟨rfl, ?_⟩, ⟨rfl, ?_⟩, rfl, ?_⟩
    · rintro y ⟨⟩
      rfl
    · rintro y ⟨⟩
      rfl
    · rintro y ⟨⟩
  refine (initHlistHead_holds (hnone.insert (by decide) hchain fun n _ hon => ?_)).1
  obtain ⟨h', l', ha', -⟩ := hon.of_erase
  cases ha'

/-- The node 1 is deleted, and 2 is moved to the other list. -/
theorem hlistForEachSafe_sorts_two :
    ∃ L', hlistForEachSafe Prod.fst (sortOut none none (fun _ => (some 7, none))
        fun n => if n = 1 then .delete else .move 5) 0 3 (initHlistHead 5 oneThenTwo, []) =
      .ok (L', [1]) ∧ L'.Chain (.head 5) [2] none ∧ L'.Chain (.head 0) [] none := by
  obtain ⟨L', hrun, hL'⟩ := hlistForEachSafe_sorts none none (fun _ => (some 7, none))
    (fun n => if n = 1 then .delete else .move 5) (h := 0) (l := [1, 2]) oneThenTwo_holds rfl
    (by simp [Lists.set]) (by decide : [1, 2].length < 3)
  exact ⟨L', hrun, hL'.chain (h := 5) rfl, hL'.chain (h := 0) rfl⟩

end Vlstp
