import Vlstp.ListHead.Operations

/-!
# Walking along a list (`list.h`)

The iteration macros of `list.h` are `for` loops around a body that may do anything with the memory.
A loop is given the direction it follows, `next` or `prev`, and a body on states `σ` whose links are
`links s`; the variants of the macros differ in the direction and in where they start. The ones with
`entry` in their names walk over the structures the nodes are part of.

A plain loop reads the next entry after its body, a safe one before it. So the body of the one has
to leave the current entry where it is (`forEachLoop_eq`), and that of the other may do to it
whatever it likes (`forEachSafeLoop_eq`): under either proviso the loop is a fold of its body over
the entries, in order, and ends.
-/

namespace Vlstp

variable {N σ : Type} [DecidableEq N]

/-! ### The loops -/

section Loops

variable (links : σ → Links N) (dir : Links N → N → Option N) (head : N)
  (body : N → σ → Except Fault σ)

/-- `for (; pos != (head); pos = pos->next)`. -/
def forEachLoop : ℕ → Option N → σ → Except Fault σ
  | 0, _, _ => .error .diverge
  | fuel + 1, pos, s =>
    match pos with
    | none => .error .nullDeref
    | some x =>
      if x = head then .ok s
      else do
        let s ← body x s
        forEachLoop fuel (dir (links s) x) s

/-- `p->next`, in the direction of the loop. -/
def follow (p : Option N) (L : Links N) : Except Fault (Option N) :=
  match p with
  | none => .error .nullDeref
  | some n => .ok (dir L n)

/-- `for (; pos != (head); pos = n, n = pos->next)`. -/
def forEachSafeLoop : ℕ → Option N → Option N → σ → Except Fault σ
  | 0, _, _, _ => .error .diverge
  | fuel + 1, pos, n, s =>
    match pos with
    | none => .error .nullDeref
    | some x =>
      if x = head then .ok s
      else do
        let s ← body x s
        let next ← follow dir n (links s)
        forEachSafeLoop fuel n next s

/-- `list_for_each`, `list_for_each_entry`. -/
def listForEach (fuel : ℕ) (s : σ) : Except Fault σ :=
  forEachLoop links Links.next head body fuel ((links s).next head) s

/-- `list_for_each_prev`, `list_for_each_entry_reverse`. -/
def listForEachPrev (fuel : ℕ) (s : σ) : Except Fault σ :=
  forEachLoop links Links.prev head body fuel ((links s).prev head) s

/-- `list_for_each_entry_continue`. -/
def listForEachEntryContinue (pos : N) (fuel : ℕ) (s : σ) : Except Fault σ :=
  forEachLoop links Links.next head body fuel ((links s).next pos) s

/-- `list_for_each_entry_continue_reverse`. -/
def listForEachEntryContinueReverse (pos : N) (fuel : ℕ) (s : σ) : Except Fault σ :=
  forEachLoop links Links.prev head body fuel ((links s).prev pos) s

/-- `list_for_each_entry_from`. -/
def listForEachEntryFrom (pos : N) (fuel : ℕ) (s : σ) : Except Fault σ :=
  forEachLoop links Links.next head body fuel (some pos) s

/-- A safe loop from `pos` on: the entry behind is read first. -/
def forEachSafeFrom (pos : Option N) (fuel : ℕ) (s : σ) : Except Fault σ := do
  let n ← follow dir pos (links s)
  forEachSafeLoop links dir head body fuel pos n s

/-- `list_for_each_safe`, `list_for_each_entry_safe`. -/
def listForEachSafe (fuel : ℕ) (s : σ) : Except Fault σ :=
  forEachSafeFrom links Links.next head body ((links s).next head) fuel s

/-- `list_for_each_prev_safe`, `list_for_each_entry_safe_reverse`. -/
def listForEachPrevSafe (fuel : ℕ) (s : σ) : Except Fault σ :=
  forEachSafeFrom links Links.prev head body ((links s).prev head) fuel s

/-- `list_for_each_entry_safe_continue`. -/
def listForEachEntrySafeContinue (pos : N) (fuel : ℕ) (s : σ) : Except Fault σ :=
  forEachSafeFrom links Links.next head body ((links s).next pos) fuel s

/-- `list_for_each_entry_safe_from`. -/
def listForEachEntrySafeFrom (pos : N) (fuel : ℕ) (s : σ) : Except Fault σ :=
  forEachSafeFrom links Links.next head body (some pos) fuel s

end Loops

/-! ### What a loop does -/

section Rules

variable {links : σ → Links N} {head : N} {body : N → σ → Except Fault σ} {post : List N} {s : σ}
  {fuel : ℕ}

/-- **The rule of a plain loop.** `I post s` says in particular that the entries `post` are still to
come. If every turn leaves the entry it is at in front of them, the loop runs its body once on each
of them, in order. -/
theorem forEachLoop_eq (I : List N → σ → Prop)
    (hring : ∀ post s, I post s → ∃ kept, (links s).Ring head (kept ++ post))
    (hbody : ∀ x post s s', I (x :: post) s → body x s = .ok s' →
      I post s' ∧ (links s').next x = some (post.headD head))
    (hI : I post s) (hfuel : post.length < fuel) :
    forEachLoop links Links.next head body fuel (some (post.headD head)) s =
      post.foldlM (fun s x => body x s) s := by
  induction post generalizing s fuel with
  | nil =>
    obtain ⟨fuel, rfl⟩ : ∃ n, fuel = n + 1 := ⟨fuel - 1, by omega⟩
    simp [forEachLoop]
  | cons x post ih =>
    obtain ⟨fuel, rfl⟩ : ∃ n, fuel = n + 1 := ⟨fuel - 1, by omega⟩
    rw [List.length_cons] at hfuel
    obtain ⟨kept, hr⟩ := hring _ s hI
    have hne : x ≠ head := by
      have hnodup := hr.nodup
      grind
    rw [List.headD_cons, forEachLoop, if_neg hne, List.foldlM_cons]
    cases hs : body x s with
    | error e => rfl
    | ok s' =>
      obtain ⟨hI', hnext⟩ := hbody x post s s' hI hs
      rw [Except.ok_bind, Except.ok_bind, hnext]
      exact ih hI' (by omega)

/-- **The rule of a safe loop.** `I post s` says in particular that the entries `post` are still to
come. Whatever a turn does to the entry it is at, the loop runs its body once on each of them, in
order. -/
theorem forEachSafeLoop_eq (I : List N → σ → Prop)
    (hring : ∀ post s, I post s → ∃ kept, (links s).Ring head (kept ++ post))
    (hbody : ∀ x post s s', I (x :: post) s → body x s = .ok s' → I post s')
    (hI : I post s) (hfuel : post.length < fuel) :
    forEachSafeFrom links Links.next head body (some (post.headD head)) fuel s =
      post.foldlM (fun s x => body x s) s := by
  rw [forEachSafeFrom, follow, Except.ok_bind]
  induction post generalizing s fuel with
  | nil =>
    obtain ⟨fuel, rfl⟩ : ∃ n, fuel = n + 1 := ⟨fuel - 1, by omega⟩
    simp [forEachSafeLoop]
  | cons x post ih =>
    obtain ⟨fuel, rfl⟩ : ∃ n, fuel = n + 1 := ⟨fuel - 1, by omega⟩
    rw [List.length_cons] at hfuel
    obtain ⟨kept, hr⟩ := hring _ s hI
    have hne : x ≠ head := by
      have hnodup := hr.nodup
      grind
    -- the entry behind was read before the body, and is still there after it
    have hn : (links s).next x = some (post.headD head) := by
      have hr' : (links s).Ring head ((kept ++ [x]) ++ post) := by simpa using hr
      simpa using hr'.seam.1
    rw [List.headD_cons, hn, forEachSafeLoop, if_neg hne, List.foldlM_cons]
    cases hs : body x s with
    | error e => rfl
    | ok s' =>
      rw [Except.ok_bind, Except.ok_bind, follow, Except.ok_bind]
      exact ih (hbody x post s s' hI hs) (by omega)

/-- A loop that follows `prev` is one that follows `next` on the links read backwards. -/
theorem forEachLoop_prev (fuel : ℕ) (pos : Option N) (s : σ) :
    forEachLoop links Links.prev head body fuel pos s =
      forEachLoop (fun s => (links s).flip) Links.next head body fuel pos s := by
  induction fuel generalizing pos s with
  | zero => rfl
  | succ fuel ih =>
    cases pos with
    | none => rfl
    | some x => simp only [forEachLoop, ih, Links.flip]

theorem forEachSafeLoop_prev (fuel : ℕ) (pos n : Option N) (s : σ) :
    forEachSafeLoop links Links.prev head body fuel pos n s =
      forEachSafeLoop (fun s => (links s).flip) Links.next head body fuel pos n s := by
  induction fuel generalizing pos n s with
  | zero => rfl
  | succ fuel ih =>
    cases pos with
    | none => rfl
    | some x =>
      cases n with
      | none =>
        simp only [forEachSafeLoop, follow]
        cases body x s <;> rfl
      | some n => simp only [forEachSafeLoop, ih, follow, Links.flip]

theorem forEachSafeFrom_prev (pos : Option N) (s : σ) :
    forEachSafeFrom links Links.prev head body pos fuel s =
      forEachSafeFrom (fun s => (links s).flip) Links.next head body pos fuel s := by
  simp only [forEachSafeFrom, forEachSafeLoop_prev]
  cases pos <;> rfl

/-! ### Bodies that leave the list alone -/

variable {l kept : List N}

/-- A plain loop from an entry of the list on. -/
theorem forEachLoop_of_kept
    (hbody : ∀ x s s', (links s).Ring head l → body x s = .ok s' → (links s').Ring head l)
    (hr : (links s).Ring head l) (hl : l = kept ++ post) (hfuel : post.length < fuel) :
    forEachLoop links Links.next head body fuel (some (post.headD head)) s =
      post.foldlM (fun s x => body x s) s := by
  refine forEachLoop_eq (fun rest s => (links s).Ring head l ∧ ∃ done, l = done ++ rest) ?_ ?_
    ⟨hr, kept, hl⟩ hfuel
  · rintro rest s ⟨hr, done, heq⟩
    exact ⟨done, heq ▸ hr⟩
  · rintro x rest s s' ⟨hr, done, heq⟩ hs
    have hr' := hbody x s s' hr hs
    refine ⟨⟨hr', done ++ [x], by simpa using heq⟩, ?_⟩
    have hsplit : (links s').Ring head ((done ++ [x]) ++ rest) := by
      rw [List.append_assoc, List.singleton_append, ← heq]
      exact hr'
    simpa using hsplit.seam.1

/-- A plain loop from behind an entry of the list on. -/
theorem forEachLoop_of_behind
    (hbody : ∀ x s s', (links s).Ring head l → body x s = .ok s' → (links s').Ring head l)
    (hr : (links s).Ring head l) (hl : l = kept ++ post) (hfuel : post.length < fuel) :
    forEachLoop links Links.next head body fuel ((links s).next (kept.getLastD head)) s =
      post.foldlM (fun s x => body x s) s := by
  rw [(hl ▸ hr : (links s).Ring head (kept ++ post)).seam.1]
  exact forEachLoop_of_kept hbody hr hl hfuel

/-- The same backwards. -/
theorem forEachLoop_prev_of_behind
    (hbody : ∀ x s s', (links s).Ring head l → body x s = .ok s' → (links s').Ring head l)
    (hr : (links s).Ring head l) (hl : l.reverse = kept ++ post) (hfuel : post.length < fuel) :
    forEachLoop links Links.prev head body fuel ((links s).prev (kept.getLastD head)) s =
      post.foldlM (fun s x => body x s) s := by
  rw [forEachLoop_prev]
  have hflip : (links s).flip.Ring head l.reverse := hr.flip
  refine forEachLoop_of_behind (fun y s s' hr hs => ?_) hflip hl hfuel
  exact (hbody y s s' hr.of_flip hs).flip

/-- **The plain loops visit their entries.** If the body leaves the list as it is, each of the loops
runs it once on each entry from where it starts, in its direction, and ends. -/
theorem listForEach_visits
    (hbody : ∀ x s s', (links s).Ring head l → body x s = .ok s' → (links s').Ring head l)
    (hr : (links s).Ring head l) (hfuel : l.length < fuel) :
    listForEach links head body fuel s = l.foldlM (fun s x => body x s) s ∧
      listForEachPrev links head body fuel s = l.reverse.foldlM (fun s x => body x s) s ∧
      ∀ pre x post, l = pre ++ x :: post →
        listForEachEntryContinue links head body x fuel s = post.foldlM (fun s x => body x s) s ∧
        listForEachEntryContinueReverse links head body x fuel s =
          pre.reverse.foldlM (fun s x => body x s) s ∧
        listForEachEntryFrom links head body x fuel s =
          (x :: post).foldlM (fun s x => body x s) s := by
  refine ⟨?_, ?_, fun pre x post hl => ?_⟩
  · have hsplit : l = [] ++ l := rfl
    exact forEachLoop_of_behind hbody hr hsplit hfuel
  · have hsplit : l.reverse = [] ++ l.reverse := rfl
    exact forEachLoop_prev_of_behind hbody hr hsplit (by simpa using hfuel)
  · have hlen : pre.length + (post.length + 1) < fuel := by simpa [hl] using hfuel
    refine ⟨?_, ?_, forEachLoop_of_kept hbody hr hl (by simp; omega)⟩
    · have hsplit : l = (pre ++ [x]) ++ post := by simpa using hl
      have hloop := forEachLoop_of_behind hbody hr hsplit (by omega : post.length < fuel)
      rwa [List.getLastD_concat] at hloop
    · have hsplit : l.reverse = (post.reverse ++ [x]) ++ pre.reverse := by simp [hl]
      have hshort : pre.reverse.length < fuel := by
        rw [List.length_reverse]
        omega
      have hloop := forEachLoop_prev_of_behind hbody hr hsplit hshort
      rwa [List.getLastD_concat] at hloop

end Rules

/-- The links of the list 1, 2 of 0. -/
def twoEntries : Links ℕ := ⟨fun n => some ((n + 1) % 3), fun n => some ((n + 2) % 3)⟩

theorem twoEntries_ring : twoEntries.Ring 0 [1, 2] where
  nodup := by decide
  chain := ⟨⟨rfl, rfl⟩, ⟨rfl, rfl⟩, ⟨rfl, rfl⟩⟩

/-- The body of a loop notes the entries it comes to. -/
def noteEntry (x : ℕ) (s : Links ℕ × List ℕ) : Except Fault (Links ℕ × List ℕ) :=
  .ok (s.1, s.2 ++ [x])

theorem noteEntry_ring (x : ℕ) (s s' : Links ℕ × List ℕ) (hs : s.1.Ring 0 [1, 2])
    (hbody : noteEntry x s = .ok s') : s'.1.Ring 0 [1, 2] := by
  cases hbody
  exact hs

/-- Both entries are noted, forwards and backwards. -/
theorem listForEach_visits_two :
    listForEach Prod.fst 0 noteEntry 3 (twoEntries, []) = .ok (twoEntries, [1, 2]) ∧
      listForEachPrev Prod.fst 0 noteEntry 3 (twoEntries, []) = .ok (twoEntries, [2, 1]) := by
  have hvisits := listForEach_visits (s := (twoEntries, [])) noteEntry_ring twoEntries_ring
    (by decide : [1, 2].length < 3)
  exact ⟨hvisits.1, hvisits.2.1⟩

/-! ### Deleting while walking -/

/-- The body of the loops in `test_linux_list_General`, here for the entries that satisfy `P`: the
entry is taken out and its memory freed, whatever is in it afterwards. The state is the memory and
the nodes freed so far. -/
def deleteEntry (poison1 poison2 : Option N) (junk : N → Option N × Option N) (P : N → Bool)
    (pos : N) (s : Links N × List N) : Except Fault (Links N × List N) :=
  if P pos then do
    let L ← listDel poison1 poison2 pos s.1
    return ((L.setNext pos (junk pos).1).setPrev pos (junk pos).2, s.2 ++ [pos])
  else return s

/-- The list while the loop still has to come to the entries `todo`. -/
def leftOver (Q : N → Bool) (l todo : List N) : List N := l.filter fun y => y ∈ todo || !Q y

section Delete

variable {a : Rings N} {h x : N} {l pre post : List N} {poison1 poison2 : Option N}
  {junk : N → Option N × Option N} {P Q : N → Bool} {fuel : ℕ} {s : Links N × List N}

theorem leftOver_nil : leftOver Q l [] = l.filter (!Q ·) := by simp [leftOver]

/-- At first the loop has to come to all entries that it may take out. -/
theorem leftOver_eq (hQ : ∀ y ∈ l, y ∉ post → Q y = false) : leftOver Q l post = l := by
  refine List.filter_eq_self.mpr fun y hy => ?_
  by_cases hpost : y ∈ post <;> simp [hpost, hQ y hy]

/-- The entries to come are the last ones of the list. -/
theorem leftOver_append (pre : List N) : ∃ kept, leftOver Q (pre ++ post) post = kept ++ post := by
  refine ⟨leftOver Q pre post, ?_⟩
  rw [leftOver, List.filter_append]
  simp +contextual [leftOver]

theorem leftOver_reverse (todo : List N) :
    leftOver Q l.reverse todo = (leftOver Q l todo).reverse :=
  List.filter_reverse ..

/-- What the list is before and after the loop comes to `x`. -/
theorem leftOver_cons (hl : l.Nodup) (hx : x ∈ l) (hnew : x ∉ post) :
    ∃ l₁ l₂, leftOver Q l (x :: post) = l₁ ++ x :: l₂ ∧
      leftOver Q l post = if Q x then l₁ ++ l₂ else l₁ ++ x :: l₂ := by
  obtain ⟨l₁, l₂, rfl⟩ := List.append_of_mem hx
  have hoff {m : List N} (hm : x ∉ m) : leftOver Q m (x :: post) = leftOver Q m post := by
    refine List.filter_congr fun y hy => ?_
    have hne : y ≠ x := fun heq => hm (heq ▸ hy)
    simp [hne]
  have hl₁ : x ∉ l₁ := by grind
  have hl₂ : x ∉ l₂ := by grind
  refine ⟨leftOver Q l₁ post, leftOver Q l₂ post, ?_, ?_⟩
  · rw [← hoff hl₁, ← hoff hl₂]
    simp [leftOver]
  · by_cases hQ : Q x <;> simp [leftOver, hQ, hnew]

/-- One turn of the loop. -/
theorem deleteEntry_holds (hs : s.1.Holds (a.set h (leftOver Q l (x :: post)))) (hl : l.Nodup)
    (hx : x ∈ l) (hnew : x ∉ post) (hQ : Q x = P x) :
    ∃ s', deleteEntry poison1 poison2 junk P x s = .ok s' ∧
      s'.1.Holds (a.set h (leftOver Q l post)) ∧ s'.2 = s.2 ++ [x].filter P := by
  obtain ⟨l₁, l₂, hbefore, hafter⟩ := leftOver_cons (Q := Q) hl hx hnew
  rw [hbefore] at hs
  rw [hafter, hQ, deleteEntry]
  by_cases hP : P x
  · have ha : a.set h (l₁ ++ x :: l₂) h = some (l₁ ++ x :: l₂) := Rings.set_self ..
    obtain ⟨L', hdel, hL', -⟩ := listDel_holds hs ha poison1 poison2
    have hoff := hs.off_middle ha
    rw [Rings.set_set] at hL' hoff
    refine ⟨((L'.setNext x (junk x).1).setPrev x (junk x).2, s.2 ++ [x]), ?_, ?_, ?_⟩
    · rw [if_pos hP, hdel]
      rfl
    · rw [if_pos hP]
      exact (hL'.setNext hoff (junk x).1).setPrev hoff (junk x).2
    · simp [hP]
  · refine ⟨s, ?_, ?_, ?_⟩
    · rw [if_neg hP]
      rfl
    · rwa [if_neg hP]
    · simp [hP]

/-- The turns for the entries `post`. -/
theorem foldlM_deleteEntry (hs : s.1.Holds (a.set h (leftOver Q l post))) (hl : l.Nodup)
    (hsub : post ⊆ l) (hnodup : post.Nodup) (hQ : ∀ y ∈ post, Q y = P y) :
    ∃ s', post.foldlM (fun s x => deleteEntry poison1 poison2 junk P x s) s = .ok s' ∧
      s'.1.Holds (a.set h (l.filter (!Q ·))) ∧ s'.2 = s.2 ++ post.filter P := by
  induction post generalizing s with
  | nil => exact ⟨s, rfl, by rwa [leftOver_nil] at hs, by simp⟩
  | cons x post ih =>
    obtain ⟨hx, hsub⟩ := List.cons_subset.mp hsub
    obtain ⟨hnew, hnodup⟩ := List.nodup_cons.mp hnodup
    obtain ⟨hQx, hQ⟩ := List.forall_mem_cons.mp hQ
    obtain ⟨s₁, hs₁, hL₁, hfreed₁⟩ := deleteEntry_holds hs hl hx hnew hQx
    obtain ⟨s₂, hs₂, hL₂, hfreed₂⟩ := ih hL₁ hsub hnodup hQ
    refine ⟨s₂, ?_, hL₂, ?_⟩
    · rw [List.foldlM_cons, hs₁]
      exact hs₂
    · rw [hfreed₂, hfreed₁, List.append_assoc, ← List.filter_append, List.singleton_append]

/-- The loop comes to each entry of `post`, in the direction in which the list is `pre ++ post`. -/
theorem forEachSafeFrom_deleteEntry {links : Links N × List N → Links N}
    (hlinks : ∀ s : Links N × List N, ∀ todo, s.1.Holds (a.set h (leftOver Q l todo)) →
      (links s).Ring h (leftOver Q (pre ++ post) todo))
    (hs : s.1.Holds (a.set h l)) (hl : l.Nodup) (hperm : (pre ++ post).Perm l)
    (hpre : ∀ y ∈ pre, Q y = false) (hpost : ∀ y ∈ post, Q y = P y) (hfuel : post.length < fuel) :
    ∃ s', forEachSafeFrom links Links.next h (deleteEntry poison1 poison2 junk P)
        (some (post.headD h)) fuel s = .ok s' ∧
      s'.1.Holds (a.set h (l.filter (!Q ·))) ∧ s'.2 = s.2 ++ post.filter P := by
  have hnodup := hperm.nodup_iff.mpr hl
  have hsub : post ⊆ l := fun y hy => hperm.subset (List.mem_append_right pre hy)
  have hstart : s.1.Holds (a.set h (leftOver Q l post)) := by
    rwa [leftOver_eq fun y hy hout => hpre y ?_]
    exact (List.mem_append.mp (hperm.mem_iff.mpr hy)).resolve_right hout
  have hloop : forEachSafeFrom links Links.next h (deleteEntry poison1 poison2 junk P)
      (some (post.headD h)) fuel s =
      post.foldlM (fun s x => deleteEntry poison1 poison2 junk P x s) s := by
    refine forEachSafeLoop_eq (fun rest s => s.1.Holds (a.set h (leftOver Q l rest)) ∧
      ∃ done, post = done ++ rest) ?_ ?_ ⟨hstart, [], rfl⟩ hfuel
    · rintro rest s ⟨hs, done, heq⟩
      have hring := hlinks s rest hs
      rw [heq, ← List.append_assoc] at hring
      obtain ⟨kept, hkept⟩ :
          ∃ kept, leftOver Q ((pre ++ done) ++ rest) rest = kept ++ rest := leftOver_append _
      exact ⟨kept, hkept ▸ hring⟩
    · rintro x rest s s' ⟨hs, done, heq⟩ hbody
      have hx : x ∈ post := by simp [heq]
      have hnew : x ∉ rest := by grind
      obtain ⟨t, ht, hL, -⟩ := deleteEntry_holds hs hl (hsub hx) hnew (hpost x hx)
      obtain rfl : t = s' := Except.ok.inj (ht.symm.trans hbody)
      exact ⟨hL, done ++ [x], by simp [heq]⟩
  rw [hloop]
  exact foldlM_deleteEntry hstart hl hsub (hnodup.of_append_right) hpost

/-- Forwards, from any place of the list on. -/
theorem forEachSafeFrom_delete_forward {L : Links N} (hL : L.Holds (a.set h (pre ++ post)))
    (hfuel : post.length < fuel) :
    ∃ L', forEachSafeFrom Prod.fst Links.next h (deleteEntry poison1 poison2 junk P)
        (some (post.headD h)) fuel (L, []) = .ok (L', post.filter P) ∧
      L'.Holds (a.set h (pre ++ post.filter (!P ·))) := by
  have hnodup := (List.nodup_cons.mp (hL.ring (Rings.set_self ..)).nodup).2
  -- entries in front of the place are kept, whatever `P` says
  have hpre (y : N) (hy : y ∈ pre) : (y ∈ post && P y) = false := by
    have hout : y ∉ post := by grind
    simp [hout]
  have hpost (y : N) (hy : y ∈ post) : (y ∈ post && P y) = P y := by simp [hy]
  obtain ⟨⟨L', freed⟩, hs', hL', hfreed⟩ := forEachSafeFrom_deleteEntry (s := (L, []))
    (fun s todo hs => hs.ring (Rings.set_self ..)) hL hnodup (List.Perm.refl _) hpre hpost hfuel
  obtain rfl : freed = post.filter P := by simpa using hfreed
  refine ⟨L', hs', ?_⟩
  have hkept : pre.filter (fun y => !(y ∈ post && P y)) = pre :=
    List.filter_eq_self.mpr fun y hy => by simp [hpre y hy]
  have htaken : post.filter (fun y => !(y ∈ post && P y)) = post.filter (!P ·) :=
    List.filter_congr fun y hy => by simp [hy]
  rwa [List.filter_append, hkept, htaken] at hL'

/-- **Deleting in a safe loop.** Whatever the entries taken out are made to hold, each of the safe
loops walks over the list from where it starts, in its direction, takes out just the entries there
that satisfy `P`, frees each of them once, and leaves the others, in their order, and every other
list. -/
theorem listForEachSafe_deleteEntry {L : Links N} (hL : L.Holds a) (ha : a h = some l)
    (hfuel : l.length < fuel) :
    (∃ L', listForEachSafe Prod.fst h (deleteEntry poison1 poison2 junk P) fuel (L, []) =
        .ok (L', l.filter P) ∧ L'.Holds (a.set h (l.filter (!P ·)))) ∧
      (∃ L', listForEachPrevSafe Prod.fst h (deleteEntry poison1 poison2 junk P) fuel (L, []) =
        .ok (L', (l.filter P).reverse) ∧ L'.Holds (a.set h (l.filter (!P ·)))) ∧
      ∀ pre x post, l = pre ++ x :: post →
        (∃ L', listForEachEntrySafeContinue Prod.fst h (deleteEntry poison1 poison2 junk P) x fuel
            (L, []) = .ok (L', post.filter P) ∧
          L'.Holds (a.set h (pre ++ x :: post.filter (!P ·)))) ∧
        ∃ L', listForEachEntrySafeFrom Prod.fst h (deleteEntry poison1 poison2 junk P) x fuel
            (L, []) = .ok (L', (x :: post).filter P) ∧
          L'.Holds (a.set h (pre ++ (x :: post).filter (!P ·))) := by
  have hstart : L.Holds (a.set h l) := by
    rwa [show a.set h l = a by rw [Rings.set, ← ha, Function.update_eq_self]]
  have hring := hL.ring ha
  refine ⟨?_, ?_, fun pre x post hl => ⟨?_, ?_⟩⟩
  · have hsplit : L.Ring h ([] ++ l) := hring
    have hnext : L.next h = some (l.headD h) := hsplit.seam.1
    have hwhole : L.Holds (a.set h ([] ++ l)) := hstart
    rw [listForEachSafe, hnext]
    exact forEachSafeFrom_delete_forward hwhole hfuel
  · have hsplit : L.flip.Ring h ([] ++ l.reverse) := hring.flip
    have hback (s : Links N × List N) (todo : List N)
        (hs : s.1.Holds (a.set h (leftOver P l todo))) :
        s.1.flip.Ring h (leftOver P ([] ++ l.reverse) todo) := by
      rw [List.nil_append, leftOver_reverse]
      exact (hs.ring (Rings.set_self ..)).flip
    obtain ⟨⟨L', freed⟩, hs', hL', hfreed⟩ := forEachSafeFrom_deleteEntry (s := (L, [])) hback
      hstart (List.nodup_cons.mp hring.nodup).2 (List.reverse_perm l)
      (fun y hy => absurd hy List.not_mem_nil) (fun y hy => rfl) (by simpa using hfuel)
    obtain rfl : freed = (l.filter P).reverse := by simpa using hfreed
    refine ⟨L', ?_, hL'⟩
    have hprev : L.prev h = some (l.reverse.headD h) := hsplit.seam.1
    rw [listForEachPrevSafe, forEachSafeFrom_prev, hprev]
    exact hs'
  · have hsplit : l = (pre ++ [x]) ++ post := by simpa using hl
    have hnext : L.next x = some (post.headD h) := by
      have hseam := (hsplit ▸ hring : L.Ring h ((pre ++ [x]) ++ post)).seam.1
      rwa [List.getLastD_concat] at hseam
    have hlen : post.length < fuel := by
      simp only [hsplit, List.length_append] at hfuel
      omega
    rw [hsplit] at hstart
    obtain ⟨L', hdelete, hL'⟩ := forEachSafeFrom_delete_forward hstart hlen
    rw [listForEachEntrySafeContinue, hnext]
    exact ⟨L', hdelete, by simpa using hL'⟩
  · have hlen : (x :: post).length < fuel := by
      simp only [hl, List.length_append] at hfuel
      omega
    rw [hl] at hstart
    exact forEachSafeFrom_delete_forward hstart hlen

end Delete

/-- The odd entry is deleted. -/
theorem listForEachSafe_deleteEntry_odd :
    ∃ L', listForEachSafe Prod.fst 0 (deleteEntry none none (fun _ => (none, some 7)) (· % 2 = 1))
        3 (twoEntries, []) = .ok (L', [1]) ∧ L'.Holds (Rings.set (fun _ => none) 0 [2]) := by
  have hL : twoEntries.Holds (Rings.set (fun _ => none) 0 [1, 2]) :=
    (Links.Holds.none twoEntries).insert twoEntries_ring fun _ _ => Rings.not_on_none
  obtain ⟨L', hdelete, hL'⟩ := (listForEachSafe_deleteEntry (P := (· % 2 = 1)) hL
    (Rings.set_self ..) (by decide : [1, 2].length < 3)).1
  rw [Rings.set_set] at hL'
  exact ⟨L', hdelete, hL'⟩

end Vlstp
