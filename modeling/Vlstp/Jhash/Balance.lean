import Mathlib.Data.FinEnum
import Mathlib.SetTheory.Cardinal.Finite
import Vlstp.Jhash.Words

/-!
# Reversible mixing and balanced hashes

The comment in `jhash.h` says that `__jhash_mix` mixes reversibly. Each of its lines, and each of
those of `__jhash_final`, can be undone, and a line is the same as the one above with the parts of
the three words exchanged. So both functions are bijections of the three words, and so is the whole
hash, as a function of what was mixed up to any point (`hashWords_bijective`).

Only the last of the three words is returned. Still no value is favoured: whichever block of three
words of a key is varied, the others being fixed, every value comes out equally often
(`jhash2_balanced`).
-/

namespace Vlstp

/-! ### Rounds -/

/-- The parts of the three words, exchanged. -/
def Mixed.rotate (s : Mixed) : Mixed := ⟨s.b, s.c, s.a⟩

/-- `a -= c; a ^= rol32(c, r); c += b;`. -/
def mixRound (r : ℕ) (s : Mixed) : Mixed := ⟨(s.a - s.c) ^^^ rol32 s.c r, s.b, s.c + s.b⟩

/-- `c ^= b; c -= rol32(b, r);`. -/
def finalRound (r : ℕ) (s : Mixed) : Mixed := ⟨s.a, s.b, (s.c ^^^ s.b) - rol32 s.b r⟩

/-- The lines of `__jhash_mix`. -/
theorem _jhashMix_eq (s : Mixed) :
    _jhashMix s = [4, 6, 8, 16, 19, 4].foldl (fun s r => (mixRound r s).rotate) s := rfl

/-- The lines of `__jhash_final`. -/
theorem _jhashFinal_eq (s : Mixed) :
    (_jhashFinal s).rotate =
      [14, 11, 25, 16, 4, 14, 24].foldl (fun s r => (finalRound r s).rotate) s := rfl

theorem rotate_bijective : Function.Bijective Mixed.rotate := by
  refine Function.bijective_iff_has_inverse.mpr ⟨fun s => s.rotate.rotate, fun s => ?_, fun s => ?_⟩
  · rfl
  · rfl

theorem mixRound_bijective (r : ℕ) : Function.Bijective (mixRound r) := by
  refine Function.bijective_iff_has_inverse.mpr
    ⟨fun s => ⟨(s.a ^^^ rol32 (s.c - s.b) r) + (s.c - s.b), s.b, s.c - s.b⟩, fun s => ?_,
      fun s => ?_⟩
  · simp only [mixRound, BitVec.add_sub_cancel, BitVec.sub_add_cancel, BitVec.xor_assoc,
      BitVec.xor_self, BitVec.xor_zero]
  · simp only [mixRound, BitVec.add_sub_cancel, BitVec.sub_add_cancel, BitVec.xor_assoc,
      BitVec.xor_self, BitVec.xor_zero]

theorem finalRound_bijective (r : ℕ) : Function.Bijective (finalRound r) := by
  refine Function.bijective_iff_has_inverse.mpr
    ⟨fun s => ⟨s.a, s.b, (s.c + rol32 s.b r) ^^^ s.b⟩, fun s => ?_, fun s => ?_⟩
  · simp only [finalRound, BitVec.sub_add_cancel, BitVec.xor_assoc, BitVec.xor_self,
      BitVec.xor_zero]
  · simp only [finalRound, BitVec.add_sub_cancel, BitVec.xor_assoc, BitVec.xor_self,
      BitVec.xor_zero]

/-- Bijections one after the other. -/
theorem foldl_bijective {α β : Type} {f : α → β → α}
    (hf : ∀ x, Function.Bijective fun s => f s x) (l : List β) :
    Function.Bijective fun s => l.foldl f s := by
  induction l with
  | nil => exact Function.bijective_id
  | cons x l ih => exact ih.comp (hf x)

/-- `__jhash_mix` mixes reversibly. -/
theorem _jhashMix_bijective : Function.Bijective _jhashMix := by
  rw [funext _jhashMix_eq]
  exact foldl_bijective (fun r => rotate_bijective.comp (mixRound_bijective r)) _

theorem _jhashFinal_bijective : Function.Bijective _jhashFinal := by
  have hlines : Function.Bijective (Mixed.rotate ∘ _jhashFinal) := by
    rw [show Mixed.rotate ∘ _jhashFinal = _ from funext _jhashFinal_eq]
    exact foldl_bijective (fun r => rotate_bijective.comp (finalRound_bijective r)) _
  exact (Function.Bijective.of_comp_iff' rotate_bijective _).mp hlines

/-- What a block is added to. -/
theorem add_bijective (x y z : UInt32T) : Function.Bijective fun s : Mixed => s.add x y z := by
  refine Function.bijective_iff_has_inverse.mpr
    ⟨fun s => ⟨s.a - x, s.b - y, s.c - z⟩, fun s => ?_, fun s => ?_⟩
  · simp only [Mixed.add, BitVec.add_sub_cancel]
  · simp only [Mixed.add, BitVec.sub_add_cancel]

/-- The block that is added. -/
theorem add_block_bijective (s : Mixed) :
    Function.Bijective fun w : UInt32T × UInt32T × UInt32T => s.add w.1 w.2.1 w.2.2 := by
  refine Function.bijective_iff_has_inverse.mpr
    ⟨fun s' => (s'.a - s.a, s'.b - s.b, s'.c - s.c), fun w => ?_, fun s' => ?_⟩
  · simp only [Mixed.add, BitVec.add_comm s.a, BitVec.add_comm s.b, BitVec.add_comm s.c,
      BitVec.add_sub_cancel]
  · simp only [Mixed.add, BitVec.add_comm s.a, BitVec.add_comm s.b, BitVec.add_comm s.c,
      BitVec.sub_add_cancel]

/-! ### Whole keys -/

variable {w w' : ℕ → UInt32T} {n t : ℕ}

theorem mixBlocks_congr (s : Mixed) (hw : ∀ i < 3 * t, w i = w' i) :
    mixBlocks w s t = mixBlocks w' s t := by
  induction t with
  | zero => rfl
  | succ t ih =>
    rw [mixBlocks, mixBlocks, ih fun i hi => hw i (by omega), hw _ (by omega), hw _ (by omega),
      hw _ (by omega)]

theorem mixBlocks_add (s : Mixed) (t k : ℕ) :
    mixBlocks w s (t + k) = mixBlocks (fun i => w (3 * t + i)) (mixBlocks w s t) k := by
  induction k with
  | zero => rfl
  | succ k ih =>
    rw [← Nat.add_assoc, mixBlocks, ih, mixBlocks, Nat.mul_add]
    rfl

theorem mixBlocks_bijective : Function.Bijective fun s => mixBlocks w s t := by
  induction t with
  | zero => exact Function.bijective_id
  | succ t ih => exact _jhashMix_bijective.comp ((add_bijective _ _ _).comp ih)

/-- The hash, as a function of what has been mixed before. -/
theorem hashWords_bijective : Function.Bijective (hashWords w n) := by
  by_cases hn : n = 0
  · subst hn
    exact Function.bijective_id
  · have heq : hashWords w n = fun s => _jhashFinal ((mixBlocks w s ((n - 1) / 3)).add
        (w (3 * ((n - 1) / 3))) (w (3 * ((n - 1) / 3) + 1)) (w (3 * ((n - 1) / 3) + 2))) := by
      funext s
      rw [hashWords, if_neg hn]
    rw [heq]
    exact _jhashFinal_bijective.comp ((add_bijective _ _ _).comp mixBlocks_bijective)

/-- A key whose first `t` blocks have been mixed. -/
theorem hashWords_drop (s : Mixed) (hn : 3 * t < n) :
    hashWords w n s = hashWords (fun i => w (3 * t + i)) (n - 3 * t) (mixBlocks w s t) := by
  have hblocks : (n - 1) / 3 = t + (n - 3 * t - 1) / 3 := by omega
  rw [hashWords, hashWords, if_neg (by omega), if_neg (by omega), hblocks, mixBlocks_add]
  simp only [Nat.mul_add, Nat.add_assoc]

/-- As a function of its block `t`, the hash of a key is a bijection. -/
theorem hashWords_block_bijective (s : Mixed) {v : UInt32T × UInt32T × UInt32T → ℕ → UInt32T}
    (hn : 3 * t + 3 ≤ n) (h0 : ∀ b, v b (3 * t) = b.1) (h1 : ∀ b, v b (3 * t + 1) = b.2.1)
    (h2 : ∀ b, v b (3 * t + 2) = b.2.2) (hpre : ∀ b, ∀ i < 3 * t, v b i = w i)
    (hpost : ∀ b i, 3 * t + 3 ≤ i → v b i = w i) :
    Function.Bijective fun b => hashWords (v b) n s := by
  have hfront (b : UInt32T × UInt32T × UInt32T) : mixBlocks (v b) s t = mixBlocks w s t :=
    mixBlocks_congr s (hpre b)
  have hblock := add_block_bijective (mixBlocks w s t)
  by_cases hlast : n = 3 * t + 3
  · have heq : (fun b => hashWords (v b) n s) = fun b : UInt32T × UInt32T × UInt32T =>
        _jhashFinal ((mixBlocks w s t).add b.1 b.2.1 b.2.2) := by
      funext b
      have ht : (n - 1) / 3 = t := by omega
      rw [hashWords, if_neg (by omega), ht, hfront, h0, h1, h2]
    rw [heq]
    exact _jhashFinal_bijective.comp hblock
  · -- the block is mixed, and the rest of the key is the same for all
    have heq : (fun b => hashWords (v b) n s) = fun b : UInt32T × UInt32T × UInt32T =>
        hashWords (fun i => w (3 * (t + 1) + i)) (n - 3 * (t + 1))
          (_jhashMix ((mixBlocks w s t).add b.1 b.2.1 b.2.2)) := by
      funext b
      have hrest : (fun i => v b (3 * (t + 1) + i)) = fun i => w (3 * (t + 1) + i) :=
        funext fun i => hpost b _ (by omega)
      have ht : 3 * (t + 1) < n := by omega
      rw [hashWords_drop s ht, hrest, mixBlocks, hfront, h0, h1, h2]
    rw [heq]
    exact hashWords_bijective.comp (_jhashMix_bijective.comp hblock)

/-! ### Counting -/

/-- The words a bijection leads to a third part in `S`: the other two parts are free. -/
theorem card_third_of_bijective {f : UInt32T × UInt32T × UInt32T → Mixed}
    (hf : Function.Bijective f) (S : Set UInt32T) :
    Nat.card {b // (f b).c ∈ S} = Nat.card S * 2 ^ 64 := by
  have hwords : Nat.card UInt32T = 2 ^ 32 := Nat.card_eq_of_equiv_fin FinEnum.equiv
  have hparts : {m : Mixed // m.c ∈ S} ≃ S × UInt32T × UInt32T :=
    { toFun := fun m => (⟨m.1.c, m.2⟩, m.1.a, m.1.b)
      invFun := fun p => ⟨⟨p.2.1, p.2.2, p.1⟩, p.1.2⟩
      left_inv := fun _ => rfl
      right_inv := fun _ => rfl }
  have hcard : Nat.card {b // (f b).c ∈ S} = Nat.card (S × UInt32T × UInt32T) :=
    Nat.card_congr (((Equiv.ofBijective f hf).subtypeEquiv fun _ => Iff.rfl).trans hparts)
  rw [hcard, Nat.card_prod, Nat.card_prod, hwords, ← pow_add]

/-- Three words varied together have every hash equally often. -/
theorem jhash3words_balanced (initval : UInt32T) (S : Set UInt32T) :
    Nat.card {b : UInt32T × UInt32T × UInt32T // jhash3words b.1 b.2.1 b.2.2 initval ∈ S} =
      Nat.card S * 2 ^ 64 := by
  have hhash (b : UInt32T × UInt32T × UInt32T) : jhash3words b.1 b.2.1 b.2.2 initval =
      (_jhashFinal ((⟨JHASH_INITVAL, JHASH_INITVAL, initval⟩ : Mixed).add b.1 b.2.1 b.2.2)).c := by
    rw [jhash3words, Mixed.add, BitVec.add_comm b.1, BitVec.add_comm b.2.1, BitVec.add_comm b.2.2]
  simp only [hhash]
  exact card_third_of_bijective (_jhashFinal_bijective.comp (add_block_bijective _)) S

/-- **Hashes are balanced.** Whichever block of three words of a key is varied, the rest of the key
being fixed, the hashes in any set come up as often as there are hashes in the set, times the same
number. -/
theorem jhash2_balanced (pre post : List UInt32T) (hpre : pre.length = 3 * t)
    (hlen : pre.length + 3 + post.length < 2 ^ 32) (initval : UInt32T) (S : Set UInt32T) :
    Nat.card {b : UInt32T × UInt32T × UInt32T //
        ∃ v ∈ S, jhash2 (pre ++ [b.1, b.2.1, b.2.2] ++ post)
          (BitVec.ofNat 32 (pre.length + 3 + post.length)) initval = .ok v} =
      Nat.card S * 2 ^ 64 := by
  obtain ⟨n, hn⟩ : ∃ n, pre.length + 3 + post.length = n := ⟨_, rfl⟩
  rw [hn] at hlen ⊢
  have hcount : (BitVec.ofNat 32 n).toNat = n := by
    rw [BitVec.toNat_ofNat, Nat.mod_eq_of_lt hlen]
  obtain ⟨key, hkey⟩ : ∃ key : UInt32T × UInt32T × UInt32T → List UInt32T,
      ∀ b, key b = pre ++ [b.1, b.2.1, b.2.2] ++ post := ⟨_, fun _ => rfl⟩
  have hlength (b : UInt32T × UInt32T × UInt32T) : (key b).length = n := by
    rw [hkey, List.length_append, List.length_append, ← hn]
    rfl
  have hword (b : UInt32T × UInt32T × UInt32T) (i : ℕ) :
      wordAt (key b) n i = ((key b)[i]?).getD 0 := by
    rw [wordAt]
    split
    · next hi =>
      rw [← hlength b] at hi
      rw [getElem!_pos _ i hi, List.getElem?_eq_getElem hi, Option.getD_some]
    · next hi =>
      rw [← hlength b] at hi
      rw [List.getElem?_eq_none (by omega), Option.getD_none]
  -- the words of the block are those at `3 * t`, the others are the same for all blocks
  have hat (b : UInt32T × UInt32T × UInt32T) (i : ℕ) :
      (key b)[3 * t + i]? = ([b.1, b.2.1, b.2.2] ++ post)[i]? := by
    rw [hkey, List.append_assoc, ← hpre, List.getElem?_append_right (by omega),
      Nat.add_sub_cancel_left]
  obtain ⟨s, hs⟩ : ∃ s, s = Mixed.seed (JHASH_INITVAL + (BitVec.ofNat 32 n <<< 2) + initval) :=
    ⟨_, rfl⟩
  have hbij : Function.Bijective fun b => hashWords (wordAt (key b) n) n s := by
    refine hashWords_block_bijective (t := t) (w := wordAt (key (0, 0, 0)) n) s (by omega)
      (fun b => ?_) (fun b => ?_) (fun b => ?_) (fun b i hi => ?_) fun b i hi => ?_
    · exact (hword b _).trans (by rw [← Nat.add_zero (3 * t), hat]; rfl)
    · exact (hword b _).trans (by rw [hat]; rfl)
    · exact (hword b _).trans (by rw [hat]; rfl)
    · rw [hword, hword, hkey, hkey, List.append_assoc, List.append_assoc,
        List.getElem?_append_left (by omega), List.getElem?_append_left (by omega)]
    · obtain ⟨j, rfl⟩ : ∃ j, i = 3 * t + (3 + j) := ⟨i - (3 * t + 3), by omega⟩
      rw [hword, hword, hat, hat, List.getElem?_append_right (by simp),
        List.getElem?_append_right (by simp)]
      rfl
  have hhash (b : UInt32T × UInt32T × UInt32T) : jhash2 (pre ++ [b.1, b.2.1, b.2.2] ++ post)
      (BitVec.ofNat 32 n) initval = .ok (hashWords (wordAt (key b) n) n s).c := by
    rw [← hkey, jhash2_eq (by rw [hcount, hlength]), hcount, hs]
  rw [← card_third_of_bijective hbij S]
  refine Nat.card_congr (Equiv.subtypeEquivRight fun b => ?_)
  rw [hhash]
  simp

/-- The first block of four words leads to the hash 5 in just one of 2 ^ 32 cases. -/
theorem jhash2_balanced_five :
    Nat.card {b : UInt32T × UInt32T × UInt32T //
      ∃ v ∈ ({5} : Set UInt32T), jhash2 ([] ++ [b.1, b.2.1, b.2.2] ++ [7]) 4 0 = .ok v} =
        2 ^ 64 := by
  have hcount : Nat.card ({5} : Set UInt32T) = 1 := Nat.card_unique
  have hcard := jhash2_balanced (t := 0) [] [7] rfl (by decide) 0 {5}
  rw [hcount, Nat.one_mul] at hcard
  exact hcard

end Vlstp
