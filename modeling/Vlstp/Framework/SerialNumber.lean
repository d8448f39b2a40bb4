import Mathlib.Data.BitVec
import Mathlib.Data.Set.CoeSort
import Mathlib.Order.RelIso.Basic

/-!
# Serial numbers

Numbers of `n` bits that are counted upwards and wrap around. RFC 1982 calls one less than another
(`SerialNumber.Less`) if it takes less than half of the `2 ^ n` numbers to count from the first up
to the second. Two numbers half of the space apart are not ordered.

The usual implementation tests the sign bit of the wrapped difference. That bit also says "less" of
two numbers half of the space apart, whichever comes first, so it computes the relation exactly on
all other pairs (`SerialNumber.compares_iff`). On the numbers of a window shorter than half of the
space there is no such pair, and the test orders them as they are counted
(`SerialNumber.ordersWindow`).
-/

namespace SerialNumber

variable {n : ℕ} {s t : BitVec n}

/-- `s` is less than `t`, in the words of RFC 1982. -/
def Less (s t : BitVec n) : Prop :=
  ((s.toNat : ℤ) < t.toNat ∧ (t.toNat : ℤ) - s.toNat < 2 ^ (n - 1)) ∨
    ((s.toNat : ℤ) > t.toNat ∧ (s.toNat : ℤ) - t.toNat > 2 ^ (n - 1))

/-- `lt` and `lte` compare `s` and `t` as serial numbers. -/
structure Compares (lt lte : BitVec n → BitVec n → Prop) (s t : BitVec n) : Prop where
  lt_iff : lt s t ↔ Less s t
  lte_iff : lte s t ↔ s = t ∨ Less s t
  not_both : ¬ (lt s t ∧ lt t s)

/-- `lt` orders every set of numbers that lie within less than half of the space from `b` on, and it
orders them by their offset from `b`. -/
def OrdersWindow (lt : BitVec n → BitVec n → Prop) (b : BitVec n) : Prop :=
  ∀ S : Set (BitVec n), (∀ s ∈ S, (s - b).toNat < 2 ^ (n - 1)) →
    IsStrictTotalOrder ↥S (fun s t => lt s t) ∧
      ∀ s ∈ S, ∀ t ∈ S, (lt s t ↔ (s - b).toNat < (t - b).toNat)

/-! ### The difference -/

theorem less_iff : Less s t ↔
    (s.toNat < t.toNat ∧ t.toNat < s.toNat + 2 ^ (n - 1)) ∨ t.toNat + 2 ^ (n - 1) < s.toNat := by
  have hpos : 0 < 2 ^ (n - 1) := Nat.two_pow_pos _
  have hcast : ((2 ^ (n - 1) : ℕ) : ℤ) = 2 ^ (n - 1) := by norm_cast
  unfold Less
  rw [← hcast]
  generalize 2 ^ (n - 1) = half at hpos ⊢
  omega

/-- The whole space is two halves. -/
theorem two_pow_eq (hn : 0 < n) : 2 ^ n = 2 ^ (n - 1) + 2 ^ (n - 1) := by
  obtain ⟨m, rfl⟩ := Nat.exists_eq_succ_of_ne_zero hn.ne'
  rw [Nat.succ_sub_one, Nat.pow_succ, Nat.mul_two]

/-- The difference, wrapped or not. -/
theorem toNat_sub_cases (s t : BitVec n) :
    (t.toNat ≤ s.toNat ∧ (s - t).toNat = s.toNat - t.toNat) ∨
      (s.toNat < t.toNat ∧ (s - t).toNat = 2 ^ n - (t.toNat - s.toNat)) := by
  by_cases hle : t ≤ s
  · exact Or.inl ⟨hle, BitVec.toNat_sub_of_le hle⟩
  · have hlt : s < t := BitVec.not_le.mp hle
    exact Or.inr ⟨hlt, BitVec.toNat_sub_of_lt hlt⟩

/-- **The sign bit of the difference.** It is set when `s` is less than `t`, and when they are half
of the space apart. -/
theorem half_le_sub_iff (hn : 0 < n) :
    2 ^ (n - 1) ≤ (s - t).toNat ↔ Less s t ∨ (s - t).toNat = 2 ^ (n - 1) := by
  have hspace := two_pow_eq hn
  have hs := s.isLt
  have ht := t.isLt
  have hsub := toNat_sub_cases s t
  rw [less_iff]
  omega

/-- Numbers half of the space apart are not ordered. -/
theorem not_less_of_half (hn : 0 < n) (hhalf : (s - t).toNat = 2 ^ (n - 1)) : ¬ Less s t := by
  have hspace := two_pow_eq hn
  have hsub := toNat_sub_cases s t
  rw [less_iff]
  omega

/-- They are half of the space apart in both directions. -/
theorem half_comm (hn : 0 < n) (hhalf : (s - t).toNat = 2 ^ (n - 1)) :
    (t - s).toNat = 2 ^ (n - 1) := by
  have hspace := two_pow_eq hn
  have hsub := toNat_sub_cases s t
  have hsub' := toNat_sub_cases t s
  omega

theorem Less.asymm (h : Less s t) : ¬ Less t s := by
  have hpos : 0 < 2 ^ (n - 1) := Nat.two_pow_pos _
  rw [less_iff] at h ⊢
  omega

/-! ### Comparing by the sign bit -/

section SignBit

variable {lt lte : BitVec n → BitVec n → Prop}

/-- **Two numbers are compared as serial numbers exactly when they are not half of the space
apart.** -/
theorem compares_iff (hn : 0 < n) (hlt : ∀ s t, lt s t ↔ 2 ^ (n - 1) ≤ (s - t).toNat)
    (hlte : ∀ s t, lte s t ↔ s = t ∨ 2 ^ (n - 1) ≤ (s - t).toNat) :
    Compares lt lte s t ↔ (s - t).toNat ≠ 2 ^ (n - 1) := by
  constructor
  · intro hcompares hhalf
    have hless : Less s t := hcompares.lt_iff.mp ((hlt s t).mpr hhalf.ge)
    exact not_less_of_half hn hhalf hless
  · intro hne
    have hsign : 2 ^ (n - 1) ≤ (s - t).toNat ↔ Less s t := by
      rw [half_le_sub_iff hn]
      exact or_iff_left hne
    refine ⟨(hlt s t).trans hsign, ?_, ?_⟩
    · rw [hlte, hsign]
    · rintro ⟨hst, hts⟩
      rw [hlt, hsign] at hst
      rw [hlt, half_le_sub_iff hn] at hts
      exact hts.elim hst.asymm fun hhalf => hne (half_comm hn hhalf)

/-- In a window shorter than half of the space the order is that of the offsets. -/
theorem half_le_sub_iff_offset (hn : 0 < n) {b : BitVec n} (hs : (s - b).toNat < 2 ^ (n - 1))
    (ht : (t - b).toNat < 2 ^ (n - 1)) :
    2 ^ (n - 1) ≤ (s - t).toNat ↔ (s - b).toNat < (t - b).toNat := by
  have hspace := two_pow_eq hn
  have hsub : s - t = (s - b) - (t - b) := (sub_sub_sub_cancel_right s t b).symm
  have hcases := toNat_sub_cases (s - b) (t - b)
  rw [hsub]
  omega

theorem ordersWindow (hn : 0 < n) (hlt : ∀ s t, lt s t ↔ 2 ^ (n - 1) ≤ (s - t).toNat)
    (b : BitVec n) : OrdersWindow lt b := by
  intro S hS
  have hoffset : ∀ s ∈ S, ∀ t ∈ S, (lt s t ↔ (s - b).toNat < (t - b).toNat) := by
    intro s hs t ht
    rw [hlt]
    exact half_le_sub_iff_offset hn (hS s hs) (hS t ht)
  -- the offsets embed the set in the natural numbers
  have hinj : Function.Injective fun s : S => ((s : BitVec n) - b).toNat := by
    intro s t heq
    have hsub : (s : BitVec n) - b = t - b := BitVec.eq_of_toNat_eq heq
    apply Subtype.ext
    calc (s : BitVec n) = s - b + b := (BitVec.sub_add_cancel ..).symm
      _ = t - b + b := by rw [hsub]
      _ = t := BitVec.sub_add_cancel ..
  have hembed : (fun s t : S => lt s t) ↪r (fun i j : ℕ => i < j) :=
    ⟨⟨_, hinj⟩, fun {s t} => (hoffset s s.2 t t.2).symm⟩
  exact ⟨hembed.isStrictTotalOrder, hoffset⟩

end SignBit

end SerialNumber
