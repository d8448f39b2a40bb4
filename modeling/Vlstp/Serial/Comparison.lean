import Vlstp.Framework.SerialNumber
import Vlstp.Serial

/-!
# The order of sequence numbers

`vlstp.h` quotes the definition of "less" from RFC 1982 above `TSN_lt`. `TSN_lt` and `SSN_lt` test
the sign bit of the difference instead, which is the same for all numbers but those half of the
space apart: each of two such numbers is less than the other, where neither should be
(`comparisons_serial_iff`). In a window shorter than half of the space the functions order the
numbers as the window does.
-/

namespace Vlstp

/-- **`TSN_lt`, `TSN_lte`, `SSN_lt` and `SSN_lte` compare two numbers as serial numbers exactly when
they are not half of the space apart**, and they order the numbers of every window shorter than
half of the space. -/
theorem comparisons_serial_iff (s t : Tsn) (u v : Ssn) :
    (SerialNumber.Compares (fun s t => tsnLt s t ≠ 0) (fun s t => tsnLte s t = true) s t ↔
        (s - t).toNat ≠ 2 ^ 31) ∧
      (SerialNumber.Compares (fun u v => ssnLt u v ≠ 0) (fun u v => ssnLte u v = true) u v ↔
        (u - v).toNat ≠ 2 ^ 15) ∧
      (∀ b : Tsn, SerialNumber.OrdersWindow (fun s t => tsnLt s t ≠ 0) b) ∧
      ∀ b : Ssn, SerialNumber.OrdersWindow (fun u v => ssnLt u v ≠ 0) b :=
  ⟨SerialNumber.compares_iff (by decide) tsnLt_ne_zero_iff tsnLte_iff,
    SerialNumber.compares_iff (by decide) ssnLt_ne_zero_iff ssnLte_iff,
    SerialNumber.ordersWindow (by decide) tsnLt_ne_zero_iff,
    SerialNumber.ordersWindow (by decide) ssnLt_ne_zero_iff⟩

/-- Two numbers half of the space apart. -/
theorem tsnLt_both_ways :
    ¬ ∀ s t : Tsn, SerialNumber.Compares (fun s t => tsnLt s t ≠ 0) (fun s t => tsnLte s t = true)
      s t := by
  intro hall
  exact (hall 0 (1#32 <<< 31)).not_both ⟨by decide, by decide⟩

end Vlstp
