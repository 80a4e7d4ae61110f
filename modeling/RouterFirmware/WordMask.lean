import Mathlib.Data.Nat.Bitwise
import Mathlib.Algebra.Order.Ring.Nat
import Mathlib.Tactic.Ring

/-! # Masks of the high bits of a word

A word masked with all bits from the `k`th on is the word rounded down to a multiple of `2 ^ k`.
-/
namespace WordMask

theorem land_high {w k x : ℕ} (hk : k ≤ w) (hx : x < 2 ^ w) :
    x &&& (2 ^ w - 2 ^ k) = x / 2 ^ k * 2 ^ k := by
  have hmask : 2 ^ w - 2 ^ k = (2 ^ (w - k) - 1) <<< k := by
    rw [Nat.shiftLeft_eq, Nat.sub_mul, ← Nat.pow_add, Nat.sub_add_cancel hk, Nat.one_mul]
  rw [hmask, ← Nat.shiftRight_eq_div_pow, ← Nat.shiftLeft_eq]
  apply Nat.eq_of_testBit_eq
  intro i
  rw [Nat.testBit_and, Nat.testBit_shiftLeft, Nat.testBit_shiftLeft, Nat.testBit_two_pow_sub_one,
    Nat.testBit_shiftRight]
  by_cases hi : k ≤ i
  · have hback : k + (i - k) = i := by omega
    by_cases hw : i < w
    · have hlt : i - k < w - k := by omega
      simp [hi, hback, hlt]
    · have hzero : x.testBit i = false := by
        apply Nat.testBit_lt_two_pow
        exact lt_of_lt_of_le hx (Nat.pow_le_pow_right (by decide) (by omega))
      simp [hi, hback, hzero]
  · simp [hi]

/-- Rounding up, as the smallest multiple that is not below. -/
def ceilTo (n x : ℕ) : ℕ := (x + (n - 1)) / n * n

theorem le_ceilTo {n : ℕ} (hn : 0 < n) (x : ℕ) : x ≤ ceilTo n x := by
  have h := Nat.div_add_mod (x + (n - 1)) n
  have hlt := Nat.mod_lt (x + (n - 1)) hn
  rw [ceilTo, Nat.mul_comm]
  omega

theorem ceilTo_of_dvd {n x : ℕ} (hn : 0 < n) (h : n ∣ x) : ceilTo n x = x := by
  obtain ⟨q, rfl⟩ := h
  have hq : (n * q + (n - 1)) / n = q := by
    rw [Nat.mul_add_div hn, Nat.div_eq_of_lt (by omega), Nat.add_zero]
  rw [ceilTo, hq, Nat.mul_comm]

theorem ceilTo_le {n x y : ℕ} (hn : 0 < n) (h : n ∣ y) (hxy : x ≤ y) : ceilTo n x ≤ y := by
  rw [← ceilTo_of_dvd hn h, ceilTo, ceilTo]
  exact Nat.mul_le_mul_right n (Nat.div_le_div_right (Nat.add_le_add_right hxy _))

end WordMask
