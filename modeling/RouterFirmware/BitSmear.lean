import Mathlib.Data.Nat.Bitwise
import Mathlib.Data.Nat.Size
import Mathlib.Tactic.Ring

/-! # Rounding up to a power of two

A word is ORed with itself shifted, by 1, 2, 4 and so on, until all bits below its highest one are
set; the next number is a power of two.
-/
namespace BitSmear

def spread (x k : ℕ) : ℕ := x ||| x >>> k

/-- A bit of `y` is set when one of the `w` bits of `x` from it on is. -/
def Covers (x w y : ℕ) : Prop := ∀ i, y.testBit i = true ↔ ∃ j < w, x.testBit (i + j) = true

variable {x w y : ℕ}

theorem covers_self (x : ℕ) : Covers x 1 x := by
  intro i
  simp

theorem Covers.spread (h : Covers x w y) : Covers x (w + w) (spread y w) := by
  intro i
  rw [BitSmear.spread, Nat.testBit_or, Nat.testBit_shiftRight, Bool.or_eq_true, h i, h (w + i)]
  constructor
  · rintro (⟨j, hj, hx⟩ | ⟨j, hj, hx⟩)
    · exact ⟨j, Nat.lt_add_right w hj, hx⟩
    · exact ⟨w + j, Nat.add_lt_add_left hj w, by rwa [← Nat.add_assoc, Nat.add_comm i w]⟩
  · rintro ⟨j, hj, hx⟩
    by_cases hjw : j < w
    · exact .inl ⟨j, hjw, hx⟩
    · obtain ⟨k, rfl⟩ := Nat.exists_eq_add_of_le (Nat.le_of_not_lt hjw)
      exact .inr ⟨k, Nat.lt_of_add_lt_add_left hj, by rwa [Nat.add_comm w i, Nat.add_assoc]⟩

def smear (x : ℕ) : ℕ := spread (spread (spread (spread (spread x 1) 2) 4) 8) 16

theorem covers_smear (x : ℕ) : Covers x 32 (smear x) :=
  (covers_self x).spread.spread.spread.spread.spread

theorem exists_testBit_iff (hx : x < 2 ^ w) (i : ℕ) :
    (∃ j < w, x.testBit (i + j) = true) ↔ i < x.size := by
  rw [Nat.lt_size]
  constructor
  · rintro ⟨j, -, hj⟩
    exact le_trans (Nat.pow_le_pow_right (by decide) (Nat.le_add_right i j))
      (Nat.ge_two_pow_of_testBit hj)
  · intro hi
    obtain ⟨k, hik, hk⟩ := Nat.exists_ge_and_testBit_of_ge_two_pow hi
    have hkw : k < w := by
      by_contra hle
      have hpow : 2 ^ w ≤ x :=
        le_trans (Nat.pow_le_pow_right (by decide) (Nat.le_of_not_lt hle))
          (Nat.ge_two_pow_of_testBit hk)
      exact absurd hx (Nat.not_lt.mpr hpow)
    exact ⟨k - i, lt_of_le_of_lt (Nat.sub_le k i) hkw, by rwa [Nat.add_sub_cancel' hik]⟩

theorem smear_eq (hx : x < 2 ^ 32) : smear x = 2 ^ x.size - 1 := by
  apply Nat.eq_of_testBit_eq
  intro i
  rw [Nat.testBit_two_pow_sub_one, Bool.eq_iff_iff, covers_smear x i, exists_testBit_iff hx i,
    decide_eq_true_eq]

theorem smear_add_one (hx : x < 2 ^ 32) : smear x + 1 = 2 ^ x.size := by
  rw [smear_eq hx]
  exact Nat.sub_add_cancel Nat.one_le_two_pow

theorem le_two_pow_size {n : ℕ} (hn : 0 < n) : n ≤ 2 ^ (n - 1).size := by
  have hlt := Nat.lt_size_self (n - 1)
  omega

end BitSmear
