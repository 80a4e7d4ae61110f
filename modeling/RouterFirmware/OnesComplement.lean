import Mathlib.Algebra.Ring.Nat
import Mathlib.Tactic.Common

/-! # Sums of 16-bit words with the carries added

Such a sum counts modulo `2 ^ 16 - 1` only, and is zero for no other words than zeros. The check
field of a packet makes the sum of all its words all ones.
-/
namespace OnesComplement

/-- The sum of the words, high byte first. A last byte alone is a high byte. -/
def words : List UInt8 → ℕ
  | [] => 0
  | [a] => 256 * a.toNat
  | a :: b :: t => 256 * a.toNat + b.toNat + words t

def addCarry (a b : ℕ) : ℕ := (a + b) % 2 ^ 32 + (a + b) / 2 ^ 32

/-- The words added to a sum of 32 bits. -/
def addWords : ℕ → List UInt8 → ℕ
  | sum, [] => sum
  | sum, [a] => addCarry sum (256 * a.toNat)
  | sum, a :: b :: t => addWords (addCarry sum (256 * a.toNat + b.toNat)) t

/-- A sum of 32 bits in 16. -/
def fold (sum : ℕ) : ℕ :=
  let half := sum / 2 ^ 16 + sum % 2 ^ 16
  half % 2 ^ 16 + half / 2 ^ 16

variable {a b : List UInt8} {s t n : ℕ}

theorem addCarry_lt (hs : s < 2 ^ 32) (ht : t < 2 ^ 32) : addCarry s t < 2 ^ 32 := by
  rw [addCarry]
  omega

theorem addCarry_mod (s t : ℕ) : addCarry s t % 65535 = (s + t) % 65535 := by
  rw [addCarry]
  omega

theorem fold_lt (hs : s < 2 ^ 32) : fold s < 2 ^ 16 := by
  simp only [fold]
  omega

theorem fold_mod (s : ℕ) : fold s % 65535 = s % 65535 := by
  simp only [fold]
  omega

theorem fold_eq_zero_iff (s : ℕ) : fold s = 0 ↔ s = 0 := by
  simp only [fold]
  omega

/-- The sum is all ones when it counts as zero, and is not zero. -/
theorem fold_eq_ones_iff (hs : s < 2 ^ 32) : fold s = 65535 ↔ 0 < s ∧ s % 65535 = 0 := by
  have hlt := fold_lt hs
  have hmod := fold_mod s
  have hzero := fold_eq_zero_iff s
  omega

theorem addWords_lt (hs : s < 2 ^ 32) (a : List UInt8) : addWords s a < 2 ^ 32 := by
  induction s, a using addWords.induct with
  | case1 s => exact hs
  | case2 s a =>
    have := a.toNat_lt
    exact addCarry_lt hs (by omega)
  | case3 s a b t ih =>
    have := a.toNat_lt
    have := b.toNat_lt
    exact ih (addCarry_lt hs (by omega))

theorem addWords_mod (s : ℕ) (a : List UInt8) : addWords s a % 65535 = (s + words a) % 65535 := by
  induction s, a using addWords.induct with
  | case1 s => rfl
  | case2 s a => exact addCarry_mod s _
  | case3 s a b t ih =>
    rw [addWords, ih, words, Nat.add_mod, addCarry_mod, ← Nat.add_mod, Nat.add_assoc s]

theorem addCarry_eq_zero_iff (s t : ℕ) : addCarry s t = 0 ↔ s + t = 0 := by
  rw [addCarry]
  omega

theorem addWords_eq_zero_iff (s : ℕ) (a : List UInt8) : addWords s a = 0 ↔ s + words a = 0 := by
  induction s, a using addWords.induct with
  | case1 s => rfl
  | case2 s a => exact addCarry_eq_zero_iff s _
  | case3 s a b t ih =>
    have hstep := addCarry_eq_zero_iff s (256 * a.toNat + b.toNat)
    rw [addWords, ih, words]
    omega

theorem fold_addWords (h : 0 < words a) : fold (addWords 0 a) = (words a - 1) % 65535 + 1 := by
  have hlt := fold_lt (addWords_lt (Nat.two_pow_pos 32) a)
  have hmod := (fold_mod (addWords 0 a)).trans (addWords_mod 0 a)
  have hzero := (fold_eq_zero_iff (addWords 0 a)).trans (addWords_eq_zero_iff 0 a)
  omega

theorem fold_addWords_eq_ones_iff (a : List UInt8) :
    fold (addWords 0 a) = 65535 ↔ 0 < words a ∧ words a % 65535 = 0 := by
  have hmod := addWords_mod 0 a
  have hzero := addWords_eq_zero_iff 0 a
  rw [fold_eq_ones_iff (addWords_lt (Nat.two_pow_pos 32) a)]
  omega

theorem mod_of_split (q r : ℕ) : (2 ^ 32 * q + r) % 65535 = (q + r) % 65535 := by
  have hpow : 2 ^ 32 = 65535 * 65537 + 1 := rfl
  have hsplit : 2 ^ 32 * q + r = 65535 * (65537 * q) + (q + r) := by
    rw [hpow, Nat.add_mul, Nat.one_mul, Nat.mul_assoc, Nat.add_assoc]
  rw [hsplit, Nat.mul_add_mod]

theorem complement_mod {f x s : ℕ} (hf : f ≤ 65535) (hmod : f % 65535 = s % 65535) :
    (65535 - f + x) % 65535 = (x % 65535 + (65535 - s % 65535)) % 65535 := by
  omega

/-- The complement of a sum of 64 bits in 32 bits, without the carry of the last addition. -/
theorem nofold_mod {x : ℕ} (hx : x < 3 * 2 ^ 32) :
    (65535 - fold ((x % 2 ^ 32 + x / 2 ^ 32) % 2 ^ 32) + x) % 65535 =
      if 2 ^ 32 ≤ x % 2 ^ 32 + x / 2 ^ 32 then 1 else 0 := by
  have hlt := fold_lt (Nat.mod_lt (x % 2 ^ 32 + x / 2 ^ 32) (Nat.two_pow_pos 32))
  have hmod := fold_mod ((x % 2 ^ 32 + x / 2 ^ 32) % 2 ^ 32)
  have hr : x % 2 ^ 32 < 2 ^ 32 := Nat.mod_lt _ (Nat.two_pow_pos 32)
  have hq : x / 2 ^ 32 < 3 := Nat.div_lt_of_lt_mul (by omega)
  have hsum : x % 65535 = (x / 2 ^ 32 + x % 2 ^ 32) % 65535 := by
    rw [← mod_of_split, Nat.div_add_mod]
  rw [complement_mod (Nat.le_of_lt_succ hlt) hmod, hsum, Nat.add_comm (x / 2 ^ 32)]
  generalize x % 2 ^ 32 = r at *
  generalize x / 2 ^ 32 = q at *
  clear hsum hmod hlt hx
  by_cases hlost : 2 ^ 32 ≤ r + q
  · have hy : (r + q) % 2 ^ 32 = r + q - 2 ^ 32 := by
      rw [Nat.mod_eq_sub_mod hlost]
      exact Nat.mod_eq_of_lt (by omega)
    have hone : (r + q) % 65535 = (r + q - 2 ^ 32 + 1) % 65535 := by
      have hback : r + q = 2 ^ 32 * 1 + (r + q - 2 ^ 32) := by omega
      conv_lhs => rw [hback, mod_of_split, Nat.add_comm]
    rw [if_pos hlost, hy, hone]
    generalize r + q - 2 ^ 32 = s
    omega
  · rw [if_neg hlost, Nat.mod_eq_of_lt (Nat.lt_of_not_le hlost)]
    generalize r + q = s
    omega

/-- Words behind an even number of bytes. -/
theorem words_append (ha : a.length % 2 = 0) (b : List UInt8) :
    words (a ++ b) = words a + words b := by
  induction a using words.induct with
  | case1 => simp [words]
  | case2 => simp at ha
  | case3 a b' t ih =>
    rw [List.length_cons, List.length_cons] at ha
    rw [List.cons_append, List.cons_append, words, words, ih (by omega), ← Nat.add_assoc]

theorem words_replicate_zero (n : ℕ) : words (List.replicate n 0) = 0 := by
  induction n using Nat.strongRecOn with
  | _ n ih =>
    match n with
    | 0 => rfl
    | 1 => rfl
    | n + 2 =>
      rw [List.replicate_succ, List.replicate_succ, words, ih n (by omega)]
      rfl

/-- Zeros behind the last word do not count. -/
theorem words_append_zeros (a : List UInt8) (n : ℕ) :
    words (a ++ List.replicate n 0) = words a := by
  induction a using words.induct with
  | case1 => rw [List.nil_append, words_replicate_zero, words]
  | case2 a =>
    cases n with
    | zero => rfl
    | succ n =>
      rw [List.replicate_succ, List.singleton_append, words, words, words_replicate_zero]
      rfl
  | case3 a b t ih => rw [List.cons_append, List.cons_append, words, words, ih]

theorem words_take_append_zeros (a : List UInt8) (m n : ℕ) :
    words ((a ++ List.replicate n 0).take m) = words (a.take m) := by
  rw [List.take_append, List.take_replicate, words_append_zeros]

end OnesComplement
