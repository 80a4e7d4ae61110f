import Mathlib.Data.UInt
import Mathlib.Logic.ExistsUnique
import Mathlib.Tactic.Common

/-! # The sweep over the connection table

Each call of `nk_update_delta_count` visits the buckets from behind the end of the last call on.
The end was not visited, but the start is one behind it, so that a bucket is left out.
-/
namespace SweepRange

/-- `cnt_period`; the setting is an `int`, which the division takes as unsigned. -/
def cntPeriod (calCntPeriod : UInt32) : UInt32 := if calCntPeriod ≠ 0 then calCntPeriod else 60

/-- `k`, from the `hashtmp_size` of the last call. -/
def start (htableSize hashtmpSize : UInt32) : UInt32 :=
  let k := if hashtmpSize ≠ 0 then hashtmpSize + 1 else hashtmpSize
  if k ≥ htableSize then 0 else k

def finish (htableSize calCntPeriod hashtmpSize : UInt32) : UInt32 :=
  let e := start htableSize hashtmpSize + htableSize / cntPeriod calCntPeriod
  if e > htableSize then htableSize else e

/-- The buckets of a call. The loop compares signed. -/
def Visits (htableSize calCntPeriod hashtmpSize : UInt32) (i : ℕ) : Prop :=
  (start htableSize hashtmpSize).toInt32.toInt ≤ i ∧
    i < (finish htableSize calCntPeriod hashtmpSize).toInt32.toInt

/-- `hashtmp_size` after some calls, from the end of a cycle on. -/
def sweep (htableSize calCntPeriod : UInt32) : ℕ → UInt32
  | 0 => htableSize
  | n + 1 => finish htableSize calCntPeriod (sweep htableSize calCntPeriod n)

/-- The next cycle ends, and one of its calls visits each bucket. -/
def Covers (htableSize calCntPeriod : UInt32) : Prop :=
  ∃ n, sweep htableSize calCntPeriod (n + 1) = htableSize ∧
    (∀ m < n, sweep htableSize calCntPeriod (m + 1) ≠ htableSize) ∧
    ∀ i < htableSize.toNat,
      ∃! m, m ≤ n ∧ Visits htableSize calCntPeriod (sweep htableSize calCntPeriod m) i

section Calls

variable {htableSize calCntPeriod hashtmpSize x : UInt32} {i m n : ℕ}

theorem toInt_of_lt (h : x.toNat < 2 ^ 31) : x.toInt32.toInt = x.toNat := by
  have hcond := BitVec.toInt_eq_toNat_cond x.toBitVec
  have htoInt : x.toInt32.toInt = x.toBitVec.toInt := rfl
  rw [htoInt, hcond, UInt32.toNat_toBitVec, if_pos (by omega)]

theorem toInt_lt (x : UInt32) : x.toInt32.toInt < 2 ^ 31 := by
  have hcond := BitVec.toInt_eq_toNat_cond x.toBitVec
  have htoInt : x.toInt32.toInt = x.toBitVec.toInt := rfl
  have hlt := x.toNat_lt
  rw [htoInt, hcond, UInt32.toNat_toBitVec]
  split <;> omega

theorem cntPeriod_ne_zero (calCntPeriod : UInt32) : (cntPeriod calCntPeriod).toNat ≠ 0 := by
  rw [cntPeriod]
  split
  · next h => exact fun hzero => h (UInt32.toNat_inj.mp hzero)
  · decide

/-- Where a call starts in a table that an `int` can count. -/
theorem toNat_start (hsize : htableSize.toNat < 2 ^ 31) (h : hashtmpSize.toNat ≤ htableSize.toNat) :
    (start htableSize hashtmpSize).toNat =
      if hashtmpSize.toNat = 0 ∨ htableSize.toNat ≤ hashtmpSize.toNat + 1 then 0
      else hashtmpSize.toNat + 1 := by
  have hadd : (hashtmpSize + 1).toNat = hashtmpSize.toNat + 1 := by
    rw [UInt32.toNat_add]
    exact Nat.mod_eq_of_lt (by change hashtmpSize.toNat + 1 < 2 ^ 32; omega)
  by_cases hzero : hashtmpSize = 0
  · subst hzero
    rw [start]
    simp
  · have hpos : hashtmpSize.toNat ≠ 0 := fun h => hzero (UInt32.toNat_inj.mp h)
    simp only [start, if_pos hzero, ge_iff_le, UInt32.le_iff_toNat_le, hadd]
    by_cases hend : htableSize.toNat ≤ hashtmpSize.toNat + 1
    · rw [if_pos hend, if_pos (.inr hend)]
      rfl
    · rw [if_neg hend, if_neg (by omega), hadd]

theorem toNat_finish (hsize : htableSize.toNat < 2 ^ 31)
    (hperiod : (cntPeriod calCntPeriod).toNat ≠ 1) (h : hashtmpSize.toNat ≤ htableSize.toNat) :
    (finish htableSize calCntPeriod hashtmpSize).toNat =
      min ((start htableSize hashtmpSize).toNat +
        htableSize.toNat / (cntPeriod calCntPeriod).toNat) htableSize.toNat := by
  have hne := cntPeriod_ne_zero calCntPeriod
  have hstart := toNat_start hsize h
  have hquot : htableSize.toNat / (cntPeriod calCntPeriod).toNat ≤ htableSize.toNat / 2 :=
    Nat.div_le_div_left (by omega) (by decide)
  have hadd : (start htableSize hashtmpSize + htableSize / cntPeriod calCntPeriod).toNat =
      (start htableSize hashtmpSize).toNat +
        htableSize.toNat / (cntPeriod calCntPeriod).toNat := by
    rw [UInt32.toNat_add, UInt32.toNat_div]
    apply Nat.mod_eq_of_lt
    split at hstart <;> omega
  simp only [finish, gt_iff_lt, UInt32.lt_iff_toNat_lt, hadd]
  split
  · omega
  · rw [hadd]
    omega

/-- The bucket behind the first part of the table is never visited. -/
theorem sweep_leaves_out (hsize : htableSize.toNat < 2 ^ 31)
    (hperiod : (cntPeriod calCntPeriod).toNat ≠ 1) (hpos : htableSize ≠ 0) (m : ℕ) :
    htableSize.toNat / (cntPeriod calCntPeriod).toNat ≤ (sweep htableSize calCntPeriod m).toNat ∧
    (sweep htableSize calCntPeriod m).toNat ≤ htableSize.toNat ∧
    ¬ Visits htableSize calCntPeriod (sweep htableSize calCntPeriod m)
      (htableSize.toNat / (cntPeriod calCntPeriod).toNat) := by
  have hne := cntPeriod_ne_zero calCntPeriod
  have hpos' : htableSize.toNat ≠ 0 := fun h => hpos (UInt32.toNat_inj.mp h)
  have hquot : htableSize.toNat / (cntPeriod calCntPeriod).toNat < htableSize.toNat :=
    Nat.div_lt_self (by omega) (by omega)
  have hbounds : htableSize.toNat / (cntPeriod calCntPeriod).toNat ≤
      (sweep htableSize calCntPeriod m).toNat ∧
      (sweep htableSize calCntPeriod m).toNat ≤ htableSize.toNat := by
    induction m with
    | zero => exact ⟨hquot.le, Nat.le_refl _⟩
    | succ m ih =>
      rw [sweep, toNat_finish hsize hperiod ih.2]
      omega
  refine ⟨hbounds.1, hbounds.2, fun hvisits => ?_⟩
  have hstart := toNat_start hsize hbounds.2
  have hfinish := toNat_finish hsize hperiod hbounds.2
  obtain ⟨hfrom, hto⟩ := hvisits
  rw [toInt_of_lt (by split at hstart <;> omega)] at hfrom
  rw [toInt_of_lt (by omega)] at hto
  split at hstart <;> omega

theorem not_covers_of_period (hsize : htableSize.toNat < 2 ^ 31)
    (hperiod : (cntPeriod calCntPeriod).toNat ≠ 1) (hpos : htableSize ≠ 0) :
    ¬ Covers htableSize calCntPeriod := by
  have hne := cntPeriod_ne_zero calCntPeriod
  have hpos' : htableSize.toNat ≠ 0 := fun h => hpos (UInt32.toNat_inj.mp h)
  have hquot : htableSize.toNat / (cntPeriod calCntPeriod).toNat < htableSize.toNat :=
    Nat.div_lt_self (by omega) (by omega)
  intro h
  obtain ⟨n, -, -, hall⟩ := h
  obtain ⟨m, ⟨-, hvisits⟩, -⟩ := hall _ hquot
  exact (sweep_leaves_out hsize hperiod hpos m).2.2 hvisits

/-- The last bucket of a table that an `int` cannot count. -/
theorem not_covers_of_size (hsize : ¬ htableSize.toNat < 2 ^ 31) :
    ¬ Covers htableSize calCntPeriod := by
  intro h
  obtain ⟨n, -, -, hall⟩ := h
  obtain ⟨m, ⟨-, -, hto⟩, -⟩ := hall (htableSize.toNat - 1) (by omega)
  have hlt := toInt_lt (finish htableSize calCntPeriod (sweep htableSize calCntPeriod m))
  omega

theorem covers_of_period (hsize : htableSize.toNat < 2 ^ 31)
    (hperiod : (cntPeriod calCntPeriod).toNat = 1) : Covers htableSize calCntPeriod := by
  have hstart : start htableSize htableSize = 0 := by
    apply UInt32.toNat_inj.mp
    rw [toNat_start hsize (Nat.le_refl _), if_pos (by omega)]
    rfl
  have hone : cntPeriod calCntPeriod = 1 := UInt32.toNat_inj.mp hperiod
  have hfinish : finish htableSize calCntPeriod htableSize = htableSize := by
    simp [finish, hstart, hone]
  refine ⟨0, hfinish, fun m hm => absurd hm (Nat.not_lt_zero m), fun i hi => ?_⟩
  refine ⟨0, ⟨Nat.le_refl _, ?_, ?_⟩, fun m hm => Nat.le_zero.mp hm.1⟩
  · rw [sweep, hstart]
    exact Int.natCast_nonneg i
  · rw [sweep, hfinish, toInt_of_lt hsize]
    exact Int.ofNat_lt.mpr hi

theorem covers_zero (calCntPeriod : UInt32) : Covers 0 calCntPeriod := by
  refine ⟨0, ?_, fun m hm => absurd hm (Nat.not_lt_zero m),
    fun i hi => absurd hi (Nat.not_lt_zero i)⟩
  simp [sweep, finish, start]

end Calls

/-- When the calls visit each bucket once. -/
theorem sweep_covers_iff (htableSize calCntPeriod : UInt32) : Covers htableSize calCntPeriod ↔
    htableSize.toNat < 2 ^ 31 ∧ (htableSize = 0 ∨ (cntPeriod calCntPeriod).toNat = 1) := by
  by_cases hsize : htableSize.toNat < 2 ^ 31
  · rw [and_iff_right hsize]
    by_cases hzero : htableSize = 0
    · rw [hzero]
      exact iff_of_true (covers_zero calCntPeriod) (.inl rfl)
    · by_cases hperiod : (cntPeriod calCntPeriod).toNat = 1
      · exact iff_of_true (covers_of_period hsize hperiod) (.inr hperiod)
      · refine iff_of_false (not_covers_of_period hsize hperiod hzero) fun h => ?_
        exact h.elim hzero hperiod
  · exact iff_of_false (not_covers_of_size hsize) fun h => hsize h.1

/-- The table of the firmware and the period that it starts with: bucket 4369 is left out. -/
theorem bucket_left_out :
    ¬ ∀ htableSize calCntPeriod : UInt32, htableSize ≠ 0 → Covers htableSize calCntPeriod := by
  intro h
  exact not_covers_of_period (by decide) (by decide) (by decide) (h 262140 0 (by decide))

end SweepRange
