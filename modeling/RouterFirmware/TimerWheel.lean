import Mathlib.Data.UInt
import RouterFirmware.BitSmear

/-! # The timer wheel

`cvmx_tim_setup` computes how long a bucket is and how many buckets there are, and
`cvmx_tim_add_entry` puts an entry into the bucket of its time. The hardware goes round the buckets,
so a bucket that is a whole revolution away is reached a revolution early.
-/
namespace TimerWheel

open BitSmear

/-- `cvmx_tim_t`, less the buckets. -/
structure CvmxTim where
  tickCycles : UInt64
  startTime : UInt64
  bucketShift : UInt32
  numBuckets : UInt32
  maxTicks : UInt32
  deriving DecidableEq

/-! ## Setup -/

def hwTickNs (cpuClockHz : UInt64) : UInt64 := 1024 * 1000000000 / cpuClockHz

/-- The first `i` of the loop for which the tick is shorter than `2 ^ i` ticks of the hardware. -/
def shiftIndex (tickNs hwTickNs : UInt64) : ℕ :=
  ((List.range' 1 19).find? fun i => tickNs < hwTickNs <<< UInt64.ofNat i).getD 20

def roundUp (temp : UInt32) : UInt32 :=
  let temp := temp - 1
  let temp := temp ||| temp >>> 1
  let temp := temp ||| temp >>> 2
  let temp := temp ||| temp >>> 4
  let temp := temp ||| temp >>> 8
  let temp := temp ||| temp >>> 16
  temp + 1

/-- A clock rate of 0 is that of the simulator. -/
def clockHz (cpuClockHz : UInt64) : UInt64 := if cpuClockHz = 0 then 333000000 else cpuClockHz

def configured (cpuClockHz tick maxTicks : UInt64) : CvmxTim :=
  let cpuClockHz := clockHz cpuClockHz
  let bucketShift := UInt32.ofNat (shiftIndex (1000 * tick) (hwTickNs cpuClockHz) - 1 + 10)
  let tickCycles := tick * cpuClockHz / 1000000
  let temp := ((maxTicks * tickCycles) >>> bucketShift.toUInt64).toUInt32
  ⟨tickCycles, 0, bucketShift, roundUp temp, maxTicks.toUInt32⟩

/-- `cvmx_tim_setup`; nothing stands for an error. -/
def cvmxTimSetup (cpuClockHz tick maxTicks : UInt64) (allocated : Bool) : Option CvmxTim :=
  let hwTickNs := hwTickNs (clockHz cpuClockHz)
  let tickNs := 1000 * tick
  let t := configured cpuClockHz tick maxTicks
  if tickNs < hwTickNs ∨ tickNs > 4194304 * hwTickNs then none
  else if t.numBuckets < 3 ∨ t.numBuckets > 1048576 then none
  else if allocated then some t
  else none

def CvmxTim.start (t : CvmxTim) (cycles : UInt64) : CvmxTim := { t with startTime := cycles }

/-! ## Buckets -/

namespace CvmxTim

variable (t : CvmxTim)

def currentBucket (cycles : UInt64) : UInt64 := (cycles - t.startTime) >>> t.bucketShift.toUInt64

def workBucket (cycles ticksFromNow : UInt64) : UInt64 :=
  (ticksFromNow * t.tickCycles + cycles - t.startTime) >>> t.bucketShift.toUInt64

/-- Fewer ticks than two are taken for two. -/
def delayed (ticksFromNow : UInt64) : UInt64 := if ticksFromNow < 2 then 2 else ticksFromNow

/-- The bucket numbers that `cvmx_tim_add_entry` computes; nothing for
`CVMX_TIM_STATUS_TOO_FAR_AWAY`. -/
def buckets (cycles ticksFromNow : UInt64) : Option (UInt64 × UInt64) :=
  if ticksFromNow > t.maxTicks.toUInt64 then none
  else some (t.currentBucket cycles, t.workBucket cycles (delayed ticksFromNow))

def slot (bucket : UInt64) : UInt64 := bucket &&& (t.numBuckets.toUInt64 - 1)

def bucketCycles : ℕ := 2 ^ t.bucketShift.toNat

/-- How many bucket numbers there are: those of 64 bits of cycles. -/
def numberCount : ℕ := 2 ^ (64 - t.bucketShift.toNat)

/-- How far the one bucket number is ahead of the other. -/
def ahead (current work : UInt64) : ℕ :=
  (work.toNat + (t.numberCount - current.toNat)) % t.numberCount

end CvmxTim

/-- An accepted entry goes less than a revolution ahead. -/
def NeverWraps (t : CvmxTim) (cycles ticksFromNow : UInt64) : Prop :=
  ∀ current work, t.buckets cycles ticksFromNow = some (current, work) →
    t.ahead current work < t.numBuckets.toNat

/-! ## How far ahead -/

section Ahead

variable {t : CvmxTim} {cycles ticks : UInt64}

namespace CvmxTim

/-- The time of the entry in whole buckets, and what is left. -/
def quotient (t : CvmxTim) (ticks : UInt64) : ℕ :=
  (delayed ticks * t.tickCycles).toNat / t.bucketCycles

def remainder (t : CvmxTim) (ticks : UInt64) : ℕ :=
  (delayed ticks * t.tickCycles).toNat % t.bucketCycles

/-- The part of the current bucket that has passed. -/
def phase (t : CvmxTim) (cycles : UInt64) : ℕ := (cycles - t.startTime).toNat % t.bucketCycles

/-- The phase carries the entry into one bucket more. -/
def carry (t : CvmxTim) (cycles ticks : UInt64) : ℕ :=
  if t.bucketCycles ≤ t.remainder ticks + t.phase cycles then 1 else 0

end CvmxTim

theorem bucketCycles_pos (t : CvmxTim) : 0 < t.bucketCycles := Nat.two_pow_pos _

theorem bucketCycles_mul_numberCount (hshift : t.bucketShift.toNat < 64) :
    t.bucketCycles * t.numberCount = 2 ^ 64 := by
  rw [CvmxTim.bucketCycles, CvmxTim.numberCount, ← Nat.pow_add, Nat.add_sub_cancel' hshift.le]

theorem toNat_shiftRight (hshift : t.bucketShift.toNat < 64) (x : UInt64) :
    (x >>> t.bucketShift.toUInt64).toNat = x.toNat / t.bucketCycles := by
  rw [UInt64.toNat_shiftRight, UInt32.toNat_toUInt64, Nat.mod_eq_of_lt hshift,
    Nat.shiftRight_eq_div_pow, CvmxTim.bucketCycles]

/-- The bucket of the entry is the current one, the whole buckets and the carry. -/
theorem toNat_workBucket (hshift : t.bucketShift.toNat < 64) (cycles ticks : UInt64) :
    (t.workBucket cycles (CvmxTim.delayed ticks)).toNat =
      (t.quotient ticks + (t.currentBucket cycles).toNat + t.carry cycles ticks) %
        t.numberCount := by
  have hsum : CvmxTim.delayed ticks * t.tickCycles + cycles - t.startTime =
      CvmxTim.delayed ticks * t.tickCycles + (cycles - t.startTime) := add_sub_assoc ..
  rw [CvmxTim.workBucket, CvmxTim.currentBucket, toNat_shiftRight hshift, toNat_shiftRight hshift,
    hsum, UInt64.toNat_add, ← bucketCycles_mul_numberCount hshift, Nat.mod_mul_right_div_self,
    Nat.add_div (bucketCycles_pos t)]
  rfl

theorem currentBucket_lt (hshift : t.bucketShift.toNat < 64) (cycles : UInt64) :
    (t.currentBucket cycles).toNat < t.numberCount := by
  rw [CvmxTim.currentBucket, toNat_shiftRight hshift]
  apply Nat.div_lt_of_lt_mul
  rw [bucketCycles_mul_numberCount hshift]
  exact (cycles - t.startTime).toNat_lt

theorem quotient_lt (hshift : t.bucketShift.toNat < 64) (ticks : UInt64) :
    t.quotient ticks < t.numberCount := by
  apply Nat.div_lt_of_lt_mul
  rw [bucketCycles_mul_numberCount hshift]
  exact UInt64.toNat_lt _

theorem ahead_eq (hshift : t.bucketShift.toNat < 64) (cycles ticks : UInt64) :
    t.ahead (t.currentBucket cycles) (t.workBucket cycles (CvmxTim.delayed ticks)) =
      (t.quotient ticks + t.carry cycles ticks) % t.numberCount := by
  have hcur := currentBucket_lt hshift cycles
  rw [CvmxTim.ahead, toNat_workBucket hshift, Nat.mod_add_mod]
  have hround : t.quotient ticks + (t.currentBucket cycles).toNat + t.carry cycles ticks +
      (t.numberCount - (t.currentBucket cycles).toNat) =
        t.quotient ticks + t.carry cycles ticks + t.numberCount := by omega
  rw [hround, Nat.add_mod_right]

theorem quotient_add_carry (t : CvmxTim) (cycles ticks : UInt64) :
    t.quotient ticks + t.carry cycles ticks =
      ((CvmxTim.delayed ticks * t.tickCycles).toNat + t.phase cycles) / t.bucketCycles := by
  have hphase : t.phase cycles < t.bucketCycles := Nat.mod_lt _ (bucketCycles_pos t)
  rw [Nat.add_div (bucketCycles_pos t), Nat.div_eq_of_lt hphase, Nat.mod_eq_of_lt hphase,
    Nat.add_zero]
  rfl

end Ahead

/-! ## What setup gives -/

section Setup

variable {cpuClockHz tick maxTicks : UInt64} {allocated : Bool} {t : CvmxTim}

theorem shiftIndex_le (tickNs hwTickNs : UInt64) : shiftIndex tickNs hwTickNs ≤ 20 := by
  rw [shiftIndex]
  cases hfind : (List.range' 1 19).find? fun i => tickNs < hwTickNs <<< UInt64.ofNat i with
  | none => exact Nat.le_refl 20
  | some i =>
    have hmem := List.mem_of_find?_eq_some hfind
    rw [List.mem_range'_1] at hmem
    exact Nat.le_of_lt (by simpa using hmem.2)

/-- What setup guarantees. -/
structure SetUp (t : CvmxTim) : Prop where
  shift : t.bucketShift.toNat < 30
  least : 3 ≤ t.numBuckets.toNat
  most : t.numBuckets.toNat ≤ 2 ^ 20

theorem setup_eq_some (h : cvmxTimSetup cpuClockHz tick maxTicks allocated = some t) :
    t = configured cpuClockHz tick maxTicks ∧ SetUp t := by
  rw [cvmxTimSetup] at h
  split at h
  · cases h
  split at h
  · cases h
  next hrange =>
  split at h
  · obtain rfl := Option.some.inj h
    rw [not_or, gt_iff_lt, UInt32.not_lt, UInt32.not_lt] at hrange
    refine ⟨rfl, ?_, UInt32.le_iff_toNat_le.mp hrange.1, UInt32.le_iff_toNat_le.mp hrange.2⟩
    have hindex := shiftIndex_le (1000 * tick) (hwTickNs (clockHz cpuClockHz))
    rw [configured, UInt32.toNat_ofNat']
    omega
  · cases h

theorem SetUp.shift_lt (h : SetUp t) : t.bucketShift.toNat < 64 := lt_trans h.shift (by decide)

theorem SetUp.start (h : SetUp t) (startTime : UInt64) : SetUp (t.start startTime) :=
  ⟨h.shift, h.least, h.most⟩

theorem SetUp.numBuckets_lt (h : SetUp t) : t.numBuckets.toNat + 1 < t.numberCount := by
  have hpow : 2 ^ 34 ≤ t.numberCount := by
    apply Nat.pow_le_pow_right (by decide)
    have hshift := h.shift
    omega
  have hmost := h.most
  omega

/-- When an entry goes less than a revolution ahead: the whole buckets of its time leave one bucket
free, or the phase does not carry it into that bucket. -/
def Fits (t : CvmxTim) (cycles ticks : UInt64) : Prop :=
  t.quotient ticks + 1 < t.numBuckets.toNat ∨
    (t.quotient ticks + 1 = t.numBuckets.toNat ∧
      t.remainder ticks + t.phase cycles < t.bucketCycles) ∨
    (t.quotient ticks + 1 = t.numberCount ∧
      t.bucketCycles ≤ t.remainder ticks + t.phase cycles)

theorem fits_iff (h : SetUp t) (cycles ticks : UInt64) :
    (t.quotient ticks + t.carry cycles ticks) % t.numberCount < t.numBuckets.toNat ↔
      Fits t cycles ticks := by
  have hquotient := quotient_lt h.shift_lt ticks
  have hnumber := h.numBuckets_lt
  have hleast := h.least
  rw [Fits, CvmxTim.carry]
  by_cases hcarry : t.bucketCycles ≤ t.remainder ticks + t.phase cycles
  · rw [if_pos hcarry]
    by_cases hlast : t.quotient ticks + 1 = t.numberCount
    · rw [hlast, Nat.mod_self]
      simp only [hcarry, and_true, or_true, iff_true]
      omega
    · rw [Nat.mod_eq_of_lt (by omega)]
      omega
  · rw [if_neg hcarry, Nat.add_zero, Nat.mod_eq_of_lt hquotient]
    omega

instance (t : CvmxTim) (cycles ticks : UInt64) : Decidable (Fits t cycles ticks) :=
  inferInstanceAs (Decidable (_ ∨ (_ ∧ _) ∨ (_ ∧ _)))

theorem SetUp.neverWraps (h : SetUp t) {cycles ticks : UInt64}
    (haccepted : ticks ≤ t.maxTicks.toUInt64) :
    NeverWraps t cycles ticks ↔ Fits t cycles ticks := by
  have hbuckets : t.buckets cycles ticks =
      some (t.currentBucket cycles, t.workBucket cycles (CvmxTim.delayed ticks)) :=
    if_neg (UInt64.not_lt.mpr haccepted)
  rw [← fits_iff h, ← ahead_eq h.shift_lt, NeverWraps, hbuckets]
  constructor
  · exact fun hall => hall _ _ rfl
  · intro hlt current work heq
    obtain ⟨rfl, rfl⟩ := Prod.mk.inj (Option.some.inj heq)
    exact hlt

theorem neverWraps_iff (hsetup : cvmxTimSetup cpuClockHz tick maxTicks allocated = some t)
    (startTime cycles : UInt64) {ticks : UInt64} (haccepted : ticks ≤ t.maxTicks.toUInt64) :
    NeverWraps (t.start startTime) cycles ticks ↔ Fits (t.start startTime) cycles ticks :=
  ((setup_eq_some hsetup).2.start startTime).neverWraps haccepted

end Setup

/-- 512 MHz, ticks of 2 microseconds and up to 1024 of them: 1024 buckets of 1024 cycles. -/
def wheel1024 : CvmxTim := ⟨1024, 0, 10, 1024, 1024⟩

theorem neverWraps_iff_1000 :
    NeverWraps (wheel1024.start 0) 5000 1000 ↔ Fits (wheel1024.start 0) 5000 1000 :=
  neverWraps_iff (show cvmxTimSetup 512000000 2 1024 true = some wheel1024 by decide) 0 5000
    (by decide)

/-- The largest time is a whole revolution. -/
theorem full_revolution_wraps : cvmxTimSetup 512000000 2 1024 true = some wheel1024 ∧
    (1024 : UInt64) ≤ wheel1024.maxTicks.toUInt64 ∧
    ¬ NeverWraps (wheel1024.start 0) 5000 1024 := by
  refine ⟨by decide, by decide, fun h => ?_⟩
  exact absurd (h 4 1028 (by decide)) (by decide)

/-! ## The number of buckets -/

section Buckets

variable {cpuClockHz tick maxTicks : UInt64} {allocated : Bool} {t : CvmxTim}

theorem toNat_roundUp (temp : UInt32) :
    (roundUp temp).toNat = 2 ^ (temp - 1).toNat.size % 2 ^ 32 := by
  have hsmear : (roundUp temp).toNat = (smear (temp - 1).toNat + 1) % 2 ^ 32 := by
    simp only [roundUp, UInt32.toNat_add, UInt32.toNat_or, UInt32.toNat_shiftRight]
    rfl
  rw [hsmear, smear_add_one (temp - 1).toNat_lt]

/-- A number of buckets that setup accepts is the first power of two that is not below. -/
theorem toNat_roundUp_of_least {temp : UInt32} (h : 3 ≤ (roundUp temp).toNat) :
    (roundUp temp).toNat = 2 ^ (temp.toNat - 1).size ∧ 0 < temp.toNat := by
  have hsize : (temp - 1).toNat.size ≤ 32 := Nat.size_le.mpr (temp - 1).toNat_lt
  rw [toNat_roundUp] at h ⊢
  have hlt : (temp - 1).toNat.size < 32 := by
    rcases Nat.lt_or_eq_of_le hsize with hlt | heq
    · exact hlt
    · rw [heq, Nat.mod_self] at h
      cases h
  have hpos : 0 < temp.toNat := by
    by_contra hzero
    obtain rfl : temp = 0 := UInt32.toNat_inj.mp (Nat.eq_zero_of_not_pos hzero)
    have hall : (0 - 1 : UInt32).toNat.size = 32 := by
      apply le_antisymm hsize
      exact Nat.lt_size.mpr (by decide)
    exact absurd hlt (by rw [hall]; decide)
  have hsub : (temp - 1).toNat = temp.toNat - 1 :=
    UInt32.toNat_sub_of_le temp 1 (UInt32.le_iff_toNat_le.mpr hpos)
  rw [Nat.mod_eq_of_lt (Nat.pow_lt_pow_right (by decide) hlt), hsub]
  exact ⟨rfl, hpos⟩

/-- The buckets are a power of two, and not fewer than the largest time has whole buckets. -/
theorem numBuckets_of_setup (hsetup : cvmxTimSetup cpuClockHz tick maxTicks allocated = some t) :
    (∃ k, t.numBuckets.toNat = 2 ^ k) ∧
      (maxTicks * t.tickCycles).toNat / t.bucketCycles % 2 ^ 32 ≤ t.numBuckets.toNat := by
  obtain ⟨rfl, h⟩ := setup_eq_some hsetup
  obtain ⟨hpow, hpos⟩ := toNat_roundUp_of_least h.least
  refine ⟨⟨_, hpow⟩, ?_⟩
  have htemp := le_two_pow_size hpos
  rw [← hpow, UInt64.toNat_toUInt32] at htemp
  rw [← toNat_shiftRight h.shift_lt]
  exact htemp

theorem toNat_slot {k : ℕ} (hk : t.numBuckets.toNat = 2 ^ k) (bucket : UInt64) :
    (t.slot bucket).toNat = bucket.toNat % t.numBuckets.toNat := by
  have hone : (1 : UInt64) ≤ t.numBuckets.toUInt64 := by
    rw [UInt64.le_iff_toNat_le, UInt32.toNat_toUInt64, hk]
    exact Nat.one_le_two_pow
  have hmask : (t.numBuckets.toUInt64 - 1).toNat = 2 ^ k - 1 := by
    rw [UInt64.toNat_sub_of_le _ _ hone, UInt32.toNat_toUInt64, hk]
    rfl
  rw [CvmxTim.slot, UInt64.toNat_and, hmask, Nat.and_two_pow_sub_one_eq_mod, hk]

/-- The entry goes into the slot that is so far ahead of the current one. -/
theorem slot_eq (hsetup : cvmxTimSetup cpuClockHz tick maxTicks allocated = some t)
    {current : UInt64} (hcurrent : current.toNat < t.numberCount) (work : UInt64) :
    (t.slot work).toNat = ((t.slot current).toNat + t.ahead current work) %
      t.numBuckets.toNat := by
  obtain ⟨-, h⟩ := setup_eq_some hsetup
  obtain ⟨⟨k, hk⟩, -⟩ := numBuckets_of_setup hsetup
  have hdvd : t.numBuckets.toNat ∣ t.numberCount := by
    have hlt := h.numBuckets_lt
    rw [CvmxTim.numberCount] at hlt ⊢
    rw [hk] at hlt ⊢
    exact pow_dvd_pow 2 ((Nat.pow_lt_pow_iff_right (by decide)).mp (Nat.lt_of_succ_lt hlt)).le
  rw [toNat_slot hk, toNat_slot hk, CvmxTim.ahead, Nat.mod_add_mod, ← Nat.add_mod_mod,
    Nat.mod_mod_of_dvd _ hdvd, Nat.add_mod_mod]
  have hround : current.toNat + (work.toNat + (t.numberCount - current.toNat)) =
      work.toNat + t.numberCount := by omega
  rw [hround, Nat.add_mod, Nat.mod_eq_zero_of_dvd hdvd, Nat.add_zero, Nat.mod_mod]

theorem toNat_delayed_mul {ticks : UInt64} (htwo : 2 ≤ maxTicks.toNat) (hle : ticks ≤ maxTicks) :
    (CvmxTim.delayed ticks * t.tickCycles).toNat ≤ maxTicks.toNat * t.tickCycles.toNat := by
  have hdelayed : (CvmxTim.delayed ticks).toNat ≤ maxTicks.toNat := by
    rw [CvmxTim.delayed]
    split
    · exact htwo
    · exact UInt64.le_iff_toNat_le.mp hle
  rw [UInt64.toNat_mul]
  exact le_trans (Nat.mod_le _ _) (Nat.mul_le_mul_right _ hdelayed)

/-- The end of a bucket, when the wheel has started at 0. -/
theorem SetUp.phase_last (h : SetUp t) :
    (t.start 0).phase (UInt64.ofNat (t.bucketCycles - 1)) = t.bucketCycles - 1 := by
  have hpow : t.bucketCycles ≤ 2 ^ 30 := Nat.pow_le_pow_right (by decide) h.shift.le
  have hpos := bucketCycles_pos t
  have hcycle : (UInt64.ofNat (t.bucketCycles - 1) - 0).toNat = t.bucketCycles - 1 := by
    rw [UInt64.sub_zero, UInt64.toNat_ofNat', Nat.mod_eq_of_lt (by omega)]
  have hmod : (t.start 0).phase (UInt64.ofNat (t.bucketCycles - 1)) =
      (UInt64.ofNat (t.bucketCycles - 1) - 0).toNat % t.bucketCycles := rfl
  rw [hmod, hcycle, Nat.mod_eq_of_lt (by omega)]

/-- Rounded up, the largest time is at most one bucket more than a revolution. -/
theorem ceil_le_numBuckets (hsetup : cvmxTimSetup cpuClockHz tick maxTicks allocated = some t)
    (hcycles : maxTicks.toNat * t.tickCycles.toNat < 2 ^ 64)
    (hbuckets : maxTicks.toNat * t.tickCycles.toNat / t.bucketCycles < 2 ^ 32) :
    (maxTicks.toNat * t.tickCycles.toNat + (t.bucketCycles - 1)) / t.bucketCycles ≤
      t.numBuckets.toNat + 1 := by
  have hfloor := (numBuckets_of_setup hsetup).2
  rw [UInt64.toNat_mul, Nat.mod_eq_of_lt hcycles, Nat.mod_eq_of_lt hbuckets] at hfloor
  calc (maxTicks.toNat * t.tickCycles.toNat + (t.bucketCycles - 1)) / t.bucketCycles
      ≤ (maxTicks.toNat * t.tickCycles.toNat + t.bucketCycles) / t.bucketCycles :=
        Nat.div_le_div_right (Nat.add_le_add_left (Nat.sub_le _ _) _)
    _ = maxTicks.toNat * t.tickCycles.toNat / t.bucketCycles + 1 :=
        Nat.add_div_right _ (bucketCycles_pos t)
    _ ≤ t.numBuckets.toNat + 1 := Nat.add_le_add_right hfloor 1

/-- Where nothing overflows, no entry ever wraps exactly when the largest time, in buckets and
rounded up, is less than a revolution. Setup rounds it down before it looks for the power of two. -/
theorem neverWraps_all_iff (hsetup : cvmxTimSetup cpuClockHz tick maxTicks allocated = some t)
    (htwo : 2 ≤ maxTicks.toNat) (hmax : maxTicks.toNat < 2 ^ 32)
    (hcycles : maxTicks.toNat * t.tickCycles.toNat < 2 ^ 64)
    (hbuckets : maxTicks.toNat * t.tickCycles.toNat / t.bucketCycles < 2 ^ 32) :
    (∀ startTime cycles ticks, ticks ≤ t.maxTicks.toUInt64 →
        NeverWraps (t.start startTime) cycles ticks) ↔
      (maxTicks.toNat * t.tickCycles.toNat + (t.bucketCycles - 1)) / t.bucketCycles <
        t.numBuckets.toNat := by
  obtain ⟨hconfigured, h⟩ := setup_eq_some hsetup
  have haccepted : t.maxTicks.toUInt64 = maxTicks := by
    apply UInt64.toNat_inj.mp
    rw [hconfigured, configured, UInt32.toNat_toUInt64, UInt64.toNat_toUInt32,
      Nat.mod_eq_of_lt hmax]
  have hproduct : (maxTicks * t.tickCycles).toNat = maxTicks.toNat * t.tickCycles.toNat := by
    rw [UInt64.toNat_mul, Nat.mod_eq_of_lt hcycles]
  rw [haccepted]
  constructor
  · intro hall
    let cycles := UInt64.ofNat (t.bucketCycles - 1)
    have hle : 2 ≤ maxTicks := UInt64.le_iff_toNat_le.mpr htwo
    have hdelayed : CvmxTim.delayed maxTicks = maxTicks := if_neg (UInt64.not_lt.mpr hle)
    have hsum : (t.start 0).quotient maxTicks + (t.start 0).carry cycles maxTicks =
        (maxTicks.toNat * t.tickCycles.toNat + (t.bucketCycles - 1)) / t.bucketCycles := by
      have hadd := quotient_add_carry (t.start 0) cycles maxTicks
      rw [h.phase_last, hdelayed] at hadd
      rw [hadd, ← hproduct]
      rfl
    have hlt := hall 0 cycles maxTicks (UInt64.le_refl _)
    rw [(h.start 0).neverWraps (haccepted ▸ UInt64.le_refl _), ← fits_iff (h.start 0), hsum] at hlt
    rwa [Nat.mod_eq_of_lt] at hlt
    exact lt_of_le_of_lt (ceil_le_numBuckets hsetup hcycles hbuckets) h.numBuckets_lt
  · intro hlt startTime cycles ticks hticks
    rw [(h.start startTime).neverWraps (haccepted ▸ hticks), ← fits_iff (h.start startTime)]
    refine lt_of_le_of_lt (Nat.mod_le _ _) ?_
    rw [quotient_add_carry]
    refine lt_of_le_of_lt (Nat.div_le_div_right ?_) hlt
    apply Nat.add_le_add (toNat_delayed_mul htwo hticks)
    exact Nat.le_sub_one_of_lt (Nat.mod_lt _ (bucketCycles_pos t))

end Buckets

end TimerWheel
