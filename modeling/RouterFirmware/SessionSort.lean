import RouterFirmware.SegmentPerm
import Mathlib.Data.Int.Notation
import Mathlib.Tactic.Common

/-! # The sessions in order

`quick_sort` puts the sessions of an answer in the order of their bytes. Its two scans have no
test for the end of the array: they stop at the pivot, or at what an exchange has put there.
-/
namespace SessionSort

open SegmentPerm

structure IpSession where
  srcIp : UInt32
  dstIp : UInt32
  proto : UInt16
  wanNum : UInt16
  srcPort : UInt16
  dstPort : UInt16
  upBytes : UInt32
  downBytes : UInt32
  wanIp : UInt32
  next : Option ℕ

/-- The sum that the sessions are sorted by. -/
def total (s : IpSession) : UInt32 := s.downBytes + s.upBytes

section Code

variable (lo hi : ℤ)

/-- An access to the array, which fails outside of `lo..hi`. -/
def get (array : ℤ → IpSession) (k : ℤ) : Option IpSession :=
  if lo ≤ k ∧ k ≤ hi then some (array k) else none

def put (array : ℤ → IpSession) (k : ℤ) (s : IpSession) : Option (ℤ → IpSession) :=
  if lo ≤ k ∧ k ≤ hi then some (Function.update array k s) else none

/-- `do ++i; while`; `fuel` bounds the turns. -/
def scanUp (array : ℤ → IpSession) (pivot : Int32) : ℕ → ℤ → Option ℤ
  | 0, _ => none
  | fuel + 1, i => do
    let s ← get lo hi array (i + 1)
    -- The comparison with a sum without sign takes the sign off the pivot.
    if total s > pivot.toUInt32 then scanUp array pivot fuel (i + 1) else some (i + 1)

/-- `do --j; while`. -/
def scanDown (array : ℤ → IpSession) (pivot : Int32) : ℕ → ℤ → Option ℤ
  | 0, _ => none
  | fuel + 1, j => do
    let s ← get lo hi array (j - 1)
    if total s < pivot.toUInt32 then scanDown array pivot fuel (j - 1) else some (j - 1)

/-- The exchange by way of `temp`. -/
def swap (array : ℤ → IpSession) (i j : ℤ) : Option (ℤ → IpSession) := do
  let temp ← get lo hi array i
  let s ← get lo hi array j
  let array ← put lo hi array i s
  put lo hi array j temp

def divide (pivot : Int32) : ℕ → ℤ → ℤ → (ℤ → IpSession) → Option (ℤ × ℤ × (ℤ → IpSession))
  | 0, _, _, _ => none
  | fuel + 1, i, j, array =>
    if i < j then do
      let i ← scanUp lo hi array pivot fuel i
      let j ← scanDown lo hi array pivot fuel j
      let array ← if i < j then swap lo hi array i j else some array
      divide pivot fuel i j array
    else some (i, j, array)

/-- `quick_sort`. Its only caller sorts an array of 100 sessions, where no sum of two indices
overflows. -/
def quickSort : ℕ → ℤ → ℤ → (ℤ → IpSession) → Option (ℤ → IpSession)
  | 0, _, _, _ => none
  | fuel + 1, left, right, array =>
    if left < right then do
      let s ← get lo hi array ((left + right).tdiv 2)
      let pivot := (total s).toInt32
      let (i, j, array) ← divide lo hi pivot fuel (left - 1) (right + 1) array
      let array ← quickSort fuel left (i - 1) array
      quickSort fuel (j + 1) right array
    else some array

end Code

def places (left right : ℤ) : Set ℤ := {k | left ≤ k ∧ k ≤ right}

/-- The bytes do not rise inside the segment. -/
def Sorted (left right : ℤ) (array : ℤ → IpSession) : Prop :=
  ∀ k l, left ≤ k → k ≤ l → l ≤ right → total (array l) ≤ total (array k)

/-- What the loop knows: the sessions in front of `i` and behind `j` are on their sides, and each
scan will meet one that stops it. -/
structure Divided (left right : ℤ) (p : UInt32) (i j : ℤ) (array : ℤ → IpSession) : Prop where
  from_left : left - 1 ≤ i
  apart : i < j
  to_right : j ≤ right + 1
  large : ∀ k, left ≤ k → k ≤ i → p ≤ total (array k)
  small : ∀ k, j ≤ k → k ≤ right → total (array k) ≤ p
  stops_up : ∃ m, i < m ∧ m ≤ j ∧ m ≤ right ∧ total (array m) ≤ p
  stops_down : ∃ m, i ≤ m ∧ left ≤ m ∧ m < j ∧ p ≤ total (array m)

section Scans

variable {lo hi i j m : ℤ} {array : ℤ → IpSession} {pivot : Int32} {fuel : ℕ}

theorem get_of_mem {k : ℤ} (hlo : lo ≤ k) (hhi : k ≤ hi) : get lo hi array k = some (array k) :=
  if_pos ⟨hlo, hhi⟩

theorem put_of_mem {k : ℤ} (s : IpSession) (hlo : lo ≤ k) (hhi : k ≤ hi) :
    put lo hi array k s = some (Function.update array k s) :=
  if_pos ⟨hlo, hhi⟩

/-- A scan stops at the first session that is not larger, in front of one that is not. -/
theorem scanUp_spec (hlo : lo ≤ i + 1) (hm : i < m) (hhi : m ≤ hi)
    (hstop : total (array m) ≤ pivot.toUInt32) (hfuel : m - i ≤ fuel) :
    ∃ i', scanUp lo hi array pivot fuel i = some i' ∧ i < i' ∧ i' ≤ m ∧
      total (array i') ≤ pivot.toUInt32 ∧
      ∀ k, i < k → k < i' → pivot.toUInt32 < total (array k) := by
  induction fuel generalizing i with
  | zero => omega
  | succ fuel ih =>
    simp only [scanUp, get_of_mem hlo (by omega : i + 1 ≤ hi), Option.bind_eq_bind,
      Option.bind_some]
    by_cases hgt : total (array (i + 1)) > pivot.toUInt32
    · have hne : i + 1 ≠ m := by
        rintro rfl
        exact absurd hstop (UInt32.not_le.mpr hgt)
      rw [if_pos hgt]
      obtain ⟨i', hrun, hlt, hle, hat, hbefore⟩ := ih (i := i + 1) (by omega) (by omega) (by omega)
      refine ⟨i', hrun, by omega, hle, hat, fun k hk hk' => ?_⟩
      by_cases heq : k = i + 1
      · rw [heq]
        exact hgt
      · exact hbefore k (by omega) hk'
    · rw [if_neg hgt]
      refine ⟨i + 1, rfl, by omega, by omega, UInt32.not_lt.mp hgt, fun k hk hk' => ?_⟩
      omega

theorem scanDown_spec (hhi : j - 1 ≤ hi) (hm : m < j) (hlo : lo ≤ m)
    (hstop : pivot.toUInt32 ≤ total (array m)) (hfuel : j - m ≤ fuel) :
    ∃ j', scanDown lo hi array pivot fuel j = some j' ∧ m ≤ j' ∧ j' < j ∧
      pivot.toUInt32 ≤ total (array j') ∧
      ∀ k, j' < k → k < j → total (array k) < pivot.toUInt32 := by
  induction fuel generalizing j with
  | zero => omega
  | succ fuel ih =>
    simp only [scanDown, get_of_mem (by omega : lo ≤ j - 1) hhi, Option.bind_eq_bind,
      Option.bind_some]
    by_cases hlt : total (array (j - 1)) < pivot.toUInt32
    · have hne : j - 1 ≠ m := by
        rintro rfl
        exact absurd hstop (UInt32.not_le.mpr hlt)
      rw [if_pos hlt]
      obtain ⟨j', hrun, hle, hlt', hat, hbehind⟩ := ih (j := j - 1) (by omega) (by omega) (by omega)
      refine ⟨j', hrun, hle, by omega, hat, fun k hk hk' => ?_⟩
      by_cases heq : k = j - 1
      · rw [heq]
        exact hlt
      · exact hbehind k hk (by omega)
    · rw [if_neg hlt]
      refine ⟨j - 1, rfl, by omega, by omega, UInt32.not_lt.mp hlt, fun k hk hk' => ?_⟩
      omega

end Scans

section Division

variable {lo hi left right i j : ℤ} {array : ℤ → IpSession} {pivot : Int32} {fuel : ℕ}

theorem swap_eq (hi₁ : lo ≤ i) (hi₂ : i ≤ hi) (hj₁ : lo ≤ j) (hj₂ : j ≤ hi) :
    swap lo hi array i j = some (array ∘ Equiv.swap i j) := by
  simp only [swap, get_of_mem hi₁ hi₂, get_of_mem hj₁ hj₂, put_of_mem _ hi₁ hi₂,
    put_of_mem _ hj₁ hj₂, Option.bind_eq_bind, Option.bind_some, Option.some.injEq]
  funext k
  simp only [Function.update_apply, Function.comp_apply, Equiv.swap_apply_def]
  grind

/-- Before the first turn the pivot's own session stops both scans. -/
theorem divided_start {m : ℤ} (hleft : left ≤ m) (hright : m ≤ right) :
    Divided left right (total (array m)) (left - 1) (right + 1) array where
  from_left := le_rfl
  apart := by omega
  to_right := le_rfl
  large k hk hk' := by omega
  small k hk hk' := by omega
  stops_up := ⟨m, by omega, by omega, hright, UInt32.le_rfl⟩
  stops_down := ⟨m, by omega, hleft, by omega, UInt32.le_rfl⟩

/-- What is known where the scans have met: they are at one session that has the pivot's sum, or
have just passed each other. -/
structure Met (left right : ℤ) (p : UInt32) (i j : ℤ) (array : ℤ → IpSession) : Prop where
  from_left : left ≤ i
  to_left : j ≤ i
  to_right : i ≤ j + 1
  up_to : i ≤ right
  down_to : left ≤ j
  large : ∀ k, left ≤ k → k < i → p ≤ total (array k)
  small : ∀ k, j < k → k ≤ right → total (array k) ≤ p
  middle : i = j → total (array i) = p

/-- One turn of the loop: both scans stop inside the segment, and they have met or the exchange
keeps what the loop knows. -/
theorem turn (hlo : lo ≤ left) (hhi : right ≤ hi)
    (h : Divided left right pivot.toUInt32 i j array) (hfuel : j - i ≤ fuel) :
    ∃ i' j', scanUp lo hi array pivot fuel i = some i' ∧
      scanDown lo hi array pivot fuel j = some j' ∧ i < i' ∧ j' < j ∧
      (i' < j' → Divided left right pivot.toUInt32 i' j' (array ∘ Equiv.swap i' j')) ∧
      (¬ i' < j' → Met left right pivot.toUInt32 i' j' array) := by
  obtain ⟨m, hm, hmj, hmright, hstop⟩ := h.stops_up
  obtain ⟨n, hn, hnleft, hnj, hstop'⟩ := h.stops_down
  have hleft := h.from_left
  have hright := h.to_right
  obtain ⟨i', hup, hi', him, hati, hlarge⟩ := scanUp_spec (by omega : lo ≤ i + 1) hm
    (by omega : m ≤ hi) hstop (by omega : m - i ≤ fuel)
  obtain ⟨j', hdown, hj', hjm, hatj, hsmall⟩ := scanDown_spec (by omega : j - 1 ≤ hi) hnj
    (by omega : lo ≤ n) hstop' (by omega : j - n ≤ fuel)
  refine ⟨i', j', hup, hdown, hi', hjm, fun hlt => ?_, fun hge => ?_⟩
  · refine ⟨by omega, hlt, by omega, fun k hk hki => ?_, fun k hjk hk => ?_, ?_, ?_⟩
    · by_cases heq : k = i'
      · simpa [heq] using hatj
      · rw [Function.comp_apply, Equiv.swap_apply_of_ne_of_ne heq (by omega)]
        by_cases hold : k ≤ i
        · exact h.large k hk hold
        · exact UInt32.le_of_lt (hlarge k (by omega) (by omega))
    · by_cases heq : k = j'
      · simpa [heq] using hati
      · rw [Function.comp_apply, Equiv.swap_apply_of_ne_of_ne (by omega) heq]
        by_cases hold : j ≤ k
        · exact h.small k hold hk
        · exact UInt32.le_of_lt (hsmall k (by omega) (by omega))
    · exact ⟨j', hlt, le_rfl, by omega, by simpa using hati⟩
    · exact ⟨i', le_rfl, by omega, hlt, by simpa using hatj⟩
  · refine ⟨by omega, by omega, ?_, by omega, by omega, fun k hk hki => ?_, fun k hjk hk => ?_, ?_⟩
    · -- A session between the two places would be larger and smaller than the pivot.
      by_contra hgap
      have hover := hlarge (j' + 1) (by omega) (by omega)
      have hunder := hsmall (j' + 1) (by omega) (by omega)
      exact absurd (UInt32.le_of_lt hunder) (UInt32.not_le.mpr hover)
    · by_cases hold : k ≤ i
      · exact h.large k hk hold
      · exact UInt32.le_of_lt (hlarge k (by omega) hki)
    · by_cases hold : j ≤ k
      · exact h.small k hold hk
      · exact UInt32.le_of_lt (hsmall k hjk (by omega))
    · intro heq
      exact UInt32.le_antisymm hati (heq ▸ hatj)

theorem divide_spec (hlo : lo ≤ left) (hhi : right ≤ hi)
    (h : Divided left right pivot.toUInt32 i j array) (hfuel : j - i < fuel) :
    ∃ i' j' array', divide lo hi pivot fuel i j array = some (i', j', array') ∧
      PermutedOn (places left right) array array' ∧
      Met left right pivot.toUInt32 i' j' array' := by
  induction fuel generalizing i j array with
  | zero => have := h.apart; omega
  | succ fuel ih =>
    have hleft := h.from_left
    have hright := h.to_right
    have hapart := h.apart
    obtain ⟨i', j', hup, hdown, hi', hj', hnext, hmet⟩ :=
      turn hlo hhi h (by omega : j - i ≤ fuel)
    simp only [divide, if_pos hapart, hup, hdown, Option.bind_eq_bind, Option.bind_some]
    by_cases hlt : i' < j'
    · have hdiv := hnext hlt
      obtain ⟨i₂, j₂, array₂, hrun, hperm, hend⟩ := ih hdiv (by omega)
      have hleft' := hdiv.from_left
      have hright' := hdiv.to_right
      refine ⟨i₂, j₂, array₂, ?_, ?_, hend⟩
      · rw [if_pos hlt, swap_eq (by omega) (by omega) (by omega) (by omega), Option.bind_some]
        exact hrun
      · have hi_mem : i' ∈ places left right := ⟨by omega, by omega⟩
        have hj_mem : j' ∈ places left right := ⟨by omega, by omega⟩
        exact (permutedOn_swap array hi_mem hj_mem).trans hperm
    · refine ⟨i', j', array, ?_, .refl _ array, hmet hlt⟩
      obtain ⟨fuel, rfl⟩ : ∃ n, fuel = n + 1 := ⟨fuel - 1, by omega⟩
      simp only [if_neg hlt, divide]

end Division

section Conquest

variable {lo hi left right i j : ℤ} {p : UInt32} {a b c : ℤ → IpSession}

/-- The two sides, each put in order, and the session between them make up a segment in order. -/
theorem Met.sorted (h : Met left right p i j a)
    (hfront : PermutedOn (places left (i - 1)) a b) (hfrontSorted : Sorted left (i - 1) b)
    (hback : PermutedOn (places (j + 1) right) b c) (hbackSorted : Sorted (j + 1) right c) :
    Sorted left right c := by
  have hto_left := h.to_left
  have hto_right := h.to_right
  have hsame : ∀ k, k ≤ j → c k = b k := fun k hk =>
    hback.eq_of_notMem fun hmem => absurd hmem.1 (by omega)
  have hsame' : ∀ k, i ≤ k → b k = a k := fun k hk =>
    hfront.eq_of_notMem fun hmem => absurd hmem.2 (by omega)
  have hlarge : ∀ k ∈ places left (i - 1), p ≤ total (b k) :=
    hfront.forall_mem (P := fun s => p ≤ total s) fun k hk =>
      h.large k hk.1 (by have := hk.2; omega)
  have hsmall : ∀ k ∈ places (j + 1) right, total (c k) ≤ p := by
    apply hback.forall_mem (P := fun s => total s ≤ p)
    intro k hk
    have hk' := hk.1
    rw [hsame' k (by omega)]
    exact h.small k (by omega) hk.2
  have hmiddle : i = j → total (c i) = p := fun heq => by
    rw [hsame i heq.le, hsame' i le_rfl]
    exact h.middle heq
  intro k l hk hkl hl
  by_cases hli : l ≤ i - 1
  · rw [hsame k (by omega), hsame l (by omega)]
    exact hfrontSorted k l hk hkl hli
  by_cases hkj : j + 1 ≤ k
  · exact hbackSorted k l hkj hkl hl
  have hsum : p ≤ total (c k) := by
    by_cases hki : k ≤ i - 1
    · rw [hsame k (by omega)]
      exact hlarge k ⟨hk, hki⟩
    · obtain rfl : k = i := by omega
      exact UInt32.le_of_eq (hmiddle (by omega)).symm
  have hsum' : total (c l) ≤ p := by
    by_cases hlj : j + 1 ≤ l
    · exact hsmall l ⟨hlj, hl⟩
    · obtain rfl : l = i := by omega
      exact UInt32.le_of_eq (hmiddle (by omega))
  exact UInt32.le_trans hsum' hsum

/-- The sort of a segment inside of `lo..hi` succeeds, so that it makes no access elsewhere. -/
theorem quickSort_spec {fuel : ℕ} (left right : ℤ) (a : ℤ → IpSession) (hnonneg : 0 ≤ left)
    (hlo : lo ≤ left) (hhi : right ≤ hi) (hpos : 0 < fuel) (hfuel : right - left + 4 ≤ fuel) :
    ∃ b, quickSort lo hi fuel left right a = some b ∧
      PermutedOn (places left right) a b ∧ Sorted left right b := by
  induction fuel generalizing left right a with
  | zero => omega
  | succ fuel ih =>
    by_cases hlt : left < right
    · have hmid : left ≤ (left + right).tdiv 2 ∧ (left + right).tdiv 2 ≤ right := by
        rw [Int.tdiv_eq_ediv_of_nonneg (by omega)]
        omega
      have hstart : Divided left right (total (a ((left + right).tdiv 2))).toInt32.toUInt32
          (left - 1) (right + 1) a := by
        rw [UInt32.toUInt32_toInt32]
        exact divided_start hmid.1 hmid.2
      obtain ⟨i, j, a₁, hdivide, hperm, hmet⟩ :=
        divide_spec hlo hhi hstart (by omega : right + 1 - (left - 1) < (fuel : ℤ))
      have hi_right := hmet.up_to
      have hj_left := hmet.down_to
      obtain ⟨a₂, hrun₁, hperm₁, hsorted₁⟩ :=
        ih left (i - 1) a₁ hnonneg hlo (by omega) (by omega) (by omega)
      obtain ⟨a₃, hrun₂, hperm₂, hsorted₂⟩ :=
        ih (j + 1) right a₂ (by omega) (by omega) hhi (by omega) (by omega)
      refine ⟨a₃, ?_, ?_, hmet.sorted hperm₁ hsorted₁ hperm₂ hsorted₂⟩
      · simp only [quickSort, if_pos hlt, Option.bind_eq_bind, Option.bind_some,
          get_of_mem (hlo.trans hmid.1) (hmid.2.trans hhi), hdivide, hrun₁, hrun₂]
      · have hsub₁ : places left (i - 1) ⊆ places left right := fun k hk =>
          ⟨hk.1, by have := hk.2; omega⟩
        have hsub₂ : places (j + 1) right ⊆ places left right := fun k hk =>
          ⟨by have := hk.1; omega, hk.2⟩
        exact (hperm.trans (hperm₁.mono hsub₁)).trans (hperm₂.mono hsub₂)
    · refine ⟨a, by simp only [quickSort, if_neg hlt], .refl _ a, fun k l hk hkl hl => ?_⟩
      obtain rfl : k = l := by omega
      exact UInt32.le_rfl

/-- The sort of `left..right` ends, makes no access outside of it, keeps its sessions and leaves
them with falling sums. -/
theorem sorts_segment (left right : ℤ) (hleft : 0 ≤ left) (hright : left ≤ right)
    (array : ℤ → IpSession) :
    ∃ n, ∀ fuel, n ≤ fuel → ∃ array', quickSort left right fuel left right array = some array' ∧
      PermutedOn (places left right) array array' ∧ Sorted left right array' := by
  refine ⟨(right - left + 4).toNat, fun fuel hfuel => ?_⟩
  exact quickSort_spec left right array hleft le_rfl le_rfl (by omega) (by omega)

def risingSessions : ℤ → IpSession := fun k =>
  { srcIp := 0, dstIp := 0, proto := 6, wanNum := 0, srcPort := 80, dstPort := 80,
    upBytes := k.toNat.toUInt32, downBytes := 5, wanIp := 0, next := none }

theorem sorts_segment_three :
    ∃ n, ∀ fuel, n ≤ fuel →
      ∃ array', quickSort 0 2 fuel 0 2 risingSessions = some array' ∧
        PermutedOn (places 0 2) risingSessions array' ∧ Sorted 0 2 array' :=
  sorts_segment 0 2 (by decide) (by decide) risingSessions

example : (quickSort 0 2 6 0 2 risingSessions).map (fun a => (total (a 0), total (a 2))) =
    some (7, 5) := by
  decide +kernel

end Conquest

end SessionSort
