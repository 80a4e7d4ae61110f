import Mathlib.Algebra.BigOperators.Group.List.Basic
import Mathlib.Algebra.BigOperators.Ring.List
import Mathlib.Algebra.Ring.Int.Defs
import Mathlib.Data.UInt
import RouterFirmware.DeltaCount

/-! # The deltas of the traffic

A sweep stores how far the counters of a connection have come since the last one. The difference
of the 64-bit counters goes through an `int`, so that only its last 32 bits come back, with their
sign.
-/
namespace TrafficDeltas

open DeltaCount

/-- The counters of a connection, as a sweep finds them. -/
structure Counters where
  bCnt : UInt64
  upBytes : UInt64
  downBytes : UInt64

inductive Counter where
  | ct
  | up
  | down

def Counter.now : Counter → Counters → UInt64
  | .ct => Counters.bCnt
  | .up => Counters.upBytes
  | .down => Counters.downBytes

def Counter.delta : Counter → Traffic → UInt64
  | .ct => Traffic.ctBytesDelta
  | .up => Traffic.upBytesDelta
  | .down => Traffic.downBytesDelta

def Counter.pre : Counter → Traffic → UInt64
  | .ct => Traffic.ctBytesPre
  | .up => Traffic.upBytesPre
  | .down => Traffic.downBytesPre

/-- The connection behind a sweep that finds the counters `v`. -/
def observe (x : IpConntrack) (v : Counters) : IpConntrack :=
  IpConntrack.update { x with tr :=
    { x.tr with bCnt := v.bCnt, upBytes := v.upBytes, downBytes := v.downBytes } }

def sweeps (x : IpConntrack) : List Counters → List IpConntrack
  | [] => []
  | v :: vs => observe x v :: sweeps (observe x v) vs

/-- The steps between successive values, modulo `2 ^ 64`. -/
def steps (a : UInt64) : List UInt64 → List UInt64
  | [] => []
  | b :: l => (b - a) :: steps b l

/-- The multiple of `2 ^ 32` that is next to a step. -/
def multiple (d : UInt64) : ℕ := (d.toNat + 2 ^ 31) / 2 ^ 32

/-- The deltas behind the first sweep, which finds the counters `v`, sum to the way from there to
the last. -/
def Telescopes (k : Counter) (x : IpConntrack) (v : Counters) (vs : List Counters) : Prop :=
  ((sweeps (observe x v) vs).map fun y => k.delta y.tr).sum =
    k.now ((v :: vs).getLast (List.cons_ne_nil v vs)) - k.now v

section Deltas

variable {k : Counter} {x : IpConntrack} {v : Counters} {vs : List Counters} {a d : UInt64}
  {l : List UInt64}

/-- Both branches take the difference modulo `2 ^ 64`. -/
theorem deltaTr_eq (bCnt pre : UInt64) :
    deltaTr bCnt pre = (bCnt - pre).toUInt32.toInt32.toInt64.toUInt64 := by
  have hwrap : bCnt + ~~~pre + 1 = bCnt - pre := by
    apply UInt64.toBitVec_inj.mp
    simp only [UInt64.toBitVec_add, UInt64.toBitVec_not, UInt64.toBitVec_sub]
    have hneg := BitVec.neg_eq_not_add pre.toBitVec
    have hone : (1 : UInt64).toBitVec = 1#64 := rfl
    rw [hone, BitVec.add_assoc, ← hneg, BitVec.sub_eq_add_neg]
  simp only [deltaTr, hwrap, ite_self]

theorem toNat_narrow (d : UInt64) : d.toUInt32.toInt32.toInt64.toUInt64.toNat =
    d.toNat % 2 ^ 32 + if 2 ^ 31 ≤ d.toNat % 2 ^ 32 then 2 ^ 64 - 2 ^ 32 else 0 := by
  have hbits : d.toUInt32.toInt32.toInt64.toUInt64.toBitVec =
      (d.toBitVec.setWidth 32).signExtend 64 := rfl
  have hnat : d.toUInt32.toInt32.toInt64.toUInt64.toNat =
      ((d.toBitVec.setWidth 32).signExtend 64).toNat := congrArg BitVec.toNat hbits
  rw [hnat, BitVec.toNat_signExtend, BitVec.msb_eq_decide]
  simp only [BitVec.toNat_setWidth, UInt64.toNat_toBitVec, decide_eq_true_eq]
  split_ifs <;> omega

theorem narrow_add (d : UInt64) :
    d.toUInt32.toInt32.toInt64.toUInt64 + UInt64.ofNat (multiple d * 2 ^ 32) = d := by
  have hlt := d.toNat_lt
  apply UInt64.toNat_inj.mp
  rw [UInt64.toNat_add, toNat_narrow, UInt64.toNat_ofNat', multiple]
  split <;> omega

theorem steps_sum (a : UInt64) (l : List UInt64) :
    (steps a l).sum = (a :: l).getLast (List.cons_ne_nil a l) - a := by
  induction l generalizing a with
  | nil => simp [steps]
  | cons b l ih =>
    rw [steps, List.sum_cons, ih, List.getLast_cons (List.cons_ne_nil b l)]
    grind

/-- The deltas that the sweeps store are the narrowed steps. -/
theorem deltas_eq (k : Counter) (x : IpConntrack) (vs : List Counters) :
    (sweeps x vs).map (fun y => k.delta y.tr) =
      (steps (k.pre x.tr) (vs.map k.now)).map fun d => d.toUInt32.toInt32.toInt64.toUInt64 := by
  induction vs generalizing x with
  | nil => rfl
  | cons v vs ih =>
    have hdelta : k.delta (observe x v).tr =
        (k.now v - k.pre x.tr).toUInt32.toInt32.toInt64.toUInt64 := by
      rw [← deltaTr_eq]
      cases k <;> rfl
    have hpre : k.pre (observe x v).tr = k.now v := by cases k <;> rfl
    rw [sweeps, List.map_cons, ih, hdelta, hpre]
    rfl

/-- Narrowed steps miss the multiples of `2 ^ 32`. -/
theorem narrowed_sum (l : List UInt64) :
    (l.map fun d => d.toUInt32.toInt32.toInt64.toUInt64).sum +
      UInt64.ofNat ((l.map multiple).sum * 2 ^ 32) = l.sum := by
  induction l with
  | nil => rfl
  | cons d l ih =>
    have hd := narrow_add d
    rw [List.map_cons, List.map_cons, List.sum_cons, List.sum_cons, List.sum_cons, Nat.add_mul,
      UInt64.ofNat_add]
    calc
      _ = (d.toUInt32.toInt32.toInt64.toUInt64 + UInt64.ofNat (multiple d * 2 ^ 32)) +
          ((l.map fun d => d.toUInt32.toInt32.toInt64.toUInt64).sum +
            UInt64.ofNat ((l.map multiple).sum * 2 ^ 32)) := by
        ac_rfl
      _ = d + l.sum := by rw [hd, ih]

theorem ofNat_mul_eq_zero_iff (n : ℕ) : UInt64.ofNat (n * 2 ^ 32) = 0 ↔ 2 ^ 32 ∣ n := by
  rw [← UInt64.toNat_inj, UInt64.toNat_ofNat', UInt64.toNat_zero]
  omega

/-- Narrowing keeps a sum exactly if the multiples that it misses cancel. -/
theorem narrowed_sum_iff (l : List UInt64) :
    (l.map fun d => d.toUInt32.toInt32.toInt64.toUInt64).sum = l.sum ↔
      2 ^ 32 ∣ (l.map multiple).sum := by
  have hsum := narrowed_sum l
  rw [← ofNat_mul_eq_zero_iff]
  constructor
  · intro h
    rw [← h] at hsum
    exact (UInt64.add_right_inj _).mp (hsum.trans (UInt64.add_zero _).symm)
  · intro h
    rw [← hsum, h, UInt64.add_zero]

/-- The way of the counter is the sum of its steps, and the deltas are these, narrowed. -/
theorem telescopes_iff_narrowed (k : Counter) (x : IpConntrack) (v : Counters)
    (vs : List Counters) : Telescopes k x v vs ↔
      ((steps (k.now v) (vs.map k.now)).map fun d => d.toUInt32.toInt32.toInt64.toUInt64).sum =
        (steps (k.now v) (vs.map k.now)).sum := by
  have hpre : k.pre (observe x v).tr = k.now v := by cases k <;> rfl
  have hlast : k.now ((v :: vs).getLast (List.cons_ne_nil v vs)) =
      (k.now v :: vs.map k.now).getLast (List.cons_ne_nil _ _) :=
    (List.getLast_map (f := k.now) (l := v :: vs) (by simp)).symm
  rw [Telescopes, deltas_eq, hpre, hlast, ← steps_sum]

end Deltas

/-- The deltas of a run of sweeps sum to the way of the counter exactly if the multiples of
`2 ^ 32` next to its steps cancel. -/
theorem telescopes_iff (k : Counter) (x : IpConntrack) (v : Counters) (vs : List Counters) :
    Telescopes k x v vs ↔
      2 ^ 32 ∣ ((steps (k.now v) (vs.map k.now)).map multiple).sum := by
  rw [telescopes_iff_narrowed]
  exact narrowed_sum_iff _

/-- A step that the `int` holds. -/
def Small (d : UInt64) : Prop := d.toNat < 2 ^ 31 ∨ 2 ^ 64 - 2 ^ 31 ≤ d.toNat

theorem small_iff (d : UInt64) : Small d ↔ 2 ^ 32 ∣ multiple d := by
  have hlt := d.toNat_lt
  rw [Small, multiple]
  omega

theorem steps_take (a : UInt64) (l : List UInt64) (n : ℕ) :
    steps a (l.take n) = (steps a l).take n := by
  induction l generalizing a n with
  | nil => simp [steps]
  | cons b l ih =>
    cases n with
    | zero => rfl
    | succ n => rw [List.take_succ_cons, steps, ih, steps, List.take_succ_cons]

/-- All sums from the front are multiples exactly if all numbers are. -/
theorem dvd_sum_take_iff (m : ℕ) (l : List ℕ) : (∀ n, m ∣ (l.take n).sum) ↔ ∀ d ∈ l, m ∣ d := by
  constructor
  · intro h d hd
    obtain ⟨i, hi, rfl⟩ := List.getElem_of_mem hd
    have hnext := h (i + 1)
    rw [List.sum_take_succ l i hi] at hnext
    exact (Nat.dvd_add_right (h i)).mp hnext
  · exact fun h n => List.dvd_sum fun d hd => h d (List.mem_of_mem_take hd)

/-- Behind every sweep of a run the deltas sum to the way so far exactly if each step is one that
the `int` holds. -/
theorem telescopes_take_iff (k : Counter) (x : IpConntrack) (v : Counters) (vs : List Counters) :
    (∀ n, Telescopes k x v (vs.take n)) ↔ ∀ d ∈ steps (k.now v) (vs.map k.now), Small d := by
  have hdvd := dvd_sum_take_iff (2 ^ 32) ((steps (k.now v) (vs.map k.now)).map multiple)
  have hsum : ∀ n, Telescopes k x v (vs.take n) ↔
      2 ^ 32 ∣ (((steps (k.now v) (vs.map k.now)).map multiple).take n).sum := by
    intro n
    rw [telescopes_iff_narrowed, narrowed_sum_iff, List.map_take, steps_take, List.map_take]
  simp only [hsum, hdvd, List.mem_map, forall_exists_index, and_imp, forall_apply_eq_imp_iff₂,
    small_iff]

def fresh : IpConntrack :=
  ⟨0xC0A80164, 0xCB007109, 0xCB007109, 0xC6336402, ⟨0, 0, 0, 0, 0, 0, 0, 0, 0, 0⟩⟩

/-- Two gigabytes between two sweeps. -/
theorem two_gigabytes_negative : ¬ ∀ k x v vs, Telescopes k x v vs := by
  intro h
  have hsum := h .ct fresh ⟨0, 0, 0⟩ [⟨0x80000000, 0, 0x80000000⟩]
  exact absurd hsum (by unfold Telescopes; decide +kernel)

end TrafficDeltas
