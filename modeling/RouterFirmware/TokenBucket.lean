import Mathlib.Order.Basic

/-! # Token buckets

Credit comes with the time, up to a cap. Who is to pass pays for it, and does not pass where the
credit is too small. -/
namespace TokenBucket

/-- `refill credit time` is the credit with what `time` has brought. -/
structure Bucket where
  refill : ℕ → ℕ → ℕ
  cap : ℕ
  cost : ℕ

/-- The credit, as it was left at the time `last`. -/
structure Purse where
  credit : ℕ
  last : ℕ
  deriving DecidableEq

def Bucket.filled (b : Bucket) (p : Purse) (now : ℕ) : ℕ :=
  min b.cap (b.refill p.credit (now - p.last))

def Bucket.pay (b : Bucket) (p : Purse) (now : ℕ) : Bool × Purse :=
  if b.cost ≤ b.filled p now then (true, ⟨b.filled p now - b.cost, now⟩)
  else (false, ⟨b.filled p now, now⟩)

/-- How many of those who come at these times pass. -/
def hits {σ : Type*} (f : σ → ℕ → Bool × σ) : σ → List ℕ → ℕ
  | _, [] => 0
  | s, now :: times => (f s now).1.toNat + hits f (f s now).2 times

/-- Two that do the same on corresponding states let the same number pass. -/
theorem hits_eq {σ τ : Type*} {f : σ → ℕ → Bool × σ} {g : τ → ℕ → Bool × τ} (view : σ → τ)
    (hview : ∀ s now, g (view s) now = ((f s now).1, view (f s now).2)) (s : σ) (times : List ℕ) :
    hits f s times = hits g (view s) times := by
  induction times generalizing s with
  | nil => rfl
  | cons now times ih => simp only [hits, hview, ih]

theorem hits_of_never {σ : Type*} {f : σ → ℕ → Bool × σ} (h : ∀ s now, (f s now).1 = false)
    (s : σ) (times : List ℕ) : hits f s times = 0 := by
  induction times generalizing s with
  | nil => rfl
  | cons now times ih => rw [hits, h, ih, Bool.toNat_false]

section Window

variable {b : Bucket} {p : Purse} {rate start stop now n : ℕ} {times : List ℕ}

theorem pay_credit (b : Bucket) (p : Purse) (now : ℕ) :
    (b.pay p now).2.credit + b.cost * (b.pay p now).1.toNat = b.filled p now := by
  rw [Bucket.pay]
  split
  · rename_i henough
    simp only [Bool.toNat_true, Nat.mul_one]
    exact Nat.sub_add_cancel henough
  · rfl

theorem pay_last (b : Bucket) (p : Purse) (now : ℕ) : (b.pay p now).2.last = now := by
  rw [Bucket.pay]
  split <;> rfl

/-- Those who passed were paid for out of the credit at the beginning and what the time brought. -/
theorem passed_le (hrefill : ∀ c t, b.refill c t ≤ c + rate * t)
    (hsorted : times.Pairwise (· ≤ ·)) (hin : ∀ t ∈ times, p.last ≤ t ∧ t ≤ stop) :
    b.cost * hits b.pay p times ≤ p.credit + rate * (stop - p.last) := by
  induction times generalizing p with
  | nil => exact Nat.zero_le _
  | cons now times ih =>
    obtain ⟨hnow, hrest⟩ := List.pairwise_cons.mp hsorted
    obtain ⟨hfrom, hto⟩ := hin now List.mem_cons_self
    have hfilled : b.filled p now ≤ p.credit + rate * (now - p.last) :=
      Nat.le_trans (Nat.min_le_right _ _) (hrefill _ _)
    have hpaid := pay_credit b p now
    have hlast := pay_last b p now
    have hthen := ih hrest (p := (b.pay p now).2) fun t ht =>
      ⟨Nat.le_trans (Nat.le_of_eq hlast) (hnow t ht), (hin t (List.mem_cons_of_mem _ ht)).2⟩
    rw [hlast] at hthen
    have htime : rate * (stop - p.last) = rate * (now - p.last) + rate * (stop - now) := by
      rw [← Nat.mul_add]
      congr 1
      omega
    rw [hits, Nat.mul_add, htime]
    omega

variable (b rate) in
/-- In any window, whatever came before, no more pass than a full purse and the time in it pay
for. -/
theorem passed_window (hrefill : ∀ c t, b.refill c t ≤ c + rate * t)
    (hsorted : times.Pairwise (· ≤ ·)) (hin : ∀ t ∈ times, start ≤ t ∧ t ≤ stop) (p : Purse) :
    b.cost * hits b.pay p times ≤ b.cap + rate * (stop - start) := by
  cases times with
  | nil => exact Nat.zero_le _
  | cons now times =>
    obtain ⟨hnow, hrest⟩ := List.pairwise_cons.mp hsorted
    have hfrom := (hin now List.mem_cons_self).1
    have hfilled : b.filled p now ≤ b.cap := Nat.min_le_left _ _
    have hpaid := pay_credit b p now
    have hlast := pay_last b p now
    have hthen := passed_le (p := (b.pay p now).2) hrefill hrest fun t ht =>
      ⟨Nat.le_trans (Nat.le_of_eq hlast) (hnow t ht), (hin t (List.mem_cons_of_mem _ ht)).2⟩
    have htime : rate * (stop - now) ≤ rate * (stop - start) :=
      Nat.mul_le_mul_left _ (by omega)
    rw [hlast] at hthen
    rw [hits, Nat.mul_add]
    omega

/-- Of those who come at once, as many pass as the credit pays for. -/
theorem passed_replicate (hrefill : ∀ c ≤ b.cap, b.refill c 0 = c) (hcost : 0 < b.cost)
    (hcap : p.credit ≤ b.cap) :
    hits b.pay p (List.replicate n p.last) = min n (p.credit / b.cost) := by
  induction n generalizing p with
  | zero => exact (Nat.zero_min _).symm
  | succ n ih =>
    have hfilled : b.filled p p.last = p.credit := by
      rw [Bucket.filled, Nat.sub_self, hrefill _ hcap, Nat.min_eq_right hcap]
    rw [List.replicate_succ, hits]
    by_cases henough : b.cost ≤ p.credit
    · have hpay : b.pay p p.last = (true, ⟨p.credit - b.cost, p.last⟩) := by
        rw [Bucket.pay, hfilled, if_pos henough]
      rw [hpay]
      have hrest := ih (p := ⟨p.credit - b.cost, p.last⟩) (Nat.le_trans (Nat.sub_le _ _) hcap)
      simp only at hrest
      have hdiv : p.credit / b.cost = (p.credit - b.cost) / b.cost + 1 :=
        Nat.div_eq_sub_div hcost henough
      rw [hrest, hdiv, Bool.toNat_true]
      omega
    · have hpay : b.pay p p.last = (false, p) := by
        rw [Bucket.pay, hfilled, if_neg henough]
      have hnone : p.credit / b.cost = 0 := Nat.div_eq_of_lt (Nat.not_le.mp henough)
      rw [hpay, ih hcap, hnone, Nat.min_zero, Nat.min_zero]
      rfl

end Window

end TokenBucket
