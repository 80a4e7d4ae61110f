import RouterFirmware.RouteCache
import RouterFirmware.TokenBucket
import Mathlib.Data.BitVec

/-! # Limits of rates

The limit match of the firewall and the limits on ICMP errors are token buckets. Redirects to a
host are few, at intervals that double. -/
namespace RateLimits

open TokenBucket
open RouteCache (Errno)

/-- `_POW2_BELOW2` and those after it: every bit below the highest one is set. -/
def pow2Below2 (x : UInt32) : UInt32 := x ||| (x >>> 1)
def pow2Below4 (x : UInt32) : UInt32 := pow2Below2 x ||| pow2Below2 (x >>> 2)
def pow2Below8 (x : UInt32) : UInt32 := pow2Below4 x ||| pow2Below4 (x >>> 4)
def pow2Below16 (x : UInt32) : UInt32 := pow2Below8 x ||| pow2Below8 (x >>> 8)

def pow2Below32 (x : UInt32) : UInt32 :=
  ((pow2Below16 x ||| pow2Below16 (x >>> 16)) >>> 1) + 1

/-- `CREDITS_PER_JIFFY`, for a clock of `hz`. -/
def creditsPerJiffy (hz : UInt32) : UInt32 :=
  pow2Below32 (0xffffffff / (hz * 60 * 60 * 24))

def xtLimitScale : UInt32 := 10000

def user2credits (hz user : UInt32) : UInt32 :=
  if 0xffffffff / (hz * creditsPerJiffy hz) < user then
    user / xtLimitScale * hz * creditsPerJiffy hz
  else user * hz * creditsPerJiffy hz / xtLimitScale

/-- An `xt_rateinfo`. -/
structure RateInfo where
  avg : UInt32
  burst : UInt32
  prev : ℕ
  credit : UInt32
  creditCap : UInt32
  cost : UInt32

def iptLimitCheckentry (hz avg burst : UInt32) (jiffies : ℕ) : Option RateInfo :=
  if burst = 0 ∨ user2credits hz (avg * burst) < user2credits hz avg then none
  else some ⟨avg, burst, jiffies, user2credits hz (avg * burst), user2credits hz (avg * burst),
    user2credits hz avg⟩

/-- The clock is read in the order of the packets: `prev` is not after `now`. -/
def iptLimitMatch (hz : UInt32) (r : RateInfo) (now : ℕ) : Bool × RateInfo :=
  let credit := r.credit + .ofNat ((now - r.prev) * (creditsPerJiffy hz).toNat)
  let credit := if r.creditCap < credit then r.creditCap else credit
  if r.cost ≤ credit then (true, { r with prev := now, credit := credit - r.cost })
  else (false, { r with prev := now, credit := credit })

/-- `rate_tokens` and `rate_last` of a route. -/
structure Rate where
  tokens : UInt64
  last : ℕ

/-- What `ip_error` and `xrlim_allow` do with them. -/
def spend (burst cost : UInt64) (r : Rate) (now : ℕ) : Bool × Rate :=
  let tokens := r.tokens + .ofNat (now - r.last)
  let tokens := if burst < tokens then burst else tokens
  if cost ≤ tokens then (true, ⟨tokens - cost, now⟩) else (false, ⟨tokens, now⟩)

/-- The source multiplies in `int`: `6 * timeout` is below `2 ^ 31`. -/
def xrlimAllow (timeout : UInt64) (r : Rate) (now : ℕ) : Bool × Rate :=
  spend (6 * timeout) timeout r now

def unreachCode : Errno → Option UInt8
  | .ehostunreach => some 1
  | .enetunreach => some 0
  | .eacces => some 13
  | .einval | .enobufs | .enodev => none

/-- The code that is sent, if any. -/
def ipError (burst cost : UInt64) (err : Errno) (r : Rate) (now : ℕ) : Option UInt8 × Rate :=
  match unreachCode err with
  | none => (none, r)
  | some code =>
    let (allowed, r) := spend burst cost r now
    (if allowed then some code else none, r)

/-- `ip_rt_redirect_number`, `ip_rt_redirect_load` and `ip_rt_redirect_silence`. -/
structure Redirects where
  number : ℕ
  load : ℕ
  silence : ℕ

/-- How many redirects were sent, and when the last one was, or the last packet that no more was
sent for. -/
structure Sent where
  tokens : ℕ
  last : ℕ

/-- The shift is that of an `int`: `load * 2 ^ number` is below `2 ^ 31`. -/
def ipRtSendRedirect (c : Redirects) (r : Sent) (now : ℕ) : Bool × Sent :=
  let tokens := if r.last + c.silence < now then 0 else r.tokens
  if c.number ≤ tokens then (false, ⟨tokens, now⟩)
  else if r.last + c.load * 2 ^ tokens < now then (true, ⟨tokens + 1, now⟩)
  else (false, ⟨tokens, r.last⟩)

section Limit

variable {hz avg burst : UInt32} {jiffies start stop : ℕ} {r : RateInfo} {times : List ℕ}

/-- The bucket of a rule. The credit has 32 bits. -/
def RateInfo.bucket (hz : UInt32) (r : RateInfo) : Bucket where
  refill c t := (c + t * (creditsPerJiffy hz).toNat) % 2 ^ 32
  cap := r.creditCap.toNat
  cost := r.cost.toNat

def RateInfo.purse (r : RateInfo) : Purse := ⟨r.credit.toNat, r.prev⟩

theorem toNat_capped32 (cap credit : UInt32) :
    (if cap < credit then cap else credit).toNat = min cap.toNat credit.toNat := by
  split
  · rename_i h
    exact (Nat.min_eq_left (Nat.le_of_lt (UInt32.lt_iff_toNat_lt.mp h))).symm
  · rename_i h
    exact (Nat.min_eq_right (UInt32.le_iff_toNat_le.mp (UInt32.not_lt.mp h))).symm

/-- A match pays out of the rule's purse, and the rule stays as it is. -/
theorem iptLimitMatch_pay (hz : UInt32) (r : RateInfo) (now : ℕ) :
    (r.bucket hz).pay r.purse now = ((iptLimitMatch hz r now).1, (iptLimitMatch hz r now).2.purse) ∧
      (iptLimitMatch hz r now).2.bucket hz = r.bucket hz := by
  have hfilled : (r.bucket hz).filled r.purse now =
      (if r.creditCap < r.credit + .ofNat ((now - r.prev) * (creditsPerJiffy hz).toNat) then
        r.creditCap else
        r.credit + .ofNat ((now - r.prev) * (creditsPerJiffy hz).toNat)).toNat := by
    rw [toNat_capped32, UInt32.toNat_add, UInt32.toNat_ofNat', Nat.add_mod_mod]
    rfl
  rw [iptLimitMatch, Bucket.pay, hfilled]
  generalize (if r.creditCap < r.credit + .ofNat ((now - r.prev) * (creditsPerJiffy hz).toNat) then
    r.creditCap else r.credit + .ofNat ((now - r.prev) * (creditsPerJiffy hz).toNat)) = credit
  by_cases hcost : r.cost ≤ credit
  · have hnat : r.cost.toNat ≤ credit.toNat := UInt32.le_iff_toNat_le.mp hcost
    simp only [hcost, hnat, if_true, RateInfo.purse, RateInfo.bucket, and_true]
    rw [UInt32.toNat_sub_of_le _ _ hcost]
  · have hnat : ¬r.cost.toNat ≤ credit.toNat := fun h => hcost (UInt32.le_iff_toNat_le.mpr h)
    simp only [hcost, hnat, if_false, RateInfo.purse, RateInfo.bucket, and_true]

theorem hits_iptLimitMatch (hz : UInt32) (r : RateInfo) (times : List ℕ) :
    hits (iptLimitMatch hz) r times = hits (r.bucket hz).pay r.purse times := by
  induction times generalizing r with
  | nil => rfl
  | cons now times ih =>
    obtain ⟨hpay, hbucket⟩ := iptLimitMatch_pay hz r now
    rw [hits, hits, hpay, ih, hbucket]

theorem foldl_bucket (before : List ℕ) (r : RateInfo) :
    (before.foldl (fun r now => (iptLimitMatch hz r now).2) r).bucket hz = r.bucket hz := by
  induction before generalizing r with
  | nil => rfl
  | cons now before ih => exact (ih _).trans (iptLimitMatch_pay hz r now).2

theorem eq_of_accepted (hr : iptLimitCheckentry hz avg burst jiffies = some r) :
    burst ≠ 0 ∧ r = ⟨avg, burst, jiffies, user2credits hz (avg * burst),
      user2credits hz (avg * burst), user2credits hz avg⟩ := by
  rw [iptLimitCheckentry] at hr
  split at hr
  · cases hr
  · rename_i hok
    exact ⟨fun h => hok (.inl h), (Option.some.inj hr).symm⟩

theorem matched_window (r : RateInfo) (before : List ℕ) (hsorted : times.Pairwise (· ≤ ·))
    (hin : ∀ t ∈ times, start ≤ t ∧ t ≤ stop) :
    r.cost.toNat * hits (iptLimitMatch hz)
        (before.foldl (fun r now => (iptLimitMatch hz r now).2) r) times ≤
      r.creditCap.toNat + (creditsPerJiffy hz).toNat * (stop - start) := by
  rw [hits_iptLimitMatch, foldl_bucket]
  refine passed_window (r.bucket hz) _ (fun c t => ?_) hsorted hin _
  rw [Nat.mul_comm (creditsPerJiffy hz).toNat]
  exact Nat.mod_le _ _

/-- In any window, whatever came before it, a rule matches no more packets than its cap pays for,
and what the time of the window adds. That credit is lost where it overflows does not let more
through. -/
theorem limit_rate (hr : iptLimitCheckentry hz avg burst jiffies = some r) (before : List ℕ)
    (hsorted : times.Pairwise (· ≤ ·)) (hin : ∀ t ∈ times, start ≤ t ∧ t ≤ stop) :
    (user2credits hz avg).toNat * hits (iptLimitMatch hz)
        (before.foldl (fun r now => (iptLimitMatch hz r now).2) r) times ≤
      (user2credits hz (avg * burst)).toNat + (creditsPerJiffy hz).toNat * (stop - start) := by
  obtain ⟨-, heq⟩ := eq_of_accepted hr
  have hcap : user2credits hz (avg * burst) = r.creditCap := by rw [heq]
  have hcost : user2credits hz avg = r.cost := by rw [heq]
  rw [hcap, hcost]
  exact matched_window r before hsorted hin

/-- A limit of three a second, and five at once, for a clock of 1000. -/
theorem limit_rate_three : ∃ r, iptLimitCheckentry 1000 3333 5 700 = some r ∧
    (user2credits 1000 3333).toNat * hits (iptLimitMatch 1000)
        ([800, 900].foldl (fun r now => (iptLimitMatch 1000 r now).2) r) [1000, 1000, 2000] ≤
      (user2credits 1000 (3333 * 5)).toNat + (creditsPerJiffy 1000).toNat * (2000 - 1000) := by
  have haccepted : ∃ r, iptLimitCheckentry 1000 3333 5 700 = some r :=
    Option.isSome_iff_exists.mp (by decide)
  obtain ⟨r, hr⟩ := haccepted
  exact ⟨r, hr, limit_rate hr [800, 900] (by decide) (by decide)⟩

theorem toNat_user2credits {user : UInt32}
    (h : user.toNat ≤ (0xffffffff / (hz * creditsPerJiffy hz)).toNat) :
    (user2credits hz user).toNat = user.toNat * (hz * creditsPerJiffy hz).toNat / 10000 := by
  have hnot : ¬0xffffffff / (hz * creditsPerJiffy hz) < user := fun hlt =>
    Nat.not_lt.mpr h (UInt32.lt_iff_toNat_lt.mp hlt)
  have hfits : user.toNat * (hz * creditsPerJiffy hz).toNat < 2 ^ 32 := by
    rw [UInt32.toNat_div] at h
    have hle := Nat.mul_le_mul_right (hz * creditsPerJiffy hz).toNat h
    have hback := Nat.div_mul_le_self (0xffffffff : UInt32).toNat (hz * creditsPerJiffy hz).toNat
    have hmax : (0xffffffff : UInt32).toNat < 2 ^ 32 := by decide
    omega
  rw [user2credits, if_neg hnot, UInt32.mul_assoc, UInt32.toNat_div, UInt32.toNat_mul,
    Nat.mod_eq_of_lt hfits]
  rfl

/-- Of the packets that come when the rule is new, as many match as its cap pays for. These are as
many as its burst tells where the credit of the burst can be counted exactly. -/
theorem limit_burst (hr : iptLimitCheckentry hz avg burst jiffies = some r)
    (hcost : user2credits hz avg ≠ 0) (n : ℕ) :
    hits (iptLimitMatch hz) r (List.replicate n jiffies) =
        min n ((user2credits hz (avg * burst)).toNat / (user2credits hz avg).toNat) ∧
      (avg.toNat * burst.toNat ≤ (0xffffffff / (hz * creditsPerJiffy hz)).toNat → n ≤ burst.toNat →
        hits (iptLimitMatch hz) r (List.replicate n jiffies) = n) := by
  obtain ⟨hburst, rfl⟩ := eq_of_accepted hr
  have hpos : 0 < (user2credits hz avg).toNat :=
    Nat.pos_of_ne_zero fun h => hcost (UInt32.toNat_inj.mp h)
  have hmatched : hits (iptLimitMatch hz) ⟨avg, burst, jiffies, user2credits hz (avg * burst),
      user2credits hz (avg * burst), user2credits hz avg⟩ (List.replicate n jiffies) =
      min n ((user2credits hz (avg * burst)).toNat / (user2credits hz avg).toNat) := by
    rw [hits_iptLimitMatch]
    refine passed_replicate (fun c hc => ?_) hpos (Nat.le_refl _)
    have hsmall : c < 2 ^ 32 := Nat.lt_of_le_of_lt hc (UInt32.toNat_lt _)
    simp only [RateInfo.bucket, Nat.zero_mul, Nat.add_zero, Nat.mod_eq_of_lt hsmall]
  refine ⟨hmatched, fun hexact hn => ?_⟩
  have hone : 1 ≤ burst.toNat := Nat.pos_of_ne_zero fun h => hburst (UInt32.toNat_inj.mp h)
  have hproduct : (avg * burst).toNat = avg.toNat * burst.toNat := by
    rw [UInt32.toNat_mul]
    exact Nat.mod_eq_of_lt (Nat.lt_of_le_of_lt hexact (UInt32.toNat_lt _))
  have havg : avg.toNat ≤ (0xffffffff / (hz * creditsPerJiffy hz)).toNat :=
    Nat.le_trans (Nat.le_mul_of_pos_right _ hone) hexact
  have hfits : burst.toNat * (user2credits hz avg).toNat ≤
      (user2credits hz (avg * burst)).toNat := by
    have horder : avg.toNat * burst.toNat * (hz * creditsPerJiffy hz).toNat =
        burst.toNat * (avg.toNat * (hz * creditsPerJiffy hz).toNat) := by
      rw [Nat.mul_comm avg.toNat burst.toNat, Nat.mul_assoc]
    rw [toNat_user2credits havg, toNat_user2credits (hproduct ▸ hexact), hproduct, horder]
    exact Nat.mul_div_le_mul_div_assoc _ _ _
  rw [hmatched]
  exact Nat.min_eq_left (Nat.le_trans hn ((Nat.le_div_iff_mul_le hpos).mpr hfits))

/-- One a second, and five at once. -/
theorem limit_burst_five : ∃ r, iptLimitCheckentry 1000 10000 5 700 = some r ∧
    hits (iptLimitMatch 1000) r (List.replicate 5 700) = 5 := by
  have haccepted : ∃ r, iptLimitCheckentry 1000 10000 5 700 = some r :=
    Option.isSome_iff_exists.mp (by decide)
  obtain ⟨r, hr⟩ := haccepted
  exact ⟨r, hr, (limit_burst hr (by decide) 5).2 (by decide) (by decide)⟩

/-- After some 37 hours without a packet the credit has come round to nothing. -/
example : (iptLimitMatch 1000 ⟨10000, 5, 0, 160000, 160000, 32000⟩ (2 ^ 27 - 5000)).1 = false := by
  decide

/-- Three a second and fifty at once: the credit of the burst is rounded to whole seconds, and two
fewer match. -/
example : (user2credits 1000 (3333 * 50)).toNat / (user2credits 1000 3333).toNat = 48 := by decide

end Limit

section Icmp

variable {burst cost timeout : UInt64} {err : Errno} {start stop : ℕ} {times : List ℕ}

/-- `rate_tokens` has 64 bits. -/
def icmpBucket (burst cost : UInt64) : Bucket where
  refill c t := (c + t) % 2 ^ 64
  cap := burst.toNat
  cost := cost.toNat

def Rate.purse (r : Rate) : Purse := ⟨r.tokens.toNat, r.last⟩

theorem toNat_capped64 (cap tokens : UInt64) :
    (if cap < tokens then cap else tokens).toNat = min cap.toNat tokens.toNat := by
  split
  · rename_i h
    exact (Nat.min_eq_left (Nat.le_of_lt (UInt64.lt_iff_toNat_lt.mp h))).symm
  · rename_i h
    exact (Nat.min_eq_right (UInt64.le_iff_toNat_le.mp (UInt64.not_lt.mp h))).symm

theorem spend_pay (r : Rate) (now : ℕ) :
    (icmpBucket burst cost).pay r.purse now =
      ((spend burst cost r now).1, (spend burst cost r now).2.purse) := by
  have hfilled : (icmpBucket burst cost).filled r.purse now =
      (if burst < r.tokens + .ofNat (now - r.last) then burst
        else r.tokens + .ofNat (now - r.last)).toNat := by
    rw [toNat_capped64, UInt64.toNat_add, UInt64.toNat_ofNat', Nat.add_mod_mod]
    rfl
  rw [spend, Bucket.pay, hfilled]
  generalize (if burst < r.tokens + .ofNat (now - r.last) then burst
    else r.tokens + .ofNat (now - r.last)) = tokens
  by_cases hcost : cost ≤ tokens
  · have hnat : cost.toNat ≤ tokens.toNat := UInt64.le_iff_toNat_le.mp hcost
    simp only [hcost, hnat, if_true, Rate.purse, icmpBucket]
    rw [UInt64.toNat_sub_of_le _ _ hcost]
  · have hnat : ¬cost.toNat ≤ tokens.toNat := fun h => hcost (UInt64.le_iff_toNat_le.mpr h)
    simp only [hcost, hnat, if_false, Rate.purse, icmpBucket]

variable (burst cost) in
theorem spent_window (hsorted : times.Pairwise (· ≤ ·)) (hin : ∀ t ∈ times, start ≤ t ∧ t ≤ stop)
    (r : Rate) : cost.toNat * hits (spend burst cost) r times ≤ burst.toNat + (stop - start) := by
  have hwindow := passed_window (icmpBucket burst cost) 1
    (fun c t => by rw [Nat.one_mul]; exact Nat.mod_le _ _) hsorted hin r.purse
  rw [hits_eq Rate.purse spend_pay]
  rwa [Nat.one_mul] at hwindow

/-- Whether a packet to a route that cannot be used is answered. -/
def answered (burst cost : UInt64) (err : Errno) (r : Rate) (now : ℕ) : Bool × Rate :=
  ((ipError burst cost err r now).1.isSome, (ipError burst cost err r now).2)

theorem answered_window (hsorted : times.Pairwise (· ≤ ·))
    (hin : ∀ t ∈ times, start ≤ t ∧ t ≤ stop) (r : Rate) :
    cost.toNat * hits (answered burst cost err) r times ≤ burst.toNat + (stop - start) := by
  cases hcode : unreachCode err with
  | none =>
    have hnever : ∀ r now, (answered burst cost err r now).1 = false := by
      simp [answered, ipError, hcode]
    rw [hits_of_never hnever]
    exact Nat.zero_le _
  | some code =>
    have hspend : answered burst cost err = spend burst cost := by
      funext r now
      rw [answered, ipError, hcode]
      cases h : (spend burst cost r now).1 <;> simp [h, Prod.ext_iff]
    rw [hspend]
    exact spent_window burst cost hsorted hin r

/-- In any window a route answers no more packets with an error than its burst and the time pay
for, and no more than six replies are let through to a host besides those that the time pays for. -/
theorem icmp_rate (start stop : ℕ) (times : List ℕ) (hsorted : times.Pairwise (· ≤ ·))
    (hin : ∀ t ∈ times, start ≤ t ∧ t ≤ stop) (r : Rate) :
    (∀ burst cost err,
      cost.toNat * hits (answered burst cost err) r times ≤ burst.toNat + (stop - start)) ∧
      ∀ timeout,
        timeout.toNat * hits (xrlimAllow timeout) r times ≤ 6 * timeout.toNat + (stop - start) := by
  refine ⟨fun burst cost err => answered_window hsorted hin r, fun timeout => ?_⟩
  have hspent := spent_window (6 * timeout) timeout hsorted hin r
  have hburst : (6 * timeout).toNat ≤ 6 * timeout.toNat := by
    rw [UInt64.toNat_mul]
    exact Nat.mod_le _ _
  exact Nat.le_trans hspent (Nat.add_le_add_right hburst _)

/-- Ten packets in one jiffy. -/
theorem icmp_rate_flood :
    1000 * hits (answered 5000 1000 .ehostunreach) ⟨0, 0⟩ (List.replicate 10 70000) ≤ 5000 := by
  exact (icmp_rate 70000 70000 (List.replicate 10 70000) (by decide) (by decide) ⟨0, 0⟩).1 5000 1000
    .ehostunreach

end Icmp

section Redirect

variable {c : Redirects} {r : Sent} {stop : ℕ} {times : List ℕ}

/-- A redirect costs twice the time of the one before it. -/
theorem redirects_double (hsorted : times.Pairwise (· ≤ ·))
    (hin : ∀ t ∈ times, r.last ≤ t ∧ t ≤ stop) (hstop : r.last ≤ stop)
    (hsilence : stop ≤ r.last + c.silence) :
    r.tokens + hits (ipRtSendRedirect c) r times ≤ max r.tokens c.number ∧
      c.load * 2 ^ (r.tokens + hits (ipRtSendRedirect c) r times) +
        hits (ipRtSendRedirect c) r times + r.last ≤ c.load * 2 ^ r.tokens + stop := by
  induction times generalizing r with
  | nil => exact ⟨Nat.le_max_left _ _, by simp only [hits, Nat.add_zero]; omega⟩
  | cons now times ih =>
    obtain ⟨hnow, hrest⟩ := List.pairwise_cons.mp hsorted
    obtain ⟨hfrom, hto⟩ := hin now List.mem_cons_self
    have hin' : ∀ t ∈ times, now ≤ t ∧ t ≤ stop := fun t ht =>
      ⟨hnow t ht, (hin t (List.mem_cons_of_mem _ ht)).2⟩
    have hkept : ¬r.last + c.silence < now := by omega
    by_cases hnumber : c.number ≤ r.tokens
    · have hsend : ipRtSendRedirect c r now = (false, ⟨r.tokens, now⟩) := by
        simp only [ipRtSendRedirect, hkept, hnumber, if_true, if_false]
      obtain ⟨hcount, htime⟩ := ih (r := ⟨r.tokens, now⟩) hrest hin' hto (by simp only; omega)
      simp only at hcount htime
      simp only [hits, hsend, Bool.toNat_false, Nat.zero_add]
      omega
    · by_cases hload : r.last + c.load * 2 ^ r.tokens < now
      · have hsend : ipRtSendRedirect c r now = (true, ⟨r.tokens + 1, now⟩) := by
          simp only [ipRtSendRedirect, hkept, hnumber, hload, if_true, if_false]
        obtain ⟨hcount, htime⟩ := ih (r := ⟨r.tokens + 1, now⟩) hrest hin' hto (by simp only; omega)
        simp only at hcount htime
        have hdouble : c.load * 2 ^ (r.tokens + 1) = 2 * (c.load * 2 ^ r.tokens) := by
          rw [Nat.pow_succ, Nat.mul_comm (2 ^ r.tokens), Nat.mul_left_comm]
        simp only [hits, hsend, Bool.toNat_true, ← Nat.add_assoc]
        rw [hdouble] at htime
        omega
      · have hsend : ipRtSendRedirect c r now = (false, r) := by
          simp only [ipRtSendRedirect, hkept, hnumber, hload, if_false]
        simp only [hits, hsend, Bool.toNat_false, Nat.zero_add]
        exact ih hrest (fun t ht => hin t (List.mem_cons_of_mem _ ht)) hstop hsilence

/-- In a time no longer than the silence, `k` redirects to a host are sent only if it takes at
least `load * (2 ^ k - 1)`, and no more than their number; after that many, none. -/
theorem redirects_backoff (c : Redirects) (r : Sent) (stop : ℕ) (times : List ℕ)
    (hsorted : times.Pairwise (· ≤ ·)) (hin : ∀ t ∈ times, r.last ≤ t ∧ t ≤ stop)
    (hstop : r.last ≤ stop) (hsilence : stop ≤ r.last + c.silence) :
    let k := hits (ipRtSendRedirect c) r times
    k ≤ c.number - r.tokens ∧
      c.load * (2 ^ (r.tokens + k) - 2 ^ r.tokens) + k ≤ stop - r.last := by
  intro k
  obtain ⟨hcount, htime⟩ : r.tokens + k ≤ max r.tokens c.number ∧
      c.load * 2 ^ (r.tokens + k) + k + r.last ≤ c.load * 2 ^ r.tokens + stop :=
    redirects_double hsorted hin hstop hsilence
  have hmore : c.load * 2 ^ r.tokens ≤ c.load * 2 ^ (r.tokens + k) :=
    Nat.mul_le_mul_left _ (Nat.pow_le_pow_right (by decide) (Nat.le_add_right _ _))
  refine ⟨by omega, ?_⟩
  rw [Nat.mul_sub]
  omega

/-- Five packets to a route that no redirect was sent for. -/
theorem redirects_backoff_five :
    let k := hits (ipRtSendRedirect ⟨9, 20, 20480⟩) ⟨0, 5000⟩ [5010, 5030, 5060, 5080, 5200]
    k ≤ 9 ∧ 20 * (2 ^ k - 1) + k ≤ 200 := by
  have h := redirects_backoff ⟨9, 20, 20480⟩ ⟨0, 5000⟩ 5200 [5010, 5030, 5060, 5080, 5200]
    (by decide) (by decide) (by decide) (by decide)
  simpa using h

end Redirect

end RateLimits
