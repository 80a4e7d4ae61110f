import RouterFirmware.PathMtu
import RouterFirmware.RingWalk
import Mathlib.Algebra.BigOperators.Group.Finset.Basic
import Mathlib.Data.Int.Order.Basic

/-! # Collecting the route cache

When the cache has grown too much, entries that nobody holds are freed, the old ones first: the age
that an entry may have is halved from one entry of a chain to the next, and from one turn round the
table to the next, until enough are gone. -/
namespace RouteGarbage

open RingWalk
open RouteCache (Rtable)
open PathMtu (timeBefore)

/-- An `rtable` with what the collection reads. -/
structure Cached where
  rt : Rtable
  refcnt : ℕ
  rtFlags : UInt32
  expires : UInt64
  lastuse : UInt64
  deriving DecidableEq

/-- `rt_hash_table`, from 0 to `rt_hash_mask`. -/
abbrev Table := ℕ → List Cached

def rtcfNotify : UInt32 := 0x00010000
def rtcfRedirected : UInt32 := 0x00040000
def rtcfBroadcast : UInt32 := 0x10000000
def rtcfMulticast : UInt32 := 0x20000000

/-- `behind` is what follows the entry in its chain. -/
def rtFastClean (rth : Cached) (behind : List Cached) : Bool :=
  rth.rtFlags &&& (rtcfBroadcast ||| rtcfMulticast) ≠ 0 && rth.rt.fl.iif ≠ 0 && !behind.isEmpty

def rtValuable (rth : Cached) : Bool :=
  rth.rtFlags &&& (rtcfRedirected ||| rtcfNotify) ≠ 0 || rth.expires ≠ 0

def rtMayExpire (jiffies : UInt64) (rth : Cached) (behind : List Cached) (tmo1 tmo2 : UInt64) :
    Bool :=
  if rth.refcnt ≠ 0 then false
  else if rth.expires ≠ 0 ∧ timeBefore jiffies rth.expires = false then true
  else
    let age := jiffies - rth.lastuse
    !((age ≤ tmo1 && !rtFastClean rth behind) || (age ≤ tmo2 && rtValuable rth))

/-- The loop over a chain: `tmo` is halved at each entry that stays. -/
def sweep (mayGo : Cached → List Cached → UInt64 → Bool) : UInt64 → List Cached → List Cached
  | _, [] => []
  | tmo, rth :: chain =>
    if mayGo rth chain tmo then sweep mayGo tmo chain else rth :: sweep mayGo (tmo >>> 1) chain

/-- The settings that a collection reads; the table has `2 ^ rtHashLog` chains. -/
structure Limits where
  gcTimeout : UInt64
  gcMinInterval : UInt64
  gcElasticity : ℕ
  maxSize : ℤ
  gcThresh : ℤ
  rtHashLog : ℕ

/-- The variables of `rt_garbage_collect` that stay from one call to the next. -/
structure Gc where
  expire : UInt64
  lastGc : UInt64
  rover : ℕ
  equilibrium : ℤ

/-- The clock during a turn, and the number of `entries` after it. -/
structure Moment where
  jiffies : UInt64
  entries : ℤ

/-- `min_t(unsigned int, a, b)`, stored in an `int`. -/
def minUnsigned (a b : ℤ) : ℤ := (min (a % 2 ^ 32) (b % 2 ^ 32)).bmod (2 ^ 32)

/-- `max_t(unsigned int, a, b)`, stored in an `int`. -/
def maxUnsigned (a b : ℤ) : ℤ := (max (a % 2 ^ 32) (b % 2 ^ 32)).bmod (2 ^ 32)

/-- How many entries are to go, and the new equilibrium. -/
def gcGoal (limits : Limits) (entries equilibrium : ℤ) : ℤ × ℤ :=
  let size : ℤ := 2 ^ limits.rtHashLog
  let goal := entries - limits.gcElasticity * size
  if goal ≤ 0 then
    let equilibrium := max equilibrium limits.gcThresh
    let goal := entries - equilibrium
    if 0 < goal then
      let equilibrium := equilibrium + minUnsigned (goal / 2) size
      (entries - equilibrium, equilibrium)
    else (goal, equilibrium)
  else
    let goal := maxUnsigned (goal / 2) size
    (goal, entries - goal)

/-- What a turn counts down, and the table. -/
structure Sweep where
  goal : ℤ
  table : Table

/-- A chain is swept; the turn ends when the goal is reached. -/
def gcVisit (jiffies expire : UInt64) (k : ℕ) (s : Sweep) : Sweep × Bool :=
  let chain := sweep (fun rth behind tmo => rtMayExpire jiffies rth behind tmo expire) expire
    (s.table k)
  let goal := s.goal - ((s.table k).length - chain.length : ℕ)
  (⟨goal, Function.update s.table k chain⟩, goal ≤ 0)

/-- How a collection ends: too early after the last one, with nothing to do or enough freed, with
less than enough but room left, or with the cache full. -/
inductive Outcome where
  | ignored
  | workDone
  | room
  | overflow
  deriving DecidableEq

/-- `turn` is the last one, `entries` the number at the end. -/
structure Collected where
  outcome : Outcome
  turn : ℕ
  expire : UInt64
  rover : ℕ
  entries : ℤ
  sweep : Sweep

theorem toNat_half_lt {expire : UInt64} (h : expire ≠ 0) : (expire >>> 1).toNat < expire.toNat := by
  have hpos : expire.toNat ≠ 0 := fun h0 => h (UInt64.toNat_inj.mp h0)
  rw [UInt64.toNat_shiftRight]
  exact Nat.lt_of_le_of_lt (Nat.le_of_eq (Nat.shiftRight_eq_div_pow _ _))
    (Nat.div_lt_self (Nat.pos_of_ne_zero hpos) (by decide))

/-- The turns round the table, the `turn`-th and those after it. -/
def gcTurns (limits : Limits) (inSoftirq : Bool) (now : UInt64) (moment : ℕ → Moment)
    (turn : ℕ) (expire : UInt64) (rover : ℕ) (s : Sweep) : Collected :=
  let m := moment turn
  let w := walk limits.rtHashLog (gcVisit m.jiffies expire) (2 ^ limits.rtHashLog) rover s
  let full : Outcome := if m.entries < limits.maxSize then .room else .overflow
  if w.state.goal ≤ 0 then ⟨.workDone, turn, expire, w.pos, m.entries, w.state⟩
  else if expire = 0 then ⟨full, turn, expire, w.pos, m.entries, w.state⟩
  else if m.entries < limits.maxSize then ⟨.room, turn, expire >>> 1, w.pos, m.entries, w.state⟩
  else if inSoftirq = false ∧ timeBefore now m.jiffies = false then
    gcTurns limits inSoftirq now moment (turn + 1) (expire >>> 1) w.pos w.state
  else ⟨full, turn, expire >>> 1, w.pos, m.entries, w.state⟩
termination_by expire.toNat
decreasing_by exact toNat_half_lt ‹_›

/-- `work_done`: an easy collection lets entries grow older. -/
def relaxed (limits : Limits) (entries : ℤ) (expire : UInt64) : UInt64 :=
  let expire := expire + limits.gcMinInterval
  if limits.gcTimeout < expire ∨ entries < limits.gcThresh then limits.gcTimeout else expire

/-- `entries` and `now` are read at the beginning. -/
def rtGarbageCollect (limits : Limits) (inSoftirq : Bool) (now : UInt64) (entries : ℤ)
    (moment : ℕ → Moment) (gc : Gc) (table : Table) : Outcome × Gc × Table :=
  if now - gc.lastGc < limits.gcMinInterval ∧ entries < limits.maxSize then (.ignored, gc, table)
  else
    let (goal, equilibrium) := gcGoal limits entries gc.equilibrium
    let lastGc := if limits.gcMinInterval ≤ now - gc.lastGc then now else gc.lastGc
    if goal ≤ 0 then
      (.workDone, ⟨relaxed limits entries gc.expire, lastGc, gc.rover, equilibrium + goal⟩, table)
    else
      let c := gcTurns limits inSoftirq now moment 0 gc.expire gc.rover ⟨goal, table⟩
      let expire := if c.outcome = .workDone then relaxed limits c.entries c.expire
        else c.expire
      (c.outcome, ⟨expire, lastGc, c.rover, equilibrium⟩, c.sweep.table)

section Sweep

variable {mayGo : Cached → List Cached → UInt64 → Bool} {tmo jiffies tmo1 tmo2 : UInt64}
  {rth : Cached} {chain behind : List Cached}

theorem sweep_sublist (mayGo : Cached → List Cached → UInt64 → Bool) (tmo : UInt64)
    (chain : List Cached) : (sweep mayGo tmo chain).Sublist chain := by
  induction chain generalizing tmo with
  | nil => exact List.Sublist.refl _
  | cons rth chain ih =>
    rw [sweep]
    split
    · exact (ih tmo).cons _
    · exact (ih _).cons_cons _

theorem mem_sweep (hstay : ∀ behind tmo, mayGo rth behind tmo = false) (h : rth ∈ chain) :
    rth ∈ sweep mayGo tmo chain := by
  induction chain generalizing tmo with
  | nil => cases h
  | cons other chain ih =>
    rw [sweep]
    rcases List.mem_cons.mp h with rfl | h
    · simp [hstay]
    · split
      · exact ih h
      · exact List.mem_cons_of_mem _ (ih h)

theorem half_le (tmo : UInt64) : tmo >>> 1 ≤ tmo := by
  rw [UInt64.le_iff_toNat_le, UInt64.toNat_shiftRight]
  exact Nat.shiftRight_le _ _

/-- What stays was asked about with an age no greater than the one at the head of the chain. -/
theorem mayGo_of_mem_sweep (h : rth ∈ sweep mayGo tmo chain) :
    ∃ behind, ∃ tmo' ≤ tmo, mayGo rth behind tmo' = false := by
  induction chain generalizing tmo with
  | nil => cases h
  | cons other chain ih =>
    rw [sweep] at h
    split at h
    · exact ih h
    · rename_i hstays
      rcases List.mem_cons.mp h with rfl | h
      · exact ⟨chain, tmo, UInt64.le_refl _, Bool.eq_false_iff.mpr hstays⟩
      · obtain ⟨behind, tmo', hle, hfalse⟩ := ih h
        exact ⟨behind, tmo', UInt64.le_trans hle (half_le tmo), hfalse⟩

theorem rtMayExpire_of_held (h : rth.refcnt ≠ 0) :
    rtMayExpire jiffies rth behind tmo1 tmo2 = false :=
  if_pos h

theorem held_or_young (h : rtMayExpire jiffies rth behind tmo1 tmo2 = false) (hle : tmo1 ≤ tmo2) :
    rth.refcnt ≠ 0 ∨ jiffies - rth.lastuse ≤ tmo2 := by
  by_cases hheld : rth.refcnt ≠ 0
  · exact .inl hheld
  · rw [rtMayExpire, if_neg hheld] at h
    split at h
    · cases h
    · refine .inr ?_
      by_contra hold
      have hold1 : ¬jiffies - rth.lastuse ≤ tmo1 := fun h1 => hold (UInt64.le_trans h1 hle)
      simp [hold, hold1] at h

theorem held_or_fresh (h : rtMayExpire jiffies rth behind tmo1 0 = false) (hle : tmo1 ≤ 0) :
    rth.refcnt ≠ 0 ∨ rth.lastuse = jiffies := by
  refine (held_or_young h hle).imp_right fun hage => ?_
  have hnone : jiffies - rth.lastuse = 0 := UInt64.le_antisymm hage UInt64.zero_le
  have hback := UInt64.sub_add_cancel jiffies rth.lastuse
  rwa [hnone, UInt64.zero_add] at hback

end Sweep

section Collect

variable {limits : Limits} {inSoftirq : Bool} {now jiffies expire : UInt64} {moment : ℕ → Moment}
  {turn rover n j : ℕ} {s t u : Sweep}

def total (n : ℕ) (table : Table) : ℕ := ∑ k ∈ Finset.range (2 ^ n), (table k).length

theorem total_update (table : Table) (hj : j < 2 ^ n) (chain : List Cached) :
    total n (Function.update table j chain) + (table j).length = total n table + chain.length := by
  have hmem : j ∈ Finset.range (2 ^ n) := Finset.mem_range.mpr hj
  have hrest : ∑ k ∈ (Finset.range (2 ^ n)).erase j, (Function.update table j chain k).length =
      ∑ k ∈ (Finset.range (2 ^ n)).erase j, (table k).length :=
    Finset.sum_congr rfl fun k hk => by rw [Function.update_of_ne (Finset.ne_of_mem_erase hk)]
  rw [total, total, ← Finset.add_sum_erase _ _ hmem, ← Finset.add_sum_erase _ (fun k =>
    (table k).length) hmem, hrest, Function.update_self]
  omega

/-- What a part of a collection has done: only entries that nobody holds are gone, and each is
counted. -/
structure Swept (n : ℕ) (s t : Sweep) : Prop where
  sublist : ∀ i, (t.table i).Sublist (s.table i)
  held : ∀ i, ∀ rth ∈ s.table i, rth.refcnt ≠ 0 → rth ∈ t.table i
  counted : t.goal + total n s.table = s.goal + total n t.table

theorem Swept.refl (n : ℕ) (s : Sweep) : Swept n s s :=
  ⟨fun _ => List.Sublist.refl _, fun _ _ h _ => h, rfl⟩

theorem Swept.trans (h : Swept n s t) (g : Swept n t u) : Swept n s u := by
  refine ⟨fun i => (g.sublist i).trans (h.sublist i),
    fun i rth hrth hheld => g.held i rth (h.held i rth hrth hheld) hheld, ?_⟩
  have hfirst := h.counted
  have hthen := g.counted
  omega

theorem swept_gcVisit (hj : j < 2 ^ n) (s : Sweep) :
    Swept n s (gcVisit jiffies expire j s).1 := by
  have hsub := sweep_sublist (fun rth behind tmo => rtMayExpire jiffies rth behind tmo expire)
    expire (s.table j)
  refine ⟨fun i => ?_, fun i rth hrth hheld => ?_, ?_⟩
  · by_cases hi : i = j
    · subst i
      simpa [gcVisit] using hsub
    · simp [gcVisit, Function.update_of_ne hi]
  · by_cases hi : i = j
    · subst i
      simpa [gcVisit] using mem_sweep (fun _ _ => rtMayExpire_of_held hheld) hrth
    · simpa [gcVisit, Function.update_of_ne hi] using hrth
  · have hcount := total_update s.table hj (sweep (fun rth behind tmo =>
      rtMayExpire jiffies rth behind tmo expire) expire (s.table j))
    have hle := hsub.length_le
    simp only [gcVisit]
    omega

theorem swept_walk (limits : Limits) (jiffies expire : UInt64) (m rover : ℕ) (s : Sweep) :
    Swept limits.rtHashLog s
      (walk limits.rtHashLog (gcVisit jiffies expire) m rover s).state :=
  walk_keeps (fun _ hj _ h => h.trans (swept_gcVisit hj _)) (Swept.refl _ s)

/-- After a turn in which no age was allowed and which did not reach the goal, every entry that is
left is held or has just been used. -/
theorem held_or_fresh_of_turn {b : ℕ} (hb : b < 2 ^ n)
    (hgoal : 0 < (walk n (gcVisit jiffies 0) (2 ^ n) rover s).state.goal) :
    ∀ rth ∈ (walk n (gcVisit jiffies 0) (2 ^ n) rover s).state.table b,
      rth.refcnt ≠ 0 ∨ rth.lastuse = jiffies := by
  have hwent : (walk n (gcVisit jiffies 0) (2 ^ n) rover s).stopped = false := by
    rw [Bool.eq_false_iff]
    intro hstopped
    have hreached := walk_stopped (I := fun s => s.goal ≤ 0)
      (fun j s h => of_decide_eq_true h) hstopped
    omega
  refine walk_covers (D := fun b s => ∀ rth ∈ s.table b, rth.refcnt ≠ 0 ∨ rth.lastuse = jiffies)
    (fun j s _ rth hrth => ?_) (fun b j s h rth hrth => ?_) hwent hb
  · simp only [gcVisit, Function.update_self] at hrth
    obtain ⟨behind, tmo', hle, hstays⟩ := mayGo_of_mem_sweep hrth
    exact held_or_fresh hstays hle
  · by_cases hj : b = j
    · subst b
      simp only [gcVisit, Function.update_self] at hrth
      exact h rth ((sweep_sublist _ _ _).subset hrth)
    · simp only [gcVisit, Function.update_of_ne hj] at hrth
      exact h rth hrth

/-- The cache is full after a turn, and the collection gave up as it may not go on from an interrupt
or for longer, or as there is nothing left that it may free. -/
def Full (limits : Limits) (inSoftirq : Bool) (now : UInt64) (m : Moment) (table : Table) : Prop :=
  limits.maxSize ≤ m.entries ∧
    (inSoftirq = true ∨ timeBefore now m.jiffies = true ∨
      ∀ i < 2 ^ limits.rtHashLog, ∀ rth ∈ table i, rth.refcnt ≠ 0 ∨ rth.lastuse = m.jiffies)

/-- What the turns have reached. -/
structure Ended (limits : Limits) (inSoftirq : Bool) (now : UInt64) (moment : ℕ → Moment)
    (s : Sweep) (c : Collected) : Prop where
  swept : Swept limits.rtHashLog s c.sweep
  tried : c.outcome ≠ .ignored
  done : c.outcome = .workDone → c.sweep.goal ≤ 0
  room : c.outcome = .room → (moment c.turn).entries < limits.maxSize
  full : c.outcome = .overflow → Full limits inSoftirq now (moment c.turn) c.sweep.table

theorem ended_gcTurns : Ended limits inSoftirq now moment s
    (gcTurns limits inSoftirq now moment turn expire rover s) := by
  fun_induction gcTurns limits inSoftirq now moment turn expire rover s with
  | case1 turn expire rover s m w hdone =>
    exact ⟨swept_walk limits _ _ _ _ _, nofun, fun _ => hdone, nofun, nofun⟩
  | case2 turn rover s m full w hgoal =>
    by_cases hroom : m.entries < limits.maxSize
    · have hfull : full = .room := if_pos hroom
      rw [hfull]
      exact ⟨swept_walk limits _ _ _ _ _, nofun, nofun, fun _ => hroom, nofun⟩
    · have hfull : full = .overflow := if_neg hroom
      rw [hfull]
      refine ⟨swept_walk limits _ _ _ _ _, nofun, nofun, nofun, fun _ => ⟨?_, ?_⟩⟩
      · exact Int.not_lt.mp hroom
      · exact .inr (.inr fun i hi => held_or_fresh_of_turn hi (Int.not_le.mp hgoal))
  | case3 turn expire rover s m w hgoal hexpire hroom =>
    exact ⟨swept_walk limits _ _ _ _ _, nofun, nofun, fun _ => hroom, nofun⟩
  | case4 turn expire rover s m w hgoal hexpire hfull hgo ih =>
    exact ⟨(swept_walk limits _ _ _ _ _).trans ih.swept, ih.tried, ih.done, ih.room, ih.full⟩
  | case5 turn expire rover s m w full hgoal hexpire hroom hstop =>
    have hfull : full = .overflow := if_neg hroom
    rw [hfull]
    refine ⟨swept_walk limits _ _ _ _ _, nofun, nofun, nofun, fun _ => ⟨?_, ?_⟩⟩
    · exact Int.not_lt.mp hroom
    · by_cases hsoftirq : inSoftirq = true
      · exact .inl hsoftirq
      · refine .inr (.inl ?_)
        by_contra hlate
        exact hstop ⟨Bool.eq_false_iff.mpr hsoftirq, Bool.eq_false_iff.mpr hlate⟩

/-- However a collection ends, only entries that nobody holds are gone. It frees as many as it set
out to, or there is room, or it says that the cache is full; then it is, and where the collection
could go on for as long as it needed, nothing is left to be freed. -/
theorem garbage_collected (limits : Limits) (inSoftirq : Bool) (now : UInt64) (entries : ℤ)
    (moment : ℕ → Moment) (gc : Gc) (table : Table) :
    let r := rtGarbageCollect limits inSoftirq now entries moment gc table
    let goal := (gcGoal limits entries gc.equilibrium).1
    let last := (gcTurns limits inSoftirq now moment 0 gc.expire gc.rover ⟨goal, table⟩).turn
    (∀ i, (r.2.2 i).Sublist (table i)) ∧
      (∀ i, ∀ rth ∈ table i, rth.refcnt ≠ 0 → rth ∈ r.2.2 i) ∧
      (r.1 = .ignored → r.2.2 = table ∧ entries < limits.maxSize) ∧
      (r.1 = .workDone →
        goal + total limits.rtHashLog r.2.2 ≤ total limits.rtHashLog table) ∧
      (r.1 = .room → (moment last).entries < limits.maxSize) ∧
      (r.1 = .overflow → Full limits inSoftirq now (moment last) r.2.2) := by
  intro r goal last
  by_cases hearly : now - gc.lastGc < limits.gcMinInterval ∧ entries < limits.maxSize
  · have hr : r = (.ignored, gc, table) := if_pos hearly
    rw [hr]
    exact ⟨fun _ => List.Sublist.refl _, fun _ _ h _ => h, fun _ => ⟨rfl, hearly.2⟩, nofun, nofun,
      nofun⟩
  · by_cases hgoal : goal ≤ 0
    · have hr : r.1 = .workDone ∧ r.2.2 = table := by
        simp only [goal] at hgoal
        simp only [r, rtGarbageCollect, hearly, hgoal, if_true, if_false, and_self]
      rw [hr.1, hr.2]
      exact ⟨fun _ => List.Sublist.refl _, fun _ _ h _ => h, nofun, fun _ => by omega, nofun, nofun⟩
    · have hended : Ended limits inSoftirq now moment ⟨goal, table⟩
          (gcTurns limits inSoftirq now moment 0 gc.expire gc.rover ⟨goal, table⟩) := ended_gcTurns
      have hr : r.1 = (gcTurns limits inSoftirq now moment 0 gc.expire gc.rover
            ⟨goal, table⟩).outcome ∧
          r.2.2 = (gcTurns limits inSoftirq now moment 0 gc.expire gc.rover
            ⟨goal, table⟩).sweep.table := by
        simp only [goal] at hgoal
        simp only [r, goal, rtGarbageCollect, hearly, hgoal, if_false, and_self]
      rw [hr.1, hr.2]
      refine ⟨hended.swept.sublist, hended.swept.held, fun h => absurd h hended.tried, fun h => ?_,
        hended.room, hended.full⟩
      have hcounted := hended.swept.counted
      have hdone := hended.done h
      simp only at hcounted
      omega

end Collect

/-- `ip_rt_gc_interval`, `ip_rt_gc_timeout` and the size of the table. -/
structure Period where
  gcInterval : ℕ
  gcTimeout : ℕ
  rtHashLog : ℕ

/-- How many chains a run of the timer looks at. The product has 64 bits, the goal 32. -/
def expireGoal (p : Period) : ℕ :=
  let mult := p.gcInterval * 2 ^ p.rtHashLog % 2 ^ 64
  let goal := (if 1 < p.gcTimeout then mult / p.gcTimeout else mult) % 2 ^ 32
  min goal (2 ^ p.rtHashLog)

/-- An entry that has a time of its own goes when it is over, even if it is in use. -/
def expireMayGo (now gcTimeout : UInt64) (rth : Cached) (behind : List Cached) (tmo : UInt64) :
    Bool :=
  if rth.expires ≠ 0 then timeBefore rth.expires now
  else rtMayExpire now rth behind tmo gcTimeout

/-- `late` tells for each chain whether `jiffies` has gone on when it is done. -/
structure Run where
  now : UInt64
  late : ℕ → Bool

def expireVisit (p : Period) (run : Run) (k : ℕ) (table : Table) : Table × Bool :=
  let gcTimeout := UInt64.ofNat p.gcTimeout
  if table k = [] then (table, false)
  else
    (Function.update table k (sweep (expireMayGo run.now gcTimeout) gcTimeout (table k)),
      run.late k)

/-- `rover` and the table. -/
def rtCheckExpire (p : Period) (s : ℕ × Table) (run : Run) : ℕ × Table :=
  let w := walk p.rtHashLog (expireVisit p run) (expireGoal p) s.1 s.2
  (w.pos, w.state)

section Expire

variable {p : Period} {run : Run} {runs : List Run} {rth : Cached} {chain behind : List Cached}
  {s : ℕ × Table} {table : Table} {j k : ℕ}

/-- An entry that a run finds young enough. -/
def Fresh (p : Period) (run : Run) (rth : Cached) : Prop :=
  if rth.expires ≠ 0 then timeBefore rth.expires run.now = false
  else rth.refcnt ≠ 0 ∨ run.now - rth.lastuse ≤ UInt64.ofNat p.gcTimeout

instance (p : Period) (run : Run) (rth : Cached) : Decidable (Fresh p run rth) :=
  inferInstanceAs (Decidable (if rth.expires ≠ 0 then _ else rth.refcnt ≠ 0 ∨ _))

/-- An entry that no run may free. -/
def Safe (run : Run) (rth : Cached) : Prop :=
  if rth.expires ≠ 0 then timeBefore rth.expires run.now = false else rth.refcnt ≠ 0

theorem expireMayGo_of_safe {gcTimeout tmo : UInt64} (h : Safe run rth) :
    expireMayGo run.now gcTimeout rth behind tmo = false := by
  rw [Safe] at h
  rw [expireMayGo]
  split
  · rename_i hexpires
    rwa [if_pos hexpires] at h
  · rename_i hexpires
    rw [if_neg hexpires] at h
    exact rtMayExpire_of_held h

theorem fresh_of_mem_sweep
    (h : rth ∈ sweep (expireMayGo run.now (.ofNat p.gcTimeout)) (.ofNat p.gcTimeout) chain) :
    Fresh p run rth := by
  obtain ⟨behind, tmo, hle, hstays⟩ := mayGo_of_mem_sweep h
  rw [expireMayGo] at hstays
  rw [Fresh]
  split
  · rename_i hexpires
    rwa [if_pos hexpires] at hstays
  · rename_i hexpires
    rw [if_neg hexpires] at hstays
    exact held_or_young hstays hle

theorem expireVisit_slot (table : Table) :
    (expireVisit p run k table).1 k =
      sweep (expireMayGo run.now (.ofNat p.gcTimeout)) (.ofNat p.gcTimeout) (table k) := by
  rw [expireVisit]
  split
  · rename_i hempty
    simp [hempty, sweep]
  · exact Function.update_self ..

theorem expireVisit_other (hj : j ≠ k) (table : Table) :
    (expireVisit p run k table).1 j = table j := by
  rw [expireVisit]
  split
  · rfl
  · exact Function.update_of_ne hj ..

theorem expireVisit_sublist (table : Table) (j : ℕ) :
    ((expireVisit p run k table).1 j).Sublist (table j) := by
  by_cases hj : j = k
  · subst j
    rw [expireVisit_slot]
    exact sweep_sublist _ _ _
  · rw [expireVisit_other hj]

theorem expireVisit_safe (h : Safe run rth) (hrth : rth ∈ table j) :
    rth ∈ (expireVisit p run k table).1 j := by
  by_cases hj : j = k
  · subst j
    rw [expireVisit_slot]
    exact mem_sweep (fun _ _ => expireMayGo_of_safe h) hrth
  · rwa [expireVisit_other hj]

theorem rtCheckExpire_sublist (s : ℕ × Table) (j : ℕ) :
    ((rtCheckExpire p s run).2 j).Sublist (s.2 j) :=
  walk_keeps (I := fun t : Table => (t j).Sublist (s.2 j))
    (fun _ _ t h => (expireVisit_sublist t j).trans h) (List.Sublist.refl _)

theorem rtCheckExpire_safe (h : Safe run rth) (hrth : rth ∈ s.2 j) :
    rth ∈ (rtCheckExpire p s run).2 j :=
  walk_keeps (I := fun t : Table => rth ∈ t j) (fun _ _ _ ht => expireVisit_safe h ht) hrth

theorem foldl_rtCheckExpire_sublist (runs : List Run) (s : ℕ × Table) (j : ℕ) :
    ((runs.foldl (rtCheckExpire p) s).2 j).Sublist (s.2 j) := by
  induction runs generalizing s with
  | nil => exact List.Sublist.refl _
  | cons run runs ih => exact (ih _).trans (rtCheckExpire_sublist s j)

theorem foldl_rtCheckExpire_safe (h : ∀ run ∈ runs, Safe run rth) (hrth : rth ∈ s.2 j) :
    rth ∈ (runs.foldl (rtCheckExpire p) s).2 j := by
  induction runs generalizing s with
  | nil => exact hrth
  | cons run runs ih =>
    exact ih (fun r hr => h r (List.mem_cons_of_mem _ hr))
      (rtCheckExpire_safe (h run List.mem_cons_self) hrth)

theorem walk_not_stopped (hlate : ∀ k, run.late k = false) (m k : ℕ) (table : Table) :
    (walk p.rtHashLog (expireVisit p run) m k table).stopped = false := by
  rw [Bool.eq_false_iff]
  intro hstopped
  refine walk_stopped (I := fun _ => False) (fun j t h => ?_) hstopped
  rw [expireVisit] at h
  split at h
  · cases h
  · rw [hlate] at h
    cases h

/-- One run leaves only fresh entries in the chains that it looks at. -/
theorem fresh_of_run (hlate : ∀ k, run.late k = false) (hj : j < expireGoal p) :
    ∀ rth ∈ (rtCheckExpire p s run).2 ((s.1 + 1 + j) % 2 ^ p.rtHashLog), Fresh p run rth := by
  refine walk_visits (D := fun b t => ∀ rth ∈ t b, Fresh p run rth) (fun k t _ rth hrth => ?_)
    (fun b k t h rth hrth => h rth ((expireVisit_sublist t b).subset hrth))
    (walk_not_stopped hlate _ _ _) hj
  rw [expireVisit_slot] at hrth
  exact fresh_of_mem_sweep hrth

theorem fresh_of_runs (hlate : ∀ run ∈ runs, ∀ k, run.late k = false)
    (hj : j < runs.length * expireGoal p) :
    ∀ rth ∈ (runs.foldl (rtCheckExpire p) s).2 ((s.1 + 1 + j) % 2 ^ p.rtHashLog),
      ∃ run ∈ runs, Fresh p run rth := by
  induction runs generalizing s j with
  | nil => simp at hj
  | cons run runs ih =>
    intro rth hrth
    by_cases hfirst : j < expireGoal p
    · have hthen := (foldl_rtCheckExpire_sublist runs (rtCheckExpire p s run) _).subset hrth
      exact ⟨run, List.mem_cons_self,
        fresh_of_run (hlate run List.mem_cons_self) hfirst rth hthen⟩
    · have hpos : (rtCheckExpire p s run).1 % 2 ^ p.rtHashLog =
          (s.1 + expireGoal p) % 2 ^ p.rtHashLog :=
        walk_pos (walk_not_stopped (hlate run List.mem_cons_self) _ _ _)
      have hslot : ((rtCheckExpire p s run).1 + 1 + (j - expireGoal p)) % 2 ^ p.rtHashLog =
          (s.1 + 1 + j) % 2 ^ p.rtHashLog := by
        rw [Nat.add_assoc, ← Nat.mod_add_mod, hpos, Nat.mod_add_mod]
        congr 1
        omega
      have hrest : j - expireGoal p < runs.length * expireGoal p := by
        rw [List.length_cons, Nat.succ_mul] at hj
        omega
      rw [List.foldl_cons, ← hslot] at hrth
      obtain ⟨r, hr, hfresh⟩ :=
        ih (fun r hr => hlate r (List.mem_cons_of_mem _ hr)) hrest rth hrth
      exact ⟨r, List.mem_cons_of_mem _ hr, hfresh⟩

/-- Runs that come once round the table, and are not cut short, leave only entries that one of them
found fresh; an entry in use with no time of its own, or before its time, stays in any case. -/
theorem expired_gone (p : Period) (runs : List Run) (s : ℕ × Table)
    (hround : 2 ^ p.rtHashLog ≤ runs.length * expireGoal p)
    (hlate : ∀ run ∈ runs, ∀ k, run.late k = false) :
    let s' := runs.foldl (rtCheckExpire p) s
    (∀ b < 2 ^ p.rtHashLog, ∀ rth ∈ s'.2 b, rth ∈ s.2 b ∧ ∃ run ∈ runs, Fresh p run rth) ∧
      ∀ b, ∀ rth ∈ s.2 b, (∀ run ∈ runs, Safe run rth) → rth ∈ s'.2 b := by
  intro s'
  refine ⟨fun b hb rth hrth => ⟨(foldl_rtCheckExpire_sublist runs s b).subset hrth, ?_⟩,
    fun b rth hrth hsafe => foldl_rtCheckExpire_safe hsafe hrth⟩
  obtain ⟨j, hj, rfl⟩ := exists_behind s.1 hb
  exact fresh_of_runs hlate (Nat.lt_of_lt_of_le hj hround) rth hrth

/-- Two runs go round a table of four chains. -/
theorem expired_gone_twice :
    let old : Cached := ⟨⟨1, ⟨1, 2, 0, 0, 0, 0, 0, 0⟩, 1, .unicast⟩, 0, 0, 0, 100⟩
    let held : Cached := ⟨⟨2, ⟨1, 3, 0, 0, 0, 0, 0, 0⟩, 1, .unicast⟩, 1, 0, 0, 100⟩
    let runs : List Run := [⟨1000, fun _ => false⟩, ⟨1060, fun _ => false⟩]
    let s := runs.foldl (rtCheckExpire ⟨60, 120, 2⟩) (0, fun _ => [old, held])
    held ∈ s.2 3 ∧ old ∉ s.2 3 := by
  intro old held runs s
  have hgone := expired_gone ⟨60, 120, 2⟩ runs (0, fun _ => [old, held]) (by decide) (by simp [runs])
  refine ⟨hgone.2 3 held (by simp) fun run _ => ?_, fun hold => ?_⟩
  · exact Nat.one_ne_zero
  · obtain ⟨-, run, hrun, hfresh⟩ := hgone.1 3 (by decide) old hold
    simp only [runs, List.mem_cons, List.not_mem_nil, or_false] at hrun
    rcases hrun with rfl | rfl
    · exact absurd hfresh (by decide)
    · exact absurd hfresh (by decide)

/-- Runs for the time that an entry may have may leave a chain out, as the goal is rounded down. -/
example : expireGoal ⟨60000, 300000, 12⟩ * 5 + 1 = 2 ^ 12 := by decide

end Expire

end RouteGarbage
