import Mathlib.Order.Fin.Basic
import RouterFirmware.GuardedRun
import RouterFirmware.SessionCounters

/-! # The block timer

A host that goes over the limit gets a number of seconds in its `block_timer`. One timer of the
kernel counts down for all hosts, and is set again as long as some host has seconds left.
-/
namespace SessionTimer

open BucketTable SessionRules SessionLimit SessionCounters

/-! ## The handler -/

/-- The walk over one list; `pending` is set by `nk_session_limit_timer_set`. -/
def tickList : List SessionLimitEntry → Bool → List SessionLimitEntry × Bool
  | [], pending => ([], pending)
  | p :: ps, pending =>
    if 0 < p.blockTimer then
      let p := { p with blockTimer := p.blockTimer - 1 }
      let r := tickList ps (if 0 < p.blockTimer then true else pending)
      (p :: r.1, r.2)
    else
      let r := tickList ps pending
      (p :: r.1, r.2)

def tickBucket (s : State) (i : Fin 128) : State :=
  let r := tickList (s.nkSessionLimit i) s.timerPending
  { s with nkSessionLimit := Function.update s.nkSessionLimit i r.1, timerPending := r.2 }

/-- `session_limit_timer`, called by a timer that is pending and then is not any more. -/
def fire (s : State) : State :=
  if s.timerPending then (List.finRange 128).foldl tickBucket { s with timerPending := false }
  else s

def left (e : SessionLimitEntry) : Bool := 0 < (tickEntry e).blockTimer

theorem tickList_eq (l : List SessionLimitEntry) (pending : Bool) :
    tickList l pending = (l.map tickEntry, pending || l.any left) := by
  induction l generalizing pending with
  | nil => simp [tickList]
  | cons p ps ih =>
    simp only [tickList, ih, List.map_cons, List.any_cons]
    by_cases hp : 0 < p.blockTimer
    · have htick : tickEntry p = { p with blockTimer := p.blockTimer - 1 } := if_pos hp
      rw [if_pos hp, left, htick]
      by_cases hleft : 0 < p.blockTimer - 1
      · simp [hleft]
      · simp [hleft]
    · have htick : tickEntry p = p := if_neg hp
      rw [if_neg hp, left, htick]
      simp [hp]

theorem tickBucket_eq (s : State) (i : Fin 128) : tickBucket s i = { s with
    nkSessionLimit := Function.update s.nkSessionLimit i ((s.nkSessionLimit i).map tickEntry)
    timerPending := s.timerPending || (s.nkSessionLimit i).any left } := by
  rw [tickBucket, tickList_eq]

theorem foldl_tickBucket (is : List (Fin 128)) (his : is.Nodup) (s : State) :
    is.foldl tickBucket s = { s with
      nkSessionLimit := fun i =>
        if i ∈ is then (s.nkSessionLimit i).map tickEntry else s.nkSessionLimit i
      timerPending := s.timerPending || is.any fun i => (s.nkSessionLimit i).any left } := by
  induction is generalizing s with
  | nil => simp
  | cons i is ih =>
    obtain ⟨hi, his⟩ := List.nodup_cons.mp his
    let t := Function.update s.nkSessionLimit i ((s.nkSessionLimit i).map tickEntry)
    have hother : ∀ j ∈ is, t j = s.nkSessionLimit j := by
      intro j hj
      have hne : j ≠ i := fun heq => hi (heq ▸ hj)
      exact Function.update_of_ne hne ..
    have htable : (fun j => if j ∈ is then (t j).map tickEntry else t j) =
        fun j => if j ∈ i :: is then (s.nkSessionLimit j).map tickEntry
          else s.nkSessionLimit j := by
      funext j
      rcases eq_or_ne j i with rfl | hne
      · rw [if_neg hi, if_pos (by simp)]
        exact Function.update_self ..
      · have htj : t j = s.nkSessionLimit j := Function.update_of_ne hne ..
        simp [htj, hne]
    have hany : (is.any fun j => (t j).any left) =
        is.any fun j => (s.nkSessionLimit j).any left := by
      rw [Bool.eq_iff_iff, List.any_eq_true, List.any_eq_true]
      apply exists_congr
      exact fun j => and_congr_right fun hj => by rw [hother j hj]
    rw [List.foldl_cons, ih his, tickBucket_eq]
    simp only [t] at htable hany
    simp only [htable, hany, List.any_cons, Bool.or_assoc]

theorem fire_eq (s : State) : fire s = sessionLimitTimer s := by
  rw [fire, sessionLimitTimer]
  split
  · rw [foldl_tickBucket _ (List.nodup_finRange 128)]
    have hany : ((List.finRange 128).any fun i => (s.nkSessionLimit i).any left) =
        decide (∃ i, ∃ e ∈ (s.nkSessionLimit i).map tickEntry, 0 < e.blockTimer) := by
      rw [Bool.eq_iff_iff]
      simp [List.any_eq_true, left]
    simp only [List.mem_finRange, if_true, Bool.false_or, hany]
  · rfl

/-! ## What an event does to the timers -/

def timer (s : State) (ip : UInt32) : Option UInt32 := (s.entry ip).map (·.blockTimer)

def Unblocked (t : Option UInt32) : Prop := t = none ∨ t = some 0

/-- No host is blocked, or the timer is pending. -/
def Armed (s : State) : Prop := s.timerPending = true ∨ ∀ ip, Unblocked (timer s ip)

/-- Blocks may end but none begins. -/
structure Quiet (s t : State) : Prop where
  wellFormed : layout.WellFormed t.nkSessionLimit
  pending : t.timerPending = s.timerPending
  timer : ∀ ip, Unblocked (timer t ip) ∨ timer t ip = timer s ip

/-- Only a host that is not blocked can get a block, and then the timer is pending. -/
structure Settles (s t : State) : Prop where
  wellFormed : layout.WellFormed t.nkSessionLimit
  armed : Armed s → Armed t
  timer : ∀ ip, Unblocked (timer t ip) ∨ timer t ip = timer s ip ∨ Unblocked (timer s ip)

section Steps

variable {s t u : State}

theorem Quiet.trans (h : Quiet s t) (k : Quiet t u) : Quiet s u where
  wellFormed := k.wellFormed
  pending := k.pending.trans h.pending
  timer ip := by
    rcases k.timer ip with hu | hu
    · exact .inl hu
    · rw [hu]
      exact h.timer ip

theorem Quiet.settles (h : Quiet s t) : Settles s t where
  wellFormed := h.wellFormed
  armed hs := by
    rcases hs with hs | hs
    · exact .inl (h.pending.trans hs)
    · refine .inr fun ip => ?_
      rcases h.timer ip with ht | ht
      · exact ht
      · rw [ht]
        exact hs ip
  timer ip := by
    rcases h.timer ip with ht | ht
    · exact .inl ht
    · exact .inr (.inl ht)

theorem Settles.quiet (h : Settles s t) (k : Quiet t u) : Settles s u where
  wellFormed := k.wellFormed
  armed hs := k.settles.armed (h.armed hs)
  timer ip := by
    rcases k.timer ip with hu | hu
    · exact .inl hu
    · rw [hu]
      exact h.timer ip

theorem quiet_of_eq (hs : layout.WellFormed s.nkSessionLimit)
    (htable : t.nkSessionLimit = s.nkSessionLimit) (hpending : t.timerPending = s.timerPending) :
    Quiet s t where
  wellFormed := htable ▸ hs
  pending := hpending
  timer ip := by
    right
    rw [timer, timer, State.entry, State.entry, htable]

theorem quiet_refl (hs : layout.WellFormed s.nkSessionLimit) : Quiet s s := quiet_of_eq hs rfl rfl

theorem settles_of_eq (hs : layout.WellFormed s.nkSessionLimit)
    (htable : t.nkSessionLimit = s.nkSessionLimit) (hpending : t.timerPending = s.timerPending) :
    Settles s t :=
  (quiet_of_eq hs htable hpending).settles

theorem quiet_modifyEntry (hs : layout.WellFormed s.nkSessionLimit) (ip : UInt32)
    (q : SessionLimitEntry → Bool) {f : SessionLimitEntry → SessionLimitEntry}
    (hf : ∀ e, (f e).ip = e.ip) (htimer : ∀ e, (f e).blockTimer = e.blockTimer) :
    Quiet s (s.modifyEntry ip q f) where
  wellFormed := wellFormed_modifyEntry hs ip hf
  pending := rfl
  timer ip' := by
    right
    rw [timer, timer, entry_modifyEntry hs ip hf]
    split
    · next heq =>
      rw [heq, Option.map_map]
      congr 1
      funext e
      simp only [Function.comp_apply]
      split
      · exact htimer e
      · rfl
    · rfl

theorem quiet_clearTable (s : State) : Quiet s s.clearTable where
  wellFormed := Layout.wellFormed_empty layout
  pending := rfl
  timer _ := .inl (.inl rfl)

theorem quiet_makeRoom (hs : layout.WellFormed s.nkSessionLimit) : Quiet s s.makeRoom := by
  rw [State.makeRoom]
  split
  · exact quiet_clearTable s
  · exact quiet_refl hs

theorem quiet_addEntry (hs : layout.WellFormed s.nkSessionLimit) {ip : UInt32}
    (hnone : s.entry ip = none) : Quiet s (s.addEntry ip) where
  wellFormed := Layout.wellFormed_insert hs hnone
  pending := rfl
  timer ip' := by
    rw [timer, timer, entry_addEntry]
    split
    · exact .inl (.inr rfl)
    · exact .inr rfl

theorem settles_block (hs : layout.WellFormed s.nkSessionLimit) {p : SessionLimitEntry}
    (hp : s.entry p.ip = some p) (hzero : ¬ 0 < p.blockTimer)
    {f : SessionLimitEntry → SessionLimitEntry} (hf : ∀ e, (f e).ip = e.ip) :
    Settles s { s.modifyEntry p.ip (fun _ => true) f with timerPending := true } where
  wellFormed := wellFormed_modifyEntry hs p.ip hf
  armed _ := .inl rfl
  timer ip := by
    rcases eq_or_ne ip p.ip with rfl | hne
    · refine .inr (.inr (.inr ?_))
      have hnone : p.blockTimer = 0 := not_not.mp (mt UInt32.pos_iff_ne_zero.mpr hzero)
      rw [timer, hp, Option.map_some, hnone]
    · refine .inr (.inl ?_)
      change timer (s.modifyEntry p.ip (fun _ => true) f) ip = timer s ip
      rw [timer, timer, entry_modifyEntry hs p.ip hf, if_neg hne]

theorem settles_limitSwitch (hs : layout.WellFormed s.nkSessionLimit) {p : SessionLimitEntry}
    (hp : s.entry p.ip = some p) (protocol : ℤ) : Settles s (limitSwitch p protocol s).1 := by
  have hrefl := (quiet_refl hs).settles
  simp only [limitSwitch]
  split
  · split <;> exact hrefl
  split
  · split
    · exact hrefl
    · next hzero =>
      split
      · exact settles_block hs hp hzero fun _ => rfl
      · exact hrefl
  split
  · split
    · exact (quiet_modifyEntry hs p.ip _ (f := clearSessionCnt) (fun _ => rfl) fun _ => rfl).settles
    · next hzero =>
      split
      · exact settles_block hs hp hzero fun _ => rfl
      · exact hrefl
  repeat' split
  all_goals exact hrefl

theorem settles_limitEntry (hs : layout.WellFormed s.nkSessionLimit) {p : SessionLimitEntry}
    (hp : s.entry p.ip = some p) (port protocol : ℤ) :
    Settles s (limitEntry p port protocol s).1 := by
  have hrefl := (quiet_refl hs).settles
  simp only [limitEntry]
  split
  · exact hrefl
  split
  · exact hrefl
  · exact settles_limitSwitch hs hp protocol

theorem limitEntry_newEntry (ip : UInt32) (port protocol : ℤ) (s : State) :
    (limitEntry (newEntry ip) port protocol s).1 = s := by
  simp [limitEntry, limitSwitch, newEntry, apply_ite Prod.fst]

theorem settles_checking (hs : layout.WellFormed s.nkSessionLimit) (ip : UInt32)
    (port protocol : ℤ) (alloc : Bool) :
    Settles s (nkSessionLimitEnhanceChecking ip port protocol alloc s).1 := by
  have hrefl := (quiet_refl hs).settles
  rw [nkSessionLimitEnhanceChecking]
  split
  · exact hrefl
  split
  · exact hrefl
  split
  · next p hp =>
    have hip := entry_ip hp
    exact settles_limitEntry hs (hip.symm ▸ hp) port protocol
  · next hnone =>
    have hroom := quiet_makeRoom hs
    split
    · rw [limitEntry_newEntry]
      exact (hroom.trans (quiet_addEntry hroom.wellFormed (entry_makeRoom_none hnone))).settles
    · exact hroom.settles

theorem settles_checkPacket (hs : layout.WellFormed s.nkSessionLimit) (a : Attempt) :
    Settles s (checkPacket a s).1 := by
  rw [checkPacket]
  split
  · exact settles_checking hs _ _ _ _
  · exact (quiet_refl hs).settles

theorem quiet_ipConntrackFree (hs : layout.WellFormed s.nkSessionLimit) (ct : Conntrack) :
    Quiet s (ipConntrackFree ct s) := by
  rw [ipConntrackFree]
  split
  · exact quiet_modifyEntry hs ct.srcIp _ (f := countDown ct.protonum) (fun _ => rfl) fun _ => rfl
  · exact quiet_refl hs

theorem quiet_free (hs : layout.WellFormed s.nkSessionLimit) (i : ℕ) : Quiet s (s.free i) := by
  cases hi : s.live[i]? with
  | none => simpa only [State.free, hi] using quiet_refl hs
  | some ct =>
    have hfree := quiet_ipConntrackFree hs ct
    rw [free_eq hi]
    exact hfree.trans (quiet_of_eq hfree.wellFormed rfl rfl)

theorem quiet_earlyDrop (hs : layout.WellFormed s.nkSessionLimit) {a : Attempt}
    (ht : earlyDrop a s = some t) : Quiet s t := by
  rcases earlyDrop_cases ht with rfl | ⟨i, rfl⟩
  · exact quiet_refl hs
  · exact quiet_free hs i

theorem quiet_countPacket (hs : layout.WellFormed s.nkSessionLimit) (p : Packet)
    (ct : Conntrack) : Quiet s (countPacket p ct s) := by
  rw [countPacket]
  split
  · have hcount : Quiet s (s.modifyEntry p.saddr (fun _ => true) (countUp p.protocol)) :=
      quiet_modifyEntry hs p.saddr _ (fun _ => rfl) fun _ => rfl
    exact hcount.trans (quiet_of_eq hcount.wellFormed rfl rfl)
  · exact quiet_of_eq hs rfl rfl

theorem settles_initConntrack (hs : layout.WellFormed s.nkSessionLimit) (a : Attempt) :
    Settles s (initConntrack a s).1 := by
  have hcheck := settles_checkPacket hs a
  rw [initConntrack]
  dsimp only
  split
  · exact hcheck
  split
  · exact hcheck
  · next u hu =>
    have hdrop := quiet_earlyDrop hcheck.wellFormed hu
    split
    · exact hcheck.quiet hdrop
    split
    · exact hcheck.quiet (hdrop.trans (quiet_ipConntrackFree hdrop.wellFormed _))
    · exact hcheck.quiet (hdrop.trans (quiet_countPacket hdrop.wellFormed _ _))

theorem settles_setup (hs : layout.WellFormed s.nkSessionLimit) (wanUp : Bool)
    (c : SessionLimitSetting) : Settles s (sessionLimitSetup wanUp c s) := by
  rw [sessionLimitSetup]
  split
  · exact settles_of_eq hs rfl rfl
  dsimp only
  by_cases hstatus : c.sessionLimitStatus = 1 ∨ c.sessionLimitStatus = 4
  · have hzero : c.sessionLimitStatus ≠ 0 := by
      intro h
      rw [h] at hstatus
      exact absurd hstatus (by decide)
    rw [if_pos hstatus, if_neg hzero]
    have hall : ∀ ip, Unblocked ((layout.lookup
        (fun i => (s.nkSessionLimit i).map (setBlockTimer 0)) ip).map (·.blockTimer)) := by
      intro ip
      rw [Layout.lookup_map (f := setBlockTimer 0) (fun _ => rfl), Option.map_map]
      cases layout.lookup s.nkSessionLimit ip with
      | none => exact .inl rfl
      | some e => exact .inr rfl
    exact ⟨Layout.wellFormed_map hs fun _ => rfl, fun _ => .inr hall, fun ip => .inl (hall ip)⟩
  · rw [if_neg hstatus]
    split
    · have hset : Quiet s { s with setting := c } := quiet_of_eq hs rfl rfl
      exact (hset.trans (quiet_clearTable _)).settles
    · exact settles_of_eq hs rfl rfl

/-! ## A firing -/

def tick (v : UInt32) : UInt32 := if 0 < v then v - 1 else v

theorem blockTimer_tickEntry (e : SessionLimitEntry) :
    (tickEntry e).blockTimer = tick e.blockTimer := by
  rw [tickEntry, tick]
  split
  · rfl
  · rfl

theorem timer_map_tickEntry (s : State) (ip : UInt32) :
    (layout.lookup (fun i => (s.nkSessionLimit i).map tickEntry) ip).map (·.blockTimer) =
      (timer s ip).map tick := by
  have hkey : ∀ e, (tickEntry e).ip = e.ip := by
    intro e
    rw [tickEntry]
    split
    · rfl
    · rfl
  rw [Layout.lookup_map hkey, timer, State.entry, Option.map_map, Option.map_map]
  congr 1
  funext e
  exact blockTimer_tickEntry e

theorem wellFormed_timer (hs : layout.WellFormed s.nkSessionLimit) :
    layout.WellFormed (sessionLimitTimer s).nkSessionLimit := by
  rw [sessionLimitTimer]
  split
  · apply Layout.wellFormed_map hs
    intro e
    rw [tickEntry]
    split
    · rfl
    · rfl
  · exact hs

theorem timer_sessionLimitTimer (h : Armed s) (ip : UInt32) :
    timer (sessionLimitTimer s) ip = (timer s ip).map tick := by
  rw [sessionLimitTimer]
  split
  · exact timer_map_tickEntry s ip
  · next hpending =>
    rcases h.resolve_left hpending ip with hnone | hzero
    · rw [hnone]
      rfl
    · rw [hzero]
      rfl

theorem armed_sessionLimitTimer (h : Armed s) : Armed (sessionLimitTimer s) := by
  by_cases hpending : s.timerPending = true
  · rw [sessionLimitTimer, if_pos hpending, Armed, decide_eq_true_eq]
    by_cases hleft : ∃ i, ∃ e ∈ (s.nkSessionLimit i).map tickEntry, 0 < e.blockTimer
    · exact .inl hleft
    · refine .inr fun ip => ?_
      rw [timer]
      cases he : layout.lookup (fun i => (s.nkSessionLimit i).map tickEntry) ip with
      | none =>
        left
        exact congrArg _ he
      | some e =>
        right
        have hzero : ¬ 0 < e.blockTimer := fun hpos =>
          hleft ⟨_, e, List.mem_of_find?_eq_some he, hpos⟩
        have heq : e.blockTimer = 0 := not_not.mp (mt UInt32.pos_iff_ne_zero.mpr hzero)
        exact (congrArg _ he).trans (congrArg some heq)
  · rw [sessionLimitTimer, if_neg hpending]
    exact h

end Steps

/-! ## Runs -/

/-- The checks of the limit, and the events of the session limit: connections, the settings and
firings of the timer. -/
inductive Call where
  | checking (ip : UInt32) (port protocol : ℤ) (alloc : Bool)
  | event (e : Event)

def exec (s : State) : Call → State
  | .checking ip port protocol alloc => (nkSessionLimitEnhanceChecking ip port protocol alloc s).1
  | .event e => next s e

def isFiring : Call → Bool
  | .event .timer => true
  | _ => false

structure Kept (s : State) : Prop where
  wellFormed : layout.WellFormed s.nkSessionLimit
  armed : Armed s

section Runs

variable {s : State}

theorem settles_exec (hs : layout.WellFormed s.nkSessionLimit) {c : Call}
    (hc : isFiring c = false) : Settles s (exec s c) := by
  cases c with
  | checking ip port protocol alloc => exact settles_checking hs ip port protocol alloc
  | event e =>
    cases e with
    | create a => exact settles_initConntrack hs a
    | free i => exact (quiet_free hs i).settles
    | setup wanUp setting => exact settles_setup hs wanUp setting
    | timer => cases hc
    | enhanceInit => exact settles_of_eq hs rfl rfl
    | enhance x => exact settles_of_eq hs rfl rfl

theorem exec_of_firing {c : Call} (hc : isFiring c = true) : exec s c = sessionLimitTimer s := by
  cases c with
  | checking ip port protocol alloc => cases hc
  | event e =>
    cases e with
    | timer => rfl
    | _ => cases hc

theorem kept_exec (h : Kept s) (c : Call) : Kept (exec s c) := by
  cases hc : isFiring c with
  | false =>
    have hsettles := settles_exec h.wellFormed hc
    exact ⟨hsettles.wellFormed, hsettles.armed h.armed⟩
  | true =>
    rw [exec_of_firing hc]
    exact ⟨wellFormed_timer h.wellFormed, armed_sessionLimitTimer h.armed⟩

/-- A block of `v` seconds ends before the timer has fired more than `v` times. -/
theorem block_ends {ip v : UInt32} (calls : List Call) (h : Kept s) (hv : timer s ip = some v)
    (hfirings : v.toNat ≤ calls.countP isFiring) :
    ∃ pre, pre <+: calls ∧ Unblocked (timer (pre.foldl exec s) ip) := by
  induction calls generalizing s v with
  | nil =>
    have hzero : v = 0 := UInt32.toNat_inj.mp (Nat.le_zero.mp hfirings)
    exact ⟨[], List.prefix_refl _, .inr (hzero ▸ hv)⟩
  | cons c calls ih =>
    by_cases hzero : v = 0
    · exact ⟨[], List.nil_prefix, .inr (hzero ▸ hv)⟩
    have hnext : ∀ w, timer (exec s c) ip = some w → w.toNat ≤ calls.countP isFiring →
        ∃ pre, pre <+: c :: calls ∧ Unblocked (timer (pre.foldl exec s) ip) := by
      intro w hw hle
      obtain ⟨pre, hpre, hend⟩ := ih (kept_exec h c) hw hle
      exact ⟨c :: pre, List.cons_prefix_cons.mpr ⟨rfl, hpre⟩, hend⟩
    cases hc : isFiring c with
    | false =>
      rw [List.countP_cons_of_neg (by simp [hc])] at hfirings
      rcases (settles_exec h.wellFormed hc).timer ip with hend | hsame | hfree
      · exact ⟨[c], List.cons_prefix_cons.mpr ⟨rfl, List.nil_prefix⟩, hend⟩
      · exact hnext v (hsame.trans hv) hfirings
      · exact ⟨[], List.nil_prefix, hfree⟩
    | true =>
      rw [List.countP_cons_of_pos hc] at hfirings
      have hpos : 0 < v := UInt32.pos_iff_ne_zero.mpr hzero
      have htick : timer (exec s c) ip = some (v - 1) := by
        rw [exec_of_firing hc, timer_sessionLimitTimer h.armed, hv, Option.map_some, tick,
          if_pos hpos]
      apply hnext (v - 1) htick
      have hone : 1 ≤ v := UInt32.le_iff_toNat_le.mpr (UInt32.lt_iff_toNat_lt.mp hpos)
      rw [UInt32.toNat_sub_of_le _ _ hone]
      exact Nat.sub_le_of_le_add hfirings

theorem kept_fresh (lanip : UInt32) (max : { m : ℕ // 0 < m ∧ m < 2 ^ 31 })
    (setting : SessionLimitSetting) : Kept (fresh lanip max setting) :=
  ⟨Layout.wellFormed_empty layout, .inr fun _ => .inl rfl⟩

/-- After every run: while a host is blocked the timer is pending; the next firing takes one second
from every block and leaves the rest of the table alone; and a block ends, for good or by a new
entry, before the timer has fired more often than it has seconds. -/
theorem block_timer_keeps_running (lanip : UInt32) (max : { m : ℕ // 0 < m ∧ m < 2 ^ 31 })
    (setting : SessionLimitSetting) (calls : List Call) :
    let s := calls.foldl exec (fresh lanip max setting)
    (∀ i, ∀ e ∈ s.nkSessionLimit i, 0 < e.blockTimer → s.timerPending = true) ∧
      (s.timerPending = true → ∀ i, (fire s).nkSessionLimit i = (s.nkSessionLimit i).map fun e =>
        if 0 < e.blockTimer then { e with blockTimer := e.blockTimer - 1 } else e) ∧
      ∀ i, ∀ e ∈ s.nkSessionLimit i, ∀ more : List Call,
        e.blockTimer.toNat ≤ more.countP isFiring →
          ∃ pre, pre <+: more ∧ Unblocked (timer (pre.foldl exec s) e.ip) := by
  intro s
  have hkept : Kept s := GuardedRun.foldl_invariant (fun _ c h => kept_exec h c)
    (kept_fresh lanip max setting)
  have hentry : ∀ i, ∀ e ∈ s.nkSessionLimit i, timer s e.ip = some e.blockTimer := by
    intro i e he
    have hlookup : s.entry e.ip = some e := Layout.lookup_of_mem hkept.wellFormed he
    rw [timer, hlookup, Option.map_some]
  refine ⟨fun i e he hpos => ?_, fun hpending i => ?_, fun i e he more hmore => ?_⟩
  · apply hkept.armed.resolve_right
    intro hall
    have hfree := hall e.ip
    rw [hentry i e he, Unblocked] at hfree
    simp [UInt32.pos_iff_ne_zero.mp hpos] at hfree
  · rw [fire_eq, sessionLimitTimer, if_pos hpending]
    rfl
  · exact block_ends more hkept (hentry i e he) hmore

end Runs

/-- The host opens two connections where one is allowed, and asks for a third. -/
def thirdConnection : List Call :=
  let a : Attempt := ⟨⟨true, 0xc0a80164, 0x08080808, 80, 6⟩, true, .nothing, true, true⟩
  [.event (.create a), .event (.create a), .checking 0xc0a80164 80 6 true]

/-- The host is blocked for a minute. -/
theorem block_timer_keeps_running_third :
    (thirdConnection.foldl exec
      (fresh 0xc0a80101 ⟨4096, by decide⟩ ⟨2, 0, 1, 0, 0, 1, 0⟩)).timerPending = true :=
  (block_timer_keeps_running 0xc0a80101 ⟨4096, by decide⟩ ⟨2, 0, 1, 0, 0, 1, 0⟩
    thirdConnection).1 100 ⟨0xc0a80164, 2, 2, 0, 60⟩ (by decide) (by decide)

end SessionTimer
