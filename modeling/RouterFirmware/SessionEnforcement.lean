import RouterFirmware.SessionCounters

/-! # Enforcement of the session limit

Mode 1 limits all counted connections of a host and refuses when the counter is above the
limit; mode 4 limits the TCP ones and refuses when the counter has reached it.
-/
namespace SessionEnforcement

open BucketTable SessionRules SessionLimit SessionCounters

/-- The limit of mode 1 or of mode 4. -/
def limit (c : SessionLimitSetting) : UInt32 :=
  if c.sessionLimitStatus = 1 then c.sessionLimitMaxSession1 else c.maxTcp

def limited (c : SessionLimitSetting) (ip : UInt32) (ct : Conntrack) : Bool :=
  if c.sessionLimitStatus = 1 then counted ip ct else countedBy ipprotoTcp ip ct

def tally (s : State) (ip : UInt32) : ℕ := s.live.countP (limited s.setting ip)

/-- The attempts the mode limits: all of them, or those of TCP. -/
def Limited (s : State) (a : Attempt) : Prop :=
  s.setting.sessionLimitStatus = 1 ∨ a.packet.protocol = ipprotoTcp

theorem tally_eq (s : State) (ip : UInt32) : tally s ip =
    if s.setting.sessionLimitStatus = 1 then liveCounted s ip
    else liveCountedBy ipprotoTcp s ip := by
  unfold tally limited
  split <;> rfl

/-! ## What the check says -/

theorem ruleCheck_init (ip : UInt32) (port protocol cnt : ℤ) :
    sessionLimitEnhanceRuleCheck sessionLimitEnhanceInit ip port protocol cnt = 0 ∨
      sessionLimitEnhanceRuleCheck sessionLimitEnhanceInit ip port protocol cnt = 2 := by
  simp only [sessionLimitEnhanceRuleCheck, sessionLimitEnhanceInit, List.any_nil, List.find?_nil]
  split
  · exact Or.inr rfl
  · split
    · exact Or.inr rfl
    · exact Or.inl rfl

theorem ruleCheck_init_cnt (ip : UInt32) (port protocol cnt cnt' : ℤ) :
    sessionLimitEnhanceRuleCheck sessionLimitEnhanceInit ip port protocol cnt =
      sessionLimitEnhanceRuleCheck sessionLimitEnhanceInit ip port protocol cnt' := rfl

/-- Without rules a packet is exempt by its port alone. -/
def Exempt (p : Packet) : Prop :=
  sessionLimitEnhanceRuleCheck sessionLimitEnhanceInit p.saddr p.dport p.protocol 0 = 2

/-- The mode stops a host that has `n` connections: above the limit in mode 1, at the limit
in mode 4. -/
def StopsAt (c : SessionLimitSetting) (n : ℕ) : Prop :=
  if c.sessionLimitStatus = 1 then c.sessionLimitMaxSession1.toNat < n else c.maxTcp.toNat ≤ n

theorem limit_le_of_stopsAt {c : SessionLimitSetting} {n : ℕ} (h : StopsAt c n) :
    (limit c).toNat ≤ n := by
  unfold StopsAt at h
  unfold limit
  split at h
  · next h1 =>
    rw [if_pos h1]
    omega
  · next h1 => rwa [if_neg h1]

section Check

variable {s : State} {a : Attempt}

def counter (c : SessionLimitSetting) (e : SessionLimitEntry) : ℕ :=
  if c.sessionLimitStatus = 1 then e.sessionCnt.toNat else e.tcpSessionCnt.toNat

theorem limitSwitch_result {p : SessionLimitEntry}
    (hmode : s.setting.sessionLimitStatus = 1 ∨ s.setting.sessionLimitStatus = 4)
    (hlimit : 0 < limit s.setting) (hlim : Limited s a) :
    (limitSwitch p a.packet.protocol s).2 = -1 ↔ StopsAt s.setting (counter s.setting p) := by
  by_cases h1 : s.setting.sessionLimitStatus = 1
  · rw [limit, if_pos h1] at hlimit
    simp only [limitSwitch, StopsAt, counter, if_pos h1, ← UInt32.lt_iff_toNat_lt]
    split
    · next hs => simp [hs.2]
    · next hs =>
      apply iff_of_false (by simp)
      intro hlt
      exact hs ⟨hlimit, hlt⟩
  · have h4 := hmode.resolve_left h1
    have htcp : a.packet.protocol = ipprotoTcp := hlim.resolve_left h1
    have h2 : s.setting.sessionLimitStatus ≠ 2 := by rw [h4]; decide
    have h3 : s.setting.sessionLimitStatus ≠ 3 := by rw [h4]; decide
    rw [limit, if_neg h1] at hlimit
    simp only [limitSwitch, StopsAt, counter, if_neg h1, if_neg h2, if_neg h3, if_pos h4,
      ← UInt32.le_iff_toNat_le]
    split
    · next hs => simp [hs.2.2]
    · next hs =>
      have hudp : ¬ (a.packet.protocol = ipprotoUdp ∧ 0 < s.setting.maxUdp ∧
          s.setting.maxUdp ≤ p.udpSessionCnt) := by
        rw [htcp]
        exact fun h => absurd h.1 (by decide)
      rw [if_neg hudp]
      apply iff_of_false (by simp)
      intro hle
      exact hs ⟨htcp, hlimit, hle⟩

theorem limitEntry_result {p : SessionLimitEntry} (hp : p.ip = a.packet.saddr)
    (hrules : s.rules = sessionLimitEnhanceInit)
    (hmode : s.setting.sessionLimitStatus = 1 ∨ s.setting.sessionLimitStatus = 4)
    (hlimit : 0 < limit s.setting) (hlim : Limited s a) :
    (limitEntry p a.packet.dport a.packet.protocol s).2 = -1 ↔
      ¬ Exempt a.packet ∧ StopsAt s.setting (counter s.setting p) := by
  rw [← limitSwitch_result hmode hlimit hlim, Exempt, hp.symm,
    ruleCheck_init_cnt _ _ _ 0 p.sessionCnt.toBitVec.toInt]
  simp only [limitEntry, hrules]
  rcases ruleCheck_init p.ip a.packet.dport a.packet.protocol p.sessionCnt.toBitVec.toInt
    with h0 | h2
  · simp [h0]
  · simp [h2]

theorem counter_eq_tally (h : Accounted s) {ip : UInt32} {e : SessionLimitEntry}
    (he : s.entry ip = some e) : counter s.setting e = tally s ip := by
  have hexact := h.exact ip e he
  rw [tally_eq]
  unfold counter
  split
  · exact hexact.session
  · exact hexact.tcp

theorem tally_of_no_entry (h : Accounted s) {ip : UInt32} (he : s.entry ip = none) :
    tally s ip = 0 := by
  have hzero := liveCounted_of_entry_none h he
  have hle := liveCountedBy_le ipprotoTcp s ip
  rw [tally_eq]
  split
  · exact hzero
  · omega

theorem consults_of_limited (hlim : Limited s a) (hc : Checked a.packet s) : Consults s a := by
  refine ⟨hc, ?_⟩
  rintro ⟨h4, htcp, -⟩
  rcases hlim with h1 | h
  · rw [h4] at h1
    exact absurd h1 (by decide)
  · exact htcp h

/-- The check refuses exactly the checked packets whose host the mode stops. -/
theorem checkPacket_result (h : Accounted s) (hrules : s.rules = sessionLimitEnhanceInit)
    (hmode : s.setting.sessionLimitStatus = 1 ∨ s.setting.sessionLimitStatus = 4)
    (hlimit : 0 < limit s.setting) (hlim : Limited s a)
    (halloc : Consults s a → s.entry a.packet.saddr = none → a.entryAlloc = true) :
    (checkPacket a s).2 = -1 ↔ Checked a.packet s ∧ ¬ Exempt a.packet ∧
      StopsAt s.setting (tally s a.packet.saddr) := by
  by_cases hc : Checked a.packet s
  · have hcon := consults_of_limited hlim hc
    simp only [checkPacket, nkSessionLimitEnhanceChecking, if_pos hc, if_neg hc.2.2.1,
      if_neg hcon.2]
    cases he : s.entry a.packet.saddr with
    | some p =>
      simp only [hc, true_and]
      rw [limitEntry_result (entry_ip he) hrules hmode hlimit hlim, counter_eq_tally h he]
    | none =>
      have hbase := sameBase_makeRoom s
      have hset : (s.makeRoom.addEntry a.packet.saddr).setting = s.setting := hbase.setting
      have hzero : counter s.setting (newEntry a.packet.saddr) = 0 := by
        unfold counter
        split <;> rfl
      have hnew := @limitEntry_result (s.makeRoom.addEntry a.packet.saddr) a
        (newEntry a.packet.saddr) rfl (hbase.rules.trans hrules) (by rwa [hset])
        (by rwa [hset]) (by rwa [Limited, hset])
      rw [hset, hzero] at hnew
      simp only [halloc hcon he, if_true, hc, true_and, tally_of_no_entry h he]
      exact hnew
  · simp [checkPacket, hc]

end Check

/-! ## The live connections -/

/-- An attempt adds at most one connection, of its own host and protocol; it is counted only
past the check and past the tests of the counting code. -/
theorem initConntrack_live (a : Attempt) {s : State} (h : Accounted (checkPacket a s).1) :
    ∃ l, l.Sublist s.live ∧ ((initConntrack a s).1.live = l ∨
      ∃ ct : Conntrack, (initConntrack a s).1.live = ct :: l ∧ ct.srcIp = a.packet.saddr ∧
        ct.protonum = a.packet.protocol ∧ (checkPacket a s).2 ≠ -1 ∧
        (ct.slimit2 = true → a.packet.daddr ≠ s.lanip ∧ s.setting.sessionLimitStatus ≠ 0 ∧
          sessionLimitEnhanceRuleCheck s.rules a.packet.saddr a.packet.dport
            a.packet.protocol 0 ≠ 2 ∧ a.packet.saddr ≠ 0)) := by
  have hbase := sameBase_checkPacket a s
  simp only [initConntrack]
  split
  · exact ⟨s.live, List.Sublist.refl _, Or.inl hbase.live⟩
  · next hpass =>
    split
    · exact ⟨s.live, List.Sublist.refl _, Or.inl hbase.live⟩
    · next s' hd =>
      have hsub : s'.live.Sublist s.live := by
        rw [← hbase.live]
        rcases earlyDrop_cases hd with rfl | ⟨i, rfl⟩
        · exact List.Sublist.refl _
        · rw [live_free]
          exact List.eraseIdx_sublist _ _
      have hconfig := hbase.toSameConfig.trans (sameConfig_earlyDrop hd)
      have hdrop := accounted_earlyDrop h hd
      refine ⟨s'.live, hsub, ?_⟩
      split
      · exact Or.inl rfl
      · split
        · rw [ipConntrackFree_of_uncounted rfl]
          exact Or.inl rfl
        · apply Or.inr
          unfold countPacket
          split
          · next hc =>
            refine ⟨_, rfl, rfl, rfl, hpass, ?_⟩
            intro _
            rw [hconfig.lanip, hconfig.setting, hconfig.rules] at hc
            exact ⟨hc.1, hc.2.1, hc.2.2.1, ne_zero_of_entry hdrop hc.2.2.2⟩
          · exact ⟨_, rfl, rfl, rfl, hpass, fun hm => absurd hm (by simp [ipConntrackAlloc])⟩

/-! ## Runs of LAN hosts -/

/-- Attempts of LAN hosts, deaths of connections and the passing of time. -/
def LanTraffic : Event → Prop
  | .create a => a.packet.fromLan = true
  | .free _ => True
  | .timer => True
  | _ => False

theorem traffic_of_lanTraffic {e : Event} (h : LanTraffic e) : Traffic e := by
  cases e with
  | create a => trivial
  | free i => trivial
  | timer => trivial
  | setup wanUp setting => cases h
  | enhanceInit => cases h
  | enhance x => cases h

/-- The attempt finds memory for its host, does not empty a table with live counted
connections in it, and in mode 1 it is not one that will be counted of a host already at the
limit. -/
def BelowLimit (s : State) : Event → Prop
  | .create a => (Consults s a → s.entry a.packet.saddr = none → a.entryAlloc = true) ∧
      (Flushes s a → Idle s) ∧ (s.setting.sessionLimitStatus = 1 → Checked a.packet s →
        ¬ Exempt a.packet → tally s a.packet.saddr < (limit s.setting).toNat)
  | _ => True

structure Enforced (s : State) : Prop where
  accounted : Accounted s
  rules : s.rules = sessionLimitEnhanceInit
  mode : s.setting.sessionLimitStatus = 1 ∨ s.setting.sessionLimitStatus = 4
  limit_pos : 0 < limit s.setting
  bounded : ∀ ip, tally s ip ≤ (limit s.setting).toNat

theorem limited_imp {c : SessionLimitSetting} {ip : UInt32} {ct : Conntrack}
    (h : limited c ip ct = true) : ct.slimit2 = true ∧ ct.srcIp = ip ∧
      (c.sessionLimitStatus = 1 ∨ ct.protonum = ipprotoTcp) := by
  unfold limited at h
  split at h
  · next h1 =>
    simp only [counted, Bool.and_eq_true, beq_iff_eq] at h
    exact ⟨h.1, h.2, Or.inl h1⟩
  · simp only [countedBy, counted, Bool.and_eq_true, beq_iff_eq] at h
    exact ⟨h.1.1, h.1.2, Or.inr h.2⟩

theorem undisturbed_of_belowLimit {s : State} (h : Enforced s) {e : Event}
    (ht : LanTraffic e) (he : BelowLimit s e) : Undisturbed s e := by
  cases e with
  | create a =>
    refine ⟨he.2.1, ?_⟩
    rintro ⟨-, p, -, -, hblocks⟩
    rcases h.mode with h1 | h4
    · rw [hblocks.1] at h1
      exact absurd h1 (by decide)
    · rw [hblocks.1] at h4
      exact absurd h4 (by decide)
  | free i => trivial
  | timer => trivial
  | setup wanUp setting => cases ht
  | enhanceInit => cases ht
  | enhance x => cases ht

/-- A packet that gets counted was checked, and its host was below the limit. -/
theorem tally_of_admitted {s : State} (h : Enforced s) {a : Attempt}
    (hlan : a.packet.fromLan = true) (he : BelowLimit s (.create a)) (hlim : Limited s a)
    (hpass : (checkPacket a s).2 ≠ -1) (hdst : a.packet.daddr ≠ s.lanip)
    (hon : s.setting.sessionLimitStatus ≠ 0) (hrule : sessionLimitEnhanceRuleCheck s.rules
      a.packet.saddr a.packet.dport a.packet.protocol 0 ≠ 2) (hsrc : a.packet.saddr ≠ 0) :
    tally s a.packet.saddr < (limit s.setting).toNat := by
  have hc : Checked a.packet s := ⟨hlan, hdst, hon, UInt32.pos_iff_ne_zero.mpr hsrc⟩
  rw [h.rules] at hrule
  by_cases h1 : s.setting.sessionLimitStatus = 1
  · exact he.2.2 h1 hc hrule
  · have hresult := checkPacket_result h.accounted h.rules h.mode h.limit_pos hlim he.1
    by_contra hge
    refine hpass (hresult.mpr ⟨hc, hrule, ?_⟩)
    rw [StopsAt, if_neg h1]
    rw [limit, if_neg h1] at hge
    omega

theorem tally_initConntrack {s : State} (h : Enforced s) {a : Attempt}
    (hlan : a.packet.fromLan = true) (he : BelowLimit s (.create a)) (ip : UInt32) :
    (initConntrack a s).1.live.countP (limited s.setting ip) ≤ (limit s.setting).toNat := by
  have hund := @undisturbed_of_belowLimit s h (.create a) hlan he
  have hcheck := accounted_checkPacket h.accounted a hund.1 hund.2
  obtain ⟨l, hsub, hlive⟩ := initConntrack_live a hcheck
  have hle : l.countP (limited s.setting ip) ≤ tally s ip := hsub.countP_le
  have hbound := h.bounded ip
  rcases hlive with hlive | ⟨ct, hlive, hsrc, hproto, hpass, hcounted⟩
  · rw [hlive]
    omega
  · rw [hlive, List.countP_cons]
    split
    · next hct =>
      obtain ⟨hm, hip, hlim⟩ := limited_imp hct
      obtain ⟨hdst, hon, hrule, hne⟩ := hcounted hm
      rw [hproto] at hlim
      have hlt := tally_of_admitted h hlan he hlim hpass hdst hon hrule hne
      rw [← hsrc, hip] at hlt
      omega
    · omega

theorem enforced_next {s : State} (h : Enforced s) {e : Event} (ht : LanTraffic e)
    (he : BelowLimit s e) : Enforced (next s e) := by
  have hacc := accounted_next h.accounted (undisturbed_of_belowLimit h ht he)
  have hconfig := @sameConfig_next s e (traffic_of_lanTraffic ht)
  refine ⟨hacc, hconfig.rules.trans h.rules, ?_, ?_, ?_⟩
  · rw [hconfig.setting]
    exact h.mode
  · rw [hconfig.setting]
    exact h.limit_pos
  · intro ip
    rw [tally, hconfig.setting]
    cases e with
    | create a => exact tally_initConntrack h ht he ip
    | free i =>
      rw [next, live_free]
      exact le_trans (List.eraseIdx_sublist _ _).countP_le (h.bounded ip)
    | timer =>
      have hlive : (next s .timer).live = s.live := by
        simp only [next, sessionLimitTimer]
        split <;> rfl
      rw [hlive]
      exact h.bounded ip
    | setup wanUp setting => cases ht
    | enhanceInit => cases ht
    | enhance x => cases ht

theorem enforced_run {s : State} (h : Enforced s) {events : List Event}
    (ht : ∀ e ∈ events, LanTraffic e) (hrun : GuardedRun.Along next BelowLimit s events) :
    Enforced (run s events) := by
  induction events generalizing s with
  | nil => exact h
  | cons e events ih =>
    apply ih (enforced_next h (ht e (by simp)) hrun.1)
    · exact fun e' he' => ht e' (by simp [he'])
    · exact hrun.2

theorem setting_run {s : State} {events : List Event} (ht : ∀ e ∈ events, Traffic e) :
    (run s events).setting = s.setting := by
  induction events generalizing s with
  | nil => rfl
  | cons e events ih =>
    have hrest : ∀ e' ∈ events, Traffic e' := fun e' he' => ht e' (by simp [he'])
    exact (ih hrest).trans (sameConfig_next (ht e (by simp))).setting

theorem limit_is_enforced (lanip : UInt32) (max : { m : ℕ // 0 < m ∧ m < 2 ^ 31 })
    (setting : SessionLimitSetting) (events : List Event)
    (hmode : setting.sessionLimitStatus = 1 ∨ setting.sessionLimitStatus = 4)
    (hlimit : 0 < limit setting) (ht : ∀ e ∈ events, LanTraffic e)
    (hrun : GuardedRun.Along next BelowLimit (fresh lanip max setting) events) :
    let s := run (fresh lanip max setting) events
    (∀ ip, tally s ip ≤ (limit setting).toNat) ∧
      ∀ a, Limited s a →
        (Consults s a → s.entry a.packet.saddr = none → a.entryAlloc = true) →
        (initConntrack a s).2 = .refused → (limit setting).toNat ≤ tally s a.packet.saddr := by
  intro s
  have hsetting : s.setting = setting :=
    setting_run fun e he => traffic_of_lanTraffic (ht e he)
  have hstart : Enforced (fresh lanip max setting) := by
    refine ⟨accounted_fresh lanip max setting, rfl, hmode, hlimit, ?_⟩
    exact fun ip => Nat.zero_le _
  have h : Enforced s := enforced_run hstart ht hrun
  rw [← hsetting]
  refine ⟨h.bounded, ?_⟩
  intro a hlim ha hrefused
  have hresult := checkPacket_result h.accounted h.rules h.mode h.limit_pos hlim ha
  apply limit_le_of_stopsAt
  by_cases hneg : (checkPacket a s).2 = -1
  · exact (hresult.mp hneg).2.2
  · -- Past the check an attempt fails or succeeds, it is not refused.
    exfalso
    simp only [initConntrack, if_neg hneg] at hrefused
    split at hrefused
    · cases hrefused
    · split at hrefused
      · cases hrefused
      · split at hrefused <;> cases hrefused

/-- Mode 4 with one TCP connection for each host. -/
theorem limit_is_enforced_mode_four :
    let setting : SessionLimitSetting := ⟨4, 0, 0, 1, 0, 0, 0⟩
    let events := [Event.create (lanAttempt 0xc0a8010a 80 ipprotoTcp),
      .create (lanAttempt 0xc0a8010a 443 ipprotoTcp)]
    GuardedRun.Along next BelowLimit (fresh 0xc0a80101 ⟨1000, by decide⟩ setting) events ∧
      ∀ ip, tally (run (fresh 0xc0a80101 ⟨1000, by decide⟩ setting) events) ip ≤ 1 := by
  have ht : ∀ e ∈ [Event.create (lanAttempt 0xc0a8010a 80 ipprotoTcp),
      .create (lanAttempt 0xc0a8010a 443 ipprotoTcp)], LanTraffic e := by
    intro e he
    simp only [List.mem_cons, List.not_mem_nil, or_false] at he
    rcases he with rfl | rfl <;> rfl
  have hrun : GuardedRun.Along next BelowLimit
      (fresh 0xc0a80101 ⟨1000, by decide⟩ ⟨4, 0, 0, 1, 0, 0, 0⟩)
      [Event.create (lanAttempt 0xc0a8010a 80 ipprotoTcp),
        .create (lanAttempt 0xc0a8010a 443 ipprotoTcp)] := by
    refine ⟨⟨fun _ _ => rfl, fun h => absurd h.2.2 (by decide), fun h => ?_⟩,
      ⟨fun _ _ => rfl, fun h => absurd h.2.2 (by decide), fun h => ?_⟩, trivial⟩
    · exact absurd h (by decide)
    · exact absurd h (by decide)
  exact ⟨hrun, (limit_is_enforced _ _ _ _ (Or.inr rfl) (by decide) ht hrun).1⟩

/-- Mode 1 with one connection for each host lets the host have two. -/
theorem mode_one_admits_one_more :
    let setting : SessionLimitSetting := ⟨1, 1, 0, 0, 0, 0, 0⟩
    let events := [Event.create (lanAttempt 0xc0a8010a 80 ipprotoTcp),
      .create (lanAttempt 0xc0a8010a 443 ipprotoTcp)]
    ¬ tally (run (fresh 0xc0a80101 ⟨1000, by decide⟩ setting) events) 0xc0a8010a ≤
      (limit setting).toNat := by
  decide

end SessionEnforcement
