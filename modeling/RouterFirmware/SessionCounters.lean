import Mathlib.Data.Finset.Card
import RouterFirmware.SessionLimit

/-! # Session counters

While no reset meets a live counted connection, the counters of a host are the numbers of its
live counted connections: of all of them, of the TCP and of the UDP ones. The resets are the
flush of a full table, the switch to status 0 and the blocking of a host in mode 3.
-/
namespace SessionCounters

open BucketTable SessionRules SessionLimit

/-- The connections that the counters of a host stand for. -/
def counted (ip : UInt32) (ct : Conntrack) : Bool := ct.slimit2 && ct.srcIp == ip

def countedBy (protocol : ℤ) (ip : UInt32) (ct : Conntrack) : Bool :=
  counted ip ct && ct.protonum == protocol

def liveCounted (s : State) (ip : UInt32) : ℕ := s.live.countP (counted ip)

def liveCountedBy (protocol : ℤ) (s : State) (ip : UInt32) : ℕ :=
  s.live.countP (countedBy protocol ip)

structure Tallies (e : SessionLimitEntry) (n tcp udp : ℕ) : Prop where
  session : e.sessionCnt.toNat = n
  tcp : e.tcpSessionCnt.toNat = tcp
  udp : e.udpSessionCnt.toNat = udp

structure Accounted (s : State) : Prop where
  wellFormed : layout.WellFormed s.nkSessionLimit
  positive : s.entry 0 = none
  capacity : s.live.length ≤ cacheRoom
  /-- A counted connection is one `ip_conntrack_free` will find. -/
  marked : ∀ ct ∈ s.live, ct.slimit2 = true → ct.slimit = true ∧ (s.entry ct.srcIp).isSome ∧
    s.setting.sessionLimitStatus ≠ 0
  exact : ∀ ip e, s.entry ip = some e → Tallies e (liveCounted s ip)
    (liveCountedBy ipprotoTcp s ip) (liveCountedBy ipprotoUdp s ip)

/-- No live connection is counted. -/
def Idle (s : State) : Prop := ∀ ct ∈ s.live, ct.slimit2 = false

theorem liveCountedBy_le (protocol : ℤ) (s : State) (ip : UInt32) :
    liveCountedBy protocol s ip ≤ liveCounted s ip := by
  apply List.countP_mono_left
  intro ct _ h
  simp only [countedBy, Bool.and_eq_true] at h
  exact h.1

/-! ## Table operations -/

theorem entry_modifyEntry {s : State} (hs : layout.WellFormed s.nkSessionLimit) (ip : UInt32)
    {q : SessionLimitEntry → Bool} {f : SessionLimitEntry → SessionLimitEntry}
    (hf : ∀ e, (f e).ip = e.ip) (ip' : UInt32) :
    (s.modifyEntry ip q f).entry ip' =
      if ip' = ip then (s.entry ip).map fun e => if q e then f e else e else s.entry ip' :=
  Layout.lookup_modify hs hf ip'

theorem isSome_modifyEntry {s : State} (hs : layout.WellFormed s.nkSessionLimit) (ip : UInt32)
    {q : SessionLimitEntry → Bool} {f : SessionLimitEntry → SessionLimitEntry}
    (hf : ∀ e, (f e).ip = e.ip) (ip' : UInt32) :
    ((s.modifyEntry ip q f).entry ip').isSome = (s.entry ip').isSome := by
  rw [entry_modifyEntry hs ip hf]
  split
  · next heq => rw [Option.isSome_map, heq]
  · rfl

theorem wellFormed_modifyEntry {s : State} (hs : layout.WellFormed s.nkSessionLimit)
    (ip : UInt32) {q : SessionLimitEntry → Bool} {f : SessionLimitEntry → SessionLimitEntry}
    (hf : ∀ e, (f e).ip = e.ip) : layout.WellFormed (s.modifyEntry ip q f).nkSessionLimit :=
  Layout.wellFormed_modify hs hf

/-- What no traffic changes. -/
structure SameConfig (s s' : State) : Prop where
  lanip : s'.lanip = s.lanip
  ipConntrackMax : s'.ipConntrackMax = s.ipConntrackMax
  setting : s'.setting = s.setting
  rules : s'.rules = s.rules

/-- What the table operations do not touch. -/
structure SameBase (s s' : State) : Prop extends SameConfig s s' where
  live : s'.live = s.live

theorem SameConfig.trans {s t u : State} (h : SameConfig s t) (k : SameConfig t u) :
    SameConfig s u :=
  ⟨k.lanip.trans h.lanip, k.ipConntrackMax.trans h.ipConntrackMax, k.setting.trans h.setting,
    k.rules.trans h.rules⟩

theorem SameBase.trans {s t u : State} (h : SameBase s t) (k : SameBase t u) : SameBase s u :=
  ⟨h.toSameConfig.trans k.toSameConfig, k.live.trans h.live⟩

theorem SameBase.refl (s : State) : SameBase s s := ⟨⟨rfl, rfl, rfl, rfl⟩, rfl⟩

theorem sameBase_makeRoom (s : State) : SameBase s s.makeRoom := by
  unfold State.makeRoom
  split
  · exact ⟨⟨rfl, rfl, rfl, rfl⟩, rfl⟩
  · exact SameBase.refl s

theorem sameBase_limitSwitch (p : SessionLimitEntry) (protocol : ℤ) (s : State) :
    SameBase s (limitSwitch p protocol s).1 := by
  simp only [limitSwitch]
  repeat' split
  all_goals exact ⟨⟨rfl, rfl, rfl, rfl⟩, rfl⟩

theorem sameBase_limitEntry (p : SessionLimitEntry) (port protocol : ℤ) (s : State) :
    SameBase s (limitEntry p port protocol s).1 := by
  simp only [limitEntry]
  split
  · exact SameBase.refl s
  · split
    · exact SameBase.refl s
    · exact sameBase_limitSwitch p protocol s

theorem sameBase_checkPacket (a : Attempt) (s : State) : SameBase s (checkPacket a s).1 := by
  simp only [checkPacket, nkSessionLimitEnhanceChecking]
  split
  · split
    · exact SameBase.refl s
    · split
      · exact SameBase.refl s
      · split
        · exact sameBase_limitEntry _ _ _ s
        · split
          · have hadd : SameBase s.makeRoom (s.makeRoom.addEntry a.packet.saddr) :=
              ⟨⟨rfl, rfl, rfl, rfl⟩, rfl⟩
            exact ((sameBase_makeRoom s).trans hadd).trans (sameBase_limitEntry _ _ _ _)
          · exact sameBase_makeRoom s
  · exact SameBase.refl s

/-! ## Steps that keep the account -/

def SameCounters (e e' : SessionLimitEntry) : Prop :=
  e'.sessionCnt = e.sessionCnt ∧ e'.tcpSessionCnt = e.tcpSessionCnt ∧
    e'.udpSessionCnt = e.udpSessionCnt

/-- A change of the entries that leaves their counters alone. -/
theorem accounted_of_map {s s' : State} (h : Accounted s) (hbase : SameBase s s')
    (hw : layout.WellFormed s'.nkSessionLimit)
    (hentry : ∀ ip, ∃ f : SessionLimitEntry → SessionLimitEntry,
      s'.entry ip = (s.entry ip).map f ∧ ∀ e, s.entry ip = some e → SameCounters e (f e)) :
    Accounted s' where
  wellFormed := hw
  positive := by
    obtain ⟨f, hf, -⟩ := hentry 0
    rw [hf, h.positive]
    rfl
  capacity := by
    rw [hbase.live]
    exact h.capacity
  marked ct hct hm := by
    rw [hbase.live] at hct
    obtain ⟨hs, he, hst⟩ := h.marked ct hct hm
    obtain ⟨f, hf, -⟩ := hentry ct.srcIp
    refine ⟨hs, ?_, hbase.setting ▸ hst⟩
    rwa [hf, Option.isSome_map]
  exact ip e he := by
    obtain ⟨f, hf, hsame⟩ := hentry ip
    rw [hf] at he
    obtain ⟨e', he', rfl⟩ := Option.map_eq_some_iff.mp he
    obtain ⟨h1, h2, h3⟩ := h.exact ip e' he'
    obtain ⟨f1, f2, f3⟩ := hsame e' he'
    simp only [liveCounted, liveCountedBy, hbase.live]
    exact ⟨f1 ▸ h1, f2 ▸ h2, f3 ▸ h3⟩

theorem accounted_modifyEntry {s : State} (h : Accounted s) {p : SessionLimitEntry}
    (hp : s.entry p.ip = some p) {f : SessionLimitEntry → SessionLimitEntry}
    (hf : ∀ e, (f e).ip = e.ip) (hsame : SameCounters p (f p)) :
    Accounted (s.modifyEntry p.ip (fun _ => true) f) := by
  have hbase : SameBase s (s.modifyEntry p.ip (fun _ => true) f) := ⟨⟨rfl, rfl, rfl, rfl⟩, rfl⟩
  apply accounted_of_map h hbase (wellFormed_modifyEntry h.wellFormed _ hf)
  intro ip
  rw [entry_modifyEntry h.wellFormed _ hf]
  by_cases hip : ip = p.ip
  · subst hip
    refine ⟨f, by simp, ?_⟩
    intro e he
    rw [hp] at he
    cases he
    exact hsame
  · refine ⟨id, by simp [hip], ?_⟩
    intro e _
    exact ⟨rfl, rfl, rfl⟩

/-- The table may be emptied while nothing that is alive is counted. -/
theorem accounted_clearTable {s : State} (h : Accounted s) (hidle : Idle s) :
    Accounted s.clearTable where
  wellFormed := Layout.wellFormed_empty layout
  positive := rfl
  capacity := h.capacity
  marked ct hct hm := by
    rw [hidle ct hct] at hm
    cases hm
  exact ip e he := by cases he

theorem liveCounted_of_entry_none {s : State} (h : Accounted s) {ip : UInt32}
    (hnone : s.entry ip = none) : liveCounted s ip = 0 := by
  apply List.countP_eq_zero.mpr
  intro ct hct hc
  simp only [counted, Bool.and_eq_true, beq_iff_eq] at hc
  have hsome := (h.marked ct hct hc.1).2.1
  rw [hc.2, hnone] at hsome
  cases hsome

theorem entry_addEntry (s : State) (ip ip' : UInt32) :
    (s.addEntry ip).entry ip' = if ip' = ip then some (newEntry ip) else s.entry ip' :=
  Layout.lookup_insert layout s.nkSessionLimit (newEntry ip) ip'

theorem accounted_addEntry {s : State} (h : Accounted s) {ip : UInt32} (hip : 0 < ip)
    (hnone : s.entry ip = none) : Accounted (s.addEntry ip) where
  wellFormed := Layout.wellFormed_insert h.wellFormed hnone
  positive := by
    rw [entry_addEntry, if_neg]
    · exact h.positive
    · rintro rfl
      exact absurd hip (by decide)
  capacity := h.capacity
  marked ct hct hm := by
    obtain ⟨hs, he, hst⟩ := h.marked ct hct hm
    refine ⟨hs, ?_, hst⟩
    rw [entry_addEntry]
    split
    · rfl
    · exact he
  exact ip' e he := by
    rw [entry_addEntry] at he
    split at he
    · next heq =>
      subst heq
      cases he
      have hzero := liveCounted_of_entry_none h hnone
      have htcp := liveCountedBy_le ipprotoTcp s ip'
      have hudp := liveCountedBy_le ipprotoUdp s ip'
      refine ⟨hzero.symm, ?_, ?_⟩
      · show 0 = liveCountedBy ipprotoTcp s ip'
        omega
      · show 0 = liveCountedBy ipprotoUdp s ip'
        omega
    · exact h.exact ip' e he

/-- The branches of mode 3 that set `session_cnt` to 0. -/
def Blocks (s : State) (p : SessionLimitEntry) : Prop :=
  s.setting.sessionLimitStatus = 3 ∧ (0 < p.blockTimer ∨
    (0 < s.setting.sessionLimitMaxSession2 ∧ s.setting.sessionLimitMaxSession2 < p.sessionCnt))

/-- A new mark of the timer is no change of the account. -/
theorem accounted_timerPending {s : State} (h : Accounted s) (b : Bool) :
    Accounted { s with timerPending := b } :=
  ⟨h.wellFormed, h.positive, h.capacity, h.marked, h.exact⟩

theorem accounted_limitSwitch {s : State} (h : Accounted s) {p : SessionLimitEntry}
    (hp : s.entry p.ip = some p) (hreset : Blocks s p → liveCounted s p.ip = 0) (protocol : ℤ) :
    Accounted (limitSwitch p protocol s).1 := by
  -- A blocked host has no live connection here, so its counter is 0 already.
  have hclear : Blocks s p → SameCounters p (clearSessionCnt p) := by
    intro hb
    have hsession := (h.exact p.ip p hp).session
    rw [hreset hb] at hsession
    exact ⟨(UInt32.toNat_inj.mp hsession).symm, rfl, rfl⟩
  simp only [limitSwitch]
  split
  · split <;> exact h
  · split
    · split
      · exact h
      · split
        · apply accounted_timerPending
          exact accounted_modifyEntry h hp (fun _ => rfl) ⟨rfl, rfl, rfl⟩
        · exact h
    · split
      · next hst =>
        split
        · next hb =>
          exact accounted_modifyEntry h hp (fun _ => rfl) (hclear ⟨hst, Or.inl hb⟩)
        · split
          · next hb =>
            apply accounted_timerPending
            exact accounted_modifyEntry h hp (fun _ => rfl) (hclear ⟨hst, Or.inr hb⟩)
          · exact h
      · repeat' split
        all_goals exact h

/-- The check reaches the switch only past the rules. -/
def PastRules (s : State) (p : SessionLimitEntry) (port protocol : ℤ) : Prop :=
  let exp := sessionLimitEnhanceRuleCheck s.rules p.ip port protocol p.sessionCnt.toBitVec.toInt
  ¬ 1 ≤ exp ∧ exp ≠ -1

theorem accounted_limitEntry {s : State} (h : Accounted s) {p : SessionLimitEntry}
    (hp : s.entry p.ip = some p) (port protocol : ℤ)
    (hreset : PastRules s p port protocol → Blocks s p → liveCounted s p.ip = 0) :
    Accounted (limitEntry p port protocol s).1 := by
  simp only [limitEntry]
  split
  · exact h
  · next hge =>
    split
    · exact h
    · next hne => exact accounted_limitSwitch h hp (hreset ⟨hge, hne⟩) protocol

/-- The check goes past the two tests of the status to the host table. -/
def Consults (s : State) (a : Attempt) : Prop :=
  Checked a.packet s ∧ ¬ (s.setting.sessionLimitStatus = 4 ∧
    a.packet.protocol ≠ ipprotoTcp ∧ a.packet.protocol ≠ ipprotoUdp)

/-- The attempt of a new host finds the table full. -/
def Flushes (s : State) (a : Attempt) : Prop :=
  Consults s a ∧ s.entry a.packet.saddr = none ∧ 511 < s.sessionLimitEntryCnt

/-- The attempt makes mode 3 block its host. -/
def Resets (s : State) (a : Attempt) : Prop :=
  Consults s a ∧ ∃ e, s.entry a.packet.saddr = some e ∧
    PastRules s e a.packet.dport a.packet.protocol ∧ Blocks s e

theorem entry_ip {s : State} {ip : UInt32} {e : SessionLimitEntry} (h : s.entry ip = some e) :
    e.ip = ip :=
  Layout.key_of_lookup h

theorem not_blocks_newEntry (s : State) (ip : UInt32) : ¬ Blocks s (newEntry ip) := by
  rintro ⟨-, h | ⟨-, h⟩⟩
  · exact absurd h (by simp [newEntry])
  · exact absurd h (by simp [newEntry])

theorem accounted_makeRoom {s : State} (h : Accounted s)
    (hflush : 511 < s.sessionLimitEntryCnt → Idle s) : Accounted s.makeRoom := by
  unfold State.makeRoom
  split
  · next hfull => exact accounted_clearTable h (hflush hfull)
  · exact h

theorem entry_makeRoom_none {s : State} {ip : UInt32} (h : s.entry ip = none) :
    s.makeRoom.entry ip = none := by
  unfold State.makeRoom
  split
  · rfl
  · exact h

theorem accounted_checkPacket {s : State} (h : Accounted s) (a : Attempt)
    (hflush : Flushes s a → Idle s)
    (hreset : Resets s a → liveCounted s a.packet.saddr = 0) :
    Accounted (checkPacket a s).1 := by
  simp only [checkPacket, nkSessionLimitEnhanceChecking]
  split
  · next hc =>
    split
    · exact h
    · split
      · exact h
      · next hother =>
        have hconsults : Consults s a := ⟨hc, hother⟩
        split
        · next p hp =>
          have hip := entry_ip hp
          refine accounted_limitEntry h (hip ▸ hp) _ _ ?_
          intro hpast hblocks
          rw [hip]
          exact hreset ⟨hconsults, p, hp, hpast, hblocks⟩
        · next hnone =>
          have hroom := accounted_makeRoom h fun hfull => hflush ⟨hconsults, hnone, hfull⟩
          split
          · refine accounted_limitEntry
              (accounted_addEntry hroom hc.2.2.2 (entry_makeRoom_none hnone)) ?_ _ _ ?_
            · rw [entry_addEntry]
              exact if_pos rfl
            · intro _ hblocks
              exact absurd hblocks (not_blocks_newEntry _ _)
          · exact hroom
  · exact h

/-! ## Counting up and down -/

/-- A count over the live connections, before and after one dies. -/
theorem countP_eraseIdx {l : List Conntrack} {i : ℕ} {ct : Conntrack} (h : l[i]? = some ct)
    (p : Conntrack → Bool) :
    l.countP p = (l.eraseIdx i).countP p + if p ct then 1 else 0 := by
  obtain ⟨hi, rfl⟩ := List.getElem?_eq_some_iff.mp h
  rw [← (List.getElem_cons_eraseIdx_perm hi).countP_eq, List.countP_cons]

theorem toNat_countIf_up {protocol p : ℤ} {cnt : UInt32} (h : cnt.toNat + 1 < 2 ^ 32) :
    (countIf protocol p (· + 1) cnt).toNat = cnt.toNat + if protocol = p then 1 else 0 := by
  unfold countIf
  split
  · rw [UInt32.toNat_add]
    exact Nat.mod_eq_of_lt h
  · rfl

theorem toNat_countIf_down {protocol p : ℤ} {cnt : UInt32}
    (h : protocol = p → 0 < cnt.toNat) :
    (countIf protocol p (· - 1) cnt).toNat + (if protocol = p then 1 else 0) = cnt.toNat := by
  unfold countIf
  split
  · next hp =>
    have hpos := h hp
    have hle : (1 : UInt32) ≤ cnt := UInt32.le_iff_toNat_le.mpr hpos
    show (cnt - 1).toNat + 1 = cnt.toNat
    rw [UInt32.toNat_sub_of_le _ _ hle]
    show cnt.toNat - 1 + 1 = cnt.toNat
    omega
  · rfl

theorem countUp_tallies {e : SessionLimitEntry} {n tcp udp : ℕ} {protocol : ℤ}
    (h : Tallies e n tcp udp) (hn : n + 1 < 2 ^ 32) (htcp : tcp ≤ n) (hudp : udp ≤ n) :
    Tallies (countUp protocol e) (n + 1) (tcp + if protocol = ipprotoTcp then 1 else 0)
      (udp + if protocol = ipprotoUdp then 1 else 0) where
  session := by
    show (e.sessionCnt + 1).toNat = n + 1
    rw [UInt32.toNat_add, h.session]
    exact Nat.mod_eq_of_lt hn
  tcp := by
    have hlt : e.tcpSessionCnt.toNat + 1 < 2 ^ 32 := by
      rw [h.tcp]
      omega
    rw [← h.tcp]
    exact toNat_countIf_up hlt
  udp := by
    have hlt : e.udpSessionCnt.toNat + 1 < 2 ^ 32 := by
      rw [h.udp]
      omega
    rw [← h.udp]
    exact toNat_countIf_up hlt

theorem countDown_tallies {e : SessionLimitEntry} {n tcp udp : ℕ} {protocol : ℤ}
    (h : Tallies e (n + 1) (tcp + if protocol = ipprotoTcp then 1 else 0)
      (udp + if protocol = ipprotoUdp then 1 else 0)) :
    0 < e.sessionCnt ∧ Tallies (countDown protocol e) n tcp udp := by
  have hpos : (1 : UInt32) ≤ e.sessionCnt := by
    rw [UInt32.le_iff_toNat_le, h.session]
    exact Nat.succ_le_succ (Nat.zero_le n)
  refine ⟨?_, ?_, ?_, ?_⟩
  · rw [UInt32.lt_iff_toNat_lt, h.session]
    exact Nat.succ_pos n
  · show (e.sessionCnt - 1).toNat = n
    rw [UInt32.toNat_sub_of_le _ _ hpos, h.session]
    rfl
  · have hdown := @toNat_countIf_down protocol ipprotoTcp e.tcpSessionCnt fun hp => by
      rw [h.tcp, if_pos hp]
      exact Nat.succ_pos tcp
    have htcp := h.tcp
    show (countIf protocol ipprotoTcp (· - 1) e.tcpSessionCnt).toNat = tcp
    omega
  · have hdown := @toNat_countIf_down protocol ipprotoUdp e.udpSessionCnt fun hp => by
      rw [h.udp, if_pos hp]
      exact Nat.succ_pos udp
    have hudp := h.udp
    show (countIf protocol ipprotoUdp (· - 1) e.udpSessionCnt).toNat = udp
    omega

theorem counted_of_eq {ct : Conntrack} (hm : ct.slimit2 = true) : counted ct.srcIp ct = true := by
  simp [counted, hm]

theorem countedBy_of_eq {ct : Conntrack} (hm : ct.slimit2 = true) (protocol : ℤ) :
    countedBy protocol ct.srcIp ct = decide (ct.protonum = protocol) := by
  simp only [countedBy, counted_of_eq hm, Bool.true_and]
  rfl

theorem not_counted {ct : Conntrack} {ip : UInt32} (h : ct.slimit2 = false ∨ ip ≠ ct.srcIp) :
    counted ip ct = false := by
  rcases h with h | h
  · simp [counted, h]
  · simp [counted, Ne.symm h]

theorem not_countedBy {ct : Conntrack} {ip : UInt32} (h : ct.slimit2 = false ∨ ip ≠ ct.srcIp)
    (protocol : ℤ) : countedBy protocol ip ct = false := by
  simp [countedBy, not_counted h]

/-- Only a counted connection moves counters when it dies. -/
theorem ipConntrackFree_of_uncounted {ct : Conntrack} (h : ct.slimit2 = false) (s : State) :
    ipConntrackFree ct s = s := by
  simp [ipConntrackFree, h]

theorem ne_zero_of_entry {s : State} (h : Accounted s) {ip : UInt32}
    (he : (s.entry ip).isSome) : ip ≠ 0 := by
  rintro rfl
  rw [h.positive] at he
  cases he

theorem ipConntrackFree_of_counted {s : State} (h : Accounted s) {ct : Conntrack}
    (hct : ct ∈ s.live) (hm : ct.slimit2 = true) :
    ipConntrackFree ct s = nkSessionLimitEnhanceDelete ct.srcIp ct.protonum s := by
  obtain ⟨hs, he, hst⟩ := h.marked ct hct hm
  exact if_pos ⟨hst, UInt32.pos_iff_ne_zero.mpr (ne_zero_of_entry h he), hs, hm⟩

theorem free_eq {s : State} {i : ℕ} {ct : Conntrack} (hi : s.live[i]? = some ct) :
    s.free i = { ipConntrackFree ct s with live := s.live.eraseIdx i } := by
  simp only [State.free, hi]

theorem capacity_eraseIdx {s : State} (h : Accounted s) (i : ℕ) :
    (s.live.eraseIdx i).length ≤ cacheRoom :=
  le_trans (List.length_eraseIdx_le s.live i) h.capacity

/-- The connections of a host are counted alike without one that is not counted there. -/
theorem countP_eraseIdx_uncounted {s : State} {i : ℕ} {ct : Conntrack}
    (hi : s.live[i]? = some ct) {ip : UInt32} (h : ct.slimit2 = false ∨ ip ≠ ct.srcIp) :
    (s.live.eraseIdx i).countP (counted ip) = liveCounted s ip ∧
      ∀ protocol, (s.live.eraseIdx i).countP (countedBy protocol ip) =
        liveCountedBy protocol s ip := by
  constructor
  · rw [liveCounted, countP_eraseIdx hi, not_counted h]
    simp
  · intro protocol
    rw [liveCountedBy, countP_eraseIdx hi, not_countedBy h]
    simp

theorem tallies_eraseIdx {s : State} (h : Accounted s) {i : ℕ} {ct : Conntrack}
    (hi : s.live[i]? = some ct) {ip : UInt32} (hct : ct.slimit2 = false ∨ ip ≠ ct.srcIp)
    {e : SessionLimitEntry} (he : s.entry ip = some e) :
    Tallies e ((s.live.eraseIdx i).countP (counted ip))
      ((s.live.eraseIdx i).countP (countedBy ipprotoTcp ip))
      ((s.live.eraseIdx i).countP (countedBy ipprotoUdp ip)) := by
  obtain ⟨hn, hby⟩ := countP_eraseIdx_uncounted hi hct
  rw [hn, hby, hby]
  exact h.exact ip e he

theorem accounted_free {s : State} (h : Accounted s) (i : ℕ) : Accounted (s.free i) := by
  cases hi : s.live[i]? with
  | none => simpa only [State.free, hi] using h
  | some ct =>
    have hct : ct ∈ s.live := List.mem_of_getElem? hi
    have hcount := countP_eraseIdx hi
    rw [free_eq hi]
    cases hm : ct.slimit2 with
    | false =>
      rw [ipConntrackFree_of_uncounted hm]
      refine ⟨h.wellFormed, h.positive, capacity_eraseIdx h i, ?_, ?_⟩
      · intro c hc
        exact h.marked c (List.mem_of_mem_eraseIdx hc)
      · intro ip e he
        exact tallies_eraseIdx h hi (.inl hm) he
    | true =>
      rw [ipConntrackFree_of_counted h hct hm]
      have hentry := @entry_modifyEntry s h.wellFormed ct.srcIp
        (fun e => decide (0 < e.sessionCnt)) (countDown ct.protonum) (fun _ => rfl)
      refine ⟨wellFormed_modifyEntry h.wellFormed _ fun _ => rfl, ?_, capacity_eraseIdx h i, ?_, ?_⟩
      · have hne := (ne_zero_of_entry h (h.marked ct hct hm).2.1).symm
        refine (hentry 0).trans ?_
        rw [if_neg hne, h.positive]
      · intro c hc hcm
        obtain ⟨hs, he, hst⟩ := h.marked c (List.mem_of_mem_eraseIdx hc) hcm
        have hkeep := @isSome_modifyEntry s h.wellFormed ct.srcIp
          (fun e => decide (0 < e.sessionCnt)) (countDown ct.protonum) (fun _ => rfl) c.srcIp
        exact ⟨hs, hkeep.trans he, hst⟩
      · intro ip e he
        replace he := (hentry ip).symm.trans he
        split at he
        · next heq =>
          subst heq
          obtain ⟨e', he', rfl⟩ := Option.map_eq_some_iff.mp he
          have hn := hcount (counted ct.srcIp)
          have htcp := hcount (countedBy ipprotoTcp ct.srcIp)
          have hudp := hcount (countedBy ipprotoUdp ct.srcIp)
          simp only [counted_of_eq hm, countedBy_of_eq hm, if_true, decide_eq_true_eq]
            at hn htcp hudp
          have hexact := h.exact ct.srcIp e' he'
          simp only [liveCounted, liveCountedBy, hn, htcp, hudp] at hexact
          obtain ⟨hpos, hdown⟩ := countDown_tallies hexact
          rw [if_pos (decide_eq_true hpos)]
          exact hdown
        · next hne => exact tallies_eraseIdx h hi (.inr hne) he

theorem earlyDrop_cases {a : Attempt} {s s' : State} (hd : earlyDrop a s = some s') :
    s' = s ∨ ∃ i, s' = s.free i := by
  unfold earlyDrop at hd
  split at hd
  · split at hd
    · cases hd
    · split at hd
      · exact .inr ⟨_, (Option.some.inj hd).symm⟩
      · cases hd
    · split at hd
      · exact .inl (Option.some.inj hd).symm
      · cases hd
  · exact .inl (Option.some.inj hd).symm

theorem sameConfig_free (s : State) (i : ℕ) : SameConfig s (s.free i) := by
  unfold State.free ipConntrackFree
  split
  · exact ⟨rfl, rfl, rfl, rfl⟩
  · split <;> exact ⟨rfl, rfl, rfl, rfl⟩

theorem live_free (s : State) (i : ℕ) : (s.free i).live = s.live.eraseIdx i := by
  cases hi : s.live[i]? with
  | none =>
    simp only [State.free, hi]
    exact (List.eraseIdx_of_length_le (List.getElem?_eq_none_iff.mp hi)).symm
  | some ct => rw [free_eq hi]

theorem accounted_earlyDrop {s s' : State} (h : Accounted s) {a : Attempt}
    (hd : earlyDrop a s = some s') : Accounted s' := by
  rcases earlyDrop_cases hd with rfl | ⟨i, rfl⟩
  · exact h
  · exact accounted_free h i

theorem liveCounted_le_length (s : State) (ip : UInt32) : liveCounted s ip ≤ s.live.length :=
  List.countP_le_length

/-- The new connection is counted with its host, or it is not counted at all. -/
theorem accounted_countPacket {s : State} (h : Accounted s)
    (hroom : s.live.length < cacheRoom) (p : Packet) :
    Accounted (countPacket p (ipConntrackAlloc p s) s) := by
  have hmax : cacheRoom = 2 ^ 31 := rfl
  unfold countPacket
  split
  · next hc =>
    obtain ⟨-, hst, -, hsome⟩ := hc
    have hentry := @entry_modifyEntry s h.wellFormed p.saddr (fun _ => true)
      (countUp p.protocol) (fun _ => rfl)
    refine ⟨wellFormed_modifyEntry h.wellFormed _ fun _ => rfl, ?_, hroom, ?_, ?_⟩
    · refine (hentry 0).trans ?_
      rw [if_neg (ne_zero_of_entry h hsome).symm, h.positive]
    · intro c hc hcm
      have hkeep := @isSome_modifyEntry s h.wellFormed p.saddr (fun _ => true)
        (countUp p.protocol) (fun _ => rfl)
      rcases List.mem_cons.mp hc with rfl | hc
      · exact ⟨decide_eq_true hst, (hkeep _).trans hsome, hst⟩
      · obtain ⟨hs, he, -⟩ := h.marked c hc hcm
        exact ⟨hs, (hkeep _).trans he, hst⟩
    · intro ip e he
      replace he := (hentry ip).symm.trans he
      simp only [liveCounted, liveCountedBy, List.countP_cons]
      split at he
      · next heq =>
        subst heq
        obtain ⟨e', he', rfl⟩ := Option.map_eq_some_iff.mp he
        have hlen := liveCounted_le_length s p.saddr
        have hup := @countUp_tallies e' _ _ _ p.protocol (h.exact p.saddr e' he') (by omega)
          (liveCountedBy_le _ _ _) (liveCountedBy_le _ _ _)
        simpa [liveCounted, liveCountedBy, ipConntrackAlloc, counted, countedBy] using hup
      · next hne =>
        have hexact := h.exact ip e he
        simpa [liveCounted, liveCountedBy, ipConntrackAlloc, counted, countedBy, Ne.symm hne]
          using hexact
  · refine ⟨h.wellFormed, h.positive, hroom, ?_, ?_⟩
    · intro c hc hcm
      rcases List.mem_cons.mp hc with rfl | hc
      · cases hcm
      · exact h.marked c hc hcm
    · intro ip e he
      have hexact := h.exact ip e he
      simpa [liveCounted, liveCountedBy, List.countP_cons, ipConntrackAlloc, counted, countedBy]
        using hexact

theorem accounted_initConntrack {s : State} (h : Accounted s) (a : Attempt)
    (hflush : Flushes s a → Idle s)
    (hreset : Resets s a → liveCounted s a.packet.saddr = 0) :
    Accounted (initConntrack a s).1 := by
  have hcheck := accounted_checkPacket h a hflush hreset
  simp only [initConntrack]
  split
  · exact hcheck
  · split
    · exact hcheck
    · next s' hd =>
      have hdrop := accounted_earlyDrop hcheck hd
      split
      · exact hdrop
      · next hroom =>
        split
        · rw [ipConntrackFree_of_uncounted rfl]
          exact hdrop
        · exact accounted_countPacket hdrop (not_le.mp (not_or.mp hroom).2) a.packet

/-! ## Whole runs -/

/-- The event does not wipe counters of live connections. -/
def Undisturbed (s : State) : Event → Prop
  | .create a => (Flushes s a → Idle s) ∧ (Resets s a → liveCounted s a.packet.saddr = 0)
  | .setup wanUp setting => wanUp = false ∨ setting.sessionLimitStatus = 0 → Idle s
  | _ => True

theorem accounted_mapTable {s : State} (h : Accounted s)
    {f : SessionLimitEntry → SessionLimitEntry} (hf : ∀ e, (f e).ip = e.ip)
    (hsame : ∀ e, SameCounters e (f e)) (b : Bool) :
    Accounted { s with nkSessionLimit := fun i => (s.nkSessionLimit i).map f
                       timerPending := b } := by
  have hbase : SameBase s { s with nkSessionLimit := fun i => (s.nkSessionLimit i).map f
                                   timerPending := b } := ⟨⟨rfl, rfl, rfl, rfl⟩, rfl⟩
  apply accounted_of_map h hbase (Layout.wellFormed_map h.wellFormed hf)
  intro ip
  exact ⟨f, Layout.lookup_map hf ip, fun e _ => hsame e⟩

theorem accounted_setting {s : State} (h : Accounted s) (setting : SessionLimitSetting)
    (hidle : setting.sessionLimitStatus = 0 → Idle s) :
    Accounted { s with setting := setting } := by
  refine ⟨h.wellFormed, h.positive, h.capacity, ?_, h.exact⟩
  intro ct hct hm
  obtain ⟨hs, he, -⟩ := h.marked ct hct hm
  refine ⟨hs, he, ?_⟩
  intro hzero
  rw [hidle hzero ct hct] at hm
  cases hm

theorem accounted_setup {s : State} (h : Accounted s) (wanUp : Bool)
    (setting : SessionLimitSetting)
    (hidle : wanUp = false ∨ setting.sessionLimitStatus = 0 → Idle s) :
    Accounted (sessionLimitSetup wanUp setting s) := by
  unfold sessionLimitSetup
  split
  · next hdown =>
    apply accounted_setting h
    intro _
    exact hidle (Or.inl (by simpa using hdown))
  · have hset := accounted_setting h setting fun hzero => hidle (Or.inr hzero)
    have hmap := accounted_mapTable hset (fun e => (rfl : (setBlockTimer 0 e).ip = e.ip))
      (fun _ => ⟨rfl, rfl, rfl⟩) false
    simp only
    split
    · next hzero =>
      have hstop := hidle (Or.inr hzero)
      split
      · exact accounted_clearTable hmap hstop
      · exact accounted_clearTable hset hstop
    · split
      · exact hmap
      · exact hset

theorem tickEntry_same (e : SessionLimitEntry) :
    (tickEntry e).ip = e.ip ∧ SameCounters e (tickEntry e) := by
  unfold tickEntry
  split
  · exact ⟨rfl, rfl, rfl, rfl⟩
  · exact ⟨rfl, rfl, rfl, rfl⟩

theorem accounted_timer {s : State} (h : Accounted s) : Accounted (sessionLimitTimer s) := by
  unfold sessionLimitTimer
  split
  · exact accounted_mapTable h (fun e => (tickEntry_same e).1) (fun e => (tickEntry_same e).2) _
  · exact h

theorem accounted_rules {s : State} (h : Accounted s) (rules : RuleStore) :
    Accounted { s with rules := rules } :=
  ⟨h.wellFormed, h.positive, h.capacity, h.marked, h.exact⟩

theorem accounted_next {s : State} (h : Accounted s) {e : Event} (he : Undisturbed s e) :
    Accounted (next s e) := by
  cases e with
  | create a => exact accounted_initConntrack h a he.1 he.2
  | free i => exact accounted_free h i
  | setup wanUp setting => exact accounted_setup h wanUp setting he
  | timer => exact accounted_timer h
  | enhanceInit => exact accounted_rules h _
  | enhance x => exact accounted_rules h _

theorem accounted_run {s : State} (h : Accounted s) {events : List Event}
    (hrun : GuardedRun.Along next Undisturbed s events) : Accounted (run s events) :=
  GuardedRun.foldl_keeps (fun _ _ h he => accounted_next h he) h hrun

theorem accounted_fresh (lanip : UInt32) (max : { m : ℕ // 0 < m ∧ m < 2 ^ 31 })
    (setting : SessionLimitSetting) : Accounted (fresh lanip max setting) where
  wellFormed := Layout.wellFormed_empty layout
  positive := rfl
  capacity := Nat.zero_le _
  marked _ h := by cases h
  exact _ _ h := by cases h

def liveOf (s : State) (ip : UInt32) : ℕ := s.live.countP fun ct => ct.srcIp == ip

def liveOfBy (protocol : ℤ) (s : State) (ip : UInt32) : ℕ :=
  s.live.countP fun ct => ct.srcIp == ip && ct.protonum == protocol

/-- No counter exceeds the live connections it stands for, and the host of a counted
connection has counters left to take it away from. -/
structure NoOverRelease (s : State) : Prop where
  session : ∀ i, ∀ e ∈ s.nkSessionLimit i, e.sessionCnt.toNat ≤ liveOf s e.ip
  tcp : ∀ i, ∀ e ∈ s.nkSessionLimit i, e.tcpSessionCnt.toNat ≤ liveOfBy ipprotoTcp s e.ip
  udp : ∀ i, ∀ e ∈ s.nkSessionLimit i, e.udpSessionCnt.toNat ≤ liveOfBy ipprotoUdp s e.ip
  released : ∀ ct ∈ s.live, ct.slimit2 = true → ∀ e, s.entry ct.srcIp = some e →
    0 < e.sessionCnt ∧ (ct.protonum = ipprotoTcp → 0 < e.tcpSessionCnt) ∧
      (ct.protonum = ipprotoUdp → 0 < e.udpSessionCnt)

theorem noOverRelease_of_accounted {s : State} (h : Accounted s) : NoOverRelease s := by
  have hentry : ∀ i, ∀ e ∈ s.nkSessionLimit i, s.entry e.ip = some e := fun i e he =>
    Layout.lookup_of_mem h.wellFormed he
  refine ⟨?_, ?_, ?_, ?_⟩
  · intro i e he
    rw [(h.exact e.ip e (hentry i e he)).session]
    apply List.countP_mono_left
    intro ct _ hc
    simp only [counted, Bool.and_eq_true] at hc
    exact hc.2
  · intro i e he
    rw [(h.exact e.ip e (hentry i e he)).tcp]
    apply List.countP_mono_left
    intro ct _ hc
    simp only [countedBy, counted, Bool.and_eq_true] at hc ⊢
    exact ⟨hc.1.2, hc.2⟩
  · intro i e he
    rw [(h.exact e.ip e (hentry i e he)).udp]
    apply List.countP_mono_left
    intro ct _ hc
    simp only [countedBy, counted, Bool.and_eq_true] at hc ⊢
    exact ⟨hc.1.2, hc.2⟩
  · intro ct hct hm e he
    obtain ⟨hn, htcp, hudp⟩ := h.exact ct.srcIp e he
    have hby : ∀ protocol, ct.protonum = protocol → 0 < liveCountedBy protocol s ct.srcIp := by
      intro protocol hp
      apply List.countP_pos_iff.mpr
      exact ⟨ct, hct, by simp [countedBy, counted, hm, hp]⟩
    have hpos : 0 < liveCounted s ct.srcIp :=
      lt_of_lt_of_le (hby _ rfl) (liveCountedBy_le _ _ _)
    refine ⟨?_, ?_, ?_⟩
    · rw [UInt32.lt_iff_toNat_lt, hn]
      exact hpos
    · intro hp
      rw [UInt32.lt_iff_toNat_lt, htcp]
      exact hby _ hp
    · intro hp
      rw [UInt32.lt_iff_toNat_lt, hudp]
      exact hby _ hp

theorem counters_never_over_release (lanip : UInt32) (max : { m : ℕ // 0 < m ∧ m < 2 ^ 31 })
    (setting : SessionLimitSetting) (events : List Event)
    (hrun : GuardedRun.Along next Undisturbed (fresh lanip max setting) events) :
    NoOverRelease (run (fresh lanip max setting) events) ∧
      ∀ a, Undisturbed (run (fresh lanip max setting) events) (.create a) →
        NoOverRelease (checkPacket a (run (fresh lanip max setting) events)).1 := by
  have h := accounted_run (accounted_fresh lanip max setting) hrun
  refine ⟨noOverRelease_of_accounted h, ?_⟩
  intro a ha
  exact noOverRelease_of_accounted (accounted_checkPacket h a ha.1 ha.2)

/-- A packet of a LAN host to some server, with memory for everything it needs. -/
def lanAttempt (saddr : UInt32) (dport protocol : ℤ) : Attempt :=
  ⟨⟨true, saddr, 0x08080808, dport, protocol⟩, true, .nothing, true, true⟩

theorem counters_after_one_connection :
    let s := fresh 0xc0a80101 ⟨1000, by decide⟩ ⟨1, 100, 0, 0, 0, 0, 0⟩
    let events := [Event.create (lanAttempt 0xc0a8010a 80 ipprotoTcp), .free 0]
    GuardedRun.Along next Undisturbed s events ∧ NoOverRelease (run s events) := by
  have hrun : GuardedRun.Along next Undisturbed
      (fresh 0xc0a80101 ⟨1000, by decide⟩ ⟨1, 100, 0, 0, 0, 0, 0⟩)
      [Event.create (lanAttempt 0xc0a8010a 80 ipprotoTcp), .free 0] :=
    ⟨⟨fun h => absurd h.2.2 (by decide), fun ⟨_, _, _, _, h⟩ => absurd h.1 (by decide)⟩,
      trivial, trivial⟩
  exact ⟨hrun, (counters_never_over_release _ _ _ _ hrun).1⟩

/-- The limit is switched off and on while a TCP connection lives; the host opens a UDP one
and then closes the first: the TCP counter of its new entry wraps. -/
theorem tcp_counter_wraps :
    let on : SessionLimitSetting := ⟨1, 100, 0, 0, 0, 0, 0⟩
    let off : SessionLimitSetting := ⟨0, 0, 0, 0, 0, 0, 0⟩
    ¬ NoOverRelease (run (fresh 0xc0a80101 ⟨1000, by decide⟩ on)
      [.create (lanAttempt 0xc0a8010a 80 ipprotoTcp), .setup true off, .setup true on,
        .create (lanAttempt 0xc0a8010a 123 ipprotoUdp), .free 1]) := by
  intro on off h
  have hwrapped := h.tcp 10 ⟨0xc0a8010a, 0, 0xffffffff, 1, 0⟩ (by decide)
  exact absurd hwrapped (by decide)

/-! ## A fixed setting -/

/-- The hosts in the table, all among `H`, and their number. -/
structure Hosted (H : Finset UInt32) (s : State) : Prop where
  wellFormed : layout.WellFormed s.nkSessionLimit
  hosts : ∃ ips : Finset UInt32, (∀ ip, (s.entry ip).isSome ↔ ip ∈ ips) ∧
    s.sessionLimitEntryCnt = ips.card ∧ ips ⊆ H

theorem hosted_of_same {H : Finset UInt32} {s s' : State} (h : Hosted H s)
    (hw : layout.WellFormed s'.nkSessionLimit)
    (hkeys : ∀ ip, (s'.entry ip).isSome = (s.entry ip).isSome)
    (hcnt : s'.sessionLimitEntryCnt = s.sessionLimitEntryCnt) : Hosted H s' := by
  obtain ⟨ips, hips, hcard, hsub⟩ := h.hosts
  refine ⟨hw, ips, ?_, hcnt.trans hcard, hsub⟩
  intro ip
  rw [hkeys]
  exact hips ip

theorem hosted_modifyEntry {H : Finset UInt32} {s : State} (h : Hosted H s) (ip : UInt32)
    {q : SessionLimitEntry → Bool} {f : SessionLimitEntry → SessionLimitEntry}
    (hf : ∀ e, (f e).ip = e.ip) : Hosted H (s.modifyEntry ip q f) :=
  hosted_of_same h (wellFormed_modifyEntry h.wellFormed ip hf)
    (isSome_modifyEntry h.wellFormed ip hf) rfl

theorem hosted_timerPending {H : Finset UInt32} {s : State} (h : Hosted H s) (b : Bool) :
    Hosted H { s with timerPending := b } :=
  ⟨h.wellFormed, h.hosts⟩

theorem hosted_limitSwitch {H : Finset UInt32} {s : State} (h : Hosted H s)
    (p : SessionLimitEntry) (protocol : ℤ) : Hosted H (limitSwitch p protocol s).1 := by
  simp only [limitSwitch]
  repeat' split
  any_goals exact h
  · apply hosted_timerPending
    exact hosted_modifyEntry h p.ip fun _ => rfl
  · exact hosted_modifyEntry h p.ip fun _ => rfl
  · apply hosted_timerPending
    exact hosted_modifyEntry h p.ip fun _ => rfl

theorem hosted_limitEntry {H : Finset UInt32} {s : State} (h : Hosted H s)
    (p : SessionLimitEntry) (port protocol : ℤ) : Hosted H (limitEntry p port protocol s).1 := by
  simp only [limitEntry]
  split
  · exact h
  · split
    · exact h
    · exact hosted_limitSwitch h p protocol

theorem hosted_addEntry {H : Finset UInt32} {s : State} (h : Hosted H s) {ip : UInt32}
    (hip : ip ∈ H) (hnone : s.entry ip = none) : Hosted H (s.addEntry ip) := by
  obtain ⟨ips, hips, hcard, hsub⟩ := h.hosts
  have hnew : ip ∉ ips := by
    rw [← hips, hnone]
    decide
  refine ⟨Layout.wellFormed_insert h.wellFormed hnone, insert ip ips, ?_, ?_, ?_⟩
  · intro ip'
    rw [entry_addEntry, Finset.mem_insert, ← hips]
    split
    · next heq => simp [heq]
    · next hne => simp [hne]
  · rw [Finset.card_insert_of_notMem hnew]
    show s.sessionLimitEntryCnt + 1 = _
    rw [hcard]
    rfl
  · exact Finset.insert_subset hip hsub

/-- With at most 512 hosts in all, the table of a new host is not full. -/
theorem not_full {H : Finset UInt32} (hH : H.card ≤ 512) {s : State} (h : Hosted H s)
    {ip : UInt32} (hip : ip ∈ H) (hnone : s.entry ip = none) :
    ¬ 511 < s.sessionLimitEntryCnt := by
  obtain ⟨ips, hips, hcard, hsub⟩ := h.hosts
  have hnew : ip ∉ ips := by
    rw [← hips, hnone]
    decide
  have hlt : ips.card < H.card := Finset.card_lt_card ⟨hsub, fun hle => hnew (hle hip)⟩
  rw [hcard]
  omega

theorem hosted_checkPacket {H : Finset UInt32} (hH : H.card ≤ 512) {s : State} (h : Hosted H s)
    (a : Attempt) (hip : a.packet.fromLan = true → a.packet.saddr ∈ H) :
    Hosted H (checkPacket a s).1 := by
  simp only [checkPacket, nkSessionLimitEnhanceChecking]
  split
  · next hc =>
    split
    · exact h
    · split
      · exact h
      · split
        · exact hosted_limitEntry h _ _ _
        · next hnone =>
          have hmem := hip hc.1
          have hroom : s.makeRoom = s := if_neg (not_full hH h hmem hnone)
          rw [hroom]
          split
          · exact hosted_limitEntry (hosted_addEntry h hmem hnone) _ _ _
          · exact h
  · exact h

theorem hosted_ipConntrackFree {H : Finset UInt32} {s : State} (h : Hosted H s)
    (ct : Conntrack) : Hosted H (ipConntrackFree ct s) := by
  unfold ipConntrackFree
  split
  · exact hosted_modifyEntry h _ fun _ => rfl
  · exact h

theorem hosted_free {H : Finset UInt32} {s : State} (h : Hosted H s) (i : ℕ) :
    Hosted H (s.free i) := by
  cases hi : s.live[i]? with
  | none => simpa only [State.free, hi] using h
  | some ct =>
    rw [free_eq hi]
    obtain ⟨hw, hh⟩ := hosted_ipConntrackFree h ct
    exact ⟨hw, hh⟩

theorem hosted_countPacket {H : Finset UInt32} {s : State} (h : Hosted H s) (p : Packet)
    (ct : Conntrack) : Hosted H (countPacket p ct s) := by
  unfold countPacket
  split
  · obtain ⟨hw, hh⟩ := @hosted_modifyEntry H s h p.saddr (fun _ => true)
      (countUp p.protocol) fun _ => rfl
    exact ⟨hw, hh⟩
  · exact ⟨h.wellFormed, h.hosts⟩

theorem hosted_initConntrack {H : Finset UInt32} (hH : H.card ≤ 512) {s : State}
    (h : Hosted H s) (a : Attempt) (hip : a.packet.fromLan = true → a.packet.saddr ∈ H) :
    Hosted H (initConntrack a s).1 := by
  have hcheck := hosted_checkPacket hH h a hip
  simp only [initConntrack]
  split
  · exact hcheck
  · split
    · exact hcheck
    · next s' hd =>
      have hdrop : Hosted H s' := by
        rcases earlyDrop_cases hd with rfl | ⟨i, rfl⟩
        · exact hcheck
        · exact hosted_free hcheck i
      split
      · exact hdrop
      · split
        · exact hosted_ipConntrackFree hdrop _
        · exact hosted_countPacket hdrop _ _

/-- The events of a run under one setting and one set of rules. -/
def Traffic : Event → Prop
  | .create _ => True
  | .free _ => True
  | .timer => True
  | _ => False

def host : Event → Option UInt32
  | .create a => if a.packet.fromLan then some a.packet.saddr else none
  | _ => none

def hosts (events : List Event) : Finset UInt32 := (events.filterMap host).toFinset

theorem sameConfig_earlyDrop {a : Attempt} {s s' : State} (hd : earlyDrop a s = some s') :
    SameConfig s s' := by
  rcases earlyDrop_cases hd with rfl | ⟨i, rfl⟩
  · exact ⟨rfl, rfl, rfl, rfl⟩
  · exact sameConfig_free s i

theorem sameConfig_next {s : State} {e : Event} (he : Traffic e) : SameConfig s (next s e) := by
  cases e with
  | create a =>
    have hcheck := (sameBase_checkPacket a s).toSameConfig
    simp only [next, initConntrack]
    split
    · exact hcheck
    · split
      · exact hcheck
      · next s' hd =>
        have hdrop := hcheck.trans (sameConfig_earlyDrop hd)
        split
        · exact hdrop
        · split
          · rw [ipConntrackFree_of_uncounted rfl]
            exact hdrop
          · apply hdrop.trans
            unfold countPacket
            split <;> exact ⟨rfl, rfl, rfl, rfl⟩
  | free i => exact sameConfig_free s i
  | timer =>
    simp only [next, sessionLimitTimer]
    split <;> exact ⟨rfl, rfl, rfl, rfl⟩
  | setup wanUp setting => cases he
  | enhanceInit => cases he
  | enhance x => cases he

theorem hosted_timer {H : Finset UInt32} {s : State} (h : Hosted H s) :
    Hosted H (sessionLimitTimer s) := by
  unfold sessionLimitTimer
  split
  · have hip : ∀ e, layout.key (tickEntry e) = layout.key e := fun e => (tickEntry_same e).1
    refine hosted_of_same h (Layout.wellFormed_map h.wellFormed hip) ?_ rfl
    intro ip
    refine (congrArg Option.isSome (Layout.lookup_map hip ip)).trans ?_
    rw [Option.isSome_map]
    rfl
  · exact h

theorem hosted_next {H : Finset UInt32} (hH : H.card ≤ 512) {s : State} (h : Hosted H s)
    {e : Event} (he : Traffic e) (hhost : ∀ ip, host e = some ip → ip ∈ H) :
    Hosted H (next s e) := by
  cases e with
  | create a =>
    apply hosted_initConntrack hH h a
    intro hlan
    exact hhost _ (if_pos hlan)
  | free i => exact hosted_free h i
  | timer => exact hosted_timer h
  | setup wanUp setting => cases he
  | enhanceInit => cases he
  | enhance x => cases he

/-- Few hosts and another mode than 3: no event resets anything. -/
theorem undisturbed_of_hosted {H : Finset UInt32} (hH : H.card ≤ 512) {s : State}
    (h : Hosted H s) (hmode : s.setting.sessionLimitStatus ≠ 3) {e : Event} (he : Traffic e)
    (hhost : ∀ ip, host e = some ip → ip ∈ H) : Undisturbed s e := by
  cases e with
  | create a =>
    constructor
    · rintro ⟨hc, hnone, hfull⟩
      exact absurd hfull (not_full hH h (hhost _ (if_pos hc.1.1)) hnone)
    · rintro ⟨-, p, -, -, hblocks⟩
      exact absurd hblocks.1 hmode
  | free i => trivial
  | timer => trivial
  | setup wanUp setting => cases he
  | enhanceInit => cases he
  | enhance x => cases he

theorem along_undisturbed {H : Finset UInt32} (hH : H.card ≤ 512) {s : State} (h : Hosted H s)
    (hmode : s.setting.sessionLimitStatus ≠ 3) {events : List Event}
    (htraffic : ∀ e ∈ events, Traffic e)
    (hhost : ∀ e ∈ events, ∀ ip, host e = some ip → ip ∈ H) :
    GuardedRun.Along next Undisturbed s events := by
  induction events generalizing s with
  | nil => trivial
  | cons e events ih =>
    have he := htraffic e (by simp)
    have hip := hhost e (by simp)
    refine ⟨undisturbed_of_hosted hH h hmode he hip, ?_⟩
    apply ih (hosted_next hH h he hip)
    · rwa [(sameConfig_next he).setting]
    · exact fun e' he' => htraffic e' (by simp [he'])
    · exact fun e' he' => hhost e' (by simp [he'])

theorem accounting_is_exact (lanip : UInt32) (max : { m : ℕ // 0 < m ∧ m < 2 ^ 31 })
    (setting : SessionLimitSetting) (rules : RuleStore) (events : List Event)
    (hmode : setting.sessionLimitStatus ≠ 3) (htraffic : ∀ e ∈ events, Traffic e)
    (hhosts : (hosts events).card ≤ 512) :
    let s := run { fresh lanip max setting with rules := rules } events
    ∀ i, ∀ e ∈ s.nkSessionLimit i, e.sessionCnt.toNat = liveCounted s e.ip ∧
      e.tcpSessionCnt.toNat = liveCountedBy ipprotoTcp s e.ip ∧
      e.udpSessionCnt.toNat = liveCountedBy ipprotoUdp s e.ip := by
  intro s i e he
  have hstart : Accounted { fresh lanip max setting with rules := rules } :=
    accounted_rules (accounted_fresh lanip max setting) rules
  have hhosted : Hosted (hosts events) { fresh lanip max setting with rules := rules } := by
    refine ⟨hstart.wellFormed, ∅, ?_, rfl, Finset.empty_subset _⟩
    intro ip
    exact iff_of_false (by simp [State.entry, fresh, Layout.lookup_empty]) (by simp)
  have hip : ∀ e' ∈ events, ∀ ip, host e' = some ip → ip ∈ hosts events := by
    intro e' he' ip hh
    rw [hosts, List.mem_toFinset, List.mem_filterMap]
    exact ⟨e', he', hh⟩
  have h := accounted_run hstart (along_undisturbed hhosts hhosted hmode htraffic hip)
  have hexact := h.exact e.ip e (Layout.lookup_of_mem h.wellFormed he)
  exact ⟨hexact.session, hexact.tcp, hexact.udp⟩

theorem accounting_is_exact_mode_four :
    let s := run { fresh 0xc0a80101 ⟨1000, by decide⟩ ⟨4, 0, 0, 20, 20, 0, 0⟩ with
        rules := sessionLimitEnhanceInit }
      [.create (lanAttempt 0xc0a8010a 80 ipprotoTcp),
        .create (lanAttempt 0xc0a8010a 123 ipprotoUdp), .free 1]
    ∀ i, ∀ e ∈ s.nkSessionLimit i, e.sessionCnt.toNat = liveCounted s e.ip ∧
      e.tcpSessionCnt.toNat = liveCountedBy ipprotoTcp s e.ip ∧
      e.udpSessionCnt.toNat = liveCountedBy ipprotoUdp s e.ip := by
  apply accounting_is_exact
  · decide
  · intro e he
    simp only [List.mem_cons, List.not_mem_nil, or_false] at he
    rcases he with rfl | rfl | rfl <;> trivial
  · decide

end SessionCounters
