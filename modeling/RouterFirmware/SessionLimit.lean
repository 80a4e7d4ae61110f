import RouterFirmware.BucketTable
import RouterFirmware.GuardedRun
import RouterFirmware.SessionRules

/-! # Session limit

The kernel counts the connections of each LAN host. `nk_session_limit_enhance_checking` looks
at the counters before a connection is made, the end of `init_conntrack` adds to them, and
`ip_conntrack_free` takes away again. The host table is emptied when it is full and when the
limit is switched off.
-/
namespace SessionLimit

open BucketTable SessionRules

structure SessionLimitEntry where
  ip : UInt32
  sessionCnt : UInt32
  tcpSessionCnt : UInt32
  udpSessionCnt : UInt32
  blockTimer : UInt32
  deriving DecidableEq

/-- `session_limit_setting_t`, less the schedule, which the checks do not read. -/
structure SessionLimitSetting where
  sessionLimitStatus : UInt32
  sessionLimitMaxSession1 : UInt32
  sessionLimitMaxSession2 : UInt32
  maxTcp : UInt32
  maxUdp : UInt32
  sessionLimitBlockMinute1 : UInt32
  sessionLimitBlockMinute2 : UInt32

/-- What the limit keeps of an `ip_conntrack`: source, destination port and protocol of the
original tuple, and its two marks. -/
structure Conntrack where
  srcIp : UInt32
  dstPort : ℤ
  protonum : ℤ
  slimit : Bool
  slimit2 : Bool
  deriving DecidableEq

structure State where
  lanip : UInt32
  /-- An `int` that `ip_conntrack_init` sets to the number of sessions of the model. -/
  ipConntrackMax : { m : ℕ // 0 < m ∧ m < 2 ^ 31 }
  setting : SessionLimitSetting
  nkSessionLimit : Fin 128 → List SessionLimitEntry
  sessionLimitEntryCnt : ℤ
  /-- `nk_session_limit_timer` is pending. -/
  timerPending : Bool
  rules : RuleStore
  live : List Conntrack

def layout : Layout (Fin 128) UInt32 SessionLimitEntry where
  hash ip := ⟨ip.toNat % 128, Nat.mod_lt _ (by decide)⟩
  key e := e.ip

def State.entry (s : State) (ip : UInt32) : Option SessionLimitEntry :=
  layout.lookup s.nkSessionLimit ip

def State.modifyEntry (s : State) (ip : UInt32) (q : SessionLimitEntry → Bool)
    (f : SessionLimitEntry → SessionLimitEntry) : State :=
  { s with nkSessionLimit := layout.modify s.nkSessionLimit ip q f }

def State.clearTable (s : State) : State :=
  { s with nkSessionLimit := fun _ => [], sessionLimitEntryCnt := 0 }

/-! ## The check -/

def setBlockTimer (v : UInt32) (e : SessionLimitEntry) : SessionLimitEntry :=
  { e with blockTimer := v }

def clearSessionCnt (e : SessionLimitEntry) : SessionLimitEntry := { e with sessionCnt := 0 }

/-- The switch over `session_limit_status`, for the entry `p` of the host. -/
def limitSwitch (p : SessionLimitEntry) (protocol : ℤ) (s : State) : State × ℤ :=
  let c := s.setting
  if c.sessionLimitStatus = 1 then
    if 0 < c.sessionLimitMaxSession1 ∧ c.sessionLimitMaxSession1 < p.sessionCnt then (s, -1)
    else (s, 0)
  else if c.sessionLimitStatus = 2 then
    if 0 < p.blockTimer then (s, -1)
    else if 0 < c.sessionLimitMaxSession2 ∧ c.sessionLimitMaxSession2 < p.sessionCnt then
      ({ s.modifyEntry p.ip (fun _ => true)
          (setBlockTimer (c.sessionLimitBlockMinute1 * 60)) with timerPending := true }, -1)
    else (s, 0)
  else if c.sessionLimitStatus = 3 then
    if 0 < p.blockTimer then (s.modifyEntry p.ip (fun _ => true) clearSessionCnt, -1)
    else if 0 < c.sessionLimitMaxSession2 ∧ c.sessionLimitMaxSession2 < p.sessionCnt then
      ({ s.modifyEntry p.ip (fun _ => true)
          (setBlockTimer (c.sessionLimitBlockMinute2 * 60) ∘ clearSessionCnt) with
          timerPending := true }, -1)
    else (s, 0)
  else if c.sessionLimitStatus = 4 then
    if protocol = ipprotoTcp ∧ 0 < c.maxTcp ∧ c.maxTcp ≤ p.tcpSessionCnt then (s, -1)
    else if protocol = ipprotoUdp ∧ 0 < c.maxUdp ∧ c.maxUdp ≤ p.udpSessionCnt then (s, -1)
    else (s, 0)
  else (s, 0)

/-- The rules come before the switch; they see the counter as an `int`. -/
def limitEntry (p : SessionLimitEntry) (port protocol : ℤ) (s : State) : State × ℤ :=
  let exp := sessionLimitEnhanceRuleCheck s.rules p.ip port protocol p.sessionCnt.toBitVec.toInt
  if 1 ≤ exp then (s, 0)
  else if exp = -1 then (s, -1)
  else limitSwitch p protocol s

def State.makeRoom (s : State) : State :=
  if 511 < s.sessionLimitEntryCnt then s.clearTable else s

def newEntry (ip : UInt32) : SessionLimitEntry := ⟨ip, 0, 0, 0, 0⟩

def State.addEntry (s : State) (ip : UInt32) : State :=
  { s with
    nkSessionLimit := layout.insert s.nkSessionLimit (newEntry ip)
    sessionLimitEntryCnt := s.sessionLimitEntryCnt + 1 }

/-- `nk_session_limit_enhance_checking`; `alloc` says whether `kmalloc` has room for an entry. -/
def nkSessionLimitEnhanceChecking (ip : UInt32) (port protocol : ℤ) (alloc : Bool) (s : State) :
    State × ℤ :=
  if s.setting.sessionLimitStatus = 0 then (s, 0)
  else if s.setting.sessionLimitStatus = 4 ∧ protocol ≠ ipprotoTcp ∧ protocol ≠ ipprotoUdp then
    (s, 0)
  else
    match s.entry ip with
    | some p => limitEntry p port protocol s
    | none =>
      if alloc then limitEntry (newEntry ip) port protocol (s.makeRoom.addEntry ip)
      else (s.makeRoom, -1)

/-! ## Connections -/

/-- The counting of one protocol: the counter moves when the protocols agree. -/
def countIf (protocol p : ℤ) (op : UInt32 → UInt32) (cnt : UInt32) : UInt32 :=
  if protocol = p then op cnt else cnt

def countUp (protocol : ℤ) (e : SessionLimitEntry) : SessionLimitEntry :=
  { e with
    sessionCnt := e.sessionCnt + 1
    tcpSessionCnt := countIf protocol ipprotoTcp (· + 1) e.tcpSessionCnt
    udpSessionCnt := countIf protocol ipprotoUdp (· + 1) e.udpSessionCnt }

def countDown (protocol : ℤ) (e : SessionLimitEntry) : SessionLimitEntry :=
  { e with
    sessionCnt := e.sessionCnt - 1
    tcpSessionCnt := countIf protocol ipprotoTcp (· - 1) e.tcpSessionCnt
    udpSessionCnt := countIf protocol ipprotoUdp (· - 1) e.udpSessionCnt }

/-- `nk_session_limit_enhance_delete`: only `session_cnt` is tested before the counters drop. -/
def nkSessionLimitEnhanceDelete (ip : UInt32) (protocol : ℤ) (s : State) : State :=
  s.modifyEntry ip (fun e => decide (0 < e.sessionCnt)) (countDown protocol)

/-- `ip_conntrack_free`, less the return of the memory. -/
def ipConntrackFree (ct : Conntrack) (s : State) : State :=
  if s.setting.sessionLimitStatus ≠ 0 ∧ 0 < ct.srcIp ∧ ct.slimit ∧ ct.slimit2 then
    nkSessionLimitEnhanceDelete ct.srcIp ct.protonum s
  else s

/-- The connection of position `i` dies. -/
def State.free (s : State) (i : ℕ) : State :=
  match s.live[i]? with
  | none => s
  | some ct => { ipConntrackFree ct s with live := s.live.eraseIdx i }

/-- The packet that opens a connection. -/
structure Packet where
  /-- It came in on the LAN interface. -/
  fromLan : Bool
  saddr : UInt32
  daddr : UInt32
  dport : ℤ
  protocol : ℤ

/-- What `early_drop` finds: nothing to sacrifice, or the connection of position `i`, which dies
with it, or which packets still hold. -/
inductive Dropped where
  | nothing
  | freed (i : ℕ)
  | held (i : ℕ)

/-- A packet with what `init_conntrack` meets on its way: whether the entry, the connection
and the protocol handler are fine, and which connection `early_drop` sacrifices. -/
structure Attempt where
  packet : Packet
  entryAlloc : Bool
  dropped : Dropped
  conntrackAlloc : Bool
  protocolNew : Bool

/-- The first half of `ip_conntrack_alloc`: a full table has to drop a connection. One that is held
only leaves the table, and lives on until it is freed. -/
def earlyDrop (a : Attempt) (s : State) : Option State :=
  if s.ipConntrackMax.1 ≠ 0 ∧ s.ipConntrackMax.1 ≤ s.live.length then
    match a.dropped with
    | .nothing => none
    | .freed i => if i < s.live.length then some (s.free i) else none
    | .held i => if i < s.live.length then some s else none
  else some s

/-- `ip_conntrack_cachep` never has memory for so many connections. -/
def cacheRoom : ℕ := 2 ^ 31

/-- The second half of `ip_conntrack_alloc`. -/
def ipConntrackAlloc (p : Packet) (s : State) : Conntrack :=
  ⟨p.saddr, p.dport, p.protocol, s.setting.sessionLimitStatus ≠ 0, false⟩

inductive Outcome where
  | refused | failed | created
  deriving DecidableEq

def Checked (p : Packet) (s : State) : Prop :=
  p.fromLan = true ∧ p.daddr ≠ s.lanip ∧ s.setting.sessionLimitStatus ≠ 0 ∧ 0 < p.saddr

instance (p : Packet) (s : State) : Decidable (Checked p s) :=
  inferInstanceAs (Decidable (_ ∧ _ ∧ _ ∧ _))

def checkPacket (a : Attempt) (s : State) : State × ℤ :=
  if Checked a.packet s then
    nkSessionLimitEnhanceChecking a.packet.saddr a.packet.dport a.packet.protocol a.entryAlloc s
  else (s, 0)

/-- The end of `init_conntrack`: a host that has an entry gets the connection counted. -/
def countPacket (p : Packet) (ct : Conntrack) (s : State) : State :=
  if p.daddr ≠ s.lanip ∧ s.setting.sessionLimitStatus ≠ 0 ∧
      sessionLimitEnhanceRuleCheck s.rules p.saddr p.dport p.protocol 0 ≠ 2 ∧
      (s.entry p.saddr).isSome then
    { s.modifyEntry p.saddr (fun _ => true) (countUp p.protocol) with
      live := { ct with slimit2 := true } :: s.live }
  else { s with live := ct :: s.live }

def initConntrack (a : Attempt) (s : State) : State × Outcome :=
  let (s, result) := checkPacket a s
  if result = -1 then (s, .refused)
  else
    match earlyDrop a s with
    | none => (s, .failed)
    | some s =>
      if a.conntrackAlloc = false ∨ cacheRoom ≤ s.live.length then (s, .failed)
      else
        let ct := ipConntrackAlloc a.packet s
        if !a.protocolNew then (ipConntrackFree ct s, .failed)
        else (countPacket a.packet ct s, .created)

/-! ## Settings and time -/

/-- `SIOCSESSIONLIMITSETUP`; without a WAN address only the status is cleared. -/
def sessionLimitSetup (wanUp : Bool) (setting : SessionLimitSetting) (s : State) : State :=
  if !wanUp then { s with setting := { s.setting with sessionLimitStatus := 0 } }
  else
    let s := { s with setting := setting }
    let s := if setting.sessionLimitStatus = 1 ∨ setting.sessionLimitStatus = 4 then
        { s with
          timerPending := false
          nkSessionLimit := fun i => (s.nkSessionLimit i).map (setBlockTimer 0) }
      else s
    if setting.sessionLimitStatus = 0 then s.clearTable else s

def tickEntry (e : SessionLimitEntry) : SessionLimitEntry :=
  if 0 < e.blockTimer then { e with blockTimer := e.blockTimer - 1 } else e

/-- `session_limit_timer`, when it is due. -/
def sessionLimitTimer (s : State) : State :=
  if s.timerPending then
    { s with
      nkSessionLimit := fun i => (s.nkSessionLimit i).map tickEntry
      timerPending := decide (∃ i, ∃ e ∈ (s.nkSessionLimit i).map tickEntry, 0 < e.blockTimer) }
  else s

inductive Event where
  | create (a : Attempt)
  | free (i : ℕ)
  | setup (wanUp : Bool) (setting : SessionLimitSetting)
  | timer
  | enhanceInit
  | enhance (x : Install)

def next (s : State) : Event → State
  | .create a => (initConntrack a s).1
  | .free i => s.free i
  | .setup wanUp setting => sessionLimitSetup wanUp setting s
  | .timer => sessionLimitTimer s
  | .enhanceInit => { s with rules := sessionLimitEnhanceInit }
  | .enhance x => { s with rules := x.exec s.rules }

def run (s : State) (events : List Event) : State := events.foldl next s

/-- No connection, no host, no rule and the limit as `setting` says. -/
def fresh (lanip : UInt32) (max : { m : ℕ // 0 < m ∧ m < 2 ^ 31 })
    (setting : SessionLimitSetting) : State :=
  ⟨lanip, max, setting, fun _ => [], 0, false, sessionLimitEnhanceInit, []⟩

end SessionLimit
