import RouterFirmware.RouteCache

/-! # Input routes

A packet received is answered from the route cache by its addresses, device, TOS, protocol
and ports. The fast path, the slow path and the multicast path fill in protocol and ports
each in its own way, so not every entry made is found again.
-/
namespace InputRoutes

open BucketTable RouteCache

def ipprotoIcmp : UInt8 := 1

def ipprotoTcp : UInt8 := 6

def ipprotoUdp : UInt8 := 17

def ipprotoEsp : UInt8 := 50

def iptosRtMask : UInt8 := 0x1c

def Multicast (addr : UInt32) : Prop := addr &&& 0xf0000000 = 0xe0000000

instance (addr : UInt32) : Decidable (Multicast addr) := inferInstanceAs (Decidable (_ = _))

/-- A `net_device`: `dev_new_index` never gives 0. -/
@[ext]
structure NetDevice where
  ifindex : UInt32
  registered : ifindex ≠ 0
  deriving DecidableEq

/-- A packet received: `source` and `dest` are what follows its IP header. -/
structure SkBuff where
  protocol : UInt8
  source : UInt16
  dest : UInt16
  daddr : UInt32
  saddr : UInt32
  tos : UInt8
  dev : NetDevice
  deriving DecidableEq

@[ext]
structure PortKey where
  protocolType : UInt32
  srcPort : UInt32
  dstPort : UInt32
  deriving DecidableEq

def PortKey.none : PortKey := ⟨0, 0, 0⟩

def fastPortKey (skb : SkBuff) : PortKey :=
  if skb.protocol = ipprotoTcp then
    ⟨ipprotoTcp.toUInt32, skb.source.toUInt32, skb.dest.toUInt32⟩
  else if skb.protocol = ipprotoUdp then
    ⟨ipprotoUdp.toUInt32, skb.source.toUInt32, skb.dest.toUInt32⟩
  else if skb.protocol = ipprotoIcmp then ⟨ipprotoIcmp.toUInt32, 0, 0⟩
  else ⟨0, 0, 0⟩

/-- The switch of `ip_route_input_slow`. -/
def slowPortKey (skb : SkBuff) : PortKey :=
  if skb.protocol = ipprotoTcp then
    ⟨ipprotoTcp.toUInt32, skb.source.toUInt32, skb.dest.toUInt32⟩
  else if skb.protocol = ipprotoUdp then
    ⟨ipprotoUdp.toUInt32, skb.source.toUInt32, skb.dest.toUInt32⟩
  else if skb.protocol = ipprotoIcmp then ⟨ipprotoIcmp.toUInt32, 0, 0⟩
  else if skb.protocol = ipprotoEsp then ⟨ipprotoEsp.toUInt32, 0, 0⟩
  else ⟨0, 0, 0⟩

/-- The key of an input entry, with `tos` masked. -/
def inputFlow (skb : SkBuff) (key : PortKey) : Flowi :=
  ⟨skb.daddr, skb.saddr, skb.tos &&& iptosRtMask, key.protocolType, key.srcPort, key.dstPort, 0,
    skb.dev.ifindex⟩

/-- What the routing decides for a packet besides the key of its entry. -/
structure Route where
  id : ℕ
  dev : UInt32
  rtType : RtType

/-- The decisions of `ip_route_input_slow` and `ip_route_input_mc`; `attempts` is 0 in a
softirq. -/
structure Routing where
  slow : SkBuff → Except Errno Route
  mc : SkBuff → Except Errno Route
  moment : ℕ → Moment
  attempts : ℕ

variable (seed : Seed) (routing : Routing)

def hashInput (skb : SkBuff) : UInt32 :=
  rtHashCode seed skb.daddr (skb.saddr ^^^ (skb.dev.ifindex <<< 5)) (skb.tos &&& iptosRtMask)

/-- The cache lookup of `ip_route_input`. -/
def lookup (table : Table) (skb : SkBuff) : Option Rtable :=
  let key := fastPortKey skb
  (table (hashInput seed skb)).find? fun rth =>
    rth.fl.daddr = skb.daddr ∧ rth.fl.saddr = skb.saddr ∧ rth.fl.iif = skb.dev.ifindex ∧
    rth.fl.oif = 0 ∧ key.protocolType = rth.fl.protocolType ∧ key.dstPort = rth.fl.dstPort ∧
    key.srcPort = rth.fl.srcPort ∧ rth.fl.tos = skb.tos &&& iptosRtMask

/-- An entry of the key is interned, as at the end of both paths. -/
def internInput (table : Table) (skb : SkBuff) (key : PortKey) (route : Route) :
    Except Errno Rtable × Table :=
  rtInternHash routing.moment (hashInput seed skb)
    ⟨route.id, inputFlow skb key, route.dev, route.rtType⟩ routing.attempts table

def ipRouteInputSlow (table : Table) (skb : SkBuff) : Except Errno Rtable × Table :=
  match routing.slow skb with
  | .error err => (.error err, table)
  | .ok route => internInput seed routing table skb (slowPortKey skb) route

/-- `ip_route_input_mc`, which leaves protocol and ports 0. -/
def ipRouteInputMc (table : Table) (skb : SkBuff) : Except Errno Rtable × Table :=
  match routing.mc skb with
  | .error err => (.error err, table)
  | .ok route => internInput seed routing table skb .none { route with rtType := .multicast }

/-- `ip_route_input` where the cache has no answer. -/
def routeMissed (table : Table) (skb : SkBuff) : Except Errno Rtable × Table :=
  if Multicast skb.daddr then ipRouteInputMc seed routing table skb
  else ipRouteInputSlow seed routing table skb

def ipRouteInput (table : Table) (skb : SkBuff) : Except Errno Rtable × Table :=
  match lookup seed table skb with
  | some rth => (.ok rth, table)
  | none => routeMissed seed routing table skb

/-- The fast path builds the key that the entry gets. -/
def Refound (skb : SkBuff) : Prop :=
  if Multicast skb.daddr then
    skb.protocol ≠ ipprotoTcp ∧ skb.protocol ≠ ipprotoUdp ∧ skb.protocol ≠ ipprotoIcmp
  else skb.protocol ≠ ipprotoEsp

instance (skb : SkBuff) : Decidable (Refound skb) := inferInstanceAs (Decidable (ite _ _ _))

section Keys

variable {skb : SkBuff}

theorem fastPortKey_eq_slowPortKey : fastPortKey skb = slowPortKey skb ↔
    skb.protocol ≠ ipprotoEsp := by
  rw [fastPortKey, slowPortKey]
  by_cases htcp : skb.protocol = ipprotoTcp
  · rw [if_pos htcp, if_pos htcp, htcp]
    exact iff_of_true rfl (by decide)
  · by_cases hudp : skb.protocol = ipprotoUdp
    · rw [if_neg htcp, if_neg htcp, if_pos hudp, if_pos hudp, hudp]
      exact iff_of_true rfl (by decide)
    · by_cases hicmp : skb.protocol = ipprotoIcmp
      · rw [if_neg htcp, if_neg htcp, if_neg hudp, if_neg hudp, if_pos hicmp, if_pos hicmp, hicmp]
        exact iff_of_true rfl (by decide)
      · rw [if_neg htcp, if_neg htcp, if_neg hudp, if_neg hudp, if_neg hicmp, if_neg hicmp]
        by_cases hesp : skb.protocol = ipprotoEsp
        · rw [if_pos hesp]
          exact iff_of_false (by decide) fun hne => hne hesp
        · rw [if_neg hesp]
          exact iff_of_true rfl hesp

theorem fastPortKey_eq_none : fastPortKey skb = .none ↔
    skb.protocol ≠ ipprotoTcp ∧ skb.protocol ≠ ipprotoUdp ∧ skb.protocol ≠ ipprotoIcmp := by
  have hkey : ∀ protocol src dst, protocol ≠ 0 → PortKey.mk protocol src dst ≠ .none :=
    fun protocol src dst hne heq => hne (congrArg PortKey.protocolType heq)
  rw [fastPortKey]
  by_cases htcp : skb.protocol = ipprotoTcp
  · rw [if_pos htcp]
    exact iff_of_false (hkey _ _ _ (by decide)) fun hne => hne.1 htcp
  · by_cases hudp : skb.protocol = ipprotoUdp
    · rw [if_neg htcp, if_pos hudp]
      exact iff_of_false (hkey _ _ _ (by decide)) fun hne => hne.2.1 hudp
    · by_cases hicmp : skb.protocol = ipprotoIcmp
      · rw [if_neg htcp, if_neg hudp, if_pos hicmp]
        exact iff_of_false (hkey _ _ _ (by decide)) fun hne => hne.2.2 hicmp
      · rw [if_neg htcp, if_neg hudp, if_neg hicmp]
        exact iff_of_true rfl ⟨htcp, hudp, hicmp⟩

end Keys

section Refound

variable {seed : Seed} {routing : Routing} {table : Table} {skb : SkBuff} {key : PortKey}
  {route : Route} {rth : Rtable}

/-- The entry just interned stands first, so the lookup answers with it if the keys agree. -/
theorem lookup_internInput (h : (internInput seed routing table skb key route).1 = .ok rth) :
    lookup seed (internInput seed routing table skb key route).2 skb = some rth ↔
      fastPortKey skb = key := by
  obtain ⟨hfl, rest, hrest⟩ := rtInternHash_ok h
  have hmatch : (rth.fl.daddr = skb.daddr ∧ rth.fl.saddr = skb.saddr ∧
      rth.fl.iif = skb.dev.ifindex ∧ rth.fl.oif = 0 ∧
      (fastPortKey skb).protocolType = rth.fl.protocolType ∧
      (fastPortKey skb).dstPort = rth.fl.dstPort ∧ (fastPortKey skb).srcPort = rth.fl.srcPort ∧
      rth.fl.tos = skb.tos &&& iptosRtMask) ↔ fastPortKey skb = key := by
    rw [hfl, PortKey.ext_iff]
    simp only [inputFlow, true_and, and_true]
    tauto
  rw [lookup, internInput, hrest, ← hmatch]
  constructor
  · intro hfound
    simpa using List.find?_some hfound
  · intro h
    rw [List.find?_cons_of_pos (by simpa using h)]

/-- An identical packet is answered with the entry just made exactly if it is refound. -/
theorem lookup_routeMissed_iff (h : (routeMissed seed routing table skb).1 = .ok rth) :
    lookup seed (routeMissed seed routing table skb).2 skb = some rth ↔ Refound skb := by
  unfold routeMissed Refound at *
  by_cases hmulticast : Multicast skb.daddr
  · rw [if_pos hmulticast] at h ⊢
    rw [if_pos hmulticast, ← fastPortKey_eq_none]
    unfold ipRouteInputMc at *
    split at h
    · cases h
    · exact lookup_internInput h
  · rw [if_neg hmulticast] at h ⊢
    rw [if_neg hmulticast, ← fastPortKey_eq_slowPortKey]
    unfold ipRouteInputSlow at *
    split at h
    · cases h
    · exact lookup_internInput h

theorem tcp_packet_is_refound :
    let moment : Moment := ⟨fun _ => 1, fun _ => 0, 8, fun _ => none, fun _ => false⟩
    let routing : Routing := ⟨fun _ => .ok ⟨1, 3, .unicast⟩, fun _ => .error .einval,
      fun _ => moment, 0⟩
    let skb : SkBuff := ⟨6, 40000, 80, 0x08080808, 0xc0a80164, 0, ⟨2, by decide⟩⟩
    lookup ⟨0, 4095⟩ (routeMissed ⟨0, 4095⟩ routing (fun _ => []) skb).2 skb =
      some ⟨1, inputFlow skb ⟨6, 40000, 80⟩, 3, .unicast⟩ ↔ Refound skb :=
  lookup_routeMissed_iff (by decide +kernel)

/-- The slow path keeps the protocol ESP in the key, the fast path asks for protocol 0. -/
theorem esp_packet_is_not_refound :
    let moment : Moment := ⟨fun _ => 1, fun _ => 0, 8, fun _ => none, fun _ => false⟩
    let routing : Routing := ⟨fun _ => .ok ⟨1, 3, .unicast⟩, fun _ => .error .einval,
      fun _ => moment, 0⟩
    let skb : SkBuff := ⟨50, 0, 4097, 0xcb007105, 0xc0a80164, 0, ⟨2, by decide⟩⟩
    (routeMissed ⟨0, 4095⟩ routing (fun _ => []) skb).1 =
        .ok ⟨1, inputFlow skb ⟨50, 0, 0⟩, 3, .unicast⟩ ∧
      lookup ⟨0, 4095⟩ (routeMissed ⟨0, 4095⟩ routing (fun _ => []) skb).2 skb = none := by
  decide +kernel

theorem bucket_inputFlow : (inputFlow skb key).bucket seed = hashInput seed skb := by
  rw [Flowi.bucket, inputFlow, if_neg skb.dev.registered]
  rfl

theorem wellFormed_ipRouteInput (htable : (layout seed).WellFormed table) :
    (layout seed).WellFormed (ipRouteInput seed routing table skb).2 := by
  have hintern : ∀ key route,
      (layout seed).WellFormed (internInput seed routing table skb key route).2 :=
    fun _ _ => wellFormed_rtInternHash htable bucket_inputFlow
  rw [ipRouteInput, routeMissed, ipRouteInputMc, ipRouteInputSlow]
  split
  · exact htable
  · split
    · split
      · exact htable
      · exact hintern _ _
    · split
      · exact htable
      · exact hintern _ _

end Refound

/-! ## Replies -/

/-- `nk_multipath_select`: the first device that an entry of the reverse flow came in on. -/
def nkMultipathSelect (devBase : List NetDevice) (table : Table) (daddr saddr proto dport sport :
    UInt32) (tos : UInt8) : Option NetDevice :=
  devBase.find? fun device =>
    (table (rtHashCode seed saddr (daddr ^^^ (device.ifindex <<< 5)) tos)).any fun rth =>
      rth.fl.daddr = saddr ∧ rth.fl.saddr = daddr ∧ rth.fl.iif = device.ifindex ∧
      rth.fl.oif = 0 ∧ proto = rth.fl.protocolType ∧ sport = rth.fl.dstPort ∧
      dport = rth.fl.srcPort

/-- A flow of a remote address and port to a host and port. -/
structure Request where
  remote : UInt32
  port : UInt32
  host : UInt32
  hostPort : UInt32
  protocol : UInt32

/-- The entry is one of packets of the flow. -/
def Request.Owns (req : Request) (rth : Rtable) : Prop :=
  rth.fl.daddr = req.host ∧ rth.fl.saddr = req.remote ∧ rth.fl.protocolType = req.protocol ∧
    rth.fl.dstPort = req.hostPort ∧ rth.fl.srcPort = req.port ∧ rth.fl.iif ≠ 0 ∧ rth.fl.oif = 0

instance (req : Request) (rth : Rtable) : Decidable (req.Owns rth) :=
  inferInstanceAs (Decidable (_ ∧ _))

/-- `nk_multipath_select` for a packet of the host back to the remote address. -/
def selectForReply (devBase : List NetDevice) (table : Table) (req : Request) (tos : UInt8) :
    Option NetDevice :=
  nkMultipathSelect seed devBase table req.remote req.host req.protocol req.port req.hostPort tos

/-- The cache holds one input entry of the flow, and it came in on the device. -/
structure OnlyEntry (table : Table) (req : Request) (device : NetDevice) (rth : Rtable) :
    Prop where
  cached : ∃ i, rth ∈ table i
  owns : req.Owns rth
  iif : rth.fl.iif = device.ifindex
  only : ∀ i, ∀ e ∈ table i, req.Owns e → e = rth

section Replies

variable {seed}
variable {table : Table} {req : Request} {rth : Rtable} {device : NetDevice} {tos : UInt8}

/-- `nk_multipath_select` finds an entry of the flow in the bucket of the reply. -/
theorem select_test_iff :
    ((table (rtHashCode seed req.host (req.remote ^^^ (device.ifindex <<< 5)) tos)).any fun rth =>
      rth.fl.daddr = req.host ∧ rth.fl.saddr = req.remote ∧ rth.fl.iif = device.ifindex ∧
      rth.fl.oif = 0 ∧ req.protocol = rth.fl.protocolType ∧ req.hostPort = rth.fl.dstPort ∧
      req.port = rth.fl.srcPort) = true ↔
    ∃ e ∈ table (rtHashCode seed req.host (req.remote ^^^ (device.ifindex <<< 5)) tos),
      req.Owns e ∧ e.fl.iif = device.ifindex := by
  rw [List.any_eq_true]
  constructor
  · intro h
    obtain ⟨e, he, htest⟩ := h
    obtain ⟨hdaddr, hsaddr, hiif, hoif, hproto, hsport, hdport⟩ := of_decide_eq_true htest
    exact ⟨e, he, ⟨hdaddr, hsaddr, hproto.symm, hsport.symm, hdport.symm,
      hiif ▸ device.registered, hoif⟩, hiif⟩
  · intro h
    obtain ⟨e, he, ⟨hdaddr, hsaddr, hproto, hsport, hdport, _, hoif⟩, hiif⟩ := h
    exact ⟨e, he, decide_eq_true
      ⟨hdaddr, hsaddr, hiif, hoif, hproto.symm, hsport.symm, hdport.symm⟩⟩

/-- The reply leaves by the device of the request exactly if its TOS leads to the bucket that
the TOS of the request led to. -/
theorem selectForReply_iff (devBase : List NetDevice) (cache : Cache seed) (req : Request)
    (device : NetDevice) (rth : Rtable) (tos : UInt8) (hdevice : device ∈ devBase)
    (hentry : OnlyEntry cache.table req device rth) :
    selectForReply seed devBase cache.table req tos = some device ↔
      rtHashCode seed req.host (req.remote ^^^ (device.ifindex <<< 5)) tos =
        rtHashCode seed req.host (req.remote ^^^ (device.ifindex <<< 5)) rth.fl.tos := by
  obtain ⟨⟨i, hmem⟩, howns, hiif, honly⟩ := hentry
  have hbucket : rth.fl.bucket seed =
      rtHashCode seed req.host (req.remote ^^^ (device.ifindex <<< 5)) rth.fl.tos := by
    rw [Flowi.bucket, howns.1, howns.2.1, hiif, if_neg device.registered]
  have hi : rth.fl.bucket seed = i := cache.wellFormed.hashed i rth hmem
  rw [selectForReply, nkMultipathSelect]
  constructor
  · intro hfound
    have htest := List.find?_some hfound
    obtain ⟨e, he, howns', _⟩ := select_test_iff.mp htest
    have heq : e = rth := honly _ e he howns'
    have hhashed := cache.wellFormed.hashed _ e he
    rw [heq] at hhashed
    exact hhashed.symm.trans hbucket
  · intro hsame
    have hcached : ∃ e ∈ cache.table
        (rtHashCode seed req.host (req.remote ^^^ (device.ifindex <<< 5)) tos),
        req.Owns e ∧ e.fl.iif = device.ifindex := by
      rw [hsame, ← hbucket, hi]
      exact ⟨rth, hmem, howns, hiif⟩
    cases hfind : devBase.find? _ with
    | none =>
      have htest := List.find?_eq_none.mp hfind device hdevice
      exact absurd (select_test_iff.mpr hcached) htest
    | some d =>
      -- No other device passes the test, for the entry tells the device.
      have htest := List.find?_some hfind
      obtain ⟨e, he, howns', hiif'⟩ := select_test_iff.mp htest
      rw [honly _ e he howns', hiif] at hiif'
      rw [NetDevice.ext hiif']

theorem onlyEntry_intern {moment : ℕ → Moment} {rt : Rtable} {attempts : ℕ} (howns : req.Owns rt)
    (hiif : rt.fl.iif = device.ifindex)
    (hok : ((Cache.empty seed).intern moment attempts rt).1 = .ok rt) :
    OnlyEntry ((Cache.empty seed).intern moment attempts rt).2.table req device rt where
  cached := by
    obtain ⟨-, rest, hrest⟩ := rtInternHash_ok hok
    refine ⟨rt.fl.bucket seed, ?_⟩
    have hmem : rt ∈ rt :: rest := List.mem_cons_self
    rw [← hrest] at hmem
    exact hmem
  owns := howns
  iif := hiif
  only i e he _ := by
    rcases mem_rtInternHash he with he | ⟨_, rfl, _⟩
    · cases he
    · rfl

theorem reply_of_same_tos :
    let moment : Moment := ⟨fun _ => 1, fun _ => 0, 8, fun _ => none, fun _ => false⟩
    let rt : Rtable := ⟨1, ⟨0xc6336401, 0xcb007105, 0, 6, 40000, 8080, 0, 2⟩, 1, .local⟩
    let cache := ((Cache.empty ⟨0, 4095⟩).intern (fun _ => moment) 0 rt).2
    let req : Request := ⟨0xcb007105, 40000, 0xc6336401, 8080, 6⟩
    selectForReply ⟨0, 4095⟩ [⟨1, by decide⟩, ⟨2, by decide⟩] cache.table req 0 =
      some ⟨2, by decide⟩ ↔
      rtHashCode ⟨0, 4095⟩ req.host (req.remote ^^^ ((2 : UInt32) <<< 5)) 0 =
        rtHashCode ⟨0, 4095⟩ req.host (req.remote ^^^ ((2 : UInt32) <<< 5)) rt.fl.tos := by
  intro moment rt cache req
  have hentry : OnlyEntry cache.table req ⟨2, by decide⟩ rt :=
    onlyEntry_intern (by decide) rfl (by decide +kernel)
  exact selectForReply_iff _ cache req ⟨2, by decide⟩ rt 0 (by decide) hentry

/-- The request came with TOS 0 and the reply has the bit of low delay: no device is found. -/
theorem reply_of_other_tos_is_lost :
    let moment : Moment := ⟨fun _ => 1, fun _ => 0, 8, fun _ => none, fun _ => false⟩
    let rt : Rtable := ⟨1, ⟨0xc6336401, 0xcb007105, 0, 6, 40000, 8080, 0, 2⟩, 1, .local⟩
    let cache := ((Cache.empty ⟨0, 4095⟩).intern (fun _ => moment) 0 rt).2
    let req : Request := ⟨0xcb007105, 40000, 0xc6336401, 8080, 6⟩
    OnlyEntry cache.table req ⟨2, by decide⟩ rt ∧
      selectForReply ⟨0, 4095⟩ [⟨1, by decide⟩, ⟨2, by decide⟩] cache.table req 0x10 = none := by
  intro moment rt cache req
  exact ⟨onlyEntry_intern (by decide) rfl (by decide +kernel), by decide +kernel⟩

end Replies

end InputRoutes
