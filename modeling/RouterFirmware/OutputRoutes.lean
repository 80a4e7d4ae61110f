import RouterFirmware.FibRules
import RouterFirmware.GuardedRun
import RouterFirmware.InputRoutes

/-! # Output routes

A flow of the box itself is routed by the rules with its protocol and ports, but its entry in
the cache is stored and found without them. The flows of one key get one route, whichever of
them came first.
-/
namespace OutputRoutes

open BucketTable FibRules GuardedRun InputRoutes Multipath RouteCache

def rtoOnlink : UInt8 := 1

def rtScopeUniverse : UInt8 := 0

def rtScopeLink : UInt8 := 253

def rtScopeHost : UInt8 := 254

def inaddrLoopback : UInt32 := 0x7f000001

def inaddrBroadcast : UInt32 := 0xffffffff

def Badclass (addr : UInt32) : Prop := addr &&& 0xf0000000 = 0xf0000000

def Zeronet (addr : UInt32) : Prop := addr &&& 0xff000000 = 0

def Loopback (addr : UInt32) : Prop := addr &&& 0xff000000 = 0x7f000000

def LocalMcast (addr : UInt32) : Prop := addr &&& 0xffffff00 = 0xe0000000

instance (addr : UInt32) : Decidable (Badclass addr) := inferInstanceAs (Decidable (_ = _))

instance (addr : UInt32) : Decidable (Zeronet addr) := inferInstanceAs (Decidable (_ = _))

instance (addr : UInt32) : Decidable (Loopback addr) := inferInstanceAs (Decidable (_ = _))

instance (addr : UInt32) : Decidable (LocalMcast addr) := inferInstanceAs (Decidable (_ = _))

structure OutFlow where
  daddr : UInt32
  saddr : UInt32
  oif : UInt32
  tos : UInt8
  proto : UInt8
  sport : UInt16
  dport : UInt16
  deriving DecidableEq

def OutFlow.rtFlTos (flp : OutFlow) : UInt8 := flp.tos &&& (iptosRtMask ||| rtoOnlink)

/-- The key of the entry of a flow: protocol and ports are left 0. -/
def OutFlow.key (flp : OutFlow) : Flowi :=
  ⟨flp.daddr, flp.saddr, flp.rtFlTos, 0, 0, 0, flp.oif, 0⟩

def OutFlow.portKey (flp : OutFlow) : PortKey :=
  if flp.proto = ipprotoTcp ∨ flp.proto = ipprotoUdp ∨ flp.proto = ipprotoIcmp then
    ⟨flp.proto.toUInt32, flp.sport.toUInt32, flp.dport.toUInt32⟩
  else .none

/-- What the routing reads and a flow does not change; devices are given by their `ifindex`
where only that is read. -/
structure Box where
  rules : List FibRule
  tables : FibTables
  devBase : List NetDevice
  loopbackDev : NetDevice
  /-- The device has the name `NK_LAN_IF`. -/
  isLan : NetDevice → Bool
  /-- The device has `IFF_LOOPBACK`. -/
  isLoopback : UInt32 → Bool
  ipDevFind : UInt32 → Option NetDevice
  devGetByIndex : UInt32 → Option UInt32
  /-- The device has an `in_device`. -/
  inDev : UInt32 → Bool
  inetSelectAddr : UInt32 → UInt8 → UInt32

/-- The time and the powers of the next hops when a flow is routed. -/
structure Clock where
  jiffies : UInt64
  fibPower : FibInfo → ℤ
  nhPower : FibInfo → ℕ → ℤ

def Clock.powered (clock : Clock) (fi : FibInfo) : FibInfo :=
  ⟨clock.fibPower fi, fi.fibNh.mapIdx fun i nh => { nh with nhPower := clock.nhPower fi i }⟩

/-- The variables of `ip_route_output_slow` at `make_route`. -/
structure Made where
  dev : UInt32
  daddr : UInt32
  saddr : UInt32
  type : RtType
  deriving DecidableEq

/-- What is settled before the rules are asked: all of the route, or its source and devices. -/
inductive Target where
  | made (made : Made)
  | lookup (saddr : UInt32) (devOut : Option UInt32) (tempDevice : Option NetDevice)
  deriving DecidableEq

variable (seed : Seed) (box : Box)

/-- The device of the source address, and whether the flow is bound to it at once. -/
def sourceDevice (flp : OutFlow) : Except Errno (Option NetDevice) :=
  if flp.saddr = 0 then .ok none
  else if Multicast flp.saddr ∨ Badclass flp.saddr ∨ Zeronet flp.saddr then .error .einval
  else
    match box.ipDevFind flp.saddr with
    | none => .error .einval
    | some dev => .ok (some dev)

/-- `ip_route_output_slow`, from the destination to the rules. -/
def destination (flp : OutFlow) (saddr : UInt32) (devOut : Option UInt32)
    (tempDevice : Option NetDevice) : Target :=
  if flp.daddr = 0 then
    let addr := if saddr = 0 then inaddrLoopback else saddr
    .made ⟨box.loopbackDev.ifindex, addr, addr, .local⟩
  else .lookup saddr devOut tempDevice

def OutFlow.scope (flp : OutFlow) : UInt8 :=
  if flp.rtFlTos &&& rtoOnlink ≠ 0 then rtScopeLink else rtScopeUniverse

/-- `ip_route_output_slow`, up to the rules. -/
def target (flp : OutFlow) : Except Errno Target :=
  match sourceDevice box flp with
  | .error err => .error err
  | .ok source =>
    match source, decide (flp.oif = 0 ∧ (Multicast flp.daddr ∨ flp.daddr = inaddrBroadcast)) with
    | some dev, true => .ok (.made ⟨dev.ifindex, flp.daddr, flp.saddr, .unicast⟩)
    | source, _ =>
      let tempDevice := if flp.daddr ≠ flp.saddr then source else none
      if flp.oif = 0 then .ok (destination box flp flp.saddr none tempDevice)
      else
        match box.devGetByIndex flp.oif with
        | none => .error .enodev
        | some dev =>
          if box.inDev dev = false then .error .enodev
          else if LocalMcast flp.daddr ∨ flp.daddr = inaddrBroadcast then
            let saddr :=
              if flp.saddr = 0 then box.inetSelectAddr dev rtScopeLink else flp.saddr
            .ok (.made ⟨dev, flp.daddr, saddr, .unicast⟩)
          else
            let saddr :=
              if flp.saddr ≠ 0 then flp.saddr
              else if Multicast flp.daddr then box.inetSelectAddr dev flp.scope
              else if flp.daddr = 0 then box.inetSelectAddr dev rtScopeHost
              else 0
            .ok (destination box flp saddr (some dev) tempDevice)

/-- The device that the flow has to leave by: that of the request it answers, else that of its
source. -/
def outDevice (table : Table) (flp : OutFlow) (saddr : UInt32)
    (tempDevice : Option NetDevice) : Option NetDevice :=
  let selected := nkMultipathSelect seed box.devBase table flp.daddr saddr
    flp.portKey.protocolType flp.portKey.dstPort flp.portKey.srcPort flp.rtFlTos
  (selected.or tempDevice).filter fun dev => !box.isLan dev

def consult (table : Table) (flp : OutFlow) (saddr : UInt32) (tempDevice : Option NetDevice) :
    Except Errno (FibRule × FibRoute) :=
  nkFibLookup box.tables
    ⟨flp.daddr, saddr, flp.rtFlTos &&& iptosRtMask, flp.scope, flp.oif, box.loopbackDev.ifindex,
      false, flp.portKey.protocolType, flp.portKey.srcPort, flp.portKey.dstPort⟩
    ((outDevice seed box table flp saddr tempDevice).map NetDevice.ifindex) box.rules

/-- The route of a result of the rules, with the next hop chosen. -/
def routeOf (clock : Clock) (flp : OutFlow) (saddr : UInt32) (res : FibRoute) :
    Except Errno Made :=
  if res.type = .local then
    .ok ⟨box.loopbackDev.ifindex, flp.daddr, if saddr = 0 then flp.daddr else saddr, .local⟩
  else
    let nhSel :=
      if res.fi.fibNhs > 1 ∧ flp.oif = 0 then
        (fibSelectMultipath clock.jiffies (clock.powered res.fi)).2
      else res.nhSel
    match res.fi.devices[nhSel]? with
    | some dev => .ok ⟨dev, flp.daddr, if saddr = 0 then res.prefsrc nhSel else saddr, res.type⟩
    | none => .error .einval

/-- `ip_route_output_slow`, up to `make_route`. -/
def makeRoute (table : Table) (clock : Clock) (flp : OutFlow) : Except Errno Made :=
  match target box flp with
  | .error err => .error err
  | .ok (.made made) => .ok made
  | .ok (.lookup saddr devOut tempDevice) =>
    match consult seed box table flp saddr tempDevice with
    | .ok (_, res) => routeOf box clock flp saddr res
    | .error _ =>
      match devOut with
      | some dev =>
        .ok ⟨dev, flp.daddr, if saddr = 0 then box.inetSelectAddr dev rtScopeLink else saddr,
          .unicast⟩
      | none => .error .enetunreach

/-- The checks of `__mkroute_output`; they give the type of the route. -/
def mkrouteOutput (made : Made) : Except Errno RtType :=
  if Loopback made.saddr ∧ box.isLoopback made.dev = false then .error .einval
  else if made.daddr ≠ inaddrBroadcast ∧ ¬ Multicast made.daddr ∧
      (Badclass made.daddr ∨ Zeronet made.daddr) then .error .einval
  else if box.inDev made.dev = false then .error .einval
  else if made.daddr = inaddrBroadcast then .ok .broadcast
  else if Multicast made.daddr then .ok .multicast
  else .ok made.type

/-- The device and the type of the route that `ip_route_output_slow` makes. -/
def resolve (table : Table) (clock : Clock) (flp : OutFlow) : Except Errno (UInt32 × RtType) :=
  match makeRoute seed box table clock flp with
  | .error err => .error err
  | .ok made => (mkrouteOutput box made).map fun type => (made.dev, type)

/-- A call of `__ip_route_output_key`, with what it meets. -/
structure Call where
  flp : OutFlow
  clock : Clock
  dstAlloc : Bool
  moment : ℕ → Moment
  attempts : ℕ

/-- `ip_route_output_slow`; the new entry gets the number `id`. -/
def ipRouteOutputSlow (cache : Cache seed) (id : ℕ) (c : Call) :
    Except Errno Rtable × Cache seed :=
  match resolve seed box cache.table c.clock c.flp with
  | .error err => (.error err, cache)
  | .ok route =>
    if c.dstAlloc then cache.intern c.moment c.attempts ⟨id, c.flp.key, route.1, route.2⟩
    else (.error .enobufs, cache)

/-- The bucket that `__ip_route_output_key` searches: the TOS is not masked. -/
def hashOutput (flp : OutFlow) : UInt32 :=
  rtHashCode seed flp.daddr (flp.saddr ^^^ (flp.oif <<< 5)) flp.tos

/-- The cache lookup of `__ip_route_output_key`. -/
def lookupOutput (table : Table) (flp : OutFlow) : Option Rtable :=
  (table (hashOutput seed flp)).find? fun rth =>
    rth.fl.daddr = flp.daddr ∧ rth.fl.saddr = flp.saddr ∧ rth.fl.iif = 0 ∧
    rth.fl.oif = flp.oif ∧ (rth.fl.tos ^^^ flp.tos) &&& (iptosRtMask ||| rtoOnlink) = 0

def ipRouteOutputKey (cache : Cache seed) (id : ℕ) (c : Call) :
    Except Errno Rtable × Cache seed :=
  match lookupOutput seed cache.table c.flp with
  | some rth => (.ok rth, cache)
  | none => ipRouteOutputSlow seed box cache id c

/-! ## Runs -/

/-- The cache and the flows routed so far; the entry of the flow at place `i` has number `i`. -/
structure State (seed : Seed) where
  cache : Cache seed
  flows : List OutFlow

def State.initial (seed : Seed) : State seed := ⟨.empty seed, []⟩

def answer (s : State seed) (c : Call) : Except Errno Rtable × Cache seed :=
  ipRouteOutputKey seed box s.cache s.flows.length c

def next (s : State seed) (c : Call) : State seed :=
  ⟨(answer seed box s c).2, s.flows ++ [c.flp]⟩

/-- The rule that decides on the route of the flow, if one does. -/
def governing (table : Table) (flp : OutFlow) : Option FibRule :=
  match target box flp with
  | .ok (.lookup saddr _ tempDevice) =>
    match consult seed box table flp saddr tempDevice with
    | .ok (rule, _) => some rule
    | .error _ => none
  | _ => none

/-- `ip_route_output_slow` could choose the device for the flow. -/
def CouldReturn (table : Table) (flp : OutFlow) (dev : UInt32) : Prop :=
  ∃ clock type, resolve seed box table clock flp = .ok (dev, type)

/-- The flow leaves by a device that it could get from the slow path, and an entry that serves
it was made for a flow that the same rule governs. -/
def Good (s : State seed) (c : Call) : Prop :=
  ∀ rth, (answer seed box s c).1 = .ok rth →
    CouldReturn seed box s.cache.table c.flp rth.dev ∧
    ∀ g, (next seed box s c).flows[rth.id]? = some g →
      governing seed box s.cache.table g = governing seed box s.cache.table c.flp

def noCache : Table := fun _ => []

/-- The later flow can be served with the entry of the earlier one, which another rule governs. -/
structure Conflict (g f : OutFlow) : Prop where
  key : g.key = f.key
  rules : governing seed box noCache g ≠ governing seed box noCache f
  earlier : ∃ dev, CouldReturn seed box noCache g dev
  later : hashOutput seed f = f.key.bucket seed ∨ ∃ dev, CouldReturn seed box noCache f dev

/-! ## The flows of one key -/

section Key

variable {seed box}
variable {table : Table} {f g : OutFlow} {clock : Clock}

theorem nkMultipathSelect_of_output (h : ∀ i, ∀ e ∈ table i, e.fl.iif = 0)
    (devBase : List NetDevice) (daddr saddr proto dport sport : UInt32) (tos : UInt8) :
    nkMultipathSelect seed devBase table daddr saddr proto dport sport tos = none := by
  rw [nkMultipathSelect, List.find?_eq_none]
  intro device _ hany
  obtain ⟨e, he, htest⟩ := List.any_eq_true.mp hany
  have hiif := (of_decide_eq_true htest).2.2.1
  exact device.registered (hiif ▸ h _ e he)

theorem outDevice_of_output (h : ∀ i, ∀ e ∈ table i, e.fl.iif = 0) (flp : OutFlow)
    (saddr : UInt32) (tempDevice : Option NetDevice) :
    outDevice seed box table flp saddr tempDevice =
      tempDevice.filter fun dev => !box.isLan dev := by
  rw [outDevice, nkMultipathSelect_of_output h]
  rfl

/-- With no input entry in the cache the routing is that of an empty cache. -/
theorem consult_of_output (h : ∀ i, ∀ e ∈ table i, e.fl.iif = 0) (flp : OutFlow)
    (saddr : UInt32) (tempDevice : Option NetDevice) :
    consult seed box table flp saddr tempDevice =
      consult seed box noCache flp saddr tempDevice := by
  have hempty : ∀ i, ∀ e ∈ noCache i, e.fl.iif = 0 := fun i e he => by cases he
  rw [consult, consult, outDevice_of_output h, outDevice_of_output hempty]

theorem governing_of_output (h : ∀ i, ∀ e ∈ table i, e.fl.iif = 0) (flp : OutFlow) :
    governing seed box table flp = governing seed box noCache flp := by
  simp only [governing, consult_of_output h]

theorem resolve_of_output (h : ∀ i, ∀ e ∈ table i, e.fl.iif = 0) (flp : OutFlow) :
    resolve seed box table clock flp = resolve seed box noCache clock flp := by
  simp only [resolve, makeRoute, consult_of_output h]

theorem fields_of_key_eq (h : g.key = f.key) :
    g.daddr = f.daddr ∧ g.saddr = f.saddr ∧ g.oif = f.oif ∧ g.rtFlTos = f.rtFlTos :=
  ⟨congrArg Flowi.daddr h, congrArg Flowi.saddr h, congrArg Flowi.oif h, congrArg Flowi.tos h⟩

theorem target_congr (h : g.key = f.key) : target box g = target box f := by
  obtain ⟨hdaddr, hsaddr, hoif, htos⟩ := fields_of_key_eq h
  have hscope : g.scope = f.scope := by rw [OutFlow.scope, OutFlow.scope, htos]
  cases g
  cases f
  dsimp only at hdaddr hsaddr hoif
  subst hdaddr hsaddr hoif
  simp only [target, hscope]
  rfl

/-- The same rule sends the flows of one key to the same route of its table. -/
theorem consult_unique (h : g.key = f.key) {saddr : UInt32} {tempDevice : Option NetDevice}
    {rule : FibRule} {res res' : FibRoute}
    (hg : consult seed box noCache g saddr tempDevice = .ok (rule, res))
    (hf : consult seed box noCache f saddr tempDevice = .ok (rule, res')) : res = res' := by
  have hempty : ∀ i, ∀ e ∈ noCache i, e.fl.iif = 0 := fun i e he => by cases he
  obtain ⟨hdaddr, hsaddr, hoif, htos⟩ := fields_of_key_eq h
  have hscope : g.scope = f.scope := by rw [OutFlow.scope, OutFlow.scope, htos]
  rw [consult, outDevice_of_output hempty] at hg hf
  obtain ⟨_, _, tb, htb, hfound⟩ := nkFibLookup_ok hg
  obtain ⟨_, _, tb', htb', hfound'⟩ := nkFibLookup_ok hf
  rw [htb] at htb'
  cases htb'
  dsimp only at hfound hfound'
  rw [hdaddr, htos, hscope, hoif, hfound'] at hfound
  exact (TableAnswer.found.inj hfound).symm

/-- Flows of one key that the same rule governs have the same routes. -/
theorem resolve_congr (h : g.key = f.key)
    (hrules : governing seed box noCache g = governing seed box noCache f) :
    resolve seed box noCache clock g = resolve seed box noCache clock f := by
  obtain ⟨hdaddr, hsaddr, hoif, htos⟩ := fields_of_key_eq h
  unfold governing at hrules
  unfold resolve makeRoute
  rw [target_congr h] at hrules ⊢
  cases htarget : target box f with
  | error err => rfl
  | ok settled =>
    cases settled with
    | made made => rfl
    | lookup saddr devOut tempDevice =>
      rw [htarget] at hrules
      dsimp only at hrules ⊢
      cases hg : consult seed box noCache g saddr tempDevice with
      | error err =>
        rw [hg] at hrules
        cases hf : consult seed box noCache f saddr tempDevice with
        | error err' => rw [hdaddr]
        | ok ruled =>
          rw [hf] at hrules
          cases hrules
      | ok ruled =>
        rw [hg] at hrules
        cases hf : consult seed box noCache f saddr tempDevice with
        | error err =>
          rw [hf] at hrules
          cases hrules
        | ok ruled' =>
          rw [hf] at hrules
          obtain ⟨rule, res⟩ := ruled
          obtain ⟨rule', res'⟩ := ruled'
          cases hrules
          have hroute : routeOf box clock g saddr res = routeOf box clock f saddr res' := by
            rw [routeOf, routeOf, consult_unique h hg hf, hdaddr, hoif]
          dsimp only
          rw [hroute]

theorem couldReturn_congr (h : g.key = f.key)
    (hrules : governing seed box noCache g = governing seed box noCache f) {dev : UInt32}
    (hdev : CouldReturn seed box noCache g dev) : CouldReturn seed box noCache f dev := by
  obtain ⟨clock, type, hresolve⟩ := hdev
  exact ⟨clock, type, (resolve_congr h hrules) ▸ hresolve⟩

theorem couldReturn_of_output (h : ∀ i, ∀ e ∈ table i, e.fl.iif = 0) {dev : UInt32} :
    CouldReturn seed box table f dev ↔ CouldReturn seed box noCache f dev := by
  simp only [CouldReturn, resolve_of_output h]

end Key

/-! ## What the cache holds -/

/-- Every entry was made for the flow at its place, with a device that flow could get. -/
def MadeFor (s : State seed) : Prop :=
  ∀ i, ∀ e ∈ s.cache.table i, ∃ g, s.flows[e.id]? = some g ∧ e.fl = g.key ∧
    CouldReturn seed box noCache g e.dev

section Runs

variable {seed box}
variable {s : State seed} {c : Call} {rth : Rtable} {f g : OutFlow}

theorem iif_of_madeFor (h : MadeFor seed box s) : ∀ i, ∀ e ∈ s.cache.table i, e.fl.iif = 0 := by
  intro i e he
  obtain ⟨g, _, hkey, _⟩ := h i e he
  rw [hkey]
  rfl

theorem madeFor_initial : MadeFor seed box (State.initial seed) := by
  intro i e he
  cases he

theorem masked_eq {a b m : UInt8} : ((a &&& m) ^^^ b) &&& m = 0 ↔ a &&& m = b &&& m := by
  have hdistrib : ((a &&& m) ^^^ b) &&& m = (a &&& m) ^^^ (b &&& m) := by
    apply UInt8.toBitVec_inj.mp
    ext i hi
    simp only [UInt8.toBitVec_and, UInt8.toBitVec_xor, BitVec.getElem_and, BitVec.getElem_xor]
    cases m.toBitVec[i] <;> simp
  rw [hdistrib, UInt8.xor_eq_zero_iff]

/-- The flow has the key, as far as `__ip_route_output_key` compares. -/
theorem compare_iff : (g.key.daddr = f.daddr ∧ g.key.saddr = f.saddr ∧ g.key.iif = 0 ∧
    g.key.oif = f.oif ∧ (g.key.tos ^^^ f.tos) &&& (iptosRtMask ||| rtoOnlink) = 0) ↔
    g.key = f.key := by
  have htos : (g.key.tos ^^^ f.tos) &&& (iptosRtMask ||| rtoOnlink) = 0 ↔
      g.rtFlTos = f.rtFlTos := masked_eq
  rw [htos]
  simp only [OutFlow.key, Flowi.mk.injEq, true_and, and_true]
  tauto

/-- An entry found has the key of the flow, and stands in the bucket searched. -/
theorem lookupOutput_some (hs : MadeFor seed box s)
    (h : lookupOutput seed s.cache.table f = some rth) :
    rth ∈ s.cache.table (hashOutput seed f) ∧ rth.fl = f.key := by
  have hmem := List.mem_of_find?_eq_some h
  refine ⟨hmem, ?_⟩
  obtain ⟨g, _, hkey, _⟩ := hs _ _ hmem
  have htest := List.find?_some h
  rw [hkey] at htest ⊢
  exact compare_iff.mp (of_decide_eq_true htest)

/-- The answer is an entry made earlier for a flow of the key, or the one made for the flow. -/
theorem answer_cases (hs : MadeFor seed box s) (h : (answer seed box s c).1 = .ok rth) :
    (∃ i, rth ∈ s.cache.table i ∧ rth.fl = c.flp.key ∧
      (i = hashOutput seed c.flp ∨ ∃ dev, CouldReturn seed box noCache c.flp dev)) ∨
    (rth.id = s.flows.length ∧ CouldReturn seed box noCache c.flp rth.dev) := by
  unfold answer ipRouteOutputKey at h
  split at h
  · next found hfound =>
    cases h
    obtain ⟨hmem, hkey⟩ := lookupOutput_some hs hfound
    exact .inl ⟨_, hmem, hkey, .inl rfl⟩
  · unfold ipRouteOutputSlow at h
    split at h
    · cases h
    · next route hroute =>
      rw [resolve_of_output (iif_of_madeFor hs)] at hroute
      split at h
      · rcases mem_or_eq_of_rtInternHash_ok h with hmem | rfl
        · exact .inl ⟨_, hmem, (rtInternHash_ok h).1, .inr ⟨_, _, _, hroute⟩⟩
        · exact .inr ⟨rfl, _, _, hroute⟩
      · cases h

theorem mem_next {i : UInt32} {e : Rtable} (hs : MadeFor seed box s)
    (h : e ∈ (next seed box s c).cache.table i) :
    e ∈ s.cache.table i ∨ (e.id = s.flows.length ∧ e.fl = c.flp.key ∧
      CouldReturn seed box noCache c.flp e.dev) := by
  unfold next answer ipRouteOutputKey at h
  split at h
  · exact .inl h
  · unfold ipRouteOutputSlow at h
    split at h
    · exact .inl h
    · next route hroute =>
      rw [resolve_of_output (iif_of_madeFor hs)] at hroute
      split at h
      · rcases mem_rtInternHash h with hmem | ⟨_, rfl, _⟩
        · exact .inl hmem
        · exact .inr ⟨rfl, rfl, _, _, hroute⟩
      · exact .inl h

theorem flows_next {i : ℕ} (c : Call) (h : s.flows[i]? = some g) :
    (next seed box s c).flows[i]? = some g := by
  have hlt : i < s.flows.length := (List.getElem?_eq_some_iff.mp h).1
  rw [next, List.getElem?_append_left hlt, h]

theorem madeFor_next (hs : MadeFor seed box s) (c : Call) :
    MadeFor seed box (next seed box s c) := by
  intro i e he
  rcases mem_next hs he with he | ⟨hid, hkey, hdev⟩
  · obtain ⟨g, hget, hg⟩ := hs i e he
    exact ⟨g, flows_next c hget, hg⟩
  · refine ⟨c.flp, ?_, hkey, hdev⟩
    rw [next, hid]
    exact List.getElem?_concat_length

/-- A call is answered well while no earlier flow is in conflict with it. -/
theorem good_of_forall (hs : MadeFor seed box s)
    (hflows : ∀ g ∈ s.flows, ¬ Conflict seed box g c.flp) : Good seed box s c := by
  have hiif := iif_of_madeFor hs
  intro rth hrth
  rw [couldReturn_of_output hiif]
  simp only [governing_of_output hiif]
  rcases answer_cases hs hrth with ⟨i, hmem, hfl, hlater⟩ | ⟨hid, hdev⟩
  · obtain ⟨g, hget, hkey, hdev⟩ := hs i rth hmem
    have hsame : g.key = c.flp.key := hkey.symm.trans hfl
    have hrules : governing seed box noCache g = governing seed box noCache c.flp := by
      by_contra hne
      apply hflows g (List.mem_of_getElem? hget) ⟨hsame, hne, ⟨_, hdev⟩, ?_⟩
      apply hlater.imp_left
      intro heq
      subst heq
      have hbucket := s.cache.wellFormed.hashed _ rth hmem
      rw [← hfl]
      exact hbucket.symm
    refine ⟨couldReturn_congr hsame hrules hdev, ?_⟩
    intro g' hget'
    rw [flows_next c hget] at hget'
    cases hget'
    exact hrules
  · refine ⟨hdev, ?_⟩
    intro g hget
    rw [next, hid, List.getElem?_concat_length] at hget
    cases hget
    rfl

/-! ## A conflict shows -/

def quiet : Moment := ⟨fun _ => 1, fun _ => 0, 8, fun _ => none, fun _ => false⟩

theorem answer_initial {clock : Clock} {dev : UInt32} {type : RtType}
    (h : resolve seed box noCache clock g = .ok (dev, type)) :
    answer seed box (State.initial seed) ⟨g, clock, true, fun _ => quiet, 0⟩ =
      (Cache.empty seed).intern (fun _ => quiet) 0 ⟨0, g.key, dev, type⟩ := by
  have hnone : lookupOutput seed (Cache.empty seed).table g = none := rfl
  have hresolve : resolve seed box (Cache.empty seed).table clock g = .ok (dev, type) := h
  rw [answer, ipRouteOutputKey, ipRouteOutputSlow]
  rw [State.initial, hnone, hresolve]
  rfl

theorem intern_empty (rt : Rtable) :
    ((Cache.empty seed).intern (fun _ => quiet) 0 rt).2.table =
      Function.update noCache (rt.fl.bucket seed) [rt] := by
  have hshort : shorten quiet [] = [] := rfl
  have hbind : bindNeighbour quiet rt = none := by
    rw [bindNeighbour]
    split <;> rfl
  dsimp only [Cache.intern]
  rw [rtInternHash]
  dsimp only [Cache.empty, List.find?_nil]
  rw [hbind]
  dsimp only
  rw [hshort, Function.update_idem, Function.update_self]
  rfl

/-- The entry of the earlier flow serves the later one. -/
theorem answer_of_conflict (h : Conflict seed box g f) {rt : Rtable} (hrt : rt.fl = g.key)
    (hs : MadeFor seed box s)
    (htable : s.cache.table = Function.update noCache (rt.fl.bucket seed) [rt]) :
    ∃ clock, (answer seed box s ⟨f, clock, true, fun _ => quiet, 0⟩).1 = .ok rt := by
  have hkey : rt.fl = f.key := hrt.trans h.key
  by_cases hbucket : hashOutput seed f = f.key.bucket seed
  · -- The later flow finds the entry in the cache.
    refine ⟨⟨0, fun _ => 0, fun _ _ => 0⟩, ?_⟩
    have hfound : lookupOutput seed s.cache.table f = some rt := by
      rw [lookupOutput, htable, hbucket, hkey, Function.update_self]
      apply List.find?_cons_of_pos
      rw [hkey]
      exact decide_eq_true (compare_iff.mpr rfl)
    rw [answer, ipRouteOutputKey]
    rw [hfound]
  · -- It searches another bucket, and the slow path comes upon the entry.
    obtain ⟨dev, clock, type, hresolve⟩ := h.later.resolve_left hbucket
    refine ⟨clock, ?_⟩
    have hnone : lookupOutput seed s.cache.table f = none := by
      rw [lookupOutput, htable, hkey, Function.update_of_ne hbucket]
      rfl
    have hchain : s.cache.table (f.key.bucket seed) = [rt] := by
      rw [htable, hkey, Function.update_self]
    rw [answer, ipRouteOutputKey, ipRouteOutputSlow]
    rw [hnone]
    dsimp only
    rw [resolve_of_output (iif_of_madeFor hs), hresolve]
    dsimp only
    rw [if_pos rfl]
    dsimp only [Cache.intern]
    rw [rtInternHash, hchain, List.find?_cons_of_pos (by simpa using hkey)]

theorem exists_not_good (h : Conflict seed box g f) : ∃ calls : List Call,
    (∀ c ∈ calls, c.flp = g ∨ c.flp = f) ∧
      ¬ Along (next seed box) (Good seed box) (State.initial seed) calls := by
  obtain ⟨dev, clock, type, hresolve⟩ := h.earlier
  let first : Call := ⟨g, clock, true, fun _ => quiet, 0⟩
  have hanswer := answer_initial hresolve
  have hmade : MadeFor seed box (next seed box (State.initial seed) first) :=
    madeFor_next madeFor_initial first
  obtain ⟨clock', hsecond⟩ := @answer_of_conflict seed box
    (next seed box (State.initial seed) first) f g h ⟨0, g.key, dev, type⟩ rfl hmade (by
      rw [next, hanswer]
      exact intern_empty _)
  refine ⟨[first, ⟨f, clock', true, fun _ => quiet, 0⟩], by simp [first], ?_⟩
  intro h
  obtain ⟨-, hgood, -⟩ := h
  have hrules := (hgood _ hsecond).2 g rfl
  simp only [governing_of_output (iif_of_madeFor hmade)] at hrules
  exact h.rules hrules

/-- Protocol binding is respected in every run over a set of flows exactly if no two of them
are in conflict. -/
theorem good_runs_iff (seed : Seed) (box : Box) (flows : Set OutFlow) :
    (∀ calls : List Call, (∀ c ∈ calls, c.flp ∈ flows) →
        Along (next seed box) (Good seed box) (State.initial seed) calls) ↔
      ∀ g ∈ flows, ∀ f ∈ flows, ¬ Conflict seed box g f := by
  constructor
  · intro hruns g hg f hf hconflict
    obtain ⟨calls, hcalls, hbad⟩ := exists_not_good hconflict
    apply hbad (hruns calls _)
    intro c hc
    rcases hcalls c hc with heq | heq
    · exact heq ▸ hg
    · exact heq ▸ hf
  · intro hfree calls hcalls
    let I (s : State seed) : Prop := MadeFor seed box s ∧ ∀ g ∈ s.flows, g ∈ flows
    let P (_ : State seed) (c : Call) : Prop := c.flp ∈ flows
    have hstep : ∀ s c, I s → P s c → I (next seed box s c) := by
      intro s c h hc
      obtain ⟨hs, hflows⟩ := h
      refine ⟨madeFor_next hs c, ?_⟩
      intro g hg
      rcases List.mem_append.mp hg with hg | hg
      · exact hflows g hg
      · rw [List.mem_singleton] at hg
        exact hg ▸ hc
    have hgood : ∀ s c, I s → P s c → Good seed box s c := by
      intro s c h hc
      obtain ⟨hs, hflows⟩ := h
      exact good_of_forall hs fun g hg => hfree g (hflows g hg) c.flp hc
    have hinitial : I (State.initial seed) := ⟨madeFor_initial, fun g hg => by cases hg⟩
    apply along_imp hstep hgood hinitial
    rw [along_iff_forall]
    intro pre c post heq
    subst heq
    exact hcalls c (by simp)

/-- Web flows are bound to the device 3, but a flow of UDP to the same address came first. -/
theorem bound_flow_gets_cached_route :
    let route (dev : UInt32) : FibTable := fun _ _ _ _ _ =>
      .found ⟨.unicast, ⟨0, [⟨dev, 0, 1, 0⟩]⟩, 0, fun _ => 0xc6336401⟩
    let tables : FibTables := fun table =>
      if table = 200 then some (route 3) else if table = rtTableMain then some (route 4) else none
    let web : FibRule :=
      { plainRule 200 with rProtocolType := 6, rSdstPort := 80, rEdstPort := 80 }
    let box : Box :=
      ⟨[localRule, web, mainRule, defaultRule], tables, [], ⟨1, by decide⟩, fun _ => false,
        fun dev => dev = 1, fun _ => none, fun _ => none, fun _ => true, fun _ _ => 0⟩
    let flow (proto : UInt8) : OutFlow := ⟨0x08080808, 0, 0, 0, proto, 33000, 80⟩
    let call (proto : UInt8) : Call :=
      ⟨flow proto, ⟨0, fun _ => 0, fun _ _ => 0⟩, true, fun _ => quiet, 0⟩
    let seed : Seed := ⟨0, 4095⟩
    ¬ Good seed box (next seed box (.initial seed) (call 17)) (call 6) := by
  intro route tables web box flow call seed hgood
  have hfirst : MadeFor seed box (next seed box (.initial seed) (call 17)) :=
    madeFor_next madeFor_initial _
  have hcached : (answer seed box (next seed box (.initial seed) (call 17)) (call 6)).1 =
      .ok ⟨0, (flow 17).key, 4, .unicast⟩ := by
    decide +kernel
  obtain ⟨clock, type, hdev⟩ :=
    (couldReturn_of_output (iif_of_madeFor hfirst)).mp (hgood _ hcached).1
  have htarget : target box (flow 6) = .ok (.lookup 0 none none) := by decide +kernel
  let res : FibRoute := ⟨.unicast, ⟨0, [⟨3, 0, 1, 0⟩]⟩, 0, fun _ => 0xc6336401⟩
  have hconsult : consult seed box noCache (flow 6) 0 none = .ok (web, res) := by
    with_unfolding_all rfl
  -- The table of the rule has one next hop, whatever the clock.
  have hroute : routeOf box clock (flow 6) 0 res = .ok ⟨3, 0x08080808, 0xc6336401, .unicast⟩ := by
    with_unfolding_all rfl
  have hmkroute : mkrouteOutput box ⟨3, 0x08080808, 0xc6336401, .unicast⟩ = .ok .unicast := by
    decide +kernel
  have hbound : resolve seed box noCache clock (flow 6) = .ok (3, .unicast) := by
    rw [resolve, makeRoute]
    rw [htarget]
    dsimp only
    rw [hconsult]
    dsimp only
    rw [hroute]
    dsimp only
    rw [hmkroute]
    rfl
  cases hbound.symm.trans hdev

end Runs

end OutputRoutes
