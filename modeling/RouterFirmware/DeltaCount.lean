import RouterFirmware.SweepRange

/-! # The sessions of a sweep

`nk_update_delta_count` counts the sessions of the buckets it visits for the WANs and for the DMZ,
and lists the hosts that they belong to. Its flags `s_temp` and `temp` are set for one session
and stay set for those behind it.
-/
namespace DeltaCount

open SweepRange

structure RouterModeInfo where
  rgw : UInt32
  rip1 : UInt32
  rip2 : UInt32
  rip3 : UInt32
  rip4 : UInt32
  deriving DecidableEq

/-- `interface_session_t`. There are two ranges and three routers. -/
structure InterfaceSession where
  wanIp : UInt32
  wanMask : UInt32
  lanip : UInt32
  internallan : List (UInt32 × UInt32)
  dmzStart : UInt32
  dmzEnd : UInt32
  dmzMask : UInt32
  routerinfo : List RouterModeInfo
  deriving DecidableEq

/-- `tr` of a connection. -/
structure Traffic where
  bCnt : UInt64
  ctBytesPre : UInt64
  ctBytesDelta : UInt64
  upBytes : UInt64
  upBytesDelta : UInt64
  upBytesPre : UInt64
  downBytes : UInt64
  downBytesDelta : UInt64
  downBytesPre : UInt64
  flag : ℤ
  deriving DecidableEq

/-- The addresses are those of the two `tuplehash`. -/
structure IpConntrack where
  origSrc : UInt32
  origDst : UInt32
  replySrc : UInt32
  replyDst : UInt32
  tr : Traffic
  deriving DecidableEq

structure SmartQosIp where
  ip : UInt32
  upBw : UInt64
  downBw : UInt64
  session : UInt64
  deriving DecidableEq

/-- What the calls find set up. The interfaces are `wan0` and the others, `MAX_WAN_NUM` of them;
`numWan` is the index of the DMZ. -/
structure Setting where
  wan0 : InterfaceSession
  others : List InterfaceSession
  numWan : ℕ
  htableSize : UInt32
  calCntPeriod : UInt32
  trEnable : ℤ
  smartQos : ℤ

def Setting.wans (c : Setting) : List InterfaceSession := c.wan0 :: c.others

/-- The connections are found by their addresses in memory; each hangs in two chains. -/
structure State where
  hashtmpSize : UInt32
  hash : ℕ → List ℕ
  ct : ℕ → IpConntrack
  sessionNumPre : ℕ → ℤ
  sessionNum : ℕ → ℤ
  sessionNumTmp : ℕ → ℤ
  tmpSmartQosIpList : List SmartQosIp
  nkSmartQosIpList : List SmartQosIp

/-! ## The traffic -/

/-- `delta_tr`, which is called undeclared and so returns an `int`. -/
def deltaTr (bCnt pre : UInt64) : UInt64 :=
  let delta := if pre > bCnt then bCnt + ~~~pre + 1 else bCnt - pre
  delta.toUInt32.toInt32.toInt64.toUInt64

def IpConntrack.update (x : IpConntrack) : IpConntrack :=
  { x with tr :=
    { x.tr with
      ctBytesDelta := deltaTr x.tr.bCnt x.tr.ctBytesPre
      ctBytesPre := x.tr.bCnt
      downBytesDelta := deltaTr x.tr.downBytes x.tr.downBytesPre
      downBytesPre := x.tr.downBytes
      upBytesDelta := deltaTr x.tr.upBytes x.tr.upBytesPre
      upBytesPre := x.tr.upBytes
      flag := 1 } }

/-! ## The WAN of a session -/

def OnAddress (w : InterfaceSession) (x : IpConntrack) : Prop :=
  x.replyDst = w.wanIp ∨ x.origDst = w.wanIp

def InRange (w : InterfaceSession) (x : IpConntrack) : Prop :=
  ∃ r ∈ w.internallan, r.1 ≤ x.origSrc ∧ x.origSrc ≤ r.2

def InNet (w : InterfaceSession) (x : IpConntrack) : Prop :=
  x.replyDst &&& w.wanMask = w.wanIp &&& w.wanMask ∨
    x.origDst &&& w.wanMask = w.wanIp &&& w.wanMask

def Routed (w : InterfaceSession) (x : IpConntrack) : Prop :=
  ∃ r ∈ w.routerinfo, 0 < r.rip1 ∧ ((r.rip1 ≤ x.replyDst ∧ x.replyDst ≤ r.rip2) ∨
    (r.rip3 ≤ x.replyDst ∧ x.replyDst ≤ r.rip4) ∨ x.replyDst = r.rgw)

def InDmz (c : Setting) (x : IpConntrack) : Prop :=
  c.wan0.dmzStart ≤ x.replySrc ∧ x.replySrc ≤ c.wan0.dmzEnd

instance (w : InterfaceSession) (x : IpConntrack) : Decidable (OnAddress w x) :=
  inferInstanceAs (Decidable (_ ∨ _))

instance (w : InterfaceSession) (x : IpConntrack) : Decidable (InRange w x) :=
  inferInstanceAs (Decidable (∃ r ∈ w.internallan, _))

instance (w : InterfaceSession) (x : IpConntrack) : Decidable (InNet w x) :=
  inferInstanceAs (Decidable (_ ∨ _))

instance (w : InterfaceSession) (x : IpConntrack) : Decidable (Routed w x) :=
  inferInstanceAs (Decidable (∃ r ∈ w.routerinfo, _))

instance (c : Setting) (x : IpConntrack) : Decidable (InDmz c x) :=
  inferInstanceAs (Decidable (_ ∧ _))

/-- The first loop over the WANs, from the index `j` on: what it counts, and `s_temp`. The break
of a range only leaves the loop over the ranges. -/
def countAddress (x : IpConntrack) (sTemp : Bool) : ℕ → List InterfaceSession → List ℕ × Bool
  | _, [] => ([], sTemp)
  | j, w :: ws =>
    if 0 < w.wanIp then
      if OnAddress w x then ([j], true)
      else if sTemp = false ∧ InRange w x then
        (j :: (countAddress x true (j + 1) ws).1, (countAddress x true (j + 1) ws).2)
      else countAddress x sTemp (j + 1) ws
    else countAddress x sTemp (j + 1) ws

/-- The loop over the nets of the WANs, which one break leaves. -/
def countNet (x : IpConntrack) : ℕ → List InterfaceSession → List ℕ
  | _, [] => []
  | j, w :: ws => if 0 < w.wanIp ∧ InNet w x then [j] else countNet x (j + 1) ws

/-- The loop over the routers, where the break only leaves the loop of one WAN. -/
def countRouted (x : IpConntrack) : ℕ → List InterfaceSession → List ℕ
  | _, [] => []
  | j, w :: ws =>
    if 0 < w.wanIp ∧ Routed w x then j :: countRouted x (j + 1) ws else countRouted x (j + 1) ws

/-- The indices that a session is counted for, and `s_temp` behind it. -/
def classify (c : Setting) (sTemp : Bool) (x : IpConntrack) : List ℕ × Bool :=
  let r := countAddress x sTemp 0 c.wans
  if r.2 then r
  else if countNet x 0 c.wans ≠ [] then (r.1 ++ countNet x 0 c.wans, true)
  else if countRouted x 0 c.wans ≠ [] then (r.1 ++ countRouted x 0 c.wans, true)
  else if InDmz c x then (r.1 ++ [c.numWan], true)
  else (r.1, false)

/-- `session_num_tmp[j]++`. -/
def addAll (num : ℕ → ℤ) (js : List ℕ) : ℕ → ℤ :=
  js.foldl (fun num j => Function.update num j (num j + 1)) num

/-! ## The host of a session -/

/-- `sdir` is 2. -/
def Forwarding (c : Setting) (x : IpConntrack) : Prop :=
  (∃ w ∈ c.wans, x.origDst = w.wanIp ∨ ∃ r ∈ w.internallan, r.1 ≤ x.origDst ∧ x.origDst ≤ r.2) ∨
  (c.wan0.dmzStart ≤ x.origDst ∧ x.origDst ≤ c.wan0.dmzEnd) ∨
  x.origDst &&& c.wan0.dmzMask = c.wan0.dmzStart &&& c.wan0.dmzMask ∨
  ∃ w ∈ c.wans, 0 < w.wanIp ∧ ∃ r ∈ w.routerinfo, 0 < r.rip1 ∧
    ((r.rip1 ≤ x.origDst ∧ x.origDst ≤ r.rip2) ∨ (r.rip3 ≤ x.origDst ∧ x.origDst ≤ r.rip4) ∨
      x.origDst = r.rgw)

instance (c : Setting) (x : IpConntrack) : Decidable (Forwarding c x) :=
  inferInstanceAs (Decidable ((∃ w ∈ c.wans, _ ∨ ∃ r ∈ w.internallan, _) ∨ _ ∨ _ ∨
    ∃ w ∈ c.wans, _ ∧ ∃ r ∈ w.routerinfo, _))

def host (c : Setting) (x : IpConntrack) : UInt32 :=
  if Forwarding c x then x.replySrc else x.origSrc

def named (x : IpConntrack) : List UInt32 := [x.origSrc, x.replySrc, x.origDst, x.replyDst]

def IsWanIp (c : Setting) (a : UInt32) : Prop := ∃ w ∈ c.wans, a = w.wanIp

instance (c : Setting) (a : UInt32) : Decidable (IsWanIp c a) :=
  inferInstanceAs (Decidable (∃ w ∈ c.wans, _))

def SmartQosIp.add (e : SmartQosIp) (x : IpConntrack) : SmartQosIp :=
  { e with
    upBw := e.upBw + x.tr.upBytesDelta
    downBw := e.downBw + x.tr.downBytesDelta
    session := e.session + 1 }

def addFirst (x : IpConntrack) : List SmartQosIp → List SmartQosIp
  | [] => []
  | e :: l => if e.ip ∈ named x then e.add x :: l else e :: addFirst x l

/-- The list of hosts and `temp` behind a session, where `kmalloc` succeeds. -/
def countHost (c : Setting) (s : List SmartQosIp × Bool) (x : IpConntrack) :
    List SmartQosIp × Bool :=
  if ∃ e ∈ s.1, e.ip ∈ named x then (addFirst x s.1, s.2)
  else if 0 < host c x then
    if s.2 ∨ IsWanIp c (host c x) then (s.1, true)
    else (⟨host c x, x.tr.upBytesDelta, x.tr.downBytesDelta, 1⟩ :: s.1, false)
  else s

/-! ## The call -/

/-- The variables of the scan. -/
structure Scan where
  ct : ℕ → IpConntrack
  num : ℕ → ℤ
  sTemp : Bool
  hosts : List SmartQosIp × Bool

/-- A session that this cycle has not scanned, and that does not go to the router. -/
def Eligible (c : Setting) (x : IpConntrack) : Prop := x.origDst ≠ c.wan0.lanip ∧ x.tr.flag = 0

instance (c : Setting) (x : IpConntrack) : Decidable (Eligible c x) :=
  inferInstanceAs (Decidable (_ ∧ _))

def scanEntry (c : Setting) (s : Scan) (p : ℕ) : Scan :=
  if Eligible c (s.ct p) then
    let x := (s.ct p).update
    { ct := Function.update s.ct p x
      num := addAll s.num (classify c s.sTemp x).1
      sTemp := (classify c s.sTemp x).2
      hosts := countHost c s.hosts x }
  else s

def buckets (c : Setting) (hashtmpSize : UInt32) : List ℕ :=
  let k := (start c.htableSize hashtmpSize).toInt32.toInt.toNat
  List.range' k ((finish c.htableSize c.calCntPeriod hashtmpSize).toInt32.toInt.toNat - k)

def entries (c : Setting) (s : State) : List ℕ := (buckets c s.hashtmpSize).flatMap s.hash

/-- The old counts are put aside when the cycle ends with this call. -/
def swapCounts (c : Setting) (s : State) : State :=
  if finish c.htableSize c.calCntPeriod s.hashtmpSize = c.htableSize then
    { s with
      sessionNumPre := fun j => if j < c.wans.length then s.sessionNum j else s.sessionNumPre j
      sessionNum := fun j => if j < c.wans.length then s.sessionNumTmp j else s.sessionNum j
      sessionNumTmp := fun j => if j < c.wans.length then 0 else s.sessionNumTmp j }
  else s

/-- The flags are cleared and the list of hosts is handed over when the cycle ends. -/
def endCycle (c : Setting) (s : State) (r : Scan) : State :=
  if finish c.htableSize c.calCntPeriod s.hashtmpSize = c.htableSize then
    { s with
      ct := fun p =>
        if p ∈ (List.range c.htableSize.toNat).flatMap s.hash then
          { r.ct p with tr := { (r.ct p).tr with flag := 0 } }
        else r.ct p
      sessionNumTmp := r.num
      tmpSmartQosIpList := []
      nkSmartQosIpList := r.hosts.1.reverse }
  else { s with ct := r.ct, sessionNumTmp := r.num, tmpSmartQosIpList := r.hosts.1 }

def scanAll (c : Setting) (s : State) : Scan :=
  (entries c s).foldl (scanEntry c) ⟨s.ct, s.sessionNumTmp, false, (s.tmpSmartQosIpList, false)⟩

def nkUpdateDeltaCount (c : Setting) (s : State) : State :=
  let s' := if c.trEnable = 1 ∨ c.smartQos = 1 then
      endCycle c (swapCounts c s) (scanAll c (swapCounts c s))
    else s
  { s' with hashtmpSize := finish c.htableSize c.calCntPeriod s.hashtmpSize }

end DeltaCount
