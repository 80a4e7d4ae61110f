import RouterFirmware.Multipath
import RouterFirmware.RouteCache

/-! # Routing rules

The rules are tried in order. A rule names addresses, a protocol and ports, and sends the flows
it covers to one of the routing tables; where that table has no route the next rule is tried.
-/
namespace FibRules

open Multipath RouteCache

/-- The fields of `fib_rule` that a lookup reads. -/
structure FibRule where
  rTable : UInt8
  rAction : UInt8
  rSrc : UInt32
  rSrcmask : UInt32
  rDst : UInt32
  rDstmask : UInt32
  rTos : UInt8
  rProtocolType : UInt32
  rSsrcIp : UInt32
  rEsrcIp : UInt32
  rSdstIp : UInt32
  rEdstIp : UInt32
  rSsrcPort : UInt32
  rEsrcPort : UInt32
  rSdstPort : UInt32
  rEdstPort : UInt32
  rIfindex : UInt32
  deriving DecidableEq

/-- The fields of `flowi` that a lookup reads. -/
structure LookupFlow where
  daddr : UInt32
  saddr : UInt32
  tos : UInt8
  scope : UInt8
  oif : UInt32
  iif : UInt32
  wan2lan : Bool
  protocolType : UInt32
  srcPort : UInt32
  dstPort : UInt32
  deriving DecidableEq

def rtTableDefault : UInt8 := 253

def rtTableMain : UInt8 := 254

def rtTableLocal : UInt8 := 255

def rtnUnicast : UInt8 := 1

def rtnUnreachable : UInt8 := 7

def rtnProhibit : UInt8 := 8

/-- `default_rule`, `main_rule` and `local_rule`, each with its own table. -/
def plainRule (table : UInt8) : FibRule :=
  ⟨table, rtnUnicast, 0, 0, 0, 0, 0, 254, 0, 0xffffffff, 0, 0xffffffff, 0, 65535, 0, 65535, 0⟩

def defaultRule : FibRule := plainRule rtTableDefault

def mainRule : FibRule := plainRule rtTableMain

def localRule : FibRule := plainRule rtTableLocal

/-- The test of `nk_fib_lookup`; protocol 254 stands for any. -/
def FibRule.Covers (r : FibRule) (flp : LookupFlow) (outDevice : Option UInt32) : Prop :=
  (flp.saddr ^^^ r.rSrc) &&& r.rSrcmask = 0 ∧
  (flp.daddr ^^^ r.rDst) &&& r.rDstmask = 0 ∧
  ¬ (outDevice.isSome ∧ r.rTable ≠ rtTableMain) ∧
  (r.rSsrcIp ≤ flp.saddr ∧ flp.saddr ≤ r.rEsrcIp) ∧
  (r.rSdstIp ≤ flp.daddr ∧ flp.daddr ≤ r.rEdstIp) ∧
  (r.rProtocolType = 254 ∨ flp.protocolType = r.rProtocolType) ∧
  (r.rSsrcPort ≤ flp.srcPort ∧ flp.srcPort ≤ r.rEsrcPort) ∧
  (r.rSdstPort ≤ flp.dstPort ∧ flp.dstPort ≤ r.rEdstPort) ∧
  ¬ (flp.wan2lan ∧ r.rTable > 1 ∧ r.rTable < rtTableDefault) ∧
  (r.rTos = 0 ∨ r.rTos = flp.tos) ∧
  (r.rIfindex = 0 ∨ r.rIfindex = flp.iif)

instance (r : FibRule) (flp : LookupFlow) (outDevice : Option UInt32) :
    Decidable (r.Covers flp outDevice) :=
  inferInstanceAs (Decidable (_ ∧ _))

/-- The `fib_result` of a table, with `FIB_RES_PREFSRC` for each next hop. -/
structure FibRoute where
  type : RtType
  fi : FibInfo
  nhSel : ℕ
  prefsrc : ℕ → UInt32

/-- What `nk_fn_hash_lookup` returns: 1 and `-EAGAIN` both let the search go on. -/
inductive TableAnswer where
  | found (res : FibRoute)
  | noMatch
  | failed (err : Errno)

/-- A routing table: `nk_fn_hash_lookup` reads the destination, TOS, scope and output interface
of a flow, and the device it has to leave by. -/
abbrev FibTable := UInt32 → UInt8 → UInt8 → UInt32 → Option UInt32 → TableAnswer

/-- `fib_get_table`. -/
abbrev FibTables := UInt8 → Option FibTable

/-- `nk_fib_lookup`: the rule that decides, and the route. -/
def nkFibLookup (tables : FibTables) (flp : LookupFlow) (outDevice : Option UInt32) :
    List FibRule → Except Errno (FibRule × FibRoute)
  | [] => .error .enetunreach
  | r :: rules =>
    if r.Covers flp outDevice then
      if r.rAction = rtnUnicast then
        match tables r.rTable with
        | none => nkFibLookup tables flp outDevice rules
        | some tb =>
          match tb flp.daddr flp.tos flp.scope flp.oif outDevice with
          | .found res => .ok (r, res)
          | .noMatch => nkFibLookup tables flp outDevice rules
          | .failed err => .error err
      else if r.rAction = rtnUnreachable then .error .enetunreach
      else if r.rAction = rtnProhibit then .error .eacces
      else .error .einval
    else nkFibLookup tables flp outDevice rules

theorem nkFibLookup_ok {tables : FibTables} {flp : LookupFlow} {outDevice : Option UInt32}
    {rules : List FibRule} {r : FibRule} {res : FibRoute}
    (h : nkFibLookup tables flp outDevice rules = .ok (r, res)) :
    r ∈ rules ∧ r.Covers flp outDevice ∧ ∃ tb, tables r.rTable = some tb ∧
      tb flp.daddr flp.tos flp.scope flp.oif outDevice = .found res := by
  fun_induction nkFibLookup tables flp outDevice rules with
  | case1 => cases h
  | case2 r' rules hcovers hact hnone ih =>
    obtain ⟨hmem, hrest⟩ := ih h
    exact ⟨List.mem_cons_of_mem _ hmem, hrest⟩
  | case3 r' rules hcovers hact tb htb res' hres =>
    cases h
    exact ⟨List.mem_cons_self, hcovers, tb, htb, hres⟩
  | case4 r' rules hcovers hact tb htb hres ih =>
    obtain ⟨hmem, hrest⟩ := ih h
    exact ⟨List.mem_cons_of_mem _ hmem, hrest⟩
  | case5 => cases h
  | case6 => cases h
  | case7 => cases h
  | case8 => cases h
  | case9 r' rules hcovers ih =>
    obtain ⟨hmem, hrest⟩ := ih h
    exact ⟨List.mem_cons_of_mem _ hmem, hrest⟩

end FibRules
