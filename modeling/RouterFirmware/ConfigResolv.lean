import Mathlib.Data.List.Infix
import RouterFirmware.ConfigScan

/-! # The resolver configuration

`create_resolv` reads the merged database and writes `/etc/resolv.conf`.
-/
namespace ConfigResolv

open TextStream SharedProgram ConfigDatabase ConfigScan

/-- `find_category` followed by `find_item`: the stream behind the `=`. -/
def lookup (database category item : Text) : Option Text :=
  (findCategory category database).bind (findItem item)

/-- `Get_Num_Wan_kdsys` and its siblings, on the text of the file `VERSION`: the first token
that contains the name decides, and counts only if the name is at its start. -/
def getNum (name version : Text) : ℕ :=
  match (words version).find? fun w => decide (name <:+: w) with
  | none => 0
  | some w => if (name ++ ['=']).isPrefixOf w then
      (atoi (w.drop (name.length + 1)) % 2 ^ 32).toNat else 0

def getNumKdsys (name : Text) : FsProg ℕ := do
  match ← read (.split "VERSION".toList) with
  | none => return 0
  | some version => return getNum name version

/-- The keys and the empty address of one address family. -/
structure Family where
  gateway : Text
  special : Text
  dns1 : Text
  dns2 : Text
  zero : Text

def ipv4 : Family :=
  ⟨"GATEWAY".toList, "USERSPECIALDNS".toList, "DNS1".toList, "DNS2".toList, "0.0.0.0".toList⟩

def ipv6 : Family :=
  ⟨"GATEWAY_V6".toList, "USERSPECIALDNS_V6".toList, "DNS1_V6".toList, "DNS2_V6".toList,
    "::".toList⟩

/-- `sprintf(opcode, "ISP%d", wanidx+1)` and the like. -/
def numbered (name : Text) (wanidx : ℕ) : Text := name ++ Nat.toDigits 10 (wanidx + 1)

/-- The provider gave no gateway. `glvalue` is compared even when reading it failed. -/
def ispDown (database : Text) (f : Family) (wanidx : ℕ) : Bool :=
  match lookup database (numbered "ISP".toList wanidx) f.gateway with
  | none => false
  | some r => (getItemValue r).2.1 == f.zero

def dnsCategory (database : Text) (f : Family) (wanidx : ℕ) : Text :=
  match lookup database (numbered "WAN".toList wanidx) f.special with
  | none => numbered "WAN".toList wanidx
  | some r => match getItemValue r with
    | (.ok, value, _) => if value = "NO".toList then numbered "ISP".toList wanidx
      else numbered "WAN".toList wanidx
    | _ => numbered "WAN".toList wanidx

/-- The value at `DNS1` and the stream behind it. -/
def primaryDns (database : Text) (f : Family) (wanidx : ℕ) : Option (Text × Text) :=
  if ispDown database f wanidx then none
  else match lookup database (dnsCategory database f wanidx) f.dns1 with
    | none => none
    | some r => match getItemValue r with
      | (.ok, value, rest) => some (value, rest)
      | _ => none

/-- The value at the next `DNS2`. -/
def secondaryDns (database : Text) (f : Family) (wanidx : ℕ) : Option Text :=
  (primaryDns database f wanidx).bind fun p =>
    match findItem f.dns2 p.2 with
    | none => none
    | some r => match getItemValue r with
      | (.ok, value, _) => some value
      | _ => none

/-- The name servers of one family: every first one, then every second one. -/
def nameservers (database : Text) (f : Family) (num : ℕ) : List Text :=
  let first := (List.range num).filterMap fun i => (primaryDns database f i).map (·.1)
  let second := (List.range num).filterMap fun i => secondaryDns database f i
  (first ++ second).filter (· != f.zero)

def nameserverLines (servers : List Text) : Text :=
  servers.flatMap fun v => "nameserver ".toList ++ v ++ ['\n']

def resolvText (database domain : Text) (num : ℕ) : Text :=
  let servers := nameservers database ipv4 num
  "domain  ".toList ++ domain ++ ['\n'] ++
    nameserverLines (if servers = [] then ["168.95.1.1".toList] else servers) ++
    nameserverLines (nameservers database ipv6 num)

/-- `create_resolv`. Without a domain name it writes through a null pointer. -/
def createResolv : FsProg Result := do
  let wan ← getNumKdsys "NUM_WAN".toList
  let dmz ← getNumKdsys "NUM_DMZ".toList
  let usb ← getNumKdsys "NUM_USB".toList
  match ← read .sysFile with
  | none => return .failToOpen
  | some database =>
    match (lookup database "SYSTEM".toList "DOMAINNAME".toList).map getItemValue with
    | some (.ok, domain, _) => do
      if ← create .resolvConf then
        put .resolvConf (resolvText database domain ((wan + dmz + usb) % 2 ^ 32))
        return .ok
      else return .failToOpen
    | _ => .halt .crash

end ConfigResolv
