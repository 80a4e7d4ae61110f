import RouterFirmware.ConfigGenerate
import RouterFirmware.ConfigResolv
import RouterFirmware.Ipv4Text

/-! # The configuration of the DHCP server

`create_dhcp_config` reads the merged database and writes `udhcpd.conf`.
-/
namespace DhcpConfig

open TextStream ConfigDatabase CString ConfigGenerate ConfigResolv Ipv4Text

/-- `inet_aton(glvalue, &a)`, which leaves `a` alone where the text is no address. -/
def inetAtonTo (text : Text) (a : Address) : Address := (inetAton text).getD a

/-- `brcast`: `(gw & mask) | htonl(255)` -/
def brcast (gw mask : Address) : Address := (gw &&& mask) ||| 255

/-- `LAN` and `LANMASK`, read to `gw` and `mask`. `lanIp` has 40 bytes. -/
def readSubnet (database : Text) (gw mask : Address) : Gen (Address × Address) := do
  let foundLan ← readFrom database "SYSTEM".toList "LAN".toList
  let lan ← value
  if foundLan ∧ 40 ≤ lan.length then throw .writePastEnd
  else
    let foundMask ← readItem "LANMASK".toList
    let lanmask ← value
    return (if foundLan then inetAtonTo lan gw else gw,
      if foundMask then inetAtonTo lanmask mask else mask)

/-- `while (glvalue[index] != ':' && index < 30) index++;` from `index` on. -/
def colonIndex (glvalue : Text) (index : ℕ) : ℕ :=
  if 30 ≤ index then index
  else if glvalue.getD index '\x00' = ':' then index
  else colonIndex glvalue (index + 1)
termination_by 30 - index

/-- `glvalue` cut at the `:`; the texts on its two sides. -/
def cutAtColon : Gen (Text × Text) := fun g =>
  let index := colonIndex g.glvalue 0
  let glvalue := g.glvalue.set index '\x00'
  .ok ((cut glvalue, cut (glvalue.drop (index + 1))), { g with glvalue })

/-- The lines `start` and `end`, from the two sides of the `:` in `RANGE`. -/
def printRange (database : Text) : Gen Unit := do
  if ← readFrom database "DHCP".toList "RANGE".toList then
    if (← value) ≠ "0.0.0.0".toList then
      let (first, last) ← cutAtColon
      fprintf ("start             ".toList ++ first ++ ['\n'])
      fprintf ("end               ".toList ++ last ++ ['\n'])

def printLan (database : Text) : Gen Unit := do
  if ← readFrom database "SYSTEM".toList "LAN".toList then fprintf (← value)

/-- `dnslist` and `dnsNum`. An unused row of the list is an empty string. -/
structure DnsList where
  rows : List Text
  num : ℕ
  deriving DecidableEq

/-- What `sprintf(buf, format)` writes. A conversion would print an argument that is not there. -/
def formatted : Text → Except Fault Text
  | [] => .ok []
  | '%' :: '%' :: t => (formatted t).map ('%' :: ·)
  | '%' :: _ => .error .readPastEnd
  | c :: t => (formatted t).map (c :: ·)

/-- `sprintf(dnslist[i], glvalue)` on four rows of 20 bytes. -/
def writeRow (rows : List Text) (i : ℕ) (glvalue : Text) : Except Fault (List Text) := do
  let text ← formatted glvalue
  if rows.length ≤ i ∨ 20 ≤ text.length then throw .writePastEnd
  else return rows.set i text

def DnsList.holds (l : DnsList) (server : Text) : Bool :=
  l.rows.any fun row => row ≠ [] && row == server

/-- The server goes to the first unused row. -/
def DnsList.add (l : DnsList) (server : Text) : Except Fault DnsList := do
  let rows ← writeRow l.rows (l.rows.findIdx (· == [])) server
  return ⟨rows, l.num + 1⟩

/-- The provider has no gateway: no value, or 0.0.0.0. -/
def gatewayDown (database : Text) (wanidx : ℕ) : Gen Bool := do
  if ← findCategory database (numbered "ISP".toList wanidx) then
    if ← findItem "GATEWAY".toList then
      let found ← getItemValue
      return !found || (← value) == "0.0.0.0".toList
    else return false
  else return false

def dnsOpcode (database : Text) (wanidx : ℕ) : Gen Text := do
  let found ← readFrom database (numbered "WAN".toList wanidx) "USERSPECIALDNS".toList
  let special ← value
  return numbered (if found ∧ special = "NO".toList then "ISP".toList else "WAN".toList) wanidx

/-- The name server number `dnsidx` of a WAN. -/
def readServer (database : Text) (dnsidx wanidx : ℕ) : Gen (Option Text) := do
  if ← gatewayDown database wanidx then return none
  else
    let opcode ← dnsOpcode database wanidx
    let found ← readFrom database opcode (numbered "DNS".toList dnsidx)
    let server ← value
    return if found ∧ server ≠ "0.0.0.0".toList then some server else none

def dnsTurn (database : Text) (l : DnsList) (dnsidx wanidx : ℕ) : Gen DnsList := do
  match ← readServer database dnsidx wanidx with
  | none => return l
  | some server =>
    if l.holds server then return l
    else
      let l ← l.add server
      fprintf (server ++ [' '])
      return l

/-- `for (wanidx = ..; wanidx < DYNAMIC_NUM_WAN && dnsNum < 4; wanidx++)` -/
def dnsOverWans (database : Text) (dnsidx : ℕ) : List ℕ → DnsList → Gen DnsList
  | [], l => return l
  | wanidx :: rest, l =>
    if l.num < 4 then do dnsOverWans database dnsidx rest (← dnsTurn database l dnsidx wanidx)
    else return l

/-- Use DNS from ISP. -/
def ispDns (database : Text) (numWan : ℕ) : Gen DnsList :=
  [0, 1, 2].foldlM (fun l dnsidx => dnsOverWans database dnsidx (List.range numWan) l)
    ⟨[[], [], [], []], 0⟩

/-- A name server of the user's, unless it is 0.0.0.0; whether it was one. -/
def printOwnDns (read : Gen Bool) (ending : Text) : Gen Bool := do
  if ← read then
    let server ← value
    if server ≠ "0.0.0.0".toList then
      fprintf (server ++ ending)
      return true
    else return false
  else return false

/-- The line with the name servers, for each value of `DNSSERVER`. -/
def printDns (database : Text) (numWan : ℕ) : Gen Unit := do
  if ← readFrom database "DHCP".toList "DNSSERVER".toList then
    fprintf "option  dns       ".toList
    let dnsType := atoi (← value)
    if dnsType = 1 then printLan database
    else if dnsType = 2 then
      let l ← ispDns database numWan
      if l.num = 0 then printLan database
    else if dnsType = 3 then
      let first ← printOwnDns (readFrom database "DHCP".toList "DNS1".toList) [' ']
      let second ← printOwnDns (readItem "DNS2".toList) []
      if !first && !second then printLan database
    fprintf ['\n']

/-- The WANs whose provider gives a gateway are counted, and nothing is done with the number. -/
def countGateways (database : Text) (numWan : ℕ) : Gen Unit :=
  (List.range numWan).forM fun wanidx => do
    discard (readFrom database (numbered "ISP".toList wanidx) "GATEWAY".toList)

def printLine (item key : Text) : Gen Unit := do
  if ← readItem item then fprintf (key ++ (← value) ++ ['\n'])

def printHead (dhcpdConf database : Text) : Gen Unit := do
  fprintf ("# ".toList ++ dhcpdConf ++ ['\n'])
  fprintf "#\n".toList
  printLine "LANINTERFACE".toList "interface         ".toList
  printRange database

def printWins (database : Text) : Gen Unit := do
  if ← readFrom database "DHCP".toList "WINSERVER".toList then
    let wins ← value
    if wins ≠ "0.0.0.0".toList then fprintf ("opt     wins     ".toList ++ wins ++ ['\n'])

def printDomain (database : Text) : Gen Unit := do
  if ← readFrom database "SYSTEM".toList "DOMAINNAME".toList then
    let domain ← value
    if domain ≠ [] then fprintf ("option  domain    ".toList ++ domain ++ ['\n'])

/-- `create_dhcp_config`, with the database open, the name of the file it writes, and what `gw`
and `mask` hold before. -/
def createDhcpConfig (dhcpdConf database : Text) (numWan : ℕ) (gw mask : Address) :
    Gen Result := do
  countGateways database numWan
  let (gw, mask) ← readSubnet database gw mask
  printHead dhcpdConf database
  let timeout ← readResult database "DHCP".toList "TIMEOUT".toList
  if timeout ≠ .ok then return timeout
  else
    let lease ← value
    fprintf ("opt     lease     ".toList ++ (if lease = ['0'] then "604800".toList else lease) ++
      ['\n'])
    let mtu ← readResult database "WAN1".toList "MTU".toList
    if mtu ≠ .ok then return mtu
    else
      fprintf ("opt     mtu     ".toList ++ (← value) ++ ['\n'])
      fprintf ("option subnet     ".toList ++ inetNtoa mask ++ ['\n'])
      fprintf ("option  broadcast ".toList ++ inetNtoa (brcast gw mask) ++ ['\n'])
      fprintf ("option  router    ".toList ++ inetNtoa gw ++ ['\n'])
      printWins database
      printDns database numWan
      printDomain database
      fprintf "auto_time         60\n".toList
      return .ok

end DhcpConfig
