import RouterFirmware.ConfigEdit
import RouterFirmware.ConfigResolv

/-! # The configuration commands

`nk_sysconfig` and the commands it runs under the lock. The old single-letter interface and the
generators of the DHCP, PPTP and DDNS files are not modelled; they stand as programs that do not
touch the lock file.
-/
namespace ConfigCommand

open TextStream SharedProgram ConfigDatabase ConfigScan ConfigEdit ConfigResolv

/-- `sysconfig` is the old interface, taken when the category starts with `-`; `createDb` is
`nk_create_db` for the types other than `RESOLV`. -/
structure Externals where
  sysconfig : Text → Text → FsProg (Result × Text)
  createDb : Text → FsProg Result
  sysconfig_lock : ∀ a b, (sysconfig a b).Uses fun o => o.isLock = false
  createDb_lock : ∀ t, (createDb t).Uses fun o => o.isLock = false

/-- The parameter up to the first space, and what follows the spaces. -/
def splitParam (param : Text) : Text × Text :=
  (param.takeWhile (· != ' '), (param.dropWhile (· != ' ')).dropWhile (· == ' '))

/-- The sizes of `opcode` and `num_str`. -/
def opcodeSize : ℕ := 128
def numSize : ℕ := 10

/-- The item and the number of a parameter fit their buffers. -/
def ParamFits (param : Text) : Prop :=
  (splitParam param).1.length < opcodeSize ∧ (splitParam param).2.length < numSize

instance (param : Text) : Decidable (ParamFits param) := inferInstanceAs (Decidable (_ ∧ _))

/-- The number behind the item, 1 when there is none. -/
def paramNumber (num : Text) : ℤ := if num = [] then 1 else atoi num

/-- `nk_print_setting`. A missing parameter is read through a null pointer, and a long one is
written behind the buffers. -/
def nkPrintSetting (type : Text) (param : Option Text) (flag : Bool) (dbname : Path) :
    FsProg (Result × Text) := do
  match ← read (if flag then .backupSysFile else dbname) with
  | none => return (if flag then .failToOpen else .itemNotFound, [])
  | some text =>
    match param with
    | none => .halt .crash
    | some param =>
      if ParamFits param then
        return printConfig text type (splitParam param).1 (paramNumber (splitParam param).2)
      else .halt .crash

def nkCreateDb (env : Externals) (type : Text) : FsProg Result :=
  if type = "RESOLV".toList then createResolv else env.createDb type

def nkNewSetting (type : Text) (param : Option Text) (dbname : Path) : FsProg Result := do
  let opened ← read dbname
  let found ← match opened with
    | some text => pure (some text)
    | none => do
      if ← create dbname then pure (some []) else pure none
  match found with
  | none => return .failToOpen
  | some text =>
    match findCategory type text, param with
    | _, none => .halt .crash
    | some t, some param =>
      match readTo '=' param with
      | none => .halt .crash
      | some (opcode, _) =>
        if opcodeSize ≤ opcode.length then .halt .crash
        else match findLastCategoryItem text opcode t with
          | (true, _) => return .ok
          | (false, r) => do
            let result ← insertItem text r (param ++ ['\n']) false
            rename .stemp dbname
            return result
    | none, some param => do
      if ← append dbname then
        put dbname (['\n', '['] ++ type ++ [']', '\n'] ++ param ++ ['\n'])
        if ← append .categoryList then
          put .categoryList (type ++ ['\n'])
          return .ok
        else return .failToOpen
      else return .failToOpen

/-- The categories in which `w` adds an `ID` item instead of replacing one. -/
def addCategories : List String :=
  ["IP_FILTER", "MAC_FILTER", "REDIRECT", "PORT_FILTER", "DMZ", "HOST_LIST"]

/-- The categories whose items with key `ID` `w` adds. -/
def idCategories : List String :=
  ["SERVICE_PORT", "SINGLE_SERVICE_PORT", "GROUP_SERVICE_PORT", "APPLICATION_LIST", "RC_LIST",
    "RC_DISPLAY_LIST", "PORT_FORWARDING", "UPNP_FORWARDING", "PR_LIST", "PR_DISPLAY_LIST",
    "AUTOBALANCE", "ACCESS_RULE", "ACCESS_RULE_V6", "STATIC_ROUTE", "STATIC_ROUTE_V6",
    "PENALTY_IP", "PORT_TRIGGERING", "TRUST_DOMAIN", "8021Q", "MULTI_WAN", "STATIC_IP", "121NAT",
    "MULTI21NAT", "MULTIPLE_SUBNET", "SESSION_ENHANCE", "ALLOW_DOMAIN_EXP_IP",
    "ALLOW_DOMAIN_EXP_GROUP", "ALLOW_DOMAIN", "FORBIDDEN_DOMAIN", "KEYWORD_BLOCK", "IPGROUP_LIST",
    "QOS_DISPLAY_EXCEPT", "QOS_EXCEPT", "UPNP_SERVICE_PORT", "QOS_SERVICE_PORT", "IPGROUP",
    "SESSION_LIST", "PPTP_SERVER", "STROUTE", "ACL_RULE", "ACL_HIDDEN_RULE", "ACL_DISPLAY_RULE",
    "AUTOBALANCE_RULE", "AGING_TIME", "8021Q_SIMPLE_LAN", "OPENVPN_CLIENT", "IPGROUP_RULE",
    "STROUTE_RULE", "ACCESS_LIST", "ACCESS_LIST_V6", "USB_GROUP", "SROUTE_SDS0", "SROUTE_SDS1",
    "SROUTE_SDS2", "MULTI21NAT", "AV_EXCLUSION_LIST", "AV_EXCLUSION_DISPLAY_LIST",
    "AI_EXCLUSION_LIST", "AI_EXCLUSION_DISPLAY_LIST", "BLACKLIST", "WHITELIST",
    "DNS_LOCAL_DATABASE", "DNS_LOCAL_DATABASE_V6", "DDNS1", "DDNS2", "DDNS3", "DDNS4", "DDNS5",
    "DDNS6", "DDNS7", "DDNS8", "QUICK_VPN_LIST", "TM_APPR_URL", "TM_APPR_IP",
    "SINGLE_SERVICE_PORT", "GROUP_SERVICE_PORT", "EXCEPTION_QQ_NUMBER", "REMOTEIPGROUP_LIST",
    "DEST_IPGROUP", "IPGROUP_BEF_LIST", "IP_LIST", "REMOTEIP_LIST", "SERVICE_LIST",
    "PORT_FWD_LIST", "SESSION_BASE_LIST", "SESSION_BASE_LOCK_LIST", "SESSION_BASE_DISPLAY_LIST",
    "ACCESS_WAN", "ACCESS_WAN_V6", "ACCESS_DMZ", "ACCESS_DMZ_V6"]

/-- The key under which `nk_set_configuration` adds an item; `none` when it replaces one. -/
def addKey (type opcode : Text) : Option Text :=
  if opcode = "DNS".toList then some opcode
  else if type = "DHCP".toList ∧ opcode = "RANGE".toList then some opcode
  else if type ∈ addCategories.map String.toList then some "ID".toList
  else if (type ∈ idCategories.map String.toList ∨
      "USB_KEY_USER_LIST".toList.isPrefixOf type) ∧ opcode = "ID".toList then some opcode
  else if type ∈ ["IPSEC_G2G", "EZLINKVPN", "IPSEC_GRP"].map String.toList ∧
      opcode = "IPS".toList then some opcode
  else if type ∈ ["SSL_GROUP_RESOURCE", "SSL_TSC"].map String.toList ∧
      opcode = "RS".toList then some opcode
  else if type ∈ ["DHCP_SUBNET1", "DHCP_SUBNET2", "DHCP_SUBNET3", "DHCP_SUBNET4"].map
      String.toList ∧ opcode = "MAC".toList then some opcode
  else if strcasecmp (type.take 4) "USER".toList ∧
      opcode ∈ ["SCHEDULER", "URL_BLOCK", "APPLICATION_BLOCK", "APPLICATION_GUARANTEE"].map
        String.toList then some opcode
  else if type ∈ ["L7_EXCEPTION", "L7_FILE_EXCEPTION", "SKYPE_DST_EXP"].map String.toList ∧
      opcode = "ID".toList then some opcode
  else none

/-- `nk_set_configuration`. The scans for `=` stop neither at the end of the parameter nor at that
of the buffer. -/
def nkSetConfiguration (type : Text) (param : Option Text) (dbname : Path) : FsProg Result :=
  match param with
  | none => return .invalidComd
  | some param =>
    if param.length < 2 then return .invalidComd
    else match readTo '=' param with
      | none => .halt .crash
      | some (opcode, value) =>
        if opcodeSize ≤ opcode.length then .halt .crash
        else match addKey type opcode with
          | some key => addConfig type key value dbname
          | none => setConfig type opcode value 1 dbname

def nkModConfiguration (type : Text) (param : Option Text) (dbname : Path) : FsProg Result :=
  match param with
  | none => return .invalidComd
  | some param =>
    if param.length < 2 then return .invalidComd
    else match readTo ' ' param with
      | none => .halt .crash
      | some (opcode, r) =>
        match readTo '=' r with
        | none => .halt .crash
        | some (num, value) =>
          if opcodeSize ≤ opcode.length ∨ numSize ≤ num.length then .halt .crash
          else setConfig type opcode value (atoi num) dbname

/-- The categories in which `d` deletes an `ID` item, whatever key it is given. -/
def deleteIdCategories : List String :=
  ["IP_FILTER", "MAC_FILTER", "RC_LIST", "RC_DISPLAY_LIST", "REDIRECT", "PORT_FILTER", "PR_LIST",
    "PR_DISPLAY_LIST", "DMZ", "PORT_FORWARDING", "121NAT", "MULTI21NAT", "QOS_SERVICE_PORT",
    "SERVICE_PORT", "SINGLE_SERVICE_PORT", "GROUP_SERVICE_PORT", "PORT_TRIGGERING",
    "MULTIPLE_SUBNET", "UPNP_FORWARDING", "APPLICATION_LIST", "SESSION_ENHANCE", "SESSION_LIST",
    "AUTOBALANCE", "ACCESS_RULE", "ACCESS_RULE_V6", "8021Q", "MULTI_WAN", "ALLOW_DOMAIN",
    "FORBIDDEN_DOMAIN", "KEYWORD_BLOCK", "PENALTY_IP", "ALLOW_DOMAIN_EXP_IP",
    "ALLOW_DOMAIN_EXP_GROUP", "STATIC_ROUTE", "STATIC_ROUTE_V6", "TRUST_DOMAIN", "STATIC_IP",
    "QOS_DISPLAY_EXCEPT", "QOS_EXCEPT", "DNS_LOCAL_DATABASE", "DNS_LOCAL_DATABASE_V6", "DDNS1",
    "DDNS2", "DDNS3", "DDNS4", "DDNS5", "DDNS6", "DDNS7", "DDNS8", "TM_APPR_URL", "TM_APPR_IP",
    "USB_GROUP", "SESSION_BASE_LIST", "SESSION_BASE_LOCK_LIST", "SESSION_BASE_DISPLAY_LIST",
    "AV_EXCLUSION_LIST", "AV_EXCLUSION_DISPLAY_LIST", "AI_EXCLUSION_LIST",
    "AI_EXCLUSION_DISPLAY_LIST", "BLACKLIST", "WHITELIST", "AGING_TIME", "8021Q_SIMPLE_LAN",
    "OPENVPN_CLIENT", "HOST_LIST", "UPNP_SERVICE_PORT", "IPGROUP_LIST", "IPGROUP", "STROUTE",
    "AUTOBALANCE_RULE", "IPGROUP_RULE", "STROUTE_RULE", "ACCESS_LIST", "ACCESS_LIST_V6",
    "SROUTE_SDS0", "SROUTE_SDS1", "SROUTE_SDS2", "ACCESS_WAN", "ACCESS_WAN_V6", "ACCESS_DMZ",
    "ACCESS_DMZ_V6", "EXCEPTION_QQ_NUMBER", "IP_LIST", "REMOTEIP_LIST", "SERVICE_LIST",
    "PPTP_SERVER", "ACL_RULE", "ACL_HIDDEN_RULE", "ACL_DISPLAY_RULE", "SINGLE_SERVICE_PORT",
    "GROUP_SERVICE_PORT", "REMOTEIPGROUP_LIST", "DEST_IPGROUP", "IPGROUP_BEF_LIST",
    "PORT_FWD_LIST", "QUICK_VPN_LIST"]

/-- The key of the item `nk_delete_setting` deletes. -/
def deleteKey (type opcode : Text) : Text :=
  if opcode = "DNS".toList then opcode
  else if type = "DHCP".toList ∧ opcode = "RANGE".toList then opcode
  else if type ∈ deleteIdCategories.map String.toList ∨
      "USB_KEY_USER_LIST".toList.isPrefixOf type then "ID".toList
  else opcode

/-- Every branch of `nk_delete_setting` for one item: find its line, write the file without it
to `/tmp/stemp`, and rename that over the file. -/
def deleteItem (type key : Text) (number : ℤ) (dbname : Path) (text : Text) :
    FsProg Result := do
  let result ← match moveToItem text type (key ++ ['=']) number with
    | some r => removeItem text r
    | none => pure .itemNotFound
  rename .stemp dbname
  return result

/-- `nk_delete_setting`; without a parameter the whole category goes. The `=` that `strcat` puts
behind the key needs room in `opcode`, too. -/
def nkDeleteSetting (type : Text) (param : Option Text) (dbname : Path) : FsProg Result :=
  if ∃ p ∈ param, ¬ ParamFits p then .halt .crash
  else do
    match ← read dbname with
    | none => return .failToOpen
    | some text =>
      match param with
      | none => do
        let result ← match moveToCategory text type with
          | some r => removeCategory text r
          | none => pure .catNotFound
        rename .stemp dbname
        return result
      | some param =>
        let key := deleteKey type (splitParam param).1
        if opcodeSize ≤ key.length + 1 then .halt .crash
        else deleteItem type key (paramNumber (splitParam param).2) dbname text

def nkProcessComd (env : Externals) (cmd : Char) (type : Text) (paras : Option Text)
    (dbname : Path) : FsProg (Result × Text) :=
  match cmd with
  | 't' => return (← nkCreateDb env type, [])
  | 'n' => return (← nkNewSetting type paras dbname, [])
  | 'b' => nkPrintSetting type paras true dbname
  | 'p' => nkPrintSetting type paras false dbname
  | 'w' => return (← nkSetConfiguration type paras dbname, [])
  | 'm' => return (← nkModConfiguration type paras dbname, [])
  | 'd' => return (← nkDeleteSetting type paras dbname, [])
  | 'a' => nkPrintSetting type paras false dbname
  | _ => return (.invalidGroup, [])

/-- What `nk_sysconfig` leaves in the caller's buffer, `out` being what the command printed. -/
def report (comd : Char) (category : Text) (paras : Option Text) (result : Result) (out : Text) :
    Text :=
  if result = .itemNotFound ∧ (comd = 'p' ∨ comd = 'b') then "END".toList
  else if result = .invalidGroup then "Unrecongnized command: ".toList ++ [comd, '\n']
  else if result ≠ .ok then
    if paras.isSome then "No More ".toList ++ category
    else "Unrecongnized options: ".toList ++ category ++ ['\n']
  else out

/-- The part of `nk_sysconfig` that runs with the lock. -/
def runCommand (env : Externals) (comd : Char) (argument : Text) : FsProg (Result × Text) := do
  let category := argument.takeWhile (· != ' ')
  let rest := argument.dropWhile (· != ' ')
  let paras := if rest = [] then none else some (rest.dropWhile (· == ' '))
  let (result, out) ← nkProcessComd env comd category paras (.split category)
  return (result, report comd category paras result out)

/-- `nk_sysconfig(3, argv, supBuf)` with the option and the command in `argv[1]` and `argv[2]`.
The option `-a` reads without the lock. -/
def nkSysconfig (env : Externals) (option argument : Text) : FsProg (Result × Text) :=
  if argument.head? = some '-' then env.sysconfig option argument
  else if option ∈ ["-?", "-h", "-v"].map String.toList then return (.ok, [])
  else
    let comd := option.getD 1 '\x00'
    if comd = 'a' then runCommand env comd argument
    else do
      lockOpen
      let reply ← runCommand env comd argument
      lockUnlink
      return reply

end ConfigCommand
