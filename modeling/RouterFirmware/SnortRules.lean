import RouterFirmware.PatternLoop
import RouterFirmware.TextStream

/-! # Rule sets and rules of the intrusion detection

`snort.conf` includes the rule sets, and a mark in front of an include switches a rule set off. The
rule files hold the rules with their actions. `print_rules` shows them and `set_rules_action` edits
them, both on the mapped file.
-/
namespace SnortRules

open TextStream CString PatternLoop

def snortfile : Text := "/usr/local/IDS/snort.conf".toList
def rulespath : Text := "/usr/local/IDS/rules/".toList
def tmpFile : Text := "/tmp/idsrules.txt".toList
def rulesHead : Text := "include $RULE_PATH/".toList
def rulesTail : Text := ".rules".toList
def msgHead : Text := ['(', 'm', 's', 'g', ':', '"']
def msgTail : Text := ['"', ';']
def rulefileExt : Text := ".rules".toList

/-- What the calls meet: the size of a page, whether the temporary file can be made, and what the
rule file holds after a command when the temporary file and the rule file hold these texts. -/
structure Host where
  page : ℕ
  makesTmp : Bool
  system : Text → Text → Text → Text

def visible (content : Text) : Text := content.takeWhile (· ≠ '\x00')

/-- No zero byte stands behind the string: the file has none, and it fills its last page. -/
def runsOff (host : Host) (content : Text) : Bool :=
  '\x00' ∉ content ∧ content.length % host.page = 0

def atEnd {ρ : Type} (off : Bool) (r : ρ) : Except Fault ρ :=
  if off then .error .readPastEnd else .ok r

def find (off : Bool) (pattern here : Text) : Except Fault (Option (Text × Text)) :=
  match strstr pattern here with
  | some r => .ok (some r)
  | none => atEnd off none

/-- `strncpy(buf, ptr, p-ptr); buf[p-ptr] = '\0';` where `skip` characters of the text are before
`ptr`. -/
def copyTo (size skip : ℕ) (text : Text) : Except Fault Text :=
  if text.length < skip ∨ size ≤ text.length - skip then .error .writePastEnd
  else .ok (text.drop skip)

/-! ## Actions of rules -/

def protocolLists : List Text := ["ip".toList, "icmp".toList, "tcp".toList, "udp".toList]

/-- `get_action` from the protocol on: back to the start of the line. The start of the file ends
the way back, even where it is a newline. The action is what stands there but for the character
before the protocol; a comment is no rule. -/
def lineAction (size : ℕ) (before here : Text) : Except Fault (Option Place × Text) :=
  if before = [] then .error .readPastEnd
  else
    let line := before.takeWhile (· ≠ '\n')
    let line := if before.drop line.length = ['\n'] then before else line
    if line = [] ∨ size ≤ line.length - 1 then .error .writePastEnd
    else
      let text := line.reverse ++ here
      let act := line.reverse.take (line.length - 1)
      if text.head? = some '#' ∧ text[1]? ≠ some 'o' then .ok (none, act)
      else .ok (some ⟨before.drop line.length, text⟩, act)

/-- `get_action`: back from the rule to a protocol on its line. -/
def getAction (size : ℕ) : Text → Text → Except Fault (Option Place × Text)
  | before, here =>
    if here.head? = some '\n' then .ok (none, [])
    else if protocolLists.any (·.isPrefixOf here) then lineAction size before here
    else
      match before with
      | [] => .error .readPastEnd
      | c :: before => getAction size before (c :: here)

/-- `get_classtype_sid`: the class and the number of a rule. Without a `sid:` behind the class the
next search starts at a null pointer. -/
def getClasstypeSid (off : Bool) (classSize sidSize : ℕ) (rule : Text) :
    Except Fault (Text × Text) := do
  match ← find off "classtype:".toList rule with
  | none => return ([], [])
  | some (_, ptr) =>
    let (cls, ptr) ← match ← find off "; ".toList ptr with
      | none => pure ([], ptr)
      | some (text, _) => do
        let cls ← copyTo classSize "classtype:".length text
        pure (cls, ptr.drop "classtype:".length)
    match ← find off "sid:".toList ptr with
    | none => throw .readPastEnd
    | some (_, ptr) =>
      match ← find off "; ".toList ptr with
      | none => return (cls, [])
      | some (text, _) => return (cls, ← copyTo sidSize 0 text)

def isRules (filename : Text) : Bool := filename == "rules".toList

def fileOf (filename : Text) : Text :=
  if isRules filename then snortfile else rulespath ++ filename ++ rulefileExt

def headOf (filename : Text) : Text := if isRules filename then rulesHead else msgHead

def tailOf (filename : Text) : Text := if isRules filename then rulesTail else msgTail

/-- `*(ptr-1) == '#'` -/
def isHidden (p : Place) : Except Fault Bool :=
  match p.before with
  | [] => .error .readPastEnd
  | c :: _ => .ok (c == '#')

/-- `!strncmp(ptr-4, "#ox ", 4)`, of which the first comparison already reads `ptr-4`. -/
def isMarked (p : Place) : Except Fault Bool :=
  if p.before.length < 4 then .error .readPastEnd
  else .ok ((p.before.take 4).reverse == "#ox ".toList)

/-! ## Showing -/

/-- The action that is shown. -/
def shownAction (filename : Text) (p : Place) : Except Fault (Option Text) :=
  if isRules filename then
    (isMarked p).map fun marked => some (if marked then "disable".toList else "enable".toList)
  else (getAction 80 p.before p.here).map fun a => a.1.map fun _ => a.2

structure Entry where
  act : Text
  name : Text
  cls : Text
  sid : Text
  deriving DecidableEq

/-- One turn of `print_rules(filename, 0)`. Where no tail follows, the pointer stays where it is and
the loop does not end. -/
def listBody (off : Bool) (filename : Text) (printed : List Entry) (p : Place) :
    Except Fault (Move (List Entry) (List Entry × Bool)) := do
  if ← isHidden p then return .on 0 printed
  match ← find off (tailOf filename) p.here with
  | none => return .leave (printed, false)
  | some (text, _) =>
    match ← shownAction filename p with
    | none => return .on 0 printed
    | some act =>
      let name ← copyTo 128 (headOf filename).length text
      if isRules filename then
        return .on ((headOf filename).length - 1) (printed ++ [⟨act, name, [], []⟩])
      let classSid ← getClasstypeSid off 128 80 (p.here.drop (headOf filename).length)
      return .on ((headOf filename).length - 1) (printed ++ [⟨act, name, classSid.1, classSid.2⟩])

/-- `print_rules(filename, 0)`, but for `version`: what it prints, and whether it ends. -/
def printAll (host : Host) (filename : Text) (file : Option Text) :
    Except Fault (List Entry × Bool) :=
  if 128 ≤ (fileOf filename).length then .error .writePastEnd
  else
    match file with
    | none => .ok ([], true)
    | some content =>
      if content = [] then .ok ([], true)
      else
        let off := runsOff host content
        loop (headOf filename) (listBody off filename) (fun printed => atEnd off (printed, true))
          0 [] (visible content) []

/-- The places that count in `print_rules(filename, idx)`. -/
def countsInPrint (filename : Text) (p : Place) : Except Fault Bool := do
  if ← isHidden p then return false
  return (← shownAction filename p).isSome

/-- What is shown of number `idx`. The class is not printed for a rule set. -/
def printFound (off : Bool) (filename : Text) (p : Place) : Except Fault (Option Entry) := do
  let act ← shownAction filename p
  match ← find off (tailOf filename) p.here with
  | none => return none
  | some (text, _) =>
    let name ← copyTo 128 (headOf filename).length text
    let classSid ← getClasstypeSid off 128 80 (p.here.drop (headOf filename).length)
    if isRules filename then return some ⟨act.getD [], name, [], []⟩
    return some ⟨act.getD [], name, classSid.1, classSid.2⟩

/-- `print_rules(filename, idx)` for `idx` other than 0, but for `version`: the count it returns,
and what it prints. -/
def printRule (host : Host) (filename : Text) (idx : ℤ) (file : Option Text) :
    Except Fault (ℕ × Option Entry) :=
  if 128 ≤ (fileOf filename).length then .error .writePastEnd
  else
    match file with
    | none => .ok (0, none)
    | some content =>
      if content = [] then .ok (0, none)
      else do
        let off := runsOff host content
        let (cnt, entry) ← loop (headOf filename)
          (nthBody (countsInPrint filename) idx (printFound off filename))
          (fun cnt => atEnd off (cnt, none)) 0 [] (visible content) 0
        return (if (cnt : ℤ) < idx then 0 else cnt, entry)

/-! ## Editing -/

def actionLists : List Text :=
  ["alert".toList, "log".toList, "drop".toList, "sdrop".toList, "disable".toList, "enable".toList]

def accepted (actionBuf : Text) : Bool := actionLists.any fun a => (strstr a actionBuf).isSome

def copyCommand (f : Text) : Text := "cp -f ".toList ++ tmpFile ++ ' ' :: f

/-- The end of both functions that edit: the temporary file goes over the rule file. -/
def copyBack (host : Host) (f written content : Text) : Except Fault (Option Text) :=
  if 128 ≤ (copyCommand f).length then .error .writePastEnd
  else .ok (some (host.system (copyCommand f) written content))

/-- One turn of `set_risk_action`. Without an end of the rule the length to write comes from a null
pointer. -/
def riskBody (off : Bool) (actionBuf : Text) (s : ℕ × Text) (p : Place) :
    Except Fault (Move (ℕ × Text) (ℕ × Text)) := do
  if ← isHidden p then return .on 0 s
  match ← getAction 80 p.before p.here with
  | (none, _) => return .on 0 s
  | (some start, act) =>
    match ← find off msgTail p.here with
    | none => return .on 0 (s.1 + 1, s.2)
    | some (_, tail) =>
      match ← find off [';', ')'] tail with
      | none => throw .readPastEnd
      | some (_, rest) =>
        let rule := start.here.take (start.here.length - rest.length + 2)
        return .on 0 (s.1 + 1, s.2 ++ actionBuf ++ rule.drop act.length ++ ['\n'])

/-- `set_risk_action(f, actionBuf)`: what it returns, and the file behind it. -/
def setRiskAction (host : Host) (f actionBuf : Text) (file : Option Text) :
    Except Fault (ℤ × Option Text) :=
  match file with
  | none => .ok (0, none)
  | some content =>
    if content = [] ∨ host.makesTmp = false then .ok (0, some content)
    else do
      let off := runsOff host content
      let (cnt, written) ← loop msgHead (riskBody off actionBuf) (atEnd off) 0 []
        (visible content) (0, [])
      return (cnt, ← copyBack host f written content)

/-- A place counts in `set_rules_action` when no `#` is in front of it and, in a rule file, its rule
has an action. -/
def counts (filename : Text) (p : Place) : Except Fault Bool := do
  if ← isHidden p then return false
  if isRules filename then return true
  return (← getAction 80 p.before p.here).1.isSome

/-- The new text of `snort.conf`, with the rule set at `p` switched on or off. -/
def editSet (actionBuf content : Text) (p : Place) : Except Fault Text :=
  let rest := content.drop p.before.length
  if actionBuf = "enable".toList then
    (isMarked p).map fun marked =>
      (if marked then p.before.drop 4 else p.before).reverse ++ rest
  else if actionBuf = "disable".toList then
    (isMarked p).map fun marked =>
      p.before.reverse ++ (if marked then [] else "#ox ".toList) ++ rest
  else .ok []

/-- The new text of a rule file, with another action for the rule at `p`. -/
def editRule (actionBuf content : Text) (p : Place) : Except Fault Text :=
  (getAction 80 p.before p.here).map fun a =>
    match a.1 with
    | none => []
    | some start =>
      start.before.reverse ++ actionBuf ++ content.drop (start.before.length + a.2.length)

/-- What goes to the temporary file for number `idx`, if its tail is found. -/
def editFound (off : Bool) (filename actionBuf content : Text) (p : Place) :
    Except Fault (Option Text) := do
  match ← find off (tailOf filename) p.here with
  | none => return none
  | some (text, _) =>
    let _ ← copyTo 128 (headOf filename).length text
    if isRules filename then return some (← editSet actionBuf content p)
    return some (← editRule actionBuf content p)

/-- `set_rules_action`: what it returns, and the file behind it. -/
def setRulesAction (host : Host) (filename : Text) (idx : ℤ) (actionBuf : Text)
    (file : Option Text) : Except Fault (ℤ × Option Text) :=
  if actionBuf = [] ∨ accepted actionBuf = false then .ok (0, file)
  else if 128 ≤ (fileOf filename).length then .error .writePastEnd
  else if ["high".toList, "medium".toList, "low".toList].contains filename then
    setRiskAction host (fileOf filename) actionBuf file
  else
    match file with
    | none => .ok (0, none)
    | some content =>
      if content = [] ∨ host.makesTmp = false then .ok (0, some content)
      else do
        let off := runsOff host content
        let (cnt, written) ← loop (headOf filename)
          (nthBody (counts filename) idx (editFound off filename actionBuf content))
          (fun cnt => atEnd off (cnt, none)) 0 [] (visible content) 0
        return (if (cnt : ℤ) < idx then 0 else cnt,
          ← copyBack host (fileOf filename) (written.getD []) content)

end SnortRules
