import RouterFirmware.SessionLimit
import RouterFirmware.SwitchCase

/-! # The report of the blocked hosts

`SIOCGETSESSIONLIMITBLOCKIP` prints the host table. It is a case of the switch of `url_ioctl`, where
the case behind it empties the exception rules.
-/
namespace SessionQuery

open SessionRules SessionLimit SwitchCase

/-- What is printed. -/
inductive Line where
  | disabled
  | showBlocked
  | stars
  | host (ip sessionCnt : UInt32)
  | blockedHost (ip sessionCnt blockTimer : UInt32)
  | blank
  deriving DecidableEq

def marked (mark : Bool) (line : Line) : List Line :=
  if mark then [.stars, line, .stars] else [line]

def entryLines (c : SessionLimitSetting) (p : SessionLimitEntry) : List Line :=
  if c.sessionLimitStatus = 1 then
    marked (c.sessionLimitMaxSession1 ≤ p.sessionCnt) (.host p.ip p.sessionCnt)
  else if c.sessionLimitStatus = 2 then
    marked (0 < p.blockTimer) (.blockedHost p.ip p.sessionCnt p.blockTimer)
  else []

def report (s : State) : List Line :=
  (if s.setting.sessionLimitStatus = 0 then .disabled else .showBlocked) ::
    (List.finRange 128).flatMap (fun i => (s.nkSessionLimit i).flatMap (entryLines s.setting)) ++
    [.blank]

/-- The commands of the session limit. -/
inductive Cmd where
  | sessionLimitSetup
  | getSessionLimitBlockIp
  | sessionLimitEnhanceInit
  | sessionLimitEnhance
  deriving DecidableEq

/-- What the cases read besides the state. -/
structure Arg where
  wanUp : Bool
  setting : SessionLimitSetting
  install : Install

/-- The state and what has been printed. -/
abbrev Kernel := State × List Line

/-- The state changed by an event, and nothing printed. -/
def silent (e : Event) (k : Kernel) : Kernel := (next k.1 e, k.2)

def setupCase (arg : Arg) : Case Cmd Kernel :=
  ⟨.sessionLimitSetup, silent (.setup arg.wanUp arg.setting), true⟩

/-- There is no `break` behind the last `printk`. -/
def queryCase : Case Cmd Kernel :=
  ⟨.getSessionLimitBlockIp, fun k => (k.1, k.2 ++ report k.1), false⟩

def initCase : Case Cmd Kernel := ⟨.sessionLimitEnhanceInit, silent .enhanceInit, true⟩

def enhanceCase (arg : Arg) : Case Cmd Kernel :=
  ⟨.sessionLimitEnhance, silent (.enhance arg.install), true⟩

/-- The cases in the order of the text. -/
def sessionLimitCases (arg : Arg) : List (Case Cmd Kernel) :=
  [setupCase arg, queryCase, initCase, enhanceCase arg]

/-- `url_ioctl`, as far as the session limit is concerned. -/
def urlIoctl (cmd : Cmd) (arg : Arg) : Kernel → Kernel := switch cmd (sessionLimitCases arg)

/-- The event that a command is for the state. -/
def effect (cmd : Cmd) (arg : Arg) : Event :=
  match cmd with
  | .sessionLimitSetup => .setup arg.wanUp arg.setting
  | .getSessionLimitBlockIp => .enhanceInit
  | .sessionLimitEnhanceInit => .enhanceInit
  | .sessionLimitEnhance => .enhance arg.install

section Cases

variable (arg : Arg) (k : Kernel)

theorem urlIoctl_query :
    urlIoctl .getSessionLimitBlockIp arg k = silent .enhanceInit (k.1, k.2 ++ report k.1) := by
  change switch queryCase.label ([setupCase arg] ++ queryCase :: initCase :: [enhanceCase arg]) k =
    _
  apply switch_of_no_break
  · intro b hb heq
    rw [List.mem_singleton.mp hb] at heq
    cases heq
  · rfl
  · rfl

theorem urlIoctl_of_break {c : Case Cmd Kernel} (hmem : c ∈ sessionLimitCases arg)
    (hc : c.breaks = true) : urlIoctl c.label arg k = c.body k := by
  refine switch_of_mem ?_ hmem hc k
  change [Cmd.sessionLimitSetup, .getSessionLimitBlockIp, .sessionLimitEnhanceInit,
    .sessionLimitEnhance].Nodup
  decide

theorem urlIoctl_state (cmd : Cmd) : (urlIoctl cmd arg k).1 = next k.1 (effect cmd arg) := by
  cases cmd with
  | sessionLimitSetup =>
    have hbody := urlIoctl_of_break arg k (c := setupCase arg) (by simp [sessionLimitCases]) rfl
    exact congrArg Prod.fst hbody
  | getSessionLimitBlockIp => exact congrArg Prod.fst (urlIoctl_query arg k)
  | sessionLimitEnhanceInit =>
    have hbody := urlIoctl_of_break arg k (c := initCase) (by simp [sessionLimitCases]) rfl
    exact congrArg Prod.fst hbody
  | sessionLimitEnhance =>
    have hbody := urlIoctl_of_break arg k (c := enhanceCase arg) (by simp [sessionLimitCases]) rfl
    exact congrArg Prod.fst hbody

/-- Commands are a run of the session limit in which each query empties the rules. -/
theorem urlIoctl_run (cmds : List (Cmd × Arg)) :
    (cmds.foldl (fun k c => urlIoctl c.1 c.2 k) k).1 =
      run k.1 (cmds.map fun c => effect c.1 c.2) := by
  induction cmds generalizing k with
  | nil => rfl
  | cons c cmds ih =>
    rw [List.foldl_cons, ih, urlIoctl_state]
    rfl

end Cases

/-! ## What the query changes -/

/-- The state is the same, and so are the answers of the rule check. -/
def Unchanged (s s' : State) : Prop :=
  s' = s ∧ ∀ ip port protocol cnt, sessionLimitEnhanceRuleCheck s'.rules ip port protocol cnt =
    sessionLimitEnhanceRuleCheck s.rules ip port protocol cnt

/-- A packet that no rule meets gets the answer of empty stores, and only such a packet. -/
theorem ruleCheck_enhanceInit_iff (s : State) (ip : UInt32) (port protocol cnt : ℤ) :
    sessionLimitEnhanceRuleCheck (next s .enhanceInit).rules ip port protocol cnt =
        sessionLimitEnhanceRuleCheck s.rules ip port protocol cnt ↔
      Builtin port protocol ∨ ¬ Hit s.rules ip port (protoBits protocol) := by
  by_cases hbuiltin : Builtin port protocol
  · simp only [hbuiltin, true_or, iff_true]
    have hbits := protoBits_builtin.mp hbuiltin
    simp only [sessionLimitEnhanceRuleCheck]
    rcases hbits with h | h
    · rw [if_pos h, if_pos h]
    · have hne : ¬ (protoBits protocol = 2 ∧ port = 53) := by
        rw [h.1]
        exact fun htwo => absurd htwo.1 (by decide)
      rw [if_neg hne, if_pos h, if_neg hne, if_pos h]
  · have hempty : sessionLimitEnhanceRuleCheck (next s .enhanceInit).rules ip port protocol cnt =
        0 := by
      by_contra hne
      have hhit := (ruleCheck_ne_zero hbuiltin cnt).mp hne
      simp [Hit, next, sessionLimitEnhanceInit] at hhit
    rw [hempty, eq_comm, ← not_iff_not, ← ne_eq, ruleCheck_ne_zero hbuiltin]
    simp [hbuiltin]

/-- The query leaves everything as it is exactly when there are no rules. -/
theorem query_unchanged_iff (arg : Arg) (k : Kernel) :
    Unchanged k.1 (urlIoctl .getSessionLimitBlockIp arg k).1 ↔
      k.1.rules = sessionLimitEnhanceInit := by
  rw [urlIoctl_state]
  constructor
  · rintro ⟨hstate, -⟩
    exact (congrArg State.rules hstate).symm
  · intro hrules
    have hstate : next k.1 (effect .getSessionLimitBlockIp arg) = k.1 := by
      rw [effect, next, ← hrules]
    refine ⟨hstate, fun ip port protocol cnt => ?_⟩
    rw [hstate]

/-- A limit of 100 sessions, and the rule that all TCP packets are exempt. -/
def exemptArg : Arg := ⟨true, ⟨1, 100, 0, 0, 0, 0, 0⟩, ⟨⟨0, 0, 1, 1, 65535, 0⟩, 256⟩⟩

def exemptState : State :=
  next (fresh 0xc0a80101 ⟨4096, by decide⟩ exemptArg.setting) (.enhance exemptArg.install)

/-- The query ends the exemption. -/
theorem query_ends_exemption :
    sessionLimitEnhanceRuleCheck exemptState.rules 0xc0a80164 80 6 0 = 1 ∧
      ¬ Unchanged exemptState
        (urlIoctl .getSessionLimitBlockIp exemptArg (exemptState, [])).1 := by
  refine ⟨rfl, ?_⟩
  rintro ⟨-, hanswers⟩
  have hsame := hanswers 0xc0a80164 80 6 0
  exact absurd hsame (by decide)

end SessionQuery
