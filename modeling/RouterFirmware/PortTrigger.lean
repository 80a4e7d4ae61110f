import Mathlib.Data.Nat.Notation
import RouterFirmware.BucketTable
import RouterFirmware.GuardedRun

/-! # Port triggers

A packet that goes out to the trigger ports of a rule opens the related ports of the rule for the
host that sent it. `trigger_out` looks for a trigger by the packet alone, and the trigger that it
finds may be one of another rule.
-/
namespace PortTrigger

open BucketTable GuardedRun

/-- `struct ipt_trigger_ports`: the first and the last port of each range. -/
structure TriggerPorts where
  mport : UInt16 × UInt16
  rport : UInt16 × UInt16
  deriving DecidableEq

/-- `struct ipt_trigger_info` of a rule with the type `IPT_TRIGGER_OUT`. -/
structure TriggerInfo where
  proto : UInt16
  ports : TriggerPorts
  deriving DecidableEq

/-- `struct ipt_trigger`, less its timer and `dstip`, which nothing reads. -/
structure Trigger where
  srcip : UInt32
  mproto : UInt16
  rproto : UInt16
  ports : TriggerPorts
  reply : Bool
  deriving DecidableEq

/-- A packet that is forwarded: routing has dropped those from address 0. -/
structure OutPacket where
  saddr : UInt32
  protocol : UInt16
  dest : UInt16
  saddr_ne : saddr ≠ 0

def triggerOutMatched (proto dport : UInt16) (i : Trigger) : Bool :=
  i.mproto = proto && i.ports.mport.1 ≤ dport && i.ports.mport.2 ≥ dport

/-- `add_new_trigger`; `alloc` says whether `kmalloc` has room. -/
def addNewTrigger (alloc : Bool) (trig : Trigger) (triggerList : List Trigger) : List Trigger :=
  if alloc then trig :: triggerList else triggerList

def triggerOut (alloc : Bool) (p : OutPacket) (info : TriggerInfo) (triggerList : List Trigger) :
    List Trigger :=
  match triggerList.find? (triggerOutMatched p.protocol p.dest) with
  | some _ =>
    modifyFirst (triggerOutMatched p.protocol p.dest)
      (fun found => if found.reply then { found with srcip := p.saddr } else found) triggerList
  | none => addNewTrigger alloc ⟨p.saddr, p.protocol, info.proto, info.ports, false⟩ triggerList

def triggerInMatched (proto dport : UInt16) (i : Trigger) : Bool :=
  let rproto := if i.rproto = 0 then proto else i.rproto
  rproto = proto && i.ports.rport.1 ≤ dport && i.ports.rport.2 ≥ dport

/-- `trigger_dnat`: the address that the packet is redirected to. -/
def triggerDnat (proto dport : UInt16) (triggerList : List Trigger) :
    Option UInt32 × List Trigger :=
  match triggerList.find? (triggerInMatched proto dport) with
  | none => (none, triggerList)
  | some found =>
    if found.srcip = 0 then (none, triggerList)
    else (some found.srcip,
      modifyFirst (triggerInMatched proto dport) (fun found => { found with reply := true })
        triggerList)

inductive Event where
  | out (alloc : Bool) (p : OutPacket) (info : TriggerInfo)
  | dnat (proto dport : UInt16)
  /-- `trigger_timeout` for the trigger at this place of the list -/
  | timeout (k : ℕ)
  /-- `trigger_check`, which empties the list -/
  | check

def next (triggerList : List Trigger) : Event → List Trigger
  | .out alloc p info => triggerOut alloc p info triggerList
  | .dnat proto dport => (triggerDnat proto dport triggerList).2
  | .timeout k => triggerList.eraseIdx k
  | .check => []

/-- The trigger has the related protocol and ports of the rule. -/
def Opens (info : TriggerInfo) (t : Trigger) : Prop :=
  t.rproto = info.proto ∧ t.ports.rport = info.ports.rport

instance (info : TriggerInfo) : DecidablePred (Opens info) := fun t =>
  inferInstanceAs (Decidable (t.rproto = info.proto ∧ t.ports.rport = info.ports.rport))

def Related (info : TriggerInfo) (proto dport : UInt16) : Prop :=
  (info.proto = 0 ∨ info.proto = proto) ∧
    info.ports.rport.1 ≤ dport ∧ dport ≤ info.ports.rport.2

/-- The related ports of the rule are open. -/
structure Opened (triggerList : List Trigger) (info : TriggerInfo) : Prop where
  listed : ∃ t ∈ triggerList, Opens info t
  redirected : ∀ proto dport, Related info proto dport →
    ((triggerDnat proto dport triggerList).1).isSome = true

/-- A packet opens the related ports of its rule. -/
def Meets (triggerList : List Trigger) : Event → Prop
  | .out alloc p info => alloc = true → Opened (triggerOut alloc p info triggerList) info
  | .dnat _ _ => True
  | .timeout _ => True
  | .check => True

/-- No trigger is for the packet, or one with the related ports of its rule is there already. -/
def Apart (triggerList : List Trigger) : Event → Prop
  | .out alloc p info => alloc = true →
    (∀ t ∈ triggerList, triggerOutMatched p.protocol p.dest t = false) ∨
      ∃ t ∈ triggerList, Opens info t
  | .dnat _ _ => True
  | .timeout _ => True
  | .check => True

/-- Each trigger has a host. -/
def Hosted (triggerList : List Trigger) : Prop := ∀ t ∈ triggerList, t.srcip ≠ 0

section Lists

variable {l : List Trigger} {q : Trigger → Bool} {f : Trigger → Trigger} {info : TriggerInfo}
  {p : OutPacket} {alloc : Bool} {t : Trigger} {proto dport : UInt16}

theorem mem_modifyFirst (h : t ∈ modifyFirst q f l) : t ∈ l ∨ ∃ u ∈ l, t = f u := by
  fun_induction modifyFirst q f l with
  | case1 => cases h
  | case2 a l _ =>
    rcases List.mem_cons.mp h with rfl | h
    · exact .inr ⟨a, List.mem_cons_self, rfl⟩
    · exact .inl (List.mem_cons_of_mem _ h)
  | case3 a l _ ih =>
    rcases List.mem_cons.mp h with rfl | h
    · exact .inl List.mem_cons_self
    · rcases ih h with h | ⟨u, hu, heq⟩
      · exact .inl (List.mem_cons_of_mem _ h)
      · exact .inr ⟨u, List.mem_cons_of_mem _ hu, heq⟩

/-- The host of a trigger can change, and its ports stay. -/
theorem exists_opens_modifyFirst (hf : ∀ t, (f t).rproto = t.rproto ∧ (f t).ports = t.ports) :
    (∃ t ∈ modifyFirst q f l, Opens info t) ↔ ∃ t ∈ l, Opens info t := by
  have hkey : (modifyFirst q f l).map (fun t => (t.rproto, t.ports)) =
      l.map fun t => (t.rproto, t.ports) :=
    map_modifyFirst (fun t => Prod.ext (hf t).1 (hf t).2) l
  have hexists : ∀ k : List Trigger, (∃ t ∈ k, Opens info t) ↔
      ∃ x ∈ k.map fun t => (t.rproto, t.ports), x.1 = info.proto ∧ x.2.rport = info.ports.rport :=
    fun k => by simp [Opens]
  rw [hexists, hkey, ← hexists]

theorem triggerInMatched_of_opens (h : Opens info t) (hrelated : Related info proto dport) :
    triggerInMatched proto dport t = true := by
  obtain ⟨hproto, hports⟩ := h
  obtain ⟨hany, hlow, hhigh⟩ := hrelated
  rw [← hproto] at hany
  rw [← hports] at hlow hhigh
  have hrproto : (if t.rproto = 0 then proto else t.rproto) = proto := by
    rcases hany with hzero | heq
    · exact if_pos hzero
    · rw [heq]
      exact ite_self proto
  simp [triggerInMatched, hrproto, hlow, hhigh]

/-- With a trigger that has the related ports the traffic there is redirected, by it or by one in
front of it. -/
theorem opened_iff (h : Hosted l) : Opened l info ↔ ∃ t ∈ l, Opens info t := by
  refine ⟨fun hopened => hopened.listed, fun hlisted => ⟨hlisted, fun proto dport hrelated => ?_⟩⟩
  obtain ⟨t, ht, hopens⟩ := hlisted
  have hmatched := triggerInMatched_of_opens hopens hrelated
  obtain ⟨found, hfound⟩ := Option.isSome_iff_exists.mp (List.find?_isSome.mpr ⟨t, ht, hmatched⟩)
  have hhost := h found (List.mem_of_find?_eq_some hfound)
  simp only [triggerDnat, hfound, if_neg hhost, Option.isSome_some]

theorem hosted_next (h : Hosted l) (e : Event) : Hosted (next l e) := by
  intro t ht
  cases e with
  | out alloc p info =>
    rw [next, triggerOut] at ht
    split at ht
    · rcases mem_modifyFirst ht with hmem | ⟨u, hu, rfl⟩
      · exact h t hmem
      · split
        · exact p.saddr_ne
        · exact h u hu
    · rw [addNewTrigger] at ht
      split at ht
      · rcases List.mem_cons.mp ht with rfl | hmem
        · exact p.saddr_ne
        · exact h t hmem
      · exact h t ht
  | dnat proto dport =>
    rw [next, triggerDnat] at ht
    split at ht
    · exact h t ht
    · split at ht
      · exact h t ht
      · rcases mem_modifyFirst ht with hmem | ⟨u, hu, rfl⟩
        · exact h t hmem
        · exact h u hu
  | timeout k => exact h t (List.mem_of_mem_eraseIdx ht)
  | check => cases ht

theorem opened_triggerOut_iff (h : Hosted l) : Opened (triggerOut true p info l) info ↔
    (∀ t ∈ l, triggerOutMatched p.protocol p.dest t = false) ∨ ∃ t ∈ l, Opens info t := by
  have hnext : Hosted (triggerOut true p info l) := hosted_next h (.out true p info)
  rw [opened_iff hnext, triggerOut]
  cases hfind : l.find? (triggerOutMatched p.protocol p.dest) with
  | some found =>
    have hmatched := List.find?_some hfind
    have hnot : ¬ ∀ t ∈ l, triggerOutMatched p.protocol p.dest t = false := fun hall => by
      rw [hall found (List.mem_of_find?_eq_some hfind)] at hmatched
      cases hmatched
    simp only [hnot, false_or]
    apply exists_opens_modifyFirst
    intro t
    split
    · exact ⟨rfl, rfl⟩
    · exact ⟨rfl, rfl⟩
  | none =>
    have hall := List.find?_eq_none.mp hfind
    refine iff_of_true ⟨_, List.mem_cons_self, rfl, rfl⟩ (.inl fun t ht => ?_)
    simpa using hall t ht

theorem meets_iff (h : Hosted l) (e : Event) : Meets l e ↔ Apart l e := by
  cases e with
  | out alloc p info =>
    refine forall_congr' fun halloc => ?_
    rw [halloc]
    exact opened_triggerOut_iff h
  | dnat proto dport => exact Iff.rfl
  | timeout k => exact Iff.rfl
  | check => exact Iff.rfl

/-- In a run the packets open the ports of their rules exactly when each of them meets no trigger,
or the ports are open already. -/
theorem opened_throughout_iff (events : List Event) :
    Along next Meets [] events ↔ Along next Apart [] events :=
  along_iff (I := Hosted) (fun _ e h _ => hosted_next h e) (fun _ e h => meets_iff h e)
    (fun _ ht => absurd ht List.not_mem_nil)

end Lists

def gameRule : TriggerInfo := ⟨6, ⟨(6000, 7000), (8000, 8000)⟩⟩

def voiceRule : TriggerInfo := ⟨6, ⟨(6500, 6600), (9000, 9000)⟩⟩

def gamePacket : OutPacket := ⟨0xc0a80164, 6, 6550, by decide⟩

/-- The packet is matched by both rules, and the second one finds the trigger of the first. -/
theorem second_rule_closed :
    ¬ Along next Meets [] [.out true gamePacket gameRule, .out true gamePacket voiceRule] := by
  intro h
  obtain ⟨-, hmeets, -⟩ := h
  have hlisted := (hmeets rfl).listed
  revert hlisted
  decide

end PortTrigger
