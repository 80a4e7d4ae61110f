import RouterFirmware.BindingRules

/-! # What a new rule covers

A lookup tests every field of a rule, so an attribute that is left out counts by its default. The
defaults for addresses let every flow pass; those for the protocol and for the ports do not, as
flows without ports have port 0 and protocol 254 is what stands for any.
-/
namespace BindingLookups

open BindingRules FibRules

/-- Ports have 16 bits. -/
def PortsFit (flp : LookupFlow) : Prop := flp.srcPort ≤ 65535 ∧ flp.dstPort ≤ 65535

def InPrefix (net : Option UInt32) (len : UInt8) (addr : UInt32) : Prop :=
  (addr ^^^ net.getD 0) &&& inetMakeMask len = 0

instance (net : Option UInt32) (len : UInt8) (addr : UInt32) :
    Decidable (InPrefix net len addr) := inferInstanceAs (Decidable (_ = _))

def created (env : Env) (q : Request) (tableId : UInt8) (rules : List Rule) : FibRule :=
  (withPreference (newRule env q tableId) rules).toFibRule

/-- A flow meets what the request names. -/
def Asks (env : Env) (q : Request) (tableId : UInt8) (flp : LookupFlow)
    (outDevice : Option UInt32) : Prop :=
  InPrefix q.src q.rtmSrcLen flp.saddr ∧
  InPrefix q.dst q.rtmDstLen flp.daddr ∧
  ¬ (outDevice.isSome ∧ tableId ≠ rtTableMain) ∧
  (∀ ip ∈ q.startSrcIp, ip ≤ flp.saddr) ∧
  (∀ ip ∈ q.endSrcIp, flp.saddr ≤ ip) ∧
  (∀ ip ∈ q.startDstIp, ip ≤ flp.daddr) ∧
  (∀ ip ∈ q.endDstIp, flp.daddr ≤ ip) ∧
  (∀ type ∈ q.protocolType, knownProtocol type = 254 ∨ flp.protocolType = knownProtocol type) ∧
  (∀ port ∈ q.startSrcPort, port ≤ flp.srcPort) ∧
  (∀ port ∈ q.endSrcPort, flp.srcPort ≤ port) ∧
  (∀ port ∈ q.startDstPort, port ≤ flp.dstPort) ∧
  (∀ port ∈ q.endDstPort, flp.dstPort ≤ port) ∧
  ¬ (flp.wan2lan ∧ tableId > 1 ∧ tableId < rtTableDefault) ∧
  (q.rtmTos = 0 ∨ q.rtmTos = flp.tos) ∧
  ((newRule env q tableId).rIfindex = 0 ∨ (newRule env q tableId).rIfindex = flp.iif)

/-- The defaults let the flow pass. -/
def Neutral (q : Request) (flp : LookupFlow) : Prop :=
  (q.protocolType = none → flp.protocolType = 0) ∧
  (q.startSrcPort = none → flp.srcPort ≠ 0) ∧
  (q.startDstPort = none → flp.dstPort ≠ 0)

/-- Two flows differ in nothing but the fields that the request leaves open. -/
structure Agree (q : Request) (f g : LookupFlow) : Prop where
  saddr : q.startSrcIp.isSome ∨ q.endSrcIp.isSome → f.saddr = g.saddr
  src : InPrefix q.src q.rtmSrcLen f.saddr ↔ InPrefix q.src q.rtmSrcLen g.saddr
  daddr : q.startDstIp.isSome ∨ q.endDstIp.isSome → f.daddr = g.daddr
  dst : InPrefix q.dst q.rtmDstLen f.daddr ↔ InPrefix q.dst q.rtmDstLen g.daddr
  protocolType : q.protocolType.isSome → f.protocolType = g.protocolType
  srcPort : q.startSrcPort.isSome ∨ q.endSrcPort.isSome → f.srcPort = g.srcPort
  dstPort : q.startDstPort.isSome ∨ q.endDstPort.isSome → f.dstPort = g.dstPort
  rest : f.tos = g.tos ∧ f.scope = g.scope ∧ f.oif = g.oif ∧ f.iif = g.iif ∧
    f.wan2lan = g.wan2lan

/-- Whether the rule covers a flow does not depend on the fields that the request leaves open. -/
def Independent (q : Request) (r : FibRule) : Prop :=
  ∀ f g outDevice, PortsFit f → PortsFit g → Agree q f g →
    (r.Covers f outDevice ↔ r.Covers g outDevice)

/-- Some addresses and ports meet the request and the defaults. -/
def Possible (q : Request) : Prop :=
  (∃ addr, InPrefix q.src q.rtmSrcLen addr ∧ (∀ ip ∈ q.startSrcIp, ip ≤ addr) ∧
    ∀ ip ∈ q.endSrcIp, addr ≤ ip) ∧
  (∃ addr, InPrefix q.dst q.rtmDstLen addr ∧ (∀ ip ∈ q.startDstIp, ip ≤ addr) ∧
    ∀ ip ∈ q.endDstIp, addr ≤ ip) ∧
  q.startSrcPort.getD 1 ≤ 65535 ∧ q.startSrcPort.getD 1 ≤ q.endSrcPort.getD 65535 ∧
  q.startDstPort.getD 1 ≤ 65535 ∧ q.startDstPort.getD 1 ≤ q.endDstPort.getD 65535

/-- The protocol and something of both port ranges are given. -/
def Complete (q : Request) : Prop :=
  q.protocolType.isSome ∧ (q.startSrcPort.isSome ∨ q.endSrcPort.isSome) ∧
    (q.startDstPort.isSome ∨ q.endDstPort.isSome)

section Lookups

variable {env : Env} {q : Request} {tableId : UInt8} {rules : List Rule} {flp : LookupFlow}
  {outDevice : Option UInt32}

@[simp] theorem created_eq : created env q tableId rules = (newRule env q tableId).toFibRule := by
  unfold created withPreference
  split
  · split
    · rfl
    · split <;> rfl
  · rfl

theorem le_max (x : UInt32) : x ≤ 0xffffffff := by
  rw [UInt32.le_iff_toNat_le]
  have hlt := x.toNat_lt
  have hmax : (0xffffffff : UInt32).toNat = 4294967295 := rfl
  omega

theorem one_le_iff (x : UInt32) : 1 ≤ x ↔ x ≠ 0 := by
  rw [UInt32.le_iff_toNat_le, Ne, ← UInt32.toNat_inj]
  have hone : (1 : UInt32).toNat = 1 := rfl
  have hzero : (0 : UInt32).toNat = 0 := rfl
  omega

theorem getD_le_iff {attr : Option UInt32} {d x : UInt32} :
    attr.getD d ≤ x ↔ (∀ a ∈ attr, a ≤ x) ∧ (attr = none → d ≤ x) := by
  cases attr with
  | none => simp
  | some a => simp

theorem le_getD_iff {attr : Option UInt32} {d x : UInt32} :
    x ≤ attr.getD d ↔ (∀ a ∈ attr, x ≤ a) ∧ (attr = none → x ≤ d) := by
  cases attr with
  | none => simp
  | some a => simp

/-- A new rule covers the flows that are asked for and that the defaults let pass. -/
theorem covers_iff (hports : PortsFit flp) :
    (newRule env q tableId).Covers flp outDevice ↔
      Asks env q tableId flp outDevice ∧ Neutral q flp := by
  obtain ⟨hsrc, hdst⟩ := hports
  have hmin (x : UInt32) : 0 ≤ x := by simp [UInt32.le_iff_toNat_le]
  have htype : ((newRule env q tableId).rProtocolType = 254 ∨
      flp.protocolType = (newRule env q tableId).rProtocolType) ↔
      (∀ type ∈ q.protocolType, knownProtocol type = 254 ∨
        flp.protocolType = knownProtocol type) ∧
      (q.protocolType = none → flp.protocolType = 0) := by
    cases htype : q.protocolType with
    | none => simp [newRule, htype]
    | some type => simp [newRule, htype]
  rw [FibRule.Covers, htype]
  simp only [newRule, getD_le_iff, le_getD_iff, one_le_iff, hmin, le_max, hsrc, hdst,
    imp_true_iff, and_true]
  simp only [Asks, Neutral, InPrefix, newRule]
  constructor
  · rintro ⟨h₁, h₂, h₃, ⟨h₄, h₅⟩, ⟨h₆, h₇⟩, ⟨h₈, n₁⟩, ⟨⟨h₉, n₂⟩, h₁₀⟩, ⟨⟨h₁₁, n₃⟩, h₁₂⟩, hrest⟩
    exact ⟨⟨h₁, h₂, h₃, h₄, h₅, h₆, h₇, h₈, h₉, h₁₀, h₁₁, h₁₂, hrest⟩, n₁, n₂, n₃⟩
  · rintro ⟨⟨h₁, h₂, h₃, h₄, h₅, h₆, h₇, h₈, h₉, h₁₀, h₁₁, h₁₂, hrest⟩, n₁, n₂, n₃⟩
    exact ⟨h₁, h₂, h₃, ⟨h₄, h₅⟩, ⟨h₆, h₇⟩, ⟨h₈, n₁⟩, ⟨⟨h₉, n₂⟩, h₁₀⟩, ⟨⟨h₁₁, n₃⟩, h₁₂⟩, hrest⟩

/-- A value that may differ only where nothing is given meets what is given or not. -/
theorem forall_congr_of_isSome {attr : Option UInt32} {p : UInt32 → UInt32 → Prop} {x y : UInt32}
    (h : attr.isSome → x = y) : (∀ a ∈ attr, p a x) ↔ ∀ a ∈ attr, p a y := by
  cases attr with
  | none => simp
  | some a => rw [h rfl]

theorem Agree.asks {f g : LookupFlow} (h : Agree q f g) :
    Asks env q tableId f outDevice ↔ Asks env q tableId g outDevice := by
  obtain ⟨htos, -, -, hiif, hwan⟩ := h.rest
  simp only [Asks, h.src, h.dst, htos, hiif, hwan,
    forall_congr_of_isSome (p := fun a x => a ≤ x) fun ha => h.saddr (.inl ha),
    forall_congr_of_isSome (p := fun a x => x ≤ a) fun ha => h.saddr (.inr ha),
    forall_congr_of_isSome (p := fun a x => a ≤ x) fun ha => h.daddr (.inl ha),
    forall_congr_of_isSome (p := fun a x => x ≤ a) fun ha => h.daddr (.inr ha),
    forall_congr_of_isSome (p := fun a x => knownProtocol a = 254 ∨ x = knownProtocol a)
      h.protocolType,
    forall_congr_of_isSome (p := fun a x => a ≤ x) fun ha => h.srcPort (.inl ha),
    forall_congr_of_isSome (p := fun a x => x ≤ a) fun ha => h.srcPort (.inr ha),
    forall_congr_of_isSome (p := fun a x => a ≤ x) fun ha => h.dstPort (.inl ha),
    forall_congr_of_isSome (p := fun a x => x ≤ a) fun ha => h.dstPort (.inr ha)]

theorem possible_of_covers (hports : PortsFit flp)
    (h : (newRule env q tableId).Covers flp outDevice) : Possible q := by
  obtain ⟨hsrc, hdst, -, ⟨hs, he⟩, ⟨hs', he'⟩, -, ⟨hp, hp'⟩, ⟨hd, hd'⟩, -⟩ := h
  refine ⟨⟨flp.saddr, hsrc, (getD_le_iff.mp hs).1, (le_getD_iff.mp he).1⟩,
    ⟨flp.daddr, hdst, (getD_le_iff.mp hs').1, (le_getD_iff.mp he').1⟩, ?_, ?_, ?_, ?_⟩
  · exact UInt32.le_trans hp hports.1
  · exact UInt32.le_trans hp hp'
  · exact UInt32.le_trans hd hports.2
  · exact UInt32.le_trans hd hd'

theorem exists_covered (h : Possible q) (env : Env) (tableId : UInt8) :
    ∃ flp, PortsFit flp ∧ (newRule env q tableId).Covers flp none := by
  obtain ⟨⟨saddr, hsrc, hs, he⟩, ⟨daddr, hdst, hs', he'⟩, hfit, hrange, hfit', hrange'⟩ := h
  refine ⟨⟨daddr, saddr, q.rtmTos, 0, 0, (newRule env q tableId).rIfindex, false,
    (newRule env q tableId).rProtocolType, q.startSrcPort.getD 1, q.startDstPort.getD 1⟩,
    ⟨hfit, hfit'⟩, hsrc, hdst, by simp, ?_, ?_, .inr rfl, ⟨UInt32.le_rfl, hrange⟩,
    ⟨UInt32.le_rfl, hrange'⟩, by simp, .inr rfl, .inr rfl⟩
  · exact ⟨getD_le_iff.mpr ⟨hs, fun _ => by simp [UInt32.le_iff_toNat_le]⟩,
      le_getD_iff.mpr ⟨he, fun _ => le_max _⟩⟩
  · exact ⟨getD_le_iff.mpr ⟨hs', fun _ => by simp [UInt32.le_iff_toNat_le]⟩,
      le_getD_iff.mpr ⟨he', fun _ => le_max _⟩⟩

theorem independent_of_complete (h : Complete q) :
    Independent q (newRule env q tableId).toFibRule := by
  obtain ⟨htype, hsrc, hdst⟩ := h
  intro f g outDevice hf hg hagree
  rw [covers_iff hf, covers_iff hg, hagree.asks]
  simp only [Neutral, hagree.protocolType htype, hagree.srcPort hsrc, hagree.dstPort hdst]

theorem Independent.neutral {f g : LookupFlow}
    (h : Independent q (newRule env q tableId).toFibRule) (hagree : Agree q f g)
    (hf : PortsFit f) (hcovers : (newRule env q tableId).Covers f none) (hg : PortsFit g) :
    Neutral q g :=
  ((covers_iff hg).mp ((h f g none hf hg hagree).mp hcovers)).2

/-- Something left out matters as soon as the rule can cover a flow at all. -/
theorem complete_of_independent (h : Independent q (newRule env q tableId).toFibRule)
    (hpossible : Possible q) : Complete q := by
  obtain ⟨flp, hports, hcovers⟩ := exists_covered hpossible env tableId
  have hzero : (0 : UInt32) ≤ 65535 := by decide
  refine ⟨?_, ?_, ?_⟩
  · by_contra hnone
    have hagree : Agree q flp { flp with protocolType := 6 } :=
      ⟨fun _ => rfl, .rfl, fun _ => rfl, .rfl, fun hsome => absurd hsome hnone, fun _ => rfl,
        fun _ => rfl, rfl, rfl, rfl, rfl, rfl⟩
    have hneutral := h.neutral hagree hports hcovers hports
    simp only [Option.not_isSome_iff_eq_none] at hnone
    have hsix : (6 : UInt32) ≠ 0 := by decide
    exact hsix (hneutral.1 hnone)
  · by_contra hnone
    have hagree : Agree q flp { flp with srcPort := 0 } :=
      ⟨fun _ => rfl, .rfl, fun _ => rfl, .rfl, fun _ => rfl, fun hsome => absurd hsome hnone,
        fun _ => rfl, rfl, rfl, rfl, rfl, rfl⟩
    have hneutral := h.neutral hagree hports hcovers ⟨hzero, hports.2⟩
    simp only [not_or, Option.not_isSome_iff_eq_none] at hnone
    exact hneutral.2.1 hnone.1 rfl
  · by_contra hnone
    have hagree : Agree q flp { flp with dstPort := 0 } :=
      ⟨fun _ => rfl, .rfl, fun _ => rfl, .rfl, fun _ => rfl, fun _ => rfl,
        fun hsome => absurd hsome hnone, rfl, rfl, rfl, rfl, rfl⟩
    have hneutral := h.neutral hagree hports hcovers ⟨hports.1, hzero⟩
    simp only [not_or, Option.not_isSome_iff_eq_none] at hnone
    exact hneutral.2.2 hnone.1 rfl

/-- A rule leaves open what its request leaves out if the protocol and something of both port
ranges are given, or if it can cover no flow. A single flow is covered as the request asks unless
it is asked for and a default stops it. -/
theorem leaves_open_iff (env : Env) (q : Request) (tableId : UInt8) (rules : List Rule) :
    (Independent q (created env q tableId rules) ↔ (Possible q → Complete q)) ∧
      ∀ flp outDevice, PortsFit flp →
        (((created env q tableId rules).Covers flp outDevice ↔ Asks env q tableId flp outDevice) ↔
          (Asks env q tableId flp outDevice → Neutral q flp)) := by
  rw [created_eq]
  refine ⟨⟨complete_of_independent, ?_⟩, ?_⟩
  · intro h
    by_cases hpossible : Possible q
    · exact independent_of_complete (h hpossible)
    · intro f g outDevice hf hg _
      have hf' := mt (@possible_of_covers env q tableId f outDevice hf) hpossible
      have hg' := mt (@possible_of_covers env q tableId g outDevice hg) hpossible
      exact iff_of_false hf' hg'
  · intro flp outDevice hports
    rw [covers_iff hports]
    exact and_iff_left_iff_imp

def ping : LookupFlow := ⟨0x08080808, 0xc0a80165, 0, 0, 0, 2, false, 1, 0, 0⟩

def grePacket : LookupFlow := { ping with protocolType := 0 }

/-- All flows, port 0 too. -/
def allFlows : Request :=
  { plainRequest with protocolType := some 254, startSrcPort := some 0, startDstPort := some 0 }

theorem all_flows_left_open : Independent allFlows (created plainEnv allFlows 201 []) ∧
    ((created plainEnv allFlows 201 []).Covers ping none ↔
      Asks plainEnv allFlows 201 ping none) := by
  obtain ⟨hindependent, hflow⟩ := leaves_open_iff plainEnv allFlows 201 []
  refine ⟨hindependent.mpr fun _ => ?_, (hflow ping none ?_).mpr fun _ => ?_⟩
  · exact ⟨rfl, .inl rfl, .inl rfl⟩
  · exact ⟨by decide, by decide⟩
  · refine ⟨?_, ?_, ?_⟩
    · intro h
      cases h
    · intro h
      cases h
    · intro h
      cases h

/-- Without a protocol a rule covers GRE and not the web, and without ports a rule for ICMP covers
no ping. -/
theorem left_out_restricts :
    ¬ Independent { allFlows with protocolType := none }
      (created plainEnv { allFlows with protocolType := none } 201 []) ∧
    (Asks plainEnv { plainRequest with protocolType := some 1 } 201 ping none ∧
      ¬ (created plainEnv { plainRequest with protocolType := some 1 } 201 []).Covers ping
        none) := by
  refine ⟨?_, ?_, by decide +kernel⟩
  · intro h
    have hagree : Agree { allFlows with protocolType := none } grePacket
        { grePacket with protocolType := 6 } :=
      ⟨fun _ => rfl, .rfl, fun _ => rfl, .rfl, fun hsome => (by cases hsome), fun _ => rfl,
        fun _ => rfl, rfl, rfl, rfl, rfl, rfl⟩
    have hboth := h _ _ none ⟨by decide, by decide⟩ ⟨by decide, by decide⟩ hagree
    exact absurd (hboth.mp (by decide)) (by decide)
  · refine ⟨by decide, by decide, by decide, nofun, nofun, nofun, nofun, ?_, nofun, nofun, nofun,
      nofun, by decide, .inl rfl, .inl rfl⟩
    rintro type ⟨⟩
    exact .inr rfl

end Lookups

end BindingLookups
