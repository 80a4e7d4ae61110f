import Mathlib.Logic.Function.Basic
import RouterFirmware.WordMask

/-! # Exception rules of the session limit

A rule exempts a source range, a port range and TCP, UDP or both. `session_limit_enhance_order`
files it in one of three stores by the low octets of the ends of the range, and
`session_limit_enhance_rule_check` reads the third store at the low octet of the address.
-/
namespace SessionRules

/-- `session_limit_enhance_list_t`: addresses are in host order, bit 0 of the type is TCP and
bit 1 is UDP. -/
structure SessionLimitEnhance where
  sip : UInt32
  eip : UInt32
  typeName : BitVec 32
  sport : ℤ
  eport : ℤ
  maxSession : ℤ
  deriving DecidableEq

/-- The three stores. The node list has a bucket for each low octet. -/
structure RuleStore where
  alldomainList : List SessionLimitEnhance
  cclassList : List SessionLimitEnhance
  nodeList : ℕ → List SessionLimitEnhance

def sessionLimitEnhanceInit : RuleStore := ⟨[], [], fun _ => []⟩

def lowOctet (ip : UInt32) : ℕ := (ip &&& 0xff).toNat

def addNode (input : SessionLimitEnhance) (nodeList : ℕ → List SessionLimitEnhance) (i : ℕ) :
    ℕ → List SessionLimitEnhance :=
  Function.update nodeList i (input :: nodeList i)

/-- `session_limit_enhance_order`, where `nodes` is the number of nodes `kmalloc` hands out
before it fails: the loop over the low octets stops there. -/
def sessionLimitEnhanceOrder (input : SessionLimitEnhance) (nodes : ℕ) (store : RuleStore) :
    RuleStore :=
  let sidx := lowOctet input.sip
  let eidx := lowOctet input.eip
  if input.sip = 0 ∧ input.eip = 0 then
    { store with alldomainList := input :: store.alldomainList }
  else if sidx = 0 ∧ eidx = 0 then
    { store with cclassList := input :: store.cclassList }
  else
    { store with nodeList :=
        ((List.range' sidx (eidx + 1 - sidx)).take nodes).foldl (addNode input) store.nodeList }

def ipprotoTcp : ℤ := 6
def ipprotoUdp : ℤ := 17

def protoBits (protocol : ℤ) : BitVec 32 :=
  if protocol = ipprotoTcp then 1 else if protocol = ipprotoUdp then 2 else 3

/-- The port and type test, the same in all three stores. -/
def portMatch (port : ℤ) (proto : BitVec 32) (rule : SessionLimitEnhance) : Bool :=
  rule.sport ≤ port && port ≤ rule.eport && proto &&& rule.typeName != 0

def sessionLimitEnhanceRuleCheck (store : RuleStore) (ip : UInt32) (port protocol cnt : ℤ) : ℤ :=
  let proto := protoBits protocol
  if proto = 2 ∧ port = 53 then 2
  else if proto = 1 ∧ port = 67 then 2
  else if store.alldomainList.any (portMatch port proto) then 1
  else if store.cclassList.any fun rule => portMatch port proto rule &&
      (ip &&& 0xffffff00) == (rule.sip &&& 0xffffff00) then 1
  else
    match (store.nodeList (lowOctet ip)).find? fun rule => portMatch port proto rule &&
      (rule.sip ≤ ip && ip ≤ rule.eip) with
    | some rule =>
      if rule.maxSession = 0 then 1
      else if cnt > rule.maxSession then -1
      else 1
    | none => 0

/-- One call of the ioctl: the rule and the number of nodes it got. -/
structure Install where
  rule : SessionLimitEnhance
  nodes : ℕ

def Install.exec (store : RuleStore) (x : Install) : RuleStore :=
  sessionLimitEnhanceOrder x.rule x.nodes store

def installAll (installs : List Install) : RuleStore :=
  installs.foldl Install.exec sessionLimitEnhanceInit

/-! ## Which rules a packet meets -/

theorem toNat_low (x : UInt32) : lowOctet x = x.toNat % 256 := by
  rw [lowOctet, UInt32.toNat_and]
  exact Nat.and_two_pow_sub_one_eq_mod x.toNat 8

theorem toNat_high (x : UInt32) : (x &&& 0xffffff00).toNat = x.toNat / 256 * 256 := by
  rw [UInt32.toNat_and]
  exact @WordMask.land_high 32 8 x.toNat (by decide) x.toNat_lt

theorem high_eq_iff {x y : UInt32} :
    (x &&& 0xffffff00) = (y &&& 0xffffff00) ↔ x.toNat / 256 = y.toNat / 256 := by
  rw [← UInt32.toNat_inj, toNat_high, toNat_high]
  omega

/-- The address test a rule gets in the store it was filed in. -/
def Filed (x : Install) (ip : UInt32) : Prop :=
  (x.rule.sip = 0 ∧ x.rule.eip = 0) ∨
  ((lowOctet x.rule.sip = 0 ∧ lowOctet x.rule.eip = 0) ∧
    (ip &&& 0xffffff00) = (x.rule.sip &&& 0xffffff00)) ∨
  (¬ (lowOctet x.rule.sip = 0 ∧ lowOctet x.rule.eip = 0) ∧
    (lowOctet x.rule.sip ≤ lowOctet ip ∧ lowOctet ip ≤ lowOctet x.rule.eip ∧
      lowOctet ip < lowOctet x.rule.sip + x.nodes) ∧ x.rule.sip ≤ ip ∧ ip ≤ x.rule.eip)

instance (x : Install) (ip : UInt32) : Decidable (Filed x ip) :=
  inferInstanceAs (Decidable (_ ∨ (_ ∧ _) ∨ (_ ∧ _ ∧ _)))

theorem foldl_addNode (input : SessionLimitEnhance) (l : List ℕ) (hl : l.Nodup)
    (nodeList : ℕ → List SessionLimitEnhance) (i : ℕ) :
    (l.foldl (addNode input) nodeList) i =
      if i ∈ l then input :: nodeList i else nodeList i := by
  induction l generalizing nodeList with
  | nil => rfl
  | cons j l ih =>
    obtain ⟨hj, hl⟩ := List.nodup_cons.mp hl
    rw [List.foldl_cons, ih hl]
    by_cases hij : i = j
    · subst hij
      simp [hj, addNode]
    · simp [hij, addNode]

theorem mem_take_range' {a n k i : ℕ} :
    i ∈ (List.range' a n).take k ↔ a ≤ i ∧ i < a + n ∧ i < a + k := by
  rcases Nat.le_total n k with h | h
  · rw [List.take_range'_of_length_le h, List.mem_range'_1]
    omega
  · rw [List.take_range'_of_length_ge h, List.mem_range'_1]
    omega

/-- The rules of a store that the check stops at. -/
def Hit (store : RuleStore) (ip : UInt32) (port : ℤ) (proto : BitVec 32) : Prop :=
  (∃ r ∈ store.alldomainList, portMatch port proto r) ∨
  (∃ r ∈ store.cclassList, portMatch port proto r ∧
    (ip &&& 0xffffff00) = (r.sip &&& 0xffffff00)) ∨
  (∃ r ∈ store.nodeList (lowOctet ip), portMatch port proto r ∧ r.sip ≤ ip ∧ ip ≤ r.eip)

theorem hit_exec (store : RuleStore) (x : Install) (ip : UInt32) (port : ℤ)
    (proto : BitVec 32) : Hit (x.exec store) ip port proto ↔
      Hit store ip port proto ∨ (portMatch port proto x.rule ∧ Filed x ip) := by
  simp only [Install.exec, sessionLimitEnhanceOrder]
  split
  · next hall =>
    have hf : Filed x ip := Or.inl hall
    simp only [Hit, hf, and_true, List.mem_cons, exists_eq_or_imp]
    grind
  · next hall =>
    split
    · next hc =>
      have hf : Filed x ip ↔ (ip &&& 0xffffff00) = (x.rule.sip &&& 0xffffff00) := by
        simp [Filed, hall, hc]
      simp only [Hit, hf, List.mem_cons, exists_eq_or_imp]
      grind
    · next hc =>
      have hnodup : ((List.range' (lowOctet x.rule.sip)
          (lowOctet x.rule.eip + 1 - lowOctet x.rule.sip)).take x.nodes).Nodup :=
        List.Nodup.sublist (List.take_sublist _ _) List.nodup_range'
      have hf : Filed x ip ↔ (lowOctet x.rule.sip ≤ lowOctet ip ∧
          lowOctet ip ≤ lowOctet x.rule.eip ∧ lowOctet ip < lowOctet x.rule.sip + x.nodes) ∧
            x.rule.sip ≤ ip ∧ ip ≤ x.rule.eip := by
        simp only [Filed, hall, hc, false_or, false_and, not_false_eq_true, true_and]
      simp only [Hit, hf, foldl_addNode _ _ hnodup, mem_take_range']
      split
      · next hin =>
        have hrange : lowOctet x.rule.sip ≤ lowOctet ip ∧ lowOctet ip ≤ lowOctet x.rule.eip ∧
            lowOctet ip < lowOctet x.rule.sip + x.nodes := by omega
        simp only [hrange, true_and, List.mem_cons, exists_eq_or_imp]
        grind
      · next hout =>
        have hrange : ¬ (lowOctet x.rule.sip ≤ lowOctet ip ∧ lowOctet ip ≤ lowOctet x.rule.eip ∧
            lowOctet ip < lowOctet x.rule.sip + x.nodes) := by omega
        simp only [hrange, false_and, and_false, or_false]

theorem hit_foldl (installs : List Install) (store : RuleStore) (ip : UInt32) (port : ℤ)
    (proto : BitVec 32) : Hit (installs.foldl Install.exec store) ip port proto ↔
      Hit store ip port proto ∨ ∃ x ∈ installs, portMatch port proto x.rule ∧ Filed x ip := by
  induction installs generalizing store with
  | nil => simp
  | cons x installs ih =>
    simp only [List.foldl_cons, ih, hit_exec, List.mem_cons, exists_eq_or_imp, or_assoc]

theorem hit_installAll (installs : List Install) (ip : UInt32) (port : ℤ) (proto : BitVec 32) :
    Hit (installAll installs) ip port proto ↔
      ∃ x ∈ installs, portMatch port proto x.rule ∧ Filed x ip := by
  rw [installAll, hit_foldl]
  simp [Hit, sessionLimitEnhanceInit]

/-- Port 53 of UDP and port 67 of TCP are exempt without a rule. -/
def Builtin (port protocol : ℤ) : Prop :=
  (protocol = ipprotoUdp ∧ port = 53) ∨ (protocol = ipprotoTcp ∧ port = 67)

theorem protoBits_builtin {port protocol : ℤ} : Builtin port protocol ↔
    (protoBits protocol = 2 ∧ port = 53) ∨ (protoBits protocol = 1 ∧ port = 67) := by
  have htcp : protoBits protocol = 1 ↔ protocol = ipprotoTcp := by
    unfold protoBits
    split
    · simp_all
    · split <;> simp_all
  have hudp : protoBits protocol = 2 ↔ protocol = ipprotoUdp := by
    unfold protoBits
    split
    · simp_all [ipprotoTcp, ipprotoUdp]
    · split <;> simp_all
  rw [htcp, hudp, Builtin]

theorem ruleCheck_ne_zero {store : RuleStore} {ip : UInt32} {port protocol : ℤ}
    (hb : ¬ Builtin port protocol) (cnt : ℤ) :
    sessionLimitEnhanceRuleCheck store ip port protocol cnt ≠ 0 ↔
      Hit store ip port (protoBits protocol) := by
  rw [protoBits_builtin, not_or] at hb
  simp only [sessionLimitEnhanceRuleCheck, if_neg hb.1, if_neg hb.2]
  split
  · next hall => simpa [Hit] using Or.inl (List.any_eq_true.mp hall)
  · next hall =>
    split
    · next hc =>
      have hc' := List.any_eq_true.mp hc
      simp only [Bool.and_eq_true, beq_iff_eq] at hc'
      simpa [Hit] using Or.inr (Or.inl hc')
    · next hc =>
      have hnone : Hit store ip port (protoBits protocol) ↔ ∃ r ∈ store.nodeList (lowOctet ip),
          portMatch port (protoBits protocol) r ∧ r.sip ≤ ip ∧ ip ≤ r.eip := by
        simp only [List.any_eq_true, not_exists, Bool.and_eq_true, beq_iff_eq] at hall hc
        simp only [Hit]
        grind
      rw [hnone]
      split
      · next rule hf =>
        have hrule := List.find?_some hf
        simp only [Bool.and_eq_true, decide_eq_true_eq] at hrule
        have hmem := List.mem_of_find?_eq_some hf
        have hval : (if rule.maxSession = 0 then 1 else if cnt > rule.maxSession then -1
            else (1 : ℤ)) ≠ 0 := by
          split
          · decide
          · split <;> decide
        exact iff_of_true hval ⟨rule, hmem, hrule⟩
      · next hf =>
        have hno := List.find?_eq_none.mp hf
        simp only [Bool.and_eq_true, decide_eq_true_eq] at hno
        apply iff_of_false (by simp)
        rintro ⟨r, hr, hm⟩
        exact hno r hr hm

/-! ## The rules as they are meant -/

/-- 0.0.0.0-0.0.0.0 is every address and x.y.z.0-x.y.z.0 the whole /24. -/
def CoversAddress (r : SessionLimitEnhance) (ip : UInt32) : Prop :=
  (r.sip = 0 ∧ r.eip = 0) ∨
  ((r.sip = r.eip ∧ lowOctet r.sip = 0) ∧ (ip &&& 0xffffff00) = (r.sip &&& 0xffffff00)) ∨
  (¬ (r.sip = r.eip ∧ lowOctet r.sip = 0) ∧ r.sip ≤ ip ∧ ip ≤ r.eip)

/-- `others` says whether a rule is taken to cover protocols besides TCP and UDP. -/
def CoversProtocol (others : Bool) (r : SessionLimitEnhance) (protocol : ℤ) : Prop :=
  (protocol = ipprotoTcp ∧ 1 &&& r.typeName ≠ 0) ∨
  (protocol = ipprotoUdp ∧ 2 &&& r.typeName ≠ 0) ∨
  ((protocol ≠ ipprotoTcp ∧ protocol ≠ ipprotoUdp) ∧ others = true ∧ 3 &&& r.typeName ≠ 0)

def Covers (others : Bool) (r : SessionLimitEnhance) (ip : UInt32) (port protocol : ℤ) : Prop :=
  CoversAddress r ip ∧ (r.sport ≤ port ∧ port ≤ r.eport) ∧ CoversProtocol others r protocol

instance (r : SessionLimitEnhance) (ip : UInt32) : Decidable (CoversAddress r ip) :=
  inferInstanceAs (Decidable (_ ∨ (_ ∧ _) ∨ (_ ∧ _)))

instance (others : Bool) (r : SessionLimitEnhance) (protocol : ℤ) :
    Decidable (CoversProtocol others r protocol) :=
  inferInstanceAs (Decidable ((_ ∧ _) ∨ (_ ∧ _) ∨ (_ ∧ _)))

instance (others : Bool) (r : SessionLimitEnhance) (ip : UInt32) (port protocol : ℤ) :
    Decidable (Covers others r ip port protocol) :=
  inferInstanceAs (Decidable (_ ∧ _ ∧ _))

/-- The address test of the store never accepts more than the range: two ends with low octet
0 are a multiple of 256 apart. -/
theorem coversAddress_of_filed {x : Install} {ip : UInt32} (hle : x.rule.sip ≤ x.rule.eip)
    (h : Filed x ip) : CoversAddress x.rule ip := by
  rcases h with hall | ⟨hlow, hsame⟩ | ⟨hlow, -, hin⟩
  · exact Or.inl hall
  · by_cases heq : x.rule.sip = x.rule.eip ∧ lowOctet x.rule.sip = 0
    · exact Or.inr (Or.inl ⟨heq, hsame⟩)
    · have hne : x.rule.sip.toNat ≠ x.rule.eip.toNat := fun he =>
        heq ⟨UInt32.toNat_inj.mp he, hlow.1⟩
      refine Or.inr (Or.inr ⟨heq, ?_⟩)
      rw [high_eq_iff] at hsame
      rw [toNat_low, toNat_low] at hlow
      rw [UInt32.le_iff_toNat_le] at hle ⊢
      rw [UInt32.le_iff_toNat_le]
      omega
  · refine Or.inr (Or.inr ⟨?_, hin⟩)
    rintro ⟨heq, hzero⟩
    exact hlow ⟨hzero, heq ▸ hzero⟩

theorem portMatch_iff {others : Bool} {r : SessionLimitEnhance} {port protocol : ℤ} :
    portMatch port (protoBits protocol) r = true ∧
        (others = true ∨ protocol = ipprotoTcp ∨ protocol = ipprotoUdp) ↔
      (r.sport ≤ port ∧ port ≤ r.eport) ∧ CoversProtocol others r protocol := by
  simp only [portMatch, CoversProtocol, protoBits, Bool.and_eq_true, decide_eq_true_eq,
    bne_iff_ne]
  by_cases htcp : protocol = ipprotoTcp
  · subst htcp
    simp [ipprotoTcp, ipprotoUdp]
  · by_cases hudp : protocol = ipprotoUdp
    · subst hudp
      simp [ipprotoTcp, ipprotoUdp]
    · simp only [htcp, hudp, if_false]
      grind

/-- When the check answers as the rules are meant. A packet that some rule covers is covered
by a rule filed where the check looks: everywhere; both ends on low octet 0 and the packet in
the /24 of the first; or a low octet between those of the ends that got its node. A packet
of a protocol the rules do not cover meets no filed rule. -/
def FiledRight (others : Bool) (installs : List Install) (ip : UInt32) (port protocol : ℤ) :
    Prop :=
  (others = true ∨ protocol = ipprotoTcp ∨ protocol = ipprotoUdp →
    (∃ x ∈ installs, Covers others x.rule ip port protocol) →
      ∃ x ∈ installs, Covers others x.rule ip port protocol ∧ Filed x ip) ∧
  (¬ (others = true ∨ protocol = ipprotoTcp ∨ protocol = ipprotoUdp) →
    ∀ x ∈ installs, portMatch port (protoBits protocol) x.rule → ¬ Filed x ip)

instance (others : Bool) (installs : List Install) (ip : UInt32) (port protocol : ℤ) :
    Decidable (FiledRight others installs ip port protocol) :=
  inferInstanceAs (Decidable ((_ → _ → _) ∧ (_ → _)))

theorem ruleCheck_covers_iff (others : Bool) (installs : List Install)
    (hrange : ∀ x ∈ installs, x.rule.sip ≤ x.rule.eip) (ip : UInt32) (port protocol cnt : ℤ)
    (hb : ¬ Builtin port protocol) :
    (sessionLimitEnhanceRuleCheck (installAll installs) ip port protocol cnt ≠ 0 ↔
      ∃ x ∈ installs, Covers others x.rule ip port protocol) ↔
    FiledRight others installs ip port protocol := by
  rw [ruleCheck_ne_zero hb, hit_installAll]
  unfold FiledRight
  by_cases hp : others = true ∨ protocol = ipprotoTcp ∨ protocol = ipprotoUdp
  · simp only [hp, true_implies, not_true_eq_false, false_implies, and_true]
    -- Here a filed rule covers the packet, so only the other direction can fail.
    have hcov : ∀ x ∈ installs, (portMatch port (protoBits protocol) x.rule ∧ Filed x ip ↔
        Covers others x.rule ip port protocol ∧ Filed x ip) := by
      intro x hx
      have hport := @portMatch_iff others x.rule port protocol
      constructor
      · rintro ⟨hm, hf⟩
        exact ⟨⟨coversAddress_of_filed (hrange x hx) hf, hport.mp ⟨hm, hp⟩⟩, hf⟩
      · rintro ⟨hc, hf⟩
        exact ⟨(hport.mpr hc.2).1, hf⟩
    constructor
    · rintro h hex
      obtain ⟨x, hx, hm⟩ := h.mpr hex
      exact ⟨x, hx, (hcov x hx).mp hm⟩
    · intro h
      constructor
      · rintro ⟨x, hx, hm⟩
        exact ⟨x, hx, ((hcov x hx).mp hm).1⟩
      · intro hex
        obtain ⟨x, hx, hc⟩ := h hex
        exact ⟨x, hx, (hcov x hx).mpr hc⟩
  · simp only [hp, not_false_eq_true, true_implies, false_implies, true_and]
    have hnone : ¬ ∃ x ∈ installs, Covers others x.rule ip port protocol := by
      rintro ⟨x, hx, hc⟩
      exact hp (portMatch_iff.mpr hc.2).2
    simp only [hnone, iff_false]
    constructor
    · intro h x hx hm hf
      exact h ⟨x, hx, hm, hf⟩
    · rintro h ⟨x, hx, hm, hf⟩
      exact h x hx hm hf

/-- A rule inside one /24 is filed under every low octet of its range. -/
theorem ruleCheck_within_class :
    let x : Install := ⟨⟨0xc0a8010a, 0xc0a80114, 1, 1, 1024, 0⟩, 256⟩
    sessionLimitEnhanceRuleCheck (installAll [x]) 0xc0a8010f 80 ipprotoTcp 0 ≠ 0 ↔
      ∃ y ∈ [x], Covers false y.rule 0xc0a8010f 80 ipprotoTcp :=
  (ruleCheck_covers_iff false [⟨⟨0xc0a8010a, 0xc0a80114, 1, 1, 1024, 0⟩, 256⟩] (by decide)
    0xc0a8010f 80 ipprotoTcp 0 (by unfold Builtin; decide)).mpr (by decide)

/-- The rule 192.168.1.200-192.168.2.100 is filed nowhere: the loop runs from 200 up to 100. -/
theorem ruleCheck_across_classes :
    let x : Install := ⟨⟨0xc0a801c8, 0xc0a80264, 3, 1, 1024, 0⟩, 256⟩
    ¬ (sessionLimitEnhanceRuleCheck (installAll [x]) 0xc0a801fa 80 ipprotoTcp 0 ≠ 0 ↔
      ∃ y ∈ [x], Covers false y.rule 0xc0a801fa 80 ipprotoTcp) := by
  decide

end SessionRules
