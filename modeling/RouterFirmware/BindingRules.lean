import RouterFirmware.FibRules

/-! # Binding rules

Rules are added and deleted by requests whose attributes may be left out. An addition fills in
what a lookup needs; a deletion compares the attributes it has with the rules, in the order of the
list, and takes the first rule that they fit.
-/
namespace BindingRules

open FibRules

inductive Errno where
  | eperm
  | esrch
  | enomem
  | einval
  | enobufs
  deriving DecidableEq

/-- The attribute of a name, with the bytes that follow it in the message. -/
structure NameAttr where
  payload : List UInt8
  behind : List UInt8

/-- `rtmsg` and its attributes. -/
structure Request where
  rtmSrcLen : UInt8
  rtmDstLen : UInt8
  rtmTos : UInt8
  rtmTable : UInt8
  rtmType : UInt8
  rtmFlags : UInt32
  src : Option UInt32
  dst : Option UInt32
  gateway : Option UInt32
  protocolType : Option UInt32
  startSrcPort : Option UInt32
  endSrcPort : Option UInt32
  startDstPort : Option UInt32
  endDstPort : Option UInt32
  startSrcIp : Option UInt32
  endSrcIp : Option UInt32
  startDstIp : Option UInt32
  endDstIp : Option UInt32
  priority : Option UInt32
  iif : Option NameAttr
  flow : Option UInt32

/-- `fib_rule`; the name is the buffer. -/
structure Rule extends FibRule where
  rPreference : UInt32
  rSrcLen : UInt8
  rDstLen : UInt8
  rSrcmap : UInt32
  rFlags : UInt8
  rTclassid : UInt32
  rIfname : List UInt8

/-- What an addition finds: the number of the table that `fib_empty_table` makes, the devices by
name, and whether there is memory. -/
structure Env where
  emptyTable : Option UInt8
  devGetByName : List UInt8 → Option UInt32
  kmalloc : Bool

def ifnamsiz : ℕ := 16

def ipTosMask : UInt8 := 0x1e

def inetMakeMask (logmask : UInt8) : UInt32 :=
  if logmask = 0 then 0 else ~~~((1 <<< (32 - logmask.toUInt32)) - 1)

/-- `rtattr_strlcpy` into a buffer of `size` bytes. -/
def rtattrStrlcpy (rta : NameAttr) (size : ℕ) : List UInt8 :=
  let ret := if rta.payload.getLast? = some 0 then rta.payload.length - 1 else rta.payload.length
  let len := if ret ≥ size then size - 1 else ret
  rta.payload.take len ++ List.replicate (size - len) 0

def cString (buf : List UInt8) : List UInt8 := buf.takeWhile fun c => c ≠ 0

/-- `rtattr_strcmp(rta, str) == 0`; `rta_len` counts the header of four bytes. -/
def rtattrSame (rta : NameAttr) (str : List UInt8) : Bool :=
  let len := (cString str).length + 1
  len ≤ rta.payload.length + 4 &&
    (rta.payload ++ rta.behind).take len = cString str ++ [0]

/-- The protocols a rule can name; 254 stands for any. -/
def knownProtocol (type : UInt32) : UInt32 :=
  if type = 6 then 6 else if type = 17 then 17 else if type = 1 then 1
  else if type = 254 then 254 else 0

def newRule (env : Env) (q : Request) (tableId : UInt8) : Rule where
  rTable := tableId
  rAction := q.rtmType
  rSrc := q.src.getD 0
  rSrcmask := inetMakeMask q.rtmSrcLen
  rDst := q.dst.getD 0
  rDstmask := inetMakeMask q.rtmDstLen
  rTos := q.rtmTos
  rProtocolType := q.protocolType.elim 0 knownProtocol
  rSsrcIp := q.startSrcIp.getD 0
  rEsrcIp := q.endSrcIp.getD 0xffffffff
  rSdstIp := q.startDstIp.getD 0
  rEdstIp := q.endDstIp.getD 0xffffffff
  rSsrcPort := q.startSrcPort.getD 1
  rEsrcPort := q.endSrcPort.getD 65535
  rSdstPort := q.startDstPort.getD 1
  rEdstPort := q.endDstPort.getD 65535
  -- The index is -1 until the device shows up.
  rIfindex := q.iif.elim 0 fun rta => (env.devGetByName (rtattrStrlcpy rta ifnamsiz)).getD (-1)
  rPreference := q.priority.getD 0
  rSrcLen := q.rtmSrcLen
  rDstLen := q.rtmDstLen
  rSrcmap := q.gateway.getD 0
  rFlags := q.rtmFlags.toUInt8
  rTclassid := q.flow.getD 0
  rIfname := q.iif.elim (List.replicate ifnamsiz 0) fun rta => rtattrStrlcpy rta ifnamsiz

/-- A rule goes in front of the first rule of a greater preference. -/
def insertRule (new : Rule) : List Rule → List Rule
  | [] => [new]
  | r :: rules => if r.rPreference > new.rPreference then new :: r :: rules
    else r :: insertRule new rules

/-- A rule without a preference goes in front of the rules behind `local_rule`. -/
def withPreference (new : Rule) (rules : List Rule) : Rule :=
  if new.rPreference = 0 then
    match rules with
    | [] => new
    | r :: _ => if r.rPreference ≠ 0 then { new with rPreference := r.rPreference - 1 } else new
  else new

/-- `inet_rtm_newrule` on the rules behind `local_rule`, whose preference is 0. -/
def inetRtmNewrule (env : Env) (q : Request) (rules : List Rule) : Except Errno (List Rule) :=
  if q.rtmSrcLen > 32 ∨ q.rtmDstLen > 32 ∨ q.rtmTos &&& ~~~ipTosMask ≠ 0 then .error .einval
  else if q.iif.any fun rta => rta.payload.length > ifnamsiz then .error .einval
  else
    let tableId := if q.rtmTable = 0 ∧ q.rtmType = rtnUnicast then env.emptyTable
      else some q.rtmTable
    match tableId with
    | none => .error .enobufs
    | some tableId =>
      if env.kmalloc then
        .ok (insertRule (withPreference (newRule env q tableId) rules) rules)
      else .error .enomem

/-- `&&`, where reading an absent attribute is nothing. -/
def both (a b : Option Bool) : Option Bool :=
  match a with
  | some true => b
  | a => a

def sameRange (start stop : Option UInt32) (rStart rEnd : UInt32) : Option Bool :=
  if start.isNone ∧ stop.isNone then some true
  else both (start.map fun port => port = rStart) (stop.map fun port => port = rEnd)

/-- An attribute that is left out fits. -/
def sameOrAbsent (attr : Option UInt32) (value : UInt32) : Bool := attr.all fun a => a = value

def Request.fits (q : Request) (r : Rule) : Option Bool :=
  both (some (sameOrAbsent q.src r.rSrc && q.rtmSrcLen = r.rSrcLen && q.rtmDstLen = r.rDstLen &&
    sameOrAbsent q.dst r.rDst)) <|
  both (sameRange q.startSrcPort q.endSrcPort r.rSsrcPort r.rEsrcPort) <|
  both (sameRange q.startDstPort q.endDstPort r.rSdstPort r.rEdstPort) <|
  some (sameOrAbsent q.protocolType r.rProtocolType && sameOrAbsent q.startSrcIp r.rSsrcIp &&
    sameOrAbsent q.endSrcIp r.rEsrcIp && sameOrAbsent q.startDstIp r.rSdstIp &&
    sameOrAbsent q.endDstIp r.rEdstIp && q.rtmTos = r.rTos &&
    (q.rtmType = 0 || q.rtmType = r.rAction) && sameOrAbsent q.priority r.rPreference &&
    q.iif.all (fun rta => rtattrSame rta r.rIfname) && (q.rtmTable = 0 || q.rtmTable = r.rTable))

def staticRule : Rule := { localRule with
  rPreference := 0, rSrcLen := 0, rDstLen := 0, rSrcmap := 0, rFlags := 0, rTclassid := 0
  rIfname := List.replicate ifnamsiz 0 }

/-- The loop of `inet_rtm_delrule` behind `local_rule`. -/
def deleteRule (q : Request) : List Rule → Option (Except Errno (List Rule))
  | [] => some (.error .esrch)
  | r :: rules =>
    match q.fits r with
    | none => none
    | some true => some (.ok rules)
    | some false => (deleteRule q rules).map fun res => res.map (r :: ·)

/-- `inet_rtm_delrule`; `local_rule` cannot be deleted. -/
def inetRtmDelrule (q : Request) (rules : List Rule) : Option (Except Errno (List Rule)) :=
  match q.fits staticRule with
  | none => none
  | some true => some (.error .eperm)
  | some false => deleteRule q rules

/-! ## Deleting what was added -/

/-- Both ends of a range are given, or none. -/
def Paired (start stop : Option UInt32) : Prop := start.isSome = stop.isSome

instance (start stop : Option UInt32) : Decidable (Paired start stop) :=
  inferInstanceAs (Decidable (_ = _))

/-- The protocol is stored as it is given. -/
def Known (type : UInt32) : Prop := knownProtocol type = type

instance (type : UInt32) : Decidable (Known type) := inferInstanceAs (Decidable (_ = _))

/-- The name ends in the attribute or where it ends: a NUL follows its first 15 bytes. -/
def Terminated (rta : NameAttr) : Prop :=
  (rta.payload ++ rta.behind)[(cString (rta.payload.take 15)).length]? = some 0

instance (rta : NameAttr) : Decidable (Terminated rta) := inferInstanceAs (Decidable (_ = _))

/-- What is stored of a request is what a deletion compares with. -/
def Request.Undoable (q : Request) : Prop :=
  Paired q.startSrcPort q.endSrcPort ∧ Paired q.startDstPort q.endDstPort ∧
    (∀ type ∈ q.protocolType, Known type) ∧ ∀ rta ∈ q.iif, Terminated rta

section Names

variable {rta : NameAttr}

theorem cString_append_zero (l : List UInt8) (n : ℕ) (hn : 0 < n) :
    cString (l ++ List.replicate n 0) = cString l := by
  induction l with
  | nil =>
    obtain ⟨n, rfl⟩ : ∃ k, n = k + 1 := ⟨n - 1, by omega⟩
    simp [cString, List.replicate_succ]
  | cons c l ih =>
    by_cases hc : c = 0
    · simp [cString, hc]
    · simpa [cString, hc] using ih

/-- A buffer for the name of a device holds the first 15 bytes of the name. -/
theorem cString_rtattrStrlcpy (h : rta.payload.length ≤ ifnamsiz) :
    cString (rtattrStrlcpy rta ifnamsiz) = cString (rta.payload.take 15) := by
  unfold ifnamsiz at h
  unfold rtattrStrlcpy ifnamsiz
  rw [cString_append_zero _ _ (by grind)]
  rcases List.eq_nil_or_concat rta.payload with hnil | ⟨l, c, hc⟩
  · simp [hnil]
  · rw [List.concat_eq_append] at hc
    rw [hc] at h ⊢
    simp only [List.length_append, List.length_singleton] at h
    simp only [List.getLast?_concat, Option.some.injEq, List.length_append, List.length_singleton]
    by_cases hzero : c = 0
    · have hlen : ¬ l.length + 1 - 1 ≥ 16 := by omega
      rw [if_pos hzero, if_neg hlen, Nat.add_sub_cancel, List.take_left, hzero]
      rcases Nat.lt_or_ge l.length 15 with hlt | hge
      · rw [List.take_of_length_le (by simp; omega)]
        exact (cString_append_zero l 1 Nat.one_pos).symm
      · rw [List.take_append_of_le_length hge, List.take_of_length_le (by omega)]
    · rw [if_neg hzero]
      split
      · rfl
      · rw [List.take_of_length_le (by simp), List.take_of_length_le (by simp; omega)]

theorem cString_isPrefix (l : List UInt8) : cString l <+: l := List.takeWhile_prefix _

/-- A stored name is found again if it is terminated. -/
theorem rtattrSame_rtattrStrlcpy (h : rta.payload.length ≤ ifnamsiz) :
    rtattrSame rta (rtattrStrlcpy rta ifnamsiz) = true ↔ Terminated rta := by
  have hhead : cString (rta.payload.take 15) <+: rta.payload :=
    (cString_isPrefix _).trans (List.take_prefix _ _)
  rw [rtattrSame, cString_rtattrStrlcpy h, Terminated]
  generalize cString (rta.payload.take 15) = name at hhead ⊢
  have hlength := hhead.length_le
  have htake : (rta.payload ++ rta.behind).take name.length = name :=
    (List.prefix_iff_eq_take.mp (hhead.trans (List.prefix_append _ _))).symm
  rw [List.take_add_one, htake]
  simp only [Bool.and_eq_true, decide_eq_true_eq, List.append_right_inj]
  constructor
  · rintro ⟨_, hbyte⟩
    cases hget : (rta.payload ++ rta.behind)[name.length]? with
    | none => simp [hget] at hbyte
    | some c => simpa [hget] using hbyte
  · intro hbyte
    exact ⟨by omega, by simp [hbyte]⟩

end Names

section Undo

variable {env : Env} {q : Request} {r new : Rule} {rules rules' : List Rule} {tableId : UInt8}
  {pref : UInt32} {a b : Option Bool}

theorem both_eq_true : both a b = some true ↔ a = some true ∧ b = some true := by
  rcases a with - | - | -
  · simp [both]
  · simp [both]
  · simp [both]

@[simp] theorem sameOrAbsent_getD (attr : Option UInt32) (d : UInt32) :
    sameOrAbsent attr (attr.getD d) = true := by
  cases attr with
  | none => rfl
  | some a => simp [sameOrAbsent]

theorem sameRange_getD {start stop : Option UInt32} {s e : UInt32} :
    sameRange start stop (start.getD s) (stop.getD e) = some true ↔ Paired start stop := by
  rcases start with - | s
  · rcases stop with - | e
    · simp [sameRange, Paired]
    · simp [sameRange, Paired, both]
  · rcases stop with - | e
    · simp [sameRange, Paired, both]
    · simp [sameRange, Paired, both]

theorem sameOrAbsent_eq_true {attr : Option UInt32} {value : UInt32} :
    sameOrAbsent attr value = true ↔ ∀ a ∈ attr, a = value := by
  cases attr with
  | none => simp [sameOrAbsent]
  | some a => simp [sameOrAbsent]

/-- A request fits the rule it made, as long as it is undoable. -/
theorem fits_newRule (htable : q.rtmTable = 0 ∨ q.rtmTable = tableId)
    (hname : ∀ rta ∈ q.iif, rta.payload.length ≤ ifnamsiz) :
    q.fits (newRule env q tableId) = some true ↔ q.Undoable := by
  have hnames : q.iif.all (fun rta => rtattrSame rta (newRule env q tableId).rIfname) = true ↔
      ∀ rta ∈ q.iif, Terminated rta := by
    cases hiif : q.iif with
    | none => simp
    | some rta =>
      have hsame := rtattrSame_rtattrStrlcpy (hname rta hiif)
      simpa [newRule, hiif] using hsame
  have htype : sameOrAbsent q.protocolType (newRule env q tableId).rProtocolType = true ↔
      ∀ type ∈ q.protocolType, Known type := by
    cases htype : q.protocolType with
    | none => simp [sameOrAbsent]
    | some type =>
      simp only [sameOrAbsent_eq_true, newRule, htype, Option.elim_some, Option.mem_def,
        Option.some.injEq, forall_eq', Known]
      exact eq_comm
  simp only [Request.fits, both_eq_true, Option.some.injEq, Bool.and_eq_true, Bool.or_eq_true,
    decide_eq_true_eq, hnames, htype]
  simp only [newRule, sameRange_getD, sameOrAbsent_getD, true_and, and_true, or_true, htable]
  rfl

theorem priority_of_fits (hpri : q.priority = some pref) (h : q.fits r = some true) :
    r.rPreference = pref := by
  simp only [Request.fits, both_eq_true, Option.some.injEq, Bool.and_eq_true, hpri,
    sameOrAbsent_eq_true, Option.mem_def, forall_eq'] at h
  exact h.2.2.2.1.1.2.symm

theorem sameRange_isSome {start stop : Option UInt32} (h : Paired start stop) (s e : UInt32) :
    (sameRange start stop s e).isSome = true := by
  rcases start with - | s'
  · rcases stop with - | e'
    · rfl
    · cases h
  · rcases stop with - | e'
    · cases h
    · by_cases hs : s' = s
      · simp [sameRange, both, hs]
      · simp [sameRange, both, hs]

theorem both_isSome (ha : a.isSome = true) (hb : b.isSome = true) : (both a b).isSome = true := by
  rcases a with - | - | -
  · cases ha
  · rfl
  · exact hb

/-- With paired ranges no absent attribute is read. -/
theorem fits_isSome (hq : q.Undoable) (r : Rule) : (q.fits r).isSome = true := by
  obtain ⟨hsrc, hdst, -⟩ := hq
  apply both_isSome rfl
  apply both_isSome (sameRange_isSome hsrc _ _)
  exact both_isSome (sameRange_isSome hdst _ _) rfl

theorem fits_of_preference (hq : q.Undoable) (hpri : q.priority = some pref)
    (hr : r.rPreference ≠ pref) : q.fits r = some false := by
  obtain ⟨fit, hfit⟩ := Option.isSome_iff_exists.mp (fits_isSome hq r)
  cases fit with
  | false => exact hfit
  | true => exact absurd (priority_of_fits hpri hfit) hr

theorem exists_insertRule (new : Rule) (rules : List Rule) : ∃ before after,
    rules = before ++ after ∧ insertRule new rules = before ++ new :: after := by
  induction rules with
  | nil => exact ⟨[], [], rfl, rfl⟩
  | cons r rules ih =>
    rw [insertRule]
    split
    · exact ⟨[], r :: rules, rfl, rfl⟩
    · obtain ⟨before, after, hrules, hins⟩ := ih
      exact ⟨r :: before, after, by simp [hrules], by simp [hins]⟩

/-- A deletion takes a rule that the request fits. -/
theorem exists_of_deleteRule (h : deleteRule q rules = some (.ok rules')) :
    ∃ r ∈ rules, q.fits r = some true := by
  induction rules generalizing rules' with
  | nil => cases h
  | cons r rules ih =>
    rw [deleteRule] at h
    split at h
    · cases h
    · next hfit => exact ⟨r, List.mem_cons_self, hfit⟩
    · obtain ⟨res, hres, hmap⟩ := Option.map_eq_some_iff.mp h
      cases res with
      | error err => cases hmap
      | ok rules'' =>
        obtain ⟨r', hmem, hfit⟩ := ih hres
        exact ⟨r', List.mem_cons_of_mem _ hmem, hfit⟩

theorem deleteRule_append {before after : List Rule}
    (h : ∀ r ∈ before, q.fits r = some false) (hnew : q.fits new = some true) :
    deleteRule q (before ++ new :: after) = some (.ok (before ++ after)) := by
  induction before with
  | nil => simp [deleteRule, hnew]
  | cons r before ih =>
    have hrest := ih fun r' hr' => h r' (List.mem_cons_of_mem _ hr')
    simp [deleteRule, h r List.mem_cons_self, hrest, Except.map]

theorem inetRtmNewrule_ok (hpri : q.priority = some pref) (hzero : pref ≠ 0)
    (h : inetRtmNewrule env q rules = .ok rules') :
    ∃ tableId, rules' = insertRule (newRule env q tableId) rules ∧
      (q.rtmTable = 0 ∨ q.rtmTable = tableId) ∧
      ∀ rta ∈ q.iif, rta.payload.length ≤ ifnamsiz := by
  unfold inetRtmNewrule at h
  split at h
  · cases h
  · split at h
    · cases h
    · next hname =>
      dsimp only at h
      split at h
      · cases h
      · next tableId htable =>
        split at h
        · cases h
          have hpref : withPreference (newRule env q tableId) rules = newRule env q tableId :=
            if_neg (by simpa [newRule, hpri] using hzero)
          refine ⟨tableId, by rw [hpref], ?_, ?_⟩
          · split at htable
            · next hunspec => exact .inl hunspec.1
            · exact .inr (Option.some.inj htable)
          · intro rta hrta
            rw [hrta] at hname
            simpa using hname
        · cases h

/-- An addition is undone by the deletion with the same attributes exactly if port ranges have
both their ends, the protocol is one that rules know and the name of a device is terminated. -/
theorem delete_undoes_add_iff (hpri : q.priority = some pref)
    (hnew : ∀ r ∈ staticRule :: rules, r.rPreference ≠ pref)
    (hadd : inetRtmNewrule env q rules = .ok rules') :
    inetRtmDelrule q rules' = some (.ok rules) ↔ q.Undoable := by
  have hzero : pref ≠ 0 := fun heq => hnew staticRule List.mem_cons_self heq.symm
  obtain ⟨tableId, rfl, htable, hname⟩ := inetRtmNewrule_ok hpri hzero hadd
  obtain ⟨before, after, hrules, hins⟩ := exists_insertRule (newRule env q tableId) rules
  have hfits := @fits_newRule env q tableId htable hname
  constructor
  · intro h
    unfold inetRtmDelrule at h
    split at h
    · cases h
    · cases h
    · -- The rule deleted has the preference of the request, so it is the one added.
      obtain ⟨r, hmem, hfit⟩ := exists_of_deleteRule h
      have hr := priority_of_fits hpri hfit
      rw [hins] at hmem
      have heq : r = newRule env q tableId := by
        by_contra hne
        have hold : r ∈ rules := by
          simp only [hrules, List.mem_append, List.mem_cons] at hmem ⊢
          tauto
        exact hnew r (List.mem_cons_of_mem _ hold) hr
      exact hfits.mp (heq ▸ hfit)
  · intro hq
    have hstatic := fits_of_preference hq hpri (hnew staticRule List.mem_cons_self)
    have hbefore : ∀ r ∈ before, q.fits r = some false := by
      intro r hr
      apply fits_of_preference hq hpri
      exact hnew r (List.mem_cons_of_mem _ (hrules ▸ List.mem_append_left _ hr))
    rw [inetRtmDelrule, hstatic, hins]
    exact hrules ▸ deleteRule_append hbefore (hfits.mpr hq)

/-- A request for preference 100 that binds nothing. -/
def plainRequest : Request where
  rtmSrcLen := 0
  rtmDstLen := 0
  rtmTos := 0
  rtmTable := 201
  rtmType := rtnUnicast
  rtmFlags := 0
  src := none
  dst := none
  gateway := none
  protocolType := none
  startSrcPort := none
  endSrcPort := none
  startDstPort := none
  endDstPort := none
  startSrcIp := none
  endSrcIp := none
  startDstIp := none
  endDstIp := none
  priority := some 100
  iif := none
  flow := none

def plainEnv : Env := ⟨some 202, fun _ => none, true⟩

def webRequest : Request :=
  { plainRequest with protocolType := some 6, startDstPort := some 80, endDstPort := some 443 }

theorem web_binding_undone : ∃ rules, inetRtmNewrule plainEnv webRequest [] = .ok rules ∧
    inetRtmDelrule webRequest rules = some (.ok []) := by
  refine ⟨_, rfl, ?_⟩
  refine (@delete_undoes_add_iff plainEnv webRequest [] _ 100 rfl ?_ rfl).mpr ⟨rfl, rfl, ?_, ?_⟩
  · simp [staticRule]
  · simp [webRequest, Known, knownProtocol]
  · simp [webRequest, plainRequest]

/-- A rule for GRE is stored without its protocol and not found again; a rule whose source ports
have no end makes the deletion read the attribute that is not there. -/
theorem gre_binding_stays :
    (let q := { plainRequest with protocolType := some 47 }
      ∃ rules, inetRtmNewrule plainEnv q [] = .ok rules ∧
        inetRtmDelrule q rules = some (.error .esrch)) ∧
    (let q := { plainRequest with startSrcPort := some 1024 }
      ∃ rules, inetRtmNewrule plainEnv q [] = .ok rules ∧ inetRtmDelrule q rules = none) :=
  ⟨⟨_, rfl, rfl⟩, _, rfl, rfl⟩

end Undo

end BindingRules
