import RouterFirmware.BucketTable
import RouterFirmware.GuardedRun

/-! # ISAKMP triggers

Several hosts of the LAN may negotiate with one gateway over UDP port 500. The first outbound
packet of a negotiation leaves a trigger with the initiator cookie and the host; an inbound
packet goes to the host of the trigger of its cookie. The header the translation writes is the
one of the buffer it was called with, also when the packet goes on in a copy.
-/
namespace IsakmpTriggers

open BucketTable GuardedRun

abbrev Cookie := UInt32 × UInt32

structure IsakmpTrigger where
  srcip : UInt32
  dstip : UInt32
  initCookie : Cookie
  /-- `timeout.expires`. -/
  expires : UInt64
  deriving DecidableEq

inductive Device where
  | nkLanIf
  | other
  deriving DecidableEq

/-- The original tuple of an `ip_conntrack`, and where its first packet came in. -/
structure Conntrack where
  srcIp : UInt32
  dstIp : UInt32
  srcPort : UInt16
  inDevice : Option Device

inductive Direction where
  | original
  | reply
  deriving DecidableEq

structure SkBuff where
  daddr : UInt32
  check : UInt16
  dest : UInt16
  /-- The cookie, where the packet is long enough for an ISAKMP header. -/
  initCookie : Option Cookie
  cloned : Bool
  /-- It belongs to a socket. -/
  sk : Bool
  deriving DecidableEq

inductive Verdict where
  | nfDrop
  | nfAccept
  deriving DecidableEq

/-- `ISAKMP_TIMEOUT * HZ`. -/
def isakmpTimeout : UInt64 := 3600 * 1000

/-- `isakmp_refresh`: the timer of a trigger in the list is always pending. -/
def isakmpRefresh (jiffies : UInt64) (trig : IsakmpTrigger) : IsakmpTrigger :=
  { trig with expires := jiffies + isakmpTimeout }

def matched (c : Cookie) (i : IsakmpTrigger) : Bool := decide (i.initCookie = c)

/-- `add_new_isakmp`; `alloc` says whether `kmalloc` has room for the trigger. -/
def addNewIsakmp (trigger : IsakmpTrigger) (alloc : Bool) (l : List IsakmpTrigger) :
    List IsakmpTrigger :=
  if alloc then trigger :: l else l

def isakmpPacketOut (c : Cookie) (ct : Conntrack) (jiffies : UInt64) (alloc : Bool)
    (l : List IsakmpTrigger) : List IsakmpTrigger :=
  match l.find? (matched c) with
  | some _ => modifyFirst (matched c) (isakmpRefresh jiffies) l
  | none => addNewIsakmp ⟨ct.srcIp, ct.dstIp, c, jiffies + isakmpTimeout⟩ alloc l

/-- `isakmp_packet_in` with `sip` and `dip`. -/
def isakmpPacketIn (c : Cookie) (jiffies : UInt64) (l : List IsakmpTrigger) :
    List IsakmpTrigger × Verdict × UInt32 × UInt32 :=
  match l.find? (matched c) with
  | some found =>
    (modifyFirst (matched c) (isakmpRefresh jiffies) l, .nfAccept, found.srcip, found.dstip)
  | none => (l, .nfDrop, 0, 0)

def csumFold (sum : ℕ) : UInt16 :=
  let sum := sum / 65536 + sum % 65536
  let sum := sum / 65536 + sum % 65536
  ~~~ (UInt16.ofNat sum)

def ipNatCheatCheck (oldvalinv newval : UInt32) (oldcheck : UInt16) : UInt16 :=
  csumFold (oldvalinv.toNat / 65536 + oldvalinv.toNat % 65536 + newval.toNat / 65536 +
    newval.toNat % 65536 + (oldcheck ^^^ 0xffff).toNat)

/-- `ip_nat_isakmp` for a reply; `copied` says whether `skb_copy` succeeds. `iph` is read
before the copy, so the header of the copy stays as it was. -/
def ipNatIsakmp (sip : UInt32) (copied : Bool) (skb : SkBuff) : SkBuff × Verdict :=
  if skb.cloned ∧ ¬ skb.sk then
    if copied then ({ skb with cloned := false }, .nfAccept) else (skb, .nfDrop)
  else
    ({ skb with check := ipNatCheatCheck (~~~ skb.daddr) sip skb.check, daddr := sip },
      .nfAccept)

/-- What `isakmp_help` is called with, and what it meets on its way. -/
structure HelpCall where
  ct : Conntrack
  dir : Direction
  skb : SkBuff
  jiffies : UInt64
  alloc : Bool
  copied : Bool

/-- `isakmp_help`: the triggers, the packet that goes on and the value returned. The verdict
of `ip_nat_isakmp` is not looked at. -/
def isakmpHelp (call : HelpCall) (l : List IsakmpTrigger) :
    List IsakmpTrigger × SkBuff × Verdict :=
  if call.dir = .original ∧ call.ct.inDevice = some .other then (l, call.skb, .nfDrop)
  else
    match call.skb.initCookie, call.dir with
    | none, _ => (l, call.skb, .nfDrop)
    | some c, .original =>
      (isakmpPacketOut c call.ct call.jiffies call.alloc l, call.skb, .nfAccept)
    | some c, .reply =>
      match isakmpPacketIn c call.jiffies l with
      | (l', .nfDrop, _, _) => (l', call.skb, .nfDrop)
      | (l', .nfAccept, sip, _) =>
        (l', (ipNatIsakmp sip call.copied { call.skb with dest := call.ct.srcPort }).1, .nfAccept)

/-- A packet, or the timer of the trigger of position `i`. -/
inductive Event where
  | help (call : HelpCall)
  | timeout (i : ℕ)

def triggers (l : List IsakmpTrigger) : Event → List IsakmpTrigger
  | .help call => (isakmpHelp call l).1
  | .timeout i => l.eraseIdx i

/-! ## What the triggers are for -/

/-- The triggers, and for every cookie the host whose packet created its trigger since the
last expiry. -/
structure State where
  triggerIsakmp : List IsakmpTrigger
  host : Cookie → Option UInt32

def State.initial : State := ⟨[], fun _ => none⟩

/-- A packet of the LAN, or of a connection of which the device is not known. -/
def Outbound (call : HelpCall) : Prop :=
  call.dir = .original ∧ call.ct.inDevice ≠ some .other

instance (call : HelpCall) : Decidable (Outbound call) :=
  inferInstanceAs (Decidable (_ ∧ _))

def record (s : State) : Event → Cookie → Option UInt32
  | .help call => fun c =>
    if Outbound call ∧ call.skb.initCookie = some c ∧ s.host c = none ∧ call.alloc = true then
      some call.ct.srcIp
    else s.host c
  | .timeout i => fun c =>
    if (s.triggerIsakmp[i]?).map IsakmpTrigger.initCookie = some c then none else s.host c

def next (s : State) (e : Event) : State := ⟨triggers s.triggerIsakmp e, record s e⟩

/-- Where an inbound packet with the cookie `c` goes. -/
def Delivered (host : Option UInt32) (skb skb' : SkBuff) : Prop :=
  match host with
  | some h => skb'.daddr = h
  | none => skb' = skb

/-- One trigger for each cookie, and every inbound packet goes to the host of its cookie. -/
def Meets (s : State) : Event → Prop
  | .help call =>
    ((next s (.help call)).triggerIsakmp.map IsakmpTrigger.initCookie).Nodup ∧
      (call.dir = .reply → ∀ c, call.skb.initCookie = some c →
        Delivered (s.host c) call.skb (isakmpHelp call s.triggerIsakmp).2.1)
  | .timeout i => ((next s (.timeout i)).triggerIsakmp.map IsakmpTrigger.initCookie).Nodup

/-- An inbound packet that has to be translated can be written in place. -/
def Writable (s : State) : Event → Prop
  | .help call => call.dir = .reply → ∀ c, call.skb.initCookie = some c → ∀ h, s.host c = some h →
      call.skb.daddr = h ∨ call.skb.cloned = false ∨ call.skb.sk = true
  | .timeout _ => True

/-! ## The list of triggers -/

structure Attributed (s : State) : Prop where
  nodup : (s.triggerIsakmp.map IsakmpTrigger.initCookie).Nodup
  creator : ∀ c, (s.triggerIsakmp.find? (matched c)).map IsakmpTrigger.srcip = s.host c

theorem attributed_initial : Attributed .initial := ⟨List.nodup_nil, fun _ => rfl⟩

/-- A search reads the cookie and the source of a trigger only. -/
theorem find?_srcip (c : Cookie) (l : List IsakmpTrigger) :
    (l.find? (matched c)).map IsakmpTrigger.srcip =
      ((l.map fun i => (i.initCookie, i.srcip)).find? fun p => decide (p.1 = c)).map Prod.snd := by
  rw [List.find?_map, Option.map_map]
  rfl

theorem find?_refresh (c c' : Cookie) (jiffies : UInt64) (l : List IsakmpTrigger) :
    ((modifyFirst (matched c) (isakmpRefresh jiffies) l).find? (matched c')).map
      IsakmpTrigger.srcip = (l.find? (matched c')).map IsakmpTrigger.srcip := by
  have hkey : ∀ i : IsakmpTrigger, ((isakmpRefresh jiffies i).initCookie,
      (isakmpRefresh jiffies i).srcip) = (i.initCookie, i.srcip) := by
    intro i
    rw [isakmpRefresh]
  rw [find?_srcip, find?_srcip, map_modifyFirst hkey]

theorem map_initCookie_refresh (c : Cookie) (jiffies : UInt64) (l : List IsakmpTrigger) :
    (modifyFirst (matched c) (isakmpRefresh jiffies) l).map IsakmpTrigger.initCookie =
      l.map IsakmpTrigger.initCookie := by
  apply map_modifyFirst
  intro i
  rw [isakmpRefresh]

theorem find?_eq_none_iff (c : Cookie) (l : List IsakmpTrigger) :
    l.find? (matched c) = none ↔ c ∉ l.map IsakmpTrigger.initCookie := by
  simp [List.find?_eq_none, matched]

theorem find?_eraseIdx {l : List IsakmpTrigger}
    (hl : (l.map IsakmpTrigger.initCookie).Nodup) (i : ℕ) (c : Cookie) :
    (l.eraseIdx i).find? (matched c) =
      if (l[i]?).map IsakmpTrigger.initCookie = some c then none else l.find? (matched c) := by
  induction l generalizing i with
  | nil => simp
  | cons a l ih =>
    obtain ⟨ha, hl⟩ := List.nodup_cons.mp hl
    cases i with
    | zero =>
      by_cases hc : a.initCookie = c
      · -- The cookie stands nowhere else.
        subst hc
        simpa using (find?_eq_none_iff _ _).mpr ha
      · simp [matched, hc]
    | succ i =>
      rw [List.eraseIdx_cons_succ, List.getElem?_cons_succ]
      by_cases hc : a.initCookie = c
      · have hne : ¬ (l[i]?).map IsakmpTrigger.initCookie = some c := by
          intro hi
          obtain ⟨b, hb, hbc⟩ := Option.map_eq_some_iff.mp hi
          apply ha
          rw [hc, ← hbc]
          exact List.mem_map_of_mem (List.mem_of_getElem? hb)
        rw [if_neg hne, List.find?_cons_of_pos (by simpa [matched] using hc),
          List.find?_cons_of_pos (by simpa [matched] using hc)]
      · rw [List.find?_cons_of_neg (by simpa [matched] using hc), ih hl,
          List.find?_cons_of_neg (by simpa [matched] using hc)]

/-- What a packet does to the triggers: nothing, a refresh, or a new one in front. -/
theorem triggers_help (call : HelpCall) (l : List IsakmpTrigger) :
    (∃ c, call.skb.initCookie = some c ∧ Outbound call ∧ l.find? (matched c) = none ∧
      call.alloc = true ∧ (isakmpHelp call l).1 =
        ⟨call.ct.srcIp, call.ct.dstIp, c, call.jiffies + isakmpTimeout⟩ :: l) ∨
    ((∀ c, call.skb.initCookie = some c → Outbound call → l.find? (matched c) = none →
      call.alloc = false) ∧ ((isakmpHelp call l).1 = l ∨
        ∃ c, (isakmpHelp call l).1 = modifyFirst (matched c) (isakmpRefresh call.jiffies) l)) := by
  rw [isakmpHelp, Outbound]
  split
  · next hout => exact .inr ⟨fun c _ ho => absurd hout.2 ho.2, .inl rfl⟩
  · next hout =>
    split
    · next hc => exact .inr ⟨fun c hc' => by simp [hc] at hc', .inl rfl⟩
    · next c hc hdir =>
      have hdev : call.ct.inDevice ≠ some .other := fun h => hout ⟨hdir, h⟩
      cases hfind : l.find? (matched c) with
      | some found =>
        refine .inr ⟨?_, .inr ⟨c, by simp [isakmpPacketOut, hfind]⟩⟩
        intro c' hc' _ hnone
        rw [hc, Option.some.injEq] at hc'
        subst hc'
        rw [hfind] at hnone
        cases hnone
      | none =>
        cases halloc : call.alloc with
        | true =>
          exact .inl ⟨c, hc, ⟨hdir, hdev⟩, hfind, rfl, by
            simp [isakmpPacketOut, hfind, addNewIsakmp]⟩
        | false =>
          exact .inr ⟨fun _ _ _ _ => rfl, .inl (by simp [isakmpPacketOut, hfind, addNewIsakmp])⟩
    · next c hc hdir =>
      refine .inr ⟨fun _ _ ho => by simp [hdir] at ho, ?_⟩
      cases hfind : l.find? (matched c) with
      | some found => exact .inr ⟨c, by simp [isakmpPacketIn, hfind]⟩
      | none => exact .inl (by simp [isakmpPacketIn, hfind])

theorem attributed_help {s : State} (h : Attributed s) (call : HelpCall) :
    Attributed (next s (.help call)) := by
  rcases triggers_help call s.triggerIsakmp with ⟨c, hc, hout, hnone, halloc, heq⟩ | ⟨hnone, heq⟩
  · have hhost : s.host c = none := by rw [← h.creator, hnone, Option.map_none]
    refine ⟨?_, ?_⟩
    · simp only [next, triggers, heq, List.map_cons, List.nodup_cons]
      exact ⟨(find?_eq_none_iff _ _).mp hnone, h.nodup⟩
    · intro c'
      simp only [next, triggers, heq, record]
      by_cases hcc : c = c'
      · subst hcc
        rw [List.find?_cons_of_pos (by simp [matched]), if_pos ⟨hout, hc, hhost, halloc⟩]
        rfl
      · rw [List.find?_cons_of_neg (by simpa [matched] using hcc), if_neg, h.creator]
        intro h
        obtain ⟨-, hc', -⟩ := h
        rw [hc, Option.some.injEq] at hc'
        exact hcc hc'
  · -- Nothing is recorded either.
    have hrecord : record s (.help call) = s.host := by
      funext c
      apply if_neg
      intro h
      obtain ⟨hout, hc, hhost, halloc⟩ := h
      have hfind : s.triggerIsakmp.find? (matched c) = none := by
        rw [← h.creator] at hhost
        exact Option.map_eq_none_iff.mp hhost
      rw [hnone c hc hout hfind] at halloc
      cases halloc
    refine ⟨?_, ?_⟩
    · rcases heq with heq | ⟨c, heq⟩
      · simp only [next, triggers, heq]
        exact h.nodup
      · simp only [next, triggers, heq, map_initCookie_refresh]
        exact h.nodup
    · intro c'
      rcases heq with heq | ⟨c, heq⟩
      · simp only [next, triggers, heq, hrecord]
        exact h.creator c'
      · simp only [next, triggers, heq, hrecord, find?_refresh]
        exact h.creator c'

theorem attributed_timeout {s : State} (h : Attributed s) (i : ℕ) :
    Attributed (next s (.timeout i)) where
  nodup := h.nodup.sublist ((List.eraseIdx_sublist _ i).map _)
  creator c := by
    simp only [next, triggers, record, find?_eraseIdx h.nodup]
    split
    · rfl
    · exact h.creator c

theorem attributed_next {s : State} (h : Attributed s) (e : Event) : Attributed (next s e) := by
  cases e with
  | help call => exact attributed_help h call
  | timeout i => exact attributed_timeout h i

/-! ## Delivery -/

theorem daddr_ipNatIsakmp (sip : UInt32) (copied : Bool) (skb : SkBuff) :
    (ipNatIsakmp sip copied skb).1.daddr = sip ↔
      skb.daddr = sip ∨ skb.cloned = false ∨ skb.sk = true := by
  rw [ipNatIsakmp]
  by_cases hcopy : skb.cloned ∧ ¬ skb.sk
  · have hfalse : ¬ (skb.cloned = false ∨ skb.sk = true) := by
      intro h
      rcases h with h | h
      · simp [h] at hcopy
      · exact hcopy.2 h
    simp only [if_pos hcopy, hfalse, or_false]
    cases copied with
    | true => rfl
    | false => rfl
  · simp only [if_neg hcopy, true_iff]
    right
    cases hc : skb.cloned with
    | false => exact .inl rfl
    | true => exact .inr (by simpa [hc] using hcopy)

theorem delivered_iff {s : State} (h : Attributed s) {call : HelpCall} {c : Cookie}
    (hdir : call.dir = .reply) (hc : call.skb.initCookie = some c) :
    Delivered (s.host c) call.skb (isakmpHelp call s.triggerIsakmp).2.1 ↔
      ∀ x, s.host c = some x →
        call.skb.daddr = x ∨ call.skb.cloned = false ∨ call.skb.sk = true := by
  have hcreator := h.creator c
  rw [isakmpHelp]
  rw [if_neg (by simp [hdir])]
  simp only [hc, hdir]
  cases hfind : s.triggerIsakmp.find? (matched c) with
  | none =>
    rw [hfind, Option.map_none] at hcreator
    simp [← hcreator, Delivered, isakmpPacketIn, hfind]
  | some found =>
    rw [hfind, Option.map_some] at hcreator
    simp [← hcreator, Delivered, isakmpPacketIn, hfind, daddr_ipNatIsakmp]

theorem meets_iff {s : State} (h : Attributed s) (e : Event) : Meets s e ↔ Writable s e := by
  have hnodup := (attributed_next h e).nodup
  cases e with
  | help call =>
    simp only [Meets, Writable, hnodup, true_and]
    constructor
    · intro hm hdir c hc
      exact (delivered_iff h hdir hc).mp (hm hdir c hc)
    · intro hw hdir c hc
      exact (delivered_iff h hdir hc).mpr (hw hdir c hc)
  | timeout i => simp only [Meets, Writable, hnodup]

theorem attribution_iff (events : List Event) :
    Along next Meets .initial events ↔ Along next Writable .initial events := by
  apply along_iff (I := Attributed)
  · exact fun s e hs _ => attributed_next hs e
  · exact fun s e hs => meets_iff hs e
  · exact attributed_initial

/-- The reply comes in a cloned buffer: it goes on with the address of the router. -/
theorem cloned_reply_is_not_translated :
    let ct : Conntrack := ⟨0xc0a80164, 0xcb007105, 500, some .nkLanIf⟩
    let request : HelpCall :=
      ⟨ct, .original, ⟨0xcb007105, 0, 500, some (1, 2), false, false⟩, 0, true, true⟩
    let reply : HelpCall :=
      ⟨ct, .reply, ⟨0xc6336401, 0, 500, some (1, 2), true, false⟩, 9, true, true⟩
    ¬ Along next Meets .initial [.help request, .help reply] := by
  intro ct request reply h
  have hdelivered : _ = _ := h.2.1.2 rfl (1, 2) rfl
  exact absurd hdelivered (by decide)

end IsakmpTriggers
