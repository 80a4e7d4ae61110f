import Mathlib.Data.List.Perm.Basic
import RouterFirmware.OnesComplement

/-! # NetBIOS broadcasts through the tunnels

The tunnels lie in 256 lists, by a hash of the local broadcast address. A NetBIOS packet is
forwarded along one of these lists, the one of its destination.
-/
namespace NetbiosForward

open OnesComplement

inductive Fault where
  | nullDereference
  /-- A spin lock is taken that an earlier packet has left locked. -/
  | deadlock
  deriving DecidableEq

/-- `NetbiosHashGet`: the sum of the second and the third byte. -/
def netbiosHashGet (key : UInt32) : UInt32 :=
  let temp1 := (key &&& 0x00ff0000) >>> 16
  let temp2 := (key &&& 0x0000ff00) >>> 8
  (temp1 + temp2) &&& 0x000000ff

theorem netbiosHashGet_lt (key : UInt32) : (netbiosHashGet key).toNat < 256 := by
  rw [netbiosHashGet, UInt32.toNat_and]
  exact Nat.lt_succ_of_le Nat.and_le_right

/-- An index of `nat_ipsec_bc_ip_list`. -/
abbrev BiosIndex := Fin 256

def biosIndex (key : UInt32) : BiosIndex := ⟨(netbiosHashGet key).toNat, netbiosHashGet_lt key⟩

structure NatIpsecBc where
  localBc : UInt32
  remoteBc : UInt32
  /-- The characters in front of the NUL, as `strcmp` reads them. -/
  tunnelName : List UInt8
  deriving DecidableEq

structure IpHdr where
  tos : UInt8
  totLen : UInt16
  id : UInt16
  fragOff : UInt16
  ttl : UInt8
  protocol : UInt8
  check : UInt16
  saddr : UInt32
  daddr : UInt32
  options : List UInt32
  /-- `ihl` has four bits. -/
  fits : options.length ≤ 10
  deriving DecidableEq

/-- `PACKET_HOST` and the other types. -/
inductive PktType where
  | host
  | broadcast
  | multicast
  deriving DecidableEq

/-- A packet with a UDP header behind its IP header. -/
structure SkBuff where
  nh : IpHdr
  dport : UInt16
  udpCheck : UInt16
  payload : List UInt8
  pktType : PktType
  devName : List Char
  deriving DecidableEq

def eth0 : List Char := ['e', 't', 'h', '0']

def be16 (w : UInt16) : List UInt8 := [(w >>> 8).toUInt8, w.toUInt8]

def be32 (w : UInt32) : List UInt8 := be16 (w >>> 16).toUInt16 ++ be16 w.toUInt16

/-- The bytes of the header in front of the check and behind it. -/
def IpHdr.front (h : IpHdr) : List UInt8 :=
  [0x45 + UInt8.ofNat h.options.length, h.tos] ++ be16 h.totLen ++ be16 h.id ++ be16 h.fragOff ++
    [h.ttl, h.protocol]

def IpHdr.back (h : IpHdr) : List UInt8 := be32 h.saddr ++ be32 h.daddr ++ h.options.flatMap be32

/-- `ip_fast_csum` over the `ihl` words of the header. -/
def IpHdr.ipFastCsum (h : IpHdr) : UInt16 :=
  UInt16.ofNat (65535 - fold (addWords 0 (h.front ++ be16 h.check ++ h.back)))

/-- The header as the receiver checks it. -/
def IpHdr.CheckOk (h : IpHdr) : Prop :=
  fold (addWords 0 (h.front ++ be16 h.check ++ h.back)) = 65535

def SkBuff.toRemote (skb : SkBuff) (remoteBc : UInt32) : SkBuff :=
  let nh := { skb.nh with daddr := remoteBc, check := 0 }
  { skb with
    nh := { nh with check := nh.ipFastCsum }
    udpCheck := if skb.udpCheck ≠ 0 then 0 else skb.udpCheck
    pktType := .host }

/-- `UDP` with one of the four ports. -/
def SkBuff.Netbios (skb : SkBuff) : Prop :=
  skb.nh.protocol = 17 ∧ 136 ≤ skb.dport ∧ skb.dport ≤ 139

instance (skb : SkBuff) : Decidable skb.Netbios := inferInstanceAs (Decidable (_ ∧ _ ∧ _))

def reaches (daddr : UInt32) (e : NatIpsecBc) : Bool := daddr = e.localBc || daddr = 0xffffffff

structure State where
  start : BiosIndex → List NatIpsecBc
  /-- `BiosBroadLock` -/
  locked : BiosIndex → Bool

def initial : State := ⟨fun _ => [], fun _ => false⟩

/-- A packet handed on by `ip_rcv_finish` or by `ip_finish_output`. -/
inductive Sent where
  | received (mc : SkBuff)
  | output (mc : SkBuff)
  deriving DecidableEq

/-- The outcomes of the calls of `skb_copy` and of `__ip_route_output_key`. -/
structure Outcomes where
  copied : ℕ → Bool
  routed : Bool

/-- The loop for the packets from the LAN. `skb_copy` has been called `n` times. -/
def forwardToRemote (skb : SkBuff) (copied : ℕ → Bool) :
    ℕ → List NatIpsecBc → Except Fault (List Sent)
  | _, [] => .ok []
  | n, e :: es =>
    if reaches skb.nh.daddr e then
      if copied n then do
        let sent ← forwardToRemote skb copied (n + 1) es
        .ok (.received (skb.toRemote e.remoteBc) :: sent)
      else .error .nullDereference
    else forwardToRemote skb copied n es

def nkTranslateNetbiosToIpsec (s : State) (skb : SkBuff) (o : Outcomes) :
    Except Fault (State × List Sent) :=
  if skb.Netbios then
    let i := biosIndex skb.nh.daddr
    if s.locked i then .error .deadlock
    else if skb.devName = eth0 then do
      let sent ← forwardToRemote skb o.copied 0 (s.start i)
      .ok (s, sent)
    else match (s.start i).find? (reaches skb.nh.daddr) with
      | none => .ok (s, [])
      | some _ =>
        if o.copied 0 = false then .error .nullDereference
        -- The early return leaves the bucket locked.
        else if o.routed = false then .ok ({ s with locked := Function.update s.locked i true }, [])
        else .ok (s, [.output { skb with pktType := .host }])
  else .ok (s, [])

/-- The outcomes of `kmalloc` and of `copy_from_user`. -/
structure Received where
  allocated : Bool
  copied : Bool
  entry : NatIpsecBc

def Received.ok (r : Received) : Bool := r.allocated && r.copied

inductive Event where
  | add (r : Received)
  | remove (r : Received)
  | packet (skb : SkBuff) (o : Outcomes)

def sameName (r e : NatIpsecBc) : Bool := e.tunnelName = r.tunnelName

/-- `SIOCADIPSCEBC`. -/
def addTunnel (s : State) (r : Received) : Except Fault State :=
  if r.ok = false then .ok s
  else
    let i := biosIndex r.entry.localBc
    if s.locked i then .error .deadlock
    else .ok { s with start := Function.update s.start i (r.entry :: s.start i) }

/-- `SIOCRMIPSCEBC`. -/
def removeTunnel (s : State) (r : Received) : Except Fault State :=
  if r.ok = false then .ok s
  else
    let i := biosIndex r.entry.localBc
    if s.locked i then .error .deadlock
    else .ok { s with start := Function.update s.start i ((s.start i).eraseP (sameName r.entry)) }

def exec (s : State) : Event → Except Fault State
  | .add r => addTunnel s r
  | .remove r => removeTunnel s r
  | .packet skb o => Prod.fst <$> nkTranslateNetbiosToIpsec s skb o

def run : List Event → State → Except Fault State
  | [], s => .ok s
  | e :: es, s => exec s e >>= run es

/-- The tunnels that are installed, from the events alone. A tunnel is removed by its name and by
the hash of its local address. -/
def record (l : List NatIpsecBc) : Event → List NatIpsecBc
  | .add r => if r.ok then r.entry :: l else l
  | .remove r => if r.ok then l.eraseP fun e =>
      sameName r.entry e && decide (biosIndex e.localBc = biosIndex r.entry.localBc)
    else l
  | .packet .. => l

def installed (events : List Event) : List NatIpsecBc := events.foldl record []

/-- The bucket `i` has the installed tunnels that hash to it. -/
def Represents (s : State) (l : List NatIpsecBc) : Prop :=
  ∀ i, s.start i = l.filter fun e => biosIndex e.localBc = i

/-! ## The copy -/

theorem words_be16 (w : UInt16) : words (be16 w) = w.toNat := by
  have hlt := w.toNat_lt
  have height : (8 : UInt16).toNat % 16 = 8 := rfl
  simp only [be16, words, UInt16.toNat_toUInt8, UInt16.toNat_shiftRight, height,
    Nat.shiftRight_eq_div_pow]
  omega

theorem words_header (h : IpHdr) (check : UInt16) :
    words (h.front ++ be16 check ++ h.back) = words h.front + check.toNat + words h.back := by
  have heven : h.front.length % 2 = 0 := by simp [IpHdr.front, be16]
  have htwo : (be16 check).length % 2 = 0 := by simp [be16]
  rw [List.append_assoc, words_append heven, words_append htwo, words_be16, Nat.add_assoc]

theorem words_front_pos (h : IpHdr) : 0 < words h.front := by
  have hfits := h.fits
  have hbyte : (0x45 + UInt8.ofNat h.options.length).toNat = 0x45 + h.options.length := by
    rw [UInt8.toNat_add, UInt8.toNat_ofNat']
    simp only [UInt8.toNat_ofNat]
    omega
  simp only [IpHdr.front, List.cons_append, words, hbyte]
  omega

/-- The check makes the words of the header count as zero. -/
theorem check_toRemote (skb : SkBuff) (remoteBc : UInt32) :
    (skb.toRemote remoteBc).nh.CheckOk := by
  let nh := { skb.nh with daddr := remoteBc, check := 0 }
  have hpos := words_front_pos nh
  have hlt : fold (addWords 0 (nh.front ++ be16 0 ++ nh.back)) < 65536 :=
    fold_lt (addWords_lt (Nat.two_pow_pos 32) _)
  have hmod := (fold_mod _).trans (addWords_mod 0 (nh.front ++ be16 0 ++ nh.back))
  have hcheck : nh.ipFastCsum.toNat = 65535 - fold (addWords 0 (nh.front ++ be16 0 ++ nh.back)) :=
    UInt16.toNat_ofNat_of_lt' (Nat.lt_succ_of_le (Nat.sub_le ..))
  have hzero : (0 : UInt16).toNat = 0 := rfl
  have hones : fold (addWords 0 (nh.front ++ be16 nh.ipFastCsum ++ nh.back)) = 65535 := by
    apply (fold_addWords_eq_ones_iff _).mpr
    rw [Nat.zero_add, words_header] at hmod
    rw [words_header, hcheck]
    omega
  exact hones

/-! ## One packet -/

section Loop

variable {skb : SkBuff} {copied : ℕ → Bool}

theorem bind_eq_ok_iff {β γ : Type} {m : Except Fault β} {f : β → Except Fault γ} {c : γ} :
    (m >>= f) = .ok c ↔ ∃ b, m = .ok b ∧ f b = .ok c := by
  cases m with
  | error a =>
    constructor
    · intro h
      cases h
    · rintro ⟨b, hb, -⟩
      cases hb
  | ok b =>
    constructor
    · exact fun h => ⟨b, rfl, h⟩
    · rintro ⟨b', hb, h⟩
      cases hb
      exact h

/-- The copies of one loop: all of them, when each call of `skb_copy` succeeds. -/
theorem forwardToRemote_eq_ok_iff (n : ℕ) (es : List NatIpsecBc) (sent : List Sent) :
    forwardToRemote skb copied n es = .ok sent ↔
      (∀ i < (es.filter (reaches skb.nh.daddr)).length, copied (n + i) = true) ∧
        (es.filter (reaches skb.nh.daddr)).map (fun e => .received (skb.toRemote e.remoteBc)) =
          sent := by
  induction es generalizing n sent with
  | nil => simp [forwardToRemote]
  | cons e es ih =>
    rw [forwardToRemote]
    by_cases hreach : reaches skb.nh.daddr e = true
    · rw [if_pos hreach, List.filter_cons_of_pos hreach, List.length_cons, List.map_cons]
      have hall : (∀ i < (es.filter (reaches skb.nh.daddr)).length + 1, copied (n + i) = true) ↔
          copied n = true ∧
            ∀ i < (es.filter (reaches skb.nh.daddr)).length, copied (n + 1 + i) = true := by
        rw [Nat.forall_lt_succ_left]
        simp only [Nat.add_zero, Nat.add_assoc, Nat.add_comm 1]
      rw [hall]
      by_cases hcopy : copied n = true
      · rw [if_pos hcopy, bind_eq_ok_iff]
        simp only [ih, Except.ok.injEq, hcopy, true_and]
        constructor
        · rintro ⟨rest, ⟨hrest, rfl⟩, rfl⟩
          exact ⟨hrest, rfl⟩
        · rintro ⟨hrest, rfl⟩
          exact ⟨_, ⟨hrest, rfl⟩, rfl⟩
      · rw [if_neg hcopy]
        constructor
        · intro h
          cases h
        · rintro ⟨⟨h, -⟩, -⟩
          exact absurd h hcopy
    · rw [if_neg hreach, List.filter_cons_of_neg hreach]
      exact ih n sent

end Loop

/-- One copy for each installed tunnel that the destination reaches, in any order. -/
def Forwards (l : List NatIpsecBc) (skb : SkBuff) (r : Except Fault (State × List Sent)) : Prop :=
  ∃ s sent, r = .ok (s, sent) ∧ sent.Perm
    ((l.filter (reaches skb.nh.daddr)).map fun e => .received (skb.toRemote e.remoteBc))

/-- The tunnels lie in the bucket of the destination. -/
def Hashed (l : List NatIpsecBc) (daddr : UInt32) : Prop :=
  daddr = 0xffffffff → ∀ e ∈ l, biosIndex e.localBc = biosIndex 0xffffffff

instance (l : List NatIpsecBc) (daddr : UInt32) : Decidable (Hashed l daddr) :=
  inferInstanceAs (Decidable (_ → _))

section Packet

variable {s : State} {l : List NatIpsecBc} {skb : SkBuff} {daddr : UInt32}

theorem filter_bucket_eq_iff :
    (l.filter fun e => biosIndex e.localBc = biosIndex daddr).filter (reaches daddr) =
      l.filter (reaches daddr) ↔ Hashed l daddr := by
  rw [List.filter_filter]
  constructor
  · rintro h rfl e he
    have hmem : e ∈ l.filter (reaches 0xffffffff) :=
      List.mem_filter.mpr ⟨he, by simp [reaches]⟩
    rw [← h, List.mem_filter] at hmem
    simpa [reaches] using hmem.2
  · intro h
    apply List.filter_congr
    intro e he
    by_cases hall : daddr = 0xffffffff
    · simp [hall, h hall e he]
    · -- A tunnel with the address of the packet is in its bucket.
      by_cases hlocal : daddr = e.localBc
      · simp [hlocal]
      · simp [reaches, hall, hlocal]

theorem nkTranslateNetbiosToIpsec_of_lan (hnetbios : skb.Netbios) (hdev : skb.devName = eth0)
    (hlock : s.locked (biosIndex skb.nh.daddr) = false) (o : Outcomes) :
    nkTranslateNetbiosToIpsec s skb o =
      (forwardToRemote skb o.copied 0 (s.start (biosIndex skb.nh.daddr)) >>= fun sent =>
        .ok (s, sent)) := by
  rw [nkTranslateNetbiosToIpsec, if_pos hnetbios]
  simp only [hlock, hdev, Bool.false_eq_true, if_false, if_true]

theorem forwards_packet_iff (hs : Represents s l) (hnetbios : skb.Netbios)
    (hdev : skb.devName = eth0) (o : Outcomes) :
    Forwards l skb (nkTranslateNetbiosToIpsec s skb o) ↔
      s.locked (biosIndex skb.nh.daddr) = false ∧ Hashed l skb.nh.daddr ∧
        ∀ n < (l.filter (reaches skb.nh.daddr)).length, o.copied n = true := by
  cases hlock : s.locked (biosIndex skb.nh.daddr) with
  | true =>
    have hrun : nkTranslateNetbiosToIpsec s skb o = .error .deadlock := by
      rw [nkTranslateNetbiosToIpsec, if_pos hnetbios]
      simp only [hlock, if_true]
    rw [hrun]
    constructor
    · rintro ⟨s', sent, h, -⟩
      cases h
    · rintro ⟨h, -⟩
      cases h
  | false =>
    rw [nkTranslateNetbiosToIpsec_of_lan hnetbios hdev hlock, hs, Forwards]
    simp only [bind_eq_ok_iff, forwardToRemote_eq_ok_iff, Nat.zero_add, true_and]
    constructor
    · rintro ⟨s', sent, ⟨sent', ⟨hcopied, rfl⟩, hsent⟩, hperm⟩
      obtain ⟨-, rfl⟩ := Prod.mk.inj (Except.ok.inj hsent)
      have hlength := hperm.length_eq
      rw [List.length_map, List.length_map] at hlength
      have hsub := (List.filter_sublist (p := fun e => biosIndex e.localBc = biosIndex skb.nh.daddr)
        (l := l)).filter (reaches skb.nh.daddr)
      have heq := hsub.eq_of_length hlength
      exact ⟨filter_bucket_eq_iff.mp heq, heq ▸ hcopied⟩
    · rintro ⟨hhashed, hcopied⟩
      have heq := filter_bucket_eq_iff.mpr hhashed
      exact ⟨s, _, ⟨_, ⟨heq.symm ▸ hcopied, rfl⟩, rfl⟩, by rw [heq]⟩

end Packet

/-! ## Runs -/

section Runs

variable {s s' : State} {l : List NatIpsecBc}

theorem represents_initial : Represents initial [] := fun _ => rfl

theorem represents_add (hs : Represents s l) {r : Received} (hstep : addTunnel s r = .ok s') :
    Represents s' (record l (.add r)) := by
  rw [addTunnel] at hstep
  rw [record]
  cases hok : r.ok with
  | false =>
    rw [hok, if_pos rfl] at hstep
    cases hstep
    exact hs
  | true =>
    simp only [hok, Bool.true_eq_false, if_false] at hstep
    rw [if_pos rfl]
    split at hstep
    · cases hstep
    · cases hstep
      intro i
      by_cases hi : biosIndex r.entry.localBc = i
      · simp [← hi, hs (biosIndex r.entry.localBc)]
      · simp [Function.update_of_ne (Ne.symm hi), hi, hs i]

theorem filter_eraseP_of_ne {i j : BiosIndex} (hne : j ≠ i) (q : NatIpsecBc → Bool) :
    (l.eraseP fun e => q e && decide (biosIndex e.localBc = i)).filter
      (fun e => biosIndex e.localBc = j) = l.filter fun e => biosIndex e.localBc = j := by
  rcases List.exists_or_eq_self_of_eraseP
    (fun e => q e && decide (biosIndex e.localBc = i)) l with h | ⟨e, l₁, l₂, -, he, hl, h⟩
  · rw [h]
  · have hi : biosIndex e.localBc = i := of_decide_eq_true (Bool.and_eq_true_iff.mp he).2
    rw [h, hl]
    simp [hi, hne.symm]

theorem represents_remove (hs : Represents s l) {r : Received}
    (hstep : removeTunnel s r = .ok s') : Represents s' (record l (.remove r)) := by
  rw [removeTunnel] at hstep
  rw [record]
  cases hok : r.ok with
  | false =>
    rw [hok, if_pos rfl] at hstep
    cases hstep
    exact hs
  | true =>
    simp only [hok, Bool.true_eq_false, if_false] at hstep
    rw [if_pos rfl]
    split at hstep
    · cases hstep
    · cases hstep
      intro i
      by_cases hi : i = biosIndex r.entry.localBc
      · rw [hi]
        simp only [Function.update_self, hs (biosIndex r.entry.localBc), List.eraseP_filter]
      · simp only [Function.update_of_ne hi, filter_eraseP_of_ne hi, hs i]

theorem start_of_packet {skb : SkBuff} {o : Outcomes} {sent : List Sent}
    (hstep : nkTranslateNetbiosToIpsec s skb o = .ok (s', sent)) : s'.start = s.start := by
  rw [nkTranslateNetbiosToIpsec] at hstep
  dsimp only at hstep
  split at hstep
  · split at hstep
    · cases hstep
    split at hstep
    · obtain ⟨sent', -, h⟩ := bind_eq_ok_iff.mp hstep
      cases h
      rfl
    split at hstep
    · cases hstep
      rfl
    split at hstep
    · cases hstep
    split at hstep
    · cases hstep
      rfl
    · cases hstep
      rfl
  · cases hstep
    rfl

theorem represents_exec (hs : Represents s l) {e : Event} (hstep : exec s e = .ok s') :
    Represents s' (record l e) := by
  cases e with
  | add r => exact represents_add hs hstep
  | remove r => exact represents_remove hs hstep
  | packet skb o =>
    rw [exec] at hstep
    cases hrun : nkTranslateNetbiosToIpsec s skb o with
    | error fault =>
      rw [hrun] at hstep
      cases hstep
    | ok p =>
      rw [hrun] at hstep
      cases hstep
      intro i
      rw [start_of_packet hrun]
      exact hs i

theorem represents_run {events : List Event} (hs : Represents s l)
    (hrun : run events s = .ok s') : Represents s' (events.foldl record l) := by
  induction events generalizing s l with
  | nil =>
    cases hrun
    exact hs
  | cons e es ih =>
    obtain ⟨t, hstep, hrun⟩ := bind_eq_ok_iff.mp hrun
    exact ih (represents_exec hs hstep) hrun

/-- Exactly one copy goes to each tunnel of the destination when its bucket is free, the copies can
be made and, for a packet to all, each tunnel hashes as `255.255.255.255` does. -/
theorem forwards_iff {events : List Event} (hrun : run events initial = .ok s) {skb : SkBuff}
    (hnetbios : skb.Netbios) (hdev : skb.devName = eth0) (o : Outcomes) :
    Forwards (installed events) skb (nkTranslateNetbiosToIpsec s skb o) ↔
      s.locked (biosIndex skb.nh.daddr) = false ∧ Hashed (installed events) skb.nh.daddr ∧
        ∀ n < ((installed events).filter (reaches skb.nh.daddr)).length, o.copied n = true :=
  forwards_packet_iff (represents_run represents_initial hrun) hnetbios hdev o

end Runs

/-! ## Two packets -/

/-- From `192.168.1.255` to `192.168.2.255`. -/
def branch : Received := ⟨true, true, 0xc0a801ff, 0xc0a802ff, [98, 49]⟩

def nameQuery (daddr : UInt32) : SkBuff where
  nh := ⟨0, 78, 1, 0, 128, 17, 0, 0xc0a80164, daddr, [], by decide⟩
  dport := 137
  udpCheck := 1
  payload := []
  pktType := .broadcast
  devName := eth0

def outcomes : Outcomes := ⟨fun _ => true, true⟩

def branchState : State :=
  ⟨Function.update initial.start (biosIndex branch.entry.localBc) [branch.entry], initial.locked⟩

/-- The tunnel is not in the bucket of `255.255.255.255`, which is 254. -/
theorem broadcast_not_forwarded : run [.add branch] initial = .ok branchState ∧
    (nameQuery 0xffffffff).Netbios ∧ (nameQuery 0xffffffff).devName = eth0 ∧
    ¬ Forwards (installed [.add branch]) (nameQuery 0xffffffff)
      (nkTranslateNetbiosToIpsec branchState (nameQuery 0xffffffff) outcomes) := by
  refine ⟨rfl, by decide, rfl, ?_⟩
  have hnone : nkTranslateNetbiosToIpsec branchState (nameQuery 0xffffffff) outcomes =
      .ok (branchState, []) := rfl
  rintro ⟨s, sent, hsent, hperm⟩
  rw [hnone] at hsent
  cases hsent
  exact absurd hperm.length_eq (by decide)

theorem forwards_iff_branch :
    (Forwards (installed [.add branch]) (nameQuery 0xc0a801ff)
      (nkTranslateNetbiosToIpsec branchState (nameQuery 0xc0a801ff) outcomes) ↔
        branchState.locked 169 = false ∧ Hashed (installed [.add branch]) 0xc0a801ff ∧
        ∀ n < 1, outcomes.copied n = true) :=
  forwards_iff (show run [.add branch] initial = .ok branchState from rfl) (by decide) rfl outcomes

end NetbiosForward
