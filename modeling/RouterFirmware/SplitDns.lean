import Mathlib.Data.Int.Notation
import Mathlib.Data.List.Infix
import RouterFirmware.GuardedRun
import RouterFirmware.WordMask

/-! # Split DNS

A query of a LAN client for a domain behind an IPsec tunnel is sent to the DNS servers of the
tunnel instead of the one the client had asked, and a pending entry remembers that one. The
first reply without an error gets its source back from the entry. Entries are found by the DNS
id and the remote server, whoever the client was.
-/
namespace SplitDns

open GuardedRun

/-- `ipsec_split_dns_t`; there are at most `SPDNSMAXIP` servers, and `ip[0]` is always read. -/
structure IpsecSplitDns where
  domainName : List (List UInt8)
  ip0 : UInt32
  ip1 : UInt32
  numIp : Fin 3
  tunnelName : List UInt8
  deriving DecidableEq

/-- `dns_split_hash_t`; `rdnsIp` are its first `dns_split_server` servers. -/
structure DnsSplitHash where
  dstip : UInt32
  rdnsIp : List UInt32
  dnsId : UInt16
  dnsSplitIgnore : UInt8
  deriving DecidableEq

structure Tables where
  ipsecSplitDnsList : List IpsecSplitDns
  dnsSplitHashTable : UInt8 → List DnsSplitHash
  cDnsSplitNum : ℤ

/-- A packet as far as the translation reads it. -/
structure SkBuff where
  protocol : UInt8
  saddr : UInt32
  daddr : UInt32
  sport : UInt16
  dport : UInt16
  /-- The length behind the IP header. -/
  datalen : ℕ
  /-- Whether its device is `eth0`, where it has one. -/
  dev : Option Bool
  /-- The first word of the DNS header. -/
  dns : UInt32
  /-- The string behind the DNS header. -/
  name : List UInt8
  deriving DecidableEq

def SkBuff.dnsQr (p : SkBuff) : UInt32 := (p.dns &&& 0x00008000) >>> 15

def SkBuff.dnsId (p : SkBuff) : UInt16 := ((p.dns &&& 0xffff0000) >>> 16).toUInt16

def SkBuff.dnsRc (p : SkBuff) : UInt32 := p.dns &&& 0x0000000f

/-! ## The domain name -/

/-- The loop that puts dots in place of the label lengths; `none` is its early return. A length
is a signed `char`. Whether the steps stay in the array of the source is not asked here. -/
def dotLabels : ℕ → List UInt8 → ℤ → Option (List UInt8)
  | 0, _, _ => none
  | fuel + 1, rdname, cc =>
    match rdname[cc.toNat]? with
    | none => some rdname
    | some b =>
      let cc' := cc + b.toInt8.toInt + 1
      if cc' > rdname.length ∨ cc' < 0 then none
      else dotLabels fuel (rdname.set cc.toNat 46) cc'

def rdName (p : SkBuff) : List UInt8 :=
  if 25 ≤ p.datalen then p.name.take (p.datalen - 25) else p.name

def dottedName (p : SkBuff) : Option (List UInt8) :=
  dotLabels (((rdName p).length + 1) * ((rdName p).length + 1)) (rdName p) 0

/-- Bounds the steps left: each one puts a new dot or goes forward from an old one. -/
def stepsLeft (rdname : List UInt8) (cc : ℤ) : ℕ :=
  rdname.countP (· != 46) * (rdname.length + 1) + (rdname.length - cc.toNat)

theorem stepsLeft_decreases {rdname : List UInt8} {cc : ℤ} {b : UInt8} (hcc : 0 ≤ cc)
    (hb : rdname[cc.toNat]? = some b) :
    stepsLeft (rdname.set cc.toNat 46) (cc + b.toInt8.toInt + 1) < stepsLeft rdname cc := by
  obtain ⟨hlt, hget⟩ := List.getElem?_eq_some_iff.mp hb
  rw [stepsLeft, stepsLeft, List.length_set, List.countP_set hlt, hget]
  by_cases hdot : b = 46
  · have hstep : b.toInt8.toInt = 46 := by rw [hdot]; rfl
    rw [hstep]
    simp only [hdot, bne_self_eq_false, Bool.false_eq_true, if_false, Nat.sub_zero, Nat.add_zero]
    omega
  · have hpos : 0 < rdname.countP (· != 46) := by
      apply List.countP_pos_iff.mpr
      exact ⟨b, List.mem_of_getElem? hb, by simpa using hdot⟩
    obtain ⟨n, hn⟩ := Nat.exists_eq_succ_of_ne_zero hpos.ne'
    have hbne : (b != 46) = true := by simpa using hdot
    rw [hn, hbne, if_pos rfl, Nat.succ_sub_one, Nat.succ_mul]
    simp only [bne_self_eq_false, Bool.false_eq_true, if_false, Nat.add_zero]
    omega

theorem dotLabels_succ {fuel : ℕ} {rdname : List UInt8} {cc : ℤ} (hcc : 0 ≤ cc)
    (h : stepsLeft rdname cc < fuel) :
    dotLabels (fuel + 1) rdname cc = dotLabels fuel rdname cc := by
  induction fuel generalizing rdname cc with
  | zero => omega
  | succ fuel ih =>
    rw [dotLabels, dotLabels]
    split
    · rfl
    · next b hb =>
      dsimp only
      split
      · rfl
      · next hstay =>
        apply ih (by omega)
        have hless := stepsLeft_decreases hcc hb
        omega

/-- The loop of the source ends, with the value of `dottedName`. -/
theorem dotLabels_eq_dottedName (p : SkBuff) {fuel : ℕ}
    (h : ((rdName p).length + 1) * ((rdName p).length + 1) ≤ fuel) :
    dotLabels fuel (rdName p) 0 = dottedName p := by
  induction fuel, h using Nat.le_induction with
  | base => rfl
  | succ fuel hle ih =>
    rw [dotLabels_succ (by omega), ih]
    have hcount : (rdName p).countP (· != 46) ≤ (rdName p).length := List.countP_le_length
    have hmul := Nat.mul_le_mul_right ((rdName p).length + 1) hcount
    rw [Nat.succ_mul] at hle
    rw [stepsLeft]
    omega

/-- `RDname+1`. Behind a zero at the start the name is as it was. -/
def rdText (p : SkBuff) : Option (List UInt8) :=
  (dottedName p).map fun rdname => if rdname = [] then p.name.drop 1 else rdname.drop 1

/-- The first tunnel one of whose domains `strstr` finds in the text. -/
def listEntry (l : List IpsecSplitDns) (text : List UInt8) : Option IpsecSplitDns :=
  l.find? fun entry => entry.domainName.any fun d => decide (d <:+: text)

/-! ## The translation -/

/-- What the packet meets on its way: room for an entry, for a copy, and a route. -/
structure Luck where
  alloc : Bool
  copied : Bool
  routed : Bool

inductive Outcome where
  /-- The packet goes on as it is. -/
  | untouched
  /-- It goes on to the first server, a copy to the second. -/
  | forwarded (servers : List UInt32)
  /-- A copy is sent with this source, the packet is dropped. -/
  | rewritten (saddr : UInt32)
  | dropped
  deriving DecidableEq

def countDown (n : ℤ) : ℤ := if n > 0 then n - 1 else n

/-- A full table loses the first entry of each of its buckets. -/
def Tables.makeRoom (t : Tables) : Tables :=
  if t.cDnsSplitNum ≥ 1500 then
    { t with
      dnsSplitHashTable := fun i => (t.dnsSplitHashTable i).tail
      cDnsSplitNum := (List.range 256).foldl (fun n i =>
        if (t.dnsSplitHashTable (UInt8.ofNat i)).isEmpty then n else countDown n)
        t.cDnsSplitNum }
  else t

def IpsecSplitDns.servers (entry : IpsecSplitDns) (copied : Bool) : List UInt32 :=
  if entry.numIp = 2 ∧ copied then [entry.ip0, entry.ip1] else [entry.ip0]

def Tables.addEntry (t : Tables) (e : DnsSplitHash) : Tables :=
  { t with
    dnsSplitHashTable := Function.update t.dnsSplitHashTable e.dnsId.toUInt8
      (e :: t.dnsSplitHashTable e.dnsId.toUInt8)
    cDnsSplitNum := t.cDnsSplitNum + 1 }

def translateQuery (t : Tables) (p : SkBuff) (luck : Luck) : Tables × Outcome :=
  match rdText p with
  | none => (t, .untouched)
  | some text =>
    match listEntry t.ipsecSplitDnsList text with
    | none => (t, .untouched)
    | some entry =>
      if luck.alloc then
        (t.makeRoom.addEntry ⟨p.daddr, entry.servers luck.copied, p.dnsId, 0⟩,
          .forwarded (entry.servers luck.copied))
      else (t.makeRoom, .untouched)

def waitsFor (p : SkBuff) (e : DnsSplitHash) : Bool :=
  e.dnsId == p.dnsId && e.rdnsIp.contains p.saddr

/-- Change the first entry that waits for the packet, or take it out. -/
def changeFirst (p : SkBuff) (f : DnsSplitHash → Option DnsSplitHash) :
    List DnsSplitHash → List DnsSplitHash
  | [] => []
  | e :: l => if waitsFor p e then (f e).toList ++ l else e :: changeFirst p f l

def Tables.changeFirst (t : Tables) (p : SkBuff) (f : DnsSplitHash → Option DnsSplitHash) :
    UInt8 → List DnsSplitHash :=
  Function.update t.dnsSplitHashTable p.dnsId.toUInt8
    (SplitDns.changeFirst p f (t.dnsSplitHashTable p.dnsId.toUInt8))

def DnsSplitHash.countError (e : DnsSplitHash) : DnsSplitHash :=
  { e with dnsSplitIgnore := e.dnsSplitIgnore + 1 }

def translateReply (t : Tables) (p : SkBuff) (luck : Luck) : Tables × Outcome :=
  match (t.dnsSplitHashTable p.dnsId.toUInt8).find? (waitsFor p) with
  | none => (t, .untouched)
  | some e =>
    if p.dnsRc = 0 ∨ e.dnsSplitIgnore.toNat + 1 = e.rdnsIp.length then
      ({ t with
          dnsSplitHashTable := t.changeFirst p fun _ => none
          cDnsSplitNum := countDown t.cDnsSplitNum },
        if luck.copied ∧ luck.routed then .rewritten e.dstip else .dropped)
    else
      ({ t with dnsSplitHashTable := t.changeFirst p fun e => some e.countError }, .dropped)

def nkTranslateSpiltdnsToIpsec (t : Tables) (p : SkBuff) (luck : Luck) : Tables × Outcome :=
  if t.ipsecSplitDnsList.isEmpty then (t, .untouched)
  else if p.protocol ≠ 17 then (t, .untouched)
  else if (p.sport ≠ 53 ∧ p.dport ≠ 53) ∨ (p.dport = 53 ∧ 89 < p.datalen) then (t, .untouched)
  else
    match p.dev with
    | none => (t, .untouched)
    | some flan =>
      if p.dport = 53 ∧ p.dnsQr = 0 ∧ flan then translateQuery t p luck
      else if p.sport = 53 ∧ p.dnsQr = 1 ∧ ¬ flan then translateReply t p luck
      else (t, .untouched)

/-- The servers a query is forwarded to, none for any other packet. -/
def forwardedTo (t : Tables) (p : SkBuff) (luck : Luck) : List UInt32 :=
  match (nkTranslateSpiltdnsToIpsec t p luck).2 with
  | .forwarded servers => servers
  | _ => []

/-- The packets, and the two ioctls for the list of tunnels. -/
inductive Event where
  | packet (p : SkBuff) (luck : Luck)
  | addDnsSpl (entry : IpsecSplitDns)
  | rmDnsSpl (tunnelName : List UInt8)

def exec (t : Tables) : Event → Tables
  | .packet p luck => (nkTranslateSpiltdnsToIpsec t p luck).1
  | .addDnsSpl entry => { t with ipsecSplitDnsList := entry :: t.ipsecSplitDnsList }
  | .rmDnsSpl name => { t with ipsecSplitDnsList :=
      t.ipsecSplitDnsList.eraseP fun entry => entry.tunnelName = name }

/-! ## Queries and replies -/

/-- A DNS query of a LAN client. -/
def SkBuff.IsQuery (p : SkBuff) : Prop :=
  p.protocol = 17 ∧ p.dport = 53 ∧ p.dnsQr = 0 ∧ p.dev = some true

instance (p : SkBuff) : Decidable p.IsQuery := inferInstanceAs (Decidable (_ ∧ _ ∧ _ ∧ _))

/-- The tunnel of the domain that a query asks for; a long query is not looked at. -/
def Tables.tunnelOf (t : Tables) (p : SkBuff) : Option IpsecSplitDns :=
  if 89 < p.datalen then none else (rdText p).bind (listEntry t.ipsecSplitDnsList)

/-- The tunnel a query is forwarded to; without an entry it goes on as it is. -/
def Tables.forwards (t : Tables) (p : SkBuff) (luck : Luck) : Option IpsecSplitDns :=
  if luck.alloc then t.tunnelOf p else none

/-- The servers that a query goes to. -/
def Tables.goesTo (t : Tables) (p : SkBuff) (luck : Luck) : List UInt32 :=
  match t.forwards p luck with
  | some entry => entry.servers luck.copied
  | none => [p.daddr]

/-- The tables once a query has looked for room. -/
def Tables.roomFor (t : Tables) (p : SkBuff) : Tables :=
  if (t.tunnelOf p).isSome then t.makeRoom else t

/-- The tables, and every query of a LAN client, forwarded or not, with the servers it went to. -/
structure State where
  tables : Tables
  asked : List (SkBuff × List UInt32)

def State.initial : State := ⟨⟨[], fun _ => [], 0⟩, []⟩

def record (s : State) : Event → List (SkBuff × List UInt32)
  | .packet p luck => if p.IsQuery then (p, s.tables.goesTo p luck) :: s.asked else s.asked
  | _ => s.asked

def next (s : State) (e : Event) : State := ⟨exec s.tables e, record s e⟩

/-- `p` comes from a server that `q` went to, with the id of `q`, and goes to the client of
`q`. -/
def Answers (p q : SkBuff) (servers : List UInt32) : Prop :=
  p.dnsId = q.dnsId ∧ p.saddr ∈ servers ∧ p.daddr = q.saddr ∧ p.dport = q.sport

/-- A reply that is rewritten gets the address that the client had asked. -/
def Meets (s : State) : Event → Prop
  | .packet p luck => ∀ saddr, (nkTranslateSpiltdnsToIpsec s.tables p luck).2 = .rewritten saddr →
      ∀ q servers, (q, servers) ∈ s.asked → Answers p q servers → saddr = q.daddr
  | _ => True

/-- A query that is forwarded shares its id and a server only with earlier queries to the same
address. One that goes on as it is meets no pending entry with its id for the server it goes to,
but for entries of queries to that address. -/
def Unmistakable (s : State) : Event → Prop
  | .packet p luck => p.IsQuery →
    if (s.tables.forwards p luck).isSome then
      ∀ a ∈ s.asked, a.1.dnsId = p.dnsId → (∃ x ∈ s.tables.goesTo p luck, x ∈ a.2) →
        a.1.daddr = p.daddr
    else ∀ e ∈ (s.tables.roomFor p).dnsSplitHashTable p.dnsId.toUInt8, e.dnsId = p.dnsId →
      p.daddr ∈ e.rdnsIp → e.dstip = p.daddr
  | _ => True

instance (s : State) : (e : Event) → Decidable (Unmistakable s e)
  | .packet p luck => inferInstanceAs (Decidable (p.IsQuery →
    if (s.tables.forwards p luck).isSome then
      ∀ a ∈ s.asked, a.1.dnsId = p.dnsId → (∃ x ∈ s.tables.goesTo p luck, x ∈ a.2) →
        a.1.daddr = p.daddr
    else ∀ e ∈ (s.tables.roomFor p).dnsSplitHashTable p.dnsId.toUInt8, e.dnsId = p.dnsId →
      p.daddr ∈ e.rdnsIp → e.dstip = p.daddr))
  | .addDnsSpl _ => inferInstanceAs (Decidable True)
  | .rmDnsSpl _ => inferInstanceAs (Decidable True)

def Event.Asks : Event → Prop
  | .packet p _ => p.IsQuery
  | _ => False

/-! ## The entries -/

/-- The entries of `t'` are entries of `t`, but for the errors counted in them. -/
def Kept (t t' : UInt8 → List DnsSplitHash) : Prop :=
  ∀ i, ∀ e' ∈ t' i, ∃ e ∈ t i, e'.dnsId = e.dnsId ∧ e'.dstip = e.dstip ∧ e'.rdnsIp = e.rdnsIp

theorem kept_refl (t : UInt8 → List DnsSplitHash) : Kept t t :=
  fun _ e he => ⟨e, he, rfl, rfl, rfl⟩

theorem kept_makeRoom (t : Tables) : Kept t.dnsSplitHashTable t.makeRoom.dnsSplitHashTable := by
  rw [Tables.makeRoom]
  split
  · exact fun _ e he => ⟨e, List.mem_of_mem_tail he, rfl, rfl, rfl⟩
  · exact kept_refl _

theorem mem_changeFirst {p : SkBuff} {f : DnsSplitHash → Option DnsSplitHash}
    {l : List DnsSplitHash} {e' : DnsSplitHash} (h : e' ∈ changeFirst p f l) :
    e' ∈ l ∨ ∃ e ∈ l, f e = some e' := by
  fun_induction changeFirst p f l with
  | case1 => cases h
  | case2 e l hp =>
    rcases List.mem_append.mp h with h | h
    · exact .inr ⟨e, by simp, by simpa using h⟩
    · exact .inl (by simp [h])
  | case3 e l hp ih =>
    rcases List.mem_cons.mp h with rfl | h
    · exact .inl (by simp)
    · rcases ih h with h | ⟨x, hx, hf⟩
      · exact .inl (by simp [h])
      · exact .inr ⟨x, by simp [hx], hf⟩

theorem kept_changeFirst (t : Tables) (p : SkBuff) {f : DnsSplitHash → Option DnsSplitHash}
    (hf : ∀ e e', f e = some e' →
      e'.dnsId = e.dnsId ∧ e'.dstip = e.dstip ∧ e'.rdnsIp = e.rdnsIp) :
    Kept t.dnsSplitHashTable (t.changeFirst p f) := by
  intro i e' he'
  unfold Tables.changeFirst at he'
  rcases eq_or_ne i p.dnsId.toUInt8 with rfl | hne
  · rw [Function.update_self] at he'
    rcases mem_changeFirst he' with he | ⟨e, he, hfe⟩
    · exact ⟨e', he, rfl, rfl, rfl⟩
    · exact ⟨e, he, hf e e' hfe⟩
  · rw [Function.update_of_ne hne] at he'
    exact ⟨e', he', rfl, rfl, rfl⟩

theorem kept_roomFor (t : Tables) (p : SkBuff) :
    Kept t.dnsSplitHashTable (t.roomFor p).dnsSplitHashTable := by
  rw [Tables.roomFor]
  split
  · exact kept_makeRoom t
  · exact kept_refl _

theorem translateQuery_eq (t : Tables) {p : SkBuff} (luck : Luck) (hshort : ¬ 89 < p.datalen) :
    translateQuery t p luck =
      match t.tunnelOf p with
      | none => (t, .untouched)
      | some entry =>
        if luck.alloc then
          (t.makeRoom.addEntry ⟨p.daddr, entry.servers luck.copied, p.dnsId, 0⟩,
            .forwarded (entry.servers luck.copied))
        else (t.makeRoom, .untouched) := by
  rw [translateQuery, Tables.tunnelOf, if_neg hshort]
  cases rdText p <;> rfl

theorem tunnelOf_nil {t : Tables} (hempty : t.ipsecSplitDnsList = []) (p : SkBuff) :
    t.tunnelOf p = none := by
  rw [Tables.tunnelOf, hempty]
  split
  · rfl
  · cases rdText p <;> rfl

theorem translate_query (t : Tables) {p : SkBuff} (luck : Luck) (hq : p.IsQuery) :
    nkTranslateSpiltdnsToIpsec t p luck =
      if (t.forwards p luck).isSome then
        (t.makeRoom.addEntry ⟨p.daddr, t.goesTo p luck, p.dnsId, 0⟩,
          .forwarded (t.goesTo p luck))
      else (t.roomFor p, .untouched) := by
  obtain ⟨hudp, hport, hqr, hdev⟩ := hq
  have hplain : t.tunnelOf p = none → (if (t.forwards p luck).isSome then
      (t.makeRoom.addEntry ⟨p.daddr, t.goesTo p luck, p.dnsId, 0⟩,
        Outcome.forwarded (t.goesTo p luck))
      else (t.roomFor p, .untouched)) = (t, .untouched) := by
    intro hnone
    simp [Tables.forwards, Tables.roomFor, hnone]
  by_cases hempty : t.ipsecSplitDnsList = []
  · rw [hplain (tunnelOf_nil hempty p), nkTranslateSpiltdnsToIpsec, if_pos (by simp [hempty])]
  · rw [nkTranslateSpiltdnsToIpsec, if_neg (by simpa using hempty), if_neg (not_not.mpr hudp)]
    by_cases hlong : 89 < p.datalen
    · rw [hplain (if_pos hlong), if_pos (.inr ⟨hport, hlong⟩)]
    · rw [if_neg (by simp [hport, hlong]), hdev]
      dsimp only
      rw [if_pos ⟨hport, hqr, rfl⟩, translateQuery_eq t luck hlong]
      cases htunnel : t.tunnelOf p with
      | none => rw [hplain htunnel]
      | some entry =>
        cases hroom : luck.alloc <;>
          simp [Tables.forwards, Tables.goesTo, Tables.roomFor, htunnel, hroom]

/-- Any other packet keeps the entries, and its source is rewritten only to the address of an
entry that waits for it. -/
theorem translate_other (t : Tables) {p : SkBuff} (luck : Luck) (hq : ¬ p.IsQuery) :
    Kept t.dnsSplitHashTable (nkTranslateSpiltdnsToIpsec t p luck).1.dnsSplitHashTable ∧
      ((nkTranslateSpiltdnsToIpsec t p luck).2 = .untouched ∨
        (nkTranslateSpiltdnsToIpsec t p luck).2 = .dropped ∨
        ∃ e ∈ t.dnsSplitHashTable p.dnsId.toUInt8, waitsFor p e = true ∧
          (nkTranslateSpiltdnsToIpsec t p luck).2 = .rewritten e.dstip) := by
  rw [nkTranslateSpiltdnsToIpsec]
  split
  · exact ⟨kept_refl _, .inl rfl⟩
  · split
    · exact ⟨kept_refl _, .inl rfl⟩
    · next hudp =>
      split
      · exact ⟨kept_refl _, .inl rfl⟩
      · split
        · exact ⟨kept_refl _, .inl rfl⟩
        · next flan hdev =>
          split
          · next hquery =>
            refine absurd ⟨not_not.mp hudp, hquery.1, hquery.2.1, ?_⟩ hq
            rw [hdev, hquery.2.2]
          · split
            · rw [translateReply]
              split
              · exact ⟨kept_refl _, .inl rfl⟩
              · next e he =>
                have hwait := List.find?_some he
                have hmem := List.mem_of_find?_eq_some he
                split
                · refine ⟨kept_changeFirst t p (fun _ _ h => by cases h), ?_⟩
                  dsimp only
                  split
                  · exact .inr (.inr ⟨e, hmem, hwait, rfl⟩)
                  · exact .inr (.inl rfl)
                · refine ⟨kept_changeFirst t p ?_, .inr (.inl rfl)⟩
                  intro x x' h
                  cases h
                  exact ⟨rfl, rfl, rfl⟩
            · exact ⟨kept_refl _, .inl rfl⟩

/-! ## Runs -/

/-- Every entry stems from a query. -/
def Stems (asked : List (SkBuff × List UInt32)) (t : UInt8 → List DnsSplitHash) : Prop :=
  ∀ i, ∀ e ∈ t i, ∃ a ∈ asked, a.1.dnsId = e.dnsId ∧ a.1.daddr = e.dstip ∧ a.2 = e.rdnsIp

/-- An entry that an answer to a query can meet has the address of that query. -/
def Agreed (asked : List (SkBuff × List UInt32)) (t : UInt8 → List DnsSplitHash) : Prop :=
  ∀ a ∈ asked, ∀ e ∈ t a.1.dnsId.toUInt8, e.dnsId = a.1.dnsId → (∃ x ∈ a.2, x ∈ e.rdnsIp) →
    e.dstip = a.1.daddr

def State.table (s : State) : UInt8 → List DnsSplitHash := s.tables.dnsSplitHashTable

section Entries

variable {asked : List (SkBuff × List UInt32)} {t t' : UInt8 → List DnsSplitHash} {s : State}
  {p : SkBuff} {luck : Luck}

theorem stems_of_kept (hkept : Kept t t') (h : Stems asked t) : Stems asked t' := by
  intro i e' he'
  obtain ⟨e, he, hid, hdst, hips⟩ := hkept i e' he'
  rw [hid, hdst, hips]
  exact h i e he

theorem stems_cons (a : SkBuff × List UInt32) (h : Stems asked t) : Stems (a :: asked) t := by
  intro i e he
  obtain ⟨b, hb, hfields⟩ := h i e he
  exact ⟨b, List.mem_cons_of_mem _ hb, hfields⟩

theorem agreed_of_kept (hkept : Kept t t') (h : Agreed asked t) : Agreed asked t' := by
  intro a ha e' he' hida hshare
  obtain ⟨e, he, hid, hdst, hips⟩ := hkept _ e' he'
  rw [hdst]
  exact h a ha e he (hid ▸ hida) (hips ▸ hshare)

theorem mem_addEntry {t : Tables} {n e : DnsSplitHash} {i : UInt8}
    (he : e ∈ (t.addEntry n).dnsSplitHashTable i) :
    e = n ∧ i = n.dnsId.toUInt8 ∨ e ∈ t.dnsSplitHashTable i := by
  rw [Tables.addEntry] at he
  dsimp only at he
  rcases eq_or_ne i n.dnsId.toUInt8 with rfl | hne
  · rw [Function.update_self] at he
    rcases List.mem_cons.mp he with rfl | he
    · exact .inl ⟨rfl, rfl⟩
    · exact .inr he
  · rw [Function.update_of_ne hne] at he
    exact .inr he

theorem next_query (hq : p.IsQuery) : (next s (.packet p luck)).asked =
    (p, s.tables.goesTo p luck) :: s.asked := if_pos hq

theorem next_other (hq : ¬ p.IsQuery) : (next s (.packet p luck)).asked = s.asked := if_neg hq

theorem table_forwarded (hq : p.IsQuery) (hto : (s.tables.forwards p luck).isSome) :
    (next s (.packet p luck)).tables = s.tables.makeRoom.addEntry
      ⟨p.daddr, s.tables.goesTo p luck, p.dnsId, 0⟩ := by
  rw [next, exec, translate_query s.tables luck hq, if_pos hto]

theorem table_plain (hq : p.IsQuery) (hto : ¬ (s.tables.forwards p luck).isSome) :
    (next s (.packet p luck)).tables = s.tables.roomFor p := by
  rw [next, exec, translate_query s.tables luck hq, if_neg hto]

theorem goesTo_plain {t : Tables} (hto : ¬ (t.forwards p luck).isSome) :
    t.goesTo p luck = [p.daddr] := by
  rw [Option.not_isSome_iff_eq_none] at hto
  rw [Tables.goesTo, hto]

theorem stems_initial : Stems State.initial.asked State.initial.table := by
  intro i e he
  cases he

theorem agreed_initial : Agreed State.initial.asked State.initial.table := by
  intro a ha
  cases ha

theorem stems_next (h : Stems s.asked s.table) (e : Event) :
    Stems (next s e).asked (next s e).table := by
  cases e with
  | packet p luck =>
    by_cases hq : p.IsQuery
    · rw [next_query hq, State.table]
      by_cases hto : (s.tables.forwards p luck).isSome
      · rw [table_forwarded hq hto]
        intro i e he
        rcases mem_addEntry he with ⟨rfl, -⟩ | he
        · exact ⟨_, List.mem_cons_self, rfl, rfl, rfl⟩
        · exact stems_cons _ (stems_of_kept (kept_makeRoom s.tables) h) i e he
      · rw [table_plain hq hto]
        exact stems_cons _ (stems_of_kept (kept_roomFor s.tables p) h)
    · rw [next_other hq]
      exact stems_of_kept (translate_other s.tables luck hq).1 h
  | addDnsSpl entry => exact h
  | rmDnsSpl name => exact h

/-- A new query agrees with the entries that are left, and its own entry with the queries before
it. -/
theorem agreed_next (hstems : Stems s.asked s.table) (h : Agreed s.asked s.table) {e : Event}
    (hu : Unmistakable s e) : Agreed (next s e).asked (next s e).table := by
  cases e with
  | packet p luck =>
    by_cases hq : p.IsQuery
    · have hu := hu hq
      rw [next_query hq, State.table]
      by_cases hto : (s.tables.forwards p luck).isSome
      · rw [if_pos hto] at hu
        rw [table_forwarded hq hto]
        intro a ha e he hid hshare
        rcases mem_addEntry he with ⟨rfl, -⟩ | he
        · rcases List.mem_cons.mp ha with rfl | ha
          · rfl
          · obtain ⟨x, hxa, hxe⟩ := hshare
            exact (hu a ha hid.symm ⟨x, hxe, hxa⟩).symm
        · rcases List.mem_cons.mp ha with rfl | ha
          · -- the old entry has the address of the query that it stems from
            obtain ⟨b, hb, hbid, hbdst, hbips⟩ :=
              stems_of_kept (kept_makeRoom s.tables) hstems _ e he
            rw [← hbdst]
            obtain ⟨x, hxp, hxe⟩ := hshare
            exact hu b hb (hbid.trans hid) ⟨x, hxp, hbips ▸ hxe⟩
          · exact agreed_of_kept (kept_makeRoom s.tables) h a ha e he hid hshare
      · rw [if_neg hto] at hu
        rw [table_plain hq hto, goesTo_plain hto]
        intro a ha e he hid hshare
        rcases List.mem_cons.mp ha with rfl | ha
        · obtain ⟨x, hx, hxe⟩ := hshare
          rw [List.mem_singleton] at hx
          exact hu e he hid (hx ▸ hxe)
        · exact agreed_of_kept (kept_roomFor s.tables p) h a ha e he hid hshare
    · rw [next_other hq]
      exact agreed_of_kept (translate_other s.tables luck hq).1 h
  | addDnsSpl entry => exact h
  | rmDnsSpl name => exact h

theorem meets_of_agreed (h : Agreed s.asked s.table) (e : Event) : Meets s e := by
  cases e with
  | packet p luck =>
    intro saddr hsaddr q servers hmem hanswers
    by_cases hq : p.IsQuery
    · rw [translate_query s.tables luck hq] at hsaddr
      split at hsaddr <;> cases hsaddr
    · rcases (translate_other s.tables luck hq).2 with heq | heq | ⟨e, he, hwait, heq⟩
      · rw [heq] at hsaddr
        cases hsaddr
      · rw [heq] at hsaddr
        cases hsaddr
      · rw [heq] at hsaddr
        cases hsaddr
        obtain ⟨hid, hserver, -⟩ := hanswers
        simp only [waitsFor, Bool.and_eq_true, beq_iff_eq, List.contains_iff_mem] at hwait
        exact h (q, servers) hmem e (hid ▸ he) (hwait.1.trans hid) ⟨p.saddr, hserver, hwait.2⟩
  | addDnsSpl entry => trivial
  | rmDnsSpl name => trivial

end Entries

/-! ## The reply that goes wrong -/

/-- The first word of a DNS header with this id, for a reply without an error. -/
def replyWord (id : UInt16) : UInt32 := (id.toUInt32 <<< 16) ||| 0x8000

theorem toNat_replyWord (id : UInt16) : (replyWord id).toNat = id.toNat * 65536 + 32768 := by
  have hlt := id.toNat_lt
  have hshift : id.toNat <<< 16 % 4294967296 = 2 ^ 16 * id.toNat := by
    rw [Nat.shiftLeft_eq, Nat.mod_eq_of_lt (by omega), Nat.mul_comm]
  have hor : 2 ^ 16 * id.toNat + 32768 = 2 ^ 16 * id.toNat ||| 32768 :=
    Nat.two_pow_add_eq_or_of_lt (by decide) id.toNat
  simp only [replyWord, UInt32.toNat_or, UInt32.toNat_shiftLeft, UInt16.toNat_toUInt32]
  change id.toNat <<< 16 % 4294967296 ||| 32768 = _
  rw [hshift, ← hor]
  omega

theorem id_replyWord (id : UInt16) : ((replyWord id &&& 0xffff0000) >>> 16).toUInt16 = id := by
  have hlt := id.toNat_lt
  have hmask := @WordMask.land_high 32 16 (id.toNat * 65536 + 32768) (by decide) (by omega)
  apply UInt16.toNat_inj.mp
  simp only [Nat.reducePow, Nat.reduceSub] at hmask
  simp only [UInt32.toNat_toUInt16, UInt32.toNat_shiftRight, UInt32.toNat_and, toNat_replyWord]
  change (id.toNat * 65536 + 32768 &&& 4294901760) >>> 16 % 65536 = _
  rw [hmask, Nat.shiftRight_eq_div_pow]
  omega

theorem qr_replyWord (id : UInt16) : (replyWord id &&& 0x00008000) >>> 15 = 1 := by
  have hbit : (id.toNat * 65536 + 32768).testBit 15 = true := by
    rw [Nat.testBit_eq_decide_div_mod_eq]
    simp only [decide_eq_true_eq]
    omega
  have hmask := Nat.and_two_pow (id.toNat * 65536 + 32768) 15
  rw [hbit] at hmask
  apply UInt32.toNat_inj.mp
  simp only [UInt32.toNat_shiftRight, UInt32.toNat_and, toNat_replyWord]
  change (id.toNat * 65536 + 32768 &&& 2 ^ 15) >>> 15 = 1
  rw [hmask]
  rfl

theorem rc_replyWord (id : UInt16) : replyWord id &&& 0x0000000f = 0 := by
  have hmask := Nat.and_two_pow_sub_one_eq_mod (id.toNat * 65536 + 32768) 4
  apply UInt32.toNat_inj.mp
  simp only [UInt32.toNat_and, toNat_replyWord]
  change id.toNat * 65536 + 32768 &&& 2 ^ 4 - 1 = 0
  rw [hmask]
  omega

/-- A reply of the server `x` to the query `q`. -/
def replyTo (q : SkBuff) (x : UInt32) : SkBuff where
  protocol := 17
  saddr := x
  daddr := q.saddr
  sport := 53
  dport := q.sport
  datalen := 0
  dev := some false
  dns := replyWord q.dnsId
  name := []

theorem dnsId_replyTo (q : SkBuff) (x : UInt32) : (replyTo q x).dnsId = q.dnsId :=
  id_replyWord q.dnsId

theorem not_isQuery_replyTo (q : SkBuff) (x : UInt32) : ¬ (replyTo q x).IsQuery := by
  intro hq
  cases hq.2.2.2

theorem translate_replyTo {t : Tables} {q : SkBuff} {x : UInt32} {e : DnsSplitHash}
    (hl : t.ipsecSplitDnsList.isEmpty = false)
    (he : (t.dnsSplitHashTable q.dnsId.toUInt8).find? (waitsFor (replyTo q x)) = some e) :
    (nkTranslateSpiltdnsToIpsec t (replyTo q x) ⟨true, true, true⟩).2 = .rewritten e.dstip := by
  have hqr : (replyTo q x).dnsQr = 1 := qr_replyWord q.dnsId
  have hrc : (replyTo q x).dnsRc = 0 := rc_replyWord q.dnsId
  have hports : ¬ (((replyTo q x).sport ≠ 53 ∧ (replyTo q x).dport ≠ 53) ∨
      ((replyTo q x).dport = 53 ∧ 89 < (replyTo q x).datalen)) := by
    intro h
    rcases h with ⟨h, -⟩ | ⟨-, h⟩
    · exact h rfl
    · cases h
  have hreply : translateReply t (replyTo q x) ⟨true, true, true⟩ =
      ({ t with
          dnsSplitHashTable := t.changeFirst (replyTo q x) fun _ => none
          cDnsSplitNum := countDown t.cDnsSplitNum }, .rewritten e.dstip) := by
    rw [translateReply, dnsId_replyTo, he]
    simp [hrc]
  rw [nkTranslateSpiltdnsToIpsec, if_neg (by simp [hl]), if_neg (by simp [replyTo]),
    if_neg hports]
  change (if (replyTo q x).dport = 53 ∧ (replyTo q x).dnsQr = 0 ∧ (false : Bool) = true then _
    else if (replyTo q x).sport = 53 ∧ (replyTo q x).dnsQr = 1 ∧ ¬ (false : Bool) = true then _
    else _ : Tables × Outcome).2 = _
  rw [if_neg (by simp), if_pos ⟨rfl, hqr, by simp⟩, hreply]

theorem ipsecSplitDnsList_makeRoom (t : Tables) :
    t.makeRoom.ipsecSplitDnsList = t.ipsecSplitDnsList := by
  rw [Tables.makeRoom]
  split <;> rfl

/-- Behind the query `q` the reply to an earlier query with its id, from a common server, is
rewritten to the address of `q`. -/
theorem reply_takes_newest {s : State} {q : SkBuff} {luck : Luck} {a : SkBuff × List UInt32}
    {x : UInt32} (hq : q.IsQuery) (hto : (s.tables.forwards q luck).isSome)
    (hx : x ∈ s.tables.goesTo q luck) (hid : a.1.dnsId = q.dnsId) :
    (nkTranslateSpiltdnsToIpsec (next s (.packet q luck)).tables (replyTo a.1 x)
      ⟨true, true, true⟩).2 = .rewritten q.daddr := by
  have hl : s.tables.ipsecSplitDnsList ≠ [] := by
    intro hempty
    rw [Tables.forwards, tunnelOf_nil hempty, ite_self] at hto
    cases hto
  rw [table_forwarded hq hto]
  apply translate_replyTo (e := ⟨q.daddr, s.tables.goesTo q luck, q.dnsId, 0⟩)
  · simpa [Tables.addEntry, ipsecSplitDnsList_makeRoom] using hl
  · rw [hid, Tables.addEntry]
    dsimp only
    rw [Function.update_self]
    apply List.find?_cons_of_pos
    simp only [waitsFor, dnsId_replyTo, hid, beq_self_eq_true, Bool.true_and,
      List.contains_iff_mem]
    exact hx

def corp : IpsecSplitDns := ⟨[[99, 111, 114, 112]], 0x0a000035, 0, 1, [116]⟩

def ask (client dns : UInt32) : SkBuff :=
  ⟨17, client, dns, 40000, 53, 30, some true, 0x00070100, [4, 99, 111, 114, 112]⟩

/-- Once there is a tunnel, what waits for a reply is rewritten to the address of the first entry
that waits for it. -/
theorem rewritten_of_waits {t : Tables} {q : SkBuff} {x : UInt32} {e : DnsSplitHash}
    (he : (t.dnsSplitHashTable q.dnsId.toUInt8).find? (waitsFor (replyTo q x)) = some e) :
    (nkTranslateSpiltdnsToIpsec (exec t (.addDnsSpl corp)) (replyTo q x)
      ⟨true, true, true⟩).2 = .rewritten e.dstip :=
  translate_replyTo rfl he

section Needed

variable {s : State} {q : SkBuff} {luck : Luck}

/-- A query that is forwarded has to share its id and servers with none to another address. -/
theorem apart_of_meets (hq : q.IsQuery) (hto : (s.tables.forwards q luck).isSome)
    (hmeets : ∀ later, (∀ e ∈ later, ¬ e.Asks) →
      Along next Meets (next s (.packet q luck)) later) :
    ∀ a ∈ s.asked, a.1.dnsId = q.dnsId → (∃ x ∈ s.tables.goesTo q luck, x ∈ a.2) →
      a.1.daddr = q.daddr := by
  intro a ha hid hshare
  obtain ⟨x, hx, hxa⟩ := hshare
  have hreply := (hmeets [.packet (replyTo a.1 x) ⟨true, true, true⟩]
    (by simpa [Event.Asks] using not_isQuery_replyTo a.1 x)).1
  have hasked : a ∈ (next s (.packet q luck)).asked := by
    rw [next_query hq]
    exact List.mem_cons_of_mem _ ha
  exact (hreply q.daddr (reply_takes_newest hq hto hx hid) a.1 a.2 hasked
    ⟨dnsId_replyTo a.1 x, hxa, rfl, rfl⟩).symm

/-- The answers to all queries that an entry can be taken for are rewritten to one address. -/
theorem rewritten_alike (hto : ¬ (s.tables.forwards q luck).isSome) (hq : q.IsQuery)
    (hmeets : ∀ later, (∀ e ∈ later, ¬ e.Asks) →
      Along next Meets (next s (.packet q luck)) later) {e : DnsSplitHash}
    (he : e ∈ (s.tables.roomFor q).dnsSplitHashTable q.dnsId.toUInt8) (hid : e.dnsId = q.dnsId)
    (hserver : q.daddr ∈ e.rdnsIp) :
    ∃ dst, ∀ a ∈ (next s (.packet q luck)).asked, a.1.dnsId = q.dnsId → q.daddr ∈ a.2 →
      a.1.daddr = dst := by
  have hwait : waitsFor (replyTo q q.daddr) e = true := by
    simp only [waitsFor, dnsId_replyTo, Bool.and_eq_true, beq_iff_eq, List.contains_iff_mem]
    exact ⟨hid, hserver⟩
  obtain ⟨first, hfirst⟩ :=
    Option.isSome_iff_exists.mp (List.find?_isSome.mpr ⟨e, he, hwait⟩)
  refine ⟨first.dstip, ?_⟩
  intro a ha haid hin
  have hsame : waitsFor (replyTo a.1 q.daddr) = waitsFor (replyTo q q.daddr) := by
    funext x
    simp only [waitsFor, dnsId_replyTo, haid]
    rfl
  have hrun := hmeets [.addDnsSpl corp, .packet (replyTo a.1 q.daddr) ⟨true, true, true⟩]
    (by simpa [Event.Asks] using not_isQuery_replyTo a.1 q.daddr)
  refine (hrun.2.1 first.dstip ?_ a.1 a.2 ha ⟨dnsId_replyTo a.1 q.daddr, hin, rfl, rfl⟩).symm
  apply rewritten_of_waits
  rw [table_plain hq hto, haid, hsame]
  exact hfirst

/-- A query that goes on as it is must meet no entry of a query to another address. -/
theorem unmet_of_meets (hstems : Stems s.asked s.table) (hq : q.IsQuery)
    (hto : ¬ (s.tables.forwards q luck).isSome)
    (hmeets : ∀ later, (∀ e ∈ later, ¬ e.Asks) →
      Along next Meets (next s (.packet q luck)) later) :
    ∀ e ∈ (s.tables.roomFor q).dnsSplitHashTable q.dnsId.toUInt8, e.dnsId = q.dnsId →
      q.daddr ∈ e.rdnsIp → e.dstip = q.daddr := by
  intro e he hid hserver
  obtain ⟨dst, hdst⟩ := rewritten_alike hto hq hmeets he hid hserver
  obtain ⟨a, ha, haid, hadst, haips⟩ := stems_of_kept (kept_roomFor s.tables q) hstems _ e he
  rw [next_query hq, goesTo_plain hto] at hdst
  have hstem := hdst a (List.mem_cons_of_mem _ ha) (haid.trans hid) (haips ▸ hserver)
  have hself := hdst (q, [q.daddr]) List.mem_cons_self rfl (List.mem_singleton.mpr rfl)
  rw [← hadst, hstem]
  exact hself.symm

theorem unmistakable_of_meets (hstems : Stems s.asked s.table) (e : Event)
    (hmeets : ∀ later, (∀ e ∈ later, ¬ e.Asks) → Along next Meets (next s e) later) :
    Unmistakable s e := by
  cases e with
  | packet q luck =>
    intro hq
    split
    · next hto => exact apart_of_meets hq hto hmeets
    · next hto => exact unmet_of_meets hstems hq hto hmeets
  | addDnsSpl entry => trivial
  | rmDnsSpl name => trivial

end Needed

/-- Whatever replies and changes of the tunnels follow any part of the run, every reply is
rewritten to the address that its client had asked, exactly if no query can be mistaken for
another one. -/
theorem replies_attributed_iff (events : List Event) :
    (∀ pre, pre <+: events → ∀ later, (∀ e ∈ later, ¬ e.Asks) →
      Along next Meets .initial (pre ++ later)) ↔ Along next Unmistakable .initial events := by
  constructor
  · intro h
    rw [along_iff_forall]
    intro pre e post heq
    have hpre : pre ++ [e] <+: events := ⟨post, by simp [heq]⟩
    have hstems : Stems (pre.foldl next .initial).asked (pre.foldl next .initial).table :=
      foldl_invariant (I := fun s : State => Stems s.asked s.table)
        (fun s e hs => stems_next hs e) stems_initial
    apply unmistakable_of_meets hstems
    intro later hlater
    have hrun := (along_append.mp (h _ hpre later hlater)).2
    rwa [List.foldl_concat] at hrun
  · intro h pre hprefix later hlater
    obtain ⟨post, rfl⟩ := hprefix
    have hlast : Along next Unmistakable (pre.foldl next .initial) later := by
      rw [along_iff_forall]
      intro front e back heq
      have he := hlater e (by simp [heq])
      cases e with
      | packet p luck => exact fun hq => absurd hq he
      | addDnsSpl entry => trivial
      | rmDnsSpl name => trivial
    exact along_imp (I := fun s : State => Stems s.asked s.table ∧ Agreed s.asked s.table)
      (fun s e hs hu => ⟨stems_next hs.1 e, agreed_next hs.1 hs.2 hu⟩)
      (fun s e hs _ => meets_of_agreed hs.2 e) ⟨stems_initial, agreed_initial⟩
      (along_append.mpr ⟨(along_append.mp h).1, hlast⟩)

/-- The second client asks the server of the tunnel itself, for another domain. -/
example : ¬ Along next Unmistakable .initial [.addDnsSpl corp,
    .packet (ask 0xc0a80164 0x08080808) ⟨true, true, true⟩,
    .packet { ask 0xc0a80165 0x0a000035 with name := [3, 110, 101, 116] } ⟨true, true, true⟩] := by
  decide +kernel

def answer (client : UInt32) : SkBuff :=
  ⟨17, 0x0a000035, client, 53, 40000, 46, some false, 0x00078180, [4, 99, 111, 114, 112]⟩

/-- Two clients with different servers use one id: the answer for the first client gets the
server of the second. -/
theorem reply_gets_other_clients_server :
    ¬ Along next Meets .initial [.addDnsSpl corp,
      .packet (ask 0xc0a80164 0x08080808) ⟨true, true, true⟩,
      .packet (ask 0xc0a80165 0x01010101) ⟨true, true, true⟩,
      .packet (answer 0xc0a80164) ⟨true, true, true⟩] := by
  intro h
  obtain ⟨-, -, -, hmeets, -⟩ := h
  have hsaddr := hmeets 0x01010101 (by decide +kernel) (ask 0xc0a80164 0x08080808) [0x0a000035]
    (by decide +kernel) ⟨by decide, by decide, rfl, rfl⟩
  exact absurd hsaddr (by decide)

end SplitDns
