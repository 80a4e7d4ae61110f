import Mathlib.Data.List.Pairwise
import RouterFirmware.BucketTable
import RouterFirmware.GuardedRun

/-! # Connection table

A confirmed connection stands in the hash table with its original and its reply tuple. A
connection that finds one of its tuples taken has lost the race and its packet is dropped,
unless the packet is one of UDP: then the connection is inserted all the same.
-/
namespace ConnectionTable

open BucketTable GuardedRun

/-- `ip_conntrack_tuple`, less the direction, which `ip_ct_tuple_equal` does not compare. -/
structure Tuple where
  srcIp : UInt32
  srcPort : UInt16
  dstIp : UInt32
  dstPort : UInt16
  protonum : UInt8
  deriving DecidableEq

/-- `ip_conntrack_tuple_hash`, with the connection it is part of. -/
structure TupleHash where
  tuple : Tuple
  ctrack : ℕ
  deriving DecidableEq

/-- An `ip_conntrack`; the number is its identity. -/
structure Conntrack where
  id : ℕ
  original : Tuple
  reply : Tuple
  deriving DecidableEq

inductive Direction where
  | original
  | reply
  deriving DecidableEq

structure SkBuff where
  nfct : Conntrack
  dir : Direction
  protocol : UInt8

inductive Verdict where
  | nfDrop
  | nfAccept
  deriving DecidableEq

def ipprotoUdp : UInt8 := 17

variable {ι : Type*} [DecidableEq ι]

structure Table (ι : Type*) where
  hash : ι → List TupleHash
  /-- The connections with `IPS_CONFIRMED`, also those taken out since. -/
  confirmed : List ℕ

/-- The table hashes by `hash_conntrack`, whatever its seed and size. -/
def layout (hashConntrack : Tuple → ι) : Layout ι Tuple TupleHash :=
  ⟨hashConntrack, TupleHash.tuple⟩

variable (hashConntrack : Tuple → ι)

/-- `__ip_conntrack_find` without a connection to ignore. -/
def find (t : Table ι) (tuple : Tuple) : Option TupleHash :=
  (layout hashConntrack).lookup t.hash tuple

/-- `__ip_conntrack_hash_insert`, with the bit that its callers set. -/
def hashInsert (t : Table ι) (ct : Conntrack) : Table ι where
  hash := (layout hashConntrack).insert
    ((layout hashConntrack).insert t.hash ⟨ct.original, ct.id⟩) ⟨ct.reply, ct.id⟩
  confirmed := ct.id :: t.confirmed

/-- `__ip_conntrack_confirm`. -/
def confirmNew (t : Table ι) (skb : SkBuff) : Table ι × Verdict :=
  if skb.dir ≠ .original then (t, .nfAccept)
  else if find hashConntrack t skb.nfct.original = none ∧
      find hashConntrack t skb.nfct.reply = none then
    (hashInsert hashConntrack t skb.nfct, .nfAccept)
  else if skb.protocol = ipprotoUdp then (hashInsert hashConntrack t skb.nfct, .nfAccept)
  else (t, .nfDrop)

/-- `ip_conntrack_confirm`, its only caller. -/
def confirm (t : Table ι) (skb : SkBuff) : Table ι × Verdict :=
  if skb.nfct.id ∈ t.confirmed then (t, .nfAccept) else confirmNew hashConntrack t skb

def cleanFromLists (t : Table ι) (id : ℕ) : Table ι :=
  { t with hash := fun i => (t.hash i).filter fun h => h.ctrack ≠ id }

inductive Event where
  | confirm (skb : SkBuff)
  | remove (id : ℕ)

def exec (t : Table ι) : Event → Table ι
  | .confirm skb => (confirm hashConntrack t skb).1
  | .remove id => cleanFromLists t id

/-! ## The connections in the table -/

/-- A connection with the protocol of the packet that confirmed it. -/
structure Entry where
  ct : Conntrack
  protocol : UInt8
  deriving DecidableEq

/-- The table, and the connections in it, the one confirmed last first. -/
structure State (ι : Type*) where
  table : Table ι
  live : List Entry

def State.initial : State ι := ⟨⟨fun _ => [], []⟩, []⟩

def record (s : State ι) : Event → List Entry
  | .confirm skb =>
    if skb.nfct.id ∉ s.table.confirmed ∧
        skb.nfct.id ∈ (confirm hashConntrack s.table skb).1.confirmed then
      ⟨skb.nfct, skb.protocol⟩ :: s.live
    else s.live
  | .remove id => s.live.filter fun e => e.ct.id ≠ id

def next (s : State ι) (e : Event) : State ι :=
  ⟨exec hashConntrack s.table e, record hashConntrack s e⟩

def run (events : List Event) : State ι := events.foldl (next hashConntrack) .initial

/-- No two connections have the same original or the same reply tuple, and the nodes of a
tuple belong to one connection. -/
def Unique (s : State ι) : Prop :=
  (∀ c ∈ s.live, ∀ d ∈ s.live, c.ct.id ≠ d.ct.id →
    c.ct.original ≠ d.ct.original ∧ c.ct.reply ≠ d.ct.reply) ∧
  ∀ tuple, ∀ h ∈ s.table.hash (hashConntrack tuple), ∀ h' ∈ s.table.hash (hashConntrack tuple),
    h.tuple = tuple → h'.tuple = tuple → h.ctrack = h'.ctrack

/-- A tuple of one connection is a tuple of the other. -/
def Share (c d : Conntrack) : Prop :=
  c.original = d.original ∨ c.original = d.reply ∨ c.reply = d.original ∨ c.reply = d.reply

instance (c d : Conntrack) : Decidable (Share c d) :=
  inferInstanceAs (Decidable (_ ∨ _))

/-- The connection was not confirmed by a packet of UDP. -/
def Entry.Strict (e : Entry) : Prop := e.protocol ≠ ipprotoUdp

/-! ## The nodes of the connections -/

def Entry.Holds (e : Entry) (tuple : Tuple) : Prop :=
  tuple = e.ct.original ∨ tuple = e.ct.reply

/-- The buckets hold exactly the nodes of the connections in the table; of two that share a
tuple, the later one was confirmed by a packet of UDP. -/
structure Held (s : State ι) : Prop where
  nodes : ∀ i h, h ∈ s.table.hash i ↔
    ∃ e ∈ s.live, h.ctrack = e.ct.id ∧ e.Holds h.tuple ∧ hashConntrack h.tuple = i
  marked : ∀ e ∈ s.live, e.ct.id ∈ s.table.confirmed
  distinct : (s.live.map fun e => e.ct.id).Nodup
  races : s.live.Pairwise fun c d => Share c.ct d.ct → c.protocol = ipprotoUdp

variable {hashConntrack}

omit [DecidableEq ι] in
theorem held_initial : Held hashConntrack (State.initial : State ι) where
  nodes i h := by simp [State.initial]
  marked e he := by cases he
  distinct := List.nodup_nil
  races := List.Pairwise.nil

theorem mem_hashInsert {t : Table ι} {ct : Conntrack} {i : ι} {h : TupleHash} :
    h ∈ (hashInsert hashConntrack t ct).hash i ↔ h ∈ t.hash i ∨
      (h.ctrack = ct.id ∧ (h.tuple = ct.original ∨ h.tuple = ct.reply) ∧
        hashConntrack h.tuple = i) := by
  rw [hashInsert, Layout.mem_insert, Layout.mem_insert]
  simp only [layout]
  constructor
  · intro h
    rcases h with ⟨rfl, hi⟩ | ⟨rfl, hi⟩ | h
    · exact .inr ⟨rfl, .inr rfl, hi⟩
    · exact .inr ⟨rfl, .inl rfl, hi⟩
    · exact .inl h
  · intro h
    rcases h with h | ⟨hid, htuple | htuple, hi⟩
    · exact .inr (.inr h)
    · refine .inr (.inl ⟨?_, htuple ▸ hi⟩)
      cases h
      cases hid
      cases htuple
      rfl
    · refine .inl ⟨?_, htuple ▸ hi⟩
      cases h
      cases hid
      cases htuple
      rfl

omit [DecidableEq ι] in
theorem find_ne_none {s : State ι} (h : Held hashConntrack s) {e : Entry} (he : e ∈ s.live)
    {tuple : Tuple} (ht : e.Holds tuple) : find hashConntrack s.table tuple ≠ none := by
  intro hnone
  have hmem : (⟨tuple, e.ct.id⟩ : TupleHash) ∈ s.table.hash (hashConntrack tuple) :=
    (h.nodes _ _).mpr ⟨e, he, rfl, ht, rfl⟩
  have hne := List.find?_eq_none.mp hnone _ hmem
  simp [layout] at hne

omit [DecidableEq ι] in
/-- A connection that found both its tuples free shares none. -/
theorem not_share_of_find {s : State ι} (h : Held hashConntrack s) {ct : Conntrack}
    (horig : find hashConntrack s.table ct.original = none)
    (hreply : find hashConntrack s.table ct.reply = none) {e : Entry} (he : e ∈ s.live) :
    ¬ Share ct e.ct := by
  intro h
  rcases h with heq | heq | heq | heq
  · exact find_ne_none h he (.inl heq) horig
  · exact find_ne_none h he (.inr heq) horig
  · exact find_ne_none h he (.inl heq) hreply
  · exact find_ne_none h he (.inr heq) hreply

theorem held_insert {s : State ι} (h : Held hashConntrack s) {ct : Conntrack} {protocol : UInt8}
    (hnew : ct.id ∉ s.table.confirmed)
    (hrace : ∀ e ∈ s.live, Share ct e.ct → protocol = ipprotoUdp) :
    Held hashConntrack ⟨hashInsert hashConntrack s.table ct, ⟨ct, protocol⟩ :: s.live⟩ where
  nodes i n := by
    rw [mem_hashInsert, h.nodes]
    constructor
    · intro h
      rcases h with ⟨e, he, hn⟩ | hn
      · exact ⟨e, List.mem_cons_of_mem _ he, hn⟩
      · exact ⟨_, List.mem_cons_self, hn⟩
    · intro h
      obtain ⟨e, he, hn⟩ := h
      rcases List.mem_cons.mp he with rfl | he
      · exact .inr hn
      · exact .inl ⟨e, he, hn⟩
  marked e he := by
    rcases List.mem_cons.mp he with rfl | he
    · exact List.mem_cons_self
    · exact List.mem_cons_of_mem _ (h.marked e he)
  distinct := by
    rw [List.map_cons, List.nodup_cons]
    refine ⟨?_, h.distinct⟩
    intro hmem
    obtain ⟨e, he, hid⟩ := List.mem_map.mp hmem
    dsimp only at hid
    exact hnew (hid ▸ h.marked e he)
  races := List.pairwise_cons.mpr ⟨hrace, h.races⟩

theorem held_remove {s : State ι} (h : Held hashConntrack s) (id : ℕ) :
    Held hashConntrack (next hashConntrack s (.remove id)) where
  nodes i n := by
    simp only [next, exec, cleanFromLists, record, List.mem_filter, h.nodes, decide_eq_true_eq]
    constructor
    · intro h
      obtain ⟨⟨e, he, hid, hn⟩, hne⟩ := h
      exact ⟨e, ⟨he, hid ▸ hne⟩, hid, hn⟩
    · intro h
      obtain ⟨e, ⟨he, hne⟩, hid, hn⟩ := h
      exact ⟨⟨e, he, hid, hn⟩, hid ▸ hne⟩
  marked e he := h.marked e (List.mem_filter.mp he).1
  distinct := h.distinct.sublist (List.filter_sublist.map _)
  races := h.races.sublist List.filter_sublist

/-- Confirming inserts the connection or leaves the table as it is. -/
theorem confirm_cases (t : Table ι) (skb : SkBuff) :
    (skb.nfct.id ∉ t.confirmed ∧
      (confirm hashConntrack t skb).1 = hashInsert hashConntrack t skb.nfct ∧
      ((find hashConntrack t skb.nfct.original = none ∧
        find hashConntrack t skb.nfct.reply = none) ∨ skb.protocol = ipprotoUdp)) ∨
    (confirm hashConntrack t skb).1 = t := by
  rw [confirm]
  split
  · exact .inr rfl
  · next hnew =>
    rw [confirmNew]
    split
    · exact .inr rfl
    · split
      · next hfree => exact .inl ⟨hnew, rfl, .inl hfree⟩
      · split
        · next hudp => exact .inl ⟨hnew, rfl, .inr hudp⟩
        · exact .inr rfl

theorem held_next {s : State ι} (h : Held hashConntrack s) (e : Event) :
    Held hashConntrack (next hashConntrack s e) := by
  cases e with
  | confirm skb =>
    simp only [next, exec, record]
    rcases @confirm_cases ι _ hashConntrack s.table skb with ⟨hnew, heq, hwhy⟩ | heq
    · rw [heq, if_pos ⟨hnew, List.mem_cons_self⟩]
      apply held_insert h hnew
      intro e he hshare
      rcases hwhy with ⟨horig, hreply⟩ | hudp
      · exact absurd hshare (not_share_of_find h horig hreply he)
      · exact hudp
    · rw [heq, if_neg fun hboth => hboth.1 hboth.2]
      exact h
  | remove id => exact held_remove h id

theorem held_run (events : List Event) : Held hashConntrack (run hashConntrack events) :=
  foldl_invariant (fun _ e hs => held_next hs e) held_initial

/-- Of two connections that share a tuple one was confirmed by a packet of UDP. -/
def Raced (c d : Entry) : Prop :=
  Share c.ct d.ct → c.protocol = ipprotoUdp ∨ d.protocol = ipprotoUdp

instance : Std.Symm Raced where
  symm c d hcd hshare := by
    apply (hcd _).symm
    rcases hshare with heq | heq | heq | heq
    · exact .inl heq.symm
    · exact .inr (.inr (.inl heq.symm))
    · exact .inr (.inl heq.symm)
    · exact .inr (.inr (.inr heq.symm))

omit [DecidableEq ι] in
theorem not_share_of_strict {s : State ι} (h : Held hashConntrack s) {c d : Entry}
    (hc : c ∈ s.live) (hd : d ∈ s.live) (hne : c.ct.id ≠ d.ct.id) (hcs : c.Strict)
    (hds : d.Strict) : ¬ Share c.ct d.ct := by
  have hraced : s.live.Pairwise Raced := h.races.imp fun hcd hshare => .inl (hcd hshare)
  intro hshare
  have hentry : c ≠ d := fun heq => hne (by rw [heq])
  rcases hraced.forall hc hd hentry hshare with hudp | hudp
  · exact hcs hudp
  · exact hds hudp

theorem share_of_holds {c d : Entry} {tuple : Tuple} (hc : c.Holds tuple) (hd : d.Holds tuple) :
    Share c.ct d.ct := by
  rcases hc with rfl | rfl
  · exact hd.imp id Or.inl
  · exact .inr (.inr hd)

/-- Of two connections that share a tuple the later one was confirmed by a packet of UDP, and
a lookup has one answer at most whose connection was not. -/
theorem unique_but_for_udp (hashConntrack : Tuple → ι) (events : List Event) :
    let s := run hashConntrack events
    s.live.Pairwise (fun c d => Share c.ct d.ct → c.protocol = ipprotoUdp) ∧
    ∀ tuple, ∀ h ∈ s.table.hash (hashConntrack tuple),
      ∀ h' ∈ s.table.hash (hashConntrack tuple), h.tuple = tuple → h'.tuple = tuple →
        (∀ e ∈ s.live, (e.ct.id = h.ctrack ∨ e.ct.id = h'.ctrack) → e.Strict) →
          h.ctrack = h'.ctrack := by
  intro s
  have hheld : Held hashConntrack s := held_run events
  refine ⟨hheld.races, ?_⟩
  intro tuple h hmem h' hmem' htuple htuple' hstrict
  obtain ⟨c, hc, hid, hholds, -⟩ := (hheld.nodes _ _).mp hmem
  obtain ⟨d, hd, hid', hholds', -⟩ := (hheld.nodes _ _).mp hmem'
  by_contra hne
  have hcs := hstrict c hc (.inl hid.symm)
  have hds := hstrict d hd (.inr hid'.symm)
  apply not_share_of_strict hheld hc hd _ hcs hds
  · exact share_of_holds (htuple ▸ hholds) (htuple' ▸ hholds')
  · rwa [← hid, ← hid']

/-- Two packets of one UDP flow race: both their connections are confirmed. -/
theorem racing_udp_connections_share_tuple :
    let flow : Tuple := ⟨0xc0a80164, 5060, 0xcb007105, 5060, 17⟩
    let first : Conntrack := ⟨1, flow, ⟨0xcb007105, 5060, 0xc6336401, 5060, 17⟩⟩
    let second : Conntrack := ⟨2, flow, ⟨0xcb007105, 5060, 0xc6336401, 1024, 17⟩⟩
    ¬ Unique (fun _ => (0 : ℕ)) (run (fun _ => (0 : ℕ))
      [.confirm ⟨first, .original, 17⟩, .confirm ⟨second, .original, 17⟩]) := by
  intro flow first second h
  obtain ⟨hunique, -⟩ := h
  have hne := hunique ⟨first, 17⟩ (by decide) ⟨second, 17⟩ (by decide) (by decide)
  exact hne.1 rfl

end ConnectionTable
