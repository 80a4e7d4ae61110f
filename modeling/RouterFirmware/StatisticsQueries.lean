import Mathlib.Logic.Function.Basic
import Mathlib.Data.Int.Notation
import RouterFirmware.BucketTable

/-! # Statistics queries

Four queries of `url_ioctl` walk the connection table and mark each connection they have seen,
since every connection stands in the table with both of its directions. They sort what they
found, copy it to the caller and take the marks away. The two service queries leave the walk
when no memory is left for a service, each to a label of its own: one is behind the last
unlock, the other behind the loop over the marks.
-/
namespace StatisticsQueries

open BucketTable

structure Tuple where
  srcIp : UInt32
  srcPort : UInt16
  dstIp : UInt32
  dstPort : UInt16
  protonum : UInt8

/-- An `ip_conntrack`, as far as the queries read it. -/
structure Conntrack where
  original : Tuple
  reply : Tuple
  query : ℤ
  upBytesDelta : UInt64
  downBytesDelta : UInt64

/-- `ip_conntrack_hash`: its chains hold connections by their address. -/
structure CtTable where
  hash : List (List ℕ)
  ct : ℕ → Conntrack

def CtTable.nodes (t : CtTable) : List ℕ := t.hash.flatten

structure WanInterface where
  wanIp : UInt32
  internalLanIp : List (UInt32 × UInt32)
  /-- Where the arrays of the first and the last addresses are in memory. -/
  internalLanIpAt : UInt64 × UInt64

structure Settings where
  trEnable : ℤ
  lanip : UInt32
  wan : List WanInterface

/-- The connection table, and how often its lock was taken and released. -/
structure Kernel where
  table : CtTable
  taken : ℕ
  released : ℕ

def Kernel.writeLock (k : Kernel) : Kernel := { k with taken := k.taken + 1 }

def Kernel.writeUnlock (k : Kernel) : Kernel := { k with released := k.released + 1 }

def Kernel.setCt (k : Kernel) (ct : ℕ → Conntrack) : Kernel :=
  { k with table := { k.table with ct := ct } }

def clearMarks (nodes : List ℕ) (ct : ℕ → Conntrack) : ℕ → Conntrack :=
  nodes.foldl (fun ct r => Function.update ct r { ct r with query := 0 }) ct

def Kernel.unmark (k : Kernel) : Kernel :=
  (k.writeLock.setCt (clearMarks k.table.nodes k.table.ct)).writeUnlock

def sortingEntry : ℕ := 20

/-- The address is one of a WAN interface or of a range behind it. -/
def ofWan (s : Settings) (ip : UInt32) : Bool :=
  s.wan.any fun w => ip == w.wanIp || w.internalLanIp.any fun range =>
    decide (range.1 ≤ ip ∧ ip ≤ range.2)

/-- As `ofWan`, but the address is compared with the arrays themselves. -/
def ofWanArrays (s : Settings) (ip : UInt32) : Bool :=
  s.wan.any fun w => ip == w.wanIp ||
    decide (w.internalLanIpAt.1 ≤ ip.toUInt64 ∧ ip.toUInt64 ≤ w.internalLanIpAt.2)

/-! ## Sessions -/

structure IpSession where
  srcIp : UInt32
  dstIp : UInt32
  proto : UInt16
  srcPort : UInt16
  dstPort : UInt16
  upBytes : UInt32
  downBytes : UInt32

def IpSession.zero : IpSession := ⟨0, 0, 0, 0, 0, 0, 0⟩

structure SessionWalk where
  ct : ℕ → Conntrack
  traffic : List ℕ
  /-- The `kmalloc`s so far. -/
  mallocs : ℕ

/-- One node of the first loop. A connection without room in the list is marked all the same. -/
def collect (alloc : ℕ → Bool) (w : SessionWalk) (r : ℕ) : SessionWalk :=
  if (w.ct r).query = 0 ∧ (w.ct r).original.srcIp ≠ (w.ct r).original.dstIp then
    { ct := Function.update w.ct r { w.ct r with query := 1 }
      traffic := if alloc w.mallocs then r :: w.traffic else w.traffic
      mallocs := w.mallocs + 1 }
  else w

/-- The connection with the most bytes below `preMax`, and these bytes. -/
def pickSession (bytes : ℕ → UInt64) (traffic : List ℕ) (preMax : UInt64) :
    Option ℕ × UInt64 :=
  traffic.foldl (fun best r =>
    if best.2 < bytes r ∧ bytes r < preMax then (some r, bytes r) else best) (none, 0)

/-- `sort_tr`, as far as it has no null pointer. -/
def sortTraffic (bytes : ℕ → UInt64) (traffic : List ℕ) : ℕ → UInt64 → List ℕ
  | 0, _ => []
  | n + 1, preMax =>
    match pickSession bytes traffic preMax with
    | (none, _) => []
    | (some r, tmpMax) => r :: sortTraffic bytes traffic n tmpMax

/-- An incoming session is shown from the other side. -/
def showSession (s : Settings) (c : Conntrack) (up down : UInt64) : IpSession :=
  let t := if ofWan s c.original.dstIp then c.reply else c.original
  ⟨t.srcIp, t.dstIp, c.original.protonum.toUInt16, t.srcPort, t.dstPort, up.toUInt32,
    down.toUInt32⟩

inductive Result where
  /-- A null pointer was written to. -/
  | crashed
  | sessions (k : Kernel) (shown : List IpSession)
  | services (k : Kernel) (shown : List (UInt64 × UInt8 × UInt16))
  /-- It returned without an answer. -/
  | returned (k : Kernel)

def isTcpUdp (c : Conntrack) : Bool := c.original.protonum == 6 || c.original.protonum == 17

/-- The common text of the two session queries: what is sorted by, and what is shown. -/
def sessionSort (bytes : Conntrack → UInt64) (shown : Conntrack → UInt64 × UInt64)
    (s : Settings) (alloc : ℕ → Bool) (k : Kernel) : Result :=
  if s.trEnable = 0 then .returned k
  else if ¬ alloc 0 then .crashed
  else
    let w := k.table.nodes.foldl (collect alloc) ⟨k.table.ct, [], 1⟩
    let k := (k.writeLock.setCt w.ct).writeUnlock
    let sorted := sortTraffic (fun r => bytes (w.ct r))
      (w.traffic.filter fun r => isTcpUdp (w.ct r)) sortingEntry 0xffffffffffffffff
    let entries := sorted.map fun r =>
      showSession s (w.ct r) (shown (w.ct r)).1 (shown (w.ct r)).2
    .sessions k.unmark (entries ++ List.replicate (sortingEntry - entries.length) .zero)

def sessionUpSort : Settings → (ℕ → Bool) → Kernel → Result :=
  sessionSort Conntrack.upBytesDelta fun c => (c.upBytesDelta, c.upBytesDelta)

def sessionDownSort : Settings → (ℕ → Bool) → Kernel → Result :=
  sessionSort Conntrack.downBytesDelta fun c => (0, c.downBytesDelta)

/-! ## Services -/

structure ServiceSort where
  deltaByteCnt : UInt64
  proto : UInt8
  portNum : UInt16

structure ServiceWalk where
  ct : ℕ → Conntrack
  serviceList : List ServiceSort
  /-- `sdir` is 2. -/
  forwarding : Bool
  mallocs : ℕ

/-- What the two service queries do not share: the bytes they count, and `sdir` and the port of
a new entry. -/
structure ServiceQuery where
  bytes : Conntrack → UInt64
  direction : Settings → Bool → Conntrack → Bool
  portNum : Bool → Conntrack → UInt16

def counted (s : Settings) (c : Conntrack) : Prop :=
  c.query = 0 ∧ isTcpUdp c = true ∧ c.original.dstIp ≠ s.lanip ∧ c.reply.dstIp ≠ s.lanip

instance (s : Settings) (c : Conntrack) : Decidable (counted s c) :=
  inferInstanceAs (Decidable (_ ∧ _))

def sameService (c : Conntrack) (e : ServiceSort) : Bool :=
  e.portNum == c.original.dstPort && e.proto == c.original.protonum

def needsEntry (s : Settings) (w : ServiceWalk) (r : ℕ) : Bool :=
  decide (counted s (w.ct r)) && !w.serviceList.any (sameService (w.ct r))

/-- One node of the first loop, with memory for its entry. -/
def countService (q : ServiceQuery) (s : Settings) (w : ServiceWalk) (r : ℕ) : ServiceWalk :=
  let c := w.ct r
  if ¬ counted s c then w
  else
    let ct := Function.update w.ct r { c with query := 1 }
    if w.serviceList.any (sameService c) then
      { w with
        ct := ct
        serviceList := modifyFirst (sameService c)
          (fun e => { e with deltaByteCnt := e.deltaByteCnt + q.bytes c }) w.serviceList }
    else
      let forwarding := q.direction s w.forwarding c
      { ct := ct
        serviceList :=
          ⟨q.bytes c, c.original.protonum, q.portNum forwarding c⟩ :: w.serviceList
        forwarding := forwarding
        mallocs := w.mallocs + 1 }

/-- The first loop; it is left with an error at the first entry without memory. -/
def buildServices (q : ServiceQuery) (s : Settings) (alloc : ℕ → Bool) :
    List ℕ → ServiceWalk → Except ServiceWalk ServiceWalk
  | [], w => .ok w
  | r :: nodes, w =>
    if needsEntry s w r && !alloc w.mallocs then .error w
    else buildServices q s alloc nodes (countService q s w r)

/-- The common text of the loops over services and hosts: the entry with the most bytes below
`preMax`. -/
def pickEntry {α : Type} (bytes : α → UInt64) (l : List α) (preMax : UInt32) : Option α × UInt32 :=
  l.foldl (fun best e =>
    if best.2.toUInt64 < bytes e ∧ bytes e < preMax.toUInt64 then
      (some e, (bytes e).toUInt32)
    else best) (none, 0)

/-- An entry of the answer stays zero when nothing is left below the last maximum. -/
def sortEntries {α β : Type} (bytes : α → UInt64) (shown : α → β) (zero : β) (l : List α) :
    ℕ → UInt32 → List β
  | 0, _ => []
  | n + 1, preMax =>
    match pickEntry bytes l preMax with
    | (none, _) => zero :: sortEntries bytes shown zero l n preMax
    | (some e, tmpMax) => shown e :: sortEntries bytes shown zero l n tmpMax

def sortServices (l : List ServiceSort) : List (UInt64 × UInt8 × UInt16) :=
  sortEntries ServiceSort.deltaByteCnt (fun e => (e.deltaByteCnt, e.proto, e.portNum)) (0, 0, 0) l
    sortingEntry 0xffffffff

/-- The common text behind the first loop. -/
def showServices (alloc : ℕ → Bool) (w : ServiceWalk) (k : Kernel) : Result :=
  let k := (k.setCt w.ct).writeUnlock
  if ¬ alloc 0 then .crashed
  else .services k.unmark (sortServices w.serviceList)

def startWalk (k : Kernel) : ServiceWalk := ⟨k.table.ct, [], false, 1⟩

/-- Once a forwarded session was met, all later entries get the source port. -/
def downQuery : ServiceQuery where
  bytes := Conntrack.downBytesDelta
  direction s forwarding c := forwarding || ofWanArrays s c.reply.srcIp
  portNum forwarding c := if forwarding then c.original.srcPort else c.original.dstPort

def upQuery : ServiceQuery where
  bytes := Conntrack.upBytesDelta
  direction _ forwarding _ := forwarding
  portNum _ c := c.original.dstPort

/-- `SIOCGETSERVDOWNSORT`: the label is behind the unmarking and the unlock. -/
def servDownSort (s : Settings) (alloc : ℕ → Bool) (k : Kernel) : Result :=
  let k := k.writeLock
  match buildServices downQuery s alloc k.table.nodes (startWalk k) with
  | .error w => .returned (k.setCt w.ct)
  | .ok w => showServices alloc w k

/-- `SIOCGETSERVUPSORT`: the label is behind the unmarking, before the unlock. -/
def servUpSort (s : Settings) (alloc : ℕ → Bool) (k : Kernel) : Result :=
  let k := k.writeLock
  match buildServices upQuery s alloc k.table.nodes (startWalk k) with
  | .error w => .returned (k.setCt w.ct).writeUnlock
  | .ok w => showServices alloc w k

inductive Query where
  | sessionUpSort
  | sessionDownSort
  | servDownSort
  | servUpSort

def urlIoctl (s : Settings) (alloc : ℕ → Bool) (k : Kernel) : Query → Result
  | .sessionUpSort => StatisticsQueries.sessionUpSort s alloc k
  | .sessionDownSort => StatisticsQueries.sessionDownSort s alloc k
  | .servDownSort => StatisticsQueries.servDownSort s alloc k
  | .servUpSort => StatisticsQueries.servUpSort s alloc k

/-! ## What a query leaves behind -/

def Unmarked (t : CtTable) : Prop := ∀ r ∈ t.nodes, (t.ct r).query = 0

instance (t : CtTable) : Decidable (Unmarked t) :=
  inferInstanceAs (Decidable (∀ r ∈ t.nodes, (t.ct r).query = 0))

def Result.kernel : Result → Option Kernel
  | .crashed => none
  | .sessions k _ => some k
  | .services k _ => some k
  | .returned k => some k

/-- The query returned, has released the lock as often as it has taken it, and no connection
is marked. -/
def Restored (k : Kernel) (result : Result) : Prop :=
  ∃ k', result.kernel = some k' ∧ k'.taken + k.released = k'.released + k.taken ∧
    Unmarked k'.table

/-- How many times a service query asks for memory when it gets it each time. -/
def kmallocs (q : ServiceQuery) (s : Settings) (k : Kernel) : ℕ :=
  (k.table.nodes.foldl (countService q s) (startWalk k)).mallocs

/-- The failures that do no harm: none, and for `SIOCGETSERVUPSORT` that of the first service,
before anything is marked. -/
def Harmless (s : Settings) (alloc : ℕ → Bool) (k : Kernel) : Query → Prop
  | .sessionUpSort => if s.trEnable = 0 then Unmarked k.table else alloc 0 = true
  | .sessionDownSort => if s.trEnable = 0 then Unmarked k.table else alloc 0 = true
  | .servDownSort => ∀ n < kmallocs downQuery s k, alloc n = true
  | .servUpSort => (∀ n < kmallocs upQuery s k, alloc n = true) ∨
      (1 < kmallocs upQuery s k ∧ alloc 1 = false ∧ Unmarked k.table)

theorem clearMarks_apply (nodes : List ℕ) (ct : ℕ → Conntrack) (r : ℕ) :
    clearMarks nodes ct r = if r ∈ nodes then { ct r with query := 0 } else ct r := by
  induction nodes generalizing ct with
  | nil => rfl
  | cons a nodes ih =>
    have hcons : clearMarks (a :: nodes) ct =
        clearMarks nodes (Function.update ct a { ct a with query := 0 }) := rfl
    rw [hcons, ih]
    rcases eq_or_ne r a with rfl | hne
    · simp
    · simp [hne]

theorem unmarked_unmark (k : Kernel) : Unmarked k.unmark.table := by
  intro r hr
  change (clearMarks k.table.nodes k.table.ct r).query = 0
  have hmem : r ∈ k.table.nodes := hr
  rw [clearMarks_apply, if_pos hmem]

theorem restored_returned (k k' : Kernel) : Restored k (.returned k') ↔
    k'.taken + k.released = k'.released + k.taken ∧ Unmarked k'.table := by
  constructor
  · intro h
    obtain ⟨k'', hk, h⟩ := h
    cases hk
    exact h
  · exact fun h => ⟨k', rfl, h⟩

theorem restored_sessionSort (bytes : Conntrack → UInt64) (shown : Conntrack → UInt64 × UInt64)
    (s : Settings) (alloc : ℕ → Bool) (k : Kernel) :
    Restored k (sessionSort bytes shown s alloc k) ↔
      if s.trEnable = 0 then Unmarked k.table else alloc 0 = true := by
  rw [sessionSort]
  split
  · rw [restored_returned]
    exact ⟨fun h => h.2, fun h => ⟨Nat.add_comm _ _, h⟩⟩
  · split
    · next halloc =>
      constructor
      · intro h
        obtain ⟨k', hk, -⟩ := h
        cases hk
      · exact fun h => absurd h halloc
    · next halloc =>
      refine ⟨fun _ => by simpa using halloc, fun _ => ⟨_, rfl, ?_, unmarked_unmark _⟩⟩
      simp only [Kernel.unmark, Kernel.writeLock, Kernel.writeUnlock, Kernel.setCt]
      omega

/-! ## The walk over the services -/

theorem mallocs_countService (q : ServiceQuery) (s : Settings) (w : ServiceWalk) (r : ℕ) :
    (countService q s w r).mallocs = if needsEntry s w r then w.mallocs + 1 else w.mallocs := by
  rw [countService, needsEntry]
  by_cases hc : counted s (w.ct r)
  · by_cases hs : w.serviceList.any (sameService (w.ct r)) <;> simp [hc, hs]
  · simp [hc]

theorem le_mallocs_foldl (q : ServiceQuery) (s : Settings) (nodes : List ℕ) (w : ServiceWalk) :
    w.mallocs ≤ (nodes.foldl (countService q s) w).mallocs := by
  induction nodes generalizing w with
  | nil => exact Nat.le_refl _
  | cons r nodes ih =>
    apply Nat.le_trans _ (ih _)
    rw [mallocs_countService]
    split <;> omega

/-- The walk ends where a walk with enough memory ends, or at the first failure. -/
theorem buildServices_cases (q : ServiceQuery) (s : Settings) (alloc : ℕ → Bool)
    (nodes : List ℕ) (w : ServiceWalk) :
    (buildServices q s alloc nodes w = .ok (nodes.foldl (countService q s) w) ∧
      ∀ n, w.mallocs ≤ n → n < (nodes.foldl (countService q s) w).mallocs → alloc n = true) ∨
    ∃ w', buildServices q s alloc nodes w = .error w' ∧
      (∀ n, w.mallocs ≤ n → n < w'.mallocs → alloc n = true) ∧
      w'.mallocs < (nodes.foldl (countService q s) w).mallocs ∧ alloc w'.mallocs = false ∧
      ∃ pre, pre <+: nodes ∧ w' = pre.foldl (countService q s) w := by
  induction nodes generalizing w with
  | nil =>
    left
    refine ⟨rfl, fun n hle hlt => ?_⟩
    simp only [List.foldl_nil] at hlt
    omega
  | cons r nodes ih =>
    have hmallocs := mallocs_countService q s w r
    have hle := le_mallocs_foldl q s nodes (countService q s w r)
    rw [buildServices, List.foldl_cons]
    by_cases hfail : (needsEntry s w r && !alloc w.mallocs) = true
    · -- The first failure is here.
      obtain ⟨hneeds, halloc⟩ := Bool.and_eq_true_iff.mp hfail
      rw [hneeds, if_pos rfl] at hmallocs
      right
      refine ⟨w, if_pos hfail, ?_, by omega, by simpa using halloc, [], List.nil_prefix, rfl⟩
      intro n hn hlt
      omega
    · rw [if_neg hfail]
      have hhere : ∀ n, w.mallocs ≤ n → n < (countService q s w r).mallocs → alloc n = true := by
        intro n hn hlt
        have hneeds : needsEntry s w r = true := by
          by_contra hno
          rw [if_neg hno] at hmallocs
          omega
        rw [if_pos hneeds] at hmallocs
        have hn' : n = w.mallocs := by omega
        subst hn'
        simpa [hneeds] using hfail
      rcases ih (countService q s w r) with
        ⟨hok, hall⟩ | ⟨w', herr, hall, hlt, halloc, pre, hpre, hw'⟩
      · left
        refine ⟨hok, fun n hn hlt => ?_⟩
        by_cases hnext : (countService q s w r).mallocs ≤ n
        · exact hall n hnext hlt
        · exact hhere n hn (by omega)
      · right
        refine ⟨w', herr, fun n hn hlt => ?_, hlt, halloc, r :: pre, ?_, hw'⟩
        · by_cases hnext : (countService q s w r).mallocs ≤ n
          · exact hall n hnext hlt
          · exact hhere n hn (by omega)
        · exact List.cons_prefix_cons.mpr ⟨rfl, hpre⟩

/-- Nothing was counted yet, or a counted connection is marked. -/
def Progress (ct : ℕ → Conntrack) (nodes : List ℕ) (w : ServiceWalk) : Prop :=
  (w.mallocs = 1 ∧ w.ct = ct ∧ w.serviceList = []) ∨
    (1 < w.mallocs ∧ ∃ r ∈ nodes, (w.ct r).query ≠ 0)

theorem progress_countService {ct : ℕ → Conntrack} {nodes : List ℕ} {w : ServiceWalk}
    (h : Progress ct nodes w) (q : ServiceQuery) (s : Settings) {r : ℕ} (hr : r ∈ nodes) :
    Progress ct nodes (countService q s w r) := by
  by_cases hc : counted s (w.ct r)
  · right
    have hct : ((countService q s w r).ct r).query = 1 := by
      rw [countService]
      by_cases hs : w.serviceList.any (sameService (w.ct r)) <;> simp [hc, hs]
    refine ⟨?_, r, hr, by rw [hct]; decide⟩
    rw [mallocs_countService]
    rcases h with ⟨hone, -, hnil⟩ | ⟨hlt, -⟩
    · have hneeds : needsEntry s w r = true := by simp [needsEntry, hc, hnil]
      rw [if_pos hneeds]
      omega
    · split <;> omega
  · have hsame : countService q s w r = w := by
      rw [countService]
      exact if_pos hc
    rw [hsame]
    exact h

theorem progress_foldl {ct : ℕ → Conntrack} {nodes : List ℕ} (q : ServiceQuery) (s : Settings)
    {pre : List ℕ} (hpre : pre ⊆ nodes) {w : ServiceWalk} (h : Progress ct nodes w) :
    Progress ct nodes (pre.foldl (countService q s) w) := by
  induction pre generalizing w with
  | nil => exact h
  | cons r pre ih =>
    apply ih (fun x hx => hpre (List.mem_cons_of_mem _ hx))
    exact progress_countService h q s (hpre List.mem_cons_self)

theorem restored_showServices (alloc : ℕ → Bool) (w : ServiceWalk) (k : Kernel) :
    Restored k (showServices alloc w k.writeLock) ↔ alloc 0 = true := by
  rw [showServices]
  by_cases halloc : alloc 0 = true
  · simp only [halloc, iff_true]
    refine ⟨_, rfl, ?_, unmarked_unmark _⟩
    simp only [Kernel.unmark, Kernel.writeLock, Kernel.writeUnlock, Kernel.setCt]
    omega
  · rw [if_pos halloc]
    constructor
    · intro h
      obtain ⟨k', hk, -⟩ := h
      cases hk
    · exact fun h => absurd h halloc

theorem forall_alloc_iff {alloc : ℕ → Bool} {m : ℕ} (hm : 1 ≤ m)
    (h : ∀ n, 1 ≤ n → n < m → alloc n = true) :
    (∀ n < m, alloc n = true) ↔ alloc 0 = true := by
  constructor
  · exact fun hall => hall 0 (by omega)
  · intro h0 n hn
    rcases Nat.eq_zero_or_pos n with rfl | hpos
    · exact h0
    · exact h n hpos hn

theorem one_le_kmallocs (q : ServiceQuery) (s : Settings) (k : Kernel) : 1 ≤ kmallocs q s k :=
  le_mallocs_foldl q s k.table.nodes (startWalk k)

theorem restored_servDownSort (s : Settings) (alloc : ℕ → Bool) (k : Kernel) :
    Restored k (servDownSort s alloc k) ↔ ∀ n < kmallocs downQuery s k, alloc n = true := by
  unfold servDownSort
  dsimp only
  rcases buildServices_cases downQuery s alloc k.table.nodes (startWalk k) with
    ⟨hok, hall⟩ | ⟨w, herr, -, hlt, hfail, -⟩
  · have heq : buildServices downQuery s alloc k.writeLock.table.nodes (startWalk k.writeLock) =
        .ok _ := hok
    rw [heq]
    dsimp only
    rw [restored_showServices]
    exact (forall_alloc_iff (one_le_kmallocs _ _ _) hall).symm
  · have heq : buildServices downQuery s alloc k.writeLock.table.nodes (startWalk k.writeLock) =
        .error _ := herr
    rw [heq]
    dsimp only
    rw [restored_returned]
    constructor
    · -- The lock is still held.
      intro h
      obtain ⟨hlock, -⟩ := h
      simp only [Kernel.writeLock, Kernel.setCt] at hlock
      omega
    · intro hall
      rw [hall w.mallocs hlt] at hfail
      cases hfail

theorem restored_servUpSort (s : Settings) (alloc : ℕ → Bool) (k : Kernel) :
    Restored k (servUpSort s alloc k) ↔ (∀ n < kmallocs upQuery s k, alloc n = true) ∨
      (1 < kmallocs upQuery s k ∧ alloc 1 = false ∧ Unmarked k.table) := by
  unfold servUpSort
  dsimp only
  rcases buildServices_cases upQuery s alloc k.table.nodes (startWalk k) with
    ⟨hok, hall⟩ | ⟨w, herr, hbefore, hlt, hfail, pre, hpre, hw⟩
  · have heq : buildServices upQuery s alloc k.writeLock.table.nodes (startWalk k.writeLock) =
        .ok _ := hok
    rw [heq]
    dsimp only
    rw [restored_showServices, forall_alloc_iff (one_le_kmallocs _ _ _) hall]
    constructor
    · exact Or.inl
    · intro h
      rcases h with h0 | ⟨hlt, hfail, -⟩
      · exact h0
      · rw [hall 1 (Nat.le_refl _) hlt] at hfail
        cases hfail
  · have heq : buildServices upQuery s alloc k.writeLock.table.nodes (startWalk k.writeLock) =
        .error _ := herr
    have hprogress : Progress k.table.ct k.table.nodes w := by
      rw [hw]
      exact progress_foldl _ _ hpre.subset (.inl ⟨rfl, rfl, rfl⟩)
    rw [heq]
    dsimp only
    rw [restored_returned]
    constructor
    · intro h
      obtain ⟨-, hunmarked⟩ := h
      right
      rcases hprogress with ⟨hone, hct, -⟩ | ⟨-, r, hr, hmarked⟩
      · rw [hone] at hlt hfail
        refine ⟨hlt, hfail, ?_⟩
        intro r hr
        rw [← hct]
        exact hunmarked r hr
      · exact absurd (hunmarked r hr) hmarked
    · intro h
      rcases h with hall | ⟨-, hfail1, hunmarked⟩
      · rw [hall w.mallocs hlt] at hfail
        cases hfail
      · have hct : w.ct = k.table.ct := by
          rcases hprogress with ⟨-, hct, -⟩ | ⟨hone, -⟩
          · exact hct
          · rw [hbefore 1 (Nat.le_refl _) hone] at hfail1
            cases hfail1
        refine ⟨?_, ?_⟩
        · simp only [Kernel.writeLock, Kernel.writeUnlock, Kernel.setCt]
          omega
        · intro r hr
          change (w.ct r).query = 0
          rw [hct]
          exact hunmarked r hr

theorem restored_iff_harmless (s : Settings) (alloc : ℕ → Bool) (k : Kernel) (q : Query) :
    Restored k (urlIoctl s alloc k q) ↔ Harmless s alloc k q := by
  cases q with
  | sessionUpSort =>
    rw [urlIoctl, sessionUpSort, restored_sessionSort, Harmless]
  | sessionDownSort =>
    rw [urlIoctl, sessionDownSort, restored_sessionSort, Harmless]
  | servDownSort =>
    rw [urlIoctl, restored_servDownSort, Harmless]
  | servUpSort =>
    rw [urlIoctl, restored_servUpSort, Harmless]

/-- One TCP connection to a web server, in both its chains. -/
def oneSession : Kernel where
  table :=
    { hash := [[0], [0]]
      ct := fun _ => ⟨⟨0xc0a80164, 40000, 0xcb007105, 80, 6⟩,
        ⟨0xcb007105, 80, 0xc6336401, 40000, 6⟩, 0, 1000, 2000⟩ }
  taken := 0
  released := 0

/-- There is room for the answer and none for a service: the lock stays taken. -/
theorem failed_serv_down_sort_keeps_lock :
    ¬ ∀ q, Restored oneSession
      (urlIoctl ⟨1, 0xc0a80101, []⟩ (fun n => n == 0) oneSession q) := by
  intro h
  have hreturned : Restored oneSession (.returned oneSession.writeLock) := h .servDownSort
  exact absurd ((restored_returned _ _).mp hreturned).1 (by decide)

end StatisticsQueries
