import RouterFirmware.DeltaCount
import RouterFirmware.StatisticsQueries
import RouterFirmware.TopSelection

/-! # The first twenty

Six queries of `url_ioctl` sort sessions, services or hosts by their bytes. Each looks for the most
bytes below those of the entry found last, twenty times. The bound starts with the largest number,
for services and hosts with the largest one of 32 bits.
-/
namespace TopEntries

open DeltaCount (SmartQosIp)
open StatisticsQueries
open TopSelection

/-! ## Hosts -/

structure IpSort where
  deltaByteCnt : UInt64
  ip : UInt32
  deriving DecidableEq

/-- The `ip_list` of a query, none when `kmalloc` fails. -/
def buildIps (bw : SmartQosIp → UInt64) (alloc : ℕ → Bool) :
    ℕ → List IpSort → List SmartQosIp → Option (List IpSort)
  | _, l, [] => some l
  | m, l, e :: qos =>
    if 0 < e.ip then
      if alloc m then buildIps bw alloc (m + 1) (⟨bw e, e.ip⟩ :: l) qos else none
    else buildIps bw alloc m l qos

def sortIps (l : List IpSort) : List IpSort :=
  sortEntries IpSort.deltaByteCnt id ⟨0, 0⟩ l sortingEntry 0xffffffff

inductive IpResult where
  /-- A null pointer was written to. -/
  | crashed
  | ips (shown : List IpSort)
  /-- It returned without an answer. -/
  | returned

/-- The common text of the two host queries. The first `kmalloc` is for the answer. -/
def ipSort (bw : SmartQosIp → UInt64) (alloc : ℕ → Bool) (nkSmartQosIpList : List SmartQosIp) :
    IpResult :=
  match buildIps bw alloc 1 [] nkSmartQosIpList with
  | none => .returned
  | some l => if alloc 0 then .ips (sortIps l) else .crashed

def ipDownSort : (ℕ → Bool) → List SmartQosIp → IpResult := ipSort SmartQosIp.downBw

def ipUpSort : (ℕ → Bool) → List SmartQosIp → IpResult := ipSort SmartQosIp.upBw

/-! ## The six queries -/

inductive SortQuery where
  | sessionUp
  | sessionDown
  | servDown
  | servUp
  | ipDown
  | ipUp

/-- The entries that a query sorts; sessions are found by their connection. -/
abbrev SortQuery.Entry : SortQuery → Type
  | sessionUp | sessionDown => ℕ
  | servDown | servUp => ServiceSort
  | ipDown | ipUp => IpSort

def SortQuery.bytes (ct : ℕ → Conntrack) : (q : SortQuery) → q.Entry → UInt64
  | sessionUp => fun r => (ct r).upBytesDelta
  | sessionDown => fun r => (ct r).downBytesDelta
  | servDown | servUp => ServiceSort.deltaByteCnt
  | ipDown | ipUp => IpSort.deltaByteCnt

def toService (row : UInt64 × UInt8 × UInt16) : ServiceSort := ⟨row.1, row.2.1, row.2.2⟩

/-- The entries that a query returns of its list, less the rows that stay zero. -/
def SortQuery.returned (ct : ℕ → Conntrack) : (q : SortQuery) → List q.Entry → List q.Entry
  | sessionUp => fun l =>
    sortTraffic (fun r => (ct r).upBytesDelta) l sortingEntry 0xffffffffffffffff
  | sessionDown => fun l =>
    sortTraffic (fun r => (ct r).downBytesDelta) l sortingEntry 0xffffffffffffffff
  | servDown | servUp => fun l =>
    ((sortServices l).filter fun row => row.1 ≠ 0).map toService
  | ipDown | ipUp => fun l => (sortIps l).filter fun e => e.deltaByteCnt ≠ 0

def SortQuery.bound : SortQuery → ℕ
  | sessionUp | sessionDown => 2 ^ 64 - 1
  | servDown | servUp | ipDown | ipUp => 2 ^ 32 - 1

section Loops

variable {α β : Type} {bytes : α → UInt64} {l : List α}

theorem pickSession_eq (bytes : ℕ → UInt64) (l : List ℕ) (preMax : UInt64) :
    (pickSession bytes l preMax).1 = (pick (fun r => (bytes r).toNat) preMax.toNat l).1 ∧
      (pickSession bytes l preMax).2.toNat =
        (pick (fun r => (bytes r).toNat) preMax.toNat l).2 := by
  induction l using List.reverseRecOn with
  | nil => exact ⟨rfl, rfl⟩
  | append_singleton l x ih =>
    have hcons : pickSession bytes (l ++ [x]) preMax =
        if (pickSession bytes l preMax).2 < bytes x ∧ bytes x < preMax then (some x, bytes x)
        else pickSession bytes l preMax := List.foldl_concat _ _ _ _
    rw [hcons, pick_append, ← ih.2]
    simp only [UInt64.lt_iff_toNat_lt]
    split
    · exact ⟨rfl, rfl⟩
    · exact ih

/-- The sessions are selected below the largest number of 64 bits. -/
theorem sortTraffic_eq (bytes : ℕ → UInt64) (l : List ℕ) (n : ℕ) (preMax : UInt64) :
    sortTraffic bytes l n preMax = select (fun r => (bytes r).toNat) n preMax.toNat l := by
  induction n generalizing preMax with
  | zero => rfl
  | succ n ih =>
    obtain ⟨hitem, hmax⟩ := pickSession_eq bytes l preMax
    obtain ⟨-, ⟨hnone, -⟩ | ⟨x, -, hsome, hcount, -⟩⟩ :=
      pick_spec (fun r => (bytes r).toNat) preMax.toNat l
    · have hfirst : pickSession bytes l preMax = (none, (pickSession bytes l preMax).2) :=
        Prod.ext (hitem.trans hnone) rfl
      rw [sortTraffic, select, hnone, hfirst]
    · have hfirst : pickSession bytes l preMax = (some x, bytes x) := by
        refine Prod.ext (hitem.trans hsome) ?_
        exact UInt64.toNat_inj.mp (hmax.trans hcount)
      rw [sortTraffic, select, hsome, hfirst]
      exact congrArg (x :: ·) (ih (bytes x))

theorem pickEntry_eq (bytes : α → UInt64) (l : List α) (preMax : UInt32) :
    (pickEntry bytes l preMax).1 = (pick (fun e => (bytes e).toNat) preMax.toNat l).1 ∧
      (pickEntry bytes l preMax).2.toNat =
        (pick (fun e => (bytes e).toNat) preMax.toNat l).2 := by
  induction l using List.reverseRecOn with
  | nil => exact ⟨rfl, rfl⟩
  | append_singleton l x ih =>
    have hcons : pickEntry bytes (l ++ [x]) preMax =
        if (pickEntry bytes l preMax).2.toUInt64 < bytes x ∧ bytes x < preMax.toUInt64 then
          (some x, (bytes x).toUInt32)
        else pickEntry bytes l preMax := List.foldl_concat _ _ _ _
    rw [hcons, pick_append, ← ih.2]
    simp only [UInt64.lt_iff_toNat_lt, UInt32.toNat_toUInt64]
    split
    · next h =>
      refine ⟨rfl, ?_⟩
      rw [UInt64.toNat_toUInt32]
      exact Nat.mod_eq_of_lt (h.2.trans preMax.toNat_lt)
    · exact ih

/-- The rows of services and hosts are a selection below the largest number of 32 bits, and
zeros behind it. -/
theorem sortEntries_eq (bytes : α → UInt64) (shown : α → β) (zero : β) (l : List α) (n : ℕ)
    (preMax : UInt32) :
    ∃ k, sortEntries bytes shown zero l n preMax =
      (select (fun e => (bytes e).toNat) n preMax.toNat l).map shown ++ List.replicate k zero := by
  induction n generalizing preMax with
  | zero => exact ⟨0, rfl⟩
  | succ n ih =>
    obtain ⟨hitem, hmax⟩ := pickEntry_eq bytes l preMax
    obtain ⟨-, ⟨hnone, -⟩ | ⟨x, -, hsome, hcount, -⟩⟩ :=
      pick_spec (fun e => (bytes e).toNat) preMax.toNat l
    · have hfirst : pickEntry bytes l preMax = (none, (pickEntry bytes l preMax).2) :=
        Prod.ext (hitem.trans hnone) rfl
      obtain ⟨k, hk⟩ := ih preMax
      have hrest : select (fun e => (bytes e).toNat) n preMax.toNat l = [] := by
        cases n with
        | zero => rfl
        | succ n => rw [select, hnone]
      rw [sortEntries, select, hnone, hfirst]
      refine ⟨k + 1, ?_⟩
      rw [hrest] at hk
      dsimp only
      rw [hk]
      rfl
    · have hfirst : pickEntry bytes l preMax = (some x, (pickEntry bytes l preMax).2) :=
        Prod.ext (hitem.trans hsome) rfl
      obtain ⟨k, hk⟩ := ih (pickEntry bytes l preMax).2
      rw [sortEntries, select, hsome, hfirst]
      refine ⟨k, ?_⟩
      dsimp only
      rw [hk, hmax, hcount]
      rfl

theorem filter_sortEntries (shownBytes : β → UInt64) (shown : α → β) (zero : β) (l : List α)
    (hshown : ∀ e, shownBytes (shown e) = bytes e) (hzero : shownBytes zero = 0) (n : ℕ)
    (preMax : UInt32) :
    (sortEntries bytes shown zero l n preMax).filter (fun row => shownBytes row ≠ 0) =
      (select (fun e => (bytes e).toNat) n preMax.toNat l).map shown := by
  obtain ⟨k, hk⟩ := sortEntries_eq bytes shown zero l n preMax
  have hpos : ∀ e ∈ select (fun e => (bytes e).toNat) n preMax.toNat l, bytes e ≠ 0 := by
    intro e he
    have hspec := select_spec (fun e => (bytes e).toNat) n preMax.toNat l
    have hin := (mem_inside.mp (hspec.1 e he)).2.1
    intro h
    rw [h] at hin
    exact absurd hin (by decide)
  rw [hk, List.filter_append, List.filter_eq_self.mpr, List.filter_eq_nil_iff.mpr,
    List.append_nil]
  · intro row hrow
    rw [List.eq_of_mem_replicate hrow]
    simpa using hzero
  · intro row hrow
    obtain ⟨e, he, rfl⟩ := List.mem_map.mp hrow
    simpa [hshown] using hpos e he

end Loops

theorem returned_services (l : List ServiceSort) :
    ((sortServices l).filter fun row => row.1 ≠ 0).map toService =
      select (fun e => e.deltaByteCnt.toNat) sortingEntry (2 ^ 32 - 1) l := by
  have hrows := filter_sortEntries Prod.fst
    (fun e : ServiceSort => (e.deltaByteCnt, e.proto, e.portNum)) (0, 0, 0) l (fun _ => rfl) rfl
    sortingEntry 0xffffffff
  rw [sortServices, hrows, List.map_map]
  exact List.map_id _

theorem returned_ips (l : List IpSort) : (sortIps l).filter (fun e => e.deltaByteCnt ≠ 0) =
    select (fun e => e.deltaByteCnt.toNat) sortingEntry (2 ^ 32 - 1) l := by
  have hrows := filter_sortEntries IpSort.deltaByteCnt id ⟨0, 0⟩ l (fun _ => rfl) rfl
    sortingEntry 0xffffffff
  rw [List.map_id] at hrows
  exact hrows

/-- Each query selects among the entries of its list. -/
theorem returned_eq (ct : ℕ → Conntrack) (q : SortQuery) (l : List q.Entry) :
    q.returned ct l = select (fun e => (q.bytes ct e).toNat) sortingEntry q.bound l := by
  cases q with
  | sessionUp => exact sortTraffic_eq (fun r => (ct r).upBytesDelta) l sortingEntry _
  | sessionDown => exact sortTraffic_eq (fun r => (ct r).downBytesDelta) l sortingEntry _
  | servDown => exact returned_services l
  | servUp => exact returned_services l
  | ipDown => exact returned_ips l
  | ipUp => exact returned_ips l

/-- Which lists a query returns the first twenty of: no entry reaches the bound, and in front of
two entries with the same bytes there are nineteen with more. -/
theorem returned_isTop_iff (ct : ℕ → Conntrack) (q : SortQuery) (l : List q.Entry) :
    IsTop (fun e => (q.bytes ct e).toNat) sortingEntry l (q.returned ct l) ↔
      Distinct (fun e => (q.bytes ct e).toNat) sortingEntry q.bound l := by
  rw [returned_eq]
  exact select_isTop_iff (by decide) (by cases q <;> decide)

/-! ## The answers -/

theorem sessionSort_rows {bytes : Conntrack → UInt64} {shown : Conntrack → UInt64 × UInt64}
    {s : Settings} {alloc : ℕ → Bool} {k k' : Kernel} {rows : List IpSession}
    (h : sessionSort bytes shown s alloc k = .sessions k' rows) :
    ∃ (ct : ℕ → Conntrack) (l : List ℕ) (m : ℕ),
      rows = (sortTraffic (fun r => bytes (ct r)) l sortingEntry 0xffffffffffffffff).map
        (fun r => showSession s (ct r) (shown (ct r)).1 (shown (ct r)).2) ++
          List.replicate m .zero := by
  rw [sessionSort] at h
  split at h
  · exact Result.noConfusion h
  · split at h
    · exact Result.noConfusion h
    · cases h
      exact ⟨_, _, _, rfl⟩

theorem sessions_returned {s : Settings} {alloc : ℕ → Bool} {k k' : Kernel}
    {rows : List IpSession} :
    (sessionUpSort s alloc k = .sessions k' rows → ∃ ct l m, rows =
      (SortQuery.sessionUp.returned ct l).map
        (fun r => showSession s (ct r) (ct r).upBytesDelta (ct r).upBytesDelta) ++
          List.replicate m .zero) ∧
    (sessionDownSort s alloc k = .sessions k' rows → ∃ ct l m, rows =
      (SortQuery.sessionDown.returned ct l).map
        (fun r => showSession s (ct r) 0 (ct r).downBytesDelta) ++ List.replicate m .zero) :=
  ⟨sessionSort_rows, sessionSort_rows⟩

theorem services_returned {alloc : ℕ → Bool} {w : ServiceWalk} {k k' : Kernel}
    {rows : List (UInt64 × UInt8 × UInt16)} (h : showServices alloc w k = .services k' rows)
    (ct : ℕ → Conntrack) : (rows.filter fun row => row.1 ≠ 0).map toService =
      SortQuery.servDown.returned ct w.serviceList := by
  rw [showServices] at h
  split at h
  · exact Result.noConfusion h
  · cases h
    rfl

theorem ips_returned {bw : SmartQosIp → UInt64} {alloc : ℕ → Bool} {qos : List SmartQosIp}
    {rows : List IpSort} (h : ipSort bw alloc qos = .ips rows) (ct : ℕ → Conntrack) :
    ∃ l, buildIps bw alloc 1 [] qos = some l ∧
      (rows.filter fun e => e.deltaByteCnt ≠ 0) = SortQuery.ipDown.returned ct l := by
  rw [ipSort] at h
  split at h
  · exact IpResult.noConfusion h
  · next l hl =>
    split at h
    · cases h
      exact ⟨l, hl, rfl⟩
    · exact IpResult.noConfusion h

/-- Of two hosts with the same bytes, one is lost. -/
theorem equal_host_lost : ¬ ∀ ct q l,
    IsTop (fun e => (SortQuery.bytes ct q e).toNat) sortingEntry l (q.returned ct l) := by
  intro h
  obtain ⟨rest, -, hlen, -⟩ := h (fun _ => ⟨⟨0, 0, 0, 0, 0⟩, ⟨0, 0, 0, 0, 0⟩, 0, 0, 0⟩) .ipDown
    [⟨1000, 0xC0A80164⟩, ⟨1000, 0xC0A80165⟩]
  exact absurd hlen (by decide +kernel)

end TopEntries
