import Mathlib.Algebra.BigOperators.Group.List.Basic
import Mathlib.Algebra.Order.Ring.Nat
import Mathlib.Data.List.Induction
import Mathlib.Data.UInt
import RouterFirmware.StatisticsQueries

/-! # The totals of the services

`SIOCGETSERVDOWNSORT` adds the bytes of a connection to the entry of its destination port. A new
entry gets the source port from the first forwarded connection on, so that entries may be taken
for others, or not be found again.
-/
namespace ServiceTotals

open BucketTable StatisticsQueries

abbrev Pair := UInt16 × UInt8

def pair (e : ServiceSort) : Pair := (e.portNum, e.proto)

def lookupPair (c : Conntrack) : Pair := (c.original.dstPort, c.original.protonum)

def entryFor (s : Settings) (serviceList : List ServiceSort) (forwarding : Bool) (c : Conntrack) :
    Pair :=
  if serviceList.any (sameService c) then lookupPair c
  else (downQuery.portNum (downQuery.direction s forwarding c) c, c.original.protonum)

/-- The counted connections, each with the service of its entry. -/
def attributed (s : Settings) : ServiceWalk → List ℕ → List (Conntrack × Pair)
  | _, [] => []
  | w, r :: nodes =>
    let rest := attributed s (countService downQuery s w r) nodes
    if counted s (w.ct r) then
      (w.ct r, entryFor s w.serviceList w.forwarding (w.ct r)) :: rest
    else rest

/-- The service of a connection that is alone in the table. -/
def ownPair (s : Settings) (c : Conntrack) : Pair := entryFor s [] false c

def serviceList (s : Settings) (k : Kernel) : List ServiceSort :=
  (k.table.nodes.foldl (countService downQuery s) (startWalk k)).serviceList

/-- The connections that the query counts, in the order of its walk. -/
def countedBy (s : Settings) (k : Kernel) : List Conntrack :=
  (attributed s (startWalk k) k.table.nodes).map Prod.fst

/-- There is one entry for a service, each connection is in the one that it has alone, and no byte
is lost. -/
structure Aggregates (s : Settings) (k : Kernel) : Prop where
  once : ((serviceList s k).map pair).Nodup
  own : ∀ a ∈ attributed s (startWalk k) k.table.nodes, a.2 = ownPair s a.1
  sums : ((serviceList s k).map fun e => e.deltaByteCnt.toNat).sum =
    ((countedBy s k).map fun c => c.downBytesDelta.toNat).sum

def Forwarded (s : Settings) (c : Conntrack) : Prop := ofWanArrays s c.reply.srcIp = true

instance (s : Settings) (c : Conntrack) : Decidable (Forwarded s c) :=
  inferInstanceAs (Decidable (_ = true))

/-- The connection gets its source port, which is not what it is looked up by. -/
def Turned (s : Settings) (c : Conntrack) : Prop :=
  Forwarded s c ∧ c.original.srcPort ≠ c.original.dstPort

/-- The first of the connections of some service is a forwarded one. -/
def Opened (s : Settings) (l : List Conntrack) : Prop :=
  ∃ pre a post, l = pre ++ a :: post ∧ Forwarded s a ∧ ∀ b ∈ pre, ownPair s b ≠ ownPair s a

/-- The connections do not get in each other's way. -/
structure Unmixed (s : Settings) (l : List Conntrack) : Prop where
  turned : ∀ pre c post, l = pre ++ c :: post → Turned s c →
    ∀ a ∈ pre, ownPair s a ≠ lookupPair c ∧ ownPair s a ≠ ownPair s c
  plain : ∀ pre c post, l = pre ++ c :: post → ¬ Forwarded s c →
    c.original.srcPort ≠ c.original.dstPort →
      (∃ a ∈ pre, ownPair s a = ownPair s c) ∨ ¬ Opened s pre
  fits : ∀ p, ((l.filter fun c => ownPair s c = p).map fun c => c.downBytesDelta.toNat).sum < 2 ^ 64

/-! ## The walk over the connections -/

def addService (s : Settings) (w : List ServiceSort × Bool) (c : Conntrack) :
    List ServiceSort × Bool :=
  if w.1.any (sameService c) then
    (modifyFirst (sameService c)
      (fun e => { e with deltaByteCnt := e.deltaByteCnt + c.downBytesDelta }) w.1, w.2)
  else
    (⟨c.downBytesDelta, c.original.protonum,
      downQuery.portNum (downQuery.direction s w.2 c) c⟩ :: w.1, downQuery.direction s w.2 c)

def walk (s : Settings) (l : List Conntrack) : List ServiceSort × Bool :=
  l.foldl (addService s) ([], false)

section Walk

variable {s : Settings} {k : Kernel} {l : List Conntrack} {c : Conntrack} {p : Pair}

theorem countService_eq (s : Settings) (w : ServiceWalk) (r : ℕ) :
    ((countService downQuery s w r).serviceList, (countService downQuery s w r).forwarding) =
      if counted s (w.ct r) then addService s (w.serviceList, w.forwarding) (w.ct r)
      else (w.serviceList, w.forwarding) := by
  rw [countService, addService]
  by_cases hc : counted s (w.ct r)
  · rw [if_neg (not_not.mpr hc), if_pos hc]
    dsimp only
    split <;> rfl
  · rw [if_pos hc, if_neg hc]

/-- The query's walk is the walk over the connections that it counts. -/
theorem foldl_countService (s : Settings) (nodes : List ℕ) (w : ServiceWalk) :
    ((nodes.foldl (countService downQuery s) w).serviceList,
      (nodes.foldl (countService downQuery s) w).forwarding) =
    ((attributed s w nodes).map Prod.fst).foldl (addService s) (w.serviceList, w.forwarding) := by
  induction nodes generalizing w with
  | nil => rfl
  | cons r nodes ih =>
    rw [List.foldl_cons, ih, countService_eq, attributed]
    split
    · rfl
    · rfl

theorem serviceList_eq (s : Settings) (k : Kernel) :
    serviceList s k = (walk s (countedBy s k)).1 :=
  congrArg Prod.fst (foldl_countService s k.table.nodes (startWalk k))

theorem countService_ct (s : Settings) (w : ServiceWalk) (r : ℕ) :
    (countService downQuery s w r).ct =
      if counted s (w.ct r) then Function.update w.ct r { w.ct r with query := 1 } else w.ct := by
  rw [countService]
  by_cases hc : counted s (w.ct r)
  · rw [if_neg (not_not.mpr hc), if_pos hc]
    dsimp only
    split <;> rfl
  · rw [if_pos hc, if_neg hc]

theorem not_counted_marked (s : Settings) (c : Conntrack) : ¬ counted s { c with query := 1 } := by
  rintro ⟨hquery, -⟩
  cases hquery

/-- The mark keeps a connection from being counted again where it stands in the table a second
time. -/
theorem attributed_nodes (s : Settings) (nodes : List ℕ) (w : ServiceWalk) :
    ∃ rs : List ℕ, (attributed s w nodes).map Prod.fst = rs.map w.ct ∧ rs.Nodup ∧
      ∀ r, r ∈ rs ↔ r ∈ nodes ∧ counted s (w.ct r) := by
  induction nodes generalizing w with
  | nil => exact ⟨[], rfl, List.nodup_nil, by simp⟩
  | cons r nodes ih =>
    obtain ⟨rs, hrs, hnodup, hmem⟩ := ih (countService downQuery s w r)
    rw [countService_ct] at hrs hmem
    rw [attributed]
    split
    · next hc =>
      simp only [if_pos hc] at hrs hmem
      have hout : r ∉ rs := fun hr => by
        have h := ((hmem r).mp hr).2
        rw [Function.update_self] at h
        exact not_counted_marked s _ h
      refine ⟨r :: rs, ?_, List.nodup_cons.mpr ⟨hout, hnodup⟩, fun r' => ?_⟩
      · rw [List.map_cons, List.map_cons, hrs]
        congr 1
        refine List.map_congr_left fun r' hr' => Function.update_of_ne ?_ ..
        rintro rfl
        exact hout hr'
      · rw [List.mem_cons, List.mem_cons, hmem]
        by_cases hr : r' = r
        · simp [hr, hc]
        · simp [hr]
    · next hc =>
      simp only [if_neg hc] at hrs hmem
      refine ⟨rs, hrs, hnodup, fun r' => ?_⟩
      rw [hmem, List.mem_cons]
      constructor
      · exact fun h => ⟨.inr h.1, h.2⟩
      · rintro ⟨rfl | hr', h⟩
        · exact absurd h hc
        · exact ⟨hr', h⟩

/-- The query counts the unmarked TCP and UDP connections of the table that are not the router's
own, each of them once. -/
theorem countedBy_nodes (s : Settings) (k : Kernel) :
    ∃ rs : List ℕ, countedBy s k = rs.map k.table.ct ∧ rs.Nodup ∧
      ∀ r, r ∈ rs ↔ r ∈ k.table.nodes ∧ counted s (k.table.ct r) :=
  attributed_nodes s k.table.nodes (startWalk k)

theorem walk_append (s : Settings) (l : List Conntrack) (c : Conntrack) :
    walk s (l ++ [c]) = addService s (walk s l) c := List.foldl_concat _ _ _ _

def entriesOf (s : Settings) : List ServiceSort × Bool → List Conntrack → List Pair
  | _, [] => []
  | w, c :: l => entryFor s w.1 w.2 c :: entriesOf s (addService s w c) l

/-- Each connection is added to the entry that it has alone. -/
def Owned (s : Settings) (l : List Conntrack) : Prop :=
  entriesOf s ([], false) l = l.map (ownPair s)

theorem attributed_snd (s : Settings) (nodes : List ℕ) (w : ServiceWalk) :
    (attributed s w nodes).map Prod.snd =
      entriesOf s (w.serviceList, w.forwarding) ((attributed s w nodes).map Prod.fst) := by
  induction nodes generalizing w with
  | nil => rfl
  | cons r nodes ih =>
    have hnext := countService_eq s w r
    rw [attributed]
    split
    · next hc =>
      rw [if_pos hc] at hnext
      simp only [List.map_cons, entriesOf, ← hnext, ih]
    · next hc =>
      rw [if_neg hc] at hnext
      rw [ih, hnext]

theorem own_iff (s : Settings) (k : Kernel) :
    (∀ a ∈ attributed s (startWalk k) k.table.nodes, a.2 = ownPair s a.1) ↔
      Owned s (countedBy s k) := by
  have hentries := attributed_snd s k.table.nodes (startWalk k)
  rw [Owned, countedBy, List.map_map]
  change _ ↔ entriesOf s ((startWalk k).serviceList, (startWalk k).forwarding) _ = _
  rw [← hentries, List.map_inj_left]
  rfl

theorem entriesOf_append (s : Settings) (w : List ServiceSort × Bool) (l : List Conntrack)
    (c : Conntrack) : entriesOf s w (l ++ [c]) = entriesOf s w l ++
      [entryFor s (l.foldl (addService s) w).1 (l.foldl (addService s) w).2 c] := by
  induction l generalizing w with
  | nil => rfl
  | cons a l ih =>
    rw [List.cons_append, entriesOf, ih, entriesOf, List.foldl_cons, List.cons_append]

theorem owned_append : Owned s (l ++ [c]) ↔
    Owned s l ∧ entryFor s (walk s l).1 (walk s l).2 c = ownPair s c := by
  rw [Owned, Owned, entriesOf_append, List.map_append]
  constructor
  · intro h
    obtain ⟨hl, hc⟩ := List.append_inj' h rfl
    exact ⟨hl, List.singleton_inj.mp hc⟩
  · rintro ⟨hl, hc⟩
    rw [hl]
    exact congrArg (fun p => l.map (ownPair s) ++ [p]) hc

theorem any_sameService_iff {serviceList : List ServiceSort} :
    serviceList.any (sameService c) = true ↔ lookupPair c ∈ serviceList.map pair := by
  rw [List.any_eq_true, List.mem_map]
  refine exists_congr fun e => and_congr_right fun _ => ?_
  simp only [sameService, Bool.and_eq_true, beq_iff_eq, lookupPair, pair, Prod.mk.injEq]

/-- A connection leaves the services as they are or brings a new one in front. -/
theorem pairs_append (s : Settings) (l : List Conntrack) (c : Conntrack) :
    (walk s (l ++ [c])).1.map pair =
      if lookupPair c ∈ (walk s l).1.map pair then (walk s l).1.map pair
      else entryFor s (walk s l).1 (walk s l).2 c :: (walk s l).1.map pair := by
  rw [walk_append, addService, entryFor]
  by_cases h : lookupPair c ∈ (walk s l).1.map pair
  · rw [if_pos h, if_pos (any_sameService_iff.mpr h)]
    exact map_modifyFirst (f := fun e : ServiceSort =>
      { e with deltaByteCnt := e.deltaByteCnt + c.downBytesDelta }) (fun _ => rfl) _
  · rw [if_neg h, if_neg fun h' => h (any_sameService_iff.mp h'),
      if_neg fun h' => h (any_sameService_iff.mp h')]
    rfl

theorem mem_pairs_iff (h : Owned s l) :
    p ∈ (walk s l).1.map pair ↔ ∃ a ∈ l, ownPair s a = p := by
  induction l using List.reverseRecOn with
  | nil => simp [walk]
  | append_singleton l c ih =>
    obtain ⟨hl, hc⟩ := owned_append.mp h
    have hsplit : (∃ a ∈ l ++ [c], ownPair s a = p) ↔
        (∃ a ∈ l, ownPair s a = p) ∨ ownPair s c = p := by
      simp only [List.mem_append, List.mem_singleton, or_and_right, exists_or, exists_eq_left]
    rw [hsplit, ← ih hl, pairs_append, hc]
    split
    · next hin =>
      have hlookup : ownPair s c = lookupPair c := by
        rw [← hc, entryFor, if_pos (any_sameService_iff.mpr hin)]
      rw [hlookup]
      refine ⟨.inl, fun h => h.elim id fun heq => heq ▸ hin⟩
    · rw [List.mem_cons, eq_comm, or_comm]

theorem ownPair_eq (s : Settings) (c : Conntrack) : ownPair s c =
    (if Forwarded s c then c.original.srcPort else c.original.dstPort, c.original.protonum) := by
  by_cases h : ofWanArrays s c.reply.srcIp = true
  · simp [ownPair, entryFor, downQuery, Forwarded, h]
  · simp [ownPair, entryFor, downQuery, Forwarded, h]

theorem ownPair_eq_lookupPair_iff : ownPair s c = lookupPair c ↔ ¬ Turned s c := by
  rw [ownPair_eq, lookupPair, Turned]
  by_cases h : Forwarded s c
  · simp [h]
  · simp [h]

theorem opened_append : Opened s (l ++ [c]) ↔
    Opened s l ∨ (Forwarded s c ∧ ∀ a ∈ l, ownPair s a ≠ ownPair s c) := by
  constructor
  · intro h
    obtain ⟨pre, a, post, hl, hfwd, hfirst⟩ := h
    rcases List.eq_nil_or_concat' post with rfl | ⟨post, b, rfl⟩
    · obtain ⟨rfl, hc⟩ := List.append_inj' hl rfl
      obtain rfl : c = a := List.singleton_inj.mp hc
      exact .inr ⟨hfwd, hfirst⟩
    · rw [← List.cons_append, ← List.append_assoc] at hl
      exact .inl ⟨pre, a, post, (List.append_inj' hl rfl).1, hfwd, hfirst⟩
  · rintro (⟨pre, a, post, rfl, hfwd, hfirst⟩ | ⟨hfwd, hfirst⟩)
    · exact ⟨pre, a, post ++ [c], by simp, hfwd, hfirst⟩
    · exact ⟨l, c, [], rfl, hfwd, hfirst⟩

/-- Each connection is added to the entry that it has alone, and there is one for a service. -/
def Kept (s : Settings) (l : List Conntrack) : Prop :=
  Owned s l ∧ ((walk s l).1.map pair).Nodup

theorem kept_append : Kept s (l ++ [c]) ↔ Kept s l ∧
    entryFor s (walk s l).1 (walk s l).2 c = ownPair s c ∧
      (lookupPair c ∈ (walk s l).1.map pair ∨ ownPair s c ∉ (walk s l).1.map pair) := by
  rw [Kept, Kept, owned_append, pairs_append]
  by_cases hin : lookupPair c ∈ (walk s l).1.map pair
  · simp only [hin, if_true, true_or, and_true]
    exact and_right_comm
  · rw [if_neg hin, List.nodup_cons, or_iff_right hin]
    constructor
    · rintro ⟨⟨hl, hc⟩, hnew, hnodup⟩
      exact ⟨⟨hl, hnodup⟩, hc, hc ▸ hnew⟩
    · rintro ⟨⟨hl, hnodup⟩, hc, hnew⟩
      exact ⟨⟨hl, hc⟩, hc ▸ hnew, hnodup⟩

/-- `sdir` is set by the forwarded connections that bring an entry. -/
theorem forwarding_iff (h : Kept s l) : (walk s l).2 = true ↔ Opened s l := by
  induction l using List.reverseRecOn with
  | nil =>
    refine iff_of_false Bool.false_ne_true fun h => ?_
    obtain ⟨pre, a, post, hl, -⟩ := h
    exact absurd hl.symm (by simp)
  | append_singleton l c ih =>
    obtain ⟨hl, hc, hnew⟩ := kept_append.mp h
    rw [opened_append, ← ih hl, walk_append, addService]
    by_cases hin : lookupPair c ∈ (walk s l).1.map pair
    · have hlookup : ownPair s c = lookupPair c := by
        rw [← hc, entryFor, if_pos (any_sameService_iff.mpr hin)]
      obtain ⟨a, ha, heq⟩ := (mem_pairs_iff hl.1).mp hin
      rw [if_pos (any_sameService_iff.mpr hin)]
      refine (or_iff_left fun h => ?_).symm
      exact h.2 a ha (heq.trans hlookup.symm)
    · rw [if_neg fun h' => hin (any_sameService_iff.mp h')]
      dsimp only [downQuery]
      rw [Bool.or_eq_true]
      refine or_congr_right ⟨fun hfwd => ⟨hfwd, fun a ha heq => ?_⟩, fun h => h.1⟩
      exact hnew.resolve_left hin ((mem_pairs_iff hl.1).mpr ⟨a, ha, heq⟩)

/-- When the next connection keeps the services apart. -/
theorem step_iff (h : Kept s l) :
    (entryFor s (walk s l).1 (walk s l).2 c = ownPair s c ∧
      (lookupPair c ∈ (walk s l).1.map pair ∨ ownPair s c ∉ (walk s l).1.map pair)) ↔
    (Turned s c → ∀ a ∈ l, ownPair s a ≠ lookupPair c ∧ ownPair s a ≠ ownPair s c) ∧
      (¬ Forwarded s c → c.original.srcPort ≠ c.original.dstPort →
        (∃ a ∈ l, ownPair s a = ownPair s c) ∨ ¬ Opened s l) := by
  have hmem : ∀ p, p ∉ (walk s l).1.map pair ↔ ∀ a ∈ l, ownPair s a ≠ p := by
    intro p
    rw [mem_pairs_iff h.1]
    simp only [not_exists, not_and, ne_eq]
  by_cases hturned : Turned s c
  · have hne : lookupPair c ≠ ownPair s c := fun heq =>
      (ownPair_eq_lookupPair_iff.mp heq.symm) hturned
    have hfwd : ¬ ¬ Forwarded s c := not_not.mpr hturned.1
    have hboth : (∀ a ∈ l, ownPair s a ≠ lookupPair c ∧ ownPair s a ≠ ownPair s c) ↔
        lookupPair c ∉ (walk s l).1.map pair ∧ ownPair s c ∉ (walk s l).1.map pair := by
      rw [hmem, hmem]
      exact ⟨fun h => ⟨fun a ha => (h a ha).1, fun a ha => (h a ha).2⟩,
        fun h a ha => ⟨h.1 a ha, h.2 a ha⟩⟩
    simp only [hturned, hfwd, false_implies, true_implies, and_true, hboth]
    constructor
    · rintro ⟨hentry, hnew⟩
      have hout : lookupPair c ∉ (walk s l).1.map pair := by
        intro hin
        rw [entryFor, if_pos (any_sameService_iff.mpr hin)] at hentry
        exact hne hentry
      exact ⟨hout, hnew.resolve_left hout⟩
    · rintro ⟨hout, hnew⟩
      have hown := ownPair_eq s c
      rw [if_pos hturned.1] at hown
      refine ⟨?_, .inr hnew⟩
      have hfwd' : ofWanArrays s c.reply.srcIp = true := hturned.1
      rw [entryFor, if_neg fun h' => hout (any_sameService_iff.mp h'), hown]
      simp [downQuery, hfwd']
  · have hlookup := ownPair_eq_lookupPair_iff.mpr hturned
    simp only [hturned, false_implies, true_and, hlookup, ← mem_pairs_iff h.1]
    by_cases hin : lookupPair c ∈ (walk s l).1.map pair
    · have hentry : entryFor s (walk s l).1 (walk s l).2 c = lookupPair c := by
        rw [entryFor, if_pos (any_sameService_iff.mpr hin)]
      simp only [hin, hentry, true_or, implies_true, and_self]
    · simp only [hin, not_false_eq_true, or_true, and_true, false_or, ← forwarding_iff h]
      rw [entryFor, if_neg fun h' => hin (any_sameService_iff.mp h')]
      by_cases hports : c.original.srcPort = c.original.dstPort
      · refine iff_of_true ?_ fun _ h' => absurd hports h'
        simp [downQuery, lookupPair, hports]
      · have hfwd : ¬ Forwarded s c := fun hf => hturned ⟨hf, hports⟩
        have hfwd' : ofWanArrays s c.reply.srcIp = false := Bool.eq_false_iff.mpr hfwd
        simp only [hfwd, hports, not_false_eq_true, ne_eq, true_implies]
        cases hflag : (walk s l).2 with
        | true => simp [downQuery, lookupPair, hports]
        | false => simp [downQuery, lookupPair, hfwd']

theorem forall_splits_append {P : List Conntrack → Conntrack → Prop} :
    (∀ pre d post, l ++ [c] = pre ++ d :: post → P pre d) ↔
      (∀ pre d post, l = pre ++ d :: post → P pre d) ∧ P l c := by
  constructor
  · refine fun h => ⟨fun pre d post hl => h pre d (post ++ [c]) ?_, h l c [] rfl⟩
    rw [hl, List.append_assoc, List.cons_append]
  · rintro ⟨hl, hc⟩ pre d post heq
    rcases List.eq_nil_or_concat' post with rfl | ⟨post, b, rfl⟩
    · obtain ⟨rfl, hd⟩ := List.append_inj' heq rfl
      obtain rfl : c = d := List.singleton_inj.mp hd
      exact hc
    · rw [← List.cons_append, ← List.append_assoc] at heq
      exact hl pre d post (List.append_inj' heq rfl).1

theorem kept_iff : Kept s l ↔
    (∀ pre c post, l = pre ++ c :: post → Turned s c →
      ∀ a ∈ pre, ownPair s a ≠ lookupPair c ∧ ownPair s a ≠ ownPair s c) ∧
    ∀ pre c post, l = pre ++ c :: post → ¬ Forwarded s c →
      c.original.srcPort ≠ c.original.dstPort →
        (∃ a ∈ pre, ownPair s a = ownPair s c) ∨ ¬ Opened s pre := by
  induction l using List.reverseRecOn with
  | nil =>
    refine iff_of_true ⟨rfl, List.nodup_nil⟩ ⟨?_, ?_⟩
    · intro pre c post hl
      exact absurd hl.symm (by simp)
    · intro pre c post hl
      exact absurd hl.symm (by simp)
  | append_singleton l c ih =>
    rw [kept_append, forall_splits_append, forall_splits_append, and_and_and_comm, ← ih]
    exact and_congr_right step_iff

/-! ### The bytes -/

def total (serviceList : List ServiceSort) (p : Pair) : UInt64 :=
  ((serviceList.filter fun e => pair e = p).map ServiceSort.deltaByteCnt).sum

theorem total_cons (e : ServiceSort) (serviceList : List ServiceSort) (p : Pair) :
    total (e :: serviceList) p =
      (if pair e = p then e.deltaByteCnt else 0) + total serviceList p := by
  rw [total, List.filter_cons]
  by_cases h : pair e = p
  · simp [h, total]
  · simp [h, total]

theorem total_modifyFirst {serviceList : List ServiceSort}
    (h : serviceList.any (sameService c) = true) (b : UInt64) (p : Pair) :
    total (modifyFirst (sameService c)
      (fun e => { e with deltaByteCnt := e.deltaByteCnt + b }) serviceList) p =
      total serviceList p + if lookupPair c = p then b else 0 := by
  induction serviceList with
  | nil => exact absurd h Bool.false_ne_true
  | cons e serviceList ih =>
    rw [modifyFirst]
    by_cases he : sameService c e = true
    · have hpair : pair e = lookupPair c := by
        simpa only [sameService, Bool.and_eq_true, beq_iff_eq, pair, lookupPair,
          Prod.mk.injEq] using he
      rw [if_pos he, total_cons, total_cons]
      change (if pair e = p then e.deltaByteCnt + b else 0) + _ = _
      rw [hpair]
      split
      · ac_rfl
      · simp
    · have hrest : serviceList.any (sameService c) = true := by
        simpa only [List.any_cons, he, Bool.false_or] using h
      rw [if_neg he, total_cons, total_cons, ih hrest]
      ac_rfl

theorem total_walk (h : Owned s l) (p : Pair) : total (walk s l).1 p =
    ((l.filter fun c => ownPair s c = p).map Conntrack.downBytesDelta).sum := by
  induction l using List.reverseRecOn with
  | nil => rfl
  | append_singleton l c ih =>
    obtain ⟨hl, hc⟩ := owned_append.mp h
    have hlast : (([c].filter fun c => ownPair s c = p).map Conntrack.downBytesDelta).sum =
        if ownPair s c = p then c.downBytesDelta else 0 := by
      by_cases hp : ownPair s c = p
      · simp [hp]
      · simp [hp]
    rw [List.filter_append, List.map_append, List.sum_append, hlast, ← ih hl, walk_append,
      addService]
    by_cases hin : (walk s l).1.any (sameService c) = true
    · rw [entryFor, if_pos hin] at hc
      rw [if_pos hin, total_modifyFirst hin, hc]
    · rw [entryFor, if_neg hin] at hc
      rw [if_neg hin, total_cons, UInt64.add_comm, ← hc]
      rfl

theorem toNat_sum (l : List Conntrack) : (l.map Conntrack.downBytesDelta).sum.toNat =
    (l.map fun c => c.downBytesDelta.toNat).sum % 2 ^ 64 := by
  induction l with
  | nil => rfl
  | cons c l ih =>
    rw [List.map_cons, List.map_cons, List.sum_cons, List.sum_cons, UInt64.toNat_add, ih]
    omega

/-- With one entry for a service, an entry holds the bytes of its connections. -/
theorem toNat_deltaByteCnt (h : Kept s l) {e : ServiceSort} (he : e ∈ (walk s l).1) :
    e.deltaByteCnt.toNat =
      ((l.filter fun c => ownPair s c = pair e).map fun c => c.downBytesDelta.toNat).sum %
        2 ^ 64 := by
  have htotal := total_walk h.1 (pair e)
  obtain ⟨pre, post, hsplit⟩ := List.append_of_mem he
  have hnodup := h.2
  rw [hsplit, List.map_append, List.map_cons, List.nodup_middle, List.nodup_cons,
    ← List.map_append] at hnodup
  have hother : ∀ d ∈ pre ++ post, ¬ pair d = pair e :=
    fun d hd heq => hnodup.1 (heq ▸ List.mem_map_of_mem hd)
  have hpre : pre.filter (fun d => pair d = pair e) = [] := by
    apply List.filter_eq_nil_iff.mpr
    intro d hd
    simpa using hother d (List.mem_append_left _ hd)
  have hpost : post.filter (fun d => pair d = pair e) = [] := by
    apply List.filter_eq_nil_iff.mpr
    intro d hd
    simpa using hother d (List.mem_append_right _ hd)
  have hone : (walk s l).1.filter (fun d => pair d = pair e) = [e] := by
    rw [hsplit, List.filter_append, hpre]
    simp [hpost]
  rw [total, hone, List.map_singleton, List.sum_singleton] at htotal
  rw [htotal, toNat_sum]

theorem sum_ite_eq {P : List Pair} (hnodup : P.Nodup) (hp : p ∈ P) (b : ℕ) :
    (P.map fun q => if p = q then b else 0).sum = b := by
  induction P with
  | nil => exact absurd hp List.not_mem_nil
  | cons q P ih =>
    obtain ⟨hq, hnodup⟩ := List.nodup_cons.mp hnodup
    rw [List.map_cons, List.sum_cons]
    rcases List.mem_cons.mp hp with rfl | hp
    · have hzero : (P.map fun q => if p = q then b else 0) = P.map fun _ => 0 := by
        apply List.map_congr_left
        intro q hin
        have hne : p ≠ q := fun heq => hq (heq ▸ hin)
        exact if_neg hne
      rw [if_pos rfl, hzero]
      simp
    · have hne : p ≠ q := fun heq => hq (heq ▸ hp)
      rw [if_neg hne, ih hnodup hp, Nat.zero_add]

theorem sum_groups {P : List Pair} (hnodup : P.Nodup) (hl : ∀ c ∈ l, ownPair s c ∈ P)
    (b : Conntrack → ℕ) :
    (P.map fun p => ((l.filter fun c => ownPair s c = p).map b).sum).sum = (l.map b).sum := by
  induction l with
  | nil => simp
  | cons c l ih =>
    have hcons : ∀ p, (((c :: l).filter fun c => ownPair s c = p).map b).sum =
        (if ownPair s c = p then b c else 0) +
          ((l.filter fun c => ownPair s c = p).map b).sum := by
      intro p
      by_cases hp : ownPair s c = p
      · simp [hp]
      · simp [hp]
    simp only [hcons, List.sum_map_add]
    rw [sum_ite_eq hnodup (hl c List.mem_cons_self),
      ih fun d hd => hl d (List.mem_cons_of_mem _ hd), List.map_cons, List.sum_cons]

theorem sum_mod_eq_iff (P : List Pair) (g : Pair → ℕ) (m : ℕ) :
    (P.map fun p => g p % m).sum = (P.map g).sum ↔ ∀ p ∈ P, g p % m = g p := by
  have hle : ∀ P : List Pair, (P.map fun p => g p % m).sum ≤ (P.map g).sum := by
    intro P
    induction P with
    | nil => exact Nat.le_refl _
    | cons p P ih =>
      have hp := Nat.mod_le (g p) m
      simp only [List.map_cons, List.sum_cons]
      omega
  induction P with
  | nil => simp
  | cons p P ih =>
    have hp := Nat.mod_le (g p) m
    have hP := hle P
    have hsplit : (∀ q ∈ p :: P, g q % m = g q) ↔ g p % m = g p ∧ ∀ q ∈ P, g q % m = g q :=
      List.forall_mem_cons
    simp only [List.map_cons, List.sum_cons]
    rw [hsplit]
    constructor
    · intro hsum
      exact ⟨by omega, ih.mp (by omega)⟩
    · rintro ⟨hfirst, hrest⟩
      rw [hfirst, ih.mpr hrest]

/-- No byte is lost exactly if the bytes of each service fit. -/
theorem sums_iff (h : Kept s l) :
    ((walk s l).1.map fun e => e.deltaByteCnt.toNat).sum =
      (l.map fun c => c.downBytesDelta.toNat).sum ↔
    ∀ p, ((l.filter fun c => ownPair s c = p).map fun c => c.downBytesDelta.toNat).sum <
      2 ^ 64 := by
  have hmem : ∀ c ∈ l, ownPair s c ∈ (walk s l).1.map pair :=
    fun c hc => (mem_pairs_iff h.1).mpr ⟨c, hc, rfl⟩
  have hentries : (walk s l).1.map (fun e => e.deltaByteCnt.toNat) = ((walk s l).1.map pair).map
      fun p => ((l.filter fun c => ownPair s c = p).map fun c => c.downBytesDelta.toNat).sum %
        2 ^ 64 := by
    rw [List.map_map]
    exact List.map_congr_left fun e he => toNat_deltaByteCnt h he
  rw [hentries, ← sum_groups h.2 hmem, sum_mod_eq_iff]
  constructor
  · intro hfit p
    by_cases hp : p ∈ (walk s l).1.map pair
    · have hmod := hfit p hp
      rw [← hmod]
      exact Nat.mod_lt _ (by decide)
    · have hnone : l.filter (fun c => ownPair s c = p) = [] := by
        apply List.filter_eq_nil_iff.mpr
        intro c hc heq
        exact hp (of_decide_eq_true heq ▸ hmem c hc)
      rw [hnone]
      decide
  · exact fun hfit p _ => Nat.mod_eq_of_lt (hfit p)

end Walk

/-- When the services of a table are added up. -/
theorem aggregates_iff (s : Settings) (k : Kernel) :
    Aggregates s k ↔ Unmixed s (countedBy s k) := by
  have hlist := serviceList_eq s k
  constructor
  · intro h
    have hkept : Kept s (countedBy s k) := ⟨(own_iff s k).mp h.own, hlist ▸ h.once⟩
    have hsums := h.sums
    rw [hlist] at hsums
    obtain ⟨hturned, hplain⟩ := kept_iff.mp hkept
    exact ⟨hturned, hplain, (sums_iff hkept).mp hsums⟩
  · intro h
    have hkept := kept_iff.mpr ⟨h.turned, h.plain⟩
    refine ⟨?_, (own_iff s k).mpr hkept.1, ?_⟩
    · rw [hlist]
      exact hkept.2
    · rw [hlist]
      exact (sums_iff hkept).mpr h.fits

/-- The list is the one whose first twenty services the query returns when no `kmalloc` fails. -/
theorem servDownSort_eq {alloc : ℕ → Bool} (halloc : ∀ n, alloc n = true) (s : Settings)
    (k : Kernel) : ∃ k', servDownSort s alloc k =
      .services k' (sortServices (serviceList s k)) := by
  obtain ⟨hok, -⟩ | ⟨w, -, -, -, hfail, -⟩ :=
    buildServices_cases downQuery s alloc k.table.nodes (startWalk k)
  · have heq : buildServices downQuery s alloc k.writeLock.table.nodes (startWalk k.writeLock) =
        .ok _ := hok
    unfold servDownSort
    dsimp only
    rw [heq]
    exact ⟨_, if_neg (not_not.mpr (halloc 0))⟩
  · rw [halloc] at hfail
    exact absurd hfail.symm Bool.false_ne_true

/-- A host in the internet that looks at the router, and one of the LAN that looks at a web
server. -/
def remoteAdmin : Kernel where
  table :=
    { hash := [[0], [1], [0], [1]]
      ct := fun r =>
        if r = 0 then
          ⟨⟨0xCB007109, 50000, 0xC6336402, 443, 6⟩, ⟨0xC6336402, 443, 0xCB007109, 50000, 6⟩, 0,
            100, 2000⟩
        else
          ⟨⟨0xC0A80164, 40000, 0xCB007105, 80, 6⟩, ⟨0xCB007105, 80, 0xC6336402, 40000, 6⟩, 0,
            300, 9000⟩ }
  taken := 0
  released := 0

/-- The web server is counted under the port of the host. -/
theorem web_under_source_port : ¬ ∀ s k, Aggregates s k := by
  intro h
  have hown := (h ⟨1, 0xC0A80101, [⟨0xC6336402, [], 0x80400000, 0x80400008⟩]⟩ remoteAdmin).own
  have hall := List.all_eq_true.mpr fun a ha => decide_eq_true (hown a ha)
  exact absurd hall (by decide +kernel)

end ServiceTotals
