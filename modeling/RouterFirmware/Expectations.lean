import RouterFirmware.ConnectionTable
import RouterFirmware.GuardedRun
import Mathlib.Data.List.Nodup

/-! # Expected connections

A connection that a helper watches can expect others: each expectation is a tuple under a mask,
stands in one list and has a timer, and goes when it is met, given up, evicted or out of time.
The timer holds one reference, the list another; the handler of a timer that has run out waits
for the lock before it takes the expectation out. -/
namespace Expectations

open ConnectionTable (Tuple)

/-- `ip_conntrack_expect`, the parts that do not change while it is listed. -/
structure Expect where
  tuple : Tuple
  mask : Tuple
  master : ℕ
  permanent : Bool
  deriving DecidableEq

def ipCtTupleMaskCmp (t tuple mask : Tuple) : Bool :=
  !(((t.srcIp ^^^ tuple.srcIp) &&& mask.srcIp != 0) ||
    ((t.dstIp ^^^ tuple.dstIp) &&& mask.dstIp != 0) ||
    ((t.srcPort ^^^ tuple.srcPort) &&& mask.srcPort != 0) ||
    ((t.dstPort ^^^ tuple.dstPort) &&& mask.dstPort != 0) ||
    ((t.protonum ^^^ tuple.protonum) &&& mask.protonum != 0))

/-- The bits that both masks cover. -/
def intersectMask (a b : Tuple) : Tuple :=
  ⟨a.srcIp &&& b.srcIp, a.srcPort &&& b.srcPort, a.dstIp &&& b.dstIp, a.dstPort &&& b.dstPort,
    a.protonum &&& b.protonum⟩

def expectClash (a b : Expect) : Bool :=
  ipCtTupleMaskCmp a.tuple b.tuple (intersectMask a.mask b.mask)

def expectMatches (a b : Expect) : Bool :=
  a.master = b.master && a.tuple = b.tuple && a.mask = b.mask

/-- `running`: it has run out, and its handler waits for the lock. -/
inductive Timer where
  | idle
  | pending
  | running
  deriving DecidableEq, Repr

/-- Expectations, connections and helpers are told apart by numbers. `list` has the expectation
that came last first; `held` is history, the references that callers hold. -/
structure State where
  list : List ℕ
  expect : ℕ → Expect
  timer : ℕ → Timer
  use : ℕ → ℕ
  expecting : ℕ → ℕ
  helper : ℕ → Option ℕ
  confirmed : ℕ → Bool
  held : ℕ → ℕ

def State.master (s : State) (i : ℕ) : ℕ := (s.expect i).master

/-- `ip_conntrack_expect_put`; an expectation is freed when its count comes to 0. -/
def ipConntrackExpectPut (s : State) (i : ℕ) : State :=
  { s with use := Function.update s.use i (s.use i - 1) }

def ipCtUnlinkExpect (s : State) (i : ℕ) : State :=
  ipConntrackExpectPut { s with
    list := s.list.erase i
    expecting := Function.update s.expecting (s.master i) (s.expecting (s.master i) - 1) } i

/-- `del_timer` that finds the timer pending. -/
def State.stop (s : State) (i : ℕ) : State :=
  { s with timer := Function.update s.timer i .idle }

/-- The timer is stopped, the expectation unlinked, and the reference of the timer given back. -/
def State.drop (s : State) (i : ℕ) : State :=
  ipConntrackExpectPut (ipCtUnlinkExpect (s.stop i) i) i

def expectationTimedOut (s : State) (i : ℕ) : State :=
  ipConntrackExpectPut (ipCtUnlinkExpect (s.stop i) i) i

/-- `__ip_conntrack_expect_find`, which the caller of gets a reference. -/
def ipConntrackExpectFind (s : State) (tuple : Tuple) : State × Option ℕ :=
  match s.list.find? fun i => ipCtTupleMaskCmp tuple (s.expect i).tuple (s.expect i).mask with
  | some i => ({ s with use := Function.update s.use i (s.use i + 1) }, some i)
  | none => (s, none)

/-- The loop of `find_expectation`. The reference of the timer becomes the caller's. -/
def findExpectation (s : State) (tuple : Tuple) : List ℕ → State × Option ℕ
  | [] => (s, none)
  | i :: rest =>
    if ipCtTupleMaskCmp tuple (s.expect i).tuple (s.expect i).mask && s.confirmed (s.master i) then
      if (s.expect i).permanent then
        ({ s with use := Function.update s.use i (s.use i + 1) }, some i)
      else if s.timer i = .pending then (ipCtUnlinkExpect (s.stop i) i, some i)
      else findExpectation s tuple rest
    else findExpectation s tuple rest

def dropIf (p : State → ℕ → Bool) (s : State) (i : ℕ) : State :=
  if p s i = true ∧ s.timer i = .pending then s.drop i else s

def ipCtRemoveExpectations (s : State) (ct : ℕ) : State :=
  if s.expecting ct = 0 then s else s.list.foldl (dropIf fun s i => s.master i = ct) s

/-- Looks for the oldest. -/
def ipConntrackUnexpectRelated (s : State) (exp : Expect) : State :=
  match s.list.reverse.find? fun i =>
    expectMatches (s.expect i) exp && s.timer i = .pending with
  | some i => s.drop i
  | none => s

def evictOldestExpect (s : State) (master : ℕ) : State :=
  match s.list.reverse.find? fun i => s.master i = master with
  | some i => if s.timer i = .pending then s.drop i else s
  | none => s

def ipConntrackExpectInsert (s : State) (i : ℕ) : State :=
  { s with
    use := Function.update s.use i (s.use i + 1 + 1)
    expecting := Function.update s.expecting (s.master i) (s.expecting (s.master i) + 1)
    list := i :: s.list
    timer := Function.update s.timer i .pending }

inductive Answer where
  | ok
  | ebusy
  deriving DecidableEq, Repr

/-- The loop of `ip_conntrack_expect_related`: `none` where it comes to the end. A matching
expectation has its timer started anew, unless it is dying. -/
def relatedLoop (s : State) (exp : Expect) : List ℕ → Option Answer
  | [] => none
  | i :: rest =>
    if expectMatches (s.expect i) exp then
      if s.timer i = .pending then some .ok else relatedLoop s exp rest
    else if expectClash (s.expect i) exp then some .ebusy
    else relatedLoop s exp rest

/-- `maxExpected` is the limit that a helper sets, 0 for none. -/
def ipConntrackExpectRelated (maxExpected : ℕ → ℕ) (s : State) (i : ℕ) : State × Answer :=
  match relatedLoop s (s.expect i) s.list with
  | some ret => (s, ret)
  | none =>
    let limit := ((s.helper (s.master i)).map maxExpected).getD 0
    let t := if limit ≠ 0 ∧ limit ≤ s.expecting (s.master i) then evictOldestExpect s (s.master i)
      else s
    (ipConntrackExpectInsert t i, .ok)

def ipConntrackHelperUnregister (s : State) (me : ℕ) : State :=
  let t := s.list.foldl (dropIf fun s i => s.helper (s.master i) = some me) s
  { t with helper := fun ct => if t.helper ct = some me then none else t.helper ct }

inductive Event where
  | alloc (i : ℕ) (exp : Expect)
  | related (i : ℕ)
  | put (i : ℕ)
  | unexpect (i : ℕ)
  | find (tuple : Tuple)
  | lookup (tuple : Tuple)
  | expire (i : ℕ)
  | timedOut (i : ℕ)
  | remove (ct : ℕ)
  | unregister (me : ℕ)
  | confirm (ct : ℕ)
  | help (ct : ℕ) (me : Option ℕ)

def State.hold (r : State × Option ℕ) : State :=
  match r.2 with
  | some i => { r.1 with held := Function.update r.1.held i (r.1.held i + 1) }
  | none => r.1

/-- `alloc` is `ip_conntrack_expect_alloc` with what its caller fills in, `find` the call in
`init_conntrack`, `help` the choice of a helper there and in `ip_conntrack_alter_reply`: not
while the connection expects any. -/
def step (maxExpected : ℕ → ℕ) (s : State) : Event → State
  | .alloc i exp =>
    { s with
      expect := Function.update s.expect i exp
      use := Function.update s.use i 1
      held := Function.update s.held i 1 }
  | .related i => (ipConntrackExpectRelated maxExpected s i).1
  | .put i => ipConntrackExpectPut { s with held := Function.update s.held i (s.held i - 1) } i
  | .unexpect i => ipConntrackUnexpectRelated s (s.expect i)
  | .find tuple => State.hold (findExpectation s tuple s.list)
  | .lookup tuple => State.hold (ipConntrackExpectFind s tuple)
  | .expire i =>
    if s.timer i = .pending then { s with timer := Function.update s.timer i .running } else s
  | .timedOut i => if s.timer i = .running then expectationTimedOut s i else s
  | .remove ct => ipCtRemoveExpectations s ct
  | .unregister me => ipConntrackHelperUnregister s me
  | .confirm ct => { s with confirmed := Function.update s.confirmed ct true }
  | .help ct me =>
    if s.expecting ct = 0 then { s with helper := Function.update s.helper ct me } else s

/-- The allocator hands out what is not in use, and callers use the references they hold. An
expectation is entered once, for a connection with a helper. -/
def Proper (s : State) : Event → Prop
  | .alloc i _ => s.use i = 0
  | .related i => 0 < s.held i ∧ s.timer i = .idle ∧ s.helper (s.master i) ≠ none
  | .put i | .unexpect i => 0 < s.held i
  | _ => True

instance (s : State) : (e : Event) → Decidable (Proper s e)
  | .alloc _ _ => inferInstanceAs (Decidable (_ = _))
  | .related i => inferInstanceAs (Decidable (0 < s.held i ∧ s.timer i = .idle ∧ s.helper _ ≠ none))
  | .put _ | .unexpect _ => inferInstanceAs (Decidable (0 < _))
  | .find _ | .lookup _ | .expire _ | .timedOut _ | .remove _ | .unregister _ | .confirm _
  | .help _ _ => inferInstanceAs (Decidable True)

def initial : State :=
  ⟨[], fun _ => ⟨⟨0, 0, 0, 0, 0⟩, ⟨0, 0, 0, 0, 0⟩, 0, false⟩, fun _ => .idle, fun _ => 0,
    fun _ => 0, fun _ => none, fun _ => false, fun _ => 0⟩

/-- The references of an expectation are those that callers hold, and two while it is listed;
it is listed as long as its timer is not idle; and a connection expects as many as are listed
for it. -/
structure Refs (s : State) : Prop where
  nodup : s.list.Nodup
  timer : ∀ i, i ∈ s.list ↔ s.timer i ≠ .idle
  listed : ∀ i, i ∈ s.list → s.use i = s.held i + 2
  unlisted : ∀ i, i ∉ s.list → s.use i = s.held i
  expecting : ∀ m, s.expecting m = s.list.countP fun i => s.master i = m

section Unlink

variable {s t : State} {i j : ℕ}

/-- The expectation has left the list, and `n` of its references have been given back or passed
on. -/
structure Unlinked (s t : State) (i : ℕ) : Prop where
  list : t.list = s.list.erase i
  expect : t.expect = s.expect
  timer : t.timer = Function.update s.timer i .idle
  expecting : t.expecting = Function.update s.expecting (s.master i) (s.expecting (s.master i) - 1)
  helper : t.helper = s.helper
  confirmed : t.confirmed = s.confirmed
  use : ∀ j, j ≠ i → t.use j = s.use j ∧ t.held j = s.held j
  refs : t.use i + s.held i + 2 = s.use i + t.held i

theorem Unlinked.master (h : Unlinked s t i) (j : ℕ) : t.master j = s.master j := by
  rw [State.master, h.expect]
  rfl

theorem Unlinked.keeps (h : Unlinked s t i) (hs : Refs s) (hi : i ∈ s.list) : Refs t := by
  have hmem : ∀ j, j ∈ t.list ↔ j ≠ i ∧ j ∈ s.list := fun j => by
    rw [h.list, hs.nodup.mem_erase_iff]
  constructor
  · rw [h.list]
    exact hs.nodup.erase i
  · intro j
    rw [hmem, h.timer]
    by_cases hj : j = i
    · simp [hj]
    · simp [hj, hs.timer j]
  · intro j hj
    obtain ⟨hji, hjs⟩ := (hmem j).mp hj
    obtain ⟨hu, hh⟩ := h.use j hji
    rw [hu, hh, hs.listed j hjs]
  · intro j hj
    by_cases hji : j = i
    · subst j
      have := h.refs
      have := hs.listed i hi
      omega
    · obtain ⟨hu, hh⟩ := h.use j hji
      rw [hu, hh, hs.unlisted j fun hjs => hj ((hmem j).mpr ⟨hji, hjs⟩)]
  · intro m
    have hcount : t.list.countP (fun j => t.master j = m) =
        (s.list.erase i).countP fun j => s.master j = m := by
      rw [h.list]
      exact List.countP_congr fun j _ => by rw [h.master]
    have hsplit := (List.perm_cons_erase hi).countP_eq fun j => decide (s.master j = m)
    rw [hcount, h.expecting]
    by_cases hm : s.master i = m
    · subst m
      rw [List.countP_cons_of_pos (by simp)] at hsplit
      rw [Function.update_self, hs.expecting, hsplit, Nat.add_sub_cancel]
    · rw [List.countP_cons_of_neg (by simpa using hm)] at hsplit
      rw [Function.update_of_ne fun e => hm e.symm, hs.expecting, hsplit]

theorem drop_unlinked (hs : Refs s) (hi : i ∈ s.list) : Unlinked s (s.drop i) i := by
  have huse := hs.listed i hi
  constructor
  · rfl
  · rfl
  · rfl
  · rfl
  · rfl
  · rfl
  · intro j hj
    simp [State.drop, ipConntrackExpectPut, ipCtUnlinkExpect, State.stop, hj]
  · simp only [State.drop, ipConntrackExpectPut, ipCtUnlinkExpect, State.stop,
      Function.update_self]
    omega

theorem drop_keeps (hs : Refs s) (hi : i ∈ s.list) : Refs (s.drop i) :=
  (drop_unlinked hs hi).keeps hs hi

/-- An expectation that is met passes the reference of its timer on. -/
theorem met_unlinked (hs : Refs s) (hi : i ∈ s.list) :
    Unlinked s (State.hold (ipCtUnlinkExpect (s.stop i) i, some i)) i := by
  have huse := hs.listed i hi
  constructor
  · rfl
  · rfl
  · rfl
  · rfl
  · rfl
  · rfl
  · intro j hj
    simp [State.hold, ipConntrackExpectPut, ipCtUnlinkExpect, State.stop, hj]
  · simp only [State.hold, ipConntrackExpectPut, ipCtUnlinkExpect, State.stop,
      Function.update_self]
    omega

theorem Refs.mem_of_pending (hs : Refs s) (hp : s.timer i = .pending) : i ∈ s.list :=
  (hs.timer i).mpr (by rw [hp]; nofun)

end Unlink

section Operations

variable {s : State} {i ct me : ℕ} {exp : Expect} {tuple : Tuple}

/-- The loop of `find_expectation` ends with `r` at expectation `i`: a permanent one stays, any
other that is not dying leaves the list. -/
def FoundAt (s : State) (tuple : Tuple) (i : ℕ) (r : State × Option ℕ) : Prop :=
  ipCtTupleMaskCmp tuple (s.expect i).tuple (s.expect i).mask = true ∧
    s.confirmed (s.master i) = true ∧
    (((s.expect i).permanent = true ∧
      r = ({ s with use := Function.update s.use i (s.use i + 1) }, some i)) ∨
    ((s.expect i).permanent = false ∧ s.timer i = .pending ∧
      r = (ipCtUnlinkExpect (s.stop i) i, some i)))

theorem findExpectation_cases (s : State) (tuple : Tuple) (l : List ℕ) :
    findExpectation s tuple l = (s, none) ∨
    ∃ i ∈ l, FoundAt s tuple i (findExpectation s tuple l) := by
  induction l with
  | nil => exact .inl rfl
  | cons j l ih =>
    have later (he : findExpectation s tuple (j :: l) = findExpectation s tuple l) :
        findExpectation s tuple (j :: l) = (s, none) ∨
        ∃ i ∈ j :: l, FoundAt s tuple i (findExpectation s tuple (j :: l)) := by
      rw [he]
      exact ih.imp_right fun ⟨i, hi, h⟩ => ⟨i, List.mem_cons_of_mem j hi, h⟩
    by_cases hm : (ipCtTupleMaskCmp tuple (s.expect j).tuple (s.expect j).mask &&
        s.confirmed (s.master j)) = true
    · obtain ⟨hm1, hm2⟩ := Bool.and_eq_true_iff.mp hm
      cases hp : (s.expect j).permanent with
      | true =>
        exact .inr ⟨j, List.mem_cons_self, hm1, hm2,
          .inl ⟨hp, by simp [findExpectation, hm1, hm2, hp]⟩⟩
      | false =>
        by_cases ht : s.timer j = .pending
        · exact .inr ⟨j, List.mem_cons_self, hm1, hm2,
            .inr ⟨hp, ht, by simp [findExpectation, hm1, hm2, hp, ht]⟩⟩
        · exact later (by simp [findExpectation, hm1, hm2, hp, ht])
    · exact later (by rw [findExpectation, if_neg hm])

theorem held_keeps (hs : Refs s) (i : ℕ) :
    Refs (State.hold ({ s with use := Function.update s.use i (s.use i + 1) }, some i)) := by
  refine ⟨hs.nodup, hs.timer, fun j hin => ?_, fun j hout => ?_, hs.expecting⟩
  · by_cases hj : j = i
    · subst j
      simp only [State.hold, Function.update_self, hs.listed i hin, Nat.add_right_comm]
    · simpa [State.hold, hj] using hs.listed j hin
  · by_cases hj : j = i
    · subst j
      simp only [State.hold, Function.update_self, hs.unlisted i hout]
    · simpa [State.hold, hj] using hs.unlisted j hout

theorem find_keeps (hs : Refs s) (tuple : Tuple) :
    Refs (State.hold (findExpectation s tuple s.list)) := by
  rcases findExpectation_cases s tuple s.list with h | ⟨i, hi, -, -, ⟨-, h⟩ | ⟨-, -, h⟩⟩
  · exact h ▸ hs
  · exact h ▸ held_keeps hs i
  · exact h ▸ (met_unlinked hs hi).keeps hs hi

theorem lookup_keeps (hs : Refs s) (tuple : Tuple) :
    Refs (State.hold (ipConntrackExpectFind s tuple)) := by
  simp only [ipConntrackExpectFind]
  split
  · exact held_keeps hs _
  · exact hs

theorem dropIf_keeps (p : State → ℕ → Bool) (hs : Refs s) (i : ℕ) : Refs (dropIf p s i) := by
  simp only [dropIf]
  split
  · rename_i h
    exact drop_keeps hs (hs.mem_of_pending h.2)
  · exact hs

theorem dropAll_keeps (p : State → ℕ → Bool) (hs : Refs s) (l : List ℕ) :
    Refs (l.foldl (dropIf p) s) :=
  GuardedRun.foldl_invariant (fun _ i h => dropIf_keeps p h i) hs

theorem remove_keeps (hs : Refs s) (ct : ℕ) : Refs (ipCtRemoveExpectations s ct) := by
  simp only [ipCtRemoveExpectations]
  split
  · exact hs
  · exact dropAll_keeps _ hs _

theorem unexpect_keeps (hs : Refs s) (exp : Expect) : Refs (ipConntrackUnexpectRelated s exp) := by
  simp only [ipConntrackUnexpectRelated]
  split
  · rename_i i hi
    have hp := List.find?_some hi
    simp only [Bool.and_eq_true, decide_eq_true_eq] at hp
    exact drop_keeps hs (hs.mem_of_pending hp.2)
  · exact hs

/-- The oldest expectation goes, unless it is dying or there is none. -/
theorem evict_cases (s : State) (m : ℕ) : evictOldestExpect s m = s ∨
    ∃ i, s.timer i = .pending ∧ s.master i = m ∧ evictOldestExpect s m = s.drop i := by
  simp only [evictOldestExpect]
  split
  · rename_i i hi
    have hm := List.find?_some hi
    split
    · rename_i hp
      exact .inr ⟨i, hp, by simpa using hm, rfl⟩
    · exact .inl rfl
  · exact .inl rfl

theorem insert_keeps (hs : Refs s) (hi : s.timer i = .idle) :
    Refs (ipConntrackExpectInsert s i) := by
  have hnot : i ∉ s.list := fun h => (hs.timer i).mp h hi
  constructor
  · exact List.nodup_cons.mpr ⟨hnot, hs.nodup⟩
  · intro j
    by_cases hj : j = i
    · simp [ipConntrackExpectInsert, hj]
    · simp [ipConntrackExpectInsert, hj, hs.timer j]
  · intro j hin
    by_cases hj : j = i
    · subst j
      simp [ipConntrackExpectInsert, hs.unlisted i hnot]
    · have hin : j ∈ s.list := (List.mem_cons.mp hin).resolve_left hj
      simp [ipConntrackExpectInsert, hj, hs.listed j hin]
  · intro j hout
    obtain ⟨hj, hout⟩ := not_or.mp fun h => hout (List.mem_cons.mpr h)
    simp [ipConntrackExpectInsert, hj, hs.unlisted j hout]
  · intro m
    have hlist : (ipConntrackExpectInsert s i).list = i :: s.list := rfl
    have hmaster : ∀ j, (ipConntrackExpectInsert s i).master j = s.master j := fun j => rfl
    rw [hlist]
    simp only [hmaster]
    by_cases hm : s.master i = m
    · subst m
      rw [List.countP_cons_of_pos (by simp), ← hs.expecting]
      simp [ipConntrackExpectInsert]
    · rw [List.countP_cons_of_neg (by simpa using hm), ← hs.expecting]
      have hm' : m ≠ s.master i := fun e => hm e.symm
      simp [ipConntrackExpectInsert, hm']

theorem related_cases (maxExpected : ℕ → ℕ) (s : State) (i : ℕ) :
    (∃ ret, relatedLoop s (s.expect i) s.list = some ret ∧
      ipConntrackExpectRelated maxExpected s i = (s, ret)) ∨
    (relatedLoop s (s.expect i) s.list = none ∧ ∃ t,
      (t = s ∨ ∃ j, s.timer j = .pending ∧ s.master j = s.master i ∧ t = s.drop j) ∧
      ipConntrackExpectRelated maxExpected s i = (ipConntrackExpectInsert t i, .ok)) := by
  simp only [ipConntrackExpectRelated]
  cases hl : relatedLoop s (s.expect i) s.list with
  | some ret => exact .inl ⟨ret, rfl, rfl⟩
  | none =>
    refine .inr ⟨rfl, _, ?_, rfl⟩
    split
    · exact evict_cases s (s.master i)
    · exact .inl rfl

theorem related_keeps (maxExpected : ℕ → ℕ) (hs : Refs s) (hi : s.timer i = .idle) :
    Refs (ipConntrackExpectRelated maxExpected s i).1 := by
  rcases related_cases maxExpected s i with ⟨ret, -, h⟩ | ⟨-, t, rfl | ⟨j, hj, -, rfl⟩, h⟩
  · exact h ▸ hs
  · exact h ▸ insert_keeps hs hi
  · have hij : i ≠ j := by
      rintro rfl
      rw [hi] at hj
      cases hj
    refine h ▸ insert_keeps (drop_keeps hs (hs.mem_of_pending hj)) ?_
    rw [(drop_unlinked hs (hs.mem_of_pending hj)).timer, Function.update_of_ne hij]
    exact hi

theorem step_refs (maxExpected : ℕ → ℕ) (hs : Refs s) {e : Event} (he : Proper s e) :
    Refs (step maxExpected s e) := by
  cases e with
  | alloc i exp =>
    have hzero : s.use i = 0 := he
    have hnot : i ∉ s.list := fun hin => by
      have := hs.listed i hin
      omega
    refine ⟨hs.nodup, hs.timer, fun j hin => ?_, fun j hout => ?_, fun m => ?_⟩
    · have hj : j ≠ i := fun e => hnot (e ▸ hin)
      simpa [step, hj] using hs.listed j hin
    · by_cases hj : j = i
      · simp [step, hj]
      · simpa [step, hj] using hs.unlisted j hout
    · refine (hs.expecting m).trans (List.countP_congr fun j hj => ?_)
      have hji : j ≠ i := fun e => hnot (e ▸ hj)
      rw [decide_eq_true_iff, decide_eq_true_iff]
      simp only [step, State.master, Function.update_of_ne hji]
  | related i => exact related_keeps maxExpected hs he.2.1
  | put i =>
    have hpos : 0 < s.held i := he
    refine ⟨hs.nodup, hs.timer, fun j hin => ?_, fun j hout => ?_, hs.expecting⟩
    · by_cases hj : j = i
      · subst j
        have := hs.listed i hin
        simp only [step, ipConntrackExpectPut, Function.update_self]
        omega
      · simpa [step, ipConntrackExpectPut, hj] using hs.listed j hin
    · by_cases hj : j = i
      · subst j
        simp only [step, ipConntrackExpectPut, Function.update_self, hs.unlisted i hout]
      · simpa [step, ipConntrackExpectPut, hj] using hs.unlisted j hout
  | unexpect i => exact unexpect_keeps hs _
  | find tuple => exact find_keeps hs tuple
  | lookup tuple => exact lookup_keeps hs tuple
  | expire i =>
    simp only [step]
    split
    · rename_i hp
      refine ⟨hs.nodup, fun j => ?_, hs.listed, hs.unlisted, hs.expecting⟩
      by_cases hj : j = i
      · subst j
        simp [hs.timer i, hp]
      · simpa [hj] using hs.timer j
    · exact hs
  | timedOut i =>
    simp only [step]
    split
    · rename_i hr
      exact drop_keeps hs ((hs.timer i).mpr (by rw [hr]; nofun))
    · exact hs
  | remove ct => exact remove_keeps hs ct
  | unregister me =>
    have h := dropAll_keeps (fun s i => s.helper (s.master i) = some me) hs s.list
    exact ⟨h.nodup, h.timer, h.listed, h.unlisted, h.expecting⟩
  | confirm ct => exact ⟨hs.nodup, hs.timer, hs.listed, hs.unlisted, hs.expecting⟩
  | help ct me =>
    simp only [step]
    split
    · exact ⟨hs.nodup, hs.timer, hs.listed, hs.unlisted, hs.expecting⟩
    · exact hs

end Operations

theorem refs_initial : Refs initial := by
  constructor
  · exact List.nodup_nil
  · exact fun i => ⟨nofun, fun h => absurd rfl h⟩
  · exact nofun
  · exact fun i _ => rfl
  · exact fun m => rfl

theorem run_refs {maxExpected : ℕ → ℕ} {es : List Event}
    (hes : GuardedRun.Along (step maxExpected) Proper initial es) :
    Refs (es.foldl (step maxExpected) initial) :=
  GuardedRun.foldl_keeps (fun _ _ hs he => step_refs maxExpected hs he) refs_initial hes

/-- In every run an expectation is freed exactly when no caller has it and its timer is idle,
never while it is listed, and a connection's count is that of its listed expectations. -/
theorem expect_references (maxExpected : ℕ → ℕ) (es : List Event)
    (hes : GuardedRun.Along (step maxExpected) Proper initial es) :
    let s := es.foldl (step maxExpected) initial
    (∀ i, s.use i = 0 ↔ s.held i = 0 ∧ s.timer i = .idle) ∧
      (∀ i, i ∈ s.list ↔ s.timer i ≠ .idle) ∧ (∀ i ∈ s.list, 2 ≤ s.use i) ∧
      ∀ m, s.expecting m = s.list.countP fun i => s.master i = m := by
  intro s
  have hs : Refs s := run_refs hes
  refine ⟨fun i => ?_, hs.timer, fun i hi => ?_, hs.expecting⟩
  · by_cases hi : i ∈ s.list
    · have hu := hs.listed i hi
      have ht := (hs.timer i).mp hi
      exact ⟨fun h => by omega, fun h => absurd h.2 ht⟩
    · have ht : s.timer i = .idle := by
        by_contra h
        exact hi ((hs.timer i).mpr h)
      rw [hs.unlisted i hi]
      exact ⟨fun h => ⟨h, ht⟩, fun h => h.1⟩
  · rw [hs.listed i hi]
    exact Nat.le_add_left 2 _

/-- An expectation is met while another one runs out of time. -/
theorem expect_references_two :
    let exp : Expect := ⟨⟨1, 2, 3, 4, 6⟩, ⟨0xffffffff, 0, 0xffffffff, 0xffff, 0xff⟩, 7, false⟩
    let es : List Event := [.help 7 (some 0), .confirm 7, .alloc 0 exp, .related 0, .put 0,
      .alloc 1 { exp with tuple := ⟨1, 2, 3, 5, 6⟩ }, .related 1, .put 1, .expire 1,
      .find ⟨1, 9, 3, 4, 6⟩, .timedOut 1, .put 0]
    let s := es.foldl (step fun _ => 2) initial
    s.list = [] ∧ s.expecting 7 = 0 ∧ s.use 0 = 0 ∧ s.use 1 = 0 := by
  intro exp es s
  have h := expect_references (fun _ => 2) es (by decide)
  have hl : s.list = [] := by decide
  refine ⟨hl, ?_, (h.1 0).mpr (by decide), (h.1 1).mpr (by decide)⟩
  rw [h.2.2.2 7, hl]
  rfl

end Expectations
