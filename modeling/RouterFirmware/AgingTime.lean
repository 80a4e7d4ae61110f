import Mathlib.Data.Int.Notation
import Mathlib.Data.List.Basic
import Mathlib.Data.Nat.Notation
import Mathlib.Logic.Function.Basic
import RouterFirmware.GuardedRun

/-! # Aging times of connections

`SIOCAGINGTIME` submits the timeout of a port, and `__ip_ct_refresh_acct` applies it. Both look into
the bucket of the last seven bits of the port, the one for an entry of the protocol and the other
for one of the protocol and the port.
-/
namespace AgingTime

open GuardedRun

structure NkAgingtime where
  protocol : UInt32
  port : UInt32
  timeout : UInt32
  deriving DecidableEq

/-- `enum tcp_conntrack` -/
inductive TcpConntrack where
  | none | synSent | synRecv | established | finWait | closeWait | lastAck | timeWait | close
  | listen | max | ignore
  deriving DecidableEq

structure Conntrack where
  confirmed : Bool
  /-- `del_timer` finds the timer. -/
  pending : Bool
  expires : UInt64
  seenReply : Bool
  protonum : UInt8
  /-- The destination port of the original direction, as `ntohs` gives it. -/
  port : UInt16
  state : TcpConntrack

abbrev Table := ℕ → List NkAgingtime

def bucket (port : UInt32) : ℕ := (port &&& 0x7f).toNat

def hz : UInt32 := 1000

/-- `timeout*HZ` -/
def ticks (p : NkAgingtime) : UInt32 := p.timeout * hz

/-- `SIOCCLRAGINGTIME` -/
def clrAgingTime (t : Table) : Table := fun i => if i < 128 then [] else t i

/-- `SIOCAGINGTIME`, with the results of its two `kmalloc`s. -/
def agingTime (copied node : Bool) (agingList : NkAgingtime) (t : Table) : ℤ × Table :=
  if copied then
    match (t (bucket agingList.port)).find? fun p => p.protocol = agingList.protocol with
    | some _ => (0, t)
    | none =>
      if node then
        (0, Function.update t (bucket agingList.port) (agingList :: t (bucket agingList.port)))
      else (-1, t)
  else (0, t)

/-- An entry, or a submission, is for the connection. -/
def Concerns (ct : Conntrack) (p : NkAgingtime) : Prop :=
  (p.protocol = ct.protonum.toUInt32 ∨ p.protocol = 0) ∧ p.port = ct.port.toUInt32

instance (ct : Conntrack) : DecidablePred (Concerns ct) := fun p =>
  inferInstanceAs (Decidable ((p.protocol = ct.protonum.toUInt32 ∨ p.protocol = 0) ∧
    p.port = ct.port.toUInt32))

/-- `__ip_ct_refresh_acct`, without the counters. -/
def ipCtRefreshAcct (t : Table) (jiffies extraJiffies : UInt64) (ct : Conntrack) : Conntrack :=
  if ct.confirmed = false then { ct with expires := extraJiffies }
  else if ct.pending then
    if 0 < ct.expires then
      let ct := { ct with expires := jiffies + extraJiffies }
      if ct.seenReply then
        match (t (bucket ct.port.toUInt32)).find? fun p => Concerns ct p with
        | some p =>
          if (ct.protonum = 6 ∧ ct.state = .established) ∨ ct.protonum = 17 then
            { ct with expires := (ticks p).toUInt64 + jiffies }
          else ct
        | none => ct
      else ct
    else ct
  else ct

inductive Call where
  | agingTime (copied node : Bool) (agingList : NkAgingtime)
  | clrAgingTime

/-- The table, and what has been submitted since it was cleared, the newest first. -/
structure State where
  table : Table
  submitted : List NkAgingtime

def State.initial : State := ⟨fun _ => [], []⟩

def next (s : State) : Call → State
  | .agingTime copied node agingList =>
    ⟨(agingTime copied node agingList s.table).2, agingList :: s.submitted⟩
  | .clrAgingTime => ⟨clrAgingTime s.table, []⟩

/-- A connection that has a timer and is refreshed for both of its directions: TCP that is
established, or UDP. -/
structure Established (ct : Conntrack) : Prop where
  confirmed : ct.confirmed = true
  pending : ct.pending = true
  expires : 0 < ct.expires
  seenReply : ct.seenReply = true
  protocol : (ct.protonum = 6 ∧ ct.state = .established) ∨ ct.protonum = 17

/-- The timeout that was submitted last for the connection. -/
def latest (submitted : List NkAgingtime) (ct : Conntrack) : Option NkAgingtime :=
  submitted.find? fun p => Concerns ct p

def lifetime (p : Option NkAgingtime) (extraJiffies : UInt64) : UInt64 :=
  p.elim extraJiffies fun p => (ticks p).toUInt64

/-- Each connection gets the timeout that was submitted last for it, or the default. -/
def Aged (s : State) : Prop :=
  ∀ ct, Established ct → ∀ jiffies extraJiffies,
    (ipCtRefreshAcct s.table jiffies extraJiffies ct).expires =
      jiffies + lifetime (latest s.submitted ct) extraJiffies

/-- The submission gets an entry: there is memory, and none of its protocol in the bucket. -/
def Stored (t : Table) (copied node : Bool) (agingList : NkAgingtime) : Prop :=
  copied = true ∧ node = true ∧
    ∀ p ∈ t (bucket agingList.port), p.protocol ≠ agingList.protocol

/-- A submission that gets no entry repeats the timeout that each connection has already. -/
def Repeats (s : State) : Call → Prop
  | .agingTime copied node agingList =>
    Stored s.table copied node agingList ∨ ∀ ct, Established ct → Concerns ct agingList →
      (latest s.submitted ct).map ticks = some (ticks agingList)
  | .clrAgingTime => True

section Refresh

variable {t : Table} {ct : Conntrack} {p q : Option NkAgingtime} {l : List NkAgingtime}
  {e : NkAgingtime} {copied node : Bool} {s : State}

theorem refresh_expires (h : Established ct) (t : Table) (jiffies extraJiffies : UInt64) :
    (ipCtRefreshAcct t jiffies extraJiffies ct).expires =
      jiffies + lifetime (latest (t (bucket ct.port.toUInt32)) ct) extraJiffies := by
  have hconfirmed : ¬ ct.confirmed = false := by simp [h.confirmed]
  have hfind : ∀ x, ((t (bucket ct.port.toUInt32)).find? fun p =>
      Concerns { ct with expires := x } p) = latest (t (bucket ct.port.toUInt32)) ct :=
    fun _ => rfl
  simp only [ipCtRefreshAcct, if_neg hconfirmed, if_pos h.pending, if_pos h.expires,
    if_pos h.seenReply, if_pos h.protocol, hfind]
  cases latest (t (bucket ct.port.toUInt32)) ct with
  | none => rfl
  | some p => exact UInt64.add_comm _ _

theorem lifetime_eq_iff :
    (∀ extraJiffies, lifetime p extraJiffies = lifetime q extraJiffies) ↔
      p.map ticks = q.map ticks := by
  have hnone : ∀ x : UInt64, ¬ ∀ extraJiffies : UInt64, x = extraJiffies := fun x h =>
    absurd ((h 0).symm.trans (h 1)) (by decide)
  cases p with
  | none =>
    cases q with
    | none => simp
    | some q =>
      refine iff_of_false (fun h => hnone _ fun x => (h x).symm) (by simp)
  | some p =>
    cases q with
    | none => exact iff_of_false (fun h => hnone _ h) (by simp)
    | some q =>
      simp only [lifetime, Option.elim_some, Option.map_some, Option.some.injEq, forall_const]
      exact UInt32.toUInt64_inj

theorem aged_iff : Aged s ↔ ∀ ct, Established ct →
    (latest (s.table (bucket ct.port.toUInt32)) ct).map ticks =
      (latest s.submitted ct).map ticks := by
  refine forall₂_congr fun ct hct => ?_
  rw [← lifetime_eq_iff]
  simp only [refresh_expires hct, UInt64.add_right_inj]
  exact ⟨fun h => h 0, fun h _ => h⟩

theorem latest_cons_of_concerns (h : Concerns ct e) (l : List NkAgingtime) :
    latest (e :: l) ct = some e :=
  List.find?_cons_of_pos (by simpa using h)

theorem latest_cons_of_not (h : ¬ Concerns ct e) (l : List NkAgingtime) :
    latest (e :: l) ct = latest l ct :=
  List.find?_cons_of_neg (by simpa using h)

end Refresh

section Runs

variable {t : Table} {ct : Conntrack} {e : NkAgingtime} {copied node : Bool} {s : State}

theorem agingTime_of_stored (h : Stored t copied node e) : (agingTime copied node e t).2 =
    Function.update t (bucket e.port) (e :: t (bucket e.port)) := by
  obtain ⟨rfl, rfl, hnone⟩ := h
  have hfind : ((t (bucket e.port)).find? fun p => p.protocol = e.protocol) = none :=
    List.find?_eq_none.mpr fun p hp => by simpa using hnone p hp
  simp only [agingTime, hfind, if_true]

theorem agingTime_of_not_stored (h : ¬ Stored t copied node e) :
    (agingTime copied node e t).2 = t := by
  simp only [agingTime]
  split
  · next hcopied =>
    split
    · rfl
    · next hfind =>
      have hnode : ¬ node = true := fun hnode =>
        h ⟨hcopied, hnode, fun p hp => by simpa using List.find?_eq_none.mp hfind p hp⟩
      rw [if_neg hnode]
  · rfl

/-- A new entry stands in front of all others of its bucket. -/
theorem latest_update (t : Table) (ct : Conntrack) (e : NkAgingtime) :
    latest (Function.update t (bucket e.port) (e :: t (bucket e.port))
        (bucket ct.port.toUInt32)) ct =
      if Concerns ct e then some e else latest (t (bucket ct.port.toUInt32)) ct := by
  by_cases hbucket : bucket ct.port.toUInt32 = bucket e.port
  · rw [hbucket, Function.update_self]
    by_cases hct : Concerns ct e
    · rw [latest_cons_of_concerns hct, if_pos hct]
    · rw [latest_cons_of_not hct, if_neg hct]
  · have hct : ¬ Concerns ct e := fun hct => hbucket (hct.2 ▸ rfl)
    rw [Function.update_of_ne hbucket, if_neg hct]

theorem aged_submit_iff (h : Aged s) :
    Aged (next s (.agingTime copied node e)) ↔ Repeats s (.agingTime copied node e) := by
  rw [aged_iff] at h
  rw [aged_iff]
  by_cases hstored : Stored s.table copied node e
  · refine iff_of_true (fun ct hct => ?_) (.inl hstored)
    simp only [next, agingTime_of_stored hstored, latest_update]
    by_cases hconcerns : Concerns ct e
    · rw [if_pos hconcerns, latest_cons_of_concerns hconcerns]
    · rw [if_neg hconcerns, latest_cons_of_not hconcerns]
      exact h ct hct
  · simp only [Repeats, next, agingTime_of_not_stored hstored, false_or, hstored]
    refine forall₂_congr fun ct hct => ?_
    rw [h ct hct]
    by_cases hconcerns : Concerns ct e
    · rw [latest_cons_of_concerns hconcerns]
      exact ⟨fun heq _ => heq, fun heq => heq hconcerns⟩
    · rw [latest_cons_of_not hconcerns]
      exact iff_of_true rfl fun hct => absurd hct hconcerns

theorem aged_next_iff (h : Aged s) (c : Call) : Aged (next s c) ↔ Repeats s c := by
  cases c with
  | agingTime copied node e => exact aged_submit_iff h
  | clrAgingTime =>
    refine iff_of_true (aged_iff.mpr fun ct _ => ?_) trivial
    have hlt : bucket ct.port.toUInt32 < 128 := by
      have hle : (ct.port.toUInt32 &&& 0x7f).toNat ≤ 127 := by
        rw [UInt32.toNat_and]
        exact Nat.and_le_right
      exact Nat.lt_succ_of_le hle
    simp only [next, clrAgingTime, if_pos hlt]

theorem aged_initial : Aged .initial :=
  aged_iff.mpr fun _ _ => rfl

/-- The connections have what was submitted last, at every time of a run, exactly when each
submission that gets no entry repeats what they have. -/
theorem aged_throughout_iff (calls : List Call) :
    (∀ before after, calls = before ++ after → Aged (before.foldl next .initial)) ↔
      Along next Repeats .initial calls := by
  rw [← along_iff (Q := fun s c => Aged (next s c)) (I := Aged)
    (fun s c hs hc => (aged_next_iff hs c).mpr hc) (fun s c hs => aged_next_iff hs c) aged_initial,
    along_iff_forall]
  constructor
  · intro h pre c post hcalls
    have hnext := h (pre ++ [c]) post (by simp [hcalls])
    rwa [List.foldl_concat] at hnext
  · intro h before after hcalls
    rcases List.eq_nil_or_concat' before with rfl | ⟨pre, c, rfl⟩
    · exact aged_initial
    · rw [List.foldl_concat]
      exact h pre c after (by simp [hcalls])

/-- The web server at port 208 is to have a timeout of its own, but the entry of port 80 stands in
the same bucket. -/
theorem second_port_ignored :
    ¬ Aged ([Call.agingTime true true ⟨6, 80, 600⟩,
      .agingTime true true ⟨6, 208, 300⟩].foldl next .initial) := by
  intro h
  have haged := aged_iff.mp h ⟨true, true, 1, true, 6, 208, .established⟩
    ⟨rfl, rfl, by decide, rfl, .inl ⟨rfl, rfl⟩⟩
  revert haged
  decide

end Runs

end AgingTime
