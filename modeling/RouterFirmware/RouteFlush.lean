import RouterFirmware.GuardedRun
import RouterFirmware.RouteCache
import Mathlib.Data.Int.Order.Basic

/-! # Flushing the route cache

Whoever changes the routes asks for a flush of the cache, at once or soon. The requests that are
for soon are served by one timer, which may be put off by later ones, but not past a deadline. A
request for one device only, where it is served at once, stops the timer as any other does. -/
namespace RouteFlush

open RouteCache GuardedRun

/-- `ip_rt_min_delay` and `ip_rt_max_delay`. -/
structure Delays where
  least : ℕ
  most : ℕ

/-- `jiffies`, when `rt_flush_timer` is to run, `rt_deadline` and the cache. -/
structure State where
  now : ℕ
  timer : Option ℕ
  deadline : ℕ
  table : Table

def lo : List UInt8 := [108, 111]

/-- The test of `rt_run_flush` for one device, given by its `ifindex`. -/
def Through (name : UInt32 → List UInt8) (dev : UInt32) (rth : Rtable) : Prop :=
  name rth.dev = name dev ∨ name rth.dev = lo ∨ rth.fl.iif = dev

instance (name : UInt32 → List UInt8) (dev : UInt32) (rth : Rtable) :
    Decidable (Through name dev rth) :=
  inferInstanceAs (Decidable (_ ∨ _ ∨ _))

def flushed (name : UInt32 → List UInt8) (table : Table) : Option UInt32 → Table
  | none => fun _ => []
  | some dev => fun i => (table i).filter fun rth => ¬Through name dev rth

def rtRunFlush (name : UInt32 → List UInt8) (dev : Option UInt32) (s : State) : State :=
  { s with deadline := 0, table := flushed name s.table dev }

def tmo (s : State) : ℤ := s.deadline - s.now

/-- The delay of a request, which may find the timer running. -/
def putOff (delays : Delays) (s : State) (userMode : Bool) (delay : ℤ) : ℤ :=
  if s.timer.isSome = true ∧ 0 < delay ∧ s.deadline ≠ 0 then
    min delay (if userMode = true ∧ tmo s < delays.most - delays.least then 0 else tmo s)
  else delay

/-- The delay as the caller means it. -/
def meant (delays : Delays) (delay : ℤ) : ℤ :=
  if delay < 0 then delays.least else delay

/-- Requests are served one at a time: the flush that follows the lock is part of the step. -/
def rtCacheFlush (name : UInt32 → List UInt8) (delays : Delays) (delay : ℤ) (dev : Option UInt32)
    (userMode : Bool) (s : State) : State :=
  let delay := putOff delays s userMode (meant delays delay)
  if delay ≤ 0 then rtRunFlush name dev { s with timer := none }
  else
    { s with
      timer := some (s.now + delay.toNat)
      deadline := if s.deadline = 0 then s.now + delays.most else s.deadline }

/-- `expire` runs the timer; `keep` is what a collection leaves. -/
inductive Event where
  | tick
  | expire
  | request (delay : ℤ) (dev : Option UInt32) (userMode : Bool)
  | intern (i : UInt32) (rt : Rtable)
  | keep (kept : Rtable → Bool)

/-- A timer that is due runs before the clock goes on. -/
def Enabled (s : State) : Event → Prop
  | .tick => ∀ t ∈ s.timer, s.now < t
  | .expire => ∃ t ∈ s.timer, t ≤ s.now
  | _ => True

def step (name : UInt32 → List UInt8) (delays : Delays) (s : State) : Event → State
  | .tick => { s with now := s.now + 1 }
  | .expire => rtRunFlush name none { s with timer := none }
  | .request delay dev userMode => rtCacheFlush name delays delay dev userMode s
  | .intern i rt => { s with table := Function.update s.table i (rt :: s.table i) }
  | .keep kept => { s with table := fun i => (s.table i).filter kept }

def initial (now : ℕ) : State := ⟨now, none, 0, fun _ => []⟩

/-- A request for one device that is served at once while another is pending. -/
def Cancels (delays : Delays) (s : State) : Event → Prop
  | .request delay (some _) userMode =>
    s.timer ≠ none ∧ putOff delays s userMode (meant delays delay) ≤ 0
  | _ => False

/-- Anything but a request for one device that stops the timer of others, or the entry coming in. -/
def Spares (delays : Delays) (rth : Rtable) (s : State) (e : Event) : Prop :=
  Enabled s e ∧ ¬Cancels delays s e ∧ ∀ i, e ≠ .intern i rth

/-- No request and no collection, and the entry does not come in. -/
def Idle (rth : Rtable) (s : State) (e : Event) : Prop :=
  Enabled s e ∧ match e with
    | .tick | .expire => True
    | .intern _ rt => rt ≠ rth
    | .request _ _ _ | .keep _ => False

/-- `fib_disable_ip`, where `down` is what `fib_sync_down` says and all the routes that went down
are flushed from the tables. -/
def fibDisableIp (name : UInt32 → List UInt8) (delays : Delays) (dev : UInt32) (down : Bool)
    (userMode : Bool) (s : State) : State :=
  rtCacheFlush name delays 0 (some dev) userMode
    (if down then rtCacheFlush name delays (-1) none userMode s else s)

section Requests

variable {name : UInt32 → List UInt8} {delays : Delays} {s : State} {delay : ℤ}
  {dev : Option UInt32} {userMode : Bool} {bound now : ℕ} {rth : Rtable} {es : List Event}

/-- The deadline is set while the timer runs, and the timer is not overdue. -/
structure Timed (delays : Delays) (s : State) : Prop where
  booted : 0 < s.now
  pending : s.timer = none ↔ s.deadline = 0
  soon : s.deadline ≤ s.now + delays.most
  due : ∀ t ∈ s.timer, s.now ≤ t

theorem timed_initial (hnow : 0 < now) : Timed delays (initial now) :=
  ⟨hnow, iff_of_true rfl rfl, Nat.zero_le _, fun _ h => by cases h⟩

theorem rtCacheFlush_cases (name : UInt32 → List UInt8) (delays : Delays) (delay : ℤ)
    (dev : Option UInt32) (userMode : Bool) (s : State) :
    (putOff delays s userMode (meant delays delay) ≤ 0 ∧
      rtCacheFlush name delays delay dev userMode s =
        ⟨s.now, none, 0, flushed name s.table dev⟩) ∨
    ∃ d : ℕ, 0 < d ∧ putOff delays s userMode (meant delays delay) = d ∧
      rtCacheFlush name delays delay dev userMode s =
        ⟨s.now, some (s.now + d), if s.deadline = 0 then s.now + delays.most else s.deadline,
          s.table⟩ := by
  by_cases h : putOff delays s userMode (meant delays delay) ≤ 0
  · exact .inl ⟨h, if_pos h⟩
  · refine .inr ⟨(putOff delays s userMode (meant delays delay)).toNat, by omega, by omega, ?_⟩
    exact if_neg h

variable (userMode delay) in
/-- While the timer runs it is put off to the deadline at most. -/
theorem putOff_le (hs : Timed delays s) (htimer : s.timer ≠ none)
    (hpos : 0 < putOff delays s userMode delay) :
    (s.now : ℤ) + putOff delays s userMode delay ≤ s.deadline := by
  have hdeadline : s.deadline ≠ 0 := fun h => htimer (hs.pending.mpr h)
  have hsome : s.timer.isSome = true := Option.isSome_iff_ne_none.mpr htimer
  have hdelay : 0 < delay := by
    by_contra hneg
    rw [putOff, if_neg (fun h => hneg h.2.1)] at hpos
    exact hneg hpos
  rw [putOff, if_pos ⟨hsome, hdelay, hdeadline⟩] at hpos ⊢
  split at hpos
  · omega
  · rename_i hwaits
    rw [if_neg hwaits, tmo]
    omega

theorem mem_of_mem_rtCacheFlush {i : UInt32}
    (h : rth ∈ (rtCacheFlush name delays delay dev userMode s).table i) : rth ∈ s.table i := by
  rcases rtCacheFlush_cases name delays delay dev userMode s with ⟨-, heq⟩ | ⟨d, -, -, heq⟩
  · rw [heq] at h
    cases dev with
    | none => cases h
    | some dev => exact (List.mem_filter.mp h).1
  · rwa [heq] at h

theorem timed_request (hs : Timed delays s) :
    Timed delays (rtCacheFlush name delays delay dev userMode s) := by
  rcases rtCacheFlush_cases name delays delay dev userMode s with ⟨-, h⟩ | ⟨d, -, -, h⟩
  · rw [h]
    exact ⟨hs.booted, iff_of_true rfl rfl, Nat.zero_le _, fun _ ht => by cases ht⟩
  · rw [h]
    have hbooted := hs.booted
    have hsoon := hs.soon
    refine ⟨hbooted, iff_of_false nofun ?_, ?_, ?_⟩
    · show (if s.deadline = 0 then s.now + delays.most else s.deadline) ≠ 0
      split <;> omega
    · show (if s.deadline = 0 then s.now + delays.most else s.deadline) ≤ s.now + delays.most
      split <;> omega
    · rintro t ⟨⟩
      exact Nat.le_add_right _ _

theorem timed_step (hs : Timed delays s) {e : Event} (he : Enabled s e) :
    Timed delays (step name delays s e) := by
  cases e with
  | tick =>
    refine ⟨Nat.succ_pos _, hs.pending, Nat.le_trans hs.soon ?_, fun t ht => he t ht⟩
    exact Nat.add_le_add_right (Nat.le_succ _) _
  | expire => exact ⟨hs.booted, iff_of_true rfl rfl, Nat.zero_le _, fun _ ht => by cases ht⟩
  | request delay dev userMode => exact timed_request hs
  | intern i rt => exact ⟨hs.booted, hs.pending, hs.soon, hs.due⟩
  | keep kept => exact ⟨hs.booted, hs.pending, hs.soon, hs.due⟩

/-- While the entry is there, a flush is to come by `bound` that no request puts off further. -/
def Waits (bound : ℕ) (rth : Rtable) (s : State) : Prop :=
  (∃ i, rth ∈ s.table i) → (∃ t ∈ s.timer, t ≤ bound) ∧ s.deadline ≤ bound

theorem Waits.of_gone (h : ∀ i, rth ∉ s.table i) : Waits bound rth s :=
  fun ⟨i, hi⟩ => absurd hi (h i)

/-- A request for the entry waits no longer than it says, or to the deadline. -/
theorem waits_of_request (hs : Timed delays s) (hconcerned : ∀ d ∈ dev, Through name d rth) :
    Waits (s.now + max (meant delays delay).toNat delays.most) rth
      (rtCacheFlush name delays delay dev userMode s) := by
  have hsoon := hs.soon
  rcases rtCacheFlush_cases name delays delay dev userMode s with ⟨-, h⟩ | ⟨d, hd, hput, h⟩
  · rw [h]
    refine Waits.of_gone fun i hi => ?_
    cases dev with
    | none => cases hi
    | some d => simpa [hconcerned d rfl] using (List.mem_filter.mp hi).2
  · rw [h]
    refine fun _ => ⟨⟨_, rfl, ?_⟩, ?_⟩
    · by_cases htimer : s.timer = none
      · have hnot : ¬(s.timer.isSome = true ∧ 0 < meant delays delay ∧ s.deadline ≠ 0) := by
          simp [htimer]
        rw [putOff, if_neg hnot] at hput
        omega
      · have hle := putOff_le (meant delays delay) userMode hs htimer (by omega)
        omega
    · show (if s.deadline = 0 then s.now + delays.most else s.deadline) ≤ _
      split <;> omega

theorem waits_step (hs : Timed delays s) (h : Waits bound rth s) {e : Event}
    (he : Spares delays rth s e) : Waits bound rth (step name delays s e) := by
  obtain ⟨henabled, hcancels, hintern⟩ := he
  cases e with
  | tick => exact h
  | expire => exact Waits.of_gone fun i hi => by cases hi
  | request delay dev userMode =>
    by_cases hthere : ∃ i, rth ∈ s.table i
    · obtain ⟨⟨t, ht, hbound⟩, hdeadline⟩ := h hthere
      have htimer : s.timer ≠ none := by
        intro hnone
        rw [hnone] at ht
        cases ht
      rcases rtCacheFlush_cases name delays delay dev userMode s with ⟨hput, hr⟩ | ⟨d, hd, hput, hr⟩
      · cases dev with
        | none =>
          refine Waits.of_gone fun i hi => ?_
          rw [step, hr] at hi
          cases hi
        | some dev => exact absurd ⟨htimer, hput⟩ hcancels
      · have hle := putOff_le (meant delays delay) userMode hs htimer (by omega)
        have hset : s.deadline ≠ 0 := fun h => htimer (hs.pending.mpr h)
        rw [step, hr, if_neg hset]
        exact fun _ => ⟨⟨_, rfl, by omega⟩, hdeadline⟩
    · exact Waits.of_gone fun i hi => hthere ⟨i, mem_of_mem_rtCacheFlush hi⟩
  | intern i rt =>
    rintro ⟨j, hj⟩
    refine h ⟨j, ?_⟩
    by_cases hji : j = i
    · subst j
      simp only [step, Function.update_self, List.mem_cons] at hj
      refine hj.resolve_left ?_
      rintro rfl
      exact hintern i rfl
    · simpa [step, Function.update_of_ne hji] using hj
  | keep kept => exact fun ⟨i, hi⟩ => h ⟨i, (List.mem_filter.mp hi).1⟩

/-- A flush that was asked for has happened when the time is over: no entry is left that it was
for, unless a request for one device stops the timer in the meantime. -/
theorem flushed_by (name : UInt32 → List UInt8) (delays : Delays) {boot : ℕ} (hboot : 0 < boot)
    (es es' : List Event) (hbefore : Along (step name delays) Enabled (initial boot) es)
    (delay : ℤ) {dev : Option UInt32} (userMode : Bool) (rth : Rtable)
    (hconcerned : ∀ d ∈ dev, Through name d rth) :
    let s := es.foldl (step name delays) (initial boot)
    let r := step name delays s (.request delay dev userMode)
    Along (step name delays) (Spares delays rth) r es' →
      s.now + max (meant delays delay).toNat delays.most <
        (es'.foldl (step name delays) r).now →
      ∀ i, rth ∉ (es'.foldl (step name delays) r).table i := by
  intro s r hspares hlate i hi
  have hs : Timed delays s :=
    foldl_keeps (fun _ _ h he => timed_step h he) (timed_initial hboot) hbefore
  have hr : Timed delays r ∧
      Waits (s.now + max (meant delays delay).toNat delays.most) rth r :=
    ⟨timed_request hs, waits_of_request hs hconcerned⟩
  obtain ⟨htimed, hwaits⟩ := foldl_keeps (I := fun s' => Timed delays s' ∧
      Waits (s.now + max (meant delays delay).toNat delays.most) rth s')
    (fun _ _ h he => ⟨timed_step h.1 he.1, waits_step h.1 h.2 he⟩) hr hspares
  obtain ⟨⟨t, ht, hbound⟩, -⟩ := hwaits ⟨i, hi⟩
  exact absurd (Nat.le_trans (htimed.due t ht) hbound) (Nat.not_le.mpr hlate)

/-- Two more requests put the timer off to the deadline. -/
theorem flushed_by_deadline :
    let name : UInt32 → List UInt8 := fun d => [d.toUInt8]
    let rth : Rtable := ⟨1, ⟨1, 2, 0, 0, 0, 0, 0, 0⟩, 1, .unicast⟩
    let again : Event := .request (-1) none false
    let s := [again, again, .tick, again, .tick, .expire, .tick].foldl (step name ⟨1, 2⟩)
      (step name ⟨1, 2⟩ (initial 1) (.intern 0 rth))
    s.now = 4 ∧ rth ∉ s.table 0 := by
  intro name rth again s
  refine ⟨rfl, ?_⟩
  have hspares : Along (step name ⟨1, 2⟩) (Spares ⟨1, 2⟩ rth)
      (step name ⟨1, 2⟩ (step name ⟨1, 2⟩ (initial 1) (.intern 0 rth)) again)
      [again, .tick, again, .tick, .expire, .tick] := by
    refine ⟨⟨trivial, id, nofun⟩, ⟨?_, id, nofun⟩, ⟨trivial, id, nofun⟩, ⟨?_, id, nofun⟩,
      ⟨?_, id, nofun⟩, ⟨?_, id, nofun⟩, trivial⟩
    · rintro t ⟨⟩
      decide
    · rintro t ⟨⟩
      decide
    · exact ⟨_, rfl, by decide⟩
    · rintro t ⟨⟩
  exact flushed_by name ⟨1, 2⟩ (by decide) [.intern 0 rth] _ ⟨trivial, trivial⟩ (-1) false rth
    (fun d hd => by cases hd) hspares (by decide) 0

theorem rtCacheFlush_zero : rtCacheFlush name delays 0 dev userMode s =
    ⟨s.now, none, 0, flushed name s.table dev⟩ := by
  have hput : putOff delays s userMode (meant delays 0) = 0 :=
    if_neg fun h => Int.lt_irrefl 0 h.2.1
  rcases rtCacheFlush_cases name delays 0 dev userMode s with ⟨-, h⟩ | ⟨d, hd, h, -⟩
  · exact h
  · omega

theorem fibDisableIp_eq (dev : UInt32) :
    fibDisableIp name delays dev true userMode s =
      ⟨s.now, none, 0, if 0 < putOff delays s userMode delays.least then
        flushed name s.table (some dev) else fun _ => []⟩ := by
  have hmeant : meant delays (-1) = delays.least := rfl
  rw [fibDisableIp, if_pos rfl, rtCacheFlush_zero]
  rcases rtCacheFlush_cases name delays (-1) none userMode s with ⟨hput, h⟩ | ⟨d, hd, hput, h⟩
  · rw [hmeant] at hput
    rw [h, if_neg (Int.not_lt.mpr hput)]
    rfl
  · have hpos : 0 < putOff delays s userMode delays.least := by
      rw [hmeant] at hput
      omega
    rw [h, if_pos hpos]

/-- While nobody asks for a flush and the timer is at rest, the entry stays where it is or is not
there. -/
theorem idle_step {i : UInt32} {p : Prop} (h : s.timer = none ∧ (rth ∈ s.table i ↔ p)) {e : Event}
    (he : Idle rth s e) :
    (step name delays s e).timer = none ∧ (rth ∈ (step name delays s e).table i ↔ p) := by
  cases e with
  | tick => exact h
  | expire =>
    obtain ⟨t, ht, -⟩ := he.1
    rw [h.1] at ht
    cases ht
  | request delay dev userMode => exact he.2.elim
  | intern j rt =>
    refine ⟨h.1, Iff.trans ?_ h.2⟩
    by_cases hji : i = j
    · subst j
      have hother : rth ≠ rt := Ne.symm he.2
      simp [step, hother]
    · simp [step, Function.update_of_ne hji]
  | keep kept => exact he.2.elim

/-- Where the link of a device goes down, the flush for the routes that went with it is stopped by
the one for the device. Unless another flush was pending and is done at once instead, the entries
for other devices stay until someone asks again. -/
theorem disable_ip_forgets (name : UInt32 → List UInt8) (delays : Delays) (dev : UInt32)
    (userMode : Bool) (s : State) (rth : Rtable) {es : List Event} :
    let r := fibDisableIp name delays dev true userMode s
    Along (step name delays) (Idle rth) r es → ∀ i,
      (rth ∈ (es.foldl (step name delays) r).table i ↔
        rth ∈ s.table i ∧ ¬Through name dev rth ∧ 0 < putOff delays s userMode delays.least) := by
  intro r hidle i
  have hr : r.timer = none ∧ (rth ∈ r.table i ↔
      rth ∈ s.table i ∧ ¬Through name dev rth ∧ 0 < putOff delays s userMode delays.least) := by
    by_cases hput : 0 < putOff delays s userMode delays.least
    · simp [r, fibDisableIp_eq, hput, flushed]
    · simp [r, fibDisableIp_eq, hput]
  exact (foldl_keeps (I := fun s' => s'.timer = none ∧ (rth ∈ s'.table i ↔
    rth ∈ s.table i ∧ ¬Through name dev rth ∧ 0 < putOff delays s userMode delays.least))
    (fun _ _ h he => idle_step h he) hr hidle).2

/-- The link of device 1 goes down. The entry for device 2 is not flushed with it. -/
theorem disable_ip_forgets_other :
    let name : UInt32 → List UInt8 := fun d => [d.toUInt8]
    let rth : Rtable := ⟨1, ⟨1, 2, 0, 0, 0, 0, 0, 0⟩, 2, .unicast⟩
    let s := step name ⟨200, 1000⟩ (initial 1) (.intern 0 rth)
    rth ∈ ([.tick, .tick, .tick].foldl (step name ⟨200, 1000⟩)
      (fibDisableIp name ⟨200, 1000⟩ 1 true true s)).table 0 := by
  intro name rth s
  have hidle : Along (step name ⟨200, 1000⟩) (Idle rth)
      (fibDisableIp name ⟨200, 1000⟩ 1 true true s) [.tick, .tick, .tick] := by
    refine ⟨⟨?_, trivial⟩, ⟨?_, trivial⟩, ⟨?_, trivial⟩, trivial⟩ <;> rintro t ⟨⟩
  exact (disable_ip_forgets name ⟨200, 1000⟩ 1 true s rth hidle 0).mpr
    ⟨List.mem_singleton_self _, by decide, by decide⟩

end Requests

end RouteFlush
