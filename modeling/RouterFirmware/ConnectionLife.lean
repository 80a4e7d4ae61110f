import RouterFirmware.Expectations

/-! # The life of a connection

A connection is allocated for its first packet, stands in the list of the unconfirmed, then in
the table with a timer, and is destroyed when its last reference goes. Packets hold references,
so do the timer, the code that clears connections away and the connections that were expected.
`destroy_conntrack` starts when the last reference has gone. It waits for the lock, takes the
connection out of the list of the unconfirmed, gives the master back, and only then frees. -/
namespace ConnectionLife

open Expectations (Timer)

/-- `slab` has the allocated connections, `hashed` those in the table. Of the calls of
`destroy_conntrack`, `dying` counts those that wait for the lock, `unlinked` those that have let it
go, `freeing` those that have given the master back. `held` is history, the references of running
code and of packets. -/
structure State where
  slab : List ℕ
  unconfirmed : List ℕ
  hashed : List ℕ
  timer : ℕ → Timer
  use : ℕ → ℕ
  confirmed : ℕ → Bool
  master : ℕ → Option ℕ
  count : ℕ
  dying : ℕ → ℕ
  unlinked : ℕ → ℕ
  freeing : ℕ → ℕ
  held : ℕ → ℕ

/-- `nf_conntrack_get`, for the code that runs or for a packet. -/
def nfConntrackGet (s : State) (i : ℕ) : State :=
  { s with
    use := Function.update s.use i (s.use i + 1)
    held := Function.update s.held i (s.held i + 1) }

/-- `nf_conntrack_put`, which starts the destruction where the count comes to 0. -/
def ipConntrackPut (s : State) (i : ℕ) : State :=
  { s with
    use := Function.update s.use i (s.use i - 1)
    held := Function.update s.held i (s.held i - 1)
    dying := Function.update s.dying i (s.dying i + if s.use i = 1 then 1 else 0) }

def ipConntrackAlloc (s : State) (i : ℕ) : State :=
  { s with
    slab := i :: s.slab
    timer := Function.update s.timer i .idle
    use := Function.update s.use i 1
    confirmed := Function.update s.confirmed i false
    master := Function.update s.master i none
    held := Function.update s.held i 1
    count := s.count + 1 }

/-- `ip_conntrack_free`; the memory is cleared. -/
def ipConntrackFree (s : State) (i : ℕ) : State :=
  { s with
    slab := s.slab.erase i
    use := Function.update s.use i 0
    confirmed := Function.update s.confirmed i false
    master := Function.update s.master i none
    held := Function.update s.held i 0
    count := s.count - 1 }

/-- The part of `init_conntrack` under the lock, with the master of the expectation found. -/
def initConntrack (s : State) (i : ℕ) (master : Option ℕ) : State :=
  let t := { s with
    unconfirmed := i :: s.unconfirmed
    master := Function.update s.master i master }
  match master with
  | some m => { t with use := Function.update t.use m (t.use m + 1) }
  | none => t

/-- `__ip_conntrack_confirm` where no other connection has the tuples. -/
def ipConntrackConfirm (s : State) (i : ℕ) : State :=
  { s with
    unconfirmed := s.unconfirmed.erase i
    hashed := i :: s.hashed
    timer := Function.update s.timer i .pending
    use := Function.update s.use i (s.use i + 1)
    confirmed := Function.update s.confirmed i true }

/-- `death_by_timeout` under the lock; the reference of the timer is the caller's from then on. -/
def deathByTimeout (s : State) (i : ℕ) : State :=
  { s with
    hashed := s.hashed.erase i
    timer := Function.update s.timer i .idle
    held := Function.update s.held i (s.held i + 1) }

/-- `destroy_conntrack` while it has the lock. -/
def destroyConntrack (s : State) (i : ℕ) : State :=
  { s with
    unconfirmed := if s.confirmed i then s.unconfirmed else s.unconfirmed.erase i
    dying := Function.update s.dying i (s.dying i - 1)
    unlinked := Function.update s.unlinked i (s.unlinked i + 1) }

/-- `destroy_conntrack` gives the master back, whose own destruction may start here. -/
def putMaster (s : State) (i : ℕ) : State :=
  let t := { s with
    unlinked := Function.update s.unlinked i (s.unlinked i - 1)
    freeing := Function.update s.freeing i (s.freeing i + 1) }
  match s.master i with
  | some m => { t with
      use := Function.update s.use m (s.use m - 1)
      dying := Function.update s.dying m (s.dying m + if s.use m = 1 then 1 else 0) }
  | none => t

/-- The end of `destroy_conntrack`. -/
def freeConntrack (s : State) (i : ℕ) : State :=
  ipConntrackFree { s with freeing := Function.update s.freeing i (s.freeing i - 1) } i

/-- `find` is `ip_conntrack_find_get` and the choice in `early_drop`, `corpse` the choice in
`get_next_corpse`, `attach` a packet that takes over the connection of another, `delTimer` a
timer that runs out or that `del_timer` finds pending; `newFails` is the end of
`init_conntrack` where the protocol refuses the packet. -/
inductive Event where
  | alloc (i : ℕ)
  | newFails (i : ℕ)
  | link (i : ℕ) (master : Option ℕ)
  | confirm (i : ℕ)
  | find (i : ℕ)
  | attach (i : ℕ)
  | corpse (i : ℕ)
  | delTimer (i : ℕ)
  | death (i : ℕ)
  | put (i : ℕ)
  | destroy (i : ℕ)
  | putMaster (i : ℕ)
  | free (i : ℕ)

def step (s : State) : Event → State
  | .alloc i => ipConntrackAlloc s i
  | .newFails i => ipConntrackFree s i
  | .link i master => initConntrack s i master
  | .confirm i => ipConntrackConfirm s i
  | .find i | .attach i | .corpse i => nfConntrackGet s i
  | .delTimer i => { s with timer := Function.update s.timer i .running }
  | .death i => deathByTimeout s i
  | .put i => ipConntrackPut s i
  | .destroy i => destroyConntrack s i
  | .putMaster i => putMaster s i
  | .free i => freeConntrack s i

/-- The calls of `destroy_conntrack` that have started and not ended. -/
def underWay (s : State) (i : ℕ) : ℕ := s.dying i + s.unlinked i + s.freeing i

/-- Not yet in a list: its caller alone knows it. -/
def Fresh (s : State) (i : ℕ) : Prop :=
  i ∈ s.slab ∧ i ∉ s.unconfirmed ∧ s.confirmed i = false ∧ s.unlinked i = 0 ∧ s.freeing i = 0

instance (s : State) (i : ℕ) : Decidable (Fresh s i) :=
  inferInstanceAs (Decidable (_ ∧ _ ∧ _ ∧ _ ∧ _))

/-- The allocator hands out what is free, lists are searched for what is in them, callers use
what they hold, and an expectation that is met has a confirmed master. -/
def Proper (s : State) : Event → Prop
  | .alloc i => i ∉ s.slab
  | .newFails i | .link i none => Fresh s i
  | .link i (some m) => Fresh s i ∧ s.confirmed m = true
  | .confirm i => 0 < s.held i ∧ i ∈ s.unconfirmed
  | .find i => i ∈ s.hashed
  | .attach i | .put i => 0 < s.held i ∧ ¬ Fresh s i
  | .corpse i => i ∈ s.hashed ∨ i ∈ s.unconfirmed
  | .delTimer i => s.timer i = .pending
  | .death i => s.timer i = .running
  | .destroy i => 0 < s.dying i
  | .putMaster i => 0 < s.unlinked i
  | .free i => 0 < s.freeing i

/-- No reference is taken to a connection whose last one has gone. -/
def Spares (s : State) : Event → Prop
  | .corpse i => s.use i ≠ 0
  | .link _ (some m) => s.use m ≠ 0
  | _ => True

instance (s : State) : (e : Event) → Decidable (Proper s e)
  | .alloc _ => inferInstanceAs (Decidable (_ ∉ _))
  | .newFails _ | .link _ none => inferInstanceAs (Decidable (Fresh s _))
  | .link _ (some _) => inferInstanceAs (Decidable (Fresh s _ ∧ _ = _))
  | .confirm _ => inferInstanceAs (Decidable (0 < _ ∧ _ ∈ _))
  | .find _ => inferInstanceAs (Decidable (_ ∈ _))
  | .attach _ | .put _ => inferInstanceAs (Decidable (0 < _ ∧ ¬ Fresh s _))
  | .corpse _ => inferInstanceAs (Decidable (_ ∈ _ ∨ _ ∈ _))
  | .delTimer _ | .death _ => inferInstanceAs (Decidable (_ = _))
  | .destroy _ | .putMaster _ | .free _ => inferInstanceAs (Decidable (0 < _))

instance (s : State) : (e : Event) → Decidable (Spares s e)
  | .corpse _ | .link _ (some _) => inferInstanceAs (Decidable (_ ≠ _))
  | .alloc _ | .newFails _ | .link _ none | .confirm _ | .find _ | .attach _ | .delTimer _
  | .death _ | .put _ | .destroy _ | .putMaster _ | .free _ => inferInstanceAs (Decidable True)

def initial : State :=
  ⟨[], [], [], fun _ => .idle, fun _ => 0, fun _ => false, fun _ => none, 0, fun _ => 0, fun _ => 0,
    fun _ => 0, fun _ => 0⟩

def ofTimer : Timer → ℕ
  | .idle => 0
  | .pending | .running => 1

/-- The master to which the connection has a reference, until its destruction gives it back. -/
def patron (s : State) (i : ℕ) : Option ℕ := if s.freeing i = 0 then s.master i else none

/-- How many connections that were expected by this one refer to it. -/
def children (s : State) (m : ℕ) : ℕ := s.slab.countP fun j => patron s j = some m

structure Life (s : State) : Prop where
  slab : s.slab.Nodup
  unconfirmed : s.unconfirmed.Nodup
  hashed : s.hashed.Nodup
  timer : ∀ i, i ∈ s.hashed ↔ s.timer i ≠ .idle
  confirmed : ∀ i, i ∈ s.hashed → s.confirmed i = true
  waiting : ∀ i, i ∈ s.unconfirmed → i ∈ s.slab ∧ s.confirmed i = false ∧ s.unlinked i = 0 ∧
    s.freeing i = 0
  known : ∀ i, s.confirmed i = true → i ∈ s.slab
  refs : ∀ i, i ∈ s.slab → s.use i = s.held i + ofTimer (s.timer i) + children s i
  fresh : ∀ i, Fresh s i → s.held i = 1 ∧ children s i = 0 ∧ s.master i = none
  dying : ∀ i, i ∈ s.slab → underWay s i = if s.use i = 0 then 1 else 0
  free : ∀ i, i ∉ s.slab → s.use i = 0 ∧ s.held i = 0 ∧ underWay s i = 0
  master : ∀ i, i ∈ s.slab → ∀ m, patron s i = some m → m ∈ s.slab
  count : s.count = s.slab.length

section Children

variable {s : State} {i m : ℕ} {l : List ℕ} {f : ℕ → Option ℕ}

theorem countP_split (hi : i ∈ l) : l.countP (fun j => f j = some m) =
    (l.erase i).countP (fun j => f j = some m) + if f i = some m then 1 else 0 := by
  rw [(List.perm_cons_erase hi).countP_eq, List.countP_cons]
  simp

theorem countP_erase_update (hl : l.Nodup) (v : Option ℕ) :
    (l.erase i).countP (fun j => Function.update f i v j = some m) =
      (l.erase i).countP fun j => f j = some m := by
  refine List.countP_congr fun j hj => ?_
  rw [Function.update_of_ne (hl.mem_erase_iff.mp hj).1]

theorem countP_of_not_mem (hi : i ∉ l) (v : Option ℕ) :
    l.countP (fun j => Function.update f i v j = some m) = l.countP fun j => f j = some m := by
  refine List.countP_congr fun j hj => ?_
  have hji : j ≠ i := fun e => hi (e ▸ hj)
  rw [Function.update_of_ne hji]

theorem children_eq_zero (h : ∀ j ∈ s.slab, patron s j ≠ some m) : children s m = 0 := by
  rw [children, List.countP_eq_zero]
  exact fun j hj => by simpa using h j hj

theorem ne_of_children_eq_zero (h : children s m = 0) : ∀ j ∈ s.slab, patron s j ≠ some m := by
  rw [children, List.countP_eq_zero] at h
  exact fun j hj => by simpa using h j hj

theorem children_update {t : State} {v : Option ℕ} (hi : i ∈ s.slab) (hnodup : s.slab.Nodup)
    (hslab : t.slab = s.slab) (hpatron : patron t = Function.update (patron s) i v) (m : ℕ) :
    children t m + (if patron s i = some m then 1 else 0) =
      children s m + if v = some m then 1 else 0 := by
  have hbefore := countP_split (m := m) (f := patron s) hi
  have hafter := countP_split (m := m) (f := Function.update (patron s) i v) hi
  rw [countP_erase_update hnodup, Function.update_self] at hafter
  rw [children, children, hslab, hpatron, hbefore, hafter]
  omega

end Children

section Events

variable {s : State} {i m : ℕ}

theorem Life.children_of_free (hs : Life s) (hi : i ∉ s.slab) : children s i = 0 :=
  children_eq_zero fun j hj h => hi (hs.master j hj i h)

theorem Life.mem_of_hashed (hs : Life s) (hi : i ∈ s.hashed) : i ∈ s.slab :=
  hs.known i (hs.confirmed i hi)

theorem Life.mem_of_held (hs : Life s) (hi : 0 < s.held i) : i ∈ s.slab := by
  by_contra h
  exact absurd (hs.free i h).2.1 (Nat.ne_of_gt hi)

theorem Life.use_of_hashed (hs : Life s) (hi : i ∈ s.hashed) : s.use i ≠ 0 := by
  have hrefs := hs.refs i (hs.mem_of_hashed hi)
  have htimer := (hs.timer i).mp hi
  cases h : s.timer i with
  | idle => exact absurd h htimer
  | pending | running =>
    rw [h, ofTimer] at hrefs
    omega

theorem Life.underWay_of_use (hs : Life s) (hi : i ∈ s.slab) (huse : s.use i ≠ 0) :
    underWay s i = 0 := by
  rw [hs.dying i hi, if_neg huse]

/-- A connection that is in a list may change hands and be counted anew: the others keep what they
had, and its own count is still that of its holders. -/
theorem Life.recount (hs : Life s) (hi : i ∈ s.slab) (huse : s.use i ≠ 0) (hfresh : ¬ Fresh s i)
    {u k d : ℕ} (hu : u = k + ofTimer (s.timer i) + children s i)
    (hd : d = if u = 0 then 1 else 0) :
    Life { s with
      use := Function.update s.use i u
      held := Function.update s.held i k
      dying := Function.update s.dying i d } := by
  have hnone := hs.underWay_of_use hi huse
  refine ⟨hs.slab, hs.unconfirmed, hs.hashed, hs.timer, hs.confirmed, hs.waiting, hs.known,
    fun j hj => ?_, fun j hj => ?_, fun j hj => ?_, fun j hj => ?_, hs.master, hs.count⟩
  · by_cases hji : j = i
    · subst j
      simpa [children, patron] using hu
    · simpa [children, patron, hji] using hs.refs j hj
  · have hji : j ≠ i := by
      rintro rfl
      exact hfresh hj
    simpa [children, patron, hji] using hs.fresh j hj
  · by_cases hji : j = i
    · subst j
      simp only [underWay, Nat.add_eq_zero_iff] at hnone
      simpa [underWay, hnone.1.2, hnone.2] using hd
    · simpa [underWay, hji] using hs.dying j hj
  · have hji : j ≠ i := by
      rintro rfl
      exact hj hi
    simpa [underWay, hji] using hs.free j hj

theorem get_keeps (hs : Life s) (hi : i ∈ s.slab) (huse : s.use i ≠ 0) (hfresh : ¬ Fresh s i) :
    Life (nfConntrackGet s i) := by
  have hrefs := hs.refs i hi
  have hnone := hs.underWay_of_use hi huse
  have hdying : s.dying i = 0 := by
    rw [underWay] at hnone
    omega
  have h := hs.recount hi huse hfresh (u := s.use i + 1) (k := s.held i + 1) (by omega)
    (hdying.trans (if_neg (Nat.succ_ne_zero _)).symm)
  rwa [Function.update_eq_self] at h

theorem put_keeps (hs : Life s) (hheld : 0 < s.held i) (hfresh : ¬ Fresh s i) :
    Life (ipConntrackPut s i) := by
  have hi := hs.mem_of_held hheld
  have hrefs := hs.refs i hi
  have hpos : s.use i ≠ 0 := by omega
  have hnone := hs.underWay_of_use hi hpos
  have hdying : s.dying i = 0 := by
    rw [underWay] at hnone
    omega
  have hlast : s.use i - 1 = 0 ↔ s.use i = 1 := by omega
  exact hs.recount hi hpos hfresh (by omega) (by simp only [hdying, hlast, Nat.zero_add])

theorem alloc_keeps (hs : Life s) (hi : i ∉ s.slab) : Life (ipConntrackAlloc s i) := by
  have hpatron : patron (ipConntrackAlloc s i) = Function.update (patron s) i none := by
    funext j
    by_cases hji : j = i <;> simp [patron, ipConntrackAlloc, hji]
  have hchildren (m : ℕ) : children (ipConntrackAlloc s i) m = children s m := by
    rw [children, hpatron]
    simp only [ipConntrackAlloc, List.countP_cons, Function.update_self]
    exact countP_of_not_mem hi none
  have hhashed : i ∉ s.hashed := fun h => hi (hs.mem_of_hashed h)
  have hwaiting : i ∉ s.unconfirmed := fun h => hi (hs.waiting i h).1
  have hunder (j : ℕ) : underWay (ipConntrackAlloc s i) j = underWay s j := rfl
  constructor
  · exact List.nodup_cons.mpr ⟨hi, hs.slab⟩
  · exact hs.unconfirmed
  · exact hs.hashed
  · intro j
    by_cases hji : j = i
    · simp [ipConntrackAlloc, hji, hhashed]
    · simpa [ipConntrackAlloc, hji] using hs.timer j
  · intro j hj
    have hji : j ≠ i := fun e => hhashed (e ▸ hj)
    simpa [ipConntrackAlloc, hji] using hs.confirmed j hj
  · intro j hj
    have hji : j ≠ i := fun e => hwaiting (e ▸ hj)
    simpa [ipConntrackAlloc, hji] using hs.waiting j hj
  · intro j hj
    by_cases hji : j = i
    · exact hji ▸ List.mem_cons_self
    · exact List.mem_cons_of_mem i (hs.known j (by simpa [ipConntrackAlloc, hji] using hj))
  · intro j hj
    rw [hchildren]
    by_cases hji : j = i
    · simp [ipConntrackAlloc, hji, ofTimer, hs.children_of_free hi]
    · simpa [ipConntrackAlloc, hji] using hs.refs j ((List.mem_cons.mp hj).resolve_left hji)
  · intro j hj
    rw [hchildren]
    by_cases hji : j = i
    · simp [ipConntrackAlloc, hji, hs.children_of_free hi]
    · have hj' : Fresh s j := by
        obtain ⟨hslab, hlist, hconf, hcalls⟩ := hj
        exact ⟨(List.mem_cons.mp hslab).resolve_left hji, hlist,
          by simpa [ipConntrackAlloc, hji] using hconf, hcalls⟩
      simpa [ipConntrackAlloc, hji] using hs.fresh j hj'
  · intro j hj
    rw [hunder]
    by_cases hji : j = i
    · simp [ipConntrackAlloc, hji, (hs.free i hi).2.2]
    · simpa [ipConntrackAlloc, hji] using hs.dying j ((List.mem_cons.mp hj).resolve_left hji)
  · intro j hj
    have hj' : j ∉ i :: s.slab := hj
    obtain ⟨hji, hj'⟩ := not_or.mp fun h => hj' (List.mem_cons.mpr h)
    rw [hunder]
    simpa [ipConntrackAlloc, hji] using hs.free j hj'
  · intro j hj k hk
    rw [hpatron] at hk
    by_cases hji : j = i
    · rw [hji, Function.update_self] at hk
      cases hk
    · rw [Function.update_of_ne hji] at hk
      exact List.mem_cons_of_mem i (hs.master j ((List.mem_cons.mp hj).resolve_left hji) k hk)
  · simp [ipConntrackAlloc, hs.count]

/-- A connection leaves the slab, and nothing else changes. -/
structure Gone (s t : State) (i : ℕ) : Prop where
  slab : t.slab = s.slab.erase i
  unconfirmed : t.unconfirmed = s.unconfirmed
  hashed : t.hashed = s.hashed
  timer : t.timer = s.timer
  use : t.use = Function.update s.use i 0
  confirmed : t.confirmed = Function.update s.confirmed i false
  patron : patron t = Function.update (patron s) i none
  count : t.count = s.count - 1
  freed : t.held i = 0 ∧ underWay t i = 0
  others : ∀ j, j ≠ i → t.held j = s.held j ∧ t.dying j = s.dying j ∧
    t.unlinked j = s.unlinked j ∧ t.freeing j = s.freeing j ∧ t.master j = s.master j

theorem Gone.keeps {t : State} (h : Gone s t i) (hs : Life s) (hi : i ∈ s.slab)
    (hout : i ∉ s.unconfirmed) (hidle : s.timer i = .idle) (hnone : children s i = 0)
    (hpatron : ConnectionLife.patron s i = none) : Life t := by
  have hslab (j : ℕ) : j ∈ t.slab ↔ j ≠ i ∧ j ∈ s.slab := by
    rw [h.slab, hs.slab.mem_erase_iff]
  have hconf (j : ℕ) (hj : j ≠ i) : t.confirmed j = s.confirmed j := by
    rw [h.confirmed, Function.update_of_ne hj]
  have huse (j : ℕ) (hj : j ≠ i) : t.use j = s.use j := by
    rw [h.use, Function.update_of_ne hj]
  have hunder (j : ℕ) (hj : j ≠ i) : underWay t j = underWay s j := by
    obtain ⟨-, hdying, hunlinked, hfreeing, -⟩ := h.others j hj
    rw [underWay, underWay, hdying, hunlinked, hfreeing]
  have hchildren (m : ℕ) : children t m = children s m := by
    have hsplit := countP_split (m := m) (f := ConnectionLife.patron s) hi
    rw [hpatron, if_neg nofun, Nat.add_zero] at hsplit
    rw [children, children, h.slab, h.patron, countP_erase_update hs.slab, hsplit]
  have hgone : i ∉ s.hashed := fun hin => (hs.timer i).mp hin hidle
  constructor
  · rw [h.slab]
    exact hs.slab.erase i
  · rw [h.unconfirmed]
    exact hs.unconfirmed
  · rw [h.hashed]
    exact hs.hashed
  · rw [h.hashed, h.timer]
    exact hs.timer
  · intro j hj
    rw [h.hashed] at hj
    have hji : j ≠ i := fun e => hgone (e ▸ hj)
    rw [hconf j hji]
    exact hs.confirmed j hj
  · intro j hj
    rw [h.unconfirmed] at hj
    have hji : j ≠ i := fun e => hout (e ▸ hj)
    obtain ⟨-, -, hunlinked, hfreeing, -⟩ := h.others j hji
    rw [hconf j hji, hslab, hunlinked, hfreeing]
    exact ⟨⟨hji, (hs.waiting j hj).1⟩, (hs.waiting j hj).2⟩
  · intro j hj
    by_cases hji : j = i
    · simp [h.confirmed, hji] at hj
    · rw [hconf j hji] at hj
      exact (hslab j).mpr ⟨hji, hs.known j hj⟩
  · intro j hj
    obtain ⟨hji, hj⟩ := (hslab j).mp hj
    rw [huse j hji, (h.others j hji).1, h.timer, hchildren]
    exact hs.refs j hj
  · intro j hj
    obtain ⟨hji, hj'⟩ := (hslab j).mp hj.1
    obtain ⟨hheld, -, hunlinked, hfreeing, hmaster⟩ := h.others j hji
    rw [hheld, hmaster, hchildren]
    refine hs.fresh j ⟨hj', h.unconfirmed ▸ hj.2.1, (hconf j hji).symm.trans hj.2.2.1, ?_⟩
    rw [← hunlinked, ← hfreeing]
    exact hj.2.2.2
  · intro j hj
    obtain ⟨hji, hj⟩ := (hslab j).mp hj
    rw [hunder j hji, huse j hji]
    exact hs.dying j hj
  · intro j hj
    by_cases hji : j = i
    · subst j
      exact ⟨by rw [h.use, Function.update_self], h.freed⟩
    · rw [huse j hji, hunder j hji, (h.others j hji).1]
      exact hs.free j fun hin => hj ((hslab j).mpr ⟨hji, hin⟩)
  · intro j hj k hk
    obtain ⟨hji, hj⟩ := (hslab j).mp hj
    rw [h.patron, Function.update_of_ne hji] at hk
    have hki : k ≠ i := by
      rintro rfl
      exact ne_of_children_eq_zero hnone j hj hk
    exact (hslab k).mpr ⟨hki, hs.master j hj k hk⟩
  · rw [h.count, h.slab, hs.count, List.length_erase_of_mem hi]

theorem Fresh.idle (hs : Life s) (hi : Fresh s i) : s.timer i = .idle := by
  by_contra h
  have hin := hs.confirmed i ((hs.timer i).mpr h)
  rw [hi.2.2.1] at hin
  cases hin

theorem patron_free (s : State) (i : ℕ) :
    patron (ipConntrackFree s i) = Function.update (patron s) i none := by
  funext j
  by_cases hji : j = i <;> simp [patron, ipConntrackFree, hji]

theorem newFails_gone (hs : Life s) (hi : Fresh s i) : Gone s (ipConntrackFree s i) i := by
  have hunder : underWay s i = 0 := by
    have hheld := (hs.fresh i hi).1
    have hrefs := hs.refs i hi.1
    exact hs.underWay_of_use hi.1 (by omega)
  refine ⟨rfl, rfl, rfl, rfl, rfl, rfl, patron_free s i, rfl, ⟨Function.update_self .., hunder⟩,
    fun j hj => ?_⟩
  simp [ipConntrackFree, hj]

theorem newFails_keeps (hs : Life s) (hi : Fresh s i) : Life (ipConntrackFree s i) := by
  obtain ⟨-, hnone, hmaster⟩ := hs.fresh i hi
  refine (newFails_gone hs hi).keeps hs hi.1 hi.2.1 (Fresh.idle hs hi) hnone ?_
  rw [patron, hmaster, ite_self]

theorem Life.of_underWay (hs : Life s) (hi : 0 < s.dying i + s.unlinked i + s.freeing i) :
    i ∈ s.slab ∧ s.use i = 0 ∧ s.held i = 0 ∧ s.timer i = .idle ∧ children s i = 0 ∧
      s.dying i + s.unlinked i + s.freeing i = 1 := by
  have hin : i ∈ s.slab := by
    by_contra h
    exact absurd (hs.free i h).2.2 (Nat.ne_of_gt hi)
  have hcalls : s.dying i + s.unlinked i + s.freeing i = if s.use i = 0 then 1 else 0 :=
    hs.dying i hin
  have huse : s.use i = 0 := by
    by_contra h
    rw [if_neg h] at hcalls
    exact absurd hcalls (Nat.ne_of_gt hi)
  have hrefs := hs.refs i hin
  have hidle : s.timer i = .idle := by
    cases h : s.timer i with
    | idle => rfl
    | pending | running =>
      rw [h, ofTimer] at hrefs
      omega
  exact ⟨hin, huse, by omega, hidle, by omega, by rw [hcalls, if_pos huse]⟩

/-- When it gets the lock, an unconfirmed connection is in its list. -/
theorem Life.listed_of_dying (hs : Life s) (hi : 0 < s.dying i) (hconf : s.confirmed i = false) :
    i ∈ s.unconfirmed := by
  obtain ⟨hin, -, hheld, -, -, hone⟩ := hs.of_underWay (i := i) (by omega)
  by_contra hout
  have := (hs.fresh i ⟨hin, hout, hconf, by omega, by omega⟩).1
  omega

theorem Life.unlisted (hs : Life s) (hi : 0 < s.unlinked i + s.freeing i) : i ∉ s.unconfirmed := by
  intro hin
  have := (hs.waiting i hin).2.2
  omega

theorem destroy_keeps (hs : Life s) (hi : 0 < s.dying i) : Life (destroyConntrack s i) := by
  have hlist (j : ℕ) : j ∈ (destroyConntrack s i).unconfirmed ↔ j ≠ i ∧ j ∈ s.unconfirmed := by
    simp only [destroyConntrack]
    split
    · next hc =>
      refine ⟨fun hj => ⟨?_, hj⟩, And.right⟩
      rintro rfl
      rw [(hs.waiting j hj).2.1] at hc
      cases hc
    · exact hs.unconfirmed.mem_erase_iff
  have hunder (j : ℕ) : underWay (destroyConntrack s i) j = underWay s j := by
    by_cases hji : j = i
    · subst j
      simp only [underWay, destroyConntrack, Function.update_self]
      omega
    · simp [underWay, destroyConntrack, hji]
  refine ⟨hs.slab, ?_, hs.hashed, hs.timer, hs.confirmed, fun j hj => ?_, hs.known, hs.refs,
    fun j hj => ?_, fun j hj => (hunder j).trans (hs.dying j hj), fun j hj => ?_, hs.master,
    hs.count⟩
  · simp only [destroyConntrack]
    split
    · exact hs.unconfirmed
    · exact hs.unconfirmed.erase i
  · obtain ⟨hji, hj⟩ := (hlist j).mp hj
    simpa [destroyConntrack, hji] using hs.waiting j hj
  · obtain ⟨hslab, hout, hconf, hunlinked, hfreeing⟩ := hj
    have hji : j ≠ i := by
      rintro rfl
      simp [destroyConntrack] at hunlinked
    exact hs.fresh j ⟨hslab, fun hin => hout ((hlist j).mpr ⟨hji, hin⟩), hconf,
      by simpa [destroyConntrack, hji] using hunlinked, hfreeing⟩
  · rw [hunder]
    exact hs.free j hj

theorem free_gone (hs : Life s) (hi : 0 < s.freeing i) : Gone s (freeConntrack s i) i := by
  obtain ⟨-, -, -, -, -, hone⟩ := hs.of_underWay (i := i) (by omega)
  refine ⟨rfl, rfl, rfl, rfl, rfl, rfl, ?_, rfl, ⟨Function.update_self .., ?_⟩, fun j hj => ?_⟩
  · rw [freeConntrack, patron_free]
    funext j
    by_cases hji : j = i <;> simp [patron, hji]
  · simp only [underWay, freeConntrack, ipConntrackFree, Function.update_self]
    omega
  · simp [freeConntrack, ipConntrackFree, hj]

theorem free_keeps (hs : Life s) (hi : 0 < s.freeing i) : Life (freeConntrack s i) := by
  obtain ⟨hin, -, -, hidle, hnone, -⟩ := hs.of_underWay (i := i) (by omega)
  exact (free_gone hs hi).keeps hs hin (hs.unlisted (by omega)) hidle hnone
    (if_neg (Nat.ne_of_gt hi))

/-- The master lives as long as it has not been given back. -/
theorem Life.master_kept (hs : Life s) (hi : 0 < s.unlinked i) (hm : s.master i = some m) :
    m ∈ s.slab ∧ m ≠ i ∧ s.use m ≠ 0 ∧ patron s i = some m := by
  obtain ⟨hin, huse, -, -, hnone, hone⟩ := hs.of_underWay (i := i) (by omega)
  have hpatron : patron s i = some m := (if_pos (by omega)).trans hm
  have hslab := hs.master i hin m hpatron
  have hchild : children s m ≠ 0 := fun h => ne_of_children_eq_zero h i hin hpatron
  refine ⟨hslab, ?_, ?_, hpatron⟩
  · rintro rfl
    exact hchild hnone
  · have hrefs := hs.refs m hslab
    omega

theorem putMaster_keeps (hs : Life s) (hi : 0 < s.unlinked i) : Life (putMaster s i) := by
  obtain ⟨hin, -, -, -, -, hone⟩ := hs.of_underWay (i := i) (by omega)
  have hout := hs.unlisted (i := i) (by omega)
  have hself : patron s i = s.master i := if_pos (by omega)
  have hslab : (putMaster s i).slab = s.slab := by
    rw [putMaster]
    split <;> rfl
  have hlist : (putMaster s i).unconfirmed = s.unconfirmed := by
    rw [putMaster]
    split <;> rfl
  have hhashed : (putMaster s i).hashed = s.hashed := by
    rw [putMaster]
    split <;> rfl
  have htimer : (putMaster s i).timer = s.timer := by
    rw [putMaster]
    split <;> rfl
  have hconf : (putMaster s i).confirmed = s.confirmed := by
    rw [putMaster]
    split <;> rfl
  have hheld : (putMaster s i).held = s.held := by
    rw [putMaster]
    split <;> rfl
  have hmasters : (putMaster s i).master = s.master := by
    rw [putMaster]
    split <;> rfl
  have hunlinked (j : ℕ) (hji : j ≠ i) : (putMaster s i).unlinked j = s.unlinked j := by
    rw [putMaster]
    split <;> simp [hji]
  have hfreeing : (putMaster s i).freeing = Function.update s.freeing i (s.freeing i + 1) := by
    rw [putMaster]
    split <;> rfl
  have huse (j : ℕ) : (putMaster s i).use j = s.use j - if s.master i = some j then 1 else 0 := by
    cases hm : s.master i with
    | none => simp [putMaster, hm]
    | some m =>
      by_cases hjm : j = m
      · simp [putMaster, hm, hjm]
      · simp [putMaster, hm, hjm, Ne.symm hjm]
  have hunder (j : ℕ) : underWay (putMaster s i) j =
      underWay s j + if s.master i = some j ∧ s.use j = 1 then 1 else 0 := by
    have hmoved : (putMaster s i).unlinked j + (putMaster s i).freeing j =
        s.unlinked j + s.freeing j := by
      rw [hfreeing]
      by_cases hji : j = i
      · subst j
        rw [putMaster]
        split <;> simp only [Function.update_self] <;> omega
      · rw [hunlinked j hji, Function.update_of_ne hji]
    have hstarted : (putMaster s i).dying j =
        s.dying j + if s.master i = some j ∧ s.use j = 1 then 1 else 0 := by
      cases hm : s.master i with
      | none => simp [putMaster, hm]
      | some m =>
        by_cases hjm : j = m
        · simp [putMaster, hm, hjm]
        · simp [putMaster, hm, hjm, Ne.symm hjm]
    rw [underWay, underWay, hstarted]
    omega
  have hpatron : patron (putMaster s i) = Function.update (patron s) i none := by
    funext j
    rw [patron, hfreeing, hmasters]
    by_cases hji : j = i <;> simp [patron, hji]
  have hchildren (j : ℕ) :
      children (putMaster s i) j + (if s.master i = some j then 1 else 0) = children s j := by
    have h := children_update hin hs.slab hslab hpatron j
    rwa [hself, if_neg (Option.some_ne_none j).symm, Nat.add_zero] at h
  constructor
  · rw [hslab]
    exact hs.slab
  · rw [hlist]
    exact hs.unconfirmed
  · rw [hhashed]
    exact hs.hashed
  · rw [hhashed, htimer]
    exact hs.timer
  · rw [hhashed, hconf]
    exact hs.confirmed
  · rw [hlist, hslab, hconf, hfreeing]
    intro j hj
    have hji : j ≠ i := fun e => hout (e ▸ hj)
    rw [hunlinked j hji, Function.update_of_ne hji]
    exact hs.waiting j hj
  · rw [hconf, hslab]
    exact hs.known
  · rw [hslab, hheld, htimer]
    intro j hj
    have hrefs := hs.refs j hj
    have hj := hchildren j
    rw [huse]
    omega
  · intro j hj
    obtain ⟨hjslab, hjout, hjconf, hjunlinked, hjfreeing⟩ := hj
    have hji : j ≠ i := by
      rintro rfl
      simp [hfreeing] at hjfreeing
    rw [hslab] at hjslab
    rw [hlist] at hjout
    rw [hconf] at hjconf
    rw [hunlinked j hji] at hjunlinked
    rw [hfreeing, Function.update_of_ne hji] at hjfreeing
    obtain ⟨hone, hnone, hmaster⟩ := hs.fresh j ⟨hjslab, hjout, hjconf, hjunlinked, hjfreeing⟩
    have hj := hchildren j
    rw [hheld, hmasters]
    exact ⟨hone, by omega, hmaster⟩
  · rw [hslab]
    intro j hj
    rw [hunder, huse, hs.dying j hj]
    by_cases hm : s.master i = some j
    · have hjuse := (hs.master_kept hi hm).2.2.1
      simp only [hm, true_and, if_true, if_neg hjuse, Nat.zero_add]
      exact if_congr (by omega) rfl rfl
    · simp only [hm, false_and, if_false, Nat.add_zero, Nat.sub_zero]
  · rw [hslab, hheld]
    intro j hj
    have hm : s.master i ≠ some j := fun h => hj (hs.master_kept hi h).1
    simp only [hunder, huse, hm, false_and, if_false, Nat.add_zero, Nat.sub_zero]
    exact hs.free j hj
  · rw [hslab, hpatron]
    intro j hj k hk
    by_cases hji : j = i
    · rw [hji, Function.update_self] at hk
      cases hk
    · rw [Function.update_of_ne hji] at hk
      exact hs.master j hj k hk
  · rw [hslab, putMaster]
    split <;> exact hs.count

theorem confirm_keeps (hs : Life s) (hheld : 0 < s.held i) (hi : i ∈ s.unconfirmed) :
    Life (ipConntrackConfirm s i) := by
  obtain ⟨hslab, hconf, -, -⟩ := hs.waiting i hi
  have hout : i ∉ s.hashed := fun h => by
    rw [hs.confirmed i h] at hconf
    cases hconf
  have hidle : s.timer i = .idle := by
    by_contra h
    exact hout ((hs.timer i).mpr h)
  have hchildren (m : ℕ) : children (ipConntrackConfirm s i) m = children s m := rfl
  have hunder (j : ℕ) : underWay (ipConntrackConfirm s i) j = underWay s j := rfl
  have hlist (j : ℕ) : j ∈ (ipConntrackConfirm s i).unconfirmed ↔ j ≠ i ∧ j ∈ s.unconfirmed :=
    hs.unconfirmed.mem_erase_iff
  have huse : s.use i ≠ 0 := by
    have := hs.refs i hslab
    omega
  refine ⟨hs.slab, hs.unconfirmed.erase i, List.nodup_cons.mpr ⟨hout, hs.hashed⟩, fun j => ?_,
    fun j hj => ?_, fun j hj => ?_, fun j hj => ?_, fun j hj => ?_, fun j hj => ?_, fun j hj => ?_,
    fun j hj => ?_, hs.master, hs.count⟩
  · by_cases hji : j = i
    · simp [ipConntrackConfirm, hji]
    · simpa [ipConntrackConfirm, hji] using hs.timer j
  · by_cases hji : j = i
    · simp [ipConntrackConfirm, hji]
    · have hin : j ∈ s.hashed := (List.mem_cons.mp hj).resolve_left hji
      simpa [ipConntrackConfirm, hji] using hs.confirmed j hin
  · obtain ⟨hji, hj⟩ := (hlist j).mp hj
    simpa [ipConntrackConfirm, hji] using hs.waiting j hj
  · by_cases hji : j = i
    · exact hji ▸ hslab
    · exact hs.known j (by simpa [ipConntrackConfirm, hji] using hj)
  · have hrefs := hs.refs j hj
    rw [hchildren]
    by_cases hji : j = i
    · subst j
      rw [hidle] at hrefs
      simp only [ipConntrackConfirm, Function.update_self, ofTimer] at hrefs ⊢
      omega
    · simpa [ipConntrackConfirm, hji] using hrefs
  · obtain ⟨hjslab, hjout, hjconf, hjcalls⟩ := hj
    have hji : j ≠ i := by
      rintro rfl
      simp [ipConntrackConfirm] at hjconf
    have hfresh : Fresh s j := ⟨hjslab, fun hin => hjout ((hlist j).mpr ⟨hji, hin⟩),
      by simpa [ipConntrackConfirm, hji] using hjconf, hjcalls⟩
    rw [hchildren]
    exact hs.fresh j hfresh
  · have hdying := hs.dying j hj
    rw [hunder]
    by_cases hji : j = i
    · subst j
      simpa [ipConntrackConfirm, huse] using hdying
    · simpa [ipConntrackConfirm, hji] using hdying
  · have hji : j ≠ i := by
      rintro rfl
      exact hj hslab
    rw [hunder]
    simpa [ipConntrackConfirm, hji] using hs.free j hj

theorem delTimer_keeps (hs : Life s) (hi : s.timer i = .pending) :
    Life { s with timer := Function.update s.timer i .running } := by
  have hchildren (m : ℕ) :
      children { s with timer := Function.update s.timer i .running } m = children s m := rfl
  refine ⟨hs.slab, hs.unconfirmed, hs.hashed, fun j => ?_, hs.confirmed, hs.waiting, hs.known,
    fun j hj => ?_, hs.fresh, hs.dying, hs.free, hs.master, hs.count⟩
  · by_cases hji : j = i
    · subst j
      simp [hs.timer i, hi]
    · simpa [hji] using hs.timer j
  · have hrefs := hs.refs j hj
    rw [hchildren]
    by_cases hji : j = i
    · subst j
      rw [hi] at hrefs
      simpa [ofTimer] using hrefs
    · simpa [hji] using hrefs

theorem death_keeps (hs : Life s) (hi : s.timer i = .running) : Life (deathByTimeout s i) := by
  have hin : i ∈ s.hashed := (hs.timer i).mpr (by rw [hi]; nofun)
  have hslab : i ∈ s.slab := hs.mem_of_hashed hin
  have hchildren (m : ℕ) : children (deathByTimeout s i) m = children s m := rfl
  have hunder (j : ℕ) : underWay (deathByTimeout s i) j = underWay s j := rfl
  have hlist (j : ℕ) : j ∈ (deathByTimeout s i).hashed ↔ j ≠ i ∧ j ∈ s.hashed :=
    hs.hashed.mem_erase_iff
  refine ⟨hs.slab, hs.unconfirmed, hs.hashed.erase i, fun j => ?_, fun j hj => ?_, hs.waiting,
    hs.known, fun j hj => ?_, fun j hj => ?_, hs.dying, fun j hj => ?_, hs.master, hs.count⟩
  · rw [hlist]
    by_cases hji : j = i
    · simp [deathByTimeout, hji]
    · simp [deathByTimeout, hji, hs.timer j]
  · exact hs.confirmed j ((hlist j).mp hj).2
  · have hrefs := hs.refs j hj
    rw [hchildren]
    by_cases hji : j = i
    · subst j
      rw [hi] at hrefs
      simp only [deathByTimeout, Function.update_self, ofTimer] at hrefs ⊢
      omega
    · simpa [deathByTimeout, hji] using hrefs
  · have hji : j ≠ i := by
      rintro rfl
      have hconf : s.confirmed j = false := hj.2.2.1
      rw [hs.confirmed j hin] at hconf
      cases hconf
    rw [hchildren]
    simpa [deathByTimeout, hji] using hs.fresh j hj
  · have hji : j ≠ i := by
      rintro rfl
      exact hj hslab
    rw [hunder]
    simpa [deathByTimeout, hji] using hs.free j hj

theorem fresh_link {master : Option ℕ} {j : ℕ} (hj : Fresh (initConntrack s i master) j) :
    j ≠ i ∧ Fresh s j := by
  cases master with
  | none | some m =>
    obtain ⟨hslab, hout, hconf⟩ := hj
    obtain ⟨hji, hout⟩ := not_or.mp fun h => hout (List.mem_cons.mpr h)
    exact ⟨hji, hslab, hout, hconf⟩

theorem patron_link (hi : Fresh s i) (master : Option ℕ) :
    patron (initConntrack s i master) = Function.update (patron s) i master := by
  have hfreeing := hi.2.2.2.2
  funext j
  cases master <;> by_cases hji : j = i <;> simp [patron, initConntrack, hji, hfreeing]

theorem children_link (hs : Life s) (hi : Fresh s i) (master : Option ℕ) (m : ℕ) :
    children (initConntrack s i master) m = children s m + if master = some m then 1 else 0 := by
  have hself : patron s i = none := by rw [patron, (hs.fresh i hi).2.2, ite_self]
  have hslab : (initConntrack s i master).slab = s.slab := by cases master <;> rfl
  have h := children_update hi.1 hs.slab hslab (patron_link hi master) m
  rwa [hself, if_neg (Option.some_ne_none m).symm, Nat.add_zero] at h

theorem link_keeps (hs : Life s) (hi : Fresh s i) (master : Option ℕ)
    (hmaster : ∀ m, master = some m → s.confirmed m = true ∧ s.use m ≠ 0) :
    Life (initConntrack s i master) := by
  have hslab : (initConntrack s i master).slab = s.slab := by cases master <;> rfl
  have hlist : (initConntrack s i master).unconfirmed = i :: s.unconfirmed := by
    cases master <;> rfl
  have hhashed : (initConntrack s i master).hashed = s.hashed := by cases master <;> rfl
  have htimer : (initConntrack s i master).timer = s.timer := by cases master <;> rfl
  have hconf : (initConntrack s i master).confirmed = s.confirmed := by cases master <;> rfl
  have hheld : (initConntrack s i master).held = s.held := by cases master <;> rfl
  have hunder : underWay (initConntrack s i master) = underWay s := by cases master <;> rfl
  have hunlinked : (initConntrack s i master).unlinked = s.unlinked := by cases master <;> rfl
  have hfreeing : (initConntrack s i master).freeing = s.freeing := by cases master <;> rfl
  have hmasters : (initConntrack s i master).master = Function.update s.master i master := by
    cases master <;> rfl
  have huse (j : ℕ) : (initConntrack s i master).use j =
      s.use j + if master = some j then 1 else 0 := by
    cases master with
    | none => rfl
    | some m =>
      by_cases hj : j = m
      · simp [initConntrack, hj]
      · have hj' : m ≠ j := fun e => hj e.symm
        simp [initConntrack, hj, hj']
  constructor
  · rw [hslab]
    exact hs.slab
  · rw [hlist]
    exact List.nodup_cons.mpr ⟨hi.2.1, hs.unconfirmed⟩
  · rw [hhashed]
    exact hs.hashed
  · rw [hhashed, htimer]
    exact hs.timer
  · rw [hhashed, hconf]
    exact hs.confirmed
  · rw [hlist, hslab, hconf, hunlinked, hfreeing]
    intro j hj
    rcases List.mem_cons.mp hj with rfl | hj
    · exact ⟨hi.1, hi.2.2⟩
    · exact hs.waiting j hj
  · rw [hslab, hconf]
    exact hs.known
  · rw [hslab, htimer, hheld]
    intro j hj
    rw [children_link hs hi, huse, hs.refs j hj]
    omega
  · intro j hj
    obtain ⟨hji, hfresh⟩ := fresh_link hj
    obtain ⟨hone, hnone, hm⟩ := hs.fresh j hfresh
    have hno : master ≠ some j := fun e => by
      have := (hmaster j e).1
      rw [hfresh.2.2.1] at this
      cases this
    rw [hheld, children_link hs hi, if_neg hno, hmasters, Function.update_of_ne hji]
    exact ⟨hone, hnone, hm⟩
  · rw [hslab, hunder]
    intro j hj
    rw [huse, hs.dying j hj]
    by_cases hno : master = some j
    · rw [if_pos hno, if_neg (hmaster j hno).2, if_neg (Nat.succ_ne_zero _)]
    · rw [if_neg hno, Nat.add_zero]
  · rw [hslab, hheld, hunder]
    intro j hj
    have hno : master ≠ some j := fun e => hj (hs.known j (hmaster j e).1)
    rw [huse, if_neg hno]
    exact hs.free j hj
  · rw [hslab, patron_link hi]
    intro j hj m hm
    by_cases hji : j = i
    · rw [hji, Function.update_self] at hm
      exact hs.known m (hmaster m hm).1
    · rw [Function.update_of_ne hji] at hm
      exact hs.master j hj m hm
  · rw [hslab]
    cases master <;> exact hs.count

theorem step_life (hs : Life s) {e : Event} (he : Proper s e) (hspares : Spares s e) :
    Life (step s e) := by
  cases e with
  | alloc i => exact alloc_keeps hs he
  | newFails i => exact newFails_keeps hs he
  | link i master =>
    cases master with
    | none => exact link_keeps hs he none fun m hm => by cases hm
    | some m =>
      refine link_keeps hs he.1 (some m) fun k hk => ?_
      cases hk
      exact ⟨he.2, hspares⟩
  | confirm i => exact confirm_keeps hs he.1 he.2
  | find i =>
    have hin : i ∈ s.hashed := he
    refine get_keeps hs (hs.mem_of_hashed hin) (hs.use_of_hashed hin) fun h => ?_
    exact absurd (hs.confirmed i hin) (by rw [h.2.2.1]; nofun)
  | attach i =>
    have hin := hs.mem_of_held he.1
    have hrefs := hs.refs i hin
    have hheld : 0 < s.held i := he.1
    exact get_keeps hs hin (by omega) he.2
  | corpse i =>
    rcases he with hin | hin
    · refine get_keeps hs (hs.mem_of_hashed hin) hspares fun h => ?_
      exact absurd (hs.confirmed i hin) (by rw [h.2.2.1]; nofun)
    · exact get_keeps hs (hs.waiting i hin).1 hspares fun h => h.2.1 hin
  | delTimer i => exact delTimer_keeps hs he
  | death i => exact death_keeps hs he
  | put i => exact put_keeps hs he.1 he.2
  | destroy i => exact destroy_keeps hs he
  | putMaster i => exact putMaster_keeps hs he
  | free i => exact free_keeps hs he

theorem patron_ne_iff : patron s i ≠ some m ↔ (s.master i = some m → 0 < s.freeing i) := by
  by_cases h : s.freeing i = 0
  · simp [patron, h]
  · simp [patron, h, Nat.pos_of_ne_zero h]

end Events

theorem life_initial : Life initial := by
  constructor
  · exact List.nodup_nil
  · exact List.nodup_nil
  · exact List.nodup_nil
  · exact fun i => ⟨nofun, fun h => absurd rfl h⟩
  · exact nofun
  · exact nofun
  · exact nofun
  · exact nofun
  · exact fun i h => absurd h.1 List.not_mem_nil
  · exact nofun
  · exact fun i _ => ⟨rfl, rfl, rfl⟩
  · exact nofun
  · rfl

/-- Where no reference is taken from 0, a connection is destroyed once, exactly when no packet,
no running code and no timer refers to it and every connection that it is the master of has given
it back. Then it is out of the table and in the list it is taken out of, and the master that its
destruction gives back is alive. -/
theorem destroyed_once (es : List Event)
    (hes : GuardedRun.Along step (fun s e => Proper s e ∧ Spares s e) initial es) :
    let s := es.foldl step initial
    (∀ i ∈ s.slab, underWay s i = 1 ↔ s.held i = 0 ∧ s.timer i = .idle ∧
      ∀ j ∈ s.slab, s.master j = some i → 0 < s.freeing j) ∧
    (∀ i, 0 < underWay s i → underWay s i = 1 ∧ i ∈ s.slab ∧ i ∉ s.hashed) ∧
    (∀ i, 0 < s.dying i → s.confirmed i = false → i ∈ s.unconfirmed) ∧
    (∀ i m, 0 < s.unlinked i → s.master i = some m → m ∈ s.slab ∧ underWay s m = 0) ∧
    (∀ i, i ∉ s.slab → s.held i = 0 ∧ i ∉ s.hashed ∧ i ∉ s.unconfirmed ∧
      ∀ j ∈ s.slab, s.master j = some i → 0 < s.freeing j) ∧
    s.count = s.slab.length := by
  intro s
  have hs : Life s :=
    GuardedRun.foldl_keeps (fun s e h he => step_life h he.1 he.2) life_initial hes
  refine ⟨fun i hi => ⟨fun h => ?_, fun ⟨hheld, hidle, hnone⟩ => ?_⟩, fun i hi => ?_,
    fun i hi => hs.listed_of_dying hi, fun i m hi hm => ?_, fun i hi => ?_, hs.count⟩
  · have hpos : 0 < underWay s i := Nat.lt_of_lt_of_eq Nat.one_pos h.symm
    obtain ⟨-, -, hheld, hidle, hchildren, -⟩ := hs.of_underWay hpos
    exact ⟨hheld, hidle, fun j hj => patron_ne_iff.mp (ne_of_children_eq_zero hchildren j hj)⟩
  · have hchildren : children s i = 0 :=
      children_eq_zero fun j hj => patron_ne_iff.mpr (hnone j hj)
    have huse : s.use i = 0 := by
      rw [hs.refs i hi, hheld, hidle, hchildren]
      rfl
    rw [hs.dying i hi, if_pos huse]
  · obtain ⟨hslab, -, -, hidle, -, hone⟩ := hs.of_underWay hi
    exact ⟨hone, hslab, fun hin => (hs.timer i).mp hin hidle⟩
  · obtain ⟨hslab, -, huse, -⟩ := hs.master_kept hi hm
    exact ⟨hslab, hs.underWay_of_use hslab huse⟩
  · have hchildren := hs.children_of_free hi
    exact ⟨(hs.free i hi).2.1, fun hin => hi (hs.mem_of_hashed hin),
      fun hin => hi (hs.waiting i hin).1,
      fun j hj => patron_ne_iff.mp (ne_of_children_eq_zero hchildren j hj)⟩

/-- A connection that was expected keeps its master until its own destruction gives it back; it is
still there itself when the master's begins. -/
theorem destroyed_once_two :
    let es : List Event := [.alloc 0, .link 0 none, .confirm 0, .alloc 1, .link 1 (some 0), .put 0,
      .delTimer 0, .death 0, .put 0, .put 1, .destroy 1]
    let fs : List Event := es ++ [.putMaster 1]
    let s := es.foldl step initial
    let t := fs.foldl step initial
    underWay s 0 = 0 ∧ underWay s 1 = 1 ∧ underWay t 0 = 1 ∧ t.count = 2 := by
  intro es fs s t
  have h := destroyed_once es (by decide)
  have h' := destroyed_once fs (by decide)
  exact ⟨(h.2.2.2.1 1 0 (by decide) (by decide)).2, (h.1 1 (by decide)).mpr (by decide),
    (h'.1 0 (by decide)).mpr (by decide), h'.2.2.2.2.2⟩

/-- What is being destroyed, or free, has no references. -/
def Quiet (s : State) : Prop := ∀ i, 0 < underWay s i ∨ i ∉ s.slab → s.use i = 0

theorem Life.quiet {s : State} (hs : Life s) : Quiet s := by
  rintro i (hi | hi)
  · exact (hs.of_underWay hi).2.1
  · exact (hs.free i hi).1

theorem Life.underWay_pos {s : State} (hs : Life s) {i : ℕ} (hi : i ∈ s.slab)
    (huse : s.use i = 0) : 0 < underWay s i := by
  rw [hs.dying i hi, if_pos huse]
  exact Nat.one_pos

theorem step_quiet_iff {s : State} (hs : Life s) {e : Event} (he : Proper s e) :
    Quiet (step s e) ↔ Spares s e := by
  refine ⟨fun hq => ?_, fun hspares => (step_life hs he hspares).quiet⟩
  cases e with
  | corpse i =>
    intro huse
    rcases he with hin | hin
    · exact hs.use_of_hashed hin huse
    · have h := hq i (.inl (hs.underWay_pos (hs.waiting i hin).1 huse))
      simp [step, nfConntrackGet] at h
  | link i master =>
    cases master with
    | none => trivial
    | some m =>
      intro huse
      have h := hq m (.inl (hs.underWay_pos (hs.known m he.2) huse))
      simp [step, initConntrack] at h
  | alloc | newFails | confirm | find | attach | delTimer | death | put | destroy | putMaster
  | free => trivial

/-- A connection whose destruction has begun is never referred to again exactly when the code
that clears connections away picks no unconfirmed one whose last reference has gone, and no
packet meets an expectation of such a connection. -/
theorem quiet_iff (es : List Event) :
    GuardedRun.Along step (fun s e => Proper s e ∧ Quiet (step s e)) initial es ↔
      GuardedRun.Along step (fun s e => Proper s e ∧ Spares s e) initial es := by
  apply GuardedRun.along_iff (I := Life)
  · exact fun s e h he => step_life h he.1 he.2
  · exact fun s e h => and_congr_right fun he => step_quiet_iff h he
  · exact life_initial

/-- A flush that picks an unconfirmed connection too late: it is destroyed twice. -/
example : (([.alloc 0, .link 0 none, .put 0, .corpse 0, .put 0] : List Event).foldl step
    initial).dying 0 = 2 := by decide

end ConnectionLife
