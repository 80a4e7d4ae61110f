import RouterFirmware.AtomicWord
import RouterFirmware.Census
import RouterFirmware.GuardedRun
import Mathlib.Data.Fintype.Card
import Mathlib.Data.BitVec

/-! # The reader/writer lock

Three words: the lock itself, two for each reader and one for a writer, and the numbers of
write requests taken and served. A writer takes a number and waits for its turn; a reader waits
until no request is outstanding. Each atomic operation on a word takes effect at one moment. -/
namespace WriterLock

open AtomicWord

variable {Core : Type} [DecidableEq Core]

def cvmxRwlockWriteFlag : BitVec 32 := 0x1
def cvmxRwlockReadInc : BitVec 32 := 0x2

/-- Where a core stands. C leaves open which of `write_req` and `write_comp` the reader loads
first, so both orders occur. -/
inductive Pc where
  | idle
  | readCheck
  | readReq (req : BitVec 32)
  | readComp (comp : BitVec 32)
  | readAdd
  | readWait
  | reading
  | readUnlock
  | writeRequest
  | writeTurn (prev : BitVec 32)
  | writeStore
  | writing
  | writeUnlock
  | writeServed
  deriving DecidableEq, Repr

/-- The lists are history: the writers in the order in which they took their numbers, entered
and were served. `ahead` is how many had taken a number when the reader began. -/
structure State (Core : Type) where
  lock : BitVec 32
  writeReq : BitVec 32
  writeComp : BitVec 32
  pc : Core → Pc
  tickets : List Core
  entered : List Core
  served : List Core
  ahead : Core → ℕ

inductive Event (Core : Type) where
  | readLock (c : Core)
  | readUnlock (c : Core)
  | writeLock (c : Core)
  | writeUnlock (c : Core)
  | move (c : Core) (compFirst : Bool)
  deriving DecidableEq

def cvmxRwlockWpInit : State Core := ⟨0, 0, 0, fun _ => .idle, [], [], [], fun _ => 0⟩

def State.goto (s : State Core) (c : Core) (pc : Pc) : State Core :=
  { s with pc := Function.update s.pc c pc }

def advance (s : State Core) (c : Core) (compFirst : Bool) : State Core :=
  match s.pc c with
  | .idle | .reading | .writing => s
  | .readCheck => s.goto c (if compFirst then .readComp s.writeComp else .readReq s.writeReq)
  | .readReq req => s.goto c (if req ≠ s.writeComp then .readCheck else .readAdd)
  | .readComp comp => s.goto c (if s.writeReq ≠ comp then .readCheck else .readAdd)
  | .readAdd =>
    { s with lock := (meaning (.addNosync cvmxRwlockReadInc) s.lock).2 }.goto c .readWait
  | .readWait => if s.lock &&& cvmxRwlockWriteFlag ≠ 0 then s else s.goto c .reading
  | .readUnlock =>
    { s with lock := (meaning (.addNosync (-cvmxRwlockReadInc)) s.lock).2 }.goto c .idle
  | .writeRequest =>
    let req := (meaning (.add 1) s.writeReq).2
    { s with writeReq := req, tickets := s.tickets ++ [c] }.goto c (.writeTurn (req - 1))
  | .writeTurn prev => if prev ≠ s.writeComp then s else s.goto c .writeStore
  | .writeStore =>
    let stored := meaning (.compareAndStore 0 cvmxRwlockWriteFlag) s.lock
    if stored.1 = some 0 then s
    else { s with lock := stored.2, entered := s.entered ++ [c] }.goto c .writing
  | .writeUnlock =>
    { s with lock := (meaning (.addNosync (-cvmxRwlockWriteFlag)) s.lock).2 }.goto c .writeServed
  | .writeServed =>
    { s with writeComp := (meaning (.addNosync 1) s.writeComp).2
             served := s.served ++ [c] }.goto c .idle

/-- A core locks while it has no lock, and unlocks the lock it has. -/
def step (s : State Core) : Event Core → State Core
  | .readLock c =>
    if s.pc c = .idle then
      { s with ahead := Function.update s.ahead c s.tickets.length }.goto c .readCheck
    else s
  | .readUnlock c => if s.pc c = .reading then s.goto c .readUnlock else s
  | .writeLock c => if s.pc c = .idle then s.goto c .writeRequest else s
  | .writeUnlock c => if s.pc c = .writing then s.goto c .writeUnlock else s
  | .move c compFirst => advance s c compFirst

section Places

def Pc.counted : Pc → Bool
  | .readWait | .reading | .readUnlock => true
  | .idle | .readCheck | .readReq _ | .readComp _ | .readAdd | .writeRequest | .writeTurn _
  | .writeStore | .writing | .writeUnlock | .writeServed => false

def Pc.flagged : Pc → Bool
  | .writing | .writeUnlock => true
  | .idle | .readCheck | .readReq _ | .readComp _ | .readAdd | .readWait | .reading | .readUnlock
  | .writeRequest | .writeTurn _ | .writeStore | .writeServed => false

def Pc.reads : Pc → Bool
  | .reading | .readUnlock => true
  | .idle | .readCheck | .readReq _ | .readComp _ | .readAdd | .readWait | .writeRequest
  | .writeTurn _ | .writeStore | .writing | .writeUnlock | .writeServed => false

/-- The writer has taken a number and is not served yet. -/
def Pc.ticketed : Pc → Bool
  | .writeTurn _ | .writeStore | .writing | .writeUnlock | .writeServed => true
  | .idle | .readCheck | .readReq _ | .readComp _ | .readAdd | .readWait | .reading | .readUnlock
  | .writeRequest => false

def Pc.front : Pc → Bool
  | .writeStore | .writing | .writeUnlock | .writeServed => true
  | .idle | .readCheck | .readReq _ | .readComp _ | .readAdd | .readWait | .reading | .readUnlock
  | .writeRequest | .writeTurn _ => false

def Pc.arrived : Pc → Bool
  | .writing | .writeUnlock | .writeServed => true
  | .idle | .readCheck | .readReq _ | .readComp _ | .readAdd | .readWait | .reading | .readUnlock
  | .writeRequest | .writeTurn _ | .writeStore => false

theorem front_of_flagged {pc : Pc} (h : pc.flagged = true) : pc.front = true := by
  cases pc <;> first | rfl | cases h

theorem front_of_arrived {pc : Pc} (h : pc.arrived = true) : pc.front = true := by
  cases pc <;> first | rfl | cases h

end Places

section Goto

variable (s : State Core) (c : Core) (pc : Pc)

@[simp] theorem goto_pc_self : (s.goto c pc).pc c = pc := by simp [State.goto]

theorem goto_pc_of_ne {d : Core} (h : d ≠ c) : (s.goto c pc).pc d = s.pc d := by
  simp [State.goto, h]

end Goto

/-- `queue` is the writers that hold a number, in the order of their numbers: the first one's
turn it is. -/
structure Queued (s : State Core) (queue : List Core) : Prop where
  tickets : s.tickets = s.served ++ queue
  nodup : queue.Nodup
  mem : ∀ c, c ∈ queue ↔ (s.pc c).ticketed = true
  req : s.writeReq = BitVec.ofNat 32 s.tickets.length
  comp : s.writeComp = BitVec.ofNat 32 s.served.length
  turn : ∀ c prev, s.pc c = .writeTurn prev →
    ∃ i, queue[i]? = some c ∧ prev = BitVec.ofNat 32 (s.served.length + i)
  front : ∀ c, (s.pc c).front = true → queue.head? = some c
  entered : ∀ c, (s.pc c).arrived = true → s.entered = s.served ++ [c]
  waiting : (∀ c, (s.pc c).arrived = false) → s.entered = s.served

/-- The lock counts its readers and its writer, who have it in turn. -/
structure Counted [Fintype Core] (s : State Core) : Prop where
  lock : s.lock = BitVec.ofNat 32
    (2 * Census.count Pc.counted s.pc + Census.count Pc.flagged s.pc)
  exclusive : ∀ c d, (s.pc c).flagged = true → (s.pc d).reads = false

section Queue

variable {s t : State Core} {c : Core} {b : Bool} {pc : Pc} {queue : List Core}

omit [DecidableEq Core] in
theorem Queued.front_unique (h : Queued s queue) {d : Core} (hc : (s.pc c).front = true)
    (hd : (s.pc d).front = true) : c = d :=
  Option.some.inj ((h.front c hc).symm.trans (h.front d hd))

theorem Queued.goto (h : Queued s queue) (ht : pc.ticketed = (s.pc c).ticketed)
    (ha : pc.arrived = (s.pc c).arrived) (hf : pc.front = true → queue.head? = some c)
    (hturn : ∀ prev, pc ≠ .writeTurn prev) : Queued (s.goto c pc) queue := by
  refine ⟨h.tickets, h.nodup, ?_, h.req, h.comp, ?_, ?_, ?_, ?_⟩
  · intro d
    by_cases hd : d = c
    · rw [hd, goto_pc_self, ht]
      exact h.mem c
    · rw [goto_pc_of_ne s c pc hd]
      exact h.mem d
  · intro d prev hp
    by_cases hd : d = c
    · rw [hd, goto_pc_self] at hp
      exact absurd hp (hturn prev)
    · exact h.turn d prev (goto_pc_of_ne s c pc hd ▸ hp)
  · intro d hp
    by_cases hd : d = c
    · rw [hd, goto_pc_self] at hp
      exact hd ▸ hf hp
    · exact h.front d (goto_pc_of_ne s c pc hd ▸ hp)
  · intro d hp
    by_cases hd : d = c
    · rw [hd, goto_pc_self, ha] at hp
      exact hd ▸ h.entered c hp
    · exact h.entered d (goto_pc_of_ne s c pc hd ▸ hp)
  · intro hall
    refine h.waiting fun d => ?_
    by_cases hd : d = c
    · rw [hd, ← ha, ← goto_pc_self s c pc]
      exact hall c
    · rw [← goto_pc_of_ne s c pc hd]
      exact hall d

omit [DecidableEq Core] in
theorem Queued.of_eq (h : Queued s queue) (h1 : t.tickets = s.tickets) (h2 : t.served = s.served)
    (h3 : t.entered = s.entered) (h4 : t.writeReq = s.writeReq) (h5 : t.writeComp = s.writeComp)
    (h6 : t.pc = s.pc) : Queued t queue := by
  constructor
  · rw [h1, h2]; exact h.tickets
  · exact h.nodup
  · rw [h6]; exact h.mem
  · rw [h1, h4]; exact h.req
  · rw [h2, h5]; exact h.comp
  · rw [h2, h6]; exact h.turn
  · rw [h6]; exact h.front
  · rw [h2, h3, h6]; exact h.entered
  · rw [h2, h3, h6]; exact h.waiting

/-- A writer takes the next number and waits behind the others. -/
theorem Queued.request (h : Queued s queue) (hp : s.pc c = .writeRequest) :
    Queued (advance s c b) (queue ++ [c]) := by
  have hnot : c ∉ queue := by
    rw [h.mem, hp]
    nofun
  simp only [advance, hp]
  refine ⟨?_, ?_, ?_, ?_, h.comp, ?_, ?_, ?_, ?_⟩
  · simp only [State.goto, h.tickets, List.append_assoc]
  · exact List.nodup_append.mpr ⟨h.nodup, List.nodup_singleton c, by
      rintro a ha b hb rfl
      exact hnot (List.mem_singleton.mp hb ▸ ha)⟩
  · intro d
    by_cases hd : d = c
    · simp [hd, Pc.ticketed]
    · rw [goto_pc_of_ne _ c _ hd, ← h.mem d]
      simp [hd]
  · simp only [State.goto, meaning, h.req, List.length_append, List.length_singleton]
    exact (BitVec.ofNat_add ..).symm
  · intro d prev hd
    by_cases hdc : d = c
    · rw [hdc, goto_pc_self, Pc.writeTurn.injEq] at hd
      refine ⟨queue.length, by simp [hdc], ?_⟩
      rw [← hd, meaning, h.req, BitVec.add_sub_cancel, h.tickets, List.length_append]
      rfl
    · rw [goto_pc_of_ne _ c _ hdc] at hd
      obtain ⟨i, hi, hprev⟩ := h.turn d prev hd
      exact ⟨i, List.getElem?_append_left (List.getElem?_eq_some_iff.mp hi).1 ▸ hi, hprev⟩
  · intro d hd
    by_cases hdc : d = c
    · rw [hdc, goto_pc_self] at hd
      cases hd
    · rw [goto_pc_of_ne _ c _ hdc] at hd
      rw [List.head?_append, h.front d hd]
      rfl
  · intro d hd
    by_cases hdc : d = c
    · rw [hdc, goto_pc_self] at hd
      cases hd
    · exact h.entered d (by rwa [goto_pc_of_ne _ c _ hdc] at hd)
  · intro hall
    refine h.waiting fun d => ?_
    by_cases hdc : d = c
    · rw [hdc, hp]
      rfl
    · rw [← hall d, goto_pc_of_ne _ c _ hdc]

theorem Queued.enter (h : Queued s queue) (hp : s.pc c = .writeStore) {lock : BitVec 32} :
    Queued ({ s with lock := lock, entered := s.entered ++ [c] }.goto c .writing) queue := by
  have hf : (s.pc c).front = true := by rw [hp]; rfl
  have hw : s.entered = s.served := by
    refine h.waiting fun d => ?_
    by_contra hd
    have hd : (s.pc d).arrived = true := by simpa using hd
    have := h.front_unique hf (front_of_arrived hd)
    rw [← this, hp] at hd
    cases hd
  refine ⟨h.tickets, h.nodup, ?_, h.req, h.comp, ?_, ?_, ?_, ?_⟩
  · intro d
    by_cases hd : d = c
    · rw [hd, goto_pc_self, h.mem c, hp]
      rfl
    · rw [goto_pc_of_ne _ c _ hd]
      exact h.mem d
  · intro d prev hd
    by_cases hdc : d = c
    · rw [hdc, goto_pc_self] at hd
      cases hd
    · exact h.turn d prev (by rwa [goto_pc_of_ne _ c _ hdc] at hd)
  · intro d hd
    by_cases hdc : d = c
    · exact hdc ▸ h.front c hf
    · exact h.front d (by rwa [goto_pc_of_ne _ c _ hdc] at hd)
  · intro d hd
    by_cases hdc : d = c
    · simp only [State.goto, hw, hdc]
    · rw [goto_pc_of_ne _ c _ hdc] at hd
      exact absurd (h.front_unique hf (front_of_arrived hd)) (Ne.symm hdc)
  · intro hall
    have := hall c
    rw [goto_pc_self] at this
    cases this

theorem Queued.leave (h : Queued s queue) (hp : s.pc c = .writeServed) :
    Queued (advance s c b) queue.tail := by
  have hf : (s.pc c).front = true := by rw [hp]; rfl
  have hhead := h.front c hf
  obtain ⟨rest, rfl⟩ : ∃ rest, queue = c :: rest := by
    cases queue with
    | nil => cases hhead
    | cons a rest => exact ⟨rest, by rw [Option.some.inj hhead]⟩
  obtain ⟨hnot, hnodup⟩ := List.nodup_cons.mp h.nodup
  have other : ∀ d, (s.pc d).front = true → d = c := fun d hd => h.front_unique hd hf
  simp only [advance, hp, List.tail_cons]
  refine ⟨?_, hnodup, ?_, h.req, ?_, ?_, ?_, ?_, ?_⟩
  · simp only [State.goto, h.tickets, List.append_assoc, List.singleton_append]
  · intro d
    by_cases hd : d = c
    · simp [hd, hnot, Pc.ticketed]
    · rw [goto_pc_of_ne _ c _ hd, ← h.mem d]
      simp [hd]
  · simp only [State.goto, meaning, h.comp, List.length_append, List.length_singleton]
    exact (BitVec.ofNat_add ..).symm
  · intro d prev hd
    by_cases hdc : d = c
    · rw [hdc, goto_pc_self] at hd
      cases hd
    · rw [goto_pc_of_ne _ c _ hdc] at hd
      obtain ⟨i, hi, hprev⟩ := h.turn d prev hd
      cases i with
      | zero => exact absurd (Option.some.inj hi) (Ne.symm hdc)
      | succ i =>
        refine ⟨i, hi, ?_⟩
        rw [hprev]
        congr 1
        simp only [State.goto, List.length_append, List.length_singleton]
        omega
  · intro d hd
    by_cases hdc : d = c
    · rw [hdc, goto_pc_self] at hd
      cases hd
    · rw [goto_pc_of_ne _ c _ hdc] at hd
      exact absurd (other d hd) hdc
  · intro d hd
    by_cases hdc : d = c
    · rw [hdc, goto_pc_self] at hd
      cases hd
    · rw [goto_pc_of_ne _ c _ hdc] at hd
      exact absurd (other d (front_of_arrived hd)) hdc
  · intro _
    exact h.entered c (by rw [hp]; rfl)

end Queue

section Bounds

variable [Fintype Core] {s : State Core} {c : Core} {queue : List Core}

omit [DecidableEq Core] in
theorem Queued.length_le (h : Queued s queue) : queue.length ≤ Fintype.card Core :=
  h.nodup.length_le_card

omit [DecidableEq Core] in
/-- The numbers of the queue are apart, so the one that is served is that of the first. -/
theorem Queued.head_of_turn (h : Queued s queue) (hn : Fintype.card Core ≤ 2 ^ 31)
    {prev : BitVec 32} (hp : s.pc c = .writeTurn prev) (he : prev = s.writeComp) :
    queue.head? = some c := by
  obtain ⟨i, hi, hprev⟩ := h.turn c prev hp
  have hlt := (List.getElem?_eq_some_iff.mp hi).1
  have hlen := h.length_le
  rw [hprev, h.comp] at he
  have := congrArg BitVec.toNat he
  simp only [BitVec.toNat_ofNat] at this
  obtain rfl : i = 0 := by omega
  rw [List.head?_eq_getElem?]
  exact hi

omit [DecidableEq Core] in
theorem Queued.flagged_le_one (h : Queued s queue) : Census.count Pc.flagged s.pc ≤ 1 :=
  Census.count_le_one fun _ _ hc hd => h.front_unique (front_of_flagged hc) (front_of_flagged hd)

omit [DecidableEq Core] in
theorem Counted.flag (h : Counted s) (hq : Queued s queue)
    (hf : s.lock &&& cvmxRwlockWriteFlag = 0) (c : Core) : (s.pc c).flagged = false := by
  have hle := hq.flagged_le_one
  have hbit : s.lock.toNat % 2 = 0 := by
    have := congrArg BitVec.toNat hf
    rwa [BitVec.toNat_and, show cvmxRwlockWriteFlag.toNat = 2 ^ 1 - 1 from rfl,
      Nat.and_two_pow_sub_one_eq_mod] at this
  rw [h.lock, BitVec.toNat_ofNat] at hbit
  exact Census.count_eq_zero.mp (by omega) c

omit [DecidableEq Core] in
/-- A writer that finds the lock 0 finds neither readers nor a writer: it is not among the
readers itself, so that their count has not wrapped around. -/
theorem Counted.zero (h : Counted s) (hq : Queued s queue) (hn : Fintype.card Core ≤ 2 ^ 31)
    (hp : (s.pc c).counted = false) (hz : s.lock = 0) :
    Census.count Pc.counted s.pc = 0 ∧ Census.count Pc.flagged s.pc = 0 := by
  have hle := hq.flagged_le_one
  have hlt := Census.count_lt_card hp
  rw [h.lock] at hz
  have := congrArg BitVec.toNat hz
  rw [BitVec.toNat_ofNat, show (0 : BitVec 32).toNat = 0 from rfl] at this
  omega

/-- A move that changes neither count and lets no reader in. -/
theorem Counted.goto (h : Counted s) {pc : Pc} (hc : pc.counted = (s.pc c).counted)
    (hf : pc.flagged = (s.pc c).flagged)
    (hr : pc.reads = true → (s.pc c).reads = true ∨ ∀ d, (s.pc d).flagged = false) :
    Counted (s.goto c pc) := by
  constructor
  · rw [State.goto, Census.count_update_same hc, Census.count_update_same hf]
    exact h.lock
  · intro d e hd
    have hd' : (s.pc d).flagged = true := by
      by_cases hdc : d = c
      · rw [hdc, goto_pc_self, hf] at hd
        exact hdc ▸ hd
      · rwa [goto_pc_of_ne s c pc hdc] at hd
    by_cases hec : e = c
    · rw [hec, goto_pc_self]
      by_contra hpc
      rcases hr (by simpa using hpc) with hr | hr
      · rw [h.exclusive d c hd'] at hr
        cases hr
      · rw [hr d] at hd'
        cases hd'
    · rw [goto_pc_of_ne s c pc hec]
      exact h.exclusive d e hd'

/-- A move of one core under which the lock follows the counts. -/
theorem Counted.move (h : Counted s) {pc : Pc} {lock : BitVec 32}
    (hl : lock = BitVec.ofNat 32 (2 * Census.count Pc.counted (Function.update s.pc c pc) +
      Census.count Pc.flagged (Function.update s.pc c pc)))
    (hf : pc.flagged = true → ∀ d, (s.pc d).reads = false) (hr : pc.reads = false) :
    Counted ({ s with lock := lock }.goto c pc) := by
  constructor
  · exact hl
  · intro d e hd
    by_cases hec : e = c
    · rw [hec, goto_pc_self]
      exact hr
    · rw [goto_pc_of_ne _ c pc hec]
      by_cases hdc : d = c
      · rw [hdc, goto_pc_self] at hd
        exact hf hd e
      · rw [goto_pc_of_ne _ c pc hdc] at hd
        exact h.exclusive d e hd

end Bounds

/-- What a reader has seen of the two counters: the writers ahead of it are served by the time
it is counted. `n` bounds the writers that hold a number at one time. -/
def Seen (n : ℕ) (s : State Core) (c : Core) : Pc → Prop
  | .readCheck => s.ahead c ≤ s.served.length + n
  | .readReq req =>
    ∃ k, req = BitVec.ofNat 32 k ∧ s.ahead c ≤ k ∧ k ≤ s.served.length + n
  | .readComp comp =>
    ∃ k, comp = BitVec.ofNat 32 k ∧ k ≤ s.served.length ∧ s.ahead c ≤ k + n
  | .readAdd | .readWait | .reading | .readUnlock => s.ahead c ≤ s.served.length
  | .idle | .writeRequest | .writeTurn _ | .writeStore | .writing | .writeUnlock
  | .writeServed => True

structure Patient (n : ℕ) (s : State Core) : Prop where
  seen : ∀ c, Seen n s c (s.pc c)
  ahead : ∀ c, s.ahead c ≤ s.tickets.length

section Reader

variable {s t : State Core} {c : Core} {n : ℕ} {pc : Pc}

omit [DecidableEq Core] in
theorem Seen.mono (h : Seen n s c pc) (ha : t.ahead c = s.ahead c)
    (hs : s.served.length ≤ t.served.length) : Seen n t c pc := by
  cases pc with
  | readReq req =>
    obtain ⟨k, hk, h1, h2⟩ := h
    exact ⟨k, hk, ha ▸ h1, by omega⟩
  | readComp comp =>
    obtain ⟨k, hk, h1, h2⟩ := h
    exact ⟨k, hk, by omega, ha ▸ h2⟩
  | readCheck | readAdd | readWait | reading | readUnlock =>
    simp only [Seen] at h ⊢
    omega
  | _ => trivial

theorem Patient.goto (h : Patient n s) (hpc : t.pc = Function.update s.pc c pc)
    (ha : ∀ d, d ≠ c → t.ahead d = s.ahead d) (hs : s.served.length ≤ t.served.length)
    (ht : s.tickets.length ≤ t.tickets.length) (hc : t.ahead c ≤ t.tickets.length)
    (hseen : Seen n t c pc) : Patient n t := by
  constructor
  · intro d
    by_cases hd : d = c
    · subst d
      rwa [hpc, Function.update_self]
    · rw [hpc, Function.update_of_ne hd]
      exact (h.seen d).mono (ha d hd) hs
  · intro d
    by_cases hd : d = c
    · exact hd ▸ hc
    · rw [ha d hd]
      exact (h.ahead d).trans ht

omit [DecidableEq Core] in
/-- The request counter was read first: what was served since cannot have caught up with it
going once around. -/
theorem served_of_req {served ahead k : ℕ} (hn : n ≤ 2 ^ 31)
    (he : BitVec.ofNat 32 k = BitVec.ofNat 32 served) (ha : ahead ≤ k) (hk : k ≤ served + n) :
    ahead ≤ served := by
  have := congrArg BitVec.toNat he
  simp only [BitVec.toNat_ofNat] at this
  omega

omit [DecidableEq Core] in
theorem served_of_comp {served tickets ahead k : ℕ} (hn : n ≤ 2 ^ 31)
    (he : BitVec.ofNat 32 tickets = BitVec.ofNat 32 k) (hk : k ≤ served) (ha : ahead ≤ k + n)
    (ht : ahead ≤ tickets) (hq : tickets ≤ served + n) : ahead ≤ served := by
  have := congrArg BitVec.toNat he
  simp only [BitVec.toNat_ofNat] at this
  omega

end Reader

structure Sound [Fintype Core] (s : State Core) (queue : List Core) : Prop where
  queued : Queued s queue
  counted : Counted s
  patient : Patient (Fintype.card Core) s

section Step

variable [Fintype Core] {s : State Core} {c : Core} {b : Bool} {pc : Pc} {queue : List Core}

/-- A move that is of no account to writers, readers and the lock. -/
theorem Sound.goto (h : Sound s queue) (hc : pc.counted = (s.pc c).counted)
    (hf : pc.flagged = (s.pc c).flagged) (ht : pc.ticketed = (s.pc c).ticketed)
    (ha : pc.arrived = (s.pc c).arrived) (hfront : pc.front = true → queue.head? = some c)
    (hturn : ∀ prev, pc ≠ .writeTurn prev)
    (hr : pc.reads = true → (s.pc c).reads = true ∨ ∀ d, (s.pc d).flagged = false)
    (hs : Seen (Fintype.card Core) s c pc) : Sound (s.goto c pc) queue :=
  ⟨h.queued.goto ht ha hfront hturn, h.counted.goto hc hf hr,
    h.patient.goto rfl (fun _ _ => rfl) le_rfl le_rfl (h.patient.ahead c)
      (hs.mono rfl le_rfl)⟩

omit [DecidableEq Core] in
theorem Sound.tickets_le (h : Sound s queue) :
    s.tickets.length ≤ s.served.length + Fintype.card Core := by
  rw [h.queued.tickets, List.length_append]
  exact Nat.add_le_add_left h.queued.length_le _

/-- A move under which the lock follows the counts. -/
theorem Sound.move (h : Sound s queue) {lock : BitVec 32}
    (hl : lock = BitVec.ofNat 32 (2 * Census.count Pc.counted (Function.update s.pc c pc) +
      Census.count Pc.flagged (Function.update s.pc c pc)))
    (hf : pc.flagged = false) (hr : pc.reads = false) (ht : pc.ticketed = (s.pc c).ticketed)
    (ha : pc.arrived = (s.pc c).arrived) (hfront : pc.front = true → queue.head? = some c)
    (hturn : ∀ prev, pc ≠ .writeTurn prev) (hs : Seen (Fintype.card Core) s c pc) :
    Sound ({ s with lock := lock }.goto c pc) queue := by
  have hq : Queued { s with lock := lock } queue := h.queued.of_eq rfl rfl rfl rfl rfl rfl
  refine ⟨hq.goto ht ha hfront hturn, h.counted.move hl ?_ hr,
    h.patient.goto rfl (fun _ _ => rfl) le_rfl le_rfl (h.patient.ahead c) (hs.mono rfl le_rfl)⟩
  intro hpc
  rw [hf] at hpc
  cases hpc

theorem readCheck_sound (h : Sound s queue) (hp : s.pc c = .readCheck) :
    Sound (advance s c b) queue := by
  have hs := h.patient.seen c
  simp only [hp, Seen] at hs
  simp only [advance, hp]
  cases b with
  | true =>
    exact h.goto (by rw [hp]; rfl) (by rw [hp]; rfl) (by rw [hp]; rfl) (by rw [hp]; rfl) nofun
      nofun nofun ⟨s.served.length, h.queued.comp, le_rfl, hs⟩
  | false =>
    exact h.goto (by rw [hp]; rfl) (by rw [hp]; rfl) (by rw [hp]; rfl) (by rw [hp]; rfl) nofun
      nofun nofun ⟨s.tickets.length, h.queued.req, h.patient.ahead c, h.tickets_le⟩

theorem readReq_sound (h : Sound s queue) (hn : Fintype.card Core ≤ 2 ^ 31) {req : BitVec 32}
    (hp : s.pc c = .readReq req) : Sound (advance s c b) queue := by
  have hs := h.patient.seen c
  simp only [hp, Seen] at hs
  obtain ⟨k, hk, ha, hle⟩ := hs
  simp only [advance, hp]
  split
  · exact h.goto (by rw [hp]; rfl) (by rw [hp]; rfl) (by rw [hp]; rfl) (by rw [hp]; rfl) nofun
      nofun nofun (ha.trans hle)
  · rename_i he
    have he : req = s.writeComp := by simpa using he
    rw [hk, h.queued.comp] at he
    exact h.goto (by rw [hp]; rfl) (by rw [hp]; rfl) (by rw [hp]; rfl) (by rw [hp]; rfl) nofun
      nofun nofun (served_of_req hn he ha hle)

theorem readComp_sound (h : Sound s queue) (hn : Fintype.card Core ≤ 2 ^ 31) {comp : BitVec 32}
    (hp : s.pc c = .readComp comp) : Sound (advance s c b) queue := by
  have hs := h.patient.seen c
  simp only [hp, Seen] at hs
  obtain ⟨k, hk, hle, ha⟩ := hs
  simp only [advance, hp]
  split
  · exact h.goto (by rw [hp]; rfl) (by rw [hp]; rfl) (by rw [hp]; rfl) (by rw [hp]; rfl) nofun
      nofun nofun (ha.trans (Nat.add_le_add_right hle _))
  · rename_i he
    have he : s.writeReq = comp := by simpa using he
    rw [hk, h.queued.req] at he
    exact h.goto (by rw [hp]; rfl) (by rw [hp]; rfl) (by rw [hp]; rfl) (by rw [hp]; rfl) nofun
      nofun nofun (served_of_comp hn he hle ha (h.patient.ahead c) h.tickets_le)

theorem readAdd_sound (h : Sound s queue) (hp : s.pc c = .readAdd) :
    Sound (advance s c b) queue := by
  have hs := h.patient.seen c
  simp only [hp, Seen] at hs
  simp only [advance, hp]
  refine h.move ?_ rfl rfl (by rw [hp]; rfl) (by rw [hp]; rfl) nofun nofun hs
  rw [Census.count_update_enter (by rw [hp]; rfl) rfl,
    Census.count_update_same (p := Pc.flagged) (by rw [hp]; rfl), meaning, h.counted.lock,
    Nat.mul_add, Nat.add_right_comm, BitVec.ofNat_add _ (2 * 1)]
  rfl

theorem readWait_sound (h : Sound s queue) (hp : s.pc c = .readWait) :
    Sound (advance s c b) queue := by
  have hs := h.patient.seen c
  simp only [hp, Seen] at hs
  simp only [advance, hp]
  split
  · exact h
  · rename_i hf
    have hf : s.lock &&& cvmxRwlockWriteFlag = 0 := by simpa using hf
    exact h.goto (by rw [hp]; rfl) (by rw [hp]; rfl) (by rw [hp]; rfl) (by rw [hp]; rfl) nofun
      nofun (fun _ => .inr (h.counted.flag h.queued hf)) hs

omit [DecidableEq Core] [Fintype Core] in
theorem ofNat_add_neg (m k : ℕ) :
    BitVec.ofNat 32 (m + k) + -BitVec.ofNat 32 k = BitVec.ofNat 32 m := by
  rw [BitVec.ofNat_add, ← BitVec.sub_eq_add_neg, BitVec.add_sub_cancel]

theorem readUnlock_sound (h : Sound s queue) (hp : s.pc c = .readUnlock) :
    Sound (advance s c b) queue := by
  simp only [advance, hp]
  refine h.move ?_ rfl rfl (by rw [hp]; rfl) (by rw [hp]; rfl) nofun nofun trivial
  have hcount := Census.count_update_leave (p := Pc.counted) (f := s.pc) (c := c) (x := .idle)
    (by rw [hp]; rfl) rfl
  rw [Census.count_update_same (p := Pc.flagged) (by rw [hp]; rfl), meaning, h.counted.lock,
    ← hcount, Nat.mul_add, Nat.add_right_comm]
  exact ofNat_add_neg _ 2

theorem writeRequest_sound (h : Sound s queue) (hp : s.pc c = .writeRequest) :
    Sound (advance s c b) (queue ++ [c]) := by
  refine ⟨h.queued.request hp, ?_, ?_⟩
  · simp only [advance, hp]
    have hcount : Counted { s with
        writeReq := (meaning (.add 1) s.writeReq).2, tickets := s.tickets ++ [c] } :=
      ⟨h.counted.lock, h.counted.exclusive⟩
    exact hcount.goto (by rw [hp]; rfl) (by rw [hp]; rfl) nofun
  · simp only [advance, hp]
    refine h.patient.goto rfl (fun _ _ => rfl) le_rfl ?_ ?_ trivial <;>
      simp only [State.goto, List.length_append, List.length_singleton]
    · exact Nat.le_succ _
    · exact (h.patient.ahead c).trans (Nat.le_succ _)

theorem writeTurn_sound (h : Sound s queue) (hn : Fintype.card Core ≤ 2 ^ 31)
    {prev : BitVec 32} (hp : s.pc c = .writeTurn prev) : Sound (advance s c b) queue := by
  simp only [advance, hp]
  split
  · exact h
  · rename_i he
    have he : prev = s.writeComp := by simpa using he
    exact h.goto (by rw [hp]; rfl) (by rw [hp]; rfl) (by rw [hp]; rfl) (by rw [hp]; rfl)
      (fun _ => h.queued.head_of_turn hn hp he) nofun nofun trivial

theorem writeStore_sound (h : Sound s queue) (hn : Fintype.card Core ≤ 2 ^ 31)
    (hp : s.pc c = .writeStore) : Sound (advance s c b) queue := by
  by_cases hz : s.lock = 0
  · obtain ⟨hc, hf⟩ := h.counted.zero h.queued hn (c := c) (by rw [hp]; rfl) hz
    have hread : ∀ d, (s.pc d).reads = false := by
      intro d
      have := Census.count_eq_zero.mp hc d
      cases hd : s.pc d <;> first | rfl | (rw [hd] at this; cases this)
    simp only [advance, hp, meaning, hz, if_true]
    rw [if_neg (by decide)]
    refine ⟨h.queued.enter hp, ?_, ?_⟩
    · refine Counted.move (s := { s with entered := s.entered ++ [c] })
        ⟨h.counted.lock, h.counted.exclusive⟩ ?_ (fun _ => hread) rfl
      rw [Census.count_update_enter (p := Pc.flagged) (by rw [hp]; rfl) rfl,
        Census.count_update_same (p := Pc.counted) (by rw [hp]; rfl), hc, hf]
      rfl
    · exact h.patient.goto rfl (fun _ _ => rfl) le_rfl le_rfl (h.patient.ahead c) trivial
  · have : advance s c b = s := by
      simp only [advance, hp, meaning, if_neg hz]
      rfl
    rwa [this]

theorem writeUnlock_sound (h : Sound s queue) (hp : s.pc c = .writeUnlock) :
    Sound (advance s c b) queue := by
  simp only [advance, hp]
  refine h.move ?_ rfl rfl (by rw [hp]; rfl) (by rw [hp]; rfl)
    (fun _ => h.queued.front c (by rw [hp]; rfl)) nofun trivial
  have hcount := Census.count_update_leave (p := Pc.flagged) (f := s.pc) (c := c)
    (x := .writeServed) (by rw [hp]; rfl) rfl
  rw [Census.count_update_same (p := Pc.counted) (by rw [hp]; rfl), meaning, h.counted.lock,
    ← hcount, ← Nat.add_assoc]
  exact ofNat_add_neg _ 1

theorem writeServed_sound (h : Sound s queue) (hp : s.pc c = .writeServed) :
    Sound (advance s c b) queue.tail := by
  refine ⟨h.queued.leave hp, ?_, ?_⟩
  · simp only [advance, hp]
    have hcount : Counted { s with
        writeComp := (meaning (.addNosync 1) s.writeComp).2, served := s.served ++ [c] } :=
      ⟨h.counted.lock, h.counted.exclusive⟩
    exact hcount.goto (by rw [hp]; rfl) (by rw [hp]; rfl) nofun
  · simp only [advance, hp]
    refine h.patient.goto rfl (fun _ _ => rfl) ?_ le_rfl (h.patient.ahead c) trivial
    simp only [State.goto, List.length_append, List.length_singleton]
    exact Nat.le_succ _

theorem advance_sound (h : Sound s queue) (hn : Fintype.card Core ≤ 2 ^ 31) (c : Core)
    (b : Bool) : ∃ queue', Sound (advance s c b) queue' := by
  cases hp : s.pc c with
  | idle => exact ⟨queue, by simpa only [advance, hp] using h⟩
  | readCheck => exact ⟨queue, readCheck_sound h hp⟩
  | readReq req => exact ⟨queue, readReq_sound h hn hp⟩
  | readComp comp => exact ⟨queue, readComp_sound h hn hp⟩
  | readAdd => exact ⟨queue, readAdd_sound h hp⟩
  | readWait => exact ⟨queue, readWait_sound h hp⟩
  | reading => exact ⟨queue, by simpa only [advance, hp] using h⟩
  | readUnlock => exact ⟨queue, readUnlock_sound h hp⟩
  | writeRequest => exact ⟨queue ++ [c], writeRequest_sound h hp⟩
  | writeTurn prev => exact ⟨queue, writeTurn_sound h hn hp⟩
  | writeStore => exact ⟨queue, writeStore_sound h hn hp⟩
  | writing => exact ⟨queue, by simpa only [advance, hp] using h⟩
  | writeUnlock => exact ⟨queue, writeUnlock_sound h hp⟩
  | writeServed => exact ⟨queue.tail, writeServed_sound h hp⟩

theorem step_sound (hn : Fintype.card Core ≤ 2 ^ 31) (h : ∃ queue, Sound s queue)
    (e : Event Core) : ∃ queue, Sound (step s e) queue := by
  obtain ⟨queue, h⟩ := h
  cases e with
  | readLock c =>
    simp only [step]
    split
    · rename_i hp
      refine ⟨queue, Queued.goto (h.queued.of_eq rfl rfl rfl rfl rfl rfl) (by rw [hp]; rfl)
        (by rw [hp]; rfl) nofun nofun, ?_, ?_⟩
      · have hcount : Counted { s with
            ahead := Function.update s.ahead c s.tickets.length } :=
          ⟨h.counted.lock, h.counted.exclusive⟩
        exact hcount.goto (by rw [hp]; rfl) (by rw [hp]; rfl) nofun
      · refine h.patient.goto rfl (fun d hd => ?_) le_rfl le_rfl ?_ ?_ <;>
          simp only [State.goto, Seen, Function.update_self]
        · exact Function.update_of_ne hd _ _
        · exact le_rfl
        · exact h.tickets_le
    · exact ⟨queue, h⟩
  | readUnlock c =>
    simp only [step]
    split
    · rename_i hp
      have hs := h.patient.seen c
      simp only [hp, Seen] at hs
      exact ⟨queue, h.goto (by rw [hp]; rfl) (by rw [hp]; rfl) (by rw [hp]; rfl)
        (by rw [hp]; rfl) nofun nofun (fun _ => .inl (by rw [hp]; rfl)) hs⟩
    · exact ⟨queue, h⟩
  | writeLock c =>
    simp only [step]
    split
    · rename_i hp
      exact ⟨queue, h.goto (by rw [hp]; rfl) (by rw [hp]; rfl) (by rw [hp]; rfl)
        (by rw [hp]; rfl) nofun nofun nofun trivial⟩
    · exact ⟨queue, h⟩
  | writeUnlock c =>
    simp only [step]
    split
    · rename_i hp
      exact ⟨queue, h.goto (by rw [hp]; rfl) (by rw [hp]; rfl) (by rw [hp]; rfl)
        (by rw [hp]; rfl) (fun _ => h.queued.front c (by rw [hp]; rfl)) nofun nofun trivial⟩
    · exact ⟨queue, h⟩
  | move c compFirst => exact advance_sound h hn c compFirst

omit [DecidableEq Core] in
theorem sound_init : Sound (cvmxRwlockWpInit : State Core) [] := by
  constructor
  · exact ⟨rfl, List.nodup_nil, fun c => by simp [cvmxRwlockWpInit, Pc.ticketed], rfl, rfl, nofun,
      nofun, nofun, fun _ => rfl⟩
  · refine ⟨?_, nofun⟩
    rw [Census.count_eq_zero.mpr fun c => rfl, Census.count_eq_zero.mpr fun c => rfl]
    rfl
  · exact ⟨fun c => trivial, fun c => le_rfl⟩

theorem run_sound (hn : Fintype.card Core ≤ 2 ^ 31) (es : List (Event Core)) :
    ∃ queue, Sound (es.foldl step cvmxRwlockWpInit) queue :=
  GuardedRun.foldl_invariant (I := fun s => ∃ queue, Sound s queue)
    (fun _ e h => step_sound hn h e) ⟨[], sound_init⟩

end Step

/-- A writer has the lock alone. -/
def Exclusive (s : State Core) : Prop :=
  ∀ c d, s.pc c = .writing → s.pc d ≠ .reading ∧ (s.pc d = .writing → c = d)

section Overflow

variable {s : State Core} {c : Core}

def enterReader (c : Core) : List (Event Core) :=
  .readLock c :: List.replicate 4 (.move c false)

omit [DecidableEq Core] in
theorem even_flag (k : ℕ) : BitVec.ofNat 32 (2 * k) &&& 1#32 = 0#32 := by
  apply BitVec.eq_of_toNat_eq
  rw [BitVec.toNat_and, show (1#32).toNat = 2 ^ 1 - 1 from rfl, Nat.and_two_pow_sub_one_eq_mod,
    BitVec.toNat_ofNat, show (0#32).toNat = 0 from rfl]
  omega

/-- While no writer is about, a reader enters. -/
theorem reader_enters {k : ℕ} (hreq : s.writeReq = s.writeComp)
    (hl : s.lock = BitVec.ofNat 32 (2 * k)) (hp : s.pc c = .idle) :
    let t := (enterReader c).foldl step s
    t.lock = BitVec.ofNat 32 (2 * (k + 1)) ∧ t.pc = Function.update s.pc c .reading ∧
      t.writeReq = t.writeComp := by
  have hadd : BitVec.ofNat 32 (2 * k) + 2#32 = BitVec.ofNat 32 (2 * (k + 1)) :=
    (BitVec.ofNat_add ..).symm
  simp [enterReader, step, advance, State.goto, hp, hreq, hl, meaning, cvmxRwlockReadInc,
    cvmxRwlockWriteFlag, hadd, even_flag]

theorem readers_enter {k : ℕ} {l : List Core} (hnodup : l.Nodup) (hreq : s.writeReq = s.writeComp)
    (hl : s.lock = BitVec.ofNat 32 (2 * k)) (hp : ∀ c ∈ l, s.pc c = .idle) :
    let t := (l.flatMap enterReader).foldl step s
    t.lock = BitVec.ofNat 32 (2 * (k + l.length)) ∧ (∀ c ∈ l, t.pc c = .reading) ∧
      (∀ c, c ∉ l → t.pc c = s.pc c) ∧ t.writeReq = t.writeComp := by
  induction l generalizing s k with
  | nil => exact ⟨hl, nofun, fun _ _ => rfl, hreq⟩
  | cons a l ih =>
    obtain ⟨ha, hnodup⟩ := List.nodup_cons.mp hnodup
    obtain ⟨h1, h2, h3⟩ := reader_enters hreq hl (hp a List.mem_cons_self)
    simp only [List.flatMap_cons, List.foldl_append]
    have hidle : ∀ c ∈ l, ((enterReader a).foldl step s).pc c = .idle := by
      intro c hc
      have hca : c ≠ a := fun e => ha (e ▸ hc)
      rw [h2, Function.update_of_ne hca]
      exact hp c (List.mem_cons_of_mem a hc)
    obtain ⟨i1, i2, i3, i4⟩ := ih hnodup h3 h1 hidle
    refine ⟨?_, ?_, ?_, i4⟩
    · rw [i1, List.length_cons]
      congr 2
      omega
    · intro c hc
      rcases List.mem_cons.mp hc with rfl | hc
      · rw [i3 c ha, h2, Function.update_self]
      · exact i2 c hc
    · intro c hc
      obtain ⟨hca, hcl⟩ := not_or.mp fun h => hc (List.mem_cons.mpr h)
      rw [i3 c hcl, h2, Function.update_of_ne hca]

/-- 2^31 readers leave the lock at 0, and a writer joins them. -/
theorem wrapped_lock_breaks [Fintype Core] (hn : 2 ^ 31 < Fintype.card Core) :
    ∃ es : List (Event Core), ¬ Exclusive (es.foldl step cvmxRwlockWpInit) := by
  obtain ⟨w⟩ : Nonempty Core := Fintype.card_pos_iff.mp (Nat.zero_lt_of_lt hn)
  obtain ⟨r, hr, hcard⟩ := Finset.exists_subset_card_eq (s := Finset.univ.erase w) (n := 2 ^ 31)
    (by rw [Finset.card_erase_of_mem (Finset.mem_univ w), Finset.card_univ]; omega)
  have hlen : r.toList.length = 2 ^ 31 := by rw [Finset.length_toList, hcard]
  have hw : w ∉ r.toList := by
    rw [Finset.mem_toList]
    exact fun h => Finset.notMem_erase w _ (hr h)
  obtain ⟨h1, h2, h3, h4⟩ := readers_enter (s := cvmxRwlockWpInit) (k := 0) r.nodup_toList rfl rfl
    fun _ _ => rfl
  set s := (r.toList.flatMap enterReader).foldl step cvmxRwlockWpInit with hs
  have hlock : s.lock = 0 := by
    rw [h1, hlen]
    rfl
  have hidle : s.pc w = .idle := h3 w hw
  obtain ⟨c, hc⟩ : ∃ c, c ∈ r.toList :=
    List.exists_mem_of_length_pos (by rw [hlen]; decide)
  have hcw : c ≠ w := fun e => hw (e ▸ hc)
  refine ⟨r.toList.flatMap enterReader ++ .writeLock w :: List.replicate 3 (.move w false), ?_⟩
  intro hex
  rw [List.foldl_append, ← hs] at hex
  have hread : ((.writeLock w :: List.replicate 3 (.move w false)).foldl step s).pc c =
      .reading := by
    have hc := h2 c hc
    simp [step, advance, State.goto, hidle, h4, hlock, meaning, hcw, hc]
  refine (hex w c ?_).1 hread
  simp [step, advance, State.goto, hidle, h4, hlock, meaning]

end Overflow

/-- A writer never has the lock together with anyone else, in any order of the steps, exactly
while one count of 32 bits holds all the readers there can be beside a writer. -/
theorem rwlock_excludes_iff [Fintype Core] :
    (∀ es : List (Event Core), Exclusive (es.foldl step cvmxRwlockWpInit)) ↔
      Fintype.card Core ≤ 2 ^ 31 := by
  constructor
  · intro h
    by_contra hn
    obtain ⟨es, hes⟩ := wrapped_lock_breaks (not_le.mp hn)
    exact hes (h es)
  · intro hn es c d hc
    obtain ⟨queue, h⟩ := run_sound hn es
    constructor
    · intro hd
      have := h.counted.exclusive c d (by rw [hc]; rfl)
      rw [hd] at this
      cases this
    · intro hd
      exact h.queued.front_unique (by rw [hc]; rfl) (by rw [hd]; rfl)

omit [DecidableEq Core] in
/-- The first of the queue may have entered, nobody else. -/
theorem Queued.entered_eq {s : State Core} {queue : List Core} (h : Queued s queue) :
    s.entered = s.served ∨ ∃ c rest, queue = c :: rest ∧ s.entered = s.served ++ [c] := by
  by_cases ha : ∃ c, (s.pc c).arrived = true
  · obtain ⟨c, hc⟩ := ha
    obtain ⟨rest, hq⟩ := List.head?_eq_some_iff.mp (h.front c (front_of_arrived hc))
    exact .inr ⟨c, rest, hq, h.entered c hc⟩
  · exact .inl (h.waiting fun c => by simpa using fun hc => ha ⟨c, hc⟩)

/-- Writers enter and are served in the order in which they took their numbers, one after the
other; a reader has the lock only when every writer that had a number before it began is
served. -/
theorem rwlock_order [Fintype Core] (hn : Fintype.card Core ≤ 2 ^ 31) (es : List (Event Core)) :
    let s := es.foldl step cvmxRwlockWpInit
    s.entered <+: s.tickets ∧ s.served <+: s.entered ∧
      s.entered.length ≤ s.served.length + 1 ∧
      ∀ c, s.pc c = .reading → s.ahead c ≤ s.served.length := by
  intro s
  obtain ⟨queue, h⟩ := run_sound hn es
  have hread : ∀ c, s.pc c = .reading → s.ahead c ≤ s.served.length := by
    intro c hc
    have := h.patient.seen c
    rwa [hc] at this
  rcases h.queued.entered_eq with he | ⟨c, rest, hq, he⟩
  · refine ⟨?_, ?_, ?_, hread⟩
    · rw [he, h.queued.tickets]
      exact List.prefix_append _ _
    · rw [he]
    · rw [he]
      exact Nat.le_succ _
  · refine ⟨?_, ?_, ?_, hread⟩
    · rw [he, h.queued.tickets, hq]
      exact ⟨rest, by simp⟩
    · rw [he]
      exact List.prefix_append _ _
    · rw [he, List.length_append]
      rfl

/-- A reader and two writers on three cores. -/
theorem rwlock_order_three :
    let es : List (Event (Fin 3)) := [.readLock 0, .move 0 true, .writeLock 2, .move 2 false,
      .writeLock 1, .move 1 false, .move 2 false, .move 2 false, .move 0 true, .move 0 true]
    let s := es.foldl step cvmxRwlockWpInit
    s.entered = [2] ∧ s.entered <+: [2, 1] ∧ s.served <+: s.entered := by
  intro es s
  have h := rwlock_order (by decide) es
  have ht : s.tickets = [2, 1] := by decide
  exact ⟨by decide, ht ▸ h.1, h.2.1⟩

end WriterLock
