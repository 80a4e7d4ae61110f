import RouterFirmware.WriterLock

/-! # The reader/writer lock comes to rest

Whatever the cores are about, there is always one among them that can go on to the end of its
call by itself: the writer that has the lock, else a reader that is counted, else the writer
whose turn it is, else anyone. -/
namespace WriterLock

open AtomicWord

variable {Core : Type} [DecidableEq Core]

section Drain

def Event.ends : Event Core → Bool
  | .readUnlock _ | .writeUnlock _ | .move _ _ => true
  | .readLock _ | .writeLock _ => false

/-- The core comes back without any other core's help. -/
def Leaves (s : State Core) (c : Core) : Prop :=
  ∃ fs : List (Event Core), (∀ e ∈ fs, e.ends = true) ∧
    (fs.foldl step s).pc = Function.update s.pc c .idle

section Alone

variable {s : State Core} {c : Core}

theorem advance_pc_of_ne (s : State Core) {c d : Core} (hd : d ≠ c) (b : Bool) :
    (advance s c b).pc d = s.pc d := by
  cases hp : s.pc c <;> simp only [advance, hp] <;> (try split) <;>
    first | rfl | exact goto_pc_of_ne _ c _ hd

theorem Leaves.after {t : State Core} {e : Event Core} (he : e.ends = true) (ht : step s e = t)
    (hpc : ∀ d, d ≠ c → t.pc d = s.pc d) (h : Leaves t c) : Leaves s c := by
  obtain ⟨gs, hgs, hidle⟩ := h
  refine ⟨e :: gs, ?_, ?_⟩
  · intro f hf
    rcases List.mem_cons.mp hf with rfl | hf
    · exact he
    · exact hgs f hf
  · rw [List.foldl_cons, ht, hidle]
    funext d
    by_cases hd : d = c
    · simp [hd]
    · simp [hd, hpc d hd]

theorem Leaves.move (b : Bool) (h : Leaves (advance s c b) c) : Leaves s c :=
  h.after (e := .move c b) rfl rfl fun _ hd => advance_pc_of_ne s hd b

theorem leaves_idle (hp : s.pc c = .idle) : Leaves s c :=
  ⟨[], nofun, by rw [List.foldl_nil, ← hp, Function.update_eq_self]⟩

theorem leaves_readUnlock (hp : s.pc c = .readUnlock) : Leaves s c :=
  .move false (leaves_idle (by simp [advance, hp]))

theorem leaves_reading (hp : s.pc c = .reading) : Leaves s c := by
  refine Leaves.after (e := .readUnlock c) rfl rfl (fun d hd => ?_) (leaves_readUnlock ?_)
  · simp [step, hp, goto_pc_of_ne s c _ hd]
  · simp [step, hp]

theorem leaves_readWait (hp : s.pc c = .readWait) (hl : s.lock &&& 1#32 = 0#32) : Leaves s c :=
  .move false (leaves_reading (by simp [advance, hp, cvmxRwlockWriteFlag, hl]))

theorem leaves_readAdd (hp : s.pc c = .readAdd) (hl : s.lock = 0) : Leaves s c :=
  .move false (leaves_readWait (by simp [advance, hp]) (by
    simp [advance, hp, State.goto, meaning, hl, cvmxRwlockReadInc]))

/-- Once the counters agree the reader gets through, if need be after another look. -/
theorem leaves_readReq {req : BitVec 32} (hp : s.pc c = .readReq req) (hr : req = s.writeComp)
    (hl : s.lock = 0) : Leaves s c :=
  .move false (leaves_readAdd (by simp [advance, hp, hr]) (by simp [advance, hp, State.goto, hl]))

theorem leaves_readCheck (hp : s.pc c = .readCheck) (hr : s.writeReq = s.writeComp)
    (hl : s.lock = 0) : Leaves s c :=
  .move false (leaves_readReq (by simp [advance, hp]; rfl)
    (by simp [advance, hp, State.goto, hr]) (by simp [advance, hp, State.goto, hl]))

theorem leaves_readReq_again {req : BitVec 32} (hp : s.pc c = .readReq req)
    (hr : s.writeReq = s.writeComp) (hl : s.lock = 0) : Leaves s c := by
  by_cases he : req = s.writeComp
  · exact leaves_readReq hp he hl
  · exact .move false (leaves_readCheck (by simp [advance, hp, he])
      (by simp [advance, hp, State.goto, hr]) (by simp [advance, hp, State.goto, hl]))

theorem leaves_readComp_again {comp : BitVec 32} (hp : s.pc c = .readComp comp)
    (hr : s.writeReq = s.writeComp) (hl : s.lock = 0) : Leaves s c := by
  by_cases he : s.writeReq = comp
  · exact .move false (leaves_readAdd (by simp [advance, hp, he])
      (by simp [advance, hp, State.goto, hl]))
  · exact .move false (leaves_readCheck (by simp [advance, hp, he])
      (by simp [advance, hp, State.goto, hr]) (by simp [advance, hp, State.goto, hl]))

theorem leaves_writeServed (hp : s.pc c = .writeServed) : Leaves s c :=
  .move false (leaves_idle (by simp [advance, hp]))

theorem leaves_writeUnlock (hp : s.pc c = .writeUnlock) : Leaves s c :=
  .move false (leaves_writeServed (by simp [advance, hp]))

theorem leaves_writing (hp : s.pc c = .writing) : Leaves s c := by
  refine Leaves.after (e := .writeUnlock c) rfl rfl (fun d hd => ?_) (leaves_writeUnlock ?_)
  · simp [step, hp, goto_pc_of_ne s c _ hd]
  · simp [step, hp]

theorem leaves_writeStore (hp : s.pc c = .writeStore) (hl : s.lock = 0) : Leaves s c :=
  .move false (leaves_writing (by simp [advance, hp, meaning, hl]))

theorem leaves_writeTurn {prev : BitVec 32} (hp : s.pc c = .writeTurn prev)
    (hr : prev = s.writeComp) (hl : s.lock = 0) : Leaves s c :=
  .move false (leaves_writeStore (by simp [advance, hp, hr])
    (by simp [advance, hp, hr, State.goto, hl]))

theorem leaves_writeRequest (hp : s.pc c = .writeRequest) (hr : s.writeReq = s.writeComp)
    (hl : s.lock = 0) : Leaves s c :=
  .move false (leaves_writeTurn (by simp [advance, hp, meaning]; rfl)
    (by simp [advance, hp, State.goto, hr]) (by simp [advance, hp, State.goto, hl]))

end Alone

variable [Fintype Core] {s : State Core} {queue : List Core}

omit [DecidableEq Core] in
theorem Counted.lock_of_unflagged (h : Counted s) (hf : ∀ c, (s.pc c).flagged = false) :
    s.lock = BitVec.ofNat 32 (2 * Census.count Pc.counted s.pc) := by
  rw [h.lock, Census.count_eq_zero.mpr hf]
  rfl

omit [DecidableEq Core] [Fintype Core] in
theorem Queued.req_eq_comp (h : Queued s queue) (hq : queue = []) :
    s.writeReq = s.writeComp := by
  rw [h.req, h.comp, h.tickets, hq, List.append_nil]

omit [DecidableEq Core] [Fintype Core] in
theorem Queued.turn_of_head (h : Queued s queue) {c : Core} {prev : BitVec 32}
    (hh : queue.head? = some c) (hp : s.pc c = .writeTurn prev) : prev = s.writeComp := by
  obtain ⟨i, hi, hprev⟩ := h.turn c prev hp
  obtain ⟨rest, rfl⟩ := List.head?_eq_some_iff.mp hh
  obtain ⟨hlt, hget⟩ := List.getElem?_eq_some_iff.mp hi
  have h0 : (c :: rest)[i] = (c :: rest)[0] := hget
  rw [hprev, h.nodup.getElem_inj_iff.mp h0, h.comp, Nat.add_zero]

/-- As long as anyone is in a call or has the lock, someone can come back by himself: the
writer that has it, else a reader that is counted, else the writer whose turn it is, else
anyone. -/
theorem one_leaves (h : Sound s queue) (hbusy : ∃ c, s.pc c ≠ .idle) :
    ∃ c, s.pc c ≠ .idle ∧ Leaves s c := by
  have leave : ∀ {c}, s.pc c ≠ .idle → Leaves s c → ∃ c, s.pc c ≠ .idle ∧ Leaves s c :=
    fun hc hl => ⟨_, hc, hl⟩
  by_cases hf : ∃ c, (s.pc c).flagged = true
  · obtain ⟨c, hc⟩ := hf
    cases hp : s.pc c with
    | writing => exact leave (by rw [hp]; nofun) (leaves_writing hp)
    | writeUnlock => exact leave (by rw [hp]; nofun) (leaves_writeUnlock hp)
    | _ => rw [hp] at hc; cases hc
  have hf : ∀ c, (s.pc c).flagged = false := fun c => by simpa using fun hc => hf ⟨c, hc⟩
  have hlock := h.counted.lock_of_unflagged hf
  by_cases hr : ∃ c, (s.pc c).counted = true
  · obtain ⟨c, hc⟩ := hr
    cases hp : s.pc c with
    | readWait =>
      exact leave (by rw [hp]; nofun) (leaves_readWait hp (by rw [hlock]; exact even_flag _))
    | reading => exact leave (by rw [hp]; nofun) (leaves_reading hp)
    | readUnlock => exact leave (by rw [hp]; nofun) (leaves_readUnlock hp)
    | _ => rw [hp] at hc; cases hc
  have hl : s.lock = 0 := by
    rw [hlock, Census.count_eq_zero.mpr fun c => by simpa using fun hc => hr ⟨c, hc⟩]
    rfl
  cases hq : queue with
  | cons c rest =>
    have hhead : queue.head? = some c := by rw [hq]; rfl
    have ht : (s.pc c).ticketed = true := (h.queued.mem c).mp (by rw [hq]; exact List.mem_cons_self)
    cases hp : s.pc c with
    | writeTurn prev =>
      exact leave (by rw [hp]; nofun) (leaves_writeTurn hp (h.queued.turn_of_head hhead hp) hl)
    | writeStore => exact leave (by rw [hp]; nofun) (leaves_writeStore hp hl)
    | writeServed => exact leave (by rw [hp]; nofun) (leaves_writeServed hp)
    | writing => exact leave (by rw [hp]; nofun) (leaves_writing hp)
    | writeUnlock => exact leave (by rw [hp]; nofun) (leaves_writeUnlock hp)
    | _ => rw [hp] at ht; cases ht
  | nil =>
    have hreq := h.queued.req_eq_comp hq
    have hno : ∀ c, (s.pc c).ticketed = false := fun c => by
      simpa [hq] using (h.queued.mem c).not
    obtain ⟨c, hc⟩ := hbusy
    refine leave hc ?_
    have ht := hno c
    cases hp : s.pc c with
    | idle => exact absurd hp hc
    | readCheck => exact leaves_readCheck hp hreq hl
    | readReq req => exact leaves_readReq_again hp hreq hl
    | readComp comp => exact leaves_readComp_again hp hreq hl
    | readAdd => exact leaves_readAdd hp hl
    | writeRequest => exact leaves_writeRequest hp hreq hl
    | readWait | reading | readUnlock => exact absurd ⟨c, by rw [hp]; rfl⟩ hr
    | writeTurn _ | writeStore | writing | writeUnlock | writeServed =>
      rw [hp] at ht
      cases ht

def Pc.busy : Pc → Bool
  | .idle => false
  | .readCheck | .readReq _ | .readComp _ | .readAdd | .readWait | .reading | .readUnlock
  | .writeRequest | .writeTurn _ | .writeStore | .writing | .writeUnlock | .writeServed => true

omit [DecidableEq Core] [Fintype Core] in
theorem busy_iff {c : Core} : (s.pc c).busy = true ↔ s.pc c ≠ .idle := by
  cases hp : s.pc c <;> simp [Pc.busy]

theorem drains (hn : Fintype.card Core ≤ 2 ^ 31) {k : ℕ} (h : ∃ queue, Sound s queue)
    (hk : Census.count Pc.busy s.pc = k) :
    ∃ fs : List (Event Core), (∀ e ∈ fs, e.ends = true) ∧
      ∀ c, (fs.foldl step s).pc c = .idle := by
  induction k generalizing s with
  | zero =>
    refine ⟨[], nofun, fun c => ?_⟩
    rw [List.foldl_nil]
    by_contra hc
    have := Census.count_eq_zero.mp hk c
    rw [busy_iff.mpr hc] at this
    cases this
  | succ k ih =>
    obtain ⟨queue, hs⟩ := h
    have hbusy : ∃ c, s.pc c ≠ .idle := by
      by_contra hno
      have : Census.count Pc.busy s.pc = 0 := Census.count_eq_zero.mpr fun c => by
        rw [Bool.eq_false_iff]
        exact fun hc => hno ⟨c, busy_iff.mp hc⟩
      omega
    obtain ⟨c, hc, fs, hfs, hpc⟩ := one_leaves hs hbusy
    have hcount : Census.count Pc.busy (fs.foldl step s).pc = k := by
      have := Census.count_update_leave (p := Pc.busy) (f := s.pc) (c := c) (x := .idle)
        (busy_iff.mpr hc) rfl
      rw [hpc]
      omega
    obtain ⟨gs, hgs, hidle⟩ := ih (GuardedRun.foldl_invariant
      (I := fun s => ∃ queue, Sound s queue) (fun _ e h => step_sound hn h e) ⟨queue, hs⟩) hcount
    refine ⟨fs ++ gs, fun e he => (List.mem_append.mp he).elim (hfs e) (hgs e), ?_⟩
    rwa [List.foldl_append]

end Drain

/-- No deadlock: whatever has happened, the cores can all come back without a new call, and
leave the lock as free as it was at first. -/
theorem rwlock_drains [Fintype Core] (hn : Fintype.card Core ≤ 2 ^ 31)
    (es : List (Event Core)) : ∃ fs : List (Event Core), (∀ e ∈ fs, e.ends = true) ∧
      let t := (es ++ fs).foldl step cvmxRwlockWpInit
      (∀ c, t.pc c = .idle) ∧ t.lock = 0 ∧ t.writeReq = t.writeComp := by
  obtain ⟨fs, hfs, hidle⟩ := drains hn (run_sound hn es) rfl
  refine ⟨fs, hfs, ?_⟩
  intro t
  have ht : ∀ c, t.pc c = .idle := by
    intro c
    simp only [t, List.foldl_append]
    exact hidle c
  obtain ⟨queue, h⟩ : ∃ queue, Sound t queue := run_sound hn (es ++ fs)
  refine ⟨ht, ?_, ?_⟩
  · rw [h.counted.lock_of_unflagged fun c => by rw [ht c]; rfl,
      Census.count_eq_zero.mpr fun c => by rw [ht c]; rfl]
    rfl
  · refine h.queued.req_eq_comp (List.eq_nil_iff_forall_not_mem.mpr fun c hc => ?_)
    have := (h.queued.mem c).mp hc
    rw [ht c] at this
    cases this

/-- From the middle of a writer's turn. -/
theorem rwlock_drains_two :
    let es : List (Event (Fin 2)) :=
      [.writeLock 0, .move 0 false, .readLock 1, .move 1 true, .move 0 false]
    ∃ fs, (∀ e ∈ fs, e.ends = true) ∧ ((es ++ fs).foldl step cvmxRwlockWpInit).lock = 0 := by
  intro es
  obtain ⟨fs, hfs, -, hl, -⟩ := rwlock_drains (by decide) es
  exact ⟨fs, hfs, hl⟩

end WriterLock
