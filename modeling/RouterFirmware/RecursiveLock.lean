import RouterFirmware.LinkedStore
import Mathlib.Data.BitVec

/-! # The recursive spin lock

A count of levels, 0 while the lock is free, and the number of the core that has it. A core
that finds the count positive enters when the number is its own: no store-conditional guards
this path. The initialisation sets the count and not the number. -/
namespace RecursiveLock

open LinkedStore

variable {Core : Type} [DecidableEq Core]

/-- The next instruction of a core, with the register `tmp` it goes on with. -/
inductive Pc where
  | idle
  | lockLoad
  | lockStore (tmp : BitVec 32)
  | lockOwner
  | lockReload
  | lockCount (tmp : BitVec 32)
  | lockSign
  | unlockMark
  | unlockLoad
  | unlockStore (tmp : BitVec 32)
  | unlockSign
  deriving DecidableEq, Repr

/-- `depth` counts the levels a core has taken and not begun to give back: a history variable
that no instruction reads. -/
structure State (Core : Type) where
  value : Word Core (BitVec 32)
  coreNum : BitVec 32
  pc : Core → Pc
  depth : Core → ℕ

inductive Event (Core : Type) where
  | lock (c : Core)
  | unlock (c : Core)
  | move (c : Core)
  | unlink (c : Core)
  deriving DecidableEq

def State.goto (s : State Core) (c : Core) (pc : Pc) : State Core :=
  { s with pc := Function.update s.pc c pc }

def levels : Pc → ℕ → ℕ
  | .lockSign, depth | .unlockMark, depth | .unlockLoad, depth | .unlockStore _, depth => depth + 1
  | .idle, depth | .lockLoad, depth | .lockStore _, depth | .lockOwner, depth
  | .lockReload, depth | .lockCount _, depth | .unlockSign, depth => depth

def State.share (s : State Core) (c : Core) : ℕ := levels (s.pc c) (s.depth c)

section Goto

variable (s : State Core) (c : Core) (pc : Pc)

@[simp] theorem goto_value : (s.goto c pc).value = s.value := rfl
@[simp] theorem goto_coreNum : (s.goto c pc).coreNum = s.coreNum := rfl
@[simp] theorem goto_depth : (s.goto c pc).depth = s.depth := rfl
@[simp] theorem goto_pc_self : (s.goto c pc).pc c = pc := by simp [State.goto]

@[simp] theorem goto_share : (s.goto c pc).share c = levels pc (s.depth c) := by
  simp [State.share, State.goto]

theorem goto_pc_of_ne {d : Core} (h : d ≠ c) : (s.goto c pc).pc d = s.pc d := by
  simp [State.goto, h]

end Goto

/-- One instruction of core `c`, whose number is `num c`. The `sync` instructions order the
stores, which take effect in program order here. -/
def advance (num : Core → BitVec 32) (s : State Core) (c : Core) : State Core :=
  match s.pc c with
  | .idle => s
  | .lockLoad =>
    let t := { s with value := s.value.loadLinked c }
    if s.value.value ≠ 0 then t.goto c .lockOwner else t.goto c (.lockStore (s.value.value + 1))
  | .lockStore tmp =>
    if s.value.linked c then { s with value := s.value.store tmp }.goto c .lockSign
    else s.goto c .lockLoad
  | .lockOwner => s.goto c (if s.coreNum ≠ num c then .lockLoad else .lockReload)
  | .lockReload => s.goto c (.lockCount (s.value.value + 1))
  | .lockCount tmp => { s with value := s.value.store tmp }.goto c .lockSign
  | .lockSign =>
    { s with coreNum := num c, depth := Function.update s.depth c (s.depth c + 1) }.goto c .idle
  | .unlockMark => { s with coreNum := num c + 0x80 }.goto c .unlockLoad
  | .unlockLoad => { s with value := s.value.loadLinked c }.goto c (.unlockStore s.value.value)
  | .unlockStore tmp =>
    if s.value.linked c then
      { s with value := s.value.store (tmp - 1) }.goto c (if tmp = 1 then .idle else .unlockSign)
    else s.goto c .unlockLoad
  | .unlockSign => { s with coreNum := num c }.goto c .idle

def step (num : Core → BitVec 32) (s : State Core) : Event Core → State Core
  | .lock c => if s.pc c = .idle then s.goto c .lockLoad else s
  | .unlock c =>
    if s.pc c = .idle then
      { s with depth := Function.update s.depth c (s.depth c - 1) }.goto c .unlockMark
    else s
  | .move c => advance num s c
  | .unlink c => { s with value := s.value.unlink c }

/-- `cvmx_spinlock_rec_init` over a lock that held `coreNum`. -/
def cvmxSpinlockRecInit (coreNum : BitVec 32) : State Core :=
  ⟨⟨0, fun _ => false⟩, coreNum, fun _ => .idle, fun _ => 0⟩

/-- A core unlocks only a level that it has taken, and the levels fit the counter. -/
def Proper (s : State Core) : Event Core → Prop
  | .lock c => s.depth c + 1 < 2 ^ 32
  | .unlock c => 0 < s.depth c
  | _ => True

instance (s : State Core) : (e : Event Core) → Decidable (Proper s e)
  | .lock c => inferInstanceAs (Decidable (s.depth c + 1 < 2 ^ 32))
  | .unlock c => inferInstanceAs (Decidable (0 < s.depth c))
  | .move _ | .unlink _ => inferInstanceAs (Decidable True)

/-- The core has ended more calls of `lock` than it has begun calls of `unlock`. -/
def Inside (s : State Core) (c : Core) : Prop := 0 < s.depth c

instance (s : State Core) (c : Core) : Decidable (Inside s c) :=
  inferInstanceAs (Decidable (0 < s.depth c))

omit [DecidableEq Core] in
theorem Inside.share_pos {s : State Core} {c : Core} (h : Inside s c) : 0 < s.share c := by
  simp only [Inside] at h
  simp only [State.share]
  cases s.pc c <;> simp only [levels] <;> omega

/-- What the register and the place of a core say of the lock. -/
def Registers (num : Core → BitVec 32) (s : State Core) (c : Core) : Pc → Prop
  | .idle | .lockSign | .unlockMark => True
  | .lockLoad | .lockOwner => s.depth c + 1 < 2 ^ 32
  | .lockStore tmp =>
    s.depth c + 1 < 2 ^ 32 ∧ (s.value.linked c = true → s.value.value = 0 ∧ tmp = 1)
  | .lockReload => s.depth c + 1 < 2 ^ 32 ∧ 0 < s.depth c
  | .lockCount tmp => s.depth c + 1 < 2 ^ 32 ∧ 0 < s.depth c ∧ tmp = s.value.value + 1
  | .unlockLoad => s.coreNum = num c + 0x80
  | .unlockStore tmp =>
    s.coreNum = num c + 0x80 ∧ (s.value.linked c = true → s.value.value = tmp)
  | .unlockSign => 0 < s.depth c

/-- The count is the levels of the one core that has any, and the number that stands in the
lock is not that of another. -/
structure Invariant (num : Core → BitVec 32) (s : State Core) : Prop where
  count : ∀ c, 0 < s.share c → s.value.value.toNat = s.share c
  free : (∀ c, s.share c = 0) → s.value.value = 0
  one : ∀ c d, 0 < s.share c → 0 < s.share d → c = d
  registers : ∀ c, Registers num s c (s.pc c)
  signed : ∀ c, s.coreNum = num c → 0 < s.share c

section Keep

variable {num : Core → BitVec 32} {s t : State Core} {c : Core}

omit [DecidableEq Core] in
theorem Invariant.zero_of_free (h : Invariant num s) (hv : s.value.value = 0) (c : Core) :
    s.share c = 0 := by
  by_contra hc
  have := h.count c (Nat.pos_of_ne_zero hc)
  rw [hv] at this
  exact hc this.symm

omit [DecidableEq Core] in
theorem Invariant.zero_of_ne (h : Invariant num s) (hc : 0 < s.share c) {d : Core} (hd : d ≠ c) :
    s.share d = 0 := by
  by_contra hs
  exact hd (h.one d c (Nat.pos_of_ne_zero hs) hc)

/-- The parts of the state that belong to the other cores stay as they are. -/
structure Local (s t : State Core) (c : Core) : Prop where
  pc : ∀ d, d ≠ c → t.pc d = s.pc d
  depth : ∀ d, d ≠ c → t.depth d = s.depth d
  link : ∀ d, d ≠ c → t.value.linked d = true →
    s.value.linked d = true ∧ t.value.value = s.value.value

omit [DecidableEq Core] in
theorem Local.share (h : Local s t c) {d : Core} (hd : d ≠ c) : t.share d = s.share d := by
  simp only [State.share, h.pc d hd, h.depth d hd]

omit [DecidableEq Core] in
/-- A step that changes neither the count nor the number nor whose the levels are. -/
theorem quiet_keeps (h : Invariant num s) (hl : Local s t c)
    (hv : t.value.value = s.value.value) (hn : t.coreNum = s.coreNum)
    (hs : t.share c = s.share c) (hr : Registers num t c (t.pc c)) : Invariant num t := by
  have share : ∀ d, t.share d = s.share d := by
    intro d
    by_cases hd : d = c
    · exact hd ▸ hs
    · exact hl.share hd
  constructor
  · intro d hd
    rw [share] at hd ⊢
    exact hv ▸ h.count d hd
  · exact fun hz => hv ▸ h.free fun d => share d ▸ hz d
  · exact fun d e hd he => h.one d e (share d ▸ hd) (share e ▸ he)
  · intro d
    by_cases hd : d = c
    · exact hd ▸ hr
    · have hrd := h.registers d
      simp only [hl.pc d hd] at *
      cases hp : s.pc d <;>
        simp only [hp, Registers, hl.depth d hd, hv, hn] at hrd ⊢ <;>
        first
          | exact hrd
          | exact ⟨hrd.1, fun hk => hrd.2 (hl.link d hd hk).1⟩
  · exact fun d hd => share d ▸ h.signed d (hn ▸ hd)

omit [DecidableEq Core] in
theorem alone_keeps (h : Invariant num s) (hl : Local s t c) (hz : ∀ d, d ≠ c → s.share d = 0)
    (hv : t.value.value.toNat = t.share c) (hr : Registers num t c (t.pc c))
    (hn : ∀ d, t.coreNum = num d → d = c ∧ 0 < t.share c) : Invariant num t := by
  have only : ∀ d, 0 < t.share d → d = c := by
    intro d hd
    by_contra hdc
    rw [hl.share hdc, hz d hdc] at hd
    exact Nat.lt_irrefl 0 hd
  constructor
  · intro d hd
    rw [only d hd, hv]
  · intro hall
    apply BitVec.eq_of_toNat_eq
    rw [hv, hall c]
    rfl
  · exact fun d e hd he => (only d hd).trans (only e he).symm
  · intro d
    by_cases hd : d = c
    · exact hd ▸ hr
    · -- a core without a level is about to take one or idle
      have hrd := h.registers d
      have hzd := hz d hd
      simp only [State.share] at hzd
      rw [hl.pc d hd]
      cases hp : s.pc d <;> simp only [hp, Registers, levels, hl.depth d hd] at hrd hzd ⊢ <;>
        first
          | omega
          | exact ⟨hrd.1, fun hk =>
              (hl.link d hd hk).2 ▸ hrd.2 (hl.link d hd hk).1⟩
  · rintro d hd
    obtain ⟨rfl, hpos⟩ := hn d hd
    exact hpos

end Keep

section Step

variable {num : Core → BitVec 32} {s : State Core} {c : Core}

/-- The number a core writes while it unlocks is no core's. -/
def Apart (num : Core → BitVec 32) : Prop := ∀ c d, num c + 0x80 ≠ num d

theorem goto_keeps (h : Invariant num s) {w : Word Core (BitVec 32)} {pc : Pc}
    (hw : w.value = s.value.value)
    (hk : ∀ d, d ≠ c → w.linked d = true → s.value.linked d = true)
    (hs : levels pc (s.depth c) = s.share c)
    (hr : Registers num ({ s with value := w }.goto c pc) c pc) :
    Invariant num ({ s with value := w }.goto c pc) := by
  refine quiet_keeps (c := c) h ⟨fun d hd => goto_pc_of_ne _ c pc hd, fun d _ => rfl,
    fun d hd hl => ⟨hk d hd hl, hw⟩⟩ hw rfl ?_ ?_
  · simpa [State.share] using hs
  · simpa using hr

theorem lockLoad_keeps (h : Invariant num s) (hp : s.pc c = .lockLoad) :
    Invariant num (advance num s c) := by
  have hr := h.registers c
  have hs : s.share c = s.depth c := by simp [State.share, hp, levels]
  simp only [hp, Registers] at hr
  have hk : ∀ d, d ≠ c → (s.value.loadLinked c).linked d = true → s.value.linked d = true :=
    fun d hd hl => loadLinked_of_ne s.value hd ▸ hl
  simp only [advance, hp]
  split
  · exact goto_keeps h rfl hk hs.symm hr
  · rename_i hv
    have hz : s.value.value = 0 := by simpa using hv
    refine goto_keeps h rfl hk hs.symm ⟨hr, fun _ => ⟨hz, ?_⟩⟩
    rw [hz]
    rfl

theorem lockStore_keeps (h : Invariant num s) {tmp : BitVec 32} (hp : s.pc c = .lockStore tmp) :
    Invariant num (advance num s c) := by
  have hr := h.registers c
  simp only [hp, Registers] at hr
  have hs : s.share c = s.depth c := by simp [State.share, hp, levels]
  simp only [advance, hp]
  split
  · rename_i hl
    obtain ⟨hv, rfl⟩ := hr.2 hl
    have hz := h.zero_of_free hv
    refine alone_keeps (c := c) h ⟨fun d hd => goto_pc_of_ne _ c _ hd, fun d _ => rfl, ?_⟩
      (fun d _ => hz d) ?_ ?_ ?_
    · intro d _ hld
      cases hld
    · have : s.depth c = 0 := hs ▸ hz c
      simp [levels, this]
    · simp [Registers]
    · intro d hd
      exact absurd (hz d) (h.signed d hd).ne'
  · exact goto_keeps h rfl (fun d _ hl => hl) hs.symm hr.1

theorem lockOwner_keeps (h : Invariant num s) (hp : s.pc c = .lockOwner) :
    Invariant num (advance num s c) := by
  have hr := h.registers c
  simp only [hp, Registers] at hr
  have hs : s.share c = s.depth c := by simp [State.share, hp, levels]
  simp only [advance, hp]
  split
  · exact goto_keeps h rfl (fun d _ hl => hl) hs.symm hr
  · rename_i hn
    have hn : s.coreNum = num c := by simpa using hn
    exact goto_keeps h rfl (fun d _ hl => hl) hs.symm ⟨hr, hs ▸ h.signed c hn⟩

theorem lockReload_keeps (h : Invariant num s) (hp : s.pc c = .lockReload) :
    Invariant num (advance num s c) := by
  have hr := h.registers c
  simp only [hp, Registers] at hr
  have hs : s.share c = s.depth c := by simp [State.share, hp, levels]
  simp only [advance, hp]
  exact goto_keeps h rfl (fun d _ hl => hl) hs.symm ⟨hr.1, hr.2, rfl⟩

theorem lockCount_keeps (h : Invariant num s) {tmp : BitVec 32} (hp : s.pc c = .lockCount tmp) :
    Invariant num (advance num s c) := by
  have hr := h.registers c
  simp only [hp, Registers] at hr
  obtain ⟨hroom, hpos, rfl⟩ := hr
  have hs : s.share c = s.depth c := by simp [State.share, hp, levels]
  have hc := h.count c (hs ▸ hpos)
  simp only [advance, hp]
  refine alone_keeps (c := c) h ⟨fun d hd => goto_pc_of_ne _ c _ hd, fun d _ => rfl, ?_⟩
    (fun d hd => h.zero_of_ne (hs ▸ hpos) hd) ?_ ?_ ?_
  · intro d _ hld
    cases hld
  · have : (s.value.value + 1).toNat = s.depth c + 1 := by
      rw [BitVec.toNat_add, hc, hs]
      exact Nat.mod_eq_of_lt hroom
    simpa [levels] using this
  · simp [Registers]
  · intro d hd
    have hsd := h.signed d hd
    exact ⟨h.one d c hsd (hs ▸ hpos), by simp [levels]⟩

theorem lockSign_keeps (hinj : Function.Injective num) (h : Invariant num s)
    (hp : s.pc c = .lockSign) : Invariant num (advance num s c) := by
  have hs : s.share c = s.depth c + 1 := by simp [State.share, hp, levels]
  simp only [advance, hp]
  refine alone_keeps (c := c) h ⟨fun d hd => goto_pc_of_ne _ c _ hd,
    fun d hd => by simp [hd], fun d _ hl => ⟨hl, rfl⟩⟩
    (fun d hd => h.zero_of_ne (hs ▸ Nat.succ_pos _) hd) ?_ ?_ ?_
  · simpa [levels] using (h.count c (hs ▸ Nat.succ_pos _)).trans hs
  · simp [Registers]
  · intro d hd
    exact ⟨(hinj hd).symm, by simp [levels]⟩

theorem unlockMark_keeps (hapart : Apart num) (h : Invariant num s)
    (hp : s.pc c = .unlockMark) : Invariant num (advance num s c) := by
  have hs : s.share c = s.depth c + 1 := by simp [State.share, hp, levels]
  simp only [advance, hp]
  refine alone_keeps (c := c) h ⟨fun d hd => goto_pc_of_ne _ c _ hd, fun d _ => rfl,
    fun d _ hl => ⟨hl, rfl⟩⟩ (fun d hd => h.zero_of_ne (hs ▸ Nat.succ_pos _) hd) ?_ ?_ ?_
  · simpa [levels] using (h.count c (hs ▸ Nat.succ_pos _)).trans hs
  · simp [Registers]
  · intro d hd
    exact absurd hd (hapart c d)

theorem unlockLoad_keeps (h : Invariant num s) (hp : s.pc c = .unlockLoad) :
    Invariant num (advance num s c) := by
  have hr := h.registers c
  simp only [hp, Registers] at hr
  have hs : s.share c = s.depth c + 1 := by simp [State.share, hp, levels]
  simp only [advance, hp]
  exact goto_keeps h rfl (fun d hd hl => loadLinked_of_ne s.value hd ▸ hl) hs.symm
    ⟨hr, fun _ => rfl⟩

/-- The last level gives the lock back; `num c + 0x80` stays in it. -/
theorem unlockStore_keeps (hapart : Apart num) (h : Invariant num s) {tmp : BitVec 32}
    (hp : s.pc c = .unlockStore tmp) : Invariant num (advance num s c) := by
  have hr := h.registers c
  simp only [hp, Registers] at hr
  have hs : s.share c = s.depth c + 1 := by simp [State.share, hp, levels]
  have hpos : 0 < s.share c := hs ▸ Nat.succ_pos _
  simp only [advance, hp]
  split
  · rename_i hl
    have hv := hr.2 hl
    have hcount := h.count c hpos
    rw [hv, hs] at hcount
    have hsub : (tmp - 1).toNat = s.depth c := by
      have := tmp.isLt
      rw [BitVec.toNat_sub_of_le (by simp [BitVec.le_def, hcount])]
      simp [hcount]
    have hone : tmp = 1 ↔ s.depth c = 0 := by
      rw [← BitVec.toNat_inj, hcount]
      simp
    refine alone_keeps (c := c) h ⟨fun d hd => goto_pc_of_ne _ c _ hd, fun d _ => rfl, ?_⟩
      (fun d hd => h.zero_of_ne hpos hd) ?_ ?_ ?_
    · intro d _ hld
      cases hld
    · simp only [goto_share]
      split <;> exact hsub
    · simp only [goto_pc_self]
      split
      · trivial
      · rename_i ht
        exact Nat.pos_of_ne_zero fun hd => ht (hone.mpr hd)
    · intro d hd
      exact absurd (hr.1.symm.trans hd) (hapart c d)
  · exact goto_keeps h rfl (fun d _ hl => hl) hs.symm hr.1

theorem unlockSign_keeps (hinj : Function.Injective num) (h : Invariant num s)
    (hp : s.pc c = .unlockSign) : Invariant num (advance num s c) := by
  have hr := h.registers c
  simp only [hp, Registers] at hr
  have hs : s.share c = s.depth c := by simp [State.share, hp, levels]
  simp only [advance, hp]
  refine alone_keeps (c := c) h ⟨fun d hd => goto_pc_of_ne _ c _ hd, fun d _ => rfl,
    fun d _ hl => ⟨hl, rfl⟩⟩ (fun d hd => h.zero_of_ne (hs ▸ hr) hd) ?_ ?_ ?_
  · simpa [levels] using (h.count c (hs ▸ hr)).trans hs
  · simp [Registers]
  · intro d hd
    exact ⟨(hinj hd).symm, by simpa [levels] using hr⟩

theorem advance_keeps_lock (hinj : Function.Injective num) (hapart : Apart num)
    (h : Invariant num s) (c : Core) : Invariant num (advance num s c) := by
  cases hp : s.pc c with
  | idle => simpa only [advance, hp] using h
  | lockLoad => exact lockLoad_keeps h hp
  | lockStore tmp => exact lockStore_keeps h hp
  | lockOwner => exact lockOwner_keeps h hp
  | lockReload => exact lockReload_keeps h hp
  | lockCount tmp => exact lockCount_keeps h hp
  | lockSign => exact lockSign_keeps hinj h hp
  | unlockMark => exact unlockMark_keeps hapart h hp
  | unlockLoad => exact unlockLoad_keeps h hp
  | unlockStore tmp => exact unlockStore_keeps hapart h hp
  | unlockSign => exact unlockSign_keeps hinj h hp

theorem step_keeps_lock (hinj : Function.Injective num) (hapart : Apart num)
    (h : Invariant num s) {e : Event Core} (he : Proper s e) : Invariant num (step num s e) := by
  cases e with
  | lock c =>
    simp only [step]
    split
    · rename_i hp
      exact goto_keeps h rfl (fun d _ hl => hl) (by simp [State.share, hp, levels]) he
    · exact h
  | unlock c =>
    simp only [step]
    split
    · rename_i hp
      have hs : s.share c = s.depth c := by simp [State.share, hp, levels]
      refine quiet_keeps (c := c) h ⟨fun d hd => goto_pc_of_ne _ c _ hd,
        fun d hd => by simp [hd], fun d _ hl => ⟨hl, rfl⟩⟩ rfl rfl ?_ ?_
      · simpa [levels, hs] using Nat.sub_add_cancel he
      · simp [Registers]
    · exact h
  | move c => exact advance_keeps_lock hinj hapart h c
  | unlink c =>
    have hr := h.registers c
    refine quiet_keeps (c := c) h ⟨fun d _ => rfl, fun d _ => rfl,
      fun d _ hl => ⟨linked_of_unlink hl, rfl⟩⟩ rfl rfl rfl ?_
    cases hp : s.pc c <;> simp only [step, hp, Registers] at hr ⊢ <;>
      first
        | exact hr
        | exact ⟨hr.1, fun hk => hr.2 (linked_of_unlink hk)⟩

end Step

section Runs

variable {num : Core → BitVec 32} {coreNum : BitVec 32}

omit [DecidableEq Core] in
theorem invariant_init (hfree : ∀ c, num c ≠ coreNum) :
    Invariant num (cvmxSpinlockRecInit coreNum) := by
  constructor
  · intro c h
    cases h
  · exact fun _ => rfl
  · intro c d h
    cases h
  · exact fun c => trivial
  · exact fun c h => absurd h.symm (hfree c)

theorem run_invariant (hinj : Function.Injective num) (hapart : Apart num)
    (hfree : ∀ c, num c ≠ coreNum) {es : List (Event Core)}
    (hes : GuardedRun.Along (step num) Proper (cvmxSpinlockRecInit coreNum) es) :
    Invariant num (es.foldl (step num) (cvmxSpinlockRecInit coreNum)) :=
  GuardedRun.foldl_keeps (fun _ _ h he => step_keeps_lock hinj hapart h he)
    (invariant_init hfree) hes

/-- The lock is free, and the number in it is that of the idle core `d`: while `c` has counted
itself in and not signed yet, `d` passes for the owner. -/
theorem stale_number_breaks {s : State Core} {c d : Core} (hcd : c ≠ d)
    (hv : s.value.value = 0) (hn : s.coreNum = num d) (hc : s.pc c = .idle) (hd : s.pc d = .idle)
    (hdc : s.depth c = 0) (hdd : s.depth d = 0) :
    let es : List (Event Core) := [.lock c, .move c, .move c, .lock d, .move d, .move d, .move d,
      .move d, .move d, .move c]
    GuardedRun.Along (step num) Proper s es ∧ Inside (es.foldl (step num) s) c ∧
      Inside (es.foldl (step num) s) d := by
  have hdc' : d ≠ c := hcd.symm
  simp [GuardedRun.Along, step, advance, State.goto, Proper, Inside, hv, hn, hc, hd, hdc, hdd,
    hcd, hdc']

/-- One core takes and gives back the lock: its number and 0x80 stay behind. -/
theorem round_leaves_number (c : Core) :
    let es : List (Event Core) := [.lock c, .move c, .move c, .move c, .unlock c, .move c, .move c,
      .move c]
    let t := es.foldl (step num) (cvmxSpinlockRecInit coreNum)
    GuardedRun.Along (step num) Proper (cvmxSpinlockRecInit coreNum) es ∧ t.value.value = 0 ∧
      t.coreNum = num c + 0x80 ∧ (∀ d, t.pc d = .idle) ∧ ∀ d, t.depth d = 0 := by
  simp [GuardedRun.Along, step, advance, State.goto, Proper, cvmxSpinlockRecInit]

/-- One core at most is inside in every run, exactly when neither the number found in the lock
nor one that an unlocking core leaves there is that of a core that another one can race with. -/
theorem rec_excludes_iff (hinj : Function.Injective num) :
    (∀ es, GuardedRun.Along (step num) Proper (cvmxSpinlockRecInit coreNum) es →
      ∀ c d, Inside (es.foldl (step num) (cvmxSpinlockRecInit coreNum)) c →
        Inside (es.foldl (step num) (cvmxSpinlockRecInit coreNum)) d → c = d) ↔
    ∀ c d, c ≠ d → num d ≠ coreNum ∧ num c + 0x80 ≠ num d := by
  constructor
  · intro h c d hcd
    constructor
    · intro hd
      obtain ⟨hes, hc, hd⟩ := stale_number_breaks (s := cvmxSpinlockRecInit coreNum) hcd rfl
        hd.symm rfl rfl rfl rfl
      exact hcd (h _ hes c d hc hd)
    · intro hd
      obtain ⟨hes, hv, hn, hp, hz⟩ := @round_leaves_number _ _ num coreNum c
      obtain ⟨hfs, hc', hd'⟩ := stale_number_breaks hcd hv (hn.trans hd) (hp c) (hp d) (hz c) (hz d)
      refine hcd (h _ (GuardedRun.along_append.mpr ⟨hes, hfs⟩) c d ?_ ?_) <;>
        rwa [List.foldl_append]
  · intro h es hes c d hc hd
    by_contra hcd
    have hfree : ∀ e, num e ≠ coreNum := by
      intro e he
      rcases ne_or_eq c e with hce | rfl
      · exact (h c e hce).1 he
      · exact (h d c (Ne.symm hcd)).1 he
    have hapart : Apart num := by
      intro e f hef
      rcases ne_or_eq e f with hne | rfl
      · exact (h e f hne).2 hef
      · exact absurd hef (by simp)
    exact hcd ((run_invariant hinj hapart hfree hes).one c d hc.share_pos hd.share_pos)

def Pc.ahead : Pc → ℕ
  | .lockLoad => 5
  | .lockOwner => 4
  | .lockReload => 3
  | .lockCount _ => 2
  | .lockSign => 1
  | .idle | .lockStore _ | .unlockMark | .unlockLoad | .unlockStore _ | .unlockSign => 0

def Pc.unlocking : Pc → Bool
  | .unlockMark | .unlockLoad | .unlockStore _ | .unlockSign => true
  | .idle | .lockLoad | .lockStore _ | .lockOwner | .lockReload | .lockCount _ | .lockSign => false

/-- The number in the lock is that of the core inside, but for its calls of `unlock`. -/
structure Recorded (num : Core → BitVec 32) (s : State Core) : Prop where
  number : ∀ c, Inside s c → (s.pc c).unlocking = false → s.coreNum = num c
  loop : ∀ c tmp, Inside s c → s.pc c ≠ .lockStore tmp

section Nested

variable {s : State Core} {c d : Core}

omit [DecidableEq Core] in
theorem Invariant.value_ne_zero (h : Invariant num s) (hc : Inside s c) : s.value.value ≠ 0 :=
  fun hv => (h.zero_of_free hv c).not_gt hc.share_pos

theorem advance_coreNum (h : Invariant num s) (hd : Inside s d) (hdc : d ≠ c) :
    (advance num s c).coreNum = s.coreNum := by
  have hz := h.zero_of_ne hd.share_pos hdc.symm
  have hr := h.registers c
  simp only [State.share] at hz
  cases hp : s.pc c <;> simp only [hp, levels, Registers] at hz hr <;>
    first
      | omega
      | (simp only [advance, hp]; done)
      | (simp only [advance, hp]; split <;> rfl)

theorem advance_of_ne (num : Core → BitVec 32) (s : State Core) (hdc : d ≠ c) :
    (advance num s c).pc d = s.pc d ∧ (advance num s c).depth d = s.depth d := by
  cases hp : s.pc c <;> simp only [advance, hp] <;> (try split) <;>
    exact ⟨by simp [State.goto, hdc], by simp [State.goto, hdc]⟩

omit [DecidableEq Core] in
/-- The last level ends with the count at 0. -/
theorem Invariant.last_level (h : Invariant num s) {tmp : BitVec 32}
    (hp : s.pc c = .unlockStore tmp) (hl : s.value.linked c = true) (ht : tmp = 1) :
    s.depth c = 0 := by
  have hr := h.registers c
  have hs : s.share c = s.depth c + 1 := by simp [State.share, hp, levels]
  simp only [hp, Registers] at hr
  have hcount := h.count c (hs ▸ Nat.succ_pos _)
  rw [hr.2 hl, hs, ht] at hcount
  exact (Nat.succ.inj hcount).symm

theorem advance_number_self (h : Invariant num s) (hr : Recorded num s)
    (hi : Inside (advance num s c) c) (hu : ((advance num s c).pc c).unlocking = false) :
    (advance num s c).coreNum = num c := by
  have same : (s.pc c).unlocking = false → (advance num s c).coreNum = s.coreNum →
      (advance num s c).depth c = s.depth c → (advance num s c).coreNum = num c := by
    intro hpc hn hd
    rw [hn]
    refine hr.number c ?_ hpc
    rwa [Inside, ← hd]
  cases hp : s.pc c with
  | idle => apply same <;> simp [hp, advance, Pc.unlocking]
  | lockLoad => apply same <;> simp only [hp, advance, Pc.unlocking] <;> split <;> rfl
  | lockStore tmp => apply same <;> simp only [hp, advance, Pc.unlocking] <;> split <;> rfl
  | lockOwner => apply same <;> simp [hp, advance, Pc.unlocking]
  | lockReload => apply same <;> simp [hp, advance, Pc.unlocking]
  | lockCount tmp => apply same <;> simp [hp, advance, Pc.unlocking]
  | lockSign => simp only [advance, hp, goto_coreNum]
  | unlockMark => simp [advance, hp, Pc.unlocking] at hu
  | unlockLoad => simp [advance, hp, Pc.unlocking] at hu
  | unlockStore tmp =>
    by_cases hl : s.value.linked c = true
    · by_cases ht : tmp = 1
      · have hz := h.last_level hp hl ht
        simp only [advance, hp, if_pos hl, Inside, goto_depth] at hi
        exact absurd hz hi.ne'
      · simp only [advance, hp, if_pos hl, if_neg ht, goto_pc_self] at hu
        cases hu
    · simp only [advance, hp, if_neg hl, goto_pc_self] at hu
      cases hu
  | unlockSign => simp only [advance, hp, goto_coreNum]

/-- A core inside that loads the count finds it positive. -/
theorem advance_loop_self (h : Invariant num s) (hr : Recorded num s)
    (hi : Inside (advance num s c) c) (tmp : BitVec 32) :
    (advance num s c).pc c ≠ .lockStore tmp := by
  cases hp : s.pc c with
  | lockLoad =>
    have hv : s.value.value ≠ 0 := by
      refine h.value_ne_zero (c := c) ?_
      simp only [Inside, advance, hp] at hi
      split at hi <;> exact hi
    simp only [advance, hp, if_pos hv, goto_pc_self]
    nofun
  | lockStore tmp' =>
    refine absurd hp (hr.loop c tmp' ?_)
    simp only [Inside, advance, hp] at hi
    split at hi <;> exact hi
  | lockOwner =>
    simp only [advance, hp, goto_pc_self]
    split <;> nofun
  | unlockStore tmp' =>
    simp only [advance, hp]
    split
    · simp only [goto_pc_self]
      split <;> nofun
    · simp
  | _ => simp [advance, hp]

theorem advance_recorded (h : Invariant num s) (hr : Recorded num s) (c : Core) :
    Recorded num (advance num s c) := by
  have other : ∀ d, d ≠ c → Inside (advance num s c) d → Inside s d := fun d hd hi => by
    simpa only [Inside, (advance_of_ne num s hd).2] using hi
  constructor
  · intro d hi hu
    by_cases hd : d = c
    · subst d
      exact advance_number_self h hr hi hu
    · rw [(advance_of_ne num s hd).1] at hu
      rw [advance_coreNum h (other d hd hi) hd]
      exact hr.number d (other d hd hi) hu
  · intro d tmp hi
    by_cases hd : d = c
    · subst d
      exact advance_loop_self h hr hi tmp
    · rw [(advance_of_ne num s hd).1]
      exact hr.loop d tmp (other d hd hi)

theorem step_recorded (h : Invariant num s) (hr : Recorded num s) {e : Event Core}
    (he : Proper s e) : Recorded num (step num s e) := by
  cases e with
  | lock c =>
    simp only [step]
    split
    · rename_i hp
      constructor
      · intro d hi hu
        refine hr.number d hi ?_
        by_cases hd : d = c
        · rw [hd, hp]
          rfl
        · rwa [goto_pc_of_ne s c _ hd] at hu
      · intro d tmp hi
        by_cases hd : d = c
        · rw [hd, goto_pc_self]
          nofun
        · rw [goto_pc_of_ne s c _ hd]
          exact hr.loop d tmp hi
    · exact hr
  | unlock c =>
    simp only [step]
    split
    · rename_i hp
      have inside : ∀ d, Inside ({ s with
          depth := Function.update s.depth c (s.depth c - 1) }.goto c .unlockMark) d →
          Inside s d := by
        intro d hi
        by_cases hd : d = c
        · exact hd ▸ he
        · simpa [Inside, hd] using hi
      constructor
      · intro d hi hu
        by_cases hd : d = c
        · simp [hd, Pc.unlocking] at hu
        · rw [goto_pc_of_ne _ c _ hd] at hu
          exact hr.number d (inside d hi) hu
      · intro d tmp hi
        by_cases hd : d = c
        · rw [hd, goto_pc_self]
          nofun
        · rw [goto_pc_of_ne _ c _ hd]
          exact hr.loop d tmp (inside d hi)
    · exact hr
  | move c => exact advance_recorded h hr c
  | unlink c => exact ⟨hr.number, hr.loop⟩

/-- An instruction of a core inside that takes a further level brings it nearer to the end. -/
theorem nested_advance (h : Invariant num s) (hr : Recorded num s) (hc : Inside s c)
    (hk : 0 < (s.pc c).ahead) :
    ((advance num s c).pc c).ahead + 1 = (s.pc c).ahead ∧ (advance num s c).depth c =
      s.depth c + if (s.pc c).ahead = 1 then 1 else 0 := by
  cases hp : s.pc c with
  | lockLoad =>
    have hv := h.value_ne_zero hc
    simp only [advance, hp, if_pos hv, goto_pc_self, goto_depth]
    exact ⟨rfl, rfl⟩
  | lockOwner =>
    have hn := hr.number c hc (by rw [hp]; rfl)
    simp [advance, hp, hn, Pc.ahead]
  | lockReload => simp [advance, hp, Pc.ahead]
  | lockCount tmp => simp [advance, hp, Pc.ahead]
  | lockSign => simp [advance, hp, Pc.ahead]
  | _ =>
    rw [hp] at hk
    cases hk

/-- No other step touches the place of a core that is in a call. -/
theorem step_of_busy {e : Event Core} (hp : s.pc c ≠ .idle) (he : e ≠ .move c) :
    (step num s e).pc c = s.pc c ∧ (step num s e).depth c = s.depth c := by
  cases e with
  | lock d =>
    simp only [step]
    split
    · rename_i hd
      have hdc : c ≠ d := fun hcd => hp (hcd ▸ hd)
      exact ⟨goto_pc_of_ne s d _ hdc, rfl⟩
    · exact ⟨rfl, rfl⟩
  | unlock d =>
    simp only [step]
    split
    · rename_i hd
      have hdc : c ≠ d := fun hcd => hp (hcd ▸ hd)
      exact ⟨goto_pc_of_ne _ d _ hdc, by simp [hdc]⟩
    · exact ⟨rfl, rfl⟩
  | move d =>
    have hdc : c ≠ d := fun hcd => he (hcd ▸ rfl)
    exact advance_of_ne num s hdc
  | unlink d => exact ⟨rfl, rfl⟩

theorem eq_lockSign_of_ahead {pc : Pc} (h : pc.ahead = 1) : pc = .lockSign := by
  cases pc <;> first | rfl | cases h

theorem ahead_pos {pc : Pc} (h : 0 < pc.ahead) : pc ≠ .idle := by
  rintro rfl
  cases h

/-- Up to its last instruction only the moves of the core itself count. -/
theorem nested_run (hinj : Function.Injective num) (hapart : Apart num) (h : Invariant num s)
    (hr : Recorded num s) (hc : Inside s c) {es : List (Event Core)}
    (hes : GuardedRun.Along (step num) Proper s es) (hk : es.count (.move c) < (s.pc c).ahead) :
    let t := es.foldl (step num) s
    (t.pc c).ahead + es.count (.move c) = (s.pc c).ahead ∧ t.depth c = s.depth c := by
  induction es generalizing s with
  | nil => exact ⟨rfl, rfl⟩
  | cons e es ih =>
    have hpos : 0 < (s.pc c).ahead := Nat.zero_lt_of_lt hk
    by_cases he : e = .move c
    · subst e
      rw [List.count_cons_self] at hk ⊢
      obtain ⟨ha, hd⟩ := nested_advance h hr hc hpos
      rw [if_neg (by omega), Nat.add_zero] at hd
      obtain ⟨ih, ihd⟩ := ih (s := advance num s c) (advance_keeps_lock hinj hapart h c)
        (advance_recorded h hr c) (by rwa [Inside, hd]) hes.2 (by omega)
      exact ⟨by rw [← ha, ← ih]; rfl, ihd.trans hd⟩
    · rw [List.count_cons_of_ne he] at hk ⊢
      obtain ⟨hp, hd⟩ := @step_of_busy _ _ num _ _ _ (ahead_pos hpos) he
      obtain ⟨ih, ihd⟩ := ih (step_keeps_lock hinj hapart h hes.1) (step_recorded h hr hes.1)
        (by rwa [Inside, hd]) hes.2 (by rwa [hp])
      exact ⟨hp ▸ ih, ihd.trans hd⟩

end Nested

def cvmxGetCoreNum {n : ℕ} (c : Fin n) : BitVec 32 := BitVec.ofNat 32 c

theorem coreNum_toNat {n : ℕ} (hn : n ≤ 2 ^ 32) (c : Fin n) : (cvmxGetCoreNum c).toNat = c := by
  simpa [cvmxGetCoreNum] using Nat.mod_eq_of_lt (c.isLt.trans_le hn)

theorem coreNum_injective {n : ℕ} (hn : n ≤ 2 ^ 32) :
    Function.Injective (cvmxGetCoreNum (n := n)) := by
  intro c d h
  exact Fin.ext (by rw [← coreNum_toNat hn c, ← coreNum_toNat hn d, h])

/-- Cores 0 to n - 1: a single core may find any number in the lock; several need a number that
is none of theirs there at first, and be no more than 0x80. -/
theorem cores_exclude_iff {n : ℕ} (hn : n ≤ 2 ^ 32) (coreNum : BitVec 32) :
    (∀ es, GuardedRun.Along (step cvmxGetCoreNum) Proper (cvmxSpinlockRecInit coreNum) es →
      ∀ c d : Fin n, Inside (es.foldl (step cvmxGetCoreNum) (cvmxSpinlockRecInit coreNum)) c →
        Inside (es.foldl (step cvmxGetCoreNum) (cvmxSpinlockRecInit coreNum)) d → c = d) ↔
    n ≤ 1 ∨ (n ≤ coreNum.toNat ∧ n ≤ 0x80) := by
  rw [rec_excludes_iff (coreNum_injective hn)]
  have apart : ∀ c d : Fin n, cvmxGetCoreNum c + 0x80 = cvmxGetCoreNum d ↔
      ((c : ℕ) + 0x80) % 2 ^ 32 = d := by
    intro c d
    rw [← BitVec.toNat_inj, BitVec.toNat_add, coreNum_toNat hn, coreNum_toNat hn]
    rfl
  constructor
  · intro h
    by_contra hno
    obtain ⟨h1, h2⟩ := not_or.mp hno
    have two : ∀ d : Fin n, ∃ c : Fin n, c ≠ d := fun d =>
      if h0 : (d : ℕ) = 0 then ⟨⟨1, by omega⟩, fun e => by simp [← e] at h0⟩
      else ⟨⟨0, by omega⟩, fun e => h0 (by simp [← e])⟩
    by_cases hc : n ≤ coreNum.toNat
    · have big : 0x80 < n := not_le.mp fun hle => h2 ⟨hc, hle⟩
      refine (h ⟨0, by omega⟩ ⟨0x80, big⟩ (by simp)).2 ((apart _ _).mpr ?_)
      rfl
    · obtain ⟨c, hcd⟩ := two ⟨coreNum.toNat, by omega⟩
      refine (h c _ hcd).1 (BitVec.eq_of_toNat_eq ?_)
      rw [coreNum_toNat hn]
  · intro h c d hcd
    have hne : (c : ℕ) ≠ d := fun e => hcd (Fin.ext e)
    have hc := c.isLt
    have hd := d.isLt
    constructor
    · intro he
      have := congrArg BitVec.toNat he
      rw [coreNum_toNat hn] at this
      omega
    · intro he
      have := (apart c d).mp he
      omega

/-- Two cores over a lock in memory that was cleared. -/
theorem cores_exclude_iff_cleared :
    ¬ ∀ es, GuardedRun.Along (step cvmxGetCoreNum) Proper (cvmxSpinlockRecInit 0) es →
      ∀ c d : Fin 2, Inside (es.foldl (step cvmxGetCoreNum) (cvmxSpinlockRecInit 0)) c →
        Inside (es.foldl (step cvmxGetCoreNum) (cvmxSpinlockRecInit 0)) d → c = d := by
  rw [cores_exclude_iff (by decide) 0]
  decide

theorem coreNum_apart {n : ℕ} (hn : n ≤ 0x80) : Apart (cvmxGetCoreNum (n := n)) := by
  intro c d h
  have hn' : n ≤ 2 ^ 32 := hn.trans (by decide)
  have := congrArg BitVec.toNat h
  rw [BitVec.toNat_add, coreNum_toNat hn', coreNum_toNat hn'] at this
  have h80 : (0x80 : BitVec 32).toNat = 0x80 := rfl
  omega

theorem cores_invariant {n : ℕ} (hn : n ≤ 0x80) {coreNum : BitVec 32} (hc : n ≤ coreNum.toNat)
    {es : List (Event (Fin n))}
    (hes : GuardedRun.Along (step cvmxGetCoreNum) Proper (cvmxSpinlockRecInit coreNum) es) :
    let s := es.foldl (step cvmxGetCoreNum) (cvmxSpinlockRecInit coreNum)
    Invariant cvmxGetCoreNum s ∧ Recorded cvmxGetCoreNum s := by
  have hn' : n ≤ 2 ^ 32 := hn.trans (by decide)
  have hinj := coreNum_injective hn'
  have hapart := coreNum_apart hn
  have hfree : ∀ c : Fin n, cvmxGetCoreNum c ≠ coreNum := by
    intro c h
    have := congrArg BitVec.toNat h
    rw [coreNum_toNat hn'] at this
    omega
  refine GuardedRun.foldl_keeps
    (I := fun s => Invariant cvmxGetCoreNum s ∧ Recorded cvmxGetCoreNum s)
    (fun s e h he => ⟨step_keeps_lock hinj hapart h.1 he, step_recorded h.1 h.2 he⟩)
    ⟨invariant_init hfree, ?_⟩ hes
  constructor
  · intro c h
    cases h
  · intro c tmp h
    cases h

/-- A core inside takes a further level with its next five instructions, whatever the other
cores do between them and whatever links are lost. -/
theorem nested_lock_ends {n : ℕ} (hn : n ≤ 0x80) (coreNum : BitVec 32) (hc : n ≤ coreNum.toNat)
    (es fs : List (Event (Fin n))) (c : Fin n)
    (hes : GuardedRun.Along (step cvmxGetCoreNum) Proper (cvmxSpinlockRecInit coreNum)
      (es ++ .lock c :: fs))
    (hidle : (es.foldl (step cvmxGetCoreNum) (cvmxSpinlockRecInit coreNum)).pc c = .idle)
    (hin : Inside (es.foldl (step cvmxGetCoreNum) (cvmxSpinlockRecInit coreNum)) c)
    (hfs : fs.count (.move c) = 4) :
    let s := es.foldl (step cvmxGetCoreNum) (cvmxSpinlockRecInit coreNum)
    let t := (es ++ Event.lock c :: fs ++ [Event.move c]).foldl (step cvmxGetCoreNum)
      (cvmxSpinlockRecInit coreNum)
    t.pc c = .idle ∧ t.depth c = s.depth c + 1 := by
  intro s t
  have hn' : n ≤ 2 ^ 32 := hn.trans (by decide)
  obtain ⟨hpre, hlock, hrest⟩ := GuardedRun.along_append.mp hes
  obtain ⟨hinv, hrec⟩ := cores_invariant hn hc hpre
  have hinj := coreNum_injective hn'
  have hapart := coreNum_apart hn
  set u := step cvmxGetCoreNum s (.lock c) with hu
  have hs : s.pc c = .idle := hidle
  have hup : u.pc c = .lockLoad := by simp [hu, step, hs]
  have hud : u.depth c = s.depth c := by simp [hu, step, hs]
  obtain ⟨hahead, hdepth⟩ := nested_run (s := u) hinj hapart
    (step_keeps_lock hinj hapart hinv hlock) (step_recorded hinv hrec hlock)
    (by rwa [Inside, hud]) hrest (by rw [hfs, hup]; decide)
  rw [hfs, hup] at hahead
  have hsign := eq_lockSign_of_ahead (Nat.add_right_cancel hahead)
  have ht : t = advance cvmxGetCoreNum (fs.foldl (step cvmxGetCoreNum) u) c := by
    simp only [t, List.foldl_append, List.foldl_cons, List.foldl_nil]
    rfl
  rw [ht]
  simp only [advance, hsign, goto_pc_self, goto_depth, Function.update_self, hdepth, hud, and_self]

/-- Core 1 nests while core 0 tries to enter. -/
theorem nested_lock_ends_two :
    let es : List (Event (Fin 2)) := [.lock 1, .move 1, .move 1, .lock 0, .move 0, .move 1]
    let fs : List (Event (Fin 2)) := [.move 1, .move 0, .move 1, .unlink 1, .move 0, .move 1,
      .move 0, .move 1]
    let t := (es ++ Event.lock 1 :: fs ++ [Event.move 1]).foldl (step cvmxGetCoreNum)
      (cvmxSpinlockRecInit 0xff)
    t.depth 1 = 2 ∧ t.pc 0 ≠ .idle := by
  intro es fs t
  have h := nested_lock_ends (n := 2) (by decide) 0xff (by decide) es fs 1 (by decide) (by decide)
    (by decide) (by decide)
  exact ⟨h.2.trans (by decide), by decide⟩

end Runs

end RecursiveLock
