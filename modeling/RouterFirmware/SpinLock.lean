import RouterFirmware.LinkedStore

/-! # The spin lock

A word that is 0 while the lock is free. `lock` and `trylock` store 1 with a
store-conditional, `unlock` is a plain store of 0. Who may call `unlock` is not checked: the
runs are those in which a core begins it only while it holds the lock. -/
namespace SpinLock

open LinkedStore

variable {Core : Type} [DecidableEq Core]

def unlockedVal : BitVec 32 := 0
def lockedVal : BitVec 32 := 1

inductive Call where
  | lock
  | trylock
  | unlock
  | locked
  deriving DecidableEq, Repr

abbrev Operation := Body (BitVec 32) (Option (BitVec 32))

/-- `bnez` goes back to the load-linked while the lock is held. -/
def cvmxSpinlockLock : Operation :=
  .loop fun tmp => if tmp ≠ unlockedVal then .again else .store lockedVal none

/-- Returns `!!tmp`: 1 where the lock was held, 0 where it was taken. -/
def cvmxSpinlockTrylock : Operation :=
  .loop fun tmp => if tmp ≠ unlockedVal then .leave (some 1) else .store lockedVal (some 0)

def cvmxSpinlockUnlock : Operation := .assign unlockedVal none

def cvmxSpinlockLocked : Operation :=
  .loop fun value => .leave (some (if value ≠ unlockedVal then 1 else 0))

def body : Call → Operation
  | .lock => cvmxSpinlockLock
  | .trylock => cvmxSpinlockTrylock
  | .unlock => cvmxSpinlockUnlock
  | .locked => cvmxSpinlockLocked

abbrev Cores (Core : Type) := System Core Call (BitVec 32) (Option (BitVec 32))

def cvmxSpinlockInit : Cores Core := initial unlockedVal

def takes : Call → Option (BitVec 32) → Bool
  | .lock, _ => true
  | .trylock, ret => ret = some 0
  | _, _ => false

/-- Whether core `c` has the lock after a call has ended. -/
def heldAfter (c : Core) (held : Bool) (e : Core × Call × Option (BitVec 32)) : Bool :=
  if e.1 = c then takes e.2.1 e.2.2 || (held && e.2.1 ≠ .unlock) else held

/-- The core has taken the lock and not given it back since. -/
def holds (c : Core) (log : List (Core × Call × Option (BitVec 32))) : Bool :=
  log.foldl (heldAfter c) false

theorem holds_snoc (c : Core) (log : List (Core × Call × Option (BitVec 32)))
    (e : Core × Call × Option (BitVec 32)) :
    holds c (log ++ [e]) = heldAfter c (holds c log) e := by
  simp [holds, List.foldl_append]

/-- Between the end of the call that took the lock and the next call of the core. -/
def Inside (s : Cores Core) (c : Core) : Prop :=
  s.running c = none ∧ holds c s.log = true

def Proper (s : Cores Core) : Event Core Call → Prop
  | .call c .unlock => holds c s.log = true
  | _ => True

instance (s : Cores Core) : (e : Event Core Call) → Decidable (Proper s e)
  | .call c .unlock => inferInstanceAs (Decidable (holds c s.log = true))
  | .call _ .lock | .call _ .trylock | .call _ .locked | .move _ | .unlink _ =>
    inferInstanceAs (Decidable True)

/-- The word is 0 exactly while nobody has the lock, and one core at most has it, also while it
is unlocking. -/
structure Exclusion (s : Cores Core) : Prop where
  locked : ∀ c, holds c s.log = true → s.word.value = lockedVal
  unlocked : (∀ c, holds c s.log = false) → s.word.value = unlockedVal
  one : ∀ c d, holds c s.log = true → holds d s.log = true → c = d
  unlocking : ∀ c, (s.running c).map Prod.fst = some .unlock → holds c s.log = true

theorem exclusion_init : Exclusion (cvmxSpinlockInit : Cores Core) := by
  constructor
  · intro c h
    cases h
  · exact fun _ => rfl
  · intro c d h
    cases h
  · intro c h
    cases h

section Step

variable {s : Cores Core} {c : Core} {o : Call} {new : BitVec 32} {ret : Option (BitVec 32)}

omit [DecidableEq Core] in
/-- A call that takes the lock found the word 0 and leaves 1. -/
theorem takes_perform {v : BitVec 32} (h : (body o).perform v = some (new, ret))
    (ht : takes o ret = true) : v = unlockedVal ∧ new = lockedVal := by
  cases o with
  | lock =>
    by_cases hv : v = unlockedVal
    · simp only [body, cvmxSpinlockLock, Body.perform, hv, ne_eq, not_true_eq_false, if_false,
        Option.some.injEq, Prod.mk.injEq] at h
      exact ⟨hv, h.1.symm⟩
    · simp [body, cvmxSpinlockLock, Body.perform, hv] at h
  | trylock =>
    by_cases hv : v = unlockedVal
    · simp only [body, cvmxSpinlockTrylock, Body.perform, hv, ne_eq, not_true_eq_false, if_false,
        Option.some.injEq, Prod.mk.injEq] at h
      exact ⟨hv, h.1.symm⟩
    · simp only [body, cvmxSpinlockTrylock, Body.perform, hv, ne_eq, not_false_eq_true, if_true,
        Option.some.injEq, Prod.mk.injEq] at h
      simp [takes, ← h.2] at ht
  | unlock => cases ht
  | locked => cases ht

theorem perform_of_not_takes {v : BitVec 32} (h : (body o).perform v = some (new, ret))
    (ht : takes o ret = false) (hu : o ≠ .unlock) : new = v := by
  cases o with
  | lock => cases ht
  | trylock =>
    by_cases hv : v = unlockedVal
    · simp only [body, cvmxSpinlockTrylock, Body.perform, hv, ne_eq, not_true_eq_false, if_false,
        Option.some.injEq, Prod.mk.injEq] at h
      simp [takes, ← h.2] at ht
    · simp only [body, cvmxSpinlockTrylock, Body.perform, hv, ne_eq, not_false_eq_true, if_true,
        Option.some.injEq, Prod.mk.injEq] at h
      exact h.1.symm
  | unlock => exact absurd rfl hu
  | locked =>
    simp only [body, cvmxSpinlockLocked, Body.perform, Option.some.injEq, Prod.mk.injEq] at h
    exact h.1.symm

/-- The call `o` of core `c` ends with `ret` and leaves `new` in the word. -/
structure Ends (s t : Cores Core) (c : Core) (o : Call) (ret : Option (BitVec 32)) : Prop where
  runs : (s.running c).map Prod.fst = some o
  performs : (body o).perform s.word.value = some (t.word.value, ret)
  log : t.log = s.log ++ [(c, o, ret)]
  running : t.running = Function.update s.running c none

theorem Ends.holds_iff {t : Cores Core} (h : Ends s t c o ret) (d : Core) :
    holds d t.log = heldAfter d (holds d s.log) (c, o, ret) := by
  rw [h.log, holds_snoc]

theorem Ends.unlocking {t : Cores Core} (h : Ends s t c o ret) (hs : Exclusion s) {d : Core}
    (hd : (t.running d).map Prod.fst = some .unlock) : d ≠ c ∧ holds d s.log = true := by
  have hdc : d ≠ c := by
    rintro rfl
    simp [h.running] at hd
  exact ⟨hdc, hs.unlocking d (by simpa [h.running, hdc] using hd)⟩

theorem taken_keeps {t : Cores Core} (hs : Exclusion s) (h : Ends s t c o ret)
    (ht : takes o ret = true) : Exclusion t := by
  obtain ⟨hv, hnew⟩ := takes_perform h.performs ht
  have free : ∀ d, holds d s.log = false := by
    intro d
    by_contra hd
    have := hs.locked d (by simpa using hd)
    rw [hv] at this
    cases this
  have held : ∀ d, holds d t.log = true ↔ c = d := by
    intro d
    by_cases hcd : c = d <;> simp [h.holds_iff, heldAfter, hcd, ht, free]
  constructor
  · exact fun _ _ => hnew
  · intro hno
    have := (held c).mpr rfl
    rw [hno c] at this
    cases this
  · exact fun d e hd he => ((held d).mp hd).symm.trans ((held e).mp he)
  · intro d hd
    have := (h.unlocking hs hd).2
    rw [free d] at this
    cases this

theorem unlocked_keeps {t : Cores Core} (hs : Exclusion s) (h : Ends s t c .unlock ret) :
    Exclusion t := by
  have hc := hs.unlocking c h.runs
  have hnew : t.word.value = unlockedVal := by
    have := h.performs
    simp only [body, cvmxSpinlockUnlock, Body.perform, Option.some.injEq, Prod.mk.injEq] at this
    exact this.1.symm
  have free : ∀ d, holds d t.log = false := by
    intro d
    by_cases hcd : c = d
    · simp [h.holds_iff, heldAfter, hcd, takes]
    · have : holds d s.log = false := by
        by_contra hd
        exact hcd (hs.one c d hc (by simpa using hd))
      simp [h.holds_iff, heldAfter, hcd, this]
  constructor
  · intro d hd
    rw [free d] at hd
    cases hd
  · exact fun _ => hnew
  · intro d e hd
    rw [free d] at hd
    cases hd
  · intro d hd
    obtain ⟨hdc, hd⟩ := h.unlocking hs hd
    exact absurd (hs.one d c hd hc) hdc

theorem ended_keeps {t : Cores Core} (hs : Exclusion s) (h : Ends s t c o ret) :
    Exclusion t := by
  cases ht : takes o ret with
  | true => exact taken_keeps hs h ht
  | false =>
    by_cases hu : o = .unlock
    · subst hu
      exact unlocked_keeps hs h
    · have hv := perform_of_not_takes h.performs ht hu
      have held : ∀ d, holds d t.log = holds d s.log := by
        intro d
        by_cases hcd : c = d <;> simp [h.holds_iff, heldAfter, hcd, ht, hu]
      constructor
      · exact fun d hd => hv.trans (hs.locked d (held d ▸ hd))
      · exact fun hno => hv.trans (hs.unlocked fun d => held d ▸ hno d)
      · exact fun d e hd he => hs.one d e (held d ▸ hd) (held e ▸ he)
      · exact fun d hd => held d ▸ (h.unlocking hs hd).2

theorem step_keeps_exclusion (hl : Linearized body unlockedVal s) (hs : Exclusion s)
    {e : Event Core Call} (he : Proper s e) : Exclusion (step body s e) := by
  rcases step_performs hl e with ⟨hlog, hval, hrun⟩ | ⟨c, o, new, ret, -, hr, hp, hlog, hv, hrun⟩
  · constructor
    · exact fun c hc => hval.trans (hs.locked c (hlog ▸ hc))
    · exact fun hno => hval.trans (hs.unlocked fun c => hlog ▸ hno c)
    · exact fun c d hc hd => hs.one c d (hlog ▸ hc) (hlog ▸ hd)
    · intro c hc
      rw [hlog]
      rcases hrun c .unlock hc with hc | rfl
      · exact hs.unlocking c hc
      · exact he
  · exact ended_keeps hs ⟨hr, hv.symm ▸ hp, hlog, hrun⟩

end Step

/-- However the instructions of the cores interleave and whatever links are lost, one core at
most is inside. -/
theorem spinlock_excludes (es : List (Event Core Call))
    (hes : GuardedRun.Along (step body) Proper cvmxSpinlockInit es) :
    let s := es.foldl (step body) (cvmxSpinlockInit : Cores Core)
    (∀ c d, Inside s c → Inside s d → c = d) ∧
      ((∃ c, holds c s.log = true) ↔ s.word.value = lockedVal) ∧
      (s.word.value ≠ lockedVal → s.word.value = unlockedVal) := by
  intro s
  have h : Linearized body unlockedVal s ∧ Exclusion s :=
    GuardedRun.foldl_keeps (I := fun s => Linearized body unlockedVal s ∧ Exclusion s)
      (fun s e hs he => ⟨step_keeps hs.1 e, step_keeps_exclusion hs.1 hs.2 he⟩)
      ⟨linearized_initial, exclusion_init⟩ hes
  refine ⟨fun c d hc hd => h.2.one c d hc.2 hd.2, ⟨fun ⟨c, hc⟩ => h.2.locked c hc, ?_⟩, ?_⟩
  · intro hv
    by_contra hno
    have := h.2.unlocked fun c => by simpa using fun hc => hno ⟨c, hc⟩
    rw [hv] at this
    cases this
  · intro hv
    refine h.2.unlocked fun c => ?_
    by_contra hc
    exact hv (h.2.locked c (by simpa using hc))

/-- Two cores take the lock one after the other. -/
theorem spinlock_excludes_two :
    let es : List (Event (Fin 2) Call) := [.call 0 .lock, .move 0, .call 1 .trylock, .move 0,
      .move 1, .call 0 .unlock, .move 0, .call 1 .lock, .move 1, .move 1]
    holds 1 (es.foldl (step body) cvmxSpinlockInit).log = true ∧
      ∀ c, Inside (es.foldl (step body) cvmxSpinlockInit) c → c = 1 := by
  intro es
  have h := spinlock_excludes es (by decide)
  have h1 : holds 1 (es.foldl (step body) cvmxSpinlockInit).log = true := by decide
  exact ⟨h1, fun c hc => h.1 c 1 hc ⟨by decide, h1⟩⟩

end SpinLock
