import RouterFirmware.SharedProgram

/-! # Processes that share a lock

Any number of processes run sequences of calls, each call a program. A schedule names the
process that moves next. The owner of the lock and the phase of a call are history
variables: no program reads them.
-/
namespace LockProtocol

open SharedProgram

variable {Op : Type} {Res : Op → Type} {S Pid Call R : Type}

/-- The operations that create and remove the lock, and the states without one. -/
structure Lock (exec : (o : Op) → S → Option (Res o × S)) where
  acquire : Op → Bool
  release : Op → Bool
  free : S → Prop
  acquire_free : ∀ {o s r t}, acquire o → exec o s = some (r, t) → free s ∧ ¬ free t
  release_free : ∀ {o s r t}, release o → exec o s = some (r, t) → free t
  distinct : ∀ {o}, acquire o → ¬ release o
  keep_free : ∀ {o s r t}, ¬ acquire o → ¬ release o → exec o s = some (r, t) →
    (free t ↔ free s)

/-- Where a call stands: it has not created the lock yet, it has created it and not removed
any, or it has removed one. -/
inductive Phase where
  | outside
  | holding
  | released
  deriving DecidableEq, Repr

structure Thread (Op : Type) (Res : Op → Type) (Call R : Type) where
  todo : List Call
  current : Option (Call × Prog Op Res R)
  done : List (Call × R)
  phase : Phase

structure System (Op : Type) (Res : Op → Type) (S Pid Call R : Type) where
  shared : S
  thread : Pid → Thread Op Res Call R
  owner : Option Pid

/-- A call whose program has come to its `ret` is over: returning is not a step on the
shared state. -/
def Thread.settle (th : Thread Op Res Call R) (c : Call) : Prog Op Res R → Thread Op Res Call R
  | .ret a => { th with current := none, done := th.done ++ [(c, a)], phase := .outside }
  | m => { th with current := some (c, m) }

/-- The thread of a process that begins the call `c`. -/
def Thread.begin (th : Thread Op Res Call R) (c : Call) (cs : List Call) (m : Prog Op Res R) :
    Thread Op Res Call R :=
  { th with todo := cs, phase := .outside }.settle c m

/-- The thread after a step of the call `c` that leaves the program `m`. -/
def Thread.resume (th : Thread Op Res Call R) (ph : Phase) (c : Call) (m : Prog Op Res R) :
    Thread Op Res Call R :=
  { th with phase := ph }.settle c m

def idle (todo : List Call) : Thread Op Res Call R := ⟨todo, none, [], .outside⟩

def initial (s : S) (todo : Pid → List Call) : System Op Res S Pid Call R :=
  ⟨s, fun p => idle (todo p), none⟩

section Interleaving

variable {exec : (o : Op) → S → Option (Res o × S)} (L : Lock exec) [DecidableEq Pid]

def Lock.phaseAfter (o : Op) (ph : Phase) : Phase :=
  if L.acquire o then .holding else if L.release o then .released else ph

def Lock.ownerAfter (p : Pid) (o : Op) (owner : Option Pid) : Option Pid :=
  if L.acquire o then some p else if L.release o then none else owner

def resumed (s : System Op Res S Pid Call R) (p : Pid) (c : Call) (o : Op)
    (m : Prog Op Res R) : Thread Op Res Call R :=
  (s.thread p).resume (L.phaseAfter o (s.thread p).phase) c m

/-- One move of process `p`: begin its next call, or take one step of the call it is in. A
step that cannot proceed is a turn of a spin loop and changes nothing. -/
def advance (body : Call → Prog Op Res R) (p : Pid) (s : System Op Res S Pid Call R) :
    System Op Res S Pid Call R :=
  match (s.thread p).current with
  | none => match (s.thread p).todo with
    | [] => s
    | c :: cs =>
      { s with thread := Function.update s.thread p ((s.thread p).begin c cs (body c)) }
  | some (c, .step o k) => match exec o s.shared with
    | none => s
    | some (r, t) =>
      { shared := t
        thread := Function.update s.thread p (resumed L s p c o (k r))
        owner := L.ownerAfter p o s.owner }
  | some (_, .ret _) => s
  | some (_, .halt _) => s

def runSchedule (body : Call → Prog Op Res R) (s : System Op Res S Pid Call R)
    (sched : List Pid) : System Op Res S Pid Call R :=
  sched.foldl (fun s p => advance L body p s) s

/-- Every move of the schedule is allowed in the state it is made from. -/
def Follows (body : Call → Prog Op Res R) (ok : System Op Res S Pid Call R → Pid → Prop) :
    System Op Res S Pid Call R → List Pid → Prop
  | _, [] => True
  | s, p :: ps => ok s p ∧ Follows body ok (advance L body p s) ps

instance decidableFollows (body : Call → Prog Op Res R)
    (ok : System Op Res S Pid Call R → Pid → Prop) [∀ s p, Decidable (ok s p)] :
    (s : System Op Res S Pid Call R) → (sched : List Pid) → Decidable (Follows L body ok s sched)
  | _, [] => isTrue trivial
  | s, p :: ps =>
    have := decidableFollows body ok (advance L body p s) ps
    inferInstanceAs (Decidable (ok s p ∧ Follows L body ok (advance L body p s) ps))

variable {L} {body : Call → Prog Op Res R} {s : System Op Res S Pid Call R} {p : Pid}

theorem Follows.mono {ok ok' : System Op Res S Pid Call R → Pid → Prop}
    (h : ∀ s p, ok s p → ok' s p) {sched : List Pid} (hf : Follows L body ok s sched) :
    Follows L body ok' s sched := by
  induction sched generalizing s with
  | nil => trivial
  | cons p ps ih => exact ⟨h s p hf.1, ih hf.2⟩

theorem advance_cases (L : Lock exec) (body : Call → Prog Op Res R)
    (s : System Op Res S Pid Call R) (p : Pid) :
    advance L body p s = s ∨
    (∃ c cs, (s.thread p).current = none ∧ (s.thread p).todo = c :: cs ∧
      advance L body p s =
        { s with thread := Function.update s.thread p ((s.thread p).begin c cs (body c)) }) ∨
    (∃ c o k r t, (s.thread p).current = some (c, .step o k) ∧
      exec o s.shared = some (r, t) ∧
      advance L body p s =
        { shared := t
          thread := Function.update s.thread p (resumed L s p c o (k r))
          owner := L.ownerAfter p o s.owner }) := by
  unfold advance
  split
  · next hc =>
    split
    · exact .inl rfl
    · next c cs ht => exact .inr (.inl ⟨c, cs, hc, ht, rfl⟩)
  · next c o k hc =>
    split
    · exact .inl rfl
    · next r t he => exact .inr (.inr ⟨c, o, k, r, t, hc, he, rfl⟩)
  · exact .inl rfl
  · exact .inl rfl

/-- What is true at the start and kept by every allowed move is true in every state that a
schedule of allowed moves reaches. -/
theorem follows_invariant {ok : System Op Res S Pid Call R → Pid → Prop}
    {I : System Op Res S Pid Call R → Prop}
    (hstep : ∀ s p, ok s p → I s → I (advance L body p s))
    {sched : List Pid} (hs : I s) (hf : Follows L body ok s sched) :
    I (runSchedule L body s sched) := by
  induction sched generalizing s with
  | nil => exact hs
  | cons p ps ih => exact ih (hstep s p hf.1 hs) hf.2

/-- A settled thread is in a call only with that call's program, and in the phase it had. -/
theorem settle_current {th : Thread Op Res Call R} {c d : Call} {m n : Prog Op Res R}
    (h : (th.settle c m).current = some (d, n)) :
    d = c ∧ n = m ∧ (th.settle c m).phase = th.phase := by
  cases m with
  | ret a => cases h
  | halt w =>
    simp only [Thread.settle, Option.some.injEq, Prod.mk.injEq] at h
    exact ⟨h.1.symm, h.2.symm, rfl⟩
  | step o k =>
    simp only [Thread.settle, Option.some.injEq, Prod.mk.injEq] at h
    exact ⟨h.1.symm, h.2.symm, rfl⟩

theorem settle_ne_ret {th : Thread Op Res Call R} {c d : Call} {m n : Prog Op Res R}
    (h : (th.settle c m).current = some (d, n)) (a : R) : n ≠ .ret a := by
  rintro rfl
  obtain ⟨-, rfl, -⟩ := settle_current h
  cases h

end Interleaving

section Tail

variable {exec : (o : Op) → S → Option (Res o × S)} (L : Lock exec)

/-- Right behind every `release` the rest of the program satisfies `Q`. -/
def ReleaseThen (Q : Prog Op Res R → Prop) : Prog Op Res R → Prop
  | .ret _ => True
  | .halt _ => True
  | .step o k => ∀ r, (L.release o → Q (k r)) ∧ ReleaseThen Q (k r)

/-- What is left of a call that has removed the lock satisfies `Q`. -/
def TailInvariant (Q : Call → Prog Op Res R → Prop) (s : System Op Res S Pid Call R) : Prop :=
  ∀ p c m, (s.thread p).current = some (c, m) →
    (∀ a, m ≠ .ret a) ∧ ReleaseThen L (Q c) m ∧ ((s.thread p).phase = .released → Q c m)

variable {L} {body : Call → Prog Op Res R} {Q : Call → Prog Op Res R → Prop}

theorem releaseThen_of_uses {P : Prog Op Res R → Prop} {m : Prog Op Res R}
    (h : m.Uses fun o => ¬ L.release o) : ReleaseThen L P m := by
  induction m with
  | ret a => trivial
  | halt w => trivial
  | step o k ih => exact fun r => ⟨fun hr => absurd hr h.1, ih r (h.2 r)⟩

theorem releaseThen_bind {α : Type} {P : Prog Op Res R → Prop} {m : Prog Op Res α}
    {f : α → Prog Op Res R} (h : m.Uses fun o => ¬ L.release o)
    (hf : ∀ a, ReleaseThen L P (f a)) : ReleaseThen L P (m >>= f) := by
  induction m with
  | ret a => exact hf a
  | halt w => trivial
  | step o k ih => exact fun r => ⟨fun hr => absurd hr h.1, ih r (h.2 r)⟩

theorem advance_keeps_tail [DecidableEq Pid] (hbody : ∀ c, ReleaseThen L (Q c) (body c))
    (hQ : ∀ c o k r, Q c (.step o k) → Q c (k r)) {s : System Op Res S Pid Call R}
    (h : TailInvariant L Q s) (p : Pid) : TailInvariant L Q (advance L body p s) := by
  rcases advance_cases L body s p with he | ⟨c, cs, -, -, he⟩ | ⟨c, o, k, r, t, hc, -, he⟩
  · rwa [he]
  · rw [he]
    intro q d m hm
    by_cases hq : q = p
    · subst hq
      simp only [Function.update_self] at hm ⊢
      obtain ⟨rfl, rfl, hph⟩ := settle_current hm
      refine ⟨settle_ne_ret hm, hbody d, fun hr => ?_⟩
      rw [Thread.begin, hph] at hr
      cases hr
    · simp only [Function.update_of_ne hq] at hm ⊢
      exact h q d m hm
  · rw [he]
    intro q d m hm
    by_cases hq : q = p
    · subst hq
      simp only [Function.update_self] at hm ⊢
      obtain ⟨rfl, rfl, hph⟩ := settle_current hm
      obtain ⟨-, hthen, hrel⟩ := h q d _ hc
      refine ⟨settle_ne_ret hm, (hthen r).2, fun hr => ?_⟩
      rw [resumed, Thread.resume, hph] at hr
      simp only [Lock.phaseAfter] at hr
      split at hr
      · cases hr
      · split at hr
        · next hrelease => exact (hthen r).1 hrelease
        · exact hQ d o k r (hrel hr)
    · simp only [Function.update_of_ne hq] at hm ⊢
      exact h q d m hm

theorem initial_tail (sh : S) (todo : Pid → List Call) :
    TailInvariant L Q (initial sh todo : System Op Res S Pid Call R) := by
  intro p c m hm
  cases hm

end Tail

section Exclusion

variable {exec : (o : Op) → S → Option (Res o × S)} (L : Lock exec) (access : Op → Prop)

/-- No `release` before the first `acquire`. -/
def NoEarlyRelease : Prog Op Res R → Prop
  | .ret _ => True
  | .halt _ => True
  | .step o k => L.acquire o ∨ (¬ L.release o ∧ ∀ r, NoEarlyRelease (k r))

/-- The process has created the lock in its current call and an access is still ahead. -/
def Inside (s : System Op Res S Pid Call R) (p : Pid) : Prop :=
  ∃ c m, (s.thread p).current = some (c, m) ∧ (s.thread p).phase ≠ .outside ∧ m.Reaches access

/-- The process has removed the lock and still has an access or a removal ahead. -/
def Exposed (s : System Op Res S Pid Call R) (p : Pid) : Prop :=
  ∃ c m, (s.thread p).current = some (c, m) ∧ (s.thread p).phase = .released ∧
    m.Reaches fun o => access o ∨ L.release o

/-- The next move of the process creates the lock. -/
def Creates (s : System Op Res S Pid Call R) (p : Pid) : Prop :=
  ∃ c o k, (s.thread p).current = some (c, .step o k) ∧ L.acquire o ∧ L.free s.shared

/-- The next move of the process removes the lock. -/
def Removes (s : System Op Res S Pid Call R) (p : Pid) : Prop :=
  ∃ c o k, (s.thread p).current = some (c, .step o k) ∧ L.release o

/-- At most one process is between its creation of the lock and its last access, and no
process is about to remove a lock that another one created. -/
def Exclusive (s : System Op Res S Pid Call R) : Prop :=
  (∀ p q, Inside access s p → Inside access s q → p = q) ∧
  (∀ p, Removes L s p → s.owner = none ∨ s.owner = some p)

structure ExclusionInvariant (s : System Op Res S Pid Call R) : Prop where
  early : ∀ p c m, (s.thread p).current = some (c, m) → (s.thread p).phase = .outside →
    NoEarlyRelease L m
  holding : ∀ p c m, (s.thread p).current = some (c, m) → (s.thread p).phase = .holding →
    s.owner = some p ∧ ¬ L.free s.shared
  exposed : ∀ p, Exposed L access s p → s.owner = none ∧ ∀ q, Exposed L access s q → q = p

variable {L access}

theorem exclusive_of_invariant {s : System Op Res S Pid Call R}
    (h : ExclusionInvariant L access s) : Exclusive L access s := by
  have expose : ∀ p, Inside access s p → (s.thread p).phase = .released →
      Exposed L access s p := by
    rintro p ⟨c, m, hm, -, hr⟩ hp
    exact ⟨c, m, hm, hp, fun hu => hr (hu.mono fun o ho hc => ho (.inl hc))⟩
  have owned : ∀ p, Inside access s p → (s.thread p).phase = .holding → s.owner = some p := by
    rintro p ⟨c, m, hm, -, -⟩ hp
    exact (h.holding p c m hm hp).1
  refine ⟨fun p q hp hq => ?_, ?_⟩
  · have phases : ∀ p, Inside access s p →
        (s.thread p).phase = .holding ∨ (s.thread p).phase = .released := by
      rintro p ⟨c, m, -, hne, -⟩
      cases hph : (s.thread p).phase <;> simp_all
    rcases phases p hp with hp' | hp' <;> rcases phases q hq with hq' | hq'
    · exact Option.some.inj ((owned p hp hp').symm.trans (owned q hq hq'))
    · have := (h.exposed q (expose q hq hq')).1
      rw [owned p hp hp'] at this; cases this
    · have := (h.exposed p (expose p hp hp')).1
      rw [owned q hq hq'] at this; cases this
    · exact (h.exposed q (expose q hq hq')).2 p (expose p hp hp')
  · rintro p ⟨c, o, k, hm, hr⟩
    cases hph : (s.thread p).phase with
    | outside =>
      rcases h.early p c _ hm hph with ha | ⟨hn, -⟩
      · exact absurd hr (L.distinct ha)
      · exact absurd hr hn
    | holding => exact .inr (h.holding p c _ hm hph).1
    | released =>
      exact .inl (h.exposed p ⟨c, _, hm, hph, fun hu => hu.1 (.inr hr)⟩).1

theorem reaches_of_step {P : Op → Prop} {o : Op} {k : Res o → Prog Op Res R} {r : Res o}
    (h : (k r).Reaches P) : (Prog.step o k).Reaches P := fun hu => h (hu.2 r)

theorem initial_exclusion_invariant (s : S) (todo : Pid → List Call) :
    ExclusionInvariant L access (initial s todo : System Op Res S Pid Call R) := by
  constructor
  · intro p c m h; cases h
  · intro p c m h; cases h
  · rintro p ⟨c, m, h, -⟩; cases h

variable [DecidableEq Pid] {body : Call → Prog Op Res R} {s : System Op Res S Pid Call R}
  {p : Pid}

section Update

variable {th : Thread Op Res Call R} {t : S} {w : Option Pid} {q : Pid}

/-- After a move of `p` the other processes have not yet come to their first `acquire` either. -/
theorem early_update (h : ExclusionInvariant L access s)
    (hth : ∀ c m, th.current = some (c, m) → th.phase = .outside → NoEarlyRelease L m) :
    ∀ q c m, (Function.update s.thread p th q).current = some (c, m) →
      (Function.update s.thread p th q).phase = .outside → NoEarlyRelease L m := by
  intro q c m hm hph
  by_cases hq : q = p
  · subst q
    simp only [Function.update_self] at hm hph
    exact hth c m hm hph
  · simp only [Function.update_of_ne hq] at hm hph
    exact h.early q c m hm hph

theorem exposed_of_ne (hq : q ≠ p)
    (h : Exposed L access (⟨t, Function.update s.thread p th, w⟩ : System Op Res S Pid Call R) q) :
    Exposed L access s q := by
  simpa only [Exposed, Function.update_of_ne hq] using h

theorem exposed_self
    (h : Exposed L access (⟨t, Function.update s.thread p th, w⟩ : System Op Res S Pid Call R) p) :
    ∃ c m, th.current = some (c, m) ∧ th.phase = .released ∧
      m.Reaches fun o => access o ∨ L.release o := by
  simpa only [Exposed, Function.update_self] using h

end Update

theorem begin_keeps_exclusion (hbody : ∀ c, NoEarlyRelease L (body c))
    (h : ExclusionInvariant L access s) (c : Call) (cs : List Call) :
    ExclusionInvariant L access
      { s with thread := Function.update s.thread p ((s.thread p).begin c cs (body c)) } := by
  set th := (s.thread p).begin c cs (body c)
  have fresh : ∀ d m, th.current = some (d, m) → m = body c ∧ th.phase = .outside :=
    fun d m hm => ⟨(settle_current hm).2.1, (settle_current hm).2.2⟩
  have old : ∀ q, Exposed L access { s with thread := Function.update s.thread p th } q →
      Exposed L access s q := by
    intro q hq
    by_cases hqp : q = p
    · subst q
      obtain ⟨d, m, hm, hph, -⟩ := exposed_self hq
      rw [(fresh d m hm).2] at hph
      cases hph
    · exact exposed_of_ne hqp hq
  constructor
  · exact early_update h fun d m hm _ => (fresh d m hm).1 ▸ hbody c
  · intro q d m hm hph
    by_cases hq : q = p
    · subst q
      simp only [Function.update_self] at hm hph
      rw [(fresh d m hm).2] at hph
      cases hph
    · simp only [Function.update_of_ne hq] at hm hph
      exact h.holding q d m hm hph
  · intro q hq
    exact ⟨(h.exposed q (old q hq)).1, fun q' hq' => (h.exposed q (old q hq)).2 q' (old q' hq')⟩

omit [DecidableEq Pid] in
/-- The process that removes a lock is the only one that holds one or is exposed. -/
theorem release_alone {c : Call} {o : Op} {k : Res o → Prog Op Res R}
    (h : ExclusionInvariant L access s) (hc : (s.thread p).current = some (c, .step o k))
    (hr : L.release o) :
    (∀ q d m, (s.thread q).current = some (d, m) → (s.thread q).phase = .holding → q = p) ∧
    (∀ q, Exposed L access s q → q = p) := by
  cases hph : (s.thread p).phase with
  | outside =>
    rcases h.early p c _ hc hph with ha | ⟨hn, -⟩
    · exact absurd hr (L.distinct ha)
    · exact absurd hr hn
  | holding =>
    have ho := (h.holding p c _ hc hph).1
    refine ⟨fun q d m hm hq => ?_, fun q hq => ?_⟩
    · exact Option.some.inj ((h.holding q d m hm hq).1.symm.trans ho)
    · have := (h.exposed q hq).1
      rw [ho] at this; cases this
  | released =>
    have he : Exposed L access s p := ⟨c, _, hc, hph, fun hu => hu.1 (.inr hr)⟩
    refine ⟨fun q d m hm hq => ?_, (h.exposed p he).2⟩
    have := (h.holding q d m hm hq).1
    rw [(h.exposed p he).1] at this; cases this

section Step

variable {c : Call} {o : Op} {k : Res o → Prog Op Res R} {r : Res o} {t : S}

omit [DecidableEq Pid] in
/-- A call that goes on after a step has the rest of its program left, in the phase the step led
to. -/
theorem resumed_current {d : Call} {m : Prog Op Res R}
    (h : (resumed L s p c o (k r)).current = some (d, m)) :
    m = k r ∧ (resumed L s p c o (k r)).phase = L.phaseAfter o (s.thread p).phase :=
  ⟨(settle_current h).2.1, (settle_current h).2.2⟩

/-- The lock was free, so nobody held it; nobody is exposed by assumption. -/
theorem acquire_keeps_exclusion (h : ExclusionInvariant L access s) (ha : L.acquire o)
    (he : exec o s.shared = some (r, t)) (hok : ∀ q, q ≠ p → ¬ Exposed L access s q) :
    ExclusionInvariant L access
      { shared := t
        thread := Function.update s.thread p (resumed L s p c o (k r))
        owner := L.ownerAfter p o s.owner } := by
  obtain ⟨hfree, hnot⟩ := L.acquire_free ha he
  have hphase : ∀ d m, (resumed L s p c o (k r)).current = some (d, m) →
      (resumed L s p c o (k r)).phase = .holding := by
    intro d m hm
    rw [(resumed_current hm).2]
    simp [Lock.phaseAfter, ha]
  constructor
  · apply early_update h
    intro d m hm hph
    rw [hphase d m hm] at hph
    cases hph
  · intro q d m hm hph
    by_cases hq : q = p
    · subst q
      exact ⟨by simp [Lock.ownerAfter, ha], hnot⟩
    · simp only [Function.update_of_ne hq] at hm hph
      exact absurd hfree (h.holding q d m hm hph).2
  · intro q hq
    by_cases hqp : q = p
    · subst q
      obtain ⟨d, m, hm, hph, -⟩ := exposed_self hq
      rw [hphase d m hm] at hph
      cases hph
    · exact absurd (exposed_of_ne hqp hq) (hok q hqp)

/-- Nobody else held a lock or was exposed when `p` came to its `release`. -/
theorem release_keeps_exclusion (h : ExclusionInvariant L access s)
    (hc : (s.thread p).current = some (c, .step o k)) (hr : L.release o) :
    ExclusionInvariant L access
      { shared := t
        thread := Function.update s.thread p (resumed L s p c o (k r))
        owner := L.ownerAfter p o s.owner } := by
  have ha : ¬ L.acquire o := fun ha => L.distinct ha hr
  obtain ⟨alone, lone⟩ := release_alone h hc hr
  have hphase : ∀ d m, (resumed L s p c o (k r)).current = some (d, m) →
      (resumed L s p c o (k r)).phase = .released := by
    intro d m hm
    rw [(resumed_current hm).2]
    simp [Lock.phaseAfter, ha, hr]
  have only : ∀ q, Exposed L access
      { shared := t, thread := Function.update s.thread p (resumed L s p c o (k r)),
        owner := L.ownerAfter p o s.owner } q → q = p := by
    intro q hq
    by_contra hqp
    exact hqp (lone q (exposed_of_ne hqp hq))
  constructor
  · apply early_update h
    intro d m hm hph
    rw [hphase d m hm] at hph
    cases hph
  · intro q d m hm hph
    by_cases hq : q = p
    · subst q
      simp only [Function.update_self] at hm hph
      rw [hphase d m hm] at hph
      cases hph
    · simp only [Function.update_of_ne hq] at hm hph
      exact absurd (alone q d m hm hph) hq
  · intro q hq
    refine ⟨by simp [Lock.ownerAfter, ha, hr], fun q' hq' => ?_⟩
    rw [only q' hq', only q hq]

theorem plain_keeps_exclusion (h : ExclusionInvariant L access s)
    (hc : (s.thread p).current = some (c, .step o k)) (he : exec o s.shared = some (r, t))
    (ha : ¬ L.acquire o) (hr : ¬ L.release o) :
    ExclusionInvariant L access
      { shared := t
        thread := Function.update s.thread p (resumed L s p c o (k r))
        owner := L.ownerAfter p o s.owner } := by
  have hphase : ∀ d m, (resumed L s p c o (k r)).current = some (d, m) →
      (resumed L s p c o (k r)).phase = (s.thread p).phase := by
    intro d m hm
    rw [(resumed_current hm).2]
    simp [Lock.phaseAfter, ha, hr]
  have hown : L.ownerAfter p o s.owner = s.owner := by simp [Lock.ownerAfter, ha, hr]
  have old : ∀ q, Exposed L access
      { shared := t, thread := Function.update s.thread p (resumed L s p c o (k r)),
        owner := L.ownerAfter p o s.owner } q → Exposed L access s q := by
    intro q hq
    by_cases hqp : q = p
    · subst q
      obtain ⟨d, m, hm, hph, hx⟩ := exposed_self hq
      refine ⟨c, _, hc, (hphase d m hm).symm.trans hph, reaches_of_step (r := r) ?_⟩
      exact (resumed_current hm).1 ▸ hx
    · exact exposed_of_ne hqp hq
  constructor
  · apply early_update h
    intro d m hm hph
    rcases h.early p c _ hc ((hphase d m hm).symm.trans hph) with hx | ⟨-, hx⟩
    · exact absurd hx ha
    · exact (resumed_current hm).1 ▸ hx r
  · intro q d m hm hph
    simp only [hown, L.keep_free ha hr he]
    by_cases hq : q = p
    · subst q
      simp only [Function.update_self] at hm hph
      exact h.holding p c _ hc ((hphase d m hm).symm.trans hph)
    · simp only [Function.update_of_ne hq] at hm hph
      exact h.holding q d m hm hph
  · intro q hq
    simp only [hown]
    exact ⟨(h.exposed q (old q hq)).1,
      fun q' hq' => (h.exposed q (old q hq)).2 q' (old q' hq')⟩

theorem step_keeps_exclusion (h : ExclusionInvariant L access s)
    (hc : (s.thread p).current = some (c, .step o k)) (he : exec o s.shared = some (r, t))
    (hok : L.acquire o → ∀ q, q ≠ p → ¬ Exposed L access s q) :
    ExclusionInvariant L access
      { shared := t
        thread := Function.update s.thread p (resumed L s p c o (k r))
        owner := L.ownerAfter p o s.owner } := by
  by_cases ha : L.acquire o
  · exact acquire_keeps_exclusion h ha he (hok ha)
  by_cases hr : L.release o
  · exact release_keeps_exclusion h hc hr
  · exact plain_keeps_exclusion h hc he ha hr

end Step

/-- Exclusion in every state of every run that creates no lock while another process is
exposed. `Q` says what can be left of a call that has removed the lock. -/
theorem exclusion {Q : Call → Prog Op Res R → Prop} (hbody : ∀ c, NoEarlyRelease L (body c))
    (hthen : ∀ c, ReleaseThen L (Q c) (body c)) (hQ : ∀ c o k r, Q c (.step o k) → Q c (k r))
    {ok : System Op Res S Pid Call R → Pid → Prop}
    (hok : ∀ s p, ok s p → Creates L s p → ∀ q c m, q ≠ p → (s.thread q).current = some (c, m) →
      (s.thread q).phase = .released → Q c m → ¬ m.Reaches fun o => access o ∨ L.release o)
    (sh : S) (todo : Pid → List Call) {sched : List Pid}
    (hf : Follows L body ok (initial sh todo) sched) :
    Exclusive L access (runSchedule L body (initial sh todo) sched) := by
  have hinv := follows_invariant (L := L)
    (I := fun s => ExclusionInvariant L access s ∧ TailInvariant L Q s) ?_
    ⟨initial_exclusion_invariant sh todo, initial_tail sh todo⟩ hf
  · exact exclusive_of_invariant hinv.1
  · intro s p hp ⟨h, htail⟩
    refine ⟨?_, advance_keeps_tail hthen hQ htail p⟩
    rcases advance_cases L body s p with he | ⟨c, cs, -, -, he⟩ | ⟨c, o, k, r, t, hc, hx, he⟩
    · rwa [he]
    · rw [he]
      exact begin_keeps_exclusion hbody h c cs
    · rw [he]
      refine step_keeps_exclusion h hc hx fun ha q hq hexp => ?_
      obtain ⟨d, m, hm, hph, hreach⟩ := hexp
      exact hok s p hp ⟨c, o, k, hc, ha, (L.acquire_free ha hx).1⟩ q d m hq hm hph
        ((htail q d m hm).2.2 hph) hreach

end Exclusion

end LockProtocol
