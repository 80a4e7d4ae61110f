import RouterFirmware.LockProtocol

/-! # Calls under a lock, one after another

When calls do nothing before they have the lock and nobody takes it while another call is past
its release, an interleaving of the calls is one of their sequential orders. An operation that
commutes with those of the other processes may still follow the release.
-/
namespace LockProtocol

open SharedProgram

variable {Op : Type} {Res : Op → Type} {S Pid Call R : Type}

section Serial

variable {exec : (o : Op) → S → Option (Res o × S)} (L : Lock exec)
  (body : Call → Prog Op Res R)

/-- The calls run alone, one after another, with these results. -/
def Replays (exec : (o : Op) → S → Option (Res o × S)) : S → List (Pid × Call × R) → S → Prop
  | s, [], t => s = t
  | s, (_, c, a) :: rest, t => ∃ u, (body c).run exec s = some (a, u) ∧ Replays exec u rest t

/-- The call does nothing before it has the lock. -/
def StartsLocked (m : Prog Op Res R) : Prop := ∃ o k, m = .step o k ∧ L.acquire o

/-- The next move of the process creates the lock while another one has removed it in a call
that goes on. -/
def Overtakes (s : System Op Res S Pid Call R) (p : Pid) : Prop :=
  Creates L s p ∧ ∃ q c m, q ≠ p ∧ (s.thread q).current = some (c, m) ∧
    (s.thread q).phase = .released

variable {L body}

theorem replays_append {s t u : S} {xs : List (Pid × Call × R)} {p : Pid} {c : Call} {a : R}
    (h : Replays body exec s xs t) (hc : (body c).run exec t = some (a, u)) :
    Replays body exec s (xs ++ [(p, c, a)]) u := by
  induction xs generalizing s with
  | nil => exact ⟨u, h ▸ hc, rfl⟩
  | cons x xs ih =>
    obtain ⟨v, hv, h⟩ := h
    exact ⟨v, hv, ih h⟩

theorem runAll_of_replays {s t : S} {xs : List (Pid × Call × R)}
    (h : Replays body exec s xs t) :
    runAll exec body (xs.map (·.2.1)) s = some (xs.map (·.2.2), t) := by
  induction xs generalizing s with
  | nil =>
    obtain rfl : s = t := h
    rfl
  | cons x xs ih =>
    obtain ⟨v, hv, h⟩ := h
    simp [runAll, hv, ih h]

/-- The calls of a thread in their order: those that have returned, the one under way, and those
still to come. -/
def Thread.calls (th : Thread Op Res Call R) : List Call :=
  th.done.map (·.1) ++ th.current.toList.map (·.1) ++ th.todo

def Active (s : System Op Res S Pid Call R) (p : Pid) : Prop :=
  ∃ c m, (s.thread p).current = some (c, m) ∧ (s.thread p).phase ≠ .outside

/-- No call is past its `acquire` and the state is `base`; or one is, alone, and has brought
`base` to the present state. -/
def SerialState (L : Lock exec) (body : Call → Prog Op Res R) (base : S)
    (s : System Op Res S Pid Call R) : Prop :=
  (base = s.shared ∧ ∀ p, ¬ Active s p) ∨
    ∃ p c m, (s.thread p).current = some (c, m) ∧ (s.thread p).phase ≠ .outside ∧
      (∀ q, Active s q → q = p) ∧ ((s.thread p).phase = .holding → ¬ L.free s.shared) ∧
      (body c).run exec base = m.run exec s.shared

variable [DecidableEq Pid]

/-- The finished calls, in the order in which they took the lock, lead to `base`. -/
structure SerialInvariant (L : Lock exec) (body : Call → Prog Op Res R) (start : S)
    (todo : Pid → List Call) (order : List (Pid × Call × R)) (base : S)
    (s : System Op Res S Pid Call R) : Prop where
  replay : Replays body exec start order base
  history : ∀ p, (s.thread p).done = (order.filter (·.1 = p)).map (·.2)
  progress : ∀ p, (s.thread p).calls = todo p
  locked : ∀ p, ∀ c ∈ (s.thread p).todo, StartsLocked L (body c)
  waiting : ∀ p c m, (s.thread p).current = some (c, m) → (s.thread p).phase = .outside →
    m = body c ∧ StartsLocked L m
  state : SerialState L body base s

variable {start : S} {todo : Pid → List Call} {order : List (Pid × Call × R)} {base : S}
  {s : System Op Res S Pid Call R} {p : Pid}

theorem initial_serial_invariant (h : ∀ p, ∀ c ∈ todo p, StartsLocked L (body c)) :
    SerialInvariant L body start todo [] start (initial start todo) := by
  constructor
  · rfl
  · intro p; rfl
  · intro p; simp [initial, idle, Thread.calls]
  · exact h
  · intro p c m hm; cases hm
  · exact .inl ⟨rfl, by rintro p ⟨c, m, hm, -⟩; cases hm⟩

/-- A call that takes the lock finds no other call in progress. -/
theorem base_of_creates (h : SerialInvariant L body start todo order base s)
    (hc : Creates L s p) (hp : (s.thread p).phase = .outside) (ho : ¬ Overtakes L s p) :
    base = s.shared ∧ ∀ q, ¬ Active s q := by
  rcases h.state with hb | ⟨q, c, m, hm, hph, -, hf, -⟩
  · exact hb
  have hq : q ≠ p := by rintro rfl; exact hph hp
  cases hq' : (s.thread q).phase with
  | outside => exact absurd hq' hph
  | holding =>
    obtain ⟨_, _, _, _, _, hfree⟩ := hc
    exact absurd hfree (hf hq')
  | released => exact absurd ⟨hc, q, c, m, hq, hm, hq'⟩ ho

section Update

variable {th : Thread Op Res Call R} {t : S} {w : Option Pid} {q : Pid}

theorem active_of_ne (hq : q ≠ p) :
    Active (⟨t, Function.update s.thread p th, w⟩ : System Op Res S Pid Call R) q ↔ Active s q := by
  simp only [Active, Function.update_of_ne hq]

/-- What is left to show after a move of `p`: that its thread and the order of the finished
calls agree, and where the shared state comes from. -/
theorem serial_update {order' : List (Pid × Call × R)} {base' : S}
    (h : SerialInvariant L body start todo order base s)
    (hreplay : Replays body exec start order' base')
    (hself : th.done = (order'.filter (·.1 = p)).map (·.2))
    (hothers : ∀ q, q ≠ p → order'.filter (·.1 = q) = order.filter (·.1 = q))
    (hcalls : th.calls = (s.thread p).calls) (htodo : th.todo ⊆ (s.thread p).todo)
    (hwait : ∀ c m, th.current = some (c, m) → th.phase = .outside →
      m = body c ∧ StartsLocked L m)
    (hstate : SerialState L body base' ⟨t, Function.update s.thread p th, w⟩) :
    SerialInvariant L body start todo order' base' ⟨t, Function.update s.thread p th, w⟩ := by
  refine ⟨hreplay, ?_, ?_, ?_, ?_, hstate⟩
  · intro q
    by_cases hq : q = p
    · subst q
      simpa only [Function.update_self] using hself
    · simpa only [Function.update_of_ne hq, hothers q hq] using h.history q
  · intro q
    by_cases hq : q = p
    · subst q
      simpa only [Function.update_self, hcalls] using h.progress p
    · simpa only [Function.update_of_ne hq] using h.progress q
  · intro q d hd
    by_cases hq : q = p
    · subst q
      simp only [Function.update_self] at hd
      exact h.locked p d (htodo hd)
    · simp only [Function.update_of_ne hq] at hd
      exact h.locked q d hd
  · intro q d m hm hph
    by_cases hq : q = p
    · subst q
      simp only [Function.update_self] at hm hph
      exact hwait d m hm hph
    · simp only [Function.update_of_ne hq] at hm hph
      exact h.waiting q d m hm hph

end Update

theorem begin_keeps_serial (h : SerialInvariant L body start todo order base s) {c : Call}
    {cs : List Call} (hn : (s.thread p).current = none) (ht : (s.thread p).todo = c :: cs) :
    SerialInvariant L body start todo order base
      { s with thread := Function.update s.thread p ((s.thread p).begin c cs (body c)) } := by
  obtain ⟨o, k, hb, ha⟩ := h.locked p c (by simp [ht])
  have hth : (s.thread p).begin c cs (body c) =
      { s.thread p with todo := cs, phase := .outside, current := some (c, .step o k) } := by
    rw [hb]
    rfl
  rw [hth]
  refine serial_update h h.replay (h.history p) (fun _ _ => rfl) ?_ ?_ ?_ ?_
  · simp [Thread.calls, hn, ht]
  · simp [ht]
  · rintro d m hm -
    cases hm
    exact ⟨hb.symm, o, k, rfl, ha⟩
  -- a call that has just begun is not past its `acquire`
  have active : ∀ q, Active (⟨s.shared, Function.update s.thread p { s.thread p with
      todo := cs, phase := .outside, current := some (c, .step o k) }, s.owner⟩ :
        System Op Res S Pid Call R) q → Active s q := by
    intro q hq
    by_cases hqp : q = p
    · subst q
      simp [Active] at hq
    · exact (active_of_ne hqp).mp hq
  rcases h.state with ⟨he, hno⟩ | ⟨q, d, m, hm, hph, huniq, hf, hrun⟩
  · exact .inl ⟨he, fun q hq => hno q (active q hq)⟩
  · have hq : q ≠ p := by
      rintro rfl
      rw [hn] at hm
      cases hm
    refine .inr ⟨q, d, m, ?_, ?_, fun q' hq' => huniq q' (active q' hq'), ?_, hrun⟩
    · simpa only [Function.update_of_ne hq] using hm
    · simpa only [Function.update_of_ne hq] using hph
    · simpa only [Function.update_of_ne hq] using hf

section Resume

variable {c : Call} {n m : Prog Op Res R} {t : S} {ph : Phase} {owner : Option Pid}

/-- The one call in progress is over and joins the order. -/
theorem return_keeps_serial {a : R} (h : SerialInvariant L body start todo order base s)
    (hc : (s.thread p).current = some (c, n)) (halone : ∀ q, Active s q → q = p)
    (hrun : (body c).run exec base = some (a, t)) :
    SerialInvariant L body start todo (order ++ [(p, c, a)]) t
      { shared := t, thread := Function.update s.thread p ((s.thread p).resume ph c (.ret a)),
        owner := owner } := by
  refine serial_update h (replays_append h.replay hrun) ?_ ?_ ?_ (fun _ hd => hd) ?_ ?_
  · simp [Thread.resume, Thread.settle, h.history]
  · intro q hq
    simp [Ne.symm hq]
  · simp [Thread.resume, Thread.settle, Thread.calls, hc]
  · intro d m hm
    cases hm
  · refine .inl ⟨rfl, fun q hq => ?_⟩
    by_cases hqp : q = p
    · subst q
      simp [Active, Thread.resume, Thread.settle] at hq
    · exact hqp (halone q ((active_of_ne hqp).mp hq))

theorem continue_keeps_serial (h : SerialInvariant L body start todo order base s)
    (hc : (s.thread p).current = some (c, n)) (halone : ∀ q, Active s q → q = p)
    (hph : ph ≠ .outside) (hfree : ph = .holding → ¬ L.free t)
    (hrun : (body c).run exec base = m.run exec t) :
    SerialInvariant L body start todo order base
      { shared := t
        thread := Function.update s.thread p { s.thread p with phase := ph, current := some (c, m) }
        owner := owner } := by
  refine serial_update h h.replay (h.history p) (fun _ _ => rfl) ?_ (fun _ hd => hd) ?_ ?_
  · simp [Thread.calls, hc]
  · intro d m' _ hout
    exact absurd hout hph
  · refine .inr ⟨p, c, m, by simp, by simpa using hph, fun q hq => ?_, by simpa using hfree, hrun⟩
    by_contra hqp
    exact hqp (halone q ((active_of_ne hqp).mp hq))

/-- The call `c` of `p` has brought `base` to the present state with the program `m` left. -/
theorem resume_keeps_serial (h : SerialInvariant L body start todo order base s)
    (hc : (s.thread p).current = some (c, n)) (halone : ∀ q, Active s q → q = p)
    (hph : ph ≠ .outside) (hfree : ph = .holding → ¬ L.free t)
    (hrun : (body c).run exec base = m.run exec t) :
    ∃ order' base', SerialInvariant L body start todo order' base'
      { shared := t, thread := Function.update s.thread p ((s.thread p).resume ph c m),
        owner := owner } := by
  cases m with
  | ret a => exact ⟨_, _, return_keeps_serial h hc halone hrun⟩
  | halt w => exact ⟨_, _, continue_keeps_serial h hc halone hph hfree hrun⟩
  | step o k => exact ⟨_, _, continue_keeps_serial h hc halone hph hfree hrun⟩

end Resume

theorem step_keeps_serial (h : SerialInvariant L body start todo order base s) {c : Call}
    {o : Op} {k : Res o → Prog Op Res R} {r : Res o} {t : S}
    (hc : (s.thread p).current = some (c, .step o k)) (he : exec o s.shared = some (r, t))
    (hok : ¬ Overtakes L s p) :
    ∃ order' base', SerialInvariant L body start todo order' base'
      { shared := t
        thread := Function.update s.thread p (resumed L s p c o (k r))
        owner := L.ownerAfter p o s.owner } := by
  have hgo : (Prog.step o k).run exec s.shared = (k r).run exec t := by simp [run_step, he]
  by_cases hout : (s.thread p).phase = .outside
  · obtain ⟨hb, o', k', hk, ha⟩ := h.waiting p c _ hc hout
    obtain ⟨rfl, -⟩ := Prog.step.inj hk
    have hcreate : Creates L s p := ⟨c, o, k, hc, ha, (L.acquire_free ha he).1⟩
    obtain ⟨rfl, hno⟩ := base_of_creates h hcreate hout hok
    refine resume_keeps_serial h hc (fun q hq => absurd hq (hno q)) ?_ ?_ (hb ▸ hgo)
    · simp [Lock.phaseAfter, ha]
    · exact fun _ => (L.acquire_free ha he).2
  · have hact : Active s p := ⟨c, _, hc, hout⟩
    rcases h.state with ⟨-, hno⟩ | ⟨q, d, m, hm, hq, huniq, hf, hrun⟩
    · exact absurd hact (hno p)
    obtain rfl := huniq p hact
    rw [hc, Option.some.injEq, Prod.mk.injEq] at hm
    obtain ⟨rfl, rfl⟩ := hm
    refine resume_keeps_serial h hc huniq ?_ ?_ (hrun.trans hgo)
    · unfold Lock.phaseAfter
      split
      · simp
      · split
        · simp
        · exact hout
    · unfold Lock.phaseAfter
      split
      · next ha => exact fun _ => (L.acquire_free ha he).2
      · next ha =>
        split
        · simp
        · next hr => exact fun hph => fun hfr => hf hph ((L.keep_free ha hr he).mp hfr)

theorem advance_keeps_serial (h : ∃ order base, SerialInvariant L body start todo order base s)
    (hok : ¬ Overtakes L s p) :
    ∃ order base, SerialInvariant L body start todo order base (advance L body p s) := by
  obtain ⟨order, base, h⟩ := h
  rcases advance_cases L body s p with he | ⟨c, cs, hn, ht, he⟩ | ⟨c, o, k, r, t, hc, hx, he⟩
  · rw [he]
    exact ⟨order, base, h⟩
  · rw [he]
    exact ⟨order, base, begin_keeps_serial h hn ht⟩
  · rw [he]
    exact step_keeps_serial h hc hx hok

end Serial

section Late

variable {exec : (o : Op) → S → Option (Res o × S)} {L : Lock exec} [DecidableEq Pid]
  {body : Call → Prog Op Res R} {s : System Op Res S Pid Call R} {p q : Pid}

/-- `o` always succeeds, and it makes no difference whether it comes before or behind `o'`. -/
def Commutes (exec : (o : Op) → S → Option (Res o × S)) (o o' : Op) : Prop :=
  ∀ s, ∃ r t, exec o s = some (r, t) ∧ (exec o' s = none → exec o' t = none) ∧
    ∀ r' t', exec o' s = some (r', t') → ∃ u, exec o t' = some (r, u) ∧ exec o' t = some (r', u)

/-- A step that is no lock operation trades places with the next move of another process. -/
theorem advance_comm {c : Call} {o : Op} {k : Res o → Prog Op Res R} (hpq : p ≠ q)
    (hq : (s.thread q).current = some (c, .step o k)) (ha : ¬ L.acquire o) (hr : ¬ L.release o)
    {r : Res o} {t : S} (ht : exec o s.shared = some (r, t))
    (hcomm : ∀ d o' k', (s.thread p).current = some (d, .step o' k') → Commutes exec o o') :
    advance L body q (advance L body p s) = advance L body p (advance L body q s) := by
  have howner : ∀ x, L.ownerAfter q o x = x := fun x => by simp [Lock.ownerAfter, ha, hr]
  cases hc : (s.thread p).current with
  | none =>
    cases htodo : (s.thread p).todo with
    | nil => simp [advance, hc, htodo, hq, ht, hpq]
    | cons d ds =>
      simp [advance, hc, htodo, hq, ht, hpq, hpq.symm, resumed, howner,
        Function.update_comm hpq]
  | some dm =>
    obtain ⟨d, m⟩ := dm
    cases m with
    | ret a => simp [advance, hc, hq, ht, hpq]
    | halt w => simp [advance, hc, hq, ht, hpq]
    | step o' k' =>
      obtain ⟨r₁, t₁, ht₁, hblocked, hstep⟩ := hcomm d o' k' hc s.shared
      obtain ⟨rfl, rfl⟩ : r = r₁ ∧ t = t₁ := by simpa [ht] using ht₁
      cases he : exec o' s.shared with
      | none => simp [advance, hc, hq, ht, hpq, he, hblocked he]
      | some rt =>
        obtain ⟨u, hu, hu'⟩ := hstep rt.1 rt.2 he
        simp [advance, hc, hq, ht, hpq, hpq.symm, he, hu, hu', resumed, howner,
          Function.update_comm hpq]

variable (late : Op → Prop)

/-- All that is left of the call of `b`, which has removed the lock, is a late operation. -/
def Draining (s : System Op Res S Pid Call R) (b : Pid) : Prop :=
  ∃ c o k, (s.thread b).current = some (c, .step o k) ∧ (s.thread b).phase = .released ∧
    late o ∧ ∀ r, ∃ a, k r = .ret a

/-- The calls of the processes other than `b` use operations that late ones commute with. -/
def CommuteInvariant (exec : (o : Op) → S → Option (Res o × S)) (body : Call → Prog Op Res R)
    (b : Pid) (s : System Op Res S Pid Call R) : Prop :=
  ∀ p, p ≠ b →
    (∀ c ∈ (s.thread p).todo, (body c).Uses fun o' => ∀ o, late o → Commutes exec o o') ∧
    ∀ c m, (s.thread p).current = some (c, m) → m.Uses fun o' => ∀ o, late o → Commutes exec o o'

variable {late} {b : Pid} {start : S} {todo : Pid → List Call}

theorem advance_keeps_commute (h : CommuteInvariant late exec body b s) :
    CommuteInvariant late exec body b (advance L body p s) := by
  rcases advance_cases L body s p with he | ⟨c, cs, -, htodo, he⟩ | ⟨c, o, k, r, t, hc, -, he⟩
  · rwa [he]
  · rw [he]
    intro q hqb
    by_cases hq : q = p
    · subst q
      obtain ⟨hall, -⟩ := h p hqb
      rw [htodo] at hall
      simp only [Function.update_self]
      refine ⟨fun d hd => hall d ?_, fun d m hm => ?_⟩
      · have : ((s.thread p).begin c cs (body c)).todo = cs := by
          unfold Thread.begin Thread.settle
          split <;> rfl
        exact List.mem_cons_of_mem _ (this ▸ hd)
      · obtain ⟨rfl, rfl, -⟩ := settle_current hm
        exact hall d List.mem_cons_self
    · simpa only [Function.update_of_ne hq] using h q hqb
  · rw [he]
    intro q hqb
    by_cases hq : q = p
    · subst q
      obtain ⟨hall, hcur⟩ := h p hqb
      simp only [Function.update_self]
      refine ⟨fun d hd => hall d ?_, fun d m hm => ?_⟩
      · have : (resumed L s p c o (k r)).todo = (s.thread p).todo := by
          unfold resumed Thread.resume Thread.settle
          split <;> rfl
        exact this ▸ hd
      · obtain ⟨rfl, rfl, -⟩ := settle_current hm
        exact (hcur d _ hc).2 r
    · simpa only [Function.update_of_ne hq] using h q hqb

/-- The system is serial, or will be once the late operation of `b` is done. -/
def SerialUpToLate (L : Lock exec) (body : Call → Prog Op Res R) (late : Op → Prop) (b : Pid)
    (start : S) (todo : Pid → List Call) (s : System Op Res S Pid Call R) : Prop :=
  (¬ Draining late s b ∧ ∃ order base, SerialInvariant L body start todo order base s) ∨
  (Draining late s b ∧
    ∃ order base, SerialInvariant L body start todo order base (advance L body b s))

/-- A late operation is not a lock operation and never fails. -/
structure IsLate (L : Lock exec) (late : Op → Prop) : Prop where
  acquire : ∀ {o}, late o → ¬ L.acquire o
  release : ∀ {o}, late o → ¬ L.release o
  total : ∀ {o}, late o → ∀ s, ∃ r t, exec o s = some (r, t)

theorem thread_advance_of_ne (h : q ≠ p) : (advance L body p s).thread q = s.thread q := by
  rcases advance_cases L body s p with he | ⟨c, cs, -, -, he⟩ | ⟨c, o, k, r, t, -, -, he⟩
  · rw [he]
  · rw [he]
    exact Function.update_of_ne h _ _
  · rw [he]
    exact Function.update_of_ne h _ _

/-- After its late operation the process has returned. -/
theorem drained (hl : IsLate L late) (h : Draining late s b) :
    ((advance L body b s).thread b).current = none ∧
      (L.free (advance L body b s).shared ↔ L.free s.shared) := by
  obtain ⟨c, o, k, hc, -, ho, hret⟩ := h
  obtain ⟨r, t, ht⟩ := hl.total ho s.shared
  obtain ⟨a, ha⟩ := hret r
  simp only [advance, hc, ht, ha, resumed, Thread.resume, Thread.settle, Function.update_self,
    true_and]
  exact L.keep_free (hl.acquire ho) (hl.release ho) ht

omit [DecidableEq Pid] in
theorem draining_not_creates (hl : IsLate L late) (h : Draining late s b) : ¬ Creates L s b := by
  rintro ⟨c, o, k, hc, ha, -⟩
  obtain ⟨c', o', k', hc', -, ho, -⟩ := h
  rw [hc] at hc'
  cases hc'
  exact hl.acquire ho ha

omit [DecidableEq Pid] in
theorem mem_calls {c : Call} {m : Prog Op Res R} (h : (s.thread p).current = some (c, m)) :
    c ∈ (s.thread p).calls := by
  simp [Thread.calls, h]

theorem advance_keeps_serialUpToLate (hl : IsLate L late)
    (hcomm : CommuteInvariant late exec body b s)
    (h : SerialUpToLate L body late b start todo s)
    (hok : Creates L s p → ∀ q c m, q ≠ p → c ∈ todo q → (s.thread q).current = some (c, m) →
      (s.thread q).phase = .released → q = b ∧ Draining late s b) :
    SerialUpToLate L body late b start todo (advance L body p s) := by
  rcases h with ⟨hnot, h⟩ | ⟨hdrain, h⟩
  · have hserial := advance_keeps_serial (p := p) h <| by
      rintro ⟨hcreate, q, c, m, hq, hm, hph⟩
      obtain ⟨order, base, hs⟩ := h
      exact hnot (hok hcreate q c m hq (hs.progress q ▸ mem_calls hm) hm hph).2
    by_cases hnext : Draining late (advance L body p s) b
    · refine .inr ⟨hnext, advance_keeps_serial hserial ?_⟩
      exact fun hover => draining_not_creates hl hnext hover.1
    · exact .inl ⟨hnext, hserial⟩
  by_cases hp : p = b
  · subst p
    refine .inl ⟨?_, h⟩
    rintro ⟨c, o, k, hc, -⟩
    rw [(drained hl hdrain).1] at hc
    cases hc
  · -- the late operation is done first
    have hswap : advance L body b (advance L body p s) = advance L body p (advance L body b s) := by
      obtain ⟨c, o, k, hc, -, ho, -⟩ := hdrain
      obtain ⟨r, t, ht⟩ := hl.total ho s.shared
      refine advance_comm hp hc (hl.acquire ho) (hl.release ho) ht fun d o' k' hd => ?_
      exact ((hcomm p hp).2 d _ hd).1 o ho
    refine .inr ⟨?_, ?_⟩
    · simpa only [Draining, thread_advance_of_ne (Ne.symm hp)] using hdrain
    rw [hswap]
    apply advance_keeps_serial h
    rintro ⟨⟨c, o, k, hc, ha, hfree⟩, q, d, m, hq, hm, hph⟩
    rw [thread_advance_of_ne hp] at hc
    have hcreate : Creates L s p := ⟨c, o, k, hc, ha, (drained hl hdrain).2.mp hfree⟩
    by_cases hqb : q = b
    · subst q
      rw [(drained hl hdrain).1] at hm
      cases hm
    · obtain ⟨order, base, hs⟩ := h
      have hd : d ∈ todo q := hs.progress q ▸ mem_calls hm
      rw [thread_advance_of_ne hqb] at hm hph
      exact hqb (hok hcreate q d m hq hd hm hph).1

/-- Take any run in which nobody creates the lock while another call is past its release, a late
operation of `b` apart, and any state of it without a call under way. That state is the one the
calls that have returned reach one after another, with the same results, in an order that keeps
the order of the calls of each process. -/
theorem serializable {Q : Call → Prog Op Res R → Prop} (hl : IsLate L late)
    (hbody : ∀ p, ∀ c ∈ todo p, StartsLocked L (body c))
    (hcomm : ∀ p, p ≠ b → ∀ c ∈ todo p,
      (body c).Uses fun o' => ∀ o, late o → Commutes exec o o')
    (hthen : ∀ c, ReleaseThen L (Q c) (body c)) (hQ : ∀ c o k r, Q c (.step o k) → Q c (k r))
    {ok : System Op Res S Pid Call R → Pid → Prop}
    (hok : ∀ s p, ok s p → Creates L s p → ∀ q c m, q ≠ p → c ∈ todo q →
      (s.thread q).current = some (c, m) → (s.thread q).phase = .released → Q c m →
      (∃ a, m = .ret a) ∨ (q = b ∧ Draining late s b))
    {sched : List Pid} (hf : Follows L body ok (initial start todo) sched)
    (hquiet : ∀ p, ¬ Active (runSchedule L body (initial start todo) sched) p) :
    ∃ order, Replays body exec start order (runSchedule L body (initial start todo) sched).shared ∧
      ∀ p, (order.filter (·.1 = p)).map (·.2) =
          ((runSchedule L body (initial start todo) sched).thread p).done ∧
        ((runSchedule L body (initial start todo) sched).thread p).calls = todo p := by
  have hinv := follows_invariant (L := L)
    (I := fun s => SerialUpToLate L body late b start todo s ∧ CommuteInvariant late exec body b s ∧
      TailInvariant L Q s) ?_ ⟨.inl ⟨?_, [], start, initial_serial_invariant hbody⟩, ?_,
        initial_tail start todo⟩ hf
  · obtain ⟨⟨-, order, base, h⟩ | ⟨hdrain, -⟩, -⟩ := hinv
    · have hbase : base = (runSchedule L body (initial start todo) sched).shared := by
        rcases h.state with ⟨hb, -⟩ | ⟨q, c, m, hm, hph, -⟩
        · exact hb
        · exact absurd ⟨c, m, hm, hph⟩ (hquiet q)
      exact ⟨order, hbase ▸ h.replay, fun p => ⟨(h.history p).symm, h.progress p⟩⟩
    · obtain ⟨c, o, k, hc, hph, -⟩ := hdrain
      exact absurd ⟨c, _, hc, by rw [hph]; simp⟩ (hquiet b)
  · intro s p hp ⟨hserial, hcom, htail⟩
    refine ⟨advance_keeps_serialUpToLate hl hcom hserial ?_, advance_keeps_commute hcom,
      advance_keeps_tail hthen hQ htail p⟩
    intro hcreate q c m hq hc hm hph
    obtain ⟨hret, -, hrel⟩ := htail q c m hm
    rcases hok s p hp hcreate q c m hq hc hm hph (hrel hph) with ⟨a, ha⟩ | hdrain
    · exact absurd ha (hret a)
    · exact hdrain
  · rintro ⟨c, o, k, hc, -⟩
    cases hc
  · exact fun p hp => ⟨hcomm p hp, fun c m hm => by cases hm⟩

end Late

end LockProtocol
