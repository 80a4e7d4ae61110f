import RouterFirmware.Expectations
import Mathlib.Data.List.Perm.Subperm

/-! # What is expected at one time

Expectations that are not dying do not overlap, so that a tuple meets one of them at most; a
connection has no more than its helper allows, unless its oldest one was dying when another
came; and what is left of a connection that goes is what was dying already. -/
namespace Expectations

open ConnectionTable (Tuple)

section Overlap

variable {n : ℕ}

theorem bits_meet_iff {t a m : BitVec n} :
    (t ^^^ a) &&& m = 0#n ↔ ∀ i, m.getLsbD i = true → t.getLsbD i = a.getLsbD i := by
  constructor
  · intro h i hi
    have := congrArg (·.getLsbD i) h
    simpa [hi] using this
  · intro h
    refine BitVec.eq_of_getLsbD_eq fun i _ => ?_
    cases hm : m.getLsbD i with
    | true => simp [hm, h i hm]
    | false => simp [hm]

/-- Two values agree within both masks exactly when some value agrees with each within its own. -/
theorem bits_overlap_iff {a b p q : BitVec n} :
    (a ^^^ b) &&& (p &&& q) = 0#n ↔ ∃ t, (t ^^^ a) &&& p = 0#n ∧ (t ^^^ b) &&& q = 0#n := by
  simp only [bits_meet_iff, BitVec.getLsbD_and, Bool.and_eq_true]
  constructor
  · intro h
    have hbit (i : ℕ) (hi : i < n) : ((a &&& p) ||| (b &&& ~~~p)).getLsbD i =
        if p.getLsbD i = true then a.getLsbD i else b.getLsbD i := by
      simp only [BitVec.getLsbD_or, BitVec.getLsbD_and, BitVec.getLsbD_not, hi]
      cases p.getLsbD i <;> simp
    refine ⟨(a &&& p) ||| (b &&& ~~~p), fun i hp => ?_, fun i hq => ?_⟩
    · rw [hbit i (BitVec.lt_of_getLsbD hp), if_pos hp]
    · rw [hbit i (BitVec.lt_of_getLsbD hq)]
      split
      · rename_i hp
        exact h i ⟨hp, hq⟩
      · rfl
  · rintro ⟨t, ha, hb⟩ i ⟨hp, hq⟩
    exact (ha i hp).symm.trans (hb i hq)

theorem maskCmp_iff {t a m : Tuple} : ipCtTupleMaskCmp t a m = true ↔
    (t.srcIp.toBitVec ^^^ a.srcIp.toBitVec) &&& m.srcIp.toBitVec = 0 ∧
    (t.dstIp.toBitVec ^^^ a.dstIp.toBitVec) &&& m.dstIp.toBitVec = 0 ∧
    (t.srcPort.toBitVec ^^^ a.srcPort.toBitVec) &&& m.srcPort.toBitVec = 0 ∧
    (t.dstPort.toBitVec ^^^ a.dstPort.toBitVec) &&& m.dstPort.toBitVec = 0 ∧
    (t.protonum.toBitVec ^^^ a.protonum.toBitVec) &&& m.protonum.toBitVec = 0 := by
  simp only [ipCtTupleMaskCmp, Bool.not_eq_true', Bool.or_eq_false_iff, bne_eq_false_iff_eq,
    ← UInt32.toBitVec_inj, ← UInt16.toBitVec_inj, ← UInt8.toBitVec_inj, and_assoc]
  rfl

/-- Two expectations clash exactly when some tuple meets both. -/
theorem expectClash_iff {a b : Expect} : expectClash a b = true ↔
    ∃ t, ipCtTupleMaskCmp t a.tuple a.mask = true ∧ ipCtTupleMaskCmp t b.tuple b.mask = true := by
  constructor
  · intro h
    obtain ⟨h₁, h₂, h₃, h₄, h₅⟩ := maskCmp_iff.mp h
    obtain ⟨t₁, a₁, b₁⟩ := bits_overlap_iff.mp h₁
    obtain ⟨t₂, a₂, b₂⟩ := bits_overlap_iff.mp h₂
    obtain ⟨t₃, a₃, b₃⟩ := bits_overlap_iff.mp h₃
    obtain ⟨t₄, a₄, b₄⟩ := bits_overlap_iff.mp h₄
    obtain ⟨t₅, a₅, b₅⟩ := bits_overlap_iff.mp h₅
    exact ⟨⟨⟨t₁⟩, ⟨t₃⟩, ⟨t₂⟩, ⟨t₄⟩, ⟨t₅⟩⟩, maskCmp_iff.mpr ⟨a₁, a₂, a₃, a₄, a₅⟩,
      maskCmp_iff.mpr ⟨b₁, b₂, b₃, b₄, b₅⟩⟩
  · rintro ⟨t, ha, hb⟩
    obtain ⟨a₁, a₂, a₃, a₄, a₅⟩ := maskCmp_iff.mp ha
    obtain ⟨b₁, b₂, b₃, b₄, b₅⟩ := maskCmp_iff.mp hb
    exact maskCmp_iff.mpr ⟨bits_overlap_iff.mpr ⟨_, a₁, b₁⟩, bits_overlap_iff.mpr ⟨_, a₂, b₂⟩,
      bits_overlap_iff.mpr ⟨_, a₃, b₃⟩, bits_overlap_iff.mpr ⟨_, a₄, b₄⟩,
      bits_overlap_iff.mpr ⟨_, a₅, b₅⟩⟩

end Overlap

section Shrinks

variable {s t u : State} {i ct me : ℕ}

/-- Nothing is entered: the list only loses expectations, and those that stay keep their timers,
or have run out meanwhile. -/
structure Shrinks (s t : State) : Prop where
  expect : t.expect = s.expect
  list : t.list.Sublist s.list
  timer : ∀ i ∈ t.list, t.timer i = s.timer i ∨ s.timer i = .pending ∧ t.timer i = .running

theorem Shrinks.refl (s : State) : Shrinks s s := ⟨rfl, List.Sublist.refl _, fun _ _ => .inl rfl⟩

theorem Shrinks.trans (h : Shrinks s t) (g : Shrinks t u) : Shrinks s u := by
  refine ⟨g.expect.trans h.expect, g.list.trans h.list, fun i hi => ?_⟩
  rcases g.timer i hi with e | ⟨hp, hr⟩
  · rw [e]
    exact h.timer i (g.list.subset hi)
  · rcases h.timer i (g.list.subset hi) with e | ⟨-, hr'⟩
    · exact .inr ⟨e ▸ hp, hr⟩
    · rw [hp] at hr'
      cases hr'

theorem Shrinks.master (h : Shrinks s t) (i : ℕ) : t.master i = s.master i := by
  rw [State.master, h.expect]
  rfl

theorem Shrinks.pending (h : Shrinks s t) (ht : Refs t) (hp : t.timer i = .pending) :
    s.timer i = .pending := by
  rcases h.timer i (ht.mem_of_pending hp) with e | ⟨-, hr⟩
  · exact e ▸ hp
  · rw [hp] at hr
    cases hr

theorem Shrinks.expecting_le (h : Shrinks s t) (hs : Refs s) (ht : Refs t) (m : ℕ) :
    t.expecting m ≤ s.expecting m := by
  have hm : t.list.countP (fun i => t.master i = m) = t.list.countP fun i => s.master i = m :=
    List.countP_congr fun i _ => by rw [h.master]
  rw [ht.expecting, hs.expecting, hm]
  exact h.list.countP_le

theorem Unlinked.shrinks (h : Unlinked s t i) (hs : Refs s) : Shrinks s t := by
  refine ⟨h.expect, h.list ▸ List.erase_sublist, fun j hj => .inl ?_⟩
  rw [h.list, hs.nodup.mem_erase_iff] at hj
  rw [h.timer, Function.update_of_ne hj.1]

theorem drop_shrinks (hs : Refs s) (hi : i ∈ s.list) : Shrinks s (s.drop i) :=
  (drop_unlinked hs hi).shrinks hs

theorem dropIf_shrinks (p : State → ℕ → Bool) (hs : Refs s) (i : ℕ) :
    Shrinks s (dropIf p s i) := by
  simp only [dropIf]
  split
  · rename_i h
    exact drop_shrinks hs (hs.mem_of_pending h.2)
  · exact Shrinks.refl s

theorem dropAll_shrinks (p : State → ℕ → Bool) (hs : Refs s) (l : List ℕ) :
    Shrinks s (l.foldl (dropIf p) s) := by
  have h : Refs (l.foldl (dropIf p) s) ∧ Shrinks s (l.foldl (dropIf p) s) := by
    apply GuardedRun.foldl_invariant (I := fun t => Refs t ∧ Shrinks s t)
    · exact fun t i h => ⟨dropIf_keeps p h.1 i, h.2.trans (dropIf_shrinks p h.1 i)⟩
    · exact ⟨hs, Shrinks.refl s⟩
  exact h.2

theorem dropAll_helper (p : State → ℕ → Bool) (s : State) (l : List ℕ) :
    (l.foldl (dropIf p) s).helper = s.helper := by
  have hstep (t : State) (i : ℕ) (h : t.helper = s.helper) : (dropIf p t i).helper = s.helper := by
    simp only [dropIf]
    split <;> exact h
  exact GuardedRun.foldl_invariant (I := fun t : State => t.helper = s.helper) hstep rfl

theorem drop_timer (s : State) (i : ℕ) : (s.drop i).timer = Function.update s.timer i .idle :=
  rfl

theorem dropIf_timer {p : State → ℕ → Bool} (h : p s i = true) :
    (dropIf p s i).timer i ≠ .pending := by
  simp only [dropIf]
  split
  · simp [drop_timer]
  · rename_i ht
    exact fun hp => ht ⟨h, hp⟩

theorem dropAll_not_pending (p : State → ℕ → Bool) (l : List ℕ) (hi : s.timer i ≠ .pending) :
    (l.foldl (dropIf p) s).timer i ≠ .pending := by
  have hstep (t : State) (j : ℕ) (h : t.timer i ≠ .pending) :
      (dropIf p t j).timer i ≠ .pending := by
    simp only [dropIf]
    split
    · by_cases hj : i = j
      · simp [drop_timer, hj]
      · simpa [drop_timer, hj] using h
    · exact h
  exact GuardedRun.foldl_invariant (I := fun t : State => t.timer i ≠ .pending) hstep hi

/-- None of the kind is left that is not dying, where the kind is read off what a drop leaves. -/
theorem dropAll_sweeps {p : State → ℕ → Bool} (hp : ∀ s j i, p (s.drop j) i = p s i)
    {l : List ℕ} (hi : i ∈ l) (h : p s i = true) :
    (l.foldl (dropIf p) s).timer i ≠ .pending := by
  induction l generalizing s with
  | nil => cases hi
  | cons j l ih =>
    have hkind : p (dropIf p s j) i = true := by
      simp only [dropIf]
      split
      · exact (hp s j i).trans h
      · exact h
    rcases List.mem_cons.mp hi with rfl | hi
    · exact dropAll_not_pending p l (dropIf_timer h)
    · exact ih hi hkind

theorem remove_shrinks (hs : Refs s) (ct : ℕ) : Shrinks s (ipCtRemoveExpectations s ct) := by
  simp only [ipCtRemoveExpectations]
  split
  · exact Shrinks.refl s
  · exact dropAll_shrinks _ hs _

theorem unexpect_shrinks (hs : Refs s) (exp : Expect) :
    Shrinks s (ipConntrackUnexpectRelated s exp) := by
  simp only [ipConntrackUnexpectRelated]
  split
  · rename_i i hi
    have hp := List.find?_some hi
    simp only [Bool.and_eq_true, decide_eq_true_eq] at hp
    exact drop_shrinks hs (hs.mem_of_pending hp.2)
  · exact Shrinks.refl s

theorem find_shrinks (hs : Refs s) (tuple : Tuple) :
    Shrinks s (State.hold (findExpectation s tuple s.list)) := by
  rcases findExpectation_cases s tuple s.list with h | ⟨i, hi, -, -, ⟨-, h⟩ | ⟨-, -, h⟩⟩
  · exact h ▸ Shrinks.refl s
  · exact h ▸ ⟨rfl, List.Sublist.refl _, fun _ _ => .inl rfl⟩
  · exact h ▸ (met_unlinked hs hi).shrinks hs

theorem lookup_shrinks (s : State) (tuple : Tuple) :
    Shrinks s (State.hold (ipConntrackExpectFind s tuple)) := by
  simp only [ipConntrackExpectFind]
  split
  · exact ⟨rfl, List.Sublist.refl _, fun _ _ => .inl rfl⟩
  · exact Shrinks.refl s

theorem expire_shrinks (maxExpected : ℕ → ℕ) (s : State) (i : ℕ) :
    Shrinks s (step maxExpected s (.expire i)) := by
  simp only [step]
  split
  · rename_i hp
    refine ⟨rfl, List.Sublist.refl _, fun j _ => ?_⟩
    by_cases hj : j = i
    · subst j
      exact .inr ⟨hp, Function.update_self ..⟩
    · exact .inl (Function.update_of_ne hj ..)
  · exact Shrinks.refl s

/-- Whether the event enters an expectation, or fills in a new one. -/
def Event.enters : Event → Bool
  | .alloc _ _ | .related _ => true
  | .put _ | .unexpect _ | .find _ | .lookup _ | .expire _ | .timedOut _ | .remove _
  | .unregister _ | .confirm _ | .help _ _ => false

theorem step_shrinks (maxExpected : ℕ → ℕ) (hs : Refs s) {e : Event} (he : e.enters = false) :
    Shrinks s (step maxExpected s e) := by
  cases e with
  | alloc i exp => cases he
  | related i => cases he
  | put i => exact ⟨rfl, List.Sublist.refl _, fun _ _ => .inl rfl⟩
  | unexpect i => exact unexpect_shrinks hs _
  | find tuple => exact find_shrinks hs tuple
  | lookup tuple => exact lookup_shrinks s tuple
  | expire i => exact expire_shrinks maxExpected s i
  | timedOut i =>
    simp only [step]
    split
    · rename_i hr
      exact drop_shrinks hs ((hs.timer i).mpr (by simp [hr]))
    · exact Shrinks.refl s
  | remove ct => exact remove_shrinks hs ct
  | unregister me =>
    have h := dropAll_shrinks (fun s i => s.helper (s.master i) = some me) hs s.list
    exact ⟨h.expect, h.list, h.timer⟩
  | confirm ct => exact ⟨rfl, List.Sublist.refl _, fun _ _ => .inl rfl⟩
  | help ct me =>
    simp only [step]
    split
    · exact ⟨rfl, List.Sublist.refl _, fun _ _ => .inl rfl⟩
    · exact Shrinks.refl s

end Shrinks

section Live

variable {maxExpected : ℕ → ℕ} {s t : State} {i : ℕ} {e : Event}

theorem Refs.expecting_pos (hs : Refs s) (hi : i ∈ s.list) : 0 < s.expecting (s.master i) := by
  rw [hs.expecting]
  exact List.countP_pos_iff.mpr ⟨i, hi, by simp⟩

/-- A connection gets another helper only while it expects nothing, and loses its own only with
the expectations that are not dying. -/
theorem step_helper (maxExpected : ℕ → ℕ) (hs : Refs s) (he : e.enters = false) (m : ℕ) :
    (step maxExpected s e).helper m = s.helper m ∨ s.expecting m = 0 ∨
      (step maxExpected s e).helper m = none ∧
        ∀ i, s.master i = m → (step maxExpected s e).timer i ≠ .pending := by
  cases e with
  | alloc i exp => cases he
  | related i => cases he
  | put i => exact .inl rfl
  | unexpect i =>
    simp only [step, ipConntrackUnexpectRelated]
    split <;> exact .inl rfl
  | find tuple =>
    simp only [step]
    rcases findExpectation_cases s tuple s.list with h | ⟨i, -, -, -, ⟨-, h⟩ | ⟨-, -, h⟩⟩
    all_goals exact h ▸ .inl rfl
  | lookup tuple =>
    simp only [step, ipConntrackExpectFind]
    split <;> exact .inl rfl
  | expire i =>
    simp only [step]
    split <;> exact .inl rfl
  | timedOut i =>
    simp only [step]
    split <;> exact .inl rfl
  | remove ct =>
    simp only [step, ipCtRemoveExpectations]
    split
    · exact .inl rfl
    · exact .inl (congrFun (dropAll_helper _ s s.list) m)
  | unregister me =>
    simp only [step, ipConntrackHelperUnregister, dropAll_helper]
    split
    · rename_i hm
      refine .inr (.inr ⟨rfl, fun i hi hp => ?_⟩)
      have hkept := dropAll_shrinks (fun s i => s.helper (s.master i) = some me) hs s.list
      have hin := hs.mem_of_pending (hkept.pending (dropAll_keeps _ hs s.list) hp)
      exact dropAll_sweeps (fun _ _ _ => rfl) hin (by simpa [hi] using hm) hp
    · exact .inl rfl
  | confirm ct => exact .inl rfl
  | help ct me =>
    simp only [step]
    split
    · rename_i hc
      by_cases hm : m = ct
      · exact .inr (.inl (hm ▸ hc))
      · exact .inl (Function.update_of_ne hm ..)
    · exact .inl rfl

/-- Expectations that are not dying meet no tuple in common, and their connections have
helpers. -/
structure Live (s : State) : Prop where
  apart : ∀ i j, i ≠ j → s.timer i = .pending → s.timer j = .pending →
    expectClash (s.expect i) (s.expect j) = false
  helped : ∀ i, s.timer i = .pending → s.helper (s.master i) ≠ none

theorem expectClash_symm {a b : Expect} (h : expectClash a b = false) :
    expectClash b a = false := by
  rw [← Bool.not_eq_true, expectClash_iff] at h ⊢
  exact fun ⟨t, hb, ha⟩ => h ⟨t, ha, hb⟩

theorem relatedLoop_apart {exp : Expect} {l : List ℕ} (h : relatedLoop s exp l = none) :
    ∀ j ∈ l, s.timer j = .pending → expectClash (s.expect j) exp = false := by
  induction l with
  | nil => nofun
  | cons k l ih =>
    intro j hj hp
    rw [relatedLoop] at h
    split at h
    · split at h
      · cases h
      · rename_i hk
        rcases List.mem_cons.mp hj with rfl | hj
        · exact absurd hp hk
        · exact ih h j hj hp
    · split at h
      · cases h
      · rename_i hk
        rcases List.mem_cons.mp hj with rfl | hj
        · exact Bool.eq_false_iff.mpr hk
        · exact ih h j hj hp

theorem insert_live (ht : Live t) (hi : t.timer i = .idle)
    (hapart : ∀ j, t.timer j = .pending → expectClash (t.expect j) (t.expect i) = false)
    (hhelp : t.helper (t.master i) ≠ none) : Live (ipConntrackExpectInsert t i) := by
  have hpending (j : ℕ) (h : (ipConntrackExpectInsert t i).timer j = .pending) :
      j = i ∨ t.timer j = .pending := by
    by_cases hj : j = i
    · exact .inl hj
    · exact .inr (by simpa [ipConntrackExpectInsert, hj] using h)
  constructor
  · intro j k hjk hj hk
    rcases hpending j hj with rfl | hj'
    · rcases hpending k hk with rfl | hk'
      · exact absurd rfl hjk
      · exact expectClash_symm (hapart k hk')
    · rcases hpending k hk with rfl | hk'
      · exact hapart j hj'
      · exact ht.apart j k hjk hj' hk'
  · intro j hj
    rcases hpending j hj with rfl | hj
    · exact hhelp
    · exact ht.helped j hj

theorem Shrinks.live (h : Shrinks s t) (ht : Refs t) (hs : Live s)
    (hhelp : ∀ i, t.timer i = .pending → t.helper (s.master i) ≠ none) : Live t := by
  constructor
  · intro i j hij hi hj
    rw [h.expect]
    exact hs.apart i j hij (h.pending ht hi) (h.pending ht hj)
  · intro i hi
    rw [h.master]
    exact hhelp i hi

theorem drop_live (hr : Refs s) (hs : Live s) (hi : s.timer i = .pending) : Live (s.drop i) := by
  have hin := hr.mem_of_pending hi
  have hshrinks := drop_shrinks hr hin
  have hkeeps := drop_keeps hr hin
  exact hshrinks.live hkeeps hs fun j hj => hs.helped j (hshrinks.pending hkeeps hj)

theorem related_live (hr : Refs s) (hs : Live s) (hi : s.timer i = .idle)
    (hhelp : s.helper (s.master i) ≠ none) :
    Live (ipConntrackExpectRelated maxExpected s i).1 := by
  rcases related_cases maxExpected s i with ⟨ret, -, h⟩ | ⟨hl, t, rfl | ⟨j, hj, -, rfl⟩, h⟩
  · exact h ▸ hs
  · exact h ▸ insert_live hs hi
      (fun k hk => relatedLoop_apart hl k (hr.mem_of_pending hk) hk) hhelp
  · have hin := hr.mem_of_pending hj
    have hold (k : ℕ) (hk : (s.drop j).timer k = .pending) : s.timer k = .pending :=
      (drop_shrinks hr hin).pending (drop_keeps hr hin) hk
    have hij : i ≠ j := by
      rintro rfl
      rw [hi] at hj
      cases hj
    refine h ▸ insert_live (drop_live hr hs hj) ?_ (fun k hk => ?_) hhelp
    · rw [drop_timer, Function.update_of_ne hij, hi]
    · exact relatedLoop_apart hl k (hr.mem_of_pending (hold k hk)) (hold k hk)

theorem step_live (maxExpected : ℕ → ℕ) (hr : Refs s) (hs : Live s) (he : Proper s e) :
    Live (step maxExpected s e) := by
  by_cases henters : e.enters = false
  · have hshrinks := step_shrinks maxExpected hr henters
    have hkeeps := step_refs maxExpected hr he
    refine hshrinks.live hkeeps hs fun i hi => ?_
    have hp := hshrinks.pending hkeeps hi
    rcases step_helper maxExpected hr henters (s.master i) with h | h | ⟨-, h⟩
    · rw [h]
      exact hs.helped i hp
    · exact absurd h (Nat.ne_of_gt (hr.expecting_pos (hr.mem_of_pending hp)))
    · exact absurd hi (h i rfl)
  · cases e with
    | alloc i exp =>
      have hfree (j : ℕ) (hj : s.timer j = .pending) : j ≠ i := by
        rintro rfl
        have := hr.listed j (hr.mem_of_pending hj)
        have : s.use j = 0 := he
        omega
      constructor
      · intro j k hjk hj hk
        simpa [step, hfree j hj, hfree k hk] using hs.apart j k hjk hj hk
      · intro j hj
        simpa [step, State.master, hfree j hj] using hs.helped j hj
    | related i => exact related_live hr hs he.2.1 he.2.2
    | put | unexpect | find | lookup | expire | timedOut | remove | unregister | confirm | help =>
      exact absurd rfl henters

theorem live_initial : Live initial := ⟨nofun, nofun⟩

theorem run_live {es : List Event}
    (hes : GuardedRun.Along (step maxExpected) Proper initial es) :
    Live (es.foldl (step maxExpected) initial) := by
  have hstep (s : State) (e : Event) (h : Refs s ∧ Live s) (he : Proper s e) :
      Refs (step maxExpected s e) ∧ Live (step maxExpected s e) :=
    ⟨step_refs maxExpected h.1 he, step_live maxExpected h.1 h.2 he⟩
  exact (GuardedRun.foldl_keeps hstep ⟨refs_initial, live_initial⟩ hes).2

/-- In every run a tuple meets one expectation at most that is not dying, and the connection of
such an expectation has a helper, from which its timer can be started anew. -/
theorem live_expectations (maxExpected : ℕ → ℕ) (es : List Event)
    (hes : GuardedRun.Along (step maxExpected) Proper initial es) :
    let s := es.foldl (step maxExpected) initial
    (∀ tuple i j, s.timer i = .pending → s.timer j = .pending →
      ipCtTupleMaskCmp tuple (s.expect i).tuple (s.expect i).mask = true →
      ipCtTupleMaskCmp tuple (s.expect j).tuple (s.expect j).mask = true → i = j) ∧
      ∀ i, s.timer i = .pending → s.helper (s.master i) ≠ none := by
  intro s
  have hs : Live s := run_live hes
  refine ⟨fun tuple i j hi hj hti htj => ?_, hs.helped⟩
  by_contra hij
  have hclash : expectClash (s.expect i) (s.expect j) = true := expectClash_iff.mpr ⟨tuple, hti, htj⟩
  rw [hs.apart i j hij hi hj] at hclash
  cases hclash

/-- One that is expected a second time is entered again when the first is dying. -/
theorem live_expectations_two :
    let exp : Expect := ⟨⟨1, 2, 3, 4, 6⟩, ⟨0xffffffff, 0, 0xffffffff, 0xffff, 0xff⟩, 7, true⟩
    let es : List Event := [.help 7 (some 0), .confirm 7, .alloc 0 exp, .related 0, .alloc 1 exp,
      .related 1, .expire 0, .related 1]
    let s := es.foldl (step fun _ => 0) initial
    s.list = [1, 0] ∧ s.timer 1 = .pending ∧ s.helper 7 = some 0 ∧
      ∀ i, s.timer i = .pending → ipCtTupleMaskCmp ⟨1, 2, 3, 4, 6⟩ (s.expect i).tuple
        (s.expect i).mask = true → i = 1 := by
  intro exp es s
  have h := live_expectations (fun _ => 0) es (by decide)
  have h1 : s.timer 1 = .pending := by decide
  exact ⟨by decide, h1, by decide, fun i hi ht => h.1 _ i 1 hi h1 ht (by decide)⟩

end Live

section Removed

variable {maxExpected : ℕ → ℕ} {s t : State} {ct i : ℕ} {e : Event}

def Apart (ct : ℕ) (s : State) : Event → Prop
  | .related i => s.master i ≠ ct
  | _ => True

instance (ct : ℕ) (s : State) : (e : Event) → Decidable (Apart ct s e)
  | .related _ => inferInstanceAs (Decidable (_ ≠ _))
  | .alloc _ _ | .put _ | .unexpect _ | .find _ | .lookup _ | .expire _ | .timedOut _ | .remove _
  | .unregister _ | .confirm _ | .help _ _ => inferInstanceAs (Decidable True)

/-- What the connection still has was dying in `s` and is still dying. -/
def OnlyDying (s : State) (ct : ℕ) (t : State) : Prop :=
  ∀ i ∈ t.list, t.master i = ct →
    i ∈ s.list ∧ s.master i = ct ∧ s.timer i = .running ∧ t.timer i = .running

theorem Refs.running (hs : Refs s) (hi : i ∈ s.list) (h : s.timer i ≠ .pending) :
    s.timer i = .running := by
  have hidle := (hs.timer i).mp hi
  cases ht : s.timer i with
  | idle => exact absurd ht hidle
  | pending => exact absurd ht h
  | running => rfl

theorem dropAll_timer_eq (p : State → ℕ → Bool) (hs : Refs s) (l : List ℕ) :
    ∀ i ∈ (l.foldl (dropIf p) s).list, (l.foldl (dropIf p) s).timer i = s.timer i := by
  have hstep (t : State) (j : ℕ) (h : Refs t ∧ ∀ i ∈ t.list, t.timer i = s.timer i) :
      Refs (dropIf p t j) ∧ ∀ i ∈ (dropIf p t j).list, (dropIf p t j).timer i = s.timer i := by
    refine ⟨dropIf_keeps p h.1 j, fun i hi => ?_⟩
    simp only [dropIf] at hi ⊢
    split
    · rename_i hp
      have hu := drop_unlinked h.1 (h.1.mem_of_pending hp.2)
      rw [if_pos hp, hu.list, h.1.nodup.mem_erase_iff] at hi
      rw [hu.timer, Function.update_of_ne hi.1]
      exact h.2 i hi.2
    · rename_i hp
      rw [if_neg hp] at hi
      exact h.2 i hi
  exact (GuardedRun.foldl_invariant
    (I := fun t : State => Refs t ∧ ∀ i ∈ t.list, t.timer i = s.timer i) hstep
    ⟨hs, fun _ _ => rfl⟩).2

theorem remove_onlyDying (hs : Refs s) (ct : ℕ) :
    OnlyDying s ct (ipCtRemoveExpectations s ct) := by
  have hshrinks := remove_shrinks hs ct
  intro i hi hm
  have hin : i ∈ s.list := hshrinks.list.subset hi
  have hms : s.master i = ct := (hshrinks.master i).symm.trans hm
  have hloop : ipCtRemoveExpectations s ct =
      s.list.foldl (dropIf fun s i => s.master i = ct) s :=
    if_neg (Nat.ne_of_gt (hms ▸ hs.expecting_pos hin))
  have hrunning : (ipCtRemoveExpectations s ct).timer i = .running := by
    refine (remove_keeps hs ct).running hi ?_
    rw [hloop]
    exact dropAll_sweeps (fun _ _ _ => rfl) hin (by simpa using hms)
  have hsame : (ipCtRemoveExpectations s ct).timer i = s.timer i := by
    rw [hloop] at hi ⊢
    exact dropAll_timer_eq _ hs s.list i hi
  exact ⟨hin, hms, hsame ▸ hrunning, hrunning⟩

theorem Shrinks.onlyDying {u : State} (h : Shrinks t u) (ht : OnlyDying s ct t) :
    OnlyDying s ct u := by
  intro i hi hm
  obtain ⟨hin, hms, hrs, hrt⟩ := ht i (h.list.subset hi) ((h.master i).symm.trans hm)
  refine ⟨hin, hms, hrs, ?_⟩
  rcases h.timer i hi with e | ⟨-, hr⟩
  · exact e.trans hrt
  · exact hr

theorem related_onlyDying (hr : Refs t) (ht : OnlyDying s ct t) (hi : t.master i ≠ ct) :
    OnlyDying s ct (ipConntrackExpectRelated maxExpected t i).1 := by
  have hinsert (u : State) (hu : OnlyDying s ct u) (hi : u.master i ≠ ct) :
      OnlyDying s ct (ipConntrackExpectInsert u i) := by
    intro j hj hm
    have hji : j ≠ i := by
      rintro rfl
      exact hi hm
    obtain ⟨hin, hms, hrs, hrt⟩ := hu j ((List.mem_cons.mp hj).resolve_left hji) hm
    exact ⟨hin, hms, hrs, (Function.update_of_ne hji ..).trans hrt⟩
  rcases related_cases maxExpected t i with ⟨ret, -, h⟩ | ⟨-, u, rfl | ⟨j, hj, -, rfl⟩, h⟩
  · exact h ▸ ht
  · exact h ▸ hinsert _ ht hi
  · exact h ▸ hinsert _ ((drop_shrinks hr (hr.mem_of_pending hj)).onlyDying ht) hi

theorem step_onlyDying (maxExpected : ℕ → ℕ) (hr : Refs t) (ht : OnlyDying s ct t)
    (he : Proper t e) (ha : Apart ct t e) : OnlyDying s ct (step maxExpected t e) := by
  by_cases henters : e.enters = false
  · exact (step_shrinks maxExpected hr henters).onlyDying ht
  · cases e with
    | alloc i exp =>
      intro j hj hm
      have hji : j ≠ i := by
        rintro rfl
        have := hr.listed j hj
        have : t.use j = 0 := he
        omega
      exact ht j hj (by simpa [step, State.master, hji] using hm)
    | related i => exact related_onlyDying hr ht ha
    | put | unexpect | find | lookup | expire | timedOut | remove | unregister | confirm | help =>
      exact absurd rfl henters

/-- Once its expectations have been removed, a connection for which no more are entered keeps
those alone that were dying already, however the run goes on; it counts no others, and a packet
is related to it through a permanent one only. -/
theorem removed_for_good (maxExpected : ℕ → ℕ) (es fs : List Event) (ct : ℕ)
    (hes : GuardedRun.Along (step maxExpected) Proper initial es)
    (hfs : GuardedRun.Along (step maxExpected) (fun s e => Proper s e ∧ Apart ct s e)
      (ipCtRemoveExpectations (es.foldl (step maxExpected) initial) ct) fs) :
    let s := es.foldl (step maxExpected) initial
    let t := fs.foldl (step maxExpected) (ipCtRemoveExpectations s ct)
    (∀ i ∈ t.list, t.master i = ct → i ∈ s.list ∧ s.timer i = .running ∧ t.timer i = .running) ∧
      t.expecting ct ≤ s.list.countP (fun i => s.master i = ct ∧ s.timer i = .running) ∧
      ∀ tuple i, (findExpectation t tuple t.list).2 = some i → t.master i = ct →
        (t.expect i).permanent = true := by
  intro s t
  have hs : Refs s := run_refs hes
  have hstep (u : State) (e : Event) (h : Refs u ∧ OnlyDying s ct u)
      (he : Proper u e ∧ Apart ct u e) :
      Refs (step maxExpected u e) ∧ OnlyDying s ct (step maxExpected u e) :=
    ⟨step_refs maxExpected h.1 he.1, step_onlyDying maxExpected h.1 h.2 he.1 he.2⟩
  obtain ⟨ht, honly⟩ : Refs t ∧ OnlyDying s ct t :=
    GuardedRun.foldl_keeps hstep ⟨remove_keeps hs ct, remove_onlyDying hs ct⟩ hfs
  refine ⟨fun i hi hm => ?_, ?_, fun tuple i hfound hm => ?_⟩
  · obtain ⟨hin, -, hrs, hrt⟩ := honly i hi hm
    exact ⟨hin, hrs, hrt⟩
  · rw [ht.expecting, List.countP_eq_length_filter, List.countP_eq_length_filter]
    refine (List.Nodup.subperm (ht.nodup.filter _) fun i hi => ?_).length_le
    obtain ⟨hi, hm⟩ := List.mem_filter.mp hi
    obtain ⟨hin, hms, hrs, -⟩ := honly i hi (by simpa using hm)
    exact List.mem_filter.mpr ⟨hin, by simp [hms, hrs]⟩
  · rcases findExpectation_cases t tuple t.list with h | ⟨j, hj, -, -, ⟨hp, h⟩ | ⟨-, hp, h⟩⟩
    · rw [h] at hfound
      cases hfound
    · rw [h] at hfound
      cases hfound
      exact hp
    · rw [h] at hfound
      cases hfound
      rw [(honly i hj hm).2.2.2] at hp
      cases hp

/-- A permanent expectation of a connection that has gone is met while its handler waits. -/
theorem removed_for_good_one :
    let exp : Expect := ⟨⟨1, 2, 3, 4, 6⟩, ⟨0xffffffff, 0, 0xffffffff, 0xffff, 0xff⟩, 7, true⟩
    let es : List Event := [.help 7 (some 0), .confirm 7, .alloc 0 exp, .related 0, .expire 0]
    let fs : List Event := [.find ⟨1, 5, 3, 4, 6⟩]
    let s := es.foldl (step fun _ => 0) initial
    let t := fs.foldl (step fun _ => 0) (ipCtRemoveExpectations s 7)
    t.expecting 7 = 1 ∧ t.list = [0] ∧ t.timer 0 = .running ∧
      (findExpectation t ⟨1, 5, 3, 4, 6⟩ t.list).2 = some 0 := by
  intro exp es fs s t
  have h := removed_for_good (fun _ => 0) es fs 7 (by decide) (by decide)
  have hl : t.list = [0] := by decide
  exact ⟨by decide, hl, (h.1 0 (hl ▸ List.mem_singleton_self 0) (by decide)).2.2, by decide⟩

end Removed

section Limit

variable {maxExpected : ℕ → ℕ} {s t : State} {i : ℕ} {e : Event}

/-- The limit of the connection's helper, 0 for none. -/
def limit (maxExpected : ℕ → ℕ) (s : State) (m : ℕ) : ℕ := ((s.helper m).map maxExpected).getD 0

def Within (maxExpected : ℕ → ℕ) (s : State) : Prop :=
  ∀ m, limit maxExpected s m ≠ 0 → s.expecting m ≤ limit maxExpected s m

def oldest (s : State) (m : ℕ) : Option ℕ := s.list.reverse.find? fun i => s.master i = m

/-- Where the limit is reached, the oldest expectation is not dying. -/
def Spares (maxExpected : ℕ → ℕ) (s : State) : Event → Prop
  | .related i => relatedLoop s (s.expect i) s.list = none → limit maxExpected s (s.master i) ≠ 0 →
      limit maxExpected s (s.master i) ≤ s.expecting (s.master i) →
      ∀ j ∈ oldest s (s.master i), s.timer j = .pending
  | _ => True

theorem Shrinks.within (h : Shrinks s t) (hr : Refs s) (ht : Refs t) (hs : Within maxExpected s)
    (hhelper : ∀ m, t.helper m = s.helper m ∨ s.expecting m = 0 ∨ t.helper m = none) :
    Within maxExpected t := by
  intro m hm
  have hle := h.expecting_le hr ht m
  rcases hhelper m with e | e | e
  · have hlimit : limit maxExpected t m = limit maxExpected s m := by rw [limit, limit, e]
    rw [hlimit] at hm ⊢
    exact Nat.le_trans hle (hs m hm)
  · rw [e] at hle
    exact Nat.le_trans hle (Nat.zero_le _)
  · exact absurd (by rw [limit, e]; rfl) hm

/-- Another expectation fits exactly when the limit was not reached yet. -/
theorem insert_within_iff (ht : ∀ m, m ≠ t.master i → limit maxExpected t m ≠ 0 →
    t.expecting m ≤ limit maxExpected t m) : Within maxExpected (ipConntrackExpectInsert t i) ↔
    (limit maxExpected t (t.master i) ≠ 0 →
      t.expecting (t.master i) < limit maxExpected t (t.master i)) := by
  have hself : (ipConntrackExpectInsert t i).expecting (t.master i) =
      t.expecting (t.master i) + 1 := Function.update_self ..
  constructor
  · intro h hm
    have hle := h (t.master i) hm
    rw [hself] at hle
    exact hle
  · intro h m hm
    by_cases hmi : m = t.master i
    · subst m
      rw [hself]
      exact h hm
    · calc (ipConntrackExpectInsert t i).expecting m = t.expecting m := Function.update_of_ne hmi ..
        _ ≤ limit maxExpected t m := ht m hmi hm

theorem exists_oldest (hs : Refs s) {m : ℕ} (hm : 0 < s.expecting m) :
    ∃ j ∈ s.list, s.master j = m ∧ oldest s m = some j := by
  rw [hs.expecting, List.countP_pos_iff] at hm
  obtain ⟨k, hk, hkm⟩ := hm
  have hsome : (oldest s m).isSome := by
    rw [oldest, List.find?_isSome]
    exact ⟨k, List.mem_reverse.mpr hk, hkm⟩
  obtain ⟨j, hj⟩ := Option.isSome_iff_exists.mp hsome
  have hjm := List.find?_some hj
  exact ⟨j, List.mem_reverse.mp (List.mem_of_find?_eq_some hj), by simpa using hjm, hj⟩

theorem related_within_iff (hr : Refs s) (hs : Within maxExpected s) :
    Within maxExpected (ipConntrackExpectRelated maxExpected s i).1 ↔
      Spares maxExpected s (.related i) := by
  have hothers (m : ℕ) (_ : m ≠ s.master i) (hm : limit maxExpected s m ≠ 0) := hs m hm
  simp only [ipConntrackExpectRelated, Spares]
  cases hl : relatedLoop s (s.expect i) s.list with
  | some ret => simpa using hs
  | none =>
    simp only [forall_true_left]
    change Within maxExpected (ipConntrackExpectInsert (if limit maxExpected s (s.master i) ≠ 0 ∧
      limit maxExpected s (s.master i) ≤ s.expecting (s.master i)
        then evictOldestExpect s (s.master i) else s) i) ↔ _
    by_cases hfull : limit maxExpected s (s.master i) ≠ 0 ∧
        limit maxExpected s (s.master i) ≤ s.expecting (s.master i)
    · obtain ⟨hpos, hreached⟩ := hfull
      have hone : 0 < s.expecting (s.master i) := Nat.lt_of_lt_of_le (Nat.pos_of_ne_zero hpos) hreached
      obtain ⟨j, hj, hjm, hold⟩ := exists_oldest hr hone
      rw [if_pos ⟨hpos, hreached⟩]
      have hevict : evictOldestExpect s (s.master i) =
          if s.timer j = .pending then s.drop j else s := by
        rw [oldest] at hold
        simp only [evictOldestExpect, hold]
      rw [hevict]
      by_cases hp : s.timer j = .pending
      · rw [if_pos hp]
        have hdrop (m : ℕ) (hm : m ≠ s.master i) :
            (s.drop j).expecting m = s.expecting m := by
          rw [(drop_unlinked hr hj).expecting, hjm, Function.update_of_ne hm]
        have hself : (s.drop j).expecting (s.master i) = s.expecting (s.master i) - 1 := by
          rw [(drop_unlinked hr hj).expecting, hjm, Function.update_self]
        refine iff_of_true ?_ fun _ _ k hk => ?_
        · refine (insert_within_iff fun m hm hlim => ?_).mpr fun hlim => ?_
          · rw [hdrop m hm]
            exact hs m hlim
          · have hle := hs (s.master i) hpos
            calc (s.drop j).expecting (s.master i) < s.expecting (s.master i) := by omega
              _ ≤ limit maxExpected s (s.master i) := hle
        · rw [hold] at hk
          cases hk
          exact hp
      · rw [if_neg hp]
        refine iff_of_false ?_ fun h => hp (h hpos hreached j hold)
        rw [insert_within_iff hothers]
        exact fun h => absurd (h hpos) (Nat.not_lt.mpr hreached)
    · rw [if_neg hfull, insert_within_iff hothers]
      have hroom : limit maxExpected s (s.master i) ≠ 0 →
          s.expecting (s.master i) < limit maxExpected s (s.master i) :=
        fun h => Nat.not_le.mp fun hle => hfull ⟨h, hle⟩
      exact iff_of_true hroom fun hpos hreached => absurd ⟨hpos, hreached⟩ hfull

theorem step_within_iff (hr : Refs s) (hs : Within maxExpected s) (he : Proper s e) :
    Within maxExpected (step maxExpected s e) ↔ Spares maxExpected s e := by
  by_cases henters : e.enters = false
  · have hkeeps := step_refs maxExpected hr he
    have hwithin : Within maxExpected (step maxExpected s e) :=
      (step_shrinks maxExpected hr henters).within hr hkeeps hs fun m =>
        (step_helper maxExpected hr henters m).imp_right fun h => h.imp_right fun h => h.1
    cases e with
    | related i => cases henters
    | alloc | put | unexpect | find | lookup | expire | timedOut | remove | unregister | confirm
    | help => exact iff_of_true hwithin trivial
  · cases e with
    | alloc i exp => exact iff_of_true hs trivial
    | related i => exact related_within_iff hr hs
    | put | unexpect | find | lookup | expire | timedOut | remove | unregister | confirm | help =>
      exact absurd rfl henters

/-- A connection never expects more than its helper allows exactly when none is entered at the
limit while the oldest is dying. -/
theorem within_limit_iff (maxExpected : ℕ → ℕ) (es : List Event) :
    GuardedRun.Along (step maxExpected)
      (fun s e => Proper s e ∧ Within maxExpected (step maxExpected s e)) initial es ↔
    GuardedRun.Along (step maxExpected)
      (fun s e => Proper s e ∧ Spares maxExpected s e) initial es := by
  apply GuardedRun.along_iff (I := fun s => Refs s ∧ Within maxExpected s)
  · exact fun s e h he => ⟨step_refs maxExpected h.1 he.1, (step_within_iff h.1 h.2 he.1).mpr he.2⟩
  · exact fun s e h => and_congr_right fun he => step_within_iff h.1 h.2 he
  · exact ⟨refs_initial, fun m h => Nat.zero_le _⟩

end Limit

end Expectations
