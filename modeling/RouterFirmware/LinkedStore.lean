import RouterFirmware.GuardedRun
import Mathlib.Data.List.Basic
import Mathlib.Logic.Function.Basic

/-! # Load-linked and store-conditional

Cores share a word of memory. A load-linked gives its core a link to the word, any store to
the word takes every link away, and a core can lose its link at any other time as well; a
store-conditional stores only while the link of its core stands.

A call on the word is a loop of passes, each a load-linked and a store-conditional, or one
plain store. The calls of all cores, however their steps interleave, have the effects and the
results they would have one after another in the order in which they end. -/
namespace LinkedStore

variable {Core Call α β : Type} [DecidableEq Core]

structure Word (Core α : Type) where
  value : α
  linked : Core → Bool

def Word.loadLinked (w : Word Core α) (c : Core) : Word Core α :=
  { w with linked := Function.update w.linked c true }

def Word.unlink (w : Word Core α) (c : Core) : Word Core α :=
  { w with linked := Function.update w.linked c false }

def Word.store (w : Word Core α) (v : α) : Word Core α :=
  { w with value := v, linked := fun _ => false }

section Word

omit [DecidableEq Core] in
@[simp] theorem store_value (w : Word Core α) (v : α) : (w.store v).value = v := rfl

omit [DecidableEq Core] in
@[simp] theorem store_linked (w : Word Core α) (v : α) (c : Core) :
    (w.store v).linked c = false := rfl

@[simp] theorem loadLinked_value (w : Word Core α) (c : Core) :
    (w.loadLinked c).value = w.value := rfl

@[simp] theorem unlink_value (w : Word Core α) (c : Core) : (w.unlink c).value = w.value := rfl

@[simp] theorem loadLinked_self (w : Word Core α) (c : Core) :
    (w.loadLinked c).linked c = true := by
  simp [Word.loadLinked]

theorem loadLinked_of_ne (w : Word Core α) {c d : Core} (h : d ≠ c) :
    (w.loadLinked c).linked d = w.linked d := by
  simp [Word.loadLinked, h]

theorem linked_of_unlink {w : Word Core α} {c d : Core} (h : (w.unlink c).linked d = true) :
    w.linked d = true := by
  by_cases hd : d = c
  · simp [Word.unlink, hd] at h
  · simpa [Word.unlink, hd] using h

end Word

/-- What a pass does with the value it has loaded: try again, leave without a store, or try
to store. -/
inductive Pass (α β : Type) where
  | again
  | leave (ret : β)
  | store (new : α) (ret : β)
  deriving DecidableEq, Repr

inductive Body (α β : Type) where
  | loop (pass : α → Pass α β)
  | assign (new : α) (ret : β)

/-- The call carried out in one go: the value it leaves and its result, `none` where it has to
wait. -/
def Body.perform : Body α β → α → Option (α × β)
  | .loop pass, v =>
    match pass v with
    | .again => none
    | .leave ret => some (v, ret)
    | .store new ret => some (new, ret)
  | .assign new ret, _ => some (new, ret)

inductive Stage (α β : Type) where
  | loading
  | storing (new : α) (ret : β)
  deriving DecidableEq, Repr

/-- `log` is the history of the calls that have ended, `began` that of the calls each core has
begun; no call reads them. -/
structure System (Core Call α β : Type) where
  word : Word Core α
  running : Core → Option (Call × Stage α β)
  log : List (Core × Call × β)
  began : Core → List Call

inductive Event (Core Call : Type) where
  | call (c : Core) (o : Call)
  | move (c : Core)
  | unlink (c : Core)

def initial (v : α) : System Core Call α β :=
  ⟨⟨v, fun _ => false⟩, fun _ => none, [], fun _ => []⟩

def System.finish (s : System Core Call α β) (c : Core) (o : Call) (ret : β)
    (w : Word Core α) : System Core Call α β :=
  { s with word := w, running := Function.update s.running c none, log := s.log ++ [(c, o, ret)] }

def System.enter (s : System Core Call α β) (c : Core) (o : Call) (st : Stage α β)
    (w : Word Core α) : System Core Call α β :=
  { s with word := w, running := Function.update s.running c (some (o, st)) }

/-- One instruction of the call that core `c` is in. Only a load that leads to a store needs
its link. -/
def advance (body : Call → Body α β) (s : System Core Call α β) (c : Core) :
    System Core Call α β :=
  match s.running c with
  | none => s
  | some (o, .loading) =>
    match body o with
    | .assign new ret => s.finish c o ret (s.word.store new)
    | .loop pass =>
      match pass s.word.value with
      | .again => s
      | .leave ret => s.finish c o ret s.word
      | .store new ret => s.enter c o (.storing new ret) (s.word.loadLinked c)
  | some (o, .storing new ret) =>
    if s.word.linked c then s.finish c o ret (s.word.store new)
    else s.enter c o .loading s.word

def step (body : Call → Body α β) (s : System Core Call α β) : Event Core Call →
    System Core Call α β
  | .call c o =>
    if s.running c = none then
      { s.enter c o .loading s.word with began := Function.update s.began c (s.began c ++ [o]) }
    else s
  | .move c => advance body s c
  | .unlink c => { s with word := s.word.unlink c }

def Replays (body : Call → Body α β) : α → List (Core × Call × β) → α → Prop
  | v, [], w => v = w
  | v, (_, o, ret) :: rest, w =>
    ∃ new, (body o).perform v = some (new, ret) ∧ Replays body new rest w

omit [DecidableEq Core] in
theorem replays_append {body : Call → Body α β} {v w : α} {xs ys : List (Core × Call × β)} :
    Replays body v (xs ++ ys) w ↔ ∃ u, Replays body v xs u ∧ Replays body u ys w := by
  induction xs generalizing v with
  | nil => simp [Replays]
  | cons x xs ih =>
    obtain ⟨c, o, ret⟩ := x
    simp only [List.cons_append, Replays, ih]
    constructor
    · rintro ⟨n, hn, u, hu, hw⟩
      exact ⟨u, ⟨n, hn, hu⟩, hw⟩
    · rintro ⟨u, ⟨n, hn, hu⟩, hw⟩
      exact ⟨n, hn, u, hu, hw⟩

omit [DecidableEq Core] in
theorem replays_snoc {body : Call → Body α β} {v w : α} {xs : List (Core × Call × β)} {c : Core}
    {o : Call} {ret : β} : Replays body v (xs ++ [(c, o, ret)]) w ↔
      ∃ u, Replays body v xs u ∧ (body o).perform u = some (w, ret) := by
  simp [replays_append, Replays]

section Advance

variable (body : Call → Body α β) (s : System Core Call α β) (c : Core)

/-- Everything one instruction can do. A call ends at its plain store, at a load after which it
leaves, or at a store that succeeds. -/
theorem advance_cases : advance body s c = s ∨
    (∃ o new ret w, s.running c = some (o, .loading) ∧
      (body o).perform s.word.value = some (new, ret) ∧ (w = s.word ∨ w = s.word.store new) ∧
      w.value = new ∧ advance body s c = s.finish c o ret w) ∨
    (∃ o new ret, s.running c = some (o, .loading) ∧
      (body o).perform s.word.value = some (new, ret) ∧
      advance body s c = s.enter c o (.storing new ret) (s.word.loadLinked c)) ∨
    (∃ o new ret, s.running c = some (o, .storing new ret) ∧ s.word.linked c = true ∧
      advance body s c = s.finish c o ret (s.word.store new)) ∨
    (∃ o new ret, s.running c = some (o, .storing new ret) ∧ s.word.linked c = false ∧
      advance body s c = s.enter c o .loading s.word) := by
  rcases hr : s.running c with _ | ⟨o, _ | ⟨new, ret⟩⟩
  · exact .inl (by simp only [advance, hr])
  · rcases hb : body o with pass | ⟨new, ret⟩
    · rcases hp : pass s.word.value with _ | ret | ⟨new, ret⟩
      · exact .inl (by simp only [advance, hr, hb, hp])
      · exact .inr (.inl ⟨o, s.word.value, ret, s.word, rfl, by simp [hb, Body.perform, hp],
          .inl rfl, rfl, by simp only [advance, hr, hb, hp]⟩)
      · exact .inr (.inr (.inl ⟨o, new, ret, rfl, by simp [hb, Body.perform, hp],
          by simp only [advance, hr, hb, hp]⟩))
    · exact .inr (.inl ⟨o, new, ret, s.word.store new, rfl, by simp [hb, Body.perform],
        .inr rfl, rfl, by simp only [advance, hr, hb]⟩)
  · cases hl : s.word.linked c with
    | true => exact .inr (.inr (.inr (.inl ⟨o, new, ret, rfl, rfl, by simp [advance, hr, hl]⟩)))
    | false => exact .inr (.inr (.inr (.inr ⟨o, new, ret, rfl, rfl, by simp [advance, hr, hl]⟩)))

end Advance

/-- The state is the one the ended calls lead to one after another; what a core is about to
store is what its call makes of the value that stands there, as long as its link does; and
every core has ended its calls in order, but for the one it is in. -/
structure Linearized (body : Call → Body α β) (v : α) (s : System Core Call α β) : Prop where
  replays : Replays body v s.log s.word.value
  fresh : ∀ c o new ret, s.running c = some (o, .storing new ret) → s.word.linked c = true →
    (body o).perform s.word.value = some (new, ret)
  complete : ∀ c, (s.log.filter fun e => e.1 = c).map (fun e => e.2.1) ++
    ((s.running c).map Prod.fst).toList = s.began c

section Invariant

variable {body : Call → Body α β} {v : α} {s : System Core Call α β}

theorem linearized_initial : Linearized body v (initial v : System Core Call α β) := by
  constructor
  · rfl
  · intro c o new ret h
    cases h
  · intro c
    rfl

theorem finish_keeps (h : Linearized body v s) {c : Core} {o : Call} {st : Stage α β} {new : α}
    {ret : β} {w : Word Core α} (hr : s.running c = some (o, st))
    (hp : (body o).perform s.word.value = some (new, ret))
    (hw : w = s.word ∨ w = s.word.store new) (hv : w.value = new) :
    Linearized body v (s.finish c o ret w) := by
  constructor
  · exact replays_snoc.mpr ⟨s.word.value, h.replays, hv ▸ hp⟩
  · intro d p new' ret' hd hl
    rcases hw with rfl | rfl
    · by_cases hdc : d = c
      · simp [System.finish, hdc] at hd
      · exact h.fresh d p new' ret' (by simpa [System.finish, hdc] using hd) hl
    · cases hl
  · intro d
    by_cases hdc : d = c
    · subst d
      simpa [System.finish, hr] using h.complete c
    · have hcd : ¬ c = d := fun e => hdc e.symm
      simpa [System.finish, hdc, hcd] using h.complete d

theorem enter_keeps (h : Linearized body v s) {c : Core} {o : Call} {st st' : Stage α β}
    {w : Word Core α} (hr : s.running c = some (o, st)) (hv : w.value = s.word.value)
    (hl : ∀ d, d ≠ c → w.linked d = s.word.linked d)
    (hst : ∀ new ret, st' = .storing new ret →
      (body o).perform s.word.value = some (new, ret)) :
    Linearized body v (s.enter c o st' w) := by
  constructor
  · exact hv.symm ▸ h.replays
  · intro d p new ret hd hld
    simp only [System.enter, hv] at hld ⊢
    by_cases hdc : d = c
    · subst d
      simp only [System.enter, Function.update_self, Option.some.injEq, Prod.mk.injEq] at hd
      obtain ⟨rfl, rfl⟩ := hd
      exact hst new ret rfl
    · simp only [System.enter, Function.update_of_ne hdc] at hd
      exact h.fresh d p new ret hd (hl d hdc ▸ hld)
  · intro d
    by_cases hdc : d = c
    · subst d
      simpa [System.enter, hr] using h.complete c
    · simpa [System.enter, hdc] using h.complete d

theorem advance_keeps (h : Linearized body v s) (c : Core) :
    Linearized body v (advance body s c) := by
  rcases advance_cases body s c with he | ⟨o, new, ret, w, hr, hp, hw, hv, he⟩ |
    ⟨o, new, ret, hr, hp, he⟩ | ⟨o, new, ret, hr, hl, he⟩ | ⟨o, new, ret, hr, hl, he⟩
  · rwa [he]
  · exact he ▸ finish_keeps h hr hp hw hv
  · refine he ▸ enter_keeps h hr rfl (fun d hd => loadLinked_of_ne _ hd) ?_
    rintro new' ret' ⟨⟩
    exact hp
  · exact he ▸ finish_keeps h hr (h.fresh c o new ret hr hl) (.inr rfl) rfl
  · exact he ▸ enter_keeps h hr rfl (fun d _ => rfl) nofun

theorem step_keeps (h : Linearized body v s) (e : Event Core Call) :
    Linearized body v (step body s e) := by
  cases e with
  | call c o =>
    simp only [step]
    split
    · rename_i hr
      constructor
      · exact h.replays
      · intro d p new ret hd hl
        by_cases hdc : d = c
        · simp [System.enter, hdc] at hd
        · exact h.fresh d p new ret (by simpa [System.enter, hdc] using hd) hl
      · intro d
        by_cases hdc : d = c
        · subst d
          have hc := h.complete c
          simp only [hr, Option.map_none, Option.toList_none, List.append_nil] at hc
          simp [System.enter, hc]
        · simpa [System.enter, hdc] using h.complete d
    · exact h
  | move c => exact advance_keeps h c
  | unlink c =>
    exact ⟨h.replays, fun d o new ret hd hl => h.fresh d o new ret hd (linked_of_unlink hl),
      h.complete⟩

/-- Calls on one word are linearizable, whatever the interleaving of their instructions. -/
theorem run_linearized (es : List (Event Core Call)) :
    Linearized body v (es.foldl (step body) (initial v : System Core Call α β)) :=
  GuardedRun.foldl_invariant (fun _ e h => step_keeps h e) linearized_initial

/-- Seen from outside a step begins calls, does nothing, or carries out one call at one go. -/
theorem step_performs (h : Linearized body v s) (e : Event Core Call) :
    ((step body s e).log = s.log ∧ (step body s e).word.value = s.word.value ∧
      ∀ c o, ((step body s e).running c).map Prod.fst = some o →
        (s.running c).map Prod.fst = some o ∨ e = .call c o) ∨
    (∃ c o new ret, e = .move c ∧ (s.running c).map Prod.fst = some o ∧
      (body o).perform s.word.value = some (new, ret) ∧
      (step body s e).log = s.log ++ [(c, o, ret)] ∧ (step body s e).word.value = new ∧
      (step body s e).running = Function.update s.running c none) := by
  have entered : ∀ c o st st' w, s.running c = some (o, st) → ∀ d p,
      ((s.enter c o st' w).running d).map Prod.fst = some p →
      (s.running d).map Prod.fst = some p := by
    intro c o st st' w hr d p hd
    by_cases hdc : d = c
    · subst d
      simpa [System.enter, hr] using hd
    · simpa [System.enter, hdc] using hd
  cases e with
  | call c o =>
    left
    simp only [step]
    split
    · refine ⟨rfl, rfl, fun d p hd => ?_⟩
      by_cases hdc : d = c
      · subst d
        simp only [System.enter, Function.update_self, Option.map_some, Option.some.injEq] at hd
        exact .inr (hd ▸ rfl)
      · exact .inl (by simpa [System.enter, hdc] using hd)
    · exact ⟨rfl, rfl, fun d p hd => .inl hd⟩
  | move c =>
    simp only [step]
    rcases advance_cases body s c with he | ⟨o, new, ret, w, hr, hp, -, hv, he⟩ |
      ⟨o, new, ret, hr, -, he⟩ | ⟨o, new, ret, hr, hl, he⟩ | ⟨o, new, ret, hr, -, he⟩
    · exact .inl (by rw [he]; exact ⟨rfl, rfl, fun d p hd => .inl hd⟩)
    · exact .inr ⟨c, o, new, ret, rfl, by rw [hr]; rfl, hp, he ▸ rfl, he ▸ hv, he ▸ rfl⟩
    · exact .inl (by rw [he]; exact ⟨rfl, rfl, fun d p hd => .inl (entered c o _ _ _ hr d p hd)⟩)
    · exact .inr ⟨c, o, new, ret, rfl, by rw [hr]; rfl, h.fresh c o new ret hr hl, he ▸ rfl,
        he ▸ rfl, he ▸ rfl⟩
    · exact .inl (by rw [he]; exact ⟨rfl, rfl, fun d p hd => .inl (entered c o _ _ _ hr d p hd)⟩)
  | unlink c => exact .inl ⟨rfl, rfl, fun d p hd => .inl hd⟩

end Invariant

end LinkedStore
