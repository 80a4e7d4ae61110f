import Mathlib.Data.List.Perm.Subperm
import Mathlib.Tactic.Common

/-! # First come, first served

Items come one after the other. Each brings its name, unless it sees a name that is there already.
The names that are there in the end do not depend on the order exactly if no name can be shadowed:
if some of the items that come cannot keep all the items of another name away.
-/
namespace FirstComers

variable {α β : Type*} (name : α → β) (sees : α → β → Prop) [∀ x b, Decidable (sees x b)]

def enter (L : List β) (x : α) : List β := if ∃ b ∈ L, sees x b then L else name x :: L

def enterAll (L : List β) (l : List α) : List β := l.foldl (enter name sees) L

/-- Items of other names, none of which sees the name of one before it, are seen by each item of
the name `c`. -/
def Shadowed (l : List α) (c : β) : Prop :=
  ∃ ys : List α, (∀ y ∈ ys, y ∈ l) ∧ ys.Pairwise (fun y z => ¬ sees z (name y)) ∧
    (∀ y ∈ ys, name y ≠ c) ∧ ∀ x ∈ l, name x = c → ∃ y ∈ ys, sees x (name y)

variable {name sees} {L : List β} {l l' ys : List α} {x : α} {b c : β}

theorem enter_of_sees (h : ∃ b ∈ L, sees x b) : enter name sees L x = L := if_pos h

theorem enter_of_not (h : ¬ ∃ b ∈ L, sees x b) : enter name sees L x = name x :: L := if_neg h

theorem subset_enterAll (L : List β) (l : List α) : L ⊆ enterAll name sees L l := by
  induction l generalizing L with
  | nil => exact List.Subset.refl L
  | cons x l ih =>
    refine List.Subset.trans ?_ (ih (enter name sees L x))
    rw [enter]
    split
    · exact List.Subset.refl L
    · exact List.subset_cons_self _ _

theorem enterAll_append (L : List β) (l l' : List α) :
    enterAll name sees L (l ++ l') = enterAll name sees (enterAll name sees L l) l' :=
  List.foldl_append

variable (name sees) in
/-- The items that brought their names; each other one sees a name. -/
theorem exists_entered (L : List β) (l : List α) :
    ∃ ys : List α, (∀ y ∈ ys, y ∈ l) ∧ enterAll name sees L l = (ys.map name).reverse ++ L ∧
      ys.Pairwise (fun y z => ¬ sees z (name y)) ∧
      ∀ x ∈ l, x ∈ ys ∨ ∃ b ∈ enterAll name sees L l, sees x b := by
  suffices h : ∃ ys : List α, (∀ y ∈ ys, y ∈ l) ∧
      enterAll name sees L l = (ys.map name).reverse ++ L ∧
      ys.Pairwise (fun y z => ¬ sees z (name y)) ∧ (∀ y ∈ ys, ∀ b ∈ L, ¬ sees y b) ∧
      ∀ x ∈ l, x ∈ ys ∨ ∃ b ∈ enterAll name sees L l, sees x b by
    obtain ⟨ys, hsub, hall, hpair, -, hothers⟩ := h
    exact ⟨ys, hsub, hall, hpair, hothers⟩
  induction l generalizing L with
  | nil => exact ⟨[], by simp, rfl, List.Pairwise.nil, by simp, by simp⟩
  | cons x l ih =>
    obtain ⟨ys, hsub, hall, hpair, hnew, hothers⟩ := ih (enter name sees L x)
    change enterAll name sees L (x :: l) = _ at hall
    by_cases hx : ∃ b ∈ L, sees x b
    · rw [enter_of_sees hx] at hall hnew
      refine ⟨ys, fun y hy => List.mem_cons_of_mem _ (hsub y hy), hall, hpair, hnew, ?_⟩
      intro z hz
      rcases List.mem_cons.mp hz with rfl | hz
      · obtain ⟨b, hb, hsees⟩ := hx
        exact .inr ⟨b, subset_enterAll L (z :: l) hb, hsees⟩
      · exact hothers z hz
    · rw [enter_of_not hx] at hall hnew
      refine ⟨x :: ys, ?_, ?_, ?_, ?_, ?_⟩
      · intro y hy
        rcases List.mem_cons.mp hy with rfl | hy
        · exact List.mem_cons_self
        · exact List.mem_cons_of_mem _ (hsub y hy)
      · rw [hall, List.map_cons, List.reverse_cons, List.append_assoc]
        rfl
      · rw [List.pairwise_cons]
        exact ⟨fun z hz => hnew z hz _ List.mem_cons_self, hpair⟩
      · intro y hy b hb hsees
        rcases List.mem_cons.mp hy with rfl | hy
        · exact hx ⟨b, hb, hsees⟩
        · exact hnew y hy b (List.mem_cons_of_mem _ hb) hsees
      · intro z hz
        rcases List.mem_cons.mp hz with rfl | hz
        · exact .inl List.mem_cons_self
        · obtain h | h := hothers z hz
          · exact .inl (List.mem_cons_of_mem _ h)
          · exact .inr h

/-- Items none of which sees a name before it all bring theirs. -/
theorem enterAll_of_pairwise (hpair : ys.Pairwise fun y z => ¬ sees z (name y))
    (hnew : ∀ y ∈ ys, ∀ b ∈ L, ¬ sees y b) :
    enterAll name sees L ys = (ys.map name).reverse ++ L := by
  induction ys generalizing L with
  | nil => rfl
  | cons y ys ih =>
    obtain ⟨hfirst, hrest⟩ := List.pairwise_cons.mp hpair
    have hy : ¬ ∃ b ∈ L, sees y b := fun ⟨b, hb, hsees⟩ => hnew y List.mem_cons_self b hb hsees
    have hnext : ∀ z ∈ ys, ∀ b ∈ name y :: L, ¬ sees z b := by
      intro z hz b hb
      rcases List.mem_cons.mp hb with rfl | hb
      · exact hfirst z hz
      · exact hnew z (List.mem_cons_of_mem _ hz) b hb
    have hrun := ih hrest hnext
    change enterAll name sees (enter name sees L y) ys = _
    rw [enter_of_not hy, hrun, List.map_cons, List.reverse_cons, List.append_assoc]
    rfl

/-- A name that every item of its own sees another name of stays away. -/
theorem notMem_enterAll (hc : c ∉ L) (h : ∀ x ∈ l, name x = c → ∃ b ∈ L, sees x b) :
    c ∉ enterAll name sees L l := by
  induction l generalizing L with
  | nil => exact hc
  | cons x l ih =>
    by_cases hx : ∃ b ∈ L, sees x b
    · have hnext := ih hc fun z hz => h z (List.mem_cons_of_mem _ hz)
      rwa [← enter_of_sees hx] at hnext
    · have hne : name x ≠ c := fun heq => hx (h x List.mem_cons_self heq)
      have hc' : c ∉ name x :: L := fun hmem => by
        rcases List.mem_cons.mp hmem with heq | hmem
        · exact hne heq.symm
        · exact hc hmem
      have hnext := ih hc' fun z hz heq => by
        obtain ⟨b, hb, hsees⟩ := h z (List.mem_cons_of_mem _ hz) heq
        exact ⟨b, List.mem_cons_of_mem _ hb, hsees⟩
      rwa [← enter_of_not hx] at hnext

theorem name_mem_of_first (hL : ∀ b ∈ L, ¬ sees x b) (l : List α) :
    name x ∈ enterAll name sees L (x :: l) := by
  have hx : ¬ ∃ b ∈ L, sees x b := fun ⟨b, hb, hsees⟩ => hL b hb hsees
  have hin : name x ∈ enter name sees L x := by
    rw [enter_of_not hx]
    exact List.mem_cons_self
  exact subset_enterAll (enter name sees L x) l hin

section Order

variable (hself : ∀ x, sees x (name x))

include hself

theorem name_mem_enterAll (hL : ∀ x ∈ l, ∀ b ∈ L, ¬ sees x b)
    (hshadow : ∀ x ∈ l, ¬ Shadowed name sees l (name x)) (hx : x ∈ l) :
    name x ∈ enterAll name sees L l := by
  by_contra hout
  obtain ⟨ys, hsub, hall, hpair, hothers⟩ := exists_entered name sees L l
  refine hshadow x hx ⟨ys, hsub, hpair, ?_, ?_⟩
  · intro y hy heq
    apply hout
    rw [hall, ← heq]
    exact List.mem_append_left _ (List.mem_reverse.mpr (List.mem_map_of_mem hy))
  · intro z hz heq
    obtain hmem | ⟨b, hb, hsees⟩ := hothers z hz
    · exact ⟨z, hmem, hself z⟩
    · rw [hall] at hb
      rcases List.mem_append.mp hb with hb | hb
      · obtain ⟨y, hy, rfl⟩ := List.mem_map.mp (List.mem_reverse.mp hb)
        exact ⟨y, hy, hsees⟩
      · exact absurd hsees (hL z hz b hb)

theorem mem_enterAll_iff (hL : ∀ x ∈ l, ∀ b ∈ L, ¬ sees x b)
    (hshadow : ∀ x ∈ l, ¬ Shadowed name sees l (name x)) :
    b ∈ enterAll name sees L l ↔ b ∈ L ∨ ∃ x ∈ l, name x = b := by
  constructor
  · intro hb
    obtain ⟨ys, hsub, hall, -, -⟩ := exists_entered name sees L l
    rw [hall] at hb
    rcases List.mem_append.mp hb with hb | hb
    · obtain ⟨y, hy, heq⟩ := List.mem_map.mp (List.mem_reverse.mp hb)
      exact .inr ⟨y, hsub y hy, heq⟩
    · exact .inl hb
  · rintro (hb | ⟨x, hx, rfl⟩)
    · exact subset_enterAll L l hb
    · exact name_mem_enterAll hself hL hshadow hx

/-- A shadowed name stays away in some order. -/
theorem exists_order_without (hL : ∀ x ∈ l, ∀ b ∈ L, ¬ sees x b) (hx : x ∈ l)
    (hshadow : Shadowed name sees l (name x)) :
    ∃ l', l'.Perm l ∧ name x ∉ enterAll name sees L l' := by
  obtain ⟨ys, hsub, hpair, hne, hseen⟩ := hshadow
  have hnodup : ys.Nodup := by
    apply hpair.imp
    intro y z h heq
    subst heq
    exact h (hself y)
  obtain ⟨ys', hperm, hsublist⟩ := List.subperm_of_subset hnodup hsub
  obtain ⟨rest, hrest⟩ := hsublist.exists_perm_append
  refine ⟨ys ++ rest, (hrest.trans (hperm.append_right rest)).symm, ?_⟩
  rw [enterAll_append, enterAll_of_pairwise hpair fun y hy => hL y (hsub y hy)]
  apply notMem_enterAll
  · intro hmem
    rcases List.mem_append.mp hmem with hmem | hmem
    · obtain ⟨y, hy, heq⟩ := List.mem_map.mp (List.mem_reverse.mp hmem)
      exact hne y hy heq
    · exact hL x hx _ hmem (hself x)
  · intro z hz heq
    have hzl : z ∈ l := hrest.mem_iff.mpr (List.mem_append_right _ hz)
    obtain ⟨y, hy, hsees⟩ := hseen z hzl heq
    exact ⟨name y, List.mem_append_left _ (List.mem_reverse.mpr (List.mem_map_of_mem hy)), hsees⟩

theorem enterAll_perm_iff (hL : ∀ x ∈ l, ∀ b ∈ L, ¬ sees x b) :
    (∀ l', l'.Perm l → ∀ b, b ∈ enterAll name sees L l' ↔ b ∈ enterAll name sees L l) ↔
      ∀ x ∈ l, ¬ Shadowed name sees l (name x) := by
  constructor
  · intro hsame x hx hshadow
    obtain ⟨l₁, hperm₁, hout⟩ := exists_order_without hself hL hx hshadow
    obtain ⟨s, t, rfl⟩ := List.append_of_mem hx
    have hin : name x ∈ enterAll name sees L (x :: (s ++ t)) :=
      name_mem_of_first (hL x hx) (s ++ t)
    have hperm₂ : (x :: (s ++ t)).Perm (s ++ x :: t) := List.perm_middle.symm
    exact hout ((hsame l₁ hperm₁ _).mpr ((hsame _ hperm₂ _).mp hin))
  · intro hshadow l' hperm b
    have hL' : ∀ x ∈ l', ∀ b ∈ L, ¬ sees x b := fun x hx => hL x (hperm.mem_iff.mp hx)
    have hshadow' : ∀ x ∈ l', ¬ Shadowed name sees l' (name x) := by
      intro x hx h
      obtain ⟨ys, hsub, hpair, hne, hseen⟩ := h
      exact hshadow x (hperm.mem_iff.mp hx) ⟨ys, fun y hy => hperm.mem_iff.mp (hsub y hy), hpair,
        hne, fun z hz => hseen z (hperm.mem_iff.mpr hz)⟩
    rw [mem_enterAll_iff hself hL' hshadow', mem_enterAll_iff hself hL hshadow]
    simp only [hperm.mem_iff]

end Order

end FirstComers
