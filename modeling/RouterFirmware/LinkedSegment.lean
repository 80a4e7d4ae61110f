import Mathlib.Data.List.Basic

/-! # Linked segments

A list threaded through memory by a link function: from `a`, following the links of the nodes
of `l`, one arrives at `z`. `holds` is what the memory says about a node besides its link.
-/
namespace LinkedSegment

variable {α β : Type*}

def Seg (link : α → α) (node : β → α) (holds : β → Prop) : α → List β → α → Prop
  | a, [], z => a = z
  | a, b :: l, z => a = node b ∧ holds b ∧ Seg link node holds (link (node b)) l z

variable {link link' : α → α} {node : β → α} {holds holds' : β → Prop} {a z : α}

theorem seg_append {l k : List β} : Seg link node holds a (l ++ k) z ↔
    ∃ m, Seg link node holds a l m ∧ Seg link node holds m k z := by
  induction l generalizing a with
  | nil =>
    constructor
    · intro h
      exact ⟨a, rfl, h⟩
    · rintro ⟨m, rfl, h⟩
      exact h
  | cons b l ih =>
    constructor
    · rintro ⟨ha, hb, h⟩
      obtain ⟨m, hl, hk⟩ := ih.mp h
      exact ⟨m, ⟨ha, hb, hl⟩, hk⟩
    · rintro ⟨m, ⟨ha, hb, hl⟩, hk⟩
      exact ⟨ha, hb, ih.mpr ⟨m, hl, hk⟩⟩

/-- The last node of a segment decides where it arrives. -/
theorem seg_snoc {l : List β} {b : β} : Seg link node holds a (l ++ [b]) z ↔
    Seg link node holds a l (node b) ∧ holds b ∧ link (node b) = z := by
  rw [seg_append]
  constructor
  · rintro ⟨m, hl, rfl, hb, hz⟩
    exact ⟨hl, hb, hz⟩
  · rintro ⟨hl, hb, hz⟩
    exact ⟨node b, hl, rfl, hb, hz⟩

/-- Frame rule: a segment reads its own nodes only. -/
theorem Seg.frame {l : List β} (h : Seg link node holds a l z)
    (hlink : ∀ b ∈ l, link' (node b) = link (node b))
    (hholds : ∀ b ∈ l, holds b → holds' b) : Seg link' node holds' a l z := by
  induction l generalizing a with
  | nil => exact h
  | cons b l ih =>
    obtain ⟨ha, hb, h⟩ := h
    refine ⟨ha, hholds b (by simp) hb, ?_⟩
    rw [hlink b (by simp)]
    apply ih h
    · exact fun c hc => hlink c (by simp [hc])
    · exact fun c hc => hholds c (by simp [hc])

theorem Seg.holds_of_mem {l : List β} (h : Seg link node holds a l z) {b : β} (hb : b ∈ l) :
    holds b := by
  induction l generalizing a with
  | nil => cases hb
  | cons c l ih =>
    obtain ⟨-, hc, hrest⟩ := h
    rcases List.mem_cons.mp hb with rfl | hb
    · exact hc
    · exact ih hrest hb

theorem Seg.map {γ : Type*} {node' : γ → α} {holds' : γ → Prop} {f : β → γ} {l : List β}
    (h : Seg link node holds a l z) (hnode : ∀ b, node' (f b) = node b)
    (hholds : ∀ b, holds b → holds' (f b)) : Seg link node' holds' a (l.map f) z := by
  induction l generalizing a with
  | nil => exact h
  | cons b l ih =>
    obtain ⟨ha, hb, hrest⟩ := h
    refine ⟨ha.trans (hnode b).symm, hholds b hb, ih ?_⟩
    rwa [hnode b]

/-- A node is taken out behind `p` and put in front. -/
theorem Seg.move_front [DecidableEq α] {pre post : List β} {p b : β}
    (h : Seg link node holds a (pre ++ p :: b :: post) z)
    (hnodup : ((pre ++ p :: b :: post).map node).Nodup) :
    Seg (Function.update (Function.update link (node p) (link (node b))) (node b) a) node holds
      (node b) (b :: (pre ++ p :: post)) z := by
  obtain ⟨hdisj, hne⟩ : (∀ c ∈ pre ++ post, node c ≠ node b ∧ node c ≠ node p) ∧
      node p ≠ node b := by
    simp only [List.map_append, List.map_cons, List.nodup_append, List.nodup_cons, List.mem_cons,
      List.mem_map, not_or, not_exists, not_and] at hnodup
    obtain ⟨-, ⟨⟨hpb, hp⟩, hb, -⟩, hpre⟩ := hnodup
    refine ⟨fun c hc => ?_, hpb⟩
    rcases List.mem_append.mp hc with hc | hc
    · exact ⟨hpre _ ⟨c, hc, rfl⟩ _ (.inr (.inl rfl)), hpre _ ⟨c, hc, rfl⟩ _ (.inl rfl)⟩
    · exact ⟨hb c hc, hp c hc⟩
  obtain ⟨m, hpre, rfl, hp, hq, hb, hpost⟩ := seg_append.mp h
  have hother : ∀ c ∈ pre ++ post,
      Function.update (Function.update link (node p) (link (node b))) (node b) a (node c) =
        link (node c) := fun c hc => by
    rw [Function.update_of_ne (hdisj c hc).1, Function.update_of_ne (hdisj c hc).2]
  refine ⟨rfl, hb, ?_⟩
  rw [Function.update_self]
  apply seg_append.mpr
  refine ⟨node p, hpre.frame (fun c hc => hother c (by simp [hc])) fun _ _ hc => hc, rfl, hp, ?_⟩
  rw [Function.update_of_ne hne, Function.update_self]
  exact hpost.frame (fun c hc => hother c (by simp [hc])) fun _ _ hc => hc

end LinkedSegment
