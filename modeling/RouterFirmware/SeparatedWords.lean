import Mathlib.Data.List.Infix
import Mathlib.Tactic.Common

/-! # Words with a separator between them

The first element of a separator stands at its start only, so that two of its places do not
overlap. Then the first place of the separator is the end of the first word, whatever the words are
that do not have it in them.
-/
namespace SeparatedWords

variable {α : Type*} [DecidableEq α]

/-- The text before the first place of a pattern, and the text from there on. -/
def find (pat : List α) : List α → Option (List α × List α)
  | [] => if pat.isPrefixOf [] then some ([], []) else none
  | c :: t =>
    if pat.isPrefixOf (c :: t) then some ([], c :: t)
    else (find pat t).map fun p => (c :: p.1, p.2)

section Find

variable {pat s a b w x t rest : List α} {c : α} {m : ℕ}

theorem find_spec (h : find pat s = some (a, b)) : s = a ++ b ∧ pat <+: b := by
  induction s generalizing a with
  | nil =>
    rw [find] at h
    split at h
    · next hstart =>
      cases h
      exact ⟨rfl, List.isPrefixOf_iff_prefix.mp hstart⟩
    · cases h
  | cons c s ih =>
    rw [find] at h
    split at h
    · next hstart =>
      cases h
      exact ⟨rfl, List.isPrefixOf_iff_prefix.mp hstart⟩
    · obtain ⟨p, hp, heq⟩ := Option.map_eq_some_iff.mp h
      cases heq
      obtain ⟨rfl, hstart⟩ := ih hp
      exact ⟨rfl, hstart⟩

theorem find_eq_none_iff : find pat s = none ↔ ¬ pat <:+: s := by
  induction s with
  | nil =>
    rw [find, List.infix_nil]
    by_cases hnil : pat = []
    · simp [hnil]
    · have hstart : ¬ pat.isPrefixOf [] = true := by
        rwa [List.isPrefixOf_iff_prefix, List.prefix_nil]
      simp only [if_neg hstart, hnil, not_false_eq_true]
  | cons c s ih =>
    rw [find, List.infix_cons_iff, not_or, ← ih, ← List.isPrefixOf_iff_prefix]
    by_cases hstart : pat.isPrefixOf (c :: s) = true
    · simp [hstart]
    · simp [hstart]

/-- The first place is found when there is none before it. -/
theorem find_of_first (h : pat <+: b) (hfirst : ∀ u v, a = u ++ v → v ≠ [] → ¬ pat <+: v ++ b) :
    find pat (a ++ b) = some (a, b) := by
  induction a with
  | nil =>
    cases b with
    | nil => rw [List.nil_append, find, if_pos (List.isPrefixOf_iff_prefix.mpr h)]
    | cons c b => rw [List.nil_append, find, if_pos (List.isPrefixOf_iff_prefix.mpr h)]
  | cons c a ih =>
    have hnot : ¬ pat.isPrefixOf (c :: (a ++ b)) = true := by
      rw [List.isPrefixOf_iff_prefix]
      exact hfirst [] (c :: a) rfl (List.cons_ne_nil c a)
    have hrest : find pat (a ++ b) = some (a, b) :=
      ih fun u v huv => hfirst (c :: u) v (by rw [huv, List.cons_append])
    rw [List.cons_append, find, if_neg hnot, hrest]
    rfl

omit [DecidableEq α] in
/-- The separator does not begin in a word without it and end behind the word. -/
theorem not_prefix_of_word (hc : c ∉ t) (hx : x ≠ []) (hword : ¬ c :: t <:+: x) :
    ¬ c :: t <+: x ++ c :: rest := by
  intro h
  obtain hlt | hle := Nat.lt_or_ge x.length (c :: t).length
  · obtain ⟨u, hu⟩ : x <+: c :: t :=
      List.prefix_of_prefix_length_le (List.prefix_append x (c :: rest)) h hlt.le
    cases u with
    | nil =>
      rw [List.append_nil] at hu
      exact (hu ▸ hlt).false
    | cons e u =>
      have hfirst : e :: u <+: c :: rest := by
        rwa [← hu, List.prefix_append_right_inj] at h
      obtain ⟨rfl, -⟩ := List.cons_prefix_cons.mp hfirst
      cases x with
      | nil => exact hx rfl
      | cons d x =>
        obtain ⟨-, rfl⟩ := List.cons.inj hu
        exact hc (List.mem_append_right x List.mem_cons_self)
  · exact hword (List.prefix_of_prefix_length_le h (List.prefix_append _ _) hle).isInfix

/-- The first separator is behind the first word. -/
theorem find_word (hc : c ∉ t) (hw : ¬ c :: t <:+: w) (rest : List α) :
    find (c :: t) (w ++ (c :: t ++ rest)) = some (w, c :: t ++ rest) := by
  refine find_of_first (List.prefix_append _ _) fun u v huv hv => ?_
  exact not_prefix_of_word hc hv fun h => hw (h.trans ⟨u, [], by simp [huv]⟩)

omit [DecidableEq α] in
/-- Of a text in two parts, the part in front of a longer one is a beginning of that one. -/
theorem prefix_of_append_eq (h : w ++ x = a ++ b) (hlen : w.length ≤ a.length) : w <+: a := by
  have hw : w <+: a ++ b := h ▸ List.prefix_append w x
  exact List.prefix_of_prefix_length_le hw (List.prefix_append a b) hlen

/-- Behind a word stands the beginning of the separator, cut off, and then other text. A separator
is found behind the word when the text goes on with its rest, or else in the other text. -/
theorem find_cut (hc : c ∉ t) (hw : ¬ c :: t <:+: w)
    (h : find (c :: t) (w ++ ((c :: t).take (m + 1) ++ rest)) = some (a, b)) :
    a = w ∧ (c :: t).drop (m + 1) <+: rest ∨
      w.length + ((c :: t).take (m + 1)).length ≤ a.length := by
  obtain ⟨hsplit, hstart⟩ := find_spec h
  obtain hlt | heq | hgt := Nat.lt_trichotomy a.length w.length
  · exfalso
    obtain ⟨v, rfl⟩ := prefix_of_append_eq hsplit.symm hlt.le
    have hv : v ≠ [] := by
      rintro rfl
      simp at hlt
    have hb : v ++ c :: (t.take m ++ rest) = b := by
      simpa [List.append_assoc] using hsplit
    exact not_prefix_of_word hc hv (fun h => hw (h.trans ⟨a, [], by simp⟩)) (hb ▸ hstart)
  · obtain ⟨rfl, rfl⟩ := List.append_inj hsplit heq.symm
    refine .inl ⟨rfl, ?_⟩
    have hwhole : (c :: t).take (m + 1) ++ (c :: t).drop (m + 1) <+:
        (c :: t).take (m + 1) ++ rest := by
      rwa [List.take_append_drop]
    exact (List.prefix_append_right_inj _).mp hwhole
  · -- a place inside the beginning would start with an inner element of the separator
    refine .inr (Nat.le_of_not_lt fun hless => ?_)
    obtain ⟨v, rfl⟩ := prefix_of_append_eq hsplit hgt.le
    cases v with
    | nil => simp at hgt
    | cons d v =>
      cases b with
      | nil => cases List.prefix_nil.mp hstart
      | cons e b =>
        obtain ⟨rfl, -⟩ := List.cons_prefix_cons.mp hstart
        have hinner : t.take m ++ rest = (v ++ [c]) ++ b := by
          have := List.append_cancel_left (hsplit.trans (List.append_assoc w (d :: v) (c :: b)))
          simpa using (List.cons.inj this).2
        have hfits : (v ++ [c]).length ≤ (t.take m).length := by
          simp only [List.length_append, List.length_cons, List.take_succ_cons] at hless ⊢
          simp only [List.length_nil]
          omega
        have hprefix := prefix_of_append_eq hinner.symm hfits
        have hmem : c ∈ t.take m := hprefix.subset (List.mem_append_right v List.mem_cons_self)
        exact hc (List.mem_of_mem_take hmem)

end Find

end SeparatedWords
