import Mathlib.Data.List.Basic
import Mathlib.Data.Nat.Notation
import Mathlib.Logic.Function.Basic

/-! # Queues with a tail pointer

Singly linked lists that share one memory. A slot is a cell that holds a link: the head of a list,
or the link field of a node. The tail pointer of a list is the slot where the next node goes; it is
unset until the list is used.
-/
namespace TailQueue

inductive Slot (ι α : Type*) where
  | head (i : ι)
  | next (a : α)
  deriving DecidableEq

structure Queues (ι α : Type*) where
  link : Slot ι α → Option α
  tail : ι → Option (Slot ι α)

variable {ι α : Type*}

def lastSlot (i : ι) (l : List α) : Slot ι α :=
  match l.getLast? with
  | none => .head i
  | some a => .next a

/-- The links of list `i` lead through the nodes `l i`, no node is on two lists, and every tail
pointer that is set stands behind its list. -/
structure Holds (q : Queues ι α) (l : ι → List α) : Prop where
  link : ∀ i before rest, l i = before ++ rest → q.link (lastSlot i before) = rest.head?
  nodup : ∀ i, (l i).Nodup
  apart : ∀ i j a, a ∈ l i → a ∈ l j → i = j
  tail : ∀ i, q.tail i = some (lastSlot i (l i)) ∨ l i = [] ∧ q.tail i = none

section Slots

variable {i j : ι} {a : α} {l before before' rest rest' : List α}

@[simp] theorem lastSlot_nil (i : ι) : lastSlot i ([] : List α) = .head i := rfl

@[simp] theorem lastSlot_concat (i : ι) (l : List α) (a : α) :
    lastSlot i (l ++ [a]) = .next a := by
  simp [lastSlot]

/-- The nodes in front of a list do not count, as long as it has one of its own. -/
theorem lastSlot_append (i : ι) (before : List α) (h : rest ≠ []) :
    lastSlot i (before ++ rest) = lastSlot i rest := by
  obtain ⟨l, a, rfl⟩ := List.eq_nil_or_concat rest |>.resolve_left h
  simp [← List.append_assoc]

theorem lastSlot_eq_head (h : lastSlot i l = .head j) : l = [] ∧ i = j := by
  rcases List.eq_nil_or_concat l with rfl | ⟨l, a, rfl⟩
  · simpa using h
  · simp at h

theorem lastSlot_eq_next (h : lastSlot i l = .next a) : ∃ l', l = l' ++ [a] := by
  rcases List.eq_nil_or_concat l with rfl | ⟨l, b, rfl⟩
  · simp at h
  · have hb : b = a := by simpa using h
    exact ⟨l, by simp [hb]⟩

theorem lastSlot_ne_next (h : a ∉ l) : lastSlot i l ≠ .next a := by
  intro heq
  obtain ⟨l', rfl⟩ := lastSlot_eq_next heq
  simp at h

theorem lastSlot_inj (hl : l.Nodup) (h : l = before ++ rest) (h' : l = before' ++ rest')
    (heq : lastSlot i before = lastSlot i before') : before = before' := by
  rcases List.eq_nil_or_concat before with rfl | ⟨c, a, rfl⟩
  · exact (lastSlot_eq_head heq.symm).1.symm
  · simp only [List.concat_eq_append, lastSlot_concat] at h heq ⊢
    obtain ⟨c', rfl⟩ := lastSlot_eq_next heq.symm
    have hsplit : c ++ a :: rest = c' ++ a :: rest' := by simpa using h.symm.trans h'
    have hnodup : (c ++ a :: rest).Nodup := by simpa [h] using hl
    have hnodup' : (c' ++ a :: rest').Nodup := hsplit ▸ hnodup
    rw [(List.append_cons_inj_of_notMem (by grind) (by grind)).mp hsplit |>.1]

end Slots

variable [DecidableEq ι] [DecidableEq α]

/-- A node goes to the end of list `i`. -/
def append (q : Queues ι α) (i : ι) (a : α) : Queues ι α where
  link := Function.update
    (Function.update q.link ((q.tail i).getD (.head i)) (some a)) (.next a) none
  tail := Function.update q.tail i (some (.next a))

/-- The node `a` leaves list `i`; `front` is the slot that leads to it. -/
def unlink (q : Queues ι α) (i : ι) (front : Slot ι α) (a : α) : Queues ι α where
  link := Function.update (Function.update q.link front (q.link (.next a))) (.next a) none
  tail := if (q.link (.next a)).isNone then Function.update q.tail i (some front) else q.tail

section Holding

variable {q : Queues ι α} {l : ι → List α} {i j : ι} {a : α} {before after rest : List α}

omit [DecidableEq ι] [DecidableEq α] in
theorem holds_empty : Holds (⟨fun _ => none, fun _ => none⟩ : Queues ι α) fun _ => [] where
  link i before rest h := by
    obtain ⟨rfl, rfl⟩ := List.nil_eq_append_iff.mp h
    rfl
  nodup _ := List.nodup_nil
  apart i j a h := by cases h
  tail _ := .inr ⟨rfl, rfl⟩

omit [DecidableEq ι] [DecidableEq α] in
theorem Holds.getD_tail (h : Holds q l) (i : ι) :
    (q.tail i).getD (.head i) = lastSlot i (l i) := by
  rcases h.tail i with htail | ⟨hnil, htail⟩
  · simp [htail]
  · simp [htail, hnil]

omit [DecidableEq ι] [DecidableEq α] in
/-- A slot stands behind one part of one list. -/
theorem Holds.slot_inj (h : Holds q l) {before' rest' : List α} (hi : l i = before ++ rest)
    (hj : l j = before' ++ rest') (heq : lastSlot i before = lastSlot j before') :
    i = j ∧ before = before' := by
  have hij : i = j := by
    rcases List.eq_nil_or_concat before with rfl | ⟨c, a, rfl⟩
    · exact (lastSlot_eq_head heq.symm).2.symm
    · simp only [List.concat_eq_append, lastSlot_concat] at hi heq
      obtain ⟨c', rfl⟩ := lastSlot_eq_next heq.symm
      exact h.apart i j a (by simp [hi]) (by simp [hj])
  subst hij
  exact ⟨rfl, lastSlot_inj (h.nodup i) hi hj heq⟩

theorem holds_append (h : Holds q l) (ha : ∀ j, a ∉ l j) :
    Holds (append q i a) (Function.update l i (l i ++ [a])) := by
  have hslot := h.getD_tail i
  have hkeep (j : ι) (before rest : List α) (hj : l j = before ++ rest)
      (hne : j = i → rest ≠ []) : (append q i a).link (lastSlot j before) = rest.head? := by
    have hnext : lastSlot j before ≠ .next a := lastSlot_ne_next fun hmem =>
      ha j (by simp [hj, hmem])
    have hlast : lastSlot j before ≠ lastSlot i (l i) := by
      intro heq
      obtain ⟨rfl, rfl⟩ := h.slot_inj hj (List.append_nil _).symm heq
      exact hne rfl (by simpa using hj)
    simp only [append, hslot, Function.update_of_ne hnext, Function.update_of_ne hlast]
    exact h.link j before rest hj
  constructor
  · intro j before rest heq
    rcases eq_or_ne j i with rfl | hne
    · rw [Function.update_self] at heq
      rcases List.eq_nil_or_concat rest with rfl | ⟨rest, b, rfl⟩
      · have hbefore : before = l j ++ [a] := by simpa using heq.symm
        simp [append, hbefore]
      · obtain ⟨hl, rfl⟩ : l j = before ++ rest ∧ a = b := by
          simpa [← List.append_assoc] using heq
        rcases rest with - | ⟨c, rest⟩
        · have hbefore : before = l j := by simpa using hl.symm
          have hnext : lastSlot j (l j) ≠ .next a := lastSlot_ne_next (ha j)
          simp [append, hslot, hbefore, hnext]
        · simpa using hkeep j before (c :: rest) hl (by simp)
    · rw [Function.update_of_ne hne] at heq
      exact hkeep j before rest heq fun hj => absurd hj hne
  · intro j
    rcases eq_or_ne j i with rfl | hne
    · simpa using List.nodup_append.mpr ⟨h.nodup j, by simp, by
        intro b hb c hc
        exact fun hbc => ha j (by simp_all)⟩
    · simpa [hne] using h.nodup j
  · intro j k b hj hk
    have hcase (j : ι) (hb : b ∈ Function.update l i (l i ++ [a]) j) :
        b ∈ l j ∨ j = i ∧ b = a := by
      rcases eq_or_ne j i with rfl | hne
      · simpa using hb
      · exact .inl (by simpa [hne] using hb)
    rcases hcase j hj with hj' | ⟨hji, rfl⟩
    · rcases hcase k hk with hk' | ⟨-, rfl⟩
      · exact h.apart j k b hj' hk'
      · exact absurd hj' (ha j)
    · rcases hcase k hk with hk' | ⟨hki, -⟩
      · exact absurd hk' (ha k)
      · exact hji.trans hki.symm
  · intro j
    rcases eq_or_ne j i with rfl | hne
    · simp [append]
    · simpa [append, hne] using h.tail j

/-- The slots in front of `a` and in `a` apart, all lead where they did. -/
theorem Holds.link_unlink (h : Holds q l) (hl : l i = before ++ a :: after) {b : List α}
    (hj : l j = b ++ rest) (hfront : j = i → b ≠ before) (ha : j = i → b ≠ before ++ [a]) :
    (unlink q i (lastSlot i before) a).link (lastSlot j b) = rest.head? := by
  have hne : lastSlot j b ≠ .next a := by
    intro heq
    obtain ⟨hji, hb⟩ := h.slot_inj hj (by simpa using hl : l i = (before ++ [a]) ++ after)
      (by simpa using heq)
    exact ha hji hb
  have hne' : lastSlot j b ≠ lastSlot i before := by
    intro heq
    obtain ⟨hji, hb⟩ := h.slot_inj hj hl heq
    exact hfront hji hb
  simp only [unlink, Function.update_of_ne hne, Function.update_of_ne hne']
  exact h.link j b rest hj

theorem Holds.link_unlink_front (h : Holds q l) (hl : l i = before ++ a :: after) :
    (unlink q i (lastSlot i before) a).link (lastSlot i before) = after.head? := by
  have hnext : q.link (.next a) = after.head? := by
    simpa using h.link i (before ++ [a]) after (by simp [hl])
  have hnotMem : a ∉ before := by
    have hnodup := h.nodup i
    rw [hl] at hnodup
    grind
  have hne : lastSlot i before ≠ .next a := lastSlot_ne_next hnotMem
  simp [unlink, hne, hnext]

theorem holds_unlink (h : Holds q l) (hl : l i = before ++ a :: after) :
    Holds (unlink q i (lastSlot i before) a) (Function.update l i (before ++ after)) := by
  have hnext : q.link (.next a) = after.head? := by
    simpa using h.link i (before ++ [a]) after (by simp [hl])
  have hkeep (j : ι) (b rest : List α) (hj : l j = b ++ rest) (hfront : j = i → b ≠ before)
      (ha : j = i → b ≠ before ++ [a]) := h.link_unlink hl hj hfront ha
  have hfront := h.link_unlink_front hl
  have hsub (j : ι) : (Function.update l i (before ++ after) j).Sublist (l j) := by
    rcases eq_or_ne j i with rfl | hne
    · simp [hl]
    · simp [hne]
  constructor
  · intro j b rest heq
    rcases eq_or_ne j i with rfl | hne
    · rw [Function.update_self] at heq
      rcases List.append_eq_append_iff.mp heq with ⟨c, rfl, rfl⟩ | ⟨c, rfl, rfl⟩
      · rcases c with - | ⟨c, cs⟩
        · simpa using hfront
        · -- A slot behind `a` leads where it did.
          have hslot : lastSlot j (before ++ c :: cs) = lastSlot j (before ++ a :: c :: cs) := by
            have hsplit : before ++ a :: c :: cs = (before ++ [a]) ++ c :: cs := by simp
            rw [hsplit, lastSlot_append j before (List.cons_ne_nil c cs),
              lastSlot_append j (before ++ [a]) (List.cons_ne_nil c cs)]
          rw [hslot]
          exact hkeep j _ rest (by simp [hl]) (fun _ => by simp) fun _ => by simp
      · rcases c with - | ⟨c, cs⟩
        · simpa using hfront
        · simpa using hkeep j b (c :: cs ++ a :: after) (by simp [hl]) (fun _ => by simp)
            fun _ => by simp
    · rw [Function.update_of_ne hne] at heq
      exact hkeep j b rest heq (fun hj => absurd hj hne) fun hj => absurd hj hne
  · exact fun j => (h.nodup j).sublist (hsub j)
  · exact fun j k b hj hk => h.apart j k b ((hsub j).subset hj) ((hsub k).subset hk)
  · intro j
    rcases eq_or_ne j i with rfl | hne
    · rcases after with - | ⟨c, cs⟩
      · simp [unlink, hnext]
      · have hsplit : before ++ a :: c :: cs = (before ++ [a]) ++ c :: cs := by simp
        have htail := h.tail j
        rw [hl, hsplit, lastSlot_append j (before ++ [a]) (List.cons_ne_nil c cs)] at htail
        simpa [unlink, hnext, lastSlot_append j before (List.cons_ne_nil c cs)] using htail
    · simp only [unlink]
      split
      · simpa [hne] using h.tail j
      · simpa [hne] using h.tail j

end Holding

end TailQueue
