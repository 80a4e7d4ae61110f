import Mathlib.Data.List.DropRight
import Mathlib.Tactic.Common

/-! # Lists addressed by occurrence

Elements of a list that satisfy a predicate are addressed by their number among those that do,
counted from 0: the `n`-th one can be read, replaced and removed, and a new one can be put
behind the last one.
-/
namespace OccurrenceList

variable {α : Type*} (p : α → Bool)

/-- The list cut at the `n`-th element that satisfies `p`. -/
def cutAt : ℕ → List α → Option (List α × α × List α)
  | _, [] => none
  | n, a :: l =>
    if p a then match n with
      | 0 => some ([], a, l)
      | n + 1 => (cutAt n l).map fun c => (a :: c.1, c.2)
    else (cutAt n l).map fun c => (a :: c.1, c.2)

def replaceNth (n : ℕ) (a : α) (l : List α) : Option (List α) :=
  (cutAt p n l).map fun c => c.1 ++ a :: c.2.2

def eraseNth (n : ℕ) (l : List α) : Option (List α) :=
  (cutAt p n l).map fun c => c.1 ++ c.2.2

/-- Right behind the last element that satisfies `p`, or in front when there is none. -/
def insertAfterLast (a : α) (l : List α) : List α :=
  l.rdropWhile (!p ·) ++ a :: l.rtakeWhile (!p ·)

variable {p}

theorem cutAt_cons_neg {a : α} (ha : ¬ p a = true) (n : ℕ) (l : List α) :
    cutAt p n (a :: l) = (cutAt p n l).map fun c => (a :: c.1, c.2) := by
  cases n <;> simp [cutAt, ha]

theorem cutAt_congr {q : α → Bool} {l : List α} (h : ∀ a ∈ l, p a = q a) (n : ℕ) :
    cutAt p n l = cutAt q n l := by
  induction l generalizing n with
  | nil => rfl
  | cons a l ih =>
    have hl := ih fun b hb => h b (List.mem_cons_of_mem _ hb)
    cases n <;> simp [cutAt, h a List.mem_cons_self, hl]

theorem cons_of_cutAt_map {n : ℕ} {a x : α} {l b c : List α}
    (h : (cutAt p n l).map (fun d => (a :: d.1, d.2)) = some (b, x, c)) :
    ∃ b', b = a :: b' ∧ cutAt p n l = some (b', x, c) := by
  obtain ⟨⟨b', x', c'⟩, hc, he⟩ := Option.map_eq_some_iff.mp h
  cases he
  exact ⟨b', rfl, hc⟩

theorem eq_of_cutAt {n : ℕ} {l b c : List α} {x : α} (h : cutAt p n l = some (b, x, c)) :
    l = b ++ x :: c ∧ p x = true ∧ b.countP p = n := by
  induction l generalizing n b with
  | nil => cases h
  | cons a l ih =>
    by_cases ha : p a = true
    · cases n with
      | zero =>
        simp only [cutAt, if_pos ha, Option.some.injEq, Prod.mk.injEq] at h
        obtain ⟨rfl, rfl, rfl⟩ := h
        exact ⟨rfl, ha, rfl⟩
      | succ n =>
        simp only [cutAt, if_pos ha] at h
        obtain ⟨b', rfl, hc⟩ := cons_of_cutAt_map h
        obtain ⟨rfl, hx, hb⟩ := ih hc
        exact ⟨rfl, hx, by simp [ha, hb]⟩
    · simp only [cutAt, if_neg ha] at h
      obtain ⟨b', rfl, hc⟩ := cons_of_cutAt_map h
      obtain ⟨rfl, hx, hb⟩ := ih hc
      exact ⟨rfl, hx, by simp [ha, hb]⟩

theorem getElem?_filter_eq (n : ℕ) (l : List α) :
    (l.filter p)[n]? = (cutAt p n l).map fun c => c.2.1 := by
  induction l generalizing n with
  | nil => simp [cutAt]
  | cons a l ih =>
    by_cases ha : p a = true
    · cases n with
      | zero => simp [cutAt, ha]
      | succ n => simp [cutAt, ha, ih, Function.comp_def]
    · simp [cutAt, ha, ih, Function.comp_def]

theorem insertAfterLast_append {a x : α} {b c : List α} (hx : p x = true)
    (hc : ∀ y ∈ c, p y = false) : insertAfterLast p a (b ++ x :: c) = b ++ x :: a :: c := by
  have hrev : ∀ y ∈ c.reverse, (!p y) = true := fun y hy => by simp [hc y (by simpa using hy)]
  have htext : (b ++ x :: c).reverse = c.reverse ++ x :: b.reverse := by simp
  unfold insertAfterLast List.rdropWhile List.rtakeWhile
  rw [htext, List.dropWhile_append_of_pos hrev, List.takeWhile_append_of_pos hrev]
  simp [hx]

theorem insertAfterLast_of_none {a : α} {l : List α} (hl : ∀ y ∈ l, p y = false) :
    insertAfterLast p a l = a :: l := by
  have hrev : ∀ y ∈ l.reverse, (!p y) = true := fun y hy => by simp [hl y (by simpa using hy)]
  unfold insertAfterLast List.rdropWhile List.rtakeWhile
  rw [List.dropWhile_eq_nil_iff.mpr hrev, List.takeWhile_eq_self_iff.mpr hrev]
  simp

/-- A list has a last element that satisfies `p`, or none. -/
theorem last_or_none (p : α → Bool) (l : List α) :
    (∃ b x c, l = b ++ x :: c ∧ p x = true ∧ ∀ y ∈ c, p y = false) ∨ ∀ y ∈ l, p y = false := by
  induction l with
  | nil => simp
  | cons a l ih =>
    rcases ih with ⟨b, x, c, rfl, hx, hc⟩ | hl
    · exact .inl ⟨a :: b, x, c, rfl, hx, hc⟩
    · cases ha : p a with
      | true => exact .inl ⟨[], a, l, rfl, ha, hl⟩
      | false => exact .inr (by simpa [ha] using hl)

/-- Two cuts of one list are the same, or one lies in front of the other. -/
theorem cuts_compare {b c b' c' : List α} {x x' : α} (h : b ++ x :: c = b' ++ x' :: c') :
    (b = b' ∧ x = x' ∧ c = c') ∨ (∃ d, b' = b ++ x :: d) ∨ ∃ d, b = b' ++ x' :: d := by
  rcases List.append_eq_append_iff.mp h with ⟨d, rfl, hd⟩ | ⟨d, rfl, hd⟩
  · cases d with
    | nil => simp_all
    | cons e d => simp_all
  · cases d with
    | nil => simp_all
    | cons e d => simp_all

end OccurrenceList
