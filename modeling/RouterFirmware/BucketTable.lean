import Mathlib.Logic.Function.Basic
import Mathlib.Data.List.Nodup

/-! # Tables of buckets

A table hashes its entries by a key into lists. While every entry lies in the bucket of its
key and no bucket holds a key twice, the table is a partial function from keys to entries:
`lookup`, with one equation for each operation.
-/
namespace BucketTable

/-- The first element that passes the test is changed. -/
def modifyFirst {α : Type*} (p : α → Bool) (f : α → α) : List α → List α
  | [] => []
  | a :: l => if p a then f a :: l else a :: modifyFirst p f l

structure Layout (ι κ α : Type*) where
  hash : κ → ι
  key : α → κ

variable {ι κ α : Type*}

namespace Layout

def lookup [DecidableEq κ] (L : Layout ι κ α) (t : ι → List α) (k : κ) : Option α :=
  (t (L.hash k)).find? fun a => L.key a = k

def insert [DecidableEq ι] (L : Layout ι κ α) (t : ι → List α) (a : α) : ι → List α :=
  Function.update t (L.hash (L.key a)) (a :: t (L.hash (L.key a)))

/-- Change the first entry of the key that passes the test `q`. -/
def modify [DecidableEq ι] [DecidableEq κ] (L : Layout ι κ α) (t : ι → List α) (k : κ)
    (q : α → Bool) (f : α → α) : ι → List α :=
  Function.update t (L.hash k) (modifyFirst (fun a => L.key a = k && q a) f (t (L.hash k)))

structure WellFormed (L : Layout ι κ α) (t : ι → List α) : Prop where
  hashed : ∀ i, ∀ a ∈ t i, L.hash (L.key a) = i
  nodup : ∀ i, ((t i).map L.key).Nodup

end Layout

section List

variable {key : α → κ} {q : α → Bool} {f : α → α} {k : κ}

theorem map_modifyFirst {p : α → Bool} (hf : ∀ a, key (f a) = key a) (l : List α) :
    (modifyFirst p f l).map key = l.map key := by
  fun_induction modifyFirst p f l with
  | case1 => rfl
  | case2 a l hp => rw [List.map_cons, List.map_cons, hf]
  | case3 a l hp ih => rw [List.map_cons, List.map_cons, ih]

theorem modifyFirst_of_forall {p : α → Bool} {l : List α} (h : ∀ a ∈ l, p a = false) :
    modifyFirst p f l = l := by
  fun_induction modifyFirst p f l with
  | case1 => rfl
  | case2 a l hp =>
    have hfalse := h a (by simp)
    simp [hp] at hfalse
  | case3 a l hp ih => rw [ih fun b hb => h b (by simp [hb])]

variable [DecidableEq κ]

theorem find?_key_of_mem {l : List α} (hl : (l.map key).Nodup) {a : α} (h : a ∈ l) :
    (l.find? fun b => key b = key a) = some a := by
  induction l with
  | nil => cases h
  | cons b l ih =>
    obtain ⟨hb, hl⟩ := List.nodup_cons.mp hl
    rcases List.mem_cons.mp h with rfl | h
    · simp
    · have hne : key b ≠ key a := fun he => hb (he ▸ List.mem_map_of_mem h)
      simpa [hne] using ih hl h

theorem find?_modifyFirst_self (hf : ∀ a, key (f a) = key a) {l : List α}
    (hl : (l.map key).Nodup) :
    (modifyFirst (fun a => key a = k && q a) f l).find? (fun a => key a = k) =
      (l.find? fun a => key a = k).map fun a => if q a then f a else a := by
  induction l with
  | nil => rfl
  | cons a l ih =>
    obtain ⟨ha, hl⟩ := List.nodup_cons.mp hl
    by_cases hk : key a = k
    · -- No later entry has the key, so a failed test leaves the tail alone.
      by_cases hq : q a = true
      · simp [modifyFirst, hk, hq, hf]
      · simp [modifyFirst, hk, hq]
    · simpa [modifyFirst, hk] using ih hl

theorem find?_modifyFirst_of_ne (hf : ∀ a, key (f a) = key a) {k' : κ} (hne : k' ≠ k)
    (l : List α) : (modifyFirst (fun a => key a = k && q a) f l).find? (fun a => key a = k') =
      l.find? fun a => key a = k' := by
  induction l with
  | nil => rfl
  | cons a l ih =>
    rw [modifyFirst]
    split
    · next hp =>
      have hk : key a ≠ k' := by
        rintro rfl
        simp only [Bool.and_eq_true, decide_eq_true_eq] at hp
        exact hne hp.1
      simp [hf, hk]
    · by_cases hk : key a = k'
      · simp [hk]
      · simpa [hk] using ih

end List

theorem update_sublist [DecidableEq ι] {t : ι → List α} {i : ι} {l : List α}
    (h : l.Sublist (t i)) (j : ι) : (Function.update t i l j).Sublist (t j) := by
  rcases eq_or_ne j i with rfl | hne
  · rwa [Function.update_self]
  · rw [Function.update_of_ne hne]

namespace Layout

variable {L : Layout ι κ α} {t : ι → List α} {k k' : κ} {a : α} {q : α → Bool} {f : α → α}

theorem wellFormed_empty (L : Layout ι κ α) : L.WellFormed fun _ => [] where
  hashed _ _ h := by cases h
  nodup _ := List.nodup_nil

theorem wellFormed_of_map_key {t' : ι → List α} (ht : L.WellFormed t)
    (h : ∀ i, (t' i).map L.key = (t i).map L.key) : L.WellFormed t' where
  hashed i a ha := by
    have hmem : L.key a ∈ (t i).map L.key := h i ▸ List.mem_map_of_mem ha
    obtain ⟨b, hb, hk⟩ := List.mem_map.mp hmem
    rw [← hk]
    exact ht.hashed i b hb
  nodup i := h i ▸ ht.nodup i

theorem wellFormed_of_sublist {t' : ι → List α} (ht : L.WellFormed t)
    (h : ∀ i, List.Sublist (t' i) (t i)) : L.WellFormed t' where
  hashed i a ha := ht.hashed i a ((h i).subset ha)
  nodup i := (ht.nodup i).sublist ((h i).map L.key)

def entries (t : ι → List α) (is : List ι) : List α := is.flatMap t

theorem nodup_map_key_entries (ht : L.WellFormed t) {is : List ι} (his : is.Nodup) :
    ((entries t is).map L.key).Nodup := by
  rw [entries, List.map_flatMap, List.nodup_flatMap]
  refine ⟨fun i _ => ht.nodup i, his.imp ?_⟩
  intro i j hne k hi hj
  obtain ⟨a, ha, rfl⟩ := List.mem_map.mp hi
  obtain ⟨b, hb, hk⟩ := List.mem_map.mp hj
  rw [← ht.hashed i a ha, ← hk, ht.hashed j b hb] at hne
  exact hne rfl

theorem wellFormed_map (ht : L.WellFormed t) (hf : ∀ a, L.key (f a) = L.key a) :
    L.WellFormed fun i => (t i).map f := by
  apply wellFormed_of_map_key ht
  intro i
  rw [List.map_map]
  congr 1
  funext a
  exact hf a

variable [DecidableEq κ]

theorem key_of_lookup (h : L.lookup t k = some a) : L.key a = k := by
  simpa using List.find?_some h

theorem lookup_of_mem (ht : L.WellFormed t) {i : ι} (h : a ∈ t i) :
    L.lookup t (L.key a) = some a := by
  rw [lookup, ht.hashed i a h]
  exact find?_key_of_mem (ht.nodup i) h

theorem isSome_lookup (ht : L.WellFormed t) (k : κ) :
    (L.lookup t k).isSome ↔ ∃ i, ∃ a ∈ t i, L.key a = k := by
  constructor
  · intro h
    obtain ⟨a, ha⟩ := Option.isSome_iff_exists.mp h
    exact ⟨_, a, List.mem_of_find?_eq_some ha, key_of_lookup ha⟩
  · rintro ⟨i, a, ha, rfl⟩
    rw [lookup_of_mem ht ha]
    rfl

theorem lookup_empty (L : Layout ι κ α) (k : κ) : L.lookup (fun _ => []) k = none := rfl

theorem lookup_map (hf : ∀ a, L.key (f a) = L.key a) (k : κ) :
    L.lookup (fun i => (t i).map f) k = (L.lookup t k).map f := by
  rw [lookup, lookup, List.find?_map]
  congr 2
  funext a
  simp [hf]

variable [DecidableEq ι]

omit [DecidableEq κ] in
theorem wellFormed_update (ht : L.WellFormed t) {i : ι} {l : List α}
    (hashed : ∀ a ∈ l, L.hash (L.key a) = i) (nodup : (l.map L.key).Nodup) :
    L.WellFormed (Function.update t i l) where
  hashed j a ha := by
    rcases eq_or_ne j i with rfl | hne
    · rw [Function.update_self] at ha
      exact hashed a ha
    · rw [Function.update_of_ne hne] at ha
      exact ht.hashed j a ha
  nodup j := by
    rcases eq_or_ne j i with rfl | hne
    · rwa [Function.update_self]
    · rw [Function.update_of_ne hne]
      exact ht.nodup j

omit [DecidableEq κ] in
/-- An entry of a new key at the end of a list that may have lost some. -/
theorem wellFormed_update_concat (ht : L.WellFormed t) {i : ι} {l : List α}
    (hl : l.Sublist (t i)) (ha : L.hash (L.key a) = i) (hnew : ∀ b ∈ l, L.key b ≠ L.key a) :
    L.WellFormed (Function.update t i (l ++ [a])) := by
  apply wellFormed_update ht
  · intro b hb
    rcases List.mem_append.mp hb with hb | hb
    · exact ht.hashed i b (hl.subset hb)
    · rw [List.mem_singleton] at hb
      exact hb ▸ ha
  · rw [List.map_append, List.nodup_append]
    refine ⟨(ht.nodup i).sublist (hl.map _), List.nodup_singleton _, ?_⟩
    intro k hk k' hk' heq
    obtain ⟨b, hb, rfl⟩ := List.mem_map.mp hk
    rw [List.map_singleton, List.mem_singleton] at hk'
    exact hnew b hb (heq.trans hk')

theorem lookup_insert (L : Layout ι κ α) (t : ι → List α) (a : α) (k : κ) :
    L.lookup (L.insert t a) k = if k = L.key a then some a else L.lookup t k := by
  unfold lookup insert
  by_cases hk : k = L.key a
  · subst hk
    simp
  · rw [if_neg hk]
    by_cases hh : L.hash k = L.hash (L.key a)
    · rw [hh, Function.update_self, List.find?_cons_of_neg (by simpa using Ne.symm hk)]
    · rw [Function.update_of_ne hh]

omit [DecidableEq κ] in
theorem mem_insert {i : ι} {b : α} :
    b ∈ L.insert t a i ↔ (b = a ∧ L.hash (L.key a) = i) ∨ b ∈ t i := by
  rcases eq_or_ne i (L.hash (L.key a)) with rfl | hne
  · rw [insert, Function.update_self, List.mem_cons]
    simp
  · rw [insert, Function.update_of_ne hne]
    simp [hne.symm]

theorem wellFormed_insert (ht : L.WellFormed t) (hn : L.lookup t (L.key a) = none) :
    L.WellFormed (L.insert t a) := by
  apply wellFormed_update ht
  · intro b hb
    rcases List.mem_cons.mp hb with rfl | hb
    · rfl
    · exact ht.hashed _ b hb
  · rw [List.map_cons, List.nodup_cons]
    refine ⟨?_, ht.nodup _⟩
    intro hmem
    obtain ⟨b, hb, hk⟩ := List.mem_map.mp hmem
    simpa [hk] using List.find?_eq_none.mp hn b hb

omit [DecidableEq κ] in
theorem entries_insert_perm {is : List ι} (his : is.Nodup) (hmem : L.hash (L.key a) ∈ is) :
    List.Perm (entries (L.insert t a) is) (a :: entries t is) := by
  induction is with
  | nil => cases hmem
  | cons i is ih =>
    obtain ⟨hi, his⟩ := List.nodup_cons.mp his
    rw [entries, entries, List.flatMap_cons, List.flatMap_cons]
    rcases eq_or_ne i (L.hash (L.key a)) with rfl | hne
    · -- The other buckets are as they were.
      have hrest : ∀ j ∈ is, L.insert t a j = t j := by
        intro j hj
        rw [insert, Function.update_of_ne]
        rintro rfl
        exact hi hj
      rw [List.flatMap_congr hrest, insert, Function.update_self]
      exact List.Perm.refl _
    · have hhead : L.insert t a i = t i := by rw [insert, Function.update_of_ne hne]
      have htail := ih his ((List.mem_cons.mp hmem).resolve_left (Ne.symm hne))
      rw [hhead]
      exact (htail.append_left _).trans List.perm_middle

theorem modify_of_lookup_eq_none (h : L.lookup t k = none) : L.modify t k q f = t := by
  funext i
  by_cases hi : i = L.hash k
  · subst hi
    rw [modify, Function.update_self]
    apply modifyFirst_of_forall
    intro a ha
    have hne := List.find?_eq_none.mp h a ha
    simp at hne
    simp [hne]
  · rw [modify, Function.update_of_ne hi]

theorem map_key_modify (hf : ∀ a, L.key (f a) = L.key a) (i : ι) :
    (L.modify t k q f i).map L.key = (t i).map L.key := by
  by_cases hi : i = L.hash k
  · subst hi
    rw [modify, Function.update_self, map_modifyFirst hf]
  · rw [modify, Function.update_of_ne hi]

theorem lookup_modify (ht : L.WellFormed t) (hf : ∀ a, L.key (f a) = L.key a) (k' : κ) :
    L.lookup (L.modify t k q f) k' =
      if k' = k then (L.lookup t k).map fun a => if q a then f a else a else L.lookup t k' := by
  unfold lookup modify
  by_cases hk : k' = k
  · subst hk
    rw [if_pos rfl, Function.update_self]
    exact find?_modifyFirst_self hf (ht.nodup _)
  · rw [if_neg hk]
    by_cases hh : L.hash k' = L.hash k
    · rw [hh, Function.update_self]
      exact find?_modifyFirst_of_ne hf hk _
    · rw [Function.update_of_ne hh]

theorem wellFormed_modify (ht : L.WellFormed t) (hf : ∀ a, L.key (f a) = L.key a) :
    L.WellFormed (L.modify t k q f) :=
  wellFormed_of_map_key ht (map_key_modify hf)

end Layout

end BucketTable
