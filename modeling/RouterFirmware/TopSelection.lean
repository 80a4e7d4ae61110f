import Mathlib.Data.List.Basic
import Mathlib.Data.List.Count
import Mathlib.Data.List.Induction
import Mathlib.Tactic.Common

/-! # The largest, again and again

A selection takes an item of the largest count below a bound, makes that count the new bound and
goes on. It finds the items of largest count exactly if no count reaches the first bound, and two
items of the same count only stand where one of them is the last to be taken.
-/
namespace TopSelection

variable {α : Type*} (count : α → ℕ)

/-- The first item of the largest count below the bound, and this count. -/
def pick (bound : ℕ) (l : List α) : Option α × ℕ :=
  l.foldl (fun best x =>
    if best.2 < count x ∧ count x < bound then (some x, count x) else best) (none, 0)

def select : ℕ → ℕ → List α → List α
  | 0, _, _ => []
  | n + 1, bound, l =>
    match (pick count bound l).1 with
    | none => []
    | some x => x :: select n (count x) l

/-- The list holds `n` of the items of largest count, or all with a count, in falling order. -/
def IsTop (n : ℕ) (l top : List α) : Prop :=
  ∃ rest, (top ++ rest).Perm (l.filter fun x => 0 < count x) ∧
    top.length = min n (l.filter fun x => 0 < count x).length ∧
    top.Pairwise (fun x y => count y ≤ count x) ∧ ∀ x ∈ top, ∀ y ∈ rest, count y ≤ count x

/-- The counts are below the bound, and in front of two that are the same there are at least
`n - 1` larger ones. -/
structure Distinct (n bound : ℕ) (l : List α) : Prop where
  below : ∀ x ∈ l, count x < bound
  ties : ∀ c, 0 < c → 2 ≤ l.countP (fun x => count x = c) →
    n ≤ l.countP (fun x => c < count x) + 1

def inside (bound : ℕ) (l : List α) : List α :=
  l.filter fun x => 0 < count x ∧ count x < bound

section Pick

variable {count} {bound : ℕ} {l : List α} {x y : α}

variable (count) in
theorem pick_append (bound : ℕ) (l : List α) (x : α) :
    pick count bound (l ++ [x]) =
      if (pick count bound l).2 < count x ∧ count x < bound then (some x, count x)
      else pick count bound l := List.foldl_concat _ _ _ _

variable (count) in
theorem pick_spec (bound : ℕ) (l : List α) :
    (∀ y ∈ l, count y < bound → count y ≤ (pick count bound l).2) ∧
      (((pick count bound l).1 = none ∧ (pick count bound l).2 = 0) ∨
        ∃ x ∈ l, (pick count bound l).1 = some x ∧ (pick count bound l).2 = count x ∧
          0 < count x ∧ count x < bound) := by
  induction l using List.reverseRecOn with
  | nil => exact ⟨by simp, .inl ⟨rfl, rfl⟩⟩
  | append_singleton l z ih =>
    obtain ⟨hle, hfound⟩ := ih
    have hcons := pick_append count bound l z
    by_cases hz : (pick count bound l).2 < count z ∧ count z < bound
    · rw [if_pos hz] at hcons
      rw [hcons]
      refine ⟨fun y hy hb => ?_, .inr ⟨z, by simp, rfl, rfl, by omega, hz.2⟩⟩
      rcases List.mem_append.mp hy with hy | hy
      · exact Nat.le_trans (hle y hy hb) (Nat.le_of_lt hz.1)
      · exact List.mem_singleton.mp hy ▸ Nat.le_refl _
    · rw [if_neg hz] at hcons
      rw [hcons]
      refine ⟨fun y hy hb => ?_, hfound.imp_right fun h => ?_⟩
      · rcases List.mem_append.mp hy with hy | hy
        · exact hle y hy hb
        · rw [List.mem_singleton.mp hy] at hb ⊢
          omega
      · obtain ⟨x, hx, h⟩ := h
        exact ⟨x, List.mem_append_left _ hx, h⟩

end Pick

section Select

variable {count} {n bound : ℕ} {l : List α} {x y : α}

theorem mem_inside : x ∈ inside count bound l ↔ x ∈ l ∧ 0 < count x ∧ count x < bound := by
  rw [inside, List.mem_filter, decide_eq_true_eq]

theorem select_succ_of_nil (h : inside count bound l = []) : select count (n + 1) bound l = [] := by
  obtain ⟨-, ⟨hnone, -⟩ | ⟨x, hx, -, -, hpos, hlt⟩⟩ := pick_spec count bound l
  · rw [select, hnone]
  · have hmem : x ∈ inside count bound l := mem_inside.mpr ⟨hx, hpos, hlt⟩
    rw [h] at hmem
    exact absurd hmem List.not_mem_nil

/-- A selection starts with an item of the largest count below the bound. -/
theorem select_succ_of_mem (h : y ∈ inside count bound l) :
    ∃ x ∈ inside count bound l, select count (n + 1) bound l = x :: select count n (count x) l ∧
      ∀ z ∈ inside count bound l, count z ≤ count x := by
  obtain ⟨hle, ⟨-, hzero⟩ | ⟨x, hx, hsome, hcount, hpos, hlt⟩⟩ := pick_spec count bound l
  · obtain ⟨hy, hpos, hlt⟩ := mem_inside.mp h
    have := hle y hy hlt
    omega
  · refine ⟨x, mem_inside.mpr ⟨hx, hpos, hlt⟩, by rw [select, hsome], fun z hz => ?_⟩
    obtain ⟨hz, -, hb⟩ := mem_inside.mp hz
    exact hcount ▸ hle z hz hb

variable (count) in
/-- The counts fall strictly, from below the bound. -/
theorem select_spec (n bound : ℕ) (l : List α) :
    (∀ x ∈ select count n bound l, x ∈ inside count bound l) ∧
      (select count n bound l).Pairwise fun x y => count y < count x := by
  induction n generalizing bound with
  | zero => exact ⟨fun x hx => absurd hx List.not_mem_nil, List.Pairwise.nil⟩
  | succ n ih =>
    by_cases hnil : inside count bound l = []
    · rw [select_succ_of_nil hnil]
      exact ⟨fun x hx => absurd hx List.not_mem_nil, List.Pairwise.nil⟩
    · obtain ⟨y, hy⟩ := List.exists_mem_of_ne_nil _ hnil
      obtain ⟨x, hx, heq, -⟩ := select_succ_of_mem (n := n) hy
      obtain ⟨hin, hfall⟩ := ih (count x)
      obtain ⟨-, -, hlt⟩ := mem_inside.mp hx
      rw [heq]
      constructor
      · intro z hz
        rcases List.mem_cons.mp hz with rfl | hz
        · exact hx
        · obtain ⟨hz, hpos, hbelow⟩ := mem_inside.mp (hin z hz)
          exact mem_inside.mpr ⟨hz, hpos, Nat.lt_trans hbelow hlt⟩
      · exact List.pairwise_cons.mpr ⟨fun z hz => (mem_inside.mp (hin z hz)).2.2, hfall⟩

/-- The items below the bound are those of the largest count and those below it. -/
theorem inside_perm (hx : x ∈ inside count bound l)
    (hmax : ∀ z ∈ inside count bound l, count z ≤ count x) :
    (inside count bound l).Perm
      ((l.filter fun z => count z = count x) ++ inside count (count x) l) := by
  obtain ⟨-, hpos, hlt⟩ := mem_inside.mp hx
  have hsplit := List.filter_append_perm (fun z => decide (count z = count x))
    (inside count bound l)
  have hfirst : (inside count bound l).filter (fun z => count z = count x) =
      l.filter fun z => count z = count x := by
    rw [inside, List.filter_filter]
    apply List.filter_congr
    intro z _
    by_cases hz : count z = count x
    · simp [hz, hpos, hlt]
    · simp [hz]
  have hsecond : (inside count bound l).filter (fun z => !decide (count z = count x)) =
      inside count (count x) l := by
    rw [inside, inside, List.filter_filter]
    apply List.filter_congr
    intro z hz
    have hle : 0 < count z → count z < bound → count z ≤ count x :=
      fun h h' => hmax z (mem_inside.mpr ⟨hz, h, h'⟩)
    by_cases hpos' : 0 < count z
    · by_cases hb : count z < bound
      · have := hle hpos' hb
        simp only [hpos', hb, and_self, decide_true, Bool.and_true, true_and, ← decide_not]
        exact decide_eq_decide.mpr (by omega)
      · have hnot : ¬ count z < count x := by omega
        simp [hb, hnot]
    · simp [hpos']
  rw [hfirst, hsecond] at hsplit
  exact hsplit.symm

theorem length_filter_inside (hx : x ∈ inside count bound l)
    (hmax : ∀ z ∈ inside count bound l, count z ≤ count x) :
    (inside count bound l).length =
      l.countP (fun z => count z = count x) + (inside count (count x) l).length := by
  rw [(inside_perm hx hmax).length_eq, List.length_append, List.countP_eq_length_filter]

theorem filter_inside (c : ℕ) : ((inside count bound l).filter fun z => decide (c < count z)) =
    l.filter fun z => c < count z ∧ count z < bound := by
  rw [inside, List.filter_filter]
  apply List.filter_congr
  intro z _
  rw [← Bool.decide_and]
  exact decide_eq_decide.mpr (by omega)

theorem filter_eq_singleton (hx : x ∈ l) (hone : ¬ 2 ≤ l.countP fun z => count z = count x) :
    l.filter (fun z => count z = count x) = [x] := by
  have hmem : x ∈ l.filter fun z => count z = count x :=
    List.mem_filter.mpr ⟨hx, decide_eq_true rfl⟩
  have hge := List.length_pos_of_mem hmem
  rw [List.countP_eq_length_filter] at hone
  obtain ⟨z, hz⟩ := List.length_eq_one_iff.mp
    (show (l.filter fun z => count z = count x).length = 1 by omega)
  rw [hz] at hmem ⊢
  rw [List.mem_singleton.mp hmem]

/-- Between the largest count and the bound there is no item. -/
theorem filter_above_eq_nil (hmax : ∀ z ∈ inside count bound l, count z ≤ count x) :
    (l.filter fun z => count x < count z ∧ count z < bound) = [] := by
  apply List.filter_eq_nil_iff.mpr
  intro z hz hin
  obtain ⟨hgt, hb⟩ := of_decide_eq_true hin
  have := hmax z (mem_inside.mpr ⟨hz, by omega, hb⟩)
  omega

/-- Above a smaller count there is one item more when the largest one is counted too. -/
theorem length_filter_above (hx : x ∈ inside count bound l)
    (hmax : ∀ z ∈ inside count bound l, count z ≤ count x)
    (hsingle : l.filter (fun z => count z = count x) = [x]) {c : ℕ} (hc : c < count x) :
    (l.filter fun z => c < count z ∧ count z < bound).length =
      (l.filter fun z => c < count z ∧ count z < count x).length + 1 := by
  have hfilter := ((inside_perm hx hmax).filter fun z => decide (c < count z)).length_eq
  rw [filter_inside, List.filter_append, hsingle, filter_inside, List.length_append,
    List.filter_cons_of_pos (by simpa using hc), List.filter_nil, Nat.add_comm] at hfilter
  exact hfilter

/-- One item of the largest count is at the top, whatever others of its count there are. -/
theorem top_singleton (hx : x ∈ inside count bound l)
    (hmax : ∀ z ∈ inside count bound l, count z ≤ count x) :
    ∃ rest, ([x] ++ rest).Perm (inside count bound l) ∧
      1 = min 1 (inside count bound l).length ∧ ∀ y ∈ rest, count y ≤ count x := by
  obtain ⟨s, t, hst⟩ := List.append_of_mem hx
  have hperm : (x :: (s ++ t)).Perm (inside count bound l) := by
    rw [hst]
    exact List.perm_middle.symm
  refine ⟨s ++ t, hperm, ?_, ?_⟩
  · have := List.length_pos_of_mem hx
    omega
  · intro y hy
    exact hmax y (hperm.mem_iff.mp (List.mem_cons_of_mem x hy))

/-- Where each of the counts that are taken stands once, the selection is at the top. -/
theorem select_top (n bound : ℕ) (l : List α)
    (hties : ∀ c, 0 < c → c < bound → 2 ≤ l.countP (fun x => count x = c) →
      n ≤ (l.filter fun x => c < count x ∧ count x < bound).length + 1) :
    ∃ rest, (select count n bound l ++ rest).Perm (inside count bound l) ∧
      (select count n bound l).length = min n (inside count bound l).length ∧
      ∀ x ∈ select count n bound l, ∀ y ∈ rest, count y ≤ count x := by
  induction n generalizing bound with
  | zero => exact ⟨inside count bound l, List.Perm.refl _, by simp [select], by simp [select]⟩
  | succ n ih =>
    by_cases hnil : inside count bound l = []
    · rw [select_succ_of_nil hnil, hnil]
      exact ⟨[], List.Perm.refl _, by simp, by simp⟩
    · obtain ⟨y, hy⟩ := List.exists_mem_of_ne_nil _ hnil
      obtain ⟨x, hx, heq, hmax⟩ := select_succ_of_mem (n := n) hy
      obtain ⟨hxl, hpos, hlt⟩ := mem_inside.mp hx
      rw [heq]
      rcases Nat.eq_zero_or_pos n with rfl | hn
      · -- The last one to be taken may leave others of its count.
        obtain ⟨rest, hperm, hcount, hle⟩ := top_singleton hx hmax
        refine ⟨rest, hperm, hcount, ?_⟩
        intro z hz w hw
        rw [List.mem_singleton.mp hz]
        exact hle w hw
      · have hsingle : l.filter (fun z => count z = count x) = [x] := by
          apply filter_eq_singleton hxl
          intro htwo
          have hfew := hties (count x) hpos hlt htwo
          rw [filter_above_eq_nil hmax, List.length_nil] at hfew
          omega
        obtain ⟨rest, hrest, hcount, hle⟩ := ih (count x) fun c hc hcx htwo => by
          have hmore := hties c hc (Nat.lt_trans hcx hlt) htwo
          rw [length_filter_above hx hmax hsingle hcx] at hmore
          omega
        refine ⟨rest, ?_, ?_, ?_⟩
        · refine List.Perm.trans ?_ (inside_perm hx hmax).symm
          rw [hsingle]
          exact hrest.cons x
        · rw [length_filter_inside hx hmax, List.countP_eq_length_filter, hsingle,
            List.length_cons, hcount]
          simp only [List.length_cons, List.length_nil]
          omega
        · intro z hz w hw
          have hw' := (mem_inside.mp (hrest.mem_iff.mp (List.mem_append_right _ hw))).2.2
          rcases List.mem_cons.mp hz with rfl | hz
          · exact Nat.le_of_lt hw'
          · exact hle z hz w hw

theorem inside_eq_of_below (h : ∀ x ∈ l, count x < bound) :
    inside count bound l = l.filter fun x => 0 < count x := by
  rw [inside]
  apply List.filter_congr
  intro x hx
  exact decide_eq_decide.mpr ⟨fun h' => h'.1, fun h' => ⟨h', h x hx⟩⟩

theorem countP_le_one {top : List α} (hfall : top.Pairwise fun x y => count y < count x) (c : ℕ) :
    top.countP (fun x => count x = c) ≤ 1 := by
  induction top with
  | nil => exact Nat.zero_le 1
  | cons a top ih =>
    obtain ⟨ha, hfall⟩ := List.pairwise_cons.mp hfall
    rw [List.countP_cons]
    by_cases hc : count a = c
    · have hzero : top.countP (fun x => count x = c) = 0 := by
        apply List.countP_eq_zero.mpr
        intro z hz heq
        have hlt := ha z hz
        rw [of_decide_eq_true heq] at hlt
        omega
      simp [hzero, hc]
    · simpa [hc] using ih hfall

/-- A count that reaches the bound is left out, and it is larger than all that are taken. -/
theorem below_of_isTop {top : List α} (h : IsTop count n l top) (hn : 0 < n) (hbound : 0 < bound)
    (htop : ∀ x ∈ top, count x < bound) : ∀ x ∈ l, count x < bound := by
  obtain ⟨rest, hperm, hlen, -, hle⟩ := h
  intro x hx
  by_contra hb
  have hmem : x ∈ l.filter fun x => 0 < count x :=
    List.mem_filter.mpr ⟨hx, decide_eq_true (by omega)⟩
  have hnonempty : 0 < top.length := by
    have hpos := List.length_pos_of_mem hmem
    omega
  rcases List.mem_append.mp (hperm.mem_iff.mpr hmem) with hin | hout
  · exact hb (htop x hin)
  · obtain ⟨y, hy⟩ := List.exists_mem_of_length_pos hnonempty
    have hyx := hle y hy x hout
    have hyb := htop y hy
    omega

/-- One of two that are the same is left out, so that `n` have been taken, all as large. -/
theorem ties_of_isTop {top : List α} (h : IsTop count n l top)
    (hfall : top.Pairwise fun x y => count y < count x) {c : ℕ} (hc : 0 < c)
    (htwo : 2 ≤ l.countP fun x => count x = c) : n ≤ l.countP (fun x => c < count x) + 1 := by
  obtain ⟨rest, hperm, hlen, -, hle⟩ := h
  have hone := countP_le_one hfall c
  have hsum := hperm.countP_eq fun x => decide (count x = c)
  have hall : (l.filter fun x => 0 < count x).countP (fun x => count x = c) =
      l.countP fun x => count x = c := by
    rw [List.countP_filter]
    apply List.countP_congr
    intro z _
    simp only [Bool.and_eq_true, decide_eq_true_eq]
    omega
  rw [List.countP_append, hall] at hsum
  have hleft : 0 < rest.countP fun x => count x = c := by omega
  obtain ⟨z, hz, hzc⟩ := List.countP_pos_iff.mp hleft
  have hzc := of_decide_eq_true hzc
  have hlength := hperm.length_eq
  rw [List.length_append] at hlength
  have hrest := List.length_pos_of_mem hz
  have hsplit := List.length_eq_countP_add_countP (fun x => decide (count x = c)) (l := top)
  have hlarger : top.countP (fun x => ¬ decide (count x = c) = true) =
      top.countP fun x => c < count x := by
    apply List.countP_congr
    intro y hy
    have hyz := hle y hy z hz
    simp only [decide_eq_true_eq]
    omega
  have hsub : top.countP (fun x => c < count x) ≤ l.countP fun x => c < count x := by
    have hmore := hperm.countP_eq fun x => decide (c < count x)
    have hfewer := (List.filter_sublist (l := l) (p := fun x => decide (0 < count x))).countP_le
      (p := fun x => decide (c < count x))
    rw [List.countP_append] at hmore
    omega
  omega

/-- When a selection finds the items of largest count. -/
theorem select_isTop_iff (hn : 0 < n) (hbound : 0 < bound) :
    IsTop count n l (select count n bound l) ↔ Distinct count n bound l := by
  obtain ⟨hinside, hfall⟩ := select_spec count n bound l
  have htop : ∀ x ∈ select count n bound l, count x < bound :=
    fun x hx => (mem_inside.mp (hinside x hx)).2.2
  constructor
  · intro h
    exact ⟨below_of_isTop h hn hbound htop, fun c hc htwo => ties_of_isTop h hfall hc htwo⟩
  · intro h
    obtain ⟨rest, hperm, hlen, hle⟩ := select_top n bound l fun c hc hb htwo => by
      have hmore := h.ties c hc htwo
      rw [List.countP_eq_length_filter] at hmore
      have hfilter : (l.filter fun x => decide (c < count x)) =
          l.filter fun x => c < count x ∧ count x < bound := by
        apply List.filter_congr
        intro x hx
        exact decide_eq_decide.mpr ⟨fun h' => ⟨h', h.below x hx⟩, fun h' => h'.1⟩
      rwa [hfilter] at hmore
    rw [inside_eq_of_below h.below] at hperm hlen
    exact ⟨rest, hperm, hlen, hfall.imp fun h => Nat.le_of_lt h, hle⟩

end Select

end TopSelection
