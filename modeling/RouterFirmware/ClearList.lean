import Mathlib.Data.List.Induction
import Mathlib.Data.List.TakeWhile
import RouterFirmware.LinkedSegment
import RouterFirmware.MulticastGroups

/-! # The clear list of the multicast groups

`clear_mc_hash_table` looks for the oldest groups with an array of five nodes, which are linked into
a free list and a list with the newest first. Here the links are in memory; `MulticastGroups` has
the lists.
-/
namespace ClearList

open LinkedSegment
open MulticastGroups (McNode McTable clearNum)

/-- `mc_node_t` of the array `clist`. -/
structure Cell where
  node : McNode
  next : Option (Fin clearNum)

structure ClearMem where
  clist : Fin clearNum → Cell
  ptrUsed : Option (Fin clearNum)
  ptrQueue : Option (Fin clearNum)

def ClearMem.setNode (m : ClearMem) (p : Fin clearNum) (mid : McNode) : ClearMem :=
  { m with clist := Function.update m.clist p ⟨mid, (m.clist p).next⟩ }

def ClearMem.setNext (m : ClearMem) (p : Fin clearNum) (q : Option (Fin clearNum)) : ClearMem :=
  { m with clist := Function.update m.clist p ⟨(m.clist p).node, q⟩ }

/-- The node `p` gets new contents and goes behind `new`. -/
def ClearMem.putBehind (m : ClearMem) (p new : Fin clearNum) (mid : McNode) : ClearMem :=
  let m := m.setNode p mid
  let m := m.setNext p (m.clist new).next
  m.setNext new (some p)

/-- `modify_clear_list`; to follow a null pointer fails. -/
def modifyClearList (new : Option (Fin clearNum)) (mid : McNode) (m : ClearMem) :
    Option ClearMem :=
  match m.ptrQueue with
  | none => do
    let used ← m.ptrUsed
    if some used = new then return m.setNode used mid
    else
      let temp := (m.clist used).next
      let new ← new
      return { m.putBehind used new mid with ptrUsed := temp }
  | some queue =>
    let temp := (m.clist queue).next
    match new with
    | none =>
      let m := m.setNode queue mid
      return { m.setNext queue m.ptrUsed with ptrUsed := some queue, ptrQueue := temp }
    | some new => return { m.putBehind queue new mid with ptrQueue := temp }

/-- The inner loop for the node `a`; `c` is the last node of the list that is newer. -/
def scan (a : McNode) (m : ClearMem) : ℕ → Option (Fin clearNum) → Option (Fin clearNum) →
    Option ClearMem
  | 0, _, _ => none
  | fuel + 1, b, c =>
    match b with
    | none => modifyClearList none a m
    | some b =>
      if a.jiffy < (m.clist b).node.jiffy then
        if (m.clist b).next = none then modifyClearList (some b) a m
        else scan a m fuel (m.clist b).next (some b)
      else if c ≠ none then modifyClearList c a m
      else if m.ptrQueue ≠ none then modifyClearList none a m
      else some m

/-- The array after `memset` and the loop that links it. -/
def ClearMem.init : ClearMem where
  clist i := ⟨⟨0, 0⟩, if h : i.val + 1 < clearNum then some ⟨i.val + 1, h⟩ else none⟩
  ptrUsed := none
  ptrQueue := some ⟨0, by decide⟩

/-- `clear_mc_hash_table` as far as it looks for the oldest groups. -/
def buildClearList (t : McTable) : Option ClearMem :=
  t.nodes.foldlM (fun m a => scan a m (clearNum + 1) m.ptrUsed none) .init

section Memory

variable {m : ClearMem} {p q i : Fin clearNum} {mid : McNode} {n : Option (Fin clearNum)}

def ClearMem.link (m : ClearMem) : Option (Fin clearNum) → Option (Fin clearNum)
  | none => none
  | some i => (m.clist i).next

@[simp] theorem setNode_ptrUsed : (m.setNode p mid).ptrUsed = m.ptrUsed := rfl

@[simp] theorem setNode_ptrQueue : (m.setNode p mid).ptrQueue = m.ptrQueue := rfl

@[simp] theorem setNext_ptrUsed : (m.setNext p n).ptrUsed = m.ptrUsed := rfl

@[simp] theorem setNext_ptrQueue : (m.setNext p n).ptrQueue = m.ptrQueue := rfl

@[simp] theorem setNode_self : (m.setNode p mid).clist p = ⟨mid, (m.clist p).next⟩ :=
  Function.update_self ..

theorem setNode_of_ne (h : i ≠ p) : (m.setNode p mid).clist i = m.clist i :=
  Function.update_of_ne h ..

@[simp] theorem setNext_self : (m.setNext p n).clist p = ⟨(m.clist p).node, n⟩ :=
  Function.update_self ..

theorem setNext_of_ne (h : i ≠ p) : (m.setNext p n).clist i = m.clist i :=
  Function.update_of_ne h ..

@[simp] theorem putBehind_ptrUsed : (m.putBehind p q mid).ptrUsed = m.ptrUsed := rfl

@[simp] theorem putBehind_ptrQueue : (m.putBehind p q mid).ptrQueue = m.ptrQueue := rfl

theorem putBehind_self (h : p ≠ q) :
    (m.putBehind p q mid).clist p = ⟨mid, (m.clist q).next⟩ := by
  simp [ClearMem.putBehind, setNext_of_ne h, setNode_of_ne h.symm]

theorem putBehind_new (h : p ≠ q) :
    (m.putBehind p q mid).clist q = ⟨(m.clist q).node, some p⟩ := by
  simp [ClearMem.putBehind, setNext_of_ne h.symm, setNode_of_ne h.symm]

theorem putBehind_of_ne (hp : i ≠ p) (hq : i ≠ q) :
    (m.putBehind p q mid).clist i = m.clist i := by
  simp only [ClearMem.putBehind, setNext_of_ne hq, setNext_of_ne hp, setNode_of_ne hp]

end Memory

/-- The nodes `l` of the array hang together, from `p` to `z`, and hold what they are said to. -/
def Chain (m : ClearMem) (p : Option (Fin clearNum)) (l : List (Fin clearNum × McNode))
    (z : Option (Fin clearNum)) : Prop :=
  Seg m.link (fun u => some u.1) (fun u : Fin clearNum × McNode => (m.clist u.1).node = u.2) p l z

/-- The list from `ptr_used` on is `us`, and all other nodes of the array are free. -/
structure Represents (m : ClearMem) (us : List (Fin clearNum × McNode)) : Prop where
  used : Chain m m.ptrUsed us none
  free : ∃ qs, Chain m m.ptrQueue qs none ∧
    (us.map Prod.fst ++ qs.map Prod.fst).Perm (List.finRange clearNum)

section Chains

variable {m m' : ClearMem} {before after l us : List (Fin clearNum × McNode)}
  {u : Fin clearNum × McNode} {q : Fin clearNum} {a : McNode} {p z : Option (Fin clearNum)}

theorem chain_cons : Chain m p (u :: l) z ↔
    p = some u.1 ∧ (m.clist u.1).node = u.2 ∧ Chain m (m.clist u.1).next l z :=
  Iff.rfl

theorem Chain.frame (h : Chain m p l z) (hsame : ∀ u ∈ l, m'.clist u.1 = m.clist u.1) :
    Chain m' p l z := by
  apply Seg.frame h
  · intro u hu
    simp only [ClearMem.link, hsame u hu]
  · intro u hu hnode
    rw [hsame u hu]
    exact hnode

theorem Chain.push (h : Chain m p l z) (hq : m'.clist q = ⟨a, p⟩)
    (hsame : ∀ u ∈ l, m'.clist u.1 = m.clist u.1) : Chain m' (some q) ((q, a) :: l) z := by
  refine ⟨rfl, congrArg Cell.node hq, ?_⟩
  have hnext : m'.link (some q) = p := congrArg Cell.next hq
  rw [hnext]
  exact h.frame hsame

theorem Chain.insert (h : Chain m p (before ++ u :: after) z)
    (hq : m'.clist q = ⟨a, (m.clist u.1).next⟩)
    (hu : m'.clist u.1 = ⟨(m.clist u.1).node, some q⟩)
    (hbefore : ∀ v ∈ before, m'.clist v.1 = m.clist v.1)
    (hafter : ∀ v ∈ after, m'.clist v.1 = m.clist v.1) :
    Chain m' p (before ++ u :: (q, a) :: after) z := by
  obtain ⟨_, hfront, rfl, hnode, hback⟩ := seg_append.mp h
  refine seg_append.mpr ⟨_, Chain.frame hfront hbefore, rfl, ?_, ?_⟩
  · exact (congrArg Cell.node hu).trans hnode
  · have hnext : m'.link (some u.1) = some q := congrArg Cell.next hu
    rw [hnext]
    exact Chain.push hback hq hafter

def last (l : List (Fin clearNum × McNode)) : Option (Fin clearNum) := l.getLast?.map Prod.fst

@[simp] theorem last_nil : last [] = none := rfl

@[simp] theorem last_concat (l : List (Fin clearNum × McNode)) (u : Fin clearNum × McNode) :
    last (l ++ [u]) = some u.1 := by
  simp [last]

theorem ne_of_nodup {l k : List (Fin clearNum × McNode)} {v : Fin clearNum × McNode}
    (h : (l.map Prod.fst ++ v.1 :: k.map Prod.fst).Nodup) :
    (∀ u ∈ l, u.1 ≠ v.1) ∧ ∀ u ∈ k, u.1 ≠ v.1 := by
  have hnotMem := (List.nodup_middle.mp h).notMem
  rw [List.mem_append, not_or] at hnotMem
  exact ⟨fun u hu heq => hnotMem.1 (heq ▸ List.mem_map_of_mem hu),
    fun u hu heq => hnotMem.2 (heq ▸ List.mem_map_of_mem hu)⟩

/-- There is a free node: it is put behind `before`. -/
theorem modify_free (h : Represents m (before ++ after)) (hqueue : m.ptrQueue = some q) :
    ∃ m', modifyClearList (last before) a m = some m' ∧
      Represents m' (before ++ (q, a) :: after) := by
  obtain ⟨hused, qs, hfree, hperm⟩ := h
  rw [hqueue] at hfree
  cases qs with
  | nil => cases hfree
  | cons v qs =>
    obtain ⟨heq, -, hrest⟩ := hfree
    obtain rfl : q = v.1 := Option.some.inj heq
    have hnodup := hperm.nodup_iff.mpr (List.nodup_finRange clearNum)
    rw [List.map_cons] at hnodup hperm
    obtain ⟨hne, hneFree⟩ := ne_of_nodup hnodup
    have hperm' : ((before ++ (v.1, a) :: after).map Prod.fst ++ qs.map Prod.fst).Perm
        (List.finRange clearNum) := by
      refine List.Perm.trans ?_ hperm
      simp only [List.map_append, List.map_cons, List.append_assoc, List.cons_append]
      exact List.Perm.append_left _ List.perm_middle.symm
    rcases List.eq_nil_or_concat' before with rfl | ⟨before, u, rfl⟩
    · refine ⟨_, by simp only [modifyClearList, hqueue, last_nil]; rfl, ?_, qs, ?_, hperm'⟩
      · apply Chain.push hused
        · simp
        · intro u hu
          simp only [setNext_of_ne (hne u hu), setNode_of_ne (hne u hu)]
      · apply Chain.frame hrest
        intro u hu
        simp only [setNext_of_ne (hneFree u hu), setNode_of_ne (hneFree u hu)]
    · have hu : u.1 ≠ v.1 := hne u (by simp)
      have hnodup' : ((before.map Prod.fst) ++ u.1 :: (after ++ v :: qs).map Prod.fst).Nodup := by
        simpa using hnodup
      obtain ⟨hneFront, hneBack⟩ := ne_of_nodup hnodup'
      refine ⟨_, by simp only [modifyClearList, hqueue, last_concat]; rfl, ?_, qs, ?_, hperm'⟩
      · rw [List.append_assoc, List.singleton_append] at hused ⊢
        apply Chain.insert hused
        · exact putBehind_self hu.symm
        · exact putBehind_new hu.symm
        · intro w hw
          exact putBehind_of_ne (hne w (by simp [hw])) (hneFront w hw)
        · intro w hw
          exact putBehind_of_ne (hne w (by simp [hw])) (hneBack w (by simp [hw]))
      · apply Chain.frame hrest
        intro w hw
        exact putBehind_of_ne (hneFree w hw) (hneBack w (by simp [hw]))

/-- All nodes are in the list: the newest one is taken out of `before` and put behind it. -/
theorem modify_full (h : Represents m (u :: before ++ after)) (hqueue : m.ptrQueue = none) :
    ∃ m', modifyClearList (last (u :: before)) a m = some m' ∧
      Represents m' (before ++ (u.1, a) :: after) := by
  obtain ⟨hused, qs, hfree, hperm⟩ := h
  have hnodup := hperm.nodup_iff.mpr (List.nodup_finRange clearNum)
  rw [hqueue] at hfree
  have hqs : qs = [] := by
    cases qs with
    | nil => rfl
    | cons v qs => cases hfree.1
  subst hqs
  simp only [List.map_nil, List.append_nil] at hperm hnodup
  rw [List.cons_append] at hused
  obtain ⟨hptr, -, hrest⟩ := chain_cons.mp hused
  have hperm' : ((before ++ (u.1, a) :: after).map Prod.fst ++
      ([] : List (Fin clearNum × McNode)).map Prod.fst).Perm (List.finRange clearNum) := by
    refine List.Perm.trans ?_ hperm
    simp only [List.map_nil, List.append_nil, List.map_append, List.map_cons, List.cons_append]
    exact List.perm_middle
  have hne : ∀ w ∈ before ++ after, w.1 ≠ u.1 :=
    (ne_of_nodup (l := []) (by simpa using hnodup)).2
  rcases List.eq_nil_or_concat' before with rfl | ⟨before, v, rfl⟩
  · refine ⟨m.setNode u.1 a, ?_, ?_, [], hqueue, hperm'⟩
    · have hlast : last [u] = some u.1 := rfl
      simp [modifyClearList, hqueue, hptr, hlast]
    · refine chain_cons.mpr ⟨hptr, by simp, ?_⟩
      rw [setNode_self]
      exact hrest.frame fun w hw => setNode_of_ne (hne w (by simpa using hw))
  · have hv : v.1 ≠ u.1 := hne v (by simp)
    have hlast : last (u :: (before ++ [v])) = some v.1 := last_concat (u :: before) v
    have hnodup' : ((u :: before).map Prod.fst ++ v.1 :: after.map Prod.fst).Nodup := by
      simpa using hnodup
    obtain ⟨hneFront, hneBack⟩ := ne_of_nodup hnodup'
    refine ⟨{ m.putBehind u.1 v.1 a with ptrUsed := (m.clist u.1).next }, ?_, ?_, [], hqueue,
      hperm'⟩
    · have hne' : ¬ u.1 = v.1 := hv.symm
      simp [modifyClearList, hqueue, hptr, hlast, hne']
    · rw [List.append_assoc, List.singleton_append] at hrest ⊢
      apply Chain.insert hrest
      · exact putBehind_self hv.symm
      · exact putBehind_new hv.symm
      · intro w hw
        exact putBehind_of_ne (hne w (by simp [hw])) (hneFront w (List.mem_cons_of_mem _ hw))
      · intro w hw
        exact putBehind_of_ne (hne w (by simp [hw])) (hneBack w hw)

end Chains

section Scan

variable {m : ClearMem} {before rest us : List (Fin clearNum × McNode)}
  {b : Option (Fin clearNum)} {fuel : ℕ}

def newer (a : McNode) (us : List (Fin clearNum × McNode)) : List (Fin clearNum × McNode) :=
  us.takeWhile fun u => a.jiffy < u.2.jiffy

/-- The loop puts `a` behind the nodes that are newer, but leaves out what is not older than any
node of a full list. -/
theorem scan_eq (a : McNode) (hrest : Chain m b rest none) (hfuel : rest.length < fuel)
    (hnil : rest = [] → before = []) :
    scan a m fuel b (last before) =
      if before ++ newer a rest = [] ∧ rest ≠ [] ∧ m.ptrQueue = none then some m
      else modifyClearList (last (before ++ newer a rest)) a m := by
  induction rest generalizing before b fuel with
  | nil =>
    obtain ⟨fuel, rfl⟩ : ∃ n, fuel = n + 1 := ⟨fuel - 1, by simp at hfuel; omega⟩
    obtain rfl : b = none := hrest
    simp [scan, hnil rfl, newer]
  | cons u rest ih =>
    obtain ⟨fuel, rfl⟩ : ∃ n, fuel = n + 1 := ⟨fuel - 1, by simp at hfuel; omega⟩
    obtain ⟨rfl, hnode, hnext⟩ := chain_cons.mp hrest
    simp only [scan, hnode]
    by_cases hlt : a.jiffy < u.2.jiffy
    · have hnewer : before ++ newer a (u :: rest) = (before ++ [u]) ++ newer a rest := by
        simp [newer, hlt]
      have hne : ¬ ((before ++ [u]) ++ newer a rest = [] ∧ u :: rest ≠ [] ∧
          m.ptrQueue = none) := by
        simp
      rw [if_pos hlt, hnewer, if_neg hne]
      cases rest with
      | nil =>
        have hend : (m.clist u.1).next = none := hnext
        simp [hend, newer]
      | cons v rest =>
        have hsome : (m.clist u.1).next = some v.1 := hnext.1
        have hstep := @ih (before ++ [u]) _ fuel hnext (by simpa using hfuel) (by simp)
        rw [last_concat, if_neg (by simp)] at hstep
        rw [if_neg (by simp [hsome])]
        exact hstep
    · have hnewer : before ++ newer a (u :: rest) = before := by simp [newer, hlt]
      rw [if_neg hlt, hnewer]
      rcases List.eq_nil_or_concat' before with rfl | ⟨before, v, rfl⟩
      · by_cases hqueue : m.ptrQueue = none
        · simp [hqueue]
        · simp [hqueue]
      · simp

theorem Represents.length_le (h : Represents m us) : us.length ≤ clearNum := by
  obtain ⟨qs, -, hperm⟩ := h.free
  have hlength := hperm.length_eq
  rw [List.length_append, List.length_map, List.length_finRange] at hlength
  omega

theorem Represents.length_lt_iff (h : Represents m us) :
    us.length < clearNum ↔ m.ptrQueue ≠ none := by
  obtain ⟨qs, hfree, hperm⟩ := h.free
  have hlength := hperm.length_eq
  rw [List.length_append, List.length_map, List.length_map, List.length_finRange] at hlength
  cases qs with
  | nil =>
    have hqueue : m.ptrQueue = none := hfree
    rw [List.length_nil] at hlength
    exact iff_of_false (by omega) (not_not.mpr hqueue)
  | cons v qs =>
    have hqueue : m.ptrQueue = some v.1 := hfree.1
    rw [List.length_cons] at hlength
    exact iff_of_true (by omega) (by simp [hqueue])

/-- The array does what `MulticastGroups.modifyClearList` does with lists. -/
theorem scan_spec (h : Represents m us) (a : McNode) :
    ∃ m' us', scan a m (clearNum + 1) m.ptrUsed none = some m' ∧ Represents m' us' ∧
      us'.map Prod.snd = MulticastGroups.modifyClearList (us.map Prod.snd) a := by
  have hscan := @scan_eq m [] us m.ptrUsed (clearNum + 1) a h.used
    (Nat.lt_succ_of_le h.length_le) (fun _ => rfl)
  rw [List.nil_append, last_nil] at hscan
  have hsplit : us = newer a us ++ us.dropWhile fun u => a.jiffy < u.2.jiffy :=
    List.takeWhile_append_dropWhile.symm
  have hnewer : (us.map Prod.snd).takeWhile (fun b => a.jiffy < b.jiffy) =
      (newer a us).map Prod.snd := List.takeWhile_map ..
  have holder : (us.map Prod.snd).dropWhile (fun b => a.jiffy < b.jiffy) =
      (us.dropWhile fun u => a.jiffy < u.2.jiffy).map Prod.snd := List.dropWhile_map ..
  rw [MulticastGroups.modifyClearList, hnewer, holder, List.length_map]
  by_cases hroom : us.length < clearNum
  · obtain ⟨q, hqueue⟩ := Option.ne_none_iff_exists'.mp (h.length_lt_iff.mp hroom)
    rw [hsplit] at h
    obtain ⟨m', hrun, hrep⟩ := modify_free (a := a) h hqueue
    refine ⟨m', _, ?_, hrep, ?_⟩
    · rw [hscan, if_neg (by simp [hqueue]), hrun]
    · simp [hroom]
  · have hqueue : m.ptrQueue = none := not_not.mp fun hne => hroom (h.length_lt_iff.mpr hne)
    have hne : us ≠ [] := by
      rintro rfl
      exact hroom (by decide)
    cases hcase : newer a us with
    | nil =>
      refine ⟨m, us, ?_, h, by simp [hroom]⟩
      rw [hscan, hcase, if_pos ⟨rfl, hne, hqueue⟩]
    | cons u front =>
      rw [hcase] at hsplit hscan
      rw [hsplit] at h
      obtain ⟨m', hrun, hrep⟩ := modify_full (a := a) h hqueue
      refine ⟨m', _, ?_, hrep, ?_⟩
      · rw [hscan, if_neg (by simp), hrun]
      · simp [hroom]

theorem foldlM_scan (l : List McNode) (h : Represents m us) :
    ∃ m' us', l.foldlM (fun m a => scan a m (clearNum + 1) m.ptrUsed none) m = some m' ∧
      Represents m' us' ∧
      us'.map Prod.snd = l.foldl MulticastGroups.modifyClearList (us.map Prod.snd) := by
  induction l generalizing m us with
  | nil => exact ⟨m, us, rfl, h, rfl⟩
  | cons a l ih =>
    obtain ⟨m₁, us₁, hrun, h₁, hmap⟩ := scan_spec h a
    obtain ⟨m₂, us₂, hrun₂, h₂, hmap₂⟩ := ih h₁
    refine ⟨m₂, us₂, ?_, h₂, ?_⟩
    · rw [List.foldlM_cons, hrun]
      exact hrun₂
    · rw [hmap₂, hmap, List.foldl_cons]

theorem represents_init : Represents .init [] where
  used := rfl
  free := by
    refine ⟨(List.finRange clearNum).map fun i => (i, ⟨0, 0⟩), ?_, by decide⟩
    exact ⟨rfl, rfl, rfl, rfl, rfl, rfl, rfl, rfl, rfl, rfl, rfl⟩

end Scan

/-- `used` are the oldest of the nodes `l`, as many as there is room for, with the newest first. -/
structure Oldest (l used : List McNode) : Prop where
  length : used.length = min l.length clearNum
  sorted : used.Pairwise fun x y => y.jiffy ≤ x.jiffy
  rest : ∃ rest, l.Perm (used ++ rest) ∧ ∀ x ∈ rest, ∀ y ∈ used, y.jiffy ≤ x.jiffy

section Oldest

variable {l used : List McNode} {a : McNode}

/-- In a sorted list the nodes from the first one on that is not newer than `a` are not newer. -/
theorem le_of_mem_dropWhile (h : used.Pairwise fun x y => y.jiffy ≤ x.jiffy) {b : McNode}
    (hb : b ∈ used.dropWhile fun b => a.jiffy < b.jiffy) : b.jiffy ≤ a.jiffy := by
  induction used with
  | nil => cases hb
  | cons c used ih =>
    obtain ⟨hc, hused⟩ := List.pairwise_cons.mp h
    by_cases hlt : a.jiffy < c.jiffy
    · rw [List.dropWhile_cons_of_pos (by simpa using hlt)] at hb
      exact ih hused hb
    · rw [List.dropWhile_cons_of_neg (by simpa using hlt)] at hb
      have hca := UInt64.not_lt.mp hlt
      rcases List.mem_cons.mp hb with rfl | hb
      · exact hca
      · exact UInt64.le_trans (hc b hb) hca

theorem sorted_insert {newer older : List McNode}
    (h : (newer ++ older).Pairwise fun x y => y.jiffy ≤ x.jiffy)
    (hnewer : ∀ b ∈ newer, a.jiffy < b.jiffy) (holder : ∀ b ∈ older, b.jiffy ≤ a.jiffy) :
    (newer ++ a :: older).Pairwise fun x y => y.jiffy ≤ x.jiffy := by
  obtain ⟨hfront, hback, hcross⟩ := List.pairwise_append.mp h
  refine List.pairwise_append.mpr ⟨hfront, List.pairwise_cons.mpr ⟨holder, hback⟩, ?_⟩
  intro b hb c hc
  rcases List.mem_cons.mp hc with rfl | hc
  · exact UInt64.le_of_lt (hnewer b hb)
  · exact hcross b hb c hc

theorem Oldest.fill {newer older : List McNode} (h : Oldest l (newer ++ older))
    (hroom : (newer ++ older).length < clearNum)
    (hinsert : (newer ++ a :: older).Pairwise fun x y => y.jiffy ≤ x.jiffy) :
    Oldest (l ++ [a]) (newer ++ a :: older) := by
  obtain ⟨hlength, -, rest, hperm, -⟩ := h
  have hlen := hperm.length_eq
  simp only [List.length_append] at hlength hlen hroom
  obtain rfl : rest = [] := List.eq_nil_of_length_eq_zero (by omega)
  refine ⟨?_, hinsert, [], ?_, by simp⟩
  · simp only [List.length_append, List.length_cons, List.length_nil]
    omega
  · rw [List.append_nil] at hperm ⊢
    calc (l ++ [a]).Perm (a :: l) := List.perm_append_singleton a l
      _ |>.Perm (a :: (newer ++ older)) := hperm.cons a
      _ |>.Perm (newer ++ a :: older) := List.perm_middle.symm

theorem Oldest.keep (h : Oldest l used) (hfull : clearNum ≤ used.length)
    (holder : ∀ b ∈ used, b.jiffy ≤ a.jiffy) : Oldest (l ++ [a]) used := by
  obtain ⟨hlength, hsorted, rest, hperm, hrest⟩ := h
  refine ⟨?_, hsorted, a :: rest, ?_, ?_⟩
  · rw [List.length_append, List.length_singleton]
    omega
  · exact (List.perm_append_singleton a l).trans ((hperm.cons a).trans List.perm_middle.symm)
  · intro x hx y hy
    rcases List.mem_cons.mp hx with rfl | hx
    · exact holder y hy
    · exact hrest x hx y hy

/-- The list is full, and its newest node `u` goes out of it. -/
theorem Oldest.push {newer older : List McNode} {u : McNode}
    (h : Oldest l (u :: newer ++ older)) (hfull : clearNum ≤ (u :: newer ++ older).length)
    (hnewer : a.jiffy < u.jiffy)
    (hinsert : (u :: newer ++ a :: older).Pairwise fun x y => y.jiffy ≤ x.jiffy) :
    Oldest (l ++ [a]) (newer ++ a :: older) := by
  obtain ⟨hlength, hsorted, rest, hperm, hrest⟩ := h
  obtain ⟨hu, -⟩ := List.pairwise_cons.mp hsorted
  refine ⟨?_, (List.pairwise_cons.mp hinsert).2, u :: rest, ?_, ?_⟩
  · simp only [List.cons_append, List.length_append, List.length_cons, List.length_nil] at *
    omega
  · calc (l ++ [a]).Perm (a :: l) := List.perm_append_singleton a l
      _ |>.Perm (a :: (u :: (newer ++ older) ++ rest)) := hperm.cons a
      _ |>.Perm (u :: (a :: (newer ++ older) ++ rest)) := List.Perm.swap u a _
      _ |>.Perm (u :: (newer ++ a :: older ++ rest)) :=
        (List.perm_middle.symm.append_right rest).cons u
      _ |>.Perm (newer ++ a :: older ++ u :: rest) := List.perm_middle.symm
  · intro x hx y hy
    have hold : y.jiffy ≤ u.jiffy := by
      rcases List.mem_append.mp hy with hy | hy
      · exact hu y (List.mem_append_left _ hy)
      · rcases List.mem_cons.mp hy with rfl | hy
        · exact UInt64.le_of_lt hnewer
        · exact hu y (List.mem_append_right _ hy)
    rcases List.mem_cons.mp hx with rfl | hx
    · exact hold
    · exact UInt64.le_trans hold (hrest x hx u List.mem_cons_self)

theorem oldest_step (h : Oldest l used) (a : McNode) :
    Oldest (l ++ [a]) (MulticastGroups.modifyClearList used a) := by
  have hnewer : ∀ b ∈ used.takeWhile fun b => a.jiffy < b.jiffy, a.jiffy < b.jiffy :=
    fun b hb => by simpa using List.mem_takeWhile_imp hb
  have holder : ∀ b ∈ used.dropWhile fun b => a.jiffy < b.jiffy, b.jiffy ≤ a.jiffy :=
    fun b hb => le_of_mem_dropWhile h.sorted hb
  have hsplit : used = (used.takeWhile fun b => a.jiffy < b.jiffy) ++
      used.dropWhile fun b => a.jiffy < b.jiffy := List.takeWhile_append_dropWhile.symm
  rw [MulticastGroups.modifyClearList]
  generalize (used.takeWhile fun b => a.jiffy < b.jiffy) = newer at *
  generalize (used.dropWhile fun b => a.jiffy < b.jiffy) = older at *
  subst hsplit
  have hinsert := sorted_insert h.sorted hnewer holder
  by_cases hroom : (newer ++ older).length < clearNum
  · rw [if_pos hroom]
    exact h.fill hroom hinsert
  · rw [if_neg hroom]
    have hfull := Nat.le_of_not_lt hroom
    cases newer with
    | nil => exact h.keep hfull holder
    | cons u newer => exact h.push hfull (hnewer u List.mem_cons_self) hinsert

theorem oldest_foldl (l : List McNode) :
    Oldest l (l.foldl MulticastGroups.modifyClearList []) := by
  induction l using List.reverseRecOn with
  | nil => exact ⟨rfl, List.Pairwise.nil, [], List.Perm.nil, by simp⟩
  | append_singleton l a ih =>
    rw [List.foldl_concat]
    exact oldest_step ih a

end Oldest

theorem buildClearList_groups (t : McTable) :
    ∃ m us, buildClearList t = some m ∧ Represents m us ∧
      us.map (fun u => u.2.gpsrc) = MulticastGroups.clearList t := by
  obtain ⟨m, us, hrun, hrep, hmap⟩ := foldlM_scan t.nodes represents_init
  refine ⟨m, us, hrun, hrep, ?_⟩
  have hgroups := congrArg (List.map McNode.gpsrc) hmap
  rwa [List.map_map] at hgroups

/-- The clear list that `clear_mc_hash_table` builds has the oldest groups of the table, with the
newest of them first. -/
theorem buildClearList_oldest (t : McTable) :
    ∃ m us, buildClearList t = some m ∧ Represents m us ∧
      Oldest t.nodes (us.map Prod.snd) := by
  obtain ⟨m, us, hrun, hrep, hmap⟩ := foldlM_scan t.nodes represents_init
  refine ⟨m, us, hrun, hrep, ?_⟩
  rw [hmap]
  exact oldest_foldl t.nodes

end ClearList
