import Mathlib.Data.Fintype.Basic
import Mathlib.Data.List.Perm.Subperm
import RouterFirmware.BucketTable
import RouterFirmware.GuardedRun

/-! # Multicast groups

The multicast pass-through keeps the groups it has seen in a table of chains. A group is added
in front of its chain, a search renews its time stamp, and once there are too many groups the
oldest ones are cleared. `remove_node` empties the whole chain when it finds the group at the
head, whatever stands behind it.
-/
namespace MulticastGroups

open BucketTable GuardedRun

structure McNode where
  gpsrc : UInt32
  jiffy : UInt64
  deriving DecidableEq

def maxQueueLen : ℤ := 128

def clearNum : ℕ := 5

structure McTable where
  mcQueue : Fin 32 → List McNode
  mcSessionNum : ℤ

def McTable.empty : McTable := ⟨fun _ => [], 0⟩

/-- `add & (IPRANGE_MC_HASH_SIZE-1)`. -/
def getIndex (add : UInt32) : Fin 32 := ⟨add.toNat % 32, Nat.mod_lt _ (by decide)⟩

def layout : Layout (Fin 32) UInt32 McNode := ⟨getIndex, McNode.gpsrc⟩

/-- `remove_node`: a node further back is unlinked, the head takes its chain along. -/
def removeNode (t : McTable) (gpSrc : UInt32) : McTable :=
  match t.mcQueue (getIndex gpSrc) with
  | [] => t
  | a :: rest =>
    if a.gpsrc = gpSrc then
      ⟨Function.update t.mcQueue (getIndex gpSrc) [], t.mcSessionNum - 1⟩
    else if rest.any fun n => n.gpsrc = gpSrc then
      ⟨Function.update t.mcQueue (getIndex gpSrc) (a :: rest.eraseP fun n => n.gpsrc = gpSrc),
        t.mcSessionNum - 1⟩
    else t

/-- One node `a` of the scan for the oldest. The clear list `used` has the newest first; when
it is full, an older node takes the place of the newest. -/
def modifyClearList (used : List McNode) (a : McNode) : List McNode :=
  let newer := used.takeWhile fun b => a.jiffy < b.jiffy
  let older := used.dropWhile fun b => a.jiffy < b.jiffy
  if used.length < clearNum then newer ++ a :: older
  else if newer.isEmpty then used
  else newer.tail ++ a :: older

def McTable.nodes (t : McTable) : List McNode := Layout.entries t.mcQueue (List.finRange 32)

/-- The groups `clear_mc_hash_table` removes, in that order. -/
def clearList (t : McTable) : List UInt32 :=
  (t.nodes.foldl modifyClearList []).map McNode.gpsrc

/-- `clear_mc_hash_table`: `session_count` counts the nodes of the scan, less the removals. -/
def clearMcHashTable (t : McTable) : McTable :=
  { (clearList t).foldl removeNode t with
    mcSessionNum := (t.nodes.length : ℤ) - (clearList t).length }

def searchNode (t : McTable) (mcip : UInt32) (jiffies : UInt64) : McTable × Bool :=
  ({ t with mcQueue := layout.modify t.mcQueue mcip (fun _ => true) fun a =>
      { a with jiffy := jiffies } },
    (layout.lookup t.mcQueue mcip).isSome)

def McTable.makeRoom (t : McTable) : McTable :=
  if t.mcSessionNum > maxQueueLen then clearMcHashTable t else t

/-- `add_node`; `alloc` says whether `kmalloc` has room for the node. -/
def addNode (t : McTable) (gpSrc : UInt32) (jiffies : UInt64) (alloc : Bool) : McTable :=
  let found := searchNode t gpSrc jiffies
  if found.2 then found.1
  else if alloc then
    ⟨layout.insert found.1.makeRoom.mcQueue ⟨gpSrc, jiffies⟩,
      found.1.makeRoom.mcSessionNum + 1⟩
  else found.1.makeRoom

inductive Op where
  | add (gpSrc : UInt32) (jiffies : UInt64) (alloc : Bool)
  | remove (gpSrc : UInt32)
  | search (mcip : UInt32) (jiffies : UInt64)
  | clear

def exec (t : McTable) : Op → McTable
  | .add gpSrc jiffies alloc => addNode t gpSrc jiffies alloc
  | .remove gpSrc => removeNode t gpSrc
  | .search mcip jiffies => (searchNode t mcip jiffies).1
  | .clear => clearMcHashTable t

/-! ## What the table is for -/

inductive Change where
  | added (g : UInt32)
  | removed (g : UInt32)

/-- The group was added and not removed since; the last change comes first. -/
def Listed : List Change → UInt32 → Prop
  | [], _ => False
  | .added g' :: log, g => g = g' ∨ Listed log g
  | .removed g' :: log, g => g ≠ g' ∧ Listed log g

/-- The table together with the changes the calls were made for. -/
structure Logged where
  table : McTable
  log : List Change

def Logged.initial : Logged := ⟨.empty, []⟩

/-- The groups that go when room is made for a new one. -/
def crowded (t : McTable) : List UInt32 :=
  if t.mcSessionNum > maxQueueLen then clearList t else []

def record (t : McTable) (log : List Change) : Op → List Change
  | .add gpSrc _ alloc =>
    if (layout.lookup t.mcQueue gpSrc).isSome then log
    else
      let log := (crowded t).map Change.removed ++ log
      if alloc then .added gpSrc :: log else log
  | .remove gpSrc => .removed gpSrc :: log
  | .search _ _ => log
  | .clear => (clearList t).map Change.removed ++ log

def next (s : Logged) (op : Op) : Logged := ⟨exec s.table op, record s.table s.log op⟩

structure Correct (s : Logged) : Prop where
  once : (s.table.nodes.map McNode.gpsrc).Nodup
  counted : s.table.mcSessionNum = s.table.nodes.length
  found_iff : ∀ g jiffies, (searchNode s.table g jiffies).2 = true ↔ Listed s.log g

/-- What a call is to do: the table is correct behind it, and a removal leaves the other groups
where they were. -/
def Meets (s : Logged) (op : Op) : Prop :=
  Correct (next s op) ∧ ∀ g, op = .remove g → ∀ g', g' ≠ g →
    g' ∈ s.table.nodes.map McNode.gpsrc → g' ∈ (next s op).table.nodes.map McNode.gpsrc

/-- The head of a chain goes only together with everything behind it. -/
def HeadsGoAlone (t : McTable) (gs : List UInt32) : Prop :=
  ∀ i, ∀ a ∈ (t.mcQueue i).head?, a.gpsrc ∈ gs → ∀ n ∈ t.mcQueue i, n.gpsrc ∈ gs

instance (t : McTable) (gs : List UInt32) : Decidable (HeadsGoAlone t gs) :=
  inferInstanceAs (Decidable (∀ i, ∀ a ∈ (t.mcQueue i).head?, a.gpsrc ∈ gs →
    ∀ n ∈ t.mcQueue i, n.gpsrc ∈ gs))

def victims (t : McTable) : Op → List UInt32
  | .add gpSrc _ _ =>
    if (layout.lookup t.mcQueue gpSrc).isSome then [] else crowded t
  | .remove gpSrc => [gpSrc]
  | .search _ _ => []
  | .clear => clearList t

/-! ## Removal -/

/-- What removing the groups `gs` leaves of a chain. -/
def prune (gs : List UInt32) : List McNode → List McNode
  | [] => []
  | a :: rest =>
    if a.gpsrc ∈ gs then [] else (a :: rest).filter fun n => n.gpsrc ∉ gs

theorem prune_nil (l : List McNode) : prune [] l = l := by
  cases l with
  | nil => rfl
  | cons a rest => simp [prune]

theorem prune_prune (g : UInt32) (gs : List UInt32) (l : List McNode) :
    prune gs (prune [g] l) = prune (g :: gs) l := by
  cases l with
  | nil => rfl
  | cons a rest =>
    by_cases ha : a.gpsrc = g
    · simp [prune, ha]
    · by_cases hgs : a.gpsrc ∈ gs
      · simp [prune, ha, hgs]
      · simp [prune, ha, hgs, List.filter_filter, Bool.and_comm]

theorem prune_sublist (gs : List UInt32) (l : List McNode) : List.Sublist (prune gs l) l := by
  cases l with
  | nil => exact List.Sublist.refl _
  | cons a rest =>
    rw [prune]
    split
    · exact List.nil_sublist _
    · exact List.filter_sublist

theorem prune_of_not_mem {g : UInt32} {l : List McNode} (h : ∀ n ∈ l, n.gpsrc ≠ g) :
    prune [g] l = l := by
  cases l with
  | nil => rfl
  | cons a rest =>
    rw [prune, if_neg (by simpa using h a (by simp))]
    apply List.filter_eq_self.mpr
    intro n hn
    simpa using h n hn

theorem eraseP_eq_filter {g : UInt32} {l : List McNode} (hl : (l.map McNode.gpsrc).Nodup) :
    (l.eraseP fun n => n.gpsrc = g) = l.filter fun n => n.gpsrc ∉ [g] := by
  induction l with
  | nil => rfl
  | cons a l ih =>
    obtain ⟨ha, hl⟩ := List.nodup_cons.mp hl
    by_cases hg : a.gpsrc = g
    · -- The group stands nowhere else in the chain.
      have hrest : ∀ n ∈ l, n.gpsrc ≠ g := by
        intro n hn heq
        subst heq
        exact ha (hg ▸ List.mem_map_of_mem hn)
      rw [List.eraseP_cons_of_pos (by simpa using hg), List.filter_cons_of_neg (by simpa using hg)]
      symm
      apply List.filter_eq_self.mpr
      intro n hn
      simpa using hrest n hn
    · rw [List.eraseP_cons_of_neg (by simpa using hg), List.filter_cons_of_pos (by simpa using hg),
        ih hl]

theorem mcQueue_removeNode {t : McTable} (ht : layout.WellFormed t.mcQueue) (g : UInt32)
    (i : Fin 32) : (removeNode t g).mcQueue i = prune [g] (t.mcQueue i) := by
  have hother : ∀ j, j ≠ getIndex g → prune [g] (t.mcQueue j) = t.mcQueue j := by
    intro j hj
    apply prune_of_not_mem
    intro n hn heq
    subst heq
    exact hj (ht.hashed j n hn).symm
  have hnodup := ht.nodup (getIndex g)
  rw [removeNode]
  by_cases hi : i = getIndex g
  · subst hi
    split
    · next hchain => rw [hchain]; rfl
    · next a rest hchain =>
      rw [hchain] at hnodup ⊢
      split
      · next ha => simp [prune, ha]
      · next ha =>
        split
        · dsimp only
          rw [prune, if_neg (by simpa using ha), Function.update_self,
            List.filter_cons_of_pos (by simpa using ha),
            eraseP_eq_filter (List.nodup_cons.mp hnodup).2]
        · next hnone =>
          rw [hchain]
          symm
          apply prune_of_not_mem
          intro n hn
          rcases List.mem_cons.mp hn with rfl | hn
          · exact ha
          · intro hg
            exact hnone (List.any_eq_true.mpr ⟨n, hn, by simpa using hg⟩)
  · rw [hother i hi]
    split
    · rfl
    · split
      · exact Function.update_of_ne hi _ _
      · split
        · exact Function.update_of_ne hi _ _
        · rfl

theorem wellFormed_prune {t t' : McTable} {gs : List UInt32}
    (ht : layout.WellFormed t.mcQueue) (h : ∀ i, t'.mcQueue i = prune gs (t.mcQueue i)) :
    layout.WellFormed t'.mcQueue := by
  apply Layout.wellFormed_of_sublist ht
  intro i
  rw [h i]
  exact prune_sublist gs _

theorem mcQueue_foldl_removeNode {t : McTable} (ht : layout.WellFormed t.mcQueue)
    (gs : List UInt32) (i : Fin 32) :
    (gs.foldl removeNode t).mcQueue i = prune gs (t.mcQueue i) := by
  induction gs generalizing t with
  | nil => exact (prune_nil _).symm
  | cons g gs ih =>
    have hone := mcQueue_removeNode ht g
    rw [List.foldl_cons, ih (wellFormed_prune ht hone), hone i, prune_prune]

theorem prune_eq_filter {t : McTable} {gs : List UInt32} (h : HeadsGoAlone t gs) (i : Fin 32) :
    prune gs (t.mcQueue i) = (t.mcQueue i).filter fun n => n.gpsrc ∉ gs := by
  have hi := h i
  cases hchain : t.mcQueue i with
  | nil => rfl
  | cons a rest =>
    rw [hchain] at hi
    rw [prune]
    split
    · next ha =>
      symm
      apply List.filter_eq_nil_iff.mpr
      intro n hn
      simpa using hi a (by simp) ha n hn
    · rfl

theorem nodes_of_prune {t t' : McTable} {gs : List UInt32} (h : HeadsGoAlone t gs)
    (hq : ∀ i, t'.mcQueue i = prune gs (t.mcQueue i)) :
    t'.nodes = t.nodes.filter fun n => n.gpsrc ∉ gs := by
  rw [McTable.nodes, McTable.nodes, Layout.entries, Layout.entries, List.filter_flatMap]
  congr 1
  funext i
  rw [hq i, prune_eq_filter h i]

theorem mem_nodes {t : McTable} (n : McNode) : n ∈ t.nodes ↔ ∃ i, n ∈ t.mcQueue i := by
  simp [McTable.nodes, Layout.entries]

theorem isSome_lookup_iff {t : McTable} (ht : layout.WellFormed t.mcQueue) (g : UInt32) :
    (layout.lookup t.mcQueue g).isSome ↔ g ∈ t.nodes.map McNode.gpsrc := by
  rw [Layout.isSome_lookup ht, List.mem_map]
  constructor
  · intro h
    obtain ⟨i, n, hn, hg⟩ := h
    exact ⟨n, (mem_nodes n).mpr ⟨i, hn⟩, hg⟩
  · intro h
    obtain ⟨n, hn, hg⟩ := h
    obtain ⟨i, hi⟩ := (mem_nodes n).mp hn
    exact ⟨i, n, hi, hg⟩

theorem lost_of_not_headsGoAlone {t t' : McTable} {gs : List UInt32}
    (ht : layout.WellFormed t.mcQueue) (hq : ∀ i, t'.mcQueue i = prune gs (t.mcQueue i))
    (h : ¬ HeadsGoAlone t gs) : ∃ g, g ∉ gs ∧ g ∈ t.nodes.map McNode.gpsrc ∧
      g ∉ t'.nodes.map McNode.gpsrc := by
  simp only [HeadsGoAlone, not_forall] at h
  obtain ⟨i, a, ha, hgs, n, hn, hout⟩ := h
  refine ⟨n.gpsrc, hout, List.mem_map_of_mem ((mem_nodes n).mpr ⟨i, hn⟩), ?_⟩
  rw [List.mem_map]
  intro h
  obtain ⟨m, hm, hmn⟩ := h
  obtain ⟨j, hj⟩ := (mem_nodes m).mp hm
  -- The lost group could only be in its own chain, and that chain is empty now.
  have hsub := (prune_sublist gs (t.mcQueue j)).subset (hq j ▸ hj)
  have hij : j = i := by
    rw [← ht.hashed j m hsub, ← ht.hashed i n hn]
    exact congrArg getIndex hmn
  subst hij
  rw [hq j] at hj
  cases hchain : t.mcQueue j with
  | nil => rw [hchain] at hn; cases hn
  | cons b rest =>
    rw [hchain, List.head?_cons, Option.mem_some_iff] at ha
    subst ha
    rw [hchain, prune, if_pos hgs] at hj
    cases hj

/-! ## The groups to clear -/

theorem modifyClearList_subperm (used : List McNode) (a : McNode) :
    List.Subperm (modifyClearList used a) (a :: used) := by
  have hsplit : List.takeWhile (fun b : McNode => decide (a.jiffy < b.jiffy)) used ++
      List.dropWhile (fun b : McNode => decide (a.jiffy < b.jiffy)) used = used :=
    List.takeWhile_append_dropWhile
  simp only [modifyClearList]
  split
  · apply List.Perm.subperm
    apply List.perm_middle.trans
    rw [hsplit]
  · split
    · exact (List.sublist_cons_self a used).subperm
    · apply List.perm_middle.subperm.trans
      apply List.Sublist.subperm
      nth_rewrite 3 [← hsplit]
      exact ((List.tail_sublist _).append_right _).cons_cons a

theorem foldl_modifyClearList_subperm (l used : List McNode) :
    List.Subperm (l.foldl modifyClearList used) (used ++ l) := by
  induction l generalizing used with
  | nil => simpa using List.Subperm.refl used
  | cons a l ih =>
    have hstep := (List.subperm_append_right l).mpr (modifyClearList_subperm used a)
    exact ((ih _).trans hstep).trans List.perm_middle.symm.subperm

theorem clearList_subperm (t : McTable) :
    List.Subperm (clearList t) (t.nodes.map McNode.gpsrc) := by
  obtain ⟨l, hperm, hsub⟩ := foldl_modifyClearList_subperm t.nodes []
  exact ⟨l.map McNode.gpsrc, hperm.map _, hsub.map _⟩

theorem nodup_nodes {t : McTable} (ht : layout.WellFormed t.mcQueue) :
    (t.nodes.map McNode.gpsrc).Nodup :=
  Layout.nodup_map_key_entries ht (List.nodup_finRange 32)

/-- Taking out groups that are all there takes out as many nodes. -/
theorem length_filter_not_mem {l : List McNode} {gs : List UInt32}
    (hl : (l.map McNode.gpsrc).Nodup) (hgs : List.Subperm gs (l.map McNode.gpsrc)) :
    (l.filter fun n => n.gpsrc ∉ gs).length + gs.length = l.length := by
  have hnodup : gs.Nodup := by
    obtain ⟨gs', hperm, hsub⟩ := hgs
    exact hperm.nodup_iff.mp (hl.sublist hsub)
  have hperm : List.Perm ((l.filter fun n => n.gpsrc ∈ gs).map McNode.gpsrc) gs := by
    apply (List.perm_ext_iff_of_nodup _ hnodup).mpr
    · intro g
      simp only [List.mem_map, List.mem_filter, decide_eq_true_eq]
      constructor
      · intro h
        obtain ⟨n, ⟨-, hn⟩, rfl⟩ := h
        exact hn
      · intro hg
        obtain ⟨n, hn, rfl⟩ := List.mem_map.mp (hgs.subset hg)
        exact ⟨n, ⟨hn, hg⟩, rfl⟩
    · exact hl.sublist (List.filter_sublist.map _)
  have hlen := hperm.length_eq
  rw [List.length_map] at hlen
  have hcount := List.length_eq_length_filter_add (l := l) fun n => decide (n.gpsrc ∈ gs)
  simp only [decide_not] at hcount ⊢
  omega

/-! ## Runs -/

structure Kept (s : Logged) : Prop where
  formed : layout.WellFormed s.table.mcQueue
  counted : s.table.mcSessionNum = s.table.nodes.length
  listed : ∀ g, g ∈ s.table.nodes.map McNode.gpsrc ↔ Listed s.log g

theorem kept_initial : Kept .initial where
  formed := Layout.wellFormed_empty layout
  counted := rfl
  listed g := by
    constructor
    · intro h
      obtain ⟨n, hn, -⟩ := List.mem_map.mp h
      obtain ⟨i, hi⟩ := (mem_nodes n).mp hn
      cases hi
    · exact False.elim

theorem correct_of_kept {s : Logged} (h : Kept s) : Correct s where
  once := nodup_nodes h.formed
  counted := h.counted
  found_iff g _ := (isSome_lookup_iff h.formed g).trans (h.listed g)

theorem listed_of_correct {s : Logged} (h : Correct s) (hs : layout.WellFormed s.table.mcQueue)
    (g : UInt32) : g ∈ s.table.nodes.map McNode.gpsrc ↔ Listed s.log g :=
  (isSome_lookup_iff hs g).symm.trans (h.found_iff g 0)

theorem listed_removed (gs : List UInt32) (log : List Change) (g : UInt32) :
    Listed (gs.map Change.removed ++ log) g ↔ g ∉ gs ∧ Listed log g := by
  induction gs with
  | nil => simp
  | cons g' gs ih => simp [Listed, ih, and_assoc]

/-- Removing groups that go alone keeps the table and its log together. -/
theorem kept_prune {s : Logged} (h : Kept s) {t' : McTable} {gs : List UInt32}
    (hgs : HeadsGoAlone s.table gs) (hq : ∀ i, t'.mcQueue i = prune gs (s.table.mcQueue i))
    (hnum : t'.mcSessionNum = t'.nodes.length) :
    Kept ⟨t', gs.map Change.removed ++ s.log⟩ where
  formed := wellFormed_prune h.formed hq
  counted := hnum
  listed g := by
    rw [listed_removed, ← h.listed, nodes_of_prune hgs hq]
    simp only [List.mem_map, List.mem_filter, decide_eq_true_eq]
    constructor
    · intro h
      obtain ⟨n, ⟨hn, hout⟩, rfl⟩ := h
      exact ⟨hout, n, hn, rfl⟩
    · intro h
      obtain ⟨hout, n, hn, rfl⟩ := h
      exact ⟨n, ⟨hn, hout⟩, rfl⟩

theorem mcQueue_clearMcHashTable {t : McTable} (ht : layout.WellFormed t.mcQueue) (i : Fin 32) :
    (clearMcHashTable t).mcQueue i = prune (clearList t) (t.mcQueue i) :=
  mcQueue_foldl_removeNode ht (clearList t) i

theorem kept_clear {s : Logged} (h : Kept s) (hgs : HeadsGoAlone s.table (clearList s.table)) :
    Kept ⟨clearMcHashTable s.table, (clearList s.table).map Change.removed ++ s.log⟩ := by
  have hq := mcQueue_clearMcHashTable h.formed
  apply kept_prune h hgs hq
  have hlen := length_filter_not_mem (nodup_nodes h.formed) (clearList_subperm s.table)
  rw [nodes_of_prune hgs hq]
  simp only [clearMcHashTable]
  omega

/-- `remove_node` counts down exactly when it finds the group. -/
theorem mcSessionNum_removeNode {t : McTable} (ht : layout.WellFormed t.mcQueue) (g : UInt32) :
    (removeNode t g).mcSessionNum =
      if g ∈ t.nodes.map McNode.gpsrc then t.mcSessionNum - 1 else t.mcSessionNum := by
  have hiff : g ∈ t.nodes.map McNode.gpsrc ↔ ∃ n ∈ t.mcQueue (getIndex g), n.gpsrc = g := by
    rw [List.mem_map]
    constructor
    · intro h
      obtain ⟨n, hn, rfl⟩ := h
      obtain ⟨i, hi⟩ := (mem_nodes n).mp hn
      have hidx : getIndex n.gpsrc = i := ht.hashed i n hi
      exact ⟨n, hidx ▸ hi, rfl⟩
    · intro h
      obtain ⟨n, hn, hg⟩ := h
      exact ⟨n, (mem_nodes n).mpr ⟨_, hn⟩, hg⟩
  simp only [hiff]
  rw [removeNode]
  cases hchain : t.mcQueue (getIndex g) with
  | nil => simp
  | cons a rest =>
    by_cases ha : a.gpsrc = g
    · simp [ha]
    · by_cases hrest : rest.any fun n => n.gpsrc = g
      · have hex : ∃ n ∈ rest, n.gpsrc = g := by simpa using hrest
        simp [ha, hrest, hex]
      · have hex : ¬ ∃ n ∈ rest, n.gpsrc = g := by simpa using hrest
        simp [ha, hrest, hex]

theorem kept_remove {s : Logged} (h : Kept s) {g : UInt32} (hg : HeadsGoAlone s.table [g]) :
    Kept ⟨removeNode s.table g, .removed g :: s.log⟩ := by
  have hq := mcQueue_removeNode h.formed g
  apply kept_prune h hg hq
  rw [nodes_of_prune hg hq, mcSessionNum_removeNode h.formed]
  split
  · next hmem =>
    have hlen := length_filter_not_mem (nodup_nodes h.formed)
      (List.singleton_subperm_iff.mpr hmem)
    have hnum := h.counted
    simp only [List.length_singleton] at hlen
    omega
  · next hmem =>
    rw [h.counted, List.filter_eq_self.mpr]
    intro n hn
    simp only [List.mem_singleton, decide_eq_true_eq]
    intro heq
    subst heq
    exact hmem (List.mem_map_of_mem hn)

theorem kept_search {s : Logged} (h : Kept s) (mcip : UInt32) (jiffies : UInt64) :
    Kept ⟨(searchNode s.table mcip jiffies).1, s.log⟩ := by
  have hkey : ∀ a : McNode, layout.key { a with jiffy := jiffies } = layout.key a := fun _ => rfl
  have hmap : (searchNode s.table mcip jiffies).1.nodes.map McNode.gpsrc =
      s.table.nodes.map McNode.gpsrc := by
    simp only [McTable.nodes, Layout.entries, List.map_flatMap]
    congr 1
    funext i
    exact Layout.map_key_modify hkey i
  refine ⟨Layout.wellFormed_modify h.formed hkey, ?_, ?_⟩
  · have hlen := congrArg List.length hmap
    rw [List.length_map, List.length_map] at hlen
    rw [hlen]
    exact h.counted
  · intro g
    rw [hmap]
    exact h.listed g

theorem kept_insert {s : Logged} (h : Kept s) {g : UInt32} (jiffies : UInt64)
    (hg : g ∉ s.table.nodes.map McNode.gpsrc) :
    Kept ⟨⟨layout.insert s.table.mcQueue ⟨g, jiffies⟩, s.table.mcSessionNum + 1⟩,
      .added g :: s.log⟩ := by
  have hnone : layout.lookup s.table.mcQueue g = none := by
    rw [← isSome_lookup_iff h.formed] at hg
    simpa using hg
  have hperm : List.Perm (McTable.nodes ⟨layout.insert s.table.mcQueue ⟨g, jiffies⟩,
      s.table.mcSessionNum + 1⟩) (⟨g, jiffies⟩ :: s.table.nodes) :=
    Layout.entries_insert_perm (List.nodup_finRange 32) (List.mem_finRange _)
  refine ⟨Layout.wellFormed_insert h.formed hnone, ?_, ?_⟩
  · rw [hperm.length_eq, List.length_cons, h.counted]
    push_cast
    rfl
  · intro g'
    rw [(hperm.map McNode.gpsrc).mem_iff, List.map_cons, List.mem_cons, h.listed]
    rfl

theorem mcQueue_makeRoom {t : McTable} (ht : layout.WellFormed t.mcQueue) (i : Fin 32) :
    t.makeRoom.mcQueue i = prune (crowded t) (t.mcQueue i) := by
  rw [McTable.makeRoom, crowded]
  split
  · exact mcQueue_clearMcHashTable ht i
  · exact (prune_nil _).symm

theorem kept_makeRoom {s : Logged} (h : Kept s) (hgs : HeadsGoAlone s.table (crowded s.table)) :
    Kept ⟨s.table.makeRoom, (crowded s.table).map Change.removed ++ s.log⟩ := by
  rw [McTable.makeRoom, crowded]
  unfold crowded at hgs
  split
  · next hnum =>
    rw [if_pos hnum] at hgs
    exact kept_clear h hgs
  · exact h

theorem searchNode_of_not_mem {t : McTable} (ht : layout.WellFormed t.mcQueue) {g : UInt32}
    (hg : g ∉ t.nodes.map McNode.gpsrc) (jiffies : UInt64) :
    searchNode t g jiffies = (t, false) := by
  rw [← isSome_lookup_iff ht] at hg
  have hnone : layout.lookup t.mcQueue g = none := by simpa using hg
  rw [searchNode, hnone, Layout.modify_of_lookup_eq_none hnone]
  rfl

theorem next_add {s : Logged} (hs : layout.WellFormed s.table.mcQueue) (g : UInt32)
    (jiffies : UInt64) (alloc : Bool) :
    (g ∈ s.table.nodes.map McNode.gpsrc ∧ victims s.table (.add g jiffies alloc) = [] ∧
      next s (.add g jiffies alloc) = ⟨(searchNode s.table g jiffies).1, s.log⟩) ∨
    (g ∉ s.table.nodes.map McNode.gpsrc ∧
      victims s.table (.add g jiffies alloc) = crowded s.table ∧
      next s (.add g jiffies alloc) =
        if alloc then ⟨⟨layout.insert s.table.makeRoom.mcQueue ⟨g, jiffies⟩,
          s.table.makeRoom.mcSessionNum + 1⟩,
          .added g :: ((crowded s.table).map Change.removed ++ s.log)⟩
        else ⟨s.table.makeRoom, (crowded s.table).map Change.removed ++ s.log⟩) := by
  by_cases hg : g ∈ s.table.nodes.map McNode.gpsrc
  · left
    have hsome := (isSome_lookup_iff hs g).mpr hg
    refine ⟨hg, if_pos hsome, ?_⟩
    simp [next, exec, addNode, record, searchNode, hsome]
  · right
    have hsome : ¬ (layout.lookup s.table.mcQueue g).isSome := by rwa [isSome_lookup_iff hs]
    refine ⟨hg, if_neg hsome, ?_⟩
    simp only [next, exec, addNode, record, searchNode_of_not_mem hs hg, if_neg hsome]
    cases alloc with
    | false => rfl
    | true => rfl

theorem not_mem_nodes_makeRoom {t : McTable} (ht : layout.WellFormed t.mcQueue) {g : UInt32}
    (hg : g ∉ t.nodes.map McNode.gpsrc) : g ∉ t.makeRoom.nodes.map McNode.gpsrc := by
  rw [List.mem_map] at hg ⊢
  intro h
  obtain ⟨n, hn, rfl⟩ := h
  obtain ⟨i, hi⟩ := (mem_nodes n).mp hn
  rw [mcQueue_makeRoom ht] at hi
  exact hg ⟨n, (mem_nodes n).mpr ⟨i, (prune_sublist _ _).subset hi⟩, rfl⟩

theorem kept_next {s : Logged} (h : Kept s) (op : Op)
    (hgs : HeadsGoAlone s.table (victims s.table op)) : Kept (next s op) := by
  cases op with
  | add g jiffies alloc =>
    rcases next_add h.formed g jiffies alloc with ⟨-, -, hnext⟩ | ⟨hg, hvictims, hnext⟩
    · rw [hnext]
      exact kept_search h g jiffies
    · rw [hvictims] at hgs
      rw [hnext]
      split
      · exact kept_insert (kept_makeRoom h hgs) jiffies (not_mem_nodes_makeRoom h.formed hg)
      · exact kept_makeRoom h hgs
  | remove g => exact kept_remove h hgs
  | search mcip jiffies => exact kept_search h mcip jiffies
  | clear => exact kept_clear h hgs

theorem others_stay {s : Logged} (h : Kept s) {g g' : UInt32} (hg : HeadsGoAlone s.table [g])
    (hne : g' ≠ g) (hmem : g' ∈ s.table.nodes.map McNode.gpsrc) :
    g' ∈ (removeNode s.table g).nodes.map McNode.gpsrc := by
  apply ((kept_remove h hg).listed g').mpr
  exact ⟨hne, (h.listed g').mp hmem⟩

theorem not_correct_of_not_headsGoAlone {s : Logged} (h : Kept s) {op : Op}
    (hgs : ¬ HeadsGoAlone s.table (victims s.table op)) : ¬ Correct (next s op) := by
  intro hcorrect
  cases op with
  | add g jiffies alloc =>
    rcases next_add h.formed g jiffies alloc with ⟨-, hvictims, -⟩ | ⟨hg, hvictims, hnext⟩
    · rw [hvictims] at hgs
      exact hgs fun i a _ ha => absurd ha List.not_mem_nil
    · rw [hvictims] at hgs
      rw [hnext] at hcorrect
      have hq := mcQueue_makeRoom h.formed
      have hformed := wellFormed_prune h.formed hq
      obtain ⟨x, hout, hmem, hlost⟩ := lost_of_not_headsGoAlone h.formed hq hgs
      have hlisted := (listed_removed _ s.log x).mpr ⟨hout, (h.listed x).mp hmem⟩
      cases alloc with
      | false => exact hlost ((listed_of_correct hcorrect hformed x).mpr hlisted)
      | true =>
        have hnew := not_mem_nodes_makeRoom h.formed hg
        have hnone : layout.lookup s.table.makeRoom.mcQueue g = none := by
          rw [← isSome_lookup_iff hformed] at hnew
          simpa using hnew
        have hfound := (hcorrect.found_iff x 0).mpr (Or.inr hlisted)
        rw [searchNode, if_pos rfl, Layout.lookup_insert, if_neg,
          isSome_lookup_iff hformed] at hfound
        · exact hlost hfound
        · intro heq
          subst heq
          exact hg hmem
  | remove g =>
    have hq := mcQueue_removeNode h.formed g
    obtain ⟨x, hout, hmem, hlost⟩ := lost_of_not_headsGoAlone h.formed hq hgs
    apply hlost
    apply (listed_of_correct hcorrect (wellFormed_prune h.formed hq) x).mpr
    exact ⟨by simpa using hout, (h.listed x).mp hmem⟩
  | search mcip jiffies => exact hgs fun i a _ ha => absurd ha List.not_mem_nil
  | clear =>
    have hq := mcQueue_clearMcHashTable h.formed
    obtain ⟨x, hout, hmem, hlost⟩ := lost_of_not_headsGoAlone h.formed hq hgs
    apply hlost
    apply (listed_of_correct hcorrect (wellFormed_prune h.formed hq) x).mpr
    exact (listed_removed _ s.log x).mpr ⟨hout, (h.listed x).mp hmem⟩

theorem meets_iff {s : Logged} (h : Kept s) (op : Op) :
    Meets s op ↔ HeadsGoAlone s.table (victims s.table op) := by
  constructor
  · intro hm
    by_contra hgs
    exact not_correct_of_not_headsGoAlone h hgs hm.1
  · intro hgs
    refine ⟨correct_of_kept (kept_next h op hgs), ?_⟩
    intro g heq g' hne hmem
    subst heq
    exact others_stay h hgs hne hmem

theorem groups_kept_iff (ops : List Op) :
    (Correct .initial ∧ Along next Meets .initial ops) ↔
      Along next (fun s op => HeadsGoAlone s.table (victims s.table op)) .initial ops := by
  have hrun : Along next Meets .initial ops ↔
      Along next (fun s op => HeadsGoAlone s.table (victims s.table op)) .initial ops :=
    along_iff (fun s op hs => kept_next hs op) (fun s op hs => meets_iff hs op) kept_initial
  rw [hrun]
  exact and_iff_right (correct_of_kept kept_initial)

/-- Two groups of one chain: removing the newer one loses the older one as well. -/
theorem groups_lost_with_the_head :
    let ops := [Op.add 0xe0000001 10 true, .add 0xe0000021 11 true, .remove 0xe0000021]
    ¬ (Correct .initial ∧ Along next Meets .initial ops) := by
  intro ops h
  obtain ⟨-, -, -, hmeets, -⟩ := h
  have hstay := hmeets.2 0xe0000021 rfl 0xe0000001 (by decide) (by decide +kernel)
  exact absurd hstay (by decide +kernel)

end MulticastGroups
