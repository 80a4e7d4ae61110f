import Mathlib.Algebra.BigOperators.Fin
import RouterFirmware.BalanceMemory

/-! # Runs of IP based balancing

Searches, new entries and checks for idle sources, one at a time and in any order. The memory
keeps its lists in shape whatever is called; that a key has one entry only rests on the caller,
which adds an entry after a search for its key has failed.
-/
namespace BalanceRuns

open BalanceMemory BalanceTable BucketTable IpBalance Multipath TailQueue
open scoped BigOperators

inductive Event where
  | search (jiffies : UInt64) (inIp : UInt32) (res : FibResult)
  | create (jiffies : UInt64) (kmalloc : Option ℕ) (inIp : UInt32) (res : FibResult)
  | check (sessions : List Session)

def Event.clock (now : UInt64) : Event → UInt64
  | .search jiffies _ _ => jiffies
  | .create jiffies _ _ _ => jiffies
  | .check _ => now

def step (m : Memory) : Event → Option Memory
  | .search jiffies inIp res => (m.searchIpOut jiffies inIp res).map Prod.fst
  | .create jiffies kmalloc inIp res => m.ipBalanceCreateNew jiffies kmalloc inIp res
  | .check sessions => m.ipbalanceStructCheck sessions

/-- Time does not go back, a new entry has one of the next hops, and what `kmalloc` gives is not
in use. -/
def Allowed (now : UInt64) (m : Memory) : Event → Prop
  | .search jiffies _ _ => now ≤ jiffies
  | .create jiffies kmalloc _ res => now ≤ jiffies ∧ res.nhSel < res.fi.fibNhs ∧
      ∀ room, m.makeRoom jiffies = some room → ∀ a ∈ kmalloc, a ∉ room.live
  | .check _ => True

def Unlisted (m : Memory) : Event → Prop
  | .create _ _ inIp res => ∀ a ∈ m.live, layout.key (m.node a) ≠ (inIp, res.table)
  | _ => True

/-- The memories of runs whose events meet `C`. -/
inductive Reach (C : Memory → Event → Prop) : UInt64 → Memory → Prop where
  | start (now : UInt64) : Reach C now .initial
  | step {now : UInt64} {m m' : Memory} {e : Event} : Reach C now m → Allowed now m e → C m e →
      step m e = some m' → Reach C (e.clock now) m'

/-- The nodes `l i` are what bucket `i` leads through, and nothing else is allocated. -/
structure Table (m : Memory) (l : Fin 256 → List ℕ) : Prop where
  holds : Holds m.queues l
  live : ∀ a, a ∈ m.live ↔ ∃ i, a ∈ l i
  count : m.ipSecNum.toNat = ∑ i, (l i).length
  bound : m.ipSecNum.toNat ≤ ipNumData
  hashed : ∀ i, ∀ a ∈ l i, mask (m.node a).srcip = i
  sorted : ∀ i, (l i).Pairwise fun a b => (m.node a).lastuse ≤ (m.node b).lastuse

/-- No two entries have the same source and table. -/
def Distinct (m : Memory) : Prop :=
  ∀ a ∈ m.live, ∀ b ∈ m.live, layout.key (m.node a) = layout.key (m.node b) → a = b

section Runs

variable {now jiffies : UInt64} {m m' : Memory} {bal : Heads} {l : Fin 256 → List ℕ} {e : Event}
  {C : Memory → Event → Prop} {inIp : UInt32} {res : FibResult}

theorem step_spec (h : Represents m bal l) (hbal : Sound now bal) (he : Allowed now m e) :
    ∃ m' bal' l', step m e = some m' ∧ Represents m' bal' l' ∧ Sound (e.clock now) bal' ∧
      (layout.WellFormed bal.head → Unlisted m e → layout.WellFormed bal'.head) := by
  cases e with
  | search jiffies inIp res =>
    obtain ⟨m', l', hm', hrep⟩ := searchIpOut_spec h hbal jiffies inIp res
    refine ⟨m', _, l', ?_, hrep, sound_searchIpOut hbal he, ?_⟩
    · rw [step, hm']
      rfl
    · exact fun hwell _ => wellFormed_searchIpOut hwell
  | create jiffies kmalloc inIp res =>
    obtain ⟨hle, hres, hfresh⟩ := he
    obtain ⟨m', l', hm', hrep⟩ := ipBalanceCreateNew_spec h hbal hle inIp hres hfresh
    refine ⟨m', _, l', hm', hrep, sound_ipBalanceCreateNew hbal hle, ?_⟩
    intro hwell hunlisted
    apply wellFormed_ipBalanceCreateNew hwell
    intro entry hentry
    rw [h.head, List.mem_map] at hentry
    obtain ⟨a, ha, rfl⟩ := hentry
    exact hunlisted a ((h.live a).mpr ⟨_, ha⟩)
  | check sessions =>
    obtain ⟨m', l', hm', hrep⟩ := ipbalanceStructCheck_spec h hbal sessions
    refine ⟨m', _, l', hm', hrep, ?_, ?_⟩
    · let I (bal : Heads) : Prop := Sound now bal
      have hrun : I (sessions.foldl forgetIdle bal) :=
        GuardedRun.foldl_invariant (fun _ session hs => sound_forgetIdle hs session) hbal
      exact hrun
    · intro hwell _
      let I (bal : Heads) : Prop := layout.WellFormed bal.head
      have hrun : I (sessions.foldl forgetIdle bal) :=
        GuardedRun.foldl_invariant (fun _ session hs => wellFormed_forgetIdle hs session) hwell
      exact hrun

theorem exists_represents (h : Reach C now m) : ∃ bal l, Represents m bal l ∧ Sound now bal ∧
    ((∀ m e, C m e → Unlisted m e) → layout.WellFormed bal.head) := by
  induction h with
  | start now =>
    exact ⟨_, _, represents_initial, sound_initial, fun _ => Layout.wellFormed_empty layout⟩
  | step _ hallowed hC hstep ih =>
    obtain ⟨bal, l, hrep, hbal, hwell⟩ := ih
    obtain ⟨m', bal', l', hm', hrep', hbal', hwell'⟩ := step_spec hrep hbal hallowed
    cases hstep.symm.trans hm'
    exact ⟨bal', l', hrep', hbal', fun hunlisted =>
      hwell' (hwell hunlisted) (hunlisted _ _ hC)⟩

theorem table_of_represents (h : Represents m bal l) (hbal : Sound now bal) : Table m l where
  holds := h.holds
  live := h.live
  count := by
    rw [← h.count, hbal.count, size]
    exact Finset.sum_congr rfl fun i _ => by rw [h.head, List.length_map]
  bound := h.count ▸ hbal.bound
  hashed i a ha := hbal.hashed i (m.node a) (h.mem_head ha)
  sorted i := by
    have hsorted := hbal.sorted i
    rw [h.head, InOrder, List.pairwise_map] at hsorted
    exact hsorted

theorem distinct_of_represents (h : Represents m bal l) (hwell : layout.WellFormed bal.head) :
    Distinct m := by
  intro a ha b hb hkey
  obtain ⟨i, hi⟩ := (h.live a).mp ha
  obtain ⟨j, hj⟩ := (h.live b).mp hb
  have hij : i = j := by
    rw [← hwell.hashed i _ (h.mem_head hi), ← hwell.hashed j _ (h.mem_head hj), hkey]
  subst hij
  have hnodup := hwell.nodup i
  rw [h.head, List.map_map] at hnodup
  exact List.inj_on_of_nodup_map hnodup hi hj hkey

/-- Nothing of a key is left where a search has failed for it. -/
theorem unlisted_of_search (h : Reach Unlisted now m) {kmalloc : Option ℕ}
    (hsearch : m.searchIpOut jiffies inIp res = some (m', none)) :
    Unlisted m' (.create jiffies kmalloc inIp res) := by
  obtain ⟨bal, l, hrep, hbal, hwell⟩ := exists_represents h
  have hhead : layout.WellFormed bal.head := hwell fun _ _ hC => hC
  obtain ⟨m'', l', hm'', hrep'⟩ := searchIpOut_spec hrep hbal jiffies inIp res
  rw [hsearch, Option.some.injEq, Prod.mk.injEq] at hm''
  obtain ⟨rfl, hans⟩ := hm''
  rcases @searchIpOut_cases jiffies bal inIp res hhead with ⟨_, _, _, _, hfound, _⟩ | ⟨_, _, hnone⟩
  · rw [hfound] at hans
    cases hans
  · intro a ha hkey
    obtain ⟨i, hi⟩ := (hrep'.live a).mp ha
    have hmem : m'.node a ∈ (searchIpOut jiffies bal inIp res).1.head i := hrep'.mem_head hi
    have hmask := (wellFormed_searchIpOut hhead).hashed i _ hmem
    rw [hkey] at hmask
    obtain rfl : mask inIp = i := hmask
    exact hnone _ hmem hkey

/-- As many nodes are allocated as the lists have entries. -/
theorem card_live (h : Represents m bal l) : m.live.card = size bal.head := by
  have hlive : m.live = Finset.univ.biUnion fun i => (l i).toFinset := by
    ext a
    simp [h.live]
  rw [hlive, Finset.card_biUnion]
  · apply Finset.sum_congr rfl
    intro i _
    rw [List.toFinset_card_of_nodup (h.holds.nodup i), h.head, List.length_map]
  · intro i _ j _ hne
    rw [Function.onFun, Finset.disjoint_left]
    intro a hi hj
    exact hne (h.holds.apart i j a (List.mem_toFinset.mp hi) (List.mem_toFinset.mp hj))

theorem lt_of_expired {entry : IpBalanceInfo} (h : Expired jiffies entry) :
    trashPeriod * hz < jiffies - entry.lastuse := by
  rw [Expired, gt_iff_lt, UInt64.lt_iff_toNat_lt, UInt64.toNat_div] at h
  rw [UInt64.lt_iff_toNat_lt]
  have hhz : hz.toNat = 1000 := rfl
  have hperiod : trashPeriod.toNat = 3600 := rfl
  have hproduct : (trashPeriod * hz).toNat = 3600000 := rfl
  rw [hhz, hperiod] at h
  omega

end Runs

/-! ## Runs of one route -/

def twoHops : FibResult := ⟨⟨0, [⟨3, 0, 1, 0⟩, ⟨4, 0, 1, 0⟩]⟩, 254, 0⟩

theorem exists_of_le {n : ℕ} (hn : n ≤ ipNumData) :
    ∃ m, Reach (fun _ _ => True) 0 m ∧ m.ipSecNum.toNat = n := by
  induction n with
  | zero => exact ⟨.initial, .start 0, rfl⟩
  | succ n ih =>
    obtain ⟨m, hreach, hcount⟩ := ih (Nat.le_of_succ_le hn)
    obtain ⟨bal, l, hrep, hbal, -⟩ := exists_represents hreach
    obtain ⟨a, ha⟩ := Infinite.exists_notMem_finset m.live
    have hroom : m.makeRoom 0 = some m := if_neg (by omega)
    have hroom' : makeRoom 0 bal = bal := if_neg (by rw [hrep.count]; omega)
    have hallowed : Allowed 0 m (.create 0 (some a) 0x0a000001 twoHops) := by
      refine ⟨UInt64.le_rfl, by decide, ?_⟩
      intro room heq b hb
      cases hroom.symm.trans heq
      cases hb
      exact ha
    obtain ⟨m', l', hm', hrep'⟩ := ipBalanceCreateNew_spec hrep hbal hallowed.1 0x0a000001
      hallowed.2.1 hallowed.2.2
    refine ⟨m', .step hreach hallowed trivial hm', ?_⟩
    have hadded : (ipBalanceCreateNew 0 true bal 0x0a000001 twoHops).ipSecNum =
        bal.ipSecNum + 1 := by
      simp [ipBalanceCreateNew, hroom', ipBalanceInsert, twoHops, FibResult.dev, FibInfo.devices]
    rw [← hrep'.count, Option.isSome_some, hadded, hrep.count, hcount]

/-! ## The table -/

section Table

variable {now jiffies : UInt64} {m : Memory} {C : Memory → Event → Prop}

/-- Every reachable memory holds its lists, and no event fails there. -/
theorem table_of_reach (h : Reach C now m) :
    (∃ l, Table m l) ∧ (∀ e, Allowed now m e → ∃ m', step m e = some m') ∧
      ((∀ m e, C m e → Unlisted m e) → Distinct m) := by
  obtain ⟨bal, l, hrep, hbal, hwell⟩ := exists_represents h
  refine ⟨⟨l, table_of_represents hrep hbal⟩, ?_, fun hunlisted =>
    distinct_of_represents hrep (hwell hunlisted)⟩
  intro e he
  obtain ⟨m', _, _, hm', _⟩ := step_spec hrep hbal he
  exact ⟨m', hm'⟩

theorem table_of_first_entry : ∃ m,
    step .initial (.create 5 (some 7) 0x0a000001 twoHops) = some m ∧ (∃ l, Table m l) ∧
      Distinct m := by
  have hallowed : Allowed 3 .initial (.create 5 (some 7) 0x0a000001 twoHops) := by
    refine ⟨by decide, by decide, ?_⟩
    intro room heq
    cases heq
    simp [Memory.initial]
  have hreach : Reach Unlisted 5 _ :=
    .step (.start 3) hallowed (fun a ha => by simp [Memory.initial] at ha) rfl
  obtain ⟨htable, -, hdistinct⟩ := table_of_reach hreach
  exact ⟨_, rfl, htable, hdistinct fun _ _ hC => hC⟩

/-- Entries of one key are added again and again if the caller does not search first, and the end
pointer of a list is unset until the list is used. -/
theorem entry_added_twice : (∃ m, Reach (fun _ _ => True) 5 m ∧ ¬ Distinct m) ∧
    Memory.initial.queues.tail 0 ≠ some (.head 0) := by
  refine ⟨?_, by simp [Memory.initial]⟩
  have hfirst : Allowed 3 .initial (.create 5 (some 7) 0x0a000001 twoHops) := by
    refine ⟨by decide, by decide, ?_⟩
    intro room heq
    cases heq
    simp [Memory.initial]
  have hreach : Reach (fun _ _ => True) 5 _ := .step (.start 3) hfirst trivial rfl
  refine ⟨_, .step (e := .create 5 (some 8) 0x0a000001 twoHops) hreach
    ⟨UInt64.le_rfl, by decide, ?_⟩ trivial rfl, ?_⟩
  · intro room heq
    cases heq
    simp [Memory.initial]
  · intro hdistinct
    have heq : 7 = 8 := hdistinct 7 (by decide) 8 (by decide) (by decide)
    cases heq

/-- At the limit entries make room, out of date or else the least recently used of all, and the call
leaves the others with the new one. -/
theorem makes_room_at_limit (h : Reach C now m) (hfull : m.ipSecNum.toNat = ipNumData)
    (hle : now ≤ jiffies) :
    ∃ room, m.makeRoom jiffies = some room ∧ room.live ⊂ m.live ∧
      (∀ a ∈ m.live, a ∉ room.live → trashPeriod * hz < jiffies - (m.node a).lastuse ∨
        ∀ b ∈ m.live, (m.node a).lastuse ≤ (m.node b).lastuse) ∧
      ∀ kmalloc inIp res, Allowed now m (.create jiffies kmalloc inIp res) →
        ∃ m', m.ipBalanceCreateNew jiffies kmalloc inIp res = some m' ∧
          (∀ b, b ∈ m'.live ↔ b ∈ room.live ∨ b ∈ kmalloc) ∧ m'.live.card ≤ ipNumData := by
  obtain ⟨bal, l, hrep, hbal, -⟩ := exists_represents h
  obtain ⟨room, l', hroom, hnode, hsuffix, hrep'⟩ := makeRoom_spec hrep hbal hle
  obtain ⟨hbal', hlt, htaken⟩ := BalanceTable.makeRoom_spec hbal hle
  have hsub : room.live ⊆ m.live := by
    intro a ha
    obtain ⟨i, hi⟩ := (hrep'.live a).mp ha
    exact (hrep.live a).mpr ⟨i, (hsuffix i).subset hi⟩
  refine ⟨room, hroom, ?_, ?_, ?_⟩
  · refine Finset.ssubset_iff_subset_ne.mpr ⟨hsub, ?_⟩
    intro heq
    have hcard := card_live hrep'
    rw [heq, card_live hrep, ← hbal.count, ← hbal'.count, hrep.count] at hcard
    omega
  · intro a ha hgone
    obtain ⟨i, hi⟩ := (hrep.live a).mp ha
    obtain ⟨nodes, hnodes⟩ := hsuffix i
    obtain ⟨taken, heq, hwhy⟩ := htaken i
    have hmap : nodes.map m.node ++ (l' i).map room.node = taken ++ (l' i).map room.node := by
      rw [hnode, ← List.map_append, hnodes, ← hrep.head, heq, hrep'.head, hnode]
    rw [List.append_left_inj] at hmap
    rw [← hnodes, List.mem_append] at hi
    have hnode_mem : a ∈ nodes := hi.resolve_right fun hin => hgone ((hrep'.live a).mpr ⟨i, hin⟩)
    rcases hwhy _ (hmap ▸ List.mem_map_of_mem hnode_mem) with hexpired | hleast
    · exact .inl (lt_of_expired hexpired)
    · right
      intro b hb
      obtain ⟨j, hj⟩ := (hrep.live b).mp hb
      exact hleast j _ (hrep.mem_head hj)
  · intro kmalloc inIp res hallowed
    obtain ⟨m', bal'', l'', hm', hrep'', hbal'', -⟩ := step_spec hrep hbal hallowed
    refine ⟨m', hm', mem_live_of_ipBalanceCreateNew hroom hm', ?_⟩
    rw [card_live hrep'', ← hbal''.count]
    exact hbal''.bound

theorem full_table_makes_room : ∃ m room : Memory, m.ipSecNum.toNat = ipNumData ∧
    m.makeRoom 9 = some room ∧ room.live ⊂ m.live := by
  obtain ⟨m, hreach, hfull⟩ := exists_of_le (Nat.le_refl ipNumData)
  obtain ⟨room, hroom, hlive, -⟩ := makes_room_at_limit hreach hfull (by decide : (0 : UInt64) ≤ 9)
  exact ⟨m, room, hfull, hroom, hlive⟩

end Table

end BalanceRuns
