import Mathlib.Data.Finset.Card
import RouterFirmware.BalanceTable
import RouterFirmware.TailQueue

/-! # The memory of IP based balancing

The 256 lists as the code keeps them: nodes linked by their `next` fields, an `end` pointer a head
that stands on the field where the next node goes, and cursors that point to link fields. An
operation returns nothing where it would use memory that is not allocated, a null pointer or an
index that is out of range, and where a loop would not end.
-/
namespace BalanceMemory

open BalanceTable BucketTable IpBalance Multipath TailQueue
open scoped BigOperators

abbrev Cursor := Slot (Fin 256) ℕ

/-- `IpBalInfoHead` with the nodes by address, the nodes that are allocated and `IpSecNum`. -/
structure Memory where
  queues : Queues (Fin 256) ℕ
  node : ℕ → IpBalanceInfo
  live : Finset ℕ
  ipSecNum : UInt32

/-- A session count of `nk_session_limit`. -/
structure Session where
  ip : UInt32
  sessionCnt : UInt32

namespace Memory

def initial : Memory := ⟨⟨fun _ => none, fun _ => none⟩, fun _ => ⟨0, 0, 0, 0⟩, ∅, 0⟩

def Valid (m : Memory) : Cursor → Prop
  | .head _ => True
  | .next a => a ∈ m.live

instance (m : Memory) : (temp : Cursor) → Decidable (m.Valid temp)
  | .head _ => inferInstanceAs (Decidable True)
  | .next a => inferInstanceAs (Decidable (a ∈ m.live))

/-- `*temp`, whose fields are read next if it is not null. -/
def fetch (m : Memory) (temp : Cursor) : Option (Option ℕ) :=
  if m.Valid temp ∧ ∀ a ∈ m.queues.link temp, a ∈ m.live then some (m.queues.link temp) else none

def ipBalanceInsert (m : Memory) (index : Fin 256) (entry : ℕ) : Option Memory :=
  if m.Valid ((m.queues.tail index).getD (.head index)) ∧ entry ∈ m.live then
    some { m with queues := append m.queues index entry }
  else none

def ipBalanceDel (m : Memory) (index : Fin 256) (front : Cursor) (entry : ℕ) : Option Memory :=
  if m.Valid front ∧ entry ∈ m.live then
    some { m with queues := unlink m.queues index front entry }
  else none

/-- `IpBalanceDel` with the `kfree` and the `IpSecNum--` that always go with it. -/
def trash (m : Memory) (index : Fin 256) (front : Cursor) (entry : ℕ) : Option Memory :=
  (m.ipBalanceDel index front entry).map fun m =>
    { m with live := m.live.erase entry, ipSecNum := m.ipSecNum - 1 }

def searchLoop (jiffies : UInt64) (inIp : UInt32) (res : FibResult) :
    ℕ → Memory → Cursor → Option (Memory × Option FibResult)
  | 0, _, _ => none
  | fuel + 1, m, temp =>
    match m.fetch temp with
    | none => none
    | some none => some (m, none)
    | some (some a) =>
      if inIp = (m.node a).srcip ∧ res.table = (m.node a).table then
        match res.fi.devices.idxOf? (m.node a).out with
        | some count =>
          let used := { m with
            node := Function.update m.node a { m.node a with lastuse := jiffies } }
          let ans := some { res with nhSel := count }
          if (used.queues.link (.next a)).isSome then
            ((used.ipBalanceDel (mask inIp) temp a).bind fun m =>
              m.ipBalanceInsert (mask inIp) a).map fun m => (m, ans)
          else some (used, ans)
        | none =>
          (m.trash (mask inIp) temp a).bind fun m => searchLoop jiffies inIp res fuel m temp
      else searchLoop jiffies inIp res fuel m (.next a)

/-- `SearchIpOut`. A list has no more nodes than there are, unless it is a circle. -/
def searchIpOut (jiffies : UInt64) (m : Memory) (inIp : UInt32) (res : FibResult) :
    Option (Memory × Option FibResult) :=
  searchLoop jiffies inIp res (m.live.card + 1) m (.head (mask inIp))

/-- One head of the loop of `IpBalanceCreateNew`. -/
def trashHead (jiffies : UInt64) (acc : Memory × Option (Fin 256)) (count : Fin 256) :
    Option (Memory × Option (Fin 256)) :=
  match acc.1.fetch (.head count) with
  | none => none
  | some none => some acc
  | some (some a) =>
    if (jiffies - (acc.1.node a).lastuse) / hz > trashPeriod then
      (acc.1.trash count (.head count) a).map fun m => (m, acc.2)
    else
      match acc.2 with
      | none => some (acc.1, some count)
      | some old =>
        match acc.1.fetch (.head old) with
        | some (some b) =>
          if (acc.1.node b).lastuse > (acc.1.node a).lastuse then some (acc.1, some count)
          else some acc
        | _ => none

/-- The first half of `IpBalanceCreateNew`; without an `old`, its index is -1. -/
def makeRoom (jiffies : UInt64) (m : Memory) : Option Memory :=
  if m.ipSecNum.toNat ≥ ipNumData then
    ((List.finRange 256).foldlM (trashHead jiffies) (m, none)).bind fun aged =>
      if aged.1.ipSecNum.toNat ≥ ipNumData then
        match aged.2 with
        | none => none
        | some old =>
          match aged.1.fetch (.head old) with
          | some (some a) => aged.1.trash old (.head old) a
          | _ => none
      else some aged.1
  else some m

/-- `IpBalanceCreateNew`; `kmalloc` gives the address of the new node. -/
def ipBalanceCreateNew (jiffies : UInt64) (kmalloc : Option ℕ) (m : Memory) (inIp : UInt32)
    (res : FibResult) : Option Memory :=
  (makeRoom jiffies m).bind fun room =>
    match kmalloc with
    | none => some room
    | some a =>
      match res.dev with
      | none => none
      | some out =>
        let filled := { room with
          node := Function.update room.node a ⟨inIp, out, res.table, jiffies⟩
          live := insert a room.live }
        (filled.ipBalanceInsert (mask inIp) a).map fun m =>
          { m with ipSecNum := m.ipSecNum + 1 }

/-- The loop of `ipbalance_struct_check` over the list of a source. -/
def forgetLoop (ip : UInt32) : ℕ → Memory → Cursor → Option Memory
  | 0, _, _ => none
  | fuel + 1, m, entryTmp =>
    match m.fetch entryTmp with
    | none => none
    | some none => some m
    | some (some a) =>
      if (m.node a).srcip = ip then
        (m.trash (mask ip) entryTmp a).bind fun m => forgetLoop ip fuel m entryTmp
      else forgetLoop ip fuel m (.next a)

/-- `ipbalance_struct_check`, for the sessions of the portion that is due. -/
def ipbalanceStructCheck (m : Memory) (sessions : List Session) : Option Memory :=
  sessions.foldlM (fun m session =>
    if session.sessionCnt = 0 then
      forgetLoop session.ip (m.live.card + 1) m (.head (mask session.ip))
    else some m) m

end Memory

/-! ## The lists in the memory -/

/-- The nodes `l` are the lists of `bal`. -/
structure Represents (m : Memory) (bal : Heads) (l : Fin 256 → List ℕ) : Prop where
  holds : Holds m.queues l
  head : ∀ i, bal.head i = (l i).map m.node
  live : ∀ a, a ∈ m.live ↔ ∃ i, a ∈ l i
  count : bal.ipSecNum = m.ipSecNum.toNat

section Lists

variable {m : Memory} {bal : Heads} {l : Fin 256 → List ℕ} {i : Fin 256} {a : ℕ}
  {before after rest : List ℕ}

theorem represents_initial : Represents Memory.initial Heads.initial fun _ => [] where
  holds := holds_empty
  head _ := rfl
  live a := by simp [Memory.initial]
  count := rfl

theorem Represents.valid_lastSlot (h : Represents m bal l) (hl : l i = before ++ rest) :
    m.Valid (lastSlot i before) := by
  rcases List.eq_nil_or_concat before with rfl | ⟨c, a, rfl⟩
  · trivial
  · simp only [List.concat_eq_append, lastSlot_concat] at hl ⊢
    exact (h.live a).mpr ⟨i, by simp [hl]⟩

theorem Represents.fetch (h : Represents m bal l) (hl : l i = before ++ rest) :
    m.fetch (lastSlot i before) = some rest.head? := by
  have hlink := h.holds.link i before rest hl
  refine (if_pos ⟨h.valid_lastSlot hl, ?_⟩).trans (congrArg some hlink)
  intro a ha
  have hmem : a ∈ rest := List.mem_of_mem_head? (hlink ▸ ha)
  exact (h.live a).mpr ⟨i, by simp [hl, hmem]⟩

theorem Represents.trash_eq (h : Represents m bal l) (hl : l i = before ++ a :: after) :
    m.trash i (lastSlot i before) a = some { m with
      queues := unlink m.queues i (lastSlot i before) a
      live := m.live.erase a
      ipSecNum := m.ipSecNum - 1 } := by
  have hlive : a ∈ m.live := (h.live a).mpr ⟨i, by simp [hl]⟩
  simp [Memory.trash, Memory.ipBalanceDel, h.valid_lastSlot hl, hlive]

/-- A node is taken off its list and freed. -/
theorem Represents.trash (h : Represents m bal l) (hl : l i = before ++ a :: after)
    (hpos : 0 < bal.ipSecNum) :
    ∃ m', m.trash i (lastSlot i before) a = some m' ∧ m'.node = m.node ∧
      Represents m' ⟨Function.update bal.head i ((before ++ after).map m.node),
        bal.ipSecNum - 1⟩ (Function.update l i (before ++ after)) := by
  refine ⟨_, h.trash_eq hl, rfl, ?_⟩
  have hnodup := h.holds.nodup i
  rw [hl] at hnodup
  constructor
  · exact holds_unlink h.holds hl
  · intro j
    rcases eq_or_ne j i with rfl | hne
    · simp
    · simpa [hne] using h.head j
  · intro b
    simp only [Finset.mem_erase, h.live]
    constructor
    · rintro ⟨hne, j, hj⟩
      refine ⟨j, ?_⟩
      rcases eq_or_ne j i with rfl | hji
      · simp only [hl, List.mem_append, List.mem_cons] at hj
        simp only [Function.update_self, List.mem_append]
        tauto
      · simpa [hji] using hj
    · rintro ⟨j, hj⟩
      rcases eq_or_ne j i with rfl | hji
      · simp only [Function.update_self, List.mem_append] at hj
        refine ⟨?_, j, ?_⟩
        · rintro rfl
          grind
        · simp only [hl, List.mem_append, List.mem_cons]
          tauto
      · rw [Function.update_of_ne hji] at hj
        refine ⟨?_, j, hj⟩
        rintro rfl
        exact hji (h.holds.apart j i b hj (by simp [hl]))
  · have hcount := h.count
    have hone : (1 : UInt32) ≤ m.ipSecNum := by
      rw [UInt32.le_iff_toNat_le]
      have : (1 : UInt32).toNat = 1 := rfl
      omega
    simp only [UInt32.toNat_sub_of_le _ _ hone, hcount]
    rfl

theorem map_update_node {entry : IpBalanceInfo} {nodes : List ℕ} (ha : a ∉ nodes) :
    nodes.map (Function.update m.node a entry) = nodes.map m.node := by
  apply List.map_congr_left
  intro b hb
  have hne : b ≠ a := fun heq => ha (heq ▸ hb)
  simp [hne]

/-- The last node of a list is used where it stands. -/
theorem Represents.use_last (h : Represents m bal l) (hl : l i = before ++ [a])
    (entry : IpBalanceInfo) :
    Represents { m with node := Function.update m.node a entry }
      ⟨Function.update bal.head i (before.map m.node ++ [entry]), bal.ipSecNum⟩ l where
  holds := h.holds
  head j := by
    rcases eq_or_ne j i with rfl | hne
    · have hnodup := h.holds.nodup j
      rw [hl] at hnodup
      have ha : a ∉ before := by grind
      simp [hl, map_update_node ha]
    · have ha : a ∉ l j := fun hj => hne (h.holds.apart j i a hj (by simp [hl]))
      simpa [hne, map_update_node ha] using h.head j
  live := h.live
  count := h.count

/-- An entry that goes to the end of its list stays in the lists. -/
theorem exists_mem_moved (hl : l i = before ++ a :: after) (b : ℕ) :
    (∃ j, b ∈ l j) ↔ ∃ j, b ∈ Function.update l i (before ++ after ++ [a]) j := by
  apply exists_congr
  intro j
  rcases eq_or_ne j i with rfl | hne
  · simp only [hl, Function.update_self, List.mem_append, List.mem_cons, List.not_mem_nil,
      or_false]
    tauto
  · rw [Function.update_of_ne hne]

theorem Represents.use (h : Represents m bal l) (hl : l i = before ++ a :: after)
    (entry : IpBalanceInfo) :
    ∃ m', (({ m with node := Function.update m.node a entry } : Memory).ipBalanceDel i
        (lastSlot i before) a).bind (fun m => m.ipBalanceInsert i a) = some m' ∧
      Represents m' ⟨Function.update bal.head i ((before ++ after).map m.node ++ [entry]),
        bal.ipSecNum⟩ (Function.update l i (before ++ after ++ [a])) := by
  have hnodup := h.holds.nodup i
  rw [hl] at hnodup
  have hrest : a ∉ before ++ after := by grind
  have hout (j : Fin 256) : a ∉ Function.update l i (before ++ after) j := by
    rcases eq_or_ne j i with rfl | hne
    · simpa using hrest
    · rw [Function.update_of_ne hne]
      exact fun hj => hne (h.holds.apart j i a hj (by simp [hl]))
  have hunlinked := holds_unlink h.holds hl
  have hlive : a ∈ m.live := (h.live a).mpr ⟨i, by simp [hl]⟩
  have hvalid := h.valid_lastSlot hl
  have hend : m.Valid (((unlink m.queues i (lastSlot i before) a).tail i).getD (.head i)) := by
    rw [hunlinked.getD_tail, Function.update_self]
    rcases List.eq_nil_or_concat (before ++ after) with hnil | ⟨c, b, hc⟩
    · rw [hnil]
      trivial
    · rw [hc, List.concat_eq_append, lastSlot_concat]
      have hb : b ∈ before ++ after := by simp [hc]
      refine (h.live b).mpr ⟨i, ?_⟩
      simp only [List.mem_append] at hb
      simp only [hl, List.mem_append, List.mem_cons]
      tauto
  have hmoved := holds_append (i := i) hunlinked hout
  rw [Function.update_self, Function.update_idem] at hmoved
  refine ⟨{ m with
    queues := append (unlink m.queues i (lastSlot i before) a) i a
    node := Function.update m.node a entry }, ?_, hmoved, ?_, ?_, h.count⟩
  · have hvalid' : ({ m with node := Function.update m.node a entry } : Memory).Valid
        (lastSlot i before) := hvalid
    have hend' : ({ m with
        queues := unlink m.queues i (lastSlot i before) a
        node := Function.update m.node a entry } : Memory).Valid
        (((unlink m.queues i (lastSlot i before) a).tail i).getD (.head i)) := hend
    simp [Memory.ipBalanceDel, Memory.ipBalanceInsert, hlive, hvalid', hend']
  · intro j
    rcases eq_or_ne j i with rfl | hne
    · obtain ⟨hbefore, hafter⟩ : a ∉ before ∧ a ∉ after := by simpa using hrest
      simp [map_update_node hbefore, map_update_node hafter]
    · have ha : a ∉ l j := fun hj => hne (h.holds.apart j i a hj (by simp [hl]))
      simpa [hne, map_update_node ha] using h.head j
  · exact fun b => (h.live b).trans (exists_mem_moved hl b)

theorem Represents.length_le (h : Represents m bal l) (i : Fin 256) :
    (l i).length ≤ m.live.card := by
  rw [← List.toFinset_card_of_nodup (h.holds.nodup i)]
  apply Finset.card_le_card
  intro a ha
  exact (h.live a).mpr ⟨i, List.mem_toFinset.mp ha⟩

end Lists

/-! ## The loops -/

section Loops

variable {now jiffies : UInt64} {inIp ip : UInt32} {res : FibResult} {m : Memory} {bal : Heads}
  {l : Fin 256 → List ℕ} {before rest : List ℕ} {fuel : ℕ}

theorem searchLoop_spec (h : Represents m bal l) (hl : l (mask inIp) = before ++ rest)
    (hfuel : rest.length < fuel) (hcount : rest.length ≤ bal.ipSecNum) :
    let found := searchList jiffies (inIp, res.table) res.fi.devices (rest.map m.node)
    ∃ m' l', m.searchLoop jiffies inIp res fuel (lastSlot (mask inIp) before) =
        some (m', found.2.2.map fun count => { res with nhSel := count }) ∧
      Represents m' ⟨Function.update bal.head (mask inIp) (before.map m.node ++ found.1),
        bal.ipSecNum - found.2.1⟩ l' := by
  induction fuel generalizing m bal l before rest with
  | zero => omega
  | succ fuel ih =>
    rw [Memory.searchLoop, h.fetch hl]
    rcases rest with - | ⟨a, after⟩
    · refine ⟨m, l, rfl, ?_⟩
      have hhead : bal.head (mask inIp) = before.map m.node := by
        simpa [hl] using h.head (mask inIp)
      simpa [searchList, ← hhead] using h
    · simp only [List.length_cons] at hfuel hcount
      have hkey : (layout.key (m.node a) = (inIp, res.table)) ↔
          inIp = (m.node a).srcip ∧ res.table = (m.node a).table := by
        simp [layout, eq_comm]
      simp only [List.head?_cons, List.map_cons, searchList, hkey]
      split
      · cases hidx : res.fi.devices.idxOf? (m.node a).out with
        | some count =>
          have hlink : m.queues.link (.next a) = after.head? := by
            simpa using h.holds.link (mask inIp) (before ++ [a]) after (by simp [hl])
          rcases after with - | ⟨b, after⟩
          · refine ⟨_, l, ?_, h.use_last hl { m.node a with lastuse := jiffies }⟩
            simp [hlink]
          · obtain ⟨m', hm', hrep⟩ := h.use hl { m.node a with lastuse := jiffies }
            refine ⟨m', Function.update l (mask inIp) (before ++ b :: after ++ [a]), ?_, ?_⟩
            · simp only [hlink, List.head?_cons, Option.isSome_some, if_true]
              rw [hm']
              rfl
            · simpa using hrep
        | none =>
          obtain ⟨m', hm', hnode, hrep⟩ := h.trash hl (by omega)
          have hl' : Function.update l (mask inIp) (before ++ after) (mask inIp) =
              before ++ after := Function.update_self _ _ _
          obtain ⟨m'', l', hm'', hrep'⟩ := ih hrep hl' (by omega) (by dsimp only; omega)
          simp only [hnode, Function.update_idem] at hm'' hrep'
          refine ⟨m'', l', ?_, ?_⟩
          · simpa [hm'] using hm''
          · simpa [Nat.sub_sub, Nat.add_comm] using hrep'
      · have hslot : lastSlot (mask inIp) (before ++ [a]) = .next a := lastSlot_concat _ _ _
        obtain ⟨m', l', hm', hrep⟩ := @ih m bal l (before ++ [a]) after h (by simp [hl])
          (by omega) (by omega)
        refine ⟨m', l', hslot ▸ hm', ?_⟩
        simpa using hrep

theorem searchIpOut_spec (h : Represents m bal l) (hbal : Sound now bal) (jiffies : UInt64)
    (inIp : UInt32) (res : FibResult) : ∃ m' l',
    m.searchIpOut jiffies inIp res = some (m', (searchIpOut jiffies bal inIp res).2) ∧
      Represents m' (searchIpOut jiffies bal inIp res).1 l' := by
  have hlength := h.length_le (mask inIp)
  have hcount : (l (mask inIp)).length ≤ bal.ipSecNum := by
    have hsize := length_le_size bal.head (mask inIp)
    rwa [h.head, List.length_map, ← hbal.count] at hsize
  obtain ⟨m', l', hm', hrep⟩ := searchLoop_spec h (List.nil_append _).symm
    (Nat.lt_succ_of_le hlength) hcount
  rw [← h.head] at hm' hrep
  exact ⟨m', l', hm', hrep⟩

theorem forgetLoop_spec (h : Represents m bal l) (hl : l (mask ip) = before ++ rest)
    (hfuel : rest.length < fuel) (hcount : rest.length ≤ bal.ipSecNum) :
    let kept := (rest.map m.node).filter fun entry => entry.srcip ≠ ip
    ∃ m' l', m.forgetLoop ip fuel (lastSlot (mask ip) before) = some m' ∧
      Represents m' ⟨Function.update bal.head (mask ip) (before.map m.node ++ kept),
        bal.ipSecNum - (rest.length - kept.length)⟩ l' := by
  induction fuel generalizing m bal l before rest with
  | zero => omega
  | succ fuel ih =>
    rw [Memory.forgetLoop, h.fetch hl]
    rcases rest with - | ⟨a, after⟩
    · refine ⟨m, l, rfl, ?_⟩
      have hhead : bal.head (mask ip) = before.map m.node := by
        simpa [hl] using h.head (mask ip)
      simpa [← hhead] using h
    · simp only [List.length_cons] at hfuel hcount
      simp only [List.head?_cons, List.map_cons, List.length_cons]
      have hkept : ((after.map m.node).filter fun entry => entry.srcip ≠ ip).length ≤
          after.length := by
        simpa using List.length_filter_le (fun entry => entry.srcip ≠ ip) (after.map m.node)
      by_cases hip : (m.node a).srcip = ip
      · obtain ⟨m', hm', hnode, hrep⟩ := h.trash hl (by omega)
        have hl' : Function.update l (mask ip) (before ++ after) (mask ip) =
            before ++ after := Function.update_self _ _ _
        obtain ⟨m'', l', hm'', hrep'⟩ := ih hrep hl' (by omega) (by dsimp only; omega)
        simp only [hnode, Function.update_idem] at hm'' hrep'
        refine ⟨m'', l', ?_, ?_⟩
        · simpa [hip, hm'] using hm''
        · rw [List.filter_cons_of_neg (by simpa using hip), Nat.succ_sub hkept,
            Nat.succ_eq_add_one, Nat.add_comm, ← Nat.sub_sub]
          exact hrep'
      · have hslot : lastSlot (mask ip) (before ++ [a]) = .next a := lastSlot_concat _ _ _
        obtain ⟨m', l', hm', hrep⟩ := @ih m bal l (before ++ [a]) after h (by simp [hl])
          (by omega) (by omega)
        refine ⟨m', l', ?_, ?_⟩
        · rw [if_neg hip, ← hslot]
          exact hm'
        · rw [List.filter_cons_of_pos (by simpa using hip), List.length_cons,
            Nat.add_sub_add_right]
          simpa using hrep

/-- A source without sessions is forgotten. -/
def forgetIdle (bal : Heads) (session : Session) : Heads :=
  if session.sessionCnt = 0 then forget bal session.ip else bal

theorem sound_forgetIdle (h : Sound now bal) (session : Session) :
    Sound now (forgetIdle bal session) := by
  unfold forgetIdle
  split
  · exact sound_forget h session.ip
  · exact h

theorem wellFormed_forgetIdle (h : layout.WellFormed bal.head) (session : Session) :
    layout.WellFormed (forgetIdle bal session).head := by
  unfold forgetIdle
  split
  · exact wellFormed_forget h session.ip
  · exact h

theorem ipbalanceStructCheck_spec (h : Represents m bal l) (hbal : Sound now bal)
    (sessions : List Session) : ∃ m' l', m.ipbalanceStructCheck sessions = some m' ∧
      Represents m' (sessions.foldl forgetIdle bal) l' := by
  induction sessions generalizing m bal l with
  | nil => exact ⟨m, l, rfl, h⟩
  | cons session sessions ih =>
    have hstep : ∃ m' l', (if session.sessionCnt = 0 then
        m.forgetLoop session.ip (m.live.card + 1) (.head (mask session.ip)) else some m) =
          some m' ∧ Represents m' (forgetIdle bal session) l' := by
      unfold forgetIdle
      split
      · have hlength := h.length_le (mask session.ip)
        have hsize := length_le_size bal.head (mask session.ip)
        rw [h.head, List.length_map, ← hbal.count] at hsize
        obtain ⟨m', l', hm', hrep⟩ := forgetLoop_spec h (List.nil_append _).symm
          (Nat.lt_succ_of_le hlength) hsize
        refine ⟨m', l', hm', ?_⟩
        simpa [forget, h.head] using hrep
      · exact ⟨m, l, rfl, h⟩
    obtain ⟨m', l', hm', hrep⟩ := hstep
    obtain ⟨m'', l'', hm'', hrep'⟩ := ih hrep (sound_forgetIdle hbal session)
    refine ⟨m'', l'', ?_, hrep'⟩
    simp only [Memory.ipbalanceStructCheck, List.foldlM_cons, hm'] at hm'' ⊢
    exact hm''

end Loops

/-! ## Making room and the new entry -/

section Room

variable {now jiffies : UInt64} {inIp : UInt32} {res : FibResult} {m : Memory} {bal bal₀ : Heads}
  {l : Fin 256 → List ℕ} {old : Option (Fin 256)} {done counts : List (Fin 256)}
  {count i : Fin 256}

theorem Represents.mem_head (h : Represents m bal l) {a : ℕ} (ha : a ∈ l i) :
    m.node a ∈ bal.head i := by
  rw [h.head]
  exact List.mem_map_of_mem ha

theorem Represents.fetch_head (h : Represents m bal l) (i : Fin 256) :
    ∃ first, m.fetch (.head i) = some first ∧ (bal.head i).head? = first.map m.node := by
  refine ⟨(l i).head?, h.fetch (List.nil_append _).symm, ?_⟩
  rw [h.head, List.head?_map]

theorem Represents.fetch_cons (h : Represents m bal l) {entry : IpBalanceInfo}
    {rest : List IpBalanceInfo} (hhead : bal.head i = entry :: rest) :
    ∃ a, m.fetch (.head i) = some (some a) ∧ m.node a = entry := by
  obtain ⟨first, hfetch, hmap⟩ := h.fetch_head i
  rw [hhead, List.head?_cons] at hmap
  obtain ⟨a, rfl, hnode⟩ := Option.map_eq_some_iff.mp hmap.symm
  exact ⟨a, hfetch, hnode⟩

theorem Represents.trash_head (h : Represents m bal l) {a : ℕ}
    (hfetch : m.fetch (.head i) = some (some a)) (hpos : 0 < bal.ipSecNum) :
    ∃ m' l', m.trash i (.head i) a = some m' ∧ m'.node = m.node ∧ (∀ j, l' j <:+ l j) ∧
      Represents m' ⟨Function.update bal.head i (bal.head i).tail, bal.ipSecNum - 1⟩ l' := by
  have hfirst := (h.fetch (List.nil_append (l i)).symm).symm.trans hfetch
  simp only [Option.some.injEq] at hfirst
  obtain ⟨after, hl⟩ := List.head?_eq_some_iff.mp hfirst
  obtain ⟨m', hm', hnode, hrep⟩ := h.trash (hl.trans (List.nil_append _).symm) hpos
  refine ⟨m', Function.update l i after, hm', hnode, ?_, ?_⟩
  · intro j
    rcases eq_or_ne j i with rfl | hne
    · simp [hl]
    · simp [hne]
  · simpa [h.head, hl] using hrep

theorem trashHead_spec (h : Represents m bal l) (haged : Aged jiffies bal₀ done (bal, old)) :
    ∃ m' l', Memory.trashHead jiffies (m, old) count =
        some (m', (trashHead jiffies (bal, old) count).2) ∧
      m'.node = m.node ∧ (∀ j, l' j <:+ l j) ∧
      Represents m' (trashHead jiffies (bal, old) count).1 l' := by
  unfold trashHead Memory.trashHead
  dsimp only
  cases hhead : bal.head count with
  | nil =>
    obtain ⟨first, hfetch, hmap⟩ := h.fetch_head count
    rw [hhead, List.head?_nil, eq_comm, Option.map_eq_none_iff] at hmap
    subst hmap
    exact ⟨m, l, by rw [hfetch], rfl, fun _ => List.suffix_refl _, h⟩
  | cons entry rest =>
    obtain ⟨a, hfetch, hnode⟩ := h.fetch_cons hhead
    simp only [hfetch, hnode]
    split
    · have hpos : 0 < bal.ipSecNum := by
        have hcount : bal.ipSecNum = size bal.head := haged.sound.count
        rw [hcount]
        exact size_pos_iff.mpr ⟨count, by simp [hhead]⟩
      obtain ⟨m', l', hm', hnode', hsuffix, hrep⟩ := h.trash_head hfetch hpos
      refine ⟨m', l', by simp [hm'], hnode', hsuffix, ?_⟩
      simpa [hhead] using hrep
    · cases old with
      | none => exact ⟨m, l, rfl, rfl, fun _ => List.suffix_refl _, h⟩
      | some old =>
        obtain ⟨e', rest', hcons⟩ := List.exists_cons_of_ne_nil (haged.old old rfl).2.2
        obtain ⟨b, hfetch', hnode'⟩ := h.fetch_cons hcons
        dsimp only at hcons
        simp only [hfetch', hnode', hcons, List.head?_cons, Option.elim_some]
        split
        · exact ⟨m, l, rfl, rfl, fun _ => List.suffix_refl _, h⟩
        · exact ⟨m, l, rfl, rfl, fun _ => List.suffix_refl _, h⟩

theorem foldlM_trashHead_spec (h : Represents m bal l)
    (haged : Aged jiffies bal₀ done (bal, old)) (hnodup : (done ++ counts).Nodup) :
    ∃ m' l', counts.foldlM (Memory.trashHead jiffies) (m, old) =
        some (m', (counts.foldl (trashHead jiffies) (bal, old)).2) ∧
      m'.node = m.node ∧ (∀ j, l' j <:+ l j) ∧
      Represents m' (counts.foldl (trashHead jiffies) (bal, old)).1 l' := by
  induction counts generalizing m bal l old done with
  | nil => exact ⟨m, l, rfl, rfl, fun _ => List.suffix_refl _, h⟩
  | cons count counts ih =>
    have hcount : count ∉ done := fun hmem =>
      (List.nodup_append.mp hnodup).2.2 count hmem count List.mem_cons_self rfl
    have hsplit : done ++ count :: counts = (done ++ [count]) ++ counts := by simp
    rw [hsplit] at hnodup
    obtain ⟨m', l', hm', hnode, hsuffix, hrep⟩ := trashHead_spec h haged
    obtain ⟨m'', l'', hm'', hnode', hsuffix', hrep'⟩ :=
      ih hrep (aged_trashHead haged hcount) hnodup
    refine ⟨m'', l'', ?_, hnode'.trans hnode, fun j => (hsuffix' j).trans (hsuffix j), hrep'⟩
    rw [List.foldlM_cons, hm']
    exact hm''

theorem makeRoom_spec (h : Represents m bal l) (hbal : Sound now bal) (hle : now ≤ jiffies) :
    ∃ m' l', m.makeRoom jiffies = some m' ∧ m'.node = m.node ∧ (∀ j, l' j <:+ l j) ∧
      Represents m' (makeRoom jiffies bal) l' := by
  have haged := aged_all hbal hle
  have hnodup : ([] ++ List.finRange 256).Nodup := by
    rw [List.nil_append]
    exact List.nodup_finRange 256
  obtain ⟨m', l', hm', hnode, hsuffix, hrep⟩ :=
    foldlM_trashHead_spec h (aged_start hbal hle) hnodup
  unfold makeRoom Memory.makeRoom
  rw [← h.count]
  split
  · dsimp only
    rw [hm', Option.bind_some]
    dsimp only
    rw [← hrep.count]
    split
    · next hfull =>
      obtain ⟨hkept, old, entry, rest, hold, hcons, -⟩ := haged.full hbal hfull
      rw [← hkept] at hcons
      obtain ⟨a, hfetch, -⟩ := hrep.fetch_cons hcons
      have hpos : 0 < ipNumData := by decide
      obtain ⟨m'', l'', hm'', hnode', hsuffix', hrep'⟩ := hrep.trash_head hfetch (by omega)
      simp only [hold, hfetch, hm'']
      exact ⟨m'', l'', rfl, hnode'.trans hnode, fun j => (hsuffix' j).trans (hsuffix j), hrep'⟩
    · exact ⟨m', l', rfl, hnode, hsuffix, hrep⟩
  · exact ⟨m, l, rfl, rfl, fun _ => List.suffix_refl _, h⟩

/-- A new node goes to the end of a list. -/
theorem Represents.add (h : Represents m bal l) {a : ℕ} (ha : a ∉ m.live)
    (hcount : bal.ipSecNum < ipNumData) (i : Fin 256) (entry : IpBalanceInfo) :
    ∃ m', (({ m with
        node := Function.update m.node a entry
        live := insert a m.live } : Memory).ipBalanceInsert i a).map
          (fun m => { m with ipSecNum := m.ipSecNum + 1 }) = some m' ∧
      Represents m' ⟨Function.update bal.head i (bal.head i ++ [entry]), bal.ipSecNum + 1⟩
        (Function.update l i (l i ++ [a])) := by
  have hout (j : Fin 256) : a ∉ l j := fun hj => ha ((h.live a).mpr ⟨j, hj⟩)
  have hend : ({ m with
      node := Function.update m.node a entry
      live := insert a m.live } : Memory).Valid ((m.queues.tail i).getD (.head i)) := by
    have hslot := h.valid_lastSlot (List.append_nil (l i)).symm
    rw [h.holds.getD_tail]
    cases hlast : lastSlot i (l i) with
    | head j => trivial
    | next b =>
      rw [hlast] at hslot
      exact Finset.mem_insert_of_mem hslot
  refine ⟨{ m with
    queues := append m.queues i a
    node := Function.update m.node a entry
    live := insert a m.live
    ipSecNum := m.ipSecNum + 1 }, ?_, holds_append h.holds hout, ?_, ?_, ?_⟩
  · simp [Memory.ipBalanceInsert, hend]
  · intro j
    rcases eq_or_ne j i with rfl | hne
    · simp [h.head, map_update_node (hout j)]
    · simp [hne, h.head, map_update_node (hout j)]
  · intro b
    simp only [Finset.mem_insert, h.live]
    constructor
    · rintro (rfl | ⟨j, hj⟩)
      · exact ⟨i, by simp⟩
      · refine ⟨j, ?_⟩
        rcases eq_or_ne j i with rfl | hne
        · simp [hj]
        · simpa [hne] using hj
    · rintro ⟨j, hj⟩
      rcases eq_or_ne j i with rfl | hne
      · simp only [Function.update_self, List.mem_append, List.mem_singleton] at hj
        tauto
      · exact .inr ⟨j, by simpa [hne] using hj⟩
  · have hold := h.count
    have hbound : ipNumData = 5000 := rfl
    have hone : (1 : UInt32).toNat = 1 := rfl
    have hadd : (m.ipSecNum + 1).toNat = m.ipSecNum.toNat + 1 := by
      rw [UInt32.toNat_add, hone, Nat.mod_eq_of_lt (by omega)]
    rw [h.count]
    exact hadd.symm

theorem ipBalanceCreateNew_spec {kmalloc : Option ℕ} (h : Represents m bal l)
    (hbal : Sound now bal) (hle : now ≤ jiffies) (inIp : UInt32)
    (hres : res.nhSel < res.fi.fibNhs)
    (hfresh : ∀ room, m.makeRoom jiffies = some room → ∀ a ∈ kmalloc, a ∉ room.live) :
    ∃ m' l', m.ipBalanceCreateNew jiffies kmalloc inIp res = some m' ∧
      Represents m' (ipBalanceCreateNew jiffies kmalloc.isSome bal inIp res) l' := by
  obtain ⟨room, l', hroom, hnode, -, hrep⟩ := makeRoom_spec h hbal hle
  obtain ⟨-, hlt, -⟩ := BalanceTable.makeRoom_spec hbal hle
  rw [Memory.ipBalanceCreateNew, hroom, Option.bind_some]
  cases hkmalloc : kmalloc with
  | none => exact ⟨room, l', rfl, hrep⟩
  | some a =>
    obtain ⟨out, -, hdev⟩ := dev_eq_some hres
    obtain ⟨m', hm', hrep'⟩ := hrep.add (hfresh room hroom a hkmalloc) hlt (mask inIp)
      ⟨inIp, out, res.table, jiffies⟩
    simp only [ipBalanceCreateNew, hdev, Option.isSome_some]
    exact ⟨m', _, hm', hrep'⟩

/-- Once there is room, only the new node comes in. -/
theorem mem_live_of_ipBalanceCreateNew {kmalloc : Option ℕ} {m' room : Memory}
    (hroom : m.makeRoom jiffies = some room)
    (h : m.ipBalanceCreateNew jiffies kmalloc inIp res = some m') (b : ℕ) :
    b ∈ m'.live ↔ b ∈ room.live ∨ b ∈ kmalloc := by
  rw [Memory.ipBalanceCreateNew, hroom, Option.bind_some] at h
  cases kmalloc with
  | none =>
    cases h
    simp
  | some a =>
    cases hdev : res.dev with
    | none =>
      rw [hdev] at h
      cases h
    | some out =>
      simp only [hdev, Memory.ipBalanceInsert] at h
      split at h
      · cases h
        simp [or_comm, eq_comm]
      · cases h

end Room

end BalanceMemory
