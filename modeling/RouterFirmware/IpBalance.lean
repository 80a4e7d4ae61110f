import RouterFirmware.BucketTable
import RouterFirmware.GuardedRun
import RouterFirmware.Multipath

/-! # IP based balancing

With `ip_base_flag` set, a source keeps its next hop: the choice made for it in a routing
table is remembered in one of 256 lists, and a later flow takes it as long as the route still
has that device. A list is ordered by use, and its head is what ageing looks at.
-/
namespace IpBalance

open BucketTable GuardedRun Multipath

structure IpBalanceInfo where
  srcip : UInt32
  out : UInt32
  table : UInt8
  lastuse : UInt64
  deriving DecidableEq

/-- `IpBalInfoHead` and `IpSecNum`. -/
structure Heads where
  head : Fin 256 → List IpBalanceInfo
  ipSecNum : ℕ

def trashPeriod : UInt64 := 3600

def ipNumData : ℕ := 5000

def hz : UInt64 := 1000

def mask (inIp : UInt32) : Fin 256 := Fin.ofNat 256 (inIp &&& 0xff).toNat

/-- The source and the routing table. -/
abbrev Key := UInt32 × UInt8

def layout : Layout (Fin 256) Key IpBalanceInfo :=
  ⟨fun key => mask key.1, fun entry => (entry.srcip, entry.table)⟩

/-- The loop of `SearchIpOut`: the list as it leaves it, the number of entries it deleted, and
the next hop of the entry found. -/
def searchList (jiffies : UInt64) (key : Key) (devices : List UInt32) :
    List IpBalanceInfo → List IpBalanceInfo × ℕ × Option ℕ
  | [] => ([], 0, none)
  | temp :: rest =>
    if layout.key temp = key then
      match devices.idxOf? temp.out with
      | some count => (rest ++ [{ temp with lastuse := jiffies }], 0, some count)
      | none =>
        let found := searchList jiffies key devices rest
        (found.1, found.2.1 + 1, found.2.2)
    else
      let found := searchList jiffies key devices rest
      (temp :: found.1, found.2)

/-- `SearchIpOut`; the device it returns is that of the next hop. -/
def searchIpOut (jiffies : UInt64) (bal : Heads) (inIp : UInt32) (res : FibResult) :
    Heads × Option FibResult :=
  let found := searchList jiffies (inIp, res.table) res.fi.devices (bal.head (mask inIp))
  (⟨Function.update bal.head (mask inIp) found.1, bal.ipSecNum - found.2.1⟩,
    found.2.2.map fun count => { res with nhSel := count })

/-- One bucket of the loop over all heads: the head is deleted when it was not used for
`TrashPeriod`, else `old` may become this bucket. -/
def trashHead (jiffies : UInt64) (acc : Heads × Option (Fin 256)) (count : Fin 256) :
    Heads × Option (Fin 256) :=
  match acc.1.head count with
  | [] => acc
  | entry :: rest =>
    if (jiffies - entry.lastuse) / hz > trashPeriod then
      (⟨Function.update acc.1.head count rest, acc.1.ipSecNum - 1⟩, acc.2)
    else
      match acc.2 with
      | none => (acc.1, some count)
      | some old =>
        -- The bucket `old` has a head: only the bucket at hand loses its own.
        if ((acc.1.head old).head?.elim 0 IpBalanceInfo.lastuse) > entry.lastuse then
          (acc.1, some count)
        else acc

/-- The first half of `IpBalanceCreateNew`, which makes room by age and at the limit. -/
def makeRoom (jiffies : UInt64) (bal : Heads) : Heads :=
  if bal.ipSecNum ≥ ipNumData then
    let aged := (List.finRange 256).foldl (trashHead jiffies) (bal, none)
    if aged.1.ipSecNum ≥ ipNumData then
      match aged.2 with
      | none => aged.1
      | some old => ⟨Function.update aged.1.head old (aged.1.head old).tail, aged.1.ipSecNum - 1⟩
    else aged.1
  else bal

def ipBalanceInsert (bal : Heads) (index : Fin 256) (entry : IpBalanceInfo) : Heads :=
  { bal with head := Function.update bal.head index (bal.head index ++ [entry]) }

/-- `IpBalanceCreateNew`; `kmalloc` says whether the allocation succeeds. -/
def ipBalanceCreateNew (jiffies : UInt64) (kmalloc : Bool) (bal : Heads) (inIp : UInt32)
    (res : FibResult) : Heads :=
  let room := makeRoom jiffies bal
  match kmalloc, res.dev with
  | true, some out =>
    let inserted := ipBalanceInsert room (mask inIp) ⟨inIp, out, res.table, jiffies⟩
    { inserted with ipSecNum := inserted.ipSecNum + 1 }
  | _, _ => room

/-- What `ip_route_input_slow` decides on, once the rules have given the route. -/
structure Decision where
  jiffies : UInt64
  saddr : UInt32
  res : FibResult
  outDevice : Option UInt32
  kmalloc : Bool

def Decision.key (d : Decision) : Key := (d.saddr, d.res.table)

def Decision.Balanced (d : Decision) : Prop := d.outDevice = none ∧ d.res.fi.fibNhs > 1

instance (d : Decision) : Decidable d.Balanced := inferInstanceAs (Decidable (_ ∧ _))

def selectMultipath (jiffies : UInt64) (res : FibResult) : FibResult :=
  { res with
    fi := (fibSelectMultipath jiffies res.fi).1
    nhSel := (fibSelectMultipath jiffies res.fi).2 }

/-- `ip_route_input_slow` with `ip_base_flag`, from the balancing on; `ip_mkroute_input_def`
selects only where `notmultipath` is not set. -/
def ipRouteInputSlow (bal : Heads) (d : Decision) : Heads × FibResult :=
  if d.Balanced then
    match searchIpOut d.jiffies bal d.saddr d.res with
    | (bal', some res) => (bal', res)
    | (bal', none) =>
      let res := selectMultipath d.jiffies d.res
      (ipBalanceCreateNew d.jiffies d.kmalloc bal' d.saddr res, res)
  else if d.res.fi.fibNhs > 1 then (bal, selectMultipath d.jiffies d.res)
  else (bal, d.res)

def next (bal : Heads) (d : Decision) : Heads := (ipRouteInputSlow bal d).1

def chosen (bal : Heads) (d : Decision) : Option UInt32 := (ipRouteInputSlow bal d).2.dev

def Heads.initial : Heads := ⟨fun _ => [], 0⟩

def run (ds : List Decision) : Heads := ds.foldl next .initial

/-- The entries of the key outlive the decision's making of room. -/
def Spares (key : Key) (bal : Heads) (d : Decision) : Prop :=
  let searched := searchIpOut d.jiffies bal d.saddr d.res
  searched.2 = none → ∀ entry ∈ searched.1.head (layout.hash key), layout.key entry = key →
    entry ∈ (makeRoom d.jiffies searched.1).head (layout.hash key)

instance (key : Key) (bal : Heads) (d : Decision) : Decidable (Spares key bal d) :=
  inferInstanceAs (Decidable (_ → ∀ entry ∈ _, _ → _))

/-- A decision for the key has the device among its next hops, and no other removes the entry
of the key by age or at the limit. -/
def Stays (key : Key) (dev : UInt32) (bal : Heads) (d : Decision) : Prop :=
  d.Balanced → (d.key = key → dev ∈ d.res.fi.devices) ∧ Spares key bal d

instance (key : Key) (dev : UInt32) (bal : Heads) (d : Decision) :
    Decidable (Stays key dev bal d) :=
  inferInstanceAs (Decidable (_ → _ ∧ _))

/-! ## The search -/

section Search

variable {jiffies : UInt64} {key : Key} {devices : List UInt32} {l : List IpBalanceInfo}

theorem searchList_of_forall (h : ∀ entry ∈ l, layout.key entry ≠ key) :
    searchList jiffies key devices l = (l, 0, none) := by
  induction l with
  | nil => rfl
  | cons temp rest ih =>
    rw [searchList, if_neg (h temp List.mem_cons_self),
      ih fun entry hentry => h entry (List.mem_cons_of_mem _ hentry)]

/-- The one entry of the key, if there is any, is moved to the end or deleted. -/
theorem searchList_eq (hl : (l.map layout.key).Nodup) :
    searchList jiffies key devices l =
      match l.find? fun entry => layout.key entry = key with
      | none => (l, 0, none)
      | some temp =>
        match devices.idxOf? temp.out with
        | none => (l.filter fun entry => layout.key entry ≠ key, 1, none)
        | some count => ((l.filter fun entry => layout.key entry ≠ key) ++
            [{ temp with lastuse := jiffies }], 0, some count) := by
  induction l with
  | nil => rfl
  | cons temp rest ih =>
    obtain ⟨htemp, hrest⟩ := List.nodup_cons.mp hl
    rw [searchList]
    by_cases hkey : layout.key temp = key
    · have hnone : ∀ entry ∈ rest, layout.key entry ≠ key := by
        intro entry hentry heq
        exact htemp (hkey.trans heq.symm ▸ List.mem_map_of_mem hentry)
      have hfilter : (rest.filter fun entry => layout.key entry ≠ key) = rest := by
        simpa using hnone
      rw [if_pos hkey, List.find?_cons_of_pos (by simpa using hkey),
        List.filter_cons_of_neg (by simpa using hkey), hfilter, searchList_of_forall hnone]
      cases hcount : devices.idxOf? temp.out with
      | none => simp only [hcount]
      | some count => simp only [hcount]
    · rw [if_neg hkey, List.find?_cons_of_neg (by simpa using hkey),
        List.filter_cons_of_pos (by simpa using hkey), ih hrest]
      split
      · rfl
      · split <;> rfl

end Search

section Balance

variable {jiffies : UInt64} {bal : Heads} {key : Key} {inIp : UInt32} {res : FibResult}
  {d : Decision} {dev : UInt32} {entry : IpBalanceInfo}

theorem searchIpOut_of_none (h : layout.lookup bal.head (inIp, res.table) = none) :
    searchIpOut jiffies bal inIp res = (bal, none) := by
  have hnone : ∀ entry ∈ bal.head (mask inIp), layout.key entry ≠ (inIp, res.table) := by
    intro entry hentry
    simpa using List.find?_eq_none.mp h entry hentry
  simp only [searchIpOut, searchList_of_forall hnone, Function.update_eq_self]
  rfl

/-- The list of a source without the entry of the table. -/
def others (bal : Heads) (inIp : UInt32) (table : UInt8) : List IpBalanceInfo :=
  (bal.head (mask inIp)).filter fun entry => layout.key entry ≠ (inIp, table)

theorem searchIpOut_of_some (hbal : layout.WellFormed bal.head)
    (h : layout.lookup bal.head (inIp, res.table) = some entry) :
    searchIpOut jiffies bal inIp res =
      match res.fi.devices.idxOf? entry.out with
      | none => (⟨Function.update bal.head (mask inIp) (others bal inIp res.table),
          bal.ipSecNum - 1⟩, none)
      | some count => (⟨Function.update bal.head (mask inIp)
          (others bal inIp res.table ++ [{ entry with lastuse := jiffies }]), bal.ipSecNum⟩,
          some { res with nhSel := count }) := by
  have hfind : (bal.head (mask inIp)).find? (fun e => layout.key e = (inIp, res.table)) =
    some entry := h
  simp only [searchIpOut, searchList_eq (hbal.nodup (mask inIp)), hfind]
  split <;> rfl

theorem mem_others {table : UInt8} :
    entry ∈ others bal inIp table ↔
      entry ∈ bal.head (mask inIp) ∧ layout.key entry ≠ (inIp, table) := by
  simp [others]

def remembered (bal : Heads) (key : Key) : Option UInt32 :=
  (layout.lookup bal.head key).map IpBalanceInfo.out

theorem remembered_of_mem (hbal : layout.WellFormed bal.head) {i : Fin 256}
    (h : entry ∈ bal.head i) : remembered bal (layout.key entry) = some entry.out := by
  rw [remembered, Layout.lookup_of_mem hbal h]
  rfl

theorem exists_of_remembered (h : remembered bal key = some dev) :
    ∃ entry ∈ bal.head (layout.hash key), layout.key entry = key ∧ entry.out = dev := by
  obtain ⟨entry, hentry, rfl⟩ := Option.map_eq_some_iff.mp h
  exact ⟨entry, List.mem_of_find?_eq_some hentry, Layout.key_of_lookup hentry, rfl⟩

theorem wellFormed_searchIpOut (hbal : layout.WellFormed bal.head) :
    layout.WellFormed (searchIpOut jiffies bal inIp res).1.head := by
  cases hlookup : layout.lookup bal.head (inIp, res.table) with
  | none => rwa [searchIpOut_of_none hlookup]
  | some entry =>
    have hkey : layout.key entry = (inIp, res.table) := Layout.key_of_lookup hlookup
    have hothers : (others bal inIp res.table).Sublist (bal.head (mask inIp)) :=
      List.filter_sublist
    rw [searchIpOut_of_some hbal hlookup]
    split
    · apply Layout.wellFormed_update hbal
      · exact fun e he => hbal.hashed _ e (hothers.subset he)
      · exact (hbal.nodup _).sublist (hothers.map _)
    · apply Layout.wellFormed_update_concat hbal hothers
      · exact congrArg layout.hash hkey
      · exact fun e he heq => (mem_others.mp he).2 (heq.trans hkey)

theorem mem_searchIpOut (hbal : layout.WellFormed bal.head) {i : Fin 256}
    (hne : layout.key entry ≠ (inIp, res.table)) (h : entry ∈ bal.head i) :
    entry ∈ (searchIpOut jiffies bal inIp res).1.head i := by
  cases hlookup : layout.lookup bal.head (inIp, res.table) with
  | none => rwa [searchIpOut_of_none hlookup]
  | some found =>
    rw [searchIpOut_of_some hbal hlookup]
    rcases eq_or_ne i (mask inIp) with rfl | hi
    · have hmem : entry ∈ others bal inIp res.table := mem_others.mpr ⟨h, hne⟩
      split
      · simpa using hmem
      · simpa using .inl hmem
    · split
      · simpa [hi] using h
      · simpa [hi] using h

/-- A search finds the device remembered, if it is one of the next hops; if there is none to
find, no entry of the key is left. -/
theorem searchIpOut_cases (hbal : layout.WellFormed bal.head) :
    (∃ dev ∈ res.fi.devices, ∃ res', remembered bal (inIp, res.table) = some dev ∧
      (searchIpOut jiffies bal inIp res).2 = some res' ∧ res'.dev = some dev ∧
      remembered (searchIpOut jiffies bal inIp res).1 (inIp, res.table) = some dev) ∨
    ((∀ dev ∈ res.fi.devices, remembered bal (inIp, res.table) ≠ some dev) ∧
      (searchIpOut jiffies bal inIp res).2 = none ∧
      ∀ entry ∈ (searchIpOut jiffies bal inIp res).1.head (mask inIp),
        layout.key entry ≠ (inIp, res.table)) := by
  have hsearched : layout.WellFormed (searchIpOut jiffies bal inIp res).1.head :=
    wellFormed_searchIpOut hbal
  cases hlookup : layout.lookup bal.head (inIp, res.table) with
  | none =>
    refine .inr ⟨?_, ?_, ?_⟩
    · intro dev _ hdev
      rw [remembered, hlookup] at hdev
      cases hdev
    · rw [searchIpOut_of_none hlookup]
    · rw [searchIpOut_of_none hlookup]
      intro entry hentry
      simpa using List.find?_eq_none.mp hlookup entry hentry
  | some entry =>
    have hkey : layout.key entry = (inIp, res.table) := Layout.key_of_lookup hlookup
    have hout : remembered bal (inIp, res.table) = some entry.out := by
      rw [remembered, hlookup]
      rfl
    rw [searchIpOut_of_some hbal hlookup] at hsearched ⊢
    cases hcount : res.fi.devices.idxOf? entry.out with
    | none =>
      rw [hcount] at hsearched
      refine .inr ⟨?_, rfl, ?_⟩
      · intro dev hdev heq
        rw [hout, Option.some.injEq] at heq
        rw [List.idxOf?_eq_none_iff] at hcount
        exact hcount (heq ▸ hdev)
      · intro e he
        dsimp only at he
        rw [Function.update_self] at he
        exact (mem_others.mp he).2
    | some count =>
      rw [hcount] at hsearched
      have hget : res.fi.devices[count]? = some entry.out := by
        obtain ⟨hlt, heq, -⟩ := List.idxOf?_eq_some_iff.mp hcount
        rw [List.getElem?_eq_getElem hlt, heq]
      refine .inl ⟨entry.out, List.mem_of_getElem? hget, _, hout, rfl, hget, ?_⟩
      dsimp only at hsearched ⊢
      have hmem : { entry with lastuse := jiffies } ∈ Function.update bal.head (mask inIp)
          (others bal inIp res.table ++ [{ entry with lastuse := jiffies }]) (mask inIp) := by
        simp
      have hfound := @remembered_of_mem ⟨_, bal.ipSecNum⟩ _ hsearched _ hmem
      rw [← hkey]
      exact hfound

end Balance

/-! ## Making room and the new entry -/

section Room

variable {jiffies : UInt64} {bal : Heads} {key : Key} {inIp : UInt32} {res : FibResult}

theorem trashHead_sublist (acc : Heads × Option (Fin 256)) (count i : Fin 256) :
    ((trashHead jiffies acc count).1.head i).Sublist (acc.1.head i) := by
  rw [trashHead]
  split
  · rfl
  · next entry rest hhead =>
    split
    · apply update_sublist
      rw [hhead]
      exact List.sublist_cons_self _ _
    · split
      · rfl
      · split <;> rfl

theorem makeRoom_sublist (i : Fin 256) : ((makeRoom jiffies bal).head i).Sublist (bal.head i) := by
  let I (acc : Heads × Option (Fin 256)) : Prop := (acc.1.head i).Sublist (bal.head i)
  have haged : I ((List.finRange 256).foldl (trashHead jiffies) (bal, none)) := by
    apply foldl_invariant
    · exact fun acc count hacc => (trashHead_sublist acc count i).trans hacc
    · exact List.Sublist.refl _
  rw [makeRoom]
  split
  · dsimp only
    split
    · split
      · exact haged
      · exact (update_sublist (List.tail_sublist _) i).trans haged
    · exact haged
  · rfl

theorem wellFormed_makeRoom (hbal : layout.WellFormed bal.head) :
    layout.WellFormed (makeRoom jiffies bal).head :=
  Layout.wellFormed_of_sublist hbal makeRoom_sublist

theorem mem_ipBalanceCreateNew {kmalloc : Bool} {entry : IpBalanceInfo} {i : Fin 256}
    (h : entry ∈ (makeRoom jiffies bal).head i) :
    entry ∈ (ipBalanceCreateNew jiffies kmalloc bal inIp res).head i := by
  unfold ipBalanceCreateNew
  split
  · rcases eq_or_ne i (mask inIp) with rfl | hne
    · simpa [ipBalanceInsert] using .inl h
    · simpa [ipBalanceInsert, hne] using h
  · exact h

theorem wellFormed_ipBalanceCreateNew {kmalloc : Bool} (hbal : layout.WellFormed bal.head)
    (hnone : ∀ entry ∈ bal.head (mask inIp), layout.key entry ≠ (inIp, res.table)) :
    layout.WellFormed (ipBalanceCreateNew jiffies kmalloc bal inIp res).head := by
  have hroom : layout.WellFormed (makeRoom jiffies bal).head := wellFormed_makeRoom hbal
  unfold ipBalanceCreateNew
  split
  · apply Layout.wellFormed_update_concat hroom
    · exact List.Sublist.refl _
    · rfl
    · exact fun e he => hnone e ((makeRoom_sublist _).subset he)
  · exact hroom

theorem remembered_ipBalanceCreateNew {dev : UInt32} (hbal : layout.WellFormed bal.head)
    (hnone : ∀ entry ∈ bal.head (mask inIp), layout.key entry ≠ (inIp, res.table))
    (hdev : res.dev = some dev) :
    remembered (ipBalanceCreateNew jiffies true bal inIp res) (inIp, res.table) = some dev := by
  have hnew := @wellFormed_ipBalanceCreateNew jiffies _ _ _ true hbal hnone
  have hmem : (⟨inIp, dev, res.table, jiffies⟩ : IpBalanceInfo) ∈
      (ipBalanceCreateNew jiffies true bal inIp res).head (mask inIp) := by
    simp [ipBalanceCreateNew, ipBalanceInsert, hdev]
  exact remembered_of_mem hnew hmem

end Room

/-! ## Affinity -/

section Runs

variable {bal : Heads} {key : Key} {dev : UInt32} {d : Decision} {ds : List Decision}

theorem dev_selectMultipath (jiffies : UInt64) {res : FibResult} (h : res.fi.fibNhs > 1) :
    ∃ dev ∈ res.fi.devices, (selectMultipath jiffies res).dev = some dev := by
  obtain ⟨hlt, hdevices⟩ := fibSelectMultipath_spec jiffies (Nat.lt_of_succ_lt h)
  have hlen : (fibSelectMultipath jiffies res.fi).2 <
      (fibSelectMultipath jiffies res.fi).1.fibNhs := by
    have hlengths := congrArg List.length hdevices
    simp only [FibInfo.devices, List.length_map] at hlengths
    rw [FibInfo.fibNhs, hlengths]
    exact hlt
  obtain ⟨dev, hmem, hdev⟩ := @dev_eq_some (selectMultipath jiffies res) hlen
  exact ⟨dev, hdevices ▸ hmem, hdev⟩

/-- A balanced decision takes the device remembered or remembers the one it takes. -/
theorem ipRouteInputSlow_cases (hbal : layout.WellFormed bal.head) (hd : d.Balanced) :
    (∃ dev ∈ d.res.fi.devices, remembered bal d.key = some dev ∧ chosen bal d = some dev ∧
      remembered (next bal d) d.key = some dev) ∨
    ((∀ dev ∈ d.res.fi.devices, remembered bal d.key ≠ some dev) ∧
      ∃ dev ∈ d.res.fi.devices, chosen bal d = some dev ∧
        (d.kmalloc = true → remembered (next bal d) d.key = some dev)) := by
  rcases @searchIpOut_cases d.jiffies bal d.saddr d.res hbal with
    ⟨dev, hmem, res', hout, hans, hdev, hafter⟩ | ⟨hout, hans, hnone⟩
  · refine .inl ⟨dev, hmem, hout, ?_⟩
    rw [chosen, next, ipRouteInputSlow, if_pos hd]
    split
    · next bal' res heq =>
      rw [heq] at hans hafter
      cases hans
      exact ⟨hdev, hafter⟩
    · next bal' heq =>
      rw [heq] at hans
      cases hans
  · obtain ⟨dev, hmem, hdev⟩ := dev_selectMultipath d.jiffies hd.2
    refine .inr ⟨hout, dev, hmem, ?_⟩
    have hsearched := @wellFormed_searchIpOut d.jiffies _ d.saddr d.res hbal
    rw [chosen, next, ipRouteInputSlow, if_pos hd]
    split
    · next bal' res heq =>
      rw [heq] at hans
      cases hans
    · next bal' heq =>
      rw [heq] at hsearched hnone
      refine ⟨hdev, ?_⟩
      intro hkmalloc
      rw [hkmalloc]
      exact remembered_ipBalanceCreateNew hsearched hnone hdev

theorem wellFormed_next (hbal : layout.WellFormed bal.head) (d : Decision) :
    layout.WellFormed (next bal d).head := by
  rw [next, ipRouteInputSlow]
  split
  · have hsearched := @wellFormed_searchIpOut d.jiffies _ d.saddr d.res hbal
    split
    · next heq => rwa [heq] at hsearched
    · next bal' heq =>
      rw [heq] at hsearched
      apply wellFormed_ipBalanceCreateNew hsearched
      rcases @searchIpOut_cases d.jiffies bal d.saddr d.res hbal with
        ⟨_, _, _, _, hans, _⟩ | ⟨_, _, hnone⟩
      · rw [heq] at hans
        cases hans
      · rwa [heq] at hnone
  · split
    · exact hbal
    · exact hbal

/-- A device remembered is still remembered after a decision that lets it stay. -/
theorem remembered_next (hbal : layout.WellFormed bal.head) (h : remembered bal key = some dev)
    (hstays : Stays key dev bal d) : remembered (next bal d) key = some dev := by
  by_cases hd : d.Balanced
  · obtain ⟨hmem, hspares⟩ := hstays hd
    by_cases hkey : d.key = key
    · subst hkey
      rcases ipRouteInputSlow_cases hbal hd with ⟨dev', _, hout, _, hafter⟩ | ⟨hout, _⟩
      · rwa [← h, hout]
      · exact absurd h (hout dev (hmem rfl))
    · -- The entry of the key passes through the search, the making of room and the insertion.
      obtain ⟨entry, hentry, rfl, rfl⟩ := exists_of_remembered h
      have hsearched := @mem_searchIpOut d.jiffies bal d.saddr d.res entry hbal _
        (Ne.symm hkey) hentry
      have hafter : entry ∈ (next bal d).head (layout.hash (layout.key entry)) := by
        rw [next, ipRouteInputSlow, if_pos hd]
        split
        · next heq => rwa [heq] at hsearched
        · next bal' heq =>
          rw [Spares, heq] at hspares
          rw [heq] at hsearched
          apply mem_ipBalanceCreateNew
          exact hspares rfl entry hsearched rfl
      exact remembered_of_mem (wellFormed_next hbal d) hafter
  · have hnext : next bal d = bal := by
      rw [next, ipRouteInputSlow, if_neg hd]
      split <;> rfl
    rwa [hnext]

theorem wellFormed_run (ds : List Decision) : layout.WellFormed (run ds).head := by
  let I (bal : Heads) : Prop := layout.WellFormed bal.head
  have hrun : I (run ds) :=
    foldl_invariant (fun _ d hbal => wellFormed_next hbal d) (Layout.wellFormed_empty layout)
  exact hrun

/-- A source keeps its device in a routing table. -/
theorem keeps_device (before : List Decision) (d : Decision) (between : List Decision)
    (d' : Decision) (dev : UInt32) (hd : d.Balanced) (hkmalloc : d.kmalloc = true)
    (hd' : d'.Balanced) (hkey : d'.key = d.key) (hdev : chosen (run before) d = some dev)
    (hstays : Along next (Stays d.key dev) (run (before ++ [d])) between)
    (hmem : dev ∈ d'.res.fi.devices) :
    chosen (run (before ++ d :: between)) d' = some dev := by
  let I (bal : Heads) : Prop := layout.WellFormed bal.head ∧ remembered bal d.key = some dev
  have hfirst : I (run (before ++ [d])) := by
    refine ⟨wellFormed_run _, ?_⟩
    rw [run, List.foldl_append]
    rcases ipRouteInputSlow_cases (wellFormed_run before) hd with
      ⟨dev', _, _, hchosen, hafter⟩ | ⟨_, dev', _, hchosen, hafter⟩
    · rw [hchosen] at hdev
      rwa [← hdev]
    · rw [hchosen] at hdev
      rw [← hdev]
      exact hafter hkmalloc
  have hlast : I (run (before ++ d :: between)) := by
    rw [List.append_cons, run, List.foldl_append]
    apply foldl_keeps _ hfirst hstays
    exact fun bal d hbal hs => ⟨wellFormed_next hbal.1 d, remembered_next hbal.1 hbal.2 hs⟩
  obtain ⟨hbal, hremembered⟩ := hlast
  rw [← hkey] at hremembered
  rcases ipRouteInputSlow_cases hbal hd' with ⟨dev', _, hout, hchosen, _⟩ | ⟨hout, _⟩
  · rw [hchosen, ← hout, hremembered]
  · exact absurd hremembered (hout dev hmem)

/-- Flows of other sources and tables in between, one of them in the same list. -/
theorem keeps_device_between_others :
    let route : FibInfo := ⟨0, [⟨3, 0, 1, 0⟩, ⟨4, 0, 1, 0⟩]⟩
    let flow (jiffies : UInt64) (saddr : UInt32) (table : UInt8) : Decision :=
      ⟨jiffies, saddr, ⟨route, table, 0⟩, none, true⟩
    chosen (run ([flow 1 0xc0a80164 254] ++ flow 2 0xc0a80165 254 ::
      [flow 3 0xc0a80265 254, flow 4 0xc0a80165 201])) (flow 9 0xc0a80165 254) = some 3 :=
  keeps_device _ _ _ _ 3 (by decide) rfl (by decide) rfl (by decide +kernel) (by decide +kernel)
    (by decide)

end Runs

end IpBalance
