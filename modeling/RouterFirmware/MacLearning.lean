import Mathlib.Data.List.Range
import RouterFirmware.BucketTable
import RouterFirmware.MacBinding

/-! # Learning IP and MAC pairs

`nk_ip_mac_binding_check` learns the source pair of a packet before it decides on it. A known
MAC takes the new IP in place. A new one is learnt while neither block option is set: the
whole table is freed first when it holds more than 1024 entries, and the allocation of the
new entry may fail. The walk over the bucket, the freeing and the new entry share the global
cursor `ip_mac_bind_entry`. Without the cursor and that failure this is the check on bindings.
-/
namespace MacLearning

open MacBinding (Mac IpMacBindEntry NkFwOpt hashIdx sameMac sameMac_iff verdict)
open BucketTable BucketTable.Layout

def ipMacEntryHashSize : ℕ := 256

/-- The tables with the global cursor, given by the entry that it points to. -/
structure State extends MacBinding.State where
  ipMacBindEntry : Option IpMacBindEntry

def initial : State := ⟨MacBinding.initial, none⟩

/-- The walk over a learn bucket: the bucket it leaves and the entry it stops at. -/
def searchLearn (srcMac : Mac) (ip : UInt32) :
    List IpMacBindEntry → List IpMacBindEntry × Option IpMacBindEntry
  | [] => ([], none)
  | entry :: rest =>
    if sameMac entry.mac srcMac then
      let entry := if entry.ip ≠ ip then { entry with ip := ip } else entry
      (entry :: rest, some entry)
    else
      let found := searchLearn srcMac ip rest
      (entry :: found.1, found.2)

/-- The loop that frees a bucket: it ends when the cursor has read the end of the list. -/
def freeBucket : List IpMacBindEntry → List IpMacBindEntry × Option IpMacBindEntry
  | [] => ([], none)
  | _ :: next => freeBucket next

def freeBucketAt (s : State) (i : ℕ) : State :=
  let left := freeBucket (s.nkIpMacLearnList (UInt8.ofNat i))
  { s with
    nkIpMacLearnList := Function.update s.nkIpMacLearnList (UInt8.ofNat i) left.1
    ipMacBindEntry := left.2 }

def freeLearnEntries (s : State) : State :=
  { (List.range ipMacEntryHashSize).foldl freeBucketAt s with
    ipMacNumber := 0, ipMacLearnEntryCnt := 0 }

def addLearnEntry (srcMac : Mac) (ip : UInt32) (s : State) : State :=
  ⟨MacBinding.addLearnEntry srcMac ip s.toState, some ⟨ip, srcMac⟩⟩

/-- `nk_ip_mac_binding_check` for a packet whose Ethernet header is `raw`, if it has one;
`allocated` is the outcome of `kmalloc`. -/
def nkIpMacBindingCheck (raw : Option Mac) (ip : UInt32) (allocated : Bool) (s : State) :
    State × ℤ :=
  match raw with
  | none => (s, 0)
  | some srcMac =>
    let idx := hashIdx srcMac
    let found := searchLearn srcMac ip (s.nkIpMacLearnList idx)
    let s := { s with
      nkIpMacLearnList := Function.update s.nkIpMacLearnList idx found.1
      ipMacBindEntry := found.2 }
    if s.ipMacBindEntry = none ∧ s.nkFwOpts.nkFwBlockWrongIp = 0 ∧
        s.nkFwOpts.nkFwBlockNotOnList = 0 then
      let s := if s.ipMacLearnEntryCnt > 1024 then freeLearnEntries s else s
      if allocated then
        let s := addLearnEntry srcMac ip s
        (s, verdict srcMac ip s.toState)
      else ({ s with ipMacBindEntry := none }, -1)
    else (s, verdict srcMac ip s.toState)

inductive Call where
  | addIpMacBind (entry : IpMacBindEntry)
  | clrIpMacBind
  | fwOpts (opts : NkFwOpt)
  | check (raw : Option Mac) (ip : UInt32) (allocated : Bool)

def Call.exec (s : State) : Call → State
  | .addIpMacBind entry => { s with toState := MacBinding.addIpMacBind entry s.toState }
  | .clrIpMacBind => { s with toState := MacBinding.clrIpMacBind s.toState }
  | .fwOpts opts => { s with nkFwOpts := opts }
  | .check raw ip allocated => (nkIpMacBindingCheck raw ip allocated s).1

def run (calls : List Call) : State := calls.foldl Call.exec initial

/-! ## The learn list as a table -/

def layout : Layout UInt8 Mac IpMacBindEntry := ⟨hashIdx, IpMacBindEntry.mac⟩

def buckets : List UInt8 := (List.range ipMacEntryHashSize).map UInt8.ofNat

/-- The entries of the learn list in the order in which the kernel walks over them. -/
def learnt (s : MacBinding.State) : List IpMacBindEntry := entries s.nkIpMacLearnList buckets

theorem hashIdx_eq (mac : Mac) : hashIdx mac = mac 5 := by
  apply UInt8.toNat_inj.mp
  have hmask : (mac 5).toNat &&& (2 ^ 8 - 1) = (mac 5).toNat % 2 ^ 8 :=
    Nat.and_two_pow_sub_one_eq_mod _ 8
  simpa [hashIdx] using hmask.trans (Nat.mod_eq_of_lt (UInt8.toNat_lt _))

theorem mem_buckets (i : UInt8) : i ∈ buckets := by
  refine List.mem_map.mpr ⟨i.toNat, List.mem_range.mpr i.toNat_lt, ?_⟩
  exact UInt8.ofNat_toNat

theorem nodup_buckets : buckets.Nodup := by
  refine List.Nodup.map_on ?_ List.nodup_range
  intro i hi j hj h
  have hnat := congrArg UInt8.toNat h
  rwa [UInt8.toNat_ofNat_of_lt' (List.mem_range.mp hi),
    UInt8.toNat_ofNat_of_lt' (List.mem_range.mp hj)] at hnat

theorem mem_learnt {s : MacBinding.State} {e : IpMacBindEntry} :
    e ∈ learnt s ↔ ∃ i, e ∈ s.nkIpMacLearnList i := by
  constructor
  · intro h
    obtain ⟨i, -, hi⟩ := List.mem_flatMap.mp h
    exact ⟨i, hi⟩
  · rintro ⟨i, hi⟩
    exact List.mem_flatMap.mpr ⟨i, mem_buckets i, hi⟩

/-! ## What each part of the check does to the table -/

def setIp (ip : UInt32) (e : IpMacBindEntry) : IpMacBindEntry := { e with ip := ip }

theorem setIp_of_search (ip : UInt32) (entry : IpMacBindEntry) :
    (if entry.ip ≠ ip then { entry with ip := ip } else entry) = setIp ip entry := by
  split
  · rfl
  · next h =>
    rw [not_ne_iff] at h
    rw [setIp, ← h]

theorem searchLearn_fst (m : Mac) (ip : UInt32) (l : List IpMacBindEntry) :
    (searchLearn m ip l).1 = modifyFirst (fun e => e.mac = m && true) (setIp ip) l := by
  induction l with
  | nil => rfl
  | cons entry rest ih =>
    by_cases h : entry.mac = m
    · simp [searchLearn, modifyFirst, sameMac_iff, h, ← setIp_of_search]
    · simp [searchLearn, modifyFirst, sameMac_iff, h, ih]

theorem searchLearn_snd (m : Mac) (ip : UInt32) (l : List IpMacBindEntry) :
    (searchLearn m ip l).2 = (l.find? fun e => e.mac = m).map (setIp ip) := by
  induction l with
  | nil => rfl
  | cons entry rest ih =>
    by_cases h : entry.mac = m
    · simp [searchLearn, sameMac_iff, h, ← setIp_of_search]
    · simp [searchLearn, sameMac_iff, h, ih]

theorem freeBucket_eq (l : List IpMacBindEntry) : freeBucket l = ([], none) := by
  induction l with
  | nil => rfl
  | cons _ next ih => exact ih

/-- The loop over the first `n` buckets empties these and writes nothing else. -/
theorem foldl_freeBucketAt (s : State) {n : ℕ} (hn : n ≤ ipMacEntryHashSize) :
    ((List.range n).foldl freeBucketAt s).toState = { s.toState with
      nkIpMacLearnList := fun i => if i.toNat < n then [] else s.nkIpMacLearnList i } := by
  induction n with
  | zero => simp
  | succ n ih =>
    have hlt : n < UInt8.size := hn
    have hbefore := ih (Nat.le_of_succ_le hn)
    rw [List.range_succ, List.foldl_append]
    simp only [List.foldl_cons, List.foldl_nil, freeBucketAt, freeBucket_eq, hbefore]
    congr 1
    funext i
    by_cases hi : i = UInt8.ofNat n
    · subst hi
      simp [UInt8.toNat_ofNat_of_lt' hlt]
    · have hne : i.toNat ≠ n := by
        rintro rfl
        exact hi UInt8.ofNat_toNat.symm
      have hiff : i.toNat < n + 1 ↔ i.toNat < n := by omega
      simp [Function.update_of_ne hi, hiff]

theorem freeLearnEntries_toState (s : State) :
    (freeLearnEntries s).toState = MacBinding.freeLearnEntries s.toState := by
  have hall : ∀ i : UInt8, i.toNat < ipMacEntryHashSize := fun i => i.toNat_lt
  simp [freeLearnEntries, MacBinding.freeLearnEntries, foldl_freeBucketAt s le_rfl, hall]

theorem addLearnEntry_list (m : Mac) (ip : UInt32) (s : State) :
    (addLearnEntry m ip s).nkIpMacLearnList = layout.insert s.nkIpMacLearnList ⟨ip, m⟩ := rfl

theorem addLearnEntry_cnt (m : Mac) (ip : UInt32) (s : State) :
    (addLearnEntry m ip s).ipMacLearnEntryCnt = s.ipMacLearnEntryCnt + 1 := rfl

/-- The new learn list and the new count, in every branch of the check. A MAC that is not
learnt is modified nowhere. -/
theorem check_cases (m : Mac) (ip : UInt32) (allocated : Bool) (s : State) :
    let s' := (nkIpMacBindingCheck (some m) ip allocated s).1
    (s'.nkIpMacLearnList = layout.modify s.nkIpMacLearnList m (fun _ => true) (setIp ip) ∧
        s'.ipMacLearnEntryCnt = s.ipMacLearnEntryCnt) ∨
      (s'.nkIpMacLearnList = (fun _ => []) ∧ s'.ipMacLearnEntryCnt = 0) ∨
      (s'.nkIpMacLearnList = layout.insert (fun _ => []) ⟨ip, m⟩ ∧ s'.ipMacLearnEntryCnt = 1) ∨
      (layout.lookup s.nkIpMacLearnList m = none ∧ s.ipMacLearnEntryCnt ≤ 1024 ∧
        s'.nkIpMacLearnList = layout.insert s.nkIpMacLearnList ⟨ip, m⟩ ∧
        s'.ipMacLearnEntryCnt = s.ipMacLearnEntryCnt + 1) := by
  have hmodify : Function.update s.nkIpMacLearnList (hashIdx m)
      (searchLearn m ip (s.nkIpMacLearnList (hashIdx m))).1 =
        layout.modify s.nkIpMacLearnList m (fun _ => true) (setIp ip) := by
    rw [searchLearn_fst]
    rfl
  have hcursor : (searchLearn m ip (s.nkIpMacLearnList (hashIdx m))).2 =
      (layout.lookup s.nkIpMacLearnList m).map (setIp ip) := searchLearn_snd m ip _
  simp only [nkIpMacBindingCheck, hmodify, hcursor]
  split
  · next hnew =>
    have hlookup : layout.lookup s.nkIpMacLearnList m = none := by simpa using hnew.1
    have hsame : layout.modify s.nkIpMacLearnList m (fun _ => true) (setIp ip) =
        s.nkIpMacLearnList := modify_of_lookup_eq_none hlookup
    simp only [hsame, hlookup]
    by_cases hfull : s.ipMacLearnEntryCnt > 1024
    · -- The table is freed; only then does the allocation decide.
      simp only [hfull, if_true]
      cases allocated with
      | true =>
        refine .inr (.inr (.inl ?_))
        simp [addLearnEntry_list, addLearnEntry_cnt, freeLearnEntries_toState,
          MacBinding.freeLearnEntries]
      | false =>
        refine .inr (.inl ?_)
        simp [freeLearnEntries_toState, MacBinding.freeLearnEntries]
    · simp only [hfull, if_false]
      cases allocated with
      | true => exact .inr (.inr (.inr ⟨trivial, not_lt.mp hfull, rfl, rfl⟩))
      | false => exact .inl ⟨rfl, rfl⟩
  · exact .inl ⟨rfl, rfl⟩

theorem learnUpdate_eq (m : Mac) (ip : UInt32) (l : List IpMacBindEntry) :
    MacBinding.learnUpdate m ip l = (searchLearn m ip l).2.map fun _ => (searchLearn m ip l).1 := by
  induction l with
  | nil => rfl
  | cons entry rest ih =>
    by_cases h : sameMac entry.mac m = true
    · simp only [MacBinding.learnUpdate, searchLearn, if_pos h, setIp_of_search, Option.map_some]
      rfl
    · simp only [MacBinding.learnUpdate, searchLearn, if_neg h, ih, Option.map_map]
      rfl

/-- A MAC that is not learnt, while both block options are off. -/
def Learns (m : Mac) (s : State) : Prop :=
  layout.lookup s.nkIpMacLearnList m = none ∧ s.nkFwOpts.nkFwBlockWrongIp = 0 ∧
    s.nkFwOpts.nkFwBlockNotOnList = 0

theorem cursor_eq_none_iff (m : Mac) (ip : UInt32) (s : State) :
    (searchLearn m ip (s.nkIpMacLearnList (hashIdx m))).2 = none ↔
      layout.lookup s.nkIpMacLearnList m = none := by
  rw [searchLearn_snd, Option.map_eq_none_iff]
  rfl

/-- The check is the one on bindings, which leaves the cursor out, unless the memory for a new
entry is missing: then the packet is refused. -/
theorem check_eq (m : Mac) (ip : UInt32) (allocated : Bool) (s : State) :
    (allocated = true ∨ ¬ Learns m s →
      (nkIpMacBindingCheck (some m) ip allocated s).1.toState =
          (MacBinding.nkIpMacBindingCheck (some m) ip s.toState).1 ∧
        (nkIpMacBindingCheck (some m) ip allocated s).2 =
          (MacBinding.nkIpMacBindingCheck (some m) ip s.toState).2) ∧
    (allocated = false → Learns m s → (nkIpMacBindingCheck (some m) ip allocated s).2 = -1) := by
  simp only [nkIpMacBindingCheck, MacBinding.nkIpMacBindingCheck, MacBinding.learn, learnUpdate_eq]
  cases hc : (searchLearn m ip (s.nkIpMacLearnList (hashIdx m))).2 with
  | some e =>
    have hknown : ¬ Learns m s := fun h => by
      rw [(cursor_eq_none_iff m ip s).mpr h.1] at hc
      cases hc
    exact ⟨fun _ => by simp, fun _ h => absurd h hknown⟩
  | none =>
    have hlookup := (cursor_eq_none_iff m ip s).mp hc
    have hsame : (searchLearn m ip (s.nkIpMacLearnList (hashIdx m))).1 =
        s.nkIpMacLearnList (hashIdx m) := by
      rw [searchLearn_snd, Option.map_eq_none_iff, List.find?_eq_none] at hc
      rw [searchLearn_fst]
      exact modifyFirst_of_forall fun e he => by simpa using hc e he
    simp only [hsame, Function.update_eq_self, Option.map_none, true_and]
    by_cases hopts : s.nkFwOpts.nkFwBlockWrongIp = 0 ∧ s.nkFwOpts.nkFwBlockNotOnList = 0
    · have hlearns : Learns m s := ⟨hlookup, hopts⟩
      rw [if_pos hopts, if_pos hopts]
      cases allocated with
      | false =>
        exact ⟨fun h => absurd hlearns (h.resolve_left Bool.false_ne_true), fun _ _ => rfl⟩
      | true =>
        have hadded : (addLearnEntry m ip
            (if s.ipMacLearnEntryCnt > 1024 then freeLearnEntries { s with ipMacBindEntry := none }
              else { s with ipMacBindEntry := none })).toState =
            MacBinding.addLearnEntry m ip
              (if s.ipMacLearnEntryCnt > 1024 then MacBinding.freeLearnEntries s.toState
                else s.toState) := by
          rw [addLearnEntry]
          dsimp only
          congr 1
          split
          · exact freeLearnEntries_toState _
          · rfl
        exact ⟨fun _ => ⟨hadded, congrArg (verdict m ip) hadded⟩,
          fun h => absurd h.symm Bool.false_ne_true⟩
    · rw [if_neg hopts, if_neg hopts]
      exact ⟨fun _ => ⟨rfl, rfl⟩, fun _ h => absurd h.2 hopts⟩

/-! ## The table over a run -/

/-- What a call adds to what is known of each MAC: the IP of its most recent packet. -/
def record (latest : Mac → Option UInt32) : Call → Mac → Option UInt32
  | .check (some m) ip _ => Function.update latest m (some ip)
  | _ => latest

def latestIp (calls : List Call) : Mac → Option UInt32 := calls.foldl record fun _ => none

structure Learned (s : State) (latest : Mac → Option UInt32) : Prop where
  wellFormed : layout.WellFormed s.nkIpMacLearnList
  counted : s.ipMacLearnEntryCnt = (learnt s.toState).length
  bounded : s.ipMacLearnEntryCnt ≤ 1025
  newest : ∀ m e, layout.lookup s.nkIpMacLearnList m = some e → latest m = some e.ip

theorem learned_initial : Learned initial fun _ => none where
  wellFormed := wellFormed_empty layout
  counted := by
    have hnil : learnt initial.toState = [] := List.flatMap_eq_nil_iff.mpr fun _ _ => rfl
    rw [hnil]
    rfl
  bounded := by decide
  newest _ _ h := by cases h

theorem length_entries_modify (t : UInt8 → List IpMacBindEntry) (m : Mac) (ip : UInt32) :
    (entries (layout.modify t m (fun _ => true) (setIp ip)) buckets).length =
      (entries t buckets).length := by
  have hkeys := map_key_modify (L := layout) (t := t) (k := m) (q := fun _ => true)
    (f := setIp ip) fun _ => rfl
  have hmap : (entries (layout.modify t m (fun _ => true) (setIp ip)) buckets).map layout.key =
      (entries t buckets).map layout.key := by
    rw [entries, entries, List.map_flatMap, List.map_flatMap]
    exact List.flatMap_congr fun i _ => hkeys i
  simpa using congrArg List.length hmap

theorem length_entries_insert (t : UInt8 → List IpMacBindEntry) (e : IpMacBindEntry) :
    (entries (layout.insert t e) buckets).length = (entries t buckets).length + 1 :=
  (entries_insert_perm nodup_buckets (mem_buckets _)).length_eq

theorem entries_empty : entries (fun _ => ([] : List IpMacBindEntry)) buckets = [] :=
  List.flatMap_eq_nil_iff.mpr fun _ _ => rfl

theorem newest_insert {t : UInt8 → List IpMacBindEntry} {latest : Mac → Option UInt32}
    (h : ∀ m e, layout.lookup t m = some e → latest m = some e.ip) (m : Mac) (ip : UInt32) :
    ∀ m' e, layout.lookup (layout.insert t ⟨ip, m⟩) m' = some e →
      Function.update latest m (some ip) m' = some e.ip := by
  intro m' e he
  rw [lookup_insert] at he
  by_cases hm : m' = m
  · subst hm
    obtain rfl : ⟨ip, m'⟩ = e := by simpa [layout] using he
    exact Function.update_self ..
  · have hkey : m' ≠ layout.key ⟨ip, m⟩ := hm
    rw [if_neg hkey] at he
    rw [Function.update_of_ne hm]
    exact h m' e he

theorem learned_check {s : State} {latest : Mac → Option UInt32} (h : Learned s latest)
    (m : Mac) (ip : UInt32) (allocated : Bool) :
    Learned (nkIpMacBindingCheck (some m) ip allocated s).1
      (Function.update latest m (some ip)) := by
  have hkey : ∀ e, layout.key (setIp ip e) = layout.key e := fun _ => rfl
  rcases check_cases m ip allocated s with ⟨hl, hc⟩ | ⟨hl, hc⟩ | ⟨hl, hc⟩ | ⟨hnone, hle, hl, hc⟩
  · refine ⟨hl ▸ wellFormed_modify h.wellFormed hkey, ?_, hc ▸ h.bounded, ?_⟩
    · rw [hc, h.counted, learnt, learnt, hl, length_entries_modify]
    · intro m' e he
      rw [hl, lookup_modify h.wellFormed hkey] at he
      by_cases hm : m' = m
      · subst hm
        simp only [if_true] at he
        obtain ⟨e', -, rfl⟩ := Option.map_eq_some_iff.mp he
        simp [setIp]
      · rw [if_neg hm] at he
        rw [Function.update_of_ne hm]
        exact h.newest m' e he
  · refine ⟨hl ▸ wellFormed_empty layout, ?_, by omega, ?_⟩
    · rw [hc, learnt, hl, entries_empty]
      rfl
    · intro m' e he
      rw [hl, lookup_empty] at he
      cases he
  · refine ⟨hl ▸ wellFormed_insert (wellFormed_empty layout) (lookup_empty layout _), ?_,
      by omega, ?_⟩
    · rw [hc, learnt, hl, length_entries_insert, entries_empty]
      rfl
    · rw [hl]
      exact newest_insert (fun m' e he => by cases he) m ip
  · refine ⟨hl ▸ wellFormed_insert h.wellFormed hnone, ?_, by omega, ?_⟩
    · rw [hc, h.counted, learnt, learnt, hl, length_entries_insert]
      rfl
    · rw [hl]
      exact newest_insert h.newest m ip

theorem learned_exec {s : State} {latest : Mac → Option UInt32} (h : Learned s latest)
    (c : Call) : Learned (Call.exec s c) (record latest c) := by
  cases c with
  | addIpMacBind entry =>
    have hframe : (MacBinding.addIpMacBind entry s.toState).nkIpMacLearnList =
        s.nkIpMacLearnList ∧ (MacBinding.addIpMacBind entry s.toState).ipMacLearnEntryCnt =
          s.ipMacLearnEntryCnt := by
      simp only [MacBinding.addIpMacBind]
      split <;> exact ⟨rfl, rfl⟩
    obtain ⟨hl, hc⟩ := hframe
    refine ⟨?_, ?_, ?_, ?_⟩
    · exact hl.symm ▸ h.wellFormed
    · exact (hc.trans h.counted).trans (by rw [learnt, learnt, Call.exec, hl])
    · exact hc.symm ▸ h.bounded
    · exact hl.symm ▸ h.newest
  | clrIpMacBind => exact ⟨h.wellFormed, h.counted, h.bounded, h.newest⟩
  | fwOpts opts => exact ⟨h.wellFormed, h.counted, h.bounded, h.newest⟩
  | check raw ip allocated =>
    cases raw with
    | none => exact h
    | some m => exact learned_check h m ip allocated

theorem learned_foldl (calls : List Call) {s : State} {latest : Mac → Option UInt32}
    (h : Learned s latest) : Learned (calls.foldl Call.exec s) (calls.foldl record latest) := by
  induction calls generalizing s latest with
  | nil => exact h
  | cons c calls ih => exact ih (learned_exec h c)

theorem learned_run (calls : List Call) : Learned (run calls) (latestIp calls) :=
  learned_foldl calls learned_initial

/-- What holds of the learn list after every run. -/
theorem learnList_of_run (calls : List Call) :
    ((learnt (run calls).toState).map IpMacBindEntry.mac).Nodup ∧
      (∀ i, ∀ e ∈ (run calls).nkIpMacLearnList i, e.mac 5 = i) ∧
      (run calls).ipMacLearnEntryCnt = (learnt (run calls).toState).length ∧
      (run calls).ipMacLearnEntryCnt ≤ 1025 ∧
      ∀ e ∈ learnt (run calls).toState, latestIp calls e.mac = some e.ip := by
  obtain ⟨hwf, hcount, hbound, hnewest⟩ := learned_run calls
  refine ⟨nodup_map_key_entries hwf nodup_buckets, ?_, hcount, hbound, ?_⟩
  · intro i e he
    exact (hashIdx_eq e.mac).symm.trans (hwf.hashed i e he)
  · intro e he
    obtain ⟨i, hi⟩ := mem_learnt.mp he
    exact hnewest e.mac e (lookup_of_mem hwf hi)

end MacLearning
