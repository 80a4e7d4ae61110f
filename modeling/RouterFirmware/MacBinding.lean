import Mathlib.Logic.Function.Basic
import Mathlib.Data.Fin.VecNotation
import Mathlib.Data.Fintype.Basic
import Mathlib.Tactic.FinCases

/-! # IP and MAC binding

The kernel keeps two hash tables of (IP, MAC) pairs: the bindings the administrator adds and
the pairs learnt from packets. `nk_ip_mac_binding_check` decides for each new LAN connection
whether its source pair is allowed. A binding is dropped on entry when an earlier one agrees
in the IP and in the last three octets of the MAC, and the check looks only at the first
binding it finds for the MAC.
-/
namespace MacBinding

abbrev Mac := Fin 6 → UInt8

/-- `ip_mac_bind_entry_t`; the IP is in network order. -/
structure IpMacBindEntry where
  ip : UInt32
  mac : Mac
  deriving DecidableEq

structure NkFwOpt where
  nkFwBlockNotOnList : ℤ
  nkFwBlockWrongIp : ℤ

structure State where
  nkIpMacBindEntryList : UInt8 → List IpMacBindEntry
  nkIpMacLearnList : UInt8 → List IpMacBindEntry
  ipMacNumber : ℤ
  ipMacLearnEntryCnt : ℤ
  nkFwOpts : NkFwOpt

def initial : State := ⟨fun _ => [], fun _ => [], 0, 0, ⟨0, 0⟩⟩

/-- The bucket of a MAC: its last octet masked with `IP_MAC_ENTRY_HASH_IDX`. -/
def hashIdx (mac : Mac) : UInt8 := mac 5 &&& 255

/-- The duplicate test of `SIOCADDIPMACBIND`: the first three octets are not compared. -/
def sameEntry (tmp entry : IpMacBindEntry) : Bool :=
  tmp.ip == entry.ip && tmp.mac 5 == entry.mac 5 && tmp.mac 4 == entry.mac 4 &&
    tmp.mac 3 == entry.mac 3

def sameMac (bindMac srcMac : Mac) : Bool :=
  bindMac 5 == srcMac 5 && bindMac 4 == srcMac 4 && bindMac 3 == srcMac 3 &&
    bindMac 2 == srcMac 2 && bindMac 1 == srcMac 1 && bindMac 0 == srcMac 0

def addIpMacBind (entry : IpMacBindEntry) (s : State) : State :=
  let idx := hashIdx entry.mac
  let bucket := s.nkIpMacBindEntryList idx
  if bucket.any fun tmp => sameEntry tmp entry then s
  else { s with nkIpMacBindEntryList :=
    Function.update s.nkIpMacBindEntryList idx (entry :: bucket) }

def clrIpMacBind (s : State) : State := { s with nkIpMacBindEntryList := fun _ => [] }

/-- The loop over one learn bucket: the first entry of the MAC takes the new IP. -/
def learnUpdate (srcMac : Mac) (ip : UInt32) : List IpMacBindEntry → Option (List IpMacBindEntry)
  | [] => none
  | entry :: rest =>
    if sameMac entry.mac srcMac then some ({ entry with ip := ip } :: rest)
    else (learnUpdate srcMac ip rest).map (entry :: ·)

def freeLearnEntries (s : State) : State :=
  { s with nkIpMacLearnList := fun _ => [], ipMacNumber := 0, ipMacLearnEntryCnt := 0 }

def addLearnEntry (srcMac : Mac) (ip : UInt32) (s : State) : State :=
  let idx := hashIdx srcMac
  { s with
    nkIpMacLearnList :=
      Function.update s.nkIpMacLearnList idx (⟨ip, srcMac⟩ :: s.nkIpMacLearnList idx)
    ipMacNumber := s.ipMacNumber + 1
    ipMacLearnEntryCnt := s.ipMacLearnEntryCnt + 1 }

/-- The learning half of `nk_ip_mac_binding_check`. A new MAC is learnt only while neither
block option is set. -/
def learn (srcMac : Mac) (ip : UInt32) (s : State) : State :=
  let idx := hashIdx srcMac
  match learnUpdate srcMac ip (s.nkIpMacLearnList idx) with
  | some bucket => { s with
      nkIpMacLearnList := Function.update s.nkIpMacLearnList idx bucket }
  | none =>
    if s.nkFwOpts.nkFwBlockWrongIp = 0 ∧ s.nkFwOpts.nkFwBlockNotOnList = 0 then
      addLearnEntry srcMac ip (if s.ipMacLearnEntryCnt > 1024 then freeLearnEntries s else s)
    else s

/-- The second half of the check, on the bindings. -/
def verdict (srcMac : Mac) (ip : UInt32) (s : State) : ℤ :=
  let entry := (s.nkIpMacBindEntryList (hashIdx srcMac)).find? fun e => sameMac e.mac srcMac
  let onList := entry.isSome
  let ipMatch := entry.any fun e => e.ip == 0 || e.ip == ip
  if s.nkFwOpts.nkFwBlockNotOnList ≠ 0 ∧ !onList then -1
  else if s.nkFwOpts.nkFwBlockWrongIp ≠ 0 ∧ onList ∧ !ipMatch then -1
  else 0

/-- `nk_ip_mac_binding_check` for a packet whose Ethernet header is `raw`, if it has one, where
`kmalloc` does not fail. -/
def nkIpMacBindingCheck (raw : Option Mac) (ip : UInt32) (s : State) : State × ℤ :=
  match raw with
  | none => (s, 0)
  | some srcMac =>
    let s' := learn srcMac ip s
    (s', verdict srcMac ip s')

/-- The calls that reach the tables: three ioctls and the check of a packet. -/
inductive Call where
  | addIpMacBind (entry : IpMacBindEntry)
  | clrIpMacBind
  | fwOpts (opts : NkFwOpt)
  | check (raw : Option Mac) (ip : UInt32)

def Call.exec (s : State) : Call → State
  | .addIpMacBind entry => MacBinding.addIpMacBind entry s
  | .clrIpMacBind => MacBinding.clrIpMacBind s
  | .fwOpts opts => { s with nkFwOpts := opts }
  | .check raw ip => (nkIpMacBindingCheck raw ip s).1

def run (calls : List Call) : State := calls.foldl Call.exec initial

/-! ## What the bind table holds -/

def record (added : List IpMacBindEntry) : Call → List IpMacBindEntry
  | .addIpMacBind entry => entry :: added
  | .clrIpMacBind => []
  | _ => added

/-- The bindings added since the last clear, the newest first. -/
def bindings (calls : List Call) : List IpMacBindEntry := calls.foldl record []

/-- The bindings that had no earlier one with their IP and their last three octets. -/
def kept : List IpMacBindEntry → List IpMacBindEntry
  | [] => []
  | entry :: earlier =>
    if earlier.any fun tmp => sameEntry tmp entry then kept earlier else entry :: kept earlier

theorem sameEntry_iff {x y : IpMacBindEntry} : sameEntry x y = true ↔
    x.ip = y.ip ∧ x.mac 5 = y.mac 5 ∧ x.mac 4 = y.mac 4 ∧ x.mac 3 = y.mac 3 := by
  simp [sameEntry, and_assoc]

theorem sameMac_iff {x y : Mac} : sameMac x y = true ↔ x = y := by
  constructor
  · intro h
    simp only [sameMac, Bool.and_eq_true, beq_iff_eq] at h
    obtain ⟨⟨⟨⟨⟨h5, h4⟩, h3⟩, h2⟩, h1⟩, h0⟩ := h
    funext i
    fin_cases i
    exacts [h0, h1, h2, h3, h4, h5]
  · rintro rfl
    simp [sameMac]

theorem mem_of_mem_kept {x : IpMacBindEntry} {l : List IpMacBindEntry} (h : x ∈ kept l) :
    x ∈ l := by
  fun_induction kept l with
  | case1 => exact h
  | case2 entry earlier hd ih => exact List.mem_cons_of_mem _ (ih h)
  | case3 entry earlier hd ih =>
    rcases List.mem_cons.mp h with rfl | h
    · exact List.mem_cons_self
    · exact List.mem_cons_of_mem _ (ih h)

/-- The test against the kept bindings sees every binding ever added: the one that was
dropped has a representative. -/
theorem any_kept (entry : IpMacBindEntry) (l : List IpMacBindEntry) :
    ((kept l).any fun tmp => sameEntry tmp entry) = l.any fun tmp => sameEntry tmp entry := by
  fun_induction kept l with
  | case1 => rfl
  | case2 x earlier hd ih =>
    rw [ih, List.any_cons]
    obtain ⟨y, hy, hyx⟩ := List.any_eq_true.mp hd
    rw [sameEntry_iff] at hyx
    cases hx : sameEntry x entry with
    | false => rfl
    | true =>
      rw [sameEntry_iff] at hx
      rw [Bool.true_or, List.any_eq_true]
      refine ⟨y, hy, ?_⟩
      rw [sameEntry_iff]
      grind
  | case3 x earlier hd ih => rw [List.any_cons, List.any_cons, ih]

/-- Every bucket holds the kept bindings of its index, the newest first. -/
def Stored (s : State) (added : List IpMacBindEntry) : Prop :=
  ∀ idx, s.nkIpMacBindEntryList idx = (kept added).filter fun e => hashIdx e.mac == idx

theorem any_bucket (entry : IpMacBindEntry) (l : List IpMacBindEntry) :
    ((l.filter fun e => hashIdx e.mac == hashIdx entry.mac).any fun tmp => sameEntry tmp entry) =
      l.any fun tmp => sameEntry tmp entry := by
  rw [List.any_filter]
  congr 1
  funext tmp
  cases h : sameEntry tmp entry with
  | false => simp
  | true => simp [hashIdx, (sameEntry_iff.mp h).2.1]

theorem stored_addIpMacBind {s : State} {added : List IpMacBindEntry} (h : Stored s added)
    (entry : IpMacBindEntry) : Stored (addIpMacBind entry s) (entry :: added) := by
  intro idx
  have hany : ((s.nkIpMacBindEntryList (hashIdx entry.mac)).any fun tmp => sameEntry tmp entry) =
      added.any fun tmp => sameEntry tmp entry := by
    rw [h, any_bucket, any_kept]
  simp only [addIpMacBind, hany, kept]
  split
  · exact h idx
  · by_cases he : hashIdx entry.mac = idx
    · subst he
      simpa using h _
    · dsimp only
      rw [Function.update_of_ne (Ne.symm he), List.filter_cons_of_neg (by simpa using he)]
      exact h idx

/-- Learning writes neither the bind table nor the options. -/
theorem learn_frame (srcMac : Mac) (ip : UInt32) (s : State) :
    (learn srcMac ip s).nkIpMacBindEntryList = s.nkIpMacBindEntryList ∧
      (learn srcMac ip s).nkFwOpts = s.nkFwOpts := by
  simp only [learn]
  split
  · exact ⟨rfl, rfl⟩
  · split
    · simp only [addLearnEntry, freeLearnEntries]
      split <;> exact ⟨rfl, rfl⟩
    · exact ⟨rfl, rfl⟩

theorem check_bindEntryList (raw : Option Mac) (ip : UInt32) (s : State) :
    (nkIpMacBindingCheck raw ip s).1.nkIpMacBindEntryList = s.nkIpMacBindEntryList := by
  unfold nkIpMacBindingCheck
  split
  · rfl
  · next srcMac => exact (learn_frame srcMac ip s).1

theorem stored_exec {s : State} {added : List IpMacBindEntry} (h : Stored s added) (c : Call) :
    Stored (Call.exec s c) (record added c) := by
  cases c with
  | addIpMacBind entry => exact stored_addIpMacBind h entry
  | clrIpMacBind => exact fun _ => rfl
  | fwOpts opts => exact h
  | check raw ip =>
    intro idx
    rw [Call.exec, check_bindEntryList]
    exact h idx

theorem stored_foldl (calls : List Call) {s : State} {added : List IpMacBindEntry}
    (h : Stored s added) : Stored (calls.foldl Call.exec s) (calls.foldl record added) := by
  induction calls generalizing s added with
  | nil => exact h
  | cons c calls ih => exact ih (stored_exec h c)

theorem stored_run (calls : List Call) : Stored (run calls) (bindings calls) :=
  stored_foldl calls fun _ => rfl

/-! ## The decision -/

def Fits (ip : UInt32) (e : IpMacBindEntry) : Prop := e.ip = 0 ∨ e.ip = ip

instance (ip : UInt32) (e : IpMacBindEntry) : Decidable (Fits ip e) :=
  inferInstanceAs (Decidable (e.ip = 0 ∨ e.ip = ip))

def NoneFits (m : Mac) (ip : UInt32) (added : List IpMacBindEntry) : Prop :=
  ∀ e ∈ added, e.mac = m → ¬ Fits ip e

instance (m : Mac) (ip : UInt32) (added : List IpMacBindEntry) :
    Decidable (NoneFits m ip added) :=
  inferInstanceAs (Decidable (∀ e ∈ added, e.mac = m → ¬ Fits ip e))

/-- The packets the two options are for: a MAC without a binding, and a MAC none of whose
bindings allows the IP. -/
def Refused (opts : NkFwOpt) (m : Mac) (ip : UInt32) (added : List IpMacBindEntry) : Prop :=
  (opts.nkFwBlockNotOnList ≠ 0 ∧ ∀ e ∈ added, e.mac ≠ m) ∨
    (opts.nkFwBlockWrongIp ≠ 0 ∧ (∃ e ∈ added, e.mac = m) ∧ NoneFits m ip added)

instance (opts : NkFwOpt) (m : Mac) (ip : UInt32) (added : List IpMacBindEntry) :
    Decidable (Refused opts m ip added) :=
  inferInstanceAs (Decidable ((_ ∧ _) ∨ (_ ∧ _ ∧ _)))

/-- The binding the check looks at: the newest one of the MAC that was kept. -/
def newestKept (m : Mac) (added : List IpMacBindEntry) : Option IpMacBindEntry :=
  (kept added).find? fun e => e.mac = m

theorem check_result {s : State} {added : List IpMacBindEntry} (h : Stored s added)
    (m : Mac) (ip : UInt32) : (nkIpMacBindingCheck (some m) ip s).2 = -1 ↔
      (s.nkFwOpts.nkFwBlockNotOnList ≠ 0 ∧ newestKept m added = none) ∨
        (s.nkFwOpts.nkFwBlockWrongIp ≠ 0 ∧ ∃ e, newestKept m added = some e ∧ ¬ Fits ip e) := by
  have hfind : ((learn m ip s).nkIpMacBindEntryList (hashIdx m)).find?
      (fun e => sameMac e.mac m) = newestKept m added := by
    rw [(learn_frame m ip s).1, h, List.find?_filter, newestKept]
    congr 1
    funext e
    by_cases he : e.mac = m
    · simp [he, sameMac_iff]
    · simp [he, sameMac_iff]
  simp only [nkIpMacBindingCheck, verdict, hfind, (learn_frame m ip s).2]
  cases newestKept m added with
  | none => by_cases ho : s.nkFwOpts.nkFwBlockNotOnList = 0 <;> simp [ho]
  | some e =>
    by_cases ho : s.nkFwOpts.nkFwBlockWrongIp = 0
    · simp [ho]
    · simp [ho, Fits]

/-- When the check gives the verdict its options ask for: the MAC has no binding; or all its
bindings were dropped and the two options happen to say the same; or the newest kept one
allows the IP unless none does. -/
def NewestDecides (opts : NkFwOpt) (m : Mac) (ip : UInt32) (added : List IpMacBindEntry) :
    Prop :=
  (∀ e ∈ added, e.mac ≠ m) ∨
  (newestKept m added = none ∧
    (opts.nkFwBlockNotOnList ≠ 0 ↔ opts.nkFwBlockWrongIp ≠ 0 ∧ NoneFits m ip added)) ∨
  (∃ e, newestKept m added = some e ∧
    (opts.nkFwBlockWrongIp = 0 ∨ Fits ip e ∨ NoneFits m ip added))

theorem newestKept_eq_none {m : Mac} {added : List IpMacBindEntry}
    (h : ∀ e ∈ added, e.mac ≠ m) : newestKept m added = none := by
  apply List.find?_eq_none.mpr
  intro e he
  simpa using h e (mem_of_mem_kept he)

theorem newestKept_mem {m : Mac} {added : List IpMacBindEntry} {e : IpMacBindEntry}
    (h : newestKept m added = some e) : e ∈ added ∧ e.mac = m := by
  refine ⟨mem_of_mem_kept (List.mem_of_find?_eq_some h), ?_⟩
  simpa using List.find?_some h

theorem nkIpMacBindingCheck_refuses_iff (calls : List Call) (m : Mac) (ip : UInt32) :
    ((nkIpMacBindingCheck (some m) ip (run calls)).2 = -1 ↔
      Refused (run calls).nkFwOpts m ip (bindings calls)) ↔
    NewestDecides (run calls).nkFwOpts m ip (bindings calls) := by
  rw [check_result (stored_run calls)]
  generalize (run calls).nkFwOpts = opts
  generalize bindings calls = added
  by_cases hnone : ∀ e ∈ added, e.mac ≠ m
  · -- Without a binding both sides reduce to the first option.
    have hnot : ¬ ∃ e ∈ added, e.mac = m := by
      rintro ⟨e, he, hm⟩
      exact hnone e he hm
    simp only [newestKept_eq_none hnone, Refused, NewestDecides]
    grind
  · have hsome : ∃ e ∈ added, e.mac = m := by
      by_contra hno
      exact hnone fun e he hm => hno ⟨e, he, hm⟩
    cases hk : newestKept m added with
    | none => simp [Refused, NewestDecides, hnone, hsome, hk]
    | some e =>
      have hmem := newestKept_mem hk
      have hfit : NoneFits m ip added → ¬ Fits ip e := fun hn => hn e hmem.1 hmem.2
      simp only [Refused, NewestDecides, hnone, hk]
      grind

/-- Two network cards whose addresses differ in the vendor octets only, both bound to one
address: the second binding is dropped and its owner is then refused as unlisted. -/
theorem twin_mac_refused :
    let m : Mac := ![0, 16, 24, 1, 2, 3]
    let twin : Mac := ![0, 32, 24, 1, 2, 3]
    let calls := [Call.addIpMacBind ⟨3232235876, m⟩, .addIpMacBind ⟨3232235876, twin⟩,
      .fwOpts ⟨1, 1⟩]
    ¬ ((nkIpMacBindingCheck (some twin) 3232235876 (run calls)).2 = -1 ↔
      Refused (run calls).nkFwOpts twin 3232235876 (bindings calls)) := by
  decide

end MacBinding
