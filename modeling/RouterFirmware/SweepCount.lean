import RouterFirmware.DeltaCount
import Mathlib.Data.List.Nodup

/-! # What a call counts

The counts and the addresses of the hosts behind a call, from the sessions that it scans.
-/
namespace DeltaCount

open SweepRange

/-- The sessions that the entries stand for; the second entry of a session finds its flag set. -/
def scanned (c : Setting) : (ℕ → IpConntrack) → List ℕ → List IpConntrack
  | _, [] => []
  | ct, p :: ps =>
    if Eligible c (ct p) then ct p :: scanned c (Function.update ct p (ct p).update) ps
    else scanned c ct ps

def scannedBy (c : Setting) (s : State) : List IpConntrack :=
  if c.trEnable = 1 ∨ c.smartQos = 1 then scanned c s.ct (entries c s) else []

def countAll (c : Setting) : Bool → List IpConntrack → List ℕ
  | _, [] => []
  | sTemp, x :: l => (classify c sTemp x).1 ++ countAll c (classify c sTemp x).2 l

def sTempAfter (c : Setting) (l : List IpConntrack) : Bool :=
  l.foldl (fun sTemp x => (classify c sTemp x).2) false

/-- The session finds its host under the address. -/
def Finds (x : IpConntrack) (a : UInt32) : Prop := a ∈ named x

instance (x : IpConntrack) (a : UInt32) : Decidable (Finds x a) :=
  inferInstanceAs (Decidable (_ ∈ _))

/-- The addresses of the list and `temp` behind a session. -/
def countIp (c : Setting) (s : List UInt32 × Bool) (x : IpConntrack) : List UInt32 × Bool :=
  if ∃ a ∈ s.1, Finds x a then s
  else if 0 < host c x then
    if s.2 ∨ IsWanIp c (host c x) then (s.1, true) else (host c x :: s.1, false)
  else s

def ips (l : List SmartQosIp) : List UInt32 := l.map SmartQosIp.ip

/-- Behind the calls, the counts are the same and so are the hosts. -/
structure SameCounts (s s' : State) : Prop where
  counts : s.sessionNumTmp = s'.sessionNumTmp
  tmp : ∀ a, a ∈ ips s.tmpSmartQosIpList ↔ a ∈ ips s'.tmpSmartQosIpList
  done : ∀ a, a ∈ ips s.nkSmartQosIpList ↔ a ∈ ips s'.nkSmartQosIpList

/-- Each connection in the table hangs in two chains. -/
def Hung (c : Setting) (hash : ℕ → List ℕ) : Prop :=
  ∀ p, let n := ((List.range c.htableSize.toNat).flatMap hash).count p
    n = 0 ∨ n = 2

section Scan

variable {c : Setting} {s : State} {x : IpConntrack} {p : ℕ}

theorem not_eligible_update (x : IpConntrack) : ¬ Eligible c x.update :=
  fun h => Int.one_ne_zero h.2

/-! ### The counts -/

theorem addAll_apply (num : ℕ → ℤ) (js : List ℕ) (i : ℕ) :
    addAll num js i = num i + js.count i := by
  induction js generalizing num with
  | nil => simp [addAll]
  | cons j js ih =>
    have hnext := ih (Function.update num j (num j + 1))
    change addAll num (j :: js) i = _ at hnext
    rw [hnext, List.count_cons]
    by_cases h : j = i
    · subst h
      simp only [Function.update_self, beq_self_eq_true, if_true]
      omega
    · simp [Function.update_of_ne (Ne.symm h), h]

theorem addAll_append (num : ℕ → ℤ) (js js' : List ℕ) :
    addAll num (js ++ js') = addAll (addAll num js) js' := List.foldl_append

theorem countAddress_update (x : IpConntrack) (sTemp : Bool) (j : ℕ) (ws : List InterfaceSession) :
    countAddress x.update sTemp j ws = countAddress x sTemp j ws := by
  induction ws generalizing j sTemp with
  | nil => rfl
  | cons w ws ih =>
    simp only [countAddress, ih]
    rfl

theorem countNet_update (x : IpConntrack) (j : ℕ) (ws : List InterfaceSession) :
    countNet x.update j ws = countNet x j ws := by
  induction ws generalizing j with
  | nil => rfl
  | cons w ws ih =>
    simp only [countNet, ih]
    rfl

theorem countRouted_update (x : IpConntrack) (j : ℕ) (ws : List InterfaceSession) :
    countRouted x.update j ws = countRouted x j ws := by
  induction ws generalizing j with
  | nil => rfl
  | cons w ws ih =>
    simp only [countRouted, ih]
    rfl

/-- The traffic says nothing about the WAN. -/
theorem classify_update (c : Setting) (sTemp : Bool) (x : IpConntrack) :
    classify c sTemp x.update = classify c sTemp x := by
  simp only [classify, countAddress_update, countNet_update, countRouted_update]
  rfl

/-! ### The hosts -/

theorem exists_ips {l : List SmartQosIp} {q : UInt32 → Prop} :
    (∃ a ∈ ips l, q a) ↔ ∃ e ∈ l, q e.ip := by
  simp [ips]

theorem ips_addFirst (x : IpConntrack) (l : List SmartQosIp) : ips (addFirst x l) = ips l := by
  induction l with
  | nil => rfl
  | cons e l ih =>
    rw [addFirst]
    split
    · rfl
    · simp only [ips, List.map_cons, List.cons.injEq, true_and]
      exact ih

theorem countHost_ips (c : Setting) (s : List SmartQosIp × Bool) (x : IpConntrack) :
    (ips (countHost c s x.update).1, (countHost c s x.update).2) = countIp c (ips s.1, s.2) x := by
  have hhost : host c x.update = host c x := rfl
  have hnamed : named x.update = named x := rfl
  have hfinds : (∃ a ∈ ips s.1, Finds x a) ↔ ∃ e ∈ s.1, e.ip ∈ named x := exists_ips
  rw [countHost, countIp, hhost, hnamed]
  by_cases h : ∃ e ∈ s.1, e.ip ∈ named x
  · rw [if_pos h, if_pos (hfinds.mpr h), ips_addFirst]
  · rw [if_neg h, if_neg fun h' => h (hfinds.mp h')]
    split_ifs <;> rfl

/-! ### The scan -/

theorem foldl_scanEntry (c : Setting) (ps : List ℕ) (r : Scan) :
    (ps.foldl (scanEntry c) r).num = addAll r.num (countAll c r.sTemp (scanned c r.ct ps)) ∧
    ips (ps.foldl (scanEntry c) r).hosts.1 =
      ((scanned c r.ct ps).foldl (countIp c) (ips r.hosts.1, r.hosts.2)).1 := by
  induction ps generalizing r with
  | nil => exact ⟨rfl, rfl⟩
  | cons p ps ih =>
    obtain ⟨hnum, hhosts⟩ := ih (scanEntry c r p)
    rw [List.foldl_cons, hnum, hhosts, scanned]
    by_cases h : Eligible c (r.ct p)
    · rw [if_pos h, scanEntry, if_pos h]
      simp only [classify_update]
      exact ⟨by rw [countAll, addAll_append], by rw [List.foldl_cons, countHost_ips]⟩
    · rw [if_neg h, scanEntry, if_neg h]
      exact ⟨rfl, rfl⟩

theorem scannedBy_of_enabled (h : c.trEnable = 1 ∨ c.smartQos = 1) :
    scannedBy c s = scanned c s.ct (entries c s) := if_pos h

theorem scannedBy_of_not (h : ¬ (c.trEnable = 1 ∨ c.smartQos = 1)) : scannedBy c s = [] := if_neg h

def countsBefore (c : Setting) (s : State) : ℕ → ℤ :=
  if c.trEnable = 1 ∨ c.smartQos = 1 then (swapCounts c s).sessionNumTmp else s.sessionNumTmp

def listed (c : Setting) (s : State) : List UInt32 :=
  ((scannedBy c s).foldl (countIp c) (ips s.tmpSmartQosIpList, false)).1

theorem scanAll_swapCounts (h : c.trEnable = 1 ∨ c.smartQos = 1) :
    (scanAll c (swapCounts c s)).num =
      addAll (countsBefore c s) (countAll c false (scannedBy c s)) ∧
    ips (scanAll c (swapCounts c s)).hosts.1 = listed c s := by
  have hsame : (swapCounts c s).ct = s.ct ∧ entries c (swapCounts c s) = entries c s ∧
      (swapCounts c s).tmpSmartQosIpList = s.tmpSmartQosIpList := by
    rw [swapCounts]
    split <;> exact ⟨rfl, rfl, rfl⟩
  obtain ⟨hct, hentries, htmp⟩ := hsame
  have hscan := foldl_scanEntry c (entries c s)
    ⟨s.ct, (swapCounts c s).sessionNumTmp, false, (s.tmpSmartQosIpList, false)⟩
  simp only [scanAll, hct, hentries, htmp, countsBefore, if_pos h, listed, scannedBy_of_enabled h]
  exact hscan

theorem call_counts (c : Setting) (s : State) : (nkUpdateDeltaCount c s).sessionNumTmp =
    addAll (countsBefore c s) (countAll c false (scannedBy c s)) := by
  by_cases h : c.trEnable = 1 ∨ c.smartQos = 1
  · simp only [← (scanAll_swapCounts h).1, nkUpdateDeltaCount, if_pos h, endCycle]
    split <;> rfl
  · simp only [nkUpdateDeltaCount, if_neg h, countsBefore, scannedBy_of_not h]
    rfl

theorem swapCounts_hosts (c : Setting) (s : State) :
    (swapCounts c s).nkSmartQosIpList = s.nkSmartQosIpList ∧
      (swapCounts c s).hashtmpSize = s.hashtmpSize := by
  rw [swapCounts]
  split <;> exact ⟨rfl, rfl⟩

/-- The end of a cycle hands the list over. -/
theorem call_hosts_of_end (h : c.trEnable = 1 ∨ c.smartQos = 1)
    (hend : finish c.htableSize c.calCntPeriod s.hashtmpSize = c.htableSize) :
    (nkUpdateDeltaCount c s).tmpSmartQosIpList = [] ∧
      ips (nkUpdateDeltaCount c s).nkSmartQosIpList = (listed c s).reverse := by
  have hsize := (swapCounts_hosts c s).2
  simp only [← (scanAll_swapCounts h).2, nkUpdateDeltaCount, if_pos h, endCycle, hsize, if_pos hend]
  exact ⟨trivial, by simp only [ips, List.map_reverse]⟩

theorem call_hosts_of_not
    (h : ¬ ((c.trEnable = 1 ∨ c.smartQos = 1) ∧
      finish c.htableSize c.calCntPeriod s.hashtmpSize = c.htableSize)) :
    ips (nkUpdateDeltaCount c s).tmpSmartQosIpList = listed c s ∧
      (nkUpdateDeltaCount c s).nkSmartQosIpList = s.nkSmartQosIpList := by
  by_cases henabled : c.trEnable = 1 ∨ c.smartQos = 1
  · obtain ⟨hdone, hsize⟩ := swapCounts_hosts c s
    simp only [← (scanAll_swapCounts henabled).2, nkUpdateDeltaCount, if_pos henabled, endCycle,
      hsize, if_neg fun hend => h ⟨henabled, hend⟩]
    exact ⟨trivial, hdone⟩
  · simp only [nkUpdateDeltaCount, if_neg henabled, listed, scannedBy_of_not henabled]
    exact ⟨rfl, trivial⟩

/-- Two tables make the same of what the calls scan exactly if each index is counted as often and
the same addresses are listed. -/
theorem sameCounts_iff (hash : ℕ → List ℕ) (ct : ℕ → IpConntrack) :
    SameCounts (nkUpdateDeltaCount c { s with hash := hash, ct := ct }) (nkUpdateDeltaCount c s) ↔
      (∀ i, (countAll c false (scannedBy c { s with hash := hash, ct := ct })).count i =
        (countAll c false (scannedBy c s)).count i) ∧
      ∀ a, a ∈ listed c { s with hash := hash, ct := ct } ↔ a ∈ listed c s := by
  have hbefore : countsBefore c { s with hash := hash, ct := ct } = countsBefore c s := by
    simp only [countsBefore, swapCounts]
    split_ifs <;> rfl
  have hcounts : (nkUpdateDeltaCount c { s with hash := hash, ct := ct }).sessionNumTmp =
      (nkUpdateDeltaCount c s).sessionNumTmp ↔
      ∀ i, (countAll c false (scannedBy c { s with hash := hash, ct := ct })).count i =
        (countAll c false (scannedBy c s)).count i := by
    rw [call_counts, call_counts, hbefore, funext_iff]
    simp only [addAll_apply, add_right_inj, Nat.cast_inj]
  rw [← hcounts]
  by_cases h : (c.trEnable = 1 ∨ c.smartQos = 1) ∧
      finish c.htableSize c.calCntPeriod s.hashtmpSize = c.htableSize
  · obtain ⟨htmp, hdone⟩ := call_hosts_of_end (s := s) h.1 h.2
    obtain ⟨htmp', hdone'⟩ :=
      call_hosts_of_end (s := { s with hash := hash, ct := ct }) h.1 h.2
    constructor
    · intro hsame
      have hlist := hsame.done
      simp only [hdone, hdone', List.mem_reverse] at hlist
      exact ⟨hsame.counts, hlist⟩
    · rintro ⟨hcount, hlist⟩
      refine ⟨hcount, ?_, ?_⟩
      · simp only [htmp, htmp', implies_true]
      · simpa only [hdone, hdone', List.mem_reverse] using hlist
  · obtain ⟨htmp, hdone⟩ := call_hosts_of_not h
    obtain ⟨htmp', hdone'⟩ := call_hosts_of_not (s := { s with hash := hash, ct := ct }) h
    constructor
    · intro hsame
      have hlist := hsame.tmp
      simp only [htmp, htmp'] at hlist
      exact ⟨hsame.counts, hlist⟩
    · rintro ⟨hcount, hlist⟩
      refine ⟨hcount, ?_, ?_⟩
      · simpa only [htmp, htmp'] using hlist
      · simp only [hdone, hdone', implies_true]

end Scan

/-! ## The tables that a call scans alike -/

section Tables

variable {c : Setting} {s : State} {ct : ℕ → IpConntrack} {ps qs : List ℕ} {l : List IpConntrack}
  {x : IpConntrack} {b : ℕ}

theorem eligible_of_mem_scanned (h : x ∈ scanned c ct ps) : Eligible c x := by
  induction ps generalizing ct with
  | nil => exact absurd h List.not_mem_nil
  | cons p ps ih =>
    rw [scanned] at h
    split at h
    · next helig =>
      rcases List.mem_cons.mp h with rfl | h
      · exact helig
      · exact ih h
    · exact ih h

theorem eligible_of_mem_scannedBy (h : x ∈ scannedBy c s) : Eligible c x := by
  rw [scannedBy] at h
  split at h
  · exact eligible_of_mem_scanned h
  · exact absurd h List.not_mem_nil

/-- Entries that come again scan nothing. -/
theorem scanned_append_again (hnodup : ps.Nodup) (h : ∀ p ∈ ps, Eligible c (ct p))
    (hagain : ∀ q ∈ qs, q ∈ ps ∨ ¬ Eligible c (ct q)) :
    scanned c ct (ps ++ qs) = ps.map ct := by
  induction ps generalizing ct with
  | nil =>
    induction qs with
    | nil => rfl
    | cons q qs ih =>
      have hq : ¬ Eligible c (ct q) := (hagain q List.mem_cons_self).resolve_left List.not_mem_nil
      rw [List.nil_append, scanned, if_neg hq]
      exact ih fun q hq => hagain q (List.mem_cons_of_mem _ hq)
  | cons p ps ih =>
    obtain ⟨hp, hnodup⟩ := List.nodup_cons.mp hnodup
    have hrest : ∀ q ∈ ps, Function.update ct p (ct p).update q = ct q := by
      intro q hq
      have hne : q ≠ p := by
        rintro rfl
        exact hp hq
      exact Function.update_of_ne hne _ _
    rw [List.cons_append, scanned, if_pos (h p List.mem_cons_self), ih hnodup]
    · rw [List.map_cons, List.map_congr_left hrest]
    · intro q hq
      rw [hrest q hq]
      exact h q (List.mem_cons_of_mem _ hq)
    · intro q hq
      by_cases heq : q = p
      · subst heq
        rw [Function.update_self]
        exact .inr (not_eligible_update _)
      · rw [Function.update_of_ne heq]
        exact (hagain q hq).imp_left fun hmem => (List.mem_cons.mp hmem).resolve_left heq

theorem flatMap_single {ks : List ℕ} (hnodup : ks.Nodup) (hb : b ∈ ks) (ps : List ℕ) :
    ks.flatMap (fun k => if k = b then ps else []) = ps := by
  obtain ⟨pre, post, rfl⟩ := List.append_of_mem hb
  have hne : ∀ k ∈ pre ++ post, k ≠ b := by
    intro k hk heq
    subst heq
    exact (List.nodup_middle.mp hnodup).notMem hk
  have hpre : pre.flatMap (fun k => if k = b then ps else []) = [] :=
    List.flatMap_eq_nil_iff.mpr fun k hk => if_neg (hne k (List.mem_append_left _ hk))
  have hpost : post.flatMap (fun k => if k = b then ps else []) = [] :=
    List.flatMap_eq_nil_iff.mpr fun k hk => if_neg (hne k (List.mem_append_right _ hk))
  rw [List.flatMap_append, List.flatMap_cons, hpre, hpost, if_pos rfl, List.nil_append,
    List.append_nil]

theorem lt_of_mem_buckets {hashtmpSize : UInt32} (hb : b ∈ buckets c hashtmpSize) :
    b < c.htableSize.toNat := by
  have hend : (finish c.htableSize c.calCntPeriod hashtmpSize).toNat ≤ c.htableSize.toNat := by
    rw [finish]
    split
    · exact Nat.le_refl _
    · next h => exact UInt32.le_iff_toNat_le.mp (UInt32.not_lt.mp h)
  have htoInt := BitVec.toInt_eq_toNat_cond
    (finish c.htableSize c.calCntPeriod hashtmpSize).toBitVec
  have hsigned : (finish c.htableSize c.calCntPeriod hashtmpSize).toInt32.toInt =
    (finish c.htableSize c.calCntPeriod hashtmpSize).toBitVec.toInt := rfl
  simp only [buckets, List.mem_range'_1, hsigned] at hb
  rw [htoInt, UInt32.toNat_toBitVec] at hb
  split at hb <;> omega

/-- Any sessions that a call may scan hang in a table in which it scans them, in their order. -/
theorem exists_table (hl : ∀ x ∈ l, Eligible c x) (henabled : c.trEnable = 1 ∨ c.smartQos = 1)
    (hb : b ∈ buckets c s.hashtmpSize) :
    ∃ hash ct, Hung c hash ∧ scannedBy c { s with hash := hash, ct := ct } = l := by
  let twice := List.range l.length ++ List.range l.length
  let hash := fun k => if k = b then twice else []
  let ct := fun p => l.getD p (s.ct 0)
  have hct : (List.range l.length).map ct = l := by
    apply List.ext_getElem
    · simp
    · intro i hi hi'
      simp [ct, hi']
  refine ⟨hash, ct, ?_, ?_⟩
  · intro p
    have htable := flatMap_single List.nodup_range
      (List.mem_range.mpr (lt_of_mem_buckets hb)) twice
    have hone : (List.range l.length).count p = 0 ∨ (List.range l.length).count p = 1 := by
      have hle := List.nodup_iff_count_le_one.mp (List.nodup_range (n := l.length)) p
      omega
    simp only [hash, htable, twice, List.count_append]
    omega
  · have hentries : entries c { s with hash := hash, ct := ct } = twice :=
      flatMap_single List.nodup_range' hb twice
    have hscan : scanned c ct twice = (List.range l.length).map ct := by
      apply scanned_append_again List.nodup_range
      · intro p hp
        apply hl
        rw [← hct]
        exact List.mem_map_of_mem hp
      · exact fun q hq => .inl hq
    rw [scannedBy_of_enabled henabled, hentries, hscan, hct]

/-- The sessions that a call scans can hang in any order. -/
theorem exists_order_table (hperm : l.Perm (scannedBy c s)) :
    ∃ hash ct, Hung c hash ∧ scannedBy c { s with hash := hash, ct := ct } = l := by
  by_cases hnil : scannedBy c s = []
  · have hempty : ∀ ks : List ℕ, ks.flatMap (fun _ => ([] : List ℕ)) = [] :=
      fun ks => List.flatMap_eq_nil_iff.mpr fun _ _ => rfl
    refine ⟨fun _ => [], s.ct, ?_, ?_⟩
    · intro p
      simp only [hempty, List.count_nil, true_or]
    · rw [hnil] at hperm
      simp only [hperm.eq_nil, scannedBy, entries, hempty, scanned, ite_self]
  · have henabled : c.trEnable = 1 ∨ c.smartQos = 1 := by
      by_contra h
      exact hnil (scannedBy_of_not h)
    have hbuckets : buckets c s.hashtmpSize ≠ [] := by
      intro h
      apply hnil
      rw [scannedBy_of_enabled henabled, entries, h]
      rfl
    obtain ⟨b, hb⟩ := List.exists_mem_of_ne_nil _ hbuckets
    exact exists_table (fun x hx => eligible_of_mem_scannedBy (hperm.mem_iff.mp hx)) henabled hb

end Tables

end DeltaCount
