import Mathlib.Data.Fin.VecNotation
import Mathlib.Data.List.FinRange
import RouterFirmware.MacLearning

/-! # The report of the learnt hosts

`SIOCGETIPMACLEARN` copies the entries of the learn list for the user, the last one first. The
entries are meant to be those of the LAN subnet, of the multi-subnets and of the ranges of the
transparent bridge. The test of a range joins its two comparisons with `||`, the tests of the
multi-subnets are joined with `&&`, and the flag `temp` stays set for the entries behind one
that passed.
-/
namespace LearnReport

open MacBinding (Mac IpMacBindEntry)
open MacLearning (ipMacEntryHashSize learnt buckets)

structure InterfaceSession where
  lanip : UInt32
  lanmask : UInt32
  internallanip1 : Fin 2 → UInt32
  internallanip2 : Fin 2 → UInt32
  msubnet : Fin 8 → UInt32
  msubmask : Fin 8 → UInt32

/-- `wan_interface_session`, whose first element also describes the LAN. -/
structure Setting where
  wan0 : InterfaceSession
  others : List InterfaceSession

def Setting.wans (c : Setting) : List InterfaceSession := c.wan0 :: c.others

def InLan (c : Setting) (ip : UInt32) : Prop :=
  ip &&& c.wan0.lanmask = c.wan0.lanip &&& c.wan0.lanmask

def InSubnet (c : Setting) (ip : UInt32) (k : Fin 8) : Prop :=
  ip &&& c.wan0.msubmask k = c.wan0.msubnet k &&& c.wan0.msubmask k

instance (c : Setting) (ip : UInt32) : Decidable (InLan c ip) :=
  inferInstanceAs (Decidable (_ = _))

instance (c : Setting) (ip : UInt32) (k : Fin 8) : Decidable (InSubnet c ip k) :=
  inferInstanceAs (Decidable (_ = _))

def checkRanges (ip : UInt32) (temp : Bool) (w : InterfaceSession) : Bool :=
  (List.finRange 2).foldl
    (fun temp l => if ip ≥ w.internallanip1 l ∨ ip ≤ w.internallanip2 l then true else temp) temp

def checkIp (c : Setting) (temp : Bool) (ip : UInt32) : Bool :=
  let temp := if InLan c ip then true else temp
  let temp := c.wans.foldl (checkRanges ip) temp
  if InSubnet c ip 0 ∧ InSubnet c ip 1 ∧ InSubnet c ip 2 ∧ InSubnet c ip 3 ∧ InSubnet c ip 4 then
    true
  else temp

/-- The variables of the walk, and how often it has called `kmalloc`. -/
structure Walk where
  temp : Bool
  kmallocs : ℕ
  nkIpMacP : List IpMacBindEntry

/-- The body of the loop; `kmalloc n` tells whether the call behind `n` others succeeds. -/
def visit (c : Setting) (kmalloc : ℕ → Bool) (w : Walk) (entry : IpMacBindEntry) : Walk :=
  let temp := checkIp c w.temp entry.ip
  if temp then
    ⟨temp, w.kmallocs + 1, if kmalloc w.kmallocs then entry :: w.nkIpMacP else w.nkIpMacP⟩
  else ⟨temp, w.kmallocs, w.nkIpMacP⟩

/-- `SIOCGETIPMACLEARN`. -/
def getIpMacLearn (c : Setting) (kmalloc : ℕ → Bool) (s : MacBinding.State) :
    List IpMacBindEntry :=
  ((List.range ipMacEntryHashSize).foldl
    (fun w idx => (s.nkIpMacLearnList (UInt8.ofNat idx)).foldl (visit c kmalloc) w)
    ⟨false, 0, []⟩).nkIpMacP

/-! ## The areas of the report -/

def InRange (w : InterfaceSession) (ip : UInt32) (l : Fin 2) : Prop :=
  w.internallanip1 l ≤ ip ∧ ip ≤ w.internallanip2 l

instance (w : InterfaceSession) (ip : UInt32) (l : Fin 2) : Decidable (InRange w ip l) :=
  inferInstanceAs (Decidable (_ ∧ _))

/-- A multi-subnet is configured when it has a mask; the slots that are not in use are zero. -/
def InArea (c : Setting) (ip : UInt32) : Prop :=
  InLan c ip ∨ (∃ k, c.wan0.msubmask k ≠ 0 ∧ InSubnet c ip k) ∨
    ∃ w ∈ c.wans, ∃ l, InRange w ip l

instance (c : Setting) (ip : UInt32) : Decidable (InArea c ip) :=
  inferInstanceAs (Decidable (_ ∨ (∃ _, _ ∧ _) ∨ ∃ w ∈ c.wans, ∃ _, _))

/-- The test of the code on its own: what it says of an entry while the flag is down. -/
def Passes (c : Setting) (ip : UInt32) : Prop :=
  InLan c ip ∨ (∃ w ∈ c.wans, ∃ l, w.internallanip1 l ≤ ip ∨ ip ≤ w.internallanip2 l) ∨
    ∀ k < 5, InSubnet c ip k

instance (c : Setting) (ip : UInt32) : Decidable (Passes c ip) :=
  inferInstanceAs (Decidable (_ ∨ (∃ w ∈ c.wans, ∃ _, _ ∨ _) ∨ ∀ k < 5, _))

theorem checkRanges_iff (ip : UInt32) (temp : Bool) (w : InterfaceSession) :
    checkRanges ip temp w = true ↔
      temp = true ∨ ∃ l, w.internallanip1 l ≤ ip ∨ ip ≤ w.internallanip2 l := by
  have hranges : List.finRange 2 = [0, 1] := rfl
  simp only [checkRanges, hranges, List.foldl_cons, List.foldl_nil, Fin.exists_fin_two]
  grind

theorem foldl_checkRanges_iff (ip : UInt32) (temp : Bool) (ws : List InterfaceSession) :
    ws.foldl (checkRanges ip) temp = true ↔
      temp = true ∨ ∃ w ∈ ws, ∃ l, w.internallanip1 l ≤ ip ∨ ip ≤ w.internallanip2 l := by
  induction ws generalizing temp with
  | nil => simp
  | cons w ws ih =>
    rw [List.foldl_cons, ih, checkRanges_iff, List.exists_mem_cons_iff, or_assoc]

theorem forall_lt_five {P : Fin 8 → Prop} : (∀ k < 5, P k) ↔ P 0 ∧ P 1 ∧ P 2 ∧ P 3 ∧ P 4 := by
  constructor
  · intro h
    exact ⟨h 0 (by decide), h 1 (by decide), h 2 (by decide), h 3 (by decide), h 4 (by decide)⟩
  · rintro ⟨h0, h1, h2, h3, h4⟩ k hk
    match k, hk with
    | 0, _ => exact h0
    | 1, _ => exact h1
    | 2, _ => exact h2
    | 3, _ => exact h3
    | 4, _ => exact h4

theorem checkIp_eq (c : Setting) (temp : Bool) (ip : UInt32) :
    checkIp c temp ip = (temp || decide (Passes c ip)) := by
  apply Bool.eq_iff_iff.mpr
  simp only [checkIp, Bool.or_eq_true, decide_eq_true_eq, Passes, forall_lt_five]
  split
  · next h => simp [h]
  · next h =>
    rw [foldl_checkRanges_iff]
    by_cases hlan : InLan c ip <;> simp [hlan, h]

/-! ## What the walk copies -/

/-- The entries of a list whose copy is allocated, the calls being numbered from `n` on. -/
def copied (kmalloc : ℕ → Bool) : ℕ → List IpMacBindEntry → List IpMacBindEntry
  | _, [] => []
  | n, entry :: rest =>
    if kmalloc n then entry :: copied kmalloc (n + 1) rest else copied kmalloc (n + 1) rest

def before (c : Setting) (l : List IpMacBindEntry) : List IpMacBindEntry :=
  l.takeWhile fun e => !decide (Passes c e.ip)

def fromFirst (c : Setting) (l : List IpMacBindEntry) : List IpMacBindEntry :=
  l.dropWhile fun e => !decide (Passes c e.ip)

theorem before_append_fromFirst (c : Setting) (l : List IpMacBindEntry) :
    before c l ++ fromFirst c l = l := List.takeWhile_append_dropWhile

theorem visit_raised (c : Setting) (kmalloc : ℕ → Bool) (n : ℕ) (acc : List IpMacBindEntry)
    (entry : IpMacBindEntry) : visit c kmalloc ⟨true, n, acc⟩ entry =
      ⟨true, n + 1, if kmalloc n then entry :: acc else acc⟩ := by
  simp [visit, checkIp_eq]

/-- Once the flag is set, every entry is copied as far as the memory lasts. -/
theorem foldl_visit_raised (c : Setting) (kmalloc : ℕ → Bool) (l : List IpMacBindEntry) (n : ℕ)
    (acc : List IpMacBindEntry) : (l.foldl (visit c kmalloc) ⟨true, n, acc⟩).nkIpMacP =
      (copied kmalloc n l).reverse ++ acc := by
  induction l generalizing n acc with
  | nil => rfl
  | cons entry rest ih =>
    rw [List.foldl_cons, visit_raised, ih, copied]
    split
    · rw [List.reverse_cons, List.append_assoc, List.singleton_append]
    · rfl

theorem foldl_visit (c : Setting) (kmalloc : ℕ → Bool) (l : List IpMacBindEntry) :
    (l.foldl (visit c kmalloc) ⟨false, 0, []⟩).nkIpMacP =
      (copied kmalloc 0 (fromFirst c l)).reverse := by
  induction l with
  | nil => rfl
  | cons entry rest ih =>
    rw [fromFirst] at ih
    rw [List.foldl_cons, fromFirst, List.dropWhile_cons]
    by_cases h : Passes c entry.ip
    · have hvisit : visit c kmalloc ⟨false, 0, []⟩ entry = visit c kmalloc ⟨true, 0, []⟩ entry := by
        simp [visit, checkIp_eq, h]
      have hfold := foldl_visit_raised c kmalloc (entry :: rest) 0 []
      rw [List.append_nil, List.foldl_cons] at hfold
      simpa [h, hvisit] using hfold
    · have hvisit : visit c kmalloc ⟨false, 0, []⟩ entry = ⟨false, 0, []⟩ := by
        simp [visit, checkIp_eq, h]
      simpa [h, hvisit] using ih

/-- The two loops walk over the learnt entries in their order. -/
theorem getIpMacLearn_eq (c : Setting) (kmalloc : ℕ → Bool) (s : MacBinding.State) :
    getIpMacLearn c kmalloc s = (copied kmalloc 0 (fromFirst c (learnt s))).reverse := by
  rw [← foldl_visit, getIpMacLearn, learnt, BucketTable.Layout.entries, buckets,
    List.flatMap_map, List.foldl_flatMap]

theorem copied_sublist (kmalloc : ℕ → Bool) (n : ℕ) (l : List IpMacBindEntry) :
    (copied kmalloc n l).Sublist l := by
  induction l generalizing n with
  | nil => exact List.Sublist.slnil
  | cons entry rest ih =>
    rw [copied]
    split
    · exact (ih (n + 1)).cons_cons entry
    · exact (ih (n + 1)).cons entry

/-- The copied entries are those with a property exactly if the calls succeed for these. -/
theorem copied_eq_filter_iff (kmalloc : ℕ → Bool) (P : IpMacBindEntry → Prop) [DecidablePred P]
    (n : ℕ) (l : List IpMacBindEntry) : copied kmalloc n l = l.filter (fun e => decide (P e)) ↔
      ∀ i (hi : i < l.length), kmalloc (n + i) = true ↔ P l[i] := by
  induction l generalizing n with
  | nil => simp [copied]
  | cons entry rest ih =>
    have hrest : (∀ i (hi : i < rest.length), kmalloc (n + 1 + i) = true ↔ P rest[i]) ↔
        ∀ i (hi : i + 1 < (entry :: rest).length),
          kmalloc (n + (i + 1)) = true ↔ P (entry :: rest)[i + 1] := by
      simp [Nat.add_assoc, Nat.add_comm 1]
    have hsplit : (∀ i (hi : i < (entry :: rest).length),
        kmalloc (n + i) = true ↔ P (entry :: rest)[i]) ↔
          (kmalloc n = true ↔ P entry) ∧
            copied kmalloc (n + 1) rest = rest.filter fun e => decide (P e) := by
      rw [ih, hrest]
      constructor
      · intro h
        exact ⟨h 0 (by simp), fun i hi => h (i + 1) hi⟩
      · rintro ⟨hzero, hsucc⟩ i hi
        cases i with
        | zero => exact hzero
        | succ i => exact hsucc i hi
    rw [hsplit, copied, List.filter_cons]
    by_cases hk : kmalloc n = true <;> by_cases hp : P entry
    · simp [hk, hp]
    · -- A copy of an entry without the property is not among the others.
      have hne : entry :: copied kmalloc (n + 1) rest ≠ rest.filter fun e => decide (P e) := by
        intro h
        have hmem : entry ∈ rest.filter fun e => decide (P e) := h ▸ List.mem_cons_self
        exact hp (by simpa using (List.mem_filter.mp hmem).2)
      simp [hk, hp, hne]
    · have hne : copied kmalloc (n + 1) rest ≠ entry :: rest.filter fun e => decide (P e) := by
        intro h
        have hsub := (copied_sublist kmalloc (n + 1) rest).filter fun e => decide (P e)
        have hlen := hsub.length_le
        rw [h, List.filter_cons_of_pos (by simpa using hp), List.filter_filter] at hlen
        simp only [List.length_cons, Bool.and_self] at hlen
        omega
      simp [hk, hp, hne]
    · simp [hk, hp]

/-- A part of a list with the property, up to the order, has the whole of it. -/
theorem perm_filter_append_iff (P : IpMacBindEntry → Prop) [DecidablePred P]
    {part back : List IpMacBindEntry} (h : part.Sublist back) (front : List IpMacBindEntry) :
    part.Perm ((front ++ back).filter fun e => decide (P e)) ↔
      (∀ e ∈ front, ¬ P e) ∧ part = back.filter fun e => decide (P e) := by
  constructor
  · intro hperm
    have hall : ∀ e ∈ part, P e := by
      intro e he
      simpa using (List.mem_filter.mp (hperm.mem_iff.mp he)).2
    have hpart : part.filter (fun e => decide (P e)) = part :=
      List.filter_eq_self.mpr fun e he => by simpa using hall e he
    have hsub : part.Sublist (back.filter fun e => decide (P e)) := hpart ▸ h.filter _
    have hlen := hperm.length_eq
    rw [List.filter_append, List.length_append] at hlen
    have hle := hsub.length_le
    have hnil : front.filter (fun e => decide (P e)) = [] := List.length_eq_zero_iff.mp (by omega)
    refine ⟨?_, hsub.eq_of_length (by omega)⟩
    intro e he hp
    exact List.filter_eq_nil_iff.mp hnil e he (by simpa using hp)
  · rintro ⟨hfront, rfl⟩
    have hnil : front.filter (fun e => decide (P e)) = [] :=
      List.filter_eq_nil_iff.mpr fun e he => by simpa using hfront e he
    rw [List.filter_append, hnil, List.nil_append]

/-! ## What is reported -/

/-- The report: each learnt entry of the areas once, in whatever order. -/
def ReportsAreas (c : Setting) (kmalloc : ℕ → Bool) (s : MacBinding.State) : Prop :=
  (getIpMacLearn c kmalloc s).Perm ((learnt s).filter fun e => decide (InArea c e.ip))

/-- No entry of an area lies in front of the first one that passes; from that one on the
copies of the entries of the areas, and only these, are allocated. -/
def AreasFollow (c : Setting) (kmalloc : ℕ → Bool) (s : MacBinding.State) : Prop :=
  (∀ e ∈ before c (learnt s), ¬ InArea c e.ip) ∧
    ∀ i (hi : i < (fromFirst c (learnt s)).length),
      kmalloc i = true ↔ InArea c (fromFirst c (learnt s))[i].ip

theorem areasFollow_allocated (c : Setting) (s : MacBinding.State) :
    AreasFollow c (fun _ => true) s ↔ (∀ e ∈ before c (learnt s), ¬ InArea c e.ip) ∧
      ∀ e ∈ fromFirst c (learnt s), InArea c e.ip := by
  simp only [AreasFollow, true_iff, List.forall_mem_iff_getElem]

instance (c : Setting) (kmalloc : ℕ → Bool) (s : MacBinding.State) :
    Decidable (ReportsAreas c kmalloc s) :=
  inferInstanceAs (Decidable (List.Perm _ _))

theorem reportsAreas_iff (c : Setting) (kmalloc : ℕ → Bool) (s : MacBinding.State) :
    ReportsAreas c kmalloc s ↔ AreasFollow c kmalloc s := by
  have hperm := perm_filter_append_iff (fun e => InArea c e.ip)
    (copied_sublist kmalloc 0 (fromFirst c (learnt s))) (before c (learnt s))
  have hcopied := copied_eq_filter_iff kmalloc (fun e => InArea c e.ip) 0 (fromFirst c (learnt s))
  have hreverse := List.reverse_perm (copied kmalloc 0 (fromFirst c (learnt s)))
  rw [before_append_fromFirst] at hperm
  simp only [Nat.zero_add] at hcopied
  rw [ReportsAreas, getIpMacLearn_eq, AreasFollow, ← hcopied, ← hperm]
  exact ⟨hreverse.symm.trans, hreverse.trans⟩

/-- A router with the LAN 192.168.1.0/24, without a bridge and without multi-subnets: a host
that uses 10.0.0.5 is reported. -/
theorem foreign_host_reported :
    let w : InterfaceSession := ⟨3232235777, 4294967040, ![0, 0], ![0, 0],
      ![0, 0, 0, 0, 0, 0, 0, 0], ![0, 0, 0, 0, 0, 0, 0, 0]⟩
    let calls := [MacLearning.Call.check (some ![0, 16, 24, 1, 2, 3]) 167772165 true]
    ¬ ReportsAreas ⟨w, []⟩ (fun _ => true) (MacLearning.run calls).toState := by
  decide +kernel

/-- Where the two ends of a range are in order, `||` passes every address. -/
theorem passes_of_ordered {c : Setting} {w : InterfaceSession} {l : Fin 2} (hw : w ∈ c.wans)
    (h : w.internallanip1 l ≤ w.internallanip2 l) (ip : UInt32) : Passes c ip := by
  refine .inr (.inl ⟨w, hw, l, ?_⟩)
  by_cases hle : w.internallanip1 l ≤ ip
  · exact .inl hle
  · exact .inr (UInt32.le_trans (UInt32.le_of_lt (UInt32.not_le.mp hle)) h)

theorem copied_allocated (n : ℕ) (l : List IpMacBindEntry) : copied (fun _ => true) n l = l := by
  induction l generalizing n with
  | nil => rfl
  | cons entry rest ih => rw [copied, if_pos rfl, ih]

/-- So one such range, which may be the zero of a bridge that is not in use, makes the report
the whole table. -/
theorem report_all {c : Setting} {w : InterfaceSession} {l : Fin 2} (hw : w ∈ c.wans)
    (h : w.internallanip1 l ≤ w.internallanip2 l) (s : MacBinding.State) :
    (getIpMacLearn c (fun _ => true) s).Perm (learnt s) := by
  have hall : fromFirst c (learnt s) = learnt s := by
    cases hl : learnt s with
    | nil => rfl
    | cons entry rest =>
      exact List.dropWhile_cons_of_neg (by simp [passes_of_ordered hw h entry.ip])
  rw [getIpMacLearn_eq, hall, copied_allocated]
  exact List.reverse_perm _

end LearnReport
