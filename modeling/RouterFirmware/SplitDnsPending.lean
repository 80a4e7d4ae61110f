import Mathlib.Algebra.BigOperators.Fin
import Mathlib.Algebra.Order.BigOperators.Group.Finset
import RouterFirmware.SplitDns

/-! # The table of pending queries

The counter is kept apart from the table: it goes down for each entry that makes room, up for a
new one and down for an answered one. It is the number of entries all the same.
-/
namespace SplitDnsPending

open GuardedRun SplitDns
open scoped BigOperators

def entries (table : UInt8 → List DnsSplitHash) : ℕ :=
  ∑ i ∈ Finset.range 256, (table (UInt8.ofNat i)).length

structure Pending (t : Tables) : Prop where
  count : t.cDnsSplitNum = entries t.dnsSplitHashTable
  bound : t.cDnsSplitNum ≤ 1500
  hashed : ∀ i, ∀ e ∈ t.dnsSplitHashTable i, e.dnsId.toUInt8 = i

/-- A packet that the function takes for the reply of a DNS server. -/
def IsReply (p : SkBuff) : Prop :=
  p.protocol = 17 ∧ p.sport = 53 ∧ p.dnsQr = 1 ∧ p.dev = some false

instance (p : SkBuff) : Decidable (IsReply p) := inferInstanceAs (Decidable (_ ∧ _ ∧ _ ∧ _))

section Branches

variable {t : Tables} {p : SkBuff} {luck : Luck}

theorem translate_of_isReply (h : IsReply p) : nkTranslateSpiltdnsToIpsec t p luck =
    if t.ipsecSplitDnsList = [] ∨ (p.dport = 53 ∧ 89 < p.datalen) then (t, .untouched)
    else translateReply t p luck := by
  obtain ⟨hudp, hsport, hqr, hdev⟩ := h
  rw [nkTranslateSpiltdnsToIpsec]
  by_cases hempty : t.ipsecSplitDnsList = []
  · rw [if_pos (by simp [hempty]), if_pos (.inl hempty)]
  · rw [if_neg (by simpa using hempty), if_neg (not_not.mpr hudp)]
    by_cases hcut : p.dport = 53 ∧ 89 < p.datalen
    · rw [if_pos (.inr hcut), if_pos (.inr hcut)]
    · rw [if_neg (by simp [hsport, hcut]), if_neg (by simp [hempty, hcut])]
      simp [hdev, hsport, hqr]

theorem translate_of_not_isReply (t : Tables) (luck : Luck) (h : ¬ IsReply p) :
    nkTranslateSpiltdnsToIpsec t p luck = (t, .untouched) ∨
      nkTranslateSpiltdnsToIpsec t p luck = translateQuery t p luck := by
  rw [nkTranslateSpiltdnsToIpsec]
  split
  · exact .inl rfl
  · split
    · exact .inl rfl
    · next hudp =>
      split
      · exact .inl rfl
      · split
        · exact .inl rfl
        · next flan hdev =>
          split
          · exact .inr rfl
          · split
            · next hreply =>
              refine absurd ⟨not_not.mp hudp, hreply.1, hreply.2.1, ?_⟩ h
              rw [hdev, Bool.eq_false_of_not_eq_true hreply.2.2]
            · exact .inl rfl

end Branches

section Entries

variable {table : UInt8 → List DnsSplitHash} {b : UInt8} {l : List DnsSplitHash}

theorem entries_update (table : UInt8 → List DnsSplitHash) (b : UInt8) (l : List DnsSplitHash) :
    entries (Function.update table b l) + (table b).length = entries table + l.length := by
  have hb : b.toNat ∈ Finset.range 256 := Finset.mem_range.mpr b.toNat_lt
  have hrest : ∑ i ∈ (Finset.range 256).erase b.toNat,
        (Function.update table b l (UInt8.ofNat i)).length =
      ∑ i ∈ (Finset.range 256).erase b.toNat, (table (UInt8.ofNat i)).length := by
    apply Finset.sum_congr rfl
    intro i hi
    obtain ⟨hne, hmem⟩ := Finset.mem_erase.mp hi
    have hother : UInt8.ofNat i ≠ b := fun h => hne (by
      rw [← h, UInt8.toNat_ofNat_of_lt' (Finset.mem_range.mp hmem)])
    rw [Function.update_of_ne hother]
  have hnew := Finset.add_sum_erase (Finset.range 256)
    (fun i => (Function.update table b l (UInt8.ofNat i)).length) hb
  have hold := Finset.add_sum_erase (Finset.range 256)
    (fun i => (table (UInt8.ofNat i)).length) hb
  simp only [UInt8.ofNat_toNat, Function.update_self] at hnew hold
  simp only [entries]
  omega

/-- What the first `n` lists lose when each loses its first entry. -/
theorem foldl_countDown (table : UInt8 → List DnsSplitHash) (num : ℤ) (n : ℕ)
    (h : ∑ i ∈ Finset.range n, ((table (UInt8.ofNat i)).length : ℤ) ≤ num) :
    (List.range n).foldl (fun n i =>
        if (table (UInt8.ofNat i)).isEmpty then n else countDown n) num +
      ∑ i ∈ Finset.range n, ((table (UInt8.ofNat i)).length : ℤ) =
    num + ∑ i ∈ Finset.range n, ((table (UInt8.ofNat i)).tail.length : ℤ) := by
  induction n with
  | zero => rfl
  | succ n ih =>
    rw [Finset.sum_range_succ] at h
    have hlen : (0 : ℤ) ≤ (table (UInt8.ofNat n)).length := Int.natCast_nonneg _
    have hbefore := ih (by omega)
    have htail : (0 : ℤ) ≤ ∑ i ∈ Finset.range n, ((table (UInt8.ofNat i)).tail.length : ℤ) :=
      Finset.sum_nonneg fun i _ => Int.natCast_nonneg _
    rw [List.range_succ, List.foldl_concat, Finset.sum_range_succ, Finset.sum_range_succ]
    cases hlist : table (UInt8.ofNat n) with
    | nil =>
      rw [List.isEmpty_nil, if_pos rfl]
      simp only [List.length_nil, List.tail_nil, Nat.cast_zero]
      omega
    | cons e l =>
      rw [hlist, List.length_cons] at h
      rw [if_neg (by simp), countDown, if_pos (by omega)]
      simp only [List.length_cons, List.tail_cons]
      omega

theorem entries_tail_lt (h : 0 < entries table) :
    entries (fun i => (table i).tail) < entries table := by
  obtain ⟨i, hi, hne⟩ : ∃ i ∈ Finset.range 256, (table (UInt8.ofNat i)).length ≠ 0 := by
    by_contra hall
    simp only [not_exists, not_and, not_not] at hall
    exact absurd (Finset.sum_eq_zero hall) (Nat.pos_iff_ne_zero.mp h)
  apply Finset.sum_lt_sum
  · intro j _
    rw [List.length_tail]
    exact Nat.sub_le _ _
  · refine ⟨i, hi, ?_⟩
    rw [List.length_tail]
    omega

end Entries

section Steps

variable {t : Tables} {p : SkBuff} {e : DnsSplitHash}

theorem pending_initial (l : List IpsecSplitDns) : Pending ⟨l, fun _ => [], 0⟩ := by
  refine ⟨?_, (by decide : (0 : ℤ) ≤ 1500), ?_⟩
  · simp [entries]
  · intro i e he
    cases he

/-- A full table has room for one entry afterwards. -/
theorem pending_makeRoom (h : Pending t) :
    Pending t.makeRoom ∧ t.makeRoom.cDnsSplitNum < 1500 := by
  rw [Tables.makeRoom]
  split
  · next hfull =>
    have hcount := h.count
    have hbound := h.bound
    have hcast : (entries t.dnsSplitHashTable : ℤ) =
        ∑ i ∈ Finset.range 256, ((t.dnsSplitHashTable (UInt8.ofNat i)).length : ℤ) := by
      rw [entries, Nat.cast_sum]
    have hcast' : (entries (fun i => (t.dnsSplitHashTable i).tail) : ℤ) =
        ∑ i ∈ Finset.range 256, ((t.dnsSplitHashTable (UInt8.ofNat i)).tail.length : ℤ) := by
      rw [entries, Nat.cast_sum]
    have hfold := foldl_countDown t.dnsSplitHashTable t.cDnsSplitNum 256 (by omega)
    have hless : entries (fun i => (t.dnsSplitHashTable i).tail) <
        entries t.dnsSplitHashTable := entries_tail_lt (by omega)
    have hnew : (List.range 256).foldl (fun n i =>
          if (t.dnsSplitHashTable (UInt8.ofNat i)).isEmpty then n else countDown n)
        t.cDnsSplitNum = entries (fun i => (t.dnsSplitHashTable i).tail) := by
      omega
    refine ⟨⟨?_, ?_, fun i e he => h.hashed i e (List.mem_of_mem_tail he)⟩, ?_⟩
    · dsimp only
      rw [hnew]
    · dsimp only
      omega
    · dsimp only
      omega
  · next hroom => exact ⟨h, by omega⟩

theorem pending_addEntry (h : Pending t) (hroom : t.cDnsSplitNum < 1500) (e : DnsSplitHash) :
    Pending (t.addEntry e) := by
  have hcount := h.count
  have hentries := entries_update t.dnsSplitHashTable e.dnsId.toUInt8
    (e :: t.dnsSplitHashTable e.dnsId.toUInt8)
  rw [List.length_cons] at hentries
  refine ⟨?_, ?_, ?_⟩
  · simp only [Tables.addEntry]
    omega
  · simp only [Tables.addEntry]
    omega
  · intro i e' he'
    simp only [Tables.addEntry] at he'
    rcases eq_or_ne i e.dnsId.toUInt8 with rfl | hne
    · rw [Function.update_self] at he'
      rcases List.mem_cons.mp he' with rfl | he'
      · rfl
      · exact h.hashed _ e' he'
    · rw [Function.update_of_ne hne] at he'
      exact h.hashed i e' he'

theorem length_changeFirst {l : List DnsSplitHash} {f : DnsSplitHash → Option DnsSplitHash}
    (he : l.find? (waitsFor p) = some e) :
    (changeFirst p f l).length + 1 = l.length + (f e).toList.length := by
  fun_induction changeFirst p f l with
  | case1 => cases he
  | case2 x l hx =>
    rw [List.find?_cons_of_pos hx, Option.some.injEq] at he
    rw [he, List.length_append, List.length_cons]
    omega
  | case3 x l hx ih =>
    rw [List.find?_cons_of_neg hx] at he
    rw [List.length_cons, List.length_cons, ih he]
    omega

theorem hashed_changeFirst (h : Pending t) {f : DnsSplitHash → Option DnsSplitHash}
    (hf : ∀ e e', f e = some e' → e'.dnsId = e.dnsId) (i : UInt8) :
    ∀ e ∈ t.changeFirst p f i, e.dnsId.toUInt8 = i := by
  intro e' he'
  rw [Tables.changeFirst] at he'
  rcases eq_or_ne i p.dnsId.toUInt8 with rfl | hne
  · rw [Function.update_self] at he'
    rcases mem_changeFirst he' with he | ⟨e, he, hfe⟩
    · exact h.hashed _ e' he
    · rw [hf e e' hfe]
      exact h.hashed _ e he
  · rw [Function.update_of_ne hne] at he'
    exact h.hashed i e' he'

theorem pending_translateQuery (h : Pending t) (luck : Luck) :
    Pending (translateQuery t p luck).1 := by
  obtain ⟨hroom, hlt⟩ := pending_makeRoom h
  rw [translateQuery]
  split
  · exact h
  · split
    · exact h
    · split
      · exact pending_addEntry hroom hlt _
      · exact hroom

theorem pending_translateReply (h : Pending t) (luck : Luck) :
    Pending (translateReply t p luck).1 := by
  have hcount := h.count
  have hbound := h.bound
  rw [translateReply]
  split
  · exact h
  · next e he =>
    have hchanged : ∀ (f : DnsSplitHash → Option DnsSplitHash) (k : ℕ), (f e).toList.length = k →
        entries (t.changeFirst p f) + 1 = entries t.dnsSplitHashTable + k := by
      intro f k hk
      have hlen := length_changeFirst (f := f) he
      have hentries := entries_update t.dnsSplitHashTable p.dnsId.toUInt8
        (changeFirst p f (t.dnsSplitHashTable p.dnsId.toUInt8))
      rw [← Tables.changeFirst] at hentries
      omega
    split
    · have hone := hchanged (fun _ => none) 0 rfl
      have hnum : countDown t.cDnsSplitNum = t.cDnsSplitNum - 1 := if_pos (by omega)
      refine ⟨?_, ?_, hashed_changeFirst h fun e e' hf => ?_⟩
      · dsimp only
        omega
      · dsimp only
        omega
      · exact absurd hf.symm (Option.some_ne_none e')
    · have hsame := hchanged (fun e => some e.countError) 1 rfl
      refine ⟨?_, hbound, hashed_changeFirst h fun e e' hf => ?_⟩
      · dsimp only
        omega
      · rw [← Option.some.inj hf]
        rfl

theorem pending_exec (h : Pending t) (e : Event) : Pending (exec t e) := by
  cases e with
  | packet p luck =>
    simp only [exec]
    by_cases hreply : IsReply p
    · rw [translate_of_isReply hreply]
      split
      · exact h
      · exact pending_translateReply h luck
    · obtain heq | heq := translate_of_not_isReply t luck hreply
      · rw [heq]
        exact h
      · rw [heq]
        exact pending_translateQuery h luck
  | addDnsSpl entry => exact ⟨h.count, h.bound, h.hashed⟩
  | rmDnsSpl name => exact ⟨h.count, h.bound, h.hashed⟩

end Steps

/-- Over any run of queries, replies and changes of the list, the counter is the number of
entries, it stays at the limit, and each entry is in the list of its id. -/
theorem pending_run (events : List Event) : Pending (events.foldl exec ⟨[], fun _ => [], 0⟩) :=
  foldl_invariant (fun _ e h => pending_exec h e) (pending_initial [])

end SplitDnsPending
