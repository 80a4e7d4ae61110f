import Mathlib.Algebra.BigOperators.Fin
import Mathlib.Algebra.Order.BigOperators.Group.Finset
import RouterFirmware.IpBalance

/-! # The table of IP based balancing

What holds of the 256 lists while time does not go back: the counter is the number of entries and
stays at the limit, a list is ordered by use, so its head is what the list used least recently.
Making room looks at heads only; it takes heads that are out of date or else the least recently
used entry of the whole table.
-/
namespace BalanceTable

open BucketTable GuardedRun IpBalance Multipath
open scoped BigOperators

def size (head : Fin 256 → List IpBalanceInfo) : ℕ := ∑ i, (head i).length

/-- The entries stand in order of use. -/
def InOrder (l : List IpBalanceInfo) : Prop := l.Pairwise fun e e' => e.lastuse ≤ e'.lastuse

structure Sound (now : UInt64) (bal : Heads) : Prop where
  count : bal.ipSecNum = size bal.head
  bound : bal.ipSecNum ≤ ipNumData
  hashed : ∀ i, ∀ entry ∈ bal.head i, mask entry.srcip = i
  sorted : ∀ i, InOrder (bal.head i)
  past : ∀ i, ∀ entry ∈ bal.head i, entry.lastuse ≤ now

/-- An entry that has not been used for `TrashPeriod`. -/
def Expired (jiffies : UInt64) (entry : IpBalanceInfo) : Prop :=
  (jiffies - entry.lastuse) / hz > trashPeriod

/-- `ipbalance_struct_check` for a source without sessions. -/
def forget (bal : Heads) (ip : UInt32) : Heads :=
  let kept := (bal.head (mask ip)).filter fun entry => entry.srcip ≠ ip
  ⟨Function.update bal.head (mask ip) kept,
    bal.ipSecNum - ((bal.head (mask ip)).length - kept.length)⟩

section Size

variable {head : Fin 256 → List IpBalanceInfo} {i : Fin 256} {l : List IpBalanceInfo}

theorem size_update (head : Fin 256 → List IpBalanceInfo) (i : Fin 256)
    (l : List IpBalanceInfo) :
    size (Function.update head i l) + (head i).length = size head + l.length := by
  have hrest : ∑ j ∈ Finset.univ.erase i, (Function.update head i l j).length =
      ∑ j ∈ Finset.univ.erase i, (head j).length := by
    apply Finset.sum_congr rfl
    intro j hj
    simp [Finset.ne_of_mem_erase hj]
  have hnew := Finset.add_sum_erase Finset.univ (fun j => (Function.update head i l j).length)
    (Finset.mem_univ i)
  have hold := Finset.add_sum_erase Finset.univ (fun j => (head j).length) (Finset.mem_univ i)
  simp only [Function.update_self] at hnew
  simp only [size]
  omega

theorem length_le_size (head : Fin 256 → List IpBalanceInfo) (i : Fin 256) :
    (head i).length ≤ size head :=
  Finset.single_le_sum (f := fun j => (head j).length) (fun _ _ => Nat.zero_le _)
    (Finset.mem_univ i)

theorem size_pos_iff : 0 < size head ↔ ∃ i, head i ≠ [] := by
  simp [size, Finset.sum_pos_iff, List.length_pos_iff]

end Size

section Soundness

variable {now now' jiffies : UInt64} {bal : Heads} {i : Fin 256} {l : List IpBalanceInfo}

theorem sound_initial : Sound now Heads.initial where
  count := by simp [Heads.initial, size]
  bound := Nat.zero_le _
  hashed i entry h := by cases h
  sorted i := List.Pairwise.nil
  past i entry h := by cases h

theorem Sound.update (h : Sound now bal) (hle : now ≤ now') {n : ℕ}
    (hcount : n + (bal.head i).length = bal.ipSecNum + l.length) (hn : n ≤ ipNumData)
    (hhashed : ∀ entry ∈ l, mask entry.srcip = i) (hsorted : InOrder l)
    (hpast : ∀ entry ∈ l, entry.lastuse ≤ now') :
    Sound now' ⟨Function.update bal.head i l, n⟩ where
  count := by
    have hsize := size_update bal.head i l
    have hold := h.count
    dsimp only
    omega
  bound := hn
  hashed j := by
    rcases eq_or_ne j i with rfl | hne
    · simpa using hhashed
    · simpa [hne] using h.hashed j
  sorted j := by
    rcases eq_or_ne j i with rfl | hne
    · simpa using hsorted
    · simpa [hne] using h.sorted j
  past j := by
    rcases eq_or_ne j i with rfl | hne
    · simpa using hpast
    · simpa [hne] using fun entry hentry => UInt64.le_trans (h.past j entry hentry) hle

theorem Sound.update_sublist (h : Sound now bal) (hle : now ≤ now')
    (hl : l.Sublist (bal.head i)) :
    Sound now' ⟨Function.update bal.head i l,
      bal.ipSecNum - ((bal.head i).length - l.length)⟩ := by
  have hlength := hl.length_le
  have hbound := h.bound
  have hcount : (bal.head i).length ≤ bal.ipSecNum := h.count ▸ length_le_size bal.head i
  apply h.update hle
  · omega
  · omega
  · exact fun entry hentry => h.hashed i entry (hl.subset hentry)
  · exact (h.sorted i).sublist hl
  · exact fun entry hentry => UInt64.le_trans (h.past i entry (hl.subset hentry)) hle

/-- Entries of one list are taken out and one of the list goes to its end with the time. -/
theorem Sound.update_concat (h : Sound now bal) (hle : now ≤ jiffies) {n : ℕ}
    {entry : IpBalanceInfo} (hl : l.Sublist (bal.head i))
    (hcount : n + (bal.head i).length = bal.ipSecNum + l.length + 1) (hn : n ≤ ipNumData)
    (hmask : mask entry.srcip = i) (huse : entry.lastuse = jiffies) :
    Sound jiffies ⟨Function.update bal.head i (l ++ [entry]), n⟩ := by
  have hpast : ∀ e ∈ l, e.lastuse ≤ jiffies := fun e he =>
    UInt64.le_trans (h.past i e (hl.subset he)) hle
  apply h.update hle
  · simp only [List.length_append, List.length_singleton]
    omega
  · exact hn
  · intro e he
    rcases List.mem_append.mp he with he | he
    · exact h.hashed i e (hl.subset he)
    · rwa [List.mem_singleton.mp he]
  · refine List.pairwise_append.mpr ⟨(h.sorted i).sublist hl, by simp, ?_⟩
    intro e he e' he'
    rw [List.mem_singleton.mp he', huse]
    exact hpast e he
  · intro e he
    rcases List.mem_append.mp he with he | he
    · exact hpast e he
    · rw [List.mem_singleton.mp he, huse]
      exact UInt64.le_rfl

theorem Sound.mono (h : Sound now bal) (hle : now ≤ now') : Sound now' bal :=
  { h with past := fun i entry hentry => UInt64.le_trans (h.past i entry hentry) hle }

theorem sound_forget (h : Sound now bal) (ip : UInt32) : Sound now (forget bal ip) :=
  h.update_sublist UInt64.le_rfl List.filter_sublist

end Soundness

/-! ## The search -/

section Search

variable {now jiffies : UInt64} {bal : Heads} {inIp : UInt32} {res : FibResult}

/-- A search takes entries out, and may put one back at the end. -/
theorem searchList_cases (jiffies : UInt64) (key : Key) (devices : List UInt32)
    (l : List IpBalanceInfo) : ∃ kept, kept.Sublist l ∧
      (searchList jiffies key devices l = (kept, l.length - kept.length, none) ∨
        ∃ temp ∈ l, ∃ count, kept.length < l.length ∧
          searchList jiffies key devices l = (kept ++ [{ temp with lastuse := jiffies }],
            l.length - kept.length - 1, some count)) := by
  induction l with
  | nil => exact ⟨[], List.Sublist.refl _, .inl rfl⟩
  | cons temp rest ih =>
    obtain ⟨kept, hkept, hcases⟩ := ih
    have hlength := hkept.length_le
    by_cases hkey : layout.key temp = key
    · cases hcount : devices.idxOf? temp.out with
      | some count =>
        refine ⟨rest, List.sublist_cons_self _ _, .inr ⟨temp, List.mem_cons_self, count, ?_⟩⟩
        simp [searchList, hkey, hcount]
      | none =>
        refine ⟨kept, hkept.cons _, ?_⟩
        rcases hcases with hnone | ⟨found, hmem, count, hlt, hsome⟩
        · left
          simp only [searchList, if_pos hkey, hcount, hnone, List.length_cons]
          congr 2
          omega
        · refine .inr ⟨found, List.mem_cons_of_mem _ hmem, count, ?_, ?_⟩
          · simp only [List.length_cons]
            omega
          · simp only [searchList, if_pos hkey, hcount, hsome, List.length_cons]
            congr 2
            omega
    · refine ⟨temp :: kept, hkept.cons_cons _, ?_⟩
      rcases hcases with hnone | ⟨found, hmem, count, hlt, hsome⟩
      · left
        simp [searchList, hkey, hnone]
      · refine .inr ⟨found, List.mem_cons_of_mem _ hmem, count, by simpa using hlt, ?_⟩
        simp [searchList, hkey, hsome]

theorem sound_searchIpOut (h : Sound now bal) (hle : now ≤ jiffies) :
    Sound jiffies (searchIpOut jiffies bal inIp res).1 := by
  have hbound := h.bound
  have hcount : (bal.head (mask inIp)).length ≤ bal.ipSecNum :=
    h.count ▸ length_le_size bal.head _
  obtain ⟨kept, hkept, hnone | ⟨temp, hmem, count, hlt, hsome⟩⟩ :=
    searchList_cases jiffies (inIp, res.table) res.fi.devices (bal.head (mask inIp))
  · simp only [searchIpOut, hnone]
    exact h.update_sublist hle hkept
  · simp only [searchIpOut, hsome]
    apply h.update_concat hle hkept
    · omega
    · omega
    · exact h.hashed _ temp hmem
    · rfl

end Search

/-! ## Making room -/

section Room

variable {now jiffies : UInt64} {bal : Heads} {done l : List (Fin 256)} {count : Fin 256}
  {acc : Heads × Option (Fin 256)} {inIp : UInt32} {res : FibResult}

/-- The loop over the heads has visited the lists `done`: they may have lost heads that are out of
date, and of the heads that are not, `old` has the one used least recently. -/
structure Aged (jiffies : UInt64) (bal : Heads) (done : List (Fin 256))
    (acc : Heads × Option (Fin 256)) : Prop where
  sound : Sound jiffies acc.1
  taken : ∀ i, ∃ taken, bal.head i = taken ++ acc.1.head i ∧ ∀ e ∈ taken, Expired jiffies e
  ahead : ∀ i ∉ done, acc.1.head i = bal.head i
  old : ∀ old, acc.2 = some old →
    old ∈ done ∧ acc.1.head old = bal.head old ∧ acc.1.head old ≠ []
  least : ∀ i ∈ done, acc.1.head i = bal.head i → ∀ e, (bal.head i).head? = some e →
    ∃ old e', acc.2 = some old ∧ (bal.head old).head? = some e' ∧ e'.lastuse ≤ e.lastuse

theorem aged_start (h : Sound now bal) (hle : now ≤ jiffies) : Aged jiffies bal [] (bal, none) where
  sound := h.mono hle
  taken i := ⟨[], rfl, by simp⟩
  ahead i _ := rfl
  old old h := by cases h
  least i h := by cases h

/-- A head that stays is compared with the oldest one so far. -/
theorem Aged.choose (h : Aged jiffies bal done acc) (hcount : count ∉ done)
    {entry : IpBalanceInfo} {rest : List IpBalanceInfo}
    (hhead : acc.1.head count = entry :: rest) {old : Option (Fin 256)}
    (hold : old = some count ∨ old = acc.2)
    (hle : ∀ old' e', acc.2 = some old' → (bal.head old').head? = some e' → old = some count →
      entry.lastuse ≤ e'.lastuse)
    (hge : old = acc.2 → ∃ old' e', acc.2 = some old' ∧ (bal.head old').head? = some e' ∧
      e'.lastuse ≤ entry.lastuse) :
    Aged jiffies bal (done ++ [count]) (acc.1, old) where
  sound := h.sound
  taken := h.taken
  ahead i hi := h.ahead i fun hmem => hi (List.mem_append_left _ hmem)
  old old' heq := by
    rcases hold with rfl | rfl
    · cases heq
      exact ⟨by simp, h.ahead count hcount, by simp [hhead]⟩
    · obtain ⟨hmem, hrest⟩ := h.old old' heq
      exact ⟨List.mem_append_left _ hmem, hrest⟩
  least i hi heq e he := by
    have hfirst : (bal.head count).head? = some entry := by
      rw [← h.ahead count hcount, hhead, List.head?_cons]
    rcases List.mem_append.mp hi with hi | hi
    · obtain ⟨old', e', hacc, he', huse⟩ := h.least i hi heq e he
      rcases hold with rfl | rfl
      · exact ⟨count, entry, rfl, hfirst, UInt64.le_trans (hle old' e' hacc he' rfl) huse⟩
      · exact ⟨old', e', hacc, he', huse⟩
    · obtain rfl := List.mem_singleton.mp hi
      obtain rfl : entry = e := Option.some.inj (hfirst.symm.trans he)
      rcases hold with rfl | rfl
      · exact ⟨i, entry, rfl, hfirst, UInt64.le_rfl⟩
      · exact hge rfl

theorem Aged.skip (h : Aged jiffies bal done acc) (hnil : bal.head count = []) :
    Aged jiffies bal (done ++ [count]) acc where
  sound := h.sound
  taken := h.taken
  ahead i hi := h.ahead i fun hmem => hi (List.mem_append_left _ hmem)
  old old heq := ⟨List.mem_append_left _ (h.old old heq).1, (h.old old heq).2⟩
  least i hi heq e he := by
    rcases List.mem_append.mp hi with hi | hi
    · exact h.least i hi heq e he
    · obtain rfl := List.mem_singleton.mp hi
      simp [hnil] at he

/-- An expired head is taken off its list. -/
theorem Aged.expire (h : Aged jiffies bal done acc) (hcount : count ∉ done)
    {entry : IpBalanceInfo} {rest : List IpBalanceInfo}
    (hhead : acc.1.head count = entry :: rest) (hexpired : Expired jiffies entry) :
    Aged jiffies bal (done ++ [count])
      (⟨Function.update acc.1.head count rest, acc.1.ipSecNum - 1⟩, acc.2) where
  sound := by
    have hsub : rest.Sublist (acc.1.head count) := hhead ▸ List.sublist_cons_self _ _
    have hlength : (acc.1.head count).length - rest.length = 1 := by simp [hhead]
    have hsound := h.sound.update_sublist UInt64.le_rfl hsub
    rwa [hlength] at hsound
  taken i := by
    rcases eq_or_ne i count with rfl | hi
    · refine ⟨[entry], by simp [← h.ahead i hcount, hhead], ?_⟩
      simpa using hexpired
    · simpa [hi] using h.taken i
  ahead i hi := by
    obtain ⟨hi, hne⟩ : i ∉ done ∧ i ≠ count := by simpa using hi
    simpa [hne] using h.ahead i hi
  old old heq := by
    obtain ⟨hmem, hrest⟩ := h.old old heq
    have hne : old ≠ count := fun heq => hcount (heq ▸ hmem)
    refine ⟨List.mem_append_left _ hmem, ?_⟩
    simpa [hne] using hrest
  least i hi heq e he := by
    rcases List.mem_append.mp hi with hi | hi
    · have hne : i ≠ count := fun heq => hcount (heq ▸ hi)
      simp only [Function.update_of_ne hne] at heq
      exact h.least i hi heq e he
    · obtain rfl := List.mem_singleton.mp hi
      simp [← h.ahead i hcount, hhead] at heq

theorem aged_trashHead (h : Aged jiffies bal done acc) (hcount : count ∉ done) :
    Aged jiffies bal (done ++ [count]) (trashHead jiffies acc count) := by
  have hsame := h.ahead count hcount
  unfold trashHead
  split
  · next hhead => exact h.skip (hsame ▸ hhead)
  · next entry rest hhead =>
    split
    · next hexpired => exact h.expire hcount hhead hexpired
    · split
      · next hnone =>
        apply h.choose hcount hhead (.inl rfl)
        · intro old' e' heq
          simp [hnone] at heq
        · intro heq
          simp [hnone] at heq
      · next old hsome =>
        obtain ⟨_, hold, hne⟩ := h.old old hsome
        obtain ⟨e', rest', hcons⟩ := List.exists_cons_of_ne_nil hne
        have hfirst : (bal.head old).head? = some e' := by simp [← hold, hcons]
        have huse : (acc.1.head old).head?.elim 0 IpBalanceInfo.lastuse = e'.lastuse := by
          simp [hcons]
        rw [huse]
        split
        · next hlt =>
          apply h.choose hcount hhead (.inl rfl)
          · intro old' e'' heq he'' _
            obtain rfl : old = old' := Option.some.inj (hsome.symm.trans heq)
            obtain rfl : e' = e'' := Option.some.inj (hfirst.symm.trans he'')
            exact UInt64.le_of_lt hlt
          · intro heq
            have hin := (h.old count heq.symm).1
            exact absurd hin hcount
        · next hlt =>
          apply h.choose hcount hhead (.inr rfl)
          · intro old' e'' heq he'' hin
            exact absurd (h.old count hin).1 hcount
          · intro _
            exact ⟨old, e', hsome, hfirst, UInt64.not_lt.mp hlt⟩

theorem aged_foldl (h : Aged jiffies bal done acc) (hl : (done ++ l).Nodup) :
    Aged jiffies bal (done ++ l) (l.foldl (trashHead jiffies) acc) := by
  induction l generalizing done acc with
  | nil => simpa using h
  | cons count l ih =>
    have hcount : count ∉ done := fun hmem =>
      (List.nodup_append.mp hl).2.2 count hmem count List.mem_cons_self rfl
    have hsplit : done ++ count :: l = (done ++ [count]) ++ l := by simp
    rw [hsplit] at hl ⊢
    exact ih (aged_trashHead h hcount) hl

theorem aged_all (h : Sound now bal) (hle : now ≤ jiffies) : Aged jiffies bal (List.finRange 256)
    ((List.finRange 256).foldl (trashHead jiffies) (bal, none)) :=
  aged_foldl (aged_start h hle) (List.nodup_finRange 256)

/-- A table that is still full after the loop has lost nothing, and the oldest head is the least
recently used entry of all. -/
theorem Aged.full (h : Aged jiffies bal (List.finRange 256) acc) (hbal : Sound now bal)
    (hfull : acc.1.ipSecNum ≥ ipNumData) : acc.1.head = bal.head ∧
      ∃ old entry rest, acc.2 = some old ∧ bal.head old = entry :: rest ∧
        ∀ i, ∀ e ∈ bal.head i, entry.lastuse ≤ e.lastuse := by
  have hlength (i : Fin 256) : (acc.1.head i).length ≤ (bal.head i).length := by
    obtain ⟨taken, heq, -⟩ := h.taken i
    simp [heq]
  have hsize : size acc.1.head = size bal.head := by
    have hbound := hbal.bound
    have hcount := hbal.count
    have hcount' := h.sound.count
    have hle : size acc.1.head ≤ size bal.head := Finset.sum_le_sum fun i _ => hlength i
    omega
  have hkept (i : Fin 256) : acc.1.head i = bal.head i := by
    have heach := (Finset.sum_eq_sum_iff_of_le fun i _ => hlength i).mp hsize i (Finset.mem_univ i)
    obtain ⟨taken, heq, -⟩ := h.taken i
    have hnil : taken = [] := by simpa [heq] using heach
    simpa [hnil] using heq.symm
  obtain ⟨i, hi⟩ : ∃ i, bal.head i ≠ [] := by
    apply size_pos_iff.mp
    have hcount' := h.sound.count
    have hpos : 0 < ipNumData := by decide
    omega
  -- Every list that has a head leads to the same oldest one.
  have hleast (j : Fin 256) (e : IpBalanceInfo) (he : (bal.head j).head? = some e) :=
    h.least j (List.mem_finRange j) (hkept j) e he
  obtain ⟨first, rest, hcons⟩ := List.exists_cons_of_ne_nil hi
  obtain ⟨old, entry, hold, hentry, -⟩ := hleast i first (by simp [hcons])
  obtain ⟨rest, hrest⟩ := List.head?_eq_some_iff.mp hentry
  refine ⟨funext hkept, old, entry, rest, hold, hrest, ?_⟩
  intro j e he
  obtain ⟨head, tail, hj⟩ := List.exists_cons_of_ne_nil (List.ne_nil_of_mem he)
  obtain ⟨old', entry', hold', hentry', huse⟩ := hleast j head (by simp [hj])
  obtain rfl : old = old' := Option.some.inj (hold.symm.trans hold')
  obtain rfl : entry = entry' := Option.some.inj (hentry.symm.trans hentry')
  refine UInt64.le_trans huse ?_
  have hsorted := hbal.sorted j
  rw [hj] at he hsorted
  rcases List.mem_cons.mp he with rfl | he
  · exact UInt64.le_rfl
  · exact List.rel_of_pairwise_cons hsorted he

/-- Below the limit no room has to be made; at the limit it is made. -/
theorem makeRoom_spec (h : Sound now bal) (hle : now ≤ jiffies) :
    Sound jiffies (makeRoom jiffies bal) ∧ (makeRoom jiffies bal).ipSecNum < ipNumData ∧
      ∀ i, ∃ taken, bal.head i = taken ++ (makeRoom jiffies bal).head i ∧ ∀ e ∈ taken,
        Expired jiffies e ∨ ∀ j, ∀ e' ∈ bal.head j, e.lastuse ≤ e'.lastuse := by
  have haged := aged_all h hle
  unfold makeRoom
  split
  · dsimp only
    split
    · next hfull =>
      obtain ⟨hkept, old, entry, rest, hold, hcons, hleast⟩ := haged.full h hfull
      have hsub : rest.Sublist ((List.foldl (trashHead jiffies) (bal, none)
          (List.finRange 256)).1.head old) := by
        rw [hkept, hcons]
        exact List.sublist_cons_self _ _
      have hsound := haged.sound.update_sublist UInt64.le_rfl hsub
      have hone : ((List.foldl (trashHead jiffies) (bal, none)
          (List.finRange 256)).1.head old).length - rest.length = 1 := by
        simp [hkept, hcons]
      have hbound := haged.sound.bound
      have hpos : 0 < ipNumData := by decide
      rw [hone] at hsound
      simp only [hold, hkept, hcons, List.tail_cons]
      rw [hkept] at hsound
      refine ⟨hsound, by omega, ?_⟩
      intro i
      rcases eq_or_ne i old with rfl | hne
      · exact ⟨[entry], by simp [hcons], by simpa using .inr hleast⟩
      · exact ⟨[], by simp [hne], by simp⟩
    · next hroom =>
      refine ⟨haged.sound, by omega, ?_⟩
      intro i
      obtain ⟨taken, heq, htaken⟩ := haged.taken i
      exact ⟨taken, heq, fun e he => .inl (htaken e he)⟩
  · next hroom =>
    exact ⟨h.mono hle, by omega, fun i => ⟨[], rfl, by simp⟩⟩

theorem sound_ipBalanceCreateNew {kmalloc : Bool} (h : Sound now bal) (hle : now ≤ jiffies) :
    Sound jiffies (ipBalanceCreateNew jiffies kmalloc bal inIp res) := by
  obtain ⟨hroom, hlt, -⟩ := makeRoom_spec h hle
  unfold ipBalanceCreateNew
  split
  · apply hroom.update_concat UInt64.le_rfl (List.Sublist.refl _)
    · dsimp only [ipBalanceInsert]
      omega
    · exact hlt
    · rfl
    · rfl
  · exact hroom

/-! ## Keys -/

theorem wellFormed_forget (h : layout.WellFormed bal.head) (ip : UInt32) :
    layout.WellFormed (forget bal ip).head :=
  Layout.wellFormed_of_sublist h (update_sublist List.filter_sublist)

end Room

end BalanceTable
