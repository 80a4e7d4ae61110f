import Mathlib.Data.List.TakeWhile
import RouterFirmware.BootmemRuns

/-! # Named blocks

The table of named blocks is a map from names, cut to one character less than the name array,
to base addresses. A name array is compared as far as the name was stored, a size of `0` marks
a descriptor as not in use, and the three conventions agree over every history of the table.
-/
namespace Bootmem

open BlockPartition

/-! ## Strings in name arrays -/

def storedName (b : NamedBlockDesc) : List UInt8 := b.name.takeWhile (· ≠ 0)

theorem takeWhile_eq (s : List UInt8) : s.takeWhile (· ≠ 0) =
    if s.headD 0 = 0 then [] else s.headD 0 :: s.tail.takeWhile (· ≠ 0) := by
  cases s with
  | nil => simp
  | cons c s =>
    by_cases hc : c = 0
    · simp [hc]
    · simp [hc]

/-- `strncmp` compares the strings as far as the count goes. -/
theorem strncmp_eq_zero {s t : List UInt8} {n : ℕ} : strncmp s t n = 0 ↔
    (s.takeWhile (· ≠ 0)).take n = (t.takeWhile (· ≠ 0)).take n := by
  induction n generalizing s t with
  | zero => simp [strncmp]
  | succ n ih =>
    rw [strncmp, takeWhile_eq s, takeWhile_eq t]
    by_cases heq : s.headD 0 = t.headD 0
    · rw [if_neg (not_not.mpr heq), ← heq]
      by_cases hzero : s.headD 0 = 0
      · simp only [if_pos hzero]
      · simp only [if_neg hzero, List.take_succ_cons, List.cons.injEq, true_and]
        exact ih
    · have hdiff : ((s.headD 0).toNat : ℤ) - (t.headD 0).toNat ≠ 0 := by
        intro h
        apply heq
        apply UInt8.toNat_inj.mp
        omega
      rw [if_pos heq]
      apply iff_of_false hdiff
      by_cases hs : s.headD 0 = 0
      · have ht : t.headD 0 ≠ 0 := fun ht => heq (hs.trans ht.symm)
        simp only [if_pos hs, if_neg ht, List.take_nil, List.take_succ_cons]
        exact (List.cons_ne_nil _ _).symm
      · by_cases ht : t.headD 0 = 0
        · simp only [if_neg hs, if_pos ht, List.take_nil, List.take_succ_cons]
          exact List.cons_ne_nil _ _
        · simp only [if_neg hs, if_neg ht, List.take_succ_cons, List.cons.injEq]
          exact fun h => heq h.1

theorem takeWhile_eq_take {l : List UInt8} {k : ℕ} (hall : ∀ x ∈ l.take k, x ≠ 0)
    (hstop : l[k]? = some 0) : l.takeWhile (· ≠ 0) = l.take k := by
  have hlt : k < l.length := (List.getElem?_eq_some_iff.mp hstop).1
  have hsplit : l = l.take k ++ 0 :: l.drop (k + 1) := by
    have hk : l.drop k = 0 :: l.drop (k + 1) := by
      rw [List.drop_eq_getElem_cons hlt, (List.getElem?_eq_some_iff.mp hstop).2]
    rw [← hk, List.take_append_drop]
  conv_lhs => rw [hsplit]
  rw [List.takeWhile_append_of_pos]
  · simp
  · simpa using hall

theorem take_strncpy (dst src : List UInt8) {k n : ℕ} (hk : k ≤ n) (hs : k ≤ src.length) :
    (strncpy dst src n).take k = src.take k := by
  have hlen : k ≤ (src.take n).length := by
    rw [List.length_take]
    omega
  rw [strncpy, List.append_assoc, List.take_append_of_le_length hlen, List.take_take,
    min_eq_left hk]

theorem getElem?_strncpy (dst src : List UInt8) {n : ℕ} (hs : src.length < n) :
    (strncpy dst src n)[src.length]? = some 0 := by
  rw [strncpy, List.take_of_length_le hs.le, List.append_assoc, List.getElem?_append_right le_rfl,
    Nat.sub_self, List.getElem?_append_left (by rw [List.length_replicate]; omega),
    List.getElem?_replicate_of_lt (by omega)]

theorem length_strncpy (dst src : List UInt8) (n : ℕ) : n ≤ (strncpy dst src n).length := by
  simp only [strncpy, List.length_append, List.length_take, List.length_replicate]
  omega

/-- A name is stored up to one character less than the array is long. -/
theorem storedName_nameBlock {d : BootmemDesc} (hlen : 2 ≤ d.namedBlockNameLen)
    (b : NamedBlockDesc) (addr size : ℕ) (name : CString) :
    storedName (nameBlock d b addr size name) =
      name.chars.take (d.namedBlockNameLen - 1).toNat := by
  obtain ⟨n, hn⟩ : ∃ n, (d.namedBlockNameLen - 1).toNat = n := ⟨_, rfl⟩
  have hn' : d.namedBlockNameLen.toNat = n + 1 := by
    have h2 : 2 ≤ d.namedBlockNameLen.toNat := hlen
    rw [UInt32.toNat_sub_of_le _ _ (UInt32.le_trans (by decide) hlen)] at hn
    have h1 : (1 : UInt32).toNat = 1 := rfl
    omega
  simp only [storedName, nameBlock, hn, hn']
  have htake : ((strncpy b.name name.chars (n + 1)).set n 0).take (min n name.chars.length) =
      name.chars.take n := by
    rw [List.take_set_of_le (by omega), take_strncpy _ _ (by omega) (by omega)]
    rcases le_total n name.chars.length with hle | hle
    · rw [min_eq_left hle]
    · rw [min_eq_right hle, List.take_of_length_le hle, List.take_length]
  rw [takeWhile_eq_take _ _, htake]
  · intro x hx
    rw [htake] at hx
    exact fun hzero => name.noNul (hzero ▸ List.mem_of_mem_take hx)
  · rcases le_or_gt n name.chars.length with hle | hlt
    · rw [min_eq_left hle, List.getElem?_set_self]
      exact length_strncpy b.name name.chars (n + 1)
    · rw [min_eq_right hlt.le, List.getElem?_set_ne (by omega)]
      exact getElem?_strncpy _ _ (by omega)

/-! ## The history of a name -/

/-- The name as the table can tell it from others. -/
def CString.key (n : ℕ) (name : CString) : List UInt8 := name.chars.take n

/-- A call that returned `addr` for the name. -/
def Allocates (n : ℕ) (name : CString) (addr : ℕ) (e : Call × ℕ) : Prop :=
  ∃ r other, e = (.namedBlockAlloc r (some other), addr) ∧ addr ≠ 0 ∧ other.key n = name.key n

def Frees (n : ℕ) (name : CString) (e : Call × ℕ) : Prop :=
  ∃ other res, e = (.namedBlockFree (some other), res) ∧ other.key n = name.key n

/-- An allocation of the name returned `addr`, and the name was not freed since. -/
def Standing (n : ℕ) (log : List (Call × ℕ)) (name : CString) (addr : ℕ) : Prop :=
  ∃ before e after, log = before ++ e :: after ∧ Allocates n name addr e ∧
    ∀ f ∈ after, ¬ Frees n name f

theorem standing_snoc {n : ℕ} {log : List (Call × ℕ)} {e : Call × ℕ} {name : CString}
    {addr : ℕ} : Standing n (log ++ [e]) name addr ↔
      Allocates n name addr e ∨ Standing n log name addr ∧ ¬ Frees n name e := by
  constructor
  · rintro ⟨before, x, after, hlog, hx, hafter⟩
    rcases after.eq_nil_or_concat with rfl | ⟨after, y, rfl⟩
    · obtain ⟨-, rfl⟩ := List.append_singleton_inj.mp hlog
      exact Or.inl hx
    · rw [List.concat_eq_append] at hlog hafter
      rw [← List.cons_append, ← List.append_assoc] at hlog
      obtain ⟨rfl, rfl⟩ := List.append_singleton_inj.mp hlog
      exact Or.inr ⟨⟨before, x, after, rfl, hx, fun f hf => hafter f (by simp [hf])⟩,
        hafter _ (by simp)⟩
  · rintro (he | ⟨⟨before, x, after, rfl, hx, hafter⟩, he⟩)
    · exact ⟨log, e, [], rfl, he, by simp⟩
    · refine ⟨before, x, after ++ [e], by simp, hx, ?_⟩
      intro f hf
      rcases List.mem_append.mp hf with hf | hf
      · exact hafter f hf
      · rw [List.mem_singleton.mp hf]
        exact he

/-! ## The table -/

/-- Descriptor `i` is `b` and in use. -/
def InUse (table : List NamedBlockDesc) (i : ℕ) (b : NamedBlockDesc) : Prop :=
  table[i]? = some b ∧ b.size ≠ 0

/-- The table is the map of the standing names, each in one descriptor. -/
structure Registered (n : ℕ) (table : List NamedBlockDesc) (log : List (Call × ℕ)) : Prop where
  short : ∀ i b, InUse table i b → (storedName b).length ≤ n
  unique : ∀ i j b c, InUse table i b → InUse table j c → storedName b = storedName c → i = j
  agrees : ∀ name addr, Standing n log name addr ↔
    ∃ i b, InUse table i b ∧ storedName b = name.key n ∧ b.baseAddr = addr

theorem inUse_set {table : List NamedBlockDesc} {i j : ℕ} {b c : NamedBlockDesc}
    (hi : i < table.length) : InUse (table.set i b) j c ↔
      j = i ∧ c = b ∧ b.size ≠ 0 ∨ j ≠ i ∧ InUse table j c := by
  by_cases hj : j = i
  · subst hj
    constructor
    · rintro ⟨hget, hsize⟩
      rw [List.getElem?_set_self hi, Option.some.injEq] at hget
      subst hget
      exact Or.inl ⟨rfl, rfl, hsize⟩
    · rintro (⟨-, rfl, hsize⟩ | ⟨hne, -⟩)
      · exact ⟨List.getElem?_set_self hi, hsize⟩
      · exact absurd rfl hne
  · simp [InUse, List.getElem?_set_ne (Ne.symm hj), hj]

section Lookup

variable {n : ℕ} {d : BootmemDesc} {log : List (Call × ℕ)} {name : CString}

theorem matches_iff (hn : (d.namedBlockNameLen - 1).toNat = n) {b : NamedBlockDesc}
    (hshort : (storedName b).length ≤ n) :
    strncmp name.chars b.name (d.namedBlockNameLen - 1).toNat = 0 ↔
      storedName b = name.key n := by
  have hself : name.chars.takeWhile (· ≠ 0) = name.chars := by
    rw [List.takeWhile_eq_self_iff]
    intro x hx
    have hne : x ≠ 0 := fun hzero => name.noNul (hzero ▸ hx)
    simpa using hne
  rw [strncmp_eq_zero, hself, hn]
  have htake : (b.name.takeWhile (· ≠ 0)).take n = storedName b := List.take_of_length_le hshort
  rw [htake, CString.key]
  exact eq_comm

theorem find_sound (hn : (d.namedBlockNameLen - 1).toNat = n)
    (h : Registered n d.namedBlocks log) {i : Fin d.namedBlocks.length}
    (hfind : octeonPhyMemNamedBlockFindInternal d (some name) = some i) :
    InUse d.namedBlocks i (d.namedBlocks.get i) ∧
      storedName (d.namedBlocks.get i) = name.key n := by
  rw [octeonPhyMemNamedBlockFindInternal] at hfind
  split_ifs at hfind
  have hmatch := (List.findFinIdx?_eq_some_iff.mp hfind).1
  simp only [decide_eq_true_eq] at hmatch
  have huse : InUse d.namedBlocks i (d.namedBlocks.get i) := ⟨by simp, hmatch.1⟩
  exact ⟨huse, (matches_iff hn (h.short _ _ huse)).mp hmatch.2⟩

theorem find_complete (hver : d.majorVersion = 3) (hn : (d.namedBlockNameLen - 1).toNat = n)
    (h : Registered n d.namedBlocks log) {i : ℕ} {b : NamedBlockDesc}
    (huse : InUse d.namedBlocks i b) (hname : storedName b = name.key n) :
    ∃ j, octeonPhyMemNamedBlockFindInternal d (some name) = some j ∧ j.val = i ∧
      d.namedBlocks.get j = b := by
  have hmatch := (matches_iff hn (h.short _ _ huse)).mpr hname
  cases hfind : octeonPhyMemNamedBlockFindInternal d (some name) with
  | none =>
    rw [octeonPhyMemNamedBlockFindInternal, if_pos hver] at hfind
    have hno := List.findFinIdx?_eq_none_iff.mp hfind b (List.mem_of_getElem? huse.1)
    simp only [decide_eq_true_eq] at hno
    exact absurd ⟨huse.2, hmatch⟩ hno
  | some j =>
    obtain ⟨hj, hjname⟩ := find_sound hn h hfind
    have hij : j.val = i := h.unique _ _ _ _ hj huse (hjname.trans hname.symm)
    refine ⟨j, rfl, hij, ?_⟩
    have hget := hj.1
    rw [hij, huse.1, Option.some.injEq] at hget
    exact hget.symm

/-- A call that neither allocates a name nor frees one, and leaves the table alone. -/
theorem registered_frame (h : Registered n d.namedBlocks log) {e : Call × ℕ}
    (halloc : ∀ other addr, ¬ Allocates n other addr e)
    (hfree : ∀ other addr, Standing n log other addr → ¬ Frees n other e) :
    Registered n d.namedBlocks (log ++ [e]) := by
  refine ⟨h.short, h.unique, fun other addr => ?_⟩
  rw [← h.agrees, standing_snoc]
  constructor
  · rintro (he | ⟨hs, -⟩)
    · exact absurd he (halloc other addr)
    · exact hs
  · exact fun hs => Or.inr ⟨hs, hfree other addr hs⟩

/-- A new name enters the descriptor that was not in use. -/
theorem registered_alloc (h : Registered n d.namedBlocks log) {i : Fin d.namedBlocks.length}
    (hslot : (d.namedBlocks.get i).size = 0)
    (hnew : ∀ j b, InUse d.namedBlocks j b → storedName b ≠ name.key n)
    {b : NamedBlockDesc} (hb : storedName b = name.key n) (hsize : b.size ≠ 0)
    (haddr : b.baseAddr ≠ 0) (r : Request) :
    Registered n (d.namedBlocks.set i b)
      (log ++ [(.namedBlockAlloc r (some name), b.baseAddr)]) := by
  have hi : ∀ c, ¬ InUse d.namedBlocks i c := by
    rintro c ⟨hget, hc⟩
    have hsame : some (d.namedBlocks.get i) = some c := by
      rw [← hget]
      simp
    rw [Option.some.injEq] at hsame
    exact hc (hsame ▸ hslot)
  refine ⟨?_, ?_, ?_⟩
  · intro j c hc
    rcases (inUse_set i.isLt).mp hc with ⟨-, rfl, -⟩ | ⟨-, hc⟩
    · rw [hb, CString.key, List.length_take]
      exact min_le_left _ _
    · exact h.short j c hc
  · intro j k c e hc he hsame
    rcases (inUse_set i.isLt).mp hc with ⟨rfl, rfl, -⟩ | ⟨-, hc'⟩
    · rcases (inUse_set i.isLt).mp he with ⟨rfl, -, -⟩ | ⟨-, he'⟩
      · rfl
      · exact absurd (hsame.symm.trans hb) (hnew k e he')
    · rcases (inUse_set i.isLt).mp he with ⟨rfl, rfl, -⟩ | ⟨-, he'⟩
      · exact absurd (hsame.trans hb) (hnew j c hc')
      · exact h.unique j k c e hc' he' hsame
  · intro other addr
    rw [standing_snoc, h.agrees]
    constructor
    · rintro (⟨r', key, he, -, hkey⟩ | ⟨⟨j, c, hc, hname, hbase⟩, -⟩)
      · simp only [Prod.mk.injEq, Call.namedBlockAlloc.injEq, Option.some.injEq] at he
        obtain ⟨⟨-, rfl⟩, rfl⟩ := he
        exact ⟨i, b, (inUse_set i.isLt).mpr (Or.inl ⟨rfl, rfl, hsize⟩), hb.trans hkey, rfl⟩
      · have hne : j ≠ i := fun hj => hi c (hj ▸ hc)
        exact ⟨j, c, (inUse_set i.isLt).mpr (Or.inr ⟨hne, hc⟩), hname, hbase⟩
    · rintro ⟨j, c, hc, hname, hbase⟩
      rcases (inUse_set i.isLt).mp hc with ⟨-, rfl, -⟩ | ⟨-, hc⟩
      · refine Or.inl ⟨r, name, ?_, hbase ▸ haddr, hb.symm.trans hname⟩
        rw [hbase]
      · refine Or.inr ⟨⟨j, c, hc, hname, hbase⟩, ?_⟩
        rintro ⟨key, res, he, -⟩
        simp at he

theorem registered_free (h : Registered n d.namedBlocks log) {i : Fin d.namedBlocks.length}
    (hi : InUse d.namedBlocks i (d.namedBlocks.get i))
    (hname : storedName (d.namedBlocks.get i) = name.key n) (res : ℕ) :
    Registered n (d.namedBlocks.set i (unused (d.namedBlocks.get i)))
      (log ++ [(.namedBlockFree (some name), res)]) := by
  have hold : ∀ j c, InUse (d.namedBlocks.set i (unused (d.namedBlocks.get i))) j c ↔
      j ≠ i ∧ InUse d.namedBlocks j c := by
    intro j c
    rw [inUse_set i.isLt]
    constructor
    · rintro (⟨-, -, hzero⟩ | hc)
      · exact absurd rfl hzero
      · exact hc
    · exact Or.inr
  refine ⟨?_, ?_, ?_⟩
  · exact fun j c hc => h.short j c ((hold j c).mp hc).2
  · exact fun j k c e hc he => h.unique j k c e ((hold j c).mp hc).2 ((hold k e).mp he).2
  · intro other addr
    rw [standing_snoc, h.agrees]
    constructor
    · rintro (⟨r, key, he, -⟩ | ⟨⟨j, c, hc, hcname, hbase⟩, hnot⟩)
      · simp at he
      · refine ⟨j, c, (hold j c).mpr ⟨?_, hc⟩, hcname, hbase⟩
        rintro rfl
        have hsame : some (d.namedBlocks.get i) = some c := hi.1.symm.trans hc.1
        rw [Option.some.injEq] at hsame
        exact hnot ⟨name, res, rfl, hname.symm.trans (hsame ▸ hcname)⟩
    · rintro ⟨j, c, hc, hcname, hbase⟩
      obtain ⟨hne, hc⟩ := (hold j c).mp hc
      refine Or.inr ⟨⟨j, c, hc, hcname, hbase⟩, ?_⟩
      rintro ⟨key, res', he, hkey⟩
      simp only [Prod.mk.injEq, Call.namedBlockFree.injEq, Option.some.injEq] at he
      obtain ⟨rfl, -⟩ := he
      exact hne (h.unique _ _ _ _ hc hi (hcname.trans (hkey.symm.trans hname.symm)))

end Lookup

/-! ## Calls and runs -/

variable {n fuel : ℕ} {d d' : BootmemDesc} {log : List (Call × ℕ)} {res : ℕ}

/-- The format of the table never changes. -/
structure Format (n : ℕ) (d : BootmemDesc) : Prop where
  version : d.majorVersion = 3
  len : 2 ≤ d.namedBlockNameLen
  last : (d.namedBlockNameLen - 1).toNat = n

theorem Format.same (h : Format n d) (htable : SameTable d d') : Format n d' := by
  obtain ⟨hver, hlen, hlast⟩ := h
  exact ⟨htable.version.trans hver, htable.nameLen.symm ▸ hlen, htable.nameLen.symm ▸ hlast⟩

theorem octeonPhyMemBlockAlloc_zero (lo hi align : ℕ) :
    octeonPhyMemBlockAlloc fuel 0 lo hi align d = some (d, 0) := by
  simp [octeonPhyMemBlockAlloc]

theorem registered_namedBlockAlloc (hf : Format n d) (h : Registered n d.namedBlocks log)
    (r : Request) (name : Option CString)
    (hrun : (Call.namedBlockAlloc r name).perform fuel d = some (d', res)) :
    Format n d' ∧ Registered n d'.namedBlocks (log ++ [(.namedBlockAlloc r name, res)]) := by
  have hquiet : Registered n d.namedBlocks (log ++ [(.namedBlockAlloc r name, 0)]) := by
    apply registered_frame h
    · rintro other addr ⟨r', key, he, hne, -⟩
      simp only [Prod.mk.injEq] at he
      exact hne he.2.symm
    · rintro other addr - ⟨key, res', he, -⟩
      simp at he
  rw [Call.perform] at hrun
  rcases @octeonPhyMemNamedBlockAlloc_cases fuel d r.reqSize r.addressMin r.addressMax
    r.alignment name with hfail | ⟨i, key, rfl, -, hslot, hnew, hcall⟩
  · rw [hfail] at hrun
    cases hrun
    exact ⟨hf, hquiet⟩
  · rw [hcall] at hrun
    obtain ⟨⟨d₁, addr⟩, halloc, hout⟩ := Option.map_eq_some_iff.mp hrun
    have htable := octeonPhyMemBlockAlloc_table halloc
    by_cases haddr : addr = 0
    · simp only [haddr, ne_eq, not_true_eq_false, if_false, Prod.mk.injEq] at hout
      obtain ⟨rfl, rfl⟩ := hout
      exact ⟨hf.same htable, htable.blocks.symm ▸ hquiet⟩
    · simp only [ne_eq, haddr, not_false_eq_true, if_true, Prod.mk.injEq] at hout
      obtain ⟨rfl, rfl⟩ := hout
      have hsize : roundUp r.reqSize alignmentSize ≠ 0 := by
        intro hzero
        rw [hzero, octeonPhyMemBlockAlloc_zero, Option.some.injEq] at halloc
        exact haddr (congrArg Prod.snd halloc).symm
      have hstored := storedName_nameBlock hf.len (d.namedBlocks.get i) addr
        (roundUp r.reqSize alignmentSize) key
      rw [hf.last] at hstored
      refine ⟨⟨(hf.same htable).version, (hf.same htable).len, (hf.same htable).last⟩, ?_⟩
      rw [BootmemDesc.setNamed, htable.blocks]
      refine @registered_alloc n d log key h i (findInternal_null hslot) ?_ _ hstored hsize haddr r
      intro j b hb hname
      obtain ⟨k, hk, -⟩ := find_complete hf.version hf.last h hb hname
      rw [hnew] at hk
      cases hk

theorem registered_namedBlockFree (hf : Format n d) (h : Registered n d.namedBlocks log)
    (name : Option CString)
    (hrun : (Call.namedBlockFree name).perform fuel d = some (d', res)) :
    Format n d' ∧ Registered n d'.namedBlocks (log ++ [(.namedBlockFree name, res)]) := by
  rw [Call.perform] at hrun
  rcases @octeonPhyMemNamedBlockFree_cases fuel d name with ⟨hnone, hfail⟩ | ⟨i, -, hfind, hcall⟩
  · rw [hfail] at hrun
    cases hrun
    refine ⟨hf, registered_frame h ?_ ?_⟩
    · rintro other addr ⟨r, key, he, -⟩
      simp at he
    · -- a name that stands would have been found
      rintro other addr hs ⟨key, res', he, hkey⟩
      simp only [Prod.mk.injEq, Call.namedBlockFree.injEq] at he
      obtain ⟨rfl, -⟩ := he
      obtain ⟨j, b, hb, hname, -⟩ := (h.agrees other addr).mp hs
      obtain ⟨k, hk, -⟩ := find_complete hf.version hf.last h hb (hname.trans hkey.symm)
      rw [hnone] at hk
      cases hk
  · rw [hcall] at hrun
    obtain ⟨⟨d₁, out⟩, hfree, hout⟩ := Option.map_eq_some_iff.mp hrun
    have htable := octeonPhyMemBlockFree_table hfree
    simp only [Prod.mk.injEq] at hout
    obtain ⟨rfl, rfl⟩ := hout
    refine ⟨⟨(hf.same htable).version, (hf.same htable).len, (hf.same htable).last⟩, ?_⟩
    rw [BootmemDesc.setNamed, htable.blocks]
    cases name with
    | some name =>
      obtain ⟨huse, hname⟩ := find_sound hf.last h hfind
      exact registered_free h huse hname 1
    | none =>
      have hsame : d.namedBlocks.set i (unused (d.namedBlocks.get i)) = d.namedBlocks := by
        have hunused : unused (d.namedBlocks.get i) = d.namedBlocks.get i := by
          rw [unused, ← findInternal_null hfind]
        rw [hunused]
        exact List.set_getElem_self i.isLt
      rw [hsame]
      apply registered_frame h
      · rintro other addr ⟨r, key, he, -⟩
        simp at he
      · rintro other addr - ⟨key, res', he, -⟩
        simp at he

theorem registered_perform (hf : Format n d) (h : Registered n d.namedBlocks log) (c : Call)
    (hrun : c.perform fuel d = some (d', res)) :
    Format n d' ∧ Registered n d'.namedBlocks (log ++ [(c, res)]) := by
  have hquiet : ∀ b : BootmemDesc, SameTable d b → Anonymous c →
      Format n b ∧ Registered n b.namedBlocks (log ++ [(c, res)]) := by
    intro b htable hanon
    refine ⟨hf.same htable, htable.blocks.symm ▸ registered_frame h ?_ ?_⟩
    · rintro other addr ⟨r, key, he, -⟩
      rw [(Prod.mk.inj he).1] at hanon
      exact hanon
    · rintro other addr - ⟨key, res', he, -⟩
      rw [(Prod.mk.inj he).1] at hanon
      exact hanon
  cases c with
  | blockAlloc r => exact hquiet d' (octeonPhyMemBlockAlloc_table hrun) trivial
  | blockFree b => exact hquiet d' (octeonPhyMemBlockFree_table hrun) trivial
  | namedBlockAlloc r name => exact registered_namedBlockAlloc hf h r name hrun
  | namedBlockFree name => exact registered_namedBlockFree hf h name hrun

theorem registered_start {table : List NamedBlockDesc} (h : ∀ b ∈ table, b.size = 0) :
    Registered n table [] := by
  have hnone : ∀ i b, ¬ InUse table i b :=
    fun i b hb => hb.2 (h b (List.mem_of_getElem? hb.1))
  refine ⟨fun i b hb => absurd hb (hnone i b), fun i j b c hb => absurd hb (hnone i b), ?_⟩
  intro name addr
  constructor
  · rintro ⟨before, e, after, hlog, -⟩
    simp at hlog
  · rintro ⟨i, b, hb, -⟩
    exact absurd hb (hnone i b)

/-- A registered table answers a lookup from the history. -/
theorem find_iff_standing (hf : Format n d) (h : Registered n d.namedBlocks log)
    (name : CString) (addr : ℕ) :
    (∃ b, octeonPhyMemNamedBlockFind d (some name) = some b ∧ b.baseAddr = addr) ↔
      Standing n log name addr := by
  rw [h.agrees]
  constructor
  · rintro ⟨b, hfind, hbase⟩
    obtain ⟨i, hi, rfl⟩ := Option.map_eq_some_iff.mp hfind
    obtain ⟨huse, hname⟩ := find_sound hf.last h hi
    exact ⟨i, _, huse, hname, hbase⟩
  · rintro ⟨i, b, huse, hname, hbase⟩
    obtain ⟨j, hj, -, hget⟩ := find_complete hf.version hf.last h huse hname
    exact ⟨b, Option.map_eq_some_iff.mpr ⟨j, hj, hget⟩, hbase⟩

/-- No two descriptors in use hold one name, and a name is found exactly when it was allocated
and not freed since, at the address the allocation returned. -/
theorem names_are_unique {l : List Block} {calls : List Call} (h : FreeList d l)
    (hver : d.majorVersion = 3) (hlen : 2 ≤ d.namedBlockNameLen)
    (hnone : ∀ b ∈ d.namedBlocks, b.size = 0) (hfuel : 2 ^ 61 ≤ fuel)
    (hcalls : ∀ c ∈ calls, ¬ Anonymous c) :
    ∃ s, run fuel calls (.start d) = some s ∧
      (∀ i j b c, InUse s.desc.namedBlocks i b → InUse s.desc.namedBlocks j c →
        storedName b = storedName c → i = j) ∧
      ∀ name addr, (∃ b, octeonPhyMemNamedBlockFind s.desc (some name) = some b ∧
          b.baseAddr = addr) ↔
        Standing (d.namedBlockNameLen - 1).toNat s.log name addr := by
  have h₀ : Separate l := h.separate
  have halong : Along (fun s c => Owned s c ∧ Modest c) fuel calls (.start d) := by
    apply along_of_forall
    intro c hc s
    have hanon := hcalls c hc
    cases c with
    | blockAlloc r => exact absurd trivial hanon
    | blockFree b => exact absurd trivial hanon
    | namedBlockAlloc r name => exact ⟨trivial, trivial⟩
    | namedBlockFree name => exact ⟨trivial, trivial⟩
  -- the calls return because the memory stays shared out, and keep the table as they do
  have hkeep := @run_keeps fuel calls _
    (fun s => (∃ l', Shared l (namedMemory s.desc) s.live s.desc l') ∧
      Format (d.namedBlockNameLen - 1).toNat s.desc ∧
      Registered (d.namedBlockNameLen - 1).toNat s.desc.namedBlocks s.log) ?_ (.start d)
    ⟨⟨l, shared_start h hnone⟩, ⟨hver, hlen, rfl⟩, registered_start hnone⟩ halong
  · obtain ⟨s, hrun, -, hf, hreg⟩ := hkeep
    exact ⟨s, hrun, hreg.unique, find_iff_standing hf hreg⟩
  · rintro s c ⟨⟨k, hk⟩, hf, hreg⟩ ⟨howned, hmodest⟩
    obtain ⟨d', res, l', hrun, h'⟩ := shared_perform hk h₀ c howned hmodest hfuel
    exact ⟨d', res, hrun, ⟨l', h'⟩, registered_perform hf hreg c hrun⟩

theorem names_are_unique_page :
    ∃ s, run (2 ^ 61) [.namedBlockAlloc (.anywhere 100 (by decide)) (some ⟨[97, 98], by decide⟩),
        .namedBlockAlloc (.anywhere 100 (by decide)) (some ⟨[97, 98, 99], by decide⟩),
        .namedBlockFree (some ⟨[97, 98], by decide⟩)]
        (.start (ofBlock ⟨4096, 4096⟩ 4
          [⟨0, 0, List.replicate 4 0⟩, ⟨0, 0, List.replicate 4 0⟩])) = some s ∧
      (∀ i j b c, InUse s.desc.namedBlocks i b → InUse s.desc.namedBlocks j c →
        storedName b = storedName c → i = j) ∧
      ∀ name addr, (∃ b, octeonPhyMemNamedBlockFind s.desc (some name) = some b ∧
          b.baseAddr = addr) ↔ Standing 3 s.log name addr := by
  apply names_are_unique (freeList_ofBlock wf_page 4 _) rfl (by decide) ?_ (le_refl _)
  · simp [Anonymous]
  · simp [ofBlock, BootmemDesc.setNext, BootmemDesc.setSize]

end Bootmem
