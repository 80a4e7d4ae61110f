import RouterFirmware.BootmemList
import RouterFirmware.WordMask

/-! # The walks over the free list

Release looks for the place of a block, allocation for the first entry that fits; both go from
the head along the links. On a tidy list they end, and what they leave is a tidy list again
that, with the block taken or without the block given back, makes up the same memory.
-/
namespace Bootmem

open BlockPartition LinkedSegment WordMask

variable {a : ℕ} {d : BootmemDesc}

/-! ## What no call touches -/

/-- The table of named blocks and the format of the descriptor are as before. -/
structure SameTable (d d' : BootmemDesc) : Prop where
  version : d'.majorVersion = d.majorVersion
  nameLen : d'.namedBlockNameLen = d.namedBlockNameLen
  blocks : d'.namedBlocks = d.namedBlocks

theorem SameTable.refl (d : BootmemDesc) : SameTable d d := ⟨rfl, rfl, rfl⟩

theorem SameTable.trans {d₁ d₂ d₃ : BootmemDesc} (h : SameTable d₁ d₂) (h' : SameTable d₂ d₃) :
    SameTable d₁ d₃ :=
  ⟨h'.1.trans h.1, h'.2.trans h.2, h'.3.trans h.3⟩

theorem takeStart_table (n p e : ℕ) : SameTable d (takeStart n p e d) := by
  simp only [takeStart]
  constructor <;> split_ifs <;> rfl

theorem splitEntry_table (e n : ℕ) : SameTable d (splitEntry e n d) := ⟨rfl, rfl, rfl⟩

theorem allocLoop_table {n lo hi mask fuel p e r : ℕ} {d' : BootmemDesc}
    (h : allocLoop n lo hi mask fuel p e d = some (d', r)) : SameTable d d' := by
  induction fuel generalizing p e d with
  | zero => simp [allocLoop] at h
  | succ fuel ih =>
    rw [allocLoop] at h
    simp only at h
    split_ifs at h
    · cases h
      exact .refl _
    · cases h
      exact .refl _
    · cases h
      exact takeStart_table n p e
    · exact (splitEntry_table e _).trans (ih h)
    · exact ih h

theorem octeonPhyMemBlockAlloc_table {fuel n lo hi align r : ℕ} {d' : BootmemDesc}
    (h : octeonPhyMemBlockAlloc fuel n lo hi align d = some (d', r)) : SameTable d d' := by
  rw [octeonPhyMemBlockAlloc] at h
  simp only at h
  split_ifs at h
  all_goals first
    | exact allocLoop_table h
    | (cases h; exact .refl d)

theorem freeFront_table (x n c : ℕ) : SameTable d (freeFront x n c d).1 := by
  rw [freeFront]
  constructor <;> split_ifs <;> rfl

theorem freeLast_table (x n p : ℕ) : SameTable d (freeLast x n p d) := by
  rw [freeLast]
  constructor <;> split_ifs <;> rfl

theorem freeBetween_table (x n p c : ℕ) : SameTable d (freeBetween x n p c d) := by
  rw [freeBetween]
  simp only
  constructor <;> split_ifs <;> rfl

theorem octeonPhyMemBlockFree_table {fuel x n r : ℕ} {d' : BootmemDesc}
    (h : octeonPhyMemBlockFree fuel x n d = some (d', r)) : SameTable d d' := by
  rw [octeonPhyMemBlockFree] at h
  split_ifs at h with hver hzero hfront
  · cases h
    exact .refl d
  · cases h
    exact .refl d
  · rw [Option.some.injEq] at h
    have := @freeFront_table d x n d.headAddr
    rwa [h] at this
  · obtain ⟨⟨p, c⟩, -, hout⟩ := Option.map_eq_some_iff.mp h
    simp only at hout
    split_ifs at hout
    · cases hout
      exact freeLast_table x n p
    · cases hout
      exact freeBetween_table x n p c

/-! ## Release -/

/-- The walk passes the entries before the block and stops at the next one. -/
theorem findPlace_spec {before after done : List Block} {x fuel : ℕ}
    (h : Chain d a before (headAddrOf after)) (hbefore : ∀ b ∈ before, b.addr ≠ 0 ∧ b.addr < x)
    (hafter : ∀ b ∈ after, x ≤ b.addr) (hfuel : before.length < fuel) :
    findPlace d x fuel (lastAddrOf done) a =
      some (lastAddrOf (done ++ before), headAddrOf after) := by
  induction before generalizing a done fuel with
  | nil =>
    obtain ⟨fuel, rfl⟩ : ∃ n, fuel = n + 1 := ⟨fuel - 1, by simp at hfuel; omega⟩
    obtain rfl : a = headAddrOf after := h
    have hstop : ¬ (headAddrOf after ≠ 0 ∧ x > headAddrOf after) := by
      cases after with
      | nil => simp [headAddrOf]
      | cons c after => simpa [headAddrOf] using fun _ => hafter c (by simp)
    rw [findPlace, if_neg hstop, List.append_nil]
  | cons b before ih =>
    obtain ⟨fuel, rfl⟩ : ∃ n, fuel = n + 1 := ⟨fuel - 1, by simp at hfuel; omega⟩
    obtain ⟨rfl, -, hrest⟩ := h
    rw [findPlace, if_pos (hbefore b (by simp))]
    have hnext := @ih (d.next b.addr) (done ++ [b]) fuel hrest
      (fun c hc => hbefore c (by simp [hc])) (by simpa using hfuel)
    rw [lastAddrOf_snoc, List.append_assoc] at hnext
    exact hnext

/-- Where a block belongs in a tidy list it is apart from. -/
theorem Tidy.place {l : List Block} {b : Block} (h : Tidy l) (hb : Wf b)
    (hapart : ∀ c ∈ l, Apart b c) :
    ∃ before after, l = before ++ after ∧ Tidy (before ++ b :: after) := by
  induction l with
  | nil => exact ⟨[], [], rfl, List.pairwise_singleton _ _, by simpa using hb⟩
  | cons c l ih =>
    have hc : Wf c := h.wf c (by simp)
    obtain ⟨hcl, hl⟩ := ascending_cons.mp h.ascending
    rcases hapart c (by simp) with hle | hle
    · refine ⟨[], c :: l, rfl, ascending_cons.mpr ⟨?_, h.ascending⟩, ?_⟩
      · have hpos : 0 < c.size := hc.size_pos
        intro e he
        rcases List.mem_cons.mp he with rfl | he
        · exact hle
        · have := hcl e he
          rw [Block.stop] at this
          omega
      · intro e he
        rcases List.mem_cons.mp he with rfl | he
        · exact hb
        · exact h.wf e he
    · obtain ⟨before, after, rfl, htidy⟩ := ih ⟨hl, fun e he => h.wf e (by simp [he])⟩
        (fun e he => hapart e (by simp [he]))
      refine ⟨c :: before, after, rfl, ascending_cons.mpr ⟨?_, htidy.ascending⟩, ?_⟩
      · intro e he
        have hmem : e = b ∨ e ∈ before ++ after := by
          have hin := List.mem_append.mp he
          rw [List.mem_cons] at hin
          rw [List.mem_append]
          tauto
        rcases hmem with rfl | hmem
        · exact hle
        · exact hcl e hmem
      · intro e he
        rcases List.mem_cons.mp he with rfl | he
        · exact hc
        · exact htidy.wf e he

/-- A block goes back into its place on the list. -/
theorem octeonPhyMemBlockFree_list {before after : List Block} {b : Block} {fuel : ℕ}
    (h : FreeList d (before ++ after)) (htidy : Tidy (before ++ b :: after))
    (hver : d.majorVersion ≤ 3) (hfuel : (before ++ after).length < fuel) :
    ∃ d' l', octeonPhyMemBlockFree fuel b.addr b.size d = some (d', 1) ∧ FreeList d' l' ∧
      Rejoined b after before l' := by
  have hb : Wf b := htidy.wf_mid
  have hhead : d.headAddr = headAddrOf (before ++ after) := h.chain.start
  rw [octeonPhyMemBlockFree, if_neg (by omega), if_neg (Nat.ne_of_gt hb.size_pos)]
  rcases before.eq_nil_or_concat with rfl | ⟨init, p, rfl⟩
  · have hfront : d.headAddr = 0 ∨ b.addr < d.headAddr := by
      rw [hhead]
      cases after with
      | nil => exact Or.inl rfl
      | cons c after =>
        have hle := @Tidy.behind [] _ b htidy c (by simp)
        have hpos := hb.size_pos
        rw [Block.stop] at hle
        exact Or.inr (by simp only [headAddrOf, List.nil_append]; omega)
    rw [if_pos hfront]
    obtain ⟨hlist, hone⟩ := freeFront_list h htidy
    exact ⟨_, _, by rw [← hone], hlist, .front⟩
  · rw [List.concat_eq_append] at *
    have hp : p ∈ init ++ [p] := by simp
    have hbehind : ¬ (d.headAddr = 0 ∨ b.addr < d.headAddr) := by
      have hle : ∀ e ∈ init ++ [p], e.addr ≠ 0 ∧ e.addr < b.addr := fun e he =>
        ⟨Nat.ne_of_gt (htidy.left.wf e he).addr_pos, htidy.before he⟩
      rw [hhead]
      cases init with
      | nil => have := hle p hp; simp only [headAddrOf, List.nil_append, List.cons_append]; omega
      | cons e init => have := hle e (by simp); simp only [headAddrOf, List.cons_append]; omega
    rw [if_neg hbehind]
    obtain ⟨m, hbefore, hafter⟩ := seg_append.mp h.chain
    obtain rfl : m = headAddrOf after := Chain.start hafter
    have hplace := @findPlace_spec _ d (init ++ [p]) after [] b.addr fuel hbefore
      (fun e he => ⟨Nat.ne_of_gt (htidy.left.wf e he).addr_pos, htidy.before he⟩)
      (fun e he => le_trans (Nat.le_add_right _ _) (htidy.behind he))
      (by simp only [List.length_append] at hfuel ⊢; omega)
    rw [List.nil_append, lastAddrOf_snoc, lastAddrOf_nil] at hplace
    rw [hplace, Option.map_some]
    cases after with
    | nil =>
      refine ⟨_, _, rfl, ?_, .behind init p⟩
      rw [List.append_nil] at *
      exact freeLast_list h (by simpa using htidy)
    | cons c after =>
      have hc : c.addr ≠ 0 := Nat.ne_of_gt (h.tidy.wf c (by simp)).addr_pos
      rw [headAddrOf, if_neg hc]
      refine ⟨_, _, rfl, ?_, .behind init p⟩
      rw [List.append_assoc] at *
      exact freeBetween_list h htidy

/-- A block apart from the free list goes back into it. -/
theorem octeonPhyMemBlockFree_spec {l : List Block} {b : Block} {fuel : ℕ} (h : FreeList d l)
    (hb : Wf b) (hapart : ∀ c ∈ l, Apart b c) (hver : d.majorVersion ≤ 3)
    (hfuel : l.length < fuel) :
    ∃ d', octeonPhyMemBlockFree fuel b.addr b.size d = some (d', 1) ∧ Joined d' b l := by
  obtain ⟨before, after, rfl, htidy⟩ := h.tidy.place hb hapart
  obtain ⟨d', l', hrun, hl', hjoin⟩ := octeonPhyMemBlockFree_list h htidy hver hfuel
  exact ⟨d', hrun, l', hl', hjoin.repart fun c hc => (htidy.wf c hc).size_pos⟩

/-! ## Rounding -/

theorem roundUp_two_pow {k : ℕ} (hk : k < 64) (x : ℕ) :
    roundUp x (2 ^ k) = add64 x (2 ^ k - 1) / 2 ^ k * 2 ^ k := by
  have hpos : 0 < 2 ^ k := Nat.two_pow_pos k
  have hlt : 2 ^ k < 2 ^ 64 := Nat.pow_lt_pow_right (by decide) hk
  have hmask : not64 (2 ^ k - 1) = 2 ^ 64 - 2 ^ k := by
    rw [not64]
    omega
  rw [roundUp, sub64_of_le hlt hpos, hmask]
  exact land_high hk.le (Nat.mod_lt _ (by decide))

theorem roundUp_eq {k x : ℕ} (hk : k < 64) (hx : x + (2 ^ k - 1) < 2 ^ 64) :
    roundUp x (2 ^ k) = ceilTo (2 ^ k) x := by
  rw [roundUp_two_pow hk, add64_of_lt hx, ceilTo]

theorem alignAddrUp_eq {k x : ℕ} (hk : k < 64) :
    alignAddrUp x (not64 (sub64 (2 ^ k) 1)) = roundUp x (2 ^ k) := by
  have hpos : 0 < 2 ^ k := Nat.two_pow_pos k
  have hlt : 2 ^ k < 2 ^ 64 := Nat.pow_lt_pow_right (by decide) hk
  have hnot : not64 (not64 (sub64 (2 ^ k) 1)) = sub64 (2 ^ k) 1 := by
    rw [sub64_of_le hlt hpos, not64, not64]
    omega
  rw [alignAddrUp, hnot, roundUp]

theorem roundUp_lt (x n : ℕ) : roundUp x n < 2 ^ 64 := by
  apply lt_of_le_of_lt Nat.and_le_left
  exact Nat.mod_lt _ (by decide)

/-- A multiple of a power of two stays below the last one. -/
theorem add_le_of_dvd {k x : ℕ} (hk : k ≤ 64) (h : 2 ^ k ∣ x) (hx : x < 2 ^ 64) :
    x + 2 ^ k ≤ 2 ^ 64 := by
  obtain ⟨q, rfl⟩ := h
  obtain ⟨p, hp⟩ : 2 ^ k ∣ 2 ^ 64 := Nat.pow_dvd_pow 2 hk
  rw [hp] at hx ⊢
  have hq : q + 1 ≤ p := Nat.lt_of_mul_lt_mul_left hx
  calc 2 ^ k * q + 2 ^ k = 2 ^ k * (q + 1) := by ring
    _ ≤ 2 ^ k * p := Nat.mul_le_mul_left _ hq

theorem roundUp_of_dvd {k x : ℕ} (hk : k < 64) (h : 2 ^ k ∣ x) (hx : x < 2 ^ 64) :
    roundUp x (2 ^ k) = x := by
  have hpos : 0 < 2 ^ k := Nat.two_pow_pos k
  have hle := add_le_of_dvd hk.le h hx
  rw [roundUp_eq hk (by omega), ceilTo_of_dvd hpos h]

theorem dvd_roundUp {k : ℕ} (hk : k < 64) (x : ℕ) : 2 ^ k ∣ roundUp x (2 ^ k) := by
  rw [roundUp_two_pow hk]
  exact Nat.dvd_mul_left _ _

theorem usableBase_spec {k lo : ℕ} (hk : k < 64) (hlo : 2 ^ k ∣ lo) (hlt : lo < 2 ^ 64)
    (ha : a < 2 ^ 63) : 2 ^ k ∣ roundUp (max lo a) (2 ^ k) ∧ a ≤ roundUp (max lo a) (2 ^ k) ∧
      lo ≤ roundUp (max lo a) (2 ^ k) := by
  have hpos : 0 < 2 ^ k := Nat.two_pow_pos k
  have hpow : 2 ^ k ≤ 2 ^ 63 := Nat.pow_le_pow_right (by decide) (by omega)
  refine ⟨dvd_roundUp hk _, ?_⟩
  rcases le_total a lo with hle | hle
  · rw [max_eq_left hle, roundUp_of_dvd hk hlo hlt]
    exact ⟨hle, le_refl _⟩
  · rw [max_eq_right hle, roundUp_eq hk (by omega)]
    have := le_ceilTo hpos a
    omega

/-! ## Allocation -/

/-- A request after the checks: the size, the first and the last address, the alignment. -/
structure Wanted (n lo hi k : ℕ) : Prop where
  size_pos : 0 < n
  size_dvd : 16 ∣ n
  min_dvd : 2 ^ k ∣ lo
  min_lt : lo < 2 ^ 64
  max_lt : hi < 2 ^ 64
  align_ge : 4 ≤ k
  align_lt : k < 64

/-- The addresses a request admits after the checks. -/
structure Range (lo hi k : ℕ) : Prop where
  min_dvd : 2 ^ k ∣ lo
  min_lt : lo < 2 ^ 64
  max_lt : hi < 2 ^ 64
  align_ge : 4 ≤ k
  align_lt : k < 64

theorem Wanted.range {n lo hi k : ℕ} (hw : Wanted n lo hi k) : Range lo hi k :=
  ⟨hw.min_dvd, hw.min_lt, hw.max_lt, hw.align_ge, hw.align_lt⟩

/-- A block of the size asked for is taken out of the memory of `l`, or none is. -/
def Taken (l : List Block) (n : ℕ) (d' : BootmemDesc) (r : ℕ) : Prop :=
  ∃ l', FreeList d' l' ∧ (r = 0 ∧ Repart l l' ∨ Wf ⟨r, n⟩ ∧ Repart l (⟨r, n⟩ :: l'))

theorem Taken.of_repart {l k : List Block} {n r : ℕ} {d' : BootmemDesc} (h : Taken k n d' r)
    (hrep : Repart l k) : Taken l n d' r := by
  obtain ⟨l', hl', ⟨hr, h⟩ | ⟨hr, h⟩⟩ := h
  · exact ⟨l', hl', Or.inl ⟨hr, hrep.trans h⟩⟩
  · exact ⟨l', hl', Or.inr ⟨hr, hrep.trans h⟩⟩

section Walk

variable {n lo hi k p fuel : ℕ} {pre post : List Block} {e : Block}

/-- The test an entry has to pass. -/
def Fits (n lo hi k : ℕ) (e : Block) : Prop :=
  (e.stop > roundUp (max lo e.addr) (2 ^ k) ∧ e.addr < hi) ∧
    n ≤ sub64 (min hi e.stop) (roundUp (max lo e.addr) (2 ^ k))

instance : Decidable (Fits n lo hi k e) := inferInstanceAs (Decidable ((_ ∧ _) ∧ _))

theorem next_eq (h : FreeList d (pre ++ e :: post)) : d.next e.addr = headAddrOf post :=
  Chain.start (chain_split.mp h.chain).2.2

/-- On a tidy list the walk meets no link that leads back. -/
theorem not_descending (h : FreeList d (pre ++ e :: post)) :
    ¬ (d.next e.addr ≠ 0 ∧ e.addr > d.next e.addr) := by
  rw [next_eq h]
  cases post with
  | nil => simp [headAddrOf]
  | cons c post =>
    have hle := h.tidy.behind (List.mem_cons_self : c ∈ c :: post)
    rw [Block.stop] at hle
    simp only [headAddrOf]
    omega

theorem allocLoop_entry (hw : Range lo hi k) (h : FreeList d (pre ++ e :: post)) :
    allocLoop n lo hi (not64 (sub64 (2 ^ k) 1)) (fuel + 1) p e.addr d =
      if Fits n lo hi k e then
        if roundUp (max lo e.addr) (2 ^ k) = e.addr then
          some (takeStart n p e.addr d, roundUp (max lo e.addr) (2 ^ k))
        else
          allocLoop n lo hi (not64 (sub64 (2 ^ k) 1)) fuel e.addr
            ((splitEntry e.addr (roundUp (max lo e.addr) (2 ^ k)) d).next e.addr)
            (splitEntry e.addr (roundUp (max lo e.addr) (2 ^ k)) d)
      else allocLoop n lo hi (not64 (sub64 (2 ^ k) 1)) fuel e.addr (headAddrOf post) d := by
  have hwf := h.tidy.wf_mid
  have hstop : e.addr + e.size ≤ 2 ^ 63 := hwf.stop_le
  have hend : add64 e.addr (d.size e.addr) = e.stop := by
    rw [(chain_split.mp h.chain).2.1, add64_of_lt (by omega), Block.stop]
  rw [allocLoop, if_neg (Nat.ne_of_gt hwf.addr_pos), if_neg (not_descending h)]
  simp only [hend, alignAddrUp_eq hw.align_lt, next_eq h]
  rfl

/-- An entry used from its start is large enough for the request. -/
theorem size_of_fits (hmax : hi < 2 ^ 64) (hfit : Fits n lo hi k e)
    (hbase : roundUp (max lo e.addr) (2 ^ k) = e.addr) : n ≤ e.size := by
  obtain ⟨⟨hstop, hhi⟩, hn⟩ := hfit
  rw [hbase] at hstop hn
  have hle : e.addr ≤ min hi e.stop := le_min hhi.le hstop.le
  have hcap : min hi e.stop < 2 ^ 64 := lt_of_le_of_lt (min_le_left _ _) hmax
  have hmin : min hi e.stop ≤ e.stop := min_le_right _ _
  rw [sub64_of_le hcap hle] at hn
  rw [Block.stop] at hmin hn
  omega

theorem allocLoop_take (hw : Wanted n lo hi k) (h : FreeList d (pre ++ e :: post))
    (hfit : Fits n lo hi k e) (hbase : roundUp (max lo e.addr) (2 ^ k) = e.addr) :
    ∃ d' r, allocLoop n lo hi (not64 (sub64 (2 ^ k) 1)) (fuel + 1) (lastAddrOf pre) e.addr d =
      some (d', r) ∧ Taken (pre ++ e :: post) n d' r := by
  have hwf := h.tidy.wf_mid
  have hn : n ≤ e.size := size_of_fits hw.max_lt hfit hbase
  obtain ⟨l, hl, hrep⟩ := takeStart_spec h hw.size_pos hn hw.size_dvd
  have hstop : e.addr + n ≤ 2 ^ 63 := le_trans (Nat.add_le_add_left hn _) hwf.stop_le
  have hblock : Wf ⟨e.addr, n⟩ := ⟨hwf.addr_pos, hw.size_pos, hwf.addr_dvd, hw.size_dvd, hstop⟩
  refine ⟨_, _, ?_, l, hl, Or.inr ⟨hblock, hrep⟩⟩
  rw [allocLoop_entry hw.range h, if_pos hfit, if_pos hbase, hbase]

/-- The entry is cut where it can be used, and the walk goes on with the upper part. -/
theorem allocLoop_split (hw : Range lo hi k) (h : FreeList d (pre ++ e :: post))
    (hfit : Fits n lo hi k e) (hbase : roundUp (max lo e.addr) (2 ^ k) ≠ e.addr) :
    ∃ m q, 0 < m ∧ 0 < q ∧ e.size = m + q ∧
      roundUp (max lo e.addr) (2 ^ k) = e.addr + m ∧
      roundUp (max lo (e.addr + m)) (2 ^ k) = e.addr + m ∧
      FreeList (splitEntry e.addr (e.addr + m) d)
        (pre ++ ⟨e.addr, m⟩ :: ⟨e.addr + m, q⟩ :: post) ∧
      allocLoop n lo hi (not64 (sub64 (2 ^ k) 1)) (fuel + 1) p e.addr d =
        allocLoop n lo hi (not64 (sub64 (2 ^ k) 1)) fuel e.addr (e.addr + m)
          (splitEntry e.addr (e.addr + m) d) := by
  have hwf := h.tidy.wf_mid
  obtain ⟨hdvd, hge, hmin⟩ := usableBase_spec hw.align_lt hw.min_dvd hw.min_lt hwf.cell.2
  have hword := roundUp_lt (max lo e.addr) (2 ^ k)
  have hstop := hfit.1.1
  rw [allocLoop_entry hw h, if_pos hfit, if_neg hbase]
  generalize roundUp (max lo e.addr) (2 ^ k) = base at *
  obtain ⟨a, size⟩ := e
  simp only [stop_mk] at *
  obtain ⟨m, rfl⟩ : ∃ m, base = a + m := ⟨base - a, by omega⟩
  obtain ⟨q, rfl⟩ : ∃ q, size = m + q := ⟨size - m, by omega⟩
  have h16 : 16 ∣ m := by
    have hbase16 : 16 ∣ a + m := dvd_trans (Nat.pow_dvd_pow 2 hw.align_ge) hdvd
    exact (Nat.dvd_add_right hwf.addr_dvd).mp hbase16
  have hcut := splitEntry_cut h (by omega) (by omega) h16
  refine ⟨m, q, by omega, by omega, rfl, rfl, ?_, hcut, ?_⟩
  · rw [max_eq_right hmin]
    exact roundUp_of_dvd hw.align_lt hdvd hword
  · rw [show (splitEntry a (a + m) d).next a = a + m from next_eq hcut]

end Walk

/-- From any entry on, the walk ends; a block is taken or none is. -/
theorem allocLoop_spec {n lo hi k fuel : ℕ} {pre rest : List Block} (hw : Wanted n lo hi k)
    (h : FreeList d (pre ++ rest)) (hfuel : 2 * rest.length < fuel) :
    ∃ d' r, allocLoop n lo hi (not64 (sub64 (2 ^ k) 1)) fuel (lastAddrOf pre) (headAddrOf rest) d =
      some (d', r) ∧ Taken (pre ++ rest) n d' r := by
  induction rest generalizing pre d fuel with
  | nil =>
    obtain ⟨fuel, rfl⟩ : ∃ q, fuel = q + 1 := ⟨fuel - 1, by omega⟩
    exact ⟨d, 0, by simp [allocLoop, headAddrOf], _, h, Or.inl ⟨rfl, Repart.refl _⟩⟩
  | cons e post ih =>
    obtain ⟨fuel, rfl⟩ : ∃ q, fuel = q + 2 := ⟨fuel - 2, by simp at hfuel; omega⟩
    simp only [List.length_cons] at hfuel
    rw [headAddrOf]
    by_cases hfit : Fits n lo hi k e
    · by_cases hbase : roundUp (max lo e.addr) (2 ^ k) = e.addr
      · exact allocLoop_take hw h hfit hbase
      · -- the upper part is looked at next: it is used from its start, or passed
        obtain ⟨m, q, hm, hq, hsize, -, hbase₁, h₁, heq⟩ :=
          @allocLoop_split d n lo hi k (lastAddrOf pre) (fuel + 1) pre post e hw.range h hfit hbase
        have hrep := repart_cut pre e.addr post hm hq
        rw [← hsize] at hrep
        have h₁' : FreeList (splitEntry e.addr (e.addr + m) d)
            ((pre ++ [⟨e.addr, m⟩]) ++ ⟨e.addr + m, q⟩ :: post) := by simpa using h₁
        rw [heq]
        by_cases hfit₁ : Fits n lo hi k ⟨e.addr + m, q⟩
        · obtain ⟨d', r, hrun, htaken⟩ := allocLoop_take hw h₁' hfit₁ hbase₁
          rw [lastAddrOf_snoc] at hrun
          exact ⟨d', r, hrun, htaken.of_repart (by simpa using hrep)⟩
        · have h₂ : FreeList (splitEntry e.addr (e.addr + m) d)
              ((pre ++ [⟨e.addr, m⟩] ++ [⟨e.addr + m, q⟩]) ++ post) := by simpa using h₁
          obtain ⟨d', r, hrun, htaken⟩ := @ih _ fuel _ h₂ (by omega)
          refine ⟨d', r, ?_, htaken.of_repart (by simpa using hrep)⟩
          rw [allocLoop_entry hw.range h₁', if_neg hfit₁, ← hrun, lastAddrOf_snoc]
    · have h₁ : FreeList d ((pre ++ [e]) ++ post) := by simpa using h
      obtain ⟨d', r, hrun, htaken⟩ := @ih d (fuel + 1) _ h₁ (by omega)
      refine ⟨d', r, ?_, by simpa using htaken⟩
      rw [allocLoop_entry hw.range h, if_neg hfit, ← hrun, lastAddrOf_snoc]

/-- A tidy list has room for so many bytes only, and so for so many entries. -/
theorem Tidy.total_le {l : List Block} (h : Tidy l) : total l ≤ 2 ^ 63 := by
  have hroom : ∀ m, (∀ b ∈ l, m ≤ b.addr) → m ≤ 2 ^ 63 → m + total l ≤ 2 ^ 63 := by
    induction l with
    | nil =>
      intro m _ hm
      simpa [total] using hm
    | cons b l ih =>
      intro m hall _
      have hm : m ≤ b.addr := hall b (by simp)
      have hrest := ih (h.sublist (List.sublist_cons_self b l)) b.stop
        (ascending_cons.mp h.ascending).1 (h.wf b (by simp)).stop_le
      rw [Block.stop] at hrest
      rw [total_cons]
      omega
  simpa using hroom 0 (fun _ _ => Nat.zero_le _) (Nat.zero_le _)

theorem length_le_total {l : List Block} (h : ∀ b ∈ l, Wf b) : 16 * l.length ≤ total l := by
  induction l with
  | nil => simp
  | cons b l ih =>
    obtain ⟨-, hpos, -, hdvd, -⟩ := h b (by simp)
    have hrest := ih fun c hc => h c (by simp [hc])
    rw [total_cons, List.length_cons]
    omega

theorem Tidy.length_le {l : List Block} (h : Tidy l) : 16 * l.length ≤ 2 ^ 63 :=
  le_trans (length_le_total h.wf) h.total_le

/-- The alignments the allocator is made for. -/
def Alignment (n : ℕ) : Prop := n = 0 ∨ ∃ k < 64, n = 2 ^ k

/-- The minimum alignment is 16, and the first address is rounded to a larger one. -/
theorem alignment_spec {align lo : ℕ} (ha : Alignment align) (hlo : lo < 2 ^ 64)
    (h16 : lo &&& (alignmentSize - 1) = 0) :
    ∃ k, (if align < alignmentSize then alignmentSize else align) = 2 ^ k ∧ 4 ≤ k ∧ k < 64 ∧
      2 ^ k ∣ (if align ≠ 0 then roundUp lo align else lo) ∧
      (if align ≠ 0 then roundUp lo align else lo) < 2 ^ 64 := by
  have hdvd : 2 ^ 4 ∣ lo := by
    have hmod : lo % 2 ^ 4 = 0 := by
      rw [← Nat.and_two_pow_sub_one_eq_mod]
      exact h16
    exact Nat.dvd_of_mod_eq_zero hmod
  rcases ha with rfl | ⟨k, hk, rfl⟩
  · exact ⟨4, rfl, le_refl _, by decide, by simpa using hdvd, by simpa using hlo⟩
  · have hne : (2 : ℕ) ^ k ≠ 0 := Nat.ne_of_gt (Nat.two_pow_pos k)
    simp only [if_pos hne]
    by_cases h4 : k < 4
    · have hlt : 2 ^ k < alignmentSize := Nat.pow_lt_pow_right (by decide) h4
      have hsame : roundUp lo (2 ^ k) = lo :=
        roundUp_of_dvd hk (dvd_trans (Nat.pow_dvd_pow 2 h4.le) hdvd) hlo
      rw [if_pos hlt, hsame]
      exact ⟨4, rfl, le_refl _, by decide, hdvd, hlo⟩
    · have hge : ¬ 2 ^ k < alignmentSize :=
        not_lt.mpr (Nat.pow_le_pow_right Nat.two_pos (not_lt.mp h4))
      rw [if_neg hge]
      exact ⟨k, rfl, by omega, hk, dvd_roundUp hk lo, roundUp_lt _ _⟩

/-- The size after rounding, of a request that does not leave the word when it is rounded. -/
theorem roundUp_size {n : ℕ} (hn : n ≤ 2 ^ 64 - 16) :
    16 ∣ roundUp n alignmentSize ∧ n ≤ roundUp n alignmentSize := by
  have hdvd := dvd_roundUp (by decide : 4 < 64) n
  have heq := @roundUp_eq 4 n (by decide) (by omega)
  have hle := @le_ceilTo (2 ^ 4) (by decide) n
  rw [← heq] at hle
  exact ⟨hdvd, hle⟩

theorem roundUp_rounded (n : ℕ) : roundUp n alignmentSize ≤ 2 ^ 64 - 16 ∧
    roundUp (roundUp n alignmentSize) alignmentSize = roundUp n alignmentSize := by
  have h16 : alignmentSize = 2 ^ 4 := rfl
  rw [h16]
  have hdvd := dvd_roundUp (by decide : 4 < 64) n
  have hlt := roundUp_lt n (2 ^ 4)
  have hle := add_le_of_dvd (by decide : 4 ≤ 64) hdvd hlt
  exact ⟨by omega, roundUp_of_dvd (by decide) hdvd hlt⟩

theorem adjustMax_lt {n lo hi : ℕ} (h : hi < 2 ^ 64) : adjustMax n lo hi < 2 ^ 64 := by
  rw [adjustMax]
  split_ifs
  · exact Nat.mod_lt _ (by decide)
  · decide
  · exact h

/-- A request that does not leave the word when it is rounded returns, and takes a block of the
rounded size or none. -/
theorem octeonPhyMemBlockAlloc_spec {l : List Block} {fuel n lo hi align : ℕ} (h : FreeList d l)
    (hn : n ≤ 2 ^ 64 - 16) (hlo : lo < 2 ^ 64) (hhi : hi < 2 ^ 64) (ha : Alignment align)
    (hfuel : 2 ^ 61 ≤ fuel) :
    ∃ d' r, octeonPhyMemBlockAlloc fuel n lo hi align d = some (d', r) ∧
      Taken l (roundUp n alignmentSize) d' r ∧ (r ≠ 0 → d.majorVersion ≤ 3) := by
  have hnone : Taken l (roundUp n alignmentSize) d 0 := ⟨l, h, Or.inl ⟨rfl, Repart.refl l⟩⟩
  have hfail : ∃ d' r, some (d, 0) = some (d', r) ∧ Taken l (roundUp n alignmentSize) d' r ∧
      (r ≠ 0 → d.majorVersion ≤ 3) := ⟨d, 0, rfl, hnone, fun hne => absurd rfl hne⟩
  rw [octeonPhyMemBlockAlloc]
  by_cases hver : d.majorVersion > 3
  · rwa [if_pos hver]
  rw [if_neg hver]
  by_cases hzero : n = 0
  · rwa [if_pos hzero]
  simp only [if_neg hzero]
  by_cases hmin : lo &&& (alignmentSize - 1) ≠ 0
  · rwa [if_pos hmin]
  rw [if_neg hmin]
  obtain ⟨k, hk, hk4, hk64, hdvd, hlt⟩ := alignment_spec ha hlo (not_not.mp hmin)
  rw [hk]
  generalize (if align ≠ 0 then roundUp lo align else lo) = lo' at *
  by_cases hrange : roundUp n alignmentSize > sub64 (adjustMax (roundUp n alignmentSize) lo hi) lo'
  · rwa [if_pos hrange]
  rw [if_neg hrange]
  obtain ⟨h16, hge⟩ := roundUp_size hn
  have hw : Wanted (roundUp n alignmentSize) lo' (adjustMax (roundUp n alignmentSize) lo hi) k :=
    ⟨by omega, h16, hdvd, hlt, adjustMax_lt hhi, hk4, hk64⟩
  have hlen := h.tidy.length_le
  obtain ⟨d', r, hrun, htaken⟩ := @allocLoop_spec d _ _ _ k fuel [] l hw h (by omega)
  rw [lastAddrOf_nil, ← h.chain.start] at hrun
  exact ⟨d', r, hrun, htaken, fun _ => by omega⟩

/-! ## The sum of the free list -/

theorem availableLoop_spec {l : List Block} {fuel sum : ℕ} (h : Chain d a l 0)
    (hwf : ∀ b ∈ l, Wf b) (hsum : sum + total l < 2 ^ 64) (hfuel : l.length < fuel) :
    availableLoop d 0 fuel a sum = some (sum + total l) := by
  induction l generalizing a sum fuel with
  | nil =>
    obtain ⟨fuel, rfl⟩ : ∃ q, fuel = q + 1 := ⟨fuel - 1, by simp at hfuel; omega⟩
    obtain rfl : a = 0 := h
    simp [availableLoop, total]
  | cons b l ih =>
    obtain ⟨fuel, rfl⟩ : ∃ q, fuel = q + 1 := ⟨fuel - 1, by simp at hfuel; omega⟩
    obtain ⟨rfl, hsize, hrest⟩ := h
    have hne : b.addr ≠ 0 := Nat.ne_of_gt (hwf b (by simp)).addr_pos
    rw [total_cons] at hsum ⊢
    have hnext := @ih (d.next b.addr) fuel (sum + b.size) hrest (fun c hc => hwf c (by simp [hc]))
      (by omega) (by simpa using hfuel)
    rw [availableLoop, if_neg hne, if_pos (Nat.zero_le _), hsize, add64_of_lt (by omega), hnext,
      Nat.add_assoc]

/-- On a tidy list the sum is the size of the free memory. -/
theorem octeonPhyMemListAvailableMem_spec {l : List Block} {fuel : ℕ} (h : FreeList d l)
    (hfuel : 2 ^ 61 ≤ fuel) : octeonPhyMemListAvailableMem fuel 0 d = some (total l) := by
  have hlen := h.tidy.length_le
  have htotal := h.tidy.total_le
  rw [octeonPhyMemListAvailableMem, availableLoop_spec h.chain h.tidy.wf (by omega) (by omega),
    Nat.zero_add]

end Bootmem
