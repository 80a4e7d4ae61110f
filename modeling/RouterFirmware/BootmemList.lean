import Mathlib.Data.Nat.Bitwise
import Mathlib.Tactic.Ring
import RouterFirmware.Bootmem
import RouterFirmware.LinkedSegment

/-! # The free list in memory

What the edits of the allocator do to the list they are made in: taking an entry, cutting an
entry, putting a block back.
-/
namespace Bootmem

open BlockPartition LinkedSegment

/-! ## Words of 16-byte cells -/

theorem octeonXkphys_of_lt {a : ℕ} (h : a < 2 ^ 63) : octeonXkphys a = 2 ^ 63 + a := by
  rw [octeonXkphys, Nat.lor_comm]
  exact (Nat.two_pow_add_eq_or_of_lt h 1).symm

/-- An address at which the header of a free block may stand. -/
def Cell (a : ℕ) : Prop := 16 ∣ a ∧ a < 2 ^ 63

theorem add64_of_lt {x y : ℕ} (h : x + y < 2 ^ 64) : add64 x y = x + y := Nat.mod_eq_of_lt h

theorem sub64_of_le {x y : ℕ} (hx : x < 2 ^ 64) (h : y ≤ x) : sub64 x y = x - y := by
  rw [sub64]
  omega

theorem next_word {a : ℕ} (ha : Cell a) : octeonXkphys a = 2 ^ 63 + a := octeonXkphys_of_lt ha.2

theorem size_word {a : ℕ} (ha : Cell a) : octeonXkphys (add64 a 8) = 2 ^ 63 + a + 8 := by
  obtain ⟨h16, hlt⟩ := ha
  rw [add64_of_lt (by omega), octeonXkphys_of_lt (by omega)]
  omega

variable {a b v : ℕ} {d : BootmemDesc}

theorem next_setNext (ha : Cell a) (hb : Cell b) :
    (d.setNext a v).next b = if b = a then v else d.next b := by
  simp only [BootmemDesc.next, BootmemDesc.setNext, octeonPhyMemGetNext, octeonPhyMemSetNext,
    octeonRead64, octeonWrite64, Function.update_apply, next_word ha, next_word hb]
  simp

theorem size_setNext (ha : Cell a) (hb : Cell b) : (d.setNext a v).size b = d.size b := by
  have hne : 2 ^ 63 + b + 8 ≠ 2 ^ 63 + a := by
    obtain ⟨ha, -⟩ := ha
    obtain ⟨hb, -⟩ := hb
    omega
  simp only [BootmemDesc.size, BootmemDesc.setNext, octeonPhyMemGetSize, octeonPhyMemSetNext,
    octeonRead64, octeonWrite64, next_word ha, size_word hb, Function.update_of_ne hne]

theorem next_setSize (ha : Cell a) (hb : Cell b) : (d.setSize a v).next b = d.next b := by
  have hne : 2 ^ 63 + b ≠ 2 ^ 63 + a + 8 := by
    obtain ⟨ha, -⟩ := ha
    obtain ⟨hb, -⟩ := hb
    omega
  simp only [BootmemDesc.next, BootmemDesc.setSize, octeonPhyMemGetNext, octeonPhyMemSetSize,
    octeonRead64, octeonWrite64, size_word ha, next_word hb, Function.update_of_ne hne]

theorem size_setSize (ha : Cell a) (hb : Cell b) :
    (d.setSize a v).size b = if b = a then v else d.size b := by
  simp only [BootmemDesc.size, BootmemDesc.setSize, octeonPhyMemGetSize, octeonPhyMemSetSize,
    octeonRead64, octeonWrite64, Function.update_apply, size_word ha, size_word hb]
  simp

@[simp] theorem next_setHead : (d.setHead v).next b = d.next b := rfl

@[simp] theorem size_setHead : (d.setHead v).size b = d.size b := rfl

@[simp] theorem headAddr_setHead : (d.setHead v).headAddr = v := rfl

@[simp] theorem headAddr_setNext : (d.setNext a v).headAddr = d.headAddr := rfl

@[simp] theorem headAddr_setSize : (d.setSize a v).headAddr = d.headAddr := rfl

/-! ## The list -/

/-- A block of whole 16-byte cells of physical memory; `0` is no address of one. -/
structure Wf (b : Block) : Prop where
  addr_pos : 0 < b.addr
  size_pos : 0 < b.size
  addr_dvd : 16 ∣ b.addr
  size_dvd : 16 ∣ b.size
  stop_le : b.stop ≤ 2 ^ 63

theorem Wf.cell {b : Block} (h : Wf b) : Cell b.addr := by
  obtain ⟨-, hpos, hdvd, -, hle⟩ := h
  rw [Block.stop] at hle
  exact ⟨hdvd, by omega⟩

/-- From `a` the links lead over the blocks of `l` to `z`, each with its size beside it. -/
def Chain (d : BootmemDesc) : ℕ → List Block → ℕ → Prop :=
  Seg d.next Block.addr fun b => d.size b.addr = b.size

/-- By rising address, no block running into the next. -/
structure Tidy (l : List Block) : Prop where
  ascending : Ascending l
  wf : ∀ b ∈ l, Wf b

/-- The free list of `d` is `l`: linked in this order, and ended by `0`. -/
structure FreeList (d : BootmemDesc) (l : List Block) : Prop where
  chain : Chain d d.headAddr l 0
  tidy : Tidy l

def headAddrOf : List Block → ℕ
  | [] => 0
  | b :: _ => b.addr

def lastAddrOf (l : List Block) : ℕ := headAddrOf l.reverse

@[simp] theorem lastAddrOf_nil : lastAddrOf [] = 0 := rfl

@[simp] theorem lastAddrOf_snoc (l : List Block) (b : Block) : lastAddrOf (l ++ [b]) = b.addr := by
  simp [lastAddrOf, headAddrOf]

theorem Chain.start {l : List Block} (h : Chain d a l 0) : a = headAddrOf l := by
  cases l with
  | nil => exact h
  | cons b l => exact h.1

theorem Chain.frame {d' : BootmemDesc} {z : ℕ} {l : List Block} (h : Chain d a l z)
    (hsame : ∀ b ∈ l, d'.next b.addr = d.next b.addr ∧ d'.size b.addr = d.size b.addr) :
    Chain d' a l z := by
  apply Seg.frame h
  · exact fun b hb => (hsame b hb).1
  · exact fun b hb hsize => ((hsame b hb).2).trans hsize

theorem chain_split {z : ℕ} {pre post : List Block} {e : Block} :
    Chain d a (pre ++ e :: post) z ↔
      Chain d a pre e.addr ∧ d.size e.addr = e.size ∧ Chain d (d.next e.addr) post z := by
  rw [Chain, seg_append]
  constructor
  · rintro ⟨m, hpre, rfl, hsize, hpost⟩
    exact ⟨hpre, hsize, hpost⟩
  · rintro ⟨hpre, hsize, hpost⟩
    exact ⟨e.addr, hpre, rfl, hsize, hpost⟩

/-- The end of the part before an entry is moved: the last link of it, or the head. -/
theorem Chain.redirect {d' : BootmemDesc} {z z' : ℕ} {pre : List Block}
    (h : Chain d d.headAddr pre z) (htidy : Tidy pre)
    (hhead : d'.headAddr = if lastAddrOf pre = 0 then z' else d.headAddr)
    (hnext : ∀ b ∈ pre, d'.next b.addr = if b.addr = lastAddrOf pre then z' else d.next b.addr)
    (hsize : ∀ b ∈ pre, d'.size b.addr = d.size b.addr) : Chain d' d'.headAddr pre z' := by
  rcases pre.eq_nil_or_concat with rfl | ⟨init, p, rfl⟩
  · exact hhead.trans (if_pos rfl)
  · simp only [List.concat_eq_append, lastAddrOf_snoc] at *
    obtain ⟨hinit, hp, -⟩ := seg_snoc.mp h
    have hp0 : p.addr ≠ 0 := Nat.ne_of_gt (htidy.wf p (by simp)).addr_pos
    rw [if_neg hp0] at hhead
    rw [hhead]
    refine seg_snoc.mpr ⟨?_, (hsize p (by simp)).trans hp, by simp [hnext p (by simp)]⟩
    apply Chain.frame hinit
    intro b hb
    have hlt : b.stop ≤ p.addr := (ascending_append.mp htidy.ascending).2.2 b hb p (by simp)
    have hpos : 0 < b.size := (htidy.wf b (by simp [hb])).size_pos
    have hne : b.addr ≠ p.addr := by
      rw [Block.stop] at hlt
      omega
    rw [hnext b (by simp [hb]), if_neg hne]
    exact ⟨rfl, hsize b (by simp [hb])⟩

/-! ## Tidy lists -/

theorem Tidy.sublist {l k : List Block} (h : Tidy l) (hsub : k.Sublist l) : Tidy k :=
  ⟨h.ascending.sublist hsub, fun b hb => h.wf b (hsub.subset hb)⟩

theorem Tidy.left {l k : List Block} (h : Tidy (l ++ k)) : Tidy l :=
  h.sublist (List.sublist_append_left l k)

theorem Tidy.drop {pre post : List Block} {e : Block} (h : Tidy (pre ++ e :: post)) :
    Tidy (pre ++ post) :=
  h.sublist (List.Sublist.append_left (List.sublist_cons_self e post) pre)

/-- Blocks before an entry and blocks behind it start elsewhere. -/
theorem Tidy.before {pre post : List Block} {e : Block} (h : Tidy (pre ++ e :: post)) {b : Block}
    (hb : b ∈ pre) : b.addr < e.addr := by
  have hle : b.stop ≤ e.addr := (ascending_append.mp h.ascending).2.2 b hb e (by simp)
  have hpos : 0 < b.size := (h.wf b (by simp [hb])).size_pos
  rw [Block.stop] at hle
  omega

theorem Tidy.behind {pre post : List Block} {e : Block} (h : Tidy (pre ++ e :: post)) {b : Block}
    (hb : b ∈ post) : e.stop ≤ b.addr :=
  (ascending_cons.mp (ascending_append.mp h.ascending).2.1).1 b hb

theorem Tidy.wf_mid {pre post : List Block} {e : Block} (h : Tidy (pre ++ e :: post)) : Wf e :=
  h.wf e (by simp)

theorem lastAddrOf_mem {pre : List Block} (h : pre ≠ []) : ∃ p ∈ pre, lastAddrOf pre = p.addr := by
  rcases pre.eq_nil_or_concat with rfl | ⟨init, p, rfl⟩
  · exact absurd rfl h
  · exact ⟨p, by simp, by simp⟩

theorem Tidy.last_cell {pre : List Block} (h : Tidy pre) : Cell (lastAddrOf pre) := by
  by_cases hnil : pre = []
  · subst hnil
    exact ⟨by simp, by simp⟩
  · obtain ⟨p, hp, hlast⟩ := lastAddrOf_mem hnil
    rw [hlast]
    exact (h.wf p hp).cell

theorem Tidy.last_before {pre post : List Block} {e : Block} (h : Tidy (pre ++ e :: post)) :
    lastAddrOf pre < e.addr := by
  by_cases hnil : pre = []
  · subst hnil
    exact h.wf_mid.addr_pos
  · obtain ⟨p, hp, hlast⟩ := lastAddrOf_mem hnil
    rw [hlast]
    exact h.before hp

theorem wf_cut {m n : ℕ} (hm : 0 < m) (hn : 0 < n) (h16 : 16 ∣ m) :
    Wf ⟨a, m + n⟩ ↔ Wf ⟨a, m⟩ ∧ Wf ⟨a + m, n⟩ := by
  constructor
  · rintro ⟨h1, h2, h3, h4, h5⟩
    simp only [Block.stop] at *
    exact ⟨⟨h1, hm, h3, h16, by simp only [Block.stop]; omega⟩,
      ⟨by simp only; omega, hn, by simp only; omega, by simp only; omega,
        by simp only [Block.stop]; omega⟩⟩
  · rintro ⟨⟨h1, h2, h3, h4, h5⟩, ⟨k1, k2, k3, k4, k5⟩⟩
    simp only [Block.stop] at *
    exact ⟨h1, by simp only; omega, h3, by simp only; omega, by simp only [Block.stop]; omega⟩

/-- Cutting an entry at a cell, or joining two entries that touch. -/
theorem tidy_cut {pre post : List Block} {m n : ℕ} (hm : 0 < m) (hn : 0 < n) (h16 : 16 ∣ m) :
    Tidy (pre ++ ⟨a, m + n⟩ :: post) ↔ Tidy (pre ++ ⟨a, m⟩ :: ⟨a + m, n⟩ :: post) := by
  have hasc : Ascending (pre ++ ⟨a, m + n⟩ :: post) ↔
      Ascending (pre ++ ⟨a, m⟩ :: ⟨a + m, n⟩ :: post) := by
    simp only [ascending_append, ascending_cons, List.forall_mem_cons, stop_mk, Nat.add_assoc]
    constructor
    · rintro ⟨h1, ⟨h2, h3⟩, h4⟩
      exact ⟨h1, ⟨⟨le_refl _, fun c hc => by have := h2 c hc; omega⟩, h2, h3⟩,
        fun b hb => ⟨(h4 b hb).1, by have := (h4 b hb).1; omega, (h4 b hb).2⟩⟩
    · rintro ⟨h1, ⟨-, h2, h3⟩, h4⟩
      exact ⟨h1, ⟨h2, h3⟩, fun b hb => ⟨(h4 b hb).1, (h4 b hb).2.2⟩⟩
  have hwf : (∀ b ∈ pre ++ ⟨a, m + n⟩ :: post, Wf b) ↔
      ∀ b ∈ pre ++ ⟨a, m⟩ :: ⟨a + m, n⟩ :: post, Wf b := by
    simp only [List.forall_mem_append, List.forall_mem_cons, wf_cut hm hn h16, and_assoc]
  exact ⟨fun h => ⟨hasc.mp h.1, hwf.mp h.2⟩, fun h => ⟨hasc.mpr h.1, hwf.mpr h.2⟩⟩

/-! ## Taking and cutting an entry -/

/-- The link before an entry: in the entry before it, or the head. -/
def linkTo (prevAddr v : ℕ) (d : BootmemDesc) : BootmemDesc :=
  if prevAddr ≠ 0 then d.setNext prevAddr v else d.setHead v

theorem headAddr_linkTo {p : ℕ} :
    (linkTo p v d).headAddr = if p = 0 then v else d.headAddr := by
  by_cases hp : p = 0 <;> simp [linkTo, hp]

theorem next_linkTo {p : ℕ} (hp : Cell p) (hb : Cell b) (hb0 : b ≠ 0) :
    (linkTo p v d).next b = if b = p then v else d.next b := by
  by_cases hp0 : p = 0
  · simp [linkTo, hp0, hb0]
  · simp [linkTo, hp0, next_setNext hp hb]

theorem size_linkTo {p : ℕ} (hp : Cell p) (hb : Cell b) : (linkTo p v d).size b = d.size b := by
  by_cases hp0 : p = 0
  · simp [linkTo, hp0]
  · simp [linkTo, hp0, size_setNext hp hb]

/-- The link before an entry is moved in a memory that differs from the old one behind the
part before it only. -/
theorem Chain.linkTo {d' : BootmemDesc} {z z' : ℕ} {pre : List Block}
    (h : Chain d d.headAddr pre z) (htidy : Tidy pre) (hhead : d'.headAddr = d.headAddr)
    (hsame : ∀ b ∈ pre, d'.next b.addr = d.next b.addr ∧ d'.size b.addr = d.size b.addr) :
    Chain (linkTo (lastAddrOf pre) z' d') (linkTo (lastAddrOf pre) z' d').headAddr pre z' := by
  apply h.redirect htidy
  · rw [headAddr_linkTo, hhead]
  · intro b hb
    have hwf := htidy.wf b hb
    rw [next_linkTo htidy.last_cell hwf.cell (Nat.ne_of_gt hwf.addr_pos), (hsame b hb).1]
  · intro b hb
    rw [size_linkTo htidy.last_cell (htidy.wf b hb).cell, (hsame b hb).2]

theorem linkTo_behind {pre post : List Block} {e c : Block} {p : ℕ}
    (h : Tidy (pre ++ e :: post)) (hp : p = lastAddrOf pre) (hc : c ∈ post) :
    (linkTo p v d).next c.addr = d.next c.addr ∧ (linkTo p v d).size c.addr = d.size c.addr := by
  subst hp
  have hwf : Wf c := h.wf c (by simp [hc])
  have hlt : lastAddrOf pre < c.addr := by
    have h1 := h.last_before
    have h2 := h.behind hc
    rw [Block.stop] at h2
    omega
  have hcell : Cell (lastAddrOf pre) := h.left.last_cell
  rw [next_linkTo hcell hwf.cell (Nat.ne_of_gt hwf.addr_pos), if_neg (Nat.ne_of_gt hlt),
    size_linkTo hcell hwf.cell]
  exact ⟨rfl, rfl⟩

theorem takeStart_whole {pre post : List Block} {e : Block} (h : FreeList d (pre ++ e :: post)) :
    FreeList (takeStart e.size (lastAddrOf pre) e.addr d) (pre ++ post) := by
  obtain ⟨hpre, hsize, hpost⟩ := chain_split.mp h.chain
  have hdef : takeStart e.size (lastAddrOf pre) e.addr d =
      linkTo (lastAddrOf pre) (d.next e.addr) d := by
    simp only [takeStart, hsize, Nat.lt_irrefl, if_false]
    rfl
  rw [hdef]
  refine ⟨?_, h.tidy.drop⟩
  apply seg_append.mpr
  refine ⟨d.next e.addr, ?_, ?_⟩
  · exact hpre.linkTo h.tidy.left rfl fun b hb => ⟨rfl, rfl⟩
  · exact hpost.frame fun c hc => linkTo_behind h.tidy rfl hc

/-- The header of the upper part of an entry is written, and linked behind the lower one. -/
def writeUpper (entAddr newEntAddr size : ℕ) (d : BootmemDesc) : BootmemDesc :=
  ((d.setNext newEntAddr (d.next entAddr)).setSize newEntAddr size).setNext entAddr newEntAddr

section Upper

variable {e n x s : ℕ} (he : Cell e) (hn : Cell n) (hx : Cell x) (hne : n ≠ e)

include he hn hx

theorem next_writeUpper : (writeUpper e n s d).next x =
    if x = e then n else if x = n then d.next e else d.next x := by
  simp only [writeUpper, next_setNext he hx, next_setSize hn hx, next_setNext hn hx]

theorem size_writeUpper :
    (writeUpper e n s d).size x = if x = n then s else d.size x := by
  simp only [writeUpper, size_setNext he hx, size_setSize hn hx, size_setNext hn hx]

end Upper

theorem writeUpper_same {pre post : List Block} {e c : Block} {n s : ℕ}
    (h : Tidy (pre ++ e :: post)) (hn : Cell n) (hlo : e.addr < n) (hhi : n < e.stop)
    (hc : c ∈ pre ∨ c ∈ post) : (writeUpper e.addr n s d).next c.addr = d.next c.addr ∧
      (writeUpper e.addr n s d).size c.addr = d.size c.addr := by
  have hcell : Cell c.addr := (h.wf c (by simp only [List.mem_append, List.mem_cons]; tauto)).cell
  have hne : c.addr ≠ e.addr ∧ c.addr ≠ n := by
    rcases hc with hc | hc
    · have := h.before hc
      omega
    · have := h.behind hc
      omega
  rw [next_writeUpper h.wf_mid.cell hn hcell, size_writeUpper h.wf_mid.cell hn hcell,
    if_neg hne.1, if_neg hne.2, if_neg hne.2]
  exact ⟨rfl, rfl⟩

/-- The lower part of an entry is taken and the upper part stays. -/
theorem takeStart_part {pre post : List Block} {e m n : ℕ}
    (h : FreeList d (pre ++ ⟨e, m + n⟩ :: post)) (hm : 0 < m) (hn : 0 < n) (h16 : 16 ∣ m) :
    FreeList (takeStart m (lastAddrOf pre) e d) (pre ++ ⟨e + m, n⟩ :: post) := by
  have htidy := (tidy_cut hm hn h16).mp h.tidy
  have hwf := h.tidy.wf_mid
  have hcell : Cell (e + m) := (htidy.wf ⟨e + m, n⟩ (by simp)).cell
  have hstop : e + (m + n) ≤ 2 ^ 63 := hwf.stop_le
  obtain ⟨hpre, hsize, hpost⟩ := chain_split.mp h.chain
  have hupper : d.size e = m + n := hsize
  have hnext : (writeUpper e (e + m) n d).next e = e + m := by
    rw [next_writeUpper hwf.cell hcell hwf.cell, if_pos rfl]
  have hdef : takeStart m (lastAddrOf pre) e d = linkTo (lastAddrOf pre)
      ((writeUpper e (e + m) n d).next e) (writeUpper e (e + m) n d) := by
    have hlt : m < m + n := by omega
    have hadd : add64 e m = e + m := add64_of_lt (by omega)
    have hsub : sub64 (m + n) m = n := by
      rw [sub64_of_le (by omega) (by omega)]
      omega
    simp only [takeStart, hupper, hlt, if_true, hadd, hsub]
    rfl
  rw [hdef, hnext]
  have hsame : ∀ c, c ∈ pre ∨ c ∈ post → _ := fun c =>
    @writeUpper_same d pre post ⟨e, m + n⟩ c (e + m) n h.tidy hcell (by simp only; omega)
      (by simp only [stop_mk]; omega)
  have hlast : lastAddrOf pre < e + m := lt_trans h.tidy.last_before (by simp only; omega)
  have hlink := @next_linkTo (e + m) (e + m) (writeUpper e (e + m) n d) (lastAddrOf pre)
    h.tidy.left.last_cell hcell (by omega)
  refine ⟨chain_split.mpr ⟨?_, ?_, ?_⟩, htidy.drop⟩
  · exact hpre.linkTo h.tidy.left rfl fun b hb => hsame b (Or.inl hb)
  · rw [size_linkTo h.tidy.left.last_cell hcell, size_writeUpper hwf.cell hcell hcell, if_pos rfl]
  · rw [hlink, if_neg (Nat.ne_of_gt hlast), next_writeUpper hwf.cell hcell hcell,
      if_neg (by simp only; omega), if_pos rfl]
    apply hpost.frame
    intro c hc
    have h1 := @linkTo_behind (e + m) (writeUpper e (e + m) n d) pre post ⟨e, m + n⟩ c _ h.tidy
      rfl hc
    have h2 := hsame c (Or.inr hc)
    exact ⟨h1.1.trans h2.1, h1.2.trans h2.2⟩

theorem splitEntry_cut {pre post : List Block} {e m n : ℕ}
    (h : FreeList d (pre ++ ⟨e, m + n⟩ :: post)) (hm : 0 < m) (hn : 0 < n) (h16 : 16 ∣ m) :
    FreeList (splitEntry e (e + m) d) (pre ++ ⟨e, m⟩ :: ⟨e + m, n⟩ :: post) := by
  have htidy := (tidy_cut hm hn h16).mp h.tidy
  have hwf := h.tidy.wf_mid
  have hcell : Cell (e + m) := (htidy.wf ⟨e + m, n⟩ (by simp)).cell
  have hecell : Cell e := hwf.cell
  have hstop : e + (m + n) ≤ 2 ^ 63 := hwf.stop_le
  obtain ⟨hpre, hsize, hpost⟩ := chain_split.mp h.chain
  have hupper : d.size e = m + n := hsize
  -- the size of the lower part is written last but one, where no link stands
  have hdef : ∀ x, Cell x →
      (splitEntry e (e + m) d).next x = (writeUpper e (e + m) n d).next x ∧
      (splitEntry e (e + m) d).size x =
        if x = e then m else (writeUpper e (e + m) n d).size x := by
    intro x hx
    have hsub : sub64 (e + m) e = m := by
      rw [sub64_of_le (by omega) (by omega)]
      omega
    have hrest : sub64 (m + n) m = n := by
      rw [sub64_of_le (by omega) (by omega)]
      omega
    simp only [splitEntry, hsub, size_setNext hcell hecell, hupper, hrest]
    constructor
    · simp only [next_setNext hecell hx, next_setSize hecell hx, next_writeUpper hecell hcell hx,
        next_setSize hcell hx, next_setNext hcell hx]
    · simp only [size_setNext hecell hx, size_setSize hecell hx, size_writeUpper hecell hcell hx,
        size_setSize hcell hx, size_setNext hcell hx]
  have hsame : ∀ c, c ∈ pre ∨ c ∈ post →
      (splitEntry e (e + m) d).next c.addr = d.next c.addr ∧
      (splitEntry e (e + m) d).size c.addr = d.size c.addr := by
    intro c hc
    have hc' : Cell c.addr :=
      (h.tidy.wf c (by simp only [List.mem_append, List.mem_cons]; tauto)).cell
    have hne : c.addr ≠ e := by
      rcases hc with hc | hc
      · exact Nat.ne_of_lt (h.tidy.before hc)
      · have := h.tidy.behind hc
        simp only [stop_mk] at this
        omega
    rw [(hdef _ hc').1, (hdef _ hc').2, if_neg hne]
    exact @writeUpper_same d pre post ⟨e, m + n⟩ c (e + m) n h.tidy hcell (by simp only; omega)
      (by simp only [stop_mk]; omega) hc
  have hlow := hdef e hecell
  have hhigh := hdef (e + m) hcell
  rw [next_writeUpper hecell hcell hecell, if_pos rfl, if_pos rfl] at hlow
  rw [next_writeUpper hecell hcell hcell, size_writeUpper hecell hcell hcell,
    if_neg (by omega), if_pos rfl, if_neg (by omega), if_pos rfl] at hhigh
  refine ⟨chain_split.mpr ⟨?_, hlow.2, hlow.1, hhigh.2, ?_⟩, htidy⟩
  · exact hpre.frame fun b hb => hsame b (Or.inl hb)
  · simp only [hhigh.1]
    exact hpost.frame fun c hc => hsame c (Or.inr hc)

/-- What is returned and what stays on the list make up the list before. -/
theorem takeStart_spec {pre post : List Block} {e : Block} {n : ℕ}
    (h : FreeList d (pre ++ e :: post)) (hn : 0 < n) (hle : n ≤ e.size) (h16 : 16 ∣ n) :
    ∃ l, FreeList (takeStart n (lastAddrOf pre) e.addr d) l ∧
      Repart (pre ++ e :: post) (⟨e.addr, n⟩ :: l) := by
  obtain ⟨a, size⟩ := e
  rcases Nat.eq_or_lt_of_le hle with rfl | hlt
  · exact ⟨pre ++ post, takeStart_whole h, repart_middle pre _ post⟩
  · obtain ⟨m, rfl⟩ : ∃ m, size = n + m := ⟨size - n, by simp only at hlt; omega⟩
    have hm : 0 < m := by
      simp only at hlt
      omega
    refine ⟨pre ++ ⟨a + n, m⟩ :: post, takeStart_part h hn hm h16, ?_⟩
    exact (repart_cut pre a post hn hm).trans (repart_middle pre _ _)

/-! ## Putting a block back -/

theorem FreeList.congr {d' : BootmemDesc} {l : List Block} (h : FreeList d l)
    (hhead : d'.headAddr = d.headAddr)
    (hsame : ∀ x, Cell x → d'.next x = d.next x ∧ d'.size x = d.size x) : FreeList d' l := by
  refine ⟨?_, h.tidy⟩
  rw [hhead]
  exact h.chain.frame fun b hb => hsame b.addr (h.tidy.wf b hb).cell

/-- A header is written where the links already lead. -/
theorem freeList_reheader {pre post : List Block} {b : Block} {x : ℕ}
    (hpre : Chain d d.headAddr pre b.addr) (hpost : Chain d x post 0)
    (h : Tidy (pre ++ b :: post)) :
    FreeList ((d.setSize b.addr b.size).setNext b.addr x) (pre ++ b :: post) := by
  have hb : Cell b.addr := h.wf_mid.cell
  have hsame : ∀ c, c ∈ pre ∨ c ∈ post →
      ((d.setSize b.addr b.size).setNext b.addr x).next c.addr = d.next c.addr ∧
      ((d.setSize b.addr b.size).setNext b.addr x).size c.addr = d.size c.addr := by
    intro c hc
    have hcell : Cell c.addr := (h.wf c (by simp only [List.mem_append, List.mem_cons]; tauto)).cell
    have hne : c.addr ≠ b.addr := by
      rcases hc with hc | hc
      · exact Nat.ne_of_lt (h.before hc)
      · have h1 := h.behind hc
        have h2 := h.wf_mid.size_pos
        rw [Block.stop] at h1
        omega
    simp [next_setNext, next_setSize, size_setNext, size_setSize, hb, hcell, hne]
  refine ⟨chain_split.mpr ⟨?_, ?_, ?_⟩, h⟩
  · exact hpre.frame fun c hc => hsame c (Or.inl hc)
  · simp [size_setNext, size_setSize, hb]
  · simp only [next_setNext hb hb, if_true]
    exact hpost.frame fun c hc => hsame c (Or.inr hc)

/-- A header is written, and the link before it moved there. -/
theorem freeList_put {pre post : List Block} {b : Block} {x z : ℕ}
    (hpre : Chain d d.headAddr pre z) (hpost : Chain d x post 0) (h : Tidy (pre ++ b :: post)) :
    FreeList (((linkTo (lastAddrOf pre) b.addr d).setSize b.addr b.size).setNext b.addr x)
      (pre ++ b :: post) := by
  apply freeList_reheader _ _ h
  · exact hpre.linkTo h.left rfl fun c hc => ⟨rfl, rfl⟩
  · exact hpost.frame fun c hc => linkTo_behind h rfl hc

/-- The link may be moved after the header is written. -/
theorem freeList_put_link {pre post : List Block} {b : Block} {x z : ℕ}
    (hpre : Chain d d.headAddr pre z) (hpost : Chain d x post 0) (h : Tidy (pre ++ b :: post)) :
    FreeList (linkTo (lastAddrOf pre) b.addr ((d.setSize b.addr b.size).setNext b.addr x))
      (pre ++ b :: post) := by
  have hb : Cell b.addr := h.wf_mid.cell
  have hlast : Cell (lastAddrOf pre) := h.left.last_cell
  refine (freeList_put hpre hpost h).congr (by simp [headAddr_linkTo]) ?_
  intro y hy
  have hne : lastAddrOf pre ≠ b.addr := Nat.ne_of_lt h.last_before
  by_cases h0 : lastAddrOf pre = 0
  · simp [linkTo, h0, next_setNext, next_setSize, size_setNext, size_setSize, hb, hy]
  · simp only [linkTo, if_pos h0, next_setNext, next_setSize, size_setNext, size_setSize, hb,
      hlast, hy, and_true]
    by_cases hyb : y = b.addr
    · simp [hyb, hne.symm]
    · simp [hyb]

theorem Tidy.join {pre post : List Block} {b c : Block} (h : Tidy (pre ++ b :: c :: post))
    (hstop : b.stop = c.addr) : Tidy (pre ++ ⟨b.addr, b.size + c.size⟩ :: post) ∧
      Repart (pre ++ b :: c :: post) (pre ++ ⟨b.addr, b.size + c.size⟩ :: post) := by
  obtain ⟨a, m⟩ := b
  obtain ⟨a', n⟩ := c
  obtain rfl : a + m = a' := hstop
  have hb : Wf ⟨a, m⟩ := h.wf _ (by simp)
  have hc : Wf ⟨a + m, n⟩ := h.wf _ (by simp)
  exact ⟨(tidy_cut hb.size_pos hc.size_pos hb.size_dvd).mpr h,
    (repart_cut pre a post hb.size_pos hc.size_pos).symm⟩

def Joined (d' : BootmemDesc) (b : Block) (l : List Block) : Prop :=
  ∃ l', FreeList d' l' ∧ Repart (b :: l) l'

theorem joinRight_cons_of_eq {b c : Block} (h : b.stop = c.addr) (l : List Block) :
    joinRight b (c :: l) = ⟨b.addr, b.size + c.size⟩ :: l := if_pos h

theorem joinRight_cons_of_ne {b c : Block} (h : b.stop ≠ c.addr) (l : List Block) :
    joinRight b (c :: l) = b :: c :: l := if_neg h

theorem freeFront_list {l : List Block} {b : Block} (h : FreeList d l) (hb : Tidy (b :: l)) :
    FreeList (freeFront b.addr b.size d.headAddr d).1 (joinRight b l) ∧
      (freeFront b.addr b.size d.headAddr d).2 = 1 := by
  have hwf : Wf b := hb.wf b (by simp)
  have hstop : b.addr + b.size ≤ 2 ^ 63 := hwf.stop_le
  have hadd : add64 b.addr b.size = b.addr + b.size := add64_of_lt (by omega)
  have hhead : d.headAddr = headAddrOf l := h.chain.start
  have hok : ¬ (d.headAddr ≠ 0 ∧ add64 b.addr b.size > d.headAddr) := by
    rw [hhead, hadd]
    cases l with
    | nil => simp [headAddrOf]
    | cons c l =>
      have hle : b.stop ≤ c.addr := @Tidy.behind [] (c :: l) b hb c (by simp)
      rw [Block.stop] at hle
      simp only [headAddrOf]
      omega
  rw [freeFront, if_neg hok]
  by_cases htouch : add64 b.addr b.size = d.headAddr
  · rw [if_pos htouch]
    refine ⟨?_, rfl⟩
    cases l with
    | nil =>
      have := hwf.addr_pos
      simp only [headAddrOf] at hhead
      omega
    | cons c l =>
      have hc : Wf c := hb.wf c (by simp)
      simp only [headAddrOf] at hhead
      have hbc : b.stop = c.addr := by rw [Block.stop, ← hhead, ← htouch, hadd]
      obtain ⟨-, hsize, hpost⟩ := (@chain_split _ _ _ [] l c).mp h.chain
      have hput := @freeList_put d [] l ⟨b.addr, b.size + c.size⟩ _ _ rfl hpost
        (@Tidy.join [] l b c hb hbc).1
      rw [joinRight_cons_of_eq hbc]
      refine hput.congr rfl ?_
      intro x hx
      have hsum : add64 c.size b.size = b.size + c.size := by
        have hle : c.addr + c.size ≤ 2 ^ 63 := hc.stop_le
        rw [add64_of_lt (by omega), Nat.add_comm]
      simp only [hhead] at *
      simp [linkTo, next_setNext, next_setSize, size_setNext, size_setSize, hwf.cell, hc.cell, hx,
        hsize, hsum]
  · rw [if_neg htouch]
    have hjoin : joinRight b l = b :: l := by
      cases l with
      | nil => rfl
      | cons c l =>
        rw [hadd, hhead] at htouch
        exact joinRight_cons_of_ne htouch l
    rw [hjoin]
    refine ⟨?_, rfl⟩
    have hput := @freeList_put d [] l b d.headAddr _ rfl h.chain hb
    refine hput.congr rfl ?_
    intro x hx
    simp [linkTo, next_setNext, next_setSize, size_setNext, size_setSize, hwf.cell, hx]

/-- An entry grows over memory that is on no list. -/
theorem freeList_grow {init post : List Block} {p : Block} {n : ℕ}
    (h : FreeList d (init ++ p :: post)) (hn : Tidy (init ++ ⟨p.addr, n⟩ :: post)) :
    FreeList (d.setSize p.addr n) (init ++ ⟨p.addr, n⟩ :: post) := by
  obtain ⟨hinit, hsize, hpost⟩ := chain_split.mp h.chain
  have hp : Cell p.addr := h.tidy.wf_mid.cell
  refine (@freeList_reheader d init post ⟨p.addr, n⟩ _ hinit hpost hn).congr rfl ?_
  intro x hx
  simp only [next_setNext hp hx, next_setSize hp hx, size_setNext hp hx]
  by_cases hxp : x = p.addr
  · simp [hxp]
  · simp [hxp]

theorem freeLast_list {init : List Block} {p b : Block} (h : FreeList d (init ++ [p]))
    (hb : Tidy (init ++ [p, b])) :
    FreeList (freeLast b.addr b.size p.addr d) (init ++ joinRight p [b]) := by
  have hp : Wf p := hb.wf p (by simp)
  have hwf : Wf b := hb.wf b (by simp)
  have hpstop : p.addr + p.size ≤ 2 ^ 63 := hp.stop_le
  have hbstop : b.addr + b.size ≤ 2 ^ 63 := hwf.stop_le
  have hsize : d.size p.addr = p.size := (chain_split.mp h.chain).2.1
  have hadd : add64 p.addr (d.size p.addr) = p.stop := by
    rw [hsize, add64_of_lt (by omega), Block.stop]
  rw [freeLast, hadd]
  by_cases htouch : p.stop = b.addr
  · have hb0 : 0 < b.addr := hwf.addr_pos
    rw [if_pos htouch, joinRight_cons_of_eq htouch, hsize, add64_of_lt (by omega)]
    exact freeList_grow h (hb.join htouch).1
  · rw [if_neg htouch, joinRight_cons_of_ne htouch]
    have hput := @freeList_put d (init ++ [p]) [] b 0 _ h.chain rfl (by simpa using hb)
    rw [lastAddrOf_snoc, linkTo, if_pos (Nat.ne_of_gt hp.addr_pos)] at hput
    simpa using hput

/-- Between two entries, behind the first of which the block lies at once. -/
theorem freeBetween_touching {init post : List Block} {p b c : Block}
    (h : FreeList d (init ++ p :: c :: post)) (hb : Tidy (init ++ p :: b :: c :: post))
    (htouch : p.stop = b.addr) :
    FreeList (freeBetween b.addr b.size p.addr c.addr d)
      (init ++ joinRight p (joinRight b (c :: post))) := by
  have hp : Wf p := hb.wf p (by simp)
  have hwf : Wf b := hb.wf b (by simp)
  have hc : Wf c := hb.wf c (by simp)
  have hpstop : p.addr + p.size ≤ 2 ^ 63 := hp.stop_le
  have hbstop : b.addr + b.size ≤ 2 ^ 63 := hwf.stop_le
  have hcstop : c.addr + c.size ≤ 2 ^ 63 := hc.stop_le
  have hsize : d.size p.addr = p.size := (chain_split.mp h.chain).2.1
  have hadd : add64 p.addr (d.size p.addr) = p.stop := by
    rw [hsize, add64_of_lt (by omega), Block.stop]
  have hadd' : add64 b.addr b.size = b.stop := by
    rw [add64_of_lt (by omega), Block.stop]
  have hjoin := (hb.join htouch).1
  have hb0 : 0 < b.addr := hwf.addr_pos
  have hgrow := freeList_grow h hjoin
  rw [freeBetween, hadd, hadd', if_pos htouch, hsize, add64_of_lt (by omega)]
  by_cases htouch' : b.stop = c.addr
  · simp only [if_pos htouch', joinRight_cons_of_eq htouch']
    obtain ⟨hinit, hpsize, hrest⟩ := chain_split.mp hgrow.chain
    obtain ⟨hcaddr, hcsize, hpost⟩ := hrest
    have hstop : (⟨p.addr, p.size + b.size⟩ : Block).stop = c.addr := by
      rw [← htouch', stop_mk, Block.stop, ← htouch, Block.stop, Nat.add_assoc]
    have hjoin' := (hjoin.join hstop).1
    have hsum : add64 c.size (p.size + b.size) = p.size + b.size + c.size := by
      rw [stop_mk] at hstop
      rw [add64_of_lt (by omega), Nat.add_comm]
    simp only at hpsize
    have hpb : p.stop = (⟨b.addr, b.size + c.size⟩ : Block).addr := htouch
    rw [hcsize, hpsize, hsum, next_setSize hp.cell hc.cell, joinRight_cons_of_eq hpb,
      ← Nat.add_assoc]
    exact @freeList_reheader _ init post ⟨p.addr, p.size + b.size + c.size⟩ _ hinit hpost hjoin'
  · simp only [if_neg htouch', joinRight_cons_of_ne htouch', joinRight_cons_of_eq htouch]
    exact hgrow

/-- Between two entries, away from the first. -/
theorem freeBetween_apart {init post : List Block} {p b c : Block}
    (h : FreeList d (init ++ p :: c :: post)) (hb : Tidy (init ++ p :: b :: c :: post))
    (htouch : p.stop ≠ b.addr) :
    FreeList (freeBetween b.addr b.size p.addr c.addr d)
      (init ++ joinRight p (joinRight b (c :: post))) := by
  have hp : Wf p := hb.wf p (by simp)
  have hwf : Wf b := hb.wf b (by simp)
  have hc : Wf c := hb.wf c (by simp)
  have hpstop : p.addr + p.size ≤ 2 ^ 63 := hp.stop_le
  have hbstop : b.addr + b.size ≤ 2 ^ 63 := hwf.stop_le
  have hcstop : c.addr + c.size ≤ 2 ^ 63 := hc.stop_le
  obtain ⟨hinit, hsize, hlinked, -⟩ := chain_split.mp h.chain
  obtain ⟨-, -, hcaddr, hcsize, hpost⟩ := chain_split.mp h.chain
  have hadd : add64 p.addr (d.size p.addr) = p.stop := by
    rw [hsize, add64_of_lt (by omega), Block.stop]
  have hadd' : add64 b.addr b.size = b.stop := by
    rw [add64_of_lt (by omega), Block.stop]
  rw [freeBetween, hadd, hadd', if_neg htouch]
  have hsnoc : Tidy ((init ++ [p]) ++ b :: c :: post) := by simpa using hb
  have hpre : Chain d d.headAddr (init ++ [p]) c.addr := seg_snoc.mpr ⟨hinit, hsize, hlinked⟩
  have hp0 : p.addr ≠ 0 := Nat.ne_of_gt hp.addr_pos
  by_cases htouch' : b.stop = c.addr
  · have hne : p.stop ≠ (⟨b.addr, b.size + c.size⟩ : Block).addr := htouch
    simp only [if_pos htouch', joinRight_cons_of_eq htouch', joinRight_cons_of_ne hne]
    have hput := @freeList_put_link d (init ++ [p]) post ⟨b.addr, b.size + c.size⟩ _ _ hpre hpost
      (hsnoc.join htouch').1
    have hsum : add64 c.size b.size = b.size + c.size := by
      have hc0 : 0 < c.addr := hc.addr_pos
      rw [add64_of_lt (by omega), Nat.add_comm]
    rw [lastAddrOf_snoc, linkTo, if_pos hp0] at hput
    rw [hcsize, hsum, next_setSize hwf.cell hc.cell]
    simpa using hput
  · simp only [if_neg htouch', joinRight_cons_of_ne htouch', joinRight_cons_of_ne htouch]
    have hput := @freeList_put_link d (init ++ [p]) (c :: post) b c.addr _ hpre
      ⟨rfl, hcsize, hpost⟩ hsnoc
    rw [lastAddrOf_snoc, linkTo, if_pos hp0] at hput
    simpa using hput

theorem freeBetween_list {init post : List Block} {p b c : Block}
    (h : FreeList d (init ++ p :: c :: post)) (hb : Tidy (init ++ p :: b :: c :: post)) :
    FreeList (freeBetween b.addr b.size p.addr c.addr d)
      (init ++ joinRight p (joinRight b (c :: post))) := by
  by_cases htouch : p.stop = b.addr
  · exact freeBetween_touching h hb htouch
  · exact freeBetween_apart h hb htouch

/-- The list after a block was put back between two parts of it. -/
inductive Rejoined (b : Block) (after : List Block) : List Block → List Block → Prop where
  | front : Rejoined b after [] (joinRight b after)
  | behind (init : List Block) (p : Block) :
      Rejoined b after (init ++ [p]) (init ++ joinRight p (joinRight b after))

theorem Rejoined.repart {b : Block} {before after l : List Block} (h : Rejoined b after before l)
    (hpos : ∀ c ∈ before ++ b :: after, 0 < c.size) : Repart (b :: (before ++ after)) l := by
  have hjoin : Repart (b :: after) (joinRight b after) :=
    repart_joinRight (hpos b (by simp)) fun c hc => hpos c (by simp [hc])
  cases h with
  | front => exact hjoin
  | behind init p =>
    have hafter : ∀ c ∈ after, 0 < c.size := fun c hc => hpos c (by simp [hc])
    have hpos' := size_pos_joinRight (hpos b (by simp)) hafter
    have hlast := repart_joinRight (hpos p (by simp)) hpos'
    have hmove : Repart (b :: (init ++ [p] ++ after)) (init ++ [p] ++ b :: after) :=
      (repart_middle (init ++ [p]) b after).symm
    refine hmove.trans ?_
    rw [List.append_assoc, List.singleton_append]
    exact ((hjoin.cons p).trans hlast).append_left init

end Bootmem
