import Mathlib.Data.List.Perm.Basic
import Mathlib.Data.Set.Basic

/-! # Partitions of memory into blocks

Two lists of blocks are repartitions of each other when one comes from the other by cutting,
joining and reordering blocks. Then they occupy the same bytes, have the same total size, and
the blocks of one are apart exactly when those of the other are.
-/
namespace BlockPartition

structure Block where
  addr : ℕ
  size : ℕ
  deriving DecidableEq

def Block.stop (b : Block) : ℕ := b.addr + b.size

@[simp] theorem stop_mk (a n : ℕ) : (Block.mk a n).stop = a + n := rfl

/-- The two blocks have no byte in common. -/
def Apart (b c : Block) : Prop := b.stop ≤ c.addr ∨ c.stop ≤ b.addr

/-- No block is empty and no two overlap. -/
def Separate (l : List Block) : Prop := (∀ b ∈ l, 0 < b.size) ∧ l.Pairwise Apart

def Ascending (l : List Block) : Prop := l.Pairwise fun b c => b.stop ≤ c.addr

def bytes (l : List Block) : Set ℕ := { x | ∃ b ∈ l, b.addr ≤ x ∧ x < b.stop }

def total : List Block → ℕ
  | [] => 0
  | b :: l => b.size + total l

inductive Repart : List Block → List Block → Prop where
  | perm {l k : List Block} : l.Perm k → Repart l k
  | cut (a : ℕ) {m n : ℕ} (l : List Block) : 0 < m → 0 < n →
      Repart (⟨a, m + n⟩ :: l) (⟨a, m⟩ :: ⟨a + m, n⟩ :: l)
  | symm {l k : List Block} : Repart l k → Repart k l
  | trans {l k j : List Block} : Repart l k → Repart k j → Repart l j

theorem Repart.refl (l : List Block) : Repart l l := .perm (List.Perm.refl l)

theorem apart_comm {b c : Block} : Apart b c ↔ Apart c b := or_comm

theorem Ascending.separate {l : List Block} (h : Ascending l) (hpos : ∀ b ∈ l, 0 < b.size) :
    Separate l :=
  ⟨hpos, List.Pairwise.imp (fun hle => Or.inl hle) h⟩

theorem total_cons (b : Block) (l : List Block) : total (b :: l) = b.size + total l := rfl

theorem total_append (l k : List Block) : total (l ++ k) = total l + total k := by
  induction l with
  | nil => simp [total]
  | cons b l ih => rw [List.cons_append, total_cons, ih, total_cons, Nat.add_assoc]

theorem total_perm {l k : List Block} (h : l.Perm k) : total l = total k := by
  induction h with
  | nil => rfl
  | cons b _ ih => rw [total_cons, total_cons, ih]
  | swap b c l =>
    simp only [total_cons]
    omega
  | trans _ _ ih₁ ih₂ => exact ih₁.trans ih₂

/-! ## What a repartition keeps -/

theorem bytes_cons (b : Block) (l : List Block) :
    bytes (b :: l) = { x | b.addr ≤ x ∧ x < b.stop } ∪ bytes l := by
  ext x
  simp [bytes]

theorem bytes_perm {l k : List Block} (h : l.Perm k) : bytes l = bytes k := by
  ext x
  simp [bytes, h.mem_iff]

theorem repart_bytes {l k : List Block} (h : Repart l k) : bytes l = bytes k := by
  induction h with
  | perm h => exact bytes_perm h
  | cut a l hm hn =>
    ext x
    simp only [bytes_cons, Set.mem_union, Set.mem_ofPred_eq, stop_mk, ← or_assoc]
    apply or_congr_left
    omega
  | symm _ ih => exact ih.symm
  | trans _ _ ih₁ ih₂ => exact ih₁.trans ih₂

theorem repart_total {l k : List Block} (h : Repart l k) : total l = total k := by
  induction h with
  | perm h => exact total_perm h
  | cut a l hm hn =>
    simp only [total_cons]
    omega
  | symm _ ih => exact ih.symm
  | trans _ _ ih₁ ih₂ => exact ih₁.trans ih₂

/-- A block that is not empty is apart from both parts of a cut or from none of them. -/
theorem apart_cut {a m n : ℕ} {c : Block} (hc : 0 < c.size) :
    Apart ⟨a, m + n⟩ c ↔ Apart ⟨a, m⟩ c ∧ Apart ⟨a + m, n⟩ c := by
  simp only [Apart, Block.stop]
  omega

theorem separate_perm {l k : List Block} (h : l.Perm k) : Separate l ↔ Separate k := by
  refine and_congr ?_ (h.pairwise_iff fun hab => apart_comm.mp hab)
  constructor
  · exact fun hl b hb => hl b (h.mem_iff.mpr hb)
  · exact fun hk b hb => hk b (h.mem_iff.mp hb)

theorem separate_cons {b : Block} {l : List Block} :
    Separate (b :: l) ↔ (0 < b.size ∧ ∀ c ∈ l, Apart b c) ∧ Separate l := by
  simp only [Separate, List.forall_mem_cons, List.pairwise_cons]
  tauto

theorem repart_separate {l k : List Block} (h : Repart l k) : Separate l ↔ Separate k := by
  induction h with
  | perm h => exact separate_perm h
  | cut a l hm hn =>
    simp only [separate_cons, List.forall_mem_cons]
    constructor
    · rintro ⟨⟨-, hap⟩, hl⟩
      have hparts := fun c hc => (apart_cut (hl.1 c hc)).mp (hap c hc)
      refine ⟨⟨hm, Or.inl (le_refl _), fun c hc => (hparts c hc).1⟩, ⟨hn, ?_⟩, hl⟩
      exact fun c hc => (hparts c hc).2
    · rintro ⟨⟨-, -, hleft⟩, ⟨-, hright⟩, hl⟩
      refine ⟨⟨by omega, ?_⟩, hl⟩
      exact fun c hc => (apart_cut (hl.1 c hc)).mpr ⟨hleft c hc, hright c hc⟩
  | symm _ ih => exact ih.symm
  | trans _ _ ih₁ ih₂ => exact ih₁.trans ih₂

/-! ## Repartitions in context -/

theorem Repart.cons {l k : List Block} (b : Block) (h : Repart l k) :
    Repart (b :: l) (b :: k) := by
  induction h with
  | perm h => exact .perm (h.cons b)
  | @cut a m n l hm hn =>
    have hswap : Repart (b :: ⟨a, m + n⟩ :: l) (⟨a, m + n⟩ :: b :: l) := .perm (.swap _ _ _)
    have hback : List.Perm ([⟨a, m⟩, ⟨a + m, n⟩] ++ b :: l) (b :: ([⟨a, m⟩, ⟨a + m, n⟩] ++ l)) :=
      List.perm_middle
    exact (hswap.trans (.cut a (b :: l) hm hn)).trans (.perm hback)
  | symm _ ih => exact ih.symm
  | trans _ _ ih₁ ih₂ => exact ih₁.trans ih₂

theorem Repart.append_left {l k : List Block} (j : List Block) (h : Repart l k) :
    Repart (j ++ l) (j ++ k) := by
  induction j with
  | nil => exact h
  | cons b j ih => exact ih.cons b

theorem Repart.append_right {l k : List Block} (j : List Block) (h : Repart l k) :
    Repart (l ++ j) (k ++ j) :=
  ((Repart.perm List.perm_append_comm).trans (h.append_left j)).trans
    (.perm List.perm_append_comm)

theorem repart_cut (pre : List Block) (a : ℕ) {m n : ℕ} (post : List Block) (hm : 0 < m)
    (hn : 0 < n) :
    Repart (pre ++ ⟨a, m + n⟩ :: post) (pre ++ ⟨a, m⟩ :: ⟨a + m, n⟩ :: post) :=
  (Repart.cut a post hm hn).append_left pre

theorem repart_middle (pre : List Block) (b : Block) (post : List Block) :
    Repart (pre ++ b :: post) (b :: (pre ++ post)) :=
  .perm List.perm_middle

/-! ## Ascending lists -/

theorem ascending_append {l k : List Block} : Ascending (l ++ k) ↔
    Ascending l ∧ Ascending k ∧ ∀ b ∈ l, ∀ c ∈ k, b.stop ≤ c.addr :=
  List.pairwise_append

theorem ascending_cons {b : Block} {l : List Block} :
    Ascending (b :: l) ↔ (∀ c ∈ l, b.stop ≤ c.addr) ∧ Ascending l :=
  List.pairwise_cons

/-! ## Coalesced lists -/

/-- By rising address, with a gap between any two blocks. -/
def Coalesced (l : List Block) : Prop := l.Pairwise fun b c => b.stop < c.addr

theorem Coalesced.ascending {l : List Block} (h : Coalesced l) : Ascending l :=
  List.Pairwise.imp Nat.le_of_lt h

theorem coalesced_append {l k : List Block} : Coalesced (l ++ k) ↔
    Coalesced l ∧ Coalesced k ∧ ∀ b ∈ l, ∀ c ∈ k, b.stop < c.addr :=
  List.pairwise_append

theorem coalesced_cons {b : Block} {l : List Block} :
    Coalesced (b :: l) ↔ (∀ c ∈ l, b.stop < c.addr) ∧ Coalesced l :=
  List.pairwise_cons

/-- The first byte of a list is that of its first block. -/
theorem Ascending.addr_le {b : Block} {l : List Block} (h : Ascending (b :: l)) {x : ℕ}
    (hx : x ∈ bytes (b :: l)) : b.addr ≤ x := by
  obtain ⟨c, hc, hle, -⟩ := hx
  rcases List.mem_cons.mp hc with rfl | hc
  · exact hle
  · have hbc := (ascending_cons.mp h).1 c hc
    rw [Block.stop] at hbc
    omega

/-- Behind the first block of a coalesced list there is a gap. -/
theorem Coalesced.stop_notMem {b : Block} {l : List Block} (h : Coalesced (b :: l)) :
    b.stop ∉ bytes (b :: l) := by
  intro hx
  obtain ⟨c, hc, hle, hlt⟩ := hx
  rcases List.mem_cons.mp hc with rfl | hc
  · omega
  · have hbc := (coalesced_cons.mp h).1 c hc
    omega

theorem Ascending.mem_bytes_tail {b : Block} {l : List Block} (h : Ascending (b :: l)) {x : ℕ} :
    x ∈ bytes l ↔ x ∈ bytes (b :: l) ∧ b.stop ≤ x := by
  rw [bytes_cons]
  constructor
  · intro hx
    refine ⟨Or.inr hx, ?_⟩
    obtain ⟨c, hc, hle, -⟩ := hx
    exact le_trans ((ascending_cons.mp h).1 c hc) hle
  · intro hx
    obtain ⟨hin | hin, hle⟩ := hx
    · exact absurd hin.2 (Nat.not_lt.mpr hle)
    · exact hin

theorem mem_bytes_addr {b : Block} {l : List Block} (hpos : 0 < b.size) :
    b.addr ∈ bytes (b :: l) := by
  refine ⟨b, by simp, le_refl _, ?_⟩
  rw [Block.stop]
  omega

theorem Coalesced.stop_le {b c : Block} {l k : List Block} (hl : Coalesced (b :: l))
    (haddr : b.addr = c.addr) (hbytes : bytes (b :: l) = bytes (c :: k)) : c.stop ≤ b.stop := by
  by_contra hlt
  have hin : b.stop ∈ bytes (c :: k) := by
    refine ⟨c, by simp, ?_, by omega⟩
    rw [← haddr, Block.stop]
    omega
  exact hl.stop_notMem (hbytes ▸ hin)

theorem coalesced_ext {l k : List Block} (hl : Coalesced l) (hk : Coalesced k)
    (hlpos : ∀ b ∈ l, 0 < b.size) (hkpos : ∀ b ∈ k, 0 < b.size) (h : bytes l = bytes k) :
    l = k := by
  induction l generalizing k with
  | nil =>
    cases k with
    | nil => rfl
    | cons c k =>
      have hc := mem_bytes_addr (l := k) (hkpos c (by simp))
      rw [← h] at hc
      obtain ⟨b, hb, -⟩ := hc
      cases hb
  | cons b l ih =>
    cases k with
    | nil =>
      have hb := mem_bytes_addr (l := l) (hlpos b (by simp))
      rw [h] at hb
      obtain ⟨c, hc, -⟩ := hb
      cases hc
    | cons c k =>
      have haddr : b.addr = c.addr := by
        apply Nat.le_antisymm
        · exact hl.ascending.addr_le (h ▸ mem_bytes_addr (hkpos c (by simp)))
        · exact hk.ascending.addr_le (h ▸ mem_bytes_addr (hlpos b (by simp)))
      have hstop : b.stop = c.stop :=
        Nat.le_antisymm (hk.stop_le haddr.symm h.symm) (hl.stop_le haddr h)
      have hbc : b = c := by
        obtain ⟨a, m⟩ := b
        obtain ⟨a', n⟩ := c
        simp only [stop_mk] at haddr hstop
        rw [Block.mk.injEq]
        omega
      subst hbc
      have htail : bytes l = bytes k := by
        ext x
        rw [hl.ascending.mem_bytes_tail, hk.ascending.mem_bytes_tail, h]
      rw [ih (coalesced_cons.mp hl).2 (coalesced_cons.mp hk).2
        (fun d hd => hlpos d (by simp [hd])) (fun d hd => hkpos d (by simp [hd])) htail]

/-! ## Joining -/

/-- A block in front of a list, joined with the first block if it touches it. -/
def joinRight (b : Block) : List Block → List Block
  | [] => [b]
  | c :: l => if b.stop = c.addr then ⟨b.addr, b.size + c.size⟩ :: l else b :: c :: l

theorem repart_joinRight {b : Block} {l : List Block} (hb : 0 < b.size)
    (hl : ∀ c ∈ l, 0 < c.size) : Repart (b :: l) (joinRight b l) := by
  cases l with
  | nil => exact Repart.refl _
  | cons c l =>
    rw [joinRight]
    split
    · next htouch =>
      obtain ⟨a, m⟩ := b
      obtain ⟨a', n⟩ := c
      obtain rfl : a + m = a' := htouch
      exact (Repart.cut a l hb (hl ⟨a + m, n⟩ (by simp))).symm
    · exact Repart.refl _

theorem size_pos_joinRight {b : Block} {l : List Block} (hb : 0 < b.size)
    (hl : ∀ c ∈ l, 0 < c.size) : ∀ c ∈ joinRight b l, 0 < c.size := by
  intro c hc
  cases l with
  | nil =>
    obtain rfl : c = b := by simpa [joinRight] using hc
    exact hb
  | cons e l =>
    rw [joinRight] at hc
    split at hc
    · rcases List.mem_cons.mp hc with rfl | hc
      · exact Nat.add_pos_left hb _
      · exact hl c (by simp [hc])
    · rcases List.mem_cons.mp hc with rfl | hc
      · exact hb
      · exact hl c hc

/-- What is before the block and the list is before the two joined. -/
theorem forall_joinRight {P : ℕ → Prop} {b : Block} {l : List Block} (hb : P b.addr)
    (hl : ∀ c ∈ l, P c.addr) : ∀ c ∈ joinRight b l, P c.addr := by
  intro c hc
  cases l with
  | nil =>
    obtain rfl : c = b := by simpa [joinRight] using hc
    exact hb
  | cons e l =>
    rw [joinRight] at hc
    split at hc
    · rcases List.mem_cons.mp hc with rfl | hc
      · exact hb
      · exact hl c (by simp [hc])
    · rcases List.mem_cons.mp hc with rfl | hc
      · exact hb
      · exact hl c hc

theorem coalesced_joinRight {b : Block} {l : List Block} (hl : Coalesced l)
    (hle : ∀ c ∈ l, b.stop ≤ c.addr) (hpos : ∀ c ∈ l, 0 < c.size) :
    Coalesced (joinRight b l) := by
  cases l with
  | nil => exact List.pairwise_singleton _ _
  | cons c l =>
    obtain ⟨hc, hrest⟩ := coalesced_cons.mp hl
    rw [joinRight]
    split
    · next htouch =>
      refine coalesced_cons.mpr ⟨fun e he => ?_, hrest⟩
      have hlt := hc e he
      simp only [Block.stop] at hlt htouch ⊢
      omega
    · next htouch =>
      refine coalesced_cons.mpr ⟨fun e he => ?_, hl⟩
      have hbc := hle c (by simp)
      rcases List.mem_cons.mp he with rfl | he
      · omega
      · have hce := hc e he
        have hcpos := hpos c (by simp)
        rw [Block.stop] at hce
        omega

end BlockPartition
