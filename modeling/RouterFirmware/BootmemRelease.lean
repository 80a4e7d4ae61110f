import RouterFirmware.BootmemRuns

/-! # Putting memory back

A release keeps the free list coalesced and adds the bytes of the region to it, as long as the
region is apart from the list. Overlap is looked for in front of the first entry only.
-/
namespace Bootmem

open BlockPartition

variable {d : BootmemDesc} {l before after : List Block} {b : Block} {fuel : ℕ}

/-- The block and its right neighbours, joined where they touch, lie behind what is before. -/
theorem Rejoined.coalesced {l' : List Block} (h : Rejoined b after before l')
    (hl : Coalesced (before ++ after)) (htidy : Tidy (before ++ b :: after)) : Coalesced l' := by
  have hpos : ∀ c ∈ before ++ b :: after, 0 < c.size := fun c hc => (htidy.wf c hc).size_pos
  have hafter : ∀ c ∈ after, 0 < c.size := fun c hc => hpos c (by simp [hc])
  have hright := coalesced_joinRight (coalesced_append.mp hl).2.1 (fun c hc => htidy.behind hc)
    hafter
  cases h with
  | front => exact hright
  | behind init p =>
    have hpb : p.stop ≤ b.addr := (ascending_append.mp htidy.ascending).2.2 p (by simp) b (by simp)
    have hpa : ∀ c ∈ after, p.stop ≤ c.addr := fun c hc =>
      Nat.le_of_lt ((coalesced_append.mp hl).2.2 p (by simp) c hc)
    rw [List.append_assoc, List.singleton_append] at hl
    obtain ⟨hinit, -, hgap⟩ := coalesced_append.mp hl
    refine coalesced_append.mpr ⟨hinit, ?_, ?_⟩
    · exact coalesced_joinRight hright (forall_joinRight hpb hpa)
        (size_pos_joinRight (hpos b (by simp)) hafter)
    · intro c hc
      have hcp : c.stop < p.addr := hgap c hc p (by simp)
      have hppos := hpos p (by simp)
      rw [Block.stop] at hpb
      apply forall_joinRight hcp
      apply forall_joinRight
      · omega
      · intro e he
        exact hgap c hc e (by simp [he])

def region (b : Block) : Set ℕ := { x | b.addr ≤ x ∧ x < b.stop }

/-- A region apart from a coalesced list is added to it. -/
theorem release_apart (h : FreeList d l) (hl : Coalesced l) (hb : Wf b)
    (hapart : ∀ c ∈ l, Apart b c) (hver : d.majorVersion ≤ 3) (hfuel : l.length < fuel) :
    ∃ d' l', octeonPhyMemBlockFree fuel b.addr b.size d = some (d', 1) ∧ FreeList d' l' ∧
      Coalesced l' ∧ bytes l' = bytes l ∪ region b := by
  obtain ⟨before, after, rfl, htidy⟩ := h.tidy.place hb hapart
  obtain ⟨d', l', hrun, hl', hjoin⟩ := octeonPhyMemBlockFree_list h htidy hver hfuel
  refine ⟨d', l', hrun, hl', hjoin.coalesced hl htidy, ?_⟩
  have hrep := hjoin.repart fun c hc => (htidy.wf c hc).size_pos
  rw [← repart_bytes hrep, bytes_cons, Set.union_comm]
  rfl

/-- In front of the first entry an overlap is found, and nothing changes. -/
theorem release_overlap_front (h : FreeList d l) (hb : Wf b) (hlap : ∃ c ∈ l, ¬ Apart b c)
    (hver : d.majorVersion ≤ 3) (hfront : b.addr < d.headAddr) :
    octeonPhyMemBlockFree fuel b.addr b.size d = some (d, 0) := by
  obtain ⟨c, hc, hnot⟩ := hlap
  have hstop : b.addr + b.size ≤ 2 ^ 63 := hb.stop_le
  have hadd : add64 b.addr b.size = b.stop := by
    rw [add64_of_lt (by omega), Block.stop]
  have hle : d.headAddr ≤ c.addr := by
    rw [h.chain.start]
    cases l with
    | nil => cases hc
    | cons e l =>
      rcases List.mem_cons.mp hc with rfl | hc
      · exact le_refl _
      · have := @Tidy.behind [] l e h.tidy c hc
        rw [Block.stop] at this
        exact le_trans (Nat.le_add_right _ _) this
  have hover : d.headAddr ≠ 0 ∧ add64 b.addr b.size > d.headAddr := by
    rw [Apart] at hnot
    rw [hadd]
    omega
  rw [octeonPhyMemBlockFree, if_neg (by omega), if_neg (Nat.ne_of_gt hb.size_pos),
    if_pos (Or.inr hfront), freeFront, if_pos hover]

/-- The entries that start before an address, and the others. -/
theorem Tidy.span (h : Tidy l) (x : ℕ) :
    ∃ before after, l = before ++ after ∧ (∀ c ∈ before, c.addr < x) ∧ ∀ c ∈ after, x ≤ c.addr := by
  induction l with
  | nil => exact ⟨[], [], rfl, by simp, by simp⟩
  | cons c l ih =>
    by_cases hc : c.addr < x
    · obtain ⟨before, after, rfl, hbefore, hafter⟩ := ih (h.sublist (List.sublist_cons_self c l))
      exact ⟨c :: before, after, rfl, by simpa using ⟨hc, hbefore⟩, hafter⟩
    · refine ⟨[], c :: l, rfl, by simp, ?_⟩
      intro e he
      rcases List.mem_cons.mp he with rfl | he
      · exact not_lt.mp hc
      · have := @Tidy.behind [] l c h e he
        rw [Block.stop] at this
        omega

/-- Behind the start of the first entry every release reports success. -/
theorem release_behind_head (h : FreeList d l) (hb : 0 < b.size) (hver : d.majorVersion ≤ 3)
    (hhead : d.headAddr ≠ 0) (hle : d.headAddr ≤ b.addr) (hfuel : l.length < fuel) :
    ∃ d', octeonPhyMemBlockFree fuel b.addr b.size d = some (d', 1) := by
  obtain ⟨before, after, rfl, hbefore, hafter⟩ := h.tidy.span b.addr
  obtain ⟨m, hpre, hpost⟩ := LinkedSegment.seg_append.mp h.chain
  obtain rfl : m = headAddrOf after := Chain.start hpost
  have hplace := @findPlace_spec _ d before after [] b.addr fuel hpre
    (fun e he => ⟨Nat.ne_of_gt (h.tidy.left.wf e he).addr_pos, hbefore e he⟩) hafter
    (by simp only [List.length_append] at hfuel; omega)
  rw [lastAddrOf_nil] at hplace
  rw [octeonPhyMemBlockFree, if_neg (by omega), if_neg (by omega), if_neg (by omega), hplace,
    Option.map_some]
  split_ifs
  · exact ⟨_, rfl⟩
  · exact ⟨_, rfl⟩

/-- What a release is for: a region apart from the list is added to it, and one that overlaps
an entry is refused. -/
def ReleasesExactly (fuel : ℕ) (d : BootmemDesc) (l : List Block) (b : Block) : Prop :=
  ((∀ c ∈ l, Apart b c) →
    ∃ d' l', octeonPhyMemBlockFree fuel b.addr b.size d = some (d', 1) ∧ FreeList d' l' ∧
      Coalesced l' ∧ bytes l' = bytes l ∪ region b) ∧
  ((∃ c ∈ l, ¬ Apart b c) →
    ∃ d', octeonPhyMemBlockFree fuel b.addr b.size d = some (d', 0) ∧ FreeList d' l)

/-- A release does what it is for exactly if the region is apart from the list or starts in front
of it. -/
theorem releases_exactly_iff (h : FreeList d l) (hl : Coalesced l) (hb : Wf b)
    (hver : d.majorVersion ≤ 3) (hfuel : 2 ^ 61 ≤ fuel) :
    ReleasesExactly fuel d l b ↔ (∀ c ∈ l, Apart b c) ∨ b.addr < d.headAddr := by
  have hlen := h.tidy.length_le
  have hlt : l.length < fuel := by omega
  constructor
  · intro hexact
    by_contra hnot
    rw [not_or] at hnot
    obtain ⟨hlap, hle⟩ := hnot
    push Not at hlap
    obtain ⟨d', hzero, -⟩ := hexact.2 hlap
    have hhead : d.headAddr ≠ 0 := by
      obtain ⟨c, hc, -⟩ := hlap
      rw [h.chain.start]
      cases l with
      | nil => cases hc
      | cons e l => exact Nat.ne_of_gt (h.tidy.wf e (by simp)).addr_pos
    obtain ⟨d'', hone⟩ := release_behind_head h hb.size_pos hver hhead (not_lt.mp hle) hlt
    rw [hzero] at hone
    cases hone
  · intro hcond
    refine ⟨fun hapart => release_apart h hl hb hapart hver hlt, fun hlap => ?_⟩
    rcases hcond with hapart | hfront
    · obtain ⟨c, hc, hnot⟩ := hlap
      exact absurd (hapart c hc) hnot
    · exact ⟨d, release_overlap_front h hb hlap hver hfront, h⟩

theorem wf_next_page : Wf ⟨8192, 4096⟩ := by
  constructor <;> decide

theorem releases_exactly_next_page :
    ReleasesExactly (2 ^ 61) (ofBlock ⟨4096, 4096⟩ 128 []) [⟨4096, 4096⟩] ⟨8192, 4096⟩ ↔
      (∀ c ∈ [(⟨4096, 4096⟩ : Block)], Apart ⟨8192, 4096⟩ c) ∨ 8192 < 4096 :=
  releases_exactly_iff (freeList_ofBlock wf_page 128 []) (List.pairwise_singleton _ _)
    wf_next_page (by decide) (le_refl _)

/-- A page that is free already is put on the list once more. -/
theorem free_page_is_released_again :
    FreeList (ofBlock ⟨4096, 4096⟩ 128 []) [⟨4096, 4096⟩] ∧ Coalesced [⟨4096, 4096⟩] ∧
      ¬ ReleasesExactly (2 ^ 61) (ofBlock ⟨4096, 4096⟩ 128 []) [⟨4096, 4096⟩] ⟨4096, 4096⟩ := by
  refine ⟨freeList_ofBlock wf_page 128 [], List.pairwise_singleton _ _, fun hexact => ?_⟩
  have hlap : ∃ c ∈ [(⟨4096, 4096⟩ : Block)], ¬ Apart ⟨4096, 4096⟩ c :=
    ⟨⟨4096, 4096⟩, by simp, by simp [Apart]⟩
  obtain ⟨d', hzero, -⟩ := hexact.2 hlap
  have hone : (octeonPhyMemBlockFree (2 ^ 61) 4096 4096 (ofBlock ⟨4096, 4096⟩ 128 [])).map
      Prod.snd = some 1 := by
    decide
  rw [hzero] at hone
  cases hone

end Bootmem
