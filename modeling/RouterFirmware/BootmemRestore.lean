import RouterFirmware.BootmemPlace

/-! # Release undoes allocation

An allocation takes its bytes out of one entry and leaves gaps on both sides of them, so that the
list stays coalesced; a coalesced list is known by its bytes, and the release puts them back.
-/
namespace Bootmem

open BlockPartition WordMask

variable {d d' : BootmemDesc} {fuel a n : ℕ} {pre post l : List Block} {b c e : Block}

theorem mem_leftOver (hlo : e.addr ≤ a) (hhi : a + n ≤ e.stop) (hc : c ∈ leftOver e a n) :
    e.addr ≤ c.addr ∧ c.stop ≤ e.stop := by
  rw [leftOver, List.mem_append] at hc
  rcases hc with hc | hc
  · split at hc
    · obtain rfl := List.mem_singleton.mp hc
      simp only [Block.stop] at hhi ⊢
      exact ⟨le_refl _, by omega⟩
    · cases hc
  · split at hc
    · obtain rfl := List.mem_singleton.mp hc
      simp only [Block.stop] at hhi ⊢
      exact ⟨by omega, by omega⟩
    · cases hc

theorem coalesced_leftOver (hn : 0 < n) : Coalesced (leftOver e a n) := by
  rw [leftOver]
  split
  · split
    · refine coalesced_cons.mpr ⟨fun c hc => ?_, List.pairwise_singleton _ _⟩
      obtain rfl := List.mem_singleton.mp hc
      rw [stop_mk]
      simp only
      omega
    · exact List.pairwise_singleton _ _
  · split
    · exact List.pairwise_singleton _ _
    · exact List.Pairwise.nil

/-- Taking bytes out of an entry keeps a list coalesced. -/
theorem coalesced_take_out (h : Coalesced (pre ++ e :: post)) (hn : 0 < n) (hlo : e.addr ≤ a)
    (hhi : a + n ≤ e.stop) : Coalesced (pre ++ (leftOver e a n ++ post)) := by
  obtain ⟨hpre, hrest, hgap⟩ := coalesced_append.mp h
  obtain ⟨hpost, hpost'⟩ := coalesced_cons.mp hrest
  refine coalesced_append.mpr ⟨hpre, ?_, fun b hb c hc => ?_⟩
  · refine coalesced_append.mpr ⟨coalesced_leftOver hn, hpost', fun b hb c hc => ?_⟩
    exact lt_of_le_of_lt (mem_leftOver hlo hhi hb).2 (hpost c hc)
  · rcases List.mem_append.mp hc with hc | hc
    · exact lt_of_lt_of_le (hgap b hb e (by simp)) (mem_leftOver hlo hhi hc).1
    · exact hgap b hb c (by simp [hc])

/-- An allocation that returned an address made all its checks. -/
theorem alloc_checks {r : Request}
    (hrun : octeonPhyMemBlockAlloc fuel r.reqSize r.addressMin r.addressMax r.alignment d =
      some (d', a)) (ha : a ≠ 0) : d.majorVersion ≤ 3 ∧ r.reqSize ≠ 0 ∧ 16 ∣ r.addressMin := by
  rw [octeonPhyMemBlockAlloc] at hrun
  split at hrun
  · cases hrun
    exact absurd rfl ha
  next hver =>
  split at hrun
  · cases hrun
    exact absurd rfl ha
  next hsize =>
  simp only at hrun
  split at hrun
  · cases hrun
    exact absurd rfl ha
  next hmask =>
  refine ⟨by omega, hsize, ?_⟩
  have hand := Nat.and_two_pow_sub_one_eq_mod r.addressMin 4
  rw [← show alignmentSize - 1 = 2 ^ 4 - 1 from rfl, not_not.mp hmask] at hand
  exact Nat.dvd_of_mod_eq_zero hand.symm

/-- A successful allocation on a coalesced list leaves a coalesced list, and what it returned
makes up the list before with it. -/
theorem alloc_coalesced {r : Request} (h : FreeList d l) (hl : Coalesced l)
    (hmodest : r.reqSize ≤ 2 ^ 64 - 16) (hfuel : 2 ^ 61 ≤ fuel)
    (hrun : octeonPhyMemBlockAlloc fuel r.reqSize r.addressMin r.addressMax r.alignment d =
      some (d', a)) (ha : a ≠ 0) :
    ∃ l', FreeList d' l' ∧ Coalesced l' ∧ Wf ⟨a, r.rounded⟩ ∧ Repart l (⟨a, r.rounded⟩ :: l') := by
  obtain ⟨hver, hsize, hmin⟩ := alloc_checks hrun ha
  obtain ⟨d₁, a₁, hrun₁, ⟨l', hl', hcases⟩, -⟩ := octeonPhyMemBlockAlloc_spec h hmodest r.min_lt
    r.max_lt r.alignment_ok hfuel
  rw [hrun, Option.some.injEq, Prod.mk.injEq] at hrun₁
  obtain ⟨rfl, rfl⟩ := hrun₁
  rcases hcases with ⟨hzero, -⟩ | ⟨hwf, hrep⟩
  · exact absurd hzero ha
  refine ⟨l', hl', ?_, hwf, hrep⟩
  have hany : r.AnyPasses l := by
    by_contra hnone
    rw [alloc_none h hver hsize hmin hfuel hnone] at hrun
    cases hrun
    exact ha rfl
  obtain ⟨hwalk, hsome⟩ := hany
  obtain ⟨pre, e, post, rfl, hpre, he⟩ := Request.first_passing hsome
  obtain ⟨htake, hcut⟩ := alloc_first h hver hsize hmin hfuel hwalk rfl hpre he
  obtain ⟨k, hk, hw, -⟩ := @Request.alloc_walk d fuel _ r h hver hsize hmin
  rcases lt_or_ge (r.usableBase e) r.walkMax with hlt | hge
  · obtain ⟨d₁, hrun₁, hlist⟩ := htake hlt
    rw [hrun, Option.some.injEq, Prod.mk.injEq] at hrun₁
    obtain ⟨rfl, rfl⟩ := hrun₁
    rw [hl'.unique (hlist hwf.size_pos hwf.size_dvd)]
    have hcap : min r.walkMax e.stop < 2 ^ 64 := lt_of_le_of_lt (min_le_left _ _) hw.max_lt
    have hstart := he.1.1
    have hroom := he.2
    rw [sub64_of_le hcap (by omega)] at hroom
    have hlo := (Request.usableBase_least hk hw h (by simp : e ∈ pre ++ e :: post)).2.1
    exact coalesced_take_out hl hwf.size_pos hlo (by omega)
  · obtain ⟨d₁, m, q, hrun₁, -⟩ := hcut hge
    rw [hrun, Option.some.injEq, Prod.mk.injEq] at hrun₁
    exact absurd hrun₁.2 ha

/-- What was just allocated, given back with its rounded size, restores the free list. -/
theorem release_undoes_alloc {r : Request} (h : FreeList d l) (hl : Coalesced l)
    (hsize : ceilTo alignmentSize r.reqSize < 2 ^ 63) (hfuel : 2 ^ 61 ≤ fuel)
    (hrun : octeonPhyMemBlockAlloc fuel r.reqSize r.addressMin r.addressMax r.alignment d =
      some (d', a)) (ha : a ≠ 0) :
    ∃ d'', octeonPhyMemBlockFree fuel a (ceilTo alignmentSize r.reqSize) d' = some (d'', 1) ∧
      FreeList d'' l := by
  have hge : r.reqSize ≤ ceilTo alignmentSize r.reqSize := le_ceilTo (by decide) _
  have hrounded : r.rounded = ceilTo alignmentSize r.reqSize :=
    @roundUp_eq 4 r.reqSize (by decide) (by omega)
  obtain ⟨l', hl', hcoal, hwf, hrep⟩ := alloc_coalesced h hl (by omega) hfuel hrun ha
  have hver : d'.majorVersion ≤ 3 := by
    rw [(octeonPhyMemBlockAlloc_table hrun).version]
    exact (alloc_checks hrun ha).1
  have hsep := (repart_separate hrep).mp h.separate
  have hlen := hl'.tidy.length_le
  obtain ⟨d'', l'', hfree, hl'', hcoal'', hbytes⟩ := release_apart hl' hcoal hwf
    (separate_cons.mp hsep).1.2 hver (by omega : l'.length < fuel)
  have hsame : bytes l'' = bytes l := by
    rw [hbytes, repart_bytes hrep, bytes_cons, Set.union_comm]
    rfl
  have hback : l'' = l := coalesced_ext hcoal'' hl (fun c hc => (hl''.tidy.wf c hc).size_pos)
    (fun c hc => (h.tidy.wf c hc).size_pos) hsame
  rw [← hrounded, ← hback]
  exact ⟨d'', hfree, hl''⟩

theorem release_undoes_alloc_page :
    ∃ d' d'', octeonPhyMemBlockAlloc (2 ^ 61) 100 0 0 0 (ofBlock ⟨4096, 4096⟩ 128 []) =
        some (d', 4096) ∧
      octeonPhyMemBlockFree (2 ^ 61) 4096 (ceilTo alignmentSize 100) d' = some (d'', 1) ∧
      FreeList d'' [⟨4096, 4096⟩] := by
  have haddr : (octeonPhyMemBlockAlloc (2 ^ 61) 100 0 0 0 (ofBlock ⟨4096, 4096⟩ 128 [])).map
      Prod.snd = some 4096 := by
    decide
  obtain ⟨⟨d', a⟩, hrun, ha⟩ := Option.map_eq_some_iff.mp haddr
  obtain rfl : a = 4096 := ha
  obtain ⟨d'', hfree⟩ := @release_undoes_alloc _ d' (2 ^ 61) 4096 [⟨4096, 4096⟩]
    (.anywhere 100 (by decide)) (freeList_ofBlock wf_page 128 []) (List.pairwise_singleton _ _)
    (by decide) (le_refl _) hrun (by decide)
  exact ⟨d', d'', hrun, hfree⟩

end Bootmem
