import RouterFirmware.BootmemWalk

/-! # Who owns physical memory

Runs of the allocator. A block belongs to the free list, to the caller it was returned to, or to
the named block it was allocated for; a run moves memory between the three and loses none.
-/
namespace Bootmem

open BlockPartition

/-- The arguments of an allocation, as the types of the parameters and the description of the
alignment admit them. -/
structure Request where
  reqSize : ℕ
  addressMin : ℕ
  addressMax : ℕ
  alignment : ℕ
  size_lt : reqSize < 2 ^ 64
  min_lt : addressMin < 2 ^ 64
  max_lt : addressMax < 2 ^ 64
  alignment_ok : Alignment alignment

def Request.rounded (r : Request) : ℕ := roundUp r.reqSize alignmentSize

inductive Call where
  | blockAlloc (r : Request)
  | blockFree (b : Block)
  | namedBlockAlloc (r : Request) (name : Option CString)
  | namedBlockFree (name : Option CString)

/-- The descriptor, the blocks that `octeon_phy_mem_block_alloc` returned to callers and that
were not given back, with their rounded sizes, and the calls so far with what they returned. -/
structure State where
  desc : BootmemDesc
  live : List Block
  log : List (Call × ℕ)

def Call.perform (fuel : ℕ) : Call → BootmemDesc → Option (BootmemDesc × ℕ)
  | .blockAlloc r, d =>
    octeonPhyMemBlockAlloc fuel r.reqSize r.addressMin r.addressMax r.alignment d
  | .blockFree b, d => octeonPhyMemBlockFree fuel b.addr b.size d
  | .namedBlockAlloc r name, d =>
    octeonPhyMemNamedBlockAlloc fuel r.reqSize r.addressMin r.addressMax r.alignment name d
  | .namedBlockFree name, d => octeonPhyMemNamedBlockFree fuel name d

/-- What the callers hold after a call that returned `res`. -/
def Call.liveAfter (live : List Block) (res : ℕ) : Call → List Block
  | .blockAlloc r => if res = 0 then live else ⟨res, r.rounded⟩ :: live
  | .blockFree b => live.erase b
  | _ => live

def Call.exec (fuel : ℕ) (c : Call) (s : State) : Option State :=
  (c.perform fuel s.desc).map fun out =>
    ⟨out.1, c.liveAfter s.live out.2, s.log ++ [(c, out.2)]⟩

def run (fuel : ℕ) : List Call → State → Option State
  | [], s => some s
  | c :: calls, s => (c.exec fuel s).bind (run fuel calls)

def State.start (d : BootmemDesc) : State := ⟨d, [], []⟩

/-- Every call of a run meets a condition in the state it finds. -/
def Along (P : State → Call → Prop) (fuel : ℕ) : List Call → State → Prop
  | [], _ => True
  | c :: calls, s => P s c ∧ ∀ s', c.exec fuel s = some s' → Along P fuel calls s'

def Owned (s : State) : Call → Prop
  | .blockFree b => b ∈ s.live
  | _ => True

def Modest : Call → Prop
  | .blockAlloc r => r.reqSize ≤ 2 ^ 64 - 16
  | _ => True

def Anonymous : Call → Prop
  | .blockAlloc _ => True
  | .blockFree _ => True
  | _ => False

def memoryOf (table : List NamedBlockDesc) : List Block :=
  (table.filter fun b => b.size ≠ 0).map fun b => ⟨b.baseAddr, b.size⟩

def namedMemory (d : BootmemDesc) : List Block := memoryOf d.namedBlocks

/-- The memory `l₀` that was free at first is shared out between the live blocks, the blocks
`named` and the free list `l`. -/
structure Shared (l₀ named live : List Block) (d : BootmemDesc) (l : List Block) : Prop where
  free : FreeList d l
  parts : Repart l₀ (live ++ named ++ l)
  live_wf : ∀ b ∈ live, Wf b
  named_wf : ∀ b ∈ named, Wf b
  version : live = [] ∨ d.majorVersion ≤ 3

theorem memoryOf_append (t u : List NamedBlockDesc) :
    memoryOf (t ++ u) = memoryOf t ++ memoryOf u := by
  simp [memoryOf]

/-- A descriptor is overwritten: its block leaves the table, the new one enters. -/
theorem memoryOf_set (table : List NamedBlockDesc) (i : Fin table.length) (b : NamedBlockDesc) :
    (memoryOf [table.get i] ++ memoryOf (table.set i b)).Perm (memoryOf [b] ++ memoryOf table) := by
  have hset : table.set i b = table.take i ++ ([b] ++ table.drop (i + 1)) := by
    simp [List.set_eq_take_append_cons_drop]
  have htable : table = table.take i ++ ([table.get i] ++ table.drop (i + 1)) := by
    simp
  have hswap : ∀ x y u v : List Block, (x ++ (u ++ (y ++ v))).Perm (y ++ (u ++ (x ++ v))) := by
    intro x y u v
    have h₁ : (x ++ (u ++ (y ++ v))).Perm (u ++ (x ++ (y ++ v))) :=
      List.perm_append_comm_assoc _ _ _
    have h₂ : (u ++ (x ++ (y ++ v))).Perm (u ++ (y ++ (x ++ v))) :=
      (List.perm_append_comm_assoc _ _ _).append_left u
    exact (h₁.trans h₂).trans (List.perm_append_comm_assoc _ _ _)
  rw [hset]
  conv_rhs => rw [htable]
  simp only [memoryOf_append]
  exact hswap _ _ _ _

theorem namedMemory_same {d d' : BootmemDesc} (h : SameTable d d') :
    namedMemory d' = namedMemory d := by
  rw [namedMemory, namedMemory, h.blocks]

section Step

variable {l₀ named live l : List Block} {d : BootmemDesc} {fuel : ℕ}

/-- A block that is shared out is apart from the free list. -/
theorem Shared.apart (h : Shared l₀ named live d l) (h₀ : Separate l₀) {b : Block}
    (hb : b ∈ live ++ named) : ∀ c ∈ l, Apart b c := by
  have hsep := (repart_separate h.parts).mp h₀
  intro c hc
  exact (List.pairwise_append.mp hsep.2).2.2 b hb c hc

/-- Cutting and joining on the free list alone. -/
theorem Shared.frame (h : Shared l₀ named live d l) {d' : BootmemDesc} {l' : List Block}
    (htable : SameTable d d') (hl' : FreeList d' l') (hrep : Repart l l') :
    Shared l₀ named live d' l' := by
  refine ⟨hl', h.parts.trans (hrep.append_left _), h.live_wf, h.named_wf, ?_⟩
  exact h.version.imp id fun hle => htable.version.symm ▸ hle

/-- What an allocation takes from the free list goes to the caller. -/
theorem shared_blockAlloc (h : Shared l₀ named live d l) (r : Request)
    (hr : r.reqSize ≤ 2 ^ 64 - 16) (hfuel : 2 ^ 61 ≤ fuel) :
    ∃ d' res l', (Call.blockAlloc r).perform fuel d = some (d', res) ∧
      Shared l₀ named ((Call.blockAlloc r).liveAfter live res) d' l' ∧ SameTable d d' := by
  obtain ⟨d', res, hrun, ⟨l', hl', hcases⟩, hver⟩ := octeonPhyMemBlockAlloc_spec h.free hr
    r.min_lt r.max_lt r.alignment_ok hfuel
  have htable := octeonPhyMemBlockAlloc_table hrun
  refine ⟨d', res, l', hrun, ?_, htable⟩
  rw [Call.liveAfter]
  rcases hcases with ⟨rfl, hrep⟩ | ⟨hwf, hrep⟩
  · rw [if_pos rfl]
    exact h.frame htable hl' hrep
  · have hres : res ≠ 0 := Nat.ne_of_gt hwf.addr_pos
    rw [if_neg hres]
    refine ⟨hl', ?_, ?_, h.named_wf, Or.inr (htable.version.symm ▸ hver hres)⟩
    · exact h.parts.trans ((hrep.append_left _).trans (repart_middle _ _ _))
    · intro b hb
      rcases List.mem_cons.mp hb with rfl | hb
      · exact hwf
      · exact h.live_wf b hb

/-- A live block goes back to the free list. -/
theorem shared_blockFree (h : Shared l₀ named live d l) (h₀ : Separate l₀) {b : Block}
    (hb : b ∈ live) (hfuel : 2 ^ 61 ≤ fuel) :
    ∃ d' res l', (Call.blockFree b).perform fuel d = some (d', res) ∧
      Shared l₀ named (live.erase b) d' l' ∧ SameTable d d' := by
  have hver : d.majorVersion ≤ 3 := by
    rcases h.version with hnil | hver
    · rw [hnil] at hb
      cases hb
    · exact hver
  have hlen := h.free.tidy.length_le
  have hlt : l.length < fuel := by omega
  obtain ⟨d', hrun, l', hl', hrep⟩ := octeonPhyMemBlockFree_spec h.free (h.live_wf b hb)
    (h.apart h₀ (List.mem_append_left _ hb)) hver hlt
  have htable := octeonPhyMemBlockFree_table hrun
  refine ⟨d', 1, l', hrun, ⟨hl', ?_, ?_, h.named_wf, ?_⟩, htable⟩
  · have hperm : (live ++ named ++ l).Perm (live.erase b ++ named ++ b :: l) := by
      have hout := ((List.perm_cons_erase hb).append_right named).append_right l
      exact hout.trans List.perm_middle.symm
    exact h.parts.trans ((Repart.perm hperm).trans (hrep.append_left _))
  · exact fun c hc => h.live_wf c (List.mem_of_mem_erase hc)
  · exact Or.inr (htable.version.symm ▸ hver)

theorem memoryOf_of_zero {b : NamedBlockDesc} (h : b.size = 0) : memoryOf [b] = [] := by
  simp [memoryOf, h]

theorem memoryOf_of_ne {b : NamedBlockDesc} (h : b.size ≠ 0) :
    memoryOf [b] = [⟨b.baseAddr, b.size⟩] := by
  simp [memoryOf, h]

theorem mem_memoryOf {table : List NamedBlockDesc} {b : NamedBlockDesc} (hb : b ∈ table)
    (h : b.size ≠ 0) : ⟨b.baseAddr, b.size⟩ ∈ memoryOf table := by
  refine List.mem_map.mpr ⟨b, ?_, rfl⟩
  simpa [hb] using h

theorem findInternal_null {d : BootmemDesc} {i : Fin d.namedBlocks.length}
    (h : octeonPhyMemNamedBlockFindInternal d none = some i) :
    (d.namedBlocks.get i).size = 0 := by
  rw [octeonPhyMemNamedBlockFindInternal] at h
  split_ifs at h
  have := (List.findFinIdx?_eq_some_iff.mp h).1
  simpa using this

def unused (b : NamedBlockDesc) : NamedBlockDesc := { b with size := 0 }

/-- The block of a descriptor goes back to the free list; a descriptor not in use has none. -/
theorem shared_release (h : Shared l₀ (namedMemory d) live d l) (h₀ : Separate l₀)
    (hver : d.majorVersion = 3) (i : Fin d.namedBlocks.length) (hfuel : 2 ^ 61 ≤ fuel) :
    ∃ d' res l', octeonPhyMemBlockFree fuel (d.namedBlocks.get i).baseAddr
        (d.namedBlocks.get i).size d = some (d', res) ∧
      Shared l₀ (namedMemory (d'.setNamed i (unused (d.namedBlocks.get i)))) live
        (d'.setNamed i (unused (d.namedBlocks.get i))) l' := by
  have hset := memoryOf_set d.namedBlocks i (unused (d.namedBlocks.get i))
  rw [@memoryOf_of_zero (unused (d.namedBlocks.get i)) rfl, List.nil_append] at hset
  have hwf : ∀ b ∈ memoryOf (d.namedBlocks.set i (unused (d.namedBlocks.get i))), Wf b :=
    fun b hb => h.named_wf b (hset.mem_iff.mp (List.mem_append_right _ hb))
  by_cases hzero : (d.namedBlocks.get i).size = 0
  · refine ⟨d, 0, l, ?_, ⟨h.free.chain, h.free.tidy⟩, ?_, h.live_wf, hwf, h.version⟩
    · rw [octeonPhyMemBlockFree, if_neg (by omega), if_pos hzero]
    · rw [memoryOf_of_zero hzero, List.nil_append] at hset
      exact h.parts.trans (.perm ((hset.symm.append_left live).append_right l))
  · have hmem := mem_memoryOf (List.get_mem d.namedBlocks i) hzero
    have hlen := h.free.tidy.length_le
    have hlt : l.length < fuel := by omega
    obtain ⟨d', hrun, l', hl', hrep⟩ := octeonPhyMemBlockFree_spec h.free (h.named_wf _ hmem)
      (h.apart h₀ (List.mem_append_right _ hmem)) (by omega) hlt
    have htable := octeonPhyMemBlockFree_table hrun
    have hnamed : namedMemory (d'.setNamed i (unused (d.namedBlocks.get i))) =
        memoryOf (d.namedBlocks.set i (unused (d.namedBlocks.get i))) := by
      rw [namedMemory, BootmemDesc.setNamed, htable.blocks]
    refine ⟨d', 1, l', hrun, ⟨hl'.chain, hl'.tidy⟩, ?_, h.live_wf, ?_, ?_⟩
    · rw [memoryOf_of_ne hzero] at hset
      rw [hnamed]
      have hout := (hset.symm.append_left live).append_right l
      have hmove := hout.trans (List.perm_middle.append_right l)
      exact h.parts.trans ((Repart.perm (hmove.trans List.perm_middle.symm)).trans
        (hrep.append_left _))
    · rw [hnamed]
      exact hwf
    · exact h.version.imp id fun hle => htable.version.symm ▸ hle

/-- A named release finds no descriptor, or gives back the block of the one it finds. -/
theorem octeonPhyMemNamedBlockFree_cases (d : BootmemDesc) (name : Option CString) :
    octeonPhyMemNamedBlockFindInternal d name = none ∧
      octeonPhyMemNamedBlockFree fuel name d = some (d, 0) ∨
    ∃ i, d.majorVersion = 3 ∧ octeonPhyMemNamedBlockFindInternal d name = some i ∧
      octeonPhyMemNamedBlockFree fuel name d =
        (octeonPhyMemBlockFree fuel (d.namedBlocks.get i).baseAddr (d.namedBlocks.get i).size
          d).map fun out => (out.1.setNamed i (unused (d.namedBlocks.get i)), 1) := by
  by_cases hver : d.majorVersion = 3
  · cases hfind : octeonPhyMemNamedBlockFindInternal d name with
    | none => exact Or.inl ⟨rfl, by simp [octeonPhyMemNamedBlockFree, hfind]⟩
    | some i =>
      refine Or.inr ⟨i, hver, rfl, ?_⟩
      simp only [octeonPhyMemNamedBlockFree, hver, ne_eq, not_true_eq_false, if_false, hfind]
      rfl
  · refine Or.inl ⟨?_, by simp [octeonPhyMemNamedBlockFree, hver]⟩
    rw [octeonPhyMemNamedBlockFindInternal, if_neg hver]

theorem shared_namedBlockFree (h : Shared l₀ (namedMemory d) live d l) (h₀ : Separate l₀)
    (name : Option CString) (hfuel : 2 ^ 61 ≤ fuel) :
    ∃ d' res l', octeonPhyMemNamedBlockFree fuel name d = some (d', res) ∧
      Shared l₀ (namedMemory d') live d' l' := by
  rcases @octeonPhyMemNamedBlockFree_cases fuel d name with ⟨-, hfail⟩ | ⟨i, hver, -, hrun⟩
  · exact ⟨d, 0, l, hfail, h⟩
  · obtain ⟨d', res, l', hfree, hl'⟩ := shared_release h h₀ hver i hfuel
    exact ⟨_, 1, l', by rw [hrun, hfree, Option.map_some], hl'⟩

/-- A named allocation fails at once, or it asks for a block of the rounded size and puts it in
the first descriptor that is not in use. -/
theorem octeonPhyMemNamedBlockAlloc_cases (d : BootmemDesc) (n lo hi align : ℕ)
    (name : Option CString) :
    octeonPhyMemNamedBlockAlloc fuel n lo hi align name d = some (d, 0) ∨
    ∃ i key, name = some key ∧ d.majorVersion = 3 ∧
      octeonPhyMemNamedBlockFindInternal d none = some i ∧
      octeonPhyMemNamedBlockFindInternal d (some key) = none ∧
      octeonPhyMemNamedBlockAlloc fuel n lo hi align name d =
        (octeonPhyMemBlockAlloc fuel (roundUp n alignmentSize) lo hi align d).map fun out =>
          if out.2 ≠ 0 then (out.1.setNamed i (nameBlock d (d.namedBlocks.get i) out.2
            (roundUp n alignmentSize) key), out.2)
          else (out.1, 0) := by
  by_cases hver : d.majorVersion = 3
  · cases name with
    | none =>
      left
      cases hslot : octeonPhyMemNamedBlockFindInternal d none with
      | none => simp [octeonPhyMemNamedBlockAlloc, hslot]
      | some i => simp [octeonPhyMemNamedBlockAlloc, hslot]
    | some key =>
      cases hslot : octeonPhyMemNamedBlockFindInternal d none with
      | none => simp [octeonPhyMemNamedBlockAlloc, hslot]
      | some i =>
        cases hused : octeonPhyMemNamedBlockFindInternal d (some key) with
        | none =>
          right
          refine ⟨i, key, rfl, hver, rfl, hused, ?_⟩
          simp only [octeonPhyMemNamedBlockAlloc, hver, ne_eq, not_true_eq_false, if_false, hslot,
            hused]
        | some j => simp [octeonPhyMemNamedBlockAlloc, hslot, hused]
  · simp [octeonPhyMemNamedBlockAlloc, hver]

/-- What the allocation takes from the free list goes to the descriptor. -/
theorem shared_namedBlockAlloc (h : Shared l₀ (namedMemory d) live d l) (r : Request)
    (name : Option CString) (hfuel : 2 ^ 61 ≤ fuel) :
    ∃ d' res l', octeonPhyMemNamedBlockAlloc fuel r.reqSize r.addressMin r.addressMax r.alignment
        name d = some (d', res) ∧ Shared l₀ (namedMemory d') live d' l' := by
  rcases @octeonPhyMemNamedBlockAlloc_cases fuel d r.reqSize r.addressMin r.addressMax
    r.alignment name with hfail | ⟨i, key, rfl, hver, hslot, -, hrun⟩
  · exact ⟨d, 0, l, hfail, h⟩
  · obtain ⟨hsize, hsame⟩ := roundUp_rounded r.reqSize
    obtain ⟨d', res, halloc, ⟨l', hl', hcases⟩, -⟩ := octeonPhyMemBlockAlloc_spec h.free hsize
      r.min_lt r.max_lt r.alignment_ok hfuel
    have htable := octeonPhyMemBlockAlloc_table halloc
    rw [hrun, halloc, Option.map_some]
    rcases hcases with ⟨rfl, hrep⟩ | ⟨hwf, hrep⟩
    · refine ⟨d', 0, l', rfl, ?_⟩
      rw [namedMemory_same htable]
      exact h.frame htable hl' hrep
    · rw [hsame] at hwf hrep
      have hres : res ≠ 0 := Nat.ne_of_gt hwf.addr_pos
      have hpos : roundUp r.reqSize alignmentSize ≠ 0 := Nat.ne_of_gt hwf.size_pos
      have hset := memoryOf_set d.namedBlocks i
        (nameBlock d (d.namedBlocks.get i) res (roundUp r.reqSize alignmentSize) key)
      rw [memoryOf_of_zero (findInternal_null hslot), List.nil_append, memoryOf_of_ne hpos] at hset
      rw [if_pos hres]
      refine ⟨_, _, l', rfl, ⟨hl'.chain, hl'.tidy⟩, ?_, h.live_wf, ?_, ?_⟩
      · rw [namedMemory, BootmemDesc.setNamed, htable.blocks]
        have hin := (hset.symm.append_left live).append_right l'
        refine h.parts.trans ((hrep.append_left _).trans (.perm ?_))
        exact (List.perm_middle.trans (List.perm_middle.symm.append_right l')).trans hin
      · rw [namedMemory, BootmemDesc.setNamed, htable.blocks]
        intro b hb
        rcases List.mem_cons.mp (hset.mem_iff.mp hb) with rfl | hb
        · exact hwf
        · exact h.named_wf b hb
      · exact h.version.imp id fun hle => htable.version.symm ▸ hle

/-- Every call that gives back live blocks only and asks for no more than can be rounded
returns, and the memory stays shared out. -/
theorem shared_perform {s : State} (h : Shared l₀ (namedMemory s.desc) s.live s.desc l)
    (h₀ : Separate l₀) (c : Call) (howned : Owned s c) (hmodest : Modest c)
    (hfuel : 2 ^ 61 ≤ fuel) :
    ∃ d' res l', c.perform fuel s.desc = some (d', res) ∧
      Shared l₀ (namedMemory d') (c.liveAfter s.live res) d' l' := by
  cases c with
  | blockAlloc r =>
    obtain ⟨d', res, l', hrun, h', htable⟩ := shared_blockAlloc h r hmodest hfuel
    exact ⟨d', res, l', hrun, (namedMemory_same htable).symm ▸ h'⟩
  | blockFree b =>
    obtain ⟨d', res, l', hrun, h', htable⟩ := shared_blockFree h h₀ howned hfuel
    exact ⟨d', res, l', hrun, (namedMemory_same htable).symm ▸ h'⟩
  | namedBlockAlloc r name => exact shared_namedBlockAlloc h r name hfuel
  | namedBlockFree name => exact shared_namedBlockFree h h₀ name hfuel

end Step

/-! ## Runs -/

variable {fuel : ℕ} {calls : List Call} {P : State → Call → Prop}

theorem along_of_forall (h : ∀ c ∈ calls, ∀ s, P s c) (s : State) : Along P fuel calls s := by
  induction calls generalizing s with
  | nil => trivial
  | cons c calls ih =>
    exact ⟨h c (by simp) s, fun s' _ => ih (fun c' hc' => h c' (by simp [hc'])) s'⟩

/-- A condition that every call keeps, when it meets `P`, holds after a run of such calls. -/
theorem run_keeps (I : State → Prop)
    (hstep : ∀ s c, I s → P s c → ∃ d' res, c.perform fuel s.desc = some (d', res) ∧
      I ⟨d', c.liveAfter s.live res, s.log ++ [(c, res)]⟩) {s : State}
    (hs : I s) (hcalls : Along P fuel calls s) : ∃ s', run fuel calls s = some s' ∧ I s' := by
  induction calls generalizing s with
  | nil => exact ⟨s, rfl, hs⟩
  | cons c calls ih =>
    obtain ⟨hc, hrest⟩ := hcalls
    obtain ⟨d', res, hperform, hs₁⟩ := hstep s c hs hc
    have hexec : c.exec fuel s = some ⟨d', c.liveAfter s.live res, s.log ++ [(c, res)]⟩ := by
      rw [Call.exec, hperform, Option.map_some]
    obtain ⟨s', hrun, hs'⟩ := ih hs₁ (hrest _ hexec)
    exact ⟨s', by rw [run, hexec, Option.bind_some, hrun], hs'⟩

theorem FreeList.separate {d : BootmemDesc} {l : List Block} (h : FreeList d l) : Separate l :=
  h.tidy.ascending.separate fun b hb => (h.tidy.wf b hb).size_pos

/-- The free list stays linked, ended and tidy through every run of allocations that can be
rounded and of releases of live blocks. -/
theorem free_list_stays_tidy {d : BootmemDesc} {l : List Block} (h : FreeList d l)
    (hfuel : 2 ^ 61 ≤ fuel)
    (hcalls : Along (fun s c => Anonymous c ∧ Owned s c ∧ Modest c) fuel calls (.start d)) :
    ∃ s l', run fuel calls (.start d) = some s ∧ FreeList s.desc l' := by
  have h₀ : Separate l := h.separate
  have hinit : Shared l [] [] d l := ⟨h, Repart.refl l, by simp, by simp, Or.inl rfl⟩
  have hkeep := @run_keeps fuel calls _ (fun s => ∃ l', Shared l [] s.live s.desc l') ?_
    (.start d) ⟨l, hinit⟩ hcalls
  · obtain ⟨s, hrun, l', h'⟩ := hkeep
    exact ⟨s, l', hrun, h'.free⟩
  · rintro s c ⟨k, hk⟩ ⟨hanon, howned, hmodest⟩
    cases c with
    | blockAlloc r =>
      obtain ⟨d', res, l', hrun, h', -⟩ := shared_blockAlloc hk r hmodest hfuel
      exact ⟨d', res, hrun, l', h'⟩
    | blockFree b =>
      obtain ⟨d', res, l', hrun, h', -⟩ := shared_blockFree hk h₀ howned hfuel
      exact ⟨d', res, hrun, l', h'⟩
    | namedBlockAlloc r name => exact hanon.elim
    | namedBlockFree name => exact hanon.elim

def ofBlock (b : Block) (nameLen : UInt32) (table : List NamedBlockDesc) : BootmemDesc :=
  ((⟨fun _ => 0, b.addr, 3, nameLen, table⟩ : BootmemDesc).setNext b.addr 0).setSize b.addr b.size

theorem freeList_ofBlock {b : Block} (hb : Wf b) (nameLen : UInt32)
    (table : List NamedBlockDesc) : FreeList (ofBlock b nameLen table) [b] := by
  have hc : Cell b.addr := hb.cell
  refine ⟨⟨rfl, ?_, ?_⟩, List.pairwise_singleton _ _, by simpa using hb⟩
  · simp [ofBlock, size_setSize, hc]
  · simp [ofBlock, next_setSize, next_setNext, hc, LinkedSegment.Seg]

def Request.anywhere (n : ℕ) (h : n < 2 ^ 64) : Request :=
  ⟨n, 0, 0, 0, h, by decide, by decide, Or.inl rfl⟩

theorem wf_page : Wf ⟨4096, 4096⟩ := by
  constructor <;> decide

theorem free_list_stays_tidy_page :
    ∃ s l', run (2 ^ 61) [.blockAlloc (.anywhere 100 (by decide)), .blockFree ⟨4096, 112⟩]
      (.start (ofBlock ⟨4096, 4096⟩ 128 [])) = some s ∧ FreeList s.desc l' := by
  apply free_list_stays_tidy (freeList_ofBlock wf_page 128 []) (le_refl _)
  refine ⟨⟨trivial, trivial, by simp [Modest, Request.anywhere]⟩, fun s hexec => ?_⟩
  have hlive : ((Call.blockAlloc (.anywhere 100 (by decide))).exec (2 ^ 61)
      (.start (ofBlock ⟨4096, 4096⟩ 128 []))).map State.live = some [⟨4096, 112⟩] := by
    decide
  rw [hexec, Option.map_some, Option.some.injEq] at hlive
  refine ⟨⟨trivial, ?_, trivial⟩, fun _ _ => trivial⟩
  simp [Owned, hlive]

/-- A list that leads back to its head is no list of blocks. -/
theorem not_freeList_of_loop {d : BootmemDesc} (hhead : d.headAddr ≠ 0)
    (hnext : d.next d.headAddr = d.headAddr) : ¬ ∃ l, FreeList d l := by
  rintro ⟨l, hchain, htidy⟩
  cases l with
  | nil => exact hhead hchain
  | cons b l =>
    obtain ⟨hb, -, hrest⟩ := hchain
    rw [← hb, hnext] at hrest
    cases l with
    | nil => exact hhead hrest
    | cons c l =>
      have hlt := @Tidy.before [b] l c htidy b (by simp)
      have hc : d.headAddr = c.addr := hrest.1
      omega

/-- A request that is rounded past the last word to `0` links the first block to itself. -/
theorem huge_request_loops :
    FreeList (ofBlock ⟨4096, 4096⟩ 128 []) [⟨4096, 4096⟩] ∧
    ∃ s, run (2 ^ 61) [.blockAlloc (.anywhere (2 ^ 64 - 1) (by decide))]
      (.start (ofBlock ⟨4096, 4096⟩ 128 [])) = some s ∧ ¬ ∃ l', FreeList s.desc l' := by
  refine ⟨freeList_ofBlock wf_page 128 [], ?_⟩
  have hloop : (run (2 ^ 61) [.blockAlloc (.anywhere (2 ^ 64 - 1) (by decide))]
      (.start (ofBlock ⟨4096, 4096⟩ 128 []))).map
        (fun s => (s.desc.headAddr, s.desc.next 4096)) = some (4096, 4096) := by
    decide
  obtain ⟨s, hrun, hs⟩ := Option.map_eq_some_iff.mp hloop
  have hhead : s.desc.headAddr = 4096 := congrArg Prod.fst hs
  have hnext : s.desc.next 4096 = 4096 := congrArg Prod.snd hs
  refine ⟨s, hrun, not_freeList_of_loop ?_ ?_⟩
  · simp [hhead]
  · rw [hhead, hnext]

/-- Whether a call asks for less than half of the address space. -/
def Sized : Call → Prop
  | .blockAlloc r => r.reqSize < 2 ^ 63
  | .namedBlockAlloc r _ => r.reqSize < 2 ^ 63
  | _ => True

theorem namedMemory_of_unused {d : BootmemDesc} (h : ∀ b ∈ d.namedBlocks, b.size = 0) :
    namedMemory d = [] := by
  simpa [namedMemory, memoryOf] using h

theorem shared_start {d : BootmemDesc} {l : List Block} (h : FreeList d l)
    (hnone : ∀ b ∈ d.namedBlocks, b.size = 0) : Shared l (namedMemory d) [] d l := by
  rw [namedMemory_of_unused hnone]
  exact ⟨h, Repart.refl l, by simp, by simp, Or.inl rfl⟩

/-- Live blocks, named blocks and free list are apart and make up the memory that was free at
first, and what the allocator reports as available is what is not in use. -/
theorem memory_is_shared_out {d : BootmemDesc} {l : List Block} (h : FreeList d l)
    (hnone : ∀ b ∈ d.namedBlocks, b.size = 0) (hfuel : 2 ^ 61 ≤ fuel)
    (hcalls : Along (fun s c => Owned s c ∧ Sized c) fuel calls (.start d)) :
    ∃ s l', run fuel calls (.start d) = some s ∧ FreeList s.desc l' ∧
      Separate (s.live ++ namedMemory s.desc ++ l') ∧
      bytes (s.live ++ namedMemory s.desc ++ l') = bytes l ∧
      ∃ a₀ a, octeonPhyMemListAvailableMem fuel 0 d = some a₀ ∧
        octeonPhyMemListAvailableMem fuel 0 s.desc = some a ∧
        a + total s.live + total (namedMemory s.desc) = a₀ := by
  have h₀ : Separate l := h.separate
  have hkeep := @run_keeps fuel calls _
    (fun s => ∃ l', Shared l (namedMemory s.desc) s.live s.desc l') ?_ (.start d)
    ⟨l, shared_start h hnone⟩ hcalls
  · obtain ⟨s, hrun, l', h'⟩ := hkeep
    refine ⟨s, l', hrun, h'.free, (repart_separate h'.parts).mp h₀, (repart_bytes h'.parts).symm,
      total l, total l', octeonPhyMemListAvailableMem_spec h hfuel,
      octeonPhyMemListAvailableMem_spec h'.free hfuel, ?_⟩
    rw [repart_total h'.parts, total_append, total_append]
    omega
  · rintro s c ⟨k, hk⟩ ⟨howned, hsized⟩
    have hmodest : Modest c := by
      cases c with
      | blockAlloc r => exact le_trans (le_of_lt hsized) (by decide)
      | _ => trivial
    obtain ⟨d', res, l', hrun, h'⟩ := shared_perform hk h₀ c howned hmodest hfuel
    exact ⟨d', res, hrun, l', h'⟩

theorem memory_is_shared_out_page :
    ∃ s l', run (2 ^ 61) [.blockAlloc (.anywhere 100 (by decide)),
        .namedBlockAlloc (.anywhere 200 (by decide)) (some ⟨[97], by decide⟩),
        .blockFree ⟨4096, 112⟩]
        (.start (ofBlock ⟨4096, 4096⟩ 128 [⟨0, 0, List.replicate 128 0⟩])) = some s ∧
      FreeList s.desc l' ∧ Separate (s.live ++ namedMemory s.desc ++ l') ∧
      bytes (s.live ++ namedMemory s.desc ++ l') = bytes [⟨4096, 4096⟩] ∧
      ∃ a₀ a, octeonPhyMemListAvailableMem (2 ^ 61) 0
          (ofBlock ⟨4096, 4096⟩ 128 [⟨0, 0, List.replicate 128 0⟩]) = some a₀ ∧
        octeonPhyMemListAvailableMem (2 ^ 61) 0 s.desc = some a ∧
        a + total s.live + total (namedMemory s.desc) = a₀ := by
  apply memory_is_shared_out (freeList_ofBlock wf_page 128 _) (by simp [ofBlock,
    BootmemDesc.setNext, BootmemDesc.setSize]) (le_refl _)
  refine ⟨⟨trivial, by simp [Sized, Request.anywhere]⟩, fun s₁ h₁ => ?_⟩
  refine ⟨⟨trivial, by simp [Sized, Request.anywhere]⟩, fun s₂ h₂ => ?_⟩
  have hlive : (((Call.blockAlloc (.anywhere 100 (by decide))).exec (2 ^ 61)
      (.start (ofBlock ⟨4096, 4096⟩ 128 [⟨0, 0, List.replicate 128 0⟩]))).bind
        ((Call.namedBlockAlloc (.anywhere 200 (by decide)) (some ⟨[97], by decide⟩)).exec
          (2 ^ 61))).map State.live = some [⟨4096, 112⟩] := by
    decide
  rw [h₁, Option.bind_some, h₂, Option.map_some, Option.some.injEq] at hlive
  refine ⟨⟨?_, trivial⟩, fun _ _ => trivial⟩
  simp [Owned, hlive]

end Bootmem
