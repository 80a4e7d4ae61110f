import RouterFirmware.ConnectionLife
import RouterFirmware.Census

/-! # How many connections there are

`ip_conntrack_alloc` counts first: below `ip_conntrack_max` it goes on, at the limit it goes on
once `early_drop` has taken another connection out of the table. Nothing holds the count between
the look at it and the allocation, and what leaves the table may live on for those who hold it. -/
namespace ConnectionLimit

open ConnectionLife

/-- `passed`: the processor has been let through and has not allocated yet. -/
structure State (n : ℕ) where
  life : ConnectionLife.State
  passed : Fin n → Bool

inductive Event (n : ℕ) where
  | check (c : Fin n)
  | drop (c : Fin n) (i : ℕ)
  | alloc (c : Fin n) (i : ℕ)
  | fail (c : Fin n)
  | life (e : ConnectionLife.Event)

variable {n : ℕ}

/-- `check` is the look at the count, `drop` the end of an `early_drop` that found the timer
pending, `fail` no memory; everything else in the life of a connection is as it was. -/
def step (s : State n) : Event n → State n
  | .check c => { s with passed := Function.update s.passed c true }
  | .drop c i => ⟨deathByTimeout s.life i, Function.update s.passed c true⟩
  | .alloc c i => ⟨ipConntrackAlloc s.life i, Function.update s.passed c false⟩
  | .fail c => { s with passed := Function.update s.passed c false }
  | .life e => { s with life := ConnectionLife.step s.life e }

/-- The steps other than an allocation, which is the processors' own. -/
def Other : ConnectionLife.Event → Bool
  | .alloc _ => false
  | .newFails _ | .link _ _ | .confirm _ | .find _ | .attach _ | .corpse _ | .delTimer _ | .death _
  | .put _ | .destroy _ | .putMaster _ | .free _ => true

/-- `max` is `ip_conntrack_max`, 0 for no limit. -/
def Proper (max : ℕ) (s : State n) : Event n → Prop
  | .check c => s.passed c = false ∧ (max = 0 ∨ s.life.count < max)
  | .drop c i => s.passed c = false ∧ s.life.timer i = .running
  | .alloc c i => s.passed c = true ∧ i ∉ s.life.slab
  | .fail c => s.passed c = true
  | .life e => Other e = true ∧ ConnectionLife.Proper s.life e ∧ Spares s.life e

instance (max : ℕ) (s : State n) : (e : Event n) → Decidable (Proper max s e)
  | .check _ => inferInstanceAs (Decidable (_ = _ ∧ (_ = _ ∨ _ < _)))
  | .drop _ _ => inferInstanceAs (Decidable (_ = _ ∧ _ = _))
  | .alloc _ _ => inferInstanceAs (Decidable (_ = _ ∧ _ ∉ _))
  | .fail _ => inferInstanceAs (Decidable (_ = _))
  | .life e => inferInstanceAs (Decidable (Other e = true ∧ ConnectionLife.Proper _ e ∧ Spares _ e))

def initial : State n := ⟨ConnectionLife.initial, fun _ => false⟩

/-- It was in the table and has been taken out. -/
def Left (s : ConnectionLife.State) (i : ℕ) : Prop := s.confirmed i = true ∧ i ∉ s.hashed

instance (s : ConnectionLife.State) (i : ℕ) : Decidable (Left s i) :=
  inferInstanceAs (Decidable (_ ∧ _))

/-- How many are in the table or on their way into it. -/
def live (s : ConnectionLife.State) : ℕ := s.slab.countP fun i => ¬ Left s i

section Live

variable {s t : ConnectionLife.State} {i : ℕ}

theorem live_le_of_sublist (hslab : t.slab.Sublist s.slab)
    (hleft : ∀ j ∈ t.slab, Left s j → Left t j) : live t ≤ live s := by
  have hmono : live t ≤ t.slab.countP fun j => ¬ Left s j := by
    refine List.countP_mono_left fun j hj h => ?_
    rw [decide_eq_true_iff] at h ⊢
    exact fun hl => h (hleft j hj hl)
  exact Nat.le_trans hmono hslab.countP_le

theorem live_le_length (s : ConnectionLife.State) : live s ≤ s.slab.length := List.countP_le_length

theorem live_death (hs : Life s) (hi : s.timer i = .running) :
    live (deathByTimeout s i) + 1 ≤ live s := by
  have hin : i ∈ s.hashed := (hs.timer i).mpr (by rw [hi]; nofun)
  have hslab := hs.mem_of_hashed hin
  have hsplit (p : ℕ → Bool) :
      s.slab.countP p = (s.slab.erase i).countP p + if p i then 1 else 0 := by
    rw [(List.perm_cons_erase hslab).countP_eq, List.countP_cons]
  have hgone : Left (deathByTimeout s i) i :=
    ⟨hs.confirmed i hin, fun h => (hs.hashed.mem_erase_iff.mp h).1 rfl⟩
  have hthere : ¬ Left s i := fun h => h.2 hin
  have hmono : (s.slab.erase i).countP (fun j => ¬ Left (deathByTimeout s i) j) ≤
      (s.slab.erase i).countP fun j => ¬ Left s j := by
    refine List.countP_mono_left fun j _ h => ?_
    rw [decide_eq_true_iff] at h ⊢
    exact fun hl => h ⟨hl.1, fun hj => hl.2 (hs.hashed.mem_erase_iff.mp hj).2⟩
  calc live (deathByTimeout s i) + 1
      = (s.slab.erase i).countP (fun j => ¬ Left (deathByTimeout s i) j) + 1 := by
        rw [live]
        change s.slab.countP _ + 1 = _
        rw [hsplit, if_neg (by simpa using hgone)]
    _ ≤ (s.slab.erase i).countP (fun j => ¬ Left s j) + 1 := Nat.succ_le_succ hmono
    _ = live s := by rw [live, hsplit, if_pos (by simpa using hthere)]

theorem live_gone (hs : Life s) (h : Gone s t i) : live t ≤ live s := by
  refine live_le_of_sublist (h.slab ▸ List.erase_sublist) fun j hj hl => ?_
  rw [h.slab, hs.slab.mem_erase_iff] at hj
  rw [Left, h.confirmed, Function.update_of_ne hj.1, h.hashed]
  exact hl

theorem live_alloc (hi : i ∉ s.slab) : live (ipConntrackAlloc s i) ≤ live s + 1 := by
  have hsame : s.slab.countP (fun j => ¬ Left (ipConntrackAlloc s i) j) ≤ live s := by
    refine List.countP_mono_left fun j hj h => ?_
    have hji : j ≠ i := fun e => hi (e ▸ hj)
    rw [decide_eq_true_iff] at h ⊢
    exact fun hl => h ⟨(Function.update_of_ne hji ..).trans hl.1, hl.2⟩
  rw [live]
  change (i :: s.slab).countP _ ≤ _
  rw [List.countP_cons]
  split <;> omega

theorem live_step (hs : Life s) {e : ConnectionLife.Event} (hother : Other e = true)
    (he : ConnectionLife.Proper s e) : live (ConnectionLife.step s e) ≤ live s := by
  cases e with
  | alloc i => cases hother
  | newFails i => exact live_gone hs (newFails_gone hs he)
  | link i master => cases master <;> exact Nat.le_refl _
  | confirm i =>
    refine live_le_of_sublist (List.Sublist.refl _) fun j _ hl => ?_
    have hji : j ≠ i := by
      rintro rfl
      rw [Left, (hs.waiting j he.2).2.1] at hl
      cases hl.1
    refine ⟨(Function.update_of_ne hji ..).trans hl.1, fun hj => hl.2 ?_⟩
    exact (List.mem_cons.mp hj).resolve_left hji
  | find i | attach i | corpse i | delTimer i | put i => exact Nat.le_refl _
  | death i => exact Nat.le_of_succ_le (live_death hs he)
  | destroy i => exact Nat.le_refl _
  | putMaster i =>
    change live (putMaster s i) ≤ live s
    rw [putMaster]
    split <;> exact Nat.le_refl _
  | free i => exact live_gone hs (free_gone hs he)

end Live

section Bound

variable {max : ℕ} {s : State n} {e : Event n}

theorem step_life (hs : Life s.life) (he : Proper max s e) : Life (step s e).life := by
  cases e with
  | check c => exact hs
  | drop c i => exact death_keeps hs he.2
  | alloc c i => exact alloc_keeps hs he.2
  | fail c => exact hs
  | life e => exact ConnectionLife.step_life hs he.2.1 he.2.2

/-- There is room for those that count and for those that were let through. -/
def Room (max : ℕ) (s : State n) : Prop := live s.life + Census.count id s.passed + 1 ≤ max + n

theorem let_through {c : Fin n} (hc : s.passed c = false) :
    Census.count id (Function.update s.passed c true) = Census.count id s.passed + 1 ∧
      Census.count id s.passed < n := by
  refine ⟨Census.count_update_enter hc rfl, ?_⟩
  have hless := Census.count_lt_card (p := id) (f := s.passed) hc
  rwa [Fintype.card_fin] at hless

theorem step_room (hmax : 0 < max) (hs : Life s.life) (hroom : Room max s) (he : Proper max s e) :
    Room max (step s e) := by
  cases e with
  | check c =>
    obtain ⟨hc, hcount⟩ := he
    obtain ⟨henter, hless⟩ := let_through hc
    have hlive := live_le_length s.life
    rw [← hs.count] at hlive
    have hbelow : s.life.count < max := hcount.resolve_left (Nat.ne_of_gt hmax)
    calc live s.life + Census.count id (Function.update s.passed c true) + 1
        = live s.life + (Census.count id s.passed + 1) + 1 := by rw [henter]
      _ ≤ max + n := by omega
  | drop c i =>
    obtain ⟨henter, -⟩ := let_through he.1
    have hdeath := live_death hs he.2
    calc live (deathByTimeout s.life i) + Census.count id (Function.update s.passed c true) + 1
        = live (deathByTimeout s.life i) + 1 + Census.count id s.passed + 1 := by rw [henter]; omega
      _ ≤ live s.life + Census.count id s.passed + 1 := by omega
      _ ≤ max + n := hroom
  | alloc c i =>
    have hleave : Census.count id (Function.update s.passed c false) + 1 =
        Census.count id s.passed := Census.count_update_leave he.1 rfl
    have halloc := live_alloc he.2
    calc live (ipConntrackAlloc s.life i) + Census.count id (Function.update s.passed c false) + 1
        ≤ live s.life + 1 + Census.count id (Function.update s.passed c false) + 1 := by omega
      _ = live s.life + Census.count id s.passed + 1 := by omega
      _ ≤ max + n := hroom
  | fail c =>
    have hleave : Census.count id (Function.update s.passed c false) + 1 =
        Census.count id s.passed := Census.count_update_leave he rfl
    calc live s.life + Census.count id (Function.update s.passed c false) + 1
        ≤ live s.life + Census.count id s.passed + 1 := by omega
      _ ≤ max + n := hroom
  | life e =>
    have hlive := live_step hs he.1 he.2.1
    calc live (ConnectionLife.step s.life e) + Census.count id s.passed + 1
        ≤ live s.life + Census.count id s.passed + 1 := by omega
      _ ≤ max + n := hroom

theorem live_add_left (s : ConnectionLife.State) :
    s.slab.length = live s + s.slab.countP fun i => Left s i := by
  have h := List.length_eq_countP_add_countP (fun i => decide (Left s i)) (l := s.slab)
  rw [h, Nat.add_comm]
  congr 1
  exact List.countP_congr fun i _ => by simp

/-- With any number of processors, fewer connections are in the table or on their way into it
than the limit and the processors together; those in excess have left the table, and live on
for what still refers to them. -/
theorem connection_limit (max : ℕ) (hmax : 0 < max) (es : List (Event n))
    (hes : GuardedRun.Along step (Proper max) initial es) :
    let s := es.foldl step initial
    live s.life + 1 ≤ max + n ∧
      s.life.count + 1 ≤ max + n + s.life.slab.countP fun i => Left s.life i := by
  intro s
  have hstep (s : State n) (e : Event n) (h : Life s.life ∧ Room max s) (he : Proper max s e) :
      Life (step s e).life ∧ Room max (step s e) :=
    ⟨step_life h.1 he, step_room hmax h.1 h.2 he⟩
  have hzero : Census.count id (initial : State n).passed = 0 :=
    Census.count_eq_zero.mpr fun _ => rfl
  have hstart : Room max (initial : State n) := by
    rw [Room, hzero]
    exact Nat.le_trans hmax (Nat.le_add_right max n)
  obtain ⟨hlife, hroom⟩ : Life s.life ∧ Room max s :=
    GuardedRun.foldl_keeps hstep ⟨life_initial, hstart⟩ hes
  have hbound : live s.life + 1 ≤ max + n :=
    Nat.le_trans (Nat.succ_le_succ (Nat.le_add_right _ _)) hroom
  refine ⟨hbound, ?_⟩
  rw [hlife.count, live_add_left]
  omega

/-- Two processors look at the count before either has allocated. -/
theorem connection_limit_two :
    let es : List (Event 2) := [.check 0, .check 1, .alloc 0 0, .alloc 1 1]
    let s := es.foldl step initial
    live s.life = 2 ∧ live s.life + 1 ≤ 1 + 2 := by
  intro es s
  exact ⟨by decide, (connection_limit 1 Nat.one_pos es (by decide)).1⟩

end Bound

end ConnectionLimit
