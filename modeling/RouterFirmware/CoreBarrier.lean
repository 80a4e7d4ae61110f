import RouterFirmware.GuardedRun
import Mathlib.Data.BitVec
import Mathlib.Data.Finset.Max
import Mathlib.Data.List.FinRange

/-! # The barrier of the cores

A barrier is named by the set of cores that meet at it. Twenty slots hold the sets in the order
in which they were first used; each has the cores that have come to the present meeting and a
number that goes up with every meeting, on which the cores that came wait. What a core does in
a slot it does under one spin lock, so that it is one step here. -/
namespace CoreBarrier

abbrev Coremask := BitVec 32
abbrev CoreId := Fin 32

def cvmxCoremaskCore (core : CoreId) : Coremask := 1#32 <<< core.val

def cvmxCoremaskMax : Coremask := 0xffffffff

/-- A shift by 32 is undefined in C, so that the number of cores is not 0. -/
def cvmxCoremaskNumcores (numCores : ℕ) : Coremask := cvmxCoremaskMax >>> (32 - numCores)

def cvmxCoremaskRange (low high : ℕ) : Coremask := (cvmxCoremaskMax >>> (31 - high + low)) <<< low

/-- For the core that asks. -/
def cvmxCoremaskIsMember (core : CoreId) (coremask : Coremask) : Bool :=
  cvmxCoremaskCore core &&& coremask ≠ 0

def cvmxCoremaskFirstCore (core : CoreId) (coremask : Coremask) : Bool :=
  cvmxCoremaskIsMember core coremask &&
    (core = 0 || cvmxCoremaskNumcores core.val &&& coremask = 0)

structure Slot where
  coremask : Coremask
  checkin : Coremask
  exit : BitVec 32
  deriving DecidableEq, Repr

def maxSyncs : ℕ := 20

inductive Pc where
  | idle
  | waiting (i : Fin maxSyncs) (target : BitVec 32)
  | aborted
  deriving DecidableEq, Repr

/-- `entered` and `left` are history: the calls with a set that a core has begun and that have
returned. -/
structure State where
  slots : Fin maxSyncs → Slot
  pc : CoreId → Pc
  entered : Coremask → CoreId → ℕ
  left : Coremask → CoreId → ℕ

inductive Event where
  | call (core : CoreId) (coremask : Coremask)
  | poll (core : CoreId)
  deriving DecidableEq, Repr

def initial : State :=
  ⟨fun _ => ⟨0, 0, 0⟩, fun _ => .idle, fun _ _ => 0, fun _ _ => 0⟩

/-- The slot the loop stops at: the first that is new or has the set already. -/
def findSlot (slots : Fin maxSyncs → Slot) (coremask : Coremask) : Option (Fin maxSyncs) :=
  (List.finRange maxSyncs).find? fun i =>
    (slots i).coremask = 0 ∨ (slots i).coremask = coremask

/-- A core checks in; the last one of the set ends the meeting. -/
def Slot.checkIn (slot : Slot) (coremask : Coremask) (core : CoreId) : Slot :=
  let checkin := slot.checkin ||| cvmxCoremaskCore core
  if checkin = coremask then ⟨coremask, 0, slot.exit + 1⟩ else ⟨coremask, checkin, slot.exit⟩

def bump (count : Coremask → CoreId → ℕ) (coremask : Coremask) (core : CoreId) :
    Coremask → CoreId → ℕ :=
  Function.update count coremask
    (Function.update (count coremask) core (count coremask core + 1))

/-- `cvmx_coremask_barrier_sync` up to the unlock, and each turn of its loop after it. -/
def step (s : State) : Event → State
  | .call core coremask =>
    if s.pc core = .idle then
      if coremask = 0 then { s with pc := Function.update s.pc core .aborted }
      else
        match findSlot s.slots coremask with
        | none => { s with pc := Function.update s.pc core .aborted }
        | some i =>
          { s with
            slots := Function.update s.slots i ((s.slots i).checkIn coremask core)
            pc := Function.update s.pc core (.waiting i ((s.slots i).exit + 1))
            entered := bump s.entered coremask core }
    else s
  | .poll core =>
    match s.pc core with
    | .waiting i target =>
      if (s.slots i).exit ≠ target then s
      else
        { s with
          pc := Function.update s.pc core .idle
          left := bump s.left (s.slots i).coremask core }
    | .idle | .aborted => s

def Member (core : CoreId) (coremask : Coremask) : Prop := coremask.getLsbD core.val = true

instance (core : CoreId) (coremask : Coremask) : Decidable (Member core coremask) :=
  inferInstanceAs (Decidable (_ = _))

/-- A core meets only at barriers of sets that it belongs to. -/
def Proper (_ : State) : Event → Prop
  | .call core coremask => Member core coremask
  | .poll _ => True

instance (s : State) : (e : Event) → Decidable (Proper s e)
  | .call core coremask => inferInstanceAs (Decidable (Member core coremask))
  | .poll _ => inferInstanceAs (Decidable True)

section Bits

theorem member_core {core d : CoreId} : Member d (cvmxCoremaskCore core) ↔ d = core := by
  simp only [Member, cvmxCoremaskCore, BitVec.getLsbD_shiftLeft, BitVec.getLsbD_one, Bool.and_eq_true,
    decide_eq_true_eq, Bool.not_eq_true', decide_eq_false_iff_not, Fin.ext_iff]
  omega

theorem member_or {core : CoreId} {a b : Coremask} :
    Member core (a ||| b) ↔ Member core a ∨ Member core b := by
  simp [Member]

theorem not_member_zero (core : CoreId) : ¬ Member core 0 := by
  simp [Member]

theorem coremask_ext {a b : Coremask} (h : ∀ core, Member core a ↔ Member core b) : a = b := by
  refine BitVec.eq_of_getLsbD_eq fun i hi => ?_
  exact Bool.eq_iff_iff.mpr (h ⟨i, hi⟩)

end Bits

section Coremask

variable {core d : CoreId} {coremask : Coremask}

theorem coremask_eq_zero_iff : coremask = 0 ↔ ∀ d, ¬ Member d coremask :=
  ⟨fun h d => h ▸ not_member_zero d, fun h => coremask_ext fun d =>
    iff_of_false (h d) (not_member_zero d)⟩

theorem member_and {a b : Coremask} : Member core (a &&& b) ↔ Member core a ∧ Member core b := by
  simp [Member]

theorem member_max (core : CoreId) : Member core cvmxCoremaskMax := by
  simp only [Member, cvmxCoremaskMax]
  decide +revert

theorem isMember_iff : cvmxCoremaskIsMember core coremask = true ↔ Member core coremask := by
  rw [cvmxCoremaskIsMember, decide_eq_true_iff, ne_eq, coremask_eq_zero_iff, not_forall]
  constructor
  · rintro ⟨d, hd⟩
    obtain ⟨hcore, hmem⟩ := member_and.mp (not_not.mp hd)
    exact member_core.mp hcore ▸ hmem
  · intro h
    exact ⟨core, not_not.mpr (member_and.mpr ⟨member_core.mpr rfl, h⟩)⟩

theorem member_numcores {k : ℕ} (hk : k ≤ 32) : Member d (cvmxCoremaskNumcores k) ↔ d.val < k := by
  have hd := d.isLt
  simp only [Member, cvmxCoremaskNumcores, BitVec.getLsbD_ushiftRight]
  constructor
  · intro h
    have := BitVec.lt_of_getLsbD h
    omega
  · intro h
    exact member_max ⟨32 - k + d.val, by omega⟩

theorem member_range {low high : ℕ} (hhigh : high < 32) :
    Member d (cvmxCoremaskRange low high) ↔ low ≤ d.val ∧ d.val ≤ high := by
  have hd := d.isLt
  simp only [Member, cvmxCoremaskRange, BitVec.getLsbD_shiftLeft, BitVec.getLsbD_ushiftRight,
    Bool.and_eq_true, decide_eq_true_eq, Bool.not_eq_true', decide_eq_false_iff_not, not_lt]
  constructor
  · rintro ⟨⟨-, h⟩, hbit⟩
    have := BitVec.lt_of_getLsbD hbit
    omega
  · rintro ⟨h1, h2⟩
    exact ⟨⟨hd, h1⟩, member_max ⟨31 - high + low + (d.val - low), by omega⟩⟩

theorem firstCore_iff : cvmxCoremaskFirstCore core coremask = true ↔
    Member core coremask ∧ ∀ d, Member d coremask → core ≤ d := by
  simp only [cvmxCoremaskFirstCore, Bool.and_eq_true, isMember_iff, Bool.or_eq_true,
    decide_eq_true_eq, coremask_eq_zero_iff, member_and, member_numcores (k := core.val) (by omega)]
  refine and_congr_right fun _ => ⟨?_, fun h => .inr fun d hd => ?_⟩
  · rintro (rfl | h) d hd
    · exact Fin.zero_le d
    · exact not_lt.mp fun hlt => h d ⟨hlt, hd⟩
  · exact absurd (h d hd.2) (not_le.mpr hd.1)

/-- The set of the cores from `low` to `high` has exactly these; of any set but the empty one
exactly one core takes itself for the first. -/
theorem range_first_core (coremask : Coremask) :
    (∀ low high d, low ≤ high → high < 32 →
      (cvmxCoremaskIsMember d (cvmxCoremaskRange low high) = true ↔ low ≤ d.val ∧ d.val ≤ high)) ∧
      (coremask ≠ 0 ↔ ∃! core, cvmxCoremaskFirstCore core coremask = true) := by
  refine ⟨fun low high d _ hhigh => isMember_iff.trans (member_range hhigh), ?_⟩
  constructor
  · intro hne
    have hsome : ∃ d, Member d coremask := by
      by_contra hno
      exact hne (coremask_eq_zero_iff.mpr fun d hd => hno ⟨d, hd⟩)
    obtain ⟨d, hd⟩ := hsome
    have hmem : (Finset.univ.filter fun c : CoreId => Member c coremask).Nonempty :=
      ⟨d, by simpa using hd⟩
    refine ⟨Finset.min' _ hmem, firstCore_iff.mpr ⟨?_, fun c hc => ?_⟩, fun c hc => ?_⟩
    · simpa using Finset.min'_mem _ hmem
    · exact Finset.min'_le _ c (by simpa using hc)
    · obtain ⟨hc, hle⟩ := firstCore_iff.mp hc
      exact le_antisymm (hle _ (by simpa using Finset.min'_mem _ hmem))
        (Finset.min'_le _ c (by simpa using hc))
  · rintro ⟨core, hcore, -⟩ rfl
    exact not_member_zero core (firstCore_iff.mp hcore).1

end Coremask

section FindSlot

variable {slots : Fin maxSyncs → Slot} {coremask : Coremask} {i : Fin maxSyncs}

theorem findSlot_some (h : findSlot slots coremask = some i) :
    ((slots i).coremask = 0 ∨ (slots i).coremask = coremask) ∧
      ∀ j, j < i → (slots j).coremask ≠ 0 ∧ (slots j).coremask ≠ coremask := by
  obtain ⟨hi, as, bs, hsplit, has⟩ := List.find?_eq_some_iff_append.mp h
  refine ⟨by simpa using hi, fun j hj => ?_⟩
  have hpair : (as ++ i :: bs).Pairwise (· < ·) := hsplit ▸ List.pairwise_lt_finRange maxSyncs
  have hmem : j ∈ as ++ i :: bs := hsplit ▸ List.mem_finRange j
  have hja : j ∈ as := by
    rcases List.mem_append.mp hmem with hja | hjb
    · exact hja
    · obtain ⟨-, hlt, -⟩ := List.pairwise_append.mp hpair
      rcases List.mem_cons.mp hjb with rfl | hjb
      · exact absurd hj (lt_irrefl j)
      · exact absurd ((List.pairwise_cons.mp hlt).1 j hjb) (lt_asymm hj)
  simpa [not_or] using has j hja

theorem findSlot_none (h : findSlot slots coremask = none) (i : Fin maxSyncs) :
    (slots i).coremask ≠ 0 ∧ (slots i).coremask ≠ coremask := by
  have := List.find?_eq_none.mp h i (List.mem_finRange i)
  simpa [not_or] using this

end FindSlot

/-- Slot `i` in its `g`-th meeting of the cores `coremask`: those that have come to it are
checked in and wait, and not all of them have come. -/
structure Meeting (s : State) (i : Fin maxSyncs) (slot : Slot) (coremask : Coremask) (g : ℕ) :
    Prop where
  exit : slot.exit = BitVec.ofNat 32 g
  entered : ∀ c, Member c coremask → (Member c slot.checkin → s.entered coremask c = g + 1) ∧
    (¬ Member c slot.checkin → s.entered coremask c = g)
  open_ : slot.checkin ≠ coremask
  waits : ∀ c, Member c slot.checkin → Member c coremask ∧ ∃ t, s.pc c = .waiting i t

/-- What a core waits for, and what calls of it have returned. -/
def Returned (s : State) (c : CoreId) : Pc → Prop
  | .idle => ∀ m, s.left m c = s.entered m c
  | .aborted => (∀ m, s.left m c = s.entered m c) ∧ ∀ i, (s.slots i).coremask ≠ 0
  | .waiting i target =>
    (s.slots i).coremask ≠ 0 ∧ Member c (s.slots i).coremask ∧
      s.left (s.slots i).coremask c + 1 = s.entered (s.slots i).coremask c ∧
      target = BitVec.ofNat 32 (s.entered (s.slots i).coremask c) ∧
      ∀ m, m ≠ (s.slots i).coremask → s.left m c = s.entered m c

structure Invariant (s : State) : Prop where
  distinct : ∀ i j, (s.slots i).coremask ≠ 0 → (s.slots i).coremask = (s.slots j).coremask → i = j
  packed : ∀ i j, i < j → (s.slots i).coremask = 0 → (s.slots j).coremask = 0
  fresh : ∀ i, (s.slots i).coremask = 0 → s.slots i = ⟨0, 0, 0⟩
  meeting : ∀ i, (s.slots i).coremask ≠ 0 →
    ∃ g, Meeting s i (s.slots i) (s.slots i).coremask g
  unused : ∀ m, m ≠ 0 → (∀ i, (s.slots i).coremask ≠ m) → ∀ c, s.entered m c = 0
  used : ∀ i, (s.slots i).coremask ≠ 0 → ∃ c, 0 < s.entered (s.slots i).coremask c
  returned : ∀ c, Returned s c (s.pc c)

theorem invariant_initial : Invariant initial := by
  constructor
  · intro i j h
    exact absurd rfl h
  · exact fun _ _ _ _ => rfl
  · exact fun _ _ => rfl
  · intro i h
    exact absurd rfl h
  · exact fun _ _ _ _ => rfl
  · intro i h
    exact absurd rfl h
  · exact fun _ _ => rfl

section Bump

variable (count : Coremask → CoreId → ℕ) (m : Coremask) (c : CoreId)

@[simp] theorem bump_self : bump count m c m c = count m c + 1 := by simp [bump]

theorem bump_of_ne {m' : Coremask} {d : CoreId} (h : ¬ (m' = m ∧ d = c)) :
    bump count m c m' d = count m' d := by
  by_cases hm : m' = m
  · subst m'
    have hd : d ≠ c := fun hd => h ⟨rfl, hd⟩
    simp [bump, hd]
  · simp [bump, hm]

end Bump

section Call

variable {s : State} {core : CoreId} {coremask : Coremask} {i : Fin maxSyncs}

/-- The slot that is found is in a meeting of the set, its first one where it is new. -/
theorem found_meeting (h : Invariant s) (hm : coremask ≠ 0)
    (hf : findSlot s.slots coremask = some i) :
    (∀ j, (s.slots j).coremask = coremask → j = i) ∧
      ∃ g, Meeting s i (s.slots i) coremask g := by
  obtain ⟨hi, hbefore⟩ := findSlot_some hf
  by_cases hz : (s.slots i).coremask = 0
  · have hno : ∀ j, (s.slots j).coremask ≠ coremask := by
      intro j hj
      rcases lt_trichotomy j i with hlt | rfl | hgt
      · exact (hbefore j hlt).2 hj
      · exact hm (hj.symm.trans hz)
      · exact hm (hj.symm.trans (h.packed i j hgt hz))
    refine ⟨fun j hj => absurd hj (hno j), 0, ?_⟩
    rw [h.fresh i hz]
    exact ⟨rfl, fun c _ => ⟨fun hc => absurd hc (not_member_zero c), fun _ => h.unused _ hm hno c⟩,
      hm.symm, fun c hc => absurd hc (not_member_zero c)⟩
  · have he : (s.slots i).coremask = coremask := hi.resolve_left hz
    refine ⟨fun j hj => (h.distinct i j hz (he.trans hj.symm)).symm, ?_⟩
    obtain ⟨g, hg⟩ := h.meeting i hz
    exact ⟨g, he ▸ hg⟩

theorem Meeting.not_checked {slot : Slot} {g : ℕ} (h : Meeting s i slot coremask g)
    (hp : ∀ t, s.pc core ≠ .waiting i t) : ¬ Member core slot.checkin := by
  intro hc
  obtain ⟨-, t, ht⟩ := h.waits core hc
  exact hp t ht

@[simp] theorem checkIn_coremask (slot : Slot) :
    (slot.checkIn coremask core).coremask = coremask := by
  simp only [Slot.checkIn]
  split <;> rfl

def State.enter (s : State) (core : CoreId) (coremask : Coremask) (i : Fin maxSyncs) : State :=
  { s with
    slots := Function.update s.slots i ((s.slots i).checkIn coremask core)
    pc := Function.update s.pc core (.waiting i ((s.slots i).exit + 1))
    entered := bump s.entered coremask core }

/-- The core checks in, and the last one opens the next meeting. -/
theorem meeting_enter {g : ℕ} (hg : Meeting s i (s.slots i) coremask g) (hm : coremask ≠ 0)
    (hc : Member core coremask) (hp : s.pc core = .idle) :
    s.entered coremask core = g ∧ ∃ g', Meeting (s.enter core coremask i) i
      ((s.slots i).checkIn coremask core) coremask g' := by
  have hnot : ¬ Member core (s.slots i).checkin := hg.not_checked fun t => by rw [hp]; nofun
  have hcore := (hg.entered core hc).2 hnot
  have hin : ∀ d, Member d ((s.slots i).checkin ||| cvmxCoremaskCore core) ↔
      Member d (s.slots i).checkin ∨ d = core := fun d => by rw [member_or, member_core]
  have hent : ∀ d, Member d coremask →
      (Member d (s.slots i).checkin ∨ d = core → (s.enter core coremask i).entered coremask d = g + 1) ∧
      (¬ (Member d (s.slots i).checkin ∨ d = core) →
        (s.enter core coremask i).entered coremask d = g) := by
    intro d hd
    simp only [State.enter]
    by_cases hdc : d = core
    · subst d
      simp [hcore]
    · rw [bump_of_ne _ _ _ fun h => hdc h.2]
      exact ⟨fun h => (hg.entered d hd).1 (h.resolve_right hdc),
        fun h => (hg.entered d hd).2 fun hmem => h (.inl hmem)⟩
  refine ⟨hcore, ?_⟩
  by_cases hall : (s.slots i).checkin ||| cvmxCoremaskCore core = coremask
  · refine ⟨g + 1, ?_⟩
    simp only [Slot.checkIn, hall, if_true]
    refine ⟨?_, fun d hd => ⟨fun h => absurd h (not_member_zero d), fun _ => ?_⟩, hm.symm,
      fun d h => absurd h (not_member_zero d)⟩
    · rw [hg.exit]
      exact (BitVec.ofNat_add ..).symm
    · exact (hent d hd).1 ((hin d).mp (hall ▸ hd))
  · refine ⟨g, ?_⟩
    simp only [Slot.checkIn, hall, if_false]
    refine ⟨hg.exit, fun d hd => ⟨fun h => (hent d hd).1 ((hin d).mp h),
      fun h => (hent d hd).2 fun h' => h ((hin d).mpr h')⟩, hall, ?_⟩
    intro d hd
    by_cases hdc : d = core
    · exact ⟨hdc ▸ hc, _, by rw [hdc]; exact Function.update_self ..⟩
    · obtain ⟨hmem, t, ht⟩ := hg.waits d (((hin d).mp hd).resolve_right hdc)
      exact ⟨hmem, t, (Function.update_of_ne hdc _ _).trans ht⟩

theorem meeting_other {j : Fin maxSyncs} {slot : Slot} {m : Coremask} {g : ℕ}
    (hg : Meeting s j slot m g) (hne : m ≠ coremask) (hp : s.pc core = .idle) :
    Meeting (s.enter core coremask i) j slot m g := by
  refine ⟨hg.exit, fun d hd => ?_, hg.open_, fun d hd => ?_⟩
  · simp only [State.enter]
    rw [bump_of_ne _ _ _ fun h => hne h.1]
    exact hg.entered d hd
  · obtain ⟨hmem, t, ht⟩ := hg.waits d hd
    have hdc : d ≠ core := by
      rintro rfl
      rw [hp] at ht
      cases ht
    exact ⟨hmem, t, (Function.update_of_ne hdc _ _).trans ht⟩

theorem returned_enter (h : Invariant s) (hm : coremask ≠ 0) (hc : Member core coremask)
    (hp : s.pc core = .idle) (hi : (s.slots i).coremask = 0 ∨ (s.slots i).coremask = coremask)
    {g : ℕ} (hg : Meeting s i (s.slots i) coremask g) (d : CoreId) :
    Returned (s.enter core coremask i) d ((s.enter core coremask i).pc d) := by
  have hslot : ∀ j, (s.slots j).coremask ≠ 0 →
      ((s.enter core coremask i).slots j).coremask = (s.slots j).coremask := by
    intro j hj
    by_cases hji : j = i
    · subst j
      simp [State.enter, hi.resolve_left hj]
    · simp [State.enter, hji]
  by_cases hd : d = core
  · subst d
    have hret := h.returned core
    simp only [hp, Returned] at hret
    obtain ⟨hcore, -⟩ := meeting_enter hg hm hc hp
    have hpc : (s.enter core coremask i).pc core = .waiting i ((s.slots i).exit + 1) := by
      simp [State.enter]
    rw [hpc]
    refine ⟨?_, ?_, ?_, ?_, ?_⟩ <;>
      simp only [State.enter, Function.update_self, checkIn_coremask, bump_self, hret coremask]
    · exact hm
    · exact hc
    · rw [hcore, hg.exit]
      exact (BitVec.ofNat_add ..).symm
    · intro m hne
      rw [bump_of_ne _ _ _ fun h => hne h.1]
      exact hret m
  · have hpc : (s.enter core coremask i).pc d = s.pc d := by simp [State.enter, hd]
    have hent : ∀ m, (s.enter core coremask i).entered m d = s.entered m d :=
      fun m => bump_of_ne _ _ _ fun h => hd h.2
    have hret := h.returned d
    rw [hpc]
    cases hpd : s.pc d with
    | idle =>
      simp only [hpd, Returned] at hret ⊢
      exact fun m => (hret m).trans (hent m).symm
    | aborted =>
      simp only [hpd, Returned] at hret ⊢
      exact ⟨fun m => (hret.1 m).trans (hent m).symm,
        fun j => (hslot j (hret.2 j)).symm ▸ hret.2 j⟩
    | waiting j t =>
      simp only [hpd, Returned] at hret ⊢
      obtain ⟨h0, h1, h2, h3, h4⟩ := hret
      rw [hslot j h0, hent]
      exact ⟨h0, h1, h2, h3, fun m hne => (h4 m hne).trans (hent m).symm⟩

theorem enter_keeps (h : Invariant s) (hm : coremask ≠ 0) (hc : Member core coremask)
    (hp : s.pc core = .idle) (hf : findSlot s.slots coremask = some i) :
    Invariant (s.enter core coremask i) := by
  obtain ⟨honly, g, hg⟩ := found_meeting h hm hf
  obtain ⟨hi, hbefore⟩ := findSlot_some hf
  obtain ⟨-, g', hg'⟩ := meeting_enter hg hm hc hp
  have hself : (s.enter core coremask i).slots i = (s.slots i).checkIn coremask core := by
    simp [State.enter]
  have hother : ∀ j, j ≠ i → (s.enter core coremask i).slots j = s.slots j := fun j hj => by
    simp [State.enter, hj]
  constructor
  · intro j k hj hjk
    by_cases hji : j = i
    · by_cases hki : k = i
      · rw [hji, hki]
      · rw [hji, hself, checkIn_coremask, hother k hki] at hjk
        exact hji.trans (honly k hjk.symm).symm
    · rw [hother j hji] at hj hjk
      by_cases hki : k = i
      · rw [hki, hself, checkIn_coremask] at hjk
        exact absurd (honly j hjk) hji
      · rw [hother k hki] at hjk
        exact h.distinct j k hj hjk
  · intro j k hjk hj
    by_cases hji : j = i
    · rw [hji, hself, checkIn_coremask] at hj
      exact absurd hj hm
    · rw [hother j hji] at hj
      by_cases hki : k = i
      · exact absurd hj (hbefore j (hki ▸ hjk)).1
      · rw [hother k hki]
        exact h.packed j k hjk hj
  · intro j hj
    by_cases hji : j = i
    · rw [hji, hself, checkIn_coremask] at hj
      exact absurd hj hm
    · rw [hother j hji] at hj ⊢
      exact h.fresh j hj
  · intro j hj
    by_cases hji : j = i
    · subst j
      rw [hself, checkIn_coremask]
      exact ⟨g', hg'⟩
    · rw [hother j hji] at hj ⊢
      obtain ⟨gj, hgj⟩ := h.meeting j hj
      exact ⟨gj, meeting_other hgj (fun he => hji (honly j he)) hp⟩
  · intro m hm0 hno d
    have hne : m ≠ coremask := fun he => hno i (by rw [hself, checkIn_coremask, he])
    have hold : ∀ j, (s.slots j).coremask ≠ m := by
      intro j hj
      by_cases hji : j = i
      · rcases hi with hz | he
        · exact hm0 (by rw [← hj, hji, hz])
        · exact hne (by rw [← hj, hji, he])
      · exact hno j (by rw [hother j hji, hj])
    exact (bump_of_ne _ _ _ fun h => hne h.1).trans (h.unused m hm0 hold d)
  · intro j hj
    by_cases hji : j = i
    · subst j
      refine ⟨core, ?_⟩
      rw [hself, checkIn_coremask]
      simp [State.enter]
    · rw [hother j hji] at hj ⊢
      obtain ⟨c, hc⟩ := h.used j hj
      refine ⟨c, hc.trans_eq ?_⟩
      exact (bump_of_ne _ _ _ fun he => hji (honly j he.1)).symm
  · exact returned_enter h hm hc hp hi hg

end Call

section Poll

variable {s : State} {core : CoreId} {i : Fin maxSyncs} {target : BitVec 32}

theorem exit_ne (g : ℕ) : BitVec.ofNat 32 g ≠ BitVec.ofNat 32 (g + 1) := by
  intro h
  have := congrArg BitVec.toNat h
  simp only [BitVec.toNat_ofNat] at this
  omega

/-- Someone of the set has not come to the meeting yet. -/
theorem Meeting.missing {slot : Slot} {m : Coremask} {g : ℕ} (h : Meeting s i slot m g) :
    ∃ d, Member d m ∧ ¬ Member d slot.checkin := by
  by_contra hno
  refine h.open_ (coremask_ext fun d => ⟨fun hd => (h.waits d hd).1, fun hd => ?_⟩)
  by_contra hnot
  exact hno ⟨d, hd, hnot⟩

/-- The number a core waits for is there exactly when its meeting is over: it is not checked in
any more. -/
theorem exit_iff (h : Invariant s) (hp : s.pc core = .waiting i target) :
    ((s.slots i).exit = target ↔ ¬ Member core (s.slots i).checkin) ∧
    ((s.slots i).exit = target ↔ ∀ d, Member d (s.slots i).coremask →
      s.entered (s.slots i).coremask core ≤ s.entered (s.slots i).coremask d) := by
  have hret := h.returned core
  simp only [hp, Returned] at hret
  obtain ⟨h0, hmem, -, ht, -⟩ := hret
  obtain ⟨g, hg⟩ := h.meeting i h0
  have hge : ∀ d, Member d (s.slots i).coremask → g ≤ s.entered (s.slots i).coremask d := by
    intro d hd
    by_cases hin : Member d (s.slots i).checkin
    · rw [(hg.entered d hd).1 hin]
      exact Nat.le_succ g
    · rw [(hg.entered d hd).2 hin]
  by_cases hin : Member core (s.slots i).checkin
  · have hent := (hg.entered core hmem).1 hin
    have hne : (s.slots i).exit ≠ target := by
      rw [hg.exit, ht, hent]
      exact exit_ne g
    obtain ⟨d, hd, hnot⟩ := hg.missing
    refine ⟨⟨fun he => absurd he hne, fun hno => absurd hin hno⟩, fun he => absurd he hne, ?_⟩
    intro hall
    have := hall d hd
    rw [hent, (hg.entered d hd).2 hnot] at this
    exact absurd this (Nat.not_succ_le_self g)
  · have hent := (hg.entered core hmem).2 hin
    have heq : (s.slots i).exit = target := by rw [hg.exit, ht, hent]
    exact ⟨⟨fun _ => hin, fun _ => heq⟩, fun _ d hd => hent.symm ▸ hge d hd, fun _ => heq⟩

/-- A core that has not checked in may leave without the meeting changing. -/
theorem Meeting.of_absent {j : Fin maxSyncs} {slot : Slot} {m : Coremask} {g : ℕ}
    {left : Coremask → CoreId → ℕ} {pc : Pc} (hg : Meeting s j slot m g)
    (hout : ¬ Member core slot.checkin) :
    Meeting { s with pc := Function.update s.pc core pc, left := left } j slot m g := by
  refine ⟨hg.exit, hg.entered, hg.open_, fun d hd => ?_⟩
  obtain ⟨hmem, t, ht⟩ := hg.waits d hd
  have hdc : d ≠ core := by
    rintro rfl
    exact hout hd
  exact ⟨hmem, t, (Function.update_of_ne hdc _ _).trans ht⟩

theorem poll_keeps (h : Invariant s) (hp : s.pc core = .waiting i target)
    (he : (s.slots i).exit = target) :
    Invariant { s with pc := Function.update s.pc core .idle
                       left := bump s.left (s.slots i).coremask core } := by
  have hret := h.returned core
  simp only [hp, Returned] at hret
  obtain ⟨-, -, hleft, -, hrest⟩ := hret
  have hout := (exit_iff h hp).1.mp he
  refine ⟨h.distinct, h.packed, h.fresh, ?_, h.unused, h.used, ?_⟩
  · intro j hj
    obtain ⟨g, hg⟩ := h.meeting j hj
    refine ⟨g, hg.of_absent fun hd => ?_⟩
    obtain ⟨-, t, ht⟩ := hg.waits core hd
    obtain ⟨rfl, -⟩ := Pc.waiting.inj (ht.symm.trans hp)
    exact hout hd
  · intro d
    by_cases hd : d = core
    · subst d
      simp only [Function.update_self, Returned]
      intro m
      by_cases hm : m = (s.slots i).coremask
      · subst m
        rw [bump_self, hleft]
      · rw [bump_of_ne _ _ _ fun h => hm h.1]
        exact hrest m hm
    · have hl : ∀ m, bump s.left (s.slots i).coremask core m d = s.left m d :=
        fun m => bump_of_ne _ _ _ fun h => hd h.2
      have hretd := h.returned d
      simp only [Function.update_of_ne hd]
      cases hpd : s.pc d with
      | idle =>
        simp only [hpd, Returned, hl] at hretd ⊢
        exact hretd
      | aborted =>
        simp only [hpd, Returned, hl] at hretd ⊢
        exact hretd
      | waiting j t =>
        simp only [hpd, Returned, hl] at hretd ⊢
        exact hretd

theorem abort_keeps (h : Invariant s) (hp : s.pc core = .idle)
    (hfull : ∀ i, (s.slots i).coremask ≠ 0) :
    Invariant { s with pc := Function.update s.pc core .aborted } := by
  refine ⟨h.distinct, h.packed, h.fresh, ?_, h.unused, h.used, ?_⟩
  · intro j hj
    obtain ⟨g, hg⟩ := h.meeting j hj
    refine ⟨g, hg.of_absent fun hd => ?_⟩
    obtain ⟨-, t, ht⟩ := hg.waits core hd
    rw [hp] at ht
    cases ht
  · intro d
    have hret := h.returned d
    by_cases hd : d = core
    · subst d
      simp only [hp, Returned] at hret
      simp only [Function.update_self, Returned]
      exact ⟨hret, hfull⟩
    · simp only [Function.update_of_ne hd]
      cases hpd : s.pc d <;> simp only [hpd, Returned] at hret ⊢ <;> exact hret

end Poll

section Count

variable {s : State} {m : Coremask} {c d : CoreId}

theorem left_le (h : Invariant s) (m : Coremask) (c : CoreId) : s.left m c ≤ s.entered m c := by
  have hret := h.returned c
  cases hp : s.pc c with
  | idle =>
    simp only [hp, Returned] at hret
    exact (hret m).le
  | aborted =>
    simp only [hp, Returned] at hret
    exact (hret.1 m).le
  | waiting i t =>
    simp only [hp, Returned] at hret
    obtain ⟨-, -, hleft, -, hrest⟩ := hret
    by_cases hm : m = (s.slots i).coremask
    · rw [hm, ← hleft]
      exact Nat.le_succ _
    · exact (hrest m hm).le

theorem left_le_entered (h : Invariant s) (hc : Member c m) (hd : Member d m) :
    s.left m c ≤ s.entered m d := by
  have hm : m ≠ 0 := by
    rintro rfl
    exact not_member_zero c hc
  by_cases hslot : ∃ i, (s.slots i).coremask = m
  · obtain ⟨i, rfl⟩ := hslot
    obtain ⟨g, hg⟩ := h.meeting i hm
    have hge : g ≤ s.entered (s.slots i).coremask d := by
      by_cases hin : Member d (s.slots i).checkin
      · rw [(hg.entered d hd).1 hin]
        exact Nat.le_succ g
      · rw [(hg.entered d hd).2 hin]
    refine le_trans ?_ hge
    by_cases hin : Member c (s.slots i).checkin
    · obtain ⟨-, t, ht⟩ := hg.waits c hin
      have hret := h.returned c
      simp only [ht, Returned] at hret
      have := (hg.entered c hc).1 hin
      omega
    · exact (left_le h _ c).trans ((hg.entered c hc).2 hin).le
  · have hno : ∀ i, (s.slots i).coremask ≠ m := fun i hi => hslot ⟨i, hi⟩
    exact (left_le h m c).trans (by rw [h.unused m hm hno]; exact Nat.zero_le _)

end Count

theorem step_keeps_meetings {s : State} (h : Invariant s) {e : Event} (he : Proper s e) :
    Invariant (step s e) := by
  cases e with
  | call core coremask =>
    have hm : coremask ≠ 0 := by
      rintro rfl
      exact not_member_zero core he
    simp only [step]
    split
    · rename_i hp
      split
      · rename_i hf
        exact abort_keeps h hp fun i => (findSlot_none hf i).1
      · rename_i i hf
        exact enter_keeps h hm he hp hf
    · exact h
  | poll core =>
    simp only [step]
    split
    · rename_i i target hp
      split
      · exact h
      · rename_i hexit
        exact poll_keeps h hp (by simpa using hexit)
    · exact h
    · exact h

/-- No core comes out of its k-th meeting with a set before every core of the set has come to
its k-th; a core that waits comes out at its next look exactly when they all have; and a core is
turned away only after twenty other sets have been used. -/
theorem barrier_meets (es : List Event) (hes : GuardedRun.Along step Proper initial es) :
    let s := es.foldl step initial
    (∀ m c d, Member c m → Member d m → s.left m c ≤ s.entered m d) ∧
    (∀ c i t, s.pc c = .waiting i t → ((step s (.poll c)).pc c = .idle ↔
      ∀ d, Member d (s.slots i).coremask →
        s.entered (s.slots i).coremask c ≤ s.entered (s.slots i).coremask d)) ∧
    ((∃ c, s.pc c = .aborted) → ∃ sets : Finset Coremask, sets.card = maxSyncs ∧
      ∀ m ∈ sets, ∃ c, 0 < s.entered m c) := by
  intro s
  have h : Invariant s :=
    GuardedRun.foldl_keeps (fun _ _ h he => step_keeps_meetings h he) invariant_initial hes
  refine ⟨?_, ?_, ?_⟩
  · exact fun m c d hc hd => left_le_entered h hc hd
  · intro c i t hp
    rw [← (exit_iff h hp).2]
    simp only [step, hp]
    split
    · rename_i hne
      simp [hp, hne]
    · rename_i heq
      simpa using heq
  · rintro ⟨c, hc⟩
    have hret := h.returned c
    simp only [hc, Returned] at hret
    refine ⟨Finset.univ.image fun i => (s.slots i).coremask, ?_, ?_⟩
    · rw [Finset.card_image_of_injective _ fun i j hij => h.distinct i j (hret.2 i) hij]
      exact Finset.card_fin _
    · intro m hm
      obtain ⟨i, -, rfl⟩ := Finset.mem_image.mp hm
      exact h.used i (hret.2 i)

/-- Cores 0 and 1 meet twice; core 1 comes out of the first meeting last. -/
theorem barrier_meets_two :
    let es : List Event := [.call 0 3, .poll 0, .call 1 3, .poll 0, .call 0 3, .poll 1, .poll 0]
    let s := es.foldl step initial
    s.left 3 0 = 1 ∧ s.entered 3 0 = 2 ∧ s.left 3 1 ≤ s.entered 3 0 := by
  intro es s
  have h := barrier_meets es (by decide)
  exact ⟨by decide, by decide, h.1 3 1 0 (by decide) (by decide)⟩

end CoreBarrier
