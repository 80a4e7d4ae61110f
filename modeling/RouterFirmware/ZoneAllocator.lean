import RouterFirmware.GuardedRun
import RouterFirmware.LinkedSegment
import Mathlib.Data.BitVec
import Mathlib.Data.List.Nodup
import Mathlib.Data.List.Perm.Basic

/-! # The zone allocator

A zone is a block of elements of one size. The free ones are threaded into a list through their
first words, the rest of an element is its user's. Allocation and release take the lock of the
zone, so that each is one step. The lock is taken to be free at first: neither creation stores to
it. -/
namespace ZoneAllocator

open LinkedSegment

/-- A word of memory at each address where an element starts; 0 is the null pointer. -/
abbrev Memory := ℕ → ℕ

structure Zone where
  elemSize : ℕ
  numElem : ℕ
  baseptr : ℕ
  freelist : ℕ

/-- The product is one of 32 bits. -/
def elemAddr (baseptr elemSize i : ℕ) : ℕ := baseptr + i * elemSize % 2 ^ 32

def threadElem (s : Zone × Memory) (i : ℕ) : Zone × Memory :=
  let ptr := elemAddr s.1.baseptr s.1.elemSize i
  ({ s.1 with freelist := ptr }, Function.update s.2 ptr s.1.freelist)

def threadElems (zone : Zone) (mem : Memory) : Zone × Memory :=
  (List.range zone.numElem).foldl threadElem (zone, mem)

def zoneHeader : ℕ := 48

/-- The test of the alignment has the mask the wrong way round. -/
def cvmxZoneCreateFromAddr (elemSize numElem memPtr memSize : ℕ) (mem : Memory) :
    Option (Zone × Memory) :=
  if memPtr / 8 ≠ 0 then none
  else if memSize < zoneHeader + elemSize * numElem % 2 ^ 32 then none
  else some (threadElems ⟨elemSize, numElem, memPtr, 0⟩ mem)

/-- `zone` and `baseptr` are what `cvmx_malloc` and `cvmx_memalign` return. -/
def cvmxZoneCreateFromArena (zone baseptr elemSize numElem : ℕ) (mem : Memory) :
    Option (Zone × Memory) :=
  if zone = 0 then none
  else if baseptr = 0 then none
  else some (threadElems ⟨elemSize, numElem, baseptr, 0⟩ mem)

/-- Returns the element, or the null pointer; nothing when an assertion fails. -/
def cvmxZoneAlloc (s : Zone × Memory) : Option (ℕ × (Zone × Memory)) :=
  if s.1.baseptr = 0 then none
  else
    let item := s.1.freelist
    if item ≠ 0 then some (item, ({ s.1 with freelist := s.2 item }, s.2)) else some (item, s)

/-- The last assertion keeps out pointers that do not point into the zone. -/
def cvmxZoneFree (s : Zone × Memory) (ptr : ℕ) : Option (Zone × Memory) :=
  if s.1.baseptr = 0 then none
  else if s.1.baseptr ≤ ptr ∧ ptr - s.1.baseptr < s.1.numElem * s.1.elemSize % 2 ^ 32 then
    some ({ s.1 with freelist := ptr }, Function.update s.2 ptr s.1.freelist)
  else none

/-- `out` is the elements that were handed out and not given back; `failed` tells of a failed
assertion. -/
structure State where
  heap : Zone × Memory
  out : List ℕ
  failed : Bool

inductive Event where
  | alloc
  | free (ptr : ℕ)
  | write (ptr value : ℕ)
  deriving DecidableEq, Repr

def step (s : State) : Event → State
  | .alloc =>
    match cvmxZoneAlloc s.heap with
    | some (item, heap) => { s with heap := heap, out := if item ≠ 0 then item :: s.out else s.out }
    | none => { s with failed := true }
  | .free ptr =>
    match cvmxZoneFree s.heap ptr with
    | some heap => { s with heap := heap, out := s.out.erase ptr }
    | none => { s with failed := true }
  | .write ptr value =>
    { s with heap := (s.heap.1, Function.update s.heap.2 ptr value) }

/-- Users give back and write to the elements they have. -/
def Proper (s : State) : Event → Prop
  | .alloc => True
  | .free ptr | .write ptr _ => ptr ∈ s.out

instance (s : State) : (e : Event) → Decidable (Proper s e)
  | .alloc => inferInstanceAs (Decidable True)
  | .free _ | .write _ _ => inferInstanceAs (Decidable (_ ∈ _))

def elements (baseptr elemSize numElem : ℕ) : List ℕ :=
  (List.range numElem).map fun i => baseptr + i * elemSize

/-- The free list leads through the elements that are not out. -/
structure Threaded (baseptr elemSize numElem : ℕ) (s : Zone × Memory) (out : List ℕ) : Prop where
  base : s.1.baseptr = baseptr
  size : s.1.elemSize = elemSize
  num : s.1.numElem = numElem
  list : ∃ free, Seg s.2 id (fun _ => True) s.1.freelist free 0 ∧
    (free ++ out).Perm (elements baseptr elemSize numElem)

variable {baseptr elemSize numElem : ℕ}

theorem elements_nodup (hsize : 0 < elemSize) : (elements baseptr elemSize numElem).Nodup := by
  refine List.Nodup.map (fun i j hij => ?_) List.nodup_range
  simp only [Nat.add_left_cancel_iff] at hij
  exact Nat.eq_of_mul_eq_mul_right hsize hij

theorem mem_elements {p : ℕ} : p ∈ elements baseptr elemSize numElem ↔
    ∃ i, i < numElem ∧ p = baseptr + i * elemSize := by
  simp [elements, eq_comm]

/-- The loop leaves the elements in the list, the last one first. -/
theorem threadElems_list (hsize : 0 < elemSize)
    (hfit : numElem * elemSize < 2 ^ 32) (mem : Memory) :
    Threaded baseptr elemSize numElem (threadElems ⟨elemSize, numElem, baseptr, 0⟩ mem) [] := by
  have key : ∀ k, k ≤ numElem →
      let s := (List.range k).foldl threadElem (⟨elemSize, numElem, baseptr, 0⟩, mem)
      s.1.baseptr = baseptr ∧ s.1.elemSize = elemSize ∧ s.1.numElem = numElem ∧
        Seg s.2 id (fun _ => True) s.1.freelist (elements baseptr elemSize k).reverse 0 := by
    intro k hk
    induction k with
    | zero => exact ⟨rfl, rfl, rfl, rfl⟩
    | succ k ih =>
      obtain ⟨h1, h2, h3, h4⟩ := ih (Nat.le_of_succ_le hk)
      have hprod : k * elemSize < 2 ^ 32 :=
        Nat.lt_of_le_of_lt (Nat.mul_le_mul_right elemSize (Nat.le_of_succ_le hk)) hfit
      have haddr : elemAddr baseptr elemSize k = baseptr + k * elemSize := by
        rw [elemAddr, Nat.mod_eq_of_lt hprod]
      simp only [List.range_succ, List.foldl_append, List.foldl_cons, List.foldl_nil, threadElem,
        h1, h2, haddr]
      refine ⟨trivial, trivial, h3, ?_⟩
      have hnew : elements baseptr elemSize (k + 1) =
          elements baseptr elemSize k ++ [baseptr + k * elemSize] := by
        simp [elements, List.range_succ]
      rw [hnew, List.reverse_append]
      refine ⟨rfl, trivial, ?_⟩
      simp only [id, Function.update_self]
      refine h4.frame (fun p hp => ?_) fun _ _ h => h
      obtain ⟨i, hi, rfl⟩ := mem_elements.mp (List.mem_reverse.mp hp)
      refine Function.update_of_ne ?_ _ _
      have := Nat.mul_lt_mul_of_pos_right hi hsize
      simp only [id]
      omega
  obtain ⟨h1, h2, h3, h4⟩ := key numElem (Nat.le_refl numElem)
  exact ⟨h1, h2, h3, _, h4, by rw [List.append_nil]; exact List.reverse_perm _⟩

section Step

variable {s : Zone × Memory} {out : List ℕ} {p : ℕ}

theorem ne_zero_of_perm {free : List ℕ} (hbase : 0 < baseptr)
    (hp : (free ++ out).Perm (elements baseptr elemSize numElem)) {q : ℕ}
    (hq : q ∈ free ++ out) : q ≠ 0 := by
  obtain ⟨i, -, rfl⟩ := mem_elements.mp (hp.mem_iff.mp hq)
  omega

/-- Nothing is left exactly when every element is out; else an element comes that was not. -/
theorem alloc_threaded (h : Threaded baseptr elemSize numElem s out) (hbase : 0 < baseptr)
    (hsize : 0 < elemSize) :
    ∃ item t, cvmxZoneAlloc s = some (item, t) ∧ (item = 0 ↔ out.length = numElem) ∧
      (item ≠ 0 → item ∉ out) ∧
      Threaded baseptr elemSize numElem t (if item ≠ 0 then item :: out else out) := by
  obtain ⟨free, hseg, hperm⟩ := h.list
  have hnodup := hperm.nodup_iff.mpr (elements_nodup hsize)
  have hlen : free.length + out.length = numElem := by
    rw [← List.length_append, hperm.length_eq]
    simp [elements]
  have hasserts : s.1.baseptr ≠ 0 := by
    rw [h.base]
    omega
  rw [cvmxZoneAlloc, if_neg hasserts]
  cases free with
  | nil =>
    have hz : s.1.freelist = 0 := hseg
    refine ⟨0, s, by simp [hz], iff_of_true rfl (by simpa using hlen), ?_, h⟩
    exact fun hne => absurd rfl hne
  | cons q free =>
    obtain ⟨hq, -, hrest⟩ := hseg
    have hq : s.1.freelist = q := hq
    have hne : q ≠ 0 := ne_zero_of_perm hbase hperm List.mem_cons_self
    refine ⟨q, ({ s.1 with freelist := s.2 q }, s.2), by simp [hq, hne], iff_of_false hne ?_,
      fun _ hout => ?_, ?_⟩
    · rw [List.length_cons] at hlen
      omega
    · exact (List.nodup_cons.mp hnodup).1 (List.mem_append_right free hout)
    · rw [if_pos hne]
      exact ⟨h.base, h.size, h.num, free, hrest, List.perm_middle.trans hperm⟩

/-- The element goes to the front of the list; its first word is its user's no more. -/
theorem free_threaded (h : Threaded baseptr elemSize numElem s out) (hbase : 0 < baseptr)
    (hsize : 0 < elemSize) (hfit : numElem * elemSize < 2 ^ 32) (hp : p ∈ out) :
    ∃ t, cvmxZoneFree s p = some t ∧ Threaded baseptr elemSize numElem t (out.erase p) := by
  obtain ⟨free, hseg, hperm⟩ := h.list
  have hnodup := hperm.nodup_iff.mpr (elements_nodup hsize)
  obtain ⟨i, hi, hpi⟩ := mem_elements.mp (hperm.mem_iff.mp (List.mem_append_right free hp))
  have hin : i * elemSize < numElem * elemSize := Nat.mul_lt_mul_of_pos_right hi hsize
  have hok : s.1.baseptr ≤ p ∧ p - s.1.baseptr < s.1.numElem * s.1.elemSize % 2 ^ 32 := by
    rw [h.base, h.size, h.num, Nat.mod_eq_of_lt hfit]
    omega
  have hasserts : s.1.baseptr ≠ 0 := by
    rw [h.base]
    omega
  refine ⟨_, (if_neg hasserts).trans (if_pos hok), h.base, h.size, h.num, p :: free,
    ⟨rfl, trivial, ?_⟩, ?_⟩
  · simp only [id, Function.update_self]
    refine hseg.frame (fun q hq => Function.update_of_ne ?_ _ _) fun _ _ h => h
    rintro rfl
    exact (List.nodup_append.mp hnodup).2.2 _ hq _ hp rfl
  · have hback := List.perm_middle.symm.trans ((List.perm_cons_erase hp).symm.append_left free)
    exact hback.trans hperm

/-- What a user writes to an element that is out does not reach the list. -/
theorem write_threaded (h : Threaded baseptr elemSize numElem s out) (hsize : 0 < elemSize)
    (hp : p ∈ out) (value : ℕ) :
    Threaded baseptr elemSize numElem (s.1, Function.update s.2 p value) out := by
  obtain ⟨free, hseg, hperm⟩ := h.list
  have hnodup := hperm.nodup_iff.mpr (elements_nodup hsize)
  refine ⟨h.base, h.size, h.num, free, ?_, hperm⟩
  refine hseg.frame (fun q hq => Function.update_of_ne ?_ _ _) fun _ _ h => h
  rintro rfl
  exact (List.nodup_append.mp hnodup).2.2 _ hq _ hp rfl

end Step

/-- A zone that `cvmx_zone_create_from_arena` has made, in use. No element is out twice, they do not
overlap and lie in the block, no assertion fails, and an allocation finds an element that is not out
unless all are. -/
theorem zone_never_shares {zone : ℕ} {mem : Memory} {heap : Zone × Memory}
    (hsize : 8 ≤ elemSize) (hfit : numElem * elemSize < 2 ^ 32)
    (hcreate : cvmxZoneCreateFromArena zone baseptr elemSize numElem mem = some heap)
    (es : List Event) (hes : GuardedRun.Along step Proper ⟨heap, [], false⟩ es) :
    let s := es.foldl step ⟨heap, [], false⟩
    s.out.Nodup ∧ (∀ p ∈ s.out, ∃ i, i < numElem ∧ p = baseptr + i * elemSize) ∧
      s.failed = false ∧
      ∃ item t, cvmxZoneAlloc s.heap = some (item, t) ∧ (item = 0 ↔ s.out.length = numElem) ∧
        (item ≠ 0 → item ∉ s.out) := by
  intro s
  have hpos : 0 < elemSize := by omega
  have hmade : 0 < baseptr ∧ heap = threadElems ⟨elemSize, numElem, baseptr, 0⟩ mem := by
    rw [cvmxZoneCreateFromArena] at hcreate
    split at hcreate
    · cases hcreate
    split at hcreate
    · cases hcreate
    · next hne => exact ⟨Nat.pos_of_ne_zero hne, (Option.some.inj hcreate).symm⟩
  obtain ⟨hbase, hstart⟩ := hmade
  have h : Threaded baseptr elemSize numElem s.heap s.out ∧ s.failed = false := by
    refine GuardedRun.foldl_keeps
      (I := fun s => Threaded baseptr elemSize numElem s.heap s.out ∧ s.failed = false)
      (fun s e hs he => ?_) ⟨hstart ▸ threadElems_list hpos hfit mem, rfl⟩ hes
    cases e with
    | alloc =>
      obtain ⟨item, t, ht, -, -, hthr⟩ := alloc_threaded hs.1 hbase hpos
      simp only [step, ht]
      exact ⟨hthr, hs.2⟩
    | free p =>
      obtain ⟨t, ht, hthr⟩ := free_threaded hs.1 hbase hpos hfit he
      simp only [step, ht]
      exact ⟨hthr, hs.2⟩
    | write p value => exact ⟨write_threaded hs.1 hpos he value, hs.2⟩
  obtain ⟨free, -, hperm⟩ := h.1.list
  obtain ⟨item, t, halloc, hzero, hnew, -⟩ := alloc_threaded h.1 hbase hpos
  refine ⟨?_, ?_, h.2, item, t, halloc, hzero, hnew⟩
  · exact (List.nodup_append.mp (hperm.nodup_iff.mpr (elements_nodup hpos))).2.1
  · exact fun p hp => mem_elements.mp (hperm.mem_iff.mp (List.mem_append_right free hp))

/-- Two elements of 16 bytes: the third allocation finds none, a release makes room. -/
theorem zone_never_shares_two :
    let heap := threadElems ⟨16, 2, 4096, 0⟩ fun _ => 7
    let es : List Event := [.alloc, .write 4112 99, .alloc, .alloc, .free 4112, .write 4096 5]
    let s := es.foldl step ⟨heap, [], false⟩
    s.out = [4096] ∧ s.failed = false ∧ ∃ item t, cvmxZoneAlloc s.heap = some (item, t) ∧
      item ≠ 0 ∧ item ∉ s.out := by
  intro heap es s
  have hcreate : cvmxZoneCreateFromArena 1 4096 16 2 (fun _ => 7) = some heap := rfl
  obtain ⟨-, -, hok, item, t, halloc, hzero, hnew⟩ :=
    zone_never_shares (by decide) (by decide) hcreate es (by decide)
  have hleft : item ≠ 0 := fun h => absurd (hzero.mp h) (by decide)
  exact ⟨by decide, hok, item, t, halloc, hleft, hnew hleft⟩

theorem threadElems_baseptr (zone : Zone) (mem : Memory) :
    (threadElems zone mem).1.baseptr = zone.baseptr := by
  rw [threadElems]
  induction zone.numElem with
  | zero => rfl
  | succ k ih =>
    rw [List.range_succ, List.foldl_append, List.foldl_cons, List.foldl_nil, threadElem, ih]

/-- Of the aligned blocks `cvmx_zone_create_from_addr` takes only the one at address 0, and over it
no allocation and no release gets past the assertions. -/
theorem created_from_aligned_block {memPtr memSize : ℕ} {mem : Memory} {heap : Zone × Memory}
    (haligned : 8 ∣ memPtr)
    (hcreate : cvmxZoneCreateFromAddr elemSize numElem memPtr memSize mem = some heap) :
    memPtr = 0 ∧ cvmxZoneAlloc heap = none ∧ ∀ ptr, cvmxZoneFree heap ptr = none := by
  rw [cvmxZoneCreateFromAddr] at hcreate
  split at hcreate
  · cases hcreate
  next hmask =>
  split at hcreate
  · cases hcreate
  have hnull : memPtr = 0 := by omega
  have hbase : heap.1.baseptr = 0 := by
    rw [← Option.some.inj hcreate, threadElems_baseptr, hnull]
  exact ⟨hnull, if_pos hbase, fun ptr => if_pos hbase⟩

end ZoneAllocator
