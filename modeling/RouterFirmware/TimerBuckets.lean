import RouterFirmware.GuardedRun
import RouterFirmware.TimerWheel
import RouterFirmware.UnrolledList

/-! # The buckets of a timer

A bucket of the timer is an unrolled list of work queue entries. Its two counters tell how many
entries there are and how many slots of the last chunk are free. The hardware zeroes the counters
and gives the chunks back, but leaves the pointers and the links as they are.
-/
namespace TimerBuckets

open GuardedRun LinkedSegment TimerWheel UnrolledList

abbrev Place := UInt64 × ℕ

structure CvmxTimBucketEntry where
  firstChunkAddr : UInt64
  numEntries : ℕ
  chunkRemainder : ℕ
  lastChunk : UInt64
  deriving DecidableEq

structure CvmxTimDelete where
  commitCycles : UInt64
  timerEntryPtr : Place
  deriving DecidableEq

inductive CvmxTimStatus where
  | success
  | noMemory
  | tooFarAway
  | busy
  deriving DecidableEq

/-- The timers and one core. The last word of a chunk, behind its entries, is the link. -/
structure Ring where
  tim : CvmxTim
  coreNum : ℕ
  /-- `CVMX_FPA_TIMER_POOL_SIZE/8 - 1` -/
  entriesPerChunk : ℕ
  coreNum_lt : coreNum < 16
  entries_pos : 0 < entriesPerChunk
  entries_le : entriesPerChunk ≤ 2 ^ 32
  setUp : ∃ cpuClockHz tick maxTicks t startTime,
    cvmxTimSetup cpuClockHz tick maxTicks true = some t ∧ tim = t.start startTime

/-- The buckets, the words of the chunks and what is left in the pool. For every entry that was
added, `infos` has what the caller got to delete it. -/
structure Timers where
  bucket : ℕ → CvmxTimBucketEntry
  memory : Place → UInt64
  pool : List UInt64
  infos : List (Option CvmxTimDelete)

/-! ## The functions -/

section Functions

variable (r : Ring) (s : Timers)

def Ring.total : ℕ := 16 * r.tim.numBuckets.toNat

def Ring.target (cycles ticksFromNow : UInt64) : ℕ :=
  r.coreNum * r.tim.numBuckets.toNat +
    (r.tim.slot (r.tim.workBucket cycles (CvmxTim.delayed ticksFromNow))).toNat

/-- `delete_info`, for a caller that wants it. -/
def Ring.deleteInfo (cycles ticksFromNow : UInt64) (timEntryPtr : Place) (wanted : Bool) :
    Option CvmxTimDelete :=
  if wanted then
    some ⟨cycles + (CvmxTim.delayed ticksFromNow - 2) * r.tim.tickCycles, timEntryPtr⟩
  else none

/-- The entry goes behind the last one of the last chunk. -/
def addLast (i : ℕ) (workEntry : UInt64) : Timers × Place :=
  let b := s.bucket i
  let timEntryPtr := (b.lastChunk, r.entriesPerChunk - b.chunkRemainder)
  ({ s with
      memory := Function.update s.memory timEntryPtr workEntry
      bucket := Function.update s.bucket i { b with
        chunkRemainder := b.chunkRemainder - 1, numEntries := (b.numEntries + 1) % 2 ^ 32 } },
    timEntryPtr)

/-- The link to the new chunk, where there is a chunk already. -/
def linked (i : ℕ) (newChunk : UInt64) : Place → UInt64 :=
  if (s.bucket i).numEntries ≠ 0 then
    Function.update s.memory ((s.bucket i).lastChunk, r.entriesPerChunk) newChunk
  else s.memory

def extended (i : ℕ) (newChunk : UInt64) : CvmxTimBucketEntry :=
  let b := s.bucket i
  ⟨if b.numEntries ≠ 0 then b.firstChunkAddr else newChunk,
    if b.numEntries ≠ 0 then (b.numEntries + 1) % 2 ^ 32 else 1,
    (r.entriesPerChunk - 1) % 2 ^ 32, newChunk⟩

/-- The entry goes into a new chunk, the one at `pick` of the pool. -/
def addChunk (i pick : ℕ) (newChunk workEntry : UInt64) : Timers × Place :=
  ({ s with
      pool := s.pool.eraseIdx pick
      memory := Function.update (linked r s i newChunk) (newChunk, 0) workEntry
      bucket := Function.update s.bucket i (extended r s i newChunk) },
    (newChunk, 0))

def noted (cycles ticksFromNow : UInt64) (wanted : Bool) (a : Timers × Place) : Timers :=
  { a.1 with infos := a.1.infos ++ [r.deleteInfo cycles ticksFromNow a.2 wanted] }

/-- `cvmx_tim_add_entry`. The pool gives its chunk at `pick`, or nothing. -/
def addEntry (workEntry cycles ticksFromNow : UInt64) (deleteInfo : Bool) (pick : ℕ) :
    Timers × CvmxTimStatus :=
  let i := r.target cycles ticksFromNow
  if ticksFromNow > r.tim.maxTicks.toUInt64 then (s, .tooFarAway)
  else if (s.bucket i).chunkRemainder ≠ 0 then
    (noted r cycles ticksFromNow deleteInfo (addLast r s i workEntry), .success)
  else
    match s.pool[pick]? with
    | none => (s, .noMemory)
    | some newChunk =>
      (noted r cycles ticksFromNow deleteInfo (addChunk r s i pick newChunk workEntry), .success)

/-- `(int64_t)(cycles - commit_cycles) < 0` -/
def early (cycles : UInt64) (info : CvmxTimDelete) : Prop :=
  (cycles - info.commitCycles).toInt64 < 0

instance (cycles : UInt64) (info : CvmxTimDelete) : Decidable (early cycles info) :=
  inferInstanceAs (Decidable (_ < _))

def deleteEntry (cycles : UInt64) (info : CvmxTimDelete) : Timers × CvmxTimStatus :=
  if early cycles info then
    ({ s with memory := Function.update s.memory info.timerEntryPtr 0 }, .success)
  else (s, .busy)

def link (c : UInt64) : UInt64 := s.memory (c, r.entriesPerChunk)

/-- The chunks of a bucket as `cvmx_tim_shutdown` and the hardware give them back. -/
def chunks (i : ℕ) : List UInt64 :=
  let b := s.bucket i
  release (link r s) r.entriesPerChunk b.numEntries b.firstChunkAddr b.numEntries

/-- What the hardware does with a bucket whose time has come. -/
def traverse (i : ℕ) : Timers := { s with
  pool := s.pool ++ chunks r s i
  bucket := Function.update s.bucket i
    { s.bucket i with numEntries := 0, chunkRemainder := 0 } }

/-- The chunks that `cvmx_tim_shutdown` gives back. -/
def freed : List UInt64 :=
  (List.range 16).flatMap fun timerId => (List.range r.tim.numBuckets.toNat).flatMap fun bucket =>
    chunks r s (timerId * r.tim.numBuckets.toNat + bucket)

def shutdown : Timers := { s with
  pool := s.pool ++ freed r s
  bucket := fun i =>
    if i < r.total then { s.bucket i with numEntries := 0 } else s.bucket i }

def visited (i : ℕ) : List Place :=
  places (link r s) r.entriesPerChunk (s.bucket i).firstChunkAddr (s.bucket i).numEntries

end Functions

/-! ## Runs -/

/-- An entry that was added. Its work is zeroed when it is deleted. -/
structure Entry where
  info : ℕ
  work : UInt64
  deriving DecidableEq

/-- The timers, and the entries of each bucket since the hardware was there. -/
structure Run where
  timers : Timers
  pending : ℕ → List Entry

inductive Event where
  | add (workEntry cycles ticksFromNow : UInt64) (deleteInfo : Bool) (pick : ℕ)
  | delete (cycles : UInt64) (info : ℕ)
  | traverse (i : ℕ)
  deriving DecidableEq

def Entry.zero (info : ℕ) (e : Entry) : Entry := if e.info = info then { e with work := 0 } else e

/-- What the caller has to delete an entry. -/
def Timers.deleteInfo? (s : Timers) (info : ℕ) : Option CvmxTimDelete := s.infos[info]?.join

def step (r : Ring) (x : Run) : Event → Run
  | .add workEntry cycles ticksFromNow deleteInfo pick =>
    let a := addEntry r x.timers workEntry cycles ticksFromNow deleteInfo pick
    let i := r.target cycles ticksFromNow
    ⟨a.1, if a.2 = .success then
      Function.update x.pending i (x.pending i ++ [⟨x.timers.infos.length, workEntry⟩])
      else x.pending⟩
  | .delete cycles info =>
    match x.timers.deleteInfo? info with
    | none => x
    | some d =>
      let a := deleteEntry x.timers cycles d
      ⟨a.1, if a.2 = .success then fun i => (x.pending i).map (Entry.zero info) else x.pending⟩
  | .traverse i => ⟨traverse r x.timers i, Function.update x.pending i []⟩

/-- The buckets after `cvmx_tim_setup`. -/
def initial (memory : Place → UInt64) (pool : List UInt64) : Run :=
  ⟨⟨fun _ => ⟨0, 0, 0, 0⟩, memory, pool, []⟩, fun _ => []⟩

/-- What a step needs: no bucket gets more entries than its counter can count, and no entry is
deleted that the hardware has been at. -/
def Timely (r : Ring) (x : Run) : Event → Prop
  | .add _ cycles ticksFromNow _ pick =>
    let b := x.timers.bucket (r.target cycles ticksFromNow)
    ticksFromNow ≤ r.tim.maxTicks.toUInt64 → b.chunkRemainder ≠ 0 ∨ pick < x.timers.pool.length →
      b.numEntries + 1 < 2 ^ 32
  | .delete cycles info =>
    ∀ d, x.timers.deleteInfo? info = some d → early cycles d →
      ∃ i, ∃ e ∈ x.pending i, e.info = info
  | .traverse _ => True

/-- The buckets hold their entries, and shutdown gives each chunk back once. -/
structure Right (r : Ring) (x : Run) : Prop where
  walk : ∀ i, (visited r x.timers i).map x.timers.memory = (x.pending i).map Entry.work
  failed : ∀ workEntry cycles ticksFromNow deleteInfo pick,
    (addEntry r x.timers workEntry cycles ticksFromNow deleteInfo pick).2 ≠ .success →
      (addEntry r x.timers workEntry cycles ticksFromNow deleteInfo pick).1 = x.timers
  once : (shutdown r x.timers).pool.Nodup
  reached : ∀ c, c ∈ freed r x.timers ↔ ∃ i, ∃ p ∈ visited r x.timers i, p.1 = c

/-! ## The entries in the chunks -/

/-- A chunk with entries. -/
structure Block where
  chunk : UInt64
  entries : List Entry

/-- The full chunks of a bucket, and the last one. -/
structure Chain where
  full : List Block
  tail : Block

/-- What the buckets hold; nothing for an empty one. -/
abbrev Layout := ℕ → Option Chain

def blocksOf : Option Chain → List Block
  | none => []
  | some k => k.full ++ [k.tail]

def chunksOf (k : Option Chain) : List UInt64 := (blocksOf k).map Block.chunk

/-- The entries are in the slots, and the callers know where. -/
def Block.Stored (s : Timers) (b : Block) : Prop :=
  ∀ j e, b.entries[j]? = some e → s.memory (b.chunk, j) = e.work ∧ e.info < s.infos.length ∧
    ∀ d, s.deleteInfo? e.info = some d → d.timerEntryPtr = (b.chunk, j)

/-- The counters and pointers of a bucket that is not empty. -/
structure Held (r : Ring) (s : Timers) (b : CvmxTimBucketEntry) (k : Chain) : Prop where
  linked : Seg (link r s) Block.chunk (fun b => b.entries.length = r.entriesPerChunk)
    b.firstChunkAddr k.full k.tail.chunk
  last : b.lastChunk = k.tail.chunk
  nonempty : 0 < k.tail.entries.length
  room : k.tail.entries.length + b.chunkRemainder = r.entriesPerChunk
  count : b.numEntries = k.full.length * r.entriesPerChunk + k.tail.entries.length

def Represents (r : Ring) (s : Timers) (b : CvmxTimBucketEntry) : Option Chain → Prop
  | none => b.numEntries = 0 ∧ b.chunkRemainder = 0
  | some k => Held r s b k

/-- A chunk is in one bucket, in one place there, or in the pool. -/
structure Inv (r : Ring) (x : Run) (l : Layout) : Prop where
  represents : ∀ i, Represents r x.timers (x.timers.bucket i) (l i)
  stored : ∀ i, ∀ b ∈ blocksOf (l i), b.Stored x.timers
  pending : ∀ i, x.pending i = (blocksOf (l i)).flatMap Block.entries
  distinct : ∀ i, (chunksOf (l i) ++ x.timers.pool).Nodup
  apart : ∀ i j, i ≠ j → ∀ c ∈ chunksOf (l i), c ∉ chunksOf (l j)
  inside : ∀ i, l i ≠ none → i < r.total

section Frame

variable {r : Ring} {s t : Timers} {b : CvmxTimBucketEntry} {k : Chain} {o : Option Chain}
  {a : Block}

theorem mem_chunksOf (ha : a ∈ blocksOf o) : a.chunk ∈ chunksOf o := List.mem_map_of_mem ha

theorem Held.frame (h : Held r s b k)
    (hlink : ∀ a ∈ k.full, link r t a.chunk = link r s a.chunk) : Held r t b k :=
  { h with linked := h.linked.frame hlink fun _ _ ha => ha }

theorem Represents.frame (h : Represents r s b o)
    (hlink : ∀ a ∈ blocksOf o, link r t a.chunk = link r s a.chunk) : Represents r t b o := by
  cases o with
  | none => exact h
  | some k => exact Held.frame h fun a ha => hlink a (List.mem_append_left _ ha)

theorem deleteInfo?_extend (h : s.infos <+: t.infos) {info : ℕ} (hlt : info < s.infos.length) :
    t.deleteInfo? info = s.deleteInfo? info := by
  obtain ⟨more, hmore⟩ := h
  simp only [Timers.deleteInfo?, ← hmore, List.getElem?_append_left hlt]

theorem Block.Stored.frame (h : a.Stored s)
    (hmemory : ∀ j < a.entries.length, t.memory (a.chunk, j) = s.memory (a.chunk, j))
    (hinfos : s.infos <+: t.infos) : a.Stored t := by
  intro j e he
  obtain ⟨hwork, hlt, hptr⟩ := h j e he
  obtain ⟨hj, -⟩ := List.getElem?_eq_some_iff.mp he
  refine ⟨(hmemory j hj).trans hwork, lt_of_lt_of_le hlt hinfos.length_le, fun d hd => ?_⟩
  rw [deleteInfo?_extend hinfos hlt] at hd
  exact hptr d hd

theorem Block.Stored.snoc (h : a.Stored s) {work cycles ticks : UInt64} {wanted : Bool}
    (hmemory : ∀ j < a.entries.length, t.memory (a.chunk, j) = s.memory (a.chunk, j))
    (hwork : t.memory (a.chunk, a.entries.length) = work)
    (hinfos : t.infos = s.infos ++
      [r.deleteInfo cycles ticks (a.chunk, a.entries.length) wanted]) :
    Block.Stored t ⟨a.chunk, a.entries ++ [⟨s.infos.length, work⟩]⟩ := by
  intro j e he
  rcases lt_trichotomy j a.entries.length with hj | rfl | hj
  · rw [List.getElem?_append_left hj] at he
    exact h.frame hmemory ⟨_, hinfos.symm⟩ j e he
  · rw [List.getElem?_concat_length] at he
    obtain rfl := Option.some.inj he
    refine ⟨hwork, by simp [hinfos], fun d hd => ?_⟩
    have hnew : t.deleteInfo? s.infos.length =
        r.deleteInfo cycles ticks (a.chunk, a.entries.length) wanted := by
      simp [Timers.deleteInfo?, hinfos]
    rw [hnew, Ring.deleteInfo] at hd
    split at hd
    · obtain rfl := Option.some.inj hd
      rfl
    · cases hd
  · rw [List.getElem?_eq_none (by rw [List.length_append]; exact hj)] at he
    cases he

end Frame

/-! ## One bucket is changed -/

section Change

variable {r : Ring} {x x' : Run} {l : Layout} {i : ℕ} {o : Option Chain}

theorem Inv.empty_or_held (h : Inv r x l) (i : ℕ) :
    (l i = none ∧ (x.timers.bucket i).numEntries = 0 ∧ (x.timers.bucket i).chunkRemainder = 0) ∨
      ∃ k, l i = some k ∧ Held r x.timers (x.timers.bucket i) k := by
  have hrep := h.represents i
  cases hl : l i with
  | none =>
    rw [hl] at hrep
    exact .inl ⟨rfl, hrep⟩
  | some k =>
    rw [hl] at hrep
    exact .inr ⟨k, rfl, hrep⟩

theorem Inv.chunk_not_mem_pool (h : Inv r x l) {c : UInt64} (hc : c ∈ chunksOf (l i)) :
    c ∉ x.timers.pool := fun hp =>
  (List.disjoint_of_nodup_append (h.distinct i)) hc hp

/-- A step that changes one bucket, and of the chunks only those of that bucket and of the
pool. -/
theorem Inv.replace (h : Inv r x l)
    (hbucket : ∀ j, j ≠ i → x'.timers.bucket j = x.timers.bucket j)
    (hrep : Represents r x'.timers (x'.timers.bucket i) o)
    (hmemory : ∀ j, j ≠ i → ∀ c ∈ chunksOf (l j), ∀ m,
      x'.timers.memory (c, m) = x.timers.memory (c, m))
    (hinfos : x.timers.infos <+: x'.timers.infos)
    (hstored : ∀ b ∈ blocksOf o, b.Stored x'.timers)
    (hpending : x'.pending = Function.update x.pending i ((blocksOf o).flatMap Block.entries))
    (hdistinct : (chunksOf o ++ x'.timers.pool).Nodup)
    (howned : ∀ c ∈ chunksOf o ++ x'.timers.pool, c ∈ chunksOf (l i) ++ x.timers.pool)
    (hinside : o ≠ none → i < r.total) : Inv r x' (Function.update l i o) := by
  have hother : ∀ j, j ≠ i → ∀ c ∈ chunksOf (l j), c ∉ chunksOf o ++ x'.timers.pool := by
    intro j hj c hc hmem
    rcases List.mem_append.mp (howned c hmem) with hi | hp
    · exact h.apart j i hj c hc hi
    · exact h.chunk_not_mem_pool hc hp
  refine ⟨fun j => ?_, fun j => ?_, fun j => ?_, fun j => ?_, fun j m hjm => ?_, fun j => ?_⟩
  · rcases eq_or_ne j i with rfl | hj
    · rw [Function.update_self]
      exact hrep
    · rw [Function.update_of_ne hj, hbucket j hj]
      apply (h.represents j).frame
      exact fun a ha => hmemory j hj a.chunk (mem_chunksOf ha) r.entriesPerChunk
  · rcases eq_or_ne j i with rfl | hj
    · rw [Function.update_self]
      exact hstored
    · rw [Function.update_of_ne hj]
      intro b hb
      exact (h.stored j b hb).frame (fun m _ => hmemory j hj _ (mem_chunksOf hb) m) hinfos
  · rw [hpending]
    rcases eq_or_ne j i with rfl | hj
    · simp only [Function.update_self]
    · simp only [Function.update_of_ne hj, h.pending j]
  · rcases eq_or_ne j i with rfl | hj
    · rw [Function.update_self]
      exact hdistinct
    · rw [Function.update_of_ne hj, List.nodup_append']
      refine ⟨(h.distinct j).of_append_left, hdistinct.of_append_right, fun c hc hp => ?_⟩
      exact hother j hj c hc (List.mem_append_right _ hp)
  · rcases eq_or_ne j i with rfl | hj
    · rw [Function.update_self, Function.update_of_ne hjm.symm]
      intro c hc hm
      exact hother m hjm.symm c hm (List.mem_append_left _ hc)
    · rw [Function.update_of_ne hj]
      intro c hc
      rcases eq_or_ne m i with rfl | hm
      · rw [Function.update_self]
        exact fun hk => hother j hj c hc (List.mem_append_left _ hk)
      · rw [Function.update_of_ne hm]
        exact h.apart j m hjm c hc
  · rcases eq_or_ne j i with rfl | hj
    · rw [Function.update_self]
      exact hinside
    · rw [Function.update_of_ne hj]
      exact h.inside j

end Change

/-! ## The steps -/

section Steps

variable {r : Ring} {x : Run} {l : Layout} {i pick : ℕ} {work cycles ticks newChunk : UInt64}
  {wanted : Bool}

theorem target_lt (r : Ring) (cycles ticks : UInt64) : r.target cycles ticks < r.total := by
  obtain ⟨_, _, _, t, start, hsetup, htim⟩ := r.setUp
  obtain ⟨⟨k, hk⟩, -⟩ := numBuckets_of_setup hsetup
  have hpow : r.tim.numBuckets.toNat = 2 ^ k := by rw [htim]; exact hk
  have hslot := toNat_slot hpow (r.tim.workBucket cycles (CvmxTim.delayed ticks))
  have hpos : 0 < r.tim.numBuckets.toNat := hpow ▸ Nat.two_pow_pos k
  have hlt := Nat.mod_lt (r.tim.workBucket cycles (CvmxTim.delayed ticks)).toNat hpos
  have hcore : (r.coreNum + 1) * r.tim.numBuckets.toNat ≤ 16 * r.tim.numBuckets.toNat :=
    Nat.mul_le_mul_right _ r.coreNum_lt
  rw [Nat.succ_mul] at hcore
  rw [Ring.target, Ring.total, hslot]
  omega

/-- The run when an entry has been added to bucket `i`. -/
def added (r : Ring) (x : Run) (i : ℕ) (work cycles ticks : UInt64) (wanted : Bool)
    (a : Timers × Place) : Run :=
  ⟨noted r cycles ticks wanted a,
    Function.update x.pending i (x.pending i ++ [⟨x.timers.infos.length, work⟩])⟩

/-- A step that adds one entry behind those of `a`, the last block of the bucket or a new one. -/
theorem Inv.grow (h : Inv r x l) (full : List Block) (a : Block) {p : Timers × Place}
    (hheld : Held r p.1 (p.1.bucket i)
      ⟨full, ⟨a.chunk, a.entries ++ [⟨x.timers.infos.length, work⟩]⟩⟩)
    (hold : ∀ b ∈ full ++ [a], b.Stored x.timers)
    (hentries : (full ++ [a]).flatMap Block.entries = (blocksOf (l i)).flatMap Block.entries)
    (hplace : p.2 = (a.chunk, a.entries.length))
    (hwork : p.1.memory p.2 = work)
    (hslots : ∀ b ∈ full ++ [a], ∀ j < b.entries.length,
      p.1.memory (b.chunk, j) = x.timers.memory (b.chunk, j))
    (hmemory : ∀ c, c ∉ chunksOf (l i) ++ x.timers.pool → ∀ m,
      p.1.memory (c, m) = x.timers.memory (c, m))
    (hbucket : ∀ j, j ≠ i → p.1.bucket j = x.timers.bucket j)
    (hinfos : p.1.infos = x.timers.infos)
    (hdistinct : ((full ++ [a]).map Block.chunk ++ p.1.pool).Nodup)
    (howned : ∀ c ∈ (full ++ [a]).map Block.chunk ++ p.1.pool,
      c ∈ chunksOf (l i) ++ x.timers.pool)
    (hinside : i < r.total) : ∃ l', Inv r (added r x i work cycles ticks wanted p) l' := by
  let e : Entry := ⟨x.timers.infos.length, work⟩
  have hchunks : chunksOf (some ⟨full, ⟨a.chunk, a.entries ++ [e]⟩⟩) =
      (full ++ [a]).map Block.chunk := by
    simp [chunksOf, blocksOf]
  have hprefix : x.timers.infos <+: (noted r cycles ticks wanted p).infos := by
    rw [← hinfos]
    exact List.prefix_append ..
  refine ⟨_, h.replace (i := i) (o := some ⟨full, ⟨a.chunk, a.entries ++ [e]⟩⟩)
    hbucket (hheld.frame fun _ _ => rfl) ?_ hprefix ?_ ?_ (hchunks ▸ hdistinct) (hchunks ▸ howned)
    fun _ => hinside⟩
  · intro j hj c hc m
    apply hmemory
    rintro hmem
    rcases List.mem_append.mp hmem with hi | hp
    · exact h.apart j i hj c hc hi
    · exact h.chunk_not_mem_pool hc hp
  · intro b hb
    rcases List.mem_append.mp hb with hb | hb
    · have hb := List.mem_append_left [a] hb
      exact (hold b hb).frame (hslots b hb) hprefix
    · obtain rfl := List.mem_singleton.mp hb
      have ha : a ∈ full ++ [a] := List.mem_append_right _ (List.mem_singleton_self a)
      have hnoted : (noted r cycles ticks wanted p).infos = x.timers.infos ++
          [r.deleteInfo cycles ticks (a.chunk, a.entries.length) wanted] := by
        rw [← hinfos, ← hplace]
        rfl
      exact (hold a ha).snoc (t := noted r cycles ticks wanted p) (hslots a ha)
        (hplace ▸ hwork) hnoted
  · rw [added, h.pending i, ← hentries]
    simp [blocksOf, e]

theorem Inv.length_le (h : Inv r x l) {b : Block} (hb : b ∈ blocksOf (l i)) :
    b.entries.length ≤ r.entriesPerChunk := by
  rcases h.empty_or_held i with ⟨hl, -⟩ | ⟨k, hl, hk⟩
  · rw [hl] at hb
    cases hb
  · rw [hl] at hb
    rcases List.mem_append.mp hb with hb | hb
    · exact (hk.linked.holds_of_mem hb).le
    · obtain rfl := List.mem_singleton.mp hb
      exact Nat.le.intro hk.room

theorem Inv.eq_of_chunk_eq (h : Inv r x l) {j : ℕ} {a b : Block} (ha : a ∈ blocksOf (l i))
    (hb : b ∈ blocksOf (l j)) (heq : a.chunk = b.chunk) : a = b := by
  rcases eq_or_ne i j with rfl | hij
  · exact List.inj_on_of_nodup_map (h.distinct i).of_append_left ha hb heq
  · exact absurd (mem_chunksOf hb) (heq ▸ h.apart i j hij _ (mem_chunksOf ha))

theorem inv_addLast (h : Inv r x l) (hremainder : (x.timers.bucket i).chunkRemainder ≠ 0)
    (hroom : (x.timers.bucket i).numEntries + 1 < 2 ^ 32) :
    ∃ l', Inv r (added r x i work cycles ticks wanted (addLast r x.timers i work)) l' := by
  rcases h.empty_or_held i with ⟨-, -, hzero⟩ | ⟨k, hl, hk⟩
  · exact absurd hzero hremainder
  have hfree := hk.room
  have hcount := hk.count
  have hblocks : blocksOf (l i) = k.full ++ [k.tail] := by rw [hl]; rfl
  have htail : k.tail ∈ blocksOf (l i) := by simp [hblocks]
  have hplace : (addLast r x.timers i work).2 = (k.tail.chunk, k.tail.entries.length) := by
    rw [← hk.last, ← Nat.add_sub_cancel k.tail.entries.length, hfree]
    rfl
  have hne : ∀ c j, (c = k.tail.chunk → j ≠ k.tail.entries.length) →
      (addLast r x.timers i work).1.memory (c, j) = x.timers.memory (c, j) := by
    intro c j hcj
    apply Function.update_of_ne
    intro heq
    obtain ⟨hc, hj⟩ := Prod.mk.inj (heq.trans hplace)
    exact hcj hc hj
  have hbucket : (addLast r x.timers i work).1.bucket i = { x.timers.bucket i with
      chunkRemainder := (x.timers.bucket i).chunkRemainder - 1
      numEntries := (x.timers.bucket i).numEntries + 1 } := by
    simp only [addLast, Function.update_self, Nat.mod_eq_of_lt hroom]
  have hinside : l i ≠ none := by rw [hl]; exact Option.some_ne_none k
  have hkept := hk.frame (t := (addLast r x.timers i work).1) fun a _ =>
    hne a.chunk r.entriesPerChunk fun _ => by omega
  apply h.grow k.full k.tail _ (hblocks ▸ h.stored i) (by rw [hblocks]) hplace
    (Function.update_self ..) _ _ (fun j hj => Function.update_of_ne hj ..) rfl
    (hblocks ▸ h.distinct i) (hblocks ▸ fun c hc => hc) (h.inside i hinside)
  · rw [hbucket]
    have hless : k.tail.entries.length + 1 + ((x.timers.bucket i).chunkRemainder - 1) =
        r.entriesPerChunk := by omega
    refine ⟨hkept.linked, hk.last, by simp, ?_, ?_⟩
    · rw [List.length_append]
      exact hless
    · rw [List.length_append, List.length_singleton, hcount, Nat.add_assoc]
  · intro b hb j hj
    apply hne
    intro heq
    obtain rfl := h.eq_of_chunk_eq (hblocks ▸ hb) htail heq
    exact hj.ne
  · intro c hc m
    apply hne
    rintro rfl
    exact absurd (List.mem_append_left _ (mem_chunksOf htail)) hc

theorem link_addChunk (h : Inv r x l) (hnum : (x.timers.bucket i).numEntries ≠ 0)
    (hnew : newChunk ∈ x.timers.pool) {a : Block} (ha : a ∈ blocksOf (l i)) :
    link r (addChunk r x.timers i pick newChunk work).1 a.chunk =
      if a.chunk = (x.timers.bucket i).lastChunk then newChunk else link r x.timers a.chunk := by
  have hplace : (a.chunk, r.entriesPerChunk) ≠ (newChunk, 0) := by
    intro heq
    obtain ⟨rfl, -⟩ := Prod.mk.inj heq
    exact h.chunk_not_mem_pool (mem_chunksOf ha) hnew
  have hlinked : link r (addChunk r x.timers i pick newChunk work).1 a.chunk =
      linked r x.timers i newChunk (a.chunk, r.entriesPerChunk) := Function.update_of_ne hplace ..
  rw [hlinked, linked, if_pos hnum]
  split
  · next heq =>
    rw [heq]
    exact Function.update_self ..
  · next hother =>
    apply Function.update_of_ne
    exact fun heq => hother (Prod.mk.inj heq).1

theorem held_addChunk (h : Inv r x l) (hremainder : (x.timers.bucket i).chunkRemainder = 0)
    (hroom : (x.timers.bucket i).numEntries + 1 < 2 ^ 32) (hnew : newChunk ∈ x.timers.pool)
    (e : Entry) : Held r (addChunk r x.timers i pick newChunk work).1
      (extended r x.timers i newChunk) ⟨blocksOf (l i), ⟨newChunk, [e]⟩⟩ := by
  have hpos := r.entries_pos
  have hle := r.entries_le
  have hfree : [e].length + (r.entriesPerChunk - 1) % 2 ^ 32 = r.entriesPerChunk := by
    rw [List.length_singleton]
    omega
  rcases h.empty_or_held i with ⟨hl, hzero, -⟩ | ⟨k, hl, hk⟩
  · refine ⟨?_, rfl, Nat.zero_lt_one, hfree, ?_⟩
    · rw [hl]
      exact if_neg (not_not.mpr hzero)
    · simp [extended, hzero, hl, blocksOf]
  have hblocks : blocksOf (l i) = k.full ++ [k.tail] := by rw [hl]; rfl
  have hcount := hk.count
  have hsize := hk.room
  have hnonempty := hk.nonempty
  have hnum : (x.timers.bucket i).numEntries ≠ 0 := by omega
  have htail : k.tail ∈ blocksOf (l i) := by simp [hblocks]
  have hlink : ∀ a ∈ blocksOf (l i), link r (addChunk r x.timers i pick newChunk work).1 a.chunk =
      if a.chunk = k.tail.chunk then newChunk else link r x.timers a.chunk := fun a ha =>
    hk.last ▸ link_addChunk h hnum hnew ha
  refine ⟨?_, rfl, Nat.zero_lt_one, hfree, ?_⟩
  · have hfirst : (extended r x.timers i newChunk).firstChunkAddr =
        (x.timers.bucket i).firstChunkAddr := if_pos hnum
    rw [hfirst, hblocks]
    apply seg_snoc.mpr
    refine ⟨hk.linked.frame (fun a ha => ?_) fun _ _ ha => ha, by omega, ?_⟩
    · have hmem : a ∈ blocksOf (l i) := by simp [hblocks, ha]
      rw [hlink a hmem, if_neg]
      intro heq
      have hnodup : (blocksOf (l i)).Nodup := (h.distinct i).of_append_left.of_map
      rw [hblocks] at hnodup
      obtain rfl := h.eq_of_chunk_eq hmem htail heq
      exact List.disjoint_of_nodup_append hnodup ha (List.mem_singleton_self _)
    · rw [hlink k.tail htail, if_pos rfl]
  · have hmore : (extended r x.timers i newChunk).numEntries =
        (x.timers.bucket i).numEntries + 1 := by
      simp only [extended, if_pos hnum, Nat.mod_eq_of_lt hroom]
    rw [hmore, hcount, hblocks, List.length_append, List.length_singleton,
      List.length_singleton, Nat.succ_mul]
    omega

/-- Behind the link and in front of the new chunk everything stays. -/
theorem memory_addChunk (h : Inv r x l) {c : UInt64} {j : ℕ} (hnew : c ≠ newChunk)
    (hslot : c ∈ chunksOf (l i) → j < r.entriesPerChunk) :
    (addChunk r x.timers i pick newChunk work).1.memory (c, j) = x.timers.memory (c, j) := by
  have hlinked : (addChunk r x.timers i pick newChunk work).1.memory (c, j) =
      linked r x.timers i newChunk (c, j) :=
    Function.update_of_ne (fun heq => hnew (Prod.mk.inj heq).1) ..
  rw [hlinked, linked]
  split
  · next hnum =>
    apply Function.update_of_ne
    intro heq
    obtain ⟨rfl, rfl⟩ := Prod.mk.inj heq
    refine lt_irrefl _ (hslot ?_)
    rcases h.empty_or_held i with ⟨-, hzero, -⟩ | ⟨k, hl, hk⟩
    · exact absurd hzero hnum
    · rw [hl, hk.last]
      exact mem_chunksOf (List.mem_append_right _ (List.mem_singleton_self k.tail))
  · rfl

theorem inv_addChunk (h : Inv r x l) (hremainder : (x.timers.bucket i).chunkRemainder = 0)
    (hroom : (x.timers.bucket i).numEntries + 1 < 2 ^ 32)
    (hpick : x.timers.pool[pick]? = some newChunk) (hinside : i < r.total) :
    ∃ l', Inv r (added r x i work cycles ticks wanted
      (addChunk r x.timers i pick newChunk work)) l' := by
  obtain ⟨hlt, rfl⟩ := List.getElem?_eq_some_iff.mp hpick
  have hnew := List.getElem_mem hlt
  have hpool : (chunksOf (l i) ++ [x.timers.pool[pick]] ++ x.timers.pool.eraseIdx pick).Perm
      (chunksOf (l i) ++ x.timers.pool) := by
    rw [List.append_assoc]
    exact (List.getElem_cons_eraseIdx_perm hlt).append_left _
  let a : Block := ⟨x.timers.pool[pick], []⟩
  have hmap : (blocksOf (l i) ++ [a]).map Block.chunk = chunksOf (l i) ++ [x.timers.pool[pick]] :=
    List.map_append
  have hbucket : (addChunk r x.timers i pick x.timers.pool[pick] work).1.bucket i =
      extended r x.timers i x.timers.pool[pick] := Function.update_self ..
  apply h.grow (blocksOf (l i)) a _ _ (by simp [a]) rfl
    (Function.update_self ..) _ _ (fun j hj => Function.update_of_ne hj ..) rfl
    (hmap ▸ hpool.nodup_iff.mpr (h.distinct i)) (fun c hc => hpool.mem_iff.mp (hmap ▸ hc)) hinside
  · rw [hbucket]
    exact held_addChunk h hremainder hroom hnew _
  · intro b hb
    rcases List.mem_append.mp hb with hb | hb
    · exact h.stored i b hb
    · obtain rfl := List.mem_singleton.mp hb
      intro j e he
      cases he
  · intro b hb j hj
    rcases List.mem_append.mp hb with hb | hb
    · apply memory_addChunk h
      · exact fun heq => h.chunk_not_mem_pool (mem_chunksOf hb) (heq ▸ hnew)
      · exact fun _ => lt_of_lt_of_le hj (h.length_le hb)
    · obtain rfl := List.mem_singleton.mp hb
      cases hj
  · intro c hc m
    apply memory_addChunk h
    · rintro rfl
      exact hc (List.mem_append_right _ hnew)
    · exact fun hmem => absurd (List.mem_append_left _ hmem) hc

theorem chunks_eq (h : Inv r x l) (i : ℕ) : chunks r x.timers i = chunksOf (l i) := by
  rcases h.empty_or_held i with ⟨hl, hzero, -⟩ | ⟨k, hl, hk⟩
  · rw [chunks, hzero, hl]
    rfl
  · have hpos := hk.nonempty
    have hmul := Nat.le_mul_of_pos_right k.full.length r.entries_pos
    rw [chunks, hk.count, release_of_seg hk.linked hpos (Nat.le.intro hk.room) (by omega), hl]
    simp [chunksOf, blocksOf]

theorem inv_traverse (h : Inv r x l) (i : ℕ) : ∃ l', Inv r (step r x (.traverse i)) l' := by
  have hpool : (traverse r x.timers i).pool = x.timers.pool ++ chunksOf (l i) :=
    congrArg (x.timers.pool ++ ·) (chunks_eq h i)
  refine ⟨_, h.replace (i := i) (o := none) ?_ ?_ ?_ ?_ ?_ ?_ ?_ ?_ ?_⟩
  · exact fun j hj => Function.update_of_ne hj ..
  · simp [step, traverse, Represents]
  · exact fun _ _ _ _ _ => rfl
  · exact List.prefix_rfl
  · intro b hb
    cases hb
  · rfl
  · simp only [chunksOf, blocksOf, step, hpool, List.map_nil, List.nil_append]
    exact List.perm_append_comm.nodup_iff.mpr (h.distinct i)
  · simp only [chunksOf, blocksOf, step, hpool, List.map_nil, List.nil_append]
    exact fun c hc => List.perm_append_comm.mem_iff.mp hc
  · exact fun hnone => absurd rfl hnone

/-! ### Deletion -/

def Block.zero (info : ℕ) (b : Block) : Block :=
  { b with entries := b.entries.map (Entry.zero info) }

def Chain.zero (info : ℕ) (k : Chain) : Chain :=
  ⟨k.full.map (Block.zero info), k.tail.zero info⟩

theorem blocksOf_zero (info : ℕ) (o : Option Chain) :
    blocksOf (o.map (Chain.zero info)) = (blocksOf o).map (Block.zero info) := by
  cases o with
  | none => rfl
  | some k => simp [blocksOf, Chain.zero]

theorem chunksOf_zero (info : ℕ) (o : Option Chain) :
    chunksOf (o.map (Chain.zero info)) = chunksOf o := by
  rw [chunksOf, blocksOf_zero, List.map_map]
  rfl

theorem Inv.exists_place (h : Inv r x l) {info : ℕ} {d : CvmxTimDelete}
    (hd : x.timers.deleteInfo? info = some d) (hpending : ∃ i, ∃ e ∈ x.pending i, e.info = info) :
    ∃ i, ∃ a ∈ blocksOf (l i), ∃ j e, a.entries[j]? = some e ∧ e.info = info ∧
      d.timerEntryPtr = (a.chunk, j) := by
  obtain ⟨i, e, he, rfl⟩ := hpending
  rw [h.pending i] at he
  obtain ⟨a, ha, hmem⟩ := List.mem_flatMap.mp he
  obtain ⟨j, hj⟩ := List.mem_iff_getElem?.mp hmem
  exact ⟨i, a, ha, j, e, hj, rfl, (h.stored i a ha j e hj).2.2 d hd⟩

theorem Block.length_zero (info : ℕ) (b : Block) :
    (b.zero info).entries.length = b.entries.length := List.length_map _

theorem Represents.zero {s : Timers} {b : CvmxTimBucketEntry} {o : Option Chain}
    (h : Represents r s b o) (info : ℕ) : Represents r s b (o.map (Chain.zero info)) := by
  cases o with
  | none => exact h
  | some k =>
    refine ⟨h.linked.map (fun _ => rfl) fun b hb => (b.length_zero info).trans hb, h.last, ?_, ?_,
      ?_⟩
    · exact lt_of_lt_of_eq h.nonempty (k.tail.length_zero info).symm
    · rw [Chain.zero, Block.length_zero]
      exact h.room
    · rw [Chain.zero, Block.length_zero, List.length_map]
      exact h.count

def Timers.zeroed (s : Timers) (p : Place) : Timers :=
  { s with memory := Function.update s.memory p 0 }

/-- Zeroing the place of an entry zeroes this entry and no other. -/
theorem Inv.stored_zero (h : Inv r x l) {info j₀ i₀ : ℕ} {d : CvmxTimDelete} {a₀ a : Block}
    {e₀ : Entry} (hd : x.timers.deleteInfo? info = some d) (ha₀ : a₀ ∈ blocksOf (l i₀))
    (hj₀ : a₀.entries[j₀]? = some e₀) (hinfo : e₀.info = info)
    (hptr : d.timerEntryPtr = (a₀.chunk, j₀)) (ha : a ∈ blocksOf (l i)) :
    (a.zero info).Stored (x.timers.zeroed d.timerEntryPtr) := by
  intro j e' he'
  rw [Block.zero, List.getElem?_map, Option.map_eq_some_iff] at he'
  obtain ⟨e, he, rfl⟩ := he'
  obtain ⟨hwork, hold, hplace⟩ := h.stored i a ha j e he
  by_cases hsame : e.info = info
  · rw [Entry.zero, if_pos hsame]
    refine ⟨?_, hold, hplace⟩
    have hat : (a.chunk, j) = d.timerEntryPtr := (hplace d (hsame ▸ hd)).symm
    simp only [Timers.zeroed, Block.zero, hat, Function.update_self]
  · rw [Entry.zero, if_neg hsame]
    refine ⟨?_, hold, hplace⟩
    rw [← hwork]
    apply Function.update_of_ne
    intro heq
    obtain ⟨hchunk, rfl⟩ := Prod.mk.inj (heq.trans hptr)
    obtain rfl := h.eq_of_chunk_eq ha ha₀ hchunk
    exact hsame ((Option.some.inj (he.symm.trans hj₀)) ▸ hinfo)

theorem inv_delete (h : Inv r x l) {info : ℕ} {d : CvmxTimDelete}
    (hd : x.timers.deleteInfo? info = some d)
    (hpending : ∃ i, ∃ e ∈ x.pending i, e.info = info) :
    Inv r ⟨x.timers.zeroed d.timerEntryPtr, fun i => (x.pending i).map (Entry.zero info)⟩
      fun i => (l i).map (Chain.zero info) := by
  obtain ⟨i₀, a₀, ha₀, j₀, e₀, hj₀, hinfo, hptr⟩ := h.exists_place hd hpending
  have hlt : j₀ < r.entriesPerChunk :=
    lt_of_lt_of_le (List.getElem?_eq_some_iff.mp hj₀).choose (h.length_le ha₀)
  have hlink : ∀ c, link r (x.timers.zeroed d.timerEntryPtr) c = link r x.timers c := by
    intro c
    apply Function.update_of_ne
    rw [hptr]
    exact fun heq => hlt.ne' (Prod.mk.inj heq).2
  refine ⟨fun i => ?_, fun i b hb => ?_, fun i => ?_, fun i => ?_, fun i j hij => ?_, fun i => ?_⟩
  · exact ((h.represents i).frame fun a _ => hlink a.chunk).zero info
  · rw [blocksOf_zero] at hb
    obtain ⟨a, ha, rfl⟩ := List.mem_map.mp hb
    exact h.stored_zero hd ha₀ hj₀ hinfo hptr ha
  · simp only [h.pending i, blocksOf_zero, List.map_flatMap, List.flatMap_map]
    rfl
  · rw [chunksOf_zero]
    exact h.distinct i
  · rw [chunksOf_zero, chunksOf_zero]
    exact h.apart i j hij
  · intro hi
    apply h.inside i
    intro hnone
    exact hi (by rw [hnone]; rfl)

/-! ### All steps -/

/-- An entry is put behind the last one or into a new chunk, or nothing happens. -/
theorem addEntry_cases (r : Ring) (s : Timers) (work cycles ticks : UInt64) (wanted : Bool)
    (pick : ℕ) :
    ((addEntry r s work cycles ticks wanted pick).2 ≠ .success ∧
        (addEntry r s work cycles ticks wanted pick).1 = s) ∨
      (ticks ≤ r.tim.maxTicks.toUInt64 ∧
        (s.bucket (r.target cycles ticks)).chunkRemainder ≠ 0 ∧
        addEntry r s work cycles ticks wanted pick =
          (noted r cycles ticks wanted (addLast r s (r.target cycles ticks) work), .success)) ∨
      (ticks ≤ r.tim.maxTicks.toUInt64 ∧
        (s.bucket (r.target cycles ticks)).chunkRemainder = 0 ∧
        ∃ newChunk, s.pool[pick]? = some newChunk ∧
          addEntry r s work cycles ticks wanted pick =
            (noted r cycles ticks wanted
              (addChunk r s (r.target cycles ticks) pick newChunk work), .success)) := by
  rw [addEntry]
  split
  · exact .inl ⟨by simp, rfl⟩
  next hticks =>
  have hle := UInt64.not_lt.mp hticks
  split
  · next hremainder => exact .inr (.inl ⟨hle, hremainder, rfl⟩)
  next hremainder =>
  split
  · exact .inl ⟨by simp, rfl⟩
  · next newChunk hpick => exact .inr (.inr ⟨hle, not_not.mp hremainder, newChunk, hpick, rfl⟩)

theorem inv_add (h : Inv r x l) {work cycles ticks : UInt64} {wanted : Bool} {pick : ℕ}
    (ht : Timely r x (.add work cycles ticks wanted pick)) :
    ∃ l', Inv r (step r x (.add work cycles ticks wanted pick)) l' := by
  rcases addEntry_cases r x.timers work cycles ticks wanted pick with
    ⟨hstatus, hsame⟩ | ⟨hle, hremainder, hadd⟩ | ⟨hle, hremainder, newChunk, hpick, hadd⟩
  · refine ⟨l, ?_⟩
    rw [step, if_neg hstatus, hsame]
    exact h
  · have hroom := ht hle (.inl hremainder)
    simp only [step, hadd, if_true]
    exact inv_addLast h hremainder hroom
  · have hroom := ht hle (.inr (List.getElem?_eq_some_iff.mp hpick).choose)
    simp only [step, hadd, if_true]
    exact inv_addChunk h hremainder hroom hpick (target_lt r cycles ticks)

theorem inv_step (h : Inv r x l) {e : Event} (ht : Timely r x e) :
    ∃ l', Inv r (step r x e) l' := by
  cases e with
  | add work cycles ticks wanted pick => exact inv_add h ht
  | delete cycles info =>
    rw [step]
    split
    · exact ⟨l, h⟩
    · next d hd =>
      rw [deleteEntry]
      split
      · next hearly => exact ⟨_, inv_delete h hd (ht d hd hearly)⟩
      · exact ⟨l, h⟩
  | traverse i => exact inv_traverse h i

end Steps

/-! ## What the invariant says -/

section Result

variable {r : Ring} {x : Run} {l : Layout}

theorem visited_eq (h : Inv r x l) (i : ℕ) : visited r x.timers i =
    (blocksOf (l i)).flatMap fun b => slots b.chunk b.entries.length := by
  rcases h.empty_or_held i with ⟨hl, hzero, -⟩ | ⟨k, hl, hk⟩
  · rw [visited, hzero, hl]
    rfl
  · have hfull : k.full.flatMap (fun b => slots b.chunk r.entriesPerChunk) =
        k.full.flatMap fun b => slots b.chunk b.entries.length := by
      apply List.flatMap_congr
      intro b hb
      rw [hk.linked.holds_of_mem hb]
    rw [visited, hk.count, places_of_seg r.entries_pos hk.linked (Nat.le.intro hk.room), hfull, hl]
    simp [blocksOf]

theorem walk_eq (h : Inv r x l) (i : ℕ) :
    (visited r x.timers i).map x.timers.memory = (x.pending i).map Entry.work := by
  rw [visited_eq h, h.pending, List.map_flatMap, List.map_flatMap]
  apply List.flatMap_congr
  intro b hb
  rw [← List.length_map Entry.work]
  apply map_slots
  intro j w hw
  rw [List.getElem?_map, Option.map_eq_some_iff] at hw
  obtain ⟨e, he, rfl⟩ := hw
  exact (h.stored i b hb j e he).1

theorem flatMap_range_mul {α : Type*} (m n : ℕ) (f : ℕ → List α) :
    ((List.range m).flatMap fun i => (List.range n).flatMap fun j => f (i * n + j)) =
      (List.range (m * n)).flatMap f := by
  induction m with
  | zero => simp
  | succ m ih =>
    rw [List.range_succ, List.flatMap_append, ih, Nat.succ_mul, List.range_add,
      List.flatMap_append, List.flatMap_map, List.flatMap_singleton]

theorem freed_eq (h : Inv r x l) :
    freed r x.timers = (List.range r.total).flatMap fun i => chunksOf (l i) := by
  rw [freed, flatMap_range_mul]
  apply List.flatMap_congr
  exact fun i _ => chunks_eq h i

theorem mem_freed (h : Inv r x l) {c : UInt64} :
    c ∈ freed r x.timers ↔ ∃ i, c ∈ chunksOf (l i) := by
  rw [freed_eq h, List.mem_flatMap]
  constructor
  · rintro ⟨i, -, hc⟩
    exact ⟨i, hc⟩
  · rintro ⟨i, hc⟩
    refine ⟨i, List.mem_range.mpr (h.inside i ?_), hc⟩
    intro hnone
    rw [hnone] at hc
    cases hc

theorem Inv.nonempty (h : Inv r x l) {i : ℕ} {b : Block} (hb : b ∈ blocksOf (l i)) :
    0 < b.entries.length := by
  rcases h.empty_or_held i with ⟨hl, -⟩ | ⟨k, hl, hk⟩
  · rw [hl] at hb
    cases hb
  · rw [hl] at hb
    rcases List.mem_append.mp hb with hb | hb
    · exact lt_of_lt_of_eq r.entries_pos (hk.linked.holds_of_mem hb).symm
    · obtain rfl := List.mem_singleton.mp hb
      exact hk.nonempty

theorem mem_chunksOf_iff (h : Inv r x l) {i : ℕ} {c : UInt64} :
    c ∈ chunksOf (l i) ↔ ∃ p ∈ visited r x.timers i, p.1 = c := by
  rw [visited_eq h]
  constructor
  · intro hc
    obtain ⟨b, hb, rfl⟩ := List.mem_map.mp hc
    refine ⟨(b.chunk, 0), List.mem_flatMap.mpr ⟨b, hb, ?_⟩, rfl⟩
    exact List.mem_map.mpr ⟨0, List.mem_range.mpr (h.nonempty hb), rfl⟩
  · rintro ⟨p, hp, rfl⟩
    obtain ⟨b, hb, hmem⟩ := List.mem_flatMap.mp hp
    obtain ⟨j, -, rfl⟩ := List.mem_map.mp hmem
    exact mem_chunksOf hb

theorem nodup_shutdown (h : Inv r x l) : (shutdown r x.timers).pool.Nodup := by
  have hpool : (shutdown r x.timers).pool = x.timers.pool ++ freed r x.timers := rfl
  rw [hpool, List.nodup_append']
  refine ⟨(h.distinct 0).of_append_right, ?_, fun c hp hc => ?_⟩
  · rw [freed_eq h, List.nodup_flatMap]
    refine ⟨fun i _ => (h.distinct i).of_append_left, ?_⟩
    exact List.nodup_range.imp fun hij c hi hj => h.apart _ _ hij c hi hj
  · obtain ⟨i, hi⟩ := (mem_freed h).mp hc
    exact h.chunk_not_mem_pool hi hp

theorem right_of_inv (h : Inv r x l) : Right r x where
  walk := walk_eq h
  failed work cycles ticks wanted pick hstatus := by
    rcases addEntry_cases r x.timers work cycles ticks wanted pick with
      ⟨-, hsame⟩ | ⟨-, -, hadd⟩ | ⟨-, -, _, -, hadd⟩
    · exact hsame
    · exact absurd (congrArg Prod.snd hadd) hstatus
    · exact absurd (congrArg Prod.snd hadd) hstatus
  once := nodup_shutdown h
  reached c := by
    rw [mem_freed h]
    exact exists_congr fun i => mem_chunksOf_iff h

theorem inv_initial (r : Ring) (memory : Place → UInt64) {pool : List UInt64} (hpool : pool.Nodup) :
    Inv r (initial memory pool) fun _ => none where
  represents _ := ⟨rfl, rfl⟩
  stored _ b hb := by cases hb
  pending _ := rfl
  distinct _ := hpool
  apart _ _ _ c hc := by cases hc
  inside _ hne := absurd rfl hne

/-- In every run whose deletions come in time the buckets hold the entries that were added to
them. -/
theorem right_of_timely (r : Ring) (memory : Place → UInt64) {pool : List UInt64}
    (hpool : pool.Nodup) {es : List Event}
    (hrun : Along (step r) (Timely r) (initial memory pool) es) :
    Right r (es.foldl (step r) (initial memory pool)) := by
  have hstep : ∀ x e, (∃ l, Inv r x l) → Timely r x e → ∃ l, Inv r (step r x e) l := by
    intro x e hx ht
    obtain ⟨l, h⟩ := hx
    exact inv_step h ht
  obtain ⟨l, h⟩ := foldl_keeps hstep ⟨_, inv_initial r memory hpool⟩ hrun
  exact right_of_inv h

end Result

/-- 512 MHz, ticks of 3 microseconds and up to 683 of them, which are 1024 buckets and a half. -/
def wheel683 : CvmxTim := ⟨1536, 0, 10, 1024, 683⟩

theorem setup_wheel683 : cvmxTimSetup 512000000 3 683 true = some wheel683 := by decide

/-- The first core, with chunks of 1024 bytes. -/
def ring683 : Ring where
  tim := wheel683
  coreNum := 0
  entriesPerChunk := 127
  coreNum_lt := by decide
  entries_pos := by decide
  entries_le := by decide
  setUp := ⟨512000000, 3, 683, wheel683, 0, setup_wheel683, rfl⟩

/-- The first entry is deleted before its bucket is reached. -/
def inTime : List Event :=
  [.add 4096 5000 683 true 0, .delete 5100 0, .traverse 5, .add 8192 6200 10 false 0]

theorem right_inTime :
    Right ring683 (inTime.foldl (step ring683) (initial (fun _ => 0) [524288])) := by
  apply right_of_timely ring683 (fun _ => 0) (by decide)
  refine ⟨fun _ _ => by decide +kernel, fun d _ _ => ⟨5, ⟨0, 4096⟩, ?_, rfl⟩, trivial,
    fun _ _ => by decide +kernel, trivial⟩
  decide +kernel

/-- The first entry is a revolution ahead, in the bucket that is reached next. Its chunk is given
out again, and a deletion zeroes what is in it now. -/
def late : List Event :=
  [.add 4096 5000 683 true 0, .traverse 5, .add 8192 6200 10 false 0, .delete 7000 0]

theorem late_not_right :
    ¬ Right ring683 (late.foldl (step ring683) (initial (fun _ => 0) [524288])) := by
  intro h
  have hwalk := h.walk 21
  revert hwalk
  decide +kernel

end TimerBuckets
