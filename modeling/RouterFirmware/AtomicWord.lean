import RouterFirmware.LinkedStore
import RouterFirmware.SharedProgram

/-! # The atomic operations on a word

The operations of the executive on a 32-bit or a 64-bit word of memory that the cores share.
Each is one loop around a load-linked and a store-conditional; the two widths differ in the
instructions only. A void operation has no result. -/
namespace AtomicWord

open LinkedStore SharedProgram

variable {n : ℕ}

abbrev Operation (n : ℕ) := Body (BitVec n) (Option (BitVec n))

/-- `addu`, and the register that holds the sum is the result. -/
def adding (incr : BitVec n) : Operation n :=
  .loop fun tmp => .store (tmp + incr) (some (tmp + incr))

def setting (value : BitVec n) : Operation n := .loop fun _ => .store value none

/-- The loads of `get` are volatile reads and take no link. -/
def getting : Operation n := .loop fun tmp => .leave (some tmp)

/-- `bne` leaves the loop with 0 in the result register. -/
def comparing (old new : BitVec n) : Operation n :=
  .loop fun tmp => if tmp ≠ old then .leave (some 0) else .store new (some 1)

def fetching (f : BitVec n → BitVec n) : Operation n := .loop fun tmp => .store (f tmp) (some tmp)

def cvmxAtomicAdd32Nosync (incr : BitVec 32) : Operation 32 := adding incr
def cvmxAtomicAdd32 (incr : BitVec 32) : Operation 32 := cvmxAtomicAdd32Nosync incr
def cvmxAtomicSet32 (value : BitVec 32) : Operation 32 := setting value
def cvmxAtomicGet32 : Operation 32 := getting
def cvmxAtomicCompareAndStore32Nosync (old new : BitVec 32) : Operation 32 := comparing old new
def cvmxAtomicCompareAndStore32 (old new : BitVec 32) : Operation 32 :=
  cvmxAtomicCompareAndStore32Nosync old new
def cvmxAtomicFetchAndAdd32Nosync (incr : BitVec 32) : Operation 32 := fetching (· + incr)
def cvmxAtomicFetchAndBset32Nosync (mask : BitVec 32) : Operation 32 := fetching (· ||| mask)
def cvmxAtomicFetchAndBclr32Nosync (mask : BitVec 32) : Operation 32 := fetching (· &&& ~~~mask)
def cvmxAtomicSwap32Nosync (new : BitVec 32) : Operation 32 := fetching fun _ => new

def cvmxAtomicAdd64Nosync (incr : BitVec 64) : Operation 64 := adding incr
def cvmxAtomicAdd64 (incr : BitVec 64) : Operation 64 := cvmxAtomicAdd64Nosync incr
def cvmxAtomicSet64 (value : BitVec 64) : Operation 64 := setting value
def cvmxAtomicGet64 : Operation 64 := getting
def cvmxAtomicCompareAndStore64Nosync (old new : BitVec 64) : Operation 64 := comparing old new
def cvmxAtomicCompareAndStore64 (old new : BitVec 64) : Operation 64 :=
  cvmxAtomicCompareAndStore64Nosync old new
def cvmxAtomicFetchAndAdd64Nosync (incr : BitVec 64) : Operation 64 := fetching (· + incr)
def cvmxAtomicFetchAndBset64Nosync (mask : BitVec 64) : Operation 64 := fetching (· ||| mask)
def cvmxAtomicFetchAndBclr64Nosync (mask : BitVec 64) : Operation 64 := fetching (· &&& ~~~mask)
def cvmxAtomicSwap64Nosync (new : BitVec 64) : Operation 64 := fetching fun _ => new

inductive Call (n : ℕ) where
  | addNosync (incr : BitVec n)
  | add (incr : BitVec n)
  | set (value : BitVec n)
  | get
  | compareAndStoreNosync (old new : BitVec n)
  | compareAndStore (old new : BitVec n)
  | fetchAndAdd (incr : BitVec n)
  | fetchAndBset (mask : BitVec n)
  | fetchAndBclr (mask : BitVec n)
  | swap (new : BitVec n)
  deriving DecidableEq, Repr

def body32 : Call 32 → Operation 32
  | .addNosync incr => cvmxAtomicAdd32Nosync incr
  | .add incr => cvmxAtomicAdd32 incr
  | .set value => cvmxAtomicSet32 value
  | .get => cvmxAtomicGet32
  | .compareAndStoreNosync old new => cvmxAtomicCompareAndStore32Nosync old new
  | .compareAndStore old new => cvmxAtomicCompareAndStore32 old new
  | .fetchAndAdd incr => cvmxAtomicFetchAndAdd32Nosync incr
  | .fetchAndBset mask => cvmxAtomicFetchAndBset32Nosync mask
  | .fetchAndBclr mask => cvmxAtomicFetchAndBclr32Nosync mask
  | .swap new => cvmxAtomicSwap32Nosync new

def body64 : Call 64 → Operation 64
  | .addNosync incr => cvmxAtomicAdd64Nosync incr
  | .add incr => cvmxAtomicAdd64 incr
  | .set value => cvmxAtomicSet64 value
  | .get => cvmxAtomicGet64
  | .compareAndStoreNosync old new => cvmxAtomicCompareAndStore64Nosync old new
  | .compareAndStore old new => cvmxAtomicCompareAndStore64 old new
  | .fetchAndAdd incr => cvmxAtomicFetchAndAdd64Nosync incr
  | .fetchAndBset mask => cvmxAtomicFetchAndBset64Nosync mask
  | .fetchAndBclr mask => cvmxAtomicFetchAndBclr64Nosync mask
  | .swap new => cvmxAtomicSwap64Nosync new

/-- What an operation is for: its result and the new value, at one go. -/
def meaning : Call n → BitVec n → Option (BitVec n) × BitVec n
  | .addNosync incr, v | .add incr, v => (some (v + incr), v + incr)
  | .set value, _ => (none, value)
  | .get, v => (some v, v)
  | .compareAndStoreNosync old new, v | .compareAndStore old new, v =>
    if v = old then (some 1, new) else (some 0, v)
  | .fetchAndAdd incr, v => (some v, v + incr)
  | .fetchAndBset mask, v => (some v, v ||| mask)
  | .fetchAndBclr mask, v => (some v, v &&& ~~~mask)
  | .swap new, v => (some v, new)

/-- The operations carry their meaning out. -/
def Means (body : Call n → Operation n) : Prop :=
  ∀ o v, (body o).perform v = some ((meaning o v).2, (meaning o v).1)

theorem comparing_perform (old new v : BitVec n) : (comparing old new).perform v =
    some (if v = old then (new, some 1) else (v, some 0)) := by
  by_cases h : v = old <;> simp [comparing, Body.perform, h]

theorem body32_means : Means body32 := by
  intro o v
  cases o with
  | compareAndStoreNosync old new =>
    simp only [body32, cvmxAtomicCompareAndStore32Nosync, comparing_perform, meaning]
    split <;> rfl
  | compareAndStore old new =>
    simp only [body32, cvmxAtomicCompareAndStore32, cvmxAtomicCompareAndStore32Nosync,
      comparing_perform, meaning]
    split <;> rfl
  | _ => rfl

theorem body64_means : Means body64 := by
  intro o v
  cases o with
  | compareAndStoreNosync old new =>
    simp only [body64, cvmxAtomicCompareAndStore64Nosync, comparing_perform, meaning]
    split <;> rfl
  | compareAndStore old new =>
    simp only [body64, cvmxAtomicCompareAndStore64, cvmxAtomicCompareAndStore64Nosync,
      comparing_perform, meaning]
    split <;> rfl
  | _ => rfl

variable {Core : Type} [DecidableEq Core]

abbrev Memory (Core : Type) (n : ℕ) := System Core (Call n) (BitVec n) (Option (BitVec n))

/-- The calls that have ended gave the results, and left the value, that they give and leave
one after another; and each core ended the calls it began, in its order, each once, but for the
one it is in. -/
structure Atomic (v : BitVec n) (s : Memory Core n) : Prop where
  serial : specAll meaning (s.log.map fun e => e.2.1) v =
    (s.log.map fun e => e.2.2, s.word.value)
  once : ∀ c, (s.log.filter fun e => e.1 = c).map (fun e => e.2.1) ++
    ((s.running c).map Prod.fst).toList = s.began c

omit [DecidableEq Core] in
theorem specAll_of_replays {body : Call n → Operation n} (hb : Means body) {v w : BitVec n}
    {log : List (Core × Call n × Option (BitVec n))} (h : Replays body v log w) :
    specAll meaning (log.map fun e => e.2.1) v = (log.map fun e => e.2.2, w) := by
  induction log generalizing v with
  | nil => simpa [specAll, Replays] using h
  | cons e log ih =>
    obtain ⟨c, o, ret⟩ := e
    obtain ⟨new, hn, hrest⟩ := h
    simp only [hb o v, Option.some.injEq, Prod.mk.injEq] at hn
    simp [specAll, hn.1, hn.2, ih hrest]

theorem run_atomic {body : Call n → Operation n} (hb : Means body) (v : BitVec n)
    (es : List (Event Core (Call n))) :
    Atomic v (es.foldl (step body) (initial v : Memory Core n)) :=
  ⟨specAll_of_replays hb (run_linearized es).replays, (run_linearized es).complete⟩

/-- Whatever the cores call on a word, and however their instructions interleave. -/
theorem calls_atomic (v : BitVec 32) (es : List (Event Core (Call 32))) (w : BitVec 64)
    (fs : List (Event Core (Call 64))) :
    Atomic v (es.foldl (step body32) (initial v)) ∧
      Atomic w (fs.foldl (step body64) (initial w)) :=
  ⟨run_atomic body32_means v es, run_atomic body64_means w fs⟩

end AtomicWord
