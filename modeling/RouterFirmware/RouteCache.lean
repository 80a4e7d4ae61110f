import RouterFirmware.BucketTable

/-! # Route cache

The cache of routes: chains of entries under a hash of addresses, interface and TOS. An entry
is put at the front of its chain, unless one with the same key stands there already.
-/
namespace RouteCache

open BucketTable

/-- The key of an entry: what the code sets in `fl`, the rest of which stays 0. -/
structure Flowi where
  daddr : UInt32
  saddr : UInt32
  tos : UInt8
  protocolType : UInt32
  srcPort : UInt32
  dstPort : UInt32
  oif : UInt32
  iif : UInt32
  deriving DecidableEq

inductive RtType where
  | unicast
  | local
  | broadcast
  | multicast
  | unreachable
  deriving DecidableEq

/-- An `rtable`; the number is its identity, the device is given by its `ifindex`. -/
structure Rtable where
  id : ℕ
  fl : Flowi
  dev : UInt32
  rtType : RtType
  deriving DecidableEq

inductive Errno where
  | einval
  | enobufs
  | enodev
  | eacces
  | enetunreach
  | ehostunreach
  deriving DecidableEq

def jhashGoldenRatio : UInt32 := 0x9e3779b9

/-- `__jhash_mix`, its last word. -/
def jhashMix (a b c : UInt32) : UInt32 :=
  let a := (a - b - c) ^^^ (c >>> 13)
  let b := (b - c - a) ^^^ (a <<< 8)
  let c := (c - a - b) ^^^ (b >>> 13)
  let a := (a - b - c) ^^^ (c >>> 12)
  let b := (b - c - a) ^^^ (a <<< 16)
  let c := (c - a - b) ^^^ (b >>> 5)
  let a := (a - b - c) ^^^ (c >>> 3)
  let b := (b - c - a) ^^^ (a <<< 10)
  (c - a - b) ^^^ (b >>> 15)

def jhash3words (a b c initval : UInt32) : UInt32 :=
  jhashMix (a + jhashGoldenRatio) (b + jhashGoldenRatio) (c + initval)

/-- `rt_hash_rnd` and `rt_hash_mask`. -/
structure Seed where
  rnd : UInt32
  mask : UInt32

def rtHashCode (seed : Seed) (daddr saddr : UInt32) (tos : UInt8) : UInt32 :=
  jhash3words daddr saddr tos.toUInt32 seed.rnd &&& seed.mask

/-- The bucket of a key: the interface is the input one, or the output one of a local flow. -/
def Flowi.bucket (seed : Seed) (fl : Flowi) : UInt32 :=
  rtHashCode seed fl.daddr (fl.saddr ^^^ ((if fl.iif = 0 then fl.oif else fl.iif) <<< 5)) fl.tos

def layout (seed : Seed) : Layout UInt32 Flowi Rtable := ⟨Flowi.bucket seed, Rtable.fl⟩

abbrev Table := UInt32 → List Rtable

/-- What `rt_intern_hash` reads besides the chain, as it stands at one attempt. -/
structure Moment where
  refcnt : Rtable → ℕ
  rtScore : Rtable → UInt32
  gcElasticity : ℕ
  arpBindNeighbour : Rtable → Option Errno
  /-- What `rt_garbage_collect` frees. -/
  collected : Rtable → Bool

/-- The unused entry of the least score, of equal ones the last. -/
def candidate (m : Moment) (chain : List Rtable) : Option Rtable :=
  chain.foldl (fun cand rth =>
    if m.refcnt rth = 0 ∧ ∀ c ∈ cand, m.rtScore rth ≤ m.rtScore c then some rth else cand) none

/-- The candidate is freed when the chain is too long. -/
def shorten (m : Moment) (chain : List Rtable) : List Rtable :=
  match candidate m chain with
  | some cand => if chain.length > m.gcElasticity then chain.erase cand else chain
  | none => chain

def bindNeighbour (m : Moment) (rt : Rtable) : Option Errno :=
  if rt.rtType = .unicast ∨ rt.fl.iif = 0 then m.arpBindNeighbour rt else none

/-- `rt_intern_hash`, by the attempts left. -/
def rtInternHash (moment : ℕ → Moment) (hash : UInt32) (rt : Rtable) :
    ℕ → Table → Except Errno Rtable × Table
  | attempts, table =>
    match (table hash).find? fun rth => rth.fl = rt.fl with
    | some rth => (.ok rth, Function.update table hash (rth :: (table hash).erase rth))
    | none =>
      let shortened := Function.update table hash (shorten (moment attempts) (table hash))
      match bindNeighbour (moment attempts) rt with
      | none => (.ok rt, Function.update shortened hash (rt :: shortened hash))
      | some .enobufs =>
        match attempts with
        | 0 => (.error .enobufs, shortened)
        | attempts + 1 =>
          rtInternHash moment hash rt attempts fun i =>
            (shortened i).filter fun rth => !(moment (attempts + 1)).collected rth
      | some err => (.error err, shortened)

section Intern

variable {moment : ℕ → Moment} {hash : UInt32} {rt rth : Rtable} {table : Table} {attempts : ℕ}

theorem shorten_sublist (m : Moment) (chain : List Rtable) : (shorten m chain).Sublist chain := by
  unfold shorten
  split
  · split
    · exact List.erase_sublist
    · exact List.Sublist.refl _
  · exact List.Sublist.refl _

/-- An entry of the key is moved to the front, or the new one is put there after some were
freed, or nothing is cached. -/
theorem rtInternHash_cases (moment : ℕ → Moment) (hash : UInt32) (rt : Rtable) (attempts : ℕ)
    (table : Table) :
    (∃ rth ∈ table hash, rth.fl = rt.fl ∧ rtInternHash moment hash rt attempts table =
      (.ok rth, Function.update table hash (rth :: (table hash).erase rth))) ∨
    ∃ left : Table, (∀ i, (left i).Sublist (table i)) ∧ (∀ rth ∈ table hash, rth.fl ≠ rt.fl) ∧
      (rtInternHash moment hash rt attempts table =
          (.ok rt, Function.update left hash (rt :: left hash)) ∨
        ∃ err, rtInternHash moment hash rt attempts table = (.error err, left)) := by
  have hsublist : ∀ (m : Moment) (table : Table) i,
      (Function.update table hash (shorten m (table hash)) i).Sublist (table i) :=
    fun m table => update_sublist (shorten_sublist m _)
  fun_induction rtInternHash moment hash rt attempts table with
  | case1 attempts table rth hfind =>
    exact .inl ⟨rth, List.mem_of_find?_eq_some hfind, by simpa using List.find?_some hfind, rfl⟩
  | case2 attempts table hfind shortened hbind =>
    exact .inr ⟨shortened, hsublist _ _, by simpa using hfind, .inl rfl⟩
  | case3 table hfind shortened hbind =>
    exact .inr ⟨shortened, hsublist _ _, by simpa using hfind, .inr ⟨_, rfl⟩⟩
  | case4 table hfind attempts shortened hbind ih =>
    -- The collection frees entries only, so the second attempt finds none either.
    have hnone : ∀ rth ∈ table hash, rth.fl ≠ rt.fl := by simpa using hfind
    have hleft : ∀ i, ((shortened i).filter fun rth =>
        !(moment (attempts + 1)).collected rth).Sublist (table i) :=
      fun i => List.filter_sublist.trans (hsublist _ _ i)
    rcases ih with ⟨rth, hmem, hfl, -⟩ | ⟨left, hsub, -, hresult⟩
    · exact absurd hfl (hnone rth ((hleft hash).subset hmem))
    · exact .inr ⟨left, fun i => (hsub i).trans (hleft i), hnone, hresult⟩
  | case5 attempts table hfind shortened err _ hbind =>
    exact .inr ⟨shortened, hsublist _ _, by simpa using hfind, .inr ⟨_, rfl⟩⟩

/-- The entry returned has the key asked for and stands first in its chain. -/
theorem rtInternHash_ok (h : (rtInternHash moment hash rt attempts table).1 = .ok rth) :
    rth.fl = rt.fl ∧ ∃ rest, (rtInternHash moment hash rt attempts table).2 hash = rth :: rest := by
  rcases rtInternHash_cases moment hash rt attempts table with
    ⟨found, _, hfl, heq⟩ | ⟨left, _, _, heq | ⟨err, heq⟩⟩
  · rw [heq] at h ⊢
    cases h
    exact ⟨hfl, _, Function.update_self _ _ _⟩
  · rw [heq] at h ⊢
    cases h
    exact ⟨rfl, _, Function.update_self _ _ _⟩
  · rw [heq] at h
    cases h

/-- The entry returned stood in the chain, or it is the new one. -/
theorem mem_or_eq_of_rtInternHash_ok
    (h : (rtInternHash moment hash rt attempts table).1 = .ok rth) :
    rth ∈ table hash ∨ rth = rt := by
  rcases rtInternHash_cases moment hash rt attempts table with
    ⟨found, hfound, _, heq⟩ | ⟨left, _, _, heq | ⟨err, heq⟩⟩
  · rw [heq] at h
    cases h
    exact .inl hfound
  · rw [heq] at h
    cases h
    exact .inr rfl
  · rw [heq] at h
    cases h

theorem mem_rtInternHash {i : UInt32} {e : Rtable}
    (h : e ∈ (rtInternHash moment hash rt attempts table).2 i) :
    e ∈ table i ∨ (i = hash ∧ e = rt ∧
      (rtInternHash moment hash rt attempts table).1 = .ok rt ∧
        ∀ rth ∈ table hash, rth.fl ≠ rt.fl) := by
  rcases rtInternHash_cases moment hash rt attempts table with
    ⟨found, hfound, hfl, heq⟩ | ⟨left, hleft, hnone, heq | ⟨err, heq⟩⟩
  · rw [heq] at h
    dsimp only at h
    rcases eq_or_ne i hash with rfl | hne
    · rw [Function.update_self] at h
      rcases List.mem_cons.mp h with rfl | h
      · exact .inl hfound
      · exact .inl (List.mem_of_mem_erase h)
    · rw [Function.update_of_ne hne] at h
      exact .inl h
  · rw [heq] at h ⊢
    dsimp only at h
    rcases eq_or_ne i hash with rfl | hne
    · rw [Function.update_self] at h
      rcases List.mem_cons.mp h with rfl | h
      · exact .inr ⟨rfl, rfl, rfl, hnone⟩
      · exact .inl ((hleft i).subset h)
    · rw [Function.update_of_ne hne] at h
      exact .inl ((hleft i).subset h)
  · rw [heq] at h
    exact .inl ((hleft i).subset h)

/-- Every entry stays in the bucket of its key, and no chain holds a key twice. -/
theorem wellFormed_rtInternHash {seed : Seed} (htable : (layout seed).WellFormed table)
    (hhash : rt.fl.bucket seed = hash) :
    (layout seed).WellFormed (rtInternHash moment hash rt attempts table).2 := by
  rcases rtInternHash_cases moment hash rt attempts table with
    ⟨found, hfound, hfl, heq⟩ | ⟨left, hleft, hnone, heq | ⟨err, heq⟩⟩
  · rw [heq]
    have hperm : List.Perm (found :: (table hash).erase found) (table hash) :=
      (List.perm_cons_erase hfound).symm
    apply Layout.wellFormed_update htable
    · exact fun e he => htable.hashed hash e (hperm.subset he)
    · exact ((hperm.map _).nodup_iff).mpr (htable.nodup hash)
  · rw [heq]
    have hwf : (layout seed).WellFormed left := Layout.wellFormed_of_sublist htable hleft
    subst hhash
    apply Layout.wellFormed_insert hwf
    rw [Layout.lookup, List.find?_eq_none]
    intro e he hkey
    exact hnone e ((hleft _).subset he) (of_decide_eq_true hkey)
  · rw [heq]
    exact Layout.wellFormed_of_sublist htable hleft

end Intern

/-- A cache that `rt_intern_hash` can build. -/
structure Cache (seed : Seed) where
  table : Table
  wellFormed : (layout seed).WellFormed table

def Cache.empty (seed : Seed) : Cache seed :=
  ⟨fun _ => [], Layout.wellFormed_empty _⟩

/-- `rt_intern_hash`, at the bucket of the key. -/
def Cache.intern {seed : Seed} (cache : Cache seed) (moment : ℕ → Moment)
    (attempts : ℕ) (rt : Rtable) : Except Errno Rtable × Cache seed :=
  ((rtInternHash moment (rt.fl.bucket seed) rt attempts cache.table).1,
    ⟨(rtInternHash moment (rt.fl.bucket seed) rt attempts cache.table).2,
      wellFormed_rtInternHash cache.wellFormed rfl⟩)

end RouteCache
