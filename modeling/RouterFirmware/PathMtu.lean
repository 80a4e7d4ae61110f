import RouterFirmware.GuardedRun
import RouterFirmware.InputRoutes

/-! # The MTU of a path

A router on the way that cannot pass a packet on says so, and the entries of the route cache for
that way are given a smaller MTU, for some time. Routers that do not tell what fits are met with a
guess. The MTU does not go below `ip_rt_min_pmtu`: there it is locked. -/
namespace PathMtu

open BucketTable RouteCache

/-- An `rtable` with what the discovery reads and writes; `mtu` is `metrics[RTAX_MTU - 1]`, `locked`
the bit of the MTU in `metrics[RTAX_LOCK - 1]`. -/
structure Path where
  rt : Rtable
  rtDst : UInt32
  rtSrc : UInt32
  mtu : ℕ
  locked : Bool
  expires : UInt64
  deriving DecidableEq

abbrev Table := UInt32 → List Path

def layout (seed : Seed) : Layout UInt32 Flowi Path := ⟨Flowi.bucket seed, fun p => p.rt.fl⟩

/-- `ip_rt_min_pmtu`, `ip_rt_mtu_expires` and `ipv4_config.no_pmtu_disc`. -/
structure Sysctl where
  minPmtu : ℕ
  mtuExpires : UInt64
  noPmtuDisc : Bool

/-- The header that comes back, `ihl` in words. -/
structure IpHdr where
  saddr : UInt32
  daddr : UInt32
  tos : UInt8
  ihl : ℕ
  totLen : ℕ

def mtuPlateau : List ℕ := [32000, 17914, 8166, 4352, 2002, 1492, 576, 296, 216, 128]

def guessMtu (oldMtu : ℕ) : ℕ := (mtuPlateau.find? fun p => p < oldMtu).getD 68

def timeBefore (a b : UInt64) : Bool := (a - b).toBitVec.msb

def dstSetExpires (jiffies timeout : UInt64) (p : Path) : Path :=
  let expires := if jiffies + timeout = 0 then 1 else jiffies + timeout
  { p with expires := if p.expires = 0 ∨ timeBefore expires p.expires then expires else p.expires }

/-- The MTU becomes `mtu`, or the least one, where it is locked. -/
def lower (sysctl : Sysctl) (jiffies : UInt64) (least mtu : ℕ) (p : Path) : Path :=
  dstSetExpires jiffies sysctl.mtuExpires
    { p with
      mtu := if mtu < sysctl.minPmtu then least else mtu
      locked := p.locked || decide (mtu < sysctl.minPmtu) }

/-- An entry for packets like the one that came back, from any source where `skey` is 0. -/
def Concerns (iph : IpHdr) (skey : UInt32) (p : Path) : Prop :=
  p.rt.fl.daddr = iph.daddr ∧ p.rt.fl.saddr = skey ∧ p.rtDst = iph.daddr ∧ p.rtSrc = iph.saddr ∧
    p.rt.fl.tos = iph.tos &&& InputRoutes.iptosRtMask ∧ p.rt.fl.iif = 0 ∧ p.locked = false

instance (iph : IpHdr) (skey : UInt32) (p : Path) : Decidable (Concerns iph skey p) :=
  inferInstanceAs (Decidable (_ ∧ _ ∧ _ ∧ _ ∧ _ ∧ _ ∧ _))

/-- `old_mtu` and `est_mtu`, which the loops carry on. -/
structure Estimate where
  oldMtu : ℕ
  estMtu : ℕ

/-- BSD 4.2 counts the header twice. -/
def hackedOldMtu (iph : IpHdr) (newMtu : ℕ) (e : Estimate) (p : Path) : ℕ :=
  if newMtu = 0 ∧ p.mtu ≤ e.oldMtu ∧ 68 + iph.ihl * 4 ≤ e.oldMtu then e.oldMtu - iph.ihl * 4
  else e.oldMtu

def fragEntry (sysctl : Sysctl) (jiffies : UInt64) (iph : IpHdr) (newMtu : ℕ) (skey : UInt32)
    (e : Estimate) (p : Path) : Estimate × Path :=
  if Concerns iph skey p then
    let guessed := newMtu < 68 ∨ e.oldMtu ≤ newMtu
    let oldMtu := if guessed then hackedOldMtu iph newMtu e p else e.oldMtu
    let mtu := if guessed then guessMtu oldMtu else newMtu
    if mtu < p.mtu then
      let least := sysctl.minPmtu % 65536
      (⟨oldMtu, if mtu < sysctl.minPmtu then least else mtu⟩, lower sysctl jiffies least mtu p)
    else (⟨oldMtu, if mtu = p.mtu then mtu else e.estMtu⟩, p)
  else (e, p)

def fragChain (sysctl : Sysctl) (jiffies : UInt64) (iph : IpHdr) (newMtu : ℕ) (skey : UInt32) :
    Estimate → List Path → Estimate × List Path
  | e, [] => (e, [])
  | e, p :: chain =>
    let (e, p) := fragEntry sysctl jiffies iph newMtu skey e p
    let (e, chain) := fragChain sysctl jiffies iph newMtu skey e chain
    (e, p :: chain)

def fragKey (seed : Seed) (sysctl : Sysctl) (jiffies : UInt64) (iph : IpHdr) (newMtu : ℕ)
    (s : Estimate × Table) (skey : UInt32) : Estimate × Table :=
  let hash := rtHashCode seed iph.daddr skey (iph.tos &&& InputRoutes.iptosRtMask)
  let (e, chain) := fragChain sysctl jiffies iph newMtu skey s.1 (s.2 hash)
  (e, Function.update s.2 hash chain)

def fragKeys (seed : Seed) (sysctl : Sysctl) (jiffies : UInt64) (iph : IpHdr) (newMtu : ℕ)
    (skeys : List UInt32) (table : Table) : Estimate × Table :=
  skeys.foldl (fragKey seed sysctl jiffies iph newMtu) (⟨iph.totLen, 0⟩, table)

/-- `est_mtu ? : new_mtu`, and the table. -/
def estimated (newMtu : ℕ) (s : Estimate × Table) : ℕ × Table :=
  (if s.1.estMtu ≠ 0 then s.1.estMtu else newMtu, s.2)

def ipRtFragNeeded (seed : Seed) (sysctl : Sysctl) (jiffies : UInt64) (iph : IpHdr) (newMtu : ℕ)
    (table : Table) : ℕ × Table :=
  if sysctl.noPmtuDisc then (0, table)
  else estimated newMtu (fragKeys seed sysctl jiffies iph newMtu [iph.saddr, 0] table)

/-- `ip_rt_update_pmtu` on one entry. -/
def ipRtUpdatePmtu (sysctl : Sysctl) (jiffies : UInt64) (mtu : ℕ) (p : Path) : Path :=
  if mtu < p.mtu ∧ 68 ≤ mtu ∧ p.locked = false then lower sysctl jiffies sysctl.minPmtu mtu p
  else p

/-- The table, and the entries as they came into it. -/
structure State where
  table : Table
  born : List Path

/-- `intern` puts a new entry in front, `front` an old one; `keep` is what a flush, a collection or
a redirect leaves. -/
inductive Event where
  | intern (i : UInt32) (p : Path)
  | front (i : UInt32) (p : Path)
  | keep (kept : UInt32 → Path → Bool)
  | fragNeeded (jiffies : UInt64) (iph : IpHdr) (newMtu : ℕ)
  | updatePmtu (jiffies : UInt64) (id : ℕ) (mtu : ℕ)

def step (seed : Seed) (sysctl : Sysctl) (s : State) : Event → State
  | .intern i p => ⟨Function.update s.table i (p :: s.table i), p :: s.born⟩
  | .front i p =>
    if p ∈ s.table i then
      { s with table := Function.update s.table i (p :: (s.table i).erase p) }
    else s
  | .keep kept => { s with table := fun i => (s.table i).filter (kept i) }
  | .fragNeeded jiffies iph newMtu =>
    { s with table := (ipRtFragNeeded seed sysctl jiffies iph newMtu s.table).2 }
  | .updatePmtu jiffies id mtu =>
    { s with table := fun i => (s.table i).map fun p =>
        if p.rt.id = id then ipRtUpdatePmtu sysctl jiffies mtu p else p }

def initial : State := ⟨fun _ => [], []⟩

section Bounds

variable {seed : Seed} {sysctl : Sysctl} {jiffies : UInt64} {m mtu newMtu : ℕ} {p q r : Path}
  {iph : IpHdr} {e : Estimate} {skey : UInt32} {s : State}

/-- What may become of an entry while it is in the table. -/
structure Bounded (m : ℕ) (p q : Path) : Prop where
  same : q.rt = p.rt ∧ q.rtDst = p.rtDst ∧ q.rtSrc = p.rtSrc
  frozen : p.locked = true → q = p
  low : min p.mtu m ≤ q.mtu
  high : q.mtu ≤ max p.mtu m
  grown : p.mtu < q.mtu → q.mtu = m ∧ q.locked = true

theorem Bounded.refl (m : ℕ) (p : Path) : Bounded m p p :=
  ⟨⟨rfl, rfl, rfl⟩, fun _ => rfl, Nat.min_le_left _ _, Nat.le_max_left _ _,
    fun h => absurd h (Nat.lt_irrefl _)⟩

theorem Bounded.trans (h : Bounded m p q) (g : Bounded m q r) : Bounded m p r := by
  refine ⟨⟨g.same.1.trans h.same.1, g.same.2.1.trans h.same.2.1, g.same.2.2.trans h.same.2.2⟩,
    fun hl => ?_, ?_, ?_, fun hless => ?_⟩
  · have hq := h.frozen hl
    exact (g.frozen (hq ▸ hl)).trans hq
  · have := h.low
    have := g.low
    omega
  · have := h.high
    have := g.high
    omega
  · by_cases hgrow : q.mtu < r.mtu
    · exact g.grown hgrow
    · obtain ⟨hq, hl⟩ := h.grown (Nat.lt_of_lt_of_le hless (Nat.not_lt.mp hgrow))
      exact g.frozen hl ▸ ⟨hq, hl⟩

theorem lower_bounded (hless : mtu < p.mtu) (hfree : p.locked = false) :
    Bounded sysctl.minPmtu p (lower sysctl jiffies sysctl.minPmtu mtu p) := by
  have hmtu : (lower sysctl jiffies sysctl.minPmtu mtu p).mtu =
      if mtu < sysctl.minPmtu then sysctl.minPmtu else mtu := rfl
  refine ⟨⟨rfl, rfl, rfl⟩, fun hl => ?_, ?_, ?_, fun hgrow => ?_⟩
  · rw [hfree] at hl
    cases hl
  · rw [hmtu]
    split <;> omega
  · rw [hmtu]
    split <;> omega
  · rw [hmtu] at hgrow ⊢
    split at hgrow
    · rename_i hsmall
      exact ⟨if_pos hsmall, by simp [lower, dstSetExpires, hsmall]⟩
    · omega

theorem updatePmtu_bounded : Bounded sysctl.minPmtu p (ipRtUpdatePmtu sysctl jiffies mtu p) := by
  rw [ipRtUpdatePmtu]
  split
  · rename_i h
    exact lower_bounded h.1 h.2.2
  · exact Bounded.refl _ _

/-- What an entry that is concerned is given, whatever the estimate came to. -/
theorem lowered_bounded (hfree : p.locked = false) (e e' : Estimate) :
    Bounded sysctl.minPmtu p
      (if mtu < p.mtu then (e, lower sysctl jiffies sysctl.minPmtu mtu p) else (e', p)).2 := by
  split
  · rename_i hless
    exact lower_bounded hless hfree
  · exact Bounded.refl _ _

theorem fragEntry_bounded (hmin : sysctl.minPmtu < 65536) :
    Bounded sysctl.minPmtu p (fragEntry sysctl jiffies iph newMtu skey e p).2 := by
  rw [fragEntry, Nat.mod_eq_of_lt hmin]
  split
  · rename_i hconcerns
    exact lowered_bounded hconcerns.2.2.2.2.2.2 _ _
  · exact Bounded.refl _ _

theorem fragChain_bounded (hmin : sysctl.minPmtu < 65536) {chain : List Path}
    (hq : q ∈ (fragChain sysctl jiffies iph newMtu skey e chain).2) :
    ∃ p ∈ chain, Bounded sysctl.minPmtu p q := by
  induction chain generalizing e with
  | nil => cases hq
  | cons p chain ih =>
    rcases List.mem_cons.mp hq with rfl | hq
    · exact ⟨p, List.mem_cons_self, fragEntry_bounded hmin⟩
    · obtain ⟨p', hp', hbounded⟩ := ih hq
      exact ⟨p', List.mem_cons_of_mem p hp', hbounded⟩

/-- Every entry of the second table is what became of an entry of the first. -/
def Follows (m : ℕ) (t t' : Table) : Prop := ∀ i, ∀ q ∈ t' i, ∃ p ∈ t i, Bounded m p q

theorem Follows.refl (m : ℕ) (t : Table) : Follows m t t :=
  fun _ q hq => ⟨q, hq, Bounded.refl m q⟩

theorem Follows.trans {t u v : Table} (h : Follows m t u) (g : Follows m u v) : Follows m t v := by
  intro i r hr
  obtain ⟨q, hq, hqr⟩ := g i r hr
  obtain ⟨p, hp, hpq⟩ := h i q hq
  exact ⟨p, hp, hpq.trans hqr⟩

theorem fragKey_follows (hmin : sysctl.minPmtu < 65536) (x : Estimate × Table) :
    Follows sysctl.minPmtu x.2 (fragKey seed sysctl jiffies iph newMtu x skey).2 := by
  intro i q hq
  by_cases hi : i = rtHashCode seed iph.daddr skey (iph.tos &&& InputRoutes.iptosRtMask)
  · subst i
    simp only [fragKey, Function.update_self] at hq
    exact fragChain_bounded hmin hq
  · simp only [fragKey, Function.update_of_ne hi] at hq
    exact ⟨q, hq, Bounded.refl _ q⟩

theorem foldl_fragKey_follows (hmin : sysctl.minPmtu < 65536) (skeys : List UInt32)
    (x : Estimate × Table) :
    Follows sysctl.minPmtu x.2
      (skeys.foldl (fragKey seed sysctl jiffies iph newMtu) x).2 := by
  induction skeys generalizing x with
  | nil => exact Follows.refl _ _
  | cons skey skeys ih => exact (fragKey_follows hmin x).trans (ih _)

theorem estimated_snd (x : Estimate × Table) : (estimated newMtu x).2 = x.2 :=
  rfl

theorem fragKeys_follows (hmin : sysctl.minPmtu < 65536) {skeys : List UInt32} {t : Table} :
    Follows sysctl.minPmtu t (fragKeys seed sysctl jiffies iph newMtu skeys t).2 :=
  foldl_fragKey_follows hmin skeys (⟨iph.totLen, 0⟩, t)

theorem ipRtFragNeeded_snd (hdisc : sysctl.noPmtuDisc = false) (t : Table) :
    (ipRtFragNeeded seed sysctl jiffies iph newMtu t).2 =
      (fragKeys seed sysctl jiffies iph newMtu [iph.saddr, 0] t).2 := by
  have hneg : ¬sysctl.noPmtuDisc = true := by simp [hdisc]
  rw [ipRtFragNeeded, if_neg hneg, estimated_snd]

theorem fragNeeded_follows (hmin : sysctl.minPmtu < 65536) (t : Table) :
    Follows sysctl.minPmtu t (ipRtFragNeeded seed sysctl jiffies iph newMtu t).2 := by
  cases hdisc : sysctl.noPmtuDisc with
  | true =>
    rw [ipRtFragNeeded, if_pos hdisc]
    exact Follows.refl _ _
  | false =>
    rw [ipRtFragNeeded_snd hdisc]
    exact fragKeys_follows hmin

/-- The entries of the table have become what they are from what they were. -/
def Sprung (m : ℕ) (s : State) : Prop := ∀ i, ∀ q ∈ s.table i, ∃ p ∈ s.born, Bounded m p q

theorem Sprung.follow (hs : Sprung m s) {t : Table} (h : Follows m s.table t) :
    Sprung m { s with table := t } := by
  intro i q hq
  obtain ⟨p, hp, hpq⟩ := h i q hq
  obtain ⟨b, hb, hbp⟩ := hs i p hp
  exact ⟨b, hb, hbp.trans hpq⟩

theorem follows_of_subset {t u : Table} (h : ∀ i, u i ⊆ t i) : Follows m t u :=
  fun i q hq => ⟨q, h i hq, Bounded.refl m q⟩

theorem step_sprung (hmin : sysctl.minPmtu < 65536) (hs : Sprung sysctl.minPmtu s) (e : Event) :
    Sprung sysctl.minPmtu (step seed sysctl s e) := by
  cases e with
  | intern i p =>
    intro j q hq
    by_cases hj : j = i
    · subst j
      simp only [step, Function.update_self, List.mem_cons] at hq
      rcases hq with rfl | hq
      · exact ⟨q, List.mem_cons_self, Bounded.refl _ q⟩
      · obtain ⟨b, hb, hbq⟩ := hs i q hq
        exact ⟨b, List.mem_cons_of_mem _ hb, hbq⟩
    · simp only [step, Function.update_of_ne hj] at hq
      obtain ⟨b, hb, hbq⟩ := hs j q hq
      exact ⟨b, List.mem_cons_of_mem _ hb, hbq⟩
  | front i p =>
    simp only [step]
    split
    · rename_i hp
      refine hs.follow (follows_of_subset fun j q hq => ?_)
      by_cases hj : j = i
      · subst j
        rw [Function.update_self] at hq
        exact (List.perm_cons_erase hp).mem_iff.mpr hq
      · rwa [Function.update_of_ne hj] at hq
    · exact hs
  | keep kept => exact hs.follow (follows_of_subset fun _ => List.filter_subset_self _)
  | fragNeeded jiffies iph newMtu => exact hs.follow (fragNeeded_follows hmin _)
  | updatePmtu jiffies id mtu =>
    refine hs.follow fun i q hq => ?_
    obtain ⟨p, hp, rfl⟩ := List.mem_map.mp hq
    refine ⟨p, hp, ?_⟩
    split
    · exact updatePmtu_bounded
    · exact Bounded.refl _ p

/-- In every run the MTU of an entry that is in the table lies between what it was when the entry
came in and the least one; it has only grown where it came in below the least one, and is locked
there; and a locked entry does not change. -/
theorem mtu_bounds (seed : Seed) (sysctl : Sysctl) (hmin : sysctl.minPmtu < 65536)
    (es : List Event) :
    let s := es.foldl (step seed sysctl) initial
    ∀ i, ∀ q ∈ s.table i, ∃ p ∈ s.born, q.rt = p.rt ∧ min p.mtu sysctl.minPmtu ≤ q.mtu ∧
      q.mtu ≤ max p.mtu sysctl.minPmtu ∧
      (p.mtu < q.mtu → q.mtu = sysctl.minPmtu ∧ q.locked = true) ∧ (p.locked = true → q = p) := by
  intro s i q hq
  have hs : Sprung sysctl.minPmtu s :=
    GuardedRun.foldl_invariant (fun _ e h => step_sprung hmin h e) fun _ q hq => by cases hq
  obtain ⟨p, hp, hbounded⟩ := hs i q hq
  exact ⟨p, hp, hbounded.same.1, hbounded.low, hbounded.high, hbounded.grown, hbounded.frozen⟩

/-- The message names less than the least MTU, and the entry came in with less than that as well:
it is raised. -/
theorem mtu_bounds_raised :
    let sysctl : Sysctl := ⟨552, 600000, false⟩
    let p : Path := ⟨⟨1, ⟨1, 2, 0, 0, 0, 0, 0, 0⟩, 1, .unicast⟩, 1, 2, 300, false, 0⟩
    let s := [Event.intern 0 p, .updatePmtu 5000 1 200].foldl (step ⟨0, 4095⟩ sysctl) initial
    s.table 0 = [{ p with mtu := 552, locked := true, expires := 605000 }] ∧
      ∃ b ∈ s.born, min b.mtu 552 ≤ 552 ∧ 552 ≤ max b.mtu 552 := by
  intro sysctl p s
  have hchain : s.table 0 = [{ p with mtu := 552, locked := true, expires := 605000 }] := by
    decide +kernel
  obtain ⟨b, hb, -, hlow, hhigh, -⟩ := mtu_bounds ⟨0, 4095⟩ sysctl (by decide)
    [.intern 0 p, .updatePmtu 5000 1 200] 0 _ (hchain ▸ List.mem_singleton_self _)
  exact ⟨hchain, b, hb, hlow, hhigh⟩

end Bounds

section Effect

variable {seed : Seed} {sysctl : Sysctl} {jiffies : UInt64} {least newMtu : ℕ} {p : Path}
  {iph : IpHdr} {e : Estimate} {skey : UInt32} {chain : List Path}

def turnBucket (seed : Seed) (iph : IpHdr) (skey : UInt32) : UInt32 :=
  rtHashCode seed iph.daddr skey (iph.tos &&& InputRoutes.iptosRtMask)

/-- What a message that tells what fits makes of an entry, where those of `c` are walked. -/
def lowerWhere (sysctl : Sysctl) (jiffies : UInt64) (newMtu : ℕ) (c : Path → Prop)
    [DecidablePred c] (p : Path) : Path :=
  if c p ∧ newMtu < p.mtu then lower sysctl jiffies (sysctl.minPmtu % 65536) newMtu p else p

/-- The entries that a message reaches: those in one of the two chains that are walked. -/
def Reached (seed : Seed) (iph : IpHdr) (p : Path) : Prop :=
  ∃ skey ∈ [iph.saddr, 0], p.rt.fl.bucket seed = turnBucket seed iph skey ∧ Concerns iph skey p

instance : Decidable (Reached seed iph p) :=
  inferInstanceAs (Decidable (∃ skey ∈ [iph.saddr, 0], _ ∧ _))

/-- Where the message tells what fits, the packet's length is not touched. -/
theorem fragEntry_told (h68 : 68 ≤ newMtu) (hfits : newMtu < e.oldMtu) :
    (fragEntry sysctl jiffies iph newMtu skey e p).1.oldMtu = e.oldMtu ∧
      (fragEntry sysctl jiffies iph newMtu skey e p).2 =
        lowerWhere sysctl jiffies newMtu (Concerns iph skey) p := by
  have htold : ¬(newMtu < 68 ∨ e.oldMtu ≤ newMtu) := by omega
  simp only [fragEntry, lowerWhere, htold, if_false]
  by_cases hconcerns : Concerns iph skey p
  · by_cases hless : newMtu < p.mtu <;> simp [hconcerns, hless]
  · simp [hconcerns]

variable (sysctl jiffies iph skey) in
theorem fragChain_told (h68 : 68 ≤ newMtu) (hfits : newMtu < e.oldMtu) (chain : List Path) :
    (fragChain sysctl jiffies iph newMtu skey e chain).1.oldMtu = e.oldMtu ∧
      (fragChain sysctl jiffies iph newMtu skey e chain).2 =
        chain.map (lowerWhere sysctl jiffies newMtu (Concerns iph skey)) := by
  induction chain generalizing e with
  | nil => exact ⟨rfl, rfl⟩
  | cons p chain ih =>
    obtain ⟨hold, hp⟩ := fragEntry_told (p := p) h68 hfits
    obtain ⟨hold', hchain⟩ := ih (hold ▸ hfits)
    exact ⟨hold'.trans hold, by rw [List.map_cons, ← hp, ← hchain]; rfl⟩

theorem map_lowerWhere_congr {c d : Path → Prop} [DecidablePred c] [DecidablePred d]
    (h : ∀ p ∈ chain, (c p ↔ d p)) :
    chain.map (lowerWhere sysctl jiffies newMtu c) =
      chain.map (lowerWhere sysctl jiffies newMtu d) :=
  List.map_congr_left fun p hp => if_congr (and_congr_left fun _ => h p hp) rfl rfl

theorem map_lowerWhere_of_not {c : Path → Prop} [DecidablePred c] (h : ∀ p, ¬c p) :
    chain.map (lowerWhere sysctl jiffies newMtu c) = chain :=
  List.map_id'' (fun p => if_neg fun hc => h p hc.1) chain

variable (seed sysctl jiffies newMtu iph) in
theorem fragKey_told (x : Estimate × Table) (skey i : UInt32) (h68 : 68 ≤ newMtu)
    (hfits : newMtu < x.1.oldMtu) :
    (fragKey seed sysctl jiffies iph newMtu x skey).1.oldMtu = x.1.oldMtu ∧
      (fragKey seed sysctl jiffies iph newMtu x skey).2 i =
        (x.2 i).map (lowerWhere sysctl jiffies newMtu fun p =>
          i = turnBucket seed iph skey ∧ Concerns iph skey p) := by
  obtain ⟨hold, hchain⟩ :=
    fragChain_told sysctl jiffies iph skey h68 hfits (x.2 (turnBucket seed iph skey))
  refine ⟨hold, ?_⟩
  by_cases hi : i = turnBucket seed iph skey
  · subst hi
    refine (Function.update_self ..).trans (hchain.trans (map_lowerWhere_congr fun p _ => ?_))
    exact ⟨fun h => ⟨rfl, h⟩, And.right⟩
  · refine (Function.update_of_ne hi ..).trans (map_lowerWhere_of_not fun p h => ?_).symm
    exact hi h.1

theorem lower_done (hfree : (lower sysctl jiffies least newMtu p).locked = false) :
    ¬newMtu < (lower sysctl jiffies least newMtu p).mtu := by
  by_cases hsmall : newMtu < sysctl.minPmtu
  · simp [lower, dstSetExpires, hsmall] at hfree
  · simp [lower, dstSetExpires, hsmall]

theorem lowerWhere_lowerWhere {c d : Path → Prop} [DecidablePred c] [DecidablePred d]
    (hd : ∀ p, d p → p.locked = false) (p : Path) :
    lowerWhere sysctl jiffies newMtu d (lowerWhere sysctl jiffies newMtu c p) =
      lowerWhere sysctl jiffies newMtu (fun p => c p ∨ d p) p := by
  by_cases hc : c p ∧ newMtu < p.mtu
  · have hfirst : lowerWhere sysctl jiffies newMtu c p =
        lower sysctl jiffies (sysctl.minPmtu % 65536) newMtu p := if_pos hc
    have hboth : lowerWhere sysctl jiffies newMtu (fun p => c p ∨ d p) p =
        lower sysctl jiffies (sysctl.minPmtu % 65536) newMtu p := if_pos ⟨.inl hc.1, hc.2⟩
    rw [hfirst, hboth]
    exact if_neg fun h => lower_done (hd _ h.1) h.2
  · have hfirst : lowerWhere sysctl jiffies newMtu c p = p := if_neg hc
    rw [hfirst]
    refine if_congr ⟨fun h => ⟨.inr h.1, h.2⟩, fun ⟨hcd, hless⟩ => ?_⟩ rfl rfl
    exact ⟨hcd.resolve_left fun h => hc ⟨h, hless⟩, hless⟩

theorem fragKeys_pair (t : Table) (skey skey' : UInt32) :
    fragKeys seed sysctl jiffies iph newMtu [skey, skey'] t =
      fragKey seed sysctl jiffies iph newMtu
        (fragKey seed sysctl jiffies iph newMtu (⟨iph.totLen, 0⟩, t) skey) skey' := by
  rw [fragKeys, List.foldl_cons, List.foldl_cons, List.foldl_nil]

theorem fragKeys_told (h68 : 68 ≤ newMtu) (hfits : newMtu < iph.totLen) (t : Table)
    (skey skey' i : UInt32) :
    (fragKeys seed sysctl jiffies iph newMtu [skey, skey'] t).2 i =
      (t i).map (lowerWhere sysctl jiffies newMtu fun p =>
        (i = turnBucket seed iph skey ∧ Concerns iph skey p) ∨
          (i = turnBucket seed iph skey' ∧ Concerns iph skey' p)) := by
  obtain ⟨hold, hfirst⟩ :=
    fragKey_told seed sysctl jiffies newMtu iph (⟨iph.totLen, 0⟩, t) skey i h68 hfits
  obtain ⟨-, hsecond⟩ := fragKey_told seed sysctl jiffies newMtu iph _ skey' i h68
    (Nat.lt_of_lt_of_eq hfits hold.symm)
  rw [fragKeys_pair, hsecond, hfirst, List.map_map]
  refine List.map_congr_left fun p _ => lowerWhere_lowerWhere (fun p h => ?_) p
  exact h.2.2.2.2.2.2.2

theorem reached_iff : Reached seed iph p ↔
    (p.rt.fl.bucket seed = turnBucket seed iph iph.saddr ∧ Concerns iph iph.saddr p) ∨
      (p.rt.fl.bucket seed = turnBucket seed iph 0 ∧ Concerns iph 0 p) := by
  simp [Reached]

/-- The key of an entry that is bound to no interface hashes as the loop does. -/
theorem Concerns.bucket_eq (h : Concerns iph skey p) (hoif : p.rt.fl.oif = 0) :
    p.rt.fl.bucket seed = turnBucket seed iph skey := by
  obtain ⟨hdst, hsrc, -, -, htos, hiif, -⟩ := h
  simp [Flowi.bucket, turnBucket, hdst, hsrc, htos, hiif, hoif]

variable (seed sysctl jiffies newMtu iph) in
/-- A message that tells what fits gives it to all entries that it reaches and that have more, and
leaves the rest of the table alone. Entries for packets of a bound interface are reached only where
the hash is the same by chance; all others are. -/
theorem frag_needed_effect {t : Table} (hwf : (layout seed).WellFormed t)
    (hdisc : sysctl.noPmtuDisc = false) (h68 : 68 ≤ newMtu) (hfits : newMtu < iph.totLen) :
    (∀ i, (ipRtFragNeeded seed sysctl jiffies iph newMtu t).2 i =
      (t i).map (lowerWhere sysctl jiffies newMtu (Reached seed iph))) ∧
      ∀ p, p.rt.fl.oif = 0 →
        (Reached seed iph p ↔ Concerns iph iph.saddr p ∨ Concerns iph 0 p) := by
  refine ⟨fun i => ?_, fun p hoif => ?_⟩
  · rw [ipRtFragNeeded_snd hdisc, fragKeys_told h68 hfits]
    refine map_lowerWhere_congr fun p hp => ?_
    have hbucket : p.rt.fl.bucket seed = i := hwf.hashed i p hp
    rw [reached_iff, hbucket]
  · rw [reached_iff]
    refine or_congr ⟨And.right, fun h => ⟨h.bucket_eq hoif, h⟩⟩ ⟨And.right, fun h => ?_⟩
    exact ⟨h.bucket_eq hoif, h⟩

/-- Two flows to one host, the second bound to an interface: only the first is told. -/
theorem frag_needed_effect_two :
    let sysctl : Sysctl := ⟨552, 600000, false⟩
    let p : Path := ⟨⟨1, ⟨1, 2, 0, 0, 0, 0, 0, 0⟩, 1, .unicast⟩, 1, 2, 1500, false, 0⟩
    let q : Path := ⟨⟨2, ⟨1, 2, 0, 0, 0, 0, 3, 0⟩, 3, .unicast⟩, 1, 2, 1500, false, 0⟩
    let L := layout ⟨0, 4095⟩
    let t := L.insert (L.insert (fun _ => []) p) q
    let t' := (ipRtFragNeeded ⟨0, 4095⟩ sysctl 5000 ⟨2, 1, 0, 5, 1500⟩ 1400 t).2
    t' (L.hash p.rt.fl) = [{ p with mtu := 1400, expires := 605000 }] ∧
      t' (L.hash q.rt.fl) = [q] := by
  intro sysctl p q L t t'
  have hwf : L.WellFormed t := by
    refine Layout.wellFormed_insert (Layout.wellFormed_insert (Layout.wellFormed_empty L) ?_) ?_
    · decide +kernel
    · decide +kernel
  have heffect := (frag_needed_effect ⟨0, 4095⟩ sysctl 5000 1400 ⟨2, 1, 0, 5, 1500⟩ hwf rfl
    (by decide) (by decide)).1
  refine ⟨(heffect _).trans ?_, (heffect _).trans ?_⟩
  · decide +kernel
  · decide +kernel

end Effect

end PathMtu
