import Mathlib.Data.List.Induction
import RouterFirmware.EspPassThrough

/-! # The entries of the ESP table

Once an entry is in use, its number and its local half stay as the first packet of its host made
them, until it is destroyed.
-/
namespace EspEntries

open EspPassThrough

def localPair (e : EspEntry) : UInt32 × UInt32 := (e.lIp, e.lSpi)

/-- The entries have the numbers of their places, and each host and SPI has one of them. The remote
half is filled in only where there is a local SPI. -/
structure Represents (t : EspTable) : Prop where
  numbered : ∀ i, (t.entry i).inuse = true → (t.entry i).tspi = tempSpi i
  oneWay : ∀ i, (t.entry i).lSpi = 0 ∨ (t.entry i).inuse = false → (t.entry i).rSpi = 0
  distinct : ∀ i j, (t.entry i).inuse = true → (t.entry j).inuse = true →
    localPair (t.entry i) = localPair (t.entry j) → i = j

/-- The table after the `memset` of `ip_ct_proto_esp_init`. -/
def emptyTable : EspTable := ⟨fun _ => .zero, 0⟩

/-- The entry `i` is taken for the packet. -/
structure Allocates (t t' : EspTable) (i : Fin 256) (p : Packet) : Prop where
  fromLan : p.fromLan = true
  free : (t.entry i).inuse = false
  new : ∀ j, (t.entry j).inuse = true → localPair (t.entry j) ≠ (p.saddr, p.spi)
  entry : t'.entry = Function.update t.entry i { t.entry i with
    tspi := tempSpi i, inuse := true, lSpi := p.spi, lIp := p.saddr, seq := p.seq }

/-- The entries stay as they are, apart from a remote half with a local SPI. -/
structure Keeps (t t' : EspTable) : Prop where
  inuse : ∀ i, (t'.entry i).inuse = (t.entry i).inuse
  tspi : ∀ i, (t'.entry i).tspi = (t.entry i).tspi
  localPair : ∀ i, localPair (t'.entry i) = localPair (t.entry i)
  rSpi : ∀ i, (t.entry i).lSpi = 0 ∨ (t.entry i).inuse = false →
    (t'.entry i).rSpi = (t.entry i).rSpi

section Steps

variable {t t' : EspTable} {p : Packet} {i : Fin 256} {e : Event}

theorem keeps_refl (t : EspTable) : Keeps t t :=
  ⟨fun _ => rfl, fun _ => rfl, fun _ => rfl, fun _ _ => rfl⟩

/-- The second loop takes an entry in use with a local SPI. -/
theorem lSpi_of_taken (h : Represents t) (htaken : taken t.curSpi p (t.entry i) = true) :
    (t.entry i).inuse = true ∧ (t.entry i).lSpi ≠ 0 := by
  rw [taken, Bool.and_eq_true] at htaken
  obtain ⟨hinuse, htest⟩ := htaken
  refine ⟨hinuse, fun hl => ?_⟩
  have hr : (t.entry i).rSpi = 0 := h.oneWay i (.inl hl)
  simp [hl, hr] at htest

theorem pair_local {e : EspEntry} (hl : e.lSpi ≠ 0) (p : Packet) :
    (e.pair p).inuse = e.inuse ∧ (e.pair p).tspi = e.tspi ∧
      localPair (e.pair p) = localPair e := by
  rw [EspEntry.pair]
  split
  · exact ⟨rfl, rfl, rfl⟩
  · exact ⟨rfl, rfl, rfl⟩

theorem keeps_pair (h : Represents t) (htaken : taken t.curSpi p (t.entry i) = true) :
    Keeps t (t.pair i p) := by
  obtain ⟨hinuse, hl⟩ := lSpi_of_taken h htaken
  obtain ⟨hinuse', htspi, hlocal⟩ := pair_local hl p
  have hself : (t.pair i p).entry i = (t.entry i).pair p := Function.update_self ..
  have hother : ∀ j, j ≠ i → (t.pair i p).entry j = t.entry j := fun j hj =>
    Function.update_of_ne hj ..
  refine ⟨fun j => ?_, fun j => ?_, fun j => ?_, fun j hj => ?_⟩
  all_goals rcases eq_or_ne j i with rfl | hne
  · rw [hself, hinuse']
  · rw [hother j hne]
  · rw [hself, htspi]
  · rw [hother j hne]
  · rw [hself, hlocal]
  · rw [hother j hne]
  · rw [hinuse] at hj
    exact absurd hj (by simp [hl])
  · rw [hother j hne]

theorem alloc_cases (t : EspTable) (p : Packet) :
    Keeps t (allocEspEntry t p).1 ∨ ∃ i, Allocates t (allocEspEntry t p).1 i p := by
  rw [allocEspEntry]
  split
  · exact .inl (keeps_refl t)
  · next hlan =>
    split
    · exact .inl (keeps_refl t)
    · next hnone =>
      split
      · exact .inl (keeps_refl t)
      · next i hi =>
        refine .inr ⟨i, by simpa using hlan, by simpa using find?_finRange_eq_some hi, ?_, rfl⟩
        intro j hj heq
        have htest := find?_finRange_eq_none hnone j
        rw [localPair, Prod.mk.injEq] at heq
        simp [hj, heq.1, heq.2] at htest

theorem exec_cases (h : Represents t) (e : Event) : Keeps t (exec t e) ∨
    (∃ i p, e = .packet p ∧ Allocates t (exec t e) i p) ∨
    ∃ i, (exec t e).entry = Function.update t.entry i .zero := by
  cases e with
  | packet p =>
    rw [exec, espPktToTuple]
    rcases search_cases t p with ⟨i, -, heq⟩ | ⟨-, i, htaken, heq⟩ | ⟨-, heq⟩
    · rw [heq]
      exact .inl (keeps_refl t)
    · rw [heq]
      exact .inl (keeps_pair h htaken)
    · rw [heq]
      rcases alloc_cases t p with hkeeps | ⟨i, halloc⟩
      · exact .inl hkeeps
      · exact .inr (.inl ⟨i, p, rfl, halloc⟩)
  | destroy spi =>
    rw [exec, espDestroy]
    split
    · next i _ => exact .inr (.inr ⟨i, rfl⟩)
    · exact .inl (keeps_refl t)

end Steps

section Runs

variable {t t' : EspTable} {p : Packet} {i : Fin 256} {e : Event} {events : List Event}

theorem represents_empty : Represents emptyTable where
  numbered _ h := by cases h
  oneWay _ _ := rfl
  distinct _ _ h := by cases h

theorem Keeps.represents (hkeeps : Keeps t t') (h : Represents t) : Represents t' where
  numbered i hi := by
    rw [hkeeps.inuse] at hi
    rw [hkeeps.tspi]
    exact h.numbered i hi
  oneWay i hi := by
    have hlSpi : (t'.entry i).lSpi = (t.entry i).lSpi :=
      congrArg Prod.snd (hkeeps.localPair i)
    rw [hlSpi, hkeeps.inuse] at hi
    rw [hkeeps.rSpi i hi]
    exact h.oneWay i hi
  distinct i j hi hj heq := by
    rw [hkeeps.inuse] at hi hj
    rw [hkeeps.localPair, hkeeps.localPair] at heq
    exact h.distinct i j hi hj heq

/-- A new entry has the number of its place, and its pair is no other entry's. -/
theorem Allocates.represents (halloc : Allocates t t' i p) (h : Represents t) : Represents t' := by
  have hself : t'.entry i = { t.entry i with
      tspi := tempSpi i, inuse := true, lSpi := p.spi, lIp := p.saddr, seq := p.seq } := by
    rw [halloc.entry, Function.update_self]
  have hother : ∀ j, j ≠ i → t'.entry j = t.entry j := fun j hj => by
    rw [halloc.entry, Function.update_of_ne hj]
  have hpair : localPair (t'.entry i) = (p.saddr, p.spi) := by rw [hself]; rfl
  refine ⟨fun j hj => ?_, fun j hj => ?_, fun j k hj hk heq => ?_⟩
  · rcases eq_or_ne j i with rfl | hne
    · rw [hself]
    · rw [hother j hne] at hj ⊢
      exact h.numbered j hj
  · rcases eq_or_ne j i with rfl | hne
    · rw [hself]
      exact h.oneWay j (.inr halloc.free)
    · rw [hother j hne] at hj ⊢
      exact h.oneWay j hj
  · rcases eq_or_ne j i with rfl | hji
    · rcases eq_or_ne k j with rfl | hkj
      · rfl
      · rw [hother k hkj] at hk heq
        exact absurd (heq.symm.trans hpair) (halloc.new k hk)
    · rw [hother j hji] at hj heq
      rcases eq_or_ne k i with rfl | hki
      · exact absurd (heq.trans hpair) (halloc.new j hj)
      · rw [hother k hki] at hk heq
        exact h.distinct j k hj hk heq

theorem represents_destroy (h : Represents t)
    (hentry : t'.entry = Function.update t.entry i .zero) : Represents t' := by
  have hself : t'.entry i = .zero := by rw [hentry, Function.update_self]
  have hother : ∀ j, (t'.entry j).inuse = true → t'.entry j = t.entry j := fun j hj => by
    rcases eq_or_ne j i with rfl | hne
    · rw [hself] at hj
      cases hj
    · rw [hentry, Function.update_of_ne hne]
  refine ⟨fun j hj => ?_, fun j hj => ?_, fun j k hj hk heq => ?_⟩
  · have hsame := hother j hj
    rw [hsame] at hj ⊢
    exact h.numbered j hj
  · rcases eq_or_ne j i with rfl | hne
    · rw [hself]
      rfl
    · rw [hentry, Function.update_of_ne hne] at hj ⊢
      exact h.oneWay j hj
  · have hj' := hother j hj
    have hk' := hother k hk
    rw [hj'] at hj heq
    rw [hk'] at hk heq
    exact h.distinct j k hj hk heq

theorem represents_exec (h : Represents t) (e : Event) : Represents (exec t e) := by
  rcases exec_cases h e with hkeeps | ⟨i, p, -, halloc⟩ | ⟨i, hentry⟩
  · exact hkeeps.represents h
  · exact halloc.represents h
  · exact represents_destroy h hentry

theorem represents_run (events : List Event) : Represents (events.foldl exec emptyTable) :=
  GuardedRun.foldl_invariant (fun _ e h => represents_exec h e) represents_empty

/-- An entry that is in use after a call was so before, or the call is a packet of the LAN that
takes it. -/
theorem inuse_exec (h : Represents t) (hi : ((exec t e).entry i).inuse = true) :
    (t.entry i).inuse = true ∧ localPair ((exec t e).entry i) = localPair (t.entry i) ∨
    ∃ p, e = .packet p ∧ Allocates t (exec t e) i p := by
  rcases exec_cases h e with hkeeps | ⟨j, p, rfl, halloc⟩ | ⟨j, hentry⟩
  · rw [hkeeps.inuse] at hi
    exact .inl ⟨hi, hkeeps.localPair i⟩
  · rcases eq_or_ne i j with rfl | hne
    · exact .inr ⟨p, rfl, halloc⟩
    · rw [halloc.entry, Function.update_of_ne hne] at hi ⊢
      exact .inl ⟨hi, rfl⟩
  · rcases eq_or_ne i j with rfl | hne
    · rw [hentry, Function.update_self] at hi
      cases hi
    · rw [hentry, Function.update_of_ne hne] at hi ⊢
      exact .inl ⟨hi, rfl⟩

/-- In the run the entry `i` was taken for a packet of the LAN, and has been in use since. -/
def FromLan (events : List Event) (i : Fin 256) : Prop :=
  ∃ before p after, events = before ++ .packet p :: after ∧
    Allocates (before.foldl exec emptyTable) ((before ++ [.packet p]).foldl exec emptyTable) i p ∧
    ∀ mid, mid <+: after →
      (((before ++ .packet p :: mid).foldl exec emptyTable).entry i).inuse = true ∧
      localPair (((before ++ .packet p :: mid).foldl exec emptyTable).entry i) = (p.saddr, p.spi)

theorem fromLan_concat (h : FromLan events i) (e : Event)
    (hstay : (((events ++ [e]).foldl exec emptyTable).entry i).inuse = true ∧
      localPair (((events ++ [e]).foldl exec emptyTable).entry i) =
        localPair ((events.foldl exec emptyTable).entry i)) : FromLan (events ++ [e]) i := by
  obtain ⟨before, p, after, rfl, halloc, hsince⟩ := h
  refine ⟨before, p, after ++ [e], by simp, halloc, fun mid hmid => ?_⟩
  rcases List.prefix_concat_iff.mp hmid with rfl | hmid
  · have hlast := (hsince after List.prefix_rfl).2
    rw [List.append_assoc, List.cons_append] at hstay
    exact ⟨hstay.1, hstay.2.trans hlast⟩
  · exact hsince mid hmid

theorem fromLan_of_inuse (events : List Event) (i : Fin 256)
    (h : ((events.foldl exec emptyTable).entry i).inuse = true) : FromLan events i := by
  induction events using List.reverseRecOn with
  | nil => cases h
  | append_singleton events e ih =>
    rw [List.foldl_concat] at h
    rcases inuse_exec (represents_run events) h with ⟨hi, hlocal⟩ | ⟨p, rfl, halloc⟩
    · refine fromLan_concat (ih hi) e ?_
      rw [List.foldl_concat]
      exact ⟨h, hlocal⟩
    · refine ⟨events, p, [], rfl, by rwa [List.foldl_concat], fun mid hmid => ?_⟩
      obtain rfl := List.prefix_nil.mp hmid
      rw [List.foldl_concat]
      refine ⟨h, ?_⟩
      rw [halloc.entry, Function.update_self]
      rfl

/-- In every run the entries in use have the numbers of their places, no two of them the same host
and SPI, and each was taken for a packet of the LAN. -/
theorem entries_of_run (events : List Event) :
    (∀ i, ((events.foldl exec emptyTable).entry i).inuse = true →
      ((events.foldl exec emptyTable).entry i).tspi = tempSpi i ∧ FromLan events i) ∧
    ∀ i j, ((events.foldl exec emptyTable).entry i).inuse = true →
      ((events.foldl exec emptyTable).entry j).inuse = true →
      localPair ((events.foldl exec emptyTable).entry i) =
        localPair ((events.foldl exec emptyTable).entry j) → i = j := by
  have hrun := represents_run events
  exact ⟨fun i hi => ⟨hrun.numbered i hi, fromLan_of_inuse events i hi⟩, hrun.distinct⟩

end Runs

end EspEntries
