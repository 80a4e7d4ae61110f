import Mathlib.Logic.Function.Basic
import Mathlib.Data.Fintype.Basic
import Mathlib.Data.List.FinRange
import RouterFirmware.GuardedRun

/-! # ESP pass-through

ESP has no ports, so the connection tracking keeps a table of its own that joins the SPI of a
LAN host with the SPI of its gateway. A host's first packet takes an entry and leaves its
number in `cur_spi`; the next packet with another SPI and another source is taken for the
reply. The packet that fills the remote half may be one of another host.
-/
namespace EspPassThrough

open GuardedRun

/-- `struct _esp_table`, less the field `timeout`, which nothing reads. -/
structure EspEntry where
  lSpi : UInt32
  rSpi : UInt32
  lIp : UInt32
  rIp : UInt32
  tspi : UInt16
  seq : UInt32
  inuse : Bool
  deriving DecidableEq

def EspEntry.zero : EspEntry := ⟨0, 0, 0, 0, 0, 0, false⟩

structure EspTable where
  entry : Fin 256 → EspEntry
  curSpi : UInt16

/-- `TEMP_SPI_START + idx`. -/
def tempSpi (idx : Fin 256) : UInt16 := UInt16.ofNat (1500 + idx.val)

structure Packet where
  /-- `nk_esp_get_dev_idx` gives 0. -/
  fromLan : Bool
  saddr : UInt32
  daddr : UInt32
  spi : UInt32
  seq : UInt32

/-- The test of the first loop of `search_esp_entry_by_spi`. -/
def known (p : Packet) (e : EspEntry) : Bool :=
  e.inuse && ((e.lSpi == p.spi && e.lIp == p.saddr) || (e.rSpi == p.spi && e.rIp == p.saddr))

def taken (curSpi : UInt16) (p : Packet) (e : EspEntry) : Bool :=
  e.inuse &&
    if e.lSpi ≠ 0 ∧ e.rSpi ≠ 0 then
      (e.lSpi == p.spi && e.lIp == p.saddr) || (e.rSpi == p.spi && e.rIp == p.daddr)
    else if e.lSpi ≠ 0 then e.tspi == curSpi && e.lSpi != p.spi && e.lIp != p.saddr
    else if e.rSpi ≠ 0 then e.tspi == curSpi && e.rSpi != p.spi
    else false

def EspEntry.pair (e : EspEntry) (p : Packet) : EspEntry :=
  if e.lSpi ≠ 0 ∧ e.rSpi ≠ 0 then e
  else if e.lSpi ≠ 0 then { e with rSpi := p.spi, rIp := p.saddr }
  else { e with lSpi := p.spi }

def EspTable.pair (t : EspTable) (i : Fin 256) (p : Packet) : EspTable where
  entry := Function.update t.entry i ((t.entry i).pair p)
  curSpi := if (t.entry i).lSpi ≠ 0 ∧ (t.entry i).rSpi ≠ 0 then t.curSpi else 0

def searchEspEntryBySpi (t : EspTable) (p : Packet) : EspTable × Option (Fin 256) :=
  match (List.finRange 256).find? fun i => known p (t.entry i) with
  | some i => (t, some i)
  | none =>
    match (List.finRange 256).find? fun i => taken t.curSpi p (t.entry i) with
    | some i => (t.pair i p, some i)
    | none => (t, none)

/-- `alloc_esp_entry`: only a packet of the LAN gets an entry. -/
def allocEspEntry (t : EspTable) (p : Packet) : EspTable × Option (Fin 256) :=
  if ¬ p.fromLan then (t, none)
  else
    match (List.finRange 256).find? fun i =>
      (t.entry i).inuse && (t.entry i).lSpi == p.spi && (t.entry i).lIp == p.saddr with
    | some i => (t, some i)
    | none =>
      match (List.finRange 256).find? fun i => !(t.entry i).inuse with
      | none => (t, none)
      | some i =>
        (⟨Function.update t.entry i { t.entry i with
            tspi := tempSpi i, inuse := true, lSpi := p.spi, lIp := p.saddr, seq := p.seq },
          tempSpi i⟩, some i)

/-- `esp_pkt_to_tuple`: the entry whose `tspi` becomes the port of the tuple, none when the
packet is dropped. -/
def espPktToTuple (t : EspTable) (p : Packet) : EspTable × Option (Fin 256) :=
  match searchEspEntryBySpi t p with
  | (t', some i) => (t', some i)
  | (t', none) => allocEspEntry t' p

/-- `esp_destroy` for a connection with this number. -/
def espDestroy (t : EspTable) (spi : UInt16) : EspTable :=
  match (List.finRange 256).find? fun i => (t.entry i).inuse && (t.entry i).tspi == spi with
  | some i => { t with entry := Function.update t.entry i .zero }
  | none => t

inductive Event where
  | packet (p : Packet)
  | destroy (spi : UInt16)

def exec (t : EspTable) : Event → EspTable
  | .packet p => (espPktToTuple t p).1
  | .destroy spi => espDestroy t spi

/-! ## Attribution -/

/-- The table, and for every entry the gateways its host has sent ESP to since it was
allocated. -/
structure State where
  table : EspTable
  sent : Fin 256 → List UInt32

def State.initial : State := ⟨⟨fun _ => .zero, 0⟩, fun _ => []⟩

def record (s : State) : Event → Fin 256 → List UInt32
  | .packet p => fun i =>
    if ¬ p.fromLan then s.sent i
    else if ¬ (s.table.entry i).inuse then [p.daddr]
    else if (s.table.entry i).lIp = p.saddr then p.daddr :: s.sent i
    else s.sent i
  | .destroy _ => s.sent

def next (s : State) (e : Event) : State := ⟨exec s.table e, record s e⟩

/-- A packet of a host is never given an entry of another one, and a packet from outside only
the entry of a host that has sent to its source. -/
def Meets (s : State) : Event → Prop
  | .packet p =>
    (p.fromLan = true → ∀ i, (searchEspEntryBySpi s.table p).2 = some i →
      ((searchEspEntryBySpi s.table p).1.entry i).lIp = p.saddr) ∧
    (p.fromLan = false → ∀ i, (espPktToTuple s.table p).2 = some i → p.saddr ∈ s.sent i)
  | .destroy _ => True

/-- An entry that takes the next packet with another SPI and another source for the reply. -/
def Waiting (t : EspTable) (p : Packet) (e : EspEntry) : Prop :=
  e.lSpi ≠ 0 ∧ e.rSpi = 0 ∧ e.tspi = t.curSpi ∧ e.lSpi ≠ p.spi ∧ e.lIp ≠ p.saddr

instance (t : EspTable) (p : Packet) (e : EspEntry) : Decidable (Waiting t p e) :=
  inferInstanceAs (Decidable (_ ∧ _))

/-- A complete entry whose gateway `addr` uses the SPI of the packet. -/
def Crossing (p : Packet) (addr : UInt32) (e : EspEntry) : Prop :=
  e.lSpi ≠ 0 ∧ e.rSpi ≠ 0 ∧ e.rSpi = p.spi ∧ e.rIp = addr

instance (p : Packet) (addr : UInt32) (e : EspEntry) : Decidable (Crossing p addr e) :=
  inferInstanceAs (Decidable (_ ∧ _))

/-- An entry was made for the SPI and the source of the packet before. -/
def Recognized (t : EspTable) (p : Packet) : Prop := ∃ i, known p (t.entry i) = true

instance (t : EspTable) (p : Packet) : Decidable (Recognized t p) :=
  inferInstanceAs (Decidable (∃ i, known p (t.entry i) = true))

/-- What keeps a packet of the LAN off the entry `e` of another host: the host itself is not
recorded there as the gateway, and unless the packet is recognized its destination is not the
gateway of the same SPI and the entry does not wait for a reply. -/
def ApartFromHost (t : EspTable) (p : Packet) (e : EspEntry) : Prop :=
  ¬ (e.rSpi = p.spi ∧ e.rIp = p.saddr) ∧
    (Recognized t p ∨ ¬ Crossing p p.daddr e ∧ ¬ Waiting t p e)

instance (t : EspTable) (p : Packet) (e : EspEntry) : Decidable (ApartFromHost t p e) :=
  inferInstanceAs (Decidable (_ ∧ _))

/-- What keeps a packet from outside off the entry `e`: its source is not the host, and unless
the packet is recognized its destination is not the gateway of the same SPI and an entry that
waits is one of a host that has sent to the source. -/
def ApartFromGateway (t : EspTable) (p : Packet) (sent : List UInt32) (e : EspEntry) : Prop :=
  ¬ (e.lSpi = p.spi ∧ e.lIp = p.saddr) ∧
    (Recognized t p ∨ ¬ Crossing p p.daddr e ∧ (Waiting t p e → p.saddr ∈ sent))

instance (t : EspTable) (p : Packet) (sent : List UInt32) (e : EspEntry) :
    Decidable (ApartFromGateway t p sent e) :=
  inferInstanceAs (Decidable (_ ∧ _))

def Apart (s : State) : Event → Prop
  | .packet p =>
    (p.fromLan = true → ∀ i, (s.table.entry i).inuse = true →
      (s.table.entry i).lIp ≠ p.saddr → ApartFromHost s.table p (s.table.entry i)) ∧
    (p.fromLan = false → ¬ (p.spi = 0 ∧ p.saddr = 0) ∧
      ∀ i, (s.table.entry i).inuse = true →
        ApartFromGateway s.table p (s.sent i) (s.table.entry i))
  | .destroy _ => True

instance (s : State) : (e : Event) → Decidable (Apart s e)
  | .packet _ => inferInstanceAs (Decidable (_ ∧ _))
  | .destroy _ => inferInstanceAs (Decidable True)

/-! ## What a search can do -/

theorem find?_finRange_eq_some {p : Fin 256 → Bool} {i : Fin 256}
    (h : (List.finRange 256).find? p = some i) : p i = true :=
  List.find?_some h

theorem find?_finRange_eq_none {p : Fin 256 → Bool} (h : (List.finRange 256).find? p = none)
    (i : Fin 256) : p i = false := by
  simpa using List.find?_eq_none.mp h i (List.mem_finRange i)

theorem search_cases (t : EspTable) (p : Packet) :
    (∃ i, known p (t.entry i) = true ∧ searchEspEntryBySpi t p = (t, some i)) ∨
    (¬ Recognized t p ∧ ∃ i, taken t.curSpi p (t.entry i) = true ∧
      searchEspEntryBySpi t p = (t.pair i p, some i)) ∨
    (¬ Recognized t p ∧ searchEspEntryBySpi t p = (t, none)) := by
  rw [searchEspEntryBySpi]
  split
  · next i hi => exact .inl ⟨i, find?_finRange_eq_some hi, rfl⟩
  · next hnone =>
    have hnot : ¬ Recognized t p := by
      intro h
      obtain ⟨i, hi⟩ := h
      rw [find?_finRange_eq_none hnone i] at hi
      cases hi
    split
    · next i hi => exact .inr (.inl ⟨hnot, i, find?_finRange_eq_some hi, rfl⟩)
    · exact .inr (.inr ⟨hnot, rfl⟩)

theorem known_iff {p : Packet} {e : EspEntry} : known p e = true ↔ e.inuse = true ∧
    ((e.lSpi = p.spi ∧ e.lIp = p.saddr) ∨ (e.rSpi = p.spi ∧ e.rIp = p.saddr)) := by
  simp [known]

/-- The entries the second loop takes when the first one found none. -/
theorem taken_cases {t : EspTable} {p : Packet} (hnot : ¬ Recognized t p) {i : Fin 256}
    (h : taken t.curSpi p (t.entry i) = true) : (t.entry i).inuse = true ∧
      (Crossing p p.daddr (t.entry i) ∨ Waiting t p (t.entry i) ∨
        ((t.entry i).rSpi ≠ 0 ∧ (t.entry i).tspi = t.curSpi)) := by
  have hunknown : ¬ known p (t.entry i) = true := fun hk => hnot ⟨i, hk⟩
  rw [known_iff] at hunknown
  rw [taken, Bool.and_eq_true] at h
  obtain ⟨hinuse, h⟩ := h
  refine ⟨hinuse, ?_⟩
  split at h
  · next hboth =>
    simp only [Bool.or_eq_true, Bool.and_eq_true, beq_iff_eq] at h
    rcases h with h | h
    · exact absurd ⟨hinuse, .inl h⟩ hunknown
    · exact .inl ⟨hboth.1, hboth.2, h⟩
  · next hboth =>
    split at h
    · next hl =>
      simp only [Bool.and_eq_true, beq_iff_eq, bne_iff_ne] at h
      have hr : (t.entry i).rSpi = 0 := by
        by_contra hr
        exact hboth ⟨hl, hr⟩
      exact .inr (.inl ⟨hl, hr, h.1.1, h.1.2, h.2⟩)
    · split at h
      · next hr =>
        simp only [Bool.and_eq_true, beq_iff_eq] at h
        exact .inr (.inr ⟨hr, h.1⟩)
      · cases h

/-! ## The table -/

theorem tempSpi_injective : Function.Injective tempSpi := by
  intro i j h
  have hnat := congrArg UInt16.toNat h
  simp only [tempSpi, UInt16.toNat_ofNat'] at hnat
  omega

theorem tempSpi_ne_zero (i : Fin 256) : tempSpi i ≠ 0 := by
  intro h
  have hnat := congrArg UInt16.toNat h
  simp only [tempSpi, UInt16.toNat_ofNat', UInt16.toNat_zero] at hnat
  omega

/-- The remote half of an entry is empty, or it holds a gateway the host has sent to. -/
structure Paired (s : State) : Prop where
  free : ∀ i, (s.table.entry i).inuse = false →
    (s.table.entry i).rSpi = 0 ∧ (s.table.entry i).rIp = 0
  numbered : ∀ i, (s.table.entry i).inuse = true → (s.table.entry i).tspi = tempSpi i
  current : ∀ i, (s.table.entry i).inuse = true → (s.table.entry i).tspi = s.table.curSpi →
    (s.table.entry i).rSpi = 0 ∧ (s.table.entry i).rIp = 0
  gateway : ∀ i, (s.table.entry i).inuse = true →
    ((s.table.entry i).rSpi = 0 ∧ (s.table.entry i).rIp = 0) ∨
      (s.table.entry i).rIp ∈ s.sent i

theorem paired_initial : Paired .initial := by
  refine ⟨fun _ _ => ⟨rfl, rfl⟩, ?_, ?_, ?_⟩ <;> exact fun _ h => by cases h

theorem mem_record {s : State} {e : Event} {i : Fin 256} {x : UInt32}
    (hinuse : (s.table.entry i).inuse = true) (hx : x ∈ s.sent i) : x ∈ record s e i := by
  cases e with
  | packet p =>
    simp only [record, hinuse, not_true_eq_false, if_false]
    split
    · exact hx
    · split
      · exact List.mem_cons_of_mem _ hx
      · exact hx
  | destroy spi => exact hx

theorem paired_record {s : State} (h : Paired s) (e : Event) :
    Paired ⟨s.table, record s e⟩ where
  free := h.free
  numbered := h.numbered
  current := h.current
  gateway i hi := (h.gateway i hi).imp_right (mem_record hi)

theorem pair_of_crossing {t : EspTable} {p : Packet} {i : Fin 256} {addr : UInt32}
    (h : Crossing p addr (t.entry i)) : t.pair i p = t := by
  have hboth : (t.entry i).lSpi ≠ 0 ∧ (t.entry i).rSpi ≠ 0 := ⟨h.1, h.2.1⟩
  cases t with
  | mk entry curSpi =>
    rw [EspTable.pair, EspEntry.pair, if_pos hboth, if_pos hboth, Function.update_eq_self]

theorem search_fromLan {s : State} (h : Paired s) {p : Packet} (hlan : p.fromLan = true)
    (ha : Apart s (.packet p)) : (searchEspEntryBySpi s.table p).1 = s.table ∧
      ∀ i, (searchEspEntryBySpi s.table p).2 = some i → (s.table.entry i).lIp = p.saddr := by
  have happart := ha.1 hlan
  rcases search_cases s.table p with ⟨i, hk, heq⟩ | ⟨hnot, i, ht, heq⟩ | ⟨hnot, heq⟩
  · rw [heq]
    refine ⟨rfl, ?_⟩
    intro j hj
    cases hj
    obtain ⟨hinuse, hhalf⟩ := known_iff.mp hk
    by_contra hne
    rcases hhalf with hl | hr
    · exact hne hl.2
    · exact (happart i hinuse hne).1 hr
  · rw [heq]
    obtain ⟨hinuse, hcase⟩ := taken_cases hnot ht
    rcases hcase with hcross | hwait | ⟨hr, hcur⟩
    · refine ⟨pair_of_crossing hcross, ?_⟩
      intro j hj
      cases hj
      by_contra hne
      exact ((happart i hinuse hne).2.resolve_left hnot).1 hcross
    · -- Only another host waits with another source.
      have hne := hwait.2.2.2.2
      exact absurd hwait ((happart i hinuse hne).2.resolve_left hnot).2
    · exact absurd (h.current i hinuse hcur).1 hr
  · rw [heq]
    refine ⟨rfl, ?_⟩
    intro j hj
    cases hj

/-- The reply of a gateway fills the remote half of the entry that waits for it. -/
theorem paired_pair {s : State} (h : Paired s) {p : Packet} {i : Fin 256}
    (hinuse : (s.table.entry i).inuse = true) (hwait : Waiting s.table p (s.table.entry i))
    (hsent : p.saddr ∈ s.sent i) : Paired ⟨s.table.pair i p, s.sent⟩ := by
  have hnot : ¬ ((s.table.entry i).lSpi ≠ 0 ∧ (s.table.entry i).rSpi ≠ 0) :=
    fun hboth => hboth.2 hwait.2.1
  have hcur : (s.table.pair i p).curSpi = 0 := if_neg hnot
  have hentry : (s.table.pair i p).entry = Function.update s.table.entry i
      { s.table.entry i with rSpi := p.spi, rIp := p.saddr } := by
    rw [EspTable.pair, EspEntry.pair, if_neg hnot, if_pos hwait.1]
  have hnumbered : ∀ j, ((s.table.pair i p).entry j).inuse = true →
      ((s.table.pair i p).entry j).tspi = tempSpi j := by
    intro j
    rw [hentry]
    rcases eq_or_ne j i with rfl | hne
    · rw [Function.update_self]
      exact h.numbered j
    · rw [Function.update_of_ne hne]
      exact h.numbered j
  refine ⟨?_, hnumbered, ?_, ?_⟩
  · intro j
    dsimp only
    rw [hentry]
    rcases eq_or_ne j i with rfl | hne
    · rw [Function.update_self]
      intro hfree
      simp [hinuse] at hfree
    · rw [Function.update_of_ne hne]
      exact h.free j
  · intro j hj htspi
    dsimp only at hj htspi
    rw [hnumbered j hj, hcur] at htspi
    exact absurd htspi (tempSpi_ne_zero j)
  · intro j
    dsimp only
    rw [hentry]
    rcases eq_or_ne j i with rfl | hne
    · rw [Function.update_self]
      exact fun _ => .inr hsent
    · rw [Function.update_of_ne hne]
      exact h.gateway j

theorem search_fromOutside {s : State} (h : Paired s) {p : Packet} (hout : p.fromLan = false)
    (ha : Apart s (.packet p)) : Paired ⟨(searchEspEntryBySpi s.table p).1, s.sent⟩ ∧
      ∀ i, (searchEspEntryBySpi s.table p).2 = some i → p.saddr ∈ s.sent i := by
  obtain ⟨hzero, happart⟩ := ha.2 hout
  rcases search_cases s.table p with ⟨i, hk, heq⟩ | ⟨hnot, i, ht, heq⟩ | ⟨hnot, heq⟩
  · rw [heq]
    refine ⟨h, ?_⟩
    intro j hj
    cases hj
    obtain ⟨hinuse, hhalf⟩ := known_iff.mp hk
    rcases hhalf with hl | hr
    · exact absurd hl (happart i hinuse).1
    · rcases h.gateway i hinuse with ⟨hspi, hip⟩ | hsent
      · exact absurd ⟨hr.1 ▸ hspi, hr.2 ▸ hip⟩ hzero
      · exact hr.2 ▸ hsent
  · rw [heq]
    obtain ⟨hinuse, hcase⟩ := taken_cases hnot ht
    obtain ⟨hcross', hsent⟩ := (happart i hinuse).2.resolve_left hnot
    rcases hcase with hcross | hwait | ⟨hr, hcur⟩
    · exact absurd hcross hcross'
    · refine ⟨paired_pair h hinuse hwait (hsent hwait), ?_⟩
      intro j hj
      cases hj
      exact hsent hwait
    · exact absurd (h.current i hinuse hcur).1 hr
  · rw [heq]
    refine ⟨h, ?_⟩
    intro j hj
    cases hj

/-- A new entry has an empty remote half, and its number is no other entry's. -/
theorem paired_alloc {s : State} (h : Paired s) (p : Packet) :
    Paired ⟨(allocEspEntry s.table p).1, s.sent⟩ := by
  rw [allocEspEntry]
  split
  · exact h
  · split
    · exact h
    · split
      · exact h
      · next i hi =>
        have hfree : (s.table.entry i).inuse = false := by
          simpa using find?_finRange_eq_some hi
        refine ⟨?_, ?_, ?_, ?_⟩
        all_goals
          intro j
          dsimp only
          rcases eq_or_ne j i with rfl | hne
        · rw [Function.update_self]
          exact fun hfree' => by simp at hfree'
        · rw [Function.update_of_ne hne]
          exact h.free j
        · rw [Function.update_self]
          exact fun _ => rfl
        · rw [Function.update_of_ne hne]
          exact h.numbered j
        · rw [Function.update_self]
          exact fun _ _ => h.free j hfree
        · rw [Function.update_of_ne hne]
          intro hj htspi
          rw [h.numbered j hj] at htspi
          exact absurd (tempSpi_injective htspi) hne
        · rw [Function.update_self]
          exact fun _ => .inl (h.free j hfree)
        · rw [Function.update_of_ne hne]
          exact h.gateway j

theorem paired_destroy {s : State} (h : Paired s) (spi : UInt16) :
    Paired ⟨espDestroy s.table spi, s.sent⟩ := by
  rw [espDestroy]
  split
  · next i hi =>
    refine ⟨?_, ?_, ?_, ?_⟩
    all_goals
      intro j
      dsimp only
      rcases eq_or_ne j i with rfl | hne
    · rw [Function.update_self]
      exact fun _ => ⟨rfl, rfl⟩
    · rw [Function.update_of_ne hne]
      exact h.free j
    · rw [Function.update_self]
      exact fun hj => by cases hj
    · rw [Function.update_of_ne hne]
      exact h.numbered j
    · rw [Function.update_self]
      exact fun hj => by cases hj
    · rw [Function.update_of_ne hne]
      exact h.current j
    · rw [Function.update_self]
      exact fun hj => by cases hj
    · rw [Function.update_of_ne hne]
      exact h.gateway j
  · exact h

/-! ## Runs -/

theorem espPktToTuple_cases (t : EspTable) (p : Packet) :
    (∃ i, (searchEspEntryBySpi t p).2 = some i ∧
      espPktToTuple t p = ((searchEspEntryBySpi t p).1, some i)) ∨
    ((searchEspEntryBySpi t p).2 = none ∧
      espPktToTuple t p = allocEspEntry (searchEspEntryBySpi t p).1 p) := by
  rw [espPktToTuple]
  split
  · next t' i h => exact .inl ⟨i, by rw [h], by rw [h]⟩
  · next t' h => exact .inr ⟨by rw [h], by rw [h]⟩

theorem allocEspEntry_fromOutside {t : EspTable} {p : Packet} (hout : p.fromLan = false) :
    allocEspEntry t p = (t, none) := by
  simp [allocEspEntry, hout]

theorem paired_packet {s : State} (h : Paired s) {p : Packet} (ha : Apart s (.packet p)) :
    Paired (next s (.packet p)) := by
  simp only [next, exec]
  cases hlan : p.fromLan with
  | true =>
    have hrecord := paired_record h (.packet p)
    rcases espPktToTuple_cases s.table p with ⟨i, -, heq⟩ | ⟨-, heq⟩
    · rw [heq, (search_fromLan h hlan ha).1]
      exact hrecord
    · rw [heq, (search_fromLan h hlan ha).1]
      exact paired_alloc hrecord p
  | false =>
    have hrecord : record s (.packet p) = s.sent := by
      funext i
      simp [record, hlan]
    have hsearch := (search_fromOutside h hlan ha).1
    rw [hrecord]
    rcases espPktToTuple_cases s.table p with ⟨i, -, heq⟩ | ⟨-, heq⟩
    · rw [heq]
      exact hsearch
    · rw [heq, allocEspEntry_fromOutside hlan]
      exact hsearch

theorem paired_next {s : State} (h : Paired s) {e : Event} (ha : Apart s e) :
    Paired (next s e) := by
  cases e with
  | packet p => exact paired_packet h ha
  | destroy spi => exact paired_destroy h spi

theorem meets_of_apart {s : State} (h : Paired s) {e : Event} (ha : Apart s e) : Meets s e := by
  cases e with
  | packet p =>
    refine ⟨?_, ?_⟩
    · intro hlan i hi
      obtain ⟨htable, hhost⟩ := search_fromLan h hlan ha
      rw [htable]
      exact hhost i hi
    · intro hout i hi
      apply (search_fromOutside h hout ha).2 i
      rcases espPktToTuple_cases s.table p with ⟨j, hj, heq⟩ | ⟨-, heq⟩
      · rw [heq] at hi
        exact hj.trans hi
      · rw [heq, allocEspEntry_fromOutside hout] at hi
        cases hi
  | destroy spi => trivial

theorem attribution_of_apart (events : List Event) (h : Along next Apart .initial events) :
    Along next Meets .initial events := by
  apply along_imp (I := Paired) _ _ paired_initial h
  · exact fun s e hs ha => paired_next hs ha
  · exact fun s e hs ha => meets_of_apart hs ha

/-- Two hosts one after the other: each has its reply before the next one starts. -/
def turns : List Event :=
  [.packet ⟨true, 0xc0a80164, 0xcb007105, 0x1001, 1⟩,
    .packet ⟨false, 0xcb007105, 0xc6336401, 0x2001, 1⟩,
    .packet ⟨true, 0xc0a80165, 0xcb007106, 0x1002, 1⟩,
    .packet ⟨false, 0xcb007106, 0xc6336401, 0x2002, 1⟩,
    .packet ⟨true, 0xc0a80164, 0xcb007105, 0x1001, 2⟩]

theorem attribution_of_turns : Along next Apart .initial turns ∧ Along next Meets .initial turns :=
  ⟨by decide +kernel, attribution_of_apart turns (by decide +kernel)⟩

/-- The second host starts before the reply to the first one is there: its packet is taken for
that reply and gets the entry of the first host. -/
theorem second_host_gets_first_entry :
    ¬ Along next Meets .initial
      [.packet ⟨true, 0xc0a80164, 0xcb007105, 0x1001, 1⟩,
        .packet ⟨true, 0xc0a80165, 0xcb007106, 0x1002, 1⟩] := by
  intro h
  obtain ⟨-, hmeets, -⟩ := h
  exact absurd (hmeets.1 rfl 0 (by decide +kernel)) (by decide +kernel)

end EspPassThrough
