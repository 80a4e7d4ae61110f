import Mathlib.Data.List.Range
import Mathlib.Tactic.IntervalCases
import RouterFirmware.IndexedStores

/-! # The VLANs of the switch ports

Ports are put into VLAN groups. The table for the switch has an entry for each VLAN, found by its
VID, whose mask says which ports are in it; in the same entries, found by the number of the port,
it says to which VLAN a port belongs.
-/
namespace PortVlan

open IndexedStores

/-- `nk_switch_vlan_table_t`. -/
structure VlanEntry where
  port : ℕ
  index : ℕ
  vid : ℕ
  member : BitVec 32
  deriving DecidableEq

/-- What an assignment to a field of an entry does. -/
inductive Change where
  | port (n : ℕ)
  | index (n : ℕ)
  | member (bits : BitVec 32)

def VlanEntry.change (e : VlanEntry) : Change → VlanEntry
  | .port n => { e with port := n }
  | .index n => { e with index := n }
  | .member bits => { e with member := e.member ||| bits }

/-- `lanportmap` and `wanportmap`, of the number of a port and the type of the switch. -/
structure Maps where
  lanportmap : ℕ → ℕ → ℕ
  wanportmap : ℕ → ℕ → ℕ

/-- The ports of the tables `LAN_2_FRONT`. -/
def lanportmap (lanidx switchType : ℕ) : ℕ :=
  if switchType = 16 then [1, 2, 3, 4, 5, 6, 7, 8].getD (lanidx - 1) 0
  else if switchType = 214 ∨ switchType = 224 ∨ switchType = 42 ∨ switchType = 422 then
    [1, 2, 3, 4].getD (lanidx - 1) 0
  else if switchType = 82 then [1, 2, 3, 4, 5, 6, 7, 8].getD (lanidx - 1) 0
  else 0

/-- The ports of the tables `WAN_2_FRONT`. -/
def wanportmap (wanport switchType : ℕ) : ℕ :=
  if switchType = 5 then [4, 3, 2, 1].getD (wanport - 1) 0
  else if switchType = 363 then [2, 1].getD (wanport - 1) 0
  else if switchType = 1450 then [1, 2, 3, 4, 5, 6, 7, 8].getD (wanport - 1) 0
  else if switchType = 650 ∨ switchType = 1550 then [5, 4, 3, 2, 1].getD (wanport - 1) 0
  else if switchType = 3000 then [4, 3, 2, 1, 8, 7, 6, 5].getD (wanport - 1) 0
  else if switchType = 16 then [7, 6, 5, 4, 3, 2, 1, 8].getD (wanport - 1) 0
  else if switchType = 214 ∨ switchType = 224 ∨ switchType = 42 ∨ switchType = 422 then
    [1, 2].getD (wanport - 1) 0
  else if switchType = 82 then [2, 1].getD (wanport - 1) 0
  else [4, 3, 2, 1, 5].getD (wanport - 1) 0

def Maps.source : Maps := ⟨PortVlan.lanportmap, PortVlan.wanportmap⟩

/-- What the database has: the numbers of `VERSION`, the mirror port, the `VLANGROUP` of each LAN
and WAN port, and the WAN ports whose `WANTYPE` is LAN. -/
structure Database where
  switchType : ℕ
  numLan : ℕ
  numWan : ℕ
  numDmz : ℕ
  mirror : Bool
  lanVgroup : ℕ → ℕ
  wanVgroup : ℕ → ℕ
  isLan : ℕ → Bool

namespace Database

def getNumLan (db : Database) : ℕ := if db.numLan = 0 then 5 else db.numLan

def getNumWan (db : Database) : ℕ := if db.numWan = 0 then 8 else db.numWan

/-- `config_wan`: the number of WAN ports can be adjusted. -/
def ConfigWan (db : Database) : Prop := db.switchType = 16

instance (db : Database) : Decidable db.ConfigWan := inferInstanceAs (Decidable (_ = _))

/-- The switches whose VLANs are not set here. -/
def Simple8021q (db : Database) : Prop := db.switchType = 214 ∨ db.switchType = 224

instance (db : Database) : Decidable db.Simple8021q := inferInstanceAs (Decidable (_ ∨ _))

def vtableSize (db : Database) : ℕ :=
  1 + db.getNumWan + db.numDmz + (db.getNumLan + db.getNumWan - 2)

def wans (db : Database) : ℕ := db.getNumWan + db.numDmz

/-- `nk_get_port_vid`, of the group of the port. -/
def nkGetPortVid (db : Database) (vgroup : ℕ) : ℕ :=
  if vgroup = 77 then 1 else vgroup + 1 + db.getNumWan + db.numDmz

end Database

section Source

variable (maps : Maps) (db : Database)

def lanBit (i : ℕ) : BitVec 32 := BitVec.twoPow 32 (maps.lanportmap i db.switchType)

def wanBit (i : ℕ) : BitVec 32 :=
  BitVec.twoPow 32 (maps.wanportmap i db.switchType + db.getNumLan)

/-- `vlan_all_member`. The mirror port is LAN port 1. -/
def vlanAllMember : BitVec 32 :=
  let mirrored := if db.mirror then [lanBit maps db 1] else []
  let lans := ((List.range' 1 db.getNumLan).filter fun i => db.lanVgroup i = 77).map
    (lanBit maps db)
  let wans := if db.ConfigWan then ((List.range' 1 db.wans).filter fun i =>
    db.isLan i ∧ db.wanVgroup i = 77).map (wanBit maps db) else []
  (mirrored ++ lans ++ wans).foldl (· ||| ·) 0

/-- The first two loops, on the entry of VLAN ALL. -/
def allStores : List (ℕ × Change) :=
  (List.range' 1 db.getNumLan).map (fun i => (0, .member (lanBit maps db i))) ++
    if db.ConfigWan then (0, .port 99) :: ((List.range' 1 db.wans).filter fun i => db.isLan i).map
      fun i => (0, .member (wanBit maps db i)) else []

def lanStores : List (ℕ × Change) :=
  (List.range' 1 db.getNumLan).flatMap fun i =>
    let vid := db.nkGetPortVid (db.lanVgroup i)
    [(vid - 1, .member (lanBit maps db i ||| vlanAllMember maps db)),
      (i, .port (maps.lanportmap i db.switchType)), (i, .index (vid - 1))]

def wanStores : List (ℕ × Change) :=
  if db.ConfigWan then (List.range' 1 db.wans).flatMap fun i =>
    let vid := if db.isLan i then db.nkGetPortVid (db.wanVgroup i) else i + 1
    let bits := if db.isLan i then wanBit maps db i ||| vlanAllMember maps db
      else wanBit maps db i
    [(vid - 1, .member bits), (i + db.getNumLan, .port (maps.wanportmap i db.switchType)),
      (i + db.getNumLan, .index (vid - 1))]
  else []

def stores : List (ℕ × Change) := allStores maps db ++ lanStores maps db ++ wanStores maps db

/-- The table after the stores, if no index is out of range. -/
def vlanTable : Option (List VlanEntry) :=
  let blank := (List.range db.vtableSize).map fun i => ⟨0, 0, i + 1, 0⟩
  run VlanEntry.change blank (stores maps db)

/-- `NK_SET_VLAN_GROUP` up to the `ioctl`: the table for the switch, if it sets one. -/
def nkSetVlanGroup : Option (Option (List VlanEntry)) :=
  if db.Simple8021q then some none else (vlanTable maps db).map some

end Source

/-! ## Ports that are in a VLAN -/

inductive Port where
  | lan (i : ℕ)
  | wan (i : ℕ)
  deriving DecidableEq

namespace Port

/-- A port of the LAN, which a WAN port can be made. -/
def IsLan (db : Database) : Port → Prop
  | .lan i => 1 ≤ i ∧ i ≤ db.getNumLan
  | .wan i => db.ConfigWan ∧ (1 ≤ i ∧ i ≤ db.wans) ∧ db.isLan i

def bit (maps : Maps) (db : Database) : Port → ℕ
  | .lan i => maps.lanportmap i db.switchType
  | .wan i => maps.wanportmap i db.switchType + db.getNumLan

def vgroup (db : Database) : Port → ℕ
  | .lan i => db.lanVgroup i
  | .wan i => db.wanVgroup i

def slot (db : Database) : Port → ℕ
  | .lan i => i
  | .wan i => i + db.getNumLan

end Port

/-- Each port has a bit of its own in the masks. -/
structure Maps.Fits (maps : Maps) (db : Database) : Prop where
  inj : ∀ p q : Port, p.IsLan db → q.IsLan db → p.bit maps db = q.bit maps db → p = q
  lt : ∀ p : Port, p.IsLan db → p.bit maps db < 32

/-- The switches for which the tables have the ports that the maps are asked for. -/
def Database.Mapped (db : Database) : Prop :=
  (db.switchType = 16 ∧ db.wans ≤ 8 ∨ db.switchType = 82) ∧ db.getNumLan ≤ 8 ∨
    (db.switchType = 42 ∨ db.switchType = 422) ∧ db.getNumLan ≤ 4

instance (db : Database) : Decidable db.Mapped := inferInstanceAs (Decidable (_ ∨ _))

/-- The groups are in the ranges that the function names. -/
structure Database.Documented (db : Database) : Prop where
  lan : ∀ i, (Port.lan i).IsLan db →
    db.lanVgroup i = 77 ∨ 1 ≤ db.lanVgroup i ∧ db.lanVgroup i ≤ db.getNumLan
  wan : ∀ i, (Port.wan i).IsLan db → db.wanVgroup i = 77 ∨
    1 ≤ db.wanVgroup i ∧ db.wanVgroup i ≤ db.getNumLan + db.getNumWan - 2

/-- The mirror port counts as a port of VLAN ALL. -/
def VlanAll (db : Database) (p : Port) : Prop :=
  p.vgroup db = 77 ∨ db.mirror ∧ p = .lan 1

def Together (db : Database) (p q : Port) : Prop :=
  p.vgroup db = q.vgroup db ∨ VlanAll db p ∨ VlanAll db q

/-- No index is out of range, and in a table that is set the VLAN of a port has just the ports
that are together with it. -/
def Separates (maps : Maps) (db : Database) : Prop :=
  ∃ set, nkSetVlanGroup maps db = some set ∧
    ∀ t, set = some t → ∀ p q : Port, p.IsLan db → q.IsLan db →
      ∃ e e', t[p.slot db]? = some e ∧ t[e.index]? = some e' ∧
        (e'.member.getLsbD (q.bit maps db) = true ↔ Together db p q)

/-- The groups are within the table, and the mirror port need not be with other ports than those
of its own group. -/
structure Database.Fits (db : Database) : Prop where
  groups : ∀ i, (Port.lan i).IsLan db →
    db.lanVgroup i = 77 ∨ db.lanVgroup i + 1 < db.getNumLan + db.getNumWan
  wans : db.ConfigWan → 2 ≤ db.getNumWan
  mirror : db.mirror → db.lanVgroup 1 = 77 ∨ ∀ p : Port, p.IsLan db →
    p.vgroup db = db.lanVgroup 1 ∨ p.vgroup db = 77

section Mapped

variable {db : Database} {i : ℕ}

theorem lanportmap_eq (hmapped : db.Mapped) (hi : 1 ≤ i ∧ i ≤ db.getNumLan) :
    lanportmap i db.switchType = i := by
  obtain ⟨⟨hone, _⟩ | hone, hnum⟩ | ⟨hone | hone, hnum⟩ := hmapped <;>
    rw [hone] <;>
    obtain ⟨hfrom, hto⟩ := hi <;>
    have hle := hto.trans hnum <;>
    interval_cases i <;>
    rfl

theorem wanportmap_eq (hi : 1 ≤ i ∧ i ≤ 8) : wanportmap i 16 = if i = 8 then 8 else 8 - i := by
  obtain ⟨hfrom, hto⟩ := hi
  interval_cases i <;> rfl

theorem Database.Mapped.wans_le (hmapped : db.Mapped) (hconfig : db.ConfigWan) : db.wans ≤ 8 := by
  unfold Database.ConfigWan at hconfig
  obtain ⟨⟨_, hwans⟩ | hother, _⟩ | ⟨hother | hother, _⟩ := hmapped
  · exact hwans
  all_goals omega

theorem bit_lan (hmapped : db.Mapped) (hi : (Port.lan i).IsLan db) :
    (Port.lan i).bit Maps.source db = i :=
  lanportmap_eq hmapped hi

theorem bit_wan (hmapped : db.Mapped) (hi : (Port.wan i).IsLan db) :
    (Port.wan i).bit Maps.source db = (if i = 8 then 8 else 8 - i) + db.getNumLan ∧
      1 ≤ i ∧ i ≤ 8 := by
  obtain ⟨hconfig, hi, _⟩ := hi
  have hbounds : 1 ≤ i ∧ i ≤ 8 := ⟨hi.1, hi.2.trans (hmapped.wans_le hconfig)⟩
  have hport := wanportmap_eq hbounds
  unfold Database.ConfigWan at hconfig
  simp only [Port.bit, Maps.source, hconfig, hport, hbounds, and_self]

theorem Maps.source_fits (hmapped : db.Mapped) : Maps.source.Fits db := by
  have hnum : db.getNumLan ≤ 8 := by
    obtain ⟨_, hnum⟩ | ⟨_, hnum⟩ := hmapped <;> omega
  constructor
  · intro p q hp hq hbit
    cases p with
    | lan i =>
      have hi := bit_lan hmapped hp
      cases q with
      | lan j => exact congrArg Port.lan (by rwa [hi, bit_lan hmapped hq] at hbit)
      | wan j =>
        have hj := bit_wan hmapped hq
        have hle : i ≤ db.getNumLan := hp.2
        split at hj <;> omega
    | wan i =>
      have hi := bit_wan hmapped hp
      cases q with
      | lan j =>
        have hj := bit_lan hmapped hq
        have hle : j ≤ db.getNumLan := hq.2
        split at hi <;> omega
      | wan j =>
        have hj := bit_wan hmapped hq
        exact congrArg Port.wan (by split at hi <;> split at hj <;> omega)
  · intro p hp
    cases p with
    | lan i =>
      have hi := bit_lan hmapped hp
      have hle : i ≤ db.getNumLan := hp.2
      omega
    | wan i =>
      have hi := bit_wan hmapped hp
      split at hi <;> omega

end Mapped

section Masks

variable {b : ℕ}

theorem getLsbD_foldl_or (l : List (BitVec 32)) (init : BitVec 32) :
    (l.foldl (· ||| ·) init).getLsbD b = true ↔
      init.getLsbD b = true ∨ ∃ bits ∈ l, bits.getLsbD b = true := by
  induction l generalizing init with
  | nil => simp
  | cons bits l ih => simp [ih, or_assoc]

theorem getLsbD_change (cs : List Change) (e : VlanEntry) :
    (cs.foldl VlanEntry.change e).member.getLsbD b = true ↔
      e.member.getLsbD b = true ∨ ∃ bits, .member bits ∈ cs ∧ bits.getLsbD b = true := by
  induction cs generalizing e with
  | nil => simp
  | cons c cs ih =>
    cases c with
    | port n => simp [ih, VlanEntry.change]
    | index n => simp [ih, VlanEntry.change]
    | member bits => simp [ih, VlanEntry.change, or_assoc, or_and_right, exists_or]

theorem index_change {v : ℕ} {cs : List Change} {e : VlanEntry}
    (hv : ∀ v', .index v' ∈ cs → v' = v) (h : e.index = v ∨ .index v ∈ cs) :
    (cs.foldl VlanEntry.change e).index = v := by
  induction cs generalizing e with
  | nil => simpa using h
  | cons c cs ih =>
    have hrest : ∀ v', Change.index v' ∈ cs → v' = v := fun v' hmem =>
      hv v' (List.mem_cons_of_mem _ hmem)
    apply ih hrest
    cases c with
    | port n => simpa [VlanEntry.change] using h
    | index n => exact .inl (hv n List.mem_cons_self)
    | member bits => simpa [VlanEntry.change] using h

end Masks

section Table

variable {maps : Maps} {db : Database} {p q : Port} {k v b : ℕ} {bits : BitVec 32}
  {t : List VlanEntry}

theorem one_le_getNumLan : 1 ≤ db.getNumLan := by
  unfold Database.getNumLan
  split <;> omega

theorem one_le_getNumWan : 1 ≤ db.getNumWan := by
  unfold Database.getNumWan
  split <;> omega

def Database.row (db : Database) (vgroup : ℕ) : ℕ :=
  if vgroup = 77 then 0 else vgroup + db.wans

theorem nkGetPortVid_sub_one (vgroup : ℕ) : db.nkGetPortVid vgroup - 1 = db.row vgroup := by
  unfold Database.nkGetPortVid Database.row Database.wans
  split <;> omega

theorem mem_range_one {i n : ℕ} : i ∈ List.range' 1 n ↔ 1 ≤ i ∧ i ≤ n := by
  simp only [List.mem_range'_1]
  omega

def Port.mask (maps : Maps) (db : Database) (p : Port) : BitVec 32 :=
  BitVec.twoPow 32 (p.bit maps db)

theorem exists_isLan_iff {P : Port → Prop} : (∃ p : Port, p.IsLan db ∧ P p) ↔
    (∃ i, (1 ≤ i ∧ i ≤ db.getNumLan) ∧ P (.lan i)) ∨
      db.ConfigWan ∧ ∃ i, (1 ≤ i ∧ i ≤ db.wans) ∧ db.isLan i ∧ P (.wan i) := by
  constructor
  · rintro ⟨p, hp, hP⟩
    cases p with
    | lan i => exact .inl ⟨i, hp, hP⟩
    | wan i => exact .inr ⟨hp.1, i, hp.2.1, hp.2.2, hP⟩
  · rintro (⟨i, hi, hP⟩ | ⟨hconfig, i, hi, hlan, hP⟩)
    · exact ⟨.lan i, hi, hP⟩
    · exact ⟨.wan i, ⟨hconfig, hi, hlan⟩, hP⟩

theorem mem_allStores {c : Change} : (k, c) ∈ allStores maps db ↔
    (∃ p : Port, p.IsLan db ∧ k = 0 ∧ c = .member (p.mask maps db)) ∨
      db.ConfigWan ∧ k = 0 ∧ c = .port 99 := by
  rw [exists_isLan_iff]
  by_cases hconfig : db.ConfigWan
  · simp only [allStores, hconfig, if_true, List.mem_append, List.mem_map, List.mem_cons,
      List.mem_filter, mem_range_one, Prod.mk.injEq, true_and]
    constructor
    · rintro (⟨i, hi, rfl, rfl⟩ | ⟨rfl, rfl⟩ | ⟨i, ⟨hi, hlan⟩, rfl, rfl⟩)
      · exact .inl (.inl ⟨i, hi, rfl, rfl⟩)
      · exact .inr ⟨rfl, rfl⟩
      · exact .inl (.inr ⟨i, hi, hlan, rfl, rfl⟩)
    · rintro ((⟨i, hi, rfl, rfl⟩ | ⟨i, hi, hlan, rfl, rfl⟩) | ⟨rfl, rfl⟩)
      · exact .inl ⟨i, hi, rfl, rfl⟩
      · exact .inr (.inr ⟨i, ⟨hi, hlan⟩, rfl, rfl⟩)
      · exact .inr (.inl ⟨rfl, rfl⟩)
  · simp only [allStores, hconfig, if_false, List.append_nil, List.mem_map, mem_range_one,
      Prod.mk.injEq, false_and, or_false]
    constructor
    · rintro ⟨i, hi, rfl, rfl⟩
      exact ⟨i, hi, rfl, rfl⟩
    · rintro ⟨i, hi, rfl, rfl⟩
      exact ⟨i, hi, rfl, rfl⟩

theorem mem_lanStores {c : Change} : (k, c) ∈ lanStores maps db ↔
    ∃ i, (1 ≤ i ∧ i ≤ db.getNumLan) ∧
      (k = db.row (db.lanVgroup i) ∧ c = .member (lanBit maps db i ||| vlanAllMember maps db) ∨
        k = i ∧ (c = .port (maps.lanportmap i db.switchType) ∨
          c = .index (db.row (db.lanVgroup i)))) := by
  simp only [lanStores, List.mem_flatMap, mem_range_one, List.mem_cons, List.not_mem_nil,
    or_false, Prod.mk.injEq, nkGetPortVid_sub_one, and_or_left]

theorem mem_wanStores {c : Change} : (k, c) ∈ wanStores maps db ↔
    db.ConfigWan ∧ ∃ i, (1 ≤ i ∧ i ≤ db.wans) ∧
      (db.isLan i = true ∧ k = db.row (db.wanVgroup i) ∧
          c = .member (wanBit maps db i ||| vlanAllMember maps db) ∨
        db.isLan i = false ∧ k = i ∧ c = .member (wanBit maps db i) ∨
        k = i + db.getNumLan ∧ (c = .port (maps.wanportmap i db.switchType) ∨
          c = .index (if db.isLan i then db.row (db.wanVgroup i) else i))) := by
  by_cases hconfig : db.ConfigWan
  · simp only [wanStores, hconfig, if_true, List.mem_flatMap, mem_range_one, List.mem_cons,
      List.not_mem_nil, or_false, Prod.mk.injEq, true_and]
    refine exists_congr fun i => and_congr_right fun _ => ?_
    cases hlan : db.isLan i with
    | true => simp [nkGetPortVid_sub_one, and_or_left]
    | false => simp [and_or_left]
  · simp [wanStores, hconfig]

theorem mem_member_stores : (k, .member bits) ∈ stores maps db ↔
    (∃ p : Port, p.IsLan db ∧ k = 0 ∧ bits = p.mask maps db) ∨
      (∃ p : Port, p.IsLan db ∧ k = db.row (p.vgroup db) ∧
        bits = p.mask maps db ||| vlanAllMember maps db) ∨
      db.ConfigWan ∧ ∃ i, (1 ≤ i ∧ i ≤ db.wans) ∧ db.isLan i = false ∧ k = i ∧
        bits = wanBit maps db i := by
  rw [exists_isLan_iff (P := fun p => k = db.row (p.vgroup db) ∧ _)]
  simp only [stores, List.mem_append, mem_allStores, mem_lanStores, mem_wanStores,
    Change.member.injEq, reduceCtorEq, and_false, or_false, or_self, and_or_left, exists_or]
  simp only [or_assoc]
  rfl

theorem mem_index_stores : (k, .index v) ∈ stores maps db ↔
    (∃ i, (1 ≤ i ∧ i ≤ db.getNumLan) ∧ k = i ∧ v = db.row (db.lanVgroup i)) ∨
      db.ConfigWan ∧ ∃ i, (1 ≤ i ∧ i ≤ db.wans) ∧ k = i + db.getNumLan ∧
        v = if db.isLan i then db.row (db.wanVgroup i) else i := by
  simp only [stores, List.mem_append, mem_allStores, mem_lanStores, mem_wanStores,
    Change.index.injEq, reduceCtorEq, and_false, or_false, false_or, exists_false]

theorem isSome_vlanTable (hdoc : db.Documented) : (vlanTable maps db).isSome ↔
    (∀ i, (Port.lan i).IsLan db →
      db.lanVgroup i = 77 ∨ db.lanVgroup i + 1 < db.getNumLan + db.getNumWan) ∧
    (db.ConfigWan → 2 ≤ db.getNumWan) := by
  have hlan1 : 1 ≤ db.getNumLan := one_le_getNumLan
  have hwan1 : 1 ≤ db.getNumWan := one_le_getNumWan
  have hsize : db.vtableSize = db.getNumLan + db.getNumWan + db.wans - 1 := by
    unfold Database.vtableSize Database.wans
    omega
  simp only [vlanTable, isSome_run_iff, List.length_map, List.length_range]
  constructor
  · intro hall
    constructor
    · intro i hi
      have hrow := hall (db.row (db.lanVgroup i), _) (List.mem_append_left _
        (List.mem_append_right _ (mem_lanStores.mpr ⟨i, hi, .inl ⟨rfl, rfl⟩⟩)))
      unfold Database.row at hrow
      split at hrow <;> omega
    · intro hconfig
      have hlast : 1 ≤ db.wans ∧ db.wans ≤ db.wans := by
        unfold Database.wans
        omega
      have hslot := hall (db.wans + db.getNumLan, _) (List.mem_append_right _
        (mem_wanStores.mpr ⟨hconfig, db.wans, hlast, .inr (.inr ⟨rfl, .inl rfl⟩)⟩))
      simp only at hslot
      omega
  · rintro ⟨hgroups, hwans⟩ ⟨k, c⟩ hmem
    simp only [stores, List.mem_append] at hmem
    rcases hmem with (hmem | hmem) | hmem
    · have hk : k = 0 := by
        rcases mem_allStores.mp hmem with ⟨_, _, hk, _⟩ | ⟨_, hk, _⟩ <;> exact hk
      simp only
      omega
    · obtain ⟨i, hi, ⟨rfl, _⟩ | ⟨rfl, _⟩⟩ := mem_lanStores.mp hmem
      · have hfit := hgroups i hi
        simp only [Database.row]
        split <;> omega
      · unfold Database.wans at hsize
        simp only
        omega
    · obtain ⟨hconfig, i, hi, ⟨hlan, rfl, _⟩ | ⟨_, rfl, _⟩ | ⟨rfl, _⟩⟩ := mem_wanStores.mp hmem
      · have hfit := hdoc.wan i ⟨hconfig, hi, hlan⟩
        simp only [Database.row]
        split <;> omega
      · simp only
        omega
      · have htwo := hwans hconfig
        simp only
        omega

theorem exists_entry (ht : vlanTable maps db = some t) (hp : p.IsLan db) :
    ∃ e, t[p.slot db]? = some e ∧ e.index = db.row (p.vgroup db) := by
  have hstored : (p.slot db, .index (db.row (p.vgroup db))) ∈ stores maps db := by
    refine mem_index_stores.mpr ?_
    cases p with
    | lan i => exact .inl ⟨i, hp, rfl, rfl⟩
    | wan i => exact .inr ⟨hp.1, i, hp.2.1, rfl, by simp [hp.2.2, Port.vgroup]⟩
  have honly : ∀ v, .index v ∈ changes (stores maps db) (p.slot db) → v = db.row (p.vgroup db) := by
    intro v hv
    have hcases := mem_index_stores.mp (mem_changes.mp hv)
    cases p with
    | lan i =>
      obtain ⟨_, _, rfl, rfl⟩ | ⟨_, j, hj, hslot, _⟩ := hcases
      · rfl
      · have hi : i ≤ db.getNumLan := hp.2
        simp only [Port.slot] at hslot
        omega
    | wan i =>
      obtain ⟨j, hj, hslot, _⟩ | ⟨_, j, _, hslot, rfl⟩ := hcases
      · have hi : 1 ≤ i := hp.2.1.1
        simp only [Port.slot] at hslot
        omega
      · obtain rfl : i = j := Nat.add_right_cancel hslot
        simp [hp.2.2, Port.vgroup]
  have hentry := getElem?_run ht (p.slot db)
  have hlt := isSome_run_iff.mp (Option.isSome_of_eq_some ht) _ hstored
  rw [List.getElem?_eq_getElem hlt, Option.map_some] at hentry
  exact ⟨_, hentry, index_change honly (.inr (mem_changes.mpr hstored))⟩

/-- The mask of the VLAN of a port has the masks that are stored for it. -/
theorem exists_row (ht : vlanTable maps db = some t) (hp : p.IsLan db) :
    ∃ e, t[db.row (p.vgroup db)]? = some e ∧ ∀ b, e.member.getLsbD b = true ↔
      ∃ bits, (db.row (p.vgroup db), .member bits) ∈ stores maps db ∧ bits.getLsbD b = true := by
  have hstored : (db.row (p.vgroup db), .member (p.mask maps db ||| vlanAllMember maps db)) ∈
      stores maps db := mem_member_stores.mpr (.inr (.inl ⟨p, hp, rfl, rfl⟩))
  have hentry := getElem?_run ht (db.row (p.vgroup db))
  have hlt := isSome_run_iff.mp (Option.isSome_of_eq_some ht) _ hstored
  rw [List.getElem?_eq_getElem hlt, Option.map_some] at hentry
  refine ⟨_, hentry, fun b => ?_⟩
  simp [getLsbD_change, mem_changes]

theorem getLsbD_mask (hmaps : maps.Fits db) (hp : p.IsLan db) (hq : q.IsLan db) :
    (p.mask maps db).getLsbD (q.bit maps db) = true ↔ p = q := by
  simp only [Port.mask, BitVec.getLsbD_twoPow, Bool.and_eq_true, decide_eq_true_eq]
  constructor
  · exact fun h => hmaps.inj p q hp hq h.2
  · rintro rfl
    exact ⟨hmaps.lt p hp, rfl⟩

theorem getLsbD_vlanAllMember_iff {b : ℕ} : (vlanAllMember maps db).getLsbD b = true ↔
    ∃ p : Port, p.IsLan db ∧ VlanAll db p ∧ (p.mask maps db).getLsbD b = true := by
  have hfirst : (Port.lan 1).IsLan db := ⟨Nat.le_refl 1, one_le_getNumLan⟩
  simp only [vlanAllMember, getLsbD_foldl_or, List.mem_append, BitVec.ofNat_eq_ofNat,
    BitVec.getLsbD_zero, Bool.false_eq_true, false_or]
  constructor
  · rintro ⟨bits, (hmirror | hlan) | hwan, hbit⟩
    · split at hmirror
      · next hon =>
        obtain rfl := List.mem_singleton.mp hmirror
        exact ⟨.lan 1, hfirst, .inr ⟨hon, rfl⟩, hbit⟩
      · cases hmirror
    · simp only [List.mem_map, List.mem_filter, mem_range_one, decide_eq_true_eq] at hlan
      obtain ⟨i, ⟨hi, hall⟩, rfl⟩ := hlan
      exact ⟨.lan i, hi, .inl hall, hbit⟩
    · split at hwan
      · next hconfig =>
        simp only [List.mem_map, List.mem_filter, mem_range_one, decide_eq_true_eq] at hwan
        obtain ⟨i, ⟨hi, hlan, hall⟩, rfl⟩ := hwan
        exact ⟨.wan i, ⟨hconfig, hi, hlan⟩, .inl hall, hbit⟩
      · cases hwan
  · rintro ⟨p, hp, hall, hbit⟩
    refine ⟨p.mask maps db, ?_, hbit⟩
    obtain hgroup | ⟨hon, rfl⟩ := hall
    · cases p with
      | lan i =>
        refine .inl (.inr (List.mem_map.mpr ⟨i, ?_, rfl⟩))
        simpa only [List.mem_filter, mem_range_one, decide_eq_true_eq] using ⟨hp, hgroup⟩
      | wan i =>
        refine .inr ?_
        rw [if_pos hp.1]
        refine List.mem_map.mpr ⟨i, ?_, rfl⟩
        simpa only [List.mem_filter, mem_range_one, decide_eq_true_eq] using
          ⟨hp.2.1, hp.2.2, hgroup⟩
    · refine .inl (.inl ?_)
      rw [if_pos hon]
      exact List.mem_singleton_self _

theorem getLsbD_vlanAllMember (hmaps : maps.Fits db) (hq : q.IsLan db) :
    (vlanAllMember maps db).getLsbD (q.bit maps db) = true ↔ VlanAll db q := by
  rw [getLsbD_vlanAllMember_iff]
  constructor
  · rintro ⟨p, hp, hall, hbit⟩
    exact (getLsbD_mask hmaps hp hq).mp hbit ▸ hall
  · intro hall
    exact ⟨q, hq, hall, (getLsbD_mask hmaps hq hq).mpr rfl⟩

theorem pos_of_documented (hdoc : db.Documented) (hp : p.IsLan db) (hgroup : p.vgroup db ≠ 77) :
    1 ≤ p.vgroup db := by
  cases p with
  | lan i => exact ((hdoc.lan i hp).resolve_left hgroup).1
  | wan i => exact ((hdoc.wan i hp).resolve_left hgroup).1

/-- The bits that are stored for the VLAN of a port: the mirror port is added to the other groups,
but the other ports are not added to its own. -/
theorem exists_bits_iff (hmaps : maps.Fits db) (hdoc : db.Documented) (hp : p.IsLan db)
    (hq : q.IsLan db) :
    (∃ bits, (db.row (p.vgroup db), .member bits) ∈ stores maps db ∧
        bits.getLsbD (q.bit maps db) = true) ↔
      p.vgroup db = 77 ∨ p.vgroup db = q.vgroup db ∨ VlanAll db q := by
  constructor
  · rintro ⟨bits, hmem, hbit⟩
    by_cases hgroup : p.vgroup db = 77
    · exact .inl hgroup
    have hpos := pos_of_documented hdoc hp hgroup
    have hrow : db.row (p.vgroup db) = p.vgroup db + db.wans := if_neg hgroup
    rw [hrow] at hmem
    obtain ⟨_, _, hk, _⟩ | ⟨p', hp', hk, rfl⟩ | ⟨_, i, hi, _, hk, _⟩ := mem_member_stores.mp hmem
    · omega
    · have hsame : p.vgroup db = p'.vgroup db := by
        unfold Database.row at hk
        split at hk <;> omega
      rw [BitVec.getLsbD_or, Bool.or_eq_true, getLsbD_mask hmaps hp' hq,
        getLsbD_vlanAllMember hmaps hq] at hbit
      obtain rfl | hall := hbit
      · exact .inr (.inl hsame)
      · exact .inr (.inr hall)
    · omega
  · rintro (hgroup | hsame | hall)
    · have hrow : db.row (p.vgroup db) = 0 := if_pos hgroup
      rw [hrow]
      exact ⟨q.mask maps db, mem_member_stores.mpr (.inl ⟨q, hq, rfl, rfl⟩),
        (getLsbD_mask hmaps hq hq).mpr rfl⟩
    · refine ⟨_, mem_member_stores.mpr (.inr (.inl ⟨q, hq, congrArg _ hsame, rfl⟩)), ?_⟩
      rw [BitVec.getLsbD_or, (getLsbD_mask hmaps hq hq).mpr rfl, Bool.true_or]
    · refine ⟨_, mem_member_stores.mpr (.inr (.inl ⟨p, hp, rfl, rfl⟩)), ?_⟩
      rw [BitVec.getLsbD_or, (getLsbD_vlanAllMember hmaps hq).mpr hall, Bool.or_true]

theorem exists_member (hmaps : maps.Fits db) (hdoc : db.Documented)
    (ht : vlanTable maps db = some t) (hp : p.IsLan db) :
    ∃ e e', t[p.slot db]? = some e ∧ t[e.index]? = some e' ∧ ∀ q : Port, q.IsLan db →
      (e'.member.getLsbD (q.bit maps db) = true ↔
        p.vgroup db = 77 ∨ p.vgroup db = q.vgroup db ∨ VlanAll db q) := by
  obtain ⟨e, hentry, hindex⟩ := exists_entry ht hp
  obtain ⟨e', hrow, hbits⟩ := exists_row ht hp
  exact ⟨e, e', hentry, hindex ▸ hrow, fun q hq =>
    (hbits _).trans (exists_bits_iff hmaps hdoc hp hq)⟩

end Table

section Main

variable {maps : Maps} {db : Database}

theorem separates_table_iff (hmaps : maps.Fits db) (hdoc : db.Documented) {t : List VlanEntry}
    (ht : vlanTable maps db = some t) :
    (∀ p q : Port, p.IsLan db → q.IsLan db → ∃ e e', t[p.slot db]? = some e ∧
        t[e.index]? = some e' ∧ (e'.member.getLsbD (q.bit maps db) = true ↔ Together db p q)) ↔
      (db.mirror → db.lanVgroup 1 = 77 ∨ ∀ p : Port, p.IsLan db →
        p.vgroup db = db.lanVgroup 1 ∨ p.vgroup db = 77) := by
  constructor
  · intro hsep hon
    have hfirst : (Port.lan 1).IsLan db := ⟨Nat.le_refl 1, one_le_getNumLan⟩
    by_cases hall : db.lanVgroup 1 = 77
    · exact .inl hall
    refine .inr fun p hp => ?_
    obtain ⟨e, e', hentry, hrow, hbits⟩ := exists_member hmaps hdoc ht hfirst
    obtain ⟨e₁, e₁', hentry₁, hrow₁, htogether⟩ := hsep _ p hfirst hp
    obtain rfl : e = e₁ := Option.some.inj (hentry.symm.trans hentry₁)
    obtain rfl : e' = e₁' := Option.some.inj (hrow.symm.trans hrow₁)
    have hbit := (hbits p hp).mp (htogether.mpr (.inr (.inl (.inr ⟨hon, rfl⟩))))
    obtain hgroup | hsame | hgroup | ⟨_, rfl⟩ := hbit
    · exact absurd hgroup hall
    · exact .inl hsame.symm
    · exact .inr hgroup
    · exact .inl rfl
  · intro hmirror p q hp hq
    obtain ⟨e, e', hentry, hrow, hbits⟩ := exists_member hmaps hdoc ht hp
    refine ⟨e, e', hentry, hrow, (hbits q hq).trans ?_⟩
    constructor
    · rintro (hgroup | hsame | hall)
      · exact .inr (.inl (.inl hgroup))
      · exact .inl hsame
      · exact .inr (.inr hall)
    · rintro (hsame | (hgroup | ⟨hon, rfl⟩) | hall)
      · exact .inr (.inl hsame)
      · exact .inl hgroup
      · obtain hgroup | hothers := hmirror hon
        · exact .inl hgroup
        · exact .inr ((hothers q hq).imp Eq.symm .inl)
      · exact .inr (.inr hall)

/-- A mirror port in an ordinary group is in the VLANs of ports that are not in its own, and with
one WAN port the last group is out of range. -/
theorem separates_iff (hmaps : maps.Fits db) (hdoc : db.Documented) :
    Separates maps db ↔ db.Simple8021q ∨ db.Fits := by
  by_cases hsimple : db.Simple8021q
  · have hset : nkSetVlanGroup maps db = some none := if_pos hsimple
    exact iff_of_true ⟨none, hset, fun t ht => nomatch ht⟩ (.inl hsimple)
  have hset : nkSetVlanGroup maps db = (vlanTable maps db).map some := if_neg hsimple
  simp only [Separates, hset, hsimple, false_or, Option.map_eq_some_iff]
  constructor
  · rintro ⟨_, ⟨t, ht, rfl⟩, hsep⟩
    obtain ⟨hgroups, hwans⟩ := (isSome_vlanTable hdoc).mp (Option.isSome_of_eq_some ht)
    exact ⟨hgroups, hwans, (separates_table_iff hmaps hdoc ht).mp (hsep t rfl)⟩
  · rintro ⟨hgroups, hwans, hmirror⟩
    obtain ⟨t, ht⟩ := Option.isSome_iff_exists.mp
      ((@isSome_vlanTable maps db hdoc).mpr ⟨hgroups, hwans⟩)
    refine ⟨some t, ⟨t, ht, rfl⟩, fun t' heq => ?_⟩
    obtain rfl := Option.some.inj heq
    exact (separates_table_iff hmaps hdoc ht).mpr hmirror

/-- The eight LAN ports of switch type 82, of which port 1 is mirrored. -/
def mirrored (numWan : ℕ) (lanVgroup : ℕ → ℕ) : Database where
  switchType := 82
  numLan := 8
  numWan := numWan
  numDmz := 0
  mirror := true
  lanVgroup := lanVgroup
  wanVgroup := fun _ => 0
  isLan := fun _ => false

theorem documented_mirrored {numWan : ℕ} {lanVgroup : ℕ → ℕ}
    (h : ∀ i, 1 ≤ i ∧ i ≤ 8 → lanVgroup i = 77 ∨ 1 ≤ lanVgroup i ∧ lanVgroup i ≤ 8) :
    (mirrored numWan lanVgroup).Documented :=
  ⟨h, fun _ hi => absurd hi.2.2 Bool.false_ne_true⟩

theorem separates_iff_mirrored :
    Separates Maps.source (mirrored 2 fun i => if i = 1 then 77 else i) ↔
      (mirrored 2 fun i => if i = 1 then 77 else i).Simple8021q ∨
        (mirrored 2 fun i => if i = 1 then 77 else i).Fits :=
  separates_iff (Maps.source_fits (by decide)) (documented_mirrored fun i hi => by
    split <;> omega)

/-- Each port is in a group of its own, and port 1 is in all their VLANs; with one WAN port there
is no entry for group 8. -/
theorem not_separates_mirrored :
    ¬ Separates Maps.source (mirrored 2 id) ∧ ¬ Separates Maps.source (mirrored 1 id) := by
  have hdoc : ∀ n, (mirrored n id).Documented := fun n => documented_mirrored fun i hi => .inr hi
  constructor
  · rintro ⟨set, hset, hsep⟩
    obtain ⟨t, ht⟩ := Option.isSome_iff_exists.mp
      (by decide +kernel : (vlanTable Maps.source (mirrored 2 id)).isSome)
    have hsome : nkSetVlanGroup Maps.source (mirrored 2 id) = some (some t) := by
      simp only [nkSetVlanGroup, ht, Option.map_some]
      rfl
    obtain rfl := Option.some.inj (hset.symm.trans hsome)
    have hmirror := (separates_table_iff (Maps.source_fits (by decide)) (hdoc 2) ht).mp (hsep t rfl)
    obtain hall | hothers := hmirror rfl
    · exact absurd hall (by decide)
    · exact absurd (hothers (.lan 2) ⟨by decide, by decide⟩) (by decide)
  · rintro ⟨set, hset, _⟩
    have hnone : nkSetVlanGroup Maps.source (mirrored 1 id) = none := by decide +kernel
    exact nomatch hset.symm.trans hnone

end Main

end PortVlan
