import RouterFirmware.BootmemRelease

/-! # The place of an allocation

The walk takes the first entry that passes its test, from the first address in it that is
aligned and not below the minimum. Whether the test is right is a matter of unsigned
subtractions; where it is wrong, the walk cuts an entry and goes away without a block.
-/
namespace Bootmem

open BlockPartition WordMask

variable {d : BootmemDesc} {n lo hi k fuel p : ℕ} {pre skip post l : List Block} {e : Block}

/-! ## The first entry that passes the test -/

/-- Entries that do not pass the test are passed over. -/
theorem allocLoop_pass (hw : Range lo hi k) (h : FreeList d (pre ++ (skip ++ post)))
    (hskip : ∀ c ∈ skip, ¬ Fits n lo hi k c) :
    allocLoop n lo hi (not64 (sub64 (2 ^ k) 1)) (fuel + skip.length) (lastAddrOf pre)
        (headAddrOf (skip ++ post)) d =
      allocLoop n lo hi (not64 (sub64 (2 ^ k) 1)) fuel (lastAddrOf (pre ++ skip))
        (headAddrOf post) d := by
  induction skip generalizing pre with
  | nil => simp
  | cons c skip ih =>
    have h₀ : FreeList d (pre ++ c :: (skip ++ post)) := by simpa using h
    have h₁ : FreeList d ((pre ++ [c]) ++ (skip ++ post)) := by simpa using h
    have hrest := ih h₁ fun b hb => hskip b (by simp [hb])
    rw [lastAddrOf_snoc] at hrest
    rw [List.cons_append, headAddrOf, List.length_cons, ← Nat.add_assoc,
      allocLoop_entry hw h₀, if_neg (hskip c (by simp)), hrest, List.append_assoc,
      List.singleton_append]

/-- Where no entry passes, nothing is taken and nothing changes. -/
theorem allocLoop_none (hw : Range lo hi k) (h : FreeList d (pre ++ skip))
    (hskip : ∀ c ∈ skip, ¬ Fits n lo hi k c) (hfuel : skip.length < fuel) :
    allocLoop n lo hi (not64 (sub64 (2 ^ k) 1)) fuel (lastAddrOf pre) (headAddrOf skip) d =
      some (d, 0) := by
  obtain ⟨q, rfl⟩ : ∃ q, fuel = q + 1 + skip.length := ⟨fuel - 1 - skip.length, by omega⟩
  have hpass := @allocLoop_pass d n lo hi k (q + 1) pre skip [] hw (by simpa using h) hskip
  rw [List.append_nil] at hpass
  rw [hpass, headAddrOf, allocLoop, if_pos rfl]

/-- What stays of an entry out of which `n` bytes are taken at `a`. -/
def leftOver (e : Block) (a n : ℕ) : List Block :=
  (if e.addr < a then [⟨e.addr, a - e.addr⟩] else []) ++
    (if a + n < e.stop then [⟨a + n, e.stop - (a + n)⟩] else [])

theorem takeStart_list (h : FreeList d (pre ++ e :: post)) (hn : 0 < n) (hle : n ≤ e.size)
    (h16 : 16 ∣ n) :
    FreeList (takeStart n (lastAddrOf pre) e.addr d) (pre ++ (leftOver e e.addr n ++ post)) := by
  obtain ⟨a, size⟩ := e
  simp only at hle
  rcases Nat.eq_or_lt_of_le hle with rfl | hlt
  · simpa [leftOver] using takeStart_whole h
  · obtain ⟨m, rfl⟩ : ∃ m, size = n + m := ⟨size - n, by omega⟩
    have hpart := takeStart_part h hn (by omega) h16
    have hrest : leftOver ⟨a, n + m⟩ a n = [⟨a + n, m⟩] := by
      have hsub : a + (n + m) - (a + n) = m := by omega
      rw [leftOver, if_neg (lt_irrefl _), stop_mk, hsub, if_pos (by omega), List.nil_append]
    rw [hrest]
    exact hpart

/-- An entry that passes with room below the limit is taken from its first usable address on. -/
theorem allocLoop_take_first (hw : Range lo hi k) (h : FreeList d (pre ++ e :: post))
    (hfit : Fits n lo hi k e) (hbase : roundUp (max lo e.addr) (2 ^ k) < hi) :
    ∃ d', allocLoop n lo hi (not64 (sub64 (2 ^ k) 1)) (fuel + 2) (lastAddrOf pre) e.addr d =
        some (d', roundUp (max lo e.addr) (2 ^ k)) ∧
      (0 < n → 16 ∣ n → FreeList d'
        (pre ++ (leftOver e (roundUp (max lo e.addr) (2 ^ k)) n ++ post))) := by
  by_cases hstart : roundUp (max lo e.addr) (2 ^ k) = e.addr
  · rw [allocLoop_entry hw h, if_pos hfit, if_pos hstart, hstart]
    exact ⟨_, rfl, fun hn h16 => takeStart_list h hn (size_of_fits hw.max_lt hfit hstart) h16⟩
  · obtain ⟨m, q, hm, hq, hsize, heq, hagain, h₁, hturn⟩ :=
      @allocLoop_split d n lo hi k (lastAddrOf pre) (fuel + 1) pre post e hw h hfit hstart
    have h₁' : FreeList (splitEntry e.addr (e.addr + m) d)
        ((pre ++ [⟨e.addr, m⟩]) ++ ⟨e.addr + m, q⟩ :: post) := by simpa using h₁
    have hstop : (⟨e.addr + m, q⟩ : Block).stop = e.stop := by
      rw [stop_mk, Block.stop, hsize, Nat.add_assoc]
    have hfit₁ : Fits n lo hi k ⟨e.addr + m, q⟩ := by
      have hn := hfit.2
      rw [heq] at hn hbase
      rw [Fits, hstop, hagain]
      exact ⟨⟨heq ▸ hfit.1.1, hbase⟩, hn⟩
    have hlast := lastAddrOf_snoc pre ⟨e.addr, m⟩
    have hnext := @allocLoop_entry _ n lo hi k (lastAddrOf (pre ++ [⟨e.addr, m⟩])) fuel _ post
      ⟨e.addr + m, q⟩ hw h₁'
    rw [if_pos hfit₁, if_pos hagain, hagain] at hnext
    refine ⟨takeStart n (lastAddrOf (pre ++ [⟨e.addr, m⟩])) (e.addr + m)
      (splitEntry e.addr (e.addr + m) d), ?_, fun hn h16 => ?_⟩
    · rw [hturn, heq, ← hnext, hlast]
    · have hlist := takeStart_list h₁' hn (size_of_fits hw.max_lt hfit₁ hagain) h16
      have hparts : pre ++ [⟨e.addr, m⟩] ++ (leftOver ⟨e.addr + m, q⟩ (e.addr + m) n ++ post) =
          pre ++ (leftOver e (e.addr + m) n ++ post) := by
        have hsub : e.addr + m - e.addr = m := by omega
        simp [leftOver, hstop, hm, hsub]
      rw [heq, ← hparts]
      exact hlist

/-- An entry that passes although its first usable address is not below the limit is cut there,
and nothing is taken. -/
theorem allocLoop_cut_first (hw : Range lo hi k) (h : FreeList d (pre ++ e :: post))
    (hfit : Fits n lo hi k e) (hbase : hi ≤ roundUp (max lo e.addr) (2 ^ k))
    (hfuel : post.length + 2 < fuel) :
    ∃ d' m q, allocLoop n lo hi (not64 (sub64 (2 ^ k) 1)) fuel (lastAddrOf pre) e.addr d =
        some (d', 0) ∧
      FreeList d' (pre ++ ⟨e.addr, m⟩ :: ⟨e.addr + m, q⟩ :: post) := by
  obtain ⟨fuel, rfl⟩ : ∃ q, fuel = q + 1 := ⟨fuel - 1, by omega⟩
  have hstart : roundUp (max lo e.addr) (2 ^ k) ≠ e.addr := by
    have := hfit.1.2
    omega
  obtain ⟨m, q, hm, hq, hsize, heq, -, h₁, hturn⟩ :=
    @allocLoop_split d n lo hi k (lastAddrOf pre) fuel pre post e hw h hfit hstart
  refine ⟨_, m, q, ?_, h₁⟩
  have h₁' : FreeList (splitEntry e.addr (e.addr + m) d)
      ((pre ++ [⟨e.addr, m⟩]) ++ ⟨e.addr + m, q⟩ :: post) := by simpa using h₁
  have hbehind : ∀ c ∈ (⟨e.addr + m, q⟩ : Block) :: post, ¬ Fits n lo hi k c := by
    intro c hc hpass
    have hlt := hpass.1.2
    rcases List.mem_cons.mp hc with rfl | hc
    · simp only at hlt
      omega
    · have hle := h₁'.tidy.behind hc
      simp only [stop_mk] at hle
      omega
  have hnone := allocLoop_none hw h₁' hbehind (by simp only [List.length_cons]; omega : _ < fuel)
  rw [lastAddrOf_snoc] at hnone
  rw [hturn]
  exact hnone

/-! ## What a request asks for -/

namespace Request

/-- The end of the addresses admitted: a minimum without a maximum asks for this very place,
and neither of them for any place. -/
def limit (r : Request) : ℕ :=
  if r.addressMin ≠ 0 ∧ r.addressMax = 0 then r.addressMin + ceilTo alignmentSize r.reqSize
  else if r.addressMin = 0 ∧ r.addressMax = 0 then 2 ^ 64 - 1
  else r.addressMax

/-- An address at which the request can be met. -/
structure Place (r : Request) (l : List Block) (a : ℕ) : Prop where
  aligned : max r.alignment alignmentSize ∣ a
  min_le : r.addressMin ≤ a
  le_max : a + ceilTo alignmentSize r.reqSize ≤ r.limit
  inside : ∃ e ∈ l, e.addr ≤ a ∧ a + r.reqSize ≤ e.stop

/-- `address_min` and `address_max` as the walk finds them. -/
def walkMin (r : Request) : ℕ :=
  if r.alignment ≠ 0 then roundUp r.addressMin r.alignment else r.addressMin

def walkMax (r : Request) : ℕ := adjustMax r.rounded r.addressMin r.addressMax

def usableBase (r : Request) (e : Block) : ℕ :=
  roundUp (max r.walkMin e.addr) (max r.alignment alignmentSize)

/-- The test of the walk. -/
def Passes (r : Request) (e : Block) : Prop :=
  (e.stop > r.usableBase e ∧ e.addr < r.walkMax) ∧
    r.rounded ≤ sub64 (min r.walkMax e.stop) (r.usableBase e)

variable {r : Request}

instance : DecidablePred r.Passes := fun _ => inferInstanceAs (Decidable ((_ ∧ _) ∧ _))

/-- The walk is made, and some entry passes the test. -/
def AnyPasses (r : Request) (l : List Block) : Prop :=
  r.rounded ≤ sub64 r.walkMax r.walkMin ∧ ∃ e ∈ l, r.Passes e

instance : Decidable (r.AnyPasses l) := inferInstanceAs (Decidable (_ ∧ _))

theorem first_passing (h : ∃ e ∈ l, r.Passes e) :
    ∃ pre e post, l = pre ++ e :: post ∧ (∀ c ∈ pre, ¬ r.Passes c) ∧ r.Passes e := by
  obtain ⟨e, hfind⟩ : ∃ e, l.find? (fun c => decide (r.Passes c)) = some e := by
    rw [← Option.isSome_iff_exists, List.find?_isSome]
    simpa using h
  obtain ⟨hpass, pre, post, hl, hpre⟩ := List.find?_eq_some_iff_append.mp hfind
  exact ⟨pre, e, post, hl, by simpa using hpre, by simpa using hpass⟩

variable (r) in
theorem alloc_walk (h : FreeList d l) (hver : d.majorVersion ≤ 3)
    (hsize : r.reqSize ≠ 0) (hmin : 16 ∣ r.addressMin) :
    ∃ k, max r.alignment alignmentSize = 2 ^ k ∧ Range r.walkMin r.walkMax k ∧
      octeonPhyMemBlockAlloc fuel r.reqSize r.addressMin r.addressMax r.alignment d =
        if r.rounded > sub64 r.walkMax r.walkMin then some (d, 0)
        else allocLoop r.rounded r.walkMin r.walkMax (not64 (sub64 (2 ^ k) 1)) fuel
          (lastAddrOf []) (headAddrOf l) d := by
  have hmask : r.addressMin &&& (alignmentSize - 1) = 0 := by
    have hand := Nat.and_two_pow_sub_one_eq_mod r.addressMin 4
    rw [show alignmentSize - 1 = 2 ^ 4 - 1 from rfl, hand]
    exact Nat.mod_eq_zero_of_dvd hmin
  obtain ⟨k, hk, hk4, hk64, hdvd, hlt⟩ := alignment_spec r.alignment_ok r.min_lt hmask
  have hmax : max r.alignment alignmentSize = 2 ^ k := by
    rw [← hk]
    split
    · next hlt => exact max_eq_right hlt.le
    · next hge => exact max_eq_left (not_lt.mp hge)
  refine ⟨k, hmax, ⟨hdvd, hlt, adjustMax_lt r.max_lt, hk4, hk64⟩, ?_⟩
  rw [octeonPhyMemBlockAlloc, if_neg (by omega), if_neg hsize]
  simp only [hmask, ne_eq, not_true_eq_false, if_false, hk]
  rw [lastAddrOf_nil, ← h.chain.start]
  rfl

theorem fits_iff (hk : max r.alignment alignmentSize = 2 ^ k) :
    Fits r.rounded r.walkMin r.walkMax k e ↔ r.Passes e := by
  rw [Fits, Passes, usableBase, hk]

section Room

variable {x : ℕ} (hk : max r.alignment alignmentSize = 2 ^ k)
  (hw : Range r.walkMin r.walkMax k) (hsize : r.reqSize ≠ 0) (h : FreeList d l)

include hk hw in
theorem sixteen_dvd_of_dvd (hx : max r.alignment alignmentSize ∣ x) : 16 ∣ x := by
  rw [hk] at hx
  exact dvd_trans (Nat.pow_dvd_pow 2 hw.align_ge) hx

theorem alignment_dvd_of_dvd (hx : max r.alignment alignmentSize ∣ x) : r.alignment ∣ x ∨
    r.alignment = 0 := by
  rcases r.alignment_ok with hzero | hpow
  · exact Or.inr hzero
  · obtain ⟨j, hj, halign⟩ := hpow
    refine Or.inl (dvd_trans ?_ hx)
    rcases le_total r.alignment alignmentSize with hle | hle
    · rw [max_eq_right hle, halign]
      rw [halign, show alignmentSize = 2 ^ 4 from rfl] at hle
      exact Nat.pow_dvd_pow 2 ((Nat.pow_le_pow_iff_right (by decide)).mp hle)
    · rw [max_eq_left hle]

include hk hw hsize h in
/-- A place for the request has room for the rounded size, and no number leaves the word. -/
theorem Place.bounds (hx : r.Place l x) (he : e ∈ l) (hstop : x + r.reqSize ≤ e.stop) :
    r.rounded = ceilTo alignmentSize r.reqSize ∧ 0 < r.rounded ∧ x + r.rounded ≤ e.stop ∧
      r.addressMin ≤ r.walkMin ∧ r.walkMin ≤ x ∧ r.walkMax = r.limit ∧
      x + r.rounded ≤ r.walkMax := by
  have hwf := h.tidy.wf e he
  have hend : e.addr + e.size ≤ 2 ^ 63 := hwf.stop_le
  have hsixteen := sixteen_dvd_of_dvd hk hw hx.aligned
  rw [Block.stop] at hstop
  have hrounded : r.rounded = ceilTo alignmentSize r.reqSize :=
    @roundUp_eq 4 r.reqSize (by decide) (by omega)
  have hge : r.reqSize ≤ ceilTo alignmentSize r.reqSize := le_ceilTo (by decide) _
  have hfit : ceilTo alignmentSize r.reqSize ≤ e.addr + e.size - x := by
    apply ceilTo_le (by decide)
    · exact Nat.dvd_sub (Nat.dvd_add hwf.addr_dvd hwf.size_dvd) hsixteen
    · omega
  have hminle := hx.min_le
  have hmax : r.walkMax = r.limit := by
    rw [walkMax, limit, adjustMax, hrounded]
    split
    · rw [add64_of_lt (by omega)]
    · rfl
  have hmin : r.addressMin ≤ r.walkMin ∧ r.walkMin ≤ x := by
    rw [walkMin]
    split
    · next hne =>
      obtain hdvd | hzero := alignment_dvd_of_dvd hx.aligned
      · rcases r.alignment_ok with hzero | hpow
        · exact absurd hzero hne
        · obtain ⟨j, hj, halign⟩ := hpow
          have hjle : 2 ^ j ≤ 2 ^ 63 := Nat.pow_le_pow_right (by decide) (by omega)
          rw [halign] at hdvd ⊢
          rw [roundUp_eq hj (by omega)]
          exact ⟨le_ceilTo (Nat.two_pow_pos j) _, ceilTo_le (Nat.two_pow_pos j) hdvd hminle⟩
      · exact absurd hzero hne
    · exact ⟨le_refl _, hminle⟩
  have hlimit := hx.le_max
  rw [hrounded, hmax, Block.stop]
  exact ⟨rfl, by omega, by omega, hmin.1, hmin.2, rfl, hlimit⟩

include hk hw h in
theorem usableBase_least (he : e ∈ l) : max r.alignment alignmentSize ∣ r.usableBase e ∧
    e.addr ≤ r.usableBase e ∧ r.walkMin ≤ r.usableBase e ∧
    ∀ x, max r.alignment alignmentSize ∣ x → e.addr ≤ x → r.walkMin ≤ x → x < 2 ^ 63 →
      r.usableBase e ≤ x := by
  have hcell := (h.tidy.wf e he).cell.2
  obtain ⟨hdvd, hge, hmin⟩ := usableBase_spec hw.align_lt hw.min_dvd hw.min_lt hcell
  rw [usableBase, hk]
  refine ⟨hdvd, hge, hmin, fun x hx hle hlo hlt => ?_⟩
  have hpow : 2 ^ k ≤ 2 ^ 63 := Nat.pow_le_pow_right (by decide) (by have := hw.align_lt; omega)
  rw [roundUp_eq hw.align_lt (by omega)]
  exact ceilTo_le (Nat.two_pow_pos k) hx (max_le hlo hle)

include hk hw hsize h in
/-- The entry with a place passes the test, from its first usable address on. -/
theorem Place.passes (hx : r.Place l x) (he : e ∈ l) (hle : e.addr ≤ x)
    (hstop : x + r.reqSize ≤ e.stop) : r.Passes e ∧ r.usableBase e ≤ x := by
  obtain ⟨-, hpos, hroom, -, hmin, -, hmax⟩ := Place.bounds hk hw hsize h hx he hstop
  have hend : e.stop ≤ 2 ^ 63 := (h.tidy.wf e he).stop_le
  have hbase : r.usableBase e ≤ x :=
    (usableBase_least hk hw h he).2.2.2 x hx.aligned hle hmin (by omega)
  have hcap : min r.walkMax e.stop < 2 ^ 64 := lt_of_le_of_lt (min_le_left _ _) hw.max_lt
  refine ⟨⟨⟨by omega, by omega⟩, ?_⟩, hbase⟩
  rw [sub64_of_le hcap (by omega)]
  omega

include hk hw h in
/-- An entry that passes below the limit has a place, if no number left the word. -/
theorem place_of_passes (hrounded : r.rounded = ceilTo alignmentSize r.reqSize)
    (hlo : r.addressMin ≤ r.walkMin) (hlimit : r.walkMax = r.limit) (he : e ∈ l)
    (hpass : r.Passes e) (hbelow : r.usableBase e ≤ r.walkMax) : r.Place l (r.usableBase e) := by
  obtain ⟨hdvd, hge, hmin, -⟩ := usableBase_least hk hw h he
  have hcap : min r.walkMax e.stop < 2 ^ 64 := lt_of_le_of_lt (min_le_left _ _) hw.max_lt
  have hstart := hpass.1.1
  have hroom := hpass.2
  rw [sub64_of_le hcap (by omega)] at hroom
  have hsizele : r.reqSize ≤ r.rounded := by
    rw [hrounded]
    exact le_ceilTo (by decide) _
  refine ⟨hdvd, by omega, ?_, e, he, hge, by omega⟩
  rw [← hrounded, ← hlimit]
  omega

include hk hw h in
/-- Without a place the entries that pass are those in which the first usable address is behind
the limit, as long as no number leaves the word. -/
theorem passes_iff_of_no_place (hrounded : r.rounded = ceilTo alignmentSize r.reqSize)
    (hlo : r.addressMin ≤ r.walkMin) (hlimit : r.walkMax = r.limit) (hnone : ¬ ∃ y, r.Place l y)
    (he : e ∈ l) : r.Passes e ↔
      (e.addr < r.limit ∧ r.limit < r.usableBase e ∧ r.usableBase e < e.stop) ∧
        r.rounded ≤ sub64 r.limit (r.usableBase e) := by
  rw [← hlimit]
  constructor
  · intro hpass
    have hover : r.walkMax < r.usableBase e := by
      by_contra hle
      exact hnone ⟨_, place_of_passes hk hw h hrounded hlo hlimit he hpass (not_lt.mp hle)⟩
    have hstart := hpass.1.1
    have hroom := hpass.2
    rw [min_eq_left (by omega)] at hroom
    exact ⟨⟨hpass.1.2, hover, hstart⟩, hroom⟩
  · intro hover
    obtain ⟨⟨haddr, hbase, hstart⟩, hroom⟩ := hover
    refine ⟨⟨hstart, haddr⟩, ?_⟩
    rw [min_eq_left (by omega)]
    exact hroom

include hk hw hsize h in
theorem Place.first {pre post : List Block} {e : Block} (hl : l = pre ++ e :: post)
    (hpre : ∀ c ∈ pre, ¬ r.Passes c) (he : r.Passes e) (hx : r.Place l x) :
    r.usableBase e < r.walkMax ∧ IsLeast { y | r.Place l y } (r.usableBase e) := by
  have hmem : e ∈ l := by simp [hl]
  have htidy : Tidy (pre ++ e :: post) := hl ▸ h.tidy
  have hwhere : ∀ y c, r.Place l y → c ∈ l → c.addr ≤ y → y + r.reqSize ≤ c.stop →
      c = e ∨ e.stop ≤ y := by
    intro y c hy hc hle hstop
    have hpass := (Place.passes hk hw hsize h hy hc hle hstop).1
    rw [hl] at hc
    rcases List.mem_append.mp hc with hin | hin
    · exact absurd hpass (hpre c hin)
    · rcases List.mem_cons.mp hin with rfl | hin
      · exact Or.inl rfl
      · exact Or.inr (le_trans (htidy.behind hin) hle)
  have hleast : ∀ y, r.Place l y → r.usableBase e ≤ y := by
    intro y hy
    obtain ⟨c, hc, hle, hstop⟩ := hy.inside
    rcases hwhere y c hy hc hle hstop with rfl | hbehind
    · exact (Place.passes hk hw hsize h hy hc hle hstop).2
    · exact le_trans he.1.1.le hbehind
  obtain ⟨c, hc, hle, hstop⟩ := hx.inside
  obtain ⟨hrounded, hpos, -, hlo, -, hlimit, hmax⟩ := Place.bounds hk hw hsize h hx hc hstop
  have hbelow : r.usableBase e < r.walkMax := by
    have := hleast x hx
    omega
  have hplace := place_of_passes hk hw h hrounded hlo hlimit hmem he hbelow.le
  exact ⟨hbelow, hplace, fun y hy => hleast y hy⟩

end Room

end Request

/-! ## What an allocation is for -/

/-- The first place is returned when there is one, and otherwise `0`, with the list unchanged. -/
def PlacesExactly (fuel : ℕ) (d : BootmemDesc) (l : List Block) (r : Request) : Prop :=
  ∃ d' a, octeonPhyMemBlockAlloc fuel r.reqSize r.addressMin r.addressMax r.alignment d =
      some (d', a) ∧
    (a ≠ 0 → IsLeast { x | r.Place l x } a) ∧
    (a = 0 → (∀ x, ¬ r.Place l x) ∧ FreeList d' l)

theorem Chain.unique {a : ℕ} {l k : List Block} (hl : Chain d a l 0) (hk : Chain d a k 0)
    (hlpos : ∀ b ∈ l, 0 < b.addr) (hkpos : ∀ b ∈ k, 0 < b.addr) : l = k := by
  induction l generalizing a k with
  | nil =>
    cases k with
    | nil => rfl
    | cons c k =>
      have hc := hkpos c (by simp)
      have hzero : a = 0 := hl
      have haddr := hk.1
      omega
  | cons b l ih =>
    cases k with
    | nil =>
      have hb := hlpos b (by simp)
      have hzero : a = 0 := hk
      have haddr := hl.1
      omega
    | cons c k =>
      obtain ⟨hba, hbsize, hbrest⟩ := hl
      obtain ⟨hca, hcsize, hcrest⟩ := hk
      have haddr : b.addr = c.addr := hba.symm.trans hca
      have hbc : b = c := by
        obtain ⟨x, m⟩ := b
        obtain ⟨y, m'⟩ := c
        simp only at haddr hbsize hcsize
        rw [haddr] at hbsize
        rw [Block.mk.injEq]
        exact ⟨haddr, hbsize.symm.trans hcsize⟩
      subst hbc
      rw [ih hbrest hcrest (fun e he => hlpos e (by simp [he])) fun e he => hkpos e (by simp [he])]

theorem FreeList.unique {l k : List Block} (hl : FreeList d l) (hk : FreeList d k) : l = k :=
  hl.chain.unique hk.chain (fun b hb => (hl.tidy.wf b hb).addr_pos)
    fun b hb => (hk.tidy.wf b hb).addr_pos

/-- What the walk makes of the first entry that passes: it is taken from its first usable
address on if that is below the limit, and cut there otherwise. -/
theorem alloc_first {r : Request} (h : FreeList d l) (hver : d.majorVersion ≤ 3)
    (hsize : r.reqSize ≠ 0) (hmin : 16 ∣ r.addressMin) (hfuel : 2 ^ 61 ≤ fuel)
    (hwalk : r.rounded ≤ sub64 r.walkMax r.walkMin) (hl : l = pre ++ e :: post)
    (hpre : ∀ c ∈ pre, ¬ r.Passes c) (he : r.Passes e) :
    (r.usableBase e < r.walkMax → ∃ d',
      octeonPhyMemBlockAlloc fuel r.reqSize r.addressMin r.addressMax r.alignment d =
        some (d', r.usableBase e) ∧
      (0 < r.rounded → 16 ∣ r.rounded →
        FreeList d' (pre ++ (leftOver e (r.usableBase e) r.rounded ++ post)))) ∧
    (r.walkMax ≤ r.usableBase e → ∃ d' m q,
      octeonPhyMemBlockAlloc fuel r.reqSize r.addressMin r.addressMax r.alignment d =
        some (d', 0) ∧
      FreeList d' (pre ++ ⟨e.addr, m⟩ :: ⟨e.addr + m, q⟩ :: post)) := by
  obtain ⟨k, hk, hw, hrun⟩ := @Request.alloc_walk d fuel l r h hver hsize hmin
  have hlen := h.tidy.length_le
  have hcount : l.length = pre.length + (post.length + 1) := by simp [hl]
  obtain ⟨q, rfl⟩ : ∃ q, fuel = q + 2 + pre.length := ⟨fuel - 2 - pre.length, by omega⟩
  have hfits : ∀ c ∈ pre, ¬ Fits r.rounded r.walkMin r.walkMax k c := fun c hc =>
    mt (Request.fits_iff hk).mp (hpre c hc)
  have hfit := (Request.fits_iff hk).mpr he
  have hbase : r.usableBase e = roundUp (max r.walkMin e.addr) (2 ^ k) := by
    rw [Request.usableBase, hk]
  subst hl
  have hpass := @allocLoop_pass d r.rounded r.walkMin r.walkMax k (q + 2) [] pre (e :: post) hw h
    hfits
  rw [if_neg (by omega), hpass, List.nil_append] at hrun
  rw [hrun, hbase]
  constructor
  · exact fun hlt => allocLoop_take_first hw h hfit hlt
  · exact fun hle => allocLoop_cut_first hw h hfit hle (by omega)

/-- Where no entry passes the test, nothing is taken and nothing changes. -/
theorem alloc_none {r : Request} (h : FreeList d l) (hver : d.majorVersion ≤ 3)
    (hsize : r.reqSize ≠ 0) (hmin : 16 ∣ r.addressMin) (hfuel : 2 ^ 61 ≤ fuel)
    (hnone : ¬ r.AnyPasses l) :
    octeonPhyMemBlockAlloc fuel r.reqSize r.addressMin r.addressMax r.alignment d =
      some (d, 0) := by
  obtain ⟨k, hk, hw, hrun⟩ := @Request.alloc_walk d fuel l r h hver hsize hmin
  rw [hrun]
  split
  · rfl
  · next hwalk =>
    have hlen := h.tidy.length_le
    refine @allocLoop_none d _ _ _ k fuel [] l hw h (fun c hc hfit => hnone ?_) (by omega)
    exact ⟨by omega, c, hc, (Request.fits_iff hk).mp hfit⟩

theorem Request.usableBase_pos {r : Request} (h : FreeList d l) (hver : d.majorVersion ≤ 3)
    (hsize : r.reqSize ≠ 0) (hmin : 16 ∣ r.addressMin) (he : e ∈ l) : r.usableBase e ≠ 0 := by
  obtain ⟨k, hk, hw, -⟩ := @Request.alloc_walk d 0 l r h hver hsize hmin
  have hge := (Request.usableBase_least hk hw h he).2.1
  have hpos := (h.tidy.wf e he).addr_pos
  omega

/-- An allocation does what it is for exactly if there is a place for the request, or no entry
passes the test. -/
theorem places_exactly_iff (r : Request) (h : FreeList d l) (hver : d.majorVersion ≤ 3)
    (hsize : r.reqSize ≠ 0) (hmin : 16 ∣ r.addressMin) (hfuel : 2 ^ 61 ≤ fuel) :
    PlacesExactly fuel d l r ↔ (∃ x, r.Place l x) ∨ ¬ r.AnyPasses l := by
  obtain ⟨k, hk, hw, -⟩ := @Request.alloc_walk d fuel l r h hver hsize hmin
  by_cases hplace : ∃ x, r.Place l x
  · refine ⟨fun _ => Or.inl hplace, fun _ => ?_⟩
    obtain ⟨x, hx⟩ := hplace
    obtain ⟨c, hc, hle, hstop⟩ := hx.inside
    have hpass := (Request.Place.passes hk hw hsize h hx hc hle hstop).1
    obtain ⟨-, -, -, -, hmin', -, hmax'⟩ := Request.Place.bounds hk hw hsize h hx hc hstop
    have hwalk : r.rounded ≤ sub64 r.walkMax r.walkMin := by
      rw [sub64_of_le hw.max_lt (by omega)]
      omega
    obtain ⟨pre, e, post, hl, hpre, he⟩ := Request.first_passing ⟨c, hc, hpass⟩
    obtain ⟨hbelow, hleast⟩ := Request.Place.first hk hw hsize h hl hpre he hx
    obtain ⟨d', hrun, -⟩ := (alloc_first h hver hsize hmin hfuel hwalk hl hpre he).1 hbelow
    have hbase := Request.usableBase_pos h hver hsize hmin (by simp [hl] : e ∈ l)
    exact ⟨d', _, hrun, fun _ => hleast, fun hzero => absurd hzero hbase⟩
  · simp only [hplace, false_or]
    constructor
    · intro hexact hany
      obtain ⟨hwalk, hsome⟩ := hany
      obtain ⟨pre, e, post, hl, hpre, he⟩ := Request.first_passing hsome
      obtain ⟨htake, hcut⟩ := alloc_first h hver hsize hmin hfuel hwalk hl hpre he
      obtain ⟨d', a, hrun, hleast, hzero⟩ := hexact
      rcases lt_or_ge (r.usableBase e) r.walkMax with hlt | hge
      · -- an address is returned although there is no place
        obtain ⟨d₁, hrun₁, -⟩ := htake hlt
        rw [hrun, Option.some.injEq, Prod.mk.injEq] at hrun₁
        have hbase := Request.usableBase_pos h hver hsize hmin (by simp [hl] : e ∈ l)
        rw [← hrun₁.2] at hbase
        exact hplace ⟨a, (hleast hbase).1⟩
      · -- an entry is cut although nothing is returned
        obtain ⟨d₁, m, q, hrun₁, hlist⟩ := hcut hge
        rw [hrun, Option.some.injEq, Prod.mk.injEq] at hrun₁
        obtain ⟨rfl, rfl⟩ := hrun₁
        have hsame := (hzero rfl).2.unique hlist
        have hcount := congrArg List.length hsame
        simp [hl] at hcount
    · intro hnone
      rw [not_exists] at hplace
      exact ⟨d, 0, alloc_none h hver hsize hmin hfuel hnone, fun hne => absurd rfl hne,
        fun _ => ⟨hplace, h⟩⟩

theorem places_exactly_page :
    PlacesExactly (2 ^ 61) (ofBlock ⟨4096, 4096⟩ 128 []) [⟨4096, 4096⟩]
        (.anywhere 100 (by decide)) ↔
      (∃ x, (Request.anywhere 100 (by decide)).Place [⟨4096, 4096⟩] x) ∨
        ¬ (Request.anywhere 100 (by decide)).AnyPasses [⟨4096, 4096⟩] :=
  places_exactly_iff _ (freeList_ofBlock wf_page 128 []) (by decide) (by decide) (by decide)
    (le_refl _)

/-- 16 bytes below 5000, at a multiple of 8192. -/
def lowAndAligned : Request :=
  ⟨16, 0, 5000, 8192, by decide, Nat.two_pow_pos 64, by decide, Or.inr ⟨13, by decide, rfl⟩⟩

/-- A request that cannot be met cuts the entry that reaches over the limit. -/
theorem failed_request_cuts_entry :
    FreeList (ofBlock ⟨4096, 8192⟩ 128 []) [⟨4096, 8192⟩] ∧
      ¬ PlacesExactly (2 ^ 61) (ofBlock ⟨4096, 8192⟩ 128 []) [⟨4096, 8192⟩] lowAndAligned := by
  have hwf : Wf ⟨4096, 8192⟩ := by constructor <;> decide
  have hlist := freeList_ofBlock hwf 128 []
  refine ⟨hlist, fun hexact => ?_⟩
  obtain ⟨d', a, hrun, -, hzero⟩ := hexact
  have hresult : (octeonPhyMemBlockAlloc (2 ^ 61) 16 0 5000 8192 (ofBlock ⟨4096, 8192⟩ 128 [])).map
      (fun out => (out.2, out.1.size 4096)) = some (0, 4096) := by
    decide
  rw [show octeonPhyMemBlockAlloc (2 ^ 61) 16 0 5000 8192 (ofBlock ⟨4096, 8192⟩ 128 []) =
    some (d', a) from hrun, Option.map_some, Option.some.injEq, Prod.mk.injEq] at hresult
  obtain ⟨-, hlist'⟩ := hzero hresult.1
  have hsize : d'.size 4096 = 8192 := hlist'.chain.2.1
  have hcut : d'.size 4096 = 4096 := hresult.2
  omega

end Bootmem
