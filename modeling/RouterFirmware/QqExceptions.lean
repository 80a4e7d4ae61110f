import Mathlib.Data.Finset.Card
import Mathlib.Data.Finset.Lattice.Fold
import Mathlib.Data.List.Induction
import Mathlib.Order.Lattice.Nat
import RouterFirmware.LinkedSegment

/-! # The exception list of the QQ filter

A list of QQ numbers, linked in memory, that the filter walks for each packet and whose order it
changes on the way: a number that is found behind the first ten goes to the front.
-/
namespace QqExceptions

open LinkedSegment

inductive Fault where
  /-- A node is read that is not allocated. -/
  | freed
  /-- The list is a circle. -/
  | endless
  deriving DecidableEq

structure ExceptionQq where
  qqNum : UInt64
  next : Option ℕ
  deriving DecidableEq

/-- `exception_qq_list`, the nodes by address and those that are allocated. -/
structure Memory where
  exceptionQqList : Option ℕ
  node : ℕ → ExceptionQq
  live : Finset ℕ

structure RestrictApp where
  exceptSIp : Fin 100 → UInt32
  exceptEIp : Fin 100 → UInt32

structure State where
  memory : Memory
  restrictApp : RestrictApp

def initial : State := ⟨⟨none, fun _ => ⟨0, none⟩, ∅⟩, ⟨fun _ => 0, fun _ => 0⟩⟩

/-- A packet: whether its device is the LAN interface, and the bytes from its IP header on. What
lies behind its end can be read, too. -/
structure SkBuff where
  fromLan : Bool
  data : ℕ → UInt8

namespace SkBuff

variable (skb : SkBuff)

def be16 (i : ℕ) : ℕ := 256 * (skb.data i).toNat + (skb.data (i + 1)).toNat

def be32 (i : ℕ) : ℕ := 65536 * skb.be16 i + skb.be16 (i + 2)

def ihl : ℕ := (skb.data 0).toNat % 16

def totLen : ℕ := skb.be16 2

def protocol : UInt8 := skb.data 9

def saddr : UInt32 := UInt32.ofNat (skb.be32 12)

/-- The destination port, which UDP and TCP have in the same place. -/
def dest : ℕ := skb.be16 (4 * skb.ihl + 2)

end SkBuff

inductive Verdict where
  | accept
  | drop
  deriving DecidableEq

/-- `LIMIT_FOR_CHANGE_ORDER`. -/
def limitForChangeOrder : ℕ := 10

def Memory.setNext (m : Memory) (a : ℕ) (next : Option ℕ) : Memory :=
  { m with node := Function.update m.node a { m.node a with next := next } }

def searchPrevLoop (m : Memory) (user : ℕ) : ℕ → Option ℕ → Except Fault (Option ℕ)
  | 0, _ => .error .endless
  | _ + 1, none => .ok none
  | fuel + 1, some tmp =>
    if tmp ∉ m.live then .error .freed
    else if (m.node tmp).next = some user then .ok (some tmp)
    else searchPrevLoop m user fuel (m.node tmp).next

/-- A list has no more nodes than are allocated, unless it is a circle. -/
def Memory.fuel (m : Memory) : ℕ := m.live.card + 1

def searchPrevQqNum (m : Memory) (user : ℕ) : Except Fault (Option ℕ) :=
  searchPrevLoop m user m.fuel m.exceptionQqList

/-- A node that is found behind the first ten goes to the front. -/
def changeOrder (m : Memory) (p order : ℕ) : Except Fault Memory :=
  if limitForChangeOrder ≤ order then do
    match ← searchPrevQqNum m p with
    | none => .ok m
    | some prev =>
      let m := m.setNext prev (m.node p).next
      let m := m.setNext p m.exceptionQqList
      .ok { m with exceptionQqList := some p }
  else .ok m

def searchLoop (m : Memory) (iNum : UInt64) : ℕ → Option ℕ → ℕ → Except Fault (Memory × Verdict)
  | 0, _, _ => .error .endless
  | _ + 1, none, _ => .ok (m, .drop)
  | fuel + 1, some p, order =>
    if p ∉ m.live then .error .freed
    else if (m.node p).qqNum = iNum then do
      let m ← changeOrder m p order
      .ok (m, .accept)
    else searchLoop m iNum fuel (m.node p).next (order + 1)

def exempt (r : RestrictApp) (saddr : UInt32) : Bool :=
  (List.finRange 100).any fun i =>
    r.exceptEIp i != 0 && decide (r.exceptSIp i ≤ saddr) && decide (saddr ≤ r.exceptEIp i)

/-- A UDP packet to port 8000. Its payload is looked for behind a header without options. -/
def checkUdp (s : State) (skb : SkBuff) : Except Fault (State × Verdict) :=
  if exempt s.restrictApp skb.saddr then .ok (s, .accept)
  else if s.memory.exceptionQqList = none then .ok (s, .drop)
  else
    let offset : ℕ := 20 + 8
    let payloadLen : ℤ := skb.totLen - offset
    if payloadLen ≤ 2 then .ok (s, .drop)
    else if skb.data offset = 2 ∧ skb.data (offset + (payloadLen - 1).toNat) = 3 then do
      let r ← searchLoop s.memory (UInt64.ofNat (skb.be32 (offset + 7))) s.memory.fuel
        s.memory.exceptionQqList 0
      .ok ({ s with memory := r.1 }, r.2)
    else .ok (s, .drop)

/-- A TCP packet to port 80 or 443. -/
def checkTcp (s : State) (skb : SkBuff) : Verdict :=
  if exempt s.restrictApp skb.saddr then .accept
  else
    let offset : ℕ := 20 + 20
    let payloadLen : ℤ := skb.totLen - offset
    if payloadLen ≤ 2 then .accept
    else if skb.data (offset + 2) = 2 ∧ skb.data (offset + (payloadLen - 1).toNat) = 3 then .drop
    else .accept

def checkBlockQq (s : State) (skb : SkBuff) : Except Fault (State × Verdict) :=
  if skb.fromLan = false then .ok (s, .accept)
  else if skb.protocol = 17 then
    if skb.dest = 8000 then checkUdp s skb else .ok (s, .accept)
  else if skb.protocol = 6 then
    if skb.dest = 80 ∨ skb.dest = 443 then .ok (s, checkTcp s skb) else .ok (s, .accept)
  else .ok (s, .accept)

/-- An outcome of `kmalloc`: a node that is not in use. -/
structure Kmalloc where
  place : Finset ℕ → ℕ
  fresh : ∀ live, place live ∉ live

/-- `SIOCEXCEPTIONQQADDLIST`. -/
def addList (m : Memory) (kmalloc : Option Kmalloc) (qqNum : UInt64) : Memory :=
  match kmalloc with
  | none => m
  | some k =>
    { exceptionQqList := some (k.place m.live)
      node := Function.update m.node (k.place m.live) ⟨qqNum, m.exceptionQqList⟩
      live := insert (k.place m.live) m.live }

/-- The loop of `SIOCEXCEPTIONQQCLEARLIST`. -/
def clearLoop : ℕ → Memory → Except Fault Memory
  | 0, _ => .error .endless
  | fuel + 1, m =>
    match m.exceptionQqList with
    | none => .ok m
    | some p =>
      if p ∉ m.live then .error .freed
      else clearLoop fuel
        { m with exceptionQqList := (m.node p).next, live := m.live.erase p }

def clearList (m : Memory) : Except Fault Memory := clearLoop m.fuel m

inductive Event where
  | restrict (r : RestrictApp)
  | add (kmalloc : Option Kmalloc) (qqNum : UInt64)
  | clear
  | check (skb : SkBuff)

def exec (s : State) : Event → Except Fault State
  | .restrict r => .ok { s with restrictApp := r }
  | .add kmalloc qqNum => .ok { s with memory := addList s.memory kmalloc qqNum }
  | .clear => do
    let m ← clearList s.memory
    .ok { s with memory := m }
  | .check skb => Prod.fst <$> checkBlockQq s skb

def run : List Event → State → Except Fault State
  | [], s => .ok s
  | e :: es, s => exec s e >>= run es

/-- The numbers added since the last clear, from the events alone. -/
def record (l : List UInt64) : Event → List UInt64
  | .add (some _) qqNum => qqNum :: l
  | .clear => []
  | _ => l

def added (events : List Event) : List UInt64 := events.foldl record []

def Memory.link (m : Memory) : Option ℕ → Option ℕ
  | none => none
  | some a => (m.node a).next

/-- The list is finite, has each of its nodes once, and these are what is allocated. -/
structure Represents (m : Memory) (l : List ℕ) : Prop where
  chain : Seg m.link some (fun _ => True) m.exceptionQqList l none
  nodup : l.Nodup
  live : m.live = l.toFinset

def Memory.numbers (m : Memory) (l : List ℕ) : List UInt64 := l.map fun a => (m.node a).qqNum

/-- The list is the given numbers in some order. -/
def Lists (m : Memory) (numbers : List UInt64) : Prop :=
  ∃ l, Represents m l ∧ (m.numbers l).Perm numbers

/-! ## The walks -/

section Walks

variable {m : Memory} {l pre post : List ℕ} {a b user : ℕ} {p : Option ℕ} {fuel order : ℕ}
  {iNum : UInt64}

theorem Represents.fuel_eq (h : Represents m l) : m.fuel = l.length + 1 := by
  rw [Memory.fuel, h.live, List.toFinset_card_of_nodup h.nodup]

theorem Represents.lt_fuel (h : Represents m l) : l.length < m.fuel := by
  rw [h.fuel_eq]
  exact Nat.lt_succ_self _

theorem Represents.mem_live (h : Represents m l) : a ∈ m.live ↔ a ∈ l := by
  rw [h.live, List.mem_toFinset]

theorem searchPrevLoop_eq
    (hseg : Seg m.link some (fun _ => True) p (pre ++ a :: b :: post) none)
    (hnodup : (pre ++ a :: b :: post).Nodup) (hlive : ∀ c ∈ pre ++ a :: b :: post, c ∈ m.live)
    (hfuel : pre.length < fuel) : searchPrevLoop m b fuel p = .ok (some a) := by
  induction pre generalizing p fuel with
  | nil =>
    obtain ⟨n, rfl⟩ := Nat.exists_eq_succ_of_ne_zero (Nat.ne_zero_of_lt hfuel)
    obtain ⟨rfl, -, hnext, -⟩ := hseg
    have hnext : (m.node a).next = some b := hnext
    rw [searchPrevLoop, if_neg (not_not_intro (hlive a (by simp))), if_pos hnext]
  | cons c pre ih =>
    obtain ⟨n, rfl⟩ := Nat.exists_eq_succ_of_ne_zero (Nat.ne_zero_of_lt hfuel)
    obtain ⟨rfl, -, hrest⟩ := hseg
    have hrest : Seg m.link some (fun _ => True) (m.node c).next (pre ++ a :: b :: post) none :=
      hrest
    have hnodup := (List.nodup_cons.mp hnodup).2
    have hnext : (m.node c).next ≠ some b := by
      intro hb
      rw [hb] at hrest
      cases pre with
      | nil =>
        obtain rfl := Option.some.inj hrest.1
        simp at hnodup
      | cons d pre =>
        obtain rfl := Option.some.inj hrest.1
        simp at hnodup
    rw [searchPrevLoop, if_neg (not_not_intro (hlive c (by simp))), if_neg hnext]
    apply ih hrest hnodup
    · exact fun d hd => hlive d (List.mem_cons_of_mem c hd)
    · simpa using hfuel

theorem link_setNext (m : Memory) (a : ℕ) (q : Option ℕ) :
    (m.setNext a q).link = Function.update m.link (some a) q := by
  funext r
  cases r with
  | none => simp [Memory.link]
  | some b =>
    rcases eq_or_ne b a with rfl | hne
    · simp [Memory.link, Memory.setNext]
    · simp [Memory.link, Memory.setNext, hne]

theorem qqNum_setNext (m : Memory) (a c : ℕ) (q : Option ℕ) :
    ((m.setNext a q).node c).qqNum = (m.node c).qqNum := by
  rcases eq_or_ne c a with rfl | hne
  · simp [Memory.setNext]
  · simp [Memory.setNext, hne]

/-- The nodes and their numbers stay; only the order may change. -/
theorem changeOrder_spec (h : Represents m (pre ++ a :: post)) :
    ∃ m' l', changeOrder m a pre.length = .ok m' ∧ Represents m' l' ∧
      l'.Perm (pre ++ a :: post) ∧ ∀ c, (m'.node c).qqNum = (m.node c).qqNum := by
  rw [changeOrder]
  by_cases horder : limitForChangeOrder ≤ pre.length
  · rw [if_pos horder]
    obtain ⟨front, prev, rfl⟩ : ∃ front prev, pre = front ++ [prev] := by
      rcases List.eq_nil_or_concat pre with rfl | ⟨front, prev, hpre⟩
      · simp [limitForChangeOrder] at horder
      · exact ⟨front, prev, by simpa using hpre⟩
    rw [List.append_assoc, List.singleton_append] at h ⊢
    have hsearch : searchPrevQqNum m a = .ok (some prev) := by
      apply searchPrevLoop_eq h.chain h.nodup
      · exact fun c hc => h.mem_live.mpr hc
      · rw [h.fuel_eq, List.length_append]
        omega
    have hnodup : ((front ++ prev :: a :: post).map some).Nodup :=
      h.nodup.map (Option.some_injective ℕ)
    have hne : a ≠ prev := by
      rintro rfl
      have hmid := (List.nodup_append.mp h.nodup).2.1
      simp at hmid
    have hperm : (a :: (front ++ prev :: post)).Perm (front ++ prev :: a :: post) := by
      have hmid : (front ++ [prev] ++ a :: post).Perm (a :: (front ++ [prev] ++ post)) :=
        List.perm_middle
      simpa using hmid.symm
    refine ⟨_, a :: (front ++ prev :: post), by rw [hsearch]; rfl, ⟨?_, ?_, ?_⟩, hperm, ?_⟩
    · have hmove := h.chain.move_front hnodup
      change Seg ((m.setNext prev (m.node a).next).setNext a m.exceptionQqList).link some
        (fun _ => True) (some a) (a :: (front ++ prev :: post)) none
      rw [link_setNext, link_setNext]
      exact hmove
    · exact hperm.nodup_iff.mpr h.nodup
    · exact h.live.trans (List.toFinset_eq_of_perm _ _ hperm.symm)
    · intro c
      exact (qqNum_setNext _ a c _).trans (qqNum_setNext m prev c _)
  · rw [if_neg horder]
    exact ⟨m, _, rfl, h, List.Perm.refl _, fun _ => rfl⟩

/-- The loop over the list accepts the numbers of the list and keeps the list. -/
theorem searchLoop_spec (h : Represents m (pre ++ post))
    (hseg : Seg m.link some (fun _ => True) p post none)
    (hpre : ∀ c ∈ pre, (m.node c).qqNum ≠ iNum) (hfuel : post.length < fuel) :
    ∃ m' v, searchLoop m iNum fuel p pre.length = .ok (m', v) ∧
      (v = .accept ↔ iNum ∈ m.numbers (pre ++ post)) ∧ Lists m' (m.numbers (pre ++ post)) := by
  induction post generalizing p fuel pre with
  | nil =>
    obtain ⟨n, rfl⟩ := Nat.exists_eq_succ_of_ne_zero (Nat.ne_zero_of_lt hfuel)
    obtain rfl : p = none := hseg
    refine ⟨m, .drop, rfl, ?_, _, h, List.Perm.refl _⟩
    simpa [Memory.numbers] using hpre
  | cons a post ih =>
    obtain ⟨n, rfl⟩ := Nat.exists_eq_succ_of_ne_zero (Nat.ne_zero_of_lt hfuel)
    obtain ⟨rfl, -, hrest⟩ := hseg
    have hlive : a ∈ m.live := h.mem_live.mpr (by simp)
    rw [searchLoop, if_neg (not_not_intro hlive)]
    by_cases hnum : (m.node a).qqNum = iNum
    · rw [if_pos hnum]
      obtain ⟨m', l', hrun, hrep, hperm, hkeep⟩ := changeOrder_spec h
      refine ⟨m', .accept, by rw [hrun]; rfl, by simp [Memory.numbers, hnum], l', hrep, ?_⟩
      have hsame : m'.numbers l' = m.numbers l' := List.map_congr_left fun c _ => hkeep c
      rw [hsame]
      exact hperm.map _
    · rw [if_neg hnum]
      have hmid : pre ++ a :: post = (pre ++ [a]) ++ post := by simp
      have hlength : pre.length + 1 = (pre ++ [a]).length := by simp
      rw [hmid] at h ⊢
      rw [hlength]
      apply ih h hrest
      · intro c hc
        rcases List.mem_append.mp hc with hc | hc
        · exact hpre c hc
        · rwa [List.mem_singleton.mp hc]
      · simpa using hfuel

theorem Lists.congr {numbers numbers' : List UInt64} (h : Lists m numbers)
    (hperm : numbers.Perm numbers') : Lists m numbers' := by
  obtain ⟨l, hrep, hl⟩ := h
  exact ⟨l, hrep, hl.trans hperm⟩

theorem lists_searchLoop {numbers : List UInt64} (h : Lists m numbers) (iNum : UInt64) :
    ∃ m' v, searchLoop m iNum m.fuel m.exceptionQqList 0 = .ok (m', v) ∧
      (v = .accept ↔ iNum ∈ numbers) ∧ Lists m' numbers := by
  obtain ⟨l, hrep, hperm⟩ := h
  have hall : Represents m ([] ++ l) := hrep
  obtain ⟨m', v, hrun, hv, hm'⟩ := searchLoop_spec hall hrep.chain (by simp) hrep.lt_fuel
  exact ⟨m', v, hrun, hv.trans hperm.mem_iff, hm'.congr hperm⟩

theorem lists_nil_iff_none {numbers : List UInt64} (h : Lists m numbers) :
    m.exceptionQqList = none ↔ numbers = [] := by
  obtain ⟨l, hrep, hperm⟩ := h
  have hchain := hrep.chain
  cases l with
  | nil => exact ⟨fun _ => List.nil_perm.mp hperm, fun _ => hchain⟩
  | cons a l =>
    rw [hchain.1]
    constructor
    · intro hnone
      cases hnone
    · rintro rfl
      cases List.perm_nil.mp hperm

theorem lists_addList {numbers : List UInt64} (h : Lists m numbers) (k : Kmalloc)
    (qqNum : UInt64) : Lists (addList m (some k) qqNum) (qqNum :: numbers) := by
  obtain ⟨l, hrep, hperm⟩ := h
  let a := k.place m.live
  have hnew : a ∉ l := fun ha => k.fresh m.live (hrep.mem_live.mpr ha)
  have hother : ∀ c ∈ l, (addList m (some k) qqNum).node c = m.node c := by
    intro c hc
    have hne : c ≠ a := fun heq => hnew (heq ▸ hc)
    exact Function.update_of_ne hne ..
  have hself : (addList m (some k) qqNum).node a = ⟨qqNum, m.exceptionQqList⟩ :=
    Function.update_self ..
  refine ⟨a :: l, ⟨⟨rfl, trivial, ?_⟩, List.nodup_cons.mpr ⟨hnew, hrep.nodup⟩, ?_⟩, ?_⟩
  · have hlink : (addList m (some k) qqNum).link (some a) = m.exceptionQqList :=
      congrArg ExceptionQq.next hself
    rw [hlink]
    exact hrep.chain.frame (fun c hc => congrArg ExceptionQq.next (hother c hc)) fun _ _ hc => hc
  · rw [List.toFinset_cons, ← hrep.live]
    rfl
  · have hnumbers : (addList m (some k) qqNum).numbers l = m.numbers l :=
      List.map_congr_left fun c hc => congrArg ExceptionQq.qqNum (hother c hc)
    have hcons : (addList m (some k) qqNum).numbers (a :: l) = qqNum :: m.numbers l := by
      rw [← hnumbers, Memory.numbers, List.map_cons, hself]
      rfl
    rw [hcons]
    exact hperm.cons qqNum

theorem clearLoop_spec (h : Represents m l) (hfuel : l.length < fuel) :
    ∃ m', clearLoop fuel m = .ok m' ∧ Represents m' [] := by
  induction l generalizing m fuel with
  | nil =>
    obtain ⟨n, rfl⟩ := Nat.exists_eq_succ_of_ne_zero (Nat.ne_zero_of_lt hfuel)
    have hnone : m.exceptionQqList = none := h.chain
    exact ⟨m, by rw [clearLoop, hnone], h⟩
  | cons a l ih =>
    obtain ⟨n, rfl⟩ := Nat.exists_eq_succ_of_ne_zero (Nat.ne_zero_of_lt hfuel)
    obtain ⟨hfirst, -, hrest⟩ := h.chain
    obtain ⟨hnew, hnodup⟩ := List.nodup_cons.mp h.nodup
    have hlive : a ∈ m.live := h.mem_live.mpr (by simp)
    rw [clearLoop, hfirst]
    simp only [hlive, not_true_eq_false, if_false]
    apply ih ⟨hrest, hnodup, ?_⟩ (by simpa using hfuel)
    rw [h.live, List.toFinset_cons, Finset.erase_insert (by simpa using hnew)]

theorem lists_clearList {numbers : List UInt64} (h : Lists m numbers) :
    ∃ m', clearList m = .ok m' ∧ Lists m' [] := by
  obtain ⟨l, hrep, -⟩ := h
  obtain ⟨m', hrun, hm'⟩ := clearLoop_spec hrep hrep.lt_fuel
  exact ⟨m', hrun, [], hm', List.Perm.refl _⟩

end Walks

/-! ## Packets -/

/-- What the code finds at its place for the payload: a frame with one of the numbers. -/
def Reads (skb : SkBuff) (numbers : List UInt64) : Prop :=
  30 < skb.totLen ∧ skb.data 28 = 2 ∧ skb.data (skb.totLen - 1) = 3 ∧
    UInt64.ofNat (skb.be32 35) ∈ numbers

instance (skb : SkBuff) (numbers : List UInt64) : Decidable (Reads skb numbers) :=
  inferInstanceAs (Decidable (_ ∧ _))

namespace SkBuff

variable (skb : SkBuff)

def udpLen : ℕ := skb.be16 (4 * skb.ihl + 4)

def payload : ℕ := 4 * skb.ihl + 8

/-- A QQ packet from the LAN: a UDP packet to port 8000 whose payload begins with 2, has a number
behind six further bytes and ends with 3. -/
structure Framed : Prop where
  lan : skb.fromLan = true
  udp : skb.protocol = 17
  port : skb.dest = 8000
  header : 5 ≤ skb.ihl
  room : 8 + 12 ≤ skb.udpLen
  fits : 4 * skb.ihl + skb.udpLen ≤ skb.totLen
  first : skb.data skb.payload = 2
  last : skb.data (4 * skb.ihl + skb.udpLen - 1) = 3

def qqNumber : UInt64 := UInt64.ofNat (skb.be32 (skb.payload + 7))

/-- A header without options, and no byte behind the payload. -/
def Plain : Prop := skb.ihl = 5 ∧ skb.totLen = 20 + skb.udpLen

instance : Decidable skb.Plain := inferInstanceAs (Decidable (_ ∧ _))

end SkBuff

section Packets

variable {s : State} {skb : SkBuff} {numbers : List UInt64}

theorem reads_of_plain (h : skb.Framed) (hplain : skb.Plain) :
    Reads skb numbers ↔ skb.qqNumber ∈ numbers := by
  obtain ⟨hihl, hlen⟩ := hplain
  have hroom := h.room
  have hfirst := h.first
  have hlast := h.last
  rw [SkBuff.payload, hihl] at hfirst
  rw [hihl, ← hlen] at hlast
  rw [Reads, SkBuff.qqNumber, SkBuff.payload, hihl, hlast, hfirst]
  simp only [true_and, and_iff_right_iff_imp]
  omega

theorem checkUdp_spec (h : Lists s.memory numbers)
    (hexempt : exempt s.restrictApp skb.saddr = false) :
    ∃ m v, checkUdp s skb = .ok ({ s with memory := m }, v) ∧ Lists m numbers ∧
      (v = .accept ↔ Reads skb numbers) := by
  rw [checkUdp, if_neg (by simp [hexempt])]
  by_cases hnone : s.memory.exceptionQqList = none
  · rw [if_pos hnone]
    refine ⟨s.memory, .drop, rfl, h, ?_⟩
    simp [Reads, (lists_nil_iff_none h).mp hnone]
  rw [if_neg hnone]
  by_cases hshort : skb.totLen ≤ 30
  · dsimp only
    rw [if_pos (by omega)]
    refine ⟨s.memory, .drop, rfl, h, ?_⟩
    simp only [reduceCtorEq, false_iff]
    exact fun hreads => absurd hreads.1 (by omega)
  have hlast : 20 + 8 + (((skb.totLen : ℤ) - (20 + 8 : ℕ)) - 1).toNat = skb.totLen - 1 := by omega
  dsimp only
  rw [if_neg (by omega), hlast]
  by_cases hframe : skb.data (20 + 8) = 2 ∧ skb.data (skb.totLen - 1) = 3
  · rw [if_pos hframe]
    obtain ⟨m, v, hrun, hv, hm⟩ := lists_searchLoop h (UInt64.ofNat (skb.be32 (20 + 8 + 7)))
    refine ⟨m, v, by rw [hrun]; rfl, hm, hv.trans ?_⟩
    exact ⟨fun hmem => ⟨by omega, hframe.1, hframe.2, hmem⟩, fun hreads => hreads.2.2.2⟩
  · rw [if_neg hframe]
    refine ⟨s.memory, .drop, rfl, h, ?_⟩
    simp only [reduceCtorEq, false_iff]
    exact fun hreads => hframe ⟨hreads.2.1, hreads.2.2.1⟩

theorem lists_checkBlockQq (h : Lists s.memory numbers) (skb : SkBuff) :
    ∃ m v, checkBlockQq s skb = .ok ({ s with memory := m }, v) ∧ Lists m numbers := by
  have hkeep : ∀ v : Verdict, ∃ m v', (.ok (s, v) : Except Fault (State × Verdict)) =
      .ok ({ s with memory := m }, v') ∧ Lists m numbers := fun v => ⟨s.memory, v, rfl, h⟩
  rw [checkBlockQq]
  split
  · exact hkeep _
  split
  · split
    · cases hexempt : exempt s.restrictApp skb.saddr with
      | true =>
        rw [checkUdp, if_pos hexempt]
        exact hkeep _
      | false =>
        obtain ⟨m, v, hrun, hm, -⟩ := checkUdp_spec h hexempt
        exact ⟨m, v, hrun, hm⟩
    · exact hkeep _
  split
  · split
    · exact hkeep _
    · exact hkeep _
  · exact hkeep _

end Packets

/-! ## Runs -/

def settings (r : RestrictApp) : Event → RestrictApp
  | .restrict r' => r'
  | _ => r

section Runs

variable {s : State} {numbers : List UInt64}

theorem lists_exec (h : Lists s.memory numbers) (e : Event) :
    ∃ s', exec s e = .ok s' ∧ Lists s'.memory (record numbers e) ∧
      s'.restrictApp = settings s.restrictApp e := by
  cases e with
  | restrict r => exact ⟨_, rfl, h, rfl⟩
  | add kmalloc qqNum =>
    cases kmalloc with
    | none => exact ⟨_, rfl, h, rfl⟩
    | some k => exact ⟨_, rfl, lists_addList h k qqNum, rfl⟩
  | clear =>
    obtain ⟨m, hrun, hm⟩ := lists_clearList h
    exact ⟨{ s with memory := m }, by rw [exec, hrun]; rfl, hm, rfl⟩
  | check skb =>
    obtain ⟨m, v, hrun, hm⟩ := lists_checkBlockQq h skb
    exact ⟨{ s with memory := m }, by rw [exec, hrun]; rfl, hm, rfl⟩

theorem lists_run (h : Lists s.memory numbers) (events : List Event) :
    ∃ s', run events s = .ok s' ∧ Lists s'.memory (events.foldl record numbers) ∧
      s'.restrictApp = events.foldl settings s.restrictApp := by
  induction events generalizing s numbers with
  | nil => exact ⟨s, rfl, h, rfl⟩
  | cons e es ih =>
    obtain ⟨t, hstep, ht, hset⟩ := lists_exec h e
    obtain ⟨s', hrun, hs', hset'⟩ := ih ht
    exact ⟨s', by rw [run, hstep]; exact hrun, hs', by rw [hset', hset]; rfl⟩

end Runs

/-- After the events the list is finite and has the numbers added since the last clear, and the
packet is accepted if its number is one of them, and only then. -/
def Meets (events : List Event) (skb : SkBuff) : Prop :=
  ∃ s, run events initial = .ok s ∧ Lists s.memory (added events) ∧
    ∃ s' v, checkBlockQq s skb = .ok (s', v) ∧ (v = .accept ↔ skb.qqNumber ∈ added events)

/-- The list is always as it should be. A packet is judged by its number when it has no IP options
and nothing behind its payload, and else when what the code reads in place of its payload happens
to lead to the same answer. -/
theorem meets_iff_reads (events : List Event) {skb : SkBuff} (hframed : skb.Framed)
    (hexempt : exempt (events.foldl settings initial.restrictApp) skb.saddr = false) :
    Meets events skb ↔
      skb.Plain ∨ (Reads skb (added events) ↔ skb.qqNumber ∈ added events) := by
  have hinitial : Lists initial.memory [] := ⟨[], ⟨rfl, List.nodup_nil, rfl⟩, List.Perm.refl _⟩
  obtain ⟨s, hrun, hs, hset⟩ := lists_run hinitial events
  rw [← hset] at hexempt
  obtain ⟨m, v, hcheck, -, hv⟩ := checkUdp_spec hs hexempt
  have hblock : checkBlockQq s skb = .ok ({ s with memory := m }, v) := by
    rw [checkBlockQq, if_neg (by simp [hframed.lan]), if_pos hframed.udp, if_pos hframed.port,
      hcheck]
  constructor
  · rintro ⟨s₁, hrun₁, -, s', v', hblock', hv'⟩
    obtain rfl := Except.ok.inj (hrun.symm.trans hrun₁)
    obtain ⟨-, rfl⟩ := Prod.mk.inj (Except.ok.inj (hblock.symm.trans hblock'))
    exact .inr (hv.symm.trans hv')
  · intro h
    have hreads : Reads skb (added events) ↔ skb.qqNumber ∈ added events :=
      h.elim (reads_of_plain hframed) id
    exact ⟨s, hrun, hs, _, v, hblock, hv.trans hreads⟩

/-- A frame with the number 12345 in a packet with these IP options. -/
def qqPacket (options : List UInt8) : SkBuff where
  fromLan := true
  data i := ([0x45 + UInt8.ofNat (options.length / 4), 0, 0, UInt8.ofNat (40 + options.length),
    0, 1, 0, 0, 128, 17, 0, 0, 192, 168, 1, 100, 10, 0, 0, 1] ++ options ++
    [15, 160, 31, 64, 0, 20, 0, 0] ++ [2, 16, 1, 0, 2, 0, 1, 0, 0, 48, 57, 3]).getD i 0

def nextPlace : Kmalloc where
  place live := live.sup id + 1
  fresh live h := by
    have hle : live.sup id + 1 ≤ live.sup id := Finset.le_sup (f := id) h
    exact Nat.not_succ_le_self _ hle

theorem meets_iff_reads_plain :
    Meets [.add (some nextPlace) 12345] (qqPacket []) ↔
      (qqPacket []).Plain ∨ (Reads (qqPacket []) (added [.add (some nextPlace) 12345]) ↔
        (qqPacket []).qqNumber ∈ added [.add (some nextPlace) 12345]) :=
  meets_iff_reads _ (by constructor <;> decide) (by decide)

/-- With an option, the payload is looked for in the UDP header. -/
theorem options_dropped : (qqPacket [148, 4, 0, 0]).Framed ∧
    exempt (settings initial.restrictApp (.add (some nextPlace) 12345))
      (qqPacket [148, 4, 0, 0]).saddr = false ∧
    (qqPacket [148, 4, 0, 0]).qqNumber ∈ added [.add (some nextPlace) 12345] ∧
    ¬ Meets [.add (some nextPlace) 12345] (qqPacket [148, 4, 0, 0]) := by
  refine ⟨by constructor <;> decide, by decide, by decide, ?_⟩
  rintro ⟨s, hrun, -, s', v, hblock, hv⟩
  cases hrun
  have hdrop : v = .drop := by
    cases hblock
    rfl
  rw [hdrop] at hv
  exact absurd (hv.mpr (by decide)) (by decide)

end QqExceptions
