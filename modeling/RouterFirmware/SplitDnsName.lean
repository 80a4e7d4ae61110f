import Mathlib.Data.UInt
import RouterFirmware.LoopRun
import RouterFirmware.SplitDns

/-! # The name in a query

`nk_translate_spiltdns_to_ipsec` copies the name of a query into an array of 64 bytes and puts dots
in place of its label lengths. The lengths are signed, and the step behind each is unsigned.
-/
namespace SplitDnsName

open LoopRun (Finishes)

/-- An index that is not in `RDname`. -/
inductive Fault where
  | outside
  deriving DecidableEq

def cstr (memory : List UInt8) : List UInt8 := memory.takeWhile (· ≠ 0)

/-- `memset`, `sprintf` and the zero at the end of the question. `name` is a string. -/
def copyName (name : List UInt8) (datalen : ℕ) : Except Fault (List UInt8) :=
  if 64 ≤ name.length then .error .outside
  else if datalen < 25 ∨ 25 + 64 ≤ datalen then .error .outside
  else .ok ((name ++ List.replicate (64 - name.length) 0).set (datalen - 25) 0)

/-- The variables of the loop. `temp` is the distance from `RDname`. -/
structure Scan where
  rdname : List UInt8
  temp : ℕ
  cc : ℤ

def strlen (rdname : List UInt8) : Except Fault ℕ :=
  if 0 ∈ rdname then .ok (cstr rdname).length else .error .outside

/-- One turn of the loop, which leaves with `RDname` or, where the source returns, with nothing. -/
def dotTurn (s : Scan) : Scan ⊕ Except Fault (Option (List UInt8)) :=
  match s.rdname[s.temp]? with
  | none => .inr (.error .outside)
  | some b =>
    if b = 0 then .inr (.ok (some s.rdname))
    else
      let jump := ((b.toInt8.toInt + 1) % 2 ^ 32).toNat
      let cc := b.toInt8.toInt + 1 + s.cc
      match strlen s.rdname with
      | .error f => .inr (.error f)
      | .ok len =>
        if len < cc ∨ cc < 0 then .inr (.ok none)
        else .inl ⟨s.rdname.set s.temp 46, s.temp + jump, cc⟩

def Converts (name : List UInt8) (datalen : ℕ) (r : Except Fault (Option (List UInt8))) : Prop :=
  match copyName name datalen with
  | .error f => r = .error f
  | .ok rdname => Finishes dotTurn ⟨rdname, 0, 0⟩ r

/-! ## Names -/

def encode (labels : List (List UInt8)) : List UInt8 :=
  labels.flatMap fun l => UInt8.ofNat l.length :: l

def WellFormed (labels : List (List UInt8)) : Prop :=
  ∀ l ∈ labels, 1 ≤ l.length ∧ l.length ≤ 63

def dotted (labels : List (List UInt8)) : List UInt8 := List.intercalate [46] labels

/-- The bytes that the loop goes on by. A length of `255` becomes a dot, and then that is one. -/
def labelLength (b : UInt8) : Option ℕ :=
  if b < 128 then some b.toNat else if b = 255 then some 46 else none

/-- The places where the loop looks for a length, from one of them on. -/
inductive Reaches (s : List UInt8) : ℕ → ℕ → Prop where
  | here (p : ℕ) : Reaches s p p
  | next {p n q : ℕ} {b : UInt8} (hb : s[p]? = some b) (hn : labelLength b = some n)
      (hle : p + 1 + n ≤ s.length) (h : Reaches s (p + 1 + n) q) : Reaches s p q

/-- What the loop comes to on the rest of a string, `p` bytes behind its start. -/
def dots (p : ℕ) : List UInt8 → Except Fault (Option (List UInt8))
  | [] => .ok (some [])
  | b :: r =>
    match labelLength b with
    | some n =>
      if n ≤ r.length then
        (dots (p + 1 + n) (r.drop n)).map (Option.map fun t => 46 :: (r.take n ++ t))
      else .ok none
    | none => if 255 ≤ p + b.toNat then .error .outside else .ok none
termination_by r => r.length
decreasing_by
  simp only [List.length_drop, List.length_cons]
  omega

section Loop

variable {u r z s : List UInt8} {b : UInt8} {p q n : ℕ}

theorem toInt_eq (b : UInt8) :
    b.toInt8.toInt = if b < 128 then (b.toNat : ℤ) else b.toNat - 256 := by
  have hcond := BitVec.toInt_eq_toNat_cond b.toBitVec
  have hlt : b < 128 ↔ b.toNat < 128 := UInt8.lt_iff_toNat_lt
  have htoInt : b.toInt8.toInt = b.toBitVec.toInt := rfl
  rw [htoInt, hcond]
  simp only [hlt, UInt8.toNat_toBitVec]
  split <;> split <;> omega

theorem labelLength_of_lt (h : b < 128) : labelLength b = some b.toNat := if_pos h

theorem labelLength_eq_none_iff : labelLength b = none ↔ 128 ≤ b.toNat ∧ b ≠ 255 := by
  have hlt : ¬ b < 128 ↔ 128 ≤ b.toNat := by
    rw [UInt8.lt_iff_toNat_lt]
    exact Nat.not_lt
  rw [labelLength, ← hlt]
  split
  · next h => exact iff_of_false (by simp) fun hle => hle.1 h
  · next h =>
    split
    · next h255 => exact iff_of_false (by simp) fun hne => hne.2 h255
    · next h255 => exact iff_of_true rfl ⟨h, h255⟩

theorem dots_of_some (h : labelLength b = some n) :
    dots p (b :: r) = if n ≤ r.length then
      (dots (p + 1 + n) (r.drop n)).map (Option.map fun t => 46 :: (r.take n ++ t))
    else .ok none := by
  rw [dots, h]

theorem dots_of_none (h : labelLength b = none) :
    dots p (b :: r) = if 255 ≤ p + b.toNat then .error .outside else .ok none := by
  rw [dots, h]

theorem takeWhile_zero (hs : 0 ∉ s) : cstr (s ++ 0 :: z) = s := by
  have hall : ∀ a ∈ s, decide (a ≠ 0) = true := fun a ha => by
    simp only [decide_eq_true_eq]
    exact fun h => hs (h ▸ ha)
  rw [cstr, List.takeWhile_append_of_pos hall, List.takeWhile_cons_of_neg (by simp),
    List.append_nil]

theorem dotTurn_append (hu : 0 ∉ u) (hr : 0 ∉ b :: r) :
    dotTurn ⟨u ++ (b :: r ++ 0 :: z), u.length, u.length⟩ =
      if ((u.length + 1 + r.length : ℕ) : ℤ) < b.toInt8.toInt + 1 + u.length ∨
        b.toInt8.toInt + 1 + u.length < 0 then .inr (.ok none)
      else .inl ⟨u ++ (46 :: r ++ 0 :: z),
        u.length + ((b.toInt8.toInt + 1) % 2 ^ 32).toNat, b.toInt8.toInt + 1 + u.length⟩ := by
  have hb : b ≠ 0 := fun h => hr (h ▸ List.mem_cons_self)
  have hread : (u ++ (b :: r ++ 0 :: z))[u.length]? = some b := by
    rw [List.getElem?_append_right (Nat.le_refl _), Nat.sub_self]
    rfl
  have hset : (u ++ (b :: r ++ 0 :: z)).set u.length 46 = u ++ (46 :: r ++ 0 :: z) := by
    rw [List.set_append_right _ _ (Nat.le_refl _), Nat.sub_self]
    rfl
  have hlen : strlen (u ++ (b :: r ++ 0 :: z)) = .ok (u.length + 1 + r.length) := by
    have hzero : 0 ∉ u ++ b :: r := fun h => by
      rcases List.mem_append.mp h with h | h
      · exact hu h
      · exact hr h
    have hcstr := takeWhile_zero (z := z) hzero
    rw [List.append_assoc] at hcstr
    rw [strlen, if_pos (by simp), hcstr, List.length_append, List.length_cons, Nat.add_assoc,
      Nat.add_comm 1]
  simp only [dotTurn, hread, if_neg hb, hlen, hset]

def rebuilt (u z : List UInt8) (x : Except Fault (Option (List UInt8))) :
    Except Fault (Option (List UInt8)) :=
  x.map (Option.map fun t => u ++ (t ++ 0 :: z))

theorem rebuilt_label (x : Except Fault (Option (List UInt8))) (l : List UInt8) :
    rebuilt u z (x.map (Option.map fun t => 46 :: (l ++ t))) = rebuilt (u ++ 46 :: l) z x := by
  cases x with
  | error f => rfl
  | ok t =>
    cases t with
    | none => rfl
    | some t =>
      change Except.ok (some (u ++ (46 :: (l ++ t) ++ 0 :: z))) =
        Except.ok (some (u ++ 46 :: l ++ (t ++ 0 :: z)))
      rw [List.append_assoc, List.cons_append, List.cons_append, List.append_assoc]

theorem finishes_label {x : Except Fault (Option (List UInt8))} (hu : 0 ∉ u) (hr : 0 ∉ b :: r)
    (hb : b < 128)
    (hmem : (u ++ (b :: r ++ 0 :: z)).length = 64)
    (hnext : ∀ v, 0 ∉ v → (v ++ (r.drop b.toNat ++ 0 :: z)).length = 64 → (Finishes dotTurn
      ⟨v ++ (r.drop b.toNat ++ 0 :: z), v.length, v.length⟩ x ↔
        x = rebuilt v z (dots v.length (r.drop b.toNat)))) :
    Finishes dotTurn ⟨u ++ (b :: r ++ 0 :: z), u.length, u.length⟩ x ↔
      x = rebuilt u z (dots u.length (b :: r)) := by
  have hturn := dotTurn_append (z := z) hu hr
  rw [dots_of_some (labelLength_of_lt hb)]
  rw [toInt_eq, if_pos hb] at hturn
  by_cases hle : b.toNat ≤ r.length
  · rw [if_neg (by omega)] at hturn
    have hv : 0 ∉ u ++ 46 :: r.take b.toNat := fun h => by
      rcases List.mem_append.mp h with h | h
      · exact hu h
      · rcases List.mem_cons.mp h with h | h
        · cases h
        · exact hr (List.mem_cons_of_mem _ (List.mem_of_mem_take h))
    have hjump : u.length + (((b.toNat : ℤ) + 1) % 2 ^ 32).toNat =
        (u ++ 46 :: r.take b.toNat).length := by
      have hlt := b.toNat_lt
      have hmod : ((b.toNat : ℤ) + 1) % 2 ^ 32 = b.toNat + 1 :=
        Int.emod_eq_of_lt (by omega) (by omega)
      rw [hmod, List.length_append, List.length_cons, List.length_take, Nat.min_eq_left hle]
      omega
    have hcc : (b.toNat : ℤ) + 1 + u.length = ((u ++ 46 :: r.take b.toNat).length : ℕ) := by
      rw [List.length_append, List.length_cons, List.length_take, Nat.min_eq_left hle]
      omega
    have hsplit : u ++ (46 :: r ++ 0 :: z) =
        u ++ 46 :: r.take b.toNat ++ (r.drop b.toNat ++ 0 :: z) := by
      rw [List.append_assoc, List.cons_append, List.cons_append, ← List.append_assoc (r.take _),
        List.take_append_drop]
    have hmem' : (u ++ 46 :: r.take b.toNat ++ (r.drop b.toNat ++ 0 :: z)).length = 64 := by
      rw [← hsplit, ← hmem]
      simp only [List.length_append, List.length_cons]
    rw [hjump, hcc, hsplit] at hturn
    have hlen : u.length + 1 + b.toNat = (u ++ 46 :: r.take b.toNat).length := by omega
    rw [LoopRun.finishes_iff_of_inl hturn, hnext _ hv hmem', if_pos hle, rebuilt_label, hlen]
  · rw [if_pos (by omega)] at hturn
    rw [LoopRun.finishes_iff_of_inr hturn, if_neg hle]
    exact eq_comm

/-- The dot is written over a length of 255, and then it is read as one. -/
theorem finishes_dot {x : Except Fault (Option (List UInt8))} (hu : 0 ∉ u) (hr : 0 ∉ r)
    (hmem : (u ++ (255 :: r ++ 0 :: z)).length = 64)
    (hnext : ∀ v, 0 ∉ v → (v ++ (r.drop 46 ++ 0 :: z)).length = 64 → (Finishes dotTurn
      ⟨v ++ (r.drop 46 ++ 0 :: z), v.length, v.length⟩ x ↔
        x = rebuilt v z (dots v.length (r.drop 46)))) :
    Finishes dotTurn ⟨u ++ (255 :: r ++ 0 :: z), u.length, u.length⟩ x ↔
      x = rebuilt u z (dots u.length (255 :: r)) := by
  have hcons : ∀ c : UInt8, c ≠ 0 → 0 ∉ c :: r := fun c hc h => by
    rcases List.mem_cons.mp h with h | h
    · exact hc h.symm
    · exact hr h
  have hturn := dotTurn_append (z := z) hu (hcons 255 (by decide))
  have hcc : ((255 : UInt8).toNat : ℤ) - 256 + 1 + u.length = (u.length : ℕ) := by
    have h : ((255 : UInt8).toNat : ℤ) = 255 := rfl
    omega
  have hjump : ((((255 : UInt8).toNat : ℤ) - 256 + 1) % 2 ^ 32).toNat = 0 := rfl
  rw [toInt_eq, if_neg (show ¬ (255 : UInt8) < 128 by decide), hcc, hjump,
    if_neg (by omega)] at hturn
  have hsame : dots u.length (255 :: r) = dots u.length (46 :: r) := by
    rw [dots_of_some (b := 255) (n := 46) rfl, dots_of_some (b := 46) (n := 46) rfl]
  have hmem' : (u ++ (46 :: r ++ 0 :: z)).length = 64 := by
    rw [← hmem]
    simp only [List.length_append, List.length_cons]
  rw [LoopRun.finishes_iff_of_inl hturn, hsame]
  exact finishes_label hu (hcons 46 (by decide)) (by decide) hmem' hnext

/-- Any other length from 128 on ends the loop: in the turn itself, or with an access behind the
array in the next one. -/
theorem finishes_far {x : Except Fault (Option (List UInt8))} (hu : 0 ∉ u) (hr : 0 ∉ b :: r)
    (hb : labelLength b = none) (hmem : (u ++ (b :: r ++ 0 :: z)).length = 64) :
    Finishes dotTurn ⟨u ++ (b :: r ++ 0 :: z), u.length, u.length⟩ x ↔
      x = rebuilt u z (dots u.length (b :: r)) := by
  obtain ⟨hbig, h255⟩ := labelLength_eq_none_iff.mp hb
  have hsmall : ¬ b < 128 := Nat.not_lt_of_le hbig
  have hturn := dotTurn_append (z := z) hu hr
  have hle := b.toNat_lt
  have hne : b.toNat ≠ 255 := fun h => h255 (UInt8.toNat_inj.mp h)
  rw [toInt_eq, if_neg hsmall] at hturn
  rw [dots_of_none hb]
  by_cases hfar : 255 ≤ u.length + b.toNat
  · rw [if_neg (by omega)] at hturn
    have hjump : 64 ≤ (((b.toNat : ℤ) - 256 + 1) % 2 ^ 32).toNat := by
      omega
    have hread : (u ++ (46 :: r ++ 0 :: z))[u.length +
        (((b.toNat : ℤ) - 256 + 1) % 2 ^ 32).toNat]? = none := by
      rw [List.getElem?_eq_none]
      simp only [List.length_append, List.length_cons] at hmem ⊢
      omega
    have houtside : dotTurn ⟨u ++ (46 :: r ++ 0 :: z),
        u.length + (((b.toNat : ℤ) - 256 + 1) % 2 ^ 32).toNat,
        (b.toNat : ℤ) - 256 + 1 + u.length⟩ = .inr (.error .outside) := by
      simp only [dotTurn, hread]
    rw [LoopRun.finishes_iff_of_inl hturn, LoopRun.finishes_iff_of_inr houtside, if_pos hfar]
    exact eq_comm
  · rw [if_pos (by omega)] at hturn
    rw [LoopRun.finishes_iff_of_inr hturn, if_neg hfar]
    exact eq_comm

theorem finishes_iff {x : Except Fault (Option (List UInt8))} (hu : 0 ∉ u) (hr : 0 ∉ r)
    (hmem : (u ++ (r ++ 0 :: z)).length = 64) :
    Finishes dotTurn ⟨u ++ (r ++ 0 :: z), u.length, u.length⟩ x ↔
      x = rebuilt u z (dots u.length r) := by
  induction hlen : r.length using Nat.strongRecOn generalizing u r with
  | ind k ih =>
    subst hlen
    cases r with
    | nil =>
      have hturn : dotTurn ⟨u ++ ([] ++ 0 :: z), u.length, u.length⟩ =
          .inr (.ok (some (u ++ ([] ++ 0 :: z)))) := by
        simp [dotTurn]
      rw [LoopRun.finishes_iff_of_inr hturn, dots]
      exact eq_comm
    | cons b r =>
      have hrest : 0 ∉ r := fun h => hr (List.mem_cons_of_mem _ h)
      have hbehind : ∀ n v, 0 ∉ v → (v ++ (r.drop n ++ 0 :: z)).length = 64 → (Finishes dotTurn
          ⟨v ++ (r.drop n ++ 0 :: z), v.length, v.length⟩ x ↔
            x = rebuilt v z (dots v.length (r.drop n))) := fun n v hv hlen =>
        ih (r.drop n).length (by rw [List.length_drop, List.length_cons]; omega) hv
          (fun h => hrest (List.mem_of_mem_drop h)) hlen rfl
      by_cases hsmall : b < 128
      · exact finishes_label hu hr hsmall hmem (hbehind b.toNat)
      · by_cases h255 : b = 255
        · subst h255
          exact finishes_dot hu hrest hmem (hbehind 46)
        · have hbig : 128 ≤ b.toNat := Nat.le_of_not_lt hsmall
          exact finishes_far hu hr (labelLength_eq_none_iff.mpr ⟨hbig, h255⟩) hmem

/-- Behind a place that is no length, or the end, there are no others. -/
theorem eq_of_reaches (hstop : ∀ b, s[p]? = some b → labelLength b = none) (h : Reaches s p q) :
    q = p := by
  cases h with
  | here => rfl
  | next hb hn =>
    rw [hstop _ hb] at hn
    cases hn

theorem reaches_iff_of_some (hget : s[p]? = some b) (hn : labelLength b = some n) :
    Reaches s p q ↔ q = p ∨ (p + 1 + n ≤ s.length ∧ Reaches s (p + 1 + n) q) := by
  constructor
  · intro h
    cases h with
    | here => exact .inl rfl
    | next hb hn' hle h =>
      obtain rfl : b = _ := Option.some.inj (hget.symm.trans hb)
      obtain rfl : n = _ := Option.some.inj (hn.symm.trans hn')
      exact .inr ⟨hle, h⟩
  · intro h
    obtain h | ⟨hle, h⟩ := h
    · rw [h]
      exact .here p
    · exact .next hget hn hle h

theorem exists_map_ok {α β : Type} (x : Except Fault α) (f : α → β) :
    (∃ t, x.map f = .ok t) ↔ ∃ t, x = .ok t := by
  cases x with
  | error e => exact iff_of_false (fun ⟨t, ht⟩ => nomatch ht) (fun ⟨t, ht⟩ => nomatch ht)
  | ok t => exact iff_of_true ⟨_, rfl⟩ ⟨t, rfl⟩

theorem dots_ok_iff (s : List UInt8) (p : ℕ) :
    (∃ t, dots p (s.drop p) = .ok t) ↔ ∀ q b, Reaches s p q → s[q]? = some b →
      128 ≤ b.toNat → b ≠ 255 → q + b.toNat < 255 := by
  induction hlen : s.length - p using Nat.strongRecOn generalizing p with
  | ind k ih =>
    subst hlen
    by_cases hp : p < s.length
    · have hget : s[p]? = some s[p] := List.getElem?_eq_getElem hp
      rw [List.drop_eq_getElem_cons hp]
      cases hb : labelLength s[p] with
      | none =>
        have hlarge := labelLength_eq_none_iff.mp hb
        have hhere : ∀ q, Reaches s p q → q = p := fun q => eq_of_reaches fun b hb' => by
          obtain rfl := Option.some.inj (hget.symm.trans hb')
          exact hb
        rw [dots_of_none hb]
        constructor
        · intro h q b hq hget' _ _
          rw [hhere q hq, hget, Option.some.injEq] at hget'
          rw [hhere q hq, ← hget']
          by_contra hfar
          rw [if_pos (Nat.le_of_not_lt hfar)] at h
          obtain ⟨t, ht⟩ := h
          cases ht
        · intro h
          have hnear := h p s[p] (.here p) hget hlarge.1 hlarge.2
          exact ⟨none, if_neg (Nat.not_le_of_lt hnear)⟩
      | some n =>
        have hfine : ∀ b, s[p]? = some b → 128 ≤ b.toNat → b ≠ 255 → False := by
          intro b hb' hle hne
          obtain rfl := Option.some.inj (hget.symm.trans hb')
          rw [labelLength_eq_none_iff.mpr ⟨hle, hne⟩] at hb
          cases hb
        rw [dots_of_some hb, List.length_drop, List.drop_drop]
        by_cases hle : p + 1 + n ≤ s.length
        · have hnext := ih (s.length - (p + 1 + n)) (by omega) (p + 1 + n) rfl
          rw [if_pos (by omega), exists_map_ok, hnext]
          constructor
          · intro h q b hq hget' hb' h255
            obtain rfl | ⟨-, hq⟩ := (reaches_iff_of_some hget hb).mp hq
            · exact (hfine b hget' hb' h255).elim
            · exact h q b hq hget' hb' h255
          · intro h q b hq
            exact h q b ((reaches_iff_of_some hget hb).mpr (.inr ⟨hle, hq⟩))
        · rw [if_neg (by omega)]
          refine iff_of_true ⟨none, rfl⟩ fun q b hq hget' hb' h255 => ?_
          obtain rfl | ⟨h, -⟩ := (reaches_iff_of_some hget hb).mp hq
          · exact (hfine b hget' hb' h255).elim
          · exact absurd h hle
    · have hend : s[p]? = none := List.getElem?_eq_none (Nat.le_of_not_lt hp)
      rw [List.drop_eq_nil_of_le (Nat.le_of_not_lt hp), dots]
      refine iff_of_true ⟨_, rfl⟩ fun q b hq hget => ?_
      rw [eq_of_reaches (by simp [hend]) hq, hend] at hget
      cases hget

end Loop

section Labels

variable {l : List UInt8} {labels : List (List UInt8)} {s t : List UInt8} {p : ℕ}

theorem encode_cons : encode (l :: labels) = UInt8.ofNat l.length :: (l ++ encode labels) := rfl

theorem length_flatMap_dot : (labels.flatMap (46 :: ·)).length = (encode labels).length := by
  induction labels with
  | nil => rfl
  | cons l labels ih =>
    simp only [encode_cons, List.flatMap_cons, List.length_append, List.length_cons, ih]
    omega

theorem dotted_eq : dotted labels = (labels.flatMap (46 :: ·)).drop 1 := by
  cases labels with
  | nil => rfl
  | cons l labels =>
    rw [List.flatMap_cons, List.cons_append, List.drop_one, List.tail_cons]
    induction labels generalizing l with
    | nil => simp [dotted]
    | cons m labels ih =>
      have hnext := ih m
      rw [dotted] at hnext ⊢
      rw [List.intercalate_cons_cons, hnext, List.flatMap_cons, List.cons_append,
        List.append_assoc, List.singleton_append]

theorem labelLength_ofNat (h : l.length ≤ 63) :
    labelLength (UInt8.ofNat l.length) = some l.length := by
  have hnat : (UInt8.ofNat l.length).toNat = l.length :=
    UInt8.toNat_ofNat_of_lt' (Nat.lt_of_le_of_lt h (by decide))
  rw [labelLength_of_lt, hnat]
  rw [UInt8.lt_iff_toNat_lt, hnat]
  exact Nat.lt_of_le_of_lt h (by decide)

/-- The loop ends behind any number of labels. -/
theorem dots_encode (hwf : WellFormed labels) (p : ℕ) :
    dots p (encode labels) = .ok (some (labels.flatMap (46 :: ·))) := by
  induction labels generalizing p with
  | nil => rw [encode, List.flatMap_nil, dots, List.flatMap_nil]
  | cons l labels ih =>
    have hl := (hwf l List.mem_cons_self).2
    have hnext := ih (fun l h => hwf l (List.mem_cons_of_mem _ h)) (p + 1 + l.length)
    rw [encode_cons, dots_of_some (labelLength_ofNat hl), if_pos (by simp), List.drop_left,
      List.take_left, hnext]
    rfl

/-- A name that is cut ends the loop only where a label begins. -/
theorem labels_of_dots (hwf : WellFormed labels) (hpre : s <+: encode labels)
    (hdots : dots p s = .ok (some t)) :
    ∃ j ≤ labels.length, s = encode (labels.take j) := by
  induction labels generalizing s t p with
  | nil => exact ⟨0, Nat.le_refl _, List.prefix_nil.mp hpre⟩
  | cons l labels ih =>
    have hl := (hwf l List.mem_cons_self).2
    rw [encode_cons] at hpre
    cases s with
    | nil => exact ⟨0, Nat.zero_le _, rfl⟩
    | cons b s =>
      obtain ⟨hb, hpre⟩ := List.cons_prefix_cons.mp hpre
      rw [hb, dots_of_some (labelLength_ofNat hl)] at hdots
      split at hdots
      · next hle =>
        obtain ⟨s', rfl⟩ := List.prefix_of_prefix_length_le (List.prefix_append l _) hpre hle
        rw [List.drop_left] at hdots
        have hpre' : s' <+: encode labels := (List.prefix_append_right_inj l).mp hpre
        have hdots' : ∃ t', dots (p + 1 + l.length) s' = .ok (some t') := by
          cases hd : dots (p + 1 + l.length) s' with
          | error f =>
            rw [hd] at hdots
            cases hdots
          | ok t' =>
            cases t' with
            | none =>
              rw [hd] at hdots
              cases hdots
            | some t' => exact ⟨t', rfl⟩
        obtain ⟨t', ht'⟩ := hdots'
        obtain ⟨j, hj, hs⟩ := ih (fun l h => hwf l (List.mem_cons_of_mem _ h)) hpre' ht'
        refine ⟨j + 1, by simpa using hj, ?_⟩
        rw [List.take_succ_cons, encode_cons, ← hs, hb]
      · cases hdots

theorem length_ne_zero (h : 1 ≤ l.length ∧ l.length ≤ 63) : UInt8.ofNat l.length ≠ 0 := by
  intro hzero
  have hnat : (UInt8.ofNat l.length).toNat = l.length :=
    UInt8.toNat_ofNat_of_lt' (Nat.lt_of_le_of_lt h.2 (by decide))
  rw [hzero] at hnat
  exact Nat.not_succ_le_zero 0 (Nat.le_trans h.1 (Nat.le_of_eq hnat.symm))

theorem zero_notMem_cstr (memory : List UInt8) : 0 ∉ cstr memory := by
  intro h
  have hall : (cstr memory).all (· ≠ 0) = true := List.all_takeWhile
  simpa using List.all_eq_true.mp hall 0 h

theorem cstr_zeros (k : ℕ) (z : List UInt8) : cstr (List.replicate k 0 ++ 0 :: z) = [] := by
  cases k with
  | zero => exact List.takeWhile_cons_of_neg (by simp)
  | succ k => exact List.takeWhile_cons_of_neg (by simp)

theorem prefix_of_cstr (u z : List UInt8) : cstr (u ++ 0 :: z) <+: u := by
  induction u with
  | nil => exact List.prefix_rfl
  | cons b u ih =>
    by_cases hb : b = 0
    · rw [hb, List.cons_append, cstr, List.takeWhile_cons_of_neg (by simp)]
      exact List.nil_prefix
    · rw [List.cons_append, cstr, List.takeWhile_cons_of_pos (by simpa using hb)]
      exact List.cons_prefix_cons.mpr ⟨rfl, ih⟩

theorem cstr_eq_iff (u z : List UInt8) : cstr (u ++ 0 :: z) = u ↔ 0 ∉ u := by
  constructor
  · intro h
    rw [← h]
    exact zero_notMem_cstr _
  · exact takeWhile_zero

theorem zero_notMem_dots (h : 0 ∉ encode labels) : 0 ∉ labels.flatMap (46 :: ·) := by
  intro hmem
  obtain ⟨l, hl, hzero⟩ := List.mem_flatMap.mp hmem
  rcases List.mem_cons.mp hzero with hzero | hzero
  · cases hzero
  · exact h (List.mem_flatMap.mpr ⟨l, hl, List.mem_cons_of_mem _ hzero⟩)

/-- What `RDname+1` points to when a name was converted. -/
theorem cstr_dots (hne : labels ≠ []) (h : 0 ∉ encode labels) (z : List UInt8) :
    cstr ((labels.flatMap (46 :: ·) ++ 0 :: z).drop 1) = dotted labels := by
  have hdots := zero_notMem_dots h
  rw [dotted_eq]
  cases labels with
  | nil => exact absurd rfl hne
  | cons l labels =>
    rw [List.flatMap_cons, List.cons_append] at hdots ⊢
    rw [List.cons_append, List.drop_one, List.drop_one, List.tail_cons, List.tail_cons]
    exact takeWhile_zero fun h => hdots (List.mem_cons_of_mem _ h)

/-- Without the loop, the text is right for one label only. -/
theorem cstr_encode_iff (hwf : WellFormed labels) (hne : labels ≠ [])
    (hlen : (encode labels).length ≤ 4) (z : List UInt8) :
    (cstr (encode labels ++ 0 :: z)).drop 1 = dotted labels ↔
      labels.length = 1 ∧ 0 ∉ encode labels := by
  cases labels with
  | nil => exact absurd rfl hne
  | cons l labels =>
    have hl := hwf l List.mem_cons_self
    have hpos := length_ne_zero hl
    rw [encode_cons, List.cons_append, cstr, List.takeWhile_cons_of_pos (by simpa using hpos),
      List.drop_one, List.tail_cons, dotted_eq, List.flatMap_cons, List.cons_append,
      List.drop_one, List.tail_cons]
    cases labels with
    | nil =>
      have htext := cstr_eq_iff l z
      rw [cstr] at htext
      simp only [encode, List.flatMap_nil, List.append_nil, htext, List.length_singleton,
        List.mem_cons, hpos.symm, false_or, true_and]
    | cons m labels =>
      have hm := hwf m (by simp)
      simp only [encode_cons, List.length_cons, List.length_append] at hlen
      obtain ⟨x, rfl⟩ := List.length_eq_one_iff.mp (show l.length = 1 by omega)
      refine iff_of_false ?_ fun h => by simp at h
      rw [encode_cons, List.flatMap_cons, List.append_assoc, List.singleton_append]
      intro h
      by_cases hx : x = 0
      · rw [hx, List.takeWhile_cons_of_neg (by simp)] at h
        cases h
      · have hpos' := length_ne_zero hm
        rw [List.takeWhile_cons_of_pos (by simpa using hx), List.cons_append,
          List.takeWhile_cons_of_pos (by simpa using hpos')] at h
        have hdot : UInt8.ofNat m.length = 46 := by
          injection h with _ h
          injection h
        have hnat : (UInt8.ofNat m.length).toNat = m.length :=
          UInt8.toNat_ofNat_of_lt' (Nat.lt_of_le_of_lt hm.2 (by decide))
        rw [hdot] at hnat
        change 46 = m.length at hnat
        omega

end Labels

/-! ## The conversion -/

def held (memory : List UInt8) (datalen : ℕ) : List UInt8 := (cstr memory).take (datalen - 25)

section Copy

variable {name : List UInt8} {datalen : ℕ}

theorem copyName_eq (hname : 0 ∉ name) (hlen : name.length < 64) (h25 : 25 ≤ datalen)
    (h89 : datalen < 89) :
    ∃ z, copyName name datalen = .ok (name.take (datalen - 25) ++ 0 :: z) ∧
      (name.take (datalen - 25) ++ 0 :: z).length = 64 ∧
      (name.take (datalen - 25) = [] → cstr z = name.drop 1) := by
  obtain ⟨k, hk⟩ : ∃ k, 64 - name.length = k + 1 := ⟨63 - name.length, by omega⟩
  have hcopy : copyName name datalen =
      .ok ((name ++ List.replicate (64 - name.length) 0).set (datalen - 25) 0) := by
    rw [copyName, if_neg (by omega), if_neg (by omega)]
  have hset : (name ++ List.replicate (64 - name.length) 0).set (datalen - 25) 0 =
      (name ++ List.replicate (64 - name.length) 0).take (datalen - 25) ++
        0 :: (name ++ List.replicate (64 - name.length) 0).drop (datalen - 25 + 1) := by
    rw [List.set_eq_take_append_cons_drop, if_pos]
    simp only [List.length_append, List.length_replicate]
    omega
  by_cases hle : datalen - 25 ≤ name.length
  · refine ⟨(name ++ List.replicate (64 - name.length) 0).drop (datalen - 25 + 1), ?_, ?_, ?_⟩
    · rw [hcopy, hset, List.take_append_of_le_length hle]
    · simp only [List.length_append, List.length_cons, List.length_take, List.length_drop,
        List.length_replicate]
      omega
    · intro hnil
      have hnil' := congrArg List.length hnil
      rw [List.length_take, Nat.min_eq_left hle, List.length_nil] at hnil'
      rw [hnil', hk]
      cases name with
      | nil =>
        cases k with
        | zero => rfl
        | succ k => exact cstr_zeros 0 _
      | cons b name =>
        rw [List.replicate_succ, Nat.zero_add, List.cons_append, List.drop_one, List.drop_one,
          List.tail_cons, List.tail_cons]
        exact takeWhile_zero fun h => hname (List.mem_cons_of_mem _ h)
  · obtain ⟨j, hj⟩ : ∃ j, datalen - 25 - name.length = j + 1 :=
      ⟨datalen - 25 - name.length - 1, by omega⟩
    have htake : (name ++ List.replicate (64 - name.length) 0).take (datalen - 25) =
        name.take (datalen - 25) ++ (0 :: List.replicate j 0) := by
      rw [List.take_append, List.take_replicate, hj, Nat.min_eq_left (by omega)]
      rfl
    rw [htake, List.append_assoc, List.cons_append] at hset
    refine ⟨List.replicate j 0 ++
      0 :: (name ++ List.replicate (64 - name.length) 0).drop (datalen - 25 + 1), ?_, ?_, ?_⟩
    · rw [hcopy, hset]
    · rw [← hset]
      simp only [List.length_set, List.length_append, List.length_replicate]
      omega
    · intro hnil
      rw [List.take_of_length_le (Nat.le_of_not_le hle)] at hnil
      rw [cstr_zeros, hnil, List.drop_nil]

theorem converts_iff (hname : 0 ∉ name) (hlen : name.length < 64) (h25 : 25 ≤ datalen)
    (h89 : datalen < 89) :
    ∃ z, (name.take (datalen - 25) = [] → cstr z = name.drop 1) ∧
      ∀ x, Converts name datalen x ↔ x = rebuilt [] z (dots 0 (name.take (datalen - 25))) := by
  obtain ⟨z, hcopy, hmem, htext⟩ := copyName_eq hname hlen h25 h89
  refine ⟨z, htext, fun x => ?_⟩
  simp only [Converts, hcopy]
  exact finishes_iff (u := []) List.not_mem_nil (fun h => hname (List.mem_of_mem_take h)) hmem

theorem bounds_of_converts {r : Option (List UInt8)} (h : Converts name datalen (.ok r)) :
    name.length < 64 ∧ 25 ≤ datalen ∧ datalen < 89 := by
  by_contra hout
  have hcopy : copyName name datalen = .error .outside := by
    rw [copyName]
    split
    · rfl
    · rw [if_pos (by omega)]
  simp only [Converts, hcopy] at h
  cases h

end Copy

/-- The conversion stays within the array, and what it comes to on a question in the packet is
the name with its dots. -/
def NameOk (memory : List UInt8) (datalen : ℕ) : Prop :=
  ∃ r, Converts (cstr memory) datalen (.ok r) ∧
    ∀ labels rest rdname, WellFormed labels → memory = encode labels ++ 0 :: rest →
      20 + (encode labels).length + 1 ≤ datalen → r = some rdname →
        cstr (rdname.drop 1) = dotted labels

/-- The string fits, the zero is put into the array, no length from 128 to 254 leads on, and a
question without its type and class is not cut between two of its labels. -/
structure Safe (memory : List UInt8) (datalen : ℕ) : Prop where
  fits : (cstr memory).length < 64
  enough : 25 ≤ datalen
  few : datalen < 89
  near : ∀ q b, Reaches (held memory datalen) 0 q → (held memory datalen)[q]? = some b →
    128 ≤ b.toNat → b ≠ 255 → q + b.toNat < 255
  whole : ∀ labels rest, WellFormed labels → memory = encode labels ++ 0 :: rest →
    20 + (encode labels).length + 1 ≤ datalen →
      ∀ j < labels.length, held memory datalen = encode (labels.take j) →
        j = 0 ∧ labels.length = 1 ∧ 0 ∉ encode labels

section Name

variable {memory z : List UInt8} {datalen j : ℕ} {labels : List (List UInt8)}

theorem encode_ne_nil (h : labels ≠ []) : encode labels ≠ [] := by
  cases labels with
  | nil => exact absurd rfl h
  | cons l labels => exact List.cons_ne_nil _ _

theorem wellFormed_take (h : WellFormed labels) (j : ℕ) : WellFormed (labels.take j) :=
  fun l hl => h l (List.mem_of_mem_take hl)

theorem zero_notMem_held (memory : List UInt8) (datalen : ℕ) : 0 ∉ held memory datalen :=
  fun h => zero_notMem_cstr memory (List.mem_of_mem_take h)

theorem length_dotted (h : labels ≠ []) : (dotted labels).length + 1 = (encode labels).length := by
  have hne := encode_ne_nil h
  rw [dotted_eq, List.length_drop, length_flatMap_dot]
  have hpos := List.length_pos_iff.mpr hne
  omega

theorem length_encode_take (hj : j < labels.length) :
    (encode (labels.take j)).length < (encode labels).length := by
  have hsplit : encode labels = encode (labels.take j) ++ encode (labels.drop j) := by
    rw [encode, encode, encode, ← List.flatMap_append, List.take_append_drop]
  have hne : labels.drop j ≠ [] := fun h => by
    have hlen := congrArg List.length h
    rw [List.length_drop, List.length_nil] at hlen
    omega
  have hpos := List.length_pos_iff.mpr (encode_ne_nil hne)
  rw [hsplit, List.length_append]
  omega

theorem small_of_held_nil (hwf : WellFormed labels) (hne : labels ≠ []) {rest : List UInt8}
    (hmem : memory = encode labels ++ 0 :: rest)
    (hin : 20 + (encode labels).length + 1 ≤ datalen) (h : held memory datalen = []) :
    (encode labels).length ≤ 4 := by
  have hname : cstr memory ≠ [] := by
    cases labels with
    | nil => exact absurd rfl hne
    | cons l labels =>
      have hpos := length_ne_zero (hwf l List.mem_cons_self)
      rw [hmem, encode_cons, List.cons_append, cstr,
        List.takeWhile_cons_of_pos (by simpa using hpos)]
      exact List.cons_ne_nil _ _
  have hpos := List.length_pos_iff.mpr hname
  have hlen := congrArg List.length h
  rw [held, List.length_take, List.length_nil] at hlen
  omega

theorem safe_of_nameOk (h : NameOk memory datalen) : Safe memory datalen := by
  obtain ⟨r, hconv, htext⟩ := h
  obtain ⟨hfits, h25, h89⟩ := bounds_of_converts hconv
  obtain ⟨z, hz, hiff⟩ := converts_iff (zero_notMem_cstr memory) hfits h25 h89
  have hr := (hiff _).mp hconv
  rw [← held] at hr hz
  refine ⟨hfits, h25, h89, ?_, ?_⟩
  · apply (dots_ok_iff (held memory datalen) 0).mp
    rw [List.drop_zero]
    cases hdots : dots 0 (held memory datalen) with
    | error f =>
      rw [hdots] at hr
      cases hr
    | ok t => exact ⟨t, rfl⟩
  · intro labels rest hwf hmem hin j hj hheld
    rw [hheld, dots_encode (wellFormed_take hwf j)] at hr
    have hr' : r = some ((labels.take j).flatMap (46 :: ·) ++ 0 :: z) := by
      injection hr
    have hsame := htext labels rest _ hwf hmem hin hr'
    have hne : labels ≠ [] := List.ne_nil_of_length_pos (Nat.zero_lt_of_lt hj)
    have hzero := zero_notMem_held memory datalen
    cases j with
    | zero =>
      have hnil : held memory datalen = [] := hheld
      have hlen := small_of_held_nil hwf hne hmem hin hnil
      refine ⟨rfl, (cstr_encode_iff hwf hne hlen rest).mp ?_⟩
      rw [← hmem, ← hz hnil, ← hsame]
      rfl
    | succ j =>
      have hne' : labels.take (j + 1) ≠ [] := by
        cases labels with
        | nil => exact absurd rfl hne
        | cons l labels => exact List.cons_ne_nil _ _
      rw [hheld] at hzero
      rw [cstr_dots hne' hzero] at hsame
      have hless := length_encode_take hj
      rw [← length_dotted hne, ← length_dotted hne', hsame] at hless
      exact absurd hless (Nat.lt_irrefl _)

theorem nameOk_of_safe (h : Safe memory datalen) : NameOk memory datalen := by
  obtain ⟨z, hz, hiff⟩ := converts_iff (zero_notMem_cstr memory) h.fits h.enough h.few
  rw [← held] at hz hiff
  have hok := (dots_ok_iff (held memory datalen) 0).mpr h.near
  rw [List.drop_zero] at hok
  obtain ⟨t, ht⟩ := hok
  refine ⟨t.map fun t => [] ++ (t ++ 0 :: z), (hiff _).mpr (by rw [ht]; rfl), ?_⟩
  intro labels rest rdname hwf hmem hin hsome
  cases t with
  | none => cases hsome
  | some t =>
    have hpre : held memory datalen <+: encode labels := by
      refine (List.take_prefix _ _).trans ?_
      rw [hmem]
      exact prefix_of_cstr _ _
    obtain ⟨j, hj, hheld⟩ := labels_of_dots hwf hpre ht
    have hdots := dots_encode (wellFormed_take hwf j) 0
    rw [← hheld, ht] at hdots
    have hrd : rdname = (labels.take j).flatMap (46 :: ·) ++ 0 :: z := by
      injection hdots with hdots
      injection hdots with hdots
      rw [← hdots]
      injection hsome with hsome
      exact hsome.symm
    rw [hrd]
    by_cases hlast : j = labels.length
    · rw [hlast, List.take_length] at hheld ⊢
      by_cases hne : labels = []
      · rw [hne] at hheld hmem ⊢
        have hname : cstr memory = [] := by
          rw [hmem]
          rfl
        rw [hname] at hz
        exact hz hheld
      · exact cstr_dots hne (hheld ▸ zero_notMem_held memory datalen) z
    · have hlt : j < labels.length := Nat.lt_of_le_of_ne hj hlast
      obtain ⟨rfl, hone⟩ := h.whole labels rest hwf hmem hin j hlt hheld
      have hne : labels ≠ [] := List.ne_nil_of_length_pos hlt
      have hlen := small_of_held_nil hwf hne hmem hin hheld
      have htext := (cstr_encode_iff hwf hne hlen rest).mpr hone
      rw [← hmem, ← hz hheld] at htext
      exact htext

end Name

/-- When the conversion is right, for every packet. -/
theorem nameOk_iff (memory : List UInt8) (datalen : ℕ) :
    NameOk memory datalen ↔ Safe memory datalen :=
  ⟨safe_of_nameOk, nameOk_of_safe⟩

/-- A question of 64 bytes, with its type and class: the zero is put behind the array. -/
theorem long_name_past_end :
    ¬ ∀ memory : List UInt8, ∀ datalen ≤ 89, NameOk memory datalen := by
  intro h
  obtain ⟨r, hconv, -⟩ := h (63 :: List.replicate 63 97 ++ [0, 0, 1, 0, 1]) 89 (Nat.le_refl _)
  exact absurd (bounds_of_converts hconv).2.2 (by decide)

end SplitDnsName
