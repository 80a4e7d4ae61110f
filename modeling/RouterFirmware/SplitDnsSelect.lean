import RouterFirmware.SplitDnsName

/-! # The tunnel for a name

`strstr` looks for the domains of a tunnel anywhere in the name of a query, so that the query also
goes to a tunnel whose domain its name only contains.
-/
namespace SplitDnsSelect

open SplitDns SplitDnsName

/-- The name is the domain, or ends with a dot and the domain. -/
def Under (name d : List UInt8) : Prop := d = name ∨ 46 :: d <:+ name

instance (name d : List UInt8) : Decidable (Under name d) :=
  inferInstanceAs (Decidable (_ ∨ _))

/-- The first tunnel with a domain that the name is under. -/
def entryUnder (l : List IpsecSplitDns) (name : List UInt8) : Option IpsecSplitDns :=
  l.find? fun entry => entry.domainName.any fun d => decide (Under name d)

/-- A query from the LAN, with its type and class. -/
structure Asks (p : SkBuff) (labels : List (List UInt8)) : Prop where
  udp : p.protocol = 17
  dport : p.dport = 53
  query : p.dnsQr = 0
  lan : p.dev = some true
  wellFormed : WellFormed labels
  name : ∃ rest, p.name = cstr (encode labels ++ 0 :: rest)
  len : 25 + (encode labels).length ≤ p.datalen

/-- The query goes to the servers of the first tunnel that its name is under, if there is one. -/
def Redirects (t : Tables) (p : SkBuff) (luck : Luck) (labels : List (List UInt8)) : Prop :=
  (t.ipsecSplitDnsList ≠ [] → p.datalen ≤ 89 → ∃ r, Converts p.name p.datalen (.ok r)) ∧
  (nkTranslateSpiltdnsToIpsec t p luck).2 =
    match entryUnder t.ipsecSplitDnsList (dotted labels) with
    | none => .untouched
    | some entry => .forwarded (entry.servers luck.copied)

/-- The length is not the one that is a byte too long. The first tunnel with a domain that the
name contains has the servers of the first that it is under. Where no search is made or nothing
can be remembered, the name is under none. -/
structure Sound (t : Tables) (p : SkBuff) (luck : Luck) (labels : List (List UInt8)) : Prop where
  length : t.ipsecSplitDnsList ≠ [] → p.datalen ≠ 89
  found : p.datalen < 89 → 0 ∉ encode labels → luck.alloc = true →
    ∀ entry, listEntry t.ipsecSplitDnsList (dotted labels) = some entry →
      ∃ entry', entryUnder t.ipsecSplitDnsList (dotted labels) = some entry' ∧
        entry.servers luck.copied = entry'.servers luck.copied
  missed : 89 < p.datalen ∨ 0 ∈ encode labels ∨ luck.alloc = false →
    entryUnder t.ipsecSplitDnsList (dotted labels) = none

/-! ## The conversion of the translation -/

section Dotted

variable {u r : List UInt8} {b : UInt8} {t : Option (List UInt8)} {fuel : ℕ}

theorem dotLabels_append (u : List UInt8) (b : UInt8) (r : List UInt8) (fuel : ℕ) :
    dotLabels (fuel + 1) (u ++ b :: r) u.length =
      if u.length + b.toInt8.toInt + 1 > ((u ++ b :: r).length : ℤ) ∨
        u.length + b.toInt8.toInt + 1 < 0 then none
      else dotLabels fuel (u ++ 46 :: r) (u.length + b.toInt8.toInt + 1) := by
  have hread : (u ++ b :: r)[((u.length : ℕ) : ℤ).toNat]? = some b := by
    rw [Int.toNat_natCast, List.getElem?_append_right (Nat.le_refl _), Nat.sub_self]
    rfl
  have hset : (u ++ b :: r).set ((u.length : ℕ) : ℤ).toNat 46 = u ++ 46 :: r := by
    rw [Int.toNat_natCast, List.set_append_right _ _ (Nat.le_refl _), Nat.sub_self]
    rfl
  rw [dotLabels, hread]
  simp only [hset]

theorem dotLabels_label (hb : b < 128) (hdots : dots u.length (b :: r) = .ok t)
    (hnext : ∀ v t', dots v.length (r.drop b.toNat) = .ok t' →
      dotLabels fuel (v ++ r.drop b.toNat) v.length = t'.map (v ++ ·)) :
    dotLabels (fuel + 1) (u ++ b :: r) u.length = t.map (u ++ ·) := by
  rw [dots_of_some (labelLength_of_lt hb)] at hdots
  rw [dotLabels_append, toInt_eq, if_pos hb]
  by_cases hle : b.toNat ≤ r.length
  · have hlen : u.length + 1 + b.toNat = (u ++ 46 :: r.take b.toNat).length := by
      rw [List.length_append, List.length_cons, List.length_take, Nat.min_eq_left hle]
      omega
    have hcc : (u.length : ℤ) + b.toNat + 1 = ((u ++ 46 :: r.take b.toNat).length : ℕ) := by
      omega
    have hsplit : u ++ 46 :: r = u ++ 46 :: r.take b.toNat ++ r.drop b.toNat := by
      rw [List.append_assoc, List.cons_append, List.take_append_drop]
    rw [if_pos hle, hlen] at hdots
    rw [if_neg (by rw [List.length_append, List.length_cons]; omega), hcc, hsplit]
    cases hd : dots (u ++ 46 :: r.take b.toNat).length (r.drop b.toNat) with
    | error f =>
      rw [hd] at hdots
      cases hdots
    | ok t' =>
      rw [hd] at hdots
      injection hdots with hdots
      rw [hnext _ t' hd, ← hdots]
      cases t' with
      | none => rfl
      | some t' => simp
  · rw [if_neg hle] at hdots
    injection hdots with hdots
    rw [if_pos (by rw [List.length_append, List.length_cons]; omega), ← hdots]
    rfl

/-- Within the array a negative length ends the loop, so that the string alone decides. -/
theorem dotLabels_of_dots (hdots : dots u.length r = .ok t) (hfuel : 2 * r.length < fuel) :
    dotLabels fuel (u ++ r) u.length = t.map (u ++ ·) := by
  induction hlen : r.length using Nat.strongRecOn generalizing u r t fuel with
  | ind k ih =>
    subst hlen
    obtain ⟨fuel, rfl⟩ : ∃ k, fuel = k + 1 := ⟨fuel - 1, by omega⟩
    cases r with
    | nil =>
      rw [dots] at hdots
      injection hdots with hdots
      rw [← hdots]
      simp [dotLabels]
    | cons b r =>
      rw [List.length_cons] at hfuel
      have hbehind : ∀ n k, 2 * r.length < k → ∀ v t', dots v.length (r.drop n) = .ok t' →
          dotLabels k (v ++ r.drop n) v.length = t'.map (v ++ ·) := by
        intro n k hk v t' ht'
        have hle : (r.drop n).length ≤ r.length := by
          rw [List.length_drop]
          omega
        exact ih _ (Nat.lt_succ_of_le hle) ht' (by omega) rfl
      by_cases hsmall : b < 128
      · exact dotLabels_label hsmall hdots (hbehind b.toNat fuel (by omega))
      · by_cases h255 : b = 255
        · subst h255
          obtain ⟨fuel, rfl⟩ : ∃ k, fuel = k + 1 := ⟨fuel - 1, by omega⟩
          have hdot : dots u.length (46 :: r) = .ok t := by
            rw [dots_of_some (b := 255) (n := 46) rfl] at hdots
            rw [dots_of_some (b := 46) (n := 46) rfl, hdots]
          have hcc : (u.length : ℤ) + (((255 : UInt8).toNat : ℤ) - 256) + 1 = u.length := by
            have h : ((255 : UInt8).toNat : ℤ) = 255 := rfl
            omega
          rw [dotLabels_append, toInt_eq, if_neg hsmall, hcc,
            if_neg (by rw [List.length_append]; omega)]
          exact dotLabels_label (by decide) hdot (hbehind 46 fuel (by omega))
        · have hb := labelLength_eq_none_iff.mpr ⟨Nat.le_of_not_lt hsmall, h255⟩
          rw [dots_of_none hb] at hdots
          split at hdots
          · cases hdots
          · next hnear =>
            injection hdots with hdots
            rw [dotLabels_append, toInt_eq, if_neg hsmall, if_pos (by omega), ← hdots]
            rfl

theorem dottedName_of_dots {p : SkBuff} (hdots : dots 0 (rdName p) = .ok t) :
    dottedName p = t := by
  have hfuel : 2 * (rdName p).length < ((rdName p).length + 1) * ((rdName p).length + 1) := by
    have hsquare := Nat.zero_le ((rdName p).length * (rdName p).length)
    rw [Nat.succ_mul (rdName p).length, Nat.mul_succ (rdName p).length]
    omega
  have hloop := dotLabels_of_dots (u := []) hdots hfuel
  rw [List.nil_append, List.length_nil, Nat.cast_zero] at hloop
  rw [dottedName, hloop]
  cases t <;> rfl

/-- The loop changes no length and only puts dots. -/
theorem bytes_of_dots {s t : List UInt8} {q : ℕ} (hdots : dots q s = .ok (some t)) :
    t.length = s.length ∧ ∀ x ∈ t, x = 46 ∨ x ∈ s := by
  induction hlen : s.length using Nat.strongRecOn generalizing s t q with
  | ind k ih =>
    subst hlen
    cases s with
    | nil =>
      rw [dots] at hdots
      injection hdots with hdots
      injection hdots with hdots
      rw [← hdots]
      exact ⟨rfl, fun x hx => absurd hx List.not_mem_nil⟩
    | cons b r =>
      cases hb : labelLength b with
      | none =>
        rw [dots_of_none hb] at hdots
        split at hdots <;> cases hdots
      | some n =>
        rw [dots_of_some hb] at hdots
        split at hdots
        · next hle =>
          have hshort : (r.drop n).length < (b :: r).length := by
            rw [List.length_drop, List.length_cons]
            omega
          cases hd : dots (q + 1 + n) (r.drop n) with
          | error f =>
            rw [hd] at hdots
            cases hdots
          | ok t' =>
            cases t' with
            | none =>
              rw [hd] at hdots
              cases hdots
            | some t' =>
              rw [hd] at hdots
              injection hdots with hdots
              injection hdots with hdots
              obtain ⟨hlen, hbytes⟩ := ih _ hshort hd rfl
              rw [List.length_drop] at hlen
              rw [← hdots]
              refine ⟨?_, fun x hx => ?_⟩
              · simp only [List.length_cons, List.length_append, List.length_take, hlen]
                omega
              · rcases List.mem_cons.mp hx with hx | hx
                · exact .inl hx
                · rcases List.mem_append.mp hx with hx | hx
                  · exact .inr (List.mem_cons_of_mem _ (List.mem_of_mem_take hx))
                  · obtain hx | hx := hbytes x hx
                    · exact .inl hx
                    · exact .inr (List.mem_cons_of_mem _ (List.mem_of_mem_drop hx))
        · cases hdots

/-- Where the conversion stays within the array, it is that of the translation. -/
theorem rdText_of_converts {p : SkBuff} {r : Option (List UInt8)} (hname : 0 ∉ p.name)
    (h : Converts p.name p.datalen (.ok r)) :
    rdText p = r.map fun rdname => cstr (rdname.drop 1) := by
  obtain ⟨hfits, h25, h89⟩ := bounds_of_converts h
  obtain ⟨z, htext, hiff⟩ := converts_iff hname hfits h25 h89
  have hr := (hiff _).mp h
  have hrd : rdName p = p.name.take (p.datalen - 25) := if_pos h25
  rw [← hrd] at hr htext
  cases hdots : dots 0 (rdName p) with
  | error f =>
    rw [hdots] at hr
    cases hr
  | ok t =>
    rw [hdots] at hr
    injection hr with hr
    rw [rdText, dottedName_of_dots hdots, hr]
    cases t with
    | none => rfl
    | some t =>
      obtain ⟨hlen, hbytes⟩ := bytes_of_dots hdots
      have hzero : 0 ∉ t := fun h => by
        obtain h | h := hbytes 0 h
        · cases h
        · rw [hrd] at h
          exact hname (List.mem_of_mem_take h)
      change some (if t = [] then _ else _) = some (cstr ((t ++ 0 :: z).drop 1))
      cases t with
      | nil =>
        have hempty : rdName p = [] := List.eq_nil_of_length_eq_zero hlen.symm
        rw [if_pos rfl, ← htext hempty]
        rfl
      | cons b t =>
        rw [if_neg (List.cons_ne_nil b t), List.cons_append, List.drop_one, List.drop_one,
          List.tail_cons, List.tail_cons, takeWhile_zero]
        exact fun h => hzero (List.mem_cons_of_mem _ h)

end Dotted

section Query

variable {t : Tables} {p : SkBuff} {luck : Luck} {labels : List (List UInt8)}
variable {l : List IpsecSplitDns} {s u y z name d : List UInt8} {q : ℕ}

theorem exists_cut (h : 0 ∈ u) (z : List UInt8) : ∃ y, cstr (u ++ 0 :: z) ++ 0 :: y = u := by
  induction u with
  | nil => cases h
  | cons b u ih =>
    by_cases hb : b = 0
    · refine ⟨u, ?_⟩
      rw [hb, List.cons_append, cstr, List.takeWhile_cons_of_neg (by simp), List.nil_append]
    · obtain ⟨y, hy⟩ := ih ((List.mem_cons.mp h).resolve_left (Ne.symm hb))
      refine ⟨y, ?_⟩
      rw [List.cons_append, cstr, List.takeWhile_cons_of_pos (by simpa using hb), ← cstr,
        List.cons_append, hy]

/-- A name that ends within a label ends the function. -/
theorem dots_cut (hwf : WellFormed labels) (hcut : s ++ 0 :: y = encode labels) :
    dots q s = .ok none := by
  induction labels generalizing s q with
  | nil => simp [encode] at hcut
  | cons l labels ih =>
    have hl := hwf l List.mem_cons_self
    rw [encode_cons] at hcut
    cases s with
    | nil =>
      injection hcut with hzero _
      exact absurd hzero.symm (length_ne_zero hl)
    | cons b s =>
      rw [List.cons_append, List.cons.injEq] at hcut
      obtain ⟨hb, hcut⟩ := hcut
      rw [hb, dots_of_some (labelLength_ofNat hl.2)]
      split
      · next hle =>
        have hpre : l <+: s ++ 0 :: y := by
          rw [hcut]
          exact List.prefix_append _ _
        obtain ⟨s', rfl⟩ := List.prefix_of_prefix_length_le hpre (List.prefix_append s _) hle
        rw [List.append_assoc, List.append_cancel_left_eq] at hcut
        rw [List.drop_left, ih (fun l h => hwf l (List.mem_cons_of_mem _ h)) hcut]
        rfl
      · rfl

theorem rdName_of_asks (h : Asks p labels) : rdName p = p.name := by
  obtain ⟨rest, hname⟩ := h.name
  have hlen := h.len
  have hle := (prefix_of_cstr (encode labels) rest).length_le
  rw [← hname] at hle
  rw [rdName, if_pos (by omega), List.take_of_length_le (by omega)]

theorem dots_name (h : Asks p labels) : dots 0 p.name =
    .ok (if 0 ∈ encode labels then none else some (labels.flatMap (46 :: ·))) := by
  obtain ⟨rest, hname⟩ := h.name
  by_cases hzero : 0 ∈ encode labels
  · obtain ⟨y, hy⟩ := exists_cut hzero rest
    rw [← hname] at hy
    rw [if_pos hzero, dots_cut h.wellFormed hy]
  · rw [if_neg hzero, hname, takeWhile_zero hzero, dots_encode h.wellFormed]

theorem rdText_of_asks (h : Asks p labels) :
    rdText p = if 0 ∈ encode labels then none else some (dotted labels) := by
  obtain ⟨rest, hname⟩ := h.name
  have hdots := dots_name h
  rw [← rdName_of_asks h] at hdots
  rw [rdText, dottedName_of_dots hdots]
  by_cases hzero : 0 ∈ encode labels
  · rw [if_pos hzero, if_pos hzero, Option.map_none]
  · rw [if_neg hzero, if_neg hzero, Option.map_some, dotted_eq]
    split
    · next hnil =>
      have hempty : encode labels = [] := by
        apply List.eq_nil_of_length_eq_zero
        rw [← length_flatMap_dot, hnil, List.length_nil]
      rw [hname, takeWhile_zero hzero, hempty, hnil]
    · rfl

theorem converts_of_asks (h : Asks p labels) (h89 : p.datalen < 89) :
    ∃ r, Converts p.name p.datalen (.ok r) := by
  obtain ⟨rest, hname⟩ := h.name
  have hlen := h.len
  have hle := (prefix_of_cstr (encode labels) rest).length_le
  have hzero := zero_notMem_cstr (encode labels ++ 0 :: rest)
  rw [← hname] at hle hzero
  obtain ⟨z, -, hiff⟩ := converts_iff hzero (by omega) (by omega) h89
  rw [List.take_of_length_le (by omega), dots_name h] at hiff
  exact ⟨_, (hiff _).mpr rfl⟩

theorem infix_of_under (h : Under name d) : d <:+: name := by
  obtain h | h := h
  · rw [h]
  · exact ((List.suffix_cons 46 d).trans h).isInfix

theorem entryUnder_of_listEntry (h : listEntry l name = none) : entryUnder l name = none := by
  rw [listEntry, List.find?_eq_none] at h
  rw [entryUnder, List.find?_eq_none]
  intro entry hentry hunder
  apply h entry hentry
  rw [List.any_eq_true] at hunder ⊢
  obtain ⟨d, hd, hunder⟩ := hunder
  exact ⟨d, hd, decide_eq_true (infix_of_under (of_decide_eq_true hunder))⟩

theorem translate_of_asks (h : Asks p labels) :
    nkTranslateSpiltdnsToIpsec t p luck =
      if t.ipsecSplitDnsList = [] ∨ 89 < p.datalen then (t, .untouched)
      else translateQuery t p luck := by
  rw [nkTranslateSpiltdnsToIpsec]
  by_cases hempty : t.ipsecSplitDnsList = []
  · rw [if_pos (by simp [hempty]), if_pos (.inl hempty)]
  · rw [if_neg (by simpa using hempty), if_neg (not_not.mpr h.udp)]
    by_cases hlong : 89 < p.datalen
    · rw [if_pos (.inr ⟨h.dport, hlong⟩), if_pos (.inr hlong)]
    · rw [if_neg (by simp [h.dport, hlong]), if_neg (by simp [hempty, hlong])]
      simp only [h.lan, h.dport, h.query, true_and, if_true]

/-- The outcome for a query, as far as the array is long enough. -/
theorem outcome_of_asks (h : Asks p labels) :
    (nkTranslateSpiltdnsToIpsec t p luck).2 =
      if 89 < p.datalen ∨ 0 ∈ encode labels ∨ luck.alloc = false then .untouched
      else match listEntry t.ipsecSplitDnsList (dotted labels) with
        | none => .untouched
        | some entry => .forwarded (entry.servers luck.copied) := by
  rw [translate_of_asks h]
  by_cases hempty : t.ipsecSplitDnsList = []
  · have hnone : listEntry t.ipsecSplitDnsList (dotted labels) = none := by
      rw [hempty]
      rfl
    rw [if_pos (.inl hempty), hnone]
    split <;> rfl
  · by_cases hlong : 89 < p.datalen
    · rw [if_pos (.inr hlong), if_pos (.inl hlong)]
    · rw [if_neg (by simp [hempty, hlong]), translateQuery, rdText_of_asks h]
      by_cases hzero : 0 ∈ encode labels
      · rw [if_pos hzero, if_pos (.inr (.inl hzero))]
      · rw [if_neg hzero]
        dsimp only
        cases listEntry t.ipsecSplitDnsList (dotted labels) with
        | none =>
          dsimp only
          split <;> rfl
        | some entry =>
          dsimp only
          cases halloc : luck.alloc with
          | true =>
            rw [if_pos rfl, if_neg]
            simp [hlong, hzero]
          | false => rw [if_neg (by simp), if_pos (.inr (.inr rfl))]

theorem servers_eq_iff (copied : Bool) : ((match listEntry l name with
      | none => Outcome.untouched
      | some entry => .forwarded (entry.servers copied)) =
    match entryUnder l name with
      | none => .untouched
      | some entry => .forwarded (entry.servers copied)) ↔
    ∀ entry, listEntry l name = some entry → ∃ entry', entryUnder l name = some entry' ∧
      entry.servers copied = entry'.servers copied := by
  cases hcontains : listEntry l name with
  | none =>
    rw [entryUnder_of_listEntry hcontains]
    exact iff_of_true rfl fun entry h => nomatch h
  | some entry =>
    cases hunder : entryUnder l name with
    | none =>
      refine iff_of_false (fun h => nomatch h) fun h => ?_
      obtain ⟨entry', h, -⟩ := h entry rfl
      cases h
    | some entry' =>
      dsimp only
      rw [Outcome.forwarded.injEq]
      constructor
      · intro h entry'' hentry
        rw [← Option.some.inj hentry]
        exact ⟨entry', rfl, h⟩
      · intro h
        obtain ⟨entry'', hentry, hsame⟩ := h entry rfl
        rw [hsame, Option.some.inj hentry]

theorem untouched_eq_iff (copied : Bool) : (Outcome.untouched =
    match entryUnder l name with
      | none => .untouched
      | some entry => .forwarded (entry.servers copied)) ↔ entryUnder l name = none := by
  cases entryUnder l name with
  | none => exact iff_of_true rfl rfl
  | some entry => exact iff_of_false (fun h => nomatch h) (fun h => nomatch h)

theorem not_converts (h89 : p.datalen = 89) : ¬ ∃ r, Converts p.name p.datalen (.ok r) := by
  intro h
  obtain ⟨r, hr⟩ := h
  have hlt := (bounds_of_converts hr).2.2
  omega

/-- When a query goes to the servers of the tunnel that its name is under. -/
theorem redirects_iff (t : Tables) (luck : Luck) (h : Asks p labels) :
    Redirects t p luck labels ↔ Sound t p luck labels := by
  by_cases h89 : p.datalen = 89
  · by_cases hempty : t.ipsecSplitDnsList = []
    · have hnone : ∀ name, entryUnder t.ipsecSplitDnsList name = none := by
        rw [hempty]
        exact fun name => rfl
      refine iff_of_true ⟨fun hne => absurd hempty hne, ?_⟩
        ⟨fun hne => absurd hempty hne, fun hlt => absurd h89 (by omega), fun _ => hnone _⟩
      rw [translate_of_asks h, if_pos (.inl hempty), hnone]
    · refine iff_of_false (fun hred => ?_) fun hsound => hsound.length hempty h89
      exact not_converts h89 (hred.1 hempty (Nat.le_of_eq h89))
  · have hconv : t.ipsecSplitDnsList ≠ [] → p.datalen ≤ 89 →
        ∃ r, Converts p.name p.datalen (.ok r) :=
      fun _ hle => converts_of_asks h (Nat.lt_of_le_of_ne hle h89)
    by_cases hskip : 89 < p.datalen ∨ 0 ∈ encode labels ∨ luck.alloc = false
    · rw [Redirects, outcome_of_asks h, if_pos hskip, untouched_eq_iff]
      constructor
      · intro hred
        refine ⟨fun _ => h89, fun hlt hzero halloc => ?_, fun _ => hred.2⟩
        obtain hlong | hmem | hfail := hskip
        · omega
        · exact absurd hmem hzero
        · rw [hfail] at halloc
          cases halloc
      · intro hsound
        exact ⟨hconv, hsound.missed hskip⟩
    · rw [Redirects, outcome_of_asks h, if_neg hskip, servers_eq_iff]
      rw [not_or, not_or, Bool.not_eq_false] at hskip
      constructor
      · intro hred
        refine ⟨fun _ => h89, fun _ _ _ => hred.2, fun hmissed => ?_⟩
        obtain hlong | hmem | hfail := hmissed
        · exact absurd hlong hskip.1
        · exact absurd hmem hskip.2.1
        · rw [hskip.2.2] at hfail
          cases hfail
      · intro hsound
        exact ⟨hconv, hsound.found (by omega) hskip.2.1 hskip.2.2⟩

end Query

def corpTables : Tables := ⟨[corp], fun _ => [], 0⟩

theorem asks_corp : Asks (ask 0xc0a80164 0x08080808) [[99, 111, 114, 112]] := by
  refine ⟨rfl, rfl, by decide, rfl, ?_, ⟨[0, 1, 0, 1], by decide⟩, by decide⟩
  intro l hl
  rw [List.mem_singleton.mp hl]
  decide

theorem corp_redirected :
    Redirects corpTables (ask 0xc0a80164 0x08080808) ⟨true, true, true⟩ [[99, 111, 114, 112]] := by
  refine (redirects_iff corpTables ⟨true, true, true⟩ asks_corp).mpr ⟨?_, ?_, ?_⟩
  · exact fun _ => by decide
  · intro _ _ _ entry hentry
    have hfirst : listEntry [corp] (dotted [[99, 111, 114, 112]]) = some corp := by decide +kernel
    have hsame : entry = corp := (Option.some.inj (hfirst.symm.trans hentry)).symm
    exact ⟨corp, by decide +kernel, by rw [hsame]⟩
  · intro h
    exact absurd h (by decide)

def askMycorp : SkBuff :=
  ⟨17, 0xc0a80164, 0x08080808, 40000, 53, 32, some true, 0x00070100,
    [6, 109, 121, 99, 111, 114, 112]⟩

/-- A name that is not under `corp` goes to the server of its tunnel. -/
theorem mycorp_redirected :
    ¬ ∀ t p luck labels, Asks p labels → Redirects t p luck labels := by
  intro h
  have hasks : Asks askMycorp [[109, 121, 99, 111, 114, 112]] := by
    refine ⟨rfl, rfl, by decide, rfl, ?_, ⟨[0, 1, 0, 1], by decide⟩, by decide⟩
    intro l hl
    rw [List.mem_singleton.mp hl]
    decide
  have hout := (h corpTables askMycorp ⟨true, true, true⟩ _ hasks).2
  exact absurd hout (by decide +kernel)

end SplitDnsSelect
