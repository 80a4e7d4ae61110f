import RouterFirmware.DhcpConfig

/-! # The name servers of the providers for the DHCP clients

The table has four rows of 20 bytes. It should hold the first four different addresses that the
sections of the WANs give.
-/
namespace DhcpDns

open TextStream ConfigDatabase CString ConfigGenerate ConfigResolv DhcpConfig

def zeroAddress : Text := "0.0.0.0".toList

/-- The provider of a WAN has no gateway: no value, or 0.0.0.0. -/
def down (database : Text) (wanidx : ℕ) : Bool :=
  match (ConfigScan.findCategory (numbered "ISP".toList wanidx) database).bind
      (ConfigScan.findItem "GATEWAY".toList) with
  | none => false
  | some r => (ConfigScan.getItemValue r).1 != .ok ||
      cut (ConfigScan.getItemValue r).2.1 == zeroAddress

def dnsSection (database : Text) (wanidx : ℕ) : Text :=
  numbered (if setting database (numbered "WAN".toList wanidx) "USERSPECIALDNS".toList =
    some "NO".toList then "ISP".toList else "WAN".toList) wanidx

/-- What is read for the name server `dnsidx` of a WAN. -/
def serverText (database : Text) (dnsidx wanidx : ℕ) : Option Text :=
  if down database wanidx then none
  else setting database (dnsSection database wanidx) (numbered "DNS".toList dnsidx)

def serverTexts (database : Text) (numWan : ℕ) : List Text :=
  [0, 1, 2].flatMap fun dnsidx => (List.range numWan).filterMap (serverText database dnsidx)

def isAddress (text : Text) : Bool := text ≠ [] && text ≠ zeroAddress

/-- The different addresses in order of their first occurrence. -/
def addresses (texts : List Text) : List Text := (texts.filter isAddress).eraseDups

def usedRows (l : DnsList) : List Text := l.rows.filter (· ≠ [])

/-- The table holds the first four different addresses. -/
def CollectsAll (database : Text) (numWan : ℕ) (g : Generator) : Prop :=
  ∃ l h, ispDns database numWan g = .ok (l, h) ∧
    usedRows l = (addresses (serverTexts database numWan)).take 4

/-- A text that a row takes, and takes as it is. -/
def Storable (server : Text) : Prop := server.length < 20 ∧ '%' ∉ server

/-- Whenever an address comes for the first time as one of the first four, it is storable and
the table is not yet filled with addresses and empty texts. -/
def Collectable (before texts : List Text) : Prop :=
  ∀ b server rest, texts = b ++ server :: rest → isAddress server →
    server ∉ before ++ b → (addresses (before ++ b)).length < 4 →
      Storable server ∧ (addresses (before ++ b)).length + (before ++ b).count [] < 4

section Addresses

variable {before texts : List Text} {server : Text}

theorem mem_addresses : server ∈ addresses texts ↔ server ∈ texts ∧ isAddress server = true := by
  simp [addresses]

theorem addresses_append_start (before texts : List Text) :
    addresses before <+: addresses (before ++ texts) := by
  rw [addresses, addresses, List.filter_append, List.eraseDups_append]
  exact List.prefix_append _ _

theorem addresses_skip (h : isAddress server = true → server ∈ before) :
    addresses (before ++ [server]) = addresses before := by
  rw [addresses, addresses, List.filter_append, List.eraseDups_append]
  cases haddress : isAddress server with
  | false => simp [haddress, List.removeAll]
  | true => simp [haddress, List.removeAll, h haddress]

theorem addresses_new (haddress : isAddress server = true) (hnew : server ∉ before) :
    addresses (before ++ [server]) = addresses before ++ [server] := by
  rw [addresses, addresses, List.filter_append, List.eraseDups_append]
  simp [List.removeAll, haddress, hnew, List.eraseDups_cons]

theorem collectable_cons : Collectable before (server :: texts) ↔
    (isAddress server = true → server ∉ before → (addresses before).length < 4 →
      Storable server ∧ (addresses before).length + before.count [] < 4) ∧
    Collectable (before ++ [server]) texts := by
  constructor
  · intro h
    refine ⟨fun haddress hnew hfree => ?_, fun b s rest htexts => ?_⟩
    · simpa using h [] server texts rfl haddress (by simpa using hnew) (by simpa using hfree)
    · simpa [List.append_assoc] using h (server :: b) s rest (by simp [htexts])
  · intro h b s rest htexts
    obtain ⟨hhead, htail⟩ := h
    cases b with
    | nil =>
      obtain ⟨rfl, -⟩ := List.cons.inj htexts
      simpa using hhead
    | cons c b =>
      obtain ⟨rfl, hrest⟩ := List.cons.inj htexts
      simpa [List.append_assoc] using htail b s rest hrest

end Addresses

section Rows

variable {used : List Text} {server text : Text} {n : ℕ}

def table (used : List Text) (n : ℕ) : DnsList :=
  ⟨used ++ List.replicate (4 - used.length) [], n⟩

theorem usedRows_table (h : [] ∉ used) : usedRows (table used n) = used := by
  rw [usedRows, table, List.filter_append, List.filter_replicate]
  simp
  intro t ht hnil
  exact h (hnil ▸ ht)

theorem holds_table (h : [] ∉ used) : (table used n).holds server = decide (server ∈ used) := by
  rw [Bool.eq_iff_iff, decide_eq_true_eq, DnsList.holds, List.any_eq_true, table]
  simp only [ne_eq, decide_not, Bool.and_eq_true, Bool.not_eq_true', decide_eq_false_iff_not,
    beq_iff_eq, List.mem_append, List.mem_replicate]
  constructor
  · intro hrow
    obtain ⟨row, hmem, hne, rfl⟩ := hrow
    rcases hmem with hmem | ⟨-, hnil⟩
    · exact hmem
    · exact absurd hnil hne
  · intro hmem
    exact ⟨server, .inl hmem, fun hnil => h (hnil ▸ hmem), rfl⟩

theorem findIdx_table (h : [] ∉ used) (hlt : used.length < 4) :
    (table used n).rows.findIdx (· == []) = used.length := by
  obtain ⟨k, hk⟩ : ∃ k, 4 - used.length = k + 1 := ⟨3 - used.length, by omega⟩
  have hnone : used.findIdx (· == []) = used.length := by
    rw [List.findIdx_eq_length]
    intro t ht
    simp only [beq_eq_false_iff_ne]
    intro hnil
    exact h (hnil ▸ ht)
  rw [table, hk, List.replicate_succ, List.findIdx_append, hnone, if_neg (lt_irrefl _),
    List.findIdx_cons]
  simp

/-- A new server takes the next row; an empty text leaves the table as it is. -/
theorem add_table (h : [] ∉ used) (hlt : used.length < 4) : (table used n).add server =
    (formatted server).bind fun text => if 20 ≤ text.length then .error .writePastEnd
      else .ok (table (if text = [] then used else used ++ [text]) (n + 1)) := by
  obtain ⟨k, hk⟩ : ∃ k, 4 - used.length = k + 1 := ⟨3 - used.length, by omega⟩
  have hlen : ¬ (table used n).rows.length ≤ used.length := by simp [table]; omega
  have hset : ∀ text, (table used n).rows.set used.length text =
      (table (if text = [] then used else used ++ [text]) (n + 1)).rows := by
    intro text
    rw [table, hk, List.replicate_succ, List.set_append_right _ _ (le_refl _), Nat.sub_self,
      List.set_cons_zero]
    split
    · next hnil => rw [table, hk, hnil, List.replicate_succ]
    · have hk' : 4 - (used ++ [text]).length = k := by
        rw [List.length_append, List.length_singleton]
        omega
      rw [table, hk', List.append_assoc, List.singleton_append]
  rw [DnsList.add, findIdx_table h hlt, writeRow]
  cases formatted server with
  | error e => rfl
  | ok text =>
    by_cases hsize : 20 ≤ text.length
    · simp [bind, Except.bind, hlen, hsize, throw, throwThe, MonadExceptOf.throw]
    · simp only [bind, Except.bind, hlen, hsize, or_self, if_false, pure, Except.pure, hset]
      rfl

theorem formatted_of_not_mem (h : '%' ∉ server) : formatted server = .ok server := by
  fun_induction formatted server with
  | case1 => rfl
  | case2 t ih => simp at h
  | case3 t => simp at h
  | case4 c t hpercent hone ih =>
    rw [List.mem_cons, not_or] at h
    rw [ih h.2]
    rfl

/-- A `%` makes the text shorter, or is a conversion. -/
theorem length_formatted (htext : formatted server = .ok text) :
    text.length ≤ server.length ∧ ('%' ∈ server → text.length < server.length) := by
  fun_induction formatted server generalizing text with
  | case1 =>
    cases htext
    simp
  | case2 t ih =>
    cases hrec : formatted t with
    | error e => simp [hrec, Except.map] at htext
    | ok u =>
      simp only [hrec, Except.map, Except.ok.injEq] at htext
      have hlen := (ih hrec).1
      simp only [← htext, List.length_cons]
      omega
  | case3 t => cases htext
  | case4 c t hpercent hone ih =>
    cases hrec : formatted t with
    | error e => simp [hrec, Except.map] at htext
    | ok u =>
      simp only [hrec, Except.map, Except.ok.injEq] at htext
      obtain ⟨hle, hlt⟩ := ih hrec
      refine ⟨by simp only [← htext, List.length_cons]; omega, fun hmem => ?_⟩
      have hshort := hlt ((List.mem_cons.mp hmem).resolve_left fun heq => hone heq.symm)
      simp only [← htext, List.length_cons]
      omega

theorem formatted_ne_nil (hne : server ≠ []) (htext : formatted server = .ok text) :
    text ≠ [] := by
  intro hnil
  rw [hnil] at htext
  have hcons : ∀ (c : Char) (t : Text), (formatted t).map (c :: ·) ≠ .ok [] := by
    intro c t h
    cases hrec : formatted t <;> simp [hrec, Except.map] at h
  fun_induction formatted server with
  | case1 => exact hne rfl
  | case2 t ih => exact hcons _ t htext
  | case3 t => cases htext
  | case4 c t hpercent hone ih => exact hcons c t htext

theorem storable_iff : (formatted server = .ok server ∧ server.length < 20) ↔ Storable server := by
  constructor
  · intro h
    refine ⟨h.2, fun hmem => ?_⟩
    exact absurd ((length_formatted h.1).2 hmem) (lt_irrefl _)
  · intro h
    exact ⟨formatted_of_not_mem h.2, h.1⟩

end Rows

section Collect

variable {l l' : DnsList} {before texts used : List Text} {server : Text} {n : ℕ}

def collect : List Text → DnsList → Except Fault DnsList
  | [], l => .ok l
  | server :: rest, l =>
    if l.num < 4 then
      if l.holds server then collect rest l else (l.add server).bind (collect rest)
    else .ok l

theorem collect_full (h : ¬ l.num < 4) (texts : List Text) : collect texts l = .ok l := by
  cases texts with
  | nil => rfl
  | cons server rest => rw [collect, if_neg h]

theorem collect_append (a b : List Text) (l : DnsList) :
    collect (a ++ b) l = (collect a l).bind (collect b) := by
  induction a generalizing l with
  | nil => rfl
  | cons server a ih =>
    rw [List.cons_append, collect, collect]
    by_cases hnum : l.num < 4
    · rw [if_pos hnum, if_pos hnum]
      cases l.holds server with
      | true => exact ih l
      | false =>
        cases l.add server with
        | error e => rfl
        | ok l' => exact ih l'
    · rw [if_neg hnum, if_neg hnum]
      exact (collect_full hnum b).symm

theorem collect_cons_table (h : [] ∉ used) (hlen : used.length ≤ n) (hn : n < 4)
    (rest : List Text) :
    collect (server :: rest) (table used n) = if server ∈ used then collect rest (table used n)
      else (formatted server).bind fun text => if 20 ≤ text.length then .error .writePastEnd
        else collect rest (table (if text = [] then used else used ++ [text]) (n + 1)) := by
  rw [collect, if_pos (show (table used n).num < 4 from hn), holds_table h,
    add_table h (by omega)]
  by_cases hmem : server ∈ used
  · simp [hmem]
  · simp only [hmem, decide_false, Bool.false_eq_true, if_false]
    cases formatted server with
    | error e => rfl
    | ok text =>
      by_cases hsize : 20 ≤ text.length
      · simp only [Except.bind, if_pos hsize]
      · simp only [Except.bind, if_neg hsize]

theorem collect_empty (h : [] ∉ used) (hlen : used.length ≤ n) (hn : n < 4)
    (hempty : server = []) (rest : List Text) :
    collect (server :: rest) (table used n) = collect rest (table used (n + 1)) := by
  subst hempty
  rw [collect_cons_table h hlen hn, if_neg h]
  rfl

theorem collect_storable (h : [] ∉ used) (hlen : used.length ≤ n) (hn : n < 4)
    (hne : server ≠ []) (hnew : server ∉ used) (hstorable : Storable server) (rest : List Text) :
    collect (server :: rest) (table used n) =
      collect rest (table (used ++ [server]) (n + 1)) := by
  rw [collect_cons_table h hlen hn, if_neg hnew, formatted_of_not_mem hstorable.2]
  simp only [Except.bind, if_neg (not_le.mpr hstorable.1), if_neg hne]

theorem prefix_collect (h : [] ∉ used) (hlen : used.length ≤ n)
    (hrun : collect texts (table used n) = .ok l') : used <+: usedRows l' := by
  induction texts generalizing used n with
  | nil =>
    cases hrun
    rw [usedRows_table h]
  | cons server rest ih =>
    by_cases hn : n < 4
    · rw [collect_cons_table h hlen hn] at hrun
      split at hrun
      · exact ih h hlen hrun
      · cases htext : formatted server with
        | error e => simp [htext, Except.bind] at hrun
        | ok text =>
          simp only [htext, Except.bind] at hrun
          split at hrun
          · cases hrun
          · split at hrun
            · exact ih h (by omega) hrun
            · next hne =>
              have hlater : [] ∉ used ++ [text] := by simpa [h] using hne
              have hmore := ih (n := n + 1) hlater (by simp; omega) hrun
              exact (List.prefix_append _ _).trans hmore
    · rw [collect_full (l := table used n) hn] at hrun
      cases hrun
      rw [usedRows_table h]

theorem nil_not_mem_addresses (texts : List Text) : [] ∉ addresses texts := by
  simp [mem_addresses, isAddress]

/-- What a further text does to the addresses before it and to the count of empty texts. -/
theorem count_snoc (before : List Text) (server : Text) :
    (before ++ [server]).count [] = before.count [] + if server = [] then 1 else 0 := by
  rw [List.count_append, List.count_singleton]
  simp

theorem collectable_nil (before : List Text) : Collectable before [] := by
  intro b server rest htexts
  simp at htexts

theorem collectable_of_full (hfull : 4 ≤ (addresses before).length) (texts : List Text) :
    Collectable before texts := by
  intro b server rest _ _ _ hfree
  have hle := (addresses_append_start before b).length_le
  omega

/-- The address that comes next is among the first four. -/
theorem snoc_prefix_take (haddress : isAddress server = true) (hnew : server ∉ before)
    (hlt : (addresses before).length < 4) (rest : List Text) :
    addresses before ++ [server] <+: (addresses (before ++ server :: rest)).take 4 := by
  have hstart := addresses_append_start (before ++ [server]) rest
  rw [addresses_new haddress hnew, List.append_assoc, List.singleton_append] at hstart
  exact List.prefix_take_iff.mpr ⟨hstart, by simp; omega⟩

theorem take_eq_of_full (hfull : (addresses before).length = 4) (texts : List Text) :
    addresses before = (addresses (before ++ texts)).take 4 := by
  rw [← hfull]
  exact List.prefix_iff_eq_take.mp (addresses_append_start before texts)

/-- With the count at its end, nothing may be missing yet. -/
theorem take_addresses_iff (hfull : 4 ≤ (addresses before).length + before.count [])
    (hle : (addresses before).length ≤ 4) (texts : List Text) :
    addresses before = (addresses (before ++ texts)).take 4 ↔ Collectable before texts := by
  induction texts generalizing before with
  | nil =>
    rw [List.append_nil, List.take_of_length_le hle]
    exact iff_of_true rfl (collectable_nil before)
  | cons server rest ih =>
    rcases hle.lt_or_eq with hlt | hfour
    · by_cases hskip : isAddress server = true → server ∈ before
      · have hrest := @ih (before ++ [server])
        rw [addresses_skip hskip, count_snoc, List.append_assoc, List.singleton_append] at hrest
        rw [hrest (by omega) hle, collectable_cons]
        exact (and_iff_right fun haddress hnew => absurd (hskip haddress) hnew).symm
      · rw [Classical.not_imp] at hskip
        obtain ⟨haddress, hnew⟩ := hskip
        refine iff_of_false (fun heq => ?_) (fun hcollect => ?_)
        · have hlen := (snoc_prefix_take haddress hnew hlt rest).length_le
          rw [← heq, List.length_append, List.length_singleton] at hlen
          omega
        · have hroom := ((collectable_cons.mp hcollect).1 haddress hnew hlt).2
          omega
    · exact iff_of_true (take_eq_of_full hfour _) (collectable_of_full hfour.ge _)

theorem not_collected_of_not_storable (haddress : isAddress server = true) (hnew : server ∉ before)
    (hlt : (addresses before).length < 4) (hle : (addresses before).length ≤ n) (hn : n < 4)
    (hstorable : ¬ Storable server) {rest all : List Text}
    (hrun : collect (server :: rest) (table (addresses before) n) = .ok l) :
    usedRows l ≠ (addresses (before ++ server :: all)).take 4 := by
  have hnil := nil_not_mem_addresses before
  have hout : server ∉ addresses before := fun hmem => hnew (mem_addresses.mp hmem).1
  have hne : server ≠ [] := by
    rintro rfl
    simp [isAddress] at haddress
  intro heq
  rw [collect_cons_table hnil hle hn, if_neg hout] at hrun
  cases htext : formatted server with
  | error e => simp [htext, Except.bind] at hrun
  | ok text =>
    have htextne := formatted_ne_nil hne htext
    simp only [htext, Except.bind, if_neg htextne] at hrun
    split at hrun
    · cases hrun
    · next hsize =>
      have hlater : [] ∉ addresses before ++ [text] := by simpa [hnil] using htextne.symm
      have hstored := prefix_collect (n := n + 1) hlater (by simp; omega) hrun
      rw [heq] at hstored
      have hexpected := snoc_prefix_take haddress hnew hlt all
      have hsame := (List.prefix_of_prefix_length_le hstored hexpected (by simp)).eq_of_length
        (by simp)
      have hserver : text = server := by simpa using hsame
      rw [hserver] at htext hsize
      exact hstorable (storable_iff.mp ⟨htext, by omega⟩)

theorem zeroAddress_ne_nil : zeroAddress ≠ [] := by decide

/-- The table ends with the first four addresses exactly when they are collectable. -/
theorem collect_iff (hcount : (addresses before).length + before.count [] ≤ 4)
    (texts : List Text) :
    (∃ l, collect (texts.filter (· ≠ zeroAddress)) (table (addresses before)
      ((addresses before).length + before.count [])) = .ok l ∧
        usedRows l = (addresses (before ++ texts)).take 4) ↔ Collectable before texts := by
  induction texts generalizing before with
  | nil =>
    refine iff_of_true ⟨_, rfl, ?_⟩ (collectable_nil before)
    rw [usedRows_table (nil_not_mem_addresses before), List.append_nil,
      List.take_of_length_le (by omega)]
  | cons server rest ih =>
    have hnil := nil_not_mem_addresses before
    rcases hcount.lt_or_eq with hroom | hfour
    · have hrest := @ih (before ++ [server])
      rw [count_snoc, List.append_assoc, List.singleton_append] at hrest
      rw [collectable_cons]
      by_cases hzero : server = zeroAddress
      · have hout : isAddress server = false := by simp [isAddress, hzero]
        have hne : server ≠ [] := hzero ▸ zeroAddress_ne_nil
        rw [addresses_skip (by simp [hout]), if_neg hne, Nat.add_zero] at hrest
        rw [List.filter_cons_of_neg (by simpa using hzero), hrest hroom.le]
        exact (and_iff_right (by simp [hout])).symm
      · rw [List.filter_cons_of_pos (by simpa using hzero)]
        by_cases hempty : server = []
        · have hout : isAddress server = false := by simp [isAddress, hempty]
          rw [addresses_skip (by simp [hout]), if_pos hempty, ← Nat.add_assoc] at hrest
          rw [collect_empty hnil (by omega) hroom hempty, hrest hroom]
          exact (and_iff_right (by simp [hout])).symm
        · have haddress : isAddress server = true := by simp [isAddress, hempty, hzero]
          rw [if_neg hempty, Nat.add_zero] at hrest
          by_cases hmem : server ∈ before
          · rw [addresses_skip fun _ => hmem] at hrest
            rw [collect_cons_table hnil (by omega) hroom,
              if_pos (mem_addresses.mpr ⟨hmem, haddress⟩), hrest hroom.le]
            exact (and_iff_right fun _ hnew => absurd hmem hnew).symm
          · by_cases hstorable : Storable server
            · rw [addresses_new haddress hmem, List.length_append, List.length_singleton] at hrest
              have hout : server ∉ addresses before := fun h => hmem (mem_addresses.mp h).1
              rw [collect_storable hnil (by omega) hroom hempty hout hstorable, Nat.add_right_comm,
                hrest (by omega)]
              exact (and_iff_right fun _ _ _ => ⟨hstorable, hroom⟩).symm
            · refine iff_of_false (fun hcollects => ?_) (fun hcollect => ?_)
              · obtain ⟨l, hrun, hused⟩ := hcollects
                exact not_collected_of_not_storable haddress hmem (by omega) (by omega) hroom
                  hstorable hrun hused
              · exact hstorable (hcollect.1 haddress hmem (by omega)).1
    · rw [collect_full hfour.ge.not_gt]
      simp only [Except.ok.injEq, exists_eq_left', usedRows_table hnil]
      exact take_addresses_iff hfour.ge (by omega) _

end Collect

section Loops

variable {α β : Type} {m : Gen α} {f : α → Gen β} {x : Except Fault α} {y : α → Except Fault β}

/-- The result of a generator, whatever has been read and printed before. -/
def Yields (m : Gen α) (x : Except Fault α) : Prop := ∀ g, (m g).map Prod.fst = x

theorem Yields.of_run {a : α} (h : ∀ g, ∃ h, m g = .ok (a, h)) : Yields m (.ok a) := by
  intro g
  obtain ⟨k, hrun⟩ := h g
  rw [hrun]
  rfl

theorem Yields.bind (hm : Yields m x) (hf : ∀ a, Yields (f a) (y a)) :
    Yields (m >>= f) (x.bind y) := by
  intro g
  rw [← hm g]
  cases hrun : m g with
  | error e => rw [run_bind_error hrun]; rfl
  | ok p =>
    obtain ⟨a, h⟩ := p
    rw [run_bind_ok hrun]
    exact hf a h

theorem Yields.pure (a : α) : Yields (pure a : Gen α) (.ok a) := fun _ => rfl

theorem Yields.lift (x : Except Fault α) : Yields (liftM x : Gen α) x := by
  intro g
  cases x with
  | error e => rfl
  | ok a => rfl

variable {database : Text} {l : DnsList}

theorem readValue_yields (database category item : Text) (k : Bool → Text → Gen β)
    (result : Option Text → Except Fault β)
    (hnone : ∀ v, Yields (k false v) (result none))
    (hsome : ∀ v, Yields (k true v) (result (some v))) :
    Yields (do
      let found ← readFrom database category item
      let v ← value
      k found v) (result (setting database category item)) := by
  intro g
  obtain ⟨h, hrun, hvalue⟩ := readFrom_run database category item g
  rw [run_bind_ok hrun, run_bind_ok (value_run h), setting]
  cases hset : settings database category [item] with
  | none => exact hnone _ h
  | some vs =>
    obtain ⟨r, -, hitems⟩ := Option.bind_eq_some_iff.mp hset
    obtain ⟨v, rfl⟩ := readItems_one hitems
    rw [hvalue v hset]
    exact hsome v h

theorem gatewayDown_yields (database : Text) (wanidx : ℕ) :
    Yields (gatewayDown database wanidx) (.ok (down database wanidx)) := by
  intro g
  rw [gatewayDown, run_bind_ok (findCategory_run _ _ g), down]
  cases ConfigScan.findCategory (numbered "ISP".toList wanidx) database with
  | none => rfl
  | some r =>
    simp only [Option.isSome_some, if_true, Option.getD_some, Option.bind_some]
    rw [run_bind_ok (findItem_run _ _)]
    cases ConfigScan.findItem "GATEWAY".toList r with
    | none => rfl
    | some t =>
      simp only [Option.isSome_some, if_true, Option.getD_some]
      rw [run_bind_ok (getItemValue_run _), run_bind_ok (value_run _), cut_store]
      rfl

theorem dnsOpcode_yields (database : Text) (wanidx : ℕ) :
    Yields (dnsOpcode database wanidx) (.ok (dnsSection database wanidx)) := by
  refine readValue_yields database _ _ _ (fun o => .ok (numbered (if o = some "NO".toList then
    "ISP".toList else "WAN".toList) wanidx)) (fun v => ?_) (fun v => ?_)
  · exact .pure _
  · simp only [true_and, Option.some.injEq]
    exact .pure _

theorem readServer_yields (database : Text) (dnsidx wanidx : ℕ) :
    Yields (readServer database dnsidx wanidx)
      (.ok ((serverText database dnsidx wanidx).filter (· ≠ zeroAddress))) := by
  refine Yields.bind (y := fun isDown => .ok ((if isDown then none else setting database
    (dnsSection database wanidx) (numbered "DNS".toList dnsidx)).filter (· ≠ zeroAddress)))
    (gatewayDown_yields database wanidx) fun isDown => ?_
  cases isDown with
  | true => exact .pure _
  | false =>
    refine Yields.bind (y := fun opcode => .ok ((setting database opcode
      (numbered "DNS".toList dnsidx)).filter (· ≠ zeroAddress)))
      (dnsOpcode_yields database wanidx) fun opcode => ?_
    refine readValue_yields database _ _ _ (fun o => .ok (o.filter (· ≠ zeroAddress)))
      (fun v => ?_) (fun v => ?_)
    · exact .pure _
    · have hzero : (some v).filter (· ≠ zeroAddress) =
          if v ≠ zeroAddress then some v else none := by
        rw [Option.filter_some]
        by_cases hv : v = zeroAddress
        · rw [if_neg (by simpa using hv), if_neg (not_not.mpr hv)]
        · rw [if_pos (by simpa using hv), if_pos hv]
      simp only [true_and, hzero]
      exact .pure _

/-- One text that is not 0.0.0.0. -/
def collectOne (l : DnsList) : Option Text → Except Fault DnsList
  | none => .ok l
  | some server => if l.holds server then .ok l else l.add server

theorem collect_toList (hnum : l.num < 4) (o : Option Text) (rest : List Text) :
    collect (o.toList ++ rest) l = (collectOne l o).bind (collect rest) := by
  cases o with
  | none => rfl
  | some server =>
    rw [Option.toList_some, List.singleton_append, collect, if_pos hnum, collectOne]
    cases l.holds server with
    | true => rfl
    | false => rfl

theorem dnsTurn_yields (database : Text) (l : DnsList) (dnsidx wanidx : ℕ) :
    Yields (dnsTurn database l dnsidx wanidx)
      (collectOne l ((serverText database dnsidx wanidx).filter (· ≠ zeroAddress))) := by
  refine Yields.bind (y := collectOne l) (readServer_yields database dnsidx wanidx) fun server => ?_
  cases server with
  | none => exact .pure l
  | some server =>
    simp only [collectOne]
    split
    · exact .pure l
    · have hadd : Yields (do
          let l ← (liftM (l.add server) : Gen DnsList)
          fprintf (server ++ [' '])
          return l) ((l.add server).bind .ok) :=
        .bind (.lift _) fun l => .of_run fun g => ⟨_, rfl⟩
      cases hresult : l.add server <;> simpa [hresult, Except.bind] using hadd

theorem dnsOverWans_yields (database : Text) (dnsidx : ℕ) (wans : List ℕ) (l : DnsList) :
    Yields (dnsOverWans database dnsidx wans l)
      (collect ((wans.filterMap (serverText database dnsidx)).filter (· ≠ zeroAddress)) l) := by
  induction wans generalizing l with
  | nil => exact .pure l
  | cons wanidx wans ih =>
    rw [dnsOverWans]
    by_cases hnum : l.num < 4
    · have hsplit :
          ((wanidx :: wans).filterMap (serverText database dnsidx)).filter (· ≠ zeroAddress) =
            ((serverText database dnsidx wanidx).filter (· ≠ zeroAddress)).toList ++
              (wans.filterMap (serverText database dnsidx)).filter (· ≠ zeroAddress) := by
        rw [List.filterMap_cons]
        cases serverText database dnsidx wanidx with
        | none => simp
        | some v => by_cases hv : v = zeroAddress <;> simp [Option.filter_some, hv]
      rw [if_pos hnum, hsplit, collect_toList hnum]
      exact (dnsTurn_yields database l dnsidx wanidx).bind ih
    · rw [if_neg hnum, collect_full hnum]
      exact .pure l

theorem ispDns_yields (database : Text) (numWan : ℕ) :
    Yields (ispDns database numWan)
      (collect ((serverTexts database numWan).filter (· ≠ zeroAddress)) (table [] 0)) := by
  have hloop : ∀ (idxs : List ℕ) (l : DnsList),
      Yields (idxs.foldlM (fun l dnsidx => dnsOverWans database dnsidx (List.range numWan) l) l)
        (collect ((idxs.flatMap fun dnsidx => (List.range numWan).filterMap
          (serverText database dnsidx)).filter (· ≠ zeroAddress)) l) := by
    intro idxs
    induction idxs with
    | nil => exact fun l => .pure l
    | cons dnsidx idxs ih =>
      intro l
      rw [List.flatMap_cons, List.filter_append, collect_append]
      exact (dnsOverWans_yields database dnsidx _ l).bind ih
  exact hloop [0, 1, 2] _

end Loops

/-- The table holds the first four different addresses exactly when each of them is storable and
comes before addresses and empty texts have filled the count. -/
theorem collects_all_iff (database : Text) (numWan : ℕ) (g : Generator) :
    CollectsAll database numWan g ↔ Collectable [] (serverTexts database numWan) := by
  have hyields := ispDns_yields database numWan g
  have hcollect := @collect_iff [] (by decide) (serverTexts database numWan)
  rw [show addresses [] = [] from rfl, List.length_nil, List.count_nil, List.nil_append,
    Nat.add_zero] at hcollect
  rw [← hcollect, ← hyields, CollectsAll]
  cases ispDns database numWan g with
  | error e => simp [Except.map]
  | ok p =>
    obtain ⟨l, h⟩ := p
    simp [Except.map]

/-- Four WANs, of which only the first one has a name server, its second. -/
def emptyDnsDatabase : Text :=
  ("[WAN1]\nDNS1=\nDNS2=8.8.8.8\n[WAN2]\nDNS1=\n[WAN3]\nDNS1=\n[WAN4]\nDNS1=\n").toList

theorem empty_dns_drops_server : ¬ CollectsAll emptyDnsDatabase 4 ⟨emptyDnsDatabase, [], []⟩ := by
  intro hcollects
  obtain ⟨l, h, hrun, hused⟩ := hcollects
  have hresult : (ispDns emptyDnsDatabase 4 ⟨emptyDnsDatabase, [], []⟩).map Prod.fst =
      .ok ⟨[[], [], [], []], 4⟩ := by decide +kernel
  rw [hrun] at hresult
  have hl : l = ⟨[[], [], [], []], 4⟩ := by simpa [Except.map] using hresult
  rw [hl] at hused
  revert hused
  decide +kernel

end DhcpDns
