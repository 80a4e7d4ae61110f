import RouterFirmware.SplitDnsPending

/-! # One answer for each query

The servers of a tunnel answer a query one after the other. The first reply without an error, or
else the last one, is rewritten for the client. What became of the replies to a query is compared
with the table, over runs in which a query that is not yet answered has its id for itself.
-/
namespace SplitDnsAnswers

open GuardedRun SplitDns SplitDnsPending

/-- A query that was forwarded, and the replies to it with what became of them. -/
structure Asked where
  query : SkBuff
  servers : List UInt32
  replies : List (SkBuff × Outcome)
  deriving DecidableEq

namespace Asked

def answered (a : Asked) : List UInt32 := a.replies.map fun r => r.1.saddr

/-- Some server has not answered. -/
def Open (a : Asked) : Prop := ∃ x ∈ a.servers, x ∉ a.answered

/-- Some server has not answered, and the others did not know the name. -/
def Waits (a : Asked) : Prop := a.Open ∧ ∀ r ∈ a.replies, r.1.dnsRc ≠ 0

/-- `p` is the answer of one more server. -/
def Awaits (a : Asked) (p : SkBuff) : Prop :=
  a.query.dnsId = p.dnsId ∧ p.saddr ∈ a.servers ∧ p.saddr ∉ a.answered

instance (a : Asked) : Decidable a.Open := inferInstanceAs (Decidable (∃ x ∈ _, _))

instance (a : Asked) : Decidable a.Waits := inferInstanceAs (Decidable (_ ∧ _))

instance (a : Asked) (p : SkBuff) : Decidable (a.Awaits p) := inferInstanceAs (Decidable (_ ∧ _))

/-- The errors were dropped, one reply was rewritten, those behind it were left alone. The one is
without an error, or it is the last. -/
def Settled (a : Asked) : Prop :=
  ∃ before r behind, a.replies = before ++ r :: behind ∧
    (∀ x ∈ before, x.1.dnsRc ≠ 0 ∧ x.2 = .dropped) ∧
    r.2 = .rewritten a.query.daddr ∧ (r.1.dnsRc = 0 ∨ behind = [] ∧ ¬ a.Open) ∧
    ∀ x ∈ behind, x.2 = .untouched

/-- As long as a server has not answered, all may have been errors. -/
def Good (a : Asked) : Prop :=
  (a.Open ∧ ∀ x ∈ a.replies, x.1.dnsRc ≠ 0 ∧ x.2 = .dropped) ∨ a.Settled

def take (a : Asked) (p : SkBuff) (out : Outcome) : Asked :=
  if IsReply p ∧ a.Awaits p then { a with replies := a.replies ++ [(p, out)] } else a

def entry (a : Asked) : DnsSplitHash :=
  ⟨a.query.daddr, a.servers, a.query.dnsId, UInt8.ofNat a.replies.length⟩

end Asked

/-- The tables, and the queries that were forwarded. -/
structure Run where
  tables : Tables
  asked : List Asked

def Run.initial (l : List IpsecSplitDns) : Run := ⟨⟨l, fun _ => [], 0⟩, []⟩

/-- A packet is a new query, or a reply to some that were asked, or neither. -/
def next (s : Run) (e : SkBuff × Luck) : Run :=
  ⟨(nkTranslateSpiltdnsToIpsec s.tables e.1 e.2).1,
    match (nkTranslateSpiltdnsToIpsec s.tables e.1 e.2).2 with
    | .forwarded servers => ⟨e.1, servers, []⟩ :: s.asked
    | out => s.asked.map fun a => a.take e.1 out⟩

/-- The table is not full, a query has its id for itself and goes to different servers, a reply is
copied and has a route, and no server answers a query twice. -/
@[mk_iff]
structure Legal (s : Run) (e : SkBuff × Luck) : Prop where
  room : s.tables.cDnsSplitNum < 1500
  distinct : (forwardedTo s.tables e.1 e.2).Nodup
  fresh : forwardedTo s.tables e.1 e.2 ≠ [] → ∀ a ∈ s.asked, a.Open → a.query.dnsId ≠ e.1.dnsId
  sent : IsReply e.1 → e.2.copied = true ∧ e.2.routed = true
  once : IsReply e.1 → ∀ a ∈ s.asked, a.Open → a.query.dnsId = e.1.dnsId → e.1.saddr ∉ a.answered

instance (s : Run) (e : SkBuff × Luck) : Decidable (Legal s e) :=
  decidable_of_iff _ (legal_iff s e).symm

/-- No reply that a query waits for is taken for a query that is too long. -/
def Passes (s : Run) (e : SkBuff × Luck) : Prop :=
  IsReply e.1 → ∀ a ∈ s.asked, a.Waits → a.Awaits e.1 → ¬ (e.1.dport = 53 ∧ 89 < e.1.datalen)

instance (s : Run) (e : SkBuff × Luck) : Decidable (Passes s e) :=
  inferInstanceAs (Decidable (_ → ∀ a ∈ s.asked, _ → _ → ¬ _))

def entryIn (i : UInt8) (a : Asked) : Option DnsSplitHash :=
  if a.Waits ∧ a.query.dnsId.toUInt8 = i then some a.entry else none

/-- The entries of the queries that wait, which nothing but their own replies decides. -/
def view (asked : List Asked) (i : UInt8) : List DnsSplitHash := asked.filterMap (entryIn i)

structure Answered (s : Run) : Prop where
  good : ∀ a ∈ s.asked, a.Good
  table : s.tables.dnsSplitHashTable = view s.asked

/-- What holds of the queries themselves. -/
structure Proper (a : Asked) : Prop where
  servers : a.servers.Nodup
  few : a.servers.length ≤ 2
  answered : a.answered.Nodup
  subset : ∀ x ∈ a.answered, x ∈ a.servers

/-- Queries that are not yet answered have different ids. -/
def Distinct (l : List Asked) : Prop :=
  l.Pairwise fun a b => a.Open → b.Open → a.query.dnsId ≠ b.query.dnsId

structure Sound (l : List IpsecSplitDns) (s : Run) : Prop extends Answered s where
  list : s.tables.ipsecSplitDnsList = l
  some : s.asked ≠ [] → l ≠ []
  proper : ∀ a ∈ s.asked, Proper a
  ids : Distinct s.asked

section Replies

variable {a b : Asked} {p : SkBuff} {out : Outcome}

theorem open_of_awaits (h : a.Awaits p) : a.Open := ⟨p.saddr, h.2.1, h.2.2⟩

theorem take_of_awaits (hp : IsReply p) (h : a.Awaits p) :
    a.take p out = { a with replies := a.replies ++ [(p, out)] } := if_pos ⟨hp, h⟩

theorem take_of_not_awaits (h : ¬ a.Awaits p) : a.take p out = a := if_neg fun hp => h hp.2

theorem take_of_not_isReply (h : ¬ IsReply p) : a.take p out = a := if_neg fun hp => h hp.1

theorem query_take (a : Asked) (p : SkBuff) (out : Outcome) : (a.take p out).query = a.query := by
  rw [Asked.take]
  split <;> rfl

theorem servers_take (a : Asked) (p : SkBuff) (out : Outcome) :
    (a.take p out).servers = a.servers := by
  rw [Asked.take]
  split <;> rfl

theorem answered_take (hp : IsReply p) (h : a.Awaits p) :
    (a.take p out).answered = a.answered ++ [p.saddr] := by
  rw [take_of_awaits hp h, Asked.answered, List.map_append]
  rfl

theorem open_of_open_take (h : (a.take p out).Open) : a.Open := by
  by_cases hp : IsReply p ∧ a.Awaits p
  · exact open_of_awaits hp.2
  · rw [Asked.take, if_neg hp] at h
    exact h

theorem length_answered (a : Asked) (x : UInt32) :
    (a.answered ++ [x]).length = a.replies.length + 1 := by
  simp [Asked.answered]

theorem answered_append (ha : Proper a) (h : a.Awaits p) :
    (a.answered ++ [p.saddr]).Nodup ∧ ∀ x ∈ a.answered ++ [p.saddr], x ∈ a.servers := by
  constructor
  · rw [List.nodup_append]
    refine ⟨ha.answered, List.nodup_singleton _, ?_⟩
    intro x hx y hy
    rw [List.mem_singleton.mp hy]
    exact fun heq => h.2.2 (heq ▸ hx)
  · intro x hx
    rcases List.mem_append.mp hx with hx | hx
    · exact ha.subset x hx
    · rw [List.mem_singleton.mp hx]
      exact h.2.1

theorem length_lt_of_awaits (ha : Proper a) (h : a.Awaits p) :
    a.replies.length < a.servers.length := by
  obtain ⟨hnodup, hsub⟩ := answered_append ha h
  have hle := (List.subperm_of_subset hnodup hsub).length_le
  rw [length_answered] at hle
  exact hle

/-- Whether one more server is left behind this reply. -/
theorem open_take_iff (out : Outcome) (ha : Proper a) (hp : IsReply p) (h : a.Awaits p) :
    (a.take p out).Open ↔ a.replies.length + 1 < a.servers.length := by
  have hlen := length_answered a p.saddr
  obtain ⟨hnodup, hsub⟩ := answered_append ha h
  rw [Asked.Open, servers_take, answered_take hp h, ← hlen]
  constructor
  · intro hopen
    obtain ⟨x, hx, hnot⟩ := hopen
    have hle := (List.subperm_of_subset (List.nodup_cons.mpr ⟨hnot, hnodup⟩)
      (List.cons_subset.mpr ⟨hx, hsub⟩)).length_le
    exact hle
  · intro hlt
    by_contra hall
    simp only [not_exists, not_and, not_not] at hall
    have hle := (List.subperm_of_subset ha.servers hall).length_le
    omega

theorem proper_take (ha : Proper a) (p : SkBuff) (out : Outcome) : Proper (a.take p out) := by
  by_cases hp : IsReply p ∧ a.Awaits p
  · obtain ⟨hp, h⟩ := hp
    refine ⟨?_, ?_, ?_, ?_⟩
    · rw [servers_take]
      exact ha.servers
    · rw [servers_take]
      exact ha.few
    · rw [answered_take hp h]
      exact (answered_append ha h).1
    · rw [answered_take hp h, servers_take]
      exact (answered_append ha h).2
  · rw [Asked.take, if_neg hp]
    exact ha

/-- A reply that goes wrong is never made good. -/
theorem good_of_good_take (h : (a.take p out).Good) : a.Good := by
  by_cases hp : IsReply p ∧ a.Awaits p
  · have hopen := open_of_awaits hp.2
    rw [Asked.take, if_pos hp] at h
    rcases h with ⟨-, herrors⟩ | ⟨before, r, behind, heq, herrors, hr, hchosen, hbehind⟩
    · exact .inl ⟨hopen, fun x hx => herrors x (List.mem_append_left _ hx)⟩
    · rcases List.eq_nil_or_concat behind with rfl | ⟨behind, y, rfl⟩
      · obtain ⟨hbefore, -⟩ := List.append_inj' heq rfl
        rw [← hbefore] at herrors
        exact .inl ⟨hopen, herrors⟩
      · rw [List.concat_eq_append] at heq hchosen hbehind
        rw [← List.cons_append, ← List.append_assoc] at heq
        obtain ⟨hreplies, -⟩ := List.append_inj' heq rfl
        refine .inr ⟨before, r, behind, hreplies, herrors, hr, .inl ?_, fun x hx =>
          hbehind x (List.mem_append_left _ hx)⟩
        obtain hzero | ⟨hnil, -⟩ := hchosen
        · exact hzero
        · simp at hnil
  · rwa [Asked.take, if_neg hp] at h

theorem errors_of_waits (h : a.Waits) (hgood : a.Good) :
    ∀ x ∈ a.replies, x.1.dnsRc ≠ 0 ∧ x.2 = .dropped := by
  rcases hgood with ⟨-, herrors⟩ | ⟨before, r, behind, heq, -, -, hchosen, -⟩
  · exact herrors
  · obtain hzero | ⟨-, hclosed⟩ := hchosen
    · exact absurd hzero (h.2 r (by rw [heq]; simp))
    · exact absurd h.1 hclosed

/-- A reply that the query waits for and that is left alone. -/
theorem not_good_take (hp : IsReply p) (hwaits : a.Waits) (hawaits : a.Awaits p)
    (hgood : a.Good) : ¬ (a.take p .untouched).Good := by
  have hold := errors_of_waits hwaits hgood
  rw [take_of_awaits hp hawaits]
  intro h
  rcases h with ⟨-, herrors⟩ | ⟨before, r, behind, heq, herrors, hr, -, -⟩
  · have hlast := (herrors (p, .untouched) (by simp)).2
    cases hlast
  · have hmem : r ∈ a.replies ++ [(p, .untouched)] := by
      have hin : r ∈ before ++ r :: behind := by simp
      rwa [← heq] at hin
    rcases List.mem_append.mp hmem with hmem | hmem
    · rw [(hold r hmem).2] at hr
      cases hr
    · rw [List.mem_singleton.mp hmem] at hr
      cases hr

theorem good_take_untouched (h : ¬ a.Waits) (hgood : a.Good) : (a.take p .untouched).Good := by
  by_cases hp : IsReply p ∧ a.Awaits p
  · have hopen := open_of_awaits hp.2
    rcases hgood with ⟨-, herrors⟩ | ⟨before, r, behind, heq, herrors, hr, hchosen, hbehind⟩
    · exact absurd ⟨hopen, fun r hr => (herrors r hr).1⟩ h
    · obtain hzero | ⟨-, hclosed⟩ := hchosen
      · rw [Asked.take, if_pos hp]
        refine .inr ⟨before, r, behind ++ [(p, .untouched)], ?_, herrors, hr, .inl hzero, ?_⟩
        · dsimp only
          rw [heq, List.append_assoc, List.cons_append]
        · intro x hx
          rcases List.mem_append.mp hx with hx | hx
          · exact hbehind x hx
          · rw [List.mem_singleton.mp hx]
      · exact absurd hopen hclosed
  · rwa [Asked.take, if_neg hp]

theorem good_take_rewritten (ha : Proper a) (hp : IsReply p) (hwaits : a.Waits)
    (hawaits : a.Awaits p) (hgood : a.Good)
    (hlast : p.dnsRc = 0 ∨ a.replies.length + 1 = a.servers.length) :
    (a.take p (.rewritten a.query.daddr)).Good := by
  have hold := errors_of_waits hwaits hgood
  have hclosed := open_take_iff (.rewritten a.query.daddr) ha hp hawaits
  refine .inr ⟨a.replies, (p, .rewritten a.query.daddr), [], ?_, hold, ?_, ?_, ?_⟩
  · rw [take_of_awaits hp hawaits]
  · rw [query_take]
  · obtain hzero | hlen := hlast
    · exact .inl hzero
    · exact .inr ⟨rfl, fun h => by have hlt := hclosed.mp h; omega⟩
  · intro x hx
    cases hx

theorem good_take_dropped (ha : Proper a) (hp : IsReply p) (hwaits : a.Waits)
    (hawaits : a.Awaits p) (hgood : a.Good) (hrc : p.dnsRc ≠ 0)
    (hlen : a.replies.length + 1 < a.servers.length) : (a.take p .dropped).Good := by
  have hold := errors_of_waits hwaits hgood
  refine .inl ⟨(open_take_iff .dropped ha hp hawaits).mpr hlen, ?_⟩
  rw [take_of_awaits hp hawaits]
  intro x hx
  rcases List.mem_append.mp hx with hx | hx
  · exact hold x hx
  · rw [List.mem_singleton.mp hx]
    exact ⟨hrc, rfl⟩

end Replies

section View

variable {a b : Asked} {p : SkBuff} {out : Outcome} {l : List Asked} {i : UInt8}
variable {f : DnsSplitHash → Option DnsSplitHash} {e : DnsSplitHash}

theorem eq_of_distinct (h : Distinct l) (ha : a ∈ l) (hb : b ∈ l) (hopen : a.Open)
    (hopen' : b.Open) (hid : a.query.dnsId = b.query.dnsId) : a = b := by
  have hsymm : Std.Symm fun a b : Asked => a.Open → b.Open → a.query.dnsId ≠ b.query.dnsId :=
    ⟨fun a b h hb ha heq => h ha hb heq.symm⟩
  by_contra hne
  exact h.forall ha hb hne hopen hopen' hid

theorem distinct_take (h : Distinct l) (p : SkBuff) (out : Outcome) :
    Distinct (l.map fun a => a.take p out) := by
  rw [Distinct, List.pairwise_map]
  apply h.imp
  intro a b hab hopen hopen'
  rw [query_take, query_take]
  exact hab (open_of_open_take hopen) (open_of_open_take hopen')

theorem waitsFor_entry (a : Asked) (p : SkBuff) : waitsFor p a.entry = true ↔
    a.query.dnsId = p.dnsId ∧ p.saddr ∈ a.servers := by
  simp [waitsFor, Asked.entry]

/-- The reply of a server changes nothing in the other lists. -/
theorem entryIn_take_of_ne (hne : i ≠ p.dnsId.toUInt8) (a : Asked) (out : Outcome) :
    entryIn i (a.take p out) = entryIn i a := by
  by_cases hp : IsReply p ∧ a.Awaits p
  · have hid : a.query.dnsId.toUInt8 ≠ i := by
      rw [hp.2.1]
      exact hne.symm
    rw [entryIn, entryIn, query_take, if_neg fun h => hid h.2, if_neg fun h => hid h.2]
  · rw [Asked.take, if_neg hp]

theorem view_take_of_ne (hne : i ≠ p.dnsId.toUInt8) (l : List Asked) (out : Outcome) :
    view (l.map fun a => a.take p out) i = view l i := by
  rw [view, List.filterMap_map, view]
  exact List.filterMap_congr fun a _ => entryIn_take_of_ne hne a out

theorem not_waits_take (h : ¬ a.Waits) (p : SkBuff) (out : Outcome) : ¬ (a.take p out).Waits := by
  intro hwaits
  apply h
  refine ⟨open_of_open_take hwaits.1, fun r hr => hwaits.2 r ?_⟩
  rw [Asked.take]
  split
  · exact List.mem_append_left _ hr
  · exact hr

theorem entryIn_take_of_not (h : ¬ (a.Waits ∧ a.Awaits p)) (i : UInt8) (out : Outcome) :
    entryIn i (a.take p out) = entryIn i a := by
  by_cases hwaits : a.Waits
  · rw [take_of_not_awaits fun hawaits => h ⟨hwaits, hawaits⟩]
  · have hwaits' := not_waits_take hwaits p out
    rw [entryIn, entryIn, if_neg fun h => hwaits' h.1, if_neg fun h => hwaits h.1]

theorem view_take_of_none (h : ∀ a ∈ l, ¬ (a.Waits ∧ a.Awaits p)) (out : Outcome) :
    view (l.map fun a => a.take p out) = view l := by
  funext i
  rw [view, List.filterMap_map, view]
  exact List.filterMap_congr fun a ha => entryIn_take_of_not (h a ha) i out

/-- The entry of the query that waits is the one that the function finds and changes. -/
theorem changeFirst_view (hdistinct : Distinct l)
    (honce : ∀ a ∈ l, a.Open → a.query.dnsId = p.dnsId → p.saddr ∉ a.answered)
    (hf : ∀ a ∈ l, a.Waits → a.Awaits p → entryIn p.dnsId.toUInt8 (a.take p out) = f a.entry) :
    changeFirst p f (view l p.dnsId.toUInt8) =
      view (l.map fun a => a.take p out) p.dnsId.toUInt8 := by
  induction l with
  | nil => rfl
  | cons a l ih =>
    obtain ⟨hfirst, hrest⟩ := List.pairwise_cons.mp hdistinct
    have hnext := ih hrest (fun b hb => honce b (List.mem_cons_of_mem _ hb))
      (fun b hb => hf b (List.mem_cons_of_mem _ hb))
    rw [view, view, List.map_cons, List.filterMap_cons, List.filterMap_cons]
    by_cases hboth : a.Waits ∧ a.Awaits p
    · -- No other query that is open has this id.
      obtain ⟨hwaits, hawaits⟩ := hboth
      have hothers : l.map (fun b => b.take p out) = l := by
        conv_rhs => rw [← List.map_id l]
        apply List.map_congr_left
        intro b hb
        apply take_of_not_awaits
        intro hb'
        exact hfirst b hb hwaits.1 (open_of_awaits hb') (hawaits.1.trans hb'.1.symm)
      have hentry : entryIn p.dnsId.toUInt8 a = some a.entry :=
        if_pos ⟨hwaits, by rw [hawaits.1]⟩
      have hfound := (waitsFor_entry a p).mpr ⟨hawaits.1, hawaits.2.1⟩
      rw [hentry, hf a List.mem_cons_self hwaits hawaits, hothers]
      dsimp only
      rw [changeFirst, if_pos hfound]
      cases f a.entry <;> rfl
    · rw [entryIn_take_of_not hboth]
      cases hentry : entryIn p.dnsId.toUInt8 a with
      | none => exact hnext
      | some e =>
        have hwaits : a.Waits := by
          by_contra hnot
          rw [entryIn, if_neg fun h => hnot h.1] at hentry
          cases hentry
        have he : a.entry = e := by
          rw [entryIn] at hentry
          split at hentry
          · exact Option.some.inj hentry
          · cases hentry
        have hskip : ¬ waitsFor p e = true := by
          rw [← he, waitsFor_entry]
          intro hfound
          exact hboth ⟨hwaits, hfound.1, hfound.2,
            honce a List.mem_cons_self hwaits.1 hfound.1⟩
        dsimp only
        rw [changeFirst, if_neg hskip]
        exact congrArg _ hnext

theorem find_view (honce : ∀ a ∈ l, a.Open → a.query.dnsId = p.dnsId → p.saddr ∉ a.answered)
    (h : (view l p.dnsId.toUInt8).find? (waitsFor p) = some e) :
    ∃ a ∈ l, a.Waits ∧ a.Awaits p ∧ a.entry = e := by
  have hmem := List.mem_of_find?_eq_some h
  have hfound := List.find?_some h
  obtain ⟨a, ha, hentry⟩ := List.mem_filterMap.mp hmem
  rw [entryIn] at hentry
  split at hentry
  · next hwaits =>
    have he := Option.some.inj hentry
    rw [← he, waitsFor_entry] at hfound
    exact ⟨a, ha, hwaits.1, ⟨hfound.1, hfound.2, honce a ha hwaits.1.1 hfound.1⟩, he⟩
  · cases hentry

theorem find_view_of_waits (hdistinct : Distinct l)
    (honce : ∀ a ∈ l, a.Open → a.query.dnsId = p.dnsId → p.saddr ∉ a.answered) (ha : a ∈ l)
    (hwaits : a.Waits) (hawaits : a.Awaits p) :
    (view l p.dnsId.toUInt8).find? (waitsFor p) = some a.entry := by
  cases hfind : (view l p.dnsId.toUInt8).find? (waitsFor p) with
  | none =>
    have hmem : a.entry ∈ view l p.dnsId.toUInt8 :=
      List.mem_filterMap.mpr ⟨a, ha, if_pos ⟨hwaits, by rw [hawaits.1]⟩⟩
    exact absurd ((waitsFor_entry a p).mpr ⟨hawaits.1, hawaits.2.1⟩)
      (List.find?_eq_none.mp hfind _ hmem)
  | some e =>
    obtain ⟨b, hb, hwaits', hawaits', he⟩ := find_view honce hfind
    rw [eq_of_distinct hdistinct ha hb hwaits.1 hwaits'.1 (hawaits.1.trans hawaits'.1.symm), he]

theorem view_cons (hopen : a.Waits) (l : List Asked) :
    view (a :: l) = Function.update (view l) a.query.dnsId.toUInt8
      (a.entry :: view l a.query.dnsId.toUInt8) := by
  funext i
  rw [view, List.filterMap_cons]
  rcases eq_or_ne i a.query.dnsId.toUInt8 with rfl | hne
  · rw [entryIn, if_pos ⟨hopen, rfl⟩, Function.update_self]
    rfl
  · rw [entryIn, if_neg fun h => hne h.2.symm, Function.update_of_ne hne]
    rfl

end View

section Steps

variable {l : List IpsecSplitDns} {s : Run} {a : Asked} {p : SkBuff} {luck : Luck} {out : Outcome}

theorem toNat_entry (ha : Proper a) (h : a.Awaits p) :
    a.entry.dnsSplitIgnore.toNat = a.replies.length := by
  have hlt := length_lt_of_awaits ha h
  have hfew := ha.few
  exact UInt8.toNat_ofNat_of_lt' (Nat.lt_of_lt_of_le hlt (Nat.le_trans hfew (by decide)))

/-- What a reply does: nothing when no query waits for it; otherwise it is rewritten and its entry
goes away, or it is dropped and counted. -/
theorem reply_cases (hs : Sound l s) (hlegal : Legal s (p, luck)) (hp : IsReply p)
    (hpass : Passes s (p, luck)) :
    ((∀ a ∈ s.asked, ¬ (a.Waits ∧ a.Awaits p)) ∧
      nkTranslateSpiltdnsToIpsec s.tables p luck = (s.tables, .untouched)) ∨
    ∃ a ∈ s.asked, a.Waits ∧ a.Awaits p ∧
      (((p.dnsRc = 0 ∨ a.replies.length + 1 = a.servers.length) ∧
        nkTranslateSpiltdnsToIpsec s.tables p luck =
          ({ s.tables with
              dnsSplitHashTable := s.tables.changeFirst p fun _ => none
              cDnsSplitNum := countDown s.tables.cDnsSplitNum }, .rewritten a.query.daddr)) ∨
      (p.dnsRc ≠ 0 ∧ a.replies.length + 1 < a.servers.length ∧
        nkTranslateSpiltdnsToIpsec s.tables p luck =
          ({ s.tables with
              dnsSplitHashTable := s.tables.changeFirst p fun e => some e.countError },
            .dropped))) := by
  have honce := hlegal.once hp
  rw [translate_of_isReply hp]
  by_cases hsome : ∃ a ∈ s.asked, a.Waits ∧ a.Awaits p
  · obtain ⟨a, ha, hwaits, hawaits⟩ := hsome
    have hproper := hs.proper a ha
    have hlist : s.tables.ipsecSplitDnsList ≠ [] := by
      rw [hs.list]
      exact hs.some (List.ne_nil_of_mem ha)
    have hfind := find_view_of_waits hs.ids honce ha hwaits hawaits
    have hlt := length_lt_of_awaits hproper hawaits
    obtain ⟨hcopied, hrouted⟩ := hlegal.sent hp
    refine .inr ⟨a, ha, hwaits, hawaits, ?_⟩
    rw [if_neg (by simp [hlist, hpass hp a ha hwaits hawaits]), translateReply, hs.table, hfind]
    have hservers : a.entry.rdnsIp = a.servers := rfl
    dsimp only at hcopied hrouted ⊢
    rw [toNat_entry hproper hawaits, hservers]
    by_cases hlast : p.dnsRc = 0 ∨ a.replies.length + 1 = a.servers.length
    · rw [if_pos hlast, if_pos ⟨hcopied, hrouted⟩]
      exact .inl ⟨hlast, rfl⟩
    · rw [if_neg hlast]
      rw [not_or] at hlast
      exact .inr ⟨hlast.1, by omega, rfl⟩
  · have hnone : ∀ a ∈ s.asked, ¬ (a.Waits ∧ a.Awaits p) := by
      intro a ha hboth
      exact hsome ⟨a, ha, hboth⟩
    refine .inl ⟨hnone, ?_⟩
    split
    · rfl
    · rw [translateReply, hs.table]
      cases hfind : (view s.asked p.dnsId.toUInt8).find? (waitsFor p) with
      | none => rfl
      | some e =>
        obtain ⟨a, ha, hwaits, hawaits, -⟩ := find_view honce hfind
        exact absurd ⟨hwaits, hawaits⟩ (hnone a ha)

theorem changeFirst_eq_view (hs : Sound l s) (hlegal : Legal s (p, luck)) (hp : IsReply p)
    {f : DnsSplitHash → Option DnsSplitHash}
    (hf : ∀ a ∈ s.asked, a.Waits → a.Awaits p →
      entryIn p.dnsId.toUInt8 (a.take p out) = f a.entry) :
    s.tables.changeFirst p f = view (s.asked.map fun a => a.take p out) := by
  funext i
  rw [Tables.changeFirst, hs.table]
  rcases eq_or_ne i p.dnsId.toUInt8 with rfl | hne
  · rw [Function.update_self]
    exact changeFirst_view hs.ids (hlegal.once hp) hf
  · rw [Function.update_of_ne hne, view_take_of_ne hne]

theorem sound_take (hs : Sound l s) {t : Tables} (hlist : t.ipsecSplitDnsList = l)
    (htable : t.dnsSplitHashTable = view (s.asked.map fun a => a.take p out))
    (hgood : ∀ a ∈ s.asked, (a.take p out).Good) :
    Sound l ⟨t, s.asked.map fun a => a.take p out⟩ := by
  refine ⟨⟨?_, htable⟩, hlist, ?_, ?_, distinct_take hs.ids p out⟩
  · intro a' ha'
    obtain ⟨a, ha, rfl⟩ := List.mem_map.mp ha'
    exact hgood a ha
  · intro hne
    exact hs.some fun h => hne (List.map_eq_nil_iff.mpr h)
  · intro a' ha'
    obtain ⟨a, ha, rfl⟩ := List.mem_map.mp ha'
    exact proper_take (hs.proper a ha) p out

theorem good_take_of_ne (hs : Sound l s) {b : Asked} (ha : a ∈ s.asked) (hb : b ∈ s.asked)
    (hwaits : a.Waits) (hawaits : a.Awaits p) (hgood : (a.take p out).Good) :
    (b.take p out).Good := by
  by_cases hb' : b.Awaits p
  · rwa [← eq_of_distinct hs.ids ha hb hwaits.1 (open_of_awaits hb') (hawaits.1.trans hb'.1.symm)]
  · rw [take_of_not_awaits hb']
    exact hs.good b hb

theorem sound_reply (hs : Sound l s) (hlegal : Legal s (p, luck)) (hp : IsReply p)
    (hpass : Passes s (p, luck)) : Sound l (next s (p, luck)) := by
  rcases reply_cases hs hlegal hp hpass with
    ⟨hnone, heq⟩ | ⟨a, ha, hwaits, hawaits, ⟨hlast, heq⟩ | ⟨hrc, hlt, heq⟩⟩
  · simp only [next, heq]
    refine sound_take hs hs.list ?_ ?_
    · rw [view_take_of_none hnone, hs.table]
    · intro b hb
      by_cases hwaits : b.Waits
      · rw [take_of_not_awaits fun hawaits => hnone b hb ⟨hwaits, hawaits⟩]
        exact hs.good b hb
      · exact good_take_untouched hwaits (hs.good b hb)
  · have hgood := good_take_rewritten (hs.proper a ha) hp hwaits hawaits (hs.good a ha) hlast
    simp only [next, heq]
    refine sound_take hs hs.list ?_ fun b hb => good_take_of_ne hs ha hb hwaits hawaits hgood
    apply changeFirst_eq_view hs hlegal hp
    intro b hb hwaits' hawaits'
    obtain rfl : a = b :=
      eq_of_distinct hs.ids ha hb hwaits.1 hwaits'.1 (hawaits.1.trans hawaits'.1.symm)
    apply if_neg
    intro h
    obtain hzero | hlen := hlast
    · refine h.1.2 (p, .rewritten a.query.daddr) ?_ hzero
      rw [take_of_awaits hp hawaits]
      exact List.mem_append_right _ List.mem_cons_self
    · have hmore := (open_take_iff _ (hs.proper a ha) hp hawaits).mp h.1.1
      omega
  · have hgood := good_take_dropped (hs.proper a ha) hp hwaits hawaits (hs.good a ha) hrc hlt
    simp only [next, heq]
    refine sound_take hs hs.list ?_ fun b hb => good_take_of_ne hs ha hb hwaits hawaits hgood
    apply changeFirst_eq_view hs hlegal hp
    intro b hb hwaits' hawaits'
    obtain rfl : a = b :=
      eq_of_distinct hs.ids ha hb hwaits.1 hwaits'.1 (hawaits.1.trans hawaits'.1.symm)
    have hopen := (open_take_iff .dropped (hs.proper a ha) hp hawaits).mpr hlt
    have herrors := errors_of_waits hwaits (hs.good a ha)
    have hentry : (a.take p .dropped).entry = a.entry.countError := by
      rw [take_of_awaits hp hawaits]
      simp [Asked.entry, DnsSplitHash.countError]
    rw [entryIn, if_pos, hentry]
    refine ⟨⟨hopen, ?_⟩, by rw [query_take, hawaits.1]⟩
    rw [take_of_awaits hp hawaits]
    intro r hr
    rcases List.mem_append.mp hr with hr | hr
    · exact (herrors r hr).1
    · rw [List.mem_singleton.mp hr]
      exact hrc

theorem query_cases (luck : Luck) (hroom : s.tables.cDnsSplitNum < 1500) (hp : ¬ IsReply p) :
    nkTranslateSpiltdnsToIpsec s.tables p luck = (s.tables, .untouched) ∨
    ∃ entry ∈ s.tables.ipsecSplitDnsList, nkTranslateSpiltdnsToIpsec s.tables p luck =
      (s.tables.addEntry ⟨p.daddr, entry.servers luck.copied, p.dnsId, 0⟩,
        .forwarded (entry.servers luck.copied)) := by
  have hmake : s.tables.makeRoom = s.tables := if_neg (by omega)
  obtain heq | heq := translate_of_not_isReply s.tables luck hp
  · exact .inl heq
  · rw [heq, translateQuery, hmake]
    split
    · exact .inl rfl
    · split
      · exact .inl rfl
      · next entry hentry =>
        split
        · exact .inr ⟨entry, List.mem_of_find?_eq_some hentry, rfl⟩
        · exact .inl rfl

theorem servers_cases (entry : IpsecSplitDns) (copied : Bool) :
    entry.servers copied ≠ [] ∧ (entry.servers copied).length ≤ 2 := by
  rw [IpsecSplitDns.servers]
  split <;> simp

theorem sound_query (hs : Sound l s) (hlegal : Legal s (p, luck)) (hp : ¬ IsReply p) :
    Sound l (next s (p, luck)) := by
  rcases query_cases luck hlegal.room hp with heq | ⟨entry, hentry, heq⟩
  · have hsame : s.asked.map (fun a => a.take p .untouched) = s.asked := by
      conv_rhs => rw [← List.map_id s.asked]
      exact List.map_congr_left fun a _ => take_of_not_isReply hp
    simp only [next, heq, hsame]
    exact hs
  · obtain ⟨hne, hfew⟩ := servers_cases entry luck.copied
    have hto : forwardedTo s.tables p luck = entry.servers luck.copied := by
      simp only [forwardedTo, heq]
    have hdistinct := hlegal.distinct
    have hfresh := hlegal.fresh
    rw [hto] at hdistinct hfresh
    have hopen : Asked.Open ⟨p, entry.servers luck.copied, []⟩ := by
      obtain ⟨x, hx⟩ := List.exists_mem_of_ne_nil _ hne
      exact ⟨x, hx, List.not_mem_nil⟩
    have hwaits : Asked.Waits ⟨p, entry.servers luck.copied, []⟩ :=
      ⟨hopen, fun r hr => absurd hr List.not_mem_nil⟩
    simp only [next, heq]
    refine ⟨⟨?_, ?_⟩, hs.list, fun _ => ?_, ?_, List.pairwise_cons.mpr ⟨?_, hs.ids⟩⟩
    · intro a ha
      rcases List.mem_cons.mp ha with rfl | ha
      · exact .inl ⟨hopen, fun x hx => absurd hx List.not_mem_nil⟩
      · exact hs.good a ha
    · rw [view_cons hwaits, Tables.addEntry, hs.table]
      rfl
    · rw [← hs.list]
      exact List.ne_nil_of_mem hentry
    · intro a ha
      rcases List.mem_cons.mp ha with rfl | ha
      · exact ⟨hdistinct, hfew, List.nodup_nil, fun x hx => absurd hx List.not_mem_nil⟩
      · exact hs.proper a ha
    · intro b hb _ hopen'
      exact (hfresh hne b hb hopen').symm

theorem sound_initial (l : List IpsecSplitDns) : Sound l (.initial l) where
  good _ ha := absurd ha List.not_mem_nil
  table := rfl
  list := rfl
  some h := absurd rfl h
  proper _ ha := absurd ha List.not_mem_nil
  ids := List.Pairwise.nil

theorem sound_next {e : SkBuff × Luck} (hs : Sound l s) (hlegal : Legal s e)
    (hpass : Passes s e) : Sound l (next s e) := by
  by_cases hp : IsReply e.1
  · exact sound_reply hs hlegal hp hpass
  · exact sound_query hs hlegal hp

/-- A reply that is taken for a long query is left alone. -/
theorem not_good_next {e : SkBuff × Luck} (hs : Sound l s) (hpass : ¬ Passes s e) :
    ¬ ∀ a ∈ (next s e).asked, a.Good := by
  simp only [Passes, Classical.not_imp, not_forall, not_not] at hpass
  obtain ⟨hp, a, ha, hwaits, hawaits, hcut⟩ := hpass
  have heq : nkTranslateSpiltdnsToIpsec s.tables e.1 e.2 = (s.tables, .untouched) := by
    rw [translate_of_isReply hp, if_pos (.inr hcut)]
  simp only [next, heq]
  intro h
  exact not_good_take hp hwaits hawaits (hs.good a ha) (h _ (List.mem_map_of_mem ha))

theorem good_of_good_next {e : SkBuff × Luck} (h : ∀ a ∈ (next s e).asked, a.Good) :
    ∀ a ∈ s.asked, a.Good := by
  intro a ha
  rw [next] at h
  dsimp only at h
  split at h
  · exact h a (List.mem_cons_of_mem _ ha)
  · exact good_of_good_take (h _ (List.mem_map_of_mem ha))

theorem good_of_good_run {es : List (SkBuff × Luck)}
    (h : ∀ a ∈ (es.foldl next s).asked, a.Good) : ∀ a ∈ s.asked, a.Good := by
  induction es generalizing s with
  | nil => exact h
  | cons e es ih => exact good_of_good_next (ih h)

theorem run_iff {es : List (SkBuff × Luck)} (hs : Sound l s) (h : Along next Legal s es) :
    Answered (es.foldl next s) ↔ Along next Passes s es := by
  induction es generalizing s with
  | nil => exact iff_of_true hs.toAnswered trivial
  | cons e es ih =>
    obtain ⟨hlegal, hrest⟩ := h
    by_cases hpass : Passes s e
    · exact (ih (sound_next hs hlegal hpass) hrest).trans (and_iff_right hpass).symm
    · refine iff_of_false (fun hanswered => ?_) fun hrun => hpass hrun.1
      exact not_good_next hs hpass (good_of_good_run hanswered.good)

end Steps

/-- Over any run, each query gets its one answer, whatever the replies to the others were, exactly
if no reply that is waited for is taken for a long query. -/
theorem answered_iff (l : List IpsecSplitDns) (es : List (SkBuff × Luck))
    (h : Along next Legal (.initial l) es) :
    Answered (es.foldl next (.initial l)) ↔ Along next Passes (.initial l) es :=
  run_iff (sound_initial l) h

def corpTwo : IpsecSplitDns := ⟨[[99, 111, 114, 112]], 0x0a000035, 0x0a000036, ⟨2, by decide⟩, [116]⟩

def lucky : Luck := ⟨true, true, true⟩

/-- A reply of a server to a client, with id 7 and a response code. -/
def answerOf (server client : UInt32) (dport : UInt16) (datalen : ℕ) (rc : UInt32) : SkBuff :=
  ⟨17, server, client, 53, dport, datalen, some false, 0x00078180 ||| rc, [4, 99, 111, 114, 112]⟩

/-- The second server does not know the name, the first one does. -/
theorem two_servers_answered : Answered ([(ask 0xc0a80164 0x08080808, lucky),
    (answerOf 0x0a000036 0xc0a80164 40000 30 3, lucky),
    (answerOf 0x0a000035 0xc0a80164 40000 46 0, lucky)].foldl next (.initial [corpTwo])) :=
  (answered_iff [corpTwo] _ (by decide +kernel)).mpr (by decide +kernel)

/-- A question from port 53, and an answer of 100 bytes. -/
def longAnswer : List (SkBuff × Luck) :=
  [({ ask 0xc0a80164 0x08080808 with sport := 53 }, lucky),
    (answerOf 0x0a000035 0xc0a80164 53 100 0, lucky)]

theorem long_answer_left_alone : ¬ ∀ l es, Along next Legal (.initial l) es →
    Answered (es.foldl next (.initial l)) := by
  intro h
  have hlegal : Along next Legal (.initial [corp]) longAnswer := by decide +kernel
  have hgood := (h [corp] longAnswer hlegal).good
  obtain ⟨hfirst, -⟩ := hlegal
  have hpass : Passes (.initial [corp]) ({ ask 0xc0a80164 0x08080808 with sport := 53 }, lucky) := by
    decide +kernel
  exact not_good_next (sound_next (sound_initial [corp]) hfirst hpass) (by decide +kernel) hgood

end SplitDnsAnswers
