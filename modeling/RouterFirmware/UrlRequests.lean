import Mathlib.Data.List.TakeWhile
import RouterFirmware.UrlFilter

/-! # HTTP requests before the content filter

A request has a request line and header lines, and an empty line behind them. The filter is to see
the value of the `Host` header and the path.
-/
namespace UrlFilter

open CrLfLines

structure Request where
  post : Bool
  path : List UInt8
  major : UInt8
  minor : UInt8
  headers : List (List UInt8)
  body : List UInt8

/-- The characters of a header name, which may be in upper case. -/
def headerName (l : List UInt8) : List UInt8 :=
  (l.takeWhile (· ≠ 58)).map fun c => if 65 ≤ c ∧ c ≤ 90 then c + 32 else c

/-- What is behind the colon, without the blanks around it. -/
def headerValue (l : List UInt8) : List UInt8 :=
  let blank := fun c : UInt8 => decide (c = 32 ∨ c = 9)
  ((((l.dropWhile (· ≠ 58)).drop 1).dropWhile blank).reverse.dropWhile blank).reverse

def isHost (l : List UInt8) : Bool := headerName l = bytes "host"

namespace Request

def version (r : Request) : List UInt8 := bytes " HTTP/" ++ [r.major, 46, r.minor]

def line (r : Request) : List UInt8 :=
  bytes (if r.post then "POST " else "GET ") ++ r.path ++ r.version

def lines (r : Request) : List (List UInt8) := r.line :: r.headers

def payload (r : Request) : List UInt8 := encode r.lines ++ cr :: lf :: r.body

def host (r : Request) : List UInt8 := ((r.headers.find? isHost).map headerValue).getD []

/-- The lines have no CR or LF in them, and one header is `Host`. -/
structure WellFormed (r : Request) : Prop where
  line : Plain r.line
  headers : ∀ l ∈ r.headers, Plain l ∧ 58 ∈ l
  host : ∃ l, r.headers.filter isHost = [l]

/-- What is behind the first `GET ` in the lines, or behind the first `POST ` if there is none. -/
def pathText (r : Request) : Option (List UInt8) :=
  (lookup (bytes "GET ") r.lines).or (lookup (bytes "POST ") r.lines)

/-- The first line with `Host: ` in it goes on with the value of the `Host` header, and the first
with `GET ` in it, if there is one, with the path and nine more characters, as far as they are
copied and as `strncpy` copies them. -/
structure Visible (r : Request) : Prop where
  host : ∃ h, lookup (bytes "Host: ") r.lines = some h ∧ h ≠ [] ∧
    strncpy (h.take bufsize) = r.host.take bufsize
  path : ∃ t, r.pathText = some t ∧ 9 < t.length ∧
    strncpy ((t.take (t.length - 9)).take (bufsize - r.host.length)) =
      r.path.take (bufsize - r.host.length)

end Request

/-- The array has the text with its length, and a NUL behind it. -/
def Holds (array : List UInt8) (len : ℕ) (w : List UInt8) : Prop :=
  len = w.length ∧ array.take w.length = w ∧ array[w.length]? = some 0

/-- The filter gets the host and the whole URL. -/
def Sees (r : Request) (result : ℤ × HttpInfo) : Prop :=
  result.1 = 2 ∧ Holds result.2.host result.2.hostlen (r.host.take bufsize) ∧
    Holds result.2.url result.2.urllen ((r.host ++ r.path).take bufsize)

instance (array : List UInt8) (len : ℕ) (w : List UInt8) : Decidable (Holds array len w) :=
  inferInstanceAs (Decidable (_ ∧ _))

instance (r : Request) (result : ℤ × HttpInfo) : Decidable (Sees r result) :=
  inferInstanceAs (Decidable (_ ∧ _))

section Lines

variable {pattern l h t body rest : List UInt8} {lines : List (List UInt8)} {c : UInt8}
  {state : ℕ}

theorem next_plain (hcr : c ≠ cr) (hlf : c ≠ lf) : next state c = 0 := by
  simp [next, hcr, hlf]

theorem not_isPrefixOf (hpattern : Plain pattern) (hne : pattern ≠ []) (hc : c = cr ∨ c = lf) :
    pattern.isPrefixOf (c :: t) = false := by
  cases pattern with
  | nil => exact absurd rfl hne
  | cons d pattern =>
    have hd : (d == c) = false := by
      refine beq_eq_false_iff_ne.mpr fun heq => ?_
      obtain rfl | rfl := hc
      · exact hpattern.1 (heq ▸ List.mem_cons_self)
      · exact hpattern.2 (heq ▸ List.mem_cons_self)
    simp [List.isPrefixOf, hd]

/-- A line that does not begin with the second half of an empty line. -/
theorem scan_line (hpattern : Plain pattern) (hne : pattern ≠ []) (hl : Plain l)
    (rest : List UInt8) : scan pattern 0 (l ++ cr :: lf :: rest) = match behind pattern l with
      | some t => some (t ++ cr :: lf :: rest)
      | none => scan pattern 2 rest := by
  induction l with
  | nil =>
    rw [List.nil_append, scan, scan]
    simp only [not_isPrefixOf hpattern hne (.inl rfl), not_isPrefixOf hpattern hne (.inr rfl)]
    rfl
  | cons c l ih =>
    obtain ⟨hcr, hlf⟩ := hl
    rw [List.mem_cons, not_or] at hcr hlf
    have hnext : next 0 c = 0 := next_plain (Ne.symm hcr.1) (Ne.symm hlf.1)
    have hprefix := isPrefixOf_append_cr hpattern.1 (c :: l) (lf :: rest)
    rw [List.cons_append] at hprefix
    rw [List.cons_append, scan, behind, hprefix, hnext, if_neg (by decide)]
    by_cases hplace : pattern.isPrefixOf (c :: l) = true
    · rw [if_pos hplace, if_pos hplace]
      have hle := (List.isPrefixOf_iff_prefix.mp hplace).length_le
      simp only [← List.cons_append, List.drop_append_of_le_length hle]
    · rw [if_neg hplace, if_neg hplace]
      exact ih ⟨hcr.2, hlf.2⟩

/-- The search goes through the lines, and no further than the empty line. -/
theorem scan_lines (state : ℕ) (hpattern : Plain pattern) (hne : pattern ≠ [])
    (hlines : ∀ l ∈ lines, Plain l ∧ l ≠ []) (hstate : lines = [] → state = 2)
    (body : List UInt8) :
    (lookup pattern lines = none ∧
        scan pattern state (encode lines ++ cr :: lf :: body) = none) ∨
      ∃ h more, lookup pattern lines = some h ∧
        scan pattern state (encode lines ++ cr :: lf :: body) = some (h ++ cr :: more) := by
  induction lines generalizing state with
  | nil =>
    rw [hstate rfl]
    refine .inl ⟨rfl, ?_⟩
    rw [encode_nil, List.nil_append, scan, scan, not_isPrefixOf hpattern hne (.inl rfl)]
    rfl
  | cons l lines ih =>
    obtain ⟨hl, hnil⟩ := hlines l List.mem_cons_self
    have hzero : scan pattern state (encode (l :: lines) ++ cr :: lf :: body) =
        scan pattern 0 (l ++ cr :: lf :: (encode lines ++ cr :: lf :: body)) := by
      cases l with
      | nil => exact absurd rfl hnil
      | cons c l =>
        obtain ⟨hcr, hlf⟩ := hl
        rw [List.mem_cons, not_or] at hcr hlf
        have hnext : ∀ state, next state c = 0 :=
          fun state => next_plain (Ne.symm hcr.1) (Ne.symm hlf.1)
        simp only [encode_cons, List.cons_append, List.append_assoc, scan, hnext]
    rw [hzero, scan_line hpattern hne hl]
    cases hbehind : behind pattern l with
    | some t =>
      refine .inr ⟨t, lf :: (encode lines ++ cr :: lf :: body), ?_, rfl⟩
      simp [lookup, hbehind]
    | none =>
      have hlookup : lookup pattern (l :: lines) = lookup pattern lines := by
        simp [lookup, hbehind]
      rw [hlookup]
      exact ih 2 (fun l' hmem => hlines l' (List.mem_cons_of_mem _ hmem)) fun _ => rfl

theorem scan_suffix (h : scan pattern state rest = some t) : t <:+ rest := by
  induction rest generalizing state with
  | nil => cases h
  | cons c u ih =>
    rw [scan] at h
    split at h
    · cases h
    · split at h
      · obtain rfl := Option.some.inj h
        exact List.drop_suffix _ _
      · exact (ih h).trans (List.suffix_cons c u)

end Lines

section Requests

variable {r : Request} {data : ℕ → UInt8} {pattern h t : List UInt8} {flags : UInt32}
  {info : HttpInfo} {i n : ℕ}

theorem Request.WellFormed.lines (hr : r.WellFormed) : ∀ l ∈ r.lines, Plain l ∧ l ≠ [] := by
  intro l hl
  obtain rfl | hl := List.mem_cons.mp hl
  · refine ⟨hr.line, ?_⟩
    simp [Request.line, Request.version]
  · obtain ⟨hplain, hcolon⟩ := hr.headers l hl
    exact ⟨hplain, List.ne_nil_of_mem hcolon⟩

theorem le_length_payload (r : Request) : 10 ≤ r.payload.length := by
  have hmethod : 4 ≤ (bytes (if r.post then "POST " else "GET ")).length := by
    split <;> decide
  have hversion : (bytes " HTTP/").length = 6 := rfl
  simp only [Request.payload, Request.lines, encode_cons, Request.line, Request.version,
    List.length_append, List.length_cons]
  omega

theorem findPattern2_payload (hr : r.WellFormed)
    (hdata : window data 0 r.payload.length = r.payload) (hpattern : Plain pattern)
    (hne : pattern ≠ []) (hlen : pattern.length < 10) :
    (lookup pattern r.lines = none ∧
        findPattern2 data r.payload.length pattern cr = ⟨0, 0, 0⟩) ∨
      ∃ h off, lookup pattern r.lines = some h ∧ window data off h.length = h ∧
        findPattern2 data r.payload.length pattern cr = ⟨1, off, h.length⟩ := by
  have hle := le_length_payload r
  have hsearch : findPattern2 data r.payload.length pattern cr =
      search data r.payload.length pattern cr (r.payload.length + 1 - pattern.length) 0 0 := by
    rw [findPattern2, if_neg (by omega), if_neg (by omega)]
    congr 1
    omega
  rw [hsearch, search_eq hne 0 hdata (Nat.zero_add _)]
  obtain ⟨hlookup, hscan⟩ | ⟨h, more, hlookup, hscan⟩ :=
    scan_lines 0 hpattern hne hr.lines (fun hnil => by cases hnil) r.body
  · rw [Request.payload, hscan]
    exact .inl ⟨hlookup, rfl⟩
  · obtain ⟨pre, hpre⟩ := scan_suffix hscan
    have hplain := plain_of_lookup (fun l hl => (hr.lines l hl).1) hlookup
    have hsum := congrArg List.length hpre
    rw [List.length_append] at hsum
    have hmemory : window data pre.length (h ++ cr :: more).length = h ++ cr :: more := by
      have hwhole : window data 0 (pre ++ (h ++ cr :: more)).length = pre ++ (h ++ cr :: more) := by
        rw [hpre]
        exact hdata
      simpa only [Nat.zero_add] using window_right hwhole
    have hoff : r.payload.length - (h ++ cr :: more).length = pre.length := by
      rw [Request.payload]
      omega
    have hseek : seek data r.payload.length cr pre.length 0 = some (0 + h.length) := by
      refine seek_eq hplain.1 hmemory ?_
      rw [Request.payload, ← hsum, List.length_append]
      omega
    refine .inr ⟨h, pre.length, hlookup, window_left hmemory, ?_⟩
    rw [Request.payload] at hoff hseek ⊢
    simp only [hscan, hoff, hseek, Nat.zero_add]

theorem window_take (hdata : window data i h.length = h) (n : ℕ) (hn : n ≤ h.length) :
    window data i n = h.take n := by
  have hsplit : window data i (h.take n ++ h.drop n).length = h.take n ++ h.drop n := by
    rwa [List.take_append_drop]
  simpa [Nat.min_eq_left hn] using window_left hsplit

@[simp] theorem length_strncpy (w : List UInt8) : (strncpy w).length = w.length := by
  have hle := (List.takeWhile_prefix (l := w) (· ≠ 0)).length_le
  rw [strncpy, List.length_append, List.length_replicate]
  omega

theorem takeWhile_strncpy (w : List UInt8) :
    (strncpy w).takeWhile (· ≠ 0) = w.takeWhile (· ≠ 0) := by
  have hzeros : ∀ n, (List.replicate n (0 : UInt8)).takeWhile (· ≠ 0) = [] := by
    intro n
    cases n <;> simp [List.replicate_succ]
  have hfront : ∀ c ∈ w.takeWhile (· ≠ 0), decide (c ≠ 0) = true :=
    fun c hc => by simpa using List.mem_takeWhile_imp hc
  rw [strncpy, List.takeWhile_append_of_pos hfront, hzeros, List.append_nil]

theorem strncpy_strncpy (w : List UInt8) : strncpy (strncpy w) = strncpy w := by
  conv_lhs => rw [strncpy]
  rw [takeWhile_strncpy, length_strncpy, strncpy]

theorem put_append {a b w : List UInt8} (hn : a.length = n) :
    put (a ++ b) n w = a ++ w ++ b.drop w.length := by
  subst hn
  simp [put, List.drop_append]

theorem put_zero {array w : List UInt8} : put array 0 w = w ++ array.drop w.length := by
  simp [put]

theorem holds_iff {a b w : List UInt8} : Holds (a ++ 0 :: b) a.length w ↔ a = w := by
  constructor
  · rintro ⟨hlen, htake, -⟩
    rw [← hlen, List.take_left] at htake
    exact htake
  · rintro rfl
    exact ⟨rfl, List.take_left, by simp⟩

theorem findPath_payload (hr : r.WellFormed)
    (hdata : window data 0 r.payload.length = r.payload) :
    (r.pathText = none ∧ findPath data r.payload.length = ⟨0, 0, 0⟩) ∨
      ∃ t off, r.pathText = some t ∧ window data off t.length = t ∧
        findPath data r.payload.length = ⟨1, off, t.length⟩ := by
  have hget := findPattern2_payload hr hdata (show Plain (bytes "GET ") by decide)
    (by decide) (by decide)
  have hpost := findPattern2_payload hr hdata (show Plain (bytes "POST ") by decide)
    (by decide) (by decide)
  obtain ⟨hget, hfound⟩ | ⟨t, off, hget, hwindow, hfound⟩ := hget
  · obtain ⟨hpost, hfound'⟩ | ⟨t, off, hpost, hwindow, hfound'⟩ := hpost
    · refine .inl ⟨?_, ?_⟩
      · rw [Request.pathText, hget, hpost]
        rfl
      · simp only [findPath, hfound, hfound', if_true]
    · refine .inr ⟨t, off, ?_, hwindow, ?_⟩
      · rw [Request.pathText, hget, hpost]
        rfl
      · simp only [findPath, hfound, hfound', if_true]
  · refine .inr ⟨t, off, ?_, hwindow, ?_⟩
    · rw [Request.pathText, hget]
      rfl
    · rw [findPath, hfound]
      rfl

/-- The URL is the host as it was copied and the path as far as there is room. -/
theorem getPath_payload (hr : r.WellFormed)
    (hdata : window data 0 r.payload.length = r.payload) {w rest : List UInt8}
    (hhost : info.host = w ++ rest) (hhostlen : info.hostlen = w.length)
    (hcopy : strncpy w = w) (hle : w.length ≤ bufsize) :
    (∃ t rest', r.pathText = some t ∧ 9 < t.length ∧
      let url := w ++ strncpy ((t.take (t.length - 9)).take (bufsize - w.length))
      getPath data r.payload.length info = (2, { info with
        url := url ++ 0 :: rest'
        urllen := url.length })) ∨
      (∀ t, r.pathText = some t → t.length ≤ 9) ∧ (getPath data r.payload.length info).1 = 1 := by
  have hnine : (bytes " HTTP/x.x").length = 9 := rfl
  rw [getPath]
  obtain ⟨hnone, hfound⟩ | ⟨t, off, hsome, hwindow, hfound⟩ := findPath_payload hr hdata
  · simp only [hfound, true_or, if_true]
    exact .inr ⟨fun t ht => by simp [hnone] at ht, trivial⟩
  · simp only [hfound, hnine]
    by_cases hshort : t.length ≤ 9
    · rw [if_pos (.inr hshort)]
      refine .inr ⟨fun t' ht' => ?_, rfl⟩
      obtain rfl := Option.some.inj (hsome.symm.trans ht')
      exact hshort
    · generalize hq : (t.take (t.length - 9)).take (bufsize - w.length) = q
      have hqlen : q.length = min (bufsize - w.length) (t.length - 9) := by
        rw [← hq, List.length_take, List.length_take]
        omega
      have hroom : (if t.length - 9 + w.length < bufsize then t.length - 9
          else bufsize - w.length) = q.length := by
        rw [hqlen]
        split <;> omega
      have htext : window data off q.length = q := by
        rw [window_take hwindow _ (by omega), ← hq, List.take_take, List.length_take]
        congr 1
        omega
      rw [if_neg (by omega)]
      refine .inl ⟨t, ((info.url.drop w.length).drop q.length).drop 1, hsome, by omega, ?_⟩
      simp only [hhostlen, hroom, hhost, List.take_left, hcopy, htext, hq, put_zero]
      have hend : w.length + q.length = (w ++ strncpy q).length := by simp
      rw [put_append rfl, hend, put_append rfl, length_strncpy]
      simp

theorem window_method (hdata : window data 0 r.payload.length = r.payload) :
    window data 0 4 = bytes "GET " ∨ window data 0 5 = bytes "POST " := by
  have hbegin : ∃ rest, r.payload = bytes (if r.post then "POST " else "GET ") ++ rest := by
    simp only [Request.payload, Request.lines, encode_cons, Request.line, List.append_assoc]
    exact ⟨_, rfl⟩
  obtain ⟨rest, hrest⟩ := hbegin
  rw [hrest] at hdata
  have hmethod := window_left hdata
  cases hpost : r.post with
  | true =>
    rw [hpost] at hmethod
    exact .inr hmethod
  | false =>
    rw [hpost] at hmethod
    exact .inl hmethod

theorem getHttpInfo_payload (hr : r.WellFormed)
    (hdata : window data 0 r.payload.length = r.payload) (hflags : flags &&& 2 ≠ 0) :
    (∃ h rest, lookup (bytes "Host: ") r.lines = some h ∧ h ≠ [] ∧
      let host := strncpy (h.take bufsize)
      getHttpInfo data r.payload.length flags info = getPath data r.payload.length { info with
        host := host ++ 0 :: rest
        hostlen := host.length }) ∨
      (∀ h, lookup (bytes "Host: ") r.lines = some h → h = []) ∧
        (getHttpInfo data r.payload.length flags info).1 = 0 := by
  have hlong := le_length_payload r
  have hmethod : ¬ (window data 0 4 ≠ bytes "GET " ∧ window data 0 5 ≠ bytes "POST ") := by
    rintro ⟨hget, hpost⟩
    exact (window_method hdata).elim hget hpost
  have hany : flags &&& 3 ≠ 0 := by
    intro hzero
    refine hflags ?_
    calc flags &&& 2 = flags &&& 3 &&& 2 := by rw [UInt32.and_assoc]; rfl
      _ = 0 := by rw [hzero]; rfl
  rw [getHttpInfo, if_neg (by omega), if_neg hmethod, if_neg hany]
  obtain ⟨hnone, hfound⟩ | ⟨h, off, hsome, hwindow, hfound⟩ :=
    findPattern2_payload hr hdata (show Plain (bytes "Host: ") by decide) (by decide) (by decide)
  · simp only [hfound, true_or, if_true]
    exact .inr ⟨fun h hh => by simp [hnone] at hh, trivial⟩
  · simp only [hfound, if_neg hflags]
    by_cases hnil : h = []
    · rw [if_pos (.inr (List.length_eq_zero_iff.mpr hnil))]
      refine .inr ⟨fun h' hh' => ?_, rfl⟩
      obtain rfl := Option.some.inj (hsome.symm.trans hh')
      exact hnil
    · have hroom : (if h.length < bufsize then h.length else bufsize) =
          (h.take bufsize).length := by
        rw [List.length_take]
        split <;> omega
      have htext : window data off (h.take bufsize).length = h.take bufsize := by
        rw [window_take hwindow _ (by rw [List.length_take]; omega), List.length_take,
          ← List.take_take, List.take_length]
      have hzero : ¬ ((1 : ℤ) = 0 ∨ h.length = 0) := by
        rintro (hone | hlen)
        · cases hone
        · exact hnil (List.length_eq_zero_iff.mp hlen)
      rw [if_neg hzero]
      refine .inl ⟨h, (info.host.drop (h.take bufsize).length).drop 1, hsome, hnil, ?_⟩
      rw [hroom, htext]
      have hend : (h.take bufsize).length = (strncpy (h.take bufsize)).length := by simp
      rw [put_zero, hend, put_append rfl]
      simp

/-- The host and the URL, from where both searches have found something. -/
theorem sees_iff_of_found {w rest rest' p : List UInt8} : Sees r (2, { info with
      host := w ++ 0 :: rest
      hostlen := w.length
      url := w ++ p ++ 0 :: rest'
      urllen := (w ++ p).length }) ↔
      w = r.host.take bufsize ∧ p = r.path.take (bufsize - r.host.length) := by
  have hurl : (r.host ++ r.path).take bufsize =
      r.host.take bufsize ++ r.path.take (bufsize - r.host.length) := List.take_append
  simp only [Sees, holds_iff, true_and, hurl]
  constructor
  · rintro ⟨hhost, hboth⟩
    rw [← hhost] at hboth
    exact ⟨hhost, List.append_cancel_left hboth⟩
  · rintro ⟨hhost, hpath⟩
    exact ⟨hhost, by rw [hhost, hpath]⟩

/-- The text that is taken for the host is behind the first `Host: ` of any line, and the text that
is taken for the path of a `POST` request behind the first `GET `. -/
theorem sees_iff_visible (hr : r.WellFormed)
    (hdata : window data 0 r.payload.length = r.payload) (hflags : flags &&& 2 ≠ 0) :
    Sees r (getHttpInfo data r.payload.length flags info) ↔ r.Visible := by
  obtain ⟨h, rest, hlookup, hne, hhost⟩ | ⟨hnone, hzero⟩ := getHttpInfo_payload hr hdata hflags
  · generalize hw : strncpy (h.take bufsize) = w at hhost
    have hcopy : strncpy w = w := by rw [← hw, strncpy_strncpy]
    have hle : w.length ≤ bufsize := by
      rw [← hw, length_strncpy]
      exact List.length_take_le _ _
    have hinfo : HttpInfo.host { info with
        host := w ++ 0 :: rest
        hostlen := w.length } = w ++ 0 :: rest := rfl
    obtain ⟨t, rest', hpath, hlong, hurl⟩ | ⟨hshort, hone⟩ :=
      getPath_payload hr hdata hinfo rfl hcopy hle
    · simp only at hhost hurl
      rw [hhost, hurl, sees_iff_of_found]
      constructor
      · rintro ⟨hhost, hcut⟩
        have hroom : bufsize - w.length = bufsize - r.host.length := by
          rw [hhost, List.length_take]
          omega
        rw [hroom] at hcut
        exact ⟨⟨h, hlookup, hne, hw.trans hhost⟩, ⟨t, hpath, hlong, hcut⟩⟩
      · rintro ⟨⟨h', hlookup', -, hhost⟩, ⟨t', hpath', -, hcut⟩⟩
        obtain rfl := Option.some.inj (hlookup.symm.trans hlookup')
        obtain rfl := Option.some.inj (hpath.symm.trans hpath')
        rw [hw] at hhost
        have hroom : bufsize - w.length = bufsize - r.host.length := by
          rw [hhost, List.length_take]
          omega
        exact ⟨hhost, by rw [hroom, hcut]⟩
    · constructor
      · rintro ⟨htwo, -⟩
        rw [hhost, hone] at htwo
        cases htwo
      · rintro ⟨-, ⟨t, hpath, hlong, -⟩⟩
        have hle := hshort t hpath
        omega
  · constructor
    · rintro ⟨htwo, -⟩
      rw [hzero] at htwo
      cases htwo
    · rintro ⟨⟨h, hlookup, hne, -⟩, -⟩
      exact absurd (hnone h hlookup) hne

theorem behind_append (hne : pattern ≠ []) (t : List UInt8) :
    behind pattern (pattern ++ t) = some t := by
  obtain ⟨c, u, rfl⟩ := List.exists_cons_of_ne_nil hne
  have hprefix : (c :: u).isPrefixOf (c :: u ++ t) = true :=
    List.isPrefixOf_iff_prefix.mpr (List.prefix_append _ _)
  rw [List.cons_append] at hprefix ⊢
  rw [behind, if_pos hprefix, ← List.cons_append, List.drop_left]

theorem strncpy_of_nul_free {w : List UInt8} (hw : 0 ∉ w) : strncpy w = w := by
  have hall : w.takeWhile (· ≠ 0) = w := by
    refine List.takeWhile_eq_self_iff.mpr fun c hc => ?_
    exact decide_eq_true fun hzero => hw (hzero ▸ hc)
  rw [strncpy, hall, Nat.sub_self, List.replicate_zero, List.append_nil]

/-- The filter gets what it is to see where `Host: ` is first in the `Host` header, as its
beginning, and a `POST` request has no `GET ` in its lines. -/
theorem visible_of_plain (hhost : lookup (bytes "Host: ") r.lines = some r.host)
    (hget : r.post = true → lookup (bytes "GET ") r.lines = none) (hnil : r.host ≠ [])
    (hpath : r.path ≠ []) (hzero : 0 ∉ r.host) (hzero' : 0 ∉ r.path) : r.Visible := by
  have htext : r.pathText = some (r.path ++ r.version) := by
    cases hpost : r.post with
    | true =>
      have hline : r.line = bytes "POST " ++ (r.path ++ r.version) := by
        simp [Request.line, hpost]
      rw [Request.pathText, hget hpost, Option.none_or, lookup, Request.lines, hline,
        List.findSome?_cons, behind_append (by decide)]
    | false =>
      have hline : r.line = bytes "GET " ++ (r.path ++ r.version) := by
        simp [Request.line, hpost]
      rw [Request.pathText, lookup, Request.lines, hline, List.findSome?_cons,
        behind_append (by decide), Option.some_or]
  have hversion : r.version.length = 9 := rfl
  have hpos : 0 < r.path.length := List.length_pos_iff.mpr hpath
  refine ⟨⟨r.host, hhost, hnil, strncpy_of_nul_free fun hmem => hzero (List.mem_of_mem_take hmem)⟩,
    ⟨_, htext, by rw [List.length_append]; omega, ?_⟩⟩
  rw [List.length_append, hversion, Nat.add_sub_cancel, List.take_left]
  exact strncpy_of_nul_free fun hmem => hzero' (List.mem_of_mem_take hmem)

end Requests

section Runs

/-- A request for `/` with another header in front of `Host: a`. -/
def otherHost : Request where
  post := false
  path := bytes "/"
  major := 49
  minor := 49
  headers := [bytes "X-Host: b", bytes "Host: a"]
  body := []

/-- A request of which the path ends with the name of the other method. -/
def getPost : Request where
  post := true
  path := bytes "/widGET"
  major := 49
  minor := 49
  headers := [bytes "Host: a"]
  body := []

def memory (r : Request) (i : ℕ) : UInt8 := r.payload.getD i 0

def blankInfo : HttpInfo := ⟨List.replicate 1025 0, 0, List.replicate 1025 0, 0⟩

theorem sees_iff_visible_otherHost :
    Sees otherHost (getHttpInfo (memory otherHost) otherHost.payload.length 2 blankInfo) ↔
      otherHost.Visible :=
  sees_iff_visible ⟨by decide, by decide, ⟨bytes "Host: a", by decide⟩⟩ (by decide +kernel)
    (by decide)

/-- The host is taken from the other header, and the path of the other request is not found. -/
theorem not_sees_otherHost :
    ¬ Sees otherHost (getHttpInfo (memory otherHost) otherHost.payload.length 2 blankInfo) ∧
      ¬ Sees getPost (getHttpInfo (memory getPost) getPost.payload.length 2 blankInfo) := by
  decide +kernel

end Runs

end UrlFilter
