import Mathlib.Algebra.Ring.Int.Defs
import RouterFirmware.BlockPage
import RouterFirmware.WebKeywords

/-! # The verdict of the content filter

`match` takes host and path from the request into its variable `htinfo` and looks for the keywords
of the rule, or for the endings of the path. What `get_http_info` does not fill keeps what was on
the stack.
-/
namespace WebMatch

open BlockPage (be32 length_be32)
open CrLfLines (cr)
open UrlFilter (HttpInfo bufsize bytes findPath findPattern2 getHttpInfo getPath put strnicmp
  window)
open WebKeywords

/-- `enum ipt_webstr_type`, and the other values. -/
inductive WebstrType where
  | host
  | url
  | content
  | other
  deriving DecidableEq

/-- `struct xt_string_info`, with the memory from `pattern` on. -/
structure Rule where
  pattern : List UInt8
  patlen : UInt8
  invert : UInt8
  type : WebstrType

/-- The local variables of `match`. An `int` is kept as its 32 bits. -/
structure Locals where
  htinfo : HttpInfo
  needle : Needle
  hostSize : htinfo.host.length = bufsize + 1
  urlSize : htinfo.url.length = bufsize + 1
  hostlen : htinfo.hostlen < 2 ^ 32
  urllen : htinfo.urllen < 2 ^ 32

def toInt (n : ℕ) : ℤ := if n < 2 ^ 31 then n else n - 2 ^ 32

def simpleStrtoul : UInt64 → List UInt8 → UInt64
  | result, [] => result
  | result, c :: cp =>
    if 48 ≤ c ∧ c ≤ 57 then simpleStrtoul (result * 10 + (c.toUInt64 - 48)) cp else result

def simpleStrtol (cp : List UInt8) : UInt64 :=
  if cp.head? = some 45 then -simpleStrtoul 0 cp.tail else simpleStrtoul 0 cp

def blkJava : UInt64 := 1
def blkActive : UInt64 := 2
def blkCookie : UInt64 := 4
def blkProxy : UInt64 := 8

/-- `mangle_http_header`: whether it sends the page, and what it returns. -/
def mangleHttpHeader (data : ℕ → UInt8) (datalen : ℕ) : Bool × ℤ :=
  if datalen < 10 then (false, 0)
  else if window data 0 4 ≠ bytes "GET " ∧ window data 0 5 ≠ bytes "POST " then (false, 0)
  else if (findPattern2 data datalen (bytes "Cookie: ") cr).ret ≠ 0 then (true, 0)
  else (false, 0)

def httpFlags (type : WebstrType) (opt : UInt64) : UInt32 :=
  match type with
  | .url => 2
  | .host => 1
  | .content =>
    (if opt &&& (blkJava ||| blkActive ||| blkProxy) ≠ 0 then 2 else 0) |||
      (if opt &&& blkProxy ≠ 0 then 1 else 0)
  | .other => 0

/-- `htinfo` in memory, with zeros where the compiler leaves bytes out. -/
def layout (htinfo : HttpInfo) : List UInt8 :=
  htinfo.host ++ [0, 0, 0] ++ (be32 htinfo.hostlen ++ htinfo.url ++ [0, 0, 0] ++
    be32 htinfo.urllen)

/-- The memory from the place `i` of `htinfo.url` on. -/
def fromUrl (htinfo : HttpInfo) (i : ℤ) : List UInt8 :=
  let start := i + (bufsize + 8)
  if start < 0 then [] else (layout htinfo).drop start.toNat

def endsIn (htinfo : HttpInfo) (vice : List UInt8) : Bool :=
  strnicmp (fromUrl htinfo (toInt htinfo.urllen - vice.length)) vice vice.length = 0

def javaEndings : List (List UInt8) :=
  [bytes ".java", bytes ".jar", bytes ".class", bytes ".js"]

def activeEndings : List (List UInt8) := [bytes ".ocx", bytes ".cab"]

/-- `match` for `IPT_WEBSTR_CONTENT`. With `BLK_PROXY` a page may be sent, but `found` stays `0`. -/
def contentFound (opt : UInt64) (htinfo : HttpInfo) : Bool :=
  opt &&& blkJava ≠ 0 && javaEndings.any (endsIn htinfo) ||
    opt &&& blkActive ≠ 0 && activeEndings.any (endsIn htinfo)

/-- The loop over the keywords, with turns enough. -/
def keywords (behind haystack : List UInt8) (hlen : ℤ) (needle : Needle) (wordlist : List UInt8) :
    Except Fault Bool :=
  (keywordLoop behind haystack hlen needle wordlist (wordlist.length + 2)).getD (.ok false)

/-- `found ^ conf->invert`. -/
def verdict (rule : Rule) (found : Bool) : ℕ := found.toNat ^^^ rule.invert.toNat

/-- `match` from where it has `htinfo`. -/
def foundIn (rule : Rule) (behind : List UInt8) (needle : Needle) (htinfo : HttpInfo) :
    Except Fault Bool :=
  let wordlist := cstr rule.pattern
  match rule.type with
  | .host => keywords behind htinfo.host (toInt htinfo.hostlen) needle wordlist
  | .url => keywords behind htinfo.url (toInt htinfo.urllen) needle wordlist
  | _ => .ok (contentFound (simpleStrtol wordlist) htinfo)

def matchSkb (rule : Rule) (data : ℕ → UInt8) (datalen : ℕ) (behind : List UInt8)
    (locals : Locals) : Except Fault ℕ :=
  let opt := simpleStrtol (cstr rule.pattern)
  if rule.patlen < 1 then .ok 0
  else if rule.type = .other then .ok 0
  else if rule.type = .content ∧ opt &&& blkCookie ≠ 0 then
    if (mangleHttpHeader data datalen).2 = 1 then .ok (verdict rule true) else .ok 0
  else
    let info := getHttpInfo data datalen (httpFlags rule.type opt) locals.htinfo
    if info.1 < 1 then .ok 0
    else (foundIn rule behind locals.needle info.2).map (verdict rule)

/-! ## What a request fills -/

/-- `get_http_info` finds the host. -/
def HostFound (data : ℕ → UInt8) (datalen : ℕ) : Prop :=
  10 ≤ datalen ∧ (window data 0 4 = bytes "GET " ∨ window data 0 5 = bytes "POST ") ∧
    (findPattern2 data datalen (bytes "Host: ") cr).ret ≠ 0 ∧
    (findPattern2 data datalen (bytes "Host: ") cr).numlen ≠ 0

/-- The line with the path is longer than ` HTTP/x.x`. -/
def PathFound (data : ℕ → UInt8) (datalen : ℕ) : Prop :=
  (findPath data datalen).ret ≠ 0 ∧
    (bytes " HTTP/x.x").length < (findPath data datalen).numlen

instance (data : ℕ → UInt8) (datalen : ℕ) : Decidable (HostFound data datalen) :=
  inferInstanceAs (Decidable (_ ∧ _))

instance (data : ℕ → UInt8) (datalen : ℕ) : Decidable (PathFound data datalen) :=
  inferInstanceAs (Decidable (_ ∧ _))

/-- What `htinfo.host` holds up to `htinfo.hostlen`. -/
def hostText (data : ℕ → UInt8) (datalen : ℕ) : List UInt8 :=
  let found := findPattern2 data datalen (bytes "Host: ") cr
  UrlFilter.strncpy (window data found.numoff (min found.numlen bufsize))

/-- What `htinfo.url` holds up to `htinfo.urllen`. -/
def urlText (data : ℕ → UInt8) (datalen : ℕ) : List UInt8 :=
  let path := findPath data datalen
  let host := hostText data datalen
  let pathlen := path.numlen - (bytes " HTTP/x.x").length
  UrlFilter.strncpy host ++
    UrlFilter.strncpy (window data path.numoff (min pathlen (bufsize - host.length)))

section Filled

variable {data : ℕ → UInt8} {datalen : ℕ} {flags : UInt32} {info : HttpInfo} {a u v : List UInt8}

theorem length_strncpy (w : List UInt8) : (UrlFilter.strncpy w).length = w.length := by
  have hle := (List.takeWhile_prefix (l := w) (· ≠ 0)).length_le
  simp only [UrlFilter.strncpy, List.length_append, List.length_replicate]
  omega

theorem put_start (a u : List UInt8) : put a 0 u = u ++ a.drop u.length := by
  simp [put]

theorem put_end (u v r : List UInt8) : put (u ++ r) u.length v = u ++ (v ++ r.drop v.length) := by
  simp [put, List.drop_append]

theorem put_append (a u v : List UInt8) : put (put a 0 u) u.length v = put a 0 (u ++ v) := by
  rw [put_start, put_end, put_start, List.drop_drop, List.length_append, List.append_assoc]

/-- A string written at the start of an array, and the zero behind it. -/
theorem put_string (a u : List UInt8) :
    put (put a 0 u) u.length [0] = u ++ 0 :: a.drop (u.length + 1) := by
  rw [put_start, put_end, List.drop_drop]
  rfl

theorem length_hostText (data : ℕ → UInt8) (datalen : ℕ) :
    (hostText data datalen).length =
      min (findPattern2 data datalen (bytes "Host: ") cr).numlen bufsize := by
  simp only [hostText, length_strncpy, UrlFilter.length_window]

theorem length_hostText_le (data : ℕ → UInt8) (datalen : ℕ) :
    (hostText data datalen).length ≤ bufsize :=
  length_hostText data datalen ▸ Nat.min_le_right _ _

theorem length_hostText_pos (h : HostFound data datalen) : 0 < (hostText data datalen).length := by
  have hnum := h.2.2.2
  rw [length_hostText, bufsize]
  omega

theorem length_urlText (h : HostFound data datalen) (hpath : PathFound data datalen) :
    2 ≤ (urlText data datalen).length ∧ (urlText data datalen).length ≤ bufsize := by
  have hle := length_hostText_le data datalen
  have hpos := length_hostText_pos h
  have hnum := hpath.2
  simp only [urlText, List.length_append, length_strncpy, UrlFilter.length_window]
  simp only [bufsize] at hle ⊢
  omega

def withHost (data : ℕ → UInt8) (datalen : ℕ) (info : HttpInfo) : HttpInfo :=
  { info with
    host := hostText data datalen ++ 0 :: info.host.drop ((hostText data datalen).length + 1)
    hostlen := (hostText data datalen).length }

theorem getHttpInfo_of_not_host (h : ¬ (HostFound data datalen ∧ flags &&& 3 ≠ 0)) :
    getHttpInfo data datalen flags info = (0, info) := by
  rw [getHttpInfo]
  split
  · rfl
  · next hlen =>
    split
    · rfl
    · next hstart =>
      split
      · rfl
      · next hflags =>
        have hfound : ¬ ((findPattern2 data datalen (bytes "Host: ") cr).ret ≠ 0 ∧
            (findPattern2 data datalen (bytes "Host: ") cr).numlen ≠ 0) := fun hfound =>
          h ⟨⟨Nat.le_of_not_lt hlen, by simpa only [ne_eq, not_and_or, not_not] using hstart,
            hfound⟩, hflags⟩
        simp only [ne_eq, not_and_or, not_not] at hfound
        exact if_pos hfound

theorem ite_lt_eq_min (n m : ℕ) : (if n < m then n else m) = min n m := by
  rw [Nat.min_def]
  split <;> split <;> omega

theorem getHttpInfo_of_host (h : HostFound data datalen) (hflags : flags &&& 3 ≠ 0) :
    getHttpInfo data datalen flags info =
      if flags &&& 2 = 0 then (1, withHost data datalen info)
      else getPath data datalen (withHost data datalen info) := by
  obtain ⟨hlen, hstart, hret, hnum⟩ := h
  have hstart : ¬ (window data 0 4 ≠ bytes "GET " ∧ window data 0 5 ≠ bytes "POST ") := by
    simpa only [ne_eq, not_and_or, not_not] using hstart
  rw [getHttpInfo, if_neg (by omega), if_neg hstart, if_neg hflags]
  simp only [hret, hnum, or_self, if_false, ite_lt_eq_min]
  rw [withHost, ← put_string, length_hostText]
  rfl

theorem getPath_of_not_path (h : ¬ PathFound data datalen) :
    getPath data datalen info = (1, info) := by
  simp only [PathFound, ne_eq, not_and_or, not_not, not_lt] at h
  exact if_pos h

theorem getPath_eq (h : PathFound data datalen) {n : ℕ}
    (hn : n = min ((findPath data datalen).numlen - (bytes " HTTP/x.x").length)
      (bufsize - info.hostlen)) :
    getPath data datalen info =
      (2, { info with
        url := put (put (put info.url 0 (UrlFilter.strncpy (info.host.take info.hostlen)))
          info.hostlen (UrlFilter.strncpy (window data (findPath data datalen).numoff n)))
          (info.hostlen + n) [0]
        urllen := info.hostlen + n }) := by
  have hnot : ¬ ((findPath data datalen).ret = 0 ∨
      (findPath data datalen).numlen ≤ (bytes " HTTP/x.x").length) := by
    simpa only [PathFound, ne_eq, not_or, not_le] using h
  have hpathlen : (if (findPath data datalen).numlen - (bytes " HTTP/x.x").length + info.hostlen <
      bufsize then (findPath data datalen).numlen - (bytes " HTTP/x.x").length
      else bufsize - info.hostlen) = n := by
    rw [hn, ← ite_lt_eq_min]
    split <;> split <;> omega
  rw [getPath, if_neg hnot]
  simp only [hpathlen]

/-- The whole of `htinfo.url` is written when the path is found. -/
theorem getPath_of_path (h : PathFound data datalen) :
    getPath data datalen (withHost data datalen info) =
      (2, { withHost data datalen info with
        url := urlText data datalen ++ 0 :: info.url.drop ((urlText data datalen).length + 1)
        urllen := (urlText data datalen).length }) := by
  have htake : (withHost data datalen info).host.take (withHost data datalen info).hostlen =
      hostText data datalen := List.take_left
  have hhost : (UrlFilter.strncpy (hostText data datalen)).length =
      (withHost data datalen info).hostlen := length_strncpy _
  obtain ⟨n, hn⟩ : ∃ n, n = min ((findPath data datalen).numlen - (bytes " HTTP/x.x").length)
      (bufsize - (withHost data datalen info).hostlen) := ⟨_, rfl⟩
  have hurl : urlText data datalen = UrlFilter.strncpy (hostText data datalen) ++
      UrlFilter.strncpy (window data (findPath data datalen).numoff n) := by
    rw [hn]
    rfl
  have hurllen : (urlText data datalen).length = (withHost data datalen info).hostlen + n := by
    rw [hurl, List.length_append, hhost, length_strncpy, UrlFilter.length_window]
  rw [getPath_eq h hn, htake, ← put_string, ← hurllen, hurl, ← put_append, hhost]
  rfl

end Filled

/-! ## What of `htinfo` is looked at -/

section Looked

variable {info : HttpInfo} {text pad a vice : List UInt8} {behind wl : List UInt8} {n : ℕ}

theorem strnicmp_append_left (hle : n ≤ a.length) (b : List UInt8) :
    strnicmp (a ++ b) vice n = strnicmp a vice n := by
  induction n generalizing a vice with
  | zero => rfl
  | succ n ih =>
    cases a with
    | nil => cases hle
    | cons c a =>
      cases vice with
      | nil => simp [strnicmp]
      | cons d vice =>
        rw [List.cons_append, strnicmp_cons, strnicmp_cons, ih (Nat.le_of_succ_le_succ hle)]

/-- An ending is compared with the end of the text, and before it with the bytes of `hostlen`. -/
theorem endsIn_eq (hhost : info.host.length = bufsize + 1) (hurl : info.url = text ++ pad)
    (hlen : info.urllen = text.length) (hsmall : text.length < 2 ^ 31)
    (hvice : vice.length ≤ text.length + 4) :
    endsIn info vice = decide (strnicmp ((be32 info.hostlen ++ text).drop
      (text.length + 4 - vice.length)) vice vice.length = 0) := by
  have hstart : (text.length : ℤ) - vice.length + (bufsize + 8) =
      ((info.host ++ [0, 0, 0]).length + (text.length + 4 - vice.length) : ℕ) := by
    simp only [List.length_append, List.length_cons, List.length_nil, hhost, bufsize]
    omega
  have hdrop : fromUrl info (toInt text.length - vice.length) =
      (be32 info.hostlen ++ text).drop (text.length + 4 - vice.length) ++
        (pad ++ [0, 0, 0] ++ be32 info.urllen) := by
    have hle : text.length + 4 - vice.length ≤ (be32 info.hostlen ++ text).length := by
      simp only [length_be32, List.length_append]
      omega
    rw [fromUrl, toInt, if_pos hsmall, hstart, if_neg (by omega), Int.toNat_natCast, layout,
      List.drop_length_add_append, hurl, ← List.drop_append_of_le_length hle]
    simp only [List.append_assoc]
  have hfits : vice.length ≤
      ((be32 info.hostlen ++ text).drop (text.length + 4 - vice.length)).length := by
    simp only [List.length_drop, length_be32, List.length_append]
    omega
  rw [endsIn, hlen, hdrop, strnicmp_append_left hfits]

theorem contentFound_congr {opt : UInt64} {info' : HttpInfo} {pad' : List UInt8}
    (hhost : info.host.length = bufsize + 1) (hhost' : info'.host.length = bufsize + 1)
    (hurl : info.url = text ++ pad) (hurl' : info'.url = text ++ pad')
    (hlen : info.urllen = text.length) (hlen' : info'.urllen = text.length)
    (hhostlen : info.hostlen = info'.hostlen) (hsmall : text.length < 2 ^ 31)
    (htwo : 2 ≤ text.length) : contentFound opt info = contentFound opt info' := by
  have hends (vice : List UInt8) (hvice : vice.length ≤ 6) :
      endsIn info vice = endsIn info' vice := by
    rw [endsIn_eq hhost hurl hlen hsmall (by omega), endsIn_eq hhost' hurl' hlen' hsmall (by omega),
      hhostlen]
  have hjava : javaEndings.any (endsIn info) = javaEndings.any (endsIn info') := by
    simp only [javaEndings, List.any_cons, List.any_nil]
    rw [hends _ (by decide), hends _ (by decide), hends _ (by decide), hends _ (by decide)]
  have hactive : activeEndings.any (endsIn info) = activeEndings.any (endsIn info') := by
    simp only [activeEndings, List.any_cons, List.any_nil]
    rw [hends _ (by decide), hends _ (by decide)]
  rw [contentFound, contentFound, hjava, hactive]

theorem keywords_congr (behind text pad pad' wl : List UInt8) (w w' : Needle)
    (hsmall : text.length < 2 ^ 31) :
    keywords behind (text ++ pad) (toInt text.length) w wl =
      keywords behind (text ++ pad') (toInt text.length) w' wl := by
  rw [keywords, keywords, toInt, if_pos hsmall, keywordLoop_congr behind text pad pad' wl w w']

end Looked

/-! ## When the verdict depends on the stack -/

section Verdict

variable {rule : Rule} {data : ℕ → UInt8} {datalen : ℕ} {behind : List UInt8} {locals : Locals}

/-- The first word of the list is copied, and it is not empty. -/
def FirstWord (behind wl : List UInt8) : Prop :=
  ∃ w s, copyWord behind w wl = .ok s ∧ cstr s.word.bytes ≠ []

/-- A request with a host and without a path meets a rule that looks at the path. -/
structure ReadsUnset (rule : Rule) (data : ℕ → UInt8) (datalen : ℕ) (behind : List UInt8) :
    Prop where
  patlen : ¬ rule.patlen < 1
  host : HostFound data datalen
  path : ¬ PathFound data datalen
  looks : rule.type = .url ∧ FirstWord behind (cstr rule.pattern) ∨
    rule.type = .content ∧ simpleStrtol (cstr rule.pattern) &&& blkCookie = 0 ∧
      (simpleStrtol (cstr rule.pattern) &&& blkJava ≠ 0 ∨
        simpleStrtol (cstr rule.pattern) &&& blkActive ≠ 0)

theorem and_eq_zero {opt mask bit : UInt64} (h : opt &&& mask = 0) (hbit : mask &&& bit = bit) :
    opt &&& bit = 0 := by
  rw [← hbit, ← UInt64.and_assoc, h, UInt64.zero_and]

/-- With any of the options that look at the path, and only then, the path is asked for. -/
theorem httpFlags_content (opt : UInt64) :
    (httpFlags .content opt = 0 ∧ opt &&& blkJava = 0 ∧ opt &&& blkActive = 0) ∨
      (httpFlags .content opt &&& 3 ≠ 0 ∧ httpFlags .content opt &&& 2 ≠ 0) := by
  by_cases hany : opt &&& (blkJava ||| blkActive ||| blkProxy) = 0
  · have hproxy : opt &&& blkProxy = 0 := and_eq_zero hany (by decide)
    refine .inl ⟨?_, and_eq_zero hany (by decide), and_eq_zero hany (by decide)⟩
    simp only [httpFlags, hany, hproxy, ne_eq, not_true_eq_false, if_false]
    rfl
  · right
    by_cases hproxy : opt &&& blkProxy = 0
    · simp only [httpFlags, hany, hproxy, ne_eq, not_true_eq_false, not_false_eq_true, if_true,
        if_false]
      decide
    · simp only [httpFlags, hany, hproxy, ne_eq, not_false_eq_true, if_true]
      decide

theorem matchSkb_eq (hpatlen : ¬ rule.patlen < 1) (htype : rule.type ≠ .other)
    (hcookie : ¬ (rule.type = .content ∧ simpleStrtol (cstr rule.pattern) &&& blkCookie ≠ 0)) :
    matchSkb rule data datalen behind locals =
      if (getHttpInfo data datalen (httpFlags rule.type (simpleStrtol (cstr rule.pattern)))
        locals.htinfo).1 < 1 then .ok 0
      else (foundIn rule behind locals.needle (getHttpInfo data datalen
        (httpFlags rule.type (simpleStrtol (cstr rule.pattern))) locals.htinfo).2).map
          (verdict rule) := by
  rw [matchSkb]
  simp only [hpatlen, htype, hcookie, if_false]

theorem matchSkb_of_info {ret : ℤ} {info : HttpInfo} (hpatlen : ¬ rule.patlen < 1)
    (htype : rule.type ≠ .other)
    (hcookie : ¬ (rule.type = .content ∧ simpleStrtol (cstr rule.pattern) &&& blkCookie ≠ 0))
    (hinfo : getHttpInfo data datalen (httpFlags rule.type (simpleStrtol (cstr rule.pattern)))
      locals.htinfo = (ret, info)) (hret : ¬ ret < 1) :
    matchSkb rule data datalen behind locals =
      (foundIn rule behind locals.needle info).map (verdict rule) := by
  rw [matchSkb_eq hpatlen htype hcookie, hinfo, if_neg hret]

/-- Without a first word the loop ends before it looks at the text. -/
theorem keywords_of_not_firstWord {wl : List UInt8} (h : ¬ FirstWord behind wl)
    (haystack haystack' : List UInt8) (hlen hlen' : ℤ) (w w' : Needle) :
    keywords behind haystack hlen w wl = keywords behind haystack' hlen' w' wl := by
  have hw := copyWord_congr behind w w' wl
  rw [keywords, keywords, keywordLoop, keywordLoop, hw]
  cases hcopy : copyWord behind w' wl with
  | error f => rfl
  | ok s =>
    have hempty : cstr s.word.bytes = [] := by
      by_contra hne
      exact h ⟨w', s, hcopy, hne⟩
    simp only [LoopRun.loop_of_inr (turn_empty behind _ _ hempty)]

theorem length_withHost (locals : Locals) :
    (withHost data datalen locals.htinfo).host.length = bufsize + 1 := by
  have hle := length_hostText_le data datalen
  have hsize := locals.hostSize
  simp only [withHost, List.length_append, List.length_cons, List.length_drop]
  omega

/-- What `get_http_info` fills is enough for the rest of `match`, but for the path. -/
theorem foundIn_congr (h : ¬ ReadsUnset rule data datalen behind) (hpatlen : ¬ rule.patlen < 1)
    (hcookie : ¬ (rule.type = .content ∧ simpleStrtol (cstr rule.pattern) &&& blkCookie ≠ 0))
    (hhost : HostFound data datalen) (hpath : ¬ PathFound data datalen) (htype : rule.type ≠ .host)
    (hother : rule.type ≠ .other) (l l' : Locals) :
    foundIn rule behind l.needle (withHost data datalen l.htinfo) =
      foundIn rule behind l'.needle (withHost data datalen l'.htinfo) := by
  have hlooks := fun hlooks => h ⟨hpatlen, hhost, hpath, hlooks⟩
  cases hrule : rule.type with
  | host => exact absurd hrule htype
  | other => exact absurd hrule hother
  | url =>
    simp only [foundIn, hrule]
    exact keywords_of_not_firstWord (fun hfirst => hlooks (.inl ⟨hrule, hfirst⟩)) _ _ _ _ _ _
  | content =>
    have hzero : simpleStrtol (cstr rule.pattern) &&& blkCookie = 0 := by
      simpa only [hrule, true_and, ne_eq, not_not] using hcookie
    have hnone : simpleStrtol (cstr rule.pattern) &&& blkJava = 0 ∧
        simpleStrtol (cstr rule.pattern) &&& blkActive = 0 := by
      by_contra hany
      exact hlooks (.inr ⟨hrule, hzero, by simpa only [not_and_or] using hany⟩)
    simp only [foundIn, hrule, contentFound, hnone, ne_eq, not_true_eq_false, decide_false,
      Bool.false_and, Bool.or_self]

theorem flags_of_path {opt : UInt64} (htype : rule.type = .url ∨ rule.type = .content)
    (hflags : httpFlags rule.type opt &&& 3 ≠ 0) : httpFlags rule.type opt &&& 2 ≠ 0 := by
  obtain hrule | hrule := htype
  · simp only [hrule, httpFlags]
    decide
  · rw [hrule] at hflags ⊢
    obtain ⟨hzero, -, -⟩ | ⟨-, htwo⟩ := httpFlags_content opt
    · exact absurd (by rw [hzero, UInt32.zero_and]) hflags
    · exact htwo

/-- All that the rest of `match` looks at is filled when the path is found. -/
theorem foundIn_of_path (hhost : HostFound data datalen) (hpath : PathFound data datalen)
    (htype : rule.type ≠ .host) (l l' : Locals) :
    foundIn rule behind l.needle (getPath data datalen (withHost data datalen l.htinfo)).2 =
      foundIn rule behind l'.needle (getPath data datalen (withHost data datalen l'.htinfo)).2 := by
  obtain ⟨htwo, hle⟩ := length_urlText hhost hpath
  have hsmall : (urlText data datalen).length < 2 ^ 31 := hle.trans_lt (by decide)
  have hcontent : ∀ opt, contentFound opt
      (getPath data datalen (withHost data datalen l.htinfo)).2 =
        contentFound opt (getPath data datalen (withHost data datalen l'.htinfo)).2 := fun opt => by
    rw [getPath_of_path hpath, getPath_of_path hpath]
    exact contentFound_congr (length_withHost l) (length_withHost l') rfl rfl rfl rfl rfl hsmall
      htwo
  cases hrule : rule.type with
  | host => exact absurd hrule htype
  | url =>
    simp only [foundIn, hrule, getPath_of_path hpath]
    exact keywords_congr _ _ _ _ _ _ _ hsmall
  | content => simp only [foundIn, hrule, hcontent]
  | other => simp only [foundIn, hrule, hcontent]

theorem matchSkb_congr (h : ¬ ReadsUnset rule data datalen behind) (l l' : Locals) :
    matchSkb rule data datalen behind l = matchSkb rule data datalen behind l' := by
  by_cases hpatlen : rule.patlen < 1
  · rw [matchSkb, matchSkb, if_pos hpatlen, if_pos hpatlen]
  by_cases hother : rule.type = .other
  · simp only [matchSkb, hother, if_true]
  by_cases hcookie : rule.type = .content ∧ simpleStrtol (cstr rule.pattern) &&& blkCookie ≠ 0
  · simp only [matchSkb, hcookie, if_true, reduceCtorEq, if_false, ne_eq, not_false_eq_true,
      and_self]
  rw [matchSkb_eq hpatlen hother hcookie, matchSkb_eq hpatlen hother hcookie]
  by_cases hhost : HostFound data datalen ∧
      httpFlags rule.type (simpleStrtol (cstr rule.pattern)) &&& 3 ≠ 0
  · rw [getHttpInfo_of_host hhost.1 hhost.2, getHttpInfo_of_host hhost.1 hhost.2]
    by_cases htype : rule.type = .host
    · have hflags : httpFlags rule.type (simpleStrtol (cstr rule.pattern)) &&& 2 = 0 := by
        simp only [htype, httpFlags]
        decide
      have hfound : foundIn rule behind l.needle (withHost data datalen l.htinfo) =
          foundIn rule behind l'.needle (withHost data datalen l'.htinfo) := by
        have hle := length_hostText_le data datalen
        simp only [foundIn, htype]
        exact keywords_congr _ _ _ _ _ _ _ (hle.trans_lt (by decide))
      rw [if_pos hflags, if_pos hflags, hfound]
    · have hpage : rule.type = .url ∨ rule.type = .content := by
        cases hrule : rule.type with
        | host => exact absurd hrule htype
        | other => exact absurd hrule hother
        | url => exact .inl rfl
        | content => exact .inr rfl
      have hflags := flags_of_path hpage hhost.2
      rw [if_neg hflags, if_neg hflags]
      by_cases hpath : PathFound data datalen
      · have hret : ∀ info, (getPath data datalen (withHost data datalen info)).1 = 2 := by
          intro info
          rw [getPath_of_path hpath]
        rw [hret, hret, foundIn_of_path hhost.1 hpath htype l l']
      · rw [getPath_of_not_path hpath, getPath_of_not_path hpath,
          foundIn_congr h hpatlen hcookie hhost.1 hpath htype hother l l']
  · rw [getHttpInfo_of_not_host hhost, getHttpInfo_of_not_host hhost, if_pos Int.zero_lt_one,
      if_pos Int.zero_lt_one]

def leftover (text : List UInt8) (h : text.length ≤ bufsize) : Locals where
  htinfo :=
    { host := List.replicate (bufsize + 1) 0
      hostlen := 0
      url := text ++ List.replicate (bufsize + 1 - text.length) 0
      urllen := text.length }
  needle := ⟨List.replicate bufsize 0, List.length_replicate⟩
  hostSize := List.length_replicate
  urlSize := by
    simp only [List.length_append, List.length_replicate]
    omega
  hostlen := Nat.two_pow_pos 32
  urllen := h.trans_lt (by decide)

/-- The rest of `match` with that path, when `get_http_info` finds the host only. -/
theorem matchSkb_leftover (h : ReadsUnset rule data datalen behind) (text : List UInt8)
    (hle : text.length ≤ bufsize) :
    matchSkb rule data datalen behind (leftover text hle) =
      (foundIn rule behind (leftover text hle).needle
        (withHost data datalen (leftover text hle).htinfo)).map (verdict rule) := by
  have hflags : httpFlags rule.type (simpleStrtol (cstr rule.pattern)) &&& 3 ≠ 0 ∧
      httpFlags rule.type (simpleStrtol (cstr rule.pattern)) &&& 2 ≠ 0 := by
    obtain ⟨hrule, -⟩ | ⟨hrule, -, hany⟩ := h.looks
    · simp only [hrule, httpFlags]
      decide
    · rw [hrule]
      obtain ⟨-, hjava, hactive⟩ | hflags := httpFlags_content (simpleStrtol (cstr rule.pattern))
      · exact (not_or.mpr ⟨not_not.mpr hjava, not_not.mpr hactive⟩ hany).elim
      · exact hflags
  have hother : rule.type ≠ .other := by
    intro hrule
    simp only [hrule, httpFlags, UInt32.zero_and, ne_eq, not_true_eq_false, false_and] at hflags
  have hcookie :
      ¬ (rule.type = .content ∧ simpleStrtol (cstr rule.pattern) &&& blkCookie ≠ 0) := by
    rintro ⟨hrule, hset⟩
    obtain ⟨hurl, -⟩ | ⟨-, hzero, -⟩ := h.looks
    · rw [hrule] at hurl
      cases hurl
    · exact hset hzero
  have hinfo : getHttpInfo data datalen (httpFlags rule.type (simpleStrtol (cstr rule.pattern)))
      (leftover text hle).htinfo = (1, withHost data datalen (leftover text hle).htinfo) := by
    rw [getHttpInfo_of_host h.host hflags.1, if_neg hflags.2, getPath_of_not_path h.path]
  exact matchSkb_of_info h.patlen hother hcookie hinfo (Int.lt_irrefl 1)

theorem verdict_ne (rule : Rule) : verdict rule false ≠ verdict rule true := by
  intro h
  have hxor := congrArg (· ^^^ rule.invert.toNat) h
  simp only [verdict, Nat.xor_assoc, Nat.xor_self, Nat.xor_zero, Bool.toNat_false,
    Bool.toNat_true] at hxor
  cases hxor

theorem endsIn_leftover {text vice : List UInt8} (hle : text.length ≤ bufsize)
    (hvice : vice.length ≤ text.length) :
    endsIn (withHost data datalen (leftover text hle).htinfo) vice =
      decide (strnicmp (text.drop (text.length - vice.length)) vice vice.length = 0) := by
  have hdrop : text.length + 4 - vice.length = 4 + (text.length - vice.length) := by omega
  rw [endsIn_eq (length_withHost _) rfl rfl (hle.trans_lt (by decide)) (by omega), hdrop,
    ← List.drop_drop]
  rfl

/-- Results with and without a word found give different verdicts. -/
theorem map_verdict_ne {r : Except Fault Bool} (h : r ≠ .ok true) :
    (Except.ok true : Except Fault Bool).map (verdict rule) ≠ r.map (verdict rule) := by
  intro heq
  cases r with
  | error f => cases heq
  | ok b =>
    cases b with
    | true => exact h rfl
    | false => exact verdict_ne rule (Except.ok.inj heq).symm

theorem foundIn_url {text : List UInt8} (hrule : rule.type = .url) (hle : text.length ≤ bufsize) :
    foundIn rule behind (leftover text hle).needle
        (withHost data datalen (leftover text hle).htinfo) =
      (keywordLoop behind (text ++ List.replicate (bufsize + 1 - text.length) 0) text.length
        (leftover text hle).needle (cstr rule.pattern) ((cstr rule.pattern).length + 2)).getD
          (.ok false) := by
  have hint : toInt text.length = text.length := if_pos (hle.trans_lt (by decide))
  simp only [foundIn, hrule]
  rw [keywords, ← hint]
  rfl

theorem keywords_zero_ne (behind haystack wl : List UInt8) (w : Needle) :
    keywords behind haystack 0 w wl ≠ .ok true := by
  obtain ⟨r, hr⟩ := keywordLoop_isSome behind haystack 0 w wl
  have hne := keywordLoop_zero behind haystack wl w (wl.length + 2)
  rw [hr] at hne
  rw [keywords, hr]
  exact fun htrue => hne (congrArg some htrue)

/-- A path of six letters ends in none of the endings. -/
theorem contentFound_letters (opt : UInt64) :
    contentFound opt (withHost data datalen (leftover (bytes "aaaaaa") (by decide)).htinfo) =
      false := by
  have hjava : ∀ vice ∈ javaEndings, ¬ endsIn (withHost data datalen
      (leftover (bytes "aaaaaa") (by decide)).htinfo) vice = true := fun vice hvice => by
    rw [endsIn_leftover _ (by revert vice; decide)]
    revert vice
    decide
  have hactive : ∀ vice ∈ activeEndings, ¬ endsIn (withHost data datalen
      (leftover (bytes "aaaaaa") (by decide)).htinfo) vice = true := fun vice hvice => by
    rw [endsIn_leftover _ (by revert vice; decide)]
    revert vice
    decide
  rw [contentFound, List.any_eq_false.mpr hjava, List.any_eq_false.mpr hactive, Bool.and_false,
    Bool.and_false, Bool.or_self]

theorem contentFound_java {opt : UInt64} (h : opt &&& blkJava ≠ 0) :
    contentFound opt (withHost data datalen (leftover (bytes ".java") (by decide)).htinfo) =
      true := by
  have hends : javaEndings.any (endsIn (withHost data datalen
      (leftover (bytes ".java") (by decide)).htinfo)) = true := by
    refine List.any_eq_true.mpr ⟨bytes ".java", List.mem_cons_self, ?_⟩
    rw [endsIn_leftover _ le_rfl]
    decide
  simp only [contentFound, h, hends, ne_eq, not_false_eq_true, decide_true, Bool.and_self,
    Bool.true_or]

theorem contentFound_active {opt : UInt64} (h : opt &&& blkActive ≠ 0) :
    contentFound opt (withHost data datalen (leftover (bytes ".ocx") (by decide)).htinfo) =
      true := by
  have hends : activeEndings.any (endsIn (withHost data datalen
      (leftover (bytes ".ocx") (by decide)).htinfo)) = true := by
    refine List.any_eq_true.mpr ⟨bytes ".ocx", List.mem_cons_self, ?_⟩
    rw [endsIn_leftover _ le_rfl]
    decide
  simp only [contentFound, h, hends, ne_eq, not_false_eq_true, decide_true, Bool.and_self,
    Bool.or_true]

theorem exists_matchSkb_ne (h : ReadsUnset rule data datalen behind) :
    ∃ l l', matchSkb rule data datalen behind l ≠ matchSkb rule data datalen behind l' := by
  obtain ⟨hrule, w, s, hcopy, hword⟩ | ⟨hrule, -, hany⟩ := h.looks
  · have hle : (cstr s.word.bytes).length ≤ bufsize := by
      rw [← s.word.size]
      exact (List.takeWhile_prefix _).length_le
    refine ⟨leftover (cstr s.word.bytes) hle, leftover [] (Nat.zero_le _), ?_⟩
    rw [copyWord_congr behind w (leftover (cstr s.word.bytes) hle).needle] at hcopy
    rw [matchSkb_leftover h, matchSkb_leftover h, foundIn_url hrule, keywordLoop_found hcopy hword]
    refine map_verdict_ne ?_
    simp only [foundIn, hrule]
    exact keywords_zero_ne _ _ _ _
  · have hfound : ∀ text (hle : text.length ≤ bufsize), foundIn rule behind
        (leftover text hle).needle (withHost data datalen (leftover text hle).htinfo) =
        .ok (contentFound (simpleStrtol (cstr rule.pattern))
          (withHost data datalen (leftover text hle).htinfo)) := fun text hle => by
      simp only [foundIn, hrule]
    obtain hjava | hactive := hany
    · refine ⟨leftover (bytes ".java") (by decide), leftover (bytes "aaaaaa") (by decide), ?_⟩
      rw [matchSkb_leftover h, matchSkb_leftover h, hfound, hfound, contentFound_letters,
        contentFound_java hjava]
      exact map_verdict_ne (by simp)
    · refine ⟨leftover (bytes ".ocx") (by decide), leftover (bytes "aaaaaa") (by decide), ?_⟩
      rw [matchSkb_leftover h, matchSkb_leftover h, hfound, hfound, contentFound_letters,
        contentFound_active hactive]
      exact map_verdict_ne (by simp)

/-- The verdict is the same for every content of the stack, unless the path that
`get_http_info` has not filled is looked at. -/
theorem matchSkb_same_iff (rule : Rule) (data : ℕ → UInt8) (datalen : ℕ) (behind : List UInt8) :
    (∀ l l', matchSkb rule data datalen behind l = matchSkb rule data datalen behind l') ↔
      ¬ ReadsUnset rule data datalen behind := by
  constructor
  · intro hsame h
    obtain ⟨l, l', hne⟩ := exists_matchSkb_ne h
    exact hne (hsame l l')
  · exact fun h l l' => matchSkb_congr h l l'

def noPath (i : ℕ) : UInt8 := (bytes "GET \r\nHost: a\r\n\r\n").getD i 0

def games : Rule where
  pattern := bytes "games" ++ [0]
  patlen := 5
  invert := 0
  type := .url

/-- The path of an earlier request on the stack decides. -/
theorem verdict_from_stack :
    ¬ ∀ rule data datalen behind l l',
      matchSkb rule data datalen behind l = matchSkb rule data datalen behind l' := by
  intro h
  exact absurd (h games noPath 17 [] (leftover (bytes "games") (by decide))
    (leftover (bytes "aaaaaa") (by decide))) (by decide +kernel)

end Verdict

end WebMatch
