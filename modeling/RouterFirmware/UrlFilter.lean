import Mathlib.Data.Int.Notation
import RouterFirmware.CrLfLines

/-! # What the content filter takes from an HTTP request

The host is what is behind the first `Host: ` of the packet, and the path what is behind the first
`GET ` or `POST `. The searches are over the bytes of the packet, up to an empty line.
-/
namespace UrlFilter

open CrLfLines (cr lf)

def bytes (s : String) : List UInt8 := s.toList.map fun c => UInt8.ofNat c.toNat

def bufsize : ℕ := 1024

/-- `isupper` of the kernel, which is that of Latin-1. -/
def isUpper (c : UInt8) : Bool := 65 ≤ c ∧ c ≤ 90 ∨ 192 ≤ c ∧ c ≤ 222 ∧ c ≠ 215

def tolower (c : UInt8) : UInt8 := if isUpper c then c + 32 else c

def strnicmp : List UInt8 → List UInt8 → ℕ → ℤ
  | _, _, 0 => 0
  | s, t, n + 1 =>
    let c := s.headD 0
    let d := t.headD 0
    if c = 0 ∨ d = 0 then (c.toNat : ℤ) - d.toNat
    else if tolower c = tolower d then strnicmp s.tail t.tail n
    else ((tolower c).toNat : ℤ) - (tolower d).toNat

/-- `n` bytes of the memory from `data + i` on. -/
def window (data : ℕ → UInt8) : ℕ → ℕ → List UInt8
  | _, 0 => []
  | i, n + 1 => data i :: window data (i + 1) n

/-- The automaton that is in state `4` after CR LF CR LF. -/
def next (state : ℕ) (c : UInt8) : ℕ :=
  if c = cr then if state % 2 = 0 then state + 1 else 0
  else if c = lf then if state % 2 = 1 then state + 1 else 0
  else 0

/-- The loop to the terminator, which looks at `data[dlen]` and `data[dlen + 1]`, too. -/
def seek (data : ℕ → UInt8) (dlen : ℕ) (term : UInt8) (j k : ℕ) : Option ℕ :=
  if data j = term then some k
  else if dlen < j then none
  else seek data dlen term (j + 1) (k + 1)
termination_by dlen + 1 - j

structure Found where
  ret : ℤ
  numoff : ℕ
  numlen : ℕ
  deriving DecidableEq

/-- The loop over the places, of which `n` are left. -/
def search (data : ℕ → UInt8) (dlen : ℕ) (pattern : List UInt8) (term : UInt8) :
    ℕ → ℕ → ℕ → Found
  | 0, _, _ => ⟨0, 0, 0⟩
  | n + 1, i, state =>
    let state := next state (data i)
    if 4 ≤ state then ⟨0, 0, 0⟩
    else if window data i pattern.length = pattern then
      match seek data dlen term (i + pattern.length) 0 with
      | none => ⟨-1, i + pattern.length, 0⟩
      | some k => ⟨1, i + pattern.length, k⟩
    else search data dlen pattern term n (i + 1) state

def findPattern2 (data : ℕ → UInt8) (dlen : ℕ) (pattern : List UInt8) (term : UInt8) : Found :=
  if dlen = 0 then ⟨0, 0, 0⟩
  else if dlen ≤ pattern.length then
    if strnicmp (window data 0 dlen) pattern dlen = 0 then ⟨-1, 0, 0⟩ else ⟨0, 0, 0⟩
  else search data dlen pattern term (dlen - pattern.length + 1) 0 0

structure HttpInfo where
  host : List UInt8
  hostlen : ℕ
  url : List UInt8
  urllen : ℕ
  deriving DecidableEq

/-- What `strncpy` makes of as many bytes: zeros behind the end of the string. -/
def strncpy (w : List UInt8) : List UInt8 :=
  w.takeWhile (· ≠ 0) ++ List.replicate (w.length - (w.takeWhile (· ≠ 0)).length) 0

def put (array : List UInt8) (i : ℕ) (w : List UInt8) : List UInt8 :=
  array.take i ++ w ++ array.drop (i + w.length)

/-- The searches of `get_http_info` for the path. -/
def findPath (data : ℕ → UInt8) (datalen : ℕ) : Found :=
  let get := findPattern2 data datalen (bytes "GET ") cr
  if get.ret = 0 then findPattern2 data datalen (bytes "POST ") cr else get

/-- `get_http_info` from where the host was found. -/
def getPath (data : ℕ → UInt8) (datalen : ℕ) (info : HttpInfo) : ℤ × HttpInfo :=
  let path := findPath data datalen
  if path.ret = 0 ∨ path.numlen ≤ (bytes " HTTP/x.x").length then (1, info)
  else
    let pathlen := path.numlen - (bytes " HTTP/x.x").length
    let pathlen := if pathlen + info.hostlen < bufsize then pathlen else bufsize - info.hostlen
    let url := put info.url 0 (strncpy (info.host.take info.hostlen))
    let url := put url info.hostlen (strncpy (window data path.numoff pathlen))
    let url := put url (info.hostlen + pathlen) [0]
    (2, { info with
      url := url
      urllen := info.hostlen + pathlen })

/-- `get_http_info`: `HTTP_HOST` is `1` and `HTTP_URL` is `2`. -/
def getHttpInfo (data : ℕ → UInt8) (datalen : ℕ) (flags : UInt32) (info : HttpInfo) :
    ℤ × HttpInfo :=
  if datalen < 10 then (0, info)
  else if window data 0 4 ≠ bytes "GET " ∧ window data 0 5 ≠ bytes "POST " then (0, info)
  else if flags &&& 3 = 0 then (0, info)
  else
    let found := findPattern2 data datalen (bytes "Host: ") cr
    if found.ret = 0 ∨ found.numlen = 0 then (0, info)
    else
      let hostlen := if found.numlen < bufsize then found.numlen else bufsize
      let host := put info.host 0 (strncpy (window data found.numoff hostlen))
      let info := { info with
        host := put host hostlen [0]
        hostlen := hostlen }
      if flags &&& 2 = 0 then (1, info) else getPath data datalen info

/-! ## The search on the bytes of the packet -/

def scan (pattern : List UInt8) : ℕ → List UInt8 → Option (List UInt8)
  | _, [] => none
  | state, c :: t =>
    if 4 ≤ next state c then none
    else if pattern.isPrefixOf (c :: t) then some ((c :: t).drop pattern.length)
    else scan pattern (next state c) t

section Memory

variable {data : ℕ → UInt8} {dlen i n k : ℕ} {pattern rest a b h : List UInt8} {term c : UInt8}

@[simp] theorem length_window : (window data i n).length = n := by
  induction n generalizing i with
  | zero => rfl
  | succ n ih => simp [window, ih]

theorem window_append (i m n : ℕ) :
    window data i (m + n) = window data i m ++ window data (i + m) n := by
  induction m generalizing i with
  | zero => simp [window]
  | succ m ih =>
    rw [Nat.succ_add_eq_add_succ, Nat.add_succ, window, ih, window, List.cons_append,
      Nat.add_assoc, Nat.add_comm 1]

theorem window_left (hdata : window data i (a ++ b).length = a ++ b) :
    window data i a.length = a := by
  rw [List.length_append, window_append] at hdata
  exact (List.append_inj hdata length_window).1

theorem window_right (hdata : window data i (a ++ b).length = a ++ b) :
    window data (i + a.length) b.length = b := by
  rw [List.length_append, window_append] at hdata
  exact (List.append_inj hdata length_window).2

theorem window_eq_iff (hdata : window data i rest.length = rest)
    (hle : pattern.length ≤ rest.length) :
    window data i pattern.length = pattern ↔ pattern.isPrefixOf rest = true := by
  have htake : window data i pattern.length = rest.take pattern.length := by
    have hsplit : window data i (rest.take pattern.length ++ rest.drop pattern.length).length =
        rest.take pattern.length ++ rest.drop pattern.length := by
      rwa [List.take_append_drop]
    simpa [Nat.min_eq_left hle] using window_left hsplit
  rw [htake, List.isPrefixOf_iff_prefix, List.prefix_iff_eq_take, eq_comm]

theorem scan_of_short (state : ℕ) (hlt : rest.length < pattern.length) :
    scan pattern state rest = none := by
  induction rest generalizing state with
  | nil => rfl
  | cons c t ih =>
    have hprefix : ¬ pattern.isPrefixOf (c :: t) = true := fun h =>
      absurd (List.isPrefixOf_iff_prefix.mp h).length_le (Nat.not_le_of_lt hlt)
    rw [List.length_cons] at hlt
    rw [scan, if_neg hprefix, ih _ (by omega), ite_self]

/-- The number of places that are left goes with the number of bytes that are left. -/
theorem search_eq (hpattern : pattern ≠ []) (state : ℕ)
    (hdata : window data i rest.length = rest) (hdlen : i + rest.length = dlen) :
    search data dlen pattern term (rest.length + 1 - pattern.length) i state =
      match scan pattern state rest with
      | none => ⟨0, 0, 0⟩
      | some t =>
        match seek data dlen term (dlen - t.length) 0 with
        | none => ⟨-1, dlen - t.length, 0⟩
        | some k => ⟨1, dlen - t.length, k⟩ := by
  have hpos : 0 < pattern.length := List.length_pos_iff.mpr hpattern
  induction rest generalizing i state with
  | nil =>
    rw [List.length_nil, Nat.zero_add, Nat.sub_eq_zero_of_le hpos]
    rfl
  | cons c t ih =>
    obtain hlt | hle := Nat.lt_or_ge (c :: t).length pattern.length
    · rw [scan_of_short state hlt, Nat.sub_eq_zero_of_le hlt]
      rfl
    · have hhead : data i = c := (List.cons.inj hdata).1
      have htail : window data (i + 1) t.length = t := (List.cons.inj hdata).2
      rw [List.length_cons] at hle hdlen
      have hn : (c :: t).length + 1 - pattern.length = t.length + 1 - pattern.length + 1 := by
        rw [List.length_cons]
        omega
      rw [hn, search, scan]
      simp only [hhead]
      split
      · rfl
      · by_cases hprefix : pattern.isPrefixOf (c :: t) = true
        · have hoff : dlen - ((c :: t).drop pattern.length).length = i + pattern.length := by
            rw [List.length_drop, List.length_cons]
            omega
          rw [if_pos ((window_eq_iff hdata hle).mpr hprefix), if_pos hprefix]
          simp only [hoff]
        · rw [if_neg (mt (window_eq_iff hdata hle).mp hprefix), if_neg hprefix]
          exact ih _ htail (by omega)

theorem seek_eq (hterm : term ∉ h)
    (hdata : window data i (h ++ term :: rest).length = h ++ term :: rest)
    (hle : i + h.length ≤ dlen) : seek data dlen term i k = some (k + h.length) := by
  induction h generalizing i k with
  | nil =>
    have hhead : data i = term := (List.cons.inj hdata).1
    rw [seek, if_pos hhead]
    rfl
  | cons c h ih =>
    rw [List.mem_cons, not_or] at hterm
    have hhead : data i = c := (List.cons.inj hdata).1
    rw [List.length_cons] at hle
    rw [seek, hhead, if_neg (Ne.symm hterm.1), if_neg (by omega),
      ih hterm.2 (List.cons.inj hdata).2 (by omega), List.length_cons]
    congr 1
    omega

end Memory

end UrlFilter
