import Mathlib.Data.List.Infix
import RouterFirmware.CrLfLines

/-! # Reading the lines of the OpenVPN management

The management socket gives the bytes of its lines in chunks of any size. They come into a buffer
that is kept from call to call, with the place where reading goes on and the number of bytes that
are left.
-/
namespace OpenvpnLines

open CrLfLines

def socketBufferSize : ℕ := 512

/-- The static variables of `get_oneline`, and the chunks that the socket has to give. -/
structure Reader where
  buffer : List UInt8
  len : ℕ
  srcp : ℕ
  socket : List (List UInt8)
  deriving DecidableEq

/-- The variables behind the inner loop. -/
structure Filled where
  reread : Bool
  len : ℕ
  srcp : ℕ
  dst : List UInt8
  flag : Bool

/-- The inner loop, with room for `room` characters in the line; a byte outside the buffer is
`none`. -/
def fill (room : ℕ) (buffer : List UInt8) : ℕ → ℕ → List UInt8 → Bool → Option Filled
  | 0, srcp, dst, flag =>
    if dst.length < room then some ⟨true, 0, 0, dst, flag⟩ else some ⟨false, 0, srcp, dst, flag⟩
  | len + 1, srcp, dst, flag =>
    if dst.length < room then
      match buffer[srcp]? with
      | none => none
      | some c =>
        if flag = true ∧ c = lf then some ⟨false, len, srcp + 1, dst.dropLast, flag⟩
        else fill room buffer len (srcp + 1) (dst ++ [c]) (decide (c = cr))
    else some ⟨false, len + 1, srcp, dst, flag⟩

/-- What is in `linebuffer`, of which the length is returned, whether an end was put to it, and the
variables for the next call. -/
structure Call where
  line : List UInt8
  ended : Bool
  reader : Reader
  deriving DecidableEq

/-- The outer loop where no bytes are left, which is where it reads. -/
def readOn (room : ℕ) (buffer : List UInt8) (srcp : ℕ) (dst : List UInt8) (flag : Bool) :
    List (List UInt8) → Option Call
  | [] => some ⟨dst, false, ⟨buffer, 0, srcp, []⟩⟩
  | chunk :: socket =>
    if chunk = [] then some ⟨dst, false, ⟨buffer, 0, srcp, socket⟩⟩
    else
      let buffer := chunk ++ buffer.drop chunk.length
      match fill room buffer chunk.length srcp dst flag with
      | none => none
      | some f =>
        if f.reread then readOn room buffer f.srcp f.dst f.flag socket
        else some ⟨f.dst, true, ⟨buffer, f.len, f.srcp, socket⟩⟩

def getOneline (size : UInt32) (r : Reader) : Option Call :=
  let room := (size - 1).toNat
  if r.len = 0 then readOn room r.buffer r.srcp [] false r.socket
  else
    match fill room r.buffer r.len r.srcp [] false with
    | none => none
    | some f =>
      if f.reread then readOn room r.buffer f.srcp f.dst f.flag r.socket
      else some ⟨f.dst, true, ⟨r.buffer, f.len, f.srcp, r.socket⟩⟩

def Reader.start (socket : List (List UInt8)) : Reader :=
  ⟨List.replicate socketBufferSize 0, 0, 0, socket⟩

/-- The calls deliver the lines, and the next one returns nothing. -/
def Delivers (size : UInt32) : List (List UInt8) → Reader → Prop
  | [], r => ∃ r', getOneline size r = some ⟨[], false, r'⟩
  | l :: ls, r => ∃ r', getOneline size r = some ⟨l, true, r'⟩ ∧ Delivers size ls r'

def atLineEnd (lines socket : List (List UInt8)) : Bool :=
  lines.tails.any fun ls => decide (encode ls = socket.flatten)

/-- Each chunk is found in the buffer where reading goes on: at `next`, where the chunk before it
ended, if that was the end of a line, and at the start if not. -/
def Rereads (lines : List (List UInt8)) : List UInt8 → ℕ → List (List UInt8) → Prop
  | _, _, [] => True
  | buffer, next, chunk :: socket =>
    let filled := chunk ++ buffer.drop chunk.length
    let srcp := if atLineEnd lines (chunk :: socket) then next else 0
    (filled.drop srcp).take chunk.length = chunk ∧
      Rereads lines filled (srcp + chunk.length) socket

/-- The bytes that are left and those that the socket has to give. -/
def Ahead (r : Reader) (bytes : List UInt8) : Prop :=
  (r.buffer.drop r.srcp).take r.len ++ r.socket.flatten = bytes ∧
    r.srcp + r.len ≤ r.buffer.length

/-- The chunks fit into the buffer. -/
structure Reader.Fits (r : Reader) : Prop where
  chunks : ∀ chunk ∈ r.socket, chunk ≠ [] ∧ chunk.length ≤ socketBufferSize
  buffer : r.buffer.length = socketBufferSize

section Loops

variable {room len srcp next : ℕ} {buffer dst l w x rest chunk : List UInt8} {flag : Bool}
  {f : Filled} {lines ls socket : List (List UInt8)} {r : Reader}

theorem atLineEnd_iff : atLineEnd lines socket = true ↔
    ∃ ls, ls <:+ lines ∧ socket.flatten = encode ls := by
  simp only [atLineEnd, List.any_eq_true, List.mem_tails, decide_eq_true_eq]
  exact exists_congr fun ls => and_congr_right fun _ => eq_comm

/-- `flag` says that the line ends with CR so far. -/
def FlagOf (flag : Bool) (dst : List UInt8) : Prop := flag = true ↔ [cr] <:+ dst

theorem flagOf_nil : FlagOf false [] := by
  simp [FlagOf]

theorem flagOf_snoc (c : UInt8) : FlagOf (decide (c = cr)) (dst ++ [c]) := by
  simp only [FlagOf, decide_eq_true_eq]
  constructor
  · rintro rfl
    exact ⟨dst, rfl⟩
  · rintro ⟨t, ht⟩
    exact (List.cons.inj (List.append_inj' ht rfl).2).1.symm

/-- How the inner loop ends, after the characters `w` of the line, at the place `stop`: with the
end of the line, with no room left, or with no bytes left. -/
inductive Fills (room stop : ℕ) (w : List UInt8) (f : Filled) : Prop where
  | line : f.reread = false → f.srcp = stop → w = f.dst ++ [cr, lf] → Unbroken f.dst →
      f.dst.length + 1 < room → Fills room stop w f
  | full : f.reread = false → f.srcp = stop → w = f.dst → Unbroken f.dst →
      room ≤ f.dst.length → Fills room stop w f
  | reread : f.reread = true → f.len = 0 → f.srcp = 0 → w = f.dst → Unbroken f.dst →
      f.dst.length < room → FlagOf f.flag f.dst → Fills room stop w f

theorem fills_of_fill (hflag : FlagOf flag dst) (hdst : Unbroken dst)
    (h : fill room buffer len srcp dst flag = some f) :
    ∃ t, (buffer.drop srcp).take t.length = t ∧ t.length + f.len = len ∧
      Fills room (srcp + t.length) (dst ++ t) f := by
  induction len generalizing srcp dst flag with
  | zero =>
    refine ⟨[], rfl, ?_⟩
    rw [List.append_nil]
    rw [fill] at h
    split at h
    · next hlt =>
      obtain rfl := Option.some.inj h
      exact ⟨rfl, .reread rfl rfl rfl rfl hdst hlt hflag⟩
    · next hge =>
      obtain rfl := Option.some.inj h
      exact ⟨rfl, .full rfl rfl rfl hdst (Nat.le_of_not_lt hge)⟩
  | succ len ih =>
    rw [fill] at h
    split at h
    · next hlt =>
      cases hc : buffer[srcp]? with
      | none =>
        rw [hc] at h
        cases h
      | some c =>
        obtain ⟨hsrcp, hbyte⟩ := List.getElem?_eq_some_iff.mp hc
        have hdrop : buffer.drop srcp = c :: buffer.drop (srcp + 1) := by
          rw [List.drop_eq_getElem_cons hsrcp, hbyte]
        rw [hc] at h
        simp only at h
        split at h
        · next hend =>
          obtain rfl := Option.some.inj h
          obtain ⟨hcr, rfl⟩ := hend
          obtain ⟨d, rfl⟩ := hflag.mp hcr
          have hd : d.length + 1 < room := by simpa using hlt
          refine ⟨[lf], by rw [hdrop]; rfl, Nat.add_comm 1 len, .line rfl rfl ?_ ?_ ?_⟩
          · simp only [List.dropLast_concat, List.append_assoc, List.singleton_append]
          · simp only [List.dropLast_concat]
            exact fun hbroken => hdst (hbroken.trans (List.prefix_append d [cr]).isInfix)
          · simpa only [List.dropLast_concat] using hd
        · next hend =>
          have hsnoc : Unbroken (dst ++ [c]) :=
            unbroken_snoc hdst fun hboth => hend ⟨hflag.mpr hboth.1, hboth.2⟩
          obtain ⟨t, hread, hlen, hfills⟩ := ih (flagOf_snoc c) hsnoc h
          refine ⟨c :: t, ?_, ?_, ?_⟩
          · rw [hdrop, List.length_cons, List.take_succ_cons, hread]
          · rw [List.length_cons]
            omega
          · simpa only [List.append_assoc, List.singleton_append, List.length_cons,
              Nat.add_assoc, Nat.add_comm 1] using hfills
    · next hge =>
      obtain rfl := Option.some.inj h
      refine ⟨[], rfl, Nat.zero_add _, ?_⟩
      rw [List.append_nil]
      exact .full rfl rfl rfl hdst (Nat.le_of_not_lt hge)

theorem isSome_fill (h : srcp + len ≤ buffer.length) :
    (fill room buffer len srcp dst flag).isSome := by
  induction len generalizing srcp dst flag with
  | zero =>
    rw [fill]
    split <;> rfl
  | succ len ih =>
    rw [fill, List.getElem?_eq_getElem (show srcp < buffer.length by omega)]
    split
    · simp only
      split
      · rfl
      · exact ih (by omega)
    · rfl

/-- The inner loop on bytes of a line that has room: it comes to the end of the line, or to the end
of the bytes before it. -/
theorem exists_fill (hflag : FlagOf flag dst) (hdst : Unbroken dst) (hl : Unbroken l)
    (hroom : l.length + 1 < room) (hbounds : srcp + len ≤ buffer.length)
    (heq : dst ++ (buffer.drop srcp).take len ++ rest = l ++ [cr, lf] ++ x) :
    ∃ f, fill room buffer len srcp dst flag = some f ∧
      ((f.reread = false ∧ f.dst = l ∧ f.srcp + f.len = srcp + len ∧
          (buffer.drop f.srcp).take f.len ++ rest = x) ∨
        (f.reread = true ∧ f.srcp = 0 ∧ f.dst = dst ++ (buffer.drop srcp).take len ∧
          Unbroken f.dst ∧ FlagOf f.flag f.dst)) := by
  obtain ⟨f, hf⟩ := Option.isSome_iff_exists.mp
    (isSome_fill hbounds : (fill room buffer len srcp dst flag).isSome)
  obtain ⟨t, hread, hlen, hfills⟩ := fills_of_fill hflag hdst hf
  have hbytes : (buffer.drop srcp).take len =
      t ++ (buffer.drop (srcp + t.length)).take f.len := by
    rw [← hlen, List.take_add, List.drop_drop, hread]
  refine ⟨f, hf, ?_⟩
  cases hfills with
  | line hstop hsrcp hw hd hfit =>
    have hwhole : f.dst ++ [cr, lf] ++ ((buffer.drop (srcp + t.length)).take f.len ++ rest) =
        l ++ [cr, lf] ++ x := by
      rw [← heq, hbytes, ← hw]
      simp only [List.append_assoc]
    obtain ⟨hline, hrest⟩ := line_inj hd hl hwhole
    exact .inl ⟨hstop, hline, by omega, by rw [hsrcp, hrest]⟩
  | full hstop hsrcp hw hd hfull =>
    have hle : f.dst.length ≤ l.length + 1 := by
      apply length_le hd (u := (buffer.drop (srcp + t.length)).take f.len ++ rest) (x := x)
      rw [← heq, hbytes, ← hw]
      simp only [List.append_assoc]
    omega
  | reread hstop hzero hsrcp hw hd hfit hflag' =>
    rw [hzero, List.take_zero, List.append_nil] at hbytes
    exact .inr ⟨hstop, hsrcp, by rw [hbytes, hw], hd, hflag'⟩

theorem exists_rest (hw : Unbroken w) (heq : w ++ rest = l ++ [cr, lf] ++ x) :
    ∃ v, v ≠ [] ∧ w ++ v = l ++ [cr, lf] ∧ rest = v ++ x := by
  have hle := length_le hw heq
  obtain ⟨v, hv⟩ := List.prefix_of_prefix_length_le ⟨rest, heq⟩ (List.prefix_append _ x)
    (show w.length ≤ (l ++ [cr, lf]).length by simpa using Nat.le_succ_of_le hle)
  refine ⟨v, ?_, hv, ?_⟩
  · rintro rfl
    have hlen := congrArg List.length hv
    simp only [List.append_nil, List.length_append, List.length_cons, List.length_nil] at hlen
    omega
  · rw [← hv, List.append_assoc] at heq
    exact List.append_cancel_left heq

theorem not_atLineEnd (hls : l :: ls <:+ lines) {v : List UInt8} (hv : v ≠ [])
    (hlt : v.length < l.length + 2) (hsocket : socket.flatten = v ++ encode ls) :
    atLineEnd lines socket = false := by
  refine Bool.eq_false_iff.mpr fun hend => ?_
  obtain ⟨ls', hls', heq⟩ := atLineEnd_iff.mp hend
  exact encode_ne_of_lt hls hls' hv hlt (hsocket.symm.trans heq)

theorem exists_readOn (hls : l :: ls <:+ lines) (hl : Unbroken l) (hroom : l.length + 1 < room)
    (hbuffer : buffer.length = socketBufferSize)
    (hchunks : ∀ chunk ∈ socket, chunk ≠ [] ∧ chunk.length ≤ socketBufferSize)
    (hw : Unbroken w) (hflag : FlagOf flag w) (hne : w ≠ [])
    (heq : w ++ socket.flatten = l ++ [cr, lf] ++ encode ls) :
    ∃ r', readOn room buffer 0 w flag socket = some ⟨l, true, r'⟩ ∧ Ahead r' (encode ls) ∧
      r'.Fits ∧ (Rereads lines buffer next socket ↔
        Rereads lines r'.buffer (r'.srcp + r'.len) r'.socket) := by
  induction socket generalizing buffer next w flag with
  | nil =>
    obtain ⟨v, hv, -, hrest⟩ := exists_rest hw heq
    exact absurd (List.append_eq_nil_iff.mp hrest.symm).1 hv
  | cons chunk socket ih =>
    obtain ⟨v, hv, hwv, hrest⟩ := exists_rest hw heq
    have hpos : 0 < w.length := List.length_pos_iff.mpr hne
    have hlenv := congrArg List.length hwv
    simp only [List.length_append, List.length_cons, List.length_nil] at hlenv
    have hmiddle := not_atLineEnd hls hv (by omega) hrest
    obtain ⟨hchunk, hsize⟩ := hchunks chunk List.mem_cons_self
    have hfilled : (chunk ++ buffer.drop chunk.length).length = socketBufferSize := by
      simp only [List.length_append, List.length_drop]
      omega
    have hread : (((chunk ++ buffer.drop chunk.length).drop 0).take chunk.length) = chunk := by
      simp
    have hrereads : Rereads lines buffer next (chunk :: socket) ↔
        Rereads lines (chunk ++ buffer.drop chunk.length) (0 + chunk.length) socket := by
      simp only [Rereads, hmiddle, Bool.false_eq_true, if_false, hread, true_and]
    have hchunks' : ∀ chunk ∈ socket, chunk ≠ [] ∧ chunk.length ≤ socketBufferSize :=
      fun chunk' hmem => hchunks chunk' (List.mem_cons_of_mem _ hmem)
    rw [List.flatten_cons, ← List.append_assoc] at heq
    have hbounds : 0 + chunk.length ≤ (chunk ++ buffer.drop chunk.length).length := by
      rw [hfilled]
      omega
    obtain ⟨f, hf, hstop⟩ := exists_fill hflag hw hl hroom hbounds (by rwa [hread])
    rw [readOn, if_neg hchunk]
    simp only [hf]
    obtain ⟨hend, hline, hplace, hahead⟩ | ⟨hend, hsrcp, hdst, hunbroken, hflag'⟩ := hstop
    · refine ⟨⟨chunk ++ buffer.drop chunk.length, f.len, f.srcp, socket⟩, ?_, ⟨hahead, ?_⟩,
        ⟨hchunks', hfilled⟩, ?_⟩
      · rw [hend, hline]
        rfl
      · rw [hplace, hfilled]
        omega
      · rw [hrereads, hplace]
    · rw [hend, if_pos rfl, hsrcp]
      rw [hread] at hdst
      rw [hdst] at hunbroken hflag' ⊢
      obtain ⟨r', hcall, hahead, hfits, hiff⟩ := ih hfilled hchunks' hunbroken hflag'
        (List.append_ne_nil_of_left_ne_nil hne chunk) heq
      exact ⟨r', hcall, hahead, hfits, hrereads.trans hiff⟩

/-- A call with bytes left that begins a line. -/
theorem exists_getOneline {size : UInt32} (hls : l :: ls <:+ lines) (hl : Unbroken l)
    (hroom : l.length + 1 < (size - 1).toNat) (hfits : r.Fits) (hlen : r.len ≠ 0)
    (hahead : Ahead r (encode (l :: ls))) :
    ∃ r', getOneline size r = some ⟨l, true, r'⟩ ∧ Ahead r' (encode ls) ∧ r'.Fits ∧
      (Rereads lines r.buffer (r.srcp + r.len) r.socket ↔
        Rereads lines r'.buffer (r'.srcp + r'.len) r'.socket) := by
  obtain ⟨heq, hbounds⟩ := hahead
  have hstream : (r.buffer.drop r.srcp).take r.len ++ r.socket.flatten =
      l ++ [cr, lf] ++ encode ls := by
    rw [heq, encode_cons, List.append_assoc]
    rfl
  obtain ⟨f, hf, hstop⟩ := exists_fill flagOf_nil unbroken_nil hl hroom hbounds
    (by rwa [List.nil_append])
  rw [getOneline, if_neg hlen]
  simp only [hf]
  obtain ⟨hend, hline, hplace, hrest⟩ | ⟨hend, hsrcp, hdst, hunbroken, hflag⟩ := hstop
  · refine ⟨⟨r.buffer, f.len, f.srcp, r.socket⟩, ?_, ⟨hrest, hplace.trans_le hbounds⟩,
      ⟨hfits.chunks, hfits.buffer⟩, ?_⟩
    · rw [hend, hline]
      rfl
    · rw [hplace]
  · rw [List.nil_append] at hdst
    have hne : (r.buffer.drop r.srcp).take r.len ≠ [] := by
      refine List.length_pos_iff.mp ?_
      rw [List.length_take, List.length_drop]
      omega
    rw [hend, if_pos rfl, hsrcp]
    rw [hdst] at hunbroken hflag ⊢
    exact exists_readOn hls hl hroom hfits.buffer hfits.chunks hunbroken hflag hne hstream

def Reader.behind (r : Reader) : ℕ := r.len + r.socket.flatten.length

/-- What a call makes of `n` bytes, of which the first are `w`: a line and its end, a line that has
no room for its end, or what is there before the socket ends. -/
inductive Counts (room : ℕ) (w : List UInt8) (n : ℕ) (call : Call) : Prop where
  | line : call.ended = true → w <+: call.line ++ [cr, lf] → call.line.length + 1 < room →
      n = call.line.length + 2 + call.reader.behind → Counts room w n call
  | full : call.ended = true → n = call.line.length + call.reader.behind → Counts room w n call
  | closed : call.ended = false → n = call.line.length → Counts room w n call

theorem counts_readOn {call : Call} (hflag : FlagOf flag w) (hw : Unbroken w)
    (hchunks : ∀ chunk ∈ socket, chunk ≠ [])
    (h : readOn room buffer srcp w flag socket = some call) :
    Counts room w (w.length + socket.flatten.length) call ∧ call.reader.socket <:+ socket := by
  induction socket generalizing buffer srcp w flag with
  | nil =>
    obtain rfl := Option.some.inj h
    exact ⟨.closed rfl (by simp), List.suffix_refl _⟩
  | cons chunk socket ih =>
    rw [readOn, if_neg (hchunks chunk List.mem_cons_self)] at h
    cases hf : fill room (chunk ++ buffer.drop chunk.length) chunk.length srcp w flag with
    | none =>
      simp only [hf] at h
      cases h
    | some f =>
      obtain ⟨t, -, hlen, hfills⟩ := fills_of_fill hflag hw hf
      simp only [hf] at h
      cases hfills with
      | line hstop hsrcp hwhole hd hfit =>
        rw [hstop] at h
        obtain rfl := Option.some.inj h
        have hcount := congrArg List.length hwhole
        simp only [List.length_append, List.length_cons, List.length_nil] at hcount
        refine ⟨.line rfl ⟨t, hwhole⟩ hfit ?_, List.suffix_cons _ _⟩
        simp only [Reader.behind, List.flatten_cons, List.length_append]
        omega
      | full hstop hsrcp hwhole hd hfull =>
        rw [hstop] at h
        obtain rfl := Option.some.inj h
        have hcount := congrArg List.length hwhole
        simp only [List.length_append] at hcount
        refine ⟨.full rfl ?_, List.suffix_cons _ _⟩
        simp only [Reader.behind, List.flatten_cons, List.length_append]
        omega
      | reread hstop hzero hsrcp hwhole hd hfit hflag' =>
        rw [hstop, if_pos rfl] at h
        obtain ⟨hcounts, hsuffix⟩ := ih hflag' hd
          (fun chunk' hmem => hchunks chunk' (List.mem_cons_of_mem _ hmem)) h
        refine ⟨?_, hsuffix.trans (List.suffix_cons _ _)⟩
        have hcount := congrArg List.length hwhole
        simp only [List.length_append] at hcount
        have hsum : f.dst.length + socket.flatten.length =
            w.length + (chunk :: socket).flatten.length := by
          simp only [List.flatten_cons, List.length_append]
          omega
        rw [hsum] at hcounts
        cases hcounts with
        | line hended hbegin hroom hn =>
          exact .line hended ((List.prefix_append w t).trans (hwhole ▸ hbegin)) hroom hn
        | full hended hn => exact .full hended hn
        | closed hended hn => exact .closed hended hn

theorem getOneline_cases {size : UInt32} {call : Call} (hchunks : ∀ chunk ∈ r.socket, chunk ≠ [])
    (hlen : r.len ≠ 0) (h : getOneline size r = some call) :
    ∃ t, (r.buffer.drop r.srcp).take t.length = t ∧ t.length ≤ r.len ∧
      ((call.ended = true ∧ call.reader =
          ⟨r.buffer, r.len - t.length, r.srcp + t.length, r.socket⟩ ∧
          (t = call.line ++ [cr, lf] ∧ call.line.length + 1 < (size - 1).toNat ∨
            t = call.line)) ∨
        (t.length = r.len ∧ Counts (size - 1).toNat t r.behind call ∧
          call.reader.socket <:+ r.socket)) := by
  rw [getOneline, if_neg hlen] at h
  cases hf : fill (size - 1).toNat r.buffer r.len r.srcp [] false with
  | none =>
    simp only [hf] at h
    cases h
  | some f =>
    obtain ⟨t, hread, hsum, hfills⟩ := fills_of_fill flagOf_nil unbroken_nil hf
    have hrest : f.len = r.len - t.length := by omega
    refine ⟨t, hread, by omega, ?_⟩
    simp only [hf] at h
    rw [List.nil_append] at hfills
    cases hfills with
    | line hstop hsrcp hwhole hd hfit =>
      rw [hstop] at h
      obtain rfl := Option.some.inj h
      exact .inl ⟨rfl, by rw [hsrcp, hrest], .inl ⟨hwhole, hfit⟩⟩
    | full hstop hsrcp hwhole hd hfull =>
      rw [hstop] at h
      obtain rfl := Option.some.inj h
      exact .inl ⟨rfl, by rw [hsrcp, hrest], .inr hwhole⟩
    | reread hstop hzero hsrcp hwhole hd hfit hflag' =>
      rw [hstop, if_pos rfl, ← hwhole] at h
      rw [← hwhole] at hd hflag'
      obtain ⟨hcounts, hsuffix⟩ := counts_readOn hflag' hd hchunks h
      have hall : t.length = r.len := by omega
      rw [hall] at hcounts
      exact .inr ⟨hall, hcounts, hsuffix⟩

theorem counts_getOneline {size : UInt32} {call : Call}
    (hchunks : ∀ chunk ∈ r.socket, chunk ≠ []) (h : getOneline size r = some call) :
    ∃ w, Counts (size - 1).toNat w r.behind call ∧ call.reader.socket <:+ r.socket := by
  by_cases hlen : r.len = 0
  · rw [getOneline, if_pos hlen] at h
    obtain ⟨hcounts, hsuffix⟩ := counts_readOn flagOf_nil unbroken_nil hchunks h
    refine ⟨[], ?_, hsuffix⟩
    rwa [Reader.behind, hlen]
  · obtain ⟨t, -, hle, ⟨hended, hreader, hline⟩ | ⟨-, hcounts⟩⟩ :=
      getOneline_cases hchunks hlen h
    · refine ⟨[], ?_, by rw [hreader]⟩
      have hbehind : r.behind = t.length + call.reader.behind := by
        simp only [hreader, Reader.behind]
        omega
      obtain ⟨rfl, hroom⟩ | rfl := hline
      · refine .line hended (List.nil_prefix) hroom ?_
        simpa [Nat.add_assoc] using hbehind
      · exact .full hended hbehind
    · exact ⟨t, hcounts⟩

end Loops

section Runs

variable {size : UInt32} {l : List UInt8} {lines ls : List (List UInt8)} {r : Reader}

theorem behind_le (hchunks : ∀ chunk ∈ r.socket, chunk ≠ []) (h : Delivers size ls r) :
    r.behind ≤ (encode ls).length := by
  induction ls generalizing r with
  | nil =>
    obtain ⟨r', hcall⟩ := h
    obtain ⟨w, hcounts, -⟩ := counts_getOneline hchunks hcall
    cases hcounts with
    | line hended => cases hended
    | full hended => cases hended
    | closed hended hn => exact hn.le
  | cons l ls ih =>
    obtain ⟨r', hcall, hrest⟩ := h
    obtain ⟨w, hcounts, hsuffix⟩ := counts_getOneline hchunks hcall
    have hle : r'.behind ≤ (encode ls).length :=
      ih (fun chunk hmem => hchunks chunk (hsuffix.subset hmem)) hrest
    simp only [encode_cons, List.length_append, List.length_cons]
    cases hcounts with
    | line hended hbegin hroom hn =>
      have hn' : r.behind = l.length + 2 + r'.behind := hn
      omega
    | full hended hn =>
      have hn' : r.behind = l.length + r'.behind := hn
      omega
    | closed hended => cases hended

/-- If there are as many bytes as the lines have, the bytes that are left begin the lines. -/
theorem take_of_delivers (hchunks : ∀ chunk ∈ r.socket, chunk ≠ []) (h : Delivers size ls r)
    (hbehind : r.behind = (encode ls).length) :
    (r.buffer.drop r.srcp).take r.len = (encode ls).take r.len := by
  induction ls generalizing r with
  | nil =>
    have hlen : r.len = 0 := by
      rw [encode_nil, List.length_nil, Reader.behind] at hbehind
      omega
    rw [hlen, List.take_zero, List.take_zero]
  | cons l ls ih =>
    by_cases hlen : r.len = 0
    · rw [hlen, List.take_zero, List.take_zero]
    have hencode : encode (l :: ls) = l ++ [cr, lf] ++ encode ls := by simp
    have hsize : (encode (l :: ls)).length = l.length + 2 + (encode ls).length := by
      simp only [hencode, List.length_append, List.length_cons, List.length_nil]
    obtain ⟨r', hcall, hrest⟩ := h
    obtain ⟨t, hread, hle, ⟨-, hreader, hline⟩ | ⟨hall, hcounts, hsuffix⟩⟩ :=
      getOneline_cases hchunks hlen hcall
    · have hreader' : r' = ⟨r.buffer, r.len - t.length, r.srcp + t.length, r.socket⟩ := hreader
      have hsum : r.behind = t.length + r'.behind := by
        simp only [hreader', Reader.behind]
        omega
      have hchunks' : ∀ chunk ∈ r'.socket, chunk ≠ [] := by rwa [hreader']
      have hle' := behind_le hchunks' hrest
      obtain ⟨hline', -⟩ | hline' := hline
      · have hsize' := congrArg List.length hline'
        simp only [List.length_append, List.length_cons, List.length_nil] at hsize'
        have htail := ih hchunks' hrest (by omega)
        rw [hreader'] at htail
        have hlen' : r.len = t.length + (r.len - t.length) := by omega
        calc (r.buffer.drop r.srcp).take r.len
            = t ++ (r.buffer.drop (r.srcp + t.length)).take (r.len - t.length) := by
              conv_lhs => rw [hlen', List.take_add, List.drop_drop, hread]
          _ = t ++ (encode ls).take (r.len - t.length) := by rw [htail]
          _ = (encode (l :: ls)).take r.len := by
              conv_rhs => rw [hlen', hencode, ← hline', List.take_length_add_append]
      · have hline'' := congrArg List.length hline'
        simp only at hline''
        omega
    · have hle' : r'.behind ≤ (encode ls).length :=
        behind_le (fun chunk hmem => hchunks chunk (hsuffix.subset hmem)) hrest
      cases hcounts with
      | line hended hbegin hroom hn =>
        have hbegin' : t <+: encode (l :: ls) := hencode ▸ hbegin.trans (List.prefix_append _ _)
        rw [← hall, hread]
        exact List.prefix_iff_eq_take.mp hbegin'
      | full hended hn =>
        have hn' : r.behind = l.length + r'.behind := hn
        omega
      | closed hended => cases hended

/-- A call at the end of a line with no bytes left reads the next chunk, and goes on as if it had
been read before. -/
theorem exists_load (size : UInt32) (hls : l :: ls <:+ lines) (hfits : r.Fits)
    (hlen : r.len = 0) (hsocket : r.socket.flatten = encode (l :: ls)) :
    ∃ r' : Reader, r'.Fits ∧ r'.len ≠ 0 ∧
      r'.behind = r.behind ∧ (Delivers size (l :: ls) r ↔ Delivers size (l :: ls) r') ∧
      (Rereads lines r.buffer (r.srcp + r.len) r.socket ↔
        (r'.buffer.drop r'.srcp).take r'.len = (encode (l :: ls)).take r'.len ∧
          Rereads lines r'.buffer (r'.srcp + r'.len) r'.socket) ∧
      ((r'.buffer.drop r'.srcp).take r'.len = (encode (l :: ls)).take r'.len →
        Ahead r' (encode (l :: ls))) := by
  obtain ⟨buffer, len, srcp, socket⟩ := r
  simp only at hlen hsocket
  subst hlen
  cases socket with
  | nil =>
    rw [List.flatten_nil, encode_cons] at hsocket
    exact absurd (List.append_eq_nil_iff.mp hsocket.symm).2 (List.cons_ne_nil _ _)
  | cons chunk socket =>
    obtain ⟨hchunk, hsize⟩ := hfits.chunks chunk List.mem_cons_self
    have hbuffer : buffer.length = socketBufferSize := hfits.buffer
    have hpos : chunk.length ≠ 0 := fun hzero => hchunk (List.length_eq_zero_iff.mp hzero)
    have hfilled : (chunk ++ buffer.drop chunk.length).length = socketBufferSize := by
      simp only [List.length_append, List.length_drop]
      omega
    have htake : (encode (l :: ls)).take chunk.length = chunk := by
      rw [← hsocket, List.flatten_cons, List.take_left]
    have hend : atLineEnd lines (chunk :: socket) = true :=
      atLineEnd_iff.mpr ⟨l :: ls, hls, hsocket⟩
    refine ⟨⟨chunk ++ buffer.drop chunk.length, chunk.length, srcp, socket⟩,
      ⟨fun chunk' hmem => hfits.chunks chunk' (List.mem_cons_of_mem _ hmem), hfilled⟩, hpos,
      ?_, ?_, ?_, fun hread => ⟨?_, ?_⟩⟩
    · simp [Reader.behind]
    · simp only [Delivers, getOneline, readOn, hchunk, hpos, if_true, if_false]
    · simp only [Rereads, hend, if_true, htake, Nat.add_zero]
    · simp only [hread, htake]
      rw [← hsocket, List.flatten_cons]
    · have hcount := congrArg List.length (hread.trans htake)
      simp only [List.length_take, List.length_drop] at hcount ⊢
      omega

theorem closed_of_ahead (hfits : r.Fits) (h : Ahead r []) : r.len = 0 ∧ r.socket = [] := by
  obtain ⟨hbytes, hbounds⟩ := h
  obtain ⟨hleft, hflat⟩ := List.append_eq_nil_iff.mp hbytes
  constructor
  · have hcount := congrArg List.length hleft
    simp only [List.length_take, List.length_drop, List.length_nil] at hcount
    omega
  · refine List.eq_nil_iff_forall_not_mem.mpr fun chunk hmem => ?_
    exact (hfits.chunks chunk hmem).1 (List.flatten_eq_nil_iff.mp hflat chunk hmem)

/-- Where the bytes are those of the lines, the calls deliver the lines if each has room and all
chunks are found. -/
theorem delivers_of_rereads (hlines : ∀ l ∈ ls, Unbroken l ∧ l.length + 1 < (size - 1).toNat)
    (hls : ls <:+ lines) (hfits : r.Fits) (hahead : Ahead r (encode ls))
    (h : Rereads lines r.buffer (r.srcp + r.len) r.socket) : Delivers size ls r := by
  induction ls generalizing r with
  | nil =>
    obtain ⟨hlen, hsocket⟩ := closed_of_ahead hfits hahead
    exact ⟨_, by rw [getOneline, if_pos hlen, hsocket]; rfl⟩
  | cons l ls ih =>
    obtain ⟨hl, hroom⟩ := hlines l List.mem_cons_self
    have hlines' : ∀ l ∈ ls, Unbroken l ∧ l.length + 1 < (size - 1).toNat :=
      fun l hmem => hlines l (List.mem_cons_of_mem _ hmem)
    have hls' : ls <:+ lines := (List.suffix_cons l ls).trans hls
    have hleft : ∀ r : Reader, r.Fits → r.len ≠ 0 → Ahead r (encode (l :: ls)) →
        Rereads lines r.buffer (r.srcp + r.len) r.socket → Delivers size (l :: ls) r := by
      intro r hfits hlen hahead h
      obtain ⟨r', hcall, hahead', hfits', hiff⟩ :=
        exists_getOneline hls hl hroom hfits hlen hahead
      exact ⟨r', hcall, ih hlines' hls' hfits' hahead' (hiff.mp h)⟩
    by_cases hlen : r.len = 0
    · have hsocket : r.socket.flatten = encode (l :: ls) := by
        simpa only [hlen, List.take_zero, List.nil_append] using hahead.1
      obtain ⟨r', hfits', hlen', -, hdelivers, hrereads, hahead'⟩ :=
        exists_load size hls hfits hlen hsocket
      obtain ⟨hread, hrest⟩ := hrereads.mp h
      exact hdelivers.mpr (hleft r' hfits' hlen' (hahead' hread) hrest)
    · exact hleft r hfits hlen hahead h

theorem behind_of_ahead {bytes : List UInt8} (h : Ahead r bytes) : r.behind = bytes.length := by
  obtain ⟨rfl, hbounds⟩ := h
  simp only [Reader.behind, List.length_append, List.length_take, List.length_drop]
  omega

/-- Where the bytes are those of the lines and the calls deliver the lines, each line has room and
all chunks are found. -/
theorem rereads_of_delivers (hlines : ∀ l ∈ ls, Unbroken l) (hls : ls <:+ lines) (hfits : r.Fits)
    (hahead : Ahead r (encode ls)) (h : Delivers size ls r) :
    (∀ l ∈ ls, l.length + 1 < (size - 1).toNat) ∧
      Rereads lines r.buffer (r.srcp + r.len) r.socket := by
  induction ls generalizing r with
  | nil =>
    obtain ⟨-, hsocket⟩ := closed_of_ahead hfits hahead
    rw [hsocket]
    exact ⟨fun l hmem => absurd hmem (List.not_mem_nil), trivial⟩
  | cons l ls ih =>
    have hleft : ∀ r : Reader, r.Fits → r.len ≠ 0 → Ahead r (encode (l :: ls)) →
        Delivers size (l :: ls) r → (∀ l' ∈ l :: ls, l'.length + 1 < (size - 1).toNat) ∧
          Rereads lines r.buffer (r.srcp + r.len) r.socket := by
      intro r hfits hlen hahead h
      have hchunks : ∀ chunk ∈ r.socket, chunk ≠ [] :=
        fun chunk hmem => (hfits.chunks chunk hmem).1
      have hbehind := behind_of_ahead hahead
      obtain ⟨r', hcall, hrest⟩ := h
      obtain ⟨w, hcounts, hsuffix⟩ := counts_getOneline hchunks hcall
      have hle : r'.behind ≤ (encode ls).length :=
        behind_le (fun chunk hmem => hchunks chunk (hsuffix.subset hmem)) hrest
      have hroom : l.length + 1 < (size - 1).toNat := by
        cases hcounts with
        | line hended hbegin hroom hn => exact hroom
        | full hended hn =>
          have hn' : r.behind = l.length + r'.behind := hn
          simp only [encode_cons, List.length_append, List.length_cons] at hbehind
          omega
        | closed hended => cases hended
      obtain ⟨r'', hcall', hahead', hfits', hiff⟩ :=
        exists_getOneline hls (hlines l List.mem_cons_self) hroom hfits hlen hahead
      have hcall'' := Option.some.inj (hcall.symm.trans hcall')
      obtain rfl : r' = r'' := congrArg Call.reader hcall''
      obtain ⟨hrooms, hrereads⟩ := ih (fun l hmem => hlines l (List.mem_cons_of_mem _ hmem))
        ((List.suffix_cons l ls).trans hls) hfits' hahead' hrest
      exact ⟨List.forall_mem_cons.mpr ⟨hroom, hrooms⟩, hiff.mpr hrereads⟩
    by_cases hlen : r.len = 0
    · have hsocket : r.socket.flatten = encode (l :: ls) := by
        simpa only [hlen, List.take_zero, List.nil_append] using hahead.1
      obtain ⟨r', hfits', hlen', hbehind, hdelivers, hrereads, hahead'⟩ :=
        exists_load size hls hfits hlen hsocket
      have hread := take_of_delivers (fun chunk hmem => (hfits'.chunks chunk hmem).1)
        (hdelivers.mp h) (hbehind.trans (behind_of_ahead hahead))
      obtain ⟨hroom, hrest⟩ := hleft r' hfits' hlen' (hahead' hread) (hdelivers.mp h)
      exact ⟨hroom, hrereads.mpr ⟨hread, hrest⟩⟩
    · exact hleft r hfits hlen hahead h

/-- Where a chunk follows on whole lines, reading goes on behind the chunk before it. -/
theorem delivers_iff {chunks : List (List UInt8)}
    (hlines : ∀ l ∈ lines, Unbroken l ∧ l.length < size.toNat)
    (hchunks : ∀ chunk ∈ chunks, chunk ≠ [] ∧ chunk.length ≤ socketBufferSize)
    (hstream : chunks.flatten = encode lines) : Delivers size lines (.start chunks) ↔
      (∀ l ∈ lines, l.length + 2 < size.toNat) ∧
        Rereads lines (List.replicate socketBufferSize 0) 0 chunks := by
  have hfits : (Reader.start chunks).Fits := ⟨hchunks, List.length_replicate⟩
  have hahead : Ahead (.start chunks) (encode lines) := ⟨hstream, Nat.zero_le _⟩
  have hroom : ∀ l ∈ lines, l.length + 1 < (size - 1).toNat ↔ l.length + 2 < size.toNat := by
    intro l hmem
    have hpos := (hlines l hmem).2
    have hone : (1 : UInt32) ≤ size := UInt32.le_iff_toNat_le.mpr (Nat.one_le_of_lt hpos)
    have hsub : (size - 1).toNat = size.toNat - 1 := UInt32.toNat_sub_of_le _ _ hone
    omega
  constructor
  · intro h
    obtain ⟨hrooms, hrereads⟩ := rereads_of_delivers (fun l hmem => (hlines l hmem).1)
      (List.suffix_refl lines) hfits hahead h
    exact ⟨fun l hmem => (hroom l hmem).mp (hrooms l hmem), hrereads⟩
  · rintro ⟨hrooms, hrereads⟩
    have hfit : ∀ l ∈ lines, Unbroken l ∧ l.length + 1 < (size - 1).toNat :=
      fun l hmem => ⟨(hlines l hmem).1, (hroom l hmem).mpr (hrooms l hmem)⟩
    exact delivers_of_rereads hfit (List.suffix_refl lines) hfits hahead hrereads

/-- In the middle of a line reading goes on at the start of the buffer. -/
theorem rereads_of_not_atLineEnd {chunks : List (List UInt8)}
    (h : ∀ socket, socket <:+ chunks → socket ≠ [] → atLineEnd lines socket = false)
    (buffer : List UInt8) (next : ℕ) : Rereads lines buffer next chunks := by
  induction chunks generalizing buffer next with
  | nil => trivial
  | cons chunk chunks ih =>
    have hmiddle := h _ (List.suffix_refl _) (List.cons_ne_nil _ _)
    simp only [Rereads, hmiddle, Bool.false_eq_true, if_false, List.drop_zero, List.take_left,
      true_and]
    exact ih (fun socket hsuffix => h socket (hsuffix.trans (List.suffix_cons _ _))) _ _

/-- All chunks are found if none but the last ends with a line. -/
theorem rereads_of_broken {chunks : List (List UInt8)}
    (h : ∀ socket, socket <:+ chunks → socket ≠ [] → socket ≠ chunks →
      atLineEnd lines socket = false) (buffer : List UInt8) : Rereads lines buffer 0 chunks := by
  cases chunks with
  | nil => trivial
  | cons chunk chunks =>
    simp only [Rereads, ite_self, List.drop_zero, List.take_left, true_and]
    refine rereads_of_not_atLineEnd (fun socket hsuffix hne => ?_) _ _
    refine h socket (hsuffix.trans (List.suffix_cons _ _)) hne fun heq => ?_
    exact absurd hsuffix.length_le (by rw [heq, List.length_cons]; omega)

def twoLines : List (List UInt8) := [[97], [98]]

def brokenChunks : List (List UInt8) := [[97], [13, 10, 98, 13], [10]]

theorem delivers_iff_broken : Delivers 512 twoLines (.start brokenChunks) ↔
    (∀ l ∈ twoLines, l.length + 2 < (512 : UInt32).toNat) ∧
      Rereads twoLines (List.replicate socketBufferSize 0) 0 brokenChunks :=
  delivers_iff (by decide) (by decide) (by decide)

def wholeChunks : List (List UInt8) := [[97, 13, 10], [98, 13, 10]]

/-- The second call reads behind the second chunk. -/
theorem not_delivers_whole : ¬ Delivers 512 twoLines (.start wholeChunks) := by
  rintro ⟨r, hfirst, r', hsecond, -⟩
  have hr : r = ((getOneline 512 (.start wholeChunks)).map Call.reader).getD (.start []) := by
    rw [hfirst]
    rfl
  subst hr
  have hline : (getOneline 512 (((getOneline 512 (.start wholeChunks)).map Call.reader).getD
      (.start []))).map Call.line = some [98] := congrArg (Option.map Call.line) hsecond
  exact absurd hline (by decide +kernel)

end Runs

end OpenvpnLines
