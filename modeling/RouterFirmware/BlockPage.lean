import RouterFirmware.OnesComplement
import RouterFirmware.UrlFilter

/-! # The page of the content filter

The answer to a blocked request is written over a copy of the packet, which keeps its length.
-/
namespace BlockPage

open OnesComplement
open UrlFilter (bytes put)

inductive Fault where
  | writePastEnd
  deriving DecidableEq

def write (skb : List UInt8) (i : ℕ) (w : List UInt8) : Except Fault (List UInt8) :=
  if i + w.length ≤ skb.length then .ok (put skb i w) else .error .writePastEnd

def slice (skb : List UInt8) (i n : ℕ) : List UInt8 := (skb.drop i).take n

def be (w : List UInt8) : ℕ := w.foldl (fun n c => 256 * n + c.toNat) 0

def be16 (n : ℕ) : List UInt8 := [UInt8.ofNat (n / 2 ^ 8), UInt8.ofNat n]

def be32 (n : ℕ) : List UInt8 := be16 (n / 2 ^ 16) ++ be16 n

/-- `csum_partial`, which ends with a fold. It adds words of 32 bits where these are words of 16. -/
def csumPartial (buff : List UInt8) (sum : ℕ) : ℕ := addCarry (fold (addWords 0 buff)) sum

def csumFold (sum : ℕ) : ℕ := 65535 - fold sum

/-- `csum_tcpudp_nofold` with 64 bits, which loses the carry of its last addition. -/
def csumTcpudpNofold (saddr daddr len proto sum : ℕ) : ℕ :=
  let sum := sum + saddr + daddr + (proto * 2 ^ 16 + len)
  (sum % 2 ^ 32 + sum / 2 ^ 32) % 2 ^ 32

def csumTcpudpMagic (saddr daddr len proto sum : ℕ) : ℕ :=
  csumFold (csumTcpudpNofold saddr daddr len proto sum)

def ipFastCsum (iph : List UInt8) : ℕ := csumFold (addWords 0 iph)

def blockInfo : List UInt8 :=
  bytes "<html>\n<head>\n  <title></title>\n" ++
    bytes "</head>\n<body bgcolor=\"ffffff\">\n  <h2><h2>\n" ++
    bytes "  <p>\n  This URLs or Page has been blocked. \n</body>\n</html>\n"

def blockHtm : List UInt8 :=
  bytes "HTTP/1.1 200 OK\r\n" ++ bytes "Content-type: text/html\r\n" ++
    bytes "Pragma: no cache\r\n" ++
    (bytes "Content-length: " ++ bytes (toString blockInfo.length) ++ bytes "\r\n") ++
    bytes "Connection: close\r\n\r\n" ++ blockInfo

def ihl (skb : List UInt8) : ℕ := (skb.getD 0 0).toNat % 16

def tcph (skb : List UInt8) : ℕ := 4 * ihl skb

def doff (skb : List UInt8) : ℕ := (skb.getD (tcph skb + 12) 0).toNat / 16

def datalen (skb : List UInt8) : ℕ := skb.length - 4 * ihl skb - 4 * doff skb

def fillIpHeader (skb mc : List UInt8) : Except Fault (List UInt8) := do
  let mc ← write mc 12 (slice skb 16 4)
  let mc ← write mc 16 (slice skb 12 4)
  let mc ← write mc 8 [127]
  let mc ← write mc 10 [0, 0]
  write mc 10 (be16 (ipFastCsum (mc.take (tcph skb))))

/-- The TCP header of the copy, without the check. The flags are `ACK` and `PSH`. -/
def fillTcpHeader (skb mc : List UInt8) : Except Fault (List UInt8) := do
  let tcph := tcph skb
  let mc ← write mc tcph (slice skb (tcph + 2) 2)
  let mc ← write mc (tcph + 2) (slice skb tcph 2)
  let mc ← write mc (tcph + 12) [0, 0x18, 0, 0]
  let mc ← write mc (tcph + 4) (slice skb (tcph + 8) 4)
  let mc ← write mc (tcph + 12) [0x50]
  write mc (tcph + 8) (be32 (be (slice skb (tcph + 4) 4) + datalen skb))

/-- The check of the copy, over as many bytes as the payload has. -/
def pageCheck (skb mc : List UInt8) : ℕ :=
  csumTcpudpMagic (be (slice mc 12 4)) (be (slice mc 16 4)) (datalen skb) 6
    (csumPartial (slice mc (tcph skb) (datalen skb)) 0)

/-- `nk_return_url_block`: the packet that is sent. -/
def nkReturnUrlBlock (skb : List UInt8) : Except Fault (List UInt8) := do
  let mc ← write skb (tcph skb + 4 * doff skb) (List.replicate (datalen skb) 0)
  let mc ← fillIpHeader skb mc
  let mc ← fillTcpHeader skb mc
  let mc ← write mc (tcph skb + 20) blockHtm
  write mc (tcph skb + 16) (be16 (pageCheck skb mc))

/-- A TCP packet with a payload that the filter looks at. -/
structure Packet where
  skb : List UInt8
  ip : 5 ≤ ihl skb
  tcp : tcph skb + 20 ≤ skb.length
  payload : tcph skb + 4 * doff skb + 10 ≤ skb.length
  short : skb.length < 2 ^ 16

/-- The check of the receiver, over addresses, protocol, length and segment. -/
def ChecksumOk (skb : List UInt8) : Prop :=
  fold (addWords 0 (slice skb 12 4 ++ slice skb 16 4 ++ [0, 6] ++
    be16 (skb.length - tcph skb) ++ skb.drop (tcph skb))) = 65535

def seq (skb : List UInt8) : ℕ := be (slice skb (tcph skb + 4) 4)

def ackSeq (skb : List UInt8) : ℕ := be (slice skb (tcph skb + 8) 4)

/-! ## Writes -/

section Writes

variable {a b w : List UInt8} {i j n : ℕ}

theorem length_put (h : i + w.length ≤ a.length) : (put a i w).length = a.length := by
  simp only [put, List.length_append, List.length_take, List.length_drop]
  omega

theorem length_slice (h : i + n ≤ a.length) : (slice a i n).length = n := by
  simp only [slice, List.length_take, List.length_drop]
  omega

theorem drop_put (h : i + w.length ≤ a.length) (hj : i + w.length ≤ j) :
    (put a i w).drop j = a.drop j := by
  have hfront : (a.take i ++ w).length = i + w.length := by
    rw [List.length_append, List.length_take, Nat.min_eq_left (by omega)]
  obtain ⟨k, rfl⟩ := Nat.exists_eq_add_of_le hj
  rw [put, ← hfront, List.drop_length_add_append, List.drop_drop]

theorem slice_put_before (h : i + w.length ≤ a.length) (hj : j + n ≤ i) :
    slice (put a i w) j n = slice a j n := by
  have hfront : (a.take i).length = i := by
    rw [List.length_take, Nat.min_eq_left (by omega)]
  rw [slice, slice, put, List.append_assoc, List.drop_append_of_le_length (by omega),
    List.take_append_of_le_length (by rw [List.length_drop]; omega), List.drop_take,
    List.take_take, Nat.min_eq_left (by omega)]

theorem slice_put_behind (h : i + w.length ≤ a.length) (hj : i + w.length ≤ j) :
    slice (put a i w) j n = slice a j n := by
  rw [slice, slice, drop_put h hj]

theorem slice_put_of_disjoint (h : i + w.length ≤ a.length)
    (hj : j + n ≤ i ∨ i + w.length ≤ j) : slice (put a i w) j n = slice a j n := by
  obtain hj | hj := hj
  · exact slice_put_before h hj
  · exact slice_put_behind h hj

theorem slice_put_self (h : i + w.length ≤ a.length) : slice (put a i w) i w.length = w := by
  have hfront : (a.take i).length = i := by
    rw [List.length_take, Nat.min_eq_left (by omega)]
  rw [slice, put, List.append_assoc, List.drop_left' hfront, List.take_left]

theorem slice_add (a : List UInt8) (i m n : ℕ) :
    slice a i (m + n) = slice a i m ++ slice a (i + m) n := by
  rw [slice, List.take_add, List.drop_drop]
  rfl

theorem slice_slice (a : List UInt8) {i m j n : ℕ} (h : j + n ≤ m) :
    slice (slice a i m) j n = slice a (i + j) n := by
  rw [slice, slice, List.drop_take, List.take_take, Nat.min_eq_left (by omega), List.drop_drop]
  rfl

theorem slice_replicate {c : UInt8} {m j n : ℕ} (h : j + n ≤ m) :
    slice (List.replicate m c) j n = List.replicate n c := by
  rw [slice, List.drop_replicate, List.take_replicate, Nat.min_eq_left (by omega)]

theorem ok_bind {β γ : Type} (b : β) (f : β → Except Fault γ) : (Except.ok b >>= f) = f b := rfl

/-- What a write changes. -/
structure Written (a : List UInt8) (i : ℕ) (w b : List UInt8) : Prop where
  length : b.length = a.length
  self : slice b i w.length = w
  frame : ∀ j n, j + n ≤ i ∨ i + w.length ≤ j → slice b j n = slice a j n

theorem exists_write (h : i + w.length ≤ a.length) : ∃ b, write a i w = .ok b ∧ Written a i w b :=
  ⟨put a i w, if_pos h, length_put h, slice_put_self h, fun _ _ hj => slice_put_of_disjoint h hj⟩

end Writes

/-! ## The headers of the copy -/

section Headers

variable {skb mc : List UInt8}

@[simp] theorem length_be16 (n : ℕ) : (be16 n).length = 2 := rfl

@[simp] theorem length_be32 (n : ℕ) : (be32 n).length = 4 := rfl

/-- What is known of a copy with an IP header. -/
structure IpFilled (skb mc mc' : List UInt8) : Prop where
  length : mc'.length = mc.length
  saddr : slice mc' 12 4 = slice skb 16 4
  daddr : slice mc' 16 4 = slice skb 12 4
  frame : ∀ j n, j + n ≤ 8 ∨ 20 ≤ j → slice mc' j n = slice mc j n

theorem exists_fillIpHeader (hskb : 20 ≤ skb.length) (hmc : 20 ≤ mc.length) :
    ∃ mc', fillIpHeader skb mc = .ok mc' ∧ IpFilled skb mc mc' := by
  have hsaddr : (slice skb 16 4).length = 4 := length_slice (by omega)
  have hdaddr : (slice skb 12 4).length = 4 := length_slice (by omega)
  obtain ⟨mc₁, hmc₁, w₁⟩ := exists_write (a := mc) (i := 12) (w := slice skb 16 4) (by omega)
  have l₁ := w₁.length
  obtain ⟨mc₂, hmc₂, w₂⟩ := exists_write (a := mc₁) (i := 16) (w := slice skb 12 4) (by omega)
  have l₂ := w₂.length
  obtain ⟨mc₃, hmc₃, w₃⟩ := exists_write (a := mc₂) (i := 8) (w := [127]) (by simp; omega)
  have l₃ := w₃.length
  obtain ⟨mc₄, hmc₄, w₄⟩ := exists_write (a := mc₃) (i := 10) (w := [0, 0]) (by simp; omega)
  have l₄ := w₄.length
  obtain ⟨mc₅, hmc₅, w₅⟩ := exists_write (a := mc₄) (i := 10)
    (w := be16 (ipFastCsum (mc₄.take (tcph skb)))) (by simp; omega)
  have l₅ := w₅.length
  have hlater : ∀ j n, j + n ≤ 8 ∨ 12 ≤ j → slice mc₅ j n = slice mc₂ j n := fun j n hj => by
    rw [w₅.frame j n (by simp; omega), w₄.frame j n (by simp; omega),
      w₃.frame j n (by simp; omega)]
  refine ⟨mc₅, ?_, by omega, ?_, ?_, fun j n hj => ?_⟩
  · simp only [fillIpHeader, hmc₁, hmc₂, hmc₃, hmc₄, hmc₅, ok_bind]
  · rw [hlater 12 4 (by omega), w₂.frame 12 4 (by omega), ← w₁.self, hsaddr]
  · rw [hlater 16 4 (by omega), ← w₂.self, hdaddr]
  · rw [hlater j n (by omega), w₂.frame j n (by omega), w₁.frame j n (by omega)]

/-- What is known of a copy with a TCP header. -/
structure TcpFilled (skb mc mc' : List UInt8) : Prop where
  length : mc'.length = mc.length
  ack : slice mc' (tcph skb + 8) 4 = be32 (be (slice skb (tcph skb + 4) 4) + datalen skb)
  head : words (slice mc' (tcph skb) 16) =
    words (slice skb (tcph skb + 2) 2) + words (slice skb (tcph skb) 2) +
      words (slice skb (tcph skb + 8) 4) +
      words (be32 (be (slice skb (tcph skb + 4) 4) + datalen skb)) + 0x5018
  frame : ∀ j n, j + n ≤ tcph skb ∨ tcph skb + 16 ≤ j → slice mc' j n = slice mc j n

theorem exists_fillTcpHeader (hskb : tcph skb + 20 ≤ skb.length) (hmc : mc.length = skb.length) :
    ∃ mc', fillTcpHeader skb mc = .ok mc' ∧ TcpFilled skb mc mc' := by
  have hdest : (slice skb (tcph skb + 2) 2).length = 2 := length_slice (by omega)
  have hsource : (slice skb (tcph skb) 2).length = 2 := length_slice (by omega)
  have hack : (slice skb (tcph skb + 8) 4).length = 4 := length_slice (by omega)
  obtain ⟨mc₁, hmc₁, w₁⟩ := exists_write (a := mc) (i := tcph skb)
    (w := slice skb (tcph skb + 2) 2) (by omega)
  have l₁ := w₁.length
  obtain ⟨mc₂, hmc₂, w₂⟩ := exists_write (a := mc₁) (i := tcph skb + 2)
    (w := slice skb (tcph skb) 2) (by omega)
  have l₂ := w₂.length
  obtain ⟨mc₃, hmc₃, w₃⟩ := exists_write (a := mc₂) (i := tcph skb + 12) (w := [0, 0x18, 0, 0])
    (by simp; omega)
  have l₃ := w₃.length
  obtain ⟨mc₄, hmc₄, w₄⟩ := exists_write (a := mc₃) (i := tcph skb + 4)
    (w := slice skb (tcph skb + 8) 4) (by omega)
  have l₄ := w₄.length
  obtain ⟨mc₅, hmc₅, w₅⟩ := exists_write (a := mc₄) (i := tcph skb + 12) (w := [0x50])
    (by simp; omega)
  have l₅ := w₅.length
  obtain ⟨mc₆, hmc₆, w₆⟩ := exists_write (a := mc₅) (i := tcph skb + 8)
    (w := be32 (be (slice skb (tcph skb + 4) 4) + datalen skb)) (by simp; omega)
  have l₆ := w₆.length
  have s₁ := w₁.self
  have s₂ := w₂.self
  have s₃ := w₃.self
  have s₄ := w₄.self
  rw [hdest] at s₁
  rw [hsource] at s₂
  rw [hack] at s₄
  have hflags : slice mc₆ (tcph skb + 12) 4 = [0x50, 0x18, 0, 0] := by
    have hbehind : slice mc₃ (tcph skb + 13) 3 = [0x18, 0, 0] := by
      rw [← slice_slice mc₃ (i := tcph skb + 12) (m := 4) (j := 1) (n := 3) (by omega)]
      exact congrArg (fun w => slice w 1 3) s₃
    rw [w₆.frame _ 4 (by simp), slice_add mc₅ (tcph skb + 12) 1 3,
      w₅.frame _ 3 (by simp), w₄.frame _ 3 (by omega), hbehind]
    exact congrArg (· ++ [0x18, 0, 0]) w₅.self
  refine ⟨mc₆, ?_, by omega, w₆.self, ?_, fun j n hj => ?_⟩
  · simp only [fillTcpHeader, hmc₁, hmc₂, hmc₃, hmc₄, hmc₅, hmc₆, ok_bind]
  · have hsplit : slice mc₆ (tcph skb) 16 = slice mc₆ (tcph skb) 2 ++
        slice mc₆ (tcph skb + 2) 2 ++ slice mc₆ (tcph skb + 4) 4 ++
        slice mc₆ (tcph skb + 8) 4 ++ slice mc₆ (tcph skb + 12) 4 := by
      rw [← slice_add, ← slice_add, ← slice_add, ← slice_add]
    have hports : slice mc₆ (tcph skb) 2 = slice skb (tcph skb + 2) 2 := by
      rw [w₆.frame _ 2 (by omega), w₅.frame _ 2 (by omega), w₄.frame _ 2 (by omega),
        w₃.frame _ 2 (by omega), w₂.frame _ 2 (by omega), s₁]
    have hports' : slice mc₆ (tcph skb + 2) 2 = slice skb (tcph skb) 2 := by
      rw [w₆.frame _ 2 (by omega), w₅.frame _ 2 (by omega), w₄.frame _ 2 (by omega),
        w₃.frame _ 2 (by omega), s₂]
    have hseq : slice mc₆ (tcph skb + 4) 4 = slice skb (tcph skb + 8) 4 := by
      rw [w₆.frame _ 4 (by omega), w₅.frame _ 4 (by omega), s₄]
    have hself := w₆.self
    rw [length_be32] at hself
    rw [hsplit, hports, hports', hseq, hself, hflags, words_append (by simp [hdest, hsource, hack]),
      words_append (by simp [hdest, hsource, hack]), words_append (by simp [hdest, hsource]),
      words_append (by simp [hdest])]
    rfl
  · rw [w₆.frame j n (by simp; omega), w₅.frame j n (by simp; omega), w₄.frame j n (by omega),
      w₃.frame j n (by simp; omega), w₂.frame j n (by omega), w₁.frame j n (by omega)]

end Headers

/-! ## The packet that is sent -/

section Sent

variable (p : Packet) {a : List UInt8} {i m n : ℕ}

theorem length_blockHtm : blockHtm.length = 238 := by
  decide +kernel

/-- The check field of the request, as far as the copy still has it. -/
def oldCheck (skb : List UInt8) : ℕ :=
  if doff skb ≤ 4 then 0 else be (slice skb (tcph skb + 16) 2)

/-- The urgent pointer of the request, as far as the copy still has it. -/
def oldUrgent (skb : List UInt8) : ℕ :=
  if doff skb ≤ 4 then 0 else be (slice skb (tcph skb + 18) 2)

/-- The first 16 bytes of the new TCP header. -/
def headSum (skb : List UInt8) : ℕ :=
  words (slice skb (tcph skb + 2) 2) + words (slice skb (tcph skb) 2) +
    words (slice skb (tcph skb + 8) 4) + words (be32 (seq skb + datalen skb)) + 0x5018

/-- What is known of the copy before its check is written. -/
structure Filled (skb mc : List UInt8) : Prop where
  length : mc.length = skb.length
  first : slice mc 0 1 = slice skb 0 1
  saddr : slice mc 12 4 = slice skb 16 4
  daddr : slice mc 16 4 = slice skb 12 4
  ack : slice mc (tcph skb + 8) 4 = be32 (seq skb + datalen skb)
  head : words (slice mc (tcph skb) 16) = headSum skb
  check : words (slice mc (tcph skb + 16) 2) = oldCheck skb
  urgent : words (slice mc (tcph skb + 18) 2) = oldUrgent skb
  page : slice mc (tcph skb + 20) (skb.length - tcph skb - 20) =
    blockHtm ++ List.replicate (skb.length - tcph skb - 258) 0

theorem doff_le (skb : List UInt8) : doff skb ≤ 15 := by
  have := (skb.getD (tcph skb + 12) 0).toNat_lt
  rw [doff]
  omega

theorem words_two {w : List UInt8} (h : w.length = 2) : words w = be w := by
  obtain ⟨a, b, rfl⟩ := List.length_eq_two.mp h
  simp [words, be]

/-- The headers of the copy are written in every packet; the page decides. -/
theorem exists_headers : ∃ mc₀ mc₁ mc₂,
    Written p.skb (tcph p.skb + 4 * doff p.skb) (List.replicate (datalen p.skb) 0) mc₀ ∧
      IpFilled p.skb mc₀ mc₁ ∧ TcpFilled p.skb mc₁ mc₂ ∧ mc₂.length = p.skb.length ∧
      nkReturnUrlBlock p.skb = write mc₂ (tcph p.skb + 20) blockHtm >>= fun mc =>
        write mc (tcph p.skb + 16) (be16 (pageCheck p.skb mc)) := by
  have hip : 20 ≤ tcph p.skb := Nat.mul_le_mul_left 4 p.ip
  have hdatalen : datalen p.skb = p.skb.length - tcph p.skb - 4 * doff p.skb := rfl
  have htcp := p.tcp
  have hpayload := p.payload
  obtain ⟨mc₀, hmc₀, w₀⟩ := exists_write (a := p.skb) (i := tcph p.skb + 4 * doff p.skb)
    (w := List.replicate (datalen p.skb) 0) (by rw [List.length_replicate]; omega)
  have l₀ := w₀.length
  obtain ⟨mc₁, hmc₁, w₁⟩ : ∃ mc₁, fillIpHeader p.skb mc₀ = .ok mc₁ ∧ IpFilled p.skb mc₀ mc₁ :=
    exists_fillIpHeader (by omega) (by omega)
  have l₁ := w₁.length
  obtain ⟨mc₂, hmc₂, w₂⟩ : ∃ mc₂, fillTcpHeader p.skb mc₁ = .ok mc₂ ∧ TcpFilled p.skb mc₁ mc₂ :=
    exists_fillTcpHeader p.tcp (by omega)
  have l₂ := w₂.length
  refine ⟨mc₀, mc₁, mc₂, w₀, w₁, w₂, by omega, ?_⟩
  rw [nkReturnUrlBlock, hmc₀, ok_bind, hmc₁, ok_bind, hmc₂, ok_bind]

theorem exists_filled (h : tcph p.skb + 258 ≤ p.skb.length) :
    ∃ mc, nkReturnUrlBlock p.skb = write mc (tcph p.skb + 16) (be16 (pageCheck p.skb mc)) ∧
      Filled p.skb mc := by
  have hip : 20 ≤ tcph p.skb := Nat.mul_le_mul_left 4 p.ip
  have hpage := length_blockHtm
  have hdoff := doff_le p.skb
  have hdatalen : datalen p.skb = p.skb.length - tcph p.skb - 4 * doff p.skb := rfl
  have hpayload := p.payload
  obtain ⟨mc₀, mc₁, mc₂, w₀, w₁, w₂, l₂, hrun⟩ := exists_headers p
  have l₀ := w₀.length
  have z₀ := w₀.self
  have f₀ := w₀.frame
  rw [List.length_replicate] at z₀ f₀
  have hzeros : ∀ j n, 4 * doff p.skb ≤ j → tcph p.skb + j + n ≤ p.skb.length →
      slice mc₀ (tcph p.skb + j) n = List.replicate n 0 := fun j n hj hn => by
    have hinner := slice_slice mc₀ (i := tcph p.skb + 4 * doff p.skb) (m := datalen p.skb)
      (j := j - 4 * doff p.skb) (n := n) (by omega)
    rw [z₀, slice_replicate (by omega)] at hinner
    rw [hinner]
    congr 1
    omega
  obtain ⟨mc₃, hmc₃, w₃⟩ := exists_write (a := mc₂) (i := tcph p.skb + 20) (w := blockHtm)
    (by omega)
  have l₃ := w₃.length
  have s₃ := w₃.self
  have f₃ := w₃.frame
  rw [hpage] at s₃ f₃
  have hold : ∀ j, 16 ≤ j → j + 2 ≤ 20 → words (slice mc₃ (tcph p.skb + j) 2) =
      if doff p.skb ≤ 4 then 0 else be (slice p.skb (tcph p.skb + j) 2) := fun j hj hle => by
    rw [f₃ _ 2 (by omega), w₂.frame _ 2 (by omega), w₁.frame _ 2 (by omega)]
    split
    · rw [hzeros j 2 (by omega) (by omega)]
      rfl
    · rw [f₀ _ 2 (by omega), words_two (length_slice (by have := p.tcp; omega))]
  refine ⟨mc₃, ?_, by omega, ?_, ?_, ?_, ?_, ?_, hold 16 (by omega) (by omega),
    hold 18 (by omega) (by omega), ?_⟩
  · rw [hrun, hmc₃, ok_bind]
  · rw [f₃ 0 1 (by omega), w₂.frame 0 1 (by omega), w₁.frame 0 1 (by omega), f₀ 0 1 (by omega)]
  · rw [f₃ 12 4 (by omega), w₂.frame 12 4 (by omega), w₁.saddr]
  · rw [f₃ 16 4 (by omega), w₂.frame 16 4 (by omega), w₁.daddr]
  · rw [f₃ _ 4 (by omega), w₂.ack]
    rfl
  · rw [f₃ _ 16 (by omega), w₂.head]
    rfl
  · have hsplit : p.skb.length - tcph p.skb - 20 = 238 + (p.skb.length - tcph p.skb - 258) := by
      omega
    rw [hsplit, slice_add, s₃, f₃ _ _ (by omega), w₂.frame _ _ (by omega), w₁.frame _ _ (by omega),
      Nat.add_assoc, hzeros (20 + 238) _ (by omega) (by omega)]

theorem nkReturnUrlBlock_of_short (h : ¬ tcph p.skb + 258 ≤ p.skb.length) :
    nkReturnUrlBlock p.skb = .error .writePastEnd := by
  have hpage := length_blockHtm
  obtain ⟨mc₀, mc₁, mc₂, -, -, -, l₂, hrun⟩ := exists_headers p
  have herror : write mc₂ (tcph p.skb + 20) blockHtm = .error .writePastEnd := if_neg (by omega)
  rw [hrun, herror]
  rfl

def pageSum (skb : List UInt8) : ℕ :=
  headSum skb + oldCheck skb + oldUrgent skb + words (blockHtm.take (datalen skb - 20))

/-- The sum of `csum_tcpudp_nofold` in 64 bits. -/
def sum64 (skb : List UInt8) : ℕ :=
  (pageSum skb - 1) % 65535 + 1 + be (slice skb 16 4) + be (slice skb 12 4) +
    (6 * 2 ^ 16 + datalen skb)

/-- What its last addition loses. -/
def lostCarry (skb : List UInt8) : ℕ :=
  if 2 ^ 32 ≤ sum64 skb % 2 ^ 32 + sum64 skb / 2 ^ 32 then 1 else 0

theorem be_four_lt {w : List UInt8} (h : w.length = 4) : be w < 2 ^ 32 := by
  obtain ⟨a, b, c, d, rfl⟩ := List.length_eq_four.mp h
  have := a.toNat_lt
  have := b.toNat_lt
  have := c.toNat_lt
  have := d.toNat_lt
  simp only [be, List.foldl_cons, List.foldl_nil]
  omega

theorem be_four_mod {w : List UInt8} (h : w.length = 4) : be w % 65535 = words w % 65535 := by
  obtain ⟨a, b, c, d, rfl⟩ := List.length_eq_four.mp h
  simp only [be, words, List.foldl_cons, List.foldl_nil]
  omega

/-- The words of a TCP segment, field by field. -/
theorem words_segment {mc : List UInt8} (hm : i + m ≤ mc.length) (hn : n + 20 = m) :
    words (slice mc i m) = words (slice mc i 16) + words (slice mc (i + 16) 2) +
      words (slice mc (i + 18) 2) + words (slice mc (i + 20) n) := by
  have hsplit : m = 16 + 2 + 2 + n := by omega
  rw [hsplit, slice_add, slice_add, slice_add, words_append (by simp [slice]; omega),
    words_append (by simp [slice]; omega), words_append (by simp [slice]; omega)]

theorem words_checked {mc : List UInt8} (h : tcph p.skb + 258 ≤ p.skb.length)
    (hmc : Filled p.skb mc) : words (slice mc (tcph p.skb) (datalen p.skb)) = pageSum p.skb := by
  have hdoff := doff_le p.skb
  have hlength := hmc.length
  have hdatalen : datalen p.skb = p.skb.length - tcph p.skb - 4 * doff p.skb := rfl
  have hpage : slice mc (tcph p.skb + 20) (datalen p.skb - 20) =
      (blockHtm ++ List.replicate (p.skb.length - tcph p.skb - 258) 0).take
        (datalen p.skb - 20) := by
    rw [← hmc.page]
    have hinner := slice_slice mc (i := tcph p.skb + 20) (m := p.skb.length - tcph p.skb - 20)
      (j := 0) (n := datalen p.skb - 20) (by omega)
    exact hinner.symm
  rw [words_segment (n := datalen p.skb - 20) (by omega) (by omega), hmc.head, hmc.check,
    hmc.urgent, hpage, words_take_append_zeros]
  rfl

/-- The check, which counts against the sum of what it is taken over. -/
theorem pageCheck_mod {mc : List UInt8} (h : tcph p.skb + 258 ≤ p.skb.length)
    (hmc : Filled p.skb mc) :
    pageCheck p.skb mc ≤ 65535 ∧
      (pageCheck p.skb mc + sum64 p.skb) % 65535 = lostCarry p.skb := by
  have hip : 20 ≤ tcph p.skb := Nat.mul_le_mul_left 4 p.ip
  have hshort := p.short
  have hdatalen : datalen p.skb = p.skb.length - tcph p.skb - 4 * doff p.skb := rfl
  have hwords := words_checked p h hmc
  have hpos : 0 < words (slice mc (tcph p.skb) (datalen p.skb)) := by
    rw [hwords, pageSum, headSum]
    omega
  have hpartial : csumPartial (slice mc (tcph p.skb) (datalen p.skb)) 0 =
      (pageSum p.skb - 1) % 65535 + 1 := by
    rw [csumPartial, fold_addWords hpos, hwords, addCarry]
    omega
  have hsum : csumTcpudpNofold (be (slice p.skb 16 4)) (be (slice p.skb 12 4)) (datalen p.skb) 6
      ((pageSum p.skb - 1) % 65535 + 1) =
        (sum64 p.skb % 2 ^ 32 + sum64 p.skb / 2 ^ 32) % 2 ^ 32 := rfl
  have hsaddr := be_four_lt (w := slice p.skb 16 4) (length_slice (by omega))
  have hdaddr := be_four_lt (w := slice p.skb 12 4) (length_slice (by omega))
  have hbound : sum64 p.skb < 3 * 2 ^ 32 := by
    have hlt := Nat.mod_lt (pageSum p.skb - 1) (y := 65535) (by omega)
    rw [sum64]
    omega
  rw [pageCheck, hmc.saddr, hmc.daddr, hpartial, csumTcpudpMagic, hsum, csumFold]
  exact ⟨Nat.sub_le _ _, nofold_mod hbound⟩

theorem tcph_congr {b : List UInt8} (h : slice a 0 1 = slice b 0 1) : tcph a = tcph b := by
  have hget (l : List UInt8) : l.getD 0 0 = (slice l 0 1).getD 0 0 := by
    cases l <;> rfl
  rw [tcph, tcph, ihl, ihl, hget a, hget b, h]

theorem words_be16 (h : n < 2 ^ 16) : words (be16 n) = n := by
  simp [be16, words]
  omega

theorem words_sent {mc out : List UInt8} (h : tcph p.skb + 258 ≤ p.skb.length)
    (hmc : Filled p.skb mc)
    (hout : Written mc (tcph p.skb + 16) (be16 (pageCheck p.skb mc)) out) :
    words (out.drop (tcph p.skb)) =
      headSum p.skb + pageCheck p.skb mc + oldUrgent p.skb + words blockHtm := by
  have hlength := hout.length.trans hmc.length
  have hwhole : out.drop (tcph p.skb) = slice out (tcph p.skb) (p.skb.length - tcph p.skb) := by
    rw [slice, List.take_of_length_le (by rw [List.length_drop]; omega)]
  have hself := hout.self
  have hframe := hout.frame
  rw [length_be16] at hself hframe
  have hcheck := (pageCheck_mod p h hmc).1
  have hpage : slice out (tcph p.skb + 20) (p.skb.length - tcph p.skb - 20) =
      blockHtm ++ List.replicate (p.skb.length - tcph p.skb - 258) 0 := by
    rw [hframe _ _ (by omega), hmc.page]
  rw [hwhole, words_segment (n := p.skb.length - tcph p.skb - 20) (by omega) (by omega), hself,
    hframe _ 16 (by omega), hmc.head, hframe _ 2 (by omega), hmc.urgent, hpage, words_append_zeros,
    words_be16 (by omega)]

theorem balance {head old urgent page covered lost check saddr daddr saddr' daddr' len rest : ℕ}
    (hsaddr : saddr' % 65535 = saddr % 65535) (hdaddr : daddr' % 65535 = daddr % 65535)
    (hcheck : (check + ((head + old + urgent + covered - 1) % 65535 + 1 + saddr' + daddr' +
      (6 * 2 ^ 16 + len))) % 65535 = lost) (hpos : 0 < head) :
    (saddr + daddr + 6 + (len + rest) + (head + check + urgent + page)) % 65535 = 0 ↔
      (rest + page + lost) % 65535 = (old + covered) % 65535 := by
  have hlost : (check + (head + old + urgent + covered) + saddr + daddr + 6 + len) % 65535 =
      lost := by
    omega
  clear hcheck hsaddr hdaddr
  omega

/-- The packet is correct when the words that the check leaves out count as much as the old check
and the lost carry. -/
theorem page_checksum_iff {mc out : List UInt8} (h : tcph p.skb + 258 ≤ p.skb.length)
    (hmc : Filled p.skb mc)
    (hout : Written mc (tcph p.skb + 16) (be16 (pageCheck p.skb mc)) out) :
    ChecksumOk out ↔
      (4 * doff p.skb + words blockHtm + lostCarry p.skb) % 65535 =
        (oldCheck p.skb + words (blockHtm.take (datalen p.skb - 20))) % 65535 := by
  have hip : 20 ≤ tcph p.skb := Nat.mul_le_mul_left 4 p.ip
  have hshort := p.short
  have hpayload := p.payload
  have hlength := hout.length.trans hmc.length
  have hframe := hout.frame
  have htcph : tcph out = tcph p.skb := by
    refine tcph_congr ?_
    rw [hframe 0 1 (by omega), hmc.first]
  have hsaddr : slice out 12 4 = slice p.skb 16 4 := by
    rw [hframe 12 4 (by omega), hmc.saddr]
  have hdaddr : slice out 16 4 = slice p.skb 12 4 := by
    rw [hframe 16 4 (by omega), hmc.daddr]
  have hlsaddr : (slice p.skb 16 4).length = 4 := length_slice (by omega)
  have hldaddr : (slice p.skb 12 4).length = 4 := length_slice (by omega)
  have hmsaddr := be_four_mod hlsaddr
  have hmdaddr := be_four_mod hldaddr
  have hlen : words (be16 (p.skb.length - tcph p.skb)) = p.skb.length - tcph p.skb :=
    words_be16 (by omega)
  have hproto : words [0, 6] = 6 := rfl
  have hcheck := (pageCheck_mod p h hmc).2
  have hdatalen : datalen p.skb = p.skb.length - tcph p.skb - 4 * doff p.skb := rfl
  rw [ChecksumOk, htcph, hlength, hsaddr, hdaddr, fold_addWords_eq_ones_iff,
    words_append (by simp [hlsaddr, hldaddr]), words_append (by simp [hlsaddr, hldaddr]),
    words_append (by simp [hlsaddr, hldaddr]), words_append (by simp [hlsaddr]), hlen, hproto,
    words_sent p h hmc hout]
  have hsegment : p.skb.length - tcph p.skb = datalen p.skb + 4 * doff p.skb := by omega
  have hpos : 0 < headSum p.skb := by
    rw [headSum]
    omega
  rw [hsegment]
  rw [sum64, pageSum] at hcheck
  refine (and_iff_right (by omega)).trans ?_
  exact balance hmsaddr hmdaddr hcheck hpos

structure PageOk (skb out : List UInt8) : Prop where
  length : out.length = skb.length
  checksum : ChecksumOk out
  ack : ackSeq out = (seq skb + datalen skb) % 2 ^ 32

theorem be_be32 (n : ℕ) : be (be32 n) = n % 2 ^ 32 := by
  simp [be, be32, be16]
  omega

/-- The page is a correct answer when it is no longer than the packet and the two sides of the check
are in balance. -/
theorem nkReturnUrlBlock_ok_iff (p : Packet) :
    (∃ out, nkReturnUrlBlock p.skb = .ok out ∧ PageOk p.skb out) ↔
      tcph p.skb + 20 + blockHtm.length ≤ p.skb.length ∧
      (4 * doff p.skb + words blockHtm + lostCarry p.skb) % 65535 =
        (oldCheck p.skb + words (blockHtm.take (datalen p.skb - 20))) % 65535 := by
  rw [length_blockHtm, Nat.add_assoc]
  by_cases h : tcph p.skb + 258 ≤ p.skb.length
  · obtain ⟨mc, hrun, hmc⟩ := exists_filled p h
    have hlength := hmc.length
    obtain ⟨out, hwrite, hout⟩ := exists_write (a := mc) (i := tcph p.skb + 16)
      (w := be16 (pageCheck p.skb mc)) (by rw [length_be16]; omega)
    have hframe := hout.frame
    rw [length_be16] at hframe
    have htcph : tcph out = tcph p.skb := by
      refine tcph_congr ?_
      rw [hframe 0 1 (by omega), hmc.first]
    have hack : ackSeq out = (seq p.skb + datalen p.skb) % 2 ^ 32 := by
      rw [ackSeq, htcph, hframe _ 4 (by omega), hmc.ack, be_be32]
    rw [hrun, hwrite, and_iff_right h, ← page_checksum_iff p h hmc hout]
    constructor
    · rintro ⟨out', hout', hok⟩
      exact Except.ok.inj hout' ▸ hok.checksum
    · intro hok
      exact ⟨out, rfl, hout.length.trans hmc.length, hok, hack⟩
  · rw [nkReturnUrlBlock_of_short p h]
    refine iff_of_false ?_ fun hboth => h hboth.1
    rintro ⟨out, hout, -⟩
    cases hout

/-- A request of 31 bytes for a script, behind headers of 20 bytes each. -/
def scriptRequest : Packet where
  skb := [0x45, 0, 0, 71, 0, 0, 0, 0, 64, 6, 0, 0, 10, 0, 0, 1, 10, 0, 0, 2] ++
    [4, 0, 0, 80, 0, 0, 0, 1, 0, 0, 0, 2, 0x50, 0x18, 0x20, 0, 0, 0, 0, 0] ++
    bytes "GET /a.js HTTP/1.0\r\nHost: b\r\n\r\n"
  ip := by decide
  tcp := by decide
  payload := by decide
  short := by decide

/-- The page does not fit into a short request. -/
theorem page_past_end :
    ¬ ∃ out, nkReturnUrlBlock scriptRequest.skb = .ok out ∧ PageOk scriptRequest.skb out := by
  rintro ⟨out, hout, -⟩
  rw [nkReturnUrlBlock_of_short scriptRequest (by decide)] at hout
  cases hout

end Sent

end BlockPage
