import Mathlib.Data.List.Nodup
import Mathlib.Data.Nat.Digits.Defs
import Mathlib.Tactic.IntervalCases
import RouterFirmware.BootmemNames
import RouterFirmware.Extents

/-! # The blocks of the flash

The firmware image is in the partitions `image1`, `image2` and so on, of which the blocks are
numbered through. A block number is taken to its partition and the block in it.
-/
namespace FlashBlocks

open Bootmem (CString strncmp)
open Extents

/-- `struct mtd_info_1`. -/
structure MtdInfo where
  index : UInt32
  size : UInt32
  erasesize : UInt32
  blockNum : UInt32
  name : CString
  deriving DecidableEq

/-- What is read from a line of `/proc/mtd`. -/
structure MtdLine where
  index : UInt32
  size : UInt32
  erasesize : UInt32
  name : CString

def MtdLine.info (line : MtdLine) : MtdInfo :=
  ⟨line.index, line.size, line.erasesize, line.size / line.erasesize, line.name⟩

/-- `IMAGE_SECT`: `image`. -/
def imageSect : CString := ⟨[105, 109, 97, 103, 101], by decide⟩

/-- `!strncmp(name, sector, strlen(sector))` -/
def Begins (name sector : CString) : Prop :=
  strncmp name.chars sector.chars sector.chars.length = 0

instance (name sector : CString) : Decidable (Begins name sector) :=
  inferInstanceAs (Decidable (_ = _))

/-- `kd_GetMtdImageInfo`, of the list it left at the last call and of `/proc/mtd` if that can be
opened. -/
def kdGetMtdImageInfo (mtdHead : List MtdInfo) (proc : Option (List MtdLine))
    (sector : CString) : List MtdInfo :=
  let read := ((proc.getD []).map MtdLine.info).filter fun tmp => Begins tmp.name sector
  match mtdHead with
  | [] => read
  | head :: _ => if Begins head.name sector then mtdHead else read

/-- The string in `name` after `name[5] = '1' + i`. -/
def imageString (i : ℕ) : CString where
  chars := (imageSect.chars ++ [UInt8.ofNat (49 + i)]).takeWhile (· ≠ 0)
  noNul := fun h => by simpa using List.mem_takeWhile_imp h

section Counts

variable {b n : UInt32}

/-- The comparison with the last block, of a partition that has blocks. -/
theorem le_sub_one_iff (hn : 0 < n.toNat) : b ≤ n - 1 ↔ b.toNat < n.toNat := by
  have hone : (1 : UInt32) ≤ n := UInt32.le_iff_toNat_le.mpr hn
  have hsub : (n - 1).toNat = n.toNat - 1 := UInt32.toNat_sub_of_le _ _ hone
  simp only [UInt32.le_iff_toNat_le, hsub]
  omega

/-- Where the comparison fails, the partition has blocks and the number is behind them. -/
theorem toNat_sub_of_not_le (h : ¬ b ≤ n - 1) :
    0 < n.toNat ∧ n.toNat ≤ b.toNat ∧ (b - n).toNat = b.toNat - n.toNat := by
  have hpos : 0 < n.toNat := by
    refine Nat.pos_of_ne_zero fun hzero => h ?_
    obtain rfl : n = 0 := UInt32.toNat_inj.mp hzero
    exact UInt32.le_iff_toNat_le.mpr (Nat.le_of_lt_succ b.toNat_lt)
  have hle : n.toNat ≤ b.toNat := by
    have hlt := mt (le_sub_one_iff hpos).mpr h
    omega
  exact ⟨hpos, hle, UInt32.toNat_sub_of_le _ _ (UInt32.le_iff_toNat_le.mpr hle)⟩

end Counts

/-- The search from `tag`, which starts again for the next image with what is left of the block
number. -/
def imageBlock (mtdHead : List MtdInfo) (i : ℕ) (blockNum : UInt32) : Option (MtdInfo × UInt32) :=
  match mtdHead.find? fun tmp => Begins tmp.name (imageString i) with
  | none => none
  | some tmp =>
    if _h : blockNum ≤ tmp.blockNum - 1 then some (tmp, blockNum)
    else imageBlock mtdHead (i + 1) (blockNum - tmp.blockNum)
termination_by blockNum.toNat
decreasing_by
  have hsub := toNat_sub_of_not_le _h
  omega

/-- `getmtdbyblocknum`: the partition and the offset in it, if `0` is returned. -/
def getmtdbyblocknum (mtdHead : List MtdInfo) (sector : CString) (blockNum : UInt32) :
    Option (MtdInfo × UInt32) :=
  if strncmp imageSect.chars sector.chars imageSect.chars.length ≠ 0 then
    (mtdHead.find? fun tmp => Begins tmp.name sector ∧ blockNum ≤ tmp.blockNum - 1).map
      fun tmp => (tmp, blockNum)
  else imageBlock mtdHead 0 blockNum

/-! ## The images in a row -/

/-- `image` and a number. -/
def imageName (k : ℕ) : List UInt8 :=
  imageSect.chars ++ (Nat.digits 10 k).reverse.map fun d => UInt8.ofNat (48 + d)

def MtdInfo.blocks (p : MtdInfo) : ℕ := p.blockNum.toNat

/-- The names differ, and the images have blocks. -/
structure Layout (mtdHead : List MtdInfo) : Prop where
  names : (mtdHead.map MtdInfo.name).Nodup
  images : ∀ p ∈ mtdHead, ∀ k, p.name.chars = imageName (k + 1) → 0 < p.blocks

/-- The partitions `image1`, `image2` and so on, up to some number. -/
def Consecutive (mtdHead l : List MtdInfo) : Prop :=
  ∀ k p, l[k]? = some p → p ∈ mtdHead ∧ p.name.chars = imageName (k + 1)

/-- The block numbers are taken to the blocks of the images in a row. -/
structure Numbered (mtdHead : List MtdInfo) : Prop where
  places : ∀ b p o, getmtdbyblocknum mtdHead imageSect b = some (p, o) ↔
    ∃ l, Consecutive mtdHead (l ++ [p]) ∧ Placed MtdInfo.blocks l p o.toNat b.toNat
  below : ∀ b, (getmtdbyblocknum mtdHead imageSect b).isSome ↔
    ∃ l, Consecutive mtdHead l ∧ b.toNat < total MtdInfo.blocks l
  inj : ∀ b b' place, getmtdbyblocknum mtdHead imageSect b = some place →
    getmtdbyblocknum mtdHead imageSect b' = some place → b = b'

/-- A partition whose name goes on behind that of an image stands behind the image, and there are
no more than nine images; as far as the block numbers reach. -/
structure Fits (mtdHead : List MtdInfo) : Prop where
  behind : ∀ l, Consecutive mtdHead l → total MtdInfo.blocks l < 2 ^ 32 → l.length < 9 →
    ∀ front p rest, mtdHead = front ++ p :: rest → imageName (l.length + 1) <+: p.name.chars →
      p.name.chars ≠ imageName (l.length + 1) → ∃ q ∈ front, q.name.chars = imageName (l.length + 1)
  nine : ∀ l, Consecutive mtdHead l → total MtdInfo.blocks l < 2 ^ 32 → l.length = 9 →
    ∀ p ∈ mtdHead, p.name.chars ≠ imageName 10 ∧ ¬ imageSect.chars ++ [58] <+: p.name.chars

section Names

variable {name sector : CString} {i k k' : ℕ}

theorem takeWhile_chars (s : CString) : s.chars.takeWhile (· ≠ 0) = s.chars := by
  refine List.takeWhile_eq_self_iff.mpr fun c hc => ?_
  exact decide_eq_true fun hzero => s.noNul (hzero ▸ hc)

/-- The comparison stops at the end of the sector's name. -/
theorem begins_iff : Begins name sector ↔ sector.chars <+: name.chars := by
  unfold Begins
  rw [Bootmem.strncmp_eq_zero, takeWhile_chars, takeWhile_chars, List.take_length,
    List.prefix_iff_eq_take, eq_comm]

theorem map_digits (k : ℕ) : ((Nat.digits 10 k).reverse.map fun d => UInt8.ofNat (48 + d)).map
    (fun c => c.toNat - 48) = (Nat.digits 10 k).reverse := by
  rw [List.map_map]
  refine (List.map_congr_left fun d hd => ?_).trans (List.map_id _)
  have hlt : d < 10 := Nat.digits_lt_base (by decide) (List.mem_reverse.mp hd)
  simp only [Function.comp_apply, UInt8.toNat_ofNat', id_eq]
  omega

theorem imageName_inj (h : imageName k = imageName k') : k = k' := by
  have hdigits := congrArg (List.map fun c => c.toNat - 48) (List.append_cancel_left h)
  rw [map_digits, map_digits] at hdigits
  exact Nat.digits_inj_iff.mp (List.reverse_injective hdigits)

theorem chars_imageString (hi : i < 9) : (imageString i).chars = imageName (i + 1) := by
  interval_cases i <;> decide

end Names

/-- The first that passes one test is the first that passes a sharper one. -/
theorem find?_eq_find?_iff {α : Type*} {P Q : α → Prop} [DecidablePred P] [DecidablePred Q]
    (hsharp : ∀ a, Q a → P a) (l : List α) :
    l.find? (fun a => P a) = l.find? (fun a => Q a) ↔
      ∀ front a rest, l = front ++ a :: rest → P a → ¬ Q a → ∃ q ∈ front, Q q := by
  induction l with
  | nil => simp
  | cons c l ih =>
    by_cases hQ : Q c
    · rw [List.find?_cons_of_pos (by simpa using hsharp c hQ),
        List.find?_cons_of_pos (by simpa using hQ)]
      refine iff_of_true rfl fun front a rest heq _ hna => ?_
      cases front with
      | nil => exact absurd ((List.cons.inj heq).1 ▸ hQ) hna
      | cons c' front => exact ⟨c', List.mem_cons_self, (List.cons.inj heq).1 ▸ hQ⟩
    · rw [List.find?_cons_of_neg (p := fun a => decide (Q a)) (by simpa using hQ)]
      by_cases hP : P c
      · rw [List.find?_cons_of_pos (by simpa using hP)]
        refine iff_of_false (fun heq => hQ ?_) fun hall => ?_
        · simpa using List.find?_some heq.symm
        · simpa using hall [] c l rfl hP hQ
      · rw [List.find?_cons_of_neg (p := fun a => decide (P a)) (by simpa using hP), ih]
        constructor
        · intro hall front a rest heq ha hna
          cases front with
          | nil => exact absurd ((List.cons.inj heq).1 ▸ ha) hP
          | cons c' front =>
            obtain ⟨q, hq, hQq⟩ := hall front a rest (List.cons.inj heq).2 ha hna
            exact ⟨q, List.mem_cons_of_mem _ hq, hQq⟩
        · intro hall front a rest heq ha hna
          obtain ⟨q, hq, hQq⟩ := hall (c :: front) a rest (by rw [heq]; rfl) ha hna
          obtain rfl | hq := List.mem_cons.mp hq
          · exact absurd hQq hQ
          · exact ⟨q, hq, hQq⟩

section Rows

variable {mtdHead l l' : List MtdInfo} {p : MtdInfo} {b o : UInt32} {k : ℕ}

theorem consecutive_snoc : Consecutive mtdHead (l ++ [p]) ↔
    Consecutive mtdHead l ∧ p ∈ mtdHead ∧ p.name.chars = imageName (l.length + 1) := by
  constructor
  · intro h
    refine ⟨fun k q hq => h k q ?_, h l.length p (by simp)⟩
    rw [List.getElem?_append_left (List.getElem?_eq_some_iff.mp hq).1, hq]
  · rintro ⟨hl, hp⟩ k q hq
    obtain hlt | hge := Nat.lt_or_ge k l.length
    · exact hl k q (by rwa [List.getElem?_append_left hlt] at hq)
    · rw [List.getElem?_append_right hge] at hq
      obtain ⟨hk, rfl⟩ := List.getElem?_eq_some_iff.mp hq
      obtain rfl : k = l.length := by
        simp only [List.length_singleton] at hk
        omega
      simpa using hp

theorem Consecutive.of_append (h : Consecutive mtdHead (l ++ l')) : Consecutive mtdHead l := by
  intro k p hp
  apply h k p
  rw [List.getElem?_append_left (List.getElem?_eq_some_iff.mp hp).1, hp]

theorem eq_of_chars (hlayout : Layout mtdHead) {p q : MtdInfo} (hp : p ∈ mtdHead)
    (hq : q ∈ mtdHead) (h : p.name.chars = q.name.chars) : p = q := by
  have hname : p.name = q.name := by
    cases hpn : p.name
    cases hqn : q.name
    simpa [hpn, hqn] using h
  exact List.inj_on_of_nodup_map hlayout.names hp hq hname

theorem consecutive_unique (hlayout : Layout mtdHead) (h : Consecutive mtdHead l)
    (h' : Consecutive mtdHead l') (hlen : l.length = l'.length) : l = l' := by
  apply List.ext_getElem hlen
  intro k hk hk'
  have hp := h k _ (List.getElem?_eq_getElem hk)
  have hq := h' k _ (List.getElem?_eq_getElem hk')
  exact eq_of_chars hlayout hp.1 hq.1 (hp.2.trans hq.2.symm)

theorem consecutive_append (hlayout : Layout mtdHead) (h : Consecutive mtdHead l)
    (h' : Consecutive mtdHead l') (hlen : l.length ≤ l'.length) : ∃ l₂, l' = l ++ l₂ := by
  have htake : Consecutive mtdHead (l'.take l.length) := by
    apply Consecutive.of_append
    rwa [List.take_append_drop l.length l']
  have hsame := consecutive_unique hlayout h htake (by simpa using hlen)
  exact ⟨l'.drop l.length, by rw [hsame, List.length_take_of_le hlen, List.take_append_drop]⟩

/-- Rows with as many blocks have as many images. -/
theorem eq_of_total (hlayout : Layout mtdHead) (h : Consecutive mtdHead l)
    (h' : Consecutive mtdHead l')
    (htotal : total MtdInfo.blocks l = total MtdInfo.blocks l') : l = l' := by
  have hpos : ∀ {l}, Consecutive mtdHead l → ∀ p ∈ l, 0 < p.blocks := by
    intro l hl p hp
    obtain ⟨k, hk⟩ := List.mem_iff_getElem?.mp hp
    exact hlayout.images p (hl k p hk).1 k (hl k p hk).2
  obtain hle | hle := Nat.le_total l.length l'.length
  · obtain ⟨l₂, rfl⟩ := consecutive_append hlayout h h' hle
    rw [eq_of_total_eq (hpos h') htotal.symm, List.append_nil]
  · obtain ⟨l₂, rfl⟩ := consecutive_append hlayout h' h hle
    rw [eq_of_total_eq (hpos h) htotal, List.append_nil]

/-- The search for the next image finds that image, or nothing where there is none. -/
def Agrees (mtdHead l : List MtdInfo) : Prop :=
  mtdHead.find? (fun tmp => Begins tmp.name (imageString l.length)) =
    mtdHead.find? fun tmp => tmp.name.chars = imageName (l.length + 1)

theorem find?_named (hlayout : Layout mtdHead) :
    (mtdHead.find? fun tmp => tmp.name.chars = imageName (k + 1)) = some p ↔
      p ∈ mtdHead ∧ p.name.chars = imageName (k + 1) := by
  constructor
  · intro h
    exact ⟨List.mem_of_find?_eq_some h, by simpa using List.find?_some h⟩
  · rintro ⟨hp, hname⟩
    obtain ⟨q, hq⟩ := Option.isSome_iff_exists.mp (List.find?_isSome.mpr
      ⟨p, hp, by simpa using hname⟩ :
        (mtdHead.find? fun tmp => tmp.name.chars = imageName (k + 1)).isSome)
    have hqname : q.name.chars = imageName (k + 1) := by simpa using List.find?_some hq
    rw [hq, eq_of_chars hlayout (List.mem_of_find?_eq_some hq) hp (hqname.trans hname.symm)]

theorem imageBlock_snoc (hlayout : Layout mtdHead) (hagree : Agrees mtdHead l)
    (h : Consecutive mtdHead (l ++ [p])) : imageBlock mtdHead l.length b =
      if b.toNat < p.blocks then some (p, b)
      else imageBlock mtdHead (l.length + 1) (b - p.blockNum) := by
  obtain ⟨-, hmem, hname⟩ := consecutive_snoc.mp h
  have hpos : 0 < p.blockNum.toNat := hlayout.images p hmem _ hname
  have hfind := hagree.trans ((find?_named hlayout).mpr ⟨hmem, hname⟩)
  rw [imageBlock, hfind]
  by_cases hlt : b.toNat < p.blocks
  · rw [if_pos hlt]
    exact dif_pos ((le_sub_one_iff hpos).mpr hlt)
  · rw [if_neg hlt]
    exact dif_neg (mt (le_sub_one_iff hpos).mp hlt)

/-- The rounds as far as the number is behind the images. -/
theorem exists_imageBlock (hlayout : Layout mtdHead)
    (hagree : ∀ l₁ p l₂, l = l₁ ++ p :: l₂ → Agrees mtdHead l₁) (h : Consecutive mtdHead l)
    (hb : total MtdInfo.blocks l ≤ b.toNat) : ∃ b' : UInt32,
      b.toNat = b'.toNat + total MtdInfo.blocks l ∧
        imageBlock mtdHead 0 b = imageBlock mtdHead l.length b' := by
  induction l using List.reverseRecOn with
  | nil => exact ⟨b, rfl, rfl⟩
  | append_singleton l p ih =>
    have hsum : total MtdInfo.blocks (l ++ [p]) = total MtdInfo.blocks l + p.blocks := by simp
    obtain ⟨b', hb', hrounds⟩ := ih
      (fun l₁ q l₂ heq => hagree l₁ q (l₂ ++ [p]) (by simp [heq])) h.of_append (by omega)
    have hbehind : ¬ b'.toNat < p.blocks := by omega
    have hround := imageBlock_snoc (b := b') hlayout (hagree l p [] rfl) h
    rw [if_neg hbehind] at hround
    have hsub : (b' - p.blockNum).toNat = b'.toNat - p.blocks :=
      UInt32.toNat_sub_of_le _ _ (UInt32.le_iff_toNat_le.mpr (Nat.le_of_not_lt hbehind))
    refine ⟨b' - p.blockNum, by omega, ?_⟩
    rw [List.length_append, hrounds, hround]
    rfl

/-- The images that the rounds go through, as far as the block numbers reach. -/
theorem placed_of_imageBlock (hlayout : Layout mtdHead)
    (hagree : ∀ l, Consecutive mtdHead l → total MtdInfo.blocks l < 2 ^ 32 → Agrees mtdHead l)
    (h : Consecutive mtdHead l) (hb : b.toNat + total MtdInfo.blocks l < 2 ^ 32)
    (hfound : imageBlock mtdHead l.length b = some (p, o)) :
    ∃ l', Consecutive mtdHead (l' ++ [p]) ∧
      Placed MtdInfo.blocks l' p o.toNat (b.toNat + total MtdInfo.blocks l) := by
  induction hn : b.toNat using Nat.strongRecOn generalizing b l with
  | ind n ih =>
    subst hn
    have hrow := hagree l h (by omega)
    cases hfind : mtdHead.find? (fun tmp => Begins tmp.name (imageString l.length)) with
    | none =>
      rw [imageBlock, hfind] at hfound
      cases hfound
    | some q =>
      have hq : Consecutive mtdHead (l ++ [q]) :=
        consecutive_snoc.mpr ⟨h, (find?_named hlayout).mp (hrow.symm.trans hfind)⟩
      rw [imageBlock_snoc hlayout hrow hq] at hfound
      split at hfound
      · next hlt =>
        obtain ⟨rfl, rfl⟩ := Prod.mk.inj (Option.some.inj hfound)
        exact ⟨l, hq, hlt, rfl⟩
      · next hge =>
        have hpos : 0 < q.blocks := hlayout.images q (consecutive_snoc.mp hq).2.1 _
          (consecutive_snoc.mp hq).2.2
        have hsub : (b - q.blockNum).toNat = b.toNat - q.blocks :=
          UInt32.toNat_sub_of_le _ _ (UInt32.le_iff_toNat_le.mpr (Nat.le_of_not_lt hge))
        have hsum : total MtdInfo.blocks (l ++ [q]) = total MtdInfo.blocks l + q.blocks := by simp
        have hnext : imageBlock mtdHead (l ++ [q]).length (b - q.blockNum) = some (p, o) := by
          rwa [List.length_append]
        obtain ⟨l', hl', hplaced⟩ := ih (b - q.blockNum).toNat (by omega) hq (by omega) hnext rfl
        refine ⟨l', hl', hplaced.1, ?_⟩
        have hplace := hplaced.2
        omega

end Rows

section Numbers

variable {mtdHead : List MtdInfo}

theorem getmtdbyblocknum_image (b : UInt32) :
    getmtdbyblocknum mtdHead imageSect b = imageBlock mtdHead 0 b := by
  simp [getmtdbyblocknum, show strncmp imageSect.chars imageSect.chars
    imageSect.chars.length = 0 by decide]

/-- The search goes through the images if all its rounds agree. -/
theorem places_of_agrees (hlayout : Layout mtdHead)
    (hagree : ∀ l, Consecutive mtdHead l → total MtdInfo.blocks l < 2 ^ 32 → Agrees mtdHead l)
    (b : UInt32) (p : MtdInfo) (o : UInt32) :
    getmtdbyblocknum mtdHead imageSect b = some (p, o) ↔
      ∃ l, Consecutive mtdHead (l ++ [p]) ∧ Placed MtdInfo.blocks l p o.toNat b.toNat := by
  have hlt : b.toNat < 2 ^ 32 := b.toNat_lt
  rw [getmtdbyblocknum_image]
  constructor
  · intro hfound
    have hempty : Consecutive mtdHead [] := fun k p hp => by simp at hp
    exact placed_of_imageBlock hlayout hagree hempty hlt hfound
  · rintro ⟨l, hl, ho, hb⟩
    have hagree' : ∀ l₁ q l₂, l = l₁ ++ q :: l₂ → Agrees mtdHead l₁ := by
      rintro l₁ q l₂ rfl
      have hsum : total MtdInfo.blocks (l₁ ++ q :: l₂) =
        total MtdInfo.blocks l₁ + total MtdInfo.blocks (q :: l₂) := total_append
      exact hagree l₁ hl.of_append.of_append (by omega)
    obtain ⟨b', hb', hrounds⟩ :=
      exists_imageBlock hlayout hagree' hl.of_append (show _ ≤ b.toNat by omega)
    obtain rfl : o = b' := UInt32.toNat_inj.mp (by omega)
    rw [hrounds, imageBlock_snoc hlayout (hagree l hl.of_append (by omega)) hl, if_pos ho]

/-- All rounds agree if the search goes through the images. -/
theorem agrees_of_places (hlayout : Layout mtdHead)
    (hplaces : ∀ b p o, getmtdbyblocknum mtdHead imageSect b = some (p, o) ↔
      ∃ l, Consecutive mtdHead (l ++ [p]) ∧ Placed MtdInfo.blocks l p o.toNat b.toNat)
    {l : List MtdInfo} (h : Consecutive mtdHead l) (hreach : total MtdInfo.blocks l < 2 ^ 32) :
    Agrees mtdHead l := by
  induction hn : l.length using Nat.strongRecOn generalizing l with
  | ind n ih =>
    subst hn
    have hfront : ∀ l₁ q l₂, l = l₁ ++ q :: l₂ → Agrees mtdHead l₁ := by
      rintro l₁ q l₂ rfl
      have hsum : total MtdInfo.blocks (l₁ ++ q :: l₂) =
        total MtdInfo.blocks l₁ + total MtdInfo.blocks (q :: l₂) := total_append
      exact ih l₁.length (by simp) h.of_append (by omega) rfl
    have hstart : (UInt32.ofNat (total MtdInfo.blocks l)).toNat = total MtdInfo.blocks l :=
      UInt32.toNat_ofNat_of_lt' hreach
    obtain ⟨b', hb', hrounds⟩ := exists_imageBlock hlayout hfront h hstart.ge
    obtain rfl : b' = 0 := UInt32.toNat_inj.mp (by rw [hstart] at hb'; simpa using hb')
    refine Option.ext fun p => ?_
    have hplace : imageBlock mtdHead l.length 0 = some (p, 0) ↔ Consecutive mtdHead (l ++ [p]) := by
      rw [← hrounds, ← getmtdbyblocknum_image, hplaces]
      constructor
      · rintro ⟨l', hl', -, htotal⟩
        obtain rfl : l = l' := eq_of_total hlayout h hl'.of_append (by
          rw [hstart] at htotal
          simpa using htotal)
        exact hl'
      · intro hl
        obtain ⟨-, hmem, hname⟩ := consecutive_snoc.mp hl
        exact ⟨l, hl, hlayout.images p hmem _ hname, by rw [hstart]; simp⟩
    rw [find?_named hlayout]
    refine Iff.trans ?_ (hplace.trans (consecutive_snoc.trans (and_iff_right h)))
    rw [imageBlock]
    cases hfind : mtdHead.find? (fun tmp => Begins tmp.name (imageString l.length)) with
    | none => simp
    | some q =>
      have hzero : (0 : UInt32) ≤ q.blockNum - 1 := UInt32.le_iff_toNat_le.mpr (Nat.zero_le _)
      simp [hzero]

theorem agrees_iff_behind {l : List MtdInfo} (hlen : l.length < 9) : Agrees mtdHead l ↔
    ∀ front p rest, mtdHead = front ++ p :: rest → imageName (l.length + 1) <+: p.name.chars →
      p.name.chars ≠ imageName (l.length + 1) →
        ∃ q ∈ front, q.name.chars = imageName (l.length + 1) := by
  have hsharp : ∀ tmp : MtdInfo, tmp.name.chars = imageName (l.length + 1) →
      Begins tmp.name (imageString l.length) := by
    intro tmp hname
    refine begins_iff.mpr ⟨[], ?_⟩
    rw [List.append_nil, chars_imageString hlen, hname]
  rw [Agrees, find?_eq_find?_iff hsharp]
  simp only [begins_iff, chars_imageString hlen, ne_eq]

theorem agrees_iff_nine {l : List MtdInfo} (hlen : l.length = 9) : Agrees mtdHead l ↔
    ∀ p ∈ mtdHead, p.name.chars ≠ imageName 10 ∧ ¬ imageSect.chars ++ [58] <+: p.name.chars := by
  have hstring : (imageString 9).chars = imageSect.chars ++ [58] := by decide
  have hapart : ¬ imageSect.chars ++ [58] <+: imageName 10 := by decide
  simp only [Agrees, hlen, begins_iff, hstring]
  constructor
  · intro hsame
    have hnone : mtdHead.find? (fun tmp => tmp.name.chars = imageName 10) = none := by
      refine Option.eq_none_iff_forall_ne_some.mpr fun p hp => hapart ?_
      have hname : p.name.chars = imageName 10 := by simpa using List.find?_some hp
      have hbegins := List.find?_some (hsame.trans hp)
      simpa [hname] using hbegins
    have hnone' := hsame.trans hnone
    simp only [List.find?_eq_none, decide_eq_true_eq] at hnone hnone'
    exact fun p hp => ⟨hnone p hp, hnone' p hp⟩
  · intro hall
    have hnone : mtdHead.find? (fun tmp => tmp.name.chars = imageName 10) = none := by
      simpa only [List.find?_eq_none, decide_eq_true_eq] using fun p hp => (hall p hp).1
    refine Eq.trans ?_ hnone.symm
    simpa only [List.find?_eq_none, decide_eq_true_eq] using fun p hp => (hall p hp).2

theorem fits_iff_agrees : Fits mtdHead ↔
    ∀ l, Consecutive mtdHead l → total MtdInfo.blocks l < 2 ^ 32 → Agrees mtdHead l := by
  constructor
  · intro hfits l hl hreach
    obtain hlt | hlen | hgt := Nat.lt_trichotomy l.length 9
    · exact (agrees_iff_behind hlt).mpr (hfits.behind l hl hreach hlt)
    · exact (agrees_iff_nine hlen).mpr (hfits.nine l hl hreach hlen)
    · have htenth := hl 9 _ (List.getElem?_eq_getElem hgt)
      have hsum : total MtdInfo.blocks (l.take 9) + total MtdInfo.blocks (l.drop 9) =
          total MtdInfo.blocks l := by
        rw [← total_append, List.take_append_drop]
      have hfront : Consecutive mtdHead (l.take 9) := by
        apply Consecutive.of_append
        rwa [List.take_append_drop 9 l]
      exact absurd htenth.2 (hfits.nine _ hfront (by omega) (by simpa using hgt.le) _ htenth.1).1
  · intro hagree
    exact ⟨fun l hl hreach hlen => (agrees_iff_behind hlen).mp (hagree l hl hreach),
      fun l hl hreach hlen => (agrees_iff_nine hlen).mp (hagree l hl hreach)⟩

/-- Where the places are right, the numbers below the total have one and no two have the same. -/
theorem numbered_of_places (hplaces : ∀ b p o, getmtdbyblocknum mtdHead imageSect b = some (p, o) ↔
      ∃ l, Consecutive mtdHead (l ++ [p]) ∧ Placed MtdInfo.blocks l p o.toNat b.toNat)
    (hlayout : Layout mtdHead) : Numbered mtdHead := by
  refine ⟨hplaces, fun b => ?_, fun b b' place hb hb' => ?_⟩
  · constructor
    · intro hsome
      obtain ⟨⟨p, o⟩, hfound⟩ := Option.isSome_iff_exists.mp hsome
      obtain ⟨l, hl, hplaced⟩ := (hplaces b p o).mp hfound
      exact ⟨l ++ [p], hl, hplaced.lt_total⟩
    · rintro ⟨l, hl, hlt⟩
      obtain ⟨l₁, p, l₂, o, rfl, hplaced⟩ := exists_placed hlt
      have hsplit : l₁ ++ p :: l₂ = l₁ ++ [p] ++ l₂ := by simp
      have hfront : Consecutive mtdHead (l₁ ++ [p]) := by
        rw [hsplit] at hl
        exact hl.of_append
      have ho : (UInt32.ofNat o).toNat = o := by
        have hb : b.toNat < 2 ^ 32 := b.toNat_lt
        have hbo := hplaced.2
        exact UInt32.toNat_ofNat_of_lt' (show o < 2 ^ 32 by omega)
      exact Option.isSome_of_eq_some
        ((hplaces b p (UInt32.ofNat o)).mpr ⟨l₁, hfront, by rwa [ho]⟩)
  · obtain ⟨l, hl, -, hlb⟩ := (hplaces b place.1 place.2).mp hb
    obtain ⟨l', hl', -, hlb'⟩ := (hplaces b' place.1 place.2).mp hb'
    have hname := (consecutive_snoc.mp hl).2.2.symm.trans (consecutive_snoc.mp hl').2.2
    obtain rfl : l = l' := consecutive_unique hlayout hl.of_append hl'.of_append
      (Nat.succ_injective (imageName_inj hname))
    exact UInt32.toNat_inj.mp (hlb.trans hlb'.symm)

/-- Only the first nine images have a name to search for, and a name that goes on behind it is
found with it. -/
theorem numbered_iff (hlayout : Layout mtdHead) : Numbered mtdHead ↔ Fits mtdHead := by
  rw [fits_iff_agrees]
  constructor
  · exact fun h l hl hreach => agrees_of_places hlayout h.places hl hreach
  · exact fun h => numbered_of_places (places_of_agrees hlayout h) hlayout

theorem find?_filter_image (i : ℕ) : (mtdHead.filter fun tmp => Begins tmp.name imageSect).find?
    (fun tmp => Begins tmp.name (imageString i)) =
      mtdHead.find? fun tmp => Begins tmp.name (imageString i) := by
  have hsect : imageSect.chars <+: (imageString i).chars :=
    ⟨[UInt8.ofNat (49 + i)].takeWhile (· ≠ 0),
      (List.takeWhile_append_of_pos (by decide +kernel)).symm⟩
  rw [List.find?_filter]
  congr 1
  funext tmp
  simpa [begins_iff] using hsect.trans

theorem imageBlock_filter (i : ℕ) (b : UInt32) :
    imageBlock (mtdHead.filter fun tmp => Begins tmp.name imageSect) i b =
      imageBlock mtdHead i b := by
  induction hn : b.toNat using Nat.strongRecOn generalizing b i with
  | ind n ih =>
    subst hn
    rw [imageBlock, imageBlock, find?_filter_image]
    split
    · rfl
    · split
      · rfl
      · next hge =>
        have hsub := toNat_sub_of_not_le hge
        exact ih _ (by omega) (i + 1) _ rfl

theorem consecutive_filter {l : List MtdInfo} :
    Consecutive (mtdHead.filter fun tmp => Begins tmp.name imageSect) l ↔
      Consecutive mtdHead l := by
  refine forall₂_congr fun k p => imp_congr_right fun _ => and_congr_left fun hname => ?_
  rw [List.mem_filter, and_iff_left]
  exact decide_eq_true (begins_iff.mpr (hname ▸ List.prefix_append _ _))

/-- The list that is kept of `/proc/mtd` for the images has all that the search needs. -/
theorem numbered_kdGetMtdImageInfo (proc : List MtdLine) :
    Numbered (kdGetMtdImageInfo [] (some proc) imageSect) ↔
      Numbered (proc.map MtdLine.info) := by
  have hget : ∀ b, getmtdbyblocknum (kdGetMtdImageInfo [] (some proc) imageSect) imageSect b =
      getmtdbyblocknum (proc.map MtdLine.info) imageSect b := by
    intro b
    rw [getmtdbyblocknum_image, getmtdbyblocknum_image]
    exact imageBlock_filter 0 b
  have hrow : ∀ l, Consecutive (kdGetMtdImageInfo [] (some proc) imageSect) l ↔
      Consecutive (proc.map MtdLine.info) l := fun l => consecutive_filter
  constructor
  · rintro ⟨hplaces, hbelow, hinj⟩
    simp only [hget, hrow] at hplaces hbelow hinj
    exact ⟨hplaces, hbelow, hinj⟩
  · rintro ⟨hplaces, hbelow, hinj⟩
    simp only [← hget, ← hrow] at hplaces hbelow hinj
    exact ⟨hplaces, hbelow, hinj⟩

/-- Two images behind each other, the second of which is first in `/proc/mtd`. -/
def swapped : List MtdInfo :=
  [⟨0, 0x100000, 0x20000, 8, ⟨[105, 109, 97, 103, 101, 50], by decide⟩⟩,
    ⟨1, 0x80000, 0x20000, 4, ⟨[105, 109, 97, 103, 101, 49], by decide⟩⟩]

theorem numbered_iff_swapped : Numbered swapped ↔ Fits swapped :=
  numbered_iff ⟨by decide, fun p hp _ _ => by
    obtain rfl | hp := List.mem_cons.mp hp
    · decide
    · obtain rfl := List.mem_singleton.mp hp
      decide⟩

/-- `image10` of five blocks, and `image1` of four. -/
def tenthFirst : List MtdInfo :=
  [⟨0, 0xa0000, 0x20000, 5, ⟨[105, 109, 97, 103, 101, 49, 48], by decide⟩⟩,
    ⟨1, 0x80000, 0x20000, 4, ⟨[105, 109, 97, 103, 101, 49], by decide⟩⟩]

/-- The first block of `image1` is looked for in `image10`. -/
theorem not_numbered_tenthFirst : Layout tenthFirst ∧ ¬ Numbered tenthFirst := by
  constructor
  · refine ⟨by decide, fun p hp _ _ => ?_⟩
    obtain rfl | hp := List.mem_cons.mp hp
    · decide
    · obtain rfl := List.mem_singleton.mp hp
      decide
  · intro hnumbered
    have hempty : Consecutive tenthFirst [] := fun k p hp => by simp at hp
    have hfirst : Consecutive tenthFirst ([] ++ [tenthFirst[1]]) :=
      consecutive_snoc.mpr ⟨hempty, by decide, by decide⟩
    have hfound := (hnumbered.places 0 tenthFirst[1] 0).mpr ⟨[], hfirst, by decide, by decide⟩
    rw [getmtdbyblocknum_image, imageBlock] at hfound
    exact absurd hfound (by decide)

end Numbers

end FlashBlocks
