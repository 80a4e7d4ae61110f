import Mathlib.Logic.Function.Basic
import Mathlib.Data.Nat.Bitwise
import Mathlib.Algebra.Ring.Nat
import RouterFirmware.BlockPartition

/-! # Boot memory allocator

Free physical memory is a linked list whose nodes are the free blocks themselves: the first
word of a block is the address of the next one, the second its size. `0` ends the list. The
list, the live blocks and the table of named blocks are shared by the boot loader, the
operating system and the applications of the chip.
-/
namespace Bootmem

open BlockPartition

/-! ## 64-bit words -/

def add64 (x y : ℕ) : ℕ := (x + y) % 2 ^ 64

def sub64 (x y : ℕ) : ℕ := (x + (2 ^ 64 - y)) % 2 ^ 64

def not64 (x : ℕ) : ℕ := 2 ^ 64 - 1 - x

def alignmentSize : ℕ := 16

/-- `(x + (align - 1)) & ~(align - 1)`. -/
def roundUp (x align : ℕ) : ℕ := add64 x (sub64 align 1) &&& not64 (sub64 align 1)

/-- `ALIGN_ADDR_UP`, which takes the mask. -/
def alignAddrUp (addr mask : ℕ) : ℕ := add64 addr (not64 mask) &&& mask

/-! ## Physical memory

Every access is to a word at a multiple of 8, so words do not overlap. -/

abbrev Mem := ℕ → ℕ

def octeonXkphys (address : ℕ) : ℕ := address ||| 2 ^ 63

def octeonRead64 (m : Mem) (addr : ℕ) : ℕ := m (octeonXkphys addr)

def octeonWrite64 (m : Mem) (addr val : ℕ) : Mem := Function.update m (octeonXkphys addr) val

def octeonPhyMemGetNext (m : Mem) (addr : ℕ) : ℕ := octeonRead64 m addr

def octeonPhyMemGetSize (m : Mem) (addr : ℕ) : ℕ := octeonRead64 m (add64 addr 8)

def octeonPhyMemSetNext (m : Mem) (addr next : ℕ) : Mem := octeonWrite64 m addr next

def octeonPhyMemSetSize (m : Mem) (addr size : ℕ) : Mem := octeonWrite64 m (add64 addr 8) size

structure NamedBlockDesc where
  baseAddr : ℕ
  size : ℕ
  name : List UInt8
  deriving DecidableEq

/-- The descriptor with the memory and the table of named blocks it points to. -/
structure BootmemDesc where
  mem : Mem
  headAddr : ℕ
  majorVersion : ℕ
  namedBlockNameLen : UInt32
  namedBlocks : List NamedBlockDesc

def BootmemDesc.next (d : BootmemDesc) (addr : ℕ) : ℕ := octeonPhyMemGetNext d.mem addr

def BootmemDesc.size (d : BootmemDesc) (addr : ℕ) : ℕ := octeonPhyMemGetSize d.mem addr

def BootmemDesc.setNext (d : BootmemDesc) (addr next : ℕ) : BootmemDesc :=
  { d with mem := octeonPhyMemSetNext d.mem addr next }

def BootmemDesc.setSize (d : BootmemDesc) (addr size : ℕ) : BootmemDesc :=
  { d with mem := octeonPhyMemSetSize d.mem addr size }

def BootmemDesc.setHead (d : BootmemDesc) (addr : ℕ) : BootmemDesc := { d with headAddr := addr }

/-! ## Allocation -/

/-- The entry `ent` is taken from its start on: a rest becomes an entry of its own, and the
predecessor, or the head, goes past the part returned. -/
def takeStart (reqSize prevAddr entAddr : ℕ) (d : BootmemDesc) : BootmemDesc :=
  let entSize := d.size entAddr
  let d := if reqSize < entSize then
      let newEntAddr := add64 entAddr reqSize
      ((d.setNext newEntAddr (d.next entAddr)).setSize newEntAddr
        (sub64 entSize reqSize)).setNext entAddr newEntAddr
    else d
  if prevAddr ≠ 0 then d.setNext prevAddr (d.next entAddr) else d.setHead (d.next entAddr)

/-- The entry is cut in two at `newEntAddr`, both parts staying on the list. -/
def splitEntry (entAddr newEntAddr : ℕ) (d : BootmemDesc) : BootmemDesc :=
  let d := d.setNext newEntAddr (d.next entAddr)
  let d := d.setSize newEntAddr (sub64 (d.size entAddr) (sub64 newEntAddr entAddr))
  (d.setSize entAddr (sub64 newEntAddr entAddr)).setNext entAddr newEntAddr

/-- The walk of `octeon_phy_mem_block_alloc`; `none` when the fuel runs out. -/
def allocLoop (reqSize addressMin addressMax alignmentMask : ℕ) :
    ℕ → ℕ → ℕ → BootmemDesc → Option (BootmemDesc × ℕ)
  | 0, _, _, _ => none
  | fuel + 1, prevAddr, entAddr, d =>
    if entAddr = 0 then some (d, 0)
    else if d.next entAddr ≠ 0 ∧ entAddr > d.next entAddr then some (d, 0)
    else
      let entEnd := add64 entAddr (d.size entAddr)
      let usableBase := alignAddrUp (max addressMin entAddr) alignmentMask
      let usableMax := min addressMax entEnd
      if (entEnd > usableBase ∧ entAddr < addressMax) ∧
          reqSize ≤ sub64 usableMax usableBase then
        if usableBase = entAddr then some (takeStart reqSize prevAddr entAddr d, usableBase)
        else
          let d := splitEntry entAddr usableBase d
          allocLoop reqSize addressMin addressMax alignmentMask fuel entAddr (d.next entAddr) d
      else allocLoop reqSize addressMin addressMax alignmentMask fuel entAddr (d.next entAddr) d

/-- An exact range is meant by a minimum without a maximum, every range by neither. -/
def adjustMax (reqSize addressMin addressMax : ℕ) : ℕ :=
  if addressMin ≠ 0 ∧ addressMax = 0 then add64 addressMin reqSize
  else if addressMin = 0 ∧ addressMax = 0 then 2 ^ 64 - 1
  else addressMax

def octeonPhyMemBlockAlloc (fuel reqSize addressMin addressMax alignment : ℕ) (d : BootmemDesc) :
    Option (BootmemDesc × ℕ) :=
  if d.majorVersion > 3 then some (d, 0)
  else if reqSize = 0 then some (d, 0)
  else
    let reqSize := roundUp reqSize alignmentSize
    let addressMax := adjustMax reqSize addressMin addressMax
    if addressMin &&& (alignmentSize - 1) ≠ 0 then some (d, 0)
    else
      let addressMin := if alignment ≠ 0 then roundUp addressMin alignment else addressMin
      if reqSize > sub64 addressMax addressMin then some (d, 0)
      else
        let alignment := if alignment < alignmentSize then alignmentSize else alignment
        allocLoop reqSize addressMin addressMax (not64 (sub64 alignment 1)) fuel 0 d.headAddr d

/-! ## Release -/

/-- The walk to the place of a block: its neighbours on the list. -/
def findPlace (d : BootmemDesc) (phyAddr : ℕ) : ℕ → ℕ → ℕ → Option (ℕ × ℕ)
  | 0, _, _ => none
  | fuel + 1, prevAddr, curAddr =>
    if curAddr ≠ 0 ∧ phyAddr > curAddr then findPlace d phyAddr fuel curAddr (d.next curAddr)
    else some (prevAddr, curAddr)

def freeFront (phyAddr size curAddr : ℕ) (d : BootmemDesc) : BootmemDesc × ℕ :=
  if curAddr ≠ 0 ∧ add64 phyAddr size > curAddr then (d, 0)
  else if add64 phyAddr size = curAddr then
    let d := d.setNext phyAddr (d.next curAddr)
    ((d.setSize phyAddr (add64 (d.size curAddr) size)).setHead phyAddr, 1)
  else
    (((d.setNext phyAddr curAddr).setSize phyAddr size).setHead phyAddr, 1)

/-- The block goes behind `prevAddr`, the last one of the list. -/
def freeLast (phyAddr size prevAddr : ℕ) (d : BootmemDesc) : BootmemDesc :=
  if add64 prevAddr (d.size prevAddr) = phyAddr then
    d.setSize prevAddr (add64 (d.size prevAddr) size)
  else ((d.setNext prevAddr phyAddr).setSize phyAddr size).setNext phyAddr 0

/-- The block goes between two neighbours and joins those it touches. -/
def freeBetween (phyAddr size prevAddr curAddr : ℕ) (d : BootmemDesc) : BootmemDesc :=
  if add64 prevAddr (d.size prevAddr) = phyAddr then
    let d := d.setSize prevAddr (add64 (d.size prevAddr) size)
    if add64 phyAddr size = curAddr then
      let d := d.setSize prevAddr (add64 (d.size curAddr) (d.size prevAddr))
      d.setNext prevAddr (d.next curAddr)
    else d
  else if add64 phyAddr size = curAddr then
    let d := d.setSize phyAddr (add64 (d.size curAddr) size)
    (d.setNext phyAddr (d.next curAddr)).setNext prevAddr phyAddr
  else ((d.setSize phyAddr size).setNext phyAddr curAddr).setNext prevAddr phyAddr

def octeonPhyMemBlockFree (fuel phyAddr size : ℕ) (d : BootmemDesc) : Option (BootmemDesc × ℕ) :=
  if d.majorVersion > 3 then some (d, 0)
  else if size = 0 then some (d, 0)
  else if d.headAddr = 0 ∨ phyAddr < d.headAddr then some (freeFront phyAddr size d.headAddr d)
  else
    (findPlace d phyAddr fuel 0 d.headAddr).map fun place =>
      if place.2 = 0 then (freeLast phyAddr size place.1 d, 1)
      else (freeBetween phyAddr size place.1 place.2 d, 1)

def availableLoop (d : BootmemDesc) (minBlockSize : ℕ) : ℕ → ℕ → ℕ → Option ℕ
  | 0, _, _ => none
  | fuel + 1, addr, availableMem =>
    if addr = 0 then some availableMem
    else availableLoop d minBlockSize fuel (d.next addr)
      (if d.size addr ≥ minBlockSize then add64 availableMem (d.size addr) else availableMem)

def octeonPhyMemListAvailableMem (fuel minBlockSize : ℕ) (d : BootmemDesc) : Option ℕ :=
  availableLoop d minBlockSize fuel d.headAddr 0

/-! ## Named blocks -/

/-- The characters of a string, without the `0` that ends it. -/
structure CString where
  chars : List UInt8
  noNul : 0 ∉ chars
  deriving DecidableEq

/-- Behind the end of a list there is the `0` that ends the string. -/
def strncmp : List UInt8 → List UInt8 → ℕ → ℤ
  | _, _, 0 => 0
  | s, t, n + 1 =>
    if s.headD 0 ≠ t.headD 0 then (s.headD 0).toNat - (t.headD 0).toNat
    else if s.headD 0 = 0 then 0
    else strncmp s.tail t.tail n

/-- At most `n` characters are copied, and a shorter string is filled up with `0`. -/
def strncpy (dst src : List UInt8) (n : ℕ) : List UInt8 :=
  src.take n ++ List.replicate (n - src.length) 0 ++ dst.drop n

/-- The first block of the name, or the first descriptor not in use for `NULL`. -/
def octeonPhyMemNamedBlockFindInternal (d : BootmemDesc) (name : Option CString) :
    Option (Fin d.namedBlocks.length) :=
  if d.majorVersion = 3 then
    d.namedBlocks.findFinIdx? fun b =>
      match name with
      | some name => b.size ≠ 0 ∧ strncmp name.chars b.name (d.namedBlockNameLen - 1).toNat = 0
      | none => b.size = 0
  else none

def octeonPhyMemNamedBlockFind (d : BootmemDesc) (name : Option CString) :
    Option NamedBlockDesc :=
  (octeonPhyMemNamedBlockFindInternal d name).map d.namedBlocks.get

def BootmemDesc.setNamed (d : BootmemDesc) (i : ℕ) (b : NamedBlockDesc) : BootmemDesc :=
  { d with namedBlocks := d.namedBlocks.set i b }

def octeonPhyMemNamedBlockFree (fuel : ℕ) (name : Option CString) (d : BootmemDesc) :
    Option (BootmemDesc × ℕ) :=
  if d.majorVersion ≠ 3 then some (d, 0)
  else
    match octeonPhyMemNamedBlockFindInternal d name with
    | none => some (d, 0)
    | some i =>
      (octeonPhyMemBlockFree fuel (d.namedBlocks.get i).baseAddr (d.namedBlocks.get i).size d).map
        fun out => (out.1.setNamed i { d.namedBlocks.get i with size := 0 }, 1)

/-- The descriptor of a block, with the name cut to the length of the name array. -/
def nameBlock (d : BootmemDesc) (b : NamedBlockDesc) (addr size : ℕ) (name : CString) :
    NamedBlockDesc :=
  ⟨addr, size, (strncpy b.name name.chars d.namedBlockNameLen.toNat).set
    (d.namedBlockNameLen - 1).toNat 0⟩

def octeonPhyMemNamedBlockAlloc (fuel size minAddr maxAddr alignment : ℕ) (name : Option CString)
    (d : BootmemDesc) : Option (BootmemDesc × ℕ) :=
  if d.majorVersion ≠ 3 then some (d, 0)
  else
    match octeonPhyMemNamedBlockFindInternal d none,
        octeonPhyMemNamedBlockFindInternal d name, name with
    | some i, none, some name =>
      let size := roundUp size alignmentSize
      (octeonPhyMemBlockAlloc fuel size minAddr maxAddr alignment d).map fun out =>
        if out.2 ≠ 0 then
          (out.1.setNamed i (nameBlock d (d.namedBlocks.get i) out.2 size name), out.2)
        else (out.1, 0)
    | _, _, _ => some (d, 0)

end Bootmem
