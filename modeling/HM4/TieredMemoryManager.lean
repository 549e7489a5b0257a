import HM4.Bytes
import HM4.General.FreeList
import Mathlib.Data.List.Basic
import Mathlib.Data.List.Nodup
import Mathlib.Logic.Function.Basic
import Mathlib.Order.Lattice
import Mathlib.Order.MinMax
import Mathlib.Tactic.IntervalCases
import Mathlib.Tactic.SplitIfs

/-!
# The buffers of the clients

`TieredMemoryManager` cuts one piece of memory into blocks of eight sizes. Each
size, a tier, has a `SlabAllocator` that threads its free blocks into a list
through their own first octets. A client holds at most one block, which it
outgrows into one of a larger tier.
-/

namespace HM4.TieredMemoryManager

open Bytes FreeList

/-- The memory of the process. -/
abbrev Mem := Memory Byte

/-- A `void *` as it lies in memory. -/
def pointer : Word Byte where
  width := 8
  bound := 2 ^ 64
  encode := leBytes 8
  decode := leValue
  length_encode := leBytes_length 8
  decode_encode _ h := leValue_leBytes h

def MIN_COUNT : ℕ := 2
def KB : ℕ := 1024
def MB : ℕ := 1024 * 1024

/-- The block size of each tier. -/
def SIZES : List ℕ :=
  [16 * KB, 64 * KB, 256 * KB, 1 * MB, 4 * MB, 16 * MB, 64 * MB, 256 * MB + 64 * KB]

/-- `SIZES[tier]`. -/
def sizeOf (tier : ℕ) : ℕ := SIZES.getD tier 0

/-- `capacity2tier`: `SIZES.size()` for a capacity of no tier. -/
def capacity2tier (capacity : ℕ) : ℕ := SIZES.idxOf capacity

/-- `findTier_`: `SIZES.size()` if no tier is large enough. -/
def findTier (needed : ℕ) : ℕ := SIZES.findIdx fun size => needed ≤ size

/-- The largest `uint32_t`. -/
def maxUInt : ℕ := 2 ^ 32 - 1

def calcMaxClients (maxClients : ℕ) : ℕ :=
  if maxClients ≥ maxUInt - 1 then maxUInt - 1 else maxClients + 1

def DIVISORS : List ℕ := [1, 4, 16, 64, 256, 1024, 4096, 16384]

/-- `calcMinimumCount`: how many blocks a tier gets. -/
def calcMinimumCount (tier value maxClients : ℕ) : ℕ :=
  let maxClients := calcMaxClients maxClients
  if value = maxUInt then 0
  else if value ≠ 0 then min value maxClients
  else max (maxClients / DIVISORS.getD tier 0) MIN_COUNT

/-- `cSize__`: the octets of a tier, a product of two `uint32_t`. -/
def cSize (counts : ℕ → ℕ) (maxClients tier : ℕ) : ℕ :=
  sizeOf tier * calcMinimumCount tier (counts tier) maxClients % 2 ^ 32

/-- The octets of the tiers before one. -/
def offset (counts : ℕ → ℕ) (maxClients : ℕ) : ℕ → ℕ
  | 0 => 0
  | tier + 1 => offset counts maxClients tier + cSize counts maxClients tier

/-- `MemoryResource`: the memory the constructor asks for, as it was granted. -/
structure Resource (counts : ℕ → ℕ) (maxClients : ℕ) where
  /-- The address of its first octet. -/
  data : ℕ
  /-- What the memory holds. -/
  mem : Mem
  data_pos : 0 < offset counts maxClients 8 → 0 < data
  fits : data + offset counts maxClients 8 ≤ 2 ^ 64

example : Resource (fun _ => 0) 100 := ⟨4096, fun _ => 0, by decide, by decide⟩

/-- `SlabAllocator`: its buffer, and the address of its first free block. -/
structure Slab where
  /-- The address of the buffer. -/
  data : ℕ
  /-- The octets of the buffer. -/
  size : ℕ
  freeList : ℕ

/-- `createFreeList_`: the blocks below the `i`-th, linked from the last to the first. -/
def createFreeList (blockSize data : ℕ) : ℕ → Mem × ℕ → Mem × ℕ
  | 0, s => s
  | i + 1, s =>
    let block := data + i * blockSize
    createFreeList blockSize data i (store pointer s.1 block s.2, block)

/-- `xallocate`: the first free block, or `nullptr`. -/
def xallocate (m : Mem) (slab : Slab) : ℕ × Slab :=
  if slab.freeList = 0 then (0, slab)
  else (slab.freeList, { slab with freeList := load pointer m slab.freeList })

/-- `owns_`. -/
def owns (slab : Slab) (p : ℕ) : Bool := slab.data ≤ p && p < slab.data + slab.size

/-- `xdeallocate`. -/
def xdeallocate (m : Mem) (slab : Slab) (p : ℕ) : Mem × Slab :=
  if owns slab p then (store pointer m p slab.freeList, { slab with freeList := p })
  else (m, slab)

/-- What a client holds. -/
structure Context where
  data : ℕ
  size : ℕ
  capacity : ℕ
  deriving DecidableEq

/-- `Context::clear`. -/
def Context.clear : Context := ⟨0, 0, 0⟩

/-- The memory, the eight slabs and the contexts of the clients. -/
structure State (C : Type*) where
  mem : Mem
  slabs : ℕ → Slab
  context : C → Context

section Construct

variable {counts : ℕ → ℕ} {maxClients : ℕ}

/-- `cPtr__`: where the blocks of a tier begin. -/
def Resource.cPtr (r : Resource counts maxClients) (tier : ℕ) : ℕ :=
  r.data + offset counts maxClients tier

/-- The first slabs, constructed one after another. -/
def Resource.slabs (r : Resource counts maxClients) : ℕ → Mem × (ℕ → Slab)
  | 0 => (r.mem, fun _ => ⟨0, 0, 0⟩)
  | tier + 1 =>
    let s := r.slabs tier
    let size := cSize counts maxClients tier
    let list := createFreeList (sizeOf tier) (r.cPtr tier) (size / sizeOf tier) (s.1, 0)
    (list.1, Function.update s.2 tier ⟨r.cPtr tier, size, list.2⟩)

/-- `TieredMemoryManager`: the state after construction. -/
def Resource.start (r : Resource counts maxClients) (C : Type*) : State C :=
  ⟨(r.slabs 8).1, (r.slabs 8).2, fun _ => Context.clear⟩

/-- The blocks of a tier, as they were created. -/
def Resource.blocks (r : Resource counts maxClients) (tier : ℕ) : List ℕ :=
  if tier < 8 then
    FreeList.blocks (r.cPtr tier) (sizeOf tier) (cSize counts maxClients tier / sizeOf tier)
  else []

end Construct

/-- `allocate_`. -/
def allocateFrom (m : Mem) (slabs : ℕ → Slab) (tier : ℕ) : ℕ × (ℕ → Slab) :=
  let r := xallocate m (slabs tier)
  (r.1, Function.update slabs tier r.2)

/-- `deallocate_`. -/
def deallocateTo (m : Mem) (slabs : ℕ → Slab) (tier p : ℕ) : Mem × (ℕ → Slab) :=
  let r := xdeallocate m (slabs tier) p
  (r.1, Function.update slabs tier r.2)

/-- The loop of `allocate`: a block of the first of the `n` tiers from `tier` on that has one. -/
def firstFree (m : Mem) (slabs : ℕ → Slab) : ℕ → ℕ → ℕ × ℕ × (ℕ → Slab)
  | 0, tier => (0, tier, slabs)
  | n + 1, tier =>
    let r := allocateFrom m slabs tier
    if r.1 ≠ 0 then (r.1, tier, r.2) else firstFree m r.2 n (tier + 1)

/-- `memcpy`. -/
def memcpy (m : Mem) (dst src n : ℕ) : Mem := write m dst (read m src n)

section Operations

variable {C : Type*} [DecidableEq C]

/-- `allocate`. -/
def allocate (s : State C) (c : C) (needed : ℕ) : Bool × State C :=
  let context := s.context c
  let tier := findTier needed
  let contextTier := capacity2tier context.capacity
  if context.data ≠ 0 ∧ contextTier ≥ tier then (true, s)
  else if tier ≥ SIZES.length then (false, s)
  else
    let r := firstFree s.mem s.slabs (SIZES.length - tier) tier
    if r.1 = 0 then (false, { s with slabs := r.2.2 })
    else
      let mem := if context.data ≠ 0 ∧ context.size ≠ 0 then
          memcpy s.mem r.1 context.data context.size else s.mem
      let old := if context.data ≠ 0 then
          deallocateTo mem r.2.2 contextTier context.data else (mem, r.2.2)
      (true, ⟨old.1, old.2, Function.update s.context c ⟨r.1, context.size, sizeOf r.2.1⟩⟩)

/-- `deallocate`. -/
def deallocate (s : State C) (c : C) : State C :=
  let context := s.context c
  let old := if context.data ≠ 0 then
      deallocateTo s.mem s.slabs (capacity2tier context.capacity) context.data
    else (s.mem, s.slabs)
  ⟨old.1, old.2, Function.update s.context c Context.clear⟩

/-- `swap` of two contexts. -/
def swap (s : State C) (c d : C) : State C :=
  { s with context := Function.update (Function.update s.context c (s.context d)) d (s.context c) }

/-- A client puts octets into its buffer, within the capacity. -/
def fill (s : State C) (c : C) (pos : ℕ) (octets : List Byte) : State C :=
  if pos + octets.length ≤ (s.context c).capacity then
    { s with mem := write s.mem ((s.context c).data + pos) octets }
  else s

/-- A client sets the size of its buffer, within the capacity. -/
def resize (s : State C) (c : C) (size : ℕ) : State C :=
  if size ≤ (s.context c).capacity then
    { s with context := Function.update s.context c { s.context c with size := size } }
  else s

/-- What a client does with the manager, and with the memory it got from it. -/
inductive Request (C : Type*) where
  | allocate (c : C) (needed : ℕ)
  | deallocate (c : C)
  | swap (c d : C)
  | fill (c : C) (pos : ℕ) (octets : List Byte)
  | resize (c : C) (size : ℕ)

/-- One request. -/
def step (s : State C) : Request C → State C
  | .allocate c needed => (allocate s c needed).2
  | .deallocate c => deallocate s c
  | .swap c d => swap s c d
  | .fill c pos octets => fill s c pos octets
  | .resize c size => resize s c size

/-- Requests one after another. -/
def run (s : State C) (requests : List (Request C)) : State C := requests.foldl step s

end Operations

end HM4.TieredMemoryManager
