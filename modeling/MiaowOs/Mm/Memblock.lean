import MiaowOs.Memory

/-!
# The early memory map

The functions of `mm/memblock.c`. A region array is its contents slot by slot;
every access is checked against the `INIT_MEMBLOCK_REGIONS` slots of the C
array, and an access outside it ends the call with `none`. The loops carry a
bound on their number of iterations and end with `none` past it as well, so a
call that yields `some` finished and stayed inside both arrays. `unsigned`
indices wrap at `2 ^ 32`, addresses and sizes at `2 ^ 64`.
-/

namespace MiaowOs

abbrev initMemblockRegions : Nat := 16

/-- More iterations than any loop over the region arrays makes. -/
abbrev loopBound : Nat := 64

structure MemblockRegion where
  base : Nat
  size : Nat
deriving DecidableEq, Repr

structure MemblockType where
  cnt : Nat
  totalSize : Nat
  regions : Nat → MemblockRegion

structure Memblock where
  memory : MemblockType
  reserved : MemblockType

/-- `struct memblock_cursor`. -/
structure MemblockCursor where
  memory : Nat
  reserved : Nat
deriving DecidableEq, Repr

def MemblockType.zero : MemblockType where
  cnt := 0
  totalSize := 0
  regions := fun _ => ⟨0, 0⟩

/-- The static `memblock` as the image loads it. -/
def Memblock.zero : Memblock := ⟨.zero, .zero⟩

def MemblockCursor.zero : MemblockCursor := ⟨0, 0⟩

/-- `cap_size`. -/
def capSize (base size : Nat) : Nat :=
  if size < sub64 uintptrMax base then size else sub64 uintptrMax base

namespace MemblockType

/-- Read `regions[index]`. -/
def load (type : MemblockType) (index : Nat) : Option MemblockRegion :=
  if index < initMemblockRegions then some (type.regions index) else none

/-- Write `regions[index]`. -/
def store (type : MemblockType) (index : Nat) (region : MemblockRegion) : Option MemblockType :=
  if index < initMemblockRegions then
    some { type with regions := fun i => if i = index then region else type.regions i }
  else none

/-- `memmove` of `count` regions from slot `src` to slot `dst`. -/
def move (type : MemblockType) (dst src count : Nat) : Option MemblockType :=
  if count = 0 ∨ dst + count ≤ initMemblockRegions ∧ src + count ≤ initMemblockRegions then
    some { type with
      regions := fun i => if dst ≤ i ∧ i < dst + count then type.regions (src + (i - dst)) else type.regions i }
  else none

end MemblockType

/-- `memblock_insert_region`. -/
def memblockInsertRegion (type : MemblockType) (index base size : Nat) : Option MemblockType := do
  let type ← type.move (index + 1) index (sub32 type.cnt index)
  let type ← type.store index ⟨base, size⟩
  return { type with cnt := add32 type.cnt 1, totalSize := add64 type.totalSize size }

/-- `memblock_remove_region`. -/
def memblockRemoveRegion (type : MemblockType) (index : Nat) : Option MemblockType := do
  let region ← type.load index
  let type ← MemblockType.move { type with totalSize := sub64 type.totalSize region.size }
    index (index + 1) (sub32 (sub32 type.cnt index) 1)
  return { type with cnt := sub32 type.cnt 1 }

/-- The joining step of `memblock_merge_regions`: `current` takes over `next`,
the region in the slot after it. -/
def joinNext (type : MemblockType) (index : Nat) (current next : MemblockRegion) : Option MemblockType := do
  let type ← type.store index ⟨current.base, add64 current.size next.size⟩
  let type ← type.move (index + 1) (index + 2) (sub32 (sub32 type.cnt index) 2)
  return { type with cnt := sub32 type.cnt 1 }

/-- The loop of `memblock_merge_regions`. -/
def mergeScan : Nat → MemblockType → Nat → Nat → Option MemblockType
  | 0, _, _, _ => none
  | fuel + 1, type, index, endRgn =>
    if index < endRgn then do
      let current ← type.load index
      let next ← type.load (index + 1)
      if add64 current.base current.size ≠ next.base then
        mergeScan fuel type (add32 index 1) endRgn
      else
        let type ← joinNext type index current next
        mergeScan fuel type index (sub32 endRgn 1)
    else return type

/-- `memblock_merge_regions`. -/
def memblockMergeRegions (type : MemblockType) (startRgn endRgn : Nat) : Option MemblockType :=
  let index := if startRgn ≠ 0 then sub32 startRgn 1 else 0
  let endRgn := if endRgn > sub32 type.cnt 1 then sub32 type.cnt 1 else endRgn
  mergeScan loopBound type index endRgn

/-- The variables of one pass of `memblock_add_range`. -/
structure AddPass where
  type : MemblockType
  base : Nat
  startRgn : Nat
  endRgn : Nat
  index : Nat
  added : Nat

/-- Count a piece of the new range, `[base, base + size)`, that no region
covers, and on the second pass insert it at `index`. -/
def AddPass.piece (insert : Bool) (pass : AddPass) (size : Nat) : Option AddPass :=
  let pass := { pass with added := add32 pass.added 1 }
  if insert then do
    let startRgn := if pass.endRgn = 0 then pass.index else pass.startRgn
    let type ← memblockInsertRegion pass.type pass.index pass.base size
    return { pass with type, startRgn, endRgn := add32 pass.index 1 }
  else return pass

/-- The region loop of `memblock_add_range`. -/
def addScan (insert : Bool) (limit : Nat) : Nat → AddPass → Option AddPass
  | 0, _ => none
  | fuel + 1, pass =>
    if pass.index < pass.type.cnt then do
      let region ← pass.type.load pass.index
      let regionEnd := add64 region.base region.size
      if region.base ≥ limit then return pass
      else if regionEnd ≤ pass.base then
        addScan insert limit fuel { pass with index := add32 pass.index 1 }
      else
        -- the region splits off the lower part of the new range
        let pass ← if region.base > pass.base then do
            let pass ← pass.piece insert (sub64 region.base pass.base)
            pure (if insert then { pass with index := add32 pass.index 1 } else pass)
          else pure pass
        addScan insert limit fuel
          { pass with base := if regionEnd < limit then regionEnd else limit, index := add32 pass.index 1 }
    else return pass

/-- One pass of `memblock_add_range` from the label `repeat`: the region loop
and the piece above the last region. -/
def addPass (insert : Bool) (type : MemblockType) (base limit startRgn endRgn : Nat) : Option AddPass := do
  let pass ← addScan insert limit loopBound { type, base, startRgn, endRgn, index := 0, added := 0 }
  if pass.base < limit then pass.piece insert (sub64 limit pass.base) else return pass

/-- `memblock_add_range`: the region list and the returned status. -/
def memblockAddRange (type : MemblockType) (base size : Nat) : Option (MemblockType × Int) :=
  let limit := add64 base (capSize base size)
  if size = 0 then return (type, 0)
  else if type.cnt = 0 then do
    let type ← type.store 0 ⟨base, size⟩
    return ({ type with totalSize := size, cnt := 1 }, 0)
  else do
    let count ← addPass false type base limit 0 0
    if count.added = 0 then return (type, 0)
    else if add32 type.cnt count.added > initMemblockRegions then return (type, -1)
    else do
      let pass ← addPass true type base limit 0 0
      if pass.added = 0 then return (pass.type, 0)
      else do
        let type ← memblockMergeRegions pass.type pass.startRgn pass.endRgn
        return (type, 0)

/-- Cut `region`, in slot `index`, at the address `cut`: how
`memblock_isolate_range` splits a region at either end of the range. -/
def splitRegion (type : MemblockType) (index : Nat) (region : MemblockRegion) (cut : Nat) : Option MemblockType := do
  let type ← type.store index ⟨cut, sub64 region.size (sub64 cut region.base)⟩
  memblockInsertRegion { type with totalSize := sub64 type.totalSize (sub64 cut region.base) }
    index region.base (sub64 cut region.base)

/-- The loop of `memblock_isolate_range`; the two indices are its out-parameters. -/
def isolateScan (base limit : Nat) : Nat → MemblockType → Nat → Nat → Nat → Option (MemblockType × Nat × Nat)
  | 0, _, _, _, _ => none
  | fuel + 1, type, index, startRgn, endRgn =>
    if index < type.cnt then do
      let region ← type.load index
      let regionEnd := add64 region.base region.size
      if region.base ≥ limit then return (type, startRgn, endRgn)
      else if regionEnd ≤ base then isolateScan base limit fuel type (add32 index 1) startRgn endRgn
      else if region.base < base then
        let type ← splitRegion type index region base
        isolateScan base limit fuel type (add32 index 1) startRgn endRgn
      else if regionEnd > limit then
        let type ← splitRegion type index region limit
        isolateScan base limit fuel type (add32 (sub32 index 1) 1) startRgn endRgn
      else
        isolateScan base limit fuel type (add32 index 1) (if endRgn = 0 then index else startRgn) (add32 index 1)
    else return (type, startRgn, endRgn)

/-- `memblock_isolate_range`: `none` as the status is the array overflow. -/
def memblockIsolateRange (type : MemblockType) (base size : Nat) :
    Option (Option (MemblockType × Nat × Nat)) :=
  let limit := add64 base (capSize base size)
  if size = 0 then return some (type, 0, 0)
  else if add32 type.cnt 2 > initMemblockRegions then return none
  else some <$> isolateScan base limit loopBound type 0 0 0

/-- The loop of `memblock_remove_range`. -/
def removeScan (startRgn : Nat) : Nat → MemblockType → Option MemblockType
  | 0, type => return type
  | index + 1, type =>
    if index + 1 > startRgn then do
      let type ← memblockRemoveRegion type index
      removeScan startRgn index type
    else return type

/-- `memblock_remove_range`. -/
def memblockRemoveRange (type : MemblockType) (base size : Nat) : Option (MemblockType × Int) := do
  match ← memblockIsolateRange type base size with
  | none => return (type, -1)
  | some (type, startRgn, endRgn) => do
    let type ← removeScan startRgn endRgn type
    return (type, 0)

/-- `memblock_add`. -/
def memblockAdd (memblock : Memblock) (base size : Nat) : Option (Memblock × Int) := do
  let (memory, status) ← memblockAddRange memblock.memory base size
  return ({ memblock with memory }, status)

/-- `memblock_reserve`. -/
def memblockReserve (memblock : Memblock) (base size : Nat) : Option (Memblock × Int) := do
  let (reserved, status) ← memblockAddRange memblock.reserved base size
  return ({ memblock with reserved }, status)

/-- `memblock_phys_free`. -/
def memblockPhysFree (memblock : Memblock) (base size : Nat) : Option (Memblock × Int) := do
  let (reserved, status) ← memblockRemoveRange memblock.reserved base size
  return ({ memblock with reserved }, status)

/-- `gap_start` of `memblock_next_free`: the end of the reserved region before
slot `index`. -/
def gapStart (memblock : Memblock) (index : Nat) : Option Nat :=
  if index ≠ 0 then do
    let before ← memblock.reserved.load (index - 1)
    return add64 before.base before.size
  else return 0

/-- `gap_end` of `memblock_next_free`; index `cnt` addresses the gap that
follows the last reserved region. -/
def gapEnd (memblock : Memblock) (index : Nat) : Option Nat :=
  if index < memblock.reserved.cnt then do
    let taken ← memblock.reserved.load index
    return taken.base
  else return uintptrMax

/-- The inner loop of `memblock_next_free`, over the gaps between the reserved
regions; the second component is the range it returns from inside, if any. -/
def gapScan (memblock : Memblock) (areaStart areaEnd : Nat) :
    Nat → MemblockCursor → Option (MemblockCursor × Option (Nat × Nat))
  | 0, _ => none
  | fuel + 1, cursor =>
    if cursor.reserved < add32 memblock.reserved.cnt 1 then do
      let gapStart ← gapStart memblock cursor.reserved
      let gapEnd ← gapEnd memblock cursor.reserved
      if gapStart ≥ areaEnd then return (cursor, none)
      else if areaStart < gapEnd then
        let start := if areaStart > gapStart then areaStart else gapStart
        let limit := if areaEnd < gapEnd then areaEnd else gapEnd
        -- advance whichever range ends first
        if areaEnd ≤ gapEnd then return ({ cursor with memory := add32 cursor.memory 1 }, some (start, limit))
        else return ({ cursor with reserved := add32 cursor.reserved 1 }, some (start, limit))
      else gapScan memblock areaStart areaEnd fuel { cursor with reserved := add32 cursor.reserved 1 }
    else return (cursor, none)

/-- The outer loop of `memblock_next_free`, over the memory regions. -/
def areaScan (memblock : Memblock) : Nat → MemblockCursor → Option (MemblockCursor × Option (Nat × Nat))
  | 0, _ => none
  | fuel + 1, cursor =>
    if cursor.memory < memblock.memory.cnt then do
      let area ← memblock.memory.load cursor.memory
      let (cursor, range) ← gapScan memblock area.base (add64 area.base area.size) loopBound cursor
      match range with
      | some range => return (cursor, some range)
      | none => areaScan memblock fuel { cursor with memory := add32 cursor.memory 1 }
    else return (cursor, none)

/-- `memblock_next_free`. -/
def memblockNextFree (memblock : Memblock) (cursor : MemblockCursor) :
    Option (MemblockCursor × Option (Nat × Nat)) :=
  areaScan memblock loopBound cursor

/-- What `memblock_phys_alloc` returns for a fit at `candidate`. -/
def reserveAt (memblock : Memblock) (candidate size : Nat) : Option (Memblock × Nat) := do
  let (memblock, status) ← memblockReserve memblock candidate size
  return (memblock, if status ≠ 0 then 0 else candidate)

/-- The loop of `memblock_phys_alloc`. -/
def fitScan (memblock : Memblock) (size align : Nat) : Nat → MemblockCursor → Option (Memblock × Nat)
  | 0, _ => none
  | fuel + 1, cursor => do
    match ← memblockNextFree memblock cursor with
    | (_, none) => return (memblock, 0)
    | (cursor, some (start, limit)) =>
      let candidate := sub64 (add64 start align) 1 &&& not64 (sub64 align 1)
      if candidate < limit ∧ limit - candidate ≥ size then reserveAt memblock candidate size
      else fitScan memblock size align fuel cursor

/-- `memblock_phys_alloc`: the address, or 0 when no free range fits. -/
def memblockPhysAlloc (memblock : Memblock) (size align : Nat) : Option (Memblock × Nat) :=
  if size = 0 then return (memblock, 0)
  else fitScan memblock size (if align = 0 then 1 else align) loopBound .zero

end MiaowOs
