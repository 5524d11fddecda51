import MiaowOs.Mm.PageAlloc
import MiaowOs.String

/-!
# The slab allocator: `mm/slab.c`

`kmalloc` and `kfree` on top of the page allocator. A `struct kmem_cache *` is an
index into `kmalloc_caches`, whose `partial` heads are nodes of the link heap of
the page allocator. The memory behind the linear map is a byte memory; free
objects hold the address of the next one. A pointer into an object, or to the
byte behind it, is a natural number; `0` is `nullptr`.

The loops run on a bound that their own condition implies: `new_slab` carves
`objects` objects, `kmalloc_index` ends at the last cache, and the loop of
`kmalloc` ends at `MAX_ORDER`.
-/

namespace MiaowOs
open TwoWay Bytes

/-- `KMALLOC_MIN_SIZE`. -/
abbrev kmallocMinSize : Nat := 16

/-- `KMALLOC_MAX_SIZE`. -/
abbrev kmallocMaxSize : Nat := 2048

/-- `KMALLOC_CACHES`. -/
abbrev kmallocCaches : Nat := 8

/-- `page_address`. -/
def PageAlloc.pageAddress (s : PageAlloc) (page : Nat) : Nat := va (s.pageToPhys page)

/-- `virt_to_page`. -/
def PageAlloc.virtToPage (s : PageAlloc) (address : Nat) : Nat := s.physToPage (pa address)

/-- `struct kmem_cache` without its `partial` head. -/
structure KmemCache where
  size : Nat
  objects : Nat

/-- The page allocator, `kmalloc_caches`, and the memory. -/
structure SlabAlloc where
  alloc : PageAlloc
  caches : Nat → KmemCache
  mem : Mem

/-- `get_freepointer`. -/
def getFreepointer (mem : Mem) (object : Nat) : Nat := load mem object 8

/-- `set_freepointer`. -/
def setFreepointer (mem : Mem) (object fp : Nat) : Mem := store mem object 8 fp

namespace SlabAlloc

/-- `kmem_cache_init`. -/
def kmemCacheInit (s : SlabAlloc) : SlabAlloc :=
  (List.range kmallocCaches).foldl (fun s index =>
    let size := kmallocMinSize <<< index
    { s with
      caches := Function.update s.caches index ⟨size, pageSize / size⟩
      alloc := { s.alloc with links := initListHead s.alloc.links (.cachePartial index) } }) s

/-- The loop of `new_slab`, with at most `n` iterations left: the memory and the
last object. -/
def carveLoop (size stop : Nat) : Nat → Mem → Nat → Nat → Mem × Nat
  | 0, mem, last, _ => (mem, last)
  | n + 1, mem, last, obj =>
    if obj < stop then carveLoop size stop n (setFreepointer mem last obj) obj (add64 obj size)
    else (mem, last)

/-- `new_slab`; `none` is `nullptr`. -/
def newSlab (s : SlabAlloc) (cache : Nat) : SlabAlloc × Option Nat :=
  match s.alloc.allocPages 0 with
  | (alloc, none) => ({ s with alloc := alloc }, none)
  | (alloc, some page) =>
    let alloc := alloc.setPage page { alloc.memMap page with slab := some cache }
    let alloc := alloc.setPage page { alloc.memMap page with inuse := 0 }
    let alloc := alloc.setPage page { alloc.memMap page with flags := (alloc.memMap page).flags ||| pageSlab }
    let start := alloc.pageAddress page
    let size := (s.caches cache).size
    let objects := (s.caches cache).objects
    let (mem, last) := carveLoop size (add64 start (objects * size)) objects s.mem start (add64 start size)
    let mem := setFreepointer mem last 0
    let alloc := alloc.setPage page { alloc.memMap page with freelist := start }
    let alloc := { alloc with links := listAdd alloc.links (.lru page) (.cachePartial cache) }
    ({ s with alloc := alloc, mem := mem }, some page)

/-- `list_first_entry(&cache->partial, struct page, lru)`. -/
def firstPartial (s : SlabAlloc) (cache : Nat) : Nat :=
  match (s.alloc.links (.cachePartial cache)).next with
  | some (.lru page) => page
  | _ => 0

/-- The statements of `slab_alloc` that take the first free object of a page. -/
def takeObject (s : SlabAlloc) (page : Nat) : SlabAlloc × Nat :=
  let alloc := s.alloc
  let object := (alloc.memMap page).freelist
  let alloc := alloc.setPage page { alloc.memMap page with freelist := getFreepointer s.mem object }
  let alloc := alloc.setPage page { alloc.memMap page with inuse := add32 (alloc.memMap page).inuse 1 }
  let alloc :=
    if (alloc.memMap page).freelist = 0 then { alloc with links := listDel alloc.links (.lru page) } else alloc
  ({ s with alloc := alloc }, object)

/-- `slab_alloc`. -/
def slabAlloc (s : SlabAlloc) (cache : Nat) : SlabAlloc × Nat :=
  if listEmpty s.alloc.links (.cachePartial cache) then
    match s.newSlab cache with
    | (s, none) => (s, 0)
    | (s, some page) => s.takeObject page
  else s.takeObject (s.firstPartial cache)

/-- `slab_free`. The page of a slab has a cache; a list operation on the head of
no cache is dropped here. -/
def slabFree (s : SlabAlloc) (page object : Nat) : SlabAlloc :=
  let alloc := s.alloc
  let cache := (alloc.memMap page).slab
  let prior := (alloc.memMap page).freelist
  let mem := setFreepointer s.mem object prior
  let alloc := alloc.setPage page { alloc.memMap page with freelist := object }
  let alloc := alloc.setPage page { alloc.memMap page with inuse := sub32 (alloc.memMap page).inuse 1 }
  if (alloc.memMap page).inuse = 0 then
    let alloc := if prior ≠ 0 then { alloc with links := listDel alloc.links (.lru page) } else alloc
    let alloc := alloc.setPage page { alloc.memMap page with flags := (alloc.memMap page).flags &&& ~~~pageSlab }
    { s with alloc := alloc.freePages page 0, mem := mem }
  else if prior = 0 then
    match cache with
    | some cache =>
      { s with alloc := { alloc with links := listAdd alloc.links (.lru page) (.cachePartial cache) }, mem := mem }
    | none => { s with alloc := alloc, mem := mem }
  else { s with alloc := alloc, mem := mem }

/-- The loop of `kmalloc_index` from `index`, with at most `n` iterations left. -/
def indexLoop (size : Nat) : Nat → Nat → Nat
  | 0, index => index
  | n + 1, index => if kmallocMinSize <<< index < size then indexLoop size n (index + 1) else index

/-- `kmalloc_index`. -/
def kmallocIndex (size : Nat) : Nat := indexLoop size kmallocCaches 0

/-- The loop of `kmalloc` from `order`, with at most `n` iterations left; `none`
is the return out of it. -/
def orderLoop (size : Nat) : Nat → Nat → Option Nat
  | 0, _ => none
  | n + 1, order =>
    if pageSize <<< order < size then
      if maxOrder ≤ order + 1 then none else orderLoop size n (order + 1)
    else some order

/-- `kmalloc`. -/
def kmalloc (s : SlabAlloc) (size : Nat) : SlabAlloc × Nat :=
  if size = 0 then (s, 0)
  else if kmallocMaxSize < size then
    match orderLoop size maxOrder 0 with
    | none => (s, 0)
    | some order =>
      match s.alloc.allocPages order with
      | (alloc, none) => ({ s with alloc := alloc }, 0)
      | (alloc, some page) =>
        let alloc := alloc.setPage page { alloc.memMap page with order := order }
        ({ s with alloc := alloc }, alloc.pageAddress page)
  else s.slabAlloc (kmallocIndex size)

/-- `kzalloc`. -/
def kzalloc (s : SlabAlloc) (size : Nat) : SlabAlloc × Nat :=
  let (s, object) := s.kmalloc size
  if object ≠ 0 then ({ s with mem := memset s.mem object 0 size }, object) else (s, object)

/-- `kfree`. -/
def kfree (s : SlabAlloc) (object : Nat) : SlabAlloc :=
  if object = 0 then s
  else
    let page := s.alloc.virtToPage object
    if (s.alloc.memMap page).isSlab then s.slabFree page object
    else { s with alloc := s.alloc.freePages page (s.alloc.memMap page).order }

end SlabAlloc

end MiaowOs
