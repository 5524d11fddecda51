import MiaowOs.Memory
import MiaowOs.ListHead

/-!
# The buddy allocator: `mm/page_alloc.c`

The file-scope state of the page allocator and its functions. A `struct page *`
is an index into `mem_map`. The list heads embedded in the page descriptors,
the free areas and the slab caches are the nodes of one link heap, so that
`list_add` and `list_del` act on them as the code does.

The loops run on a bound that their own condition implies: `__free_one_page`
raises `order` towards `MAX_ORDER - 1`, `expand` lowers `high` to `low`,
`alloc_pages` raises `current` to `MAX_ORDER`, and `__free_memory_core` moves
`pfn` up to `limit`.
-/

namespace MiaowOs
open TwoWay

/-- `PAGE_BUDDY`. -/
abbrev pageBuddy : BitVec 32 := 0x1#32

/-- `PAGE_SLAB`. -/
abbrev pageSlab : BitVec 32 := 0x2#32

/-- The list heads of the memory manager: `free_area[order].free_list`,
`kmalloc_caches[index].partial` and `mem_map[index].lru`. -/
inductive Node where
  | freeList (order : Nat)
  | cachePartial (index : Nat)
  | lru (index : Nat)
  deriving DecidableEq, Repr

/-- `struct page` without its `lru` node. A `struct kmem_cache *` is an index
into `kmalloc_caches`. -/
structure Page where
  flags : BitVec 32
  order : Nat
  freelist : Nat
  slab : Option Nat
  inuse : Nat
  deriving DecidableEq, Repr

/-- A descriptor cleared by `memset`. -/
def Page.zero : Page := ⟨0, 0, 0, none, 0⟩

/-- `page->flags & PAGE_BUDDY`. -/
def Page.buddy (p : Page) : Bool := p.flags &&& pageBuddy != 0

/-- `page->flags & PAGE_SLAB`. -/
def Page.isSlab (p : Page) : Bool := p.flags &&& pageSlab != 0

/-- The file-scope variables of `page_alloc.c`, with the link heap. -/
structure PageAlloc where
  memMapBasePfn : Nat
  maxMapnr : Nat
  memMap : Nat → Page
  nrFree : Nat → Nat
  freeCount : Nat
  links : Heap Node

namespace PageAlloc

/-- The zeroed file-scope state at boot. -/
def zero : PageAlloc := ⟨0, 0, fun _ => .zero, fun _ => 0, 0, fun _ => ⟨none, none⟩⟩

/-- `page_to_pfn`. -/
def pageToPfn (s : PageAlloc) (page : Nat) : Nat := add64 s.memMapBasePfn page

/-- `pfn_to_page`. -/
def pfnToPage (s : PageAlloc) (pfn : Nat) : Nat := sub64 pfn s.memMapBasePfn

/-- `pfn_valid`. -/
def pfnValid (s : PageAlloc) (pfn : Nat) : Bool :=
  decide (s.memMapBasePfn ≤ pfn) && decide (pfn < add64 s.memMapBasePfn s.maxMapnr)

/-- `page_to_phys`. -/
def pageToPhys (s : PageAlloc) (page : Nat) : Nat := (s.pageToPfn page <<< pageShift) % 2 ^ 64

/-- `phys_to_page`. -/
def physToPage (s : PageAlloc) (address : Nat) : Nat := s.pfnToPage (address >>> pageShift)

/-- `nr_free_pages`. -/
def nrFreePages (s : PageAlloc) : Nat := s.freeCount

/-- A store to one descriptor. -/
def setPage (s : PageAlloc) (page : Nat) (p : Page) : PageAlloc :=
  { s with memMap := Function.update s.memMap page p }

/-- `free_area_init`. -/
def freeAreaInit (s : PageAlloc) (base pages : Nat) : PageAlloc :=
  { memMapBasePfn := base >>> pageShift
    maxMapnr := pages
    memMap := fun i => if i < pages then Page.zero else s.memMap i
    nrFree := fun order => if order < maxOrder then 0 else s.nrFree order
    freeCount := 0
    links := (List.range maxOrder).foldl (fun m order => initListHead m (.freeList order)) fun
      | .lru i => if i < pages then ⟨none, none⟩ else s.links (.lru i)
      | node => s.links node }

/-- The statements that put a free block on a list, at the end of
`__free_one_page` and in `expand`. -/
def publish (s : PageAlloc) (page order : Nat) : PageAlloc :=
  let s := s.setPage page { s.memMap page with order := order }
  let s := s.setPage page { s.memMap page with flags := (s.memMap page).flags ||| pageBuddy }
  let s := { s with links := listAdd s.links (.lru page) (.freeList order) }
  { s with nrFree := Function.update s.nrFree order (add64 (s.nrFree order) 1) }

/-- The statements that take a free block off its list, in the merge loop of
`__free_one_page` and in `alloc_pages`. -/
def withdraw (s : PageAlloc) (page order : Nat) : PageAlloc :=
  let s := { s with links := listDel s.links (.lru page) }
  let s := s.setPage page { s.memMap page with flags := (s.memMap page).flags &&& ~~~pageBuddy }
  { s with nrFree := Function.update s.nrFree order (sub64 (s.nrFree order) 1) }

/-- The merge loop of `__free_one_page`, with at most `n` iterations left:
the state, the page and the order it ends with. -/
def mergeLoop : Nat → PageAlloc → Nat → Nat → Nat → PageAlloc × Nat × Nat
  | 0, s, _, page, order => (s, page, order)
  | n + 1, s, pfn, page, order =>
    if order < maxOrder - 1 then
      let buddyPfn := pfn ^^^ (1 <<< order)
      if !s.pfnValid buddyPfn then (s, page, order)
      else
        let buddy := s.pfnToPage buddyPfn
        if !(s.memMap buddy).buddy || (s.memMap buddy).order != order then (s, page, order)
        else
          let s := s.withdraw buddy order
          let pfn := pfn &&& not64 (1 <<< order)
          mergeLoop n s pfn (s.pfnToPage pfn) (order + 1)
    else (s, page, order)

/-- `__free_one_page`. -/
def freeOnePage (s : PageAlloc) (page order : Nat) : PageAlloc :=
  let (s, page, order) := mergeLoop maxOrder s (s.pageToPfn page) page order
  s.publish page order

/-- The loop of `expand`, with at most `n` iterations left. -/
def expandLoop : Nat → PageAlloc → Nat → Nat → Nat → Nat → PageAlloc
  | 0, s, _, _, _, _ => s
  | n + 1, s, page, low, high, size =>
    if low < high then
      let high := high - 1
      let size := size >>> 1
      expandLoop n (s.publish (page + size) high) page low high size
    else s

/-- `expand`; the page it returns is its argument. -/
def expand (s : PageAlloc) (page low high : Nat) : PageAlloc :=
  expandLoop high s page low high (1 <<< high)

/-- `list_first_entry(&free_area[current].free_list, struct page, lru)`. -/
def firstFree (s : PageAlloc) (current : Nat) : Nat :=
  match (s.links (.freeList current)).next with
  | some (.lru page) => page
  | _ => 0

/-- The search loop of `alloc_pages` from order `current`, with at most `n`
orders left. -/
def allocLoop : Nat → PageAlloc → Nat → Nat → PageAlloc × Option Nat
  | 0, s, _, _ => (s, none)
  | n + 1, s, order, current =>
    if current < maxOrder then
      if listEmpty s.links (.freeList current) then allocLoop n s order (current + 1)
      else
        let page := s.firstFree current
        let s := s.withdraw page current
        let s := { s with freeCount := sub64 s.freeCount (1 <<< order) }
        (s.expand page order current, some page)
    else (s, none)

/-- `alloc_pages`; `none` is `nullptr`. -/
def allocPages (s : PageAlloc) (order : Nat) : PageAlloc × Option Nat :=
  if maxOrder ≤ order then (s, none) else allocLoop maxOrder s order order

/-- `__free_pages`. -/
def freePages (s : PageAlloc) (page order : Nat) : PageAlloc :=
  let s := s.freeOnePage page order
  { s with freeCount := add64 s.freeCount (1 <<< order) }

/-- The inner loop of `__free_memory_core`: the largest order at or below
`order` at which `pfn` is aligned and the block ends by `limit`. -/
def fitOrder (pfn limit : Nat) : Nat → Nat
  | 0 => 0
  | order + 1 =>
    if pfn &&& ((1 <<< (order + 1)) - 1) != 0 || limit < pfn + (1 <<< (order + 1)) then
      fitOrder pfn limit order
    else order + 1

/-- The outer loop of `__free_memory_core`, with at most `n` iterations left. -/
def seedLoop : Nat → PageAlloc → Nat → Nat → PageAlloc
  | 0, s, _, _ => s
  | n + 1, s, pfn, limit =>
    if pfn < limit then
      let order := fitOrder pfn limit (maxOrder - 1)
      seedLoop n (s.freePages (s.pfnToPage pfn) order) (pfn + (1 <<< order)) limit
    else s

/-- `__free_memory_core`. -/
def freeMemoryCore (s : PageAlloc) (start stop : Nat) : PageAlloc :=
  let pfn := add64 start (pageSize - 1) >>> pageShift
  let limit := stop >>> pageShift
  let pfn := if pfn < s.memMapBasePfn then s.memMapBasePfn else pfn
  let limit := if add64 s.memMapBasePfn s.maxMapnr < limit then add64 s.memMapBasePfn s.maxMapnr else limit
  seedLoop (limit - pfn) s pfn limit

end PageAlloc

end MiaowOs
