import MiaowOs.Memory

/-!
# Page tables

The functions of `mm/mmu.c`. Until the MMU is on, addresses are physical and
memory is a descriptor at every address; the code only reads and writes whole
descriptors. Taking a table from an exhausted `early_pgtables` ends a call with
`none`. `translate` is the walk the hardware makes: 4 KiB pages, three levels,
39-bit addresses.
-/

namespace MiaowOs

abbrev pgdirShift : Nat := 30
abbrev pmdShift : Nat := 21
abbrev ptrsPerTable : Nat := 512

def pgdIndex (addr : Nat) : Nat := addr >>> pgdirShift &&& (ptrsPerTable - 1)
def pmdIndex (addr : Nat) : Nat := addr >>> pmdShift &&& (ptrsPerTable - 1)
def pteIndex (addr : Nat) : Nat := addr >>> pageShift &&& (ptrsPerTable - 1)

abbrev pteAddrMask : Nat := 0x0000fffffffff000
abbrev pmdTypeTable : Nat := 3
abbrev pteTypePage : Nat := 3
abbrev pteUser : Nat := 1 <<< 6
abbrev pteRdonly : Nat := 1 <<< 7
abbrev pteShared : Nat := 3 <<< 8
abbrev pteAf : Nat := 1 <<< 10
abbrev ptePxn : Nat := 1 <<< 53
abbrev pteUxn : Nat := 1 <<< 54
abbrev mtDeviceNGnRnE : Nat := 0
abbrev mtNormalNc : Nat := 1

/-- `PTE_ATTRINDX`. -/
abbrev pteAttrindx (t : Nat) : Nat := t <<< 2

abbrev protDefault : Nat := pteTypePage ||| pteAf ||| pteShared
abbrev protDeviceNGnRnE : Nat := protDefault ||| ptePxn ||| pteUxn ||| pteAttrindx mtDeviceNGnRnE
abbrev protNormalNc : Nat := protDefault ||| ptePxn ||| pteUxn ||| pteAttrindx mtNormalNc
/-- `_PAGE_DEFAULT`. -/
abbrev pageDefault : Nat := protDefault ||| pteAttrindx mtNormalNc
abbrev pageKernel : Nat := protNormalNc
abbrev pageKernelRo : Nat := pageKernel ||| pteRdonly
abbrev pageKernelRox : Nat := pageKernel &&& not64 ptePxn ||| pteRdonly
abbrev pageShared : Nat := pageDefault ||| pteUser ||| ptePxn ||| pteUxn
abbrev pageReadonlyExec : Nat := pageDefault ||| pteUser ||| pteRdonly ||| ptePxn

/-- `EARLY_PGTABLES` of a board with `ram` bytes of RAM. -/
abbrev earlyPgtables (ram : Nat) : Nat := 6 + ram >>> pmdShift

abbrev ioOffset : Nat := 0xffffff8000000000

/-- The tables of `early_pgtables`: where they start and how many there are. -/
structure Pool where
  base : Nat
  count : Nat

/-- Physical memory, and `early_pgtables_used`. -/
structure PgState where
  mem : Nat → Nat
  used : Nat

def PgState.store (st : PgState) (a v : Nat) : PgState := { st with mem := fun x => if x = a then v else st.mem x }

/-- `early_pgtable_alloc`. -/
def earlyPgtableAlloc (pool : Pool) (st : PgState) : Option (PgState × Nat) :=
  if st.used < pool.count then some ({ st with used := add32 st.used 1 }, pool.base + pageSize * st.used) else none

/-- The step of `walk_to_pte` at one level: the entry at `entryp` refers to a
table, which is taken from the pool if there is none yet. -/
def ensureTable (pool : Pool) (st : PgState) (entryp : Nat) : Option PgState :=
  if st.mem entryp = 0 then do
    let (st, table) ← earlyPgtableAlloc pool st
    return st.store entryp (table ||| pmdTypeTable)
  else return st

/-- `walk_to_pte`. -/
def walkToPte (pool : Pool) (st : PgState) (pgdir addr : Nat) : Option (PgState × Nat) := do
  let pgdp := pgdir + 8 * pgdIndex addr
  let st ← ensureTable pool st pgdp
  let pmdp := (st.mem pgdp &&& pteAddrMask) + 8 * pmdIndex addr
  let st ← ensureTable pool st pmdp
  return (st, (st.mem pmdp &&& pteAddrMask) + 8 * pteIndex addr)

/-- The loop of `create_pgd_mapping` from `offset` on, with `fuel` iterations
left. -/
def mapLoop (pool : Pool) (pgdir phys virt size prot : Nat) : Nat → Nat → PgState → Option PgState
  | 0, _, _ => none
  | fuel + 1, offset, st =>
    if offset < size then do
      let (st, ptep) ← walkToPte pool st pgdir (add64 virt offset)
      mapLoop pool pgdir phys virt size prot fuel (add64 offset pageSize)
        (st.store ptep (add64 phys offset ||| prot))
    else return st

/-- `create_pgd_mapping`. -/
def createPgdMapping (pool : Pool) (st : PgState) (pgdir phys virt size prot : Nat) : Option PgState :=
  mapLoop pool pgdir phys virt size prot (size / pageSize + 2) 0 st

/-- The physical addresses of the tables. -/
structure PgLayout where
  swapperPgDir : Nat
  idmapPgDir : Nat
  userPgDir : Nat
  earlyPgtables : Nat

/-- The physical addresses of the linker script's symbols. -/
structure KernelSymbols where
  text : Nat
  etext : Nat
  startRodata : Nat
  endRodata : Nat

/-- The pool of a board with `RAM_SIZE = ram`. -/
def PgLayout.poolFor (l : PgLayout) (ram : Nat) : Pool := ⟨l.earlyPgtables, MiaowOs.earlyPgtables ram⟩

/-- `map_kernel_segment`. -/
def mapKernelSegmentFor (ram : Nat) (l : PgLayout) (st : PgState) (start limit prot : Nat) : Option PgState :=
  createPgdMapping (l.poolFor ram) st l.swapperPgDir start (va start) (sub64 limit start) prot

/-- The loop of `mmu_init` over the application slots, with `fuel` iterations
left. -/
def mapSlotsFor (ram : Nat) (l : PgLayout) : Nat → Nat → PgState → Option PgState
  | 0, _, _ => none
  | fuel + 1, slot, st =>
    if slot < appFirst + appCount * appSlotSize then do
      let stack := slot + appSlotSize - appStackSize
      let st ← createPgdMapping (l.poolFor ram) st l.userPgDir slot slot appImageSize pageReadonlyExec
      let st ← createPgdMapping (l.poolFor ram) st l.userPgDir stack stack appStackSize pageShared
      mapSlotsFor ram l fuel (slot + appSlotSize) st
    else return st

/-- `mmu_init`, up to the point where it programs the translation registers. -/
def mmuInitFor (ram : Nat) (l : PgLayout) (symbols : KernelSymbols) (st : PgState) : Option PgState := do
  let map := createPgdMapping (l.poolFor ram)
  let st ← map st l.swapperPgDir physOffset pageOffset ram pageKernel
  let st ← mapKernelSegmentFor ram l st symbols.text symbols.etext pageKernelRox
  let st ← mapKernelSegmentFor ram l st symbols.startRodata symbols.endRodata pageKernelRo
  let st ← map st l.swapperPgDir 0x08000000 (add64 0x08000000 ioOffset) 0x10000 protDeviceNGnRnE
  let st ← map st l.swapperPgDir 0x080a0000 (add64 0x080a0000 ioOffset) 0x20000 protDeviceNGnRnE
  let st ← map st l.swapperPgDir 0x09000000 (add64 0x09000000 ioOffset) pageSize protDeviceNGnRnE
  let st ← mapSlotsFor ram l (appCount + 1) appFirst st
  return st.store (l.idmapPgDir + 8 * pgdIndex physOffset) (st.mem (l.swapperPgDir + 8 * pgdIndex pageOffset))

/-! The functions of the source are these at its `RAM_SIZE`. -/

def PgLayout.pool (l : PgLayout) : Pool := l.poolFor ramSize

/-- `map_kernel_segment`. -/
def mapKernelSegment : PgLayout → PgState → Nat → Nat → Nat → Option PgState := mapKernelSegmentFor ramSize

/-- The loop of `mmu_init` over the application slots. -/
def mapSlots : PgLayout → Nat → Nat → PgState → Option PgState := mapSlotsFor ramSize

/-- `mmu_init`. -/
def mmuInit : PgLayout → KernelSymbols → PgState → Option PgState := mmuInitFor ramSize

/-! ## The hardware's walk -/

/-- The table an entry refers to; an entry of another type faults. -/
def nextTable (mem : Nat → Nat) (table index : Nat) : Option Nat :=
  let descriptor := mem (table + 8 * index)
  if descriptor &&& 3 = pmdTypeTable then some (descriptor &&& pteAddrMask) else none

/-- The translation of an address through a root: the physical address and the
attributes of the page, or a fault. -/
def translate (mem : Nat → Nat) (root addr : Nat) : Option (Nat × Nat) := do
  let pmd ← nextTable mem root (pgdIndex addr)
  let pte ← nextTable mem pmd (pmdIndex addr)
  let descriptor := mem (pte + 8 * pteIndex addr)
  if descriptor &&& 3 = pteTypePage then
    some ((descriptor &&& pteAddrMask) + addr % pageSize, descriptor &&& not64 pteAddrMask)
  else none

end MiaowOs
