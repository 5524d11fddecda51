import MiaowOs.Mm.Boot
import MiaowOs.Mm.AddressMap
import Mathlib

/-!
# Protection of the kernel from its heap

The calls of `kmalloc`, `kzalloc`, `kfree`, `alloc_pages` and `free_pages`, and the
writes of their clients, change no byte outside the pages that `mem_init` has handed
over. So they never reach the page tables, and what the clients hold stays mapped as
`mmu_init` has left it: as data of the kernel, under no other address than those of
the linear map and of the identity map.

The variables of the allocators and the page descriptors are kept apart from the
bytes of memory; what is said of the bytes of the kernel image is said of the rest.
-/

namespace MiaowOs
open TwoWay Bytes PageAlloc Relation

/-! ## What the heap writes -/

/-- Two memories that differ in the frames of `S` only. -/
def WritesWithin (S : Set Nat) (mem mem' : Mem) : Prop := ∀ x, frameOf x ∉ S → mem' x = mem x

section
variable {s : SlabAlloc} {L P : Nat → List Nat} {slabs : List SlabPage} {large : List LargeBlock}
  {live : List Allocation} {D : List (Nat × Nat)} {S : Set Nat} {a : Allocation} {mem mem' mem'' : Mem} {c size : Nat}

theorem WritesWithin.refl : WritesWithin S mem mem := fun _ _ => rfl

theorem WritesWithin.trans (h : WritesWithin S mem mem') (h' : WritesWithin S mem' mem'') : WritesWithin S mem mem'' :=
  fun x out => (h' x out).trans (h x out)

/-- `new_slab` writes to the page it has taken. -/
theorem SlabInv.newSlab_writes (h : SlabInv s L P slabs large D S) (lt : c < kmallocCaches) :
    WritesWithin S s.mem (s.newSlab c).1.mem := by
  rcases allocPages_spec h.owned.inv 0 with ⟨run, -⟩ | ⟨page, c₀, alloc, L', run, a⟩
  · simp only [SlabAlloc.newSlab, run]
    exact .refl
  · have taken := h.allocPages a
    have held := direct_held (i := page) (o := 0) D slabs large
    rw [SlabAlloc.newSlab_eq run (h.caches c lt)]
    intro x out
    obtain ⟨-, nonnull, below, inside⟩ := SlabInv.block_address taken.owned taken.mapped held
    apply (@carved_spec c s.mem _ lt nonnull below).2
    by_contra within
    apply out
    have frame := (inside x (by omega) (by omega)).2
    obtain ⟨seeded, -⟩ := SlabInv.held_mapped taken.owned taken.mapped held 0 (Nat.two_pow_pos 0)
    have same : frameOf x = alloc.memMapBasePfn + page := by
      simp only [blockAt_mem] at frame
      omega
    rwa [same]

theorem SlabAlloc.takeObject_mem (s : SlabAlloc) (page : Nat) : (s.takeObject page).1.mem = s.mem := by
  rw [SlabAlloc.takeObject_eq]

theorem SlabInv.slabAlloc_writes (h : SlabInv s L P slabs large D S) (lt : c < kmallocCaches) :
    WritesWithin S s.mem (s.slabAlloc c).1.mem := by
  have fresh := h.newSlab_writes lt
  unfold SlabAlloc.slabAlloc
  split
  · split
    next run => rwa [run] at fresh
    next page run =>
      rw [SlabAlloc.takeObject_mem]
      rwa [run] at fresh
  · rw [SlabAlloc.takeObject_mem]
    exact .refl

/-- `kmalloc` writes to the frames of the heap. -/
theorem Stands.kmalloc_writes (h : Stands s live D S) (size : Nat) : WritesWithin S s.mem (s.kmalloc size).1.mem := by
  obtain ⟨L, P, slabs, large, inv, -⟩ := h
  unfold SlabAlloc.kmalloc
  split
  · exact .refl
  split
  · split
    · exact .refl
    · split <;> exact .refl
  · next small =>
    obtain ⟨index, lt⟩ := kmallocIndex_eq (Nat.le_of_not_lt small)
    rw [index]
    exact inv.slabAlloc_writes lt

/-- `kzalloc` clears what it has been given. -/
theorem Stands.kzalloc_writes (h : Stands s live D S) (size : Nat) : WritesWithin S s.mem (s.kzalloc size).1.mem := by
  have first := h.kmalloc_writes size
  rcases h.kmalloc size with ⟨run, -⟩ | ⟨-, serves⟩
  · have none : (s.kmalloc size).2 = 0 := by rw [run]
    rw [kzalloc_null none]
    exact first
  · rw [kzalloc_some serves.nonnull]
    apply first.trans
    intro x out
    have filled := memset_spec (s.kmalloc size).1.mem (s.kmalloc size).2 0 size
    refine (filled x).trans (if_neg fun inside => out ?_)
    exact (serves.stands.seeded List.mem_cons_self (Allocation.Mem.room inside)).2

theorem Stands.kfree_writes (h : Stands s live D S) (mem : a ∈ live) : WritesWithin S s.mem (s.kfree a.addr).mem := by
  intro x out
  apply (h.kfree mem).keeps
  exact fun room => out (h.seeded mem room).2

namespace Tenants
variable {t t' : Tenants}

/-- **No step writes** outside the frames of the heap. -/
theorem Step.writes (stands : Stands t.heap t.live t.blocks S) (step : Step t t') :
    WritesWithin S t.heap.mem t'.heap.mem := by
  cases step with
  | @slab r step =>
    generalize session : (⟨t.heap, t.live⟩ : Session) = before at step
    have heap : before.heap = t.heap := by rw [← session]
    have clients : before.live = t.live := by rw [← session]
    cases step with
    | kmalloc size =>
      rw [heap]
      exact stands.kmalloc_writes size
    | kzalloc size =>
      rw [heap]
      exact stands.kzalloc_writes size
    | kfree a mem =>
      rw [heap]
      exact stands.kfree_writes (clients ▸ mem)
    | kfreeNull =>
      rw [heap]
      exact .refl
    | write mem inside =>
      intro x out
      by_contra changed
      rw [heap, clients] at inside
      obtain ⟨a, here, room⟩ := inside x changed
      exact out (stands.seeded here room).2
  | alloc order => exact .refl
  | free page order mem => exact .refl
  | write mem inside =>
    intro x out
    by_contra changed
    rcases inside x changed with ⟨a, here, room⟩ | ⟨b, here, frame⟩
    · exact out (stands.seeded here room).2
    · obtain ⟨L, P, slabs, large, inv, -⟩ := stands
      have held : (b.1, b.2) ∈ heldPages slabs large ++ t.blocks := List.mem_append_right _ here
      rw [blockAt_mem] at frame
      obtain ⟨k, at_⟩ := Nat.exists_eq_add_of_le frame.1
      apply out
      rw [at_]
      exact (SlabInv.held_mapped inv.owned inv.mapped held k (by omega)).1

/-- **No run writes** outside them. -/
theorem runs_writes (stands : Stands t.heap t.live t.blocks S) (run : ReflTransGen Step t t') :
    WritesWithin S t.heap.mem t'.heap.mem := by
  induction run with
  | refl => exact .refl
  | tail before step ih => exact ih.trans (step.writes (runs_stands stands before))

end Tenants

end

/-! ## The tables in memory -/

/-- A 64-bit word of physical memory, read through the linear map. -/
def physWord (mem : Mem) (x : Nat) : Nat := load mem (va x) 8

/-- The page tables lie in the kernel image, with its read-only data. -/
structure PgLayout.InKernel (l : PgLayout) (k : KernelSymbols) (kernelEnd : Nat) : Prop where
  root : ∀ r, physOffset ≤ l.root r ∧ l.root r + pageSize ≤ pa kernelEnd
  pool : physOffset ≤ l.pool.base ∧ l.pool.base + pageSize * l.pool.count ≤ pa kernelEnd
  rodata : k.endRodata ≤ pa kernelEnd

/-- Memory holds the tables of a state. -/
def TablesIn (l : PgLayout) (st : PgState) (mem : Mem) : Prop :=
  ∀ f : Frame Root, f.Valid l.pool → ∀ i < 512,
    physWord mem (f.cell l.root l.pool i) = st.mem (f.cell l.root l.pool i)

section
variable {l : PgLayout} {k : KernelSymbols} {st st' : PgState} {tables : List (Table Root)} {kernelEnd : Nat}
  {mem mem' : Mem} {X : Set Nat} {x : Nat}

/-- The cells of the tables are words of the kernel image. -/
theorem PgLayout.InKernel.cell {f : Frame Root} {i : Nat} (h : l.InKernel k kernelEnd) (valid : f.Valid l.pool)
    (lt : i < 512) : physOffset ≤ f.cell l.root l.pool i ∧ f.cell l.root l.pool i + 8 ≤ pa kernelEnd := by
  have eight : 8 * i + 8 ≤ pageSize := by
    simp only [pageSize]
    omega
  cases f with
  | root r =>
    have inside := h.root r
    simp only [Frame.cell, Frame.base]
    omega
  | table n =>
    have inside := h.pool
    have count : n < l.pool.count := valid
    have fits : pageSize * n + pageSize ≤ pageSize * l.pool.count := by
      rw [← Nat.mul_succ]
      exact Nat.mul_le_mul_left _ count
    simp only [Frame.cell, Frame.base]
    omega

/-- The walk of the hardware reads the cells of the tables and nothing else. -/
theorem AfterInit.translate_congr {words : Nat → Nat} (after : AfterInit l k st st' tables) (h : Placed l.root l.pool)
    (agree : ∀ f : Frame Root, f.Valid l.pool → ∀ i < 512,
      words (f.cell l.root l.pool i) = st'.mem (f.cell l.root l.pool i)) (r : Root) (addr : Nat) :
    translate words (l.root r) addr = translate st'.mem (l.root r) addr := by
  have holds := after.holds h
  have holds' : HoldsPool l.root l.pool words tables (slotsMapped (kernelMapped k) appCount) := by
    intro n lt i lt'
    rw [agree (.table n) lt i lt', holds n lt i lt']
  have lt : pgdIndex addr < 512 := by
    rw [pgdIndex_eq]
    simp only [vpn]
    omega
  have same : words (l.root r + 8 * pgdIndex addr) = st'.mem (l.root r + 8 * pgdIndex addr) :=
    agree (.root r) trivial (pgdIndex addr) lt
  -- the entry of every root is one of a table, also the entry that two roots share
  obtain ⟨r', a, entry⟩ : ∃ r' a, st'.mem (l.root r + 8 * pgdIndex addr) = tableEntry l.pool tables (.mid r' a) := by
    by_cases shared : r = .idmap ∧ pgdIndex addr = 1
    · obtain ⟨rfl, one⟩ := shared
      refine ⟨.swapper, 256, ?_⟩
      rw [one]
      exact after.shared
    · refine ⟨r, pgdIndex addr, ?_⟩
      refine after.cell (f := .root r) h trivial lt fun both => shared ⟨?_, both.2⟩
      cases both.1
      rfl
  rw [translate_spec h after.rep holds' (same.trans entry), translate_spec h after.rep holds entry]

theorem mem_own_page (x : Nat) : x ∈ Set.Ico (x / pageSize * pageSize) ((x / pageSize + 1) * pageSize) := by
  simp only [pageSize]
  constructor <;> omega

/-- A byte of `X` lies in no page off `X`. -/
theorem frameOf_not_mem (mem : pa x ∈ X) : frameOf x ∉ ramPagesOff X :=
  fun page => not_mem_of_page page mem

/-- Writes off the kernel image keep the tables. -/
theorem TablesIn.keeps (h : TablesIn l st mem) (inside : l.InKernel k kernelEnd) (below : pa kernelEnd ≤ appFirst)
    (image : Set.Ico physOffset (pa kernelEnd) ⊆ X) (writes : WritesWithin (ramPagesOff X) mem mem') :
    TablesIn l st mem' := by
  intro f valid i lt
  have place := inside.cell valid lt
  rw [← h f valid i lt]
  apply load_congr
  intro y low high
  apply writes
  apply frameOf_not_mem
  apply image
  generalize f.cell l.root l.pool i = a at *
  simp only [pa, va, add64, sub64, pageOffset, physOffset, appFirst] at *
  constructor <;> omega

end

/-! ## What the clients hold -/

/-- The physical address belongs to a live object, or to a block held from the page
allocator. -/
def Tenants.Holds (t : Tenants) (x : Nat) : Prop :=
  (∃ a ∈ t.live, ∃ y, a.Room y ∧ pa y = x) ∨
    ∃ b ∈ t.blocks, t.heap.alloc.pageToPhys b.1 ≤ x ∧ x < t.heap.alloc.pageToPhys b.1 + pageSize * 2 ^ b.2

theorem Tenants.Holds.page {t : Tenants} {S : Set Nat} {x : Nat} (holds : t.Holds x)
    (stands : Stands t.heap t.live t.blocks S) : x / pageSize ∈ S := by
  rcases holds with ⟨a, mem, y, room, rfl⟩ | ⟨b, mem, low, high⟩
  · exact (stands.seeded mem room).2
  · exact stands.block_seeded mem low high

/-- The attributes of data of the kernel. -/
theorem pageKernel_data : Writable pageKernel .el1 ∧ ¬ AccessibleEl0 pageKernel ∧ ∀ el, ¬ Executable pageKernel el := by
  refine ⟨by decide, by decide, fun el => ?_⟩
  cases el <;> decide

section
variable {l : PgLayout} {k : KernelSymbols} {st st' : PgState} {tables : List (Table Root)} {kernelEnd x : Nat}
  {mem : Mem} {r : Root} {addr attributes : Nat}

/-- RAM behind the kernel image is data of the kernel in the linear map. -/
theorem linearProt_data (linked : k.Linked) (inside : l.InKernel k kernelEnd) (low : physOffset ≤ x)
    (off : x ∉ Set.Ico physOffset (pa kernelEnd)) : linearProt k x = pageKernel := by
  have above : pa kernelEnd ≤ x := Nat.le_of_not_lt fun lt => off ⟨low, lt⟩
  have rodata := inside.rodata
  have adjacent := linked.adjacent
  have order := linked.endRodata
  rw [linearProt, if_neg (by omega), if_neg (by omega)]

/-- RAM off the kernel image and off the slots is mapped as data of the kernel, and
only by the kernel. -/
theorem MapKind.data (kind : MapKind k r x attributes) (linked : k.Linked) (inside : l.InKernel k kernelEnd)
    (here : x ∈ ram) (image : x ∉ Set.Ico physOffset (pa kernelEnd))
    (slots : x ∉ Set.Ico appFirst (appFirst + appCount * appSlotSize)) : r ≠ .user ∧ attributes = pageKernel := by
  have low := here.1
  cases kind with
  | linear own _ => exact ⟨own, linearProt_data linked inside low image⟩
  | device device =>
    unfold InDevice at device
    simp only [physOffset, pageSize] at *
    omega
  | image lt inImage =>
    unfold InImage at inImage
    simp only [appFirst, appCount, appSlotSize, appImageSize] at *
    exact (slots ⟨by omega, by omega⟩).elim
  | stack lt inStack =>
    unfold InStack at inStack
    simp only [appFirst, appCount, appSlotSize, appStackSize] at *
    exact (slots ⟨by omega, by omega⟩).elim

/-- The linear map translates RAM off the kernel image as data of the kernel. -/
theorem AfterInit.linear_data (after : AfterInit l k st st' tables) (h : Placed l.root l.pool) (linked : k.Linked)
    (inside : l.InKernel k kernelEnd) (here : x ∈ ram) (off : x ∉ Set.Ico physOffset (pa kernelEnd)) :
    translate st'.mem l.swapperPgDir (va x) = some (x, pageKernel) := by
  have low := here.1
  have high := here.2
  have place : va x = pageOffset + (x - physOffset) := by
    simp only [va, add64, sub64, pageOffset, physOffset, ramSize] at *
    omega
  rw [after.swapper h linked, swapperMap, if_pos]
  · rw [place, Nat.add_sub_cancel_left, Nat.add_sub_cancel' low, linearProt_data linked inside low off]
  · rw [place]
    simp only [pageOffset, physOffset, ramSize] at *
    omega
  · rw [place]
    simp only [pageOffset]
    omega
  · exact va_lt x

end

/-! ## Whatever the clients do -/

/-- What holds after any calls and writes of the clients, for the addresses `X` that
were taken before the page descriptors `D`. -/
structure Protected (l : PgLayout) (st : PgState) (mem : Mem) (X D : Set Nat) (t : Tenants) : Prop where
  kept : ∀ y, pa y ∈ X → t.heap.mem y = mem y
  tables : ∀ r addr, translate (physWord t.heap.mem) (l.root r) addr = translate st.mem (l.root r) addr
  apart : ∀ x, t.Holds x → x ∈ ram \ (X ∪ D)
  linear : ∀ x, t.Holds x → translate (physWord t.heap.mem) l.swapperPgDir (va x) = some (x, pageKernel)
  data : ∀ x, t.Holds x → ∀ r addr attributes, Maps l ⟨physWord t.heap.mem, st.used⟩ r addr x attributes →
    r ≠ .user ∧ Writable attributes .el1 ∧ ¬ AccessibleEl0 attributes ∧ ∀ el, ¬ Executable attributes el

section
variable {l : PgLayout} {k : KernelSymbols} {st : PgState} {kernelEnd : Nat}

/-- **Protection of the kernel from its heap.** With the tables of `mmu_init` in
memory, and after any run of the clients of `kmalloc` and of `alloc_pages`: no byte of
the kernel image, of the application slots or of the device tree has changed; every
root translates as `mmu_init` has left it; and what the clients hold lies in RAM
apart from these and from the page descriptors, is mapped at its linear-map address
as data of the kernel, and under no mapping is it executable or within reach of EL0. -/
theorem heap_protected (h : Placed l.root l.pool) (linked : k.Linked) (clear : Cleared l st)
    (inside : l.InKernel k kernelEnd) (below : pa kernelEnd ≤ appFirst) : ∃ st', mmuInit l k st = some st' ∧
      ∀ fdtPointer mem m, TablesIn l st' mem → (memInit kernelEnd fdtPointer mem).run = some (some m) →
      ∀ t, ReflTransGen Tenants.Step ⟨m.heap, [], []⟩ t →
        Protected l st' mem (bootRanges kernelEnd fdtPointer mem) m.descriptors t := by
  obtain ⟨st', tables, run, sub, rep⟩ := mmuInit_spec h linked clear
  have after : AfterInit l k st' _ tables := ⟨rep, sub, rfl⟩
  refine ⟨_, run, ?_⟩
  intro fdtPointer mem m holds boot t tenants
  have above : physOffset < pa kernelEnd := by
    have := inside.root .swapper
    simp only [pageSize] at this
    omega
  have booted : BootedHeap m mem (bootRanges kernelEnd fdtPointer mem) := by
    rcases memInit_spec kernelEnd fdtPointer mem above below with ⟨-, panic⟩ | ⟨m', q, -, run', -, -, booted⟩
    · rw [boot] at panic
      cases Option.some_inj.1 panic
    · rw [boot] at run'
      obtain rfl := Option.some_inj.1 (Option.some_inj.1 run')
      exact booted
  have image : Set.Ico physOffset (pa kernelEnd) ⊆ bootRanges kernelEnd fdtPointer mem := fun x here => .inl (.inl here)
  have slots : Set.Ico appFirst (appFirst + appCount * appSlotSize) ⊆ bootRanges kernelEnd fdtPointer mem :=
    fun x here => .inl (.inr here)
  generalize bootRanges kernelEnd fdtPointer mem = X at booted image slots
  have stands := Tenants.runs_stands (t := ⟨m.heap, [], []⟩) booted.stands tenants
  have writes := Tenants.runs_writes (t := ⟨m.heap, [], []⟩) booted.stands tenants
  rw [booted.untouched] at writes
  have tablesNow := holds.keeps inside below (image.trans Set.subset_union_left) writes
  have walks := after.translate_congr h tablesNow
  have apart : ∀ x, t.Holds x → x ∈ ram \ (X ∪ m.descriptors) := by
    intro x held
    have page := held.page stands
    exact ⟨page.1 (mem_own_page x), not_mem_of_page page⟩
  have offImage : ∀ x, t.Holds x → x ∉ Set.Ico physOffset (pa kernelEnd) :=
    fun x held here => (apart x held).2 (.inl (image here))
  constructor
  · intro y taken
    apply writes
    exact frameOf_not_mem (.inl taken)
  · exact walks
  · exact apart
  · intro x held
    rw [← after.linear_data h linked inside (apart x held).1 (offImage x held)]
    exact walks .swapper (va x)
  · intro x held r addr attributes maps
    have walk := (walks r addr).symm.trans maps.walk
    have kind := after.kind h linked ⟨maps.half, walk⟩
    obtain ⟨own, rfl⟩ := kind.data linked inside (apart x held).1 (offImage x held)
      fun here => (apart x held).2 (.inl (slots here))
    exact ⟨own, pageKernel_data⟩

end

/-! ## A memory with tables -/

/-- The memory of the words of a state. -/
def memoryOf (words : Nat → Nat) : Mem := fun y => UInt8.ofNat (words (pa y / 8 * 8) / 256 ^ (pa y % 8))

section
variable {l : PgLayout} {k : KernelSymbols} {st st' : PgState} {tables : List (Table Root)} {leaf : Root → Nat → Nat}
  {kernelEnd : Nat}

theorem physWord_memoryOf {words : Nat → Nat} {a : Nat} (aligned : 8 ∣ a) (low : physOffset ≤ a)
    (high : a + 8 ≤ appFirst) (word : words a < 2 ^ 64) : physWord (memoryOf words) a = words a := by
  rw [physWord, ← load_store (m := memoryOf words) (a := va a) (n := 8) (v := words a) word]
  apply load_congr
  intro x ge lt
  obtain ⟨i, rfl⟩ := Nat.exists_eq_add_of_le ge
  have place : pa (va a + i) = a + i := by
    simp only [pa, va, add64, sub64, pageOffset, physOffset, appFirst] at *
    omega
  rw [store_at (by omega), memoryOf, place, show (a + i) / 8 * 8 = a by omega, show (a + i) % 8 = i by omega]

theorem mapped_lt {V N phys prot : Nat} {r : Root} (top : phys + pageSize * N ≤ 2 ^ 64) (small : prot < 2 ^ 64)
    (below : ∀ r p, leaf r p < 2 ^ 64) (r' : Root) (p : Nat) : mapped leaf r V N phys prot r' p < 2 ^ 64 := by
  unfold mapped
  split
  next here =>
    apply Nat.or_lt_two_pow _ small
    have step : pageSize * (p - V) < pageSize * N := Nat.mul_lt_mul_of_pos_left (by omega) (by decide)
    omega
  next => exact below r' p

theorem pagesOf_top {start limit : Nat} (le : start ≤ limit) (top : limit ≤ appFirst) :
    start + pageSize * pagesOf start limit ≤ 2 ^ 64 := by
  have whole : pageSize * pagesOf start limit ≤ limit - start := Nat.mul_div_le _ _
  simp only [appFirst] at top
  omega

/-- Every descriptor of the leaves fits its word. -/
theorem leaves_lt (linked : k.Linked) (r : Root) (p : Nat) : slotsMapped (kernelMapped k) appCount r p < 2 ^ 64 := by
  have order := linked.endRodata
  have apps := linked.belowApps
  have adjacent := linked.adjacent
  have kernel : ∀ r p, kernelMapped k r p < 2 ^ 64 := by
    unfold kernelMapped
    apply mapped_lt (by decide) (by decide)
    apply mapped_lt (by decide) (by decide)
    apply mapped_lt (by decide) (by decide)
    apply mapped_lt (pagesOf_top order apps) (by decide)
    apply mapped_lt (pagesOf_top linked.etext (by omega)) (by decide)
    apply mapped_lt (by decide) (by decide)
    exact fun _ _ => by decide
  have slots : ∀ n ≤ appCount, ∀ r p, slotsMapped (kernelMapped k) n r p < 2 ^ 64 := by
    intro n le
    induction n with
    | zero => exact kernel
    | succ n ih =>
      simp only [appCount] at le
      apply mapped_lt (by simp only [appFirst, appSlotSize, appStackSize, pageSize]; omega) (by decide)
      apply mapped_lt (by simp only [appFirst, appSlotSize, pageSize]; omega) (by decide)
      exact ih (by simp only [appCount]; omega)
  exact slots appCount le_rfl r p

/-- Every descriptor fits its word. -/
theorem content_lt (h : Placed l.root l.pool) (rep : Rep l.root l.pool st tables leaf)
    (below : ∀ r p, leaf r p < 2 ^ 64) (f : Frame Root) (i : Nat) : content l.pool tables leaf f i < 2 ^ 64 := by
  have entry : ∀ t, tableEntry l.pool tables t < 2 ^ 64 := by
    intro t
    unfold tableEntry
    split
    next mem =>
      apply Nat.or_lt_two_pow _ (by decide)
      have taken := List.idxOf_lt_length_iff.2 mem
      have step : pageSize * tables.idxOf t < pageSize * l.pool.count :=
        Nat.mul_lt_mul_of_pos_left (taken.trans_le rep.fits) (by decide)
      have top := h.poolBelow
      unfold tableAt
      omega
    next => decide
  cases f with
  | root r => exact entry _
  | table n =>
    simp only [content]
    split
    · exact entry _
    · exact below _ _
    · decide

/-- There is a memory that holds the tables. -/
theorem AfterInit.exists_tablesIn (after : AfterInit l k st st' tables) (h : Placed l.root l.pool)
    (linked : k.Linked) (inside : l.InKernel k kernelEnd) (below : pa kernelEnd ≤ appFirst) :
    TablesIn l st' (memoryOf st'.mem) := by
  intro f valid i lt
  have place := inside.cell valid lt
  have aligned : 8 ∣ f.cell l.root l.pool i := by
    have page : 8 ∣ f.base l.root l.pool := Nat.dvd_trans (by decide) h.base_dvd
    exact Nat.dvd_add page (Nat.dvd_mul_right 8 i)
  apply physWord_memoryOf aligned place.1 (place.2.trans below)
  by_cases shared : f = .root .idmap ∧ i = 1
  · obtain ⟨rfl, rfl⟩ := shared
    exact lt_of_eq_of_lt after.shared (content_lt h after.rep (leaves_lt linked) (.root .swapper) 256)
  · rw [after.cell h valid lt shared]
    exact content_lt h after.rep (leaves_lt linked) f i

end

theorem exampleLayout_inKernel : exampleLayout.InKernel exampleSymbols (va 0x40100000) where
  root := by intro r; cases r <;> decide +kernel
  pool := by decide +kernel
  rodata := by decide +kernel

/-- A client that asks for 24 bytes. -/
theorem heap_protected_example : ∃ st' mem m, mmuInit exampleLayout exampleSymbols ⟨fun _ => 0, 0⟩ = some st' ∧
    (memInit (va 0x40100000) 0 mem).run = some (some m) ∧
    Protected exampleLayout st' mem (bootRanges (va 0x40100000) 0 mem) m.descriptors
      ⟨(m.heap.kmalloc 24).1, Session.gain [] 24 (m.heap.kmalloc 24).2, []⟩ := by
  obtain ⟨st₁, tables, run₁, sub, rep⟩ := mmuInit_spec exampleLayout_placed exampleSymbols_linked exampleLayout_cleared
  have after : AfterInit exampleLayout exampleSymbols st₁ _ tables := ⟨rep, sub, rfl⟩
  have below : pa (va 0x40100000) ≤ appFirst := by decide +kernel
  obtain ⟨st', run, all⟩ := heap_protected exampleLayout_placed exampleSymbols_linked exampleLayout_cleared
    exampleLayout_inKernel below
  obtain rfl := Option.some_inj.1 (run₁.symm.trans run)
  have holds := after.exists_tablesIn exampleLayout_placed exampleSymbols_linked exampleLayout_inKernel below
  generalize memoryOf _ = mem at holds
  rcases memInit_spec (va 0x40100000) 0 mem (by decide +kernel) below with ⟨none, -⟩ | ⟨m, q, -, boot, -, -, -⟩
  · exact (none ⟨_, gap_behind_image 0 mem (by decide)⟩).elim
  · refine ⟨_, mem, m, run, boot, all 0 mem m holds boot _ ?_⟩
    exact .single (.slab (.kmalloc 24))

end MiaowOs
