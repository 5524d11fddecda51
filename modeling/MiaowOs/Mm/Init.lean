import MiaowOs.Mm.MemblockFit
import MiaowOs.Mm.SlabRuns
import Mathlib

/-!
# Boot: `mm/init.c`

`mem_init` sets RAM as the memory of the early map, reserves the kernel image, the
application slots and the device tree, places the page descriptors, and hands the
rest over to the page allocator. A call that cannot go on ends in `kernel_panic`. As
in the functions of `mm/memblock.c`, a bad access ends it with `none`; the printed
lines are left out.

The memory is the byte memory behind the linear map. The page descriptors are the
array of `PageAlloc`, not bytes of it: they are placed apart from what is in RAM, and
no allocation is ever placed on them.
-/

namespace MiaowOs
open TwoWay Bytes PageAlloc Relation

/-- A computation that may end in `kernel_panic`. -/
abbrev OrPanic := OptionT Option

/-- `kernel_panic`. -/
def kernelPanic {α : Type} : OrPanic α := OptionT.fail

/-- `if (call) kernel_panic();` -/
def orPanic (call : Option (Memblock × Int)) : OrPanic Memblock := do
  let (memblock, status) ← call
  if status ≠ 0 then kernelPanic else return memblock

/-- `FDT_MAGIC`. -/
abbrev fdtMagic : Nat := 0xd00dfeed

/-- `sizeof(struct page)`. -/
abbrev sizeofPage : Nat := 48

/-- `alignof(struct page)`. -/
abbrev alignofPage : Nat := 8

/-- `__builtin_bswap32`. -/
def bswap32 (word : Nat) : Nat :=
  word % 2 ^ 8 * 2 ^ 24 + word / 2 ^ 8 % 2 ^ 8 * 2 ^ 16 + word / 2 ^ 16 % 2 ^ 8 * 2 ^ 8 + word / 2 ^ 24 % 2 ^ 8

/-- `fdt_read`. -/
def fdtRead (mem : Mem) (address : Nat) : Nat := bswap32 (load mem (va address) 4)

/-- `early_init_fdt_reserve_self`. -/
def earlyInitFdtReserveSelf (fdtPointer : Nat) (mem : Mem) (memblock : Memblock) : OrPanic Memblock :=
  if fdtPointer < physOffset ∨ fdtPointer ≥ physOffset + ramSize ∨ fdtPointer % 8 ≠ 0 then return memblock
  else if fdtRead mem fdtPointer ≠ fdtMagic then return memblock
  else orPanic (memblockReserve memblock fdtPointer (fdtRead mem (fdtPointer + 4)))

/-- The file-scope state of the memory manager: `memblock`, the allocators with the
memory, and the address in `mem_map`. -/
structure MemState where
  memblock : Memblock
  heap : SlabAlloc
  memMap : Nat

/-- The `while` loop of `mem_init`. -/
def freeLoop (memblock : Memblock) : Nat → MemblockCursor → PageAlloc → Option PageAlloc
  | 0, _, _ => none
  | fuel + 1, cursor, alloc => do
    match ← memblockNextFree memblock cursor with
    | (_, none) => return alloc
    | (cursor, some (start, stop)) => freeLoop memblock fuel cursor (alloc.freeMemoryCore start stop)

/-- `mem_init`. -/
def memInit (kernelEnd fdtPointer : Nat) (mem : Mem) : OrPanic MemState := do
  let pages := ramSize >>> pageShift
  let memblock ← orPanic (memblockAdd .zero physOffset ramSize)
  let memblock ← orPanic (memblockReserve memblock physOffset (sub64 (pa kernelEnd) physOffset))
  let memblock ← orPanic (memblockReserve memblock appFirst (appCount * appSlotSize))
  let memblock ← earlyInitFdtReserveSelf fdtPointer mem memblock
  let (memblock, map) ← memblockPhysAlloc memblock (pages * sizeofPage) alignofPage
  if map = 0 then kernelPanic
  else do
    let alloc ← freeLoop memblock loopBound .zero (PageAlloc.zero.freeAreaInit physOffset pages)
    return ⟨memblock, SlabAlloc.kmemCacheInit ⟨alloc, fun _ => ⟨0, 0⟩, mem⟩, va map⟩

/-! ## Panics -/

/-- The computation makes no bad access, and what it yields satisfies `Q` if it does
not panic. -/
def Ensures {α : Type} (x : OrPanic α) (Q : α → Prop) : Prop :=
  ∃ outcome, x.run = some outcome ∧ ∀ v, outcome = some v → Q v

section
variable {α β : Type} {x : OrPanic α} {f : α → OrPanic β} {P : α → Prop} {Q : β → Prop} {v : α}

theorem Ensures.pure (holds : P v) : Ensures (pure v : OrPanic α) P :=
  ⟨some v, rfl, fun _ eq => Option.some_inj.1 eq ▸ holds⟩

theorem Ensures.panic : Ensures (kernelPanic : OrPanic α) P :=
  ⟨none, rfl, fun _ absurd => by cases absurd⟩

theorem Ensures.bind (first : Ensures x P) (rest : ∀ v, P v → Ensures (f v) Q) : Ensures (x >>= f) Q := by
  obtain ⟨outcome, run, post⟩ := first
  cases outcome with
  | none =>
    refine ⟨none, ?_, fun _ absurd => by cases absurd⟩
    rw [OptionT.run_bind, Option.elimM, bind_of_some run]
    rfl
  | some v =>
    obtain ⟨outcome, run', post'⟩ := rest v (post v rfl)
    refine ⟨outcome, ?_, post'⟩
    rw [OptionT.run_bind, Option.elimM, bind_of_some run]
    exact run'

/-- A call that makes no bad access. -/
theorem Ensures.call {x : Option α} (run : x = some v) (holds : P v) : Ensures (liftM x : OrPanic α) P := by
  rw [run]
  exact .pure holds

/-- A call whose status is checked. -/
theorem Ensures.status {call : Option (Memblock × Int)} {m : Memblock} {status : Int} {P : Memblock → Prop}
    (run : call = some (m, status)) (success : status = 0 → P m) : Ensures (orPanic call) P := by
  rw [orPanic]
  apply Ensures.bind (Ensures.call run rfl)
  rintro _ rfl
  by_cases zero : status = 0
  · simp only [zero, ne_eq, not_true_eq_false, if_false]
    exact .pure (success zero)
  · simp only [zero, ne_eq, not_false_eq_true, if_true]
    exact .panic

end

/-! ## The early map -/

/-- The addresses of RAM. -/
def ram : Set Nat := Set.Ico physOffset (physOffset + ramSize)

/-- An early map with memory `M`, of which `X` is reserved. -/
def Reserves (memblock : Memblock) (M X : Set Nat) : Prop :=
  ∃ memory reserved, Mapped memblock memory reserved ∧ addresses memory = M ∧ addresses reserved = X

section
variable {memblock : Memblock} {M X : Set Nat} {base size : Nat}

theorem Reserves.add (h : Reserves memblock M X) (le : base + size ≤ uintptrMax) :
    Ensures (orPanic (memblockAdd memblock base size)) fun m => Reserves m (M ∪ Set.Ico base (base + size)) X := by
  obtain ⟨memory, reserved, mapped, rfl, rfl⟩ := h
  rcases memblockAdd_spec mapped le with ⟨m, memory', run, mapped', covers⟩ | run
  · exact .status run fun _ => ⟨memory', reserved, mapped', Set.ext covers, rfl⟩
  · exact .status run fun absurd => by cases absurd

theorem Reserves.reserve (h : Reserves memblock M X) (le : base + size ≤ uintptrMax) :
    Ensures (orPanic (memblockReserve memblock base size)) fun m =>
      Reserves m M (X ∪ Set.Ico base (base + size)) := by
  obtain ⟨memory, reserved, mapped, rfl, rfl⟩ := h
  rcases memblockReserve_spec mapped le with ⟨m, reserved', run, mapped', covers⟩ | run
  · exact .status run fun _ => ⟨memory, reserved', mapped', rfl, Set.ext covers⟩
  · exact .status run fun absurd => by cases absurd

/-- A range taken with `memblock_phys_alloc` was free. -/
theorem Reserves.physAlloc {align : Nat} (h : Reserves memblock M X) (positive : 0 < size) (word : align ≤ uintptrMax)
    (pow : align = 0 ∨ ∃ k, align = 2 ^ k) : ∃ m address,
    memblockPhysAlloc memblock size align = some (m, address) ∧
      (address ≠ 0 → address + size ≤ uintptrMax ∧ Set.Ico address (address + size) ⊆ M \ X ∧
        Reserves m M (X ∪ Set.Ico address (address + size))) := by
  obtain ⟨memory, reserved, mapped, rfl, rfl⟩ := h
  obtain ⟨m, address, run, outcome⟩ := memblockPhysAlloc_spec size align mapped
  refine ⟨m, address, run, fun ne => ?_⟩
  rcases outcome with ⟨-, zero⟩ | ⟨reserved', mapped', le, covers⟩
  · exact (ne zero).elim
  · obtain ⟨k, hk, two_pow⟩ := fitAlign_pow word pow
    have fits := (physAlloc_found mapped positive hk two_pow run ne).1
    have inside := ((fits_iff mapped positive).1 fits).2
    rw [Memblock.free, mapped.memory.addresses_eq, mapped.reserved.addresses_eq] at inside
    exact ⟨le, inside, memory, reserved', mapped', rfl, Set.ext covers⟩

/-! ## The device tree -/

/-- The device tree blob: empty unless its pointer is in RAM, 8-byte aligned, and
carries the magic. -/
def fdtRange (fdtPointer : Nat) (mem : Mem) : Set Nat :=
  {x | fdtPointer ∈ ram ∧ 8 ∣ fdtPointer ∧ fdtRead mem fdtPointer = fdtMagic ∧
    x ∈ Set.Ico fdtPointer (fdtPointer + fdtRead mem (fdtPointer + 4))}

theorem fdtRead_lt (mem : Mem) (address : Nat) : fdtRead mem address < 2 ^ 32 := by
  unfold fdtRead bswap32
  omega

theorem Reserves.fdt (h : Reserves memblock M X) (fdtPointer : Nat) (mem : Mem) :
    Ensures (earlyInitFdtReserveSelf fdtPointer mem memblock) fun m =>
      Reserves m M (X ∪ fdtRange fdtPointer mem) := by
  have none : ∀ absent : ¬ (fdtPointer ∈ ram ∧ 8 ∣ fdtPointer ∧ fdtRead mem fdtPointer = fdtMagic),
      Reserves memblock M (X ∪ fdtRange fdtPointer mem) := by
    intro absent
    have empty : fdtRange fdtPointer mem = ∅ := by
      ext x
      exact ⟨fun inside => absent ⟨inside.1, inside.2.1, inside.2.2.1⟩, False.elim⟩
    rw [empty, Set.union_empty]
    exact h
  rw [earlyInitFdtReserveSelf]
  split
  · next outside =>
    refine .pure (none ?_)
    rintro ⟨inside, aligned, -⟩
    have low := inside.1
    have high := inside.2
    omega
  split
  · next other => exact .pure (none fun present => other present.2.2)
  · next inside magic =>
    rw [not_ne_iff] at magic
    have small := fdtRead_lt mem (fdtPointer + 4)
    have present : fdtPointer ∈ ram := ⟨by omega, by omega⟩
    have blob : fdtRange fdtPointer mem = Set.Ico fdtPointer (fdtPointer + fdtRead mem (fdtPointer + 4)) := by
      ext x
      exact ⟨fun here => here.2.2.2, fun here => ⟨present, by omega, magic, here⟩⟩
    rw [blob]
    apply h.reserve
    simp only [physOffset, ramSize, uintptrMax] at *
    omega

end

/-! ## The walk -/

section
variable {memblock : Memblock} {memory reserved : List MemblockRegion} {cursor : MemblockCursor}
  {ranges : List (Nat × Nat)} {fuel : Nat}

/-- Hand over every range of a list. -/
def handOver (alloc : PageAlloc) (ranges : List (Nat × Nat)) : PageAlloc :=
  ranges.foldl (fun alloc range => alloc.freeMemoryCore range.1 range.2) alloc

/-- The loop hands over the ranges ahead of the cursor. -/
theorem freeLoop_eq (h : Mapped memblock memory reserved) (ahead : Ahead memory reserved cursor ranges)
    (enough : ranges.length < fuel) (alloc : PageAlloc) :
    freeLoop memblock fuel cursor alloc = some (handOver alloc ranges) := by
  induction ranges generalizing cursor fuel alloc with
  | nil =>
    obtain ⟨fuel, rfl⟩ := Nat.exists_eq_add_one_of_ne_zero (Nat.ne_zero_of_lt enough)
    obtain ⟨cursor', next, -⟩ := memblockNextFree_spec h ahead
    rw [freeLoop, bind_of_some next]
    rfl
  | cons range ranges ih =>
    obtain ⟨fuel, rfl⟩ := Nat.exists_eq_add_one_of_ne_zero (Nat.ne_zero_of_lt enough)
    obtain ⟨cursor', next, ahead'⟩ := memblockNextFree_spec h ahead
    rw [freeLoop, bind_of_some next]
    exact ih ahead' (show ranges.length < fuel by simpa using enough) (alloc.freeMemoryCore range.1 range.2)

/-- The hand-over of disjoint ranges is a history of the page allocator. -/
theorem handOver_history {start h : History} (ranges : List (Nat × Nat)) (run : ReflTransGen History.Step start h)
    (wrap : ∀ r ∈ ranges, r.1 + (pageSize - 1) < 2 ^ 64 ∧ r.2 < 2 ^ 64)
    (apart : ranges.Pairwise fun a b => a.2 < b.1)
    (fresh : ∀ r ∈ ranges, ∀ q ∈ h.seeds, Disjoint (Set.Ico r.1 r.2) (Set.Ico q.1 q.2)) :
    ReflTransGen History.Step start ⟨handOver h.alloc ranges, ranges.reverse ++ h.seeds, h.held⟩ := by
  induction ranges generalizing h with
  | nil => exact run
  | cons r ranges ih =>
    obtain ⟨first, rest⟩ := List.pairwise_cons.1 apart
    obtain ⟨low, high⟩ := wrap r List.mem_cons_self
    have step := run.tail (History.Step.seed r.1 r.2 low high (fresh r List.mem_cons_self))
    have later := ih step (fun q mem => wrap q (List.mem_cons_of_mem _ mem)) rest (by
      intro q memQ p memP
      rcases List.mem_cons.1 memP with rfl | memP
      · have above := first q memQ
        rw [Set.disjoint_left]
        intro x inside inside'
        have := inside.1
        have := inside'.2
        omega
      · exact fresh q (List.mem_cons_of_mem _ memQ) p memP)
    rw [List.reverse_cons, List.append_assoc]
    exact later

end

/-! ## The pages handed over -/

/-- The pages of RAM that share no byte with `X`. -/
def ramPagesOff (X : Set Nat) : Set Nat :=
  {x | Set.Ico (x * pageSize) ((x + 1) * pageSize) ⊆ ram ∧
    Disjoint (Set.Ico (x * pageSize) ((x + 1) * pageSize)) X}

section
variable {memblock : Memblock} {memory reserved : List MemblockRegion} {X : Set Nat} {h : History} {x : Nat}

theorem page_start_lt (x : Nat) : x * pageSize < (x + 1) * pageSize :=
  Nat.mul_lt_mul_of_pos_right (Nat.lt_succ_self x) (by decide)

theorem page_in_ram_iff : Set.Ico (x * pageSize) ((x + 1) * pageSize) ⊆ ram ↔ 0x40000 ≤ x ∧ x < 0x48000 := by
  constructor
  · intro inside
    have first := inside ⟨le_rfl, page_start_lt x⟩
    have low := first.1
    have high := first.2
    simp only [physOffset, ramSize, pageSize] at *
    omega
  · rintro ⟨low, high⟩ y ⟨ge, lt⟩
    constructor
    · simp only [physOffset, pageSize] at *
      omega
    · simp only [physOffset, ramSize, pageSize] at *
      omega

/-- The managed pages are those of RAM. -/
theorem pfnValid_ram (r : History.Reachable physOffset (ramSize >>> pageShift) h) :
    h.alloc.pfnValid x = true ↔ Set.Ico (x * pageSize) ((x + 1) * pageSize) ⊆ ram := by
  obtain ⟨L, inv⟩ := r.owned
  rw [page_in_ram_iff, pfnValid_iff, mapEnd, inv.base_eq, inv.size_eq]
  rfl

/-- The linear map has RAM far from both ends of the addresses. -/
theorem linear_ram (r : History.Reachable physOffset (ramSize >>> pageShift) h) (valid : h.alloc.pfnValid x = true) :
    linear x ≠ 0 ∧ linear x + pageSize < 2 ^ 64 := by
  obtain ⟨low, high⟩ := page_in_ram_iff.1 ((pfnValid_ram r).1 valid)
  simp only [linear, va, add64, sub64, pageOffset, physOffset, pageSize]
  omega

/-- The free ranges of a map of RAM. -/
theorem mem_freeRanges_ram (mapped : Mapped memblock memory reserved) (isRam : addresses memory = ram) :
    x ∈ Spans.cover Prod.fst Prod.snd (freeRanges memory reserved) ↔ x ∈ ram ∧ x ∉ addresses reserved := by
  rw [mem_freeRanges mapped, isRam]

theorem freeRanges_in_ram (mapped : Mapped memblock memory reserved) (isRam : addresses memory = ram) {r : Nat × Nat}
    (mem : r ∈ freeRanges memory reserved) : physOffset ≤ r.1 ∧ r.1 < r.2 ∧ r.2 ≤ physOffset + ramSize := by
  have ne := (freeRanges_separated mapped).nonempty r mem
  have first := ((mem_freeRanges_ram mapped isRam).1 ⟨r, mem, le_rfl, ne⟩).1.1
  have last := ((mem_freeRanges_ram mapped isRam).1 ⟨r, mem, Nat.le_sub_one_of_lt ne, Nat.sub_one_lt_of_lt ne⟩).1.2
  exact ⟨first, ne, by omega⟩

/-- Handing over the free ranges seeds the pages off the reserved addresses. -/
theorem seeded_freeRanges (mapped : Mapped memblock memory reserved) (isRam : addresses memory = ram)
    (r : History.Reachable physOffset (ramSize >>> pageShift) h)
    (seeds : ∀ q, q ∈ h.seeds ↔ q ∈ freeRanges memory reserved) :
    h.seeded = ramPagesOff (addresses reserved) := by
  ext x
  constructor
  · rintro ⟨valid, q, mem, low, high⟩
    refine ⟨(pfnValid_ram r).1 valid, ?_⟩
    rw [Set.disjoint_left]
    intro y here
    have inside := (mem_freeRanges_ram mapped isRam).1 ⟨q, (seeds q).1 mem, low.trans here.1, here.2.trans_le high⟩
    exact inside.2
  · rintro ⟨inside, off⟩
    refine ⟨(pfnValid_ram r).2 inside, ?_⟩
    obtain ⟨q, mem, low, high⟩ := (freeRanges_separated mapped).within_one (page_start_lt x)
      fun y ge lt => (mem_freeRanges_ram mapped isRam).2 ⟨inside ⟨ge, lt⟩, Set.disjoint_left.1 off ⟨ge, lt⟩⟩
    exact ⟨q, (seeds q).2 mem, low, high⟩

/-- **The hand-over** of what the early map leaves free. -/
theorem Reserves.handOver (h : Reserves memblock ram X) : ∃ history : History,
    freeLoop memblock loopBound .zero (PageAlloc.zero.freeAreaInit physOffset (ramSize >>> pageShift)) =
      some history.alloc ∧
    Boot physOffset (ramSize >>> pageShift) history ∧ history.seeded = ramPagesOff X := by
  obtain ⟨memory, reserved, mapped, isRam, rfl⟩ := h
  have run := freeLoop_eq mapped .zero ((freeRanges_length mapped).trans_lt (by decide : 32 < loopBound))
    (PageAlloc.zero.freeAreaInit physOffset (ramSize >>> pageShift))
  have words : ∀ r ∈ freeRanges memory reserved, r.1 + (pageSize - 1) < 2 ^ 64 ∧ r.2 < 2 ^ 64 := by
    intro r mem
    have inside := freeRanges_in_ram mapped isRam mem
    simp only [physOffset, ramSize, pageSize] at *
    omega
  have history := handOver_history (freeRanges memory reserved)
    (.refl (a := History.init .zero physOffset (ramSize >>> pageShift))) words (freeRanges_separated mapped).apart
    fun _ _ _ absurd => by cases absurd
  have reachable : History.Reachable physOffset (ramSize >>> pageShift) _ := ⟨.zero, history⟩
  refine ⟨_, run, ⟨⟨reachable, rfl, fun x seeded => (linear_ram reachable seeded.1).1⟩,
    fun x seeded => (linear_ram reachable seeded.1).2⟩, ?_⟩
  · apply seeded_freeRanges mapped isRam reachable
    intro q
    simp [History.init]

end

/-! ## What the clients get -/

section
variable {s : SlabAlloc} {live : List Allocation} {D D' : List (Nat × Nat)} {S : Set Nat} {a : Allocation}
  {i o x : Nat}

theorem Stands.blocks_perm (h : Stands s live D S) (perm : D.Perm D') : Stands s live D' S := by
  obtain ⟨L, P, slabs, large, inv, rest⟩ := h
  exact ⟨L, P, slabs, large, ⟨inv.toSlabs, inv.owned.perm (perm.append_left _), inv.mapped⟩, rest⟩

theorem Stands.allocPages (h : Stands s live D S) (order : Nat) :
    Stands { s with alloc := (s.alloc.allocPages order).1 } live
      (((s.alloc.allocPages order).2.map fun page => (page, order)).toList ++ D) S := by
  obtain ⟨L, P, slabs, large, inv, rest⟩ := h
  rcases allocPages_spec inv.owned.inv order with ⟨run, -⟩ | ⟨i, c, alloc, L', run, allocated⟩
  · rw [run]
    exact ⟨L, P, slabs, large, inv, rest⟩
  · rw [run]
    exact ⟨L', P, slabs, large, inv.allocPages allocated, rest⟩

theorem Stands.freePages (h : Stands s live D S) (mem : (i, o) ∈ D) :
    Stands { s with alloc := s.alloc.freePages i o } live (D.erase (i, o)) S := by
  obtain ⟨L, P, slabs, large, inv, rest⟩ := h.blocks_perm (List.perm_cons_erase mem)
  obtain ⟨L', inv'⟩ := inv.freePages
  exact ⟨L', P, slabs, large, inv', rest⟩

/-- The bytes of a block lie in seeded memory. -/
theorem Stands.block_seeded (h : Stands s live D S) (mem : (i, o) ∈ D) (low : s.alloc.pageToPhys i ≤ x)
    (high : x < s.alloc.pageToPhys i + pageSize * 2 ^ o) : x / pageSize ∈ S := by
  obtain ⟨L, P, slabs, large, inv, -⟩ := h
  have held : (i, o) ∈ heldPages slabs large ++ D := List.mem_append_right _ mem
  have run := SlabInv.held_mapped inv.owned inv.mapped held
  obtain ⟨-, first⟩ := run 0 (Nat.two_pow_pos o)
  have phys := pageToPhys_eq (inv.owned.hand _ held).start_lt first.small
  rw [phys] at low high
  obtain ⟨k, at_⟩ := Nat.exists_eq_add_of_le ((Nat.le_div_iff_mul_le (by decide : 0 < pageSize)).2 low)
  have upper : x / pageSize < s.alloc.memMapBasePfn + i + 2 ^ o := by
    rw [Nat.div_lt_iff_lt_mul (by decide), Nat.add_mul, Nat.mul_comm (2 ^ o)]
    exact high
  rw [at_]
  exact (run k (by omega)).1

end

/-- The heap with what its clients hold: allocations from `kmalloc`, and
`(page, order)` blocks from `alloc_pages`. -/
structure Tenants where
  heap : SlabAlloc
  live : List Allocation
  blocks : List (Nat × Nat)

namespace Tenants

/-- One call of either allocator, or a write of the clients inside what they hold. -/
inductive Step : Tenants → Tenants → Prop where
  | slab {t : Tenants} {r : Session} (step : Session.Step ⟨t.heap, t.live⟩ r) : Step t ⟨r.heap, r.live, t.blocks⟩
  | alloc {t : Tenants} (order : Nat) :
      Step t ⟨{ t.heap with alloc := (t.heap.alloc.allocPages order).1 }, t.live,
        ((t.heap.alloc.allocPages order).2.map fun page => (page, order)).toList ++ t.blocks⟩
  | free {t : Tenants} (page order : Nat) (mem : (page, order) ∈ t.blocks) :
      Step t ⟨{ t.heap with alloc := t.heap.alloc.freePages page order }, t.live, t.blocks.erase (page, order)⟩
  | write {t : Tenants} (mem : Mem) (inside : ∀ x, mem x ≠ t.heap.mem x → (∃ a ∈ t.live, a.Room x) ∨
      ∃ b ∈ t.blocks, (t.heap.alloc.blockAt b.1 b.2).Mem (frameOf x)) :
      Step t ⟨{ t.heap with mem := mem }, t.live, t.blocks⟩

variable {t t' : Tenants} {S : Set Nat}

theorem Step.stands (stands : Stands t.heap t.live t.blocks S) (step : Step t t') :
    Stands t'.heap t'.live t'.blocks S := by
  cases step with
  | @slab r step => exact @Session.Step.stands ⟨t.heap, t.live⟩ r _ _ stands step
  | alloc order => exact stands.allocPages order
  | free page order mem => exact stands.freePages mem
  | write mem inside => exact stands.write mem inside

theorem runs_stands (stands : Stands t.heap t.live t.blocks S) (run : ReflTransGen Step t t') :
    Stands t'.heap t'.live t'.blocks S := by
  induction run with
  | refl => exact stands
  | tail _ step ih => exact step.stands ih

end Tenants

/-! ## `mem_init` -/

/-- What is in RAM before `mem_init`: the kernel image, the application slots and the
device tree. -/
def bootRanges (kernelEnd fdtPointer : Nat) (mem : Mem) : Set Nat :=
  Set.Ico physOffset (pa kernelEnd) ∪ Set.Ico appFirst (appFirst + appCount * appSlotSize) ∪
    fdtRange fdtPointer mem

/-- The page descriptors. -/
def MemState.descriptors (m : MemState) : Set Nat :=
  Set.Ico (pa m.memMap) (pa m.memMap + ramSize / pageSize * sizeofPage)

/-- The free pages are those of RAM off `X`, and no later allocation touches `X`. -/
structure HandsOver (m : MemState) (X : Set Nat) : Prop where
  free : Pow2.cover m.heap.alloc.freeBlocks = ramPagesOff X
  count : m.heap.alloc.nrFreePages = (ramPagesOff X).ncard
  objects : ∀ t, ReflTransGen Tenants.Step ⟨m.heap, [], []⟩ t → ∀ a ∈ t.live, ∀ x, a.Room x → pa x ∉ X
  blocks : ∀ t, ReflTransGen Tenants.Step ⟨m.heap, [], []⟩ t → ∀ b ∈ t.blocks, ∀ x,
    t.heap.alloc.pageToPhys b.1 ≤ x → x < t.heap.alloc.pageToPhys b.1 + pageSize * 2 ^ b.2 → x ∉ X

section
variable {m : MemState} {X : Set Nat} {x : Nat}

/-- A byte of a page off `X`. -/
theorem not_mem_of_page (page : x / pageSize ∈ ramPagesOff X) : x ∉ X := by
  apply Set.disjoint_left.1 page.2
  have split := Nat.div_add_mod x pageSize
  have rest := Nat.mod_lt x (by decide : 0 < pageSize)
  constructor
  · rw [Nat.mul_comm]
    omega
  · rw [Nat.add_mul, Nat.mul_comm]
    omega

theorem Stands.handsOver (stands : Stands m.heap [] [] (ramPagesOff X)) : HandsOver m X where
  free := stands.idle.1
  count := stands.idle.2
  objects _ run _ mem _ room :=
    not_mem_of_page ((Tenants.runs_stands (t := ⟨m.heap, [], []⟩) stands run).seeded mem room).2
  blocks _ run _ mem _ low high :=
    not_mem_of_page ((Tenants.runs_stands (t := ⟨m.heap, [], []⟩) stands run).block_seeded mem low high)

/-- **Boot-time hand-over.** Unless `mem_init` panics, the page descriptors are placed
in RAM apart from the kernel image, the application slots and the device tree; the
free pages are those of RAM that share no byte with these four, and no block or
object returned later overlaps them. -/
theorem memInit_handsOver (kernelEnd fdtPointer : Nat) (mem : Mem) (above : physOffset < pa kernelEnd)
    (below : pa kernelEnd ≤ appFirst) : Ensures (memInit kernelEnd fdtPointer mem) fun m =>
      m.descriptors ⊆ ram \ bootRanges kernelEnd fdtPointer mem ∧
        HandsOver m (bootRanges kernelEnd fdtPointer mem ∪ m.descriptors) := by
  have image : sub64 (pa kernelEnd) physOffset = pa kernelEnd - physOffset := sub64_of_le above.le (pa_lt _)
  have start : Reserves .zero ∅ ∅ := by
    refine ⟨[], [], Mapped.zero, ?_, ?_⟩
    · ext x
      simp
    · ext x
      simp
  rw [memInit, image]
  apply Ensures.bind (start.add (by decide))
  intro m₁ added
  rw [Set.empty_union] at added
  apply Ensures.bind (added.reserve (by simp only [physOffset, appFirst, uintptrMax] at *; omega))
  intro m₂ withImage
  rw [Set.empty_union, Nat.add_sub_cancel' above.le] at withImage
  apply Ensures.bind (withImage.reserve (by decide))
  intro m₃ withSlots
  apply Ensures.bind (withSlots.fdt fdtPointer mem)
  intro m₄ withTree
  obtain ⟨m₅, map, run, placed⟩ := @Reserves.physAlloc _ _ _ (ramSize >>> pageShift * sizeofPage) alignofPage withTree
    (by decide) (by decide) (.inr ⟨3, rfl⟩)
  apply Ensures.bind (Ensures.call run rfl)
  rintro _ rfl
  by_cases none : map = 0
  · simp only [if_pos none]
    exact .panic
  · obtain ⟨le, free, all⟩ := placed none
    obtain ⟨history, loop, boot, seeded⟩ := all.handOver
    simp only [if_neg none]
    apply Ensures.bind (Ensures.call loop rfl)
    rintro _ rfl
    apply Ensures.pure
    have back : pa (va map) = map := pa_va (by simp only [uintptrMax] at le; omega)
    have stands := Session.start_stands boot (fun _ => ⟨0, 0⟩) mem
    rw [seeded] at stands
    simp only [MemState.descriptors, back]
    exact ⟨free, stands.handsOver⟩

/-- The header of a device tree of one megabyte at `0x44000000`. -/
def treeHeader : Mem := fun x =>
  if x = va 0x44000000 then 0xd0 else if x = va 0x44000001 then 0x0d else if x = va 0x44000002 then 0xfe
  else if x = va 0x44000003 then 0xed else if x = va 0x44000005 then 0x10 else 0

theorem memInit_handsOver_tree : fdtRange 0x44000000 treeHeader = Set.Ico 0x44000000 0x44100000 ∧
    ∃ m, (memInit (va 0x40100000) 0x44000000 treeHeader).run = some (some m) ∧
      HandsOver m (bootRanges (va 0x40100000) 0x44000000 treeHeader ∪ m.descriptors) := by
  have magic : fdtRead treeHeader 0x44000000 = fdtMagic := by decide +kernel
  have size : fdtRead treeHeader 0x44000004 = 0x100000 := by decide +kernel
  refine ⟨?_, ?_⟩
  · ext x
    rw [fdtRange, size]
    exact ⟨fun here => here.2.2.2, fun here => ⟨⟨by decide, by decide⟩, by decide, magic, here⟩⟩
  have finishes : (memInit (va 0x40100000) 0x44000000 treeHeader).run.map Option.isSome = some true := by decide +kernel
  obtain ⟨outcome, run, post⟩ :=
    memInit_handsOver (va 0x40100000) 0x44000000 treeHeader (by decide +kernel) (by decide +kernel)
  rw [run, Option.map_some] at finishes
  obtain ⟨m, rfl⟩ := Option.isSome_iff_exists.1 (Option.some_inj.1 finishes)
  exact ⟨m, run, (post m rfl).2⟩

end

end MiaowOs
