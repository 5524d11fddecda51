import MiaowOs.Mm.Init
import Mathlib

/-!
# When `mem_init` panics

`mem_init` reserves three ranges and takes one more for the page descriptors, so
the early map never overflows. It panics exactly when no aligned gap of RAM is
large enough for the descriptors; otherwise they lie in the lowest one.
-/

namespace MiaowOs
open TwoWay Bytes Spans PageAlloc Relation

/-! ## Sets of a few ranges -/

/-- The addresses of at most `n` ranges. -/
def Ranges (X : Set Nat) (n : Nat) : Prop :=
  ∃ ranges : List (Nat × Nat), ranges.length ≤ n ∧ X = cover Prod.fst Prod.snd ranges

section
variable {X : Set Nat} {n : Nat}

theorem Ranges.empty : Ranges ∅ 0 := by
  refine ⟨[], le_rfl, ?_⟩
  ext x
  simp

theorem Ranges.mono (h : Ranges X n) : Ranges X (n + 1) := by
  obtain ⟨ranges, le, same⟩ := h
  exact ⟨ranges, le.trans (Nat.le_succ n), same⟩

theorem Ranges.union (h : Ranges X n) (a b : Nat) : Ranges (X ∪ Set.Ico a b) (n + 1) := by
  obtain ⟨ranges, le, rfl⟩ := h
  refine ⟨(a, b) :: ranges, Nat.succ_le_succ le, ?_⟩
  ext x
  rw [mem_cover_cons, Set.mem_union, or_comm]
  rfl

end

/-! ## The calls of the early map -/

/-- Run one step of a computation that has not panicked. -/
theorem OrPanic.run_bind {α β : Type} {x : OrPanic α} {f : α → OrPanic β} {v : α} (run : x.run = some (some v)) :
    (x >>= f).run = (f v).run := by
  rw [OptionT.run_bind, Option.elimM, bind_of_some run]
  rfl

theorem orPanic_run {call : Option (Memblock × Int)} {m : Memblock} (run : call = some (m, 0)) :
    (orPanic call).run = some (some m) := by
  rw [run]
  rfl

section
variable {memblock : Memblock} {M X : Set Nat} {n : Nat}

/-- The reserved array has room for one more range. -/
theorem Reserves.reserve_few {base size : Nat} (h : Reserves memblock M X) (ranges : Ranges X n)
    (few : 2 * n < initMemblockRegions) (le : base + size ≤ uintptrMax) :
    ∃ m, memblockReserve memblock base size = some (m, 0) ∧
      Reserves m M (X ∪ Set.Ico base (base + size)) := by
  obtain ⟨memory, reserved, mapped, rfl, rfl⟩ := h
  obtain ⟨list, short, same⟩ := ranges
  rcases memblockAddRange_spec mapped.reserved le with ⟨type, reserved', run, canonical, covers⟩ | ⟨-, full⟩
  · refine ⟨{ memblock with reserved := type }, ?_, memory, reserved', ⟨mapped.memory, canonical⟩, rfl,
      Set.ext covers⟩
    rw [memblockReserve, bind_of_some run]
    rfl
  · have fewest := mapped.reserved.apart.length_le same
    have pieces : gaps (base + size) base reserved ≤ reserved.length + 1 := gaps_le
    omega

/-- RAM as the memory of the map. -/
theorem Reserves.add_ram : ∃ m, memblockAdd .zero physOffset ramSize = some (m, 0) ∧ Reserves m ram ∅ := by
  rcases memblockAdd_spec Mapped.zero (by decide : physOffset + ramSize ≤ uintptrMax) with
    ⟨m, memory, run, mapped, covers⟩ | run
  · refine ⟨m, run, memory, [], mapped, ?_, ?_⟩
    · ext x
      rw [covers, mem_cover_nil, false_or]
      rfl
    · ext x
      simp
  · exact absurd (congrArg (Option.map Prod.snd) run) (by decide +kernel)

/-- The device tree is reserved if there is one. -/
theorem Reserves.fdt_few (h : Reserves memblock ram X) (ranges : Ranges X n) (few : 2 * n < initMemblockRegions)
    (fdtPointer : Nat) (mem : Mem) : ∃ m, (earlyInitFdtReserveSelf fdtPointer mem memblock).run = some (some m) ∧
      Reserves m ram (X ∪ fdtRange fdtPointer mem) ∧ Ranges (X ∪ fdtRange fdtPointer mem) (n + 1) := by
  by_cases present : fdtPointer ∈ ram ∧ 8 ∣ fdtPointer ∧ fdtRead mem fdtPointer = fdtMagic
  · obtain ⟨inside, aligned, magic⟩ := present
    have low := inside.1
    have high := inside.2
    have small := fdtRead_lt mem (fdtPointer + 4)
    have blob : fdtRange fdtPointer mem = Set.Ico fdtPointer (fdtPointer + fdtRead mem (fdtPointer + 4)) := by
      ext x
      exact ⟨fun here => here.2.2.2, fun here => ⟨inside, aligned, magic, here⟩⟩
    have word : fdtPointer + fdtRead mem (fdtPointer + 4) ≤ uintptrMax := by
      simp only [physOffset, ramSize, uintptrMax] at *
      omega
    obtain ⟨m, run, reserves⟩ := h.reserve_few ranges few word
    refine ⟨m, ?_, ?_, ?_⟩
    · rw [earlyInitFdtReserveSelf, if_neg (by omega), if_neg (not_ne_iff.2 magic)]
      exact orPanic_run run
    · rw [blob]
      exact reserves
    · rw [blob]
      exact ranges.union _ _
  · have empty : fdtRange fdtPointer mem = ∅ := by
      ext x
      exact ⟨fun inside => present ⟨inside.1, inside.2.1, inside.2.2.1⟩, False.elim⟩
    rw [empty, Set.union_empty]
    refine ⟨memblock, ?_, h, ranges.mono⟩
    rw [earlyInitFdtReserveSelf]
    split
    · rfl
    · next inside =>
      rw [if_pos]
      · rfl
      · intro magic
        exact present ⟨⟨by omega, by omega⟩, by omega, magic⟩

/-- `memblock_phys_alloc` returns the lowest fit in RAM, and 0 only if there is none. -/
theorem Reserves.physAlloc_few {size k : Nat} (h : Reserves memblock ram X) (ranges : Ranges X n)
    (few : 2 * n < initMemblockRegions) (positive : 0 < size) (small : k < 32) :
    (¬ (∃ q, 2 ^ k ∣ q ∧ Set.Ico q (q + size) ⊆ ram \ X) ∧
      memblockPhysAlloc memblock size (2 ^ k) = some (memblock, 0)) ∨
    ∃ m q, IsLeast {q | 2 ^ k ∣ q ∧ Set.Ico q (q + size) ⊆ ram \ X} q ∧ q ∈ ram ∧
      memblockPhysAlloc memblock size (2 ^ k) = some (m, q) ∧ Reserves m ram (X ∪ Set.Ico q (q + size)) := by
  obtain ⟨memory, reserved, mapped, isRam, isX⟩ := id h
  have two_pow : fitAlign (2 ^ k) = 2 ^ k := if_neg (Nat.two_pow_pos k).ne'
  have free : memblock.free = ram \ X := by
    rw [Memblock.free, mapped.memory.addresses_eq, mapped.reserved.addresses_eq, isRam, isX]
  have fits : ∀ q, Fits size (2 ^ k) (freeRanges memory reserved) q ↔
      2 ^ k ∣ q ∧ Set.Ico q (q + size) ⊆ ram \ X := by
    intro q
    rw [fits_iff mapped positive, free]
  have noWrap : ¬ Wraps size (2 ^ k) (freeRanges memory reserved) := by
    rintro ⟨r, mem, wraps, -⟩
    have inside := freeRanges_in_ram mapped isRam mem
    have := Nat.pow_lt_pow_right (by decide : 1 < 2) small
    simp only [physOffset, ramSize, uintptrMax] at *
    omega
  have found := firstFit_found (show k < 64 by omega) (freeRanges_separated mapped)
    (fun r mem => freeRanges_bounded mapped mem) positive
  rw [memblockPhysAlloc_eq mapped positive, two_pow]
  cases first : firstFit size (2 ^ k) (freeRanges memory reserved) with
  | none =>
    rw [first] at found
    refine .inl ⟨?_, rfl⟩
    rintro ⟨q, fit⟩
    exact found.1 q ((fits q).2 fit)
  | some q =>
    rw [first] at found
    rcases found with ⟨fit, lowest⟩ | ⟨-, -, wraps⟩
    · have here := (fits q).1 fit
      have first := (here.2 ⟨le_rfl, by omega⟩).1
      have last := (here.2 (show q + size - 1 ∈ Set.Ico q (q + size) from ⟨by omega, by omega⟩)).1.2
      have word : q + size ≤ uintptrMax := by
        simp only [physOffset, ramSize, uintptrMax] at *
        omega
      obtain ⟨m, run, reserves⟩ := h.reserve_few ranges few word
      refine .inr ⟨m, q, ⟨here, ?_⟩, first, ?_, reserves⟩
      · intro p fit
        by_contra lt
        exact lowest p (Nat.lt_of_not_le lt) ((fits p).2 fit)
      · rw [takeFit, reserveAt, bind_of_some run]
        rfl
    · exact (noWrap wraps).elim

end

/-! ## The whole of `mem_init` -/

/-- An aligned gap of RAM off `X` takes the page descriptors. -/
def DescriptorGap (X : Set Nat) (q : Nat) : Prop :=
  alignofPage ∣ q ∧ Set.Ico q (q + ramSize / pageSize * sizeofPage) ⊆ ram \ X

/-- What `mem_init` leaves: the early map, the memory as it was, and a heap on the
pages of RAM off `X` and off the descriptors. -/
structure BootedHeap (m : MemState) (mem : Mem) (X : Set Nat) : Prop where
  memory : m.memblock.memory.addresses = ram
  reserved : m.memblock.reserved.addresses = X ∪ m.descriptors
  sorted : ∃ regions, Canonical m.memblock.reserved regions
  untouched : m.heap.mem = mem
  stands : Stands m.heap [] [] (ramPagesOff (X ∪ m.descriptors))

/-- `mem_init` panics, or it places the descriptors in the lowest gap. -/
theorem memInit_spec (kernelEnd fdtPointer : Nat) (mem : Mem) (above : physOffset < pa kernelEnd)
    (below : pa kernelEnd ≤ appFirst) :
    (¬ (∃ q, DescriptorGap (bootRanges kernelEnd fdtPointer mem) q) ∧
      (memInit kernelEnd fdtPointer mem).run = some none) ∨
    ∃ m q, IsLeast {q | DescriptorGap (bootRanges kernelEnd fdtPointer mem) q} q ∧
      (memInit kernelEnd fdtPointer mem).run = some (some m) ∧ m.memMap = va q ∧ pa m.memMap = q ∧
      BootedHeap m mem (bootRanges kernelEnd fdtPointer mem) := by
  have image : sub64 (pa kernelEnd) physOffset = pa kernelEnd - physOffset := sub64_of_le above.le (pa_lt _)
  have word : physOffset + (pa kernelEnd - physOffset) ≤ uintptrMax := by
    simp only [physOffset, appFirst, uintptrMax] at *
    omega
  obtain ⟨m₁, run₁, added⟩ := Reserves.add_ram
  obtain ⟨m₂, run₂, withImage⟩ := added.reserve_few Ranges.empty (by decide) word
  have ranges := Ranges.empty.union physOffset (physOffset + (pa kernelEnd - physOffset))
  rw [Set.empty_union, Nat.add_sub_cancel' above.le] at withImage ranges
  have slots : appFirst + appCount * appSlotSize ≤ uintptrMax := by decide
  obtain ⟨m₃, run₃, withSlots⟩ := withImage.reserve_few ranges (by decide) slots
  obtain ⟨m₄, run₄, withTree, ranges⟩ := withSlots.fdt_few (ranges.union _ _) (by decide) fdtPointer mem
  have size : ramSize >>> pageShift * sizeofPage = ramSize / pageSize * sizeofPage := by decide
  rw [memInit, image, OrPanic.run_bind (orPanic_run run₁), OrPanic.run_bind (orPanic_run run₂),
    OrPanic.run_bind (orPanic_run run₃), OrPanic.run_bind run₄, size]
  have positive : 0 < ramSize / pageSize * sizeofPage := by decide
  rcases withTree.physAlloc_few (k := 3) ranges (by decide) positive (by decide) with
    ⟨none, run⟩ | ⟨m₅, q, least, here, run, all⟩
  · refine .inl ⟨none, ?_⟩
    rw [show (2 : Nat) ^ 3 = alignofPage from rfl] at run
    rw [run]
    rfl
  · rw [show (2 : Nat) ^ 3 = alignofPage from rfl] at run
    have nonnull : q ≠ 0 := by
      have := here.1
      simp only [physOffset] at this
      omega
    have back : pa (va q) = q := by
      apply pa_va
      have := here.2
      simp only [physOffset, ramSize] at this
      omega
    obtain ⟨history, loop, boot, seeded⟩ := all.handOver
    have ready := SlabAlloc.kmemCacheInit_spec ⟨history.alloc, fun _ => ⟨0, 0⟩, mem⟩
    obtain ⟨memory, reserved, mapped, isRam, isX⟩ := all
    refine .inr ⟨⟨m₅, SlabAlloc.kmemCacheInit ⟨history.alloc, fun _ => ⟨0, 0⟩, mem⟩, va q⟩, q, least, ?_, rfl, back, ?_⟩
    · rw [run]
      have first : (pure (m₅, q) : OrPanic (Memblock × Nat)).run = some (some (m₅, q)) := rfl
      refine (OrPanic.run_bind first).trans ?_
      simp only [if_neg nonnull]
      rw [loop]
      rfl
    · have stands := Session.start_stands boot (fun _ => ⟨0, 0⟩) mem
      rw [seeded] at stands
      constructor
      · rw [mapped.memory.addresses_eq]
        exact isRam
      · rw [mapped.reserved.addresses_eq, isX, MemState.descriptors, back]
        rfl
      · exact ⟨reserved, mapped.reserved⟩
      · exact ready.mem
      · rw [MemState.descriptors, back]
        exact stands

/-- Behind a kernel of one megabyte there is room below the application slots. -/
theorem gap_behind_image (fdtPointer : Nat) (mem : Mem) (behind : fdtPointer < physOffset ∨ appFirst ≤ fdtPointer) :
    DescriptorGap (bootRanges (va 0x40100000) fdtPointer mem) 0x40100000 := by
  have image : pa (va 0x40100000) = 0x40100000 := by decide +kernel
  refine ⟨by decide, fun x here => ?_⟩
  have low := here.1
  have high := here.2
  simp only [ramSize, pageSize, sizeofPage] at high
  constructor
  · constructor
    · simp only [physOffset]
      omega
    · simp only [physOffset, ramSize]
      omega
  · rintro ((inImage | inSlots) | inTree)
    · have := inImage.2
      omega
    · have := inSlots.1
      simp only [appFirst] at this
      omega
    · have inside := inTree.1.1
      have start := inTree.2.2.2.1
      simp only [physOffset, appFirst] at *
      omega

/-- **When `mem_init` panics.** Exactly when no 8-byte aligned gap of RAM between the
kernel image, the application slots and the device tree takes the page descriptors;
the region arrays never overflow. Otherwise the descriptors lie in the lowest gap,
the early map has RAM as its memory and these four as its reserved addresses, no
byte of memory has changed, and the heap stands on the pages of RAM that share no
byte with the four. -/
theorem memInit_exact (kernelEnd fdtPointer : Nat) (mem : Mem) (above : physOffset < pa kernelEnd)
    (below : pa kernelEnd ≤ appFirst) :
    ((memInit kernelEnd fdtPointer mem).run = some none ↔
      ¬ ∃ q, DescriptorGap (bootRanges kernelEnd fdtPointer mem) q) ∧
    ∀ q, IsLeast {q | DescriptorGap (bootRanges kernelEnd fdtPointer mem) q} q → ∃ m,
      (memInit kernelEnd fdtPointer mem).run = some (some m) ∧ m.memMap = va q ∧
        BootedHeap m mem (bootRanges kernelEnd fdtPointer mem) := by
  rcases memInit_spec kernelEnd fdtPointer mem above below with ⟨none, run⟩ | ⟨m, q, least, run, map, -, booted⟩
  · refine ⟨iff_of_true run none, fun q least => ?_⟩
    exact (none ⟨q, least.1⟩).elim
  · constructor
    · apply iff_of_false
      · rw [run]
        intro absurd
        cases Option.some_inj.1 absurd
      · exact fun none => none ⟨q, least.1⟩
    · intro q' least'
      obtain rfl := least'.unique least
      exact ⟨m, run, map, booted⟩

theorem memInit_exact_tree : ∃ m, (memInit (va 0x40100000) 0x44000000 treeHeader).run = some (some m) ∧
    m.memMap = va 0x40100000 ∧
      BootedHeap m treeHeader (bootRanges (va 0x40100000) 0x44000000 treeHeader) := by
  have image : pa (va 0x40100000) = 0x40100000 := by decide +kernel
  apply (memInit_exact (va 0x40100000) 0x44000000 treeHeader (by decide +kernel) (by decide +kernel)).2
  constructor
  · exact gap_behind_image 0x44000000 treeHeader (by decide)
  · intro q gap
    have first : q ∈ Set.Ico q (q + ramSize / pageSize * sizeofPage) := ⟨le_rfl, by
      simp only [ramSize, pageSize, sizeofPage]
      omega⟩
    obtain ⟨inside, off⟩ := gap.2 first
    by_contra lt
    apply off
    refine .inl (.inl ⟨inside.1, ?_⟩)
    omega

end MiaowOs
