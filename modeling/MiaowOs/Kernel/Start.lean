import MiaowOs.Mm.Protection
import MiaowOs.Kernel.Loading

/-!
# `start_kernel`

From the messages of `start_kernel` to the first application: `mem_init` and
`start_apps` on one memory, with all that they print.
-/

namespace MiaowOs
open Bytes PageAlloc Relation

/-! ## The heap and the rest of memory -/

section
variable {s : SlabAlloc} {L P : Nat → List Nat} {slabs : List SlabPage} {large : List LargeBlock}
  {live : List Allocation} {D : List (Nat × Nat)} {S : Set Nat} {mem : Mem}

/-- Writes outside its frames do not touch the heap. -/
theorem SlabInv.write_off (h : SlabInv s L P slabs large D S) (off : ∀ x, mem x ≠ s.mem x → frameOf x ∉ S) :
    SlabInv { s with mem := mem } L P slabs large D S where
  caches := h.caches
  flag := h.flag
  ok := by
    intro p memP
    refine (h.ok p memP).congr rfl rfl fun o free => getFreepointer_congr fun x low high => ?_
    by_contra changed
    have wide := classSize_pos p.cache
    have byte := (h.object_byte memP (.inl free) low (by omega)).2
    apply off x changed
    rw [byte]
    exact (SlabInv.held_mapped h.owned h.mapped (mem_heldPages_slab memP) 0 (Nat.two_pow_pos 0)).1
  blocks b here := (h.blocks b here).congr rfl rfl
  partials := h.partials
  listed := h.listed
  owned := h.owned
  mapped := h.mapped

theorem Stands.write_off (h : Stands s live D S) (off : ∀ x, mem x ≠ s.mem x → frameOf x ∉ S) :
    Stands { s with mem := mem } live D S := by
  obtain ⟨L, P, slabs, large, inv, rest⟩ := h
  exact ⟨L, P, slabs, large, inv.write_off off, rest⟩

end

/-! ## `start_kernel` -/

/-- The registers that `start_kernel` prints. -/
structure BootRegs where
  currentEl : Word
  sctlr : Word
  vbar : Word
  stack : Word

variable {n : Nat}

/-- The messages of `start_kernel`. -/
def bootMessages (regs : BootRegs) (fdtPointer : Nat) (board : Board) : Board :=
  (board.printk "BOOT EL=%u SCTLR=%016lx VBAR=%016lx SP=%016lx DTB=%016lx\n"
    [regs.currentEl >>> 2, regs.sctlr, regs.vbar, regs.stack, BitVec.ofNat 64 (va fdtPointer)]).printk "BOOT OK\n" []

/-- The messages of `mem_init`, which come at its end. -/
def memMessages (fdtPointer : Nat) (m : MemState) (board : Board) : Board :=
  let word (x : Nat) : Word := BitVec.ofNat 64 x
  let pages := m.heap.alloc.nrFreePages
  let board := board.printk "phy: %016lx-%016lx map: %016lx dtb: %016lx\n"
    [word physOffset, word (physOffset + ramSize), word (pa m.memMap), word fdtPointer]
  let board := (List.range m.memblock.reserved.cnt).foldl (fun board i =>
    let region := m.memblock.reserved.regions i
    board.printk "resv: %016lx-%016lx\n" [word region.base, word (region.base + region.size)]) board
  board.printk "tot: %lu pg = %lu KiB, free: %lu pg = %lu KiB\n"
    [word pages, word (pages <<< 2), word pages, word (pages <<< 2)]

/-- `start_kernel`, up to the first application. -/
def startKernel [NeZero n] (kernelEnd fdtPointer : Nat) (mem : Mem) (regs : BootRegs) (board : Board)
    (starts ends : Fin n → Word) (inputs : TimerInputs) : OrPanic (MemState × Kernel n) := do
  let m ← memInit kernelEnd fdtPointer mem
  match startApps m.heap.mem (memMessages fdtPointer m (bootMessages regs fdtPointer board)) starts ends inputs with
  | none => kernelPanic
  | some (kernel, mem) => return ({ m with heap := { m.heap with mem := mem } }, kernel)

/-- What there is when the first application is entered, with the addresses `X` taken
before the page descriptors. -/
structure Started [NeZero n] (starts ends : Fin n → Word) (X : Set Nat) (mem : Mem) (m : MemState) (k : Kernel n) : Prop where
  descriptors : IsLeast {q | DescriptorGap X q} (pa m.memMap)
  slots : SlotsLoaded starts ends (List.finRange n) mem m.heap.mem
  tasks : ∀ i, k.tasks i = loadedTask i (ends i - starts i)
  current : k.current = 0
  heap : Stands m.heap [] [] (ramPagesOff (X ∪ m.descriptors))
  isolated : ∀ t, ReflTransGen Tenants.Step ⟨m.heap, [], []⟩ t → ∀ y, pa y ∈ X → t.heap.mem y = m.heap.mem y

section
variable [NeZero n] {starts ends : Fin n → Word} {kernelEnd fdtPointer : Nat} {mem : Mem} {regs : BootRegs}
  {board : Board} {inputs : TimerInputs}

/-- The physical address of a byte of a slot. -/
theorem pa_slotVa {i y : Nat} (lt : i < appCount) (low : slotVa i ≤ y) (high : y < slotVa i + appSlotSize) :
    pa y ∈ Set.Ico appFirst (appFirst + appCount * appSlotSize) := by
  rw [slotVa_eq lt] at low high
  simp only [pa, va, add64, sub64, pageOffset, physOffset, appFirst, appSlotSize, appCount] at *
  constructor <;> omega

/-! ## The report of `mem_init` -/

/-- The line about a reserved region. -/
def reservedReport (r : MemblockRegion) : Effect :=
  .printk "resv: %016lx-%016lx\n" [BitVec.ofNat 64 r.base, BitVec.ofNat 64 r.limit]

theorem memMessages_trace {m : MemState} : (memMessages fdtPointer m board).trace = board.trace ++
    .printk "phy: %016lx-%016lx map: %016lx dtb: %016lx\n" [BitVec.ofNat 64 physOffset,
      BitVec.ofNat 64 (physOffset + ramSize), BitVec.ofNat 64 (pa m.memMap), BitVec.ofNat 64 fdtPointer] ::
    m.memblock.reserved.list.map reservedReport ++
    [.printk "tot: %lu pg = %lu KiB, free: %lu pg = %lu KiB\n"
      [BitVec.ofNat 64 m.heap.alloc.nrFreePages, BitVec.ofNat 64 (m.heap.alloc.nrFreePages <<< 2),
        BitVec.ofNat 64 m.heap.alloc.nrFreePages, BitVec.ofNat 64 (m.heap.alloc.nrFreePages <<< 2)]] := by
  have regions : ∀ (l : List Nat) (b : Board), (l.foldl (fun board i => board.printk "resv: %016lx-%016lx\n"
      [BitVec.ofNat 64 (m.memblock.reserved.regions i).base,
        BitVec.ofNat 64 ((m.memblock.reserved.regions i).base + (m.memblock.reserved.regions i).size)]) b).trace =
      b.trace ++ (l.map m.memblock.reserved.regions).map reservedReport := by
    intro l
    induction l with
    | nil => exact fun b => (List.append_nil _).symm
    | cons i l ih =>
      intro b
      rw [List.foldl_cons, ih]
      exact List.append_assoc ..
  unfold memMessages
  dsimp only
  rw [Board.printk, Board.emit]
  dsimp only
  rw [regions, Board.printk, Board.emit, MemblockType.list]
  simp only [List.append_assoc, List.cons_append, List.nil_append]

/-- **What `mem_init` prints is true.** The `resv` lines are the kernel image, the
application slots, the device tree and the page descriptors, as regions in increasing
order that do not touch; the descriptors are at the address in the first line, the
lowest that takes them; and the free pages of the last line are the pages of RAM that
share no byte with any of these. -/
theorem mem_report {m : MemState} (above : physOffset < pa kernelEnd) (below : pa kernelEnd ≤ appFirst)
    (run : (memInit kernelEnd fdtPointer mem).run = some (some m)) :
    ∃ (q free : Nat) (reserved : List MemblockRegion),
      IsLeast {q | DescriptorGap (bootRanges kernelEnd fdtPointer mem) q} q ∧ RegionsApart reserved ∧
      addresses reserved = bootRanges kernelEnd fdtPointer mem ∪ Set.Ico q (q + ramSize / pageSize * sizeofPage) ∧
      (∀ r ∈ reserved, r.limit < 2 ^ 64) ∧ free = (ramPagesOff (addresses reserved)).ncard ∧
      ∀ board : Board, (memMessages fdtPointer m board).trace = board.trace ++
        .printk "phy: %016lx-%016lx map: %016lx dtb: %016lx\n"
          [0x40000000, 0x48000000, BitVec.ofNat 64 q, BitVec.ofNat 64 fdtPointer] :: reserved.map reservedReport ++
        [.printk "tot: %lu pg = %lu KiB, free: %lu pg = %lu KiB\n"
          [BitVec.ofNat 64 free, BitVec.ofNat 64 (4 * free), BitVec.ofNat 64 free, BitVec.ofNat 64 (4 * free)]] := by
  rcases memInit_spec kernelEnd fdtPointer mem above below with ⟨-, none⟩ | ⟨m', q, least, run', -, back, booted⟩
  · cases Option.some_inj.1 (none.symm.trans run)
  obtain rfl := Option.some_inj.1 (Option.some_inj.1 (run'.symm.trans run))
  obtain ⟨reserved, canonical⟩ := booted.sorted
  have covers : addresses reserved =
      bootRanges kernelEnd fdtPointer mem ∪ Set.Ico q (q + ramSize / pageSize * sizeofPage) := by
    rw [← canonical.addresses_eq, booted.reserved, MemState.descriptors, back]
  have count : m'.heap.alloc.nrFreePages = (ramPagesOff (addresses reserved)).ncard := by
    rw [← canonical.addresses_eq, booted.reserved]
    exact booted.stands.handsOver.count
  refine ⟨q, _, reserved, least, canonical.apart, covers, fun r mem => ?_, rfl, fun board => ?_⟩
  · exact lt_of_le_of_lt (canonical.bounded r mem) (by decide)
  · rw [memMessages_trace, canonical.list_eq, back, count, Nat.shiftLeft_eq, Nat.mul_comm _ (2 ^ 2)]
    rfl

/-- The application slots are in one of the lines. -/
theorem mem_report_slots : ∃ (m : MemState) (reserved : List MemblockRegion),
    (memInit (va 0x40100000) 0 fun _ => 0x2a).run = some (some m) ∧ 0x41000000 ∈ addresses reserved ∧
      ∀ r ∈ reserved, reservedReport r ∈ (memMessages 0 m ⟨0, 0, []⟩).trace := by
  have above : physOffset < pa (va 0x40100000) := by decide +kernel
  have below : pa (va 0x40100000) ≤ appFirst := by decide +kernel
  rcases memInit_spec (va 0x40100000) 0 (fun _ => 0x2a) above below with ⟨none, -⟩ | ⟨m, q, -, run, -, -, -⟩
  · exact absurd ⟨_, gap_behind_image 0 _ (by decide)⟩ none
  obtain ⟨q, free, reserved, -, -, covers, -, -, lines⟩ := mem_report above below run
  refine ⟨m, reserved, run, ?_, fun r here => ?_⟩
  · rw [covers]
    exact .inl (.inl (.inr (show 0x41000000 ∈ Set.Ico appFirst (appFirst + appCount * appSlotSize) by decide)))
  · rw [lines]
    refine List.mem_append_left _ (List.mem_append_right _ (List.mem_cons_of_mem _ ?_))
    exact List.mem_map_of_mem here

/-- What `start_kernel` has done when it enters the first application. -/
theorem startKernel_stages {m : MemState} {k : Kernel n}
    (run : (startKernel kernelEnd fdtPointer mem regs board starts ends inputs).run = some (some (m, k))) :
    ∃ m₀ mem', startApps m₀.heap.mem (memMessages fdtPointer m₀ (bootMessages regs fdtPointer board)) starts ends inputs =
      some (k, mem') := by
  rw [startKernel, OptionT.run_bind, Option.elimM] at run
  generalize (memInit kernelEnd fdtPointer mem).run = x at run
  rcases x with _ | _ | m₀
  · cases run
  · cases run
  cases apps : startApps m₀.heap.mem (memMessages fdtPointer m₀ (bootMessages regs fdtPointer board)) starts ends inputs with
  | none =>
    simp only [Option.bind_eq_bind, Option.bind_some, Option.elim_some, apps] at run
    cases run
  | some result =>
    simp only [Option.bind_eq_bind, Option.bind_some, Option.elim_some, apps] at run
    obtain ⟨k', mem'⟩ := result
    obtain ⟨-, rfl⟩ := Prod.mk.inj (Option.some_inj.1 (Option.some_inj.1 run))
    exact ⟨m₀, mem', apps⟩

/-- What a boot takes: a gap for the page descriptors, images that fit their slots, and
a quantum. -/
def Bootable (starts ends : Fin n → Word) (X : Set Nat) (cntfrq : Word) : Prop :=
  (∃ q, DescriptorGap X q) ∧ (∀ i : Fin n, SizeFits i (ends i - starts i)) ∧ QuantumFits cntfrq

/-- Either `start_kernel` panics, or it comes to the first application. -/
theorem startKernel_cases (few : n ≤ appCount) (payloads : ∀ i, Payload (starts i) (ends i))
    (above : physOffset < pa kernelEnd) (below : pa kernelEnd ≤ appFirst) :
    ¬ Bootable starts ends (bootRanges kernelEnd fdtPointer mem) inputs.cntfrq ∧
      (startKernel kernelEnd fdtPointer mem regs board starts ends inputs).run = some none ∨
    Bootable starts ends (bootRanges kernelEnd fdtPointer mem) inputs.cntfrq ∧
      ∃ m k, (startKernel kernelEnd fdtPointer mem regs board starts ends inputs).run = some (some (m, k)) ∧
        Started starts ends (bootRanges kernelEnd fdtPointer mem) mem m k ∧
        timerInit { memMessages fdtPointer m (bootMessages regs fdtPointer board) with
          trace := (memMessages fdtPointer m (bootMessages regs fdtPointer board)).trace ++
            (List.finRange n).map fun i => loadReport i } inputs = some k.board := by
  rcases memInit_spec kernelEnd fdtPointer mem above below with ⟨full, run⟩ | ⟨m, q, least, run, map, back, booted⟩
  · refine .inl ⟨fun all => full all.1, ?_⟩
    rw [startKernel, OptionT.run_bind, Option.elimM, bind_of_some run]
    rfl
  have gap : ∃ q, DescriptorGap (bootRanges kernelEnd fdtPointer mem) q := ⟨q, least.1⟩
  have fits := startApps_isSome few payloads m.heap.mem (memMessages fdtPointer m (bootMessages regs fdtPointer board)) inputs
  cases apps : startApps m.heap.mem (memMessages fdtPointer m (bootMessages regs fdtPointer board)) starts ends inputs with
  | none =>
    rw [apps] at fits
    refine .inl ⟨fun all => ?_, ?_⟩
    · cases fits.2 all.2
    · rw [startKernel, OrPanic.run_bind run, apps]
      rfl
  | some result =>
    obtain ⟨k, mem'⟩ := result
    rw [apps] at fits
    obtain ⟨loaded, tasks, current, timer⟩ := startApps_loaded few payloads apps
    rw [booted.untouched] at loaded
    have sizes := (fits.1 rfl).1
    -- the copies go to the slots, which are no part of the heap
    have off : ∀ y, mem' y ≠ m.heap.mem y →
        frameOf y ∉ ramPagesOff (bootRanges kernelEnd fdtPointer mem ∪ m.descriptors) := by
      intro y changed
      rw [booted.untouched] at changed
      have inside : InSlots starts ends (List.finRange n) y := by
        by_contra outside
        exact changed (loaded.frame y outside)
      obtain ⟨j, -, low, high⟩ := inside.slot fun i _ => sizes i
      apply frameOf_not_mem
      exact .inl (.inl (.inr (pa_slotVa (by omega) low high)))
    have stands := booted.stands.write_off off
    refine .inr ⟨⟨gap, fits.1 rfl⟩, { m with heap := { m.heap with mem := mem' } }, k, ?_,
      ⟨?_, loaded, tasks, current, stands, fun t tenants y taken => ?_⟩, timer⟩
    · rw [startKernel, OrPanic.run_bind run, apps]
      rfl
    · rw [back]
      exact least
    · exact Tenants.runs_writes (t := ⟨{ m.heap with mem := mem' }, [], []⟩) stands tenants y (frameOf_not_mem (.inl taken))

/-- **Boot.** For any payloads inside the kernel image, `start_kernel` makes no bad
access, and it panics exactly when no gap of RAM takes the page descriptors, some
image does not fit its slot, or the timer cannot tick. Otherwise the descriptors lie
in the lowest gap, every slot holds its payload and an empty stack, every task is
ready, and the heap stands on the rest of RAM, whose clients will never change a byte
of the kernel image, of the slots or of the device tree. -/
theorem startKernel_exact (few : n ≤ appCount) (payloads : ∀ i, Payload (starts i) (ends i))
    (above : physOffset < pa kernelEnd) (below : pa kernelEnd ≤ appFirst) :
    (startKernel kernelEnd fdtPointer mem regs board starts ends inputs).run ≠ none ∧
    ((startKernel kernelEnd fdtPointer mem regs board starts ends inputs).run = some none ↔
      ¬ Bootable starts ends (bootRanges kernelEnd fdtPointer mem) inputs.cntfrq) ∧
    ∀ m k, (startKernel kernelEnd fdtPointer mem regs board starts ends inputs).run = some (some (m, k)) →
      Started starts ends (bootRanges kernelEnd fdtPointer mem) mem m k ∧
        timerInit { memMessages fdtPointer m (bootMessages regs fdtPointer board) with
          trace := (memMessages fdtPointer m (bootMessages regs fdtPointer board)).trace ++
            (List.finRange n).map fun i => loadReport i } inputs = some k.board := by
  rcases @startKernel_cases n _ starts ends kernelEnd fdtPointer mem regs board inputs few payloads above below with
    ⟨not, run⟩ | ⟨ready, m, k, run, started, timer⟩
  · rw [run]
    refine ⟨by simp, iff_of_true rfl not, fun m k absurd => ?_⟩
    cases Option.some_inj.1 absurd
  · rw [run]
    refine ⟨by simp, iff_of_false (fun absurd => ?_) fun miss => miss ready, fun m' k' same => ?_⟩
    · cases Option.some_inj.1 absurd
    obtain ⟨rfl, rfl⟩ := Prod.mk.inj (Option.some_inj.1 (Option.some_inj.1 same))
    exact ⟨started, timer⟩

end

/-- The kernel of one megabyte with three payloads of one byte boots. -/
theorem exampleBootable : Bootable (fun i : Fin 3 => 0xffffffc000090000 + BitVec.ofNat 64 i)
    (fun i => 0xffffffc000090001 + BitVec.ofNat 64 i) (bootRanges (va 0x40100000) 0 fun _ => 0x2a) 62500000 :=
  ⟨⟨_, gap_behind_image 0 _ (by decide)⟩, exampleSizes, by decide⟩

/-- It comes to its first application. -/
theorem exampleBoot : ∃ m k, (startKernel (va 0x40100000) 0 (fun _ => 0x2a) ⟨4, 0, 0, 0⟩ ⟨0, 0, []⟩
    (fun i : Fin 3 => 0xffffffc000090000 + BitVec.ofNat 64 i) (fun i => 0xffffffc000090001 + BitVec.ofNat 64 i)
    ⟨0, 0, 0, 0, 62500000⟩).run = some (some (m, k)) := by
  rcases @startKernel_cases 3 _ (fun i => 0xffffffc000090000 + BitVec.ofNat 64 i)
    (fun i => 0xffffffc000090001 + BitVec.ofNat 64 i) (va 0x40100000) 0 (fun _ => 0x2a) ⟨4, 0, 0, 0⟩ ⟨0, 0, []⟩
    ⟨0, 0, 0, 0, 62500000⟩ (by decide) examplePayloads (by decide +kernel) (by decide +kernel) with
    ⟨not, -⟩ | ⟨-, m, k, run, -⟩
  · exact absurd exampleBootable not
  · exact ⟨m, k, run⟩

/-- Its first task is the one that is entered. -/
theorem startKernel_exact_example : ∃ m k, (startKernel (va 0x40100000) 0 (fun _ => 0x2a) ⟨4, 0, 0, 0⟩ ⟨0, 0, []⟩
    (fun i : Fin 3 => 0xffffffc000090000 + BitVec.ofNat 64 i) (fun i => 0xffffffc000090001 + BitVec.ofNat 64 i)
    ⟨0, 0, 0, 0, 62500000⟩).run = some (some (m, k)) ∧ k.current = 0 := by
  obtain ⟨-, -, starts⟩ := @startKernel_exact 3 _ (fun i => 0xffffffc000090000 + BitVec.ofNat 64 i)
    (fun i => 0xffffffc000090001 + BitVec.ofNat 64 i) (va 0x40100000) 0 (fun _ => 0x2a) ⟨4, 0, 0, 0⟩ ⟨0, 0, []⟩
    ⟨0, 0, 0, 0, 62500000⟩ (by decide) examplePayloads (by decide +kernel) (by decide +kernel)
  obtain ⟨m, k, run⟩ := exampleBoot
  exact ⟨m, k, run, (starts m k run).1.current⟩

end MiaowOs
