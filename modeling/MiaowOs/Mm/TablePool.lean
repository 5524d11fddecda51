import MiaowOs.Mm.AddressMap
import MiaowOs.Mm.MappingRuns

/-!
# The table pool

`early_pgtable_alloc` checks no bound, so the pool has to have a table for every
1 GiB region and every 2 MiB region that is touched in a root. A sequence of
mappings takes exactly these, in any order and however they overlap; those of
`mmu_init` fit into `EARLY_PGTABLES` for every size of RAM up to 1 GiB.
-/

namespace MiaowOs

/-! ## The tables a sequence of mappings takes -/

section
variable {ι : Type}

/-- The regions of `2 ^ shift` bytes in which the calls map a page, with their roots. -/
def touchedRegions (shift : Nat) (calls : List (Mapping ι)) : Set (ι × Nat) :=
  {region | ∃ m ∈ calls, m.root = region.1 ∧
    ∃ addr, m.virt ≤ addr ∧ addr < m.virt + m.size ∧ addr >>> shift = region.2}

variable {root : ι → Nat} {pool : Pool} {half : ι → Half} {st : PgState} {calls : List (Mapping ι)}

theorem vpn_mid (addr : Nat) : vpn addr / 2 ^ 18 = addr >>> pgdirShift % 512 := by
  rw [Nat.shiftRight_eq_div_pow]
  simp only [vpn, pageSize, pgdirShift]
  omega

theorem vpn_low (addr : Nat) : vpn addr / 512 % 512 = addr >>> pmdShift % 512 := by
  rw [Nat.shiftRight_eq_div_pow]
  simp only [vpn, pageSize, pmdShift]
  omega

theorem vpn_low_mid (addr : Nat) : vpn addr / 2 ^ 18 = addr >>> pmdShift / 512 % 512 := by
  rw [Nat.shiftRight_eq_div_pow]
  simp only [vpn, pageSize, pmdShift]
  omega

/-- The table for a 1 GiB region, and that for a 2 MiB region. -/
def midTable (region : ι × Nat) : Table ι := .mid region.1 (region.2 % 512)
def lowTable (region : ι × Nat) : Table ι := .low region.1 (region.2 / 512 % 512) (region.2 % 512)

theorem neededTables_eq : neededTables calls =
    midTable '' touchedRegions pgdirShift calls ∪ lowTable '' touchedRegions pmdShift calls := by
  ext t
  constructor
  · rintro ⟨m, mem, addr, low, high, rfl | rfl⟩
    · refine .inl ⟨(m.root, addr >>> pgdirShift), ⟨m, mem, rfl, addr, low, high, rfl⟩, ?_⟩
      rw [midOf, vpn_mid, midTable]
    · refine .inr ⟨(m.root, addr >>> pmdShift), ⟨m, mem, rfl, addr, low, high, rfl⟩, ?_⟩
      rw [lowOf, vpn_low, vpn_low_mid, lowTable]
  · rintro (⟨⟨r, i⟩, ⟨m, mem, root, addr, low, high, shift⟩, rfl⟩ |
      ⟨⟨r, i⟩, ⟨m, mem, root, addr, low, high, shift⟩, rfl⟩)
    · refine ⟨m, mem, addr, low, high, .inl ?_⟩
      rw [midOf, vpn_mid, midTable, root, shift]
    · refine ⟨m, mem, addr, low, high, .inr ?_⟩
      rw [lowOf, vpn_low, vpn_low_mid, lowTable, root, shift]

theorem touchedRegions_finite (shift : Nat) (calls : List (Mapping ι)) : (touchedRegions shift calls).Finite := by
  have each : ∀ m : Mapping ι, ((fun addr => (m.root, addr >>> shift)) '' Set.Ico m.virt (m.virt + m.size)).Finite :=
    fun m => (Set.finite_Ico _ _).image _
  apply Set.Finite.subset (Set.Finite.biUnion calls.finite_toSet fun m _ => each m)
  rintro ⟨r, i⟩ ⟨m, mem, root, addr, low, high, rfl⟩
  exact Set.mem_biUnion mem ⟨addr, ⟨low, high⟩, Prod.ext root rfl⟩

/-- A region that is touched lies in the half of its root. -/
theorem touchedRegions_half {shift : Nat} {region : ι × Nat} (fits : ∀ m ∈ calls, m.Fits half)
    (touched : region ∈ touchedRegions shift calls) : ∃ addr, (half region.1).Mem addr ∧ addr >>> shift = region.2 := by
  obtain ⟨m, mem, root, addr, low, high, at_⟩ := touched
  have start := (fits m mem).start
  have stop := (fits m mem).stop
  rw [root] at start stop
  exact ⟨addr, ⟨by omega, by omega⟩, at_⟩

/-- A half starts at a multiple of its size, so an index tells its regions apart. -/
theorem Half.start_wide (h : Half) : 2 ^ 39 ∣ h.start := by
  cases h with
  | low => exact Nat.dvd_zero _
  | high => decide

theorem midTable_injOn (fits : ∀ m ∈ calls, m.Fits half) :
    Set.InjOn midTable (touchedRegions pgdirShift calls) := by
  rintro ⟨r, i⟩ touched ⟨r', i'⟩ touched' eq
  obtain ⟨rfl, same⟩ := Table.mid.inj eq
  obtain ⟨addr, ⟨low, high⟩, rfl⟩ := touchedRegions_half fits touched
  obtain ⟨addr', ⟨low', high'⟩, rfl⟩ := touchedRegions_half fits touched'
  simp only [Nat.shiftRight_eq_div_pow, pgdirShift] at same ⊢
  congr 1
  dsimp only at low high low' high'
  obtain ⟨c, multiple⟩ := (half r).start_wide
  omega

theorem lowTable_injOn (fits : ∀ m ∈ calls, m.Fits half) :
    Set.InjOn lowTable (touchedRegions pmdShift calls) := by
  rintro ⟨r, i⟩ touched ⟨r', i'⟩ touched' eq
  obtain ⟨rfl, same, same'⟩ := Table.low.inj eq
  obtain ⟨addr, ⟨low, high⟩, rfl⟩ := touchedRegions_half fits touched
  obtain ⟨addr', ⟨low', high'⟩, rfl⟩ := touchedRegions_half fits touched'
  simp only [Nat.shiftRight_eq_div_pow, pmdShift] at same same' ⊢
  congr 1
  dsimp only at low high low' high'
  obtain ⟨c, multiple⟩ := (half r).start_wide
  omega

/-- A table for every 1 GiB region, and one for every 2 MiB region. -/
theorem neededTables_ncard (fits : ∀ m ∈ calls, m.Fits half) : (neededTables calls).ncard =
    (touchedRegions pgdirShift calls).ncard + (touchedRegions pmdShift calls).ncard := by
  have disjoint : Disjoint (midTable '' touchedRegions pgdirShift calls) (lowTable '' touchedRegions pmdShift calls) := by
    rw [Set.disjoint_left]
    rintro t ⟨region, -, rfl⟩ ⟨region', -, eq⟩
    cases eq
  rw [neededTables_eq, Set.ncard_union_eq disjoint ((touchedRegions_finite _ calls).image _)
    ((touchedRegions_finite _ calls).image _), (midTable_injOn fits).ncard_image,
    (lowTable_injOn fits).ncard_image]

variable [DecidableEq ι]

/-- **What a run takes from the pool**: a table for every region that it touches. -/
theorem runMappings_used (h : Placed root pool) (zeroed : Zeroed root pool st) (fits : ∀ m ∈ calls, m.Fits half)
    (enough : (touchedRegions pgdirShift calls).ncard + (touchedRegions pmdShift calls).ncard ≤ pool.count) :
    ∃ st', runMappings pool root st calls = some st' ∧
      st'.used = (touchedRegions pgdirShift calls).ncard + (touchedRegions pmdShift calls).ncard := by
  rw [← neededTables_ncard fits] at enough ⊢
  obtain ⟨st', tables, leaf, run, rep, takes, -⟩ := runMappings_spec h zeroed enough fits
  have same : neededTables calls = (tables.toFinset : Set (Table ι)) := by
    ext t
    rw [List.coe_toFinset]
    exact (takes t).symm
  refine ⟨st', run, ?_⟩
  rw [rep.used, same, Set.ncard_coe_finset, List.toFinset_card_of_nodup rep.nodup]

end

/-! ## The tables of `mmu_init`

`RAM_SIZE` is a parameter here. -/

/-- The mappings of one application. -/
def slotCalls (slot : Nat) : List (Mapping Root) :=
  [⟨.user, slot, slot, appImageSize, pageReadonlyExec⟩,
    ⟨.user, slot + appSlotSize - appStackSize, slot + appSlotSize - appStackSize, appStackSize, pageShared⟩]

/-- The mappings that `mmu_init` makes. -/
def initCalls (ram : Nat) (symbols : KernelSymbols) : List (Mapping Root) :=
  [⟨.swapper, physOffset, pageOffset, ram, pageKernel⟩,
    ⟨.swapper, symbols.text, va symbols.text, sub64 symbols.etext symbols.text, pageKernelRox⟩,
    ⟨.swapper, symbols.startRodata, va symbols.startRodata, sub64 symbols.endRodata symbols.startRodata, pageKernelRo⟩,
    ⟨.swapper, 0x08000000, add64 0x08000000 ioOffset, 0x10000, protDeviceNGnRnE⟩,
    ⟨.swapper, 0x080a0000, add64 0x080a0000 ioOffset, 0x20000, protDeviceNGnRnE⟩,
    ⟨.swapper, 0x09000000, add64 0x09000000 ioOffset, pageSize, protDeviceNGnRnE⟩] ++
    (slotCalls appFirst ++ slotCalls (appFirst + appSlotSize) ++ slotCalls (appFirst + 2 * appSlotSize))

section
variable {ram : Nat} {l : PgLayout} {k : KernelSymbols} {st : PgState}

theorem mapSlotsFor_calls : mapSlotsFor ram l (appCount + 1) appFirst st = runMappings (l.poolFor ram) l.root st
    (slotCalls appFirst ++ slotCalls (appFirst + appSlotSize) ++ slotCalls (appFirst + 2 * appSlotSize)) := by
  have first : appFirst < appFirst + appCount * appSlotSize := by decide
  have second : appFirst + appSlotSize < appFirst + appCount * appSlotSize := by decide
  have third : appFirst + appSlotSize + appSlotSize < appFirst + appCount * appSlotSize := by decide
  have past : ¬ appFirst + appSlotSize + appSlotSize + appSlotSize < appFirst + appCount * appSlotSize := by decide
  have twice : appFirst + 2 * appSlotSize = appFirst + appSlotSize + appSlotSize := by decide
  rw [twice]
  unfold mapSlotsFor mapSlotsFor mapSlotsFor mapSlotsFor
  rw [if_pos first]
  simp only [if_pos second, if_pos third, if_neg past, runMappings, slotCalls, PgLayout.root, List.cons_append,
    List.nil_append, List.foldlM_cons, List.foldlM_nil]

/-- `mmu_init` is this sequence of mappings, and the entry that is shared. -/
theorem mmuInitFor_eq : mmuInitFor ram l k st = (runMappings (l.poolFor ram) l.root st (initCalls ram k)).map fun st =>
    st.store (l.idmapPgDir + 8 * pgdIndex physOffset) (st.mem (l.swapperPgDir + 8 * pgdIndex pageOffset)) := by
  unfold mmuInitFor
  simp only [mapSlotsFor_calls]
  rw [initCalls, runMappings, List.foldlM_append]
  simp only [mapKernelSegmentFor, runMappings, List.foldlM_cons, List.foldlM_nil, Option.bind_eq_bind,
    Option.map_eq_bind, Option.bind_assoc, Function.comp_def, Option.pure_def]
  rfl

/-- The bounds of the kernel's segments are page boundaries of RAM. -/
structure KernelSymbols.InRam (k : KernelSymbols) (ram : Nat) : Prop where
  text : physOffset ≤ k.text
  etext : k.text ≤ k.etext
  textEnd : k.etext ≤ physOffset + ram
  rodata : physOffset ≤ k.startRodata
  endRodata : k.startRodata ≤ k.endRodata
  rodataEnd : k.endRodata ≤ physOffset + ram
  textAligned : pageSize ∣ k.text
  etextAligned : pageSize ∣ k.etext
  rodataAligned : pageSize ∣ k.startRodata
  endRodataAligned : pageSize ∣ k.endRodata

/-- The half of the address space that a root serves. -/
def Root.side : Root → MiaowOs.Half
  | .swapper => .high
  | .idmap => .low
  | .user => .low

/-- Where the mappings of `mmu_init` lie: in the linear map, in one of two
regions of the devices, or in that of the applications. -/
def Mapping.InArea (ram : Nat) (m : Mapping Root) : Prop :=
  (m.root = .swapper ∧ pageOffset ≤ m.virt ∧ m.virt + m.size ≤ pageOffset + ram) ∨
  (m.root = .swapper ∧ ioOffset + 0x08000000 ≤ m.virt ∧ m.virt + m.size ≤ ioOffset + 0x08200000) ∨
  (m.root = .swapper ∧ ioOffset + 0x09000000 ≤ m.virt ∧ m.virt + m.size ≤ ioOffset + 0x09200000) ∨
  (m.root = .user ∧ appFirst ≤ m.virt ∧ m.virt + m.size ≤ appFirst + 0x200000)

theorem segment_fits {start limit : Nat} (prot : Nat) (small : ram ≤ 2 ^ 30) (low : physOffset ≤ start)
    (le : start ≤ limit) (high : limit ≤ physOffset + ram) (startAligned : pageSize ∣ start)
    (limitAligned : pageSize ∣ limit) :
    (Mapping.mk Root.swapper start (va start) (sub64 limit start) prot).Fits Root.side ∧
      (Mapping.mk Root.swapper start (va start) (sub64 limit start) prot).InArea ram := by
  simp only [physOffset] at low high
  have virt : va start = pageOffset - physOffset + start := by
    simp only [va, add64, sub64, physOffset, pageOffset]
    omega
  have size : sub64 limit start = limit - start := sub64_of_le le (by omega)
  rw [virt, size]
  refine ⟨⟨?_, Nat.dvd_sub limitAligned startAligned, ?_, ?_⟩, .inl ⟨rfl, ?_, ?_⟩⟩
  · exact Nat.dvd_add (by decide) startAligned
  · simp only [Root.side, Half.start, pageOffset, physOffset]
    omega
  · simp only [Root.side, Half.start, pageOffset, physOffset]
    omega
  · simp only [pageOffset, physOffset]
    omega
  · simp only [pageOffset, physOffset]
    omega

theorem initCalls_fit (whole : 2 ^ pmdShift ∣ ram) (small : ram ≤ 2 ^ 30) (inRam : k.InRam ram) :
    ∀ m ∈ initCalls ram k, m.Fits Root.side ∧ m.InArea ram := by
  have text := segment_fits pageKernelRox small inRam.text inRam.etext inRam.textEnd inRam.textAligned
    inRam.etextAligned
  have rodata := segment_fits pageKernelRo small inRam.rodata inRam.endRodata inRam.rodataEnd
    inRam.rodataAligned inRam.endRodataAligned
  have linear : (Mapping.mk Root.swapper physOffset pageOffset ram pageKernel).Fits Root.side := by
    refine ⟨show pageSize ∣ pageOffset by decide, Nat.dvd_trans (by decide) whole, ?_, ?_⟩
    · show 2 ^ 64 - 2 ^ 39 ≤ pageOffset
      decide
    · simp only [Root.side, Half.start, pageOffset]
      omega
  intro m mem
  simp only [initCalls, slotCalls, List.cons_append, List.nil_append, List.mem_cons, List.not_mem_nil, or_false] at mem
  rcases mem with rfl | rfl | rfl | rfl | rfl | rfl | rfl | rfl | rfl | rfl | rfl | rfl
  · exact ⟨linear, .inl ⟨rfl, le_rfl, le_rfl⟩⟩
  · exact text
  · exact rodata
  · exact ⟨⟨by decide, by decide, by decide, by decide⟩, .inr (.inl (by decide))⟩
  · exact ⟨⟨by decide, by decide, by decide, by decide⟩, .inr (.inl (by decide))⟩
  · exact ⟨⟨by decide, by decide, by decide, by decide⟩, .inr (.inr (.inl (by decide)))⟩
  all_goals exact ⟨⟨by decide, by decide, by decide, by decide⟩, .inr (.inr (.inr (by decide)))⟩

/-- One 1 GiB region each for the devices, the linear map and the applications. -/
theorem initCalls_mids (small : ram ≤ 2 ^ 30) (areas : ∀ m ∈ initCalls ram k, m.InArea ram) :
    (touchedRegions pgdirShift (initCalls ram k)).ncard ≤ 3 := by
  have sub : touchedRegions pgdirShift (initCalls ram k) ⊆
      (({(.swapper, ioOffset >>> pgdirShift), (.swapper, pageOffset >>> pgdirShift),
        (.user, appFirst >>> pgdirShift)} : Finset (Root × Nat)) : Set (Root × Nat)) := by
    rintro ⟨r, i⟩ ⟨m, mem, root, addr, low, high, at_⟩
    have area := areas m mem
    simp only [Nat.shiftRight_eq_div_pow, pgdirShift, ioOffset, pageOffset, appFirst, Finset.coe_insert,
      Finset.coe_singleton, Set.mem_insert_iff, Set.mem_singleton_iff, Prod.mk.injEq] at at_ root ⊢
    unfold Mapping.InArea at area
    simp only [ioOffset, pageOffset, appFirst] at area
    rw [root] at area
    rcases area with ⟨own, first, last⟩ | ⟨own, first, last⟩ | ⟨own, first, last⟩ | ⟨own, first, last⟩
    · exact .inr (.inl ⟨own, by omega⟩)
    · exact .inl ⟨own, by omega⟩
    · exact .inl ⟨own, by omega⟩
    · exact .inr (.inr ⟨own, by omega⟩)
  apply (Set.ncard_le_ncard sub (Finset.finite_toSet _)).trans
  rw [Set.ncard_coe_finset]
  exact Finset.card_le_three

/-- The devices lie in two 2 MiB regions and the applications in one; the others
are those of RAM. -/
theorem initCalls_lows (whole : 2 ^ pmdShift ∣ ram) (areas : ∀ m ∈ initCalls ram k, m.InArea ram) :
    (touchedRegions pmdShift (initCalls ram k)).ncard ≤ 3 + ram >>> pmdShift := by
  have sub : touchedRegions pmdShift (initCalls ram k) ⊆
      (({(.swapper, (ioOffset + 0x08000000) >>> pmdShift), (.swapper, (ioOffset + 0x09000000) >>> pmdShift),
        (.user, appFirst >>> pmdShift)} ∪
        (Finset.range (ram >>> pmdShift)).image fun j => (.swapper, pageOffset >>> pmdShift + j) :
          Finset (Root × Nat)) : Set (Root × Nat)) := by
    rintro ⟨r, i⟩ ⟨m, mem, root, addr, low, high, at_⟩
    have area := areas m mem
    obtain ⟨c, rfl⟩ := whole
    simp only [Nat.shiftRight_eq_div_pow, pmdShift, ioOffset, pageOffset, appFirst, Finset.coe_union, Finset.coe_insert,
      Finset.coe_singleton, Finset.coe_image, Finset.coe_range, Set.mem_union, Set.mem_insert_iff,
      Set.mem_singleton_iff, Set.mem_image, Set.mem_Iio, Prod.mk.injEq] at at_ root ⊢
    unfold Mapping.InArea at area
    simp only [ioOffset, pageOffset, appFirst, pmdShift] at area
    rw [root] at area
    rcases area with ⟨own, first, last⟩ | ⟨own, first, last⟩ | ⟨own, first, last⟩ | ⟨own, first, last⟩
    · exact .inr ⟨i - 0xffffffc000000000 / 2 ^ 21, by omega, own.symm, by omega⟩
    · exact .inl (.inl ⟨own, by omega⟩)
    · exact .inl (.inr (.inl ⟨own, by omega⟩))
    · exact .inl (.inr (.inr ⟨own, by omega⟩))
  apply (Set.ncard_le_ncard sub (Finset.finite_toSet _)).trans
  rw [Set.ncard_coe_finset]
  apply (Finset.card_union_le _ _).trans
  apply Nat.add_le_add Finset.card_le_three
  apply Finset.card_image_le.trans
  rw [Finset.card_range]

/-- **`mmu_init` stays inside the pool.** -/
theorem mmuInitFor_fits (h : Placed l.root (l.poolFor ram)) (zeroed : Zeroed l.root (l.poolFor ram) st)
    (whole : 2 ^ pmdShift ∣ ram) (small : ram ≤ 2 ^ 30) (inRam : k.InRam ram) : ∃ st',
      mmuInitFor ram l k st = some st' ∧ st'.used ≤ 6 + ram >>> pmdShift := by
  have fit := initCalls_fit whole small inRam
  have mids := initCalls_mids small fun m mem => (fit m mem).2
  have lows := initCalls_lows whole fun m mem => (fit m mem).2
  obtain ⟨st', run, used⟩ := runMappings_used h zeroed (fun m mem => (fit m mem).1)
    (show _ ≤ 6 + ram >>> pmdShift by omega)
  rw [mmuInitFor_eq, run]
  refine ⟨_, rfl, ?_⟩
  show st'.used ≤ _
  omega

end

/-- **The pool is never over-run.** From clear roots every sequence of mappings
takes one table for each 1 GiB region and for each 2 MiB region that it touches
in a root, and `EARLY_PGTABLES` are enough for `mmu_init`, for every size of RAM
and wherever the segments of the kernel lie in it. -/
theorem table_pool_never_overrun :
    (∀ (ι : Type) [DecidableEq ι] (root : ι → Nat) (pool : Pool) (half : ι → Half) (st : PgState)
      (calls : List (Mapping ι)), Placed root pool → Zeroed root pool st → (∀ m ∈ calls, m.Fits half) →
      (touchedRegions pgdirShift calls).ncard + (touchedRegions pmdShift calls).ncard ≤ pool.count →
      ∃ st', runMappings pool root st calls = some st' ∧
        st'.used = (touchedRegions pgdirShift calls).ncard + (touchedRegions pmdShift calls).ncard) ∧
    (∀ (ram : Nat) (l : PgLayout) (k : KernelSymbols) (st : PgState), Placed l.root (l.poolFor ram) →
      Zeroed l.root (l.poolFor ram) st → 2 ^ pmdShift ∣ ram → ram ≤ 2 ^ 30 → k.InRam ram →
      ∃ st', mmuInitFor ram l k st = some st' ∧ st'.used ≤ 6 + ram >>> pmdShift) := by
  constructor
  · intro ι _ root pool half st calls h zeroed fits enough
    exact runMappings_used h zeroed fits enough
  · intro ram l k st h zeroed whole small inRam
    exact mmuInitFor_fits h zeroed whole small inRam

/-- Overlapping mappings in two roots, and a board with 512 MiB of RAM. -/
theorem table_pool_never_overrun_example :
    (∃ st', runMappings ⟨0x10000, 4⟩ (fun r => if r then 0x2000 else 0x1000) ⟨fun _ => 0, 0⟩ threeMappings = some st' ∧
      st'.used = (touchedRegions pgdirShift threeMappings).ncard + (touchedRegions pmdShift threeMappings).ncard) ∧
    ∃ st', mmuInitFor 0x20000000 exampleLayout exampleSymbols ⟨fun _ => 0, 0⟩ = some st' ∧ st'.used ≤ 262 := by
  have placed : Placed (fun r : Bool => if r then 0x2000 else 0x1000) ⟨0x10000, 4⟩ := by
    constructor <;> decide
  have fits : ∀ m ∈ threeMappings, m.Fits fun r => if r then .high else .low := by
    intro m mem
    simp only [threeMappings, List.mem_cons, List.not_mem_nil, or_false] at mem
    rcases mem with rfl | rfl | rfl <;> constructor <;> decide
  have large : Placed exampleLayout.root (exampleLayout.poolFor 0x20000000) := by
    constructor
    · intro r
      cases r <;> decide
    · intro r
      cases r <;> decide
    · intro r r'
      cases r <;> cases r' <;> decide
    · decide
    · decide
    · intro r
      cases r <;> decide
    · decide
  have inRam : exampleSymbols.InRam 0x20000000 := by constructor <;> decide
  constructor
  · exact table_pool_never_overrun.1 Bool _ _ _ _ _ placed ⟨rfl, fun _ _ _ _ => rfl⟩ fits
      (by rw [← neededTables_ncard fits]; exact threeMappings_needed)
  · exact table_pool_never_overrun.2 0x20000000 exampleLayout exampleSymbols _ large ⟨rfl, fun _ _ _ _ => rfl⟩
      (by decide) (by decide) inRam

end MiaowOs
