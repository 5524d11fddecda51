import MiaowOs.Mm.PageTables
import Mathlib

/-!
# The address map

What `mmu_init` leaves in the three roots: the linear map and the devices in
`swapper_pg_dir`, the images and the stacks of the applications in
`user_pg_dir`, and all of RAM in `idmap_pg_dir`, which shares the tables of the
linear map.
-/

namespace MiaowOs

inductive Root
  | swapper
  | idmap
  | user
deriving DecidableEq

def PgLayout.root (l : PgLayout) : Root → Nat
  | .swapper => l.swapperPgDir
  | .idmap => l.idmapPgDir
  | .user => l.userPgDir

/-- The tables are in `.bss`, which is clear when `mmu_init` is called. -/
structure Cleared (l : PgLayout) (st : PgState) : Prop where
  used : st.used = 0
  cells : ∀ f : Frame Root, f.Valid l.pool → ∀ i < 512, st.mem (f.cell l.root l.pool i) = 0

/-- What the linker script says of the kernel's segments; it puts `_text` at
`PHYS_OFFSET + TEXT_OFFSET`, but any page of RAM would do. -/
structure KernelSymbols.Linked (k : KernelSymbols) : Prop where
  text : physOffset ≤ k.text
  etext : k.text ≤ k.etext
  adjacent : k.etext = k.startRodata
  endRodata : k.startRodata ≤ k.endRodata
  belowApps : k.endRodata ≤ appFirst
  textAligned : pageSize ∣ k.text
  etextAligned : pageSize ∣ k.etext
  endRodataAligned : pageSize ∣ k.endRodata

/-- Every table the mappings of `mmu_init` need: as many as the pool has. -/
def allTables : List (Table Root) :=
  [.mid .swapper 0, .low .swapper 0 64, .low .swapper 0 72, .mid .swapper 256, .mid .user 1, .low .user 1 8] ++
    (List.range 64).map (.low .swapper 256)

/-! ## The maps -/

/-- The attributes of a page of RAM in the linear map. -/
def linearProt (k : KernelSymbols) (x : Nat) : Nat :=
  if k.text ≤ x ∧ x < k.etext then pageKernelRox
  else if k.startRodata ≤ x ∧ x < k.endRodata then pageKernelRo
  else pageKernel

/-- The registers of the interrupt controller and of the UART. -/
def InDevice (x : Nat) : Prop :=
  (0x08000000 ≤ x ∧ x < 0x08000000 + 0x10000) ∨ (0x080a0000 ≤ x ∧ x < 0x080a0000 + 0x20000) ∨
    (0x09000000 ≤ x ∧ x < 0x09000000 + pageSize)

instance (x : Nat) : Decidable (InDevice x) := inferInstanceAs (Decidable (_ ∨ _ ∨ _))

/-- The address lies in the image of application `i`. -/
def InImage (i x : Nat) : Prop :=
  appFirst + i * appSlotSize ≤ x ∧ x < appFirst + i * appSlotSize + appImageSize

/-- The address lies in the stack of application `i`. -/
def InStack (i x : Nat) : Prop :=
  appFirst + (i + 1) * appSlotSize - appStackSize ≤ x ∧ x < appFirst + (i + 1) * appSlotSize

instance (i x : Nat) : Decidable (InImage i x) := inferInstanceAs (Decidable (_ ∧ _))
instance (i x : Nat) : Decidable (InStack i x) := inferInstanceAs (Decidable (_ ∧ _))

/-- What `swapper_pg_dir` maps. -/
def swapperMap (k : KernelSymbols) (addr : Nat) : Option (Nat × Nat) :=
  if pageOffset ≤ addr ∧ addr < pageOffset + ramSize then
    some (physOffset + (addr - pageOffset), linearProt k (physOffset + (addr - pageOffset)))
  else if ioOffset ≤ addr ∧ InDevice (addr - ioOffset) then some (addr - ioOffset, protDeviceNGnRnE)
  else none

/-- What `user_pg_dir` maps. -/
def userMap (addr : Nat) : Option (Nat × Nat) :=
  if ∃ i < appCount, InImage i addr then some (addr, pageReadonlyExec)
  else if ∃ i < appCount, InStack i addr then some (addr, pageShared)
  else none

/-- What `idmap_pg_dir` maps. -/
def idMap (k : KernelSymbols) (addr : Nat) : Option (Nat × Nat) :=
  if physOffset ≤ addr ∧ addr < physOffset + ramSize then some (addr, linearProt k addr) else none

/-! ## The leaves -/

/-- The leaves after a slot has been mapped. -/
def slotMapped (leaf : Root → Nat → Nat) (slot : Nat) : Root → Nat → Nat :=
  mapped (mapped leaf .user (vpn slot) 16 slot pageReadonlyExec) .user (vpn (slot + appSlotSize - appStackSize)) 4
    (slot + appSlotSize - appStackSize) pageShared

/-- The leaves after the first `n` slots have been mapped. -/
def slotsMapped (leaf : Root → Nat → Nat) : Nat → Root → Nat → Nat
  | 0 => leaf
  | n + 1 => slotMapped (slotsMapped leaf n) (appFirst + n * appSlotSize)

/-- The number of pages from `start` to `limit`. -/
def pagesOf (start limit : Nat) : Nat := (limit - start) / pageSize

/-- The leaves after the kernel has been mapped. -/
def kernelMapped (k : KernelSymbols) : Root → Nat → Nat :=
  let ram := mapped (fun _ _ => 0) .swapper (vpn pageOffset) 32768 physOffset pageKernel
  let text := mapped ram .swapper (vpn (va k.text)) (pagesOf k.text k.etext) k.text pageKernelRox
  let rodata :=
    mapped text .swapper (vpn (va k.startRodata)) (pagesOf k.startRodata k.endRodata) k.startRodata pageKernelRo
  let gicd := mapped rodata .swapper (vpn (add64 0x08000000 ioOffset)) 16 0x08000000 protDeviceNGnRnE
  let gicr := mapped gicd .swapper (vpn (add64 0x080a0000 ioOffset)) 32 0x080a0000 protDeviceNGnRnE
  mapped gicr .swapper (vpn (add64 0x09000000 ioOffset)) 1 0x09000000 protDeviceNGnRnE

section
variable {l : PgLayout} {k : KernelSymbols} {st : PgState} {tables : List (Table Root)} {leaf : Root → Nat → Nat}

theorem allTables_length : allTables.length ≤ l.pool.count := by
  show allTables.length ≤ 70
  decide

/-- The pages of RAM in the linear map find their tables. -/
theorem linear_tables {p : Nat} (le : 2 ^ 26 ≤ p) (lt : p < 2 ^ 26 + 32768) :
    midOf .swapper p ∈ allTables ∧ lowOf .swapper p ∈ allTables := by
  have top : p / 2 ^ 18 = 256 := by omega
  have below : p / 512 % 512 < 64 := by omega
  unfold midOf lowOf
  rw [top]
  exact ⟨by decide, List.mem_append_right _ (List.mem_map.2 ⟨_, List.mem_range.2 below, rfl⟩)⟩

/-- So do the pages of the devices. -/
theorem device_tables {p : Nat} (range : (32768 ≤ p ∧ p < 33280) ∨ (36864 ≤ p ∧ p < 37376)) :
    midOf .swapper p ∈ allTables ∧ lowOf .swapper p ∈ allTables := by
  have top : p / 2 ^ 18 = 0 := by omega
  unfold midOf lowOf
  rw [top]
  rcases range with range | range
  · rw [show p / 512 % 512 = 64 by omega]
    decide
  · rw [show p / 512 % 512 = 72 by omega]
    decide

/-- And the pages of the application slots. -/
theorem user_tables {p : Nat} (le : 0x41000 ≤ p) (lt : p < 0x41000 + 512) :
    midOf .user p ∈ allTables ∧ lowOf .user p ∈ allTables := by
  have top : p / 2 ^ 18 = 1 := by omega
  have mid : p / 512 % 512 = 8 := by omega
  unfold midOf lowOf
  rw [top, mid]
  decide

/-- A step of `mmu_init`. -/
theorem map_step {phys virt N size : Nat} {r : Root} (prot : Nat) (h : Placed l.root l.pool) (region : Region phys virt N)
    (tablesFor : ∀ p, vpn virt ≤ p → p < vpn virt + N → midOf r p ∈ allTables ∧ lowOf r p ∈ allTables)
    (whole : size = pageSize * N) (sub : tables ⊆ allTables) (rep : Rep l.root l.pool st tables leaf) :
    ∃ st' tables', createPgdMapping l.pool st (l.root r) phys virt size prot = some st' ∧ tables' ⊆ allTables ∧
      Rep l.root l.pool st' tables' (mapped leaf r (vpn virt) N phys prot) := by
  rw [whole]
  exact createPgdMapping_spec prot h region allTables_length tablesFor sub rep

theorem Cleared.rep (clear : Cleared l st) : Rep l.root l.pool st [] (fun _ _ => 0) where
  nodup := List.nodup_nil
  used := clear.used
  fits := Nat.zero_le _
  rooted := by simp
  slots := by simp
  bare := fun _ _ _ _ _ _ _ => rfl
  cells := by
    intro f valid i lt
    rw [clear.cells f valid i lt]
    cases f with
    | root r => simp [content, tableEntry]
    | table k => simp [content]

/-- A segment of the kernel between two page boundaries of RAM. -/
theorem segment_step {start limit : Nat} (prot : Nat) (h : Placed l.root l.pool) (low : physOffset ≤ start)
    (le : start ≤ limit) (high : limit ≤ physOffset + ramSize) (startAligned : pageSize ∣ start)
    (limitAligned : pageSize ∣ limit) (sub : tables ⊆ allTables) (rep : Rep l.root l.pool st tables leaf) :
    ∃ st' tables', mapKernelSegment l st start limit prot = some st' ∧ tables' ⊆ allTables ∧
      Rep l.root l.pool st' tables' (mapped leaf .swapper (vpn (va start)) (pagesOf start limit) start prot) := by
  obtain ⟨a, rfl⟩ := startAligned
  obtain ⟨b, rfl⟩ := limitAligned
  simp only [physOffset, ramSize, pageSize] at low high le
  have size : sub64 (pageSize * b) (pageSize * a) = pageSize * pagesOf (pageSize * a) (pageSize * b) := by
    simp only [sub64, pagesOf, pageSize]
    omega
  have virt : va (pageSize * a) = pageOffset - physOffset + pageSize * a := by
    simp only [va, add64, sub64, physOffset, pageOffset, pageSize]
    omega
  have number : vpn (va (pageSize * a)) = 2 ^ 26 + (a - 0x40000) := by
    rw [virt]
    simp only [vpn, physOffset, pageOffset, pageSize]
    omega
  have count : pagesOf (pageSize * a) (pageSize * b) = b - a := by
    simp only [pagesOf, pageSize]
    omega
  have region : Region (pageSize * a) (va (pageSize * a)) (pagesOf (pageSize * a) (pageSize * b)) := by
    constructor
    · rw [virt]
      exact Nat.dvd_add (by decide) (Nat.dvd_mul_right _ _)
    · rw [virt, count]
      simp only [physOffset, pageOffset, pageSize]
      omega
    · rw [count]
      simp only [pageSize]
      omega
    · rw [number, count]
      omega
  refine map_step (r := .swapper) prot h region ?_ size sub rep
  rw [number, count]
  intro p le' lt'
  exact linear_tables (by omega) (by omega)

/-- A slot of an application. -/
theorem slot_step {n : Nat} (h : Placed l.root l.pool) (lt : n < appCount) (sub : tables ⊆ allTables)
    (rep : Rep l.root l.pool st tables leaf) : ∃ st₁ st₂ tables',
      createPgdMapping l.pool st l.userPgDir (appFirst + n * appSlotSize) (appFirst + n * appSlotSize) appImageSize
        pageReadonlyExec = some st₁ ∧
      createPgdMapping l.pool st₁ l.userPgDir (appFirst + n * appSlotSize + appSlotSize - appStackSize)
        (appFirst + n * appSlotSize + appSlotSize - appStackSize) appStackSize pageShared = some st₂ ∧
      tables' ⊆ allTables ∧
      Rep l.root l.pool st₂ tables' (slotMapped leaf (appFirst + n * appSlotSize)) := by
  have image : Region (appFirst + n * appSlotSize) (appFirst + n * appSlotSize) 16 := by
    simp only [appFirst, appSlotSize, appCount] at *
    constructor <;> simp only [vpn, pageSize] <;> omega
  have stack : Region (appFirst + n * appSlotSize + appSlotSize - appStackSize)
      (appFirst + n * appSlotSize + appSlotSize - appStackSize) 4 := by
    simp only [appFirst, appSlotSize, appStackSize, appCount] at *
    constructor <;> simp only [vpn, pageSize] <;> omega
  have imageTables : ∀ p, vpn (appFirst + n * appSlotSize) ≤ p → p < vpn (appFirst + n * appSlotSize) + 16 →
      midOf .user p ∈ allTables ∧ lowOf .user p ∈ allTables := by
    intro p le lt'
    simp only [vpn, pageSize, appFirst, appSlotSize, appCount] at *
    exact user_tables (by omega) (by omega)
  have stackTables : ∀ p, vpn (appFirst + n * appSlotSize + appSlotSize - appStackSize) ≤ p →
      p < vpn (appFirst + n * appSlotSize + appSlotSize - appStackSize) + 4 →
      midOf .user p ∈ allTables ∧ lowOf .user p ∈ allTables := by
    intro p le lt'
    simp only [vpn, pageSize, appFirst, appSlotSize, appStackSize, appCount] at *
    exact user_tables (by omega) (by omega)
  obtain ⟨st₁, tables₁, run₁, sub₁, rep₁⟩ := map_step (r := .user) pageReadonlyExec h image imageTables rfl sub rep
  obtain ⟨st₂, tables₂, run₂, sub₂, rep₂⟩ := map_step (r := .user) pageShared h stack stackTables rfl sub₁ rep₁
  exact ⟨st₁, st₂, tables₂, run₁, run₂, sub₂, rep₂⟩

/-- The loop over the slots, from slot `n` on. -/
theorem mapSlots_spec (h : Placed l.root l.pool) (fuel n : Nat) (le : n ≤ appCount) (fuelled : appCount - n < fuel)
    (sub : tables ⊆ allTables) (rep : Rep l.root l.pool st tables (slotsMapped leaf n)) : ∃ st' tables',
      mapSlots l fuel (appFirst + n * appSlotSize) st = some st' ∧ tables' ⊆ allTables ∧
      Rep l.root l.pool st' tables' (slotsMapped leaf appCount) := by
  induction fuel generalizing n st tables with
  | zero => omega
  | succ fuel ih =>
    unfold mapSlots mapSlotsFor
    rcases Nat.lt_or_ge n appCount with more | done
    · obtain ⟨st₁, st₂, tables', run₁, run₂, sub', rep'⟩ := slot_step h more sub rep
      have inside : appFirst + n * appSlotSize < appFirst + appCount * appSlotSize :=
        Nat.add_lt_add_left (Nat.mul_lt_mul_of_pos_right more (by decide)) _
      have next : appFirst + n * appSlotSize + appSlotSize = appFirst + (n + 1) * appSlotSize := by ring
      rw [if_pos inside]
      rw [PgLayout.pool] at run₁ run₂
      simp only [run₁, Option.bind_eq_bind, Option.bind_some, run₂]
      rw [next]
      exact ih (n + 1) more (by omega) sub' rep'
    · obtain rfl : n = appCount := Nat.le_antisymm le done
      rw [if_neg (lt_irrefl _)]
      exact ⟨st, tables, rfl, sub, rep⟩

/-- **The leaves after `mmu_init`**, and the entry that `idmap_pg_dir` shares. -/
theorem mmuInit_spec (h : Placed l.root l.pool) (linked : k.Linked) (clear : Cleared l st) : ∃ st' tables,
    mmuInit l k st = some (st'.store (l.idmapPgDir + 8 * pgdIndex physOffset)
      (st'.mem (l.swapperPgDir + 8 * pgdIndex pageOffset))) ∧
    tables ⊆ allTables ∧ Rep l.root l.pool st' tables (slotsMapped (kernelMapped k) appCount) := by
  have text := linked.text
  have etext := linked.etext
  have adjacent := linked.adjacent
  have endRodata := linked.endRodata
  have belowApps := linked.belowApps
  have ram : Region physOffset pageOffset 32768 := by constructor <;> decide
  have gicd : Region 0x08000000 (add64 0x08000000 ioOffset) 16 := by constructor <;> decide
  have gicr : Region 0x080a0000 (add64 0x080a0000 ioOffset) 32 := by constructor <;> decide
  have uart : Region 0x09000000 (add64 0x09000000 ioOffset) 1 := by constructor <;> decide
  have ramTables : ∀ p, vpn pageOffset ≤ p → p < vpn pageOffset + 32768 →
      midOf .swapper p ∈ allTables ∧ lowOf .swapper p ∈ allTables := by
    intro p le lt
    exact linear_tables le lt
  have gicdTables : ∀ p, vpn (add64 0x08000000 ioOffset) ≤ p → p < vpn (add64 0x08000000 ioOffset) + 16 →
      midOf .swapper p ∈ allTables ∧ lowOf .swapper p ∈ allTables := by
    intro p le lt
    rw [show vpn (add64 0x08000000 ioOffset) = 32768 by decide] at le lt
    exact device_tables (by omega)
  have gicrTables : ∀ p, vpn (add64 0x080a0000 ioOffset) ≤ p → p < vpn (add64 0x080a0000 ioOffset) + 32 →
      midOf .swapper p ∈ allTables ∧ lowOf .swapper p ∈ allTables := by
    intro p le lt
    rw [show vpn (add64 0x080a0000 ioOffset) = 32928 by decide] at le lt
    exact device_tables (by omega)
  have uartTables : ∀ p, vpn (add64 0x09000000 ioOffset) ≤ p → p < vpn (add64 0x09000000 ioOffset) + 1 →
      midOf .swapper p ∈ allTables ∧ lowOf .swapper p ∈ allTables := by
    intro p le lt
    rw [show vpn (add64 0x09000000 ioOffset) = 36864 by decide] at le lt
    exact device_tables (by omega)
  simp only [physOffset, appFirst] at text belowApps
  obtain ⟨st₁, tables₁, run₁, sub₁, rep₁⟩ :=
    map_step (r := .swapper) pageKernel h ram ramTables (by decide : ramSize = _) (List.nil_subset _) clear.rep
  obtain ⟨st₂, tables₂, run₂, sub₂, rep₂⟩ := segment_step pageKernelRox h (by simp only [physOffset]; omega)
    etext (by simp only [physOffset, ramSize]; omega) linked.textAligned linked.etextAligned sub₁
    rep₁
  obtain ⟨st₃, tables₃, run₃, sub₃, rep₃⟩ := segment_step pageKernelRo h (by simp only [physOffset]; omega)
    endRodata (by simp only [physOffset, ramSize]; omega) (adjacent ▸ linked.etextAligned) linked.endRodataAligned
    sub₂ rep₂
  obtain ⟨st₄, tables₄, run₄, sub₄, rep₄⟩ :=
    map_step (r := .swapper) protDeviceNGnRnE h gicd gicdTables (by decide : 0x10000 = _) sub₃ rep₃
  obtain ⟨st₅, tables₅, run₅, sub₅, rep₅⟩ :=
    map_step (r := .swapper) protDeviceNGnRnE h gicr gicrTables (by decide : 0x20000 = _) sub₄ rep₄
  obtain ⟨st₆, tables₆, run₆, sub₆, rep₆⟩ :=
    map_step (r := .swapper) protDeviceNGnRnE h uart uartTables (by decide : pageSize = _) sub₅ rep₅
  obtain ⟨st₇, tables₇, run₇, sub₇, rep₇⟩ :=
    mapSlots_spec h (appCount + 1) 0 (Nat.zero_le _) (by decide) sub₆
      (show Rep l.root l.pool st₆ tables₆ (slotsMapped (kernelMapped k) 0) from rep₆)
  refine ⟨st₇, tables₇, ?_, sub₇, rep₇⟩
  unfold mmuInit mmuInitFor
  simp only [PgLayout.root, PgLayout.pool] at run₁ run₄ run₅ run₆
  simp only [mapKernelSegment] at run₂ run₃
  rw [Nat.zero_mul, Nat.add_zero, mapSlots] at run₇
  simp only [run₁, run₂, run₃, run₄, run₅, run₆, run₇, Option.bind_eq_bind, Option.bind_some]
  rfl

/-! ## Reading the leaves -/

/-- A page inside the region that was mapped last. -/
theorem decode_inside {r : Root} {V N phys prot p addr : Nat} (aligned : pageSize ∣ phys)
    (below : phys + pageSize * N ≤ 2 ^ 48) (isProt : IsProt prot) (inside : V ≤ p ∧ p < V + N) :
    decode (mapped leaf r V N phys prot r p) addr = some (phys + pageSize * (p - V) + addr % pageSize, prot) := by
  have near : pageSize * (p - V) < pageSize * N := Nat.mul_lt_mul_of_pos_left (by omega) (by decide)
  rw [mapped, if_pos ⟨rfl, inside⟩]
  exact decode_page (Nat.dvd_add aligned (Nat.dvd_mul_right _ _)) (by omega) isProt

/-- A page outside it. -/
theorem mapped_outside {r r' : Root} {V N phys prot p : Nat} (outside : r' = r → ¬ (V ≤ p ∧ p < V + N)) :
    mapped leaf r V N phys prot r' p = leaf r' p :=
  if_neg fun inside => outside inside.1 inside.2

theorem slotMapped_other {r : Root} {slot p : Nat} (other : r ≠ .user) : slotMapped leaf slot r p = leaf r p := by
  unfold slotMapped
  rw [mapped_outside fun eq => absurd eq other, mapped_outside fun eq => absurd eq other]

/-- The slots are mapped for the applications only. -/
theorem slotsMapped_other {r : Root} {n p : Nat} (other : r ≠ .user) : slotsMapped leaf n r p = leaf r p := by
  induction n with
  | zero => rfl
  | succ n ih => rw [slotsMapped, slotMapped_other other, ih]

theorem kernelMapped_other {r : Root} {p : Nat} (other : r ≠ .swapper) : kernelMapped k r p = 0 := by
  unfold kernelMapped
  repeat rw [mapped_outside fun eq => absurd eq other]

/-- The descriptors of the linear map. -/
theorem decode_linear {p addr : Nat} (linked : k.Linked) (inside : 2 ^ 26 ≤ p ∧ p < 2 ^ 26 + 32768) :
    decode (kernelMapped k .swapper p) addr =
      some (physOffset + pageSize * (p - 2 ^ 26) + addr % pageSize,
        linearProt k (physOffset + pageSize * (p - 2 ^ 26) + addr % pageSize)) := by
  obtain ⟨c, hc⟩ := linked.textAligned
  obtain ⟨a, ha⟩ := linked.etextAligned
  obtain ⟨b, hb⟩ := linked.endRodataAligned
  have text := linked.text
  have etext := linked.etext
  have adjacent := linked.adjacent
  have endRodata := linked.endRodata
  have belowApps := linked.belowApps
  have gicd : vpn (add64 0x08000000 ioOffset) = 32768 := by decide
  have gicr : vpn (add64 0x080a0000 ioOffset) = 32928 := by decide
  have uart : vpn (add64 0x09000000 ioOffset) = 36864 := by decide
  have ram : vpn pageOffset = 2 ^ 26 := by decide
  have rest : addr % 4096 < 4096 := Nat.mod_lt _ (by decide)
  have textVpn : vpn (va k.text) = 2 ^ 26 + (c - 0x40000) := by
    rw [hc] at *
    simp only [physOffset, appFirst, pageSize] at *
    simp only [vpn, va, add64, sub64, physOffset, pageOffset, pageSize]
    omega
  have rodataVpn : vpn (va k.startRodata) = 2 ^ 26 + (a - 0x40000) := by
    rw [← adjacent, ha]
    simp only [physOffset, appFirst, pageSize] at *
    simp only [vpn, va, add64, sub64, physOffset, pageOffset, pageSize]
    omega
  simp only [physOffset, appFirst, pageSize] at *
  have textCount : pagesOf k.text k.etext = a - c := by
    simp only [pagesOf, pageSize]
    omega
  have rodataCount : pagesOf k.startRodata k.endRodata = b - a := by
    simp only [pagesOf, pageSize]
    omega
  unfold kernelMapped
  rw [gicd, gicr, uart, ram, textVpn, rodataVpn, textCount, rodataCount, mapped_outside (by omega),
    mapped_outside (by omega), mapped_outside (by omega)]
  unfold linearProt
  by_cases inRodata : 2 ^ 26 + (a - 0x40000) ≤ p ∧ p < 2 ^ 26 + (a - 0x40000) + (b - a)
  · rw [decode_inside (by rw [← adjacent, ha]; exact Nat.dvd_mul_right _ _) (by simp only [pageSize]; omega) (by decide)
      inRodata, if_neg (by omega), if_pos (by omega)]
    have same : k.startRodata + 4096 * (p - (2 ^ 26 + (a - 0x40000))) = 0x40000000 + 4096 * (p - 2 ^ 26) := by omega
    rw [same]
  · rw [mapped_outside fun _ => inRodata]
    by_cases inText : 2 ^ 26 + (c - 0x40000) ≤ p ∧ p < 2 ^ 26 + (c - 0x40000) + (a - c)
    · rw [decode_inside linked.textAligned (by simp only [pageSize]; omega) (by decide) inText, if_pos (by omega)]
      have same : k.text + 4096 * (p - (2 ^ 26 + (c - 0x40000))) = 0x40000000 + 4096 * (p - 2 ^ 26) := by omega
      rw [same]
    · rw [mapped_outside fun _ => inText, decode_inside (by decide) (by decide) (by decide) inside,
        if_neg (by omega), if_neg (by omega)]

/-- The other descriptors of the kernel. -/
theorem decode_device {p addr : Nat} (linked : k.Linked) (outside : ¬ (2 ^ 26 ≤ p ∧ p < 2 ^ 26 + 32768)) :
    decode (kernelMapped k .swapper p) addr =
      if InDevice (pageSize * p + addr % pageSize) then some (pageSize * p + addr % pageSize, protDeviceNGnRnE)
      else none := by
  obtain ⟨c, hc⟩ := linked.textAligned
  obtain ⟨a, ha⟩ := linked.etextAligned
  obtain ⟨b, hb⟩ := linked.endRodataAligned
  have text := linked.text
  have etext := linked.etext
  have adjacent := linked.adjacent
  have endRodata := linked.endRodata
  have belowApps := linked.belowApps
  have gicd : vpn (add64 0x08000000 ioOffset) = 32768 := by decide
  have gicr : vpn (add64 0x080a0000 ioOffset) = 32928 := by decide
  have uart : vpn (add64 0x09000000 ioOffset) = 36864 := by decide
  have ram : vpn pageOffset = 2 ^ 26 := by decide
  have rest : addr % 4096 < 4096 := Nat.mod_lt _ (by decide)
  unfold kernelMapped
  rw [gicd, gicr, uart, ram]
  by_cases inUart : 36864 ≤ p ∧ p < 36864 + 1
  · have same : 0x09000000 + pageSize * (p - 36864) = pageSize * p := by simp only [pageSize]; omega
    rw [decode_inside (by decide) (by decide) (by decide) inUart, same, if_pos]
    simp only [InDevice, pageSize]
    omega
  · rw [mapped_outside fun _ => inUart]
    by_cases inGicr : 32928 ≤ p ∧ p < 32928 + 32
    · have same : 0x080a0000 + pageSize * (p - 32928) = pageSize * p := by simp only [pageSize]; omega
      rw [decode_inside (by decide) (by decide) (by decide) inGicr, same, if_pos]
      simp only [InDevice, pageSize]
      omega
    · rw [mapped_outside fun _ => inGicr]
      by_cases inGicd : 32768 ≤ p ∧ p < 32768 + 16
      · have same : 0x08000000 + pageSize * (p - 32768) = pageSize * p := by simp only [pageSize]; omega
        rw [decode_inside (by decide) (by decide) (by decide) inGicd, same, if_pos]
        simp only [InDevice, pageSize]
        omega
      · -- the segments lie in the linear map, so they do not reach this page
        have noText : ¬ (vpn (va k.text) ≤ p ∧ p < vpn (va k.text) + pagesOf k.text k.etext) := by
          rw [hc] at *
          simp only [vpn, va, add64, sub64, pagesOf, physOffset, pageOffset, appFirst, pageSize] at *
          omega
        have noRodata : ¬ (vpn (va k.startRodata) ≤ p ∧
            p < vpn (va k.startRodata) + pagesOf k.startRodata k.endRodata) := by
          rw [← adjacent, ha]
          simp only [vpn, va, add64, sub64, pagesOf, physOffset, pageOffset, appFirst, pageSize] at *
          omega
        rw [mapped_outside fun _ => inGicd, mapped_outside fun _ => noRodata, mapped_outside fun _ => noText,
          mapped_outside fun _ => outside, decode_zero, if_neg]
        simp only [InDevice, pageSize]
        omega

/-- Images and stacks share no page. -/
theorem not_image_of_stack {i j x y : Nat} (stack : InStack i x) (page : x / pageSize = y / pageSize) :
    ¬ InImage j y := by
  unfold InStack at stack
  unfold InImage
  simp only [appFirst, appSlotSize, appStackSize, appImageSize, pageSize] at *
  omega

/-- The descriptors of the first `n` applications. -/
theorem decode_slots {n addr : Nat} (le : n ≤ appCount) (half : addr < 2 ^ 39) (bare : ∀ p, leaf .user p = 0) :
    decode (slotsMapped leaf n .user (vpn addr)) addr =
      if ∃ i < n, InImage i addr then some (addr, pageReadonlyExec)
      else if ∃ i < n, InStack i addr then some (addr, pageShared) else none := by
  induction n with
  | zero => simp [slotsMapped, bare, decode_zero]
  | succ n ih =>
    have small : n < 3 := le
    have whole : pageSize * vpn addr + addr % pageSize = addr := by
      simp only [vpn, pageSize]
      omega
    have image : vpn (appFirst + n * appSlotSize) = 0x41000 + n * 32 := by
      simp only [vpn, pageSize, appFirst, appSlotSize]
      omega
    have stack : vpn (appFirst + n * appSlotSize + appSlotSize - appStackSize) = 0x4101c + n * 32 := by
      simp only [vpn, pageSize, appFirst, appSlotSize, appStackSize]
      omega
    have inImage : InImage n addr ↔ 0x41000 + n * 32 ≤ vpn addr ∧ vpn addr < 0x41000 + n * 32 + 16 := by
      simp only [InImage, vpn, pageSize, appFirst, appSlotSize, appImageSize]
      omega
    have inStack : InStack n addr ↔ 0x4101c + n * 32 ≤ vpn addr ∧ vpn addr < 0x4101c + n * 32 + 4 := by
      simp only [InStack, vpn, pageSize, appFirst, appSlotSize, appStackSize]
      omega
    rw [slotsMapped, slotMapped, image, stack]
    by_cases here : InStack n addr
    · have page : appFirst + n * appSlotSize + appSlotSize - appStackSize + pageSize * (vpn addr - (0x4101c + n * 32)) =
          pageSize * vpn addr := by
        have := inStack.1 here
        simp only [pageSize, appFirst, appSlotSize, appStackSize]
        omega
      rw [decode_inside (by simp only [pageSize, appFirst, appSlotSize, appStackSize]; omega)
        (by simp only [pageSize, appFirst, appSlotSize, appStackSize]; omega) (by decide) (inStack.1 here), page, whole,
        if_neg, if_pos ⟨n, Nat.lt_succ_self n, here⟩]
      intro found
      obtain ⟨i, _, inside⟩ := found
      exact not_image_of_stack here rfl inside
    · rw [mapped_outside fun _ => fun inside => here (inStack.2 inside)]
      by_cases there : InImage n addr
      · have page : appFirst + n * appSlotSize + pageSize * (vpn addr - (0x41000 + n * 32)) = pageSize * vpn addr := by
          have := inImage.1 there
          simp only [pageSize, appFirst, appSlotSize]
          omega
        rw [decode_inside (by simp only [pageSize, appFirst, appSlotSize]; omega)
          (by simp only [pageSize, appFirst, appSlotSize]; omega) (by decide) (inImage.1 there), page, whole,
          if_pos ⟨n, Nat.lt_succ_self n, there⟩]
      · rw [mapped_outside fun _ => fun inside => there (inImage.2 inside), ih (by omega)]
        have images : (∃ i < n + 1, InImage i addr) ↔ ∃ i < n, InImage i addr := by
          rw [Nat.exists_lt_succ_right]
          simp [there]
        have inStacks : (∃ i < n + 1, InStack i addr) ↔ ∃ i < n, InStack i addr := by
          rw [Nat.exists_lt_succ_right]
          simp [here]
        simp only [images, inStacks]

/-! ## The complete map -/

/-- The state at the end of `mmu_init`: the tables, and the entry of
`idmap_pg_dir` that was copied from `swapper_pg_dir`. -/
structure AfterInit (l : PgLayout) (k : KernelSymbols) (st st' : PgState) (tables : List (Table Root)) : Prop where
  rep : Rep l.root l.pool st tables (slotsMapped (kernelMapped k) appCount)
  sub : tables ⊆ allTables
  final : st' = st.store (l.idmapPgDir + 8 * pgdIndex physOffset) (st.mem (l.swapperPgDir + 8 * pgdIndex pageOffset))

variable {st' : PgState}

/-- Only the shared entry was written last. -/
theorem AfterInit.cell {f : Frame Root} {i : Nat} (after : AfterInit l k st st' tables) (h : Placed l.root l.pool)
    (valid : f.Valid l.pool) (lt : i < 512) (other : ¬ (f = .root .idmap ∧ i = 1)) :
    st'.mem (f.cell l.root l.pool i) = content l.pool tables (slotsMapped (kernelMapped k) appCount) f i := by
  have idmap : (Frame.root Root.idmap).cell l.root l.pool 1 = l.idmapPgDir + 8 * pgdIndex physOffset := by
    rw [show pgdIndex physOffset = 1 by decide]
    rfl
  rw [after.final, ← idmap, h.store_cell valid (g := .root .idmap) trivial lt (by decide), if_neg other,
    after.rep.cells f valid i lt]

theorem AfterInit.shared (after : AfterInit l k st st' tables) :
    st'.mem (l.idmapPgDir + 8 * 1) = tableEntry l.pool tables (.mid .swapper 256) := by
  rw [after.final, show pgdIndex physOffset = 1 by decide, show pgdIndex pageOffset = 256 by decide]
  refine (if_pos rfl).trans ?_
  exact after.rep.cells (.root .swapper) trivial 256 (by decide)

theorem AfterInit.holds (after : AfterInit l k st st' tables) (h : Placed l.root l.pool) :
    HoldsPool l.root l.pool st'.mem tables (slotsMapped (kernelMapped k) appCount) := by
  intro n lt i lt'
  exact after.cell h lt lt' (by simp)

/-- The walk from `swapper_pg_dir` and from `user_pg_dir`. -/
theorem AfterInit.translate_root {r : Root} {addr : Nat} (after : AfterInit l k st st' tables) (h : Placed l.root l.pool)
    (own : r ≠ .idmap) :
    translate st'.mem (l.root r) addr = decode (slotsMapped (kernelMapped k) appCount r (vpn addr)) addr := by
  have lt : vpn addr / 2 ^ 18 < 512 := by simp only [vpn]; omega
  have whole : vpn addr / 2 ^ 18 * 2 ^ 18 + vpn addr % 2 ^ 18 = vpn addr := by omega
  have entry : st'.mem (l.root r + 8 * pgdIndex addr) = tableEntry l.pool tables (.mid r (vpn addr / 2 ^ 18)) := by
    rw [pgdIndex_eq]
    exact after.cell (f := .root r) h trivial lt (by simp [own])
  rw [translate_spec h after.rep (after.holds h) entry, whole]

theorem AfterInit.swapper {addr : Nat} (after : AfterInit l k st st' tables) (h : Placed l.root l.pool)
    (linked : k.Linked) (half : 2 ^ 64 - 2 ^ 39 ≤ addr) (word : addr < 2 ^ 64) :
    translate st'.mem l.swapperPgDir addr = swapperMap k addr := by
  rw [show l.swapperPgDir = l.root .swapper from rfl, after.translate_root h (by decide),
    slotsMapped_other (by decide), swapperMap]
  by_cases inside : 2 ^ 26 ≤ vpn addr ∧ vpn addr < 2 ^ 26 + 32768
  · have page : physOffset + pageSize * (vpn addr - 2 ^ 26) + addr % pageSize = physOffset + (addr - pageOffset) := by
      simp only [vpn, pageSize, pageOffset] at *
      omega
    rw [decode_linear linked inside, page, if_pos]
    simp only [vpn, pageSize, pageOffset, ramSize] at *
    omega
  · have page : pageSize * vpn addr + addr % pageSize = addr - ioOffset := by
      simp only [vpn, pageSize, ioOffset] at *
      omega
    have outside : ¬ (pageOffset ≤ addr ∧ addr < pageOffset + ramSize) := by
      simp only [vpn, pageSize, pageOffset, ramSize] at *
      omega
    have above : ioOffset ≤ addr := half
    rw [decode_device linked inside, page, if_neg outside]
    simp only [above, true_and]

theorem AfterInit.user {addr : Nat} (after : AfterInit l k st st' tables) (h : Placed l.root l.pool)
    (half : addr < 2 ^ 39) : translate st'.mem l.userPgDir addr = userMap addr := by
  rw [show l.userPgDir = l.root .user from rfl, after.translate_root h (by decide), userMap]
  exact decode_slots le_rfl half fun p => kernelMapped_other (by decide)

theorem AfterInit.idmap {addr : Nat} (after : AfterInit l k st st' tables) (h : Placed l.root l.pool)
    (linked : k.Linked) (half : addr < 2 ^ 39) : translate st'.mem l.idmapPgDir addr = idMap k addr := by
  have top : pgdIndex addr = vpn addr / 2 ^ 18 := pgdIndex_eq addr
  by_cases ram : vpn addr / 2 ^ 18 = 1
  · -- the entry is that of the linear map, so the walk goes through its tables
    have entry : st'.mem (l.idmapPgDir + 8 * pgdIndex addr) = tableEntry l.pool tables (.mid .swapper 256) := by
      rw [top, ram]
      exact after.shared
    rw [translate_spec h after.rep (after.holds h) entry, slotsMapped_other (by decide), idMap]
    by_cases inside : vpn addr % 2 ^ 18 < 32768
    · have page : physOffset + pageSize * (256 * 2 ^ 18 + vpn addr % 2 ^ 18 - 2 ^ 26) + addr % pageSize = addr := by
        simp only [vpn, pageSize, physOffset] at *
        omega
      rw [decode_linear linked (by omega), page, if_pos]
      simp only [vpn, pageSize, physOffset, ramSize] at *
      omega
    · rw [decode_device linked (by omega), if_neg, if_neg]
      · simp only [vpn, pageSize, physOffset, ramSize] at *
        omega
      · simp only [InDevice, pageSize]
        omega
  · have absent : Table.mid Root.idmap (vpn addr / 2 ^ 18) ∉ tables := by
      intro mem
      have := after.sub mem
      simp [allTables] at this
    have zero : st'.mem (l.idmapPgDir + 8 * pgdIndex addr) = 0 := by
      rw [top]
      have small : vpn addr / 2 ^ 18 < 512 := by simp only [vpn]; omega
      refine (after.cell (f := .root .idmap) h trivial small fun eq => ram eq.2).trans ?_
      exact if_neg absent
    rw [translate, nextTable_of_zero zero, idMap, if_neg]
    · rfl
    · simp only [vpn, pageSize, physOffset, ramSize] at *
      omega

/-- **The complete address map.** After `mmu_init`, in either half of the address
space, each root maps what its table says and nothing else. -/
theorem complete_address_map (h : Placed l.root l.pool) (linked : k.Linked) (clear : Cleared l st) :
    ∃ st', mmuInit l k st = some st' ∧
      (∀ addr, 2 ^ 64 - 2 ^ 39 ≤ addr → addr < 2 ^ 64 → translate st'.mem l.swapperPgDir addr = swapperMap k addr) ∧
      (∀ addr < 2 ^ 39, translate st'.mem l.userPgDir addr = userMap addr) ∧
      (∀ addr < 2 ^ 39, translate st'.mem l.idmapPgDir addr = idMap k addr) := by
  obtain ⟨st', tables, run, sub, rep⟩ := mmuInit_spec h linked clear
  have after : AfterInit l k st' _ tables := ⟨rep, sub, rfl⟩
  refine ⟨_, run, ?_, ?_, ?_⟩
  · intro addr half word
    exact after.swapper h linked half word
  · intro addr half
    exact after.user h half
  · intro addr half
    exact after.idmap h linked half

end

/-- A layout as the linker makes it. -/
def exampleLayout : PgLayout := ⟨0x40090000, 0x40091000, 0x40092000, 0x40093000⟩

def exampleSymbols : KernelSymbols := ⟨0x40080000, 0x40085000, 0x40085000, 0x40087000⟩

theorem exampleLayout_placed : Placed exampleLayout.root exampleLayout.pool where
  rootAligned := by intro r; cases r <;> decide
  rootBelow := by intro r; cases r <;> decide
  rootDistinct := by intro r r'; cases r <;> cases r' <;> decide
  poolAligned := by decide
  poolBelow := by decide
  apart := by intro r; cases r <;> decide
  countWord := by decide

theorem exampleSymbols_linked : exampleSymbols.Linked := by constructor <;> decide

theorem exampleLayout_cleared : Cleared exampleLayout ⟨fun _ => 0, 0⟩ := ⟨rfl, fun _ _ _ _ => rfl⟩

theorem complete_address_map_example : ∃ st',
    mmuInit exampleLayout exampleSymbols ⟨fun _ => 0, 0⟩ = some st' ∧
    translate st'.mem exampleLayout.swapperPgDir 0xffffffc000085010 = some (0x40085010, pageKernelRo) ∧
    translate st'.mem exampleLayout.userPgDir 0x41010000 = none ∧
    translate st'.mem exampleLayout.idmapPgDir 0x40080000 = some (0x40080000, pageKernelRox) := by
  obtain ⟨st', run, kernel, user, idmap⟩ :=
    complete_address_map exampleLayout_placed exampleSymbols_linked exampleLayout_cleared
  refine ⟨st', run, ?_, ?_, ?_⟩
  · rw [kernel _ (by decide) (by decide)]
    decide
  · rw [user _ (by decide)]
    decide
  · rw [idmap _ (by decide)]
    decide

/-! ## Permissions -/

inductive El
  | el0
  | el1

/-- The mapping lets an exception level write: `AP[2]` is clear, and at EL0
`AP[1]` is set. -/
def Writable (attributes : Nat) : El → Prop
  | .el0 => attributes &&& pteUser ≠ 0 ∧ attributes &&& pteRdonly = 0
  | .el1 => attributes &&& pteRdonly = 0

/-- The mapping lets an exception level execute. -/
def Executable (attributes : Nat) : El → Prop
  | .el0 => attributes &&& pteUxn = 0
  | .el1 => attributes &&& ptePxn = 0

/-- The mapping gives EL0 some access. -/
def AccessibleEl0 (attributes : Nat) : Prop := attributes &&& pteUser ≠ 0 ∨ Executable attributes .el0

instance (attributes : Nat) : (el : El) → Decidable (Writable attributes el)
  | .el0 => inferInstanceAs (Decidable (_ ∧ _))
  | .el1 => inferInstanceAs (Decidable (_ = _))

instance (attributes : Nat) : (el : El) → Decidable (Executable attributes el)
  | .el0 => inferInstanceAs (Decidable (_ = _))
  | .el1 => inferInstanceAs (Decidable (_ = _))

instance (attributes : Nat) : Decidable (AccessibleEl0 attributes) := inferInstanceAs (Decidable (_ ∨ _))

/-- The addresses that a root translates. -/
def Root.Half : Root → Nat → Prop
  | .swapper, addr => 2 ^ 64 - 2 ^ 39 ≤ addr ∧ addr < 2 ^ 64
  | .idmap, addr => addr < 2 ^ 39
  | .user, addr => addr < 2 ^ 39

/-- A root maps an address. -/
structure Maps (l : PgLayout) (st : PgState) (r : Root) (addr x attributes : Nat) : Prop where
  half : r.Half addr
  walk : translate st.mem (l.root r) addr = some (x, attributes)

/-- What is mapped, by kind. -/
inductive MapKind (k : KernelSymbols) : Root → Nat → Nat → Prop
  | linear {r : Root} {x : Nat} : r ≠ .user → physOffset ≤ x → MapKind k r x (linearProt k x)
  | device {x : Nat} : InDevice x → MapKind k .swapper x protDeviceNGnRnE
  | image {i x : Nat} : i < appCount → InImage i x → MapKind k .user x pageReadonlyExec
  | stack {i x : Nat} : i < appCount → InStack i x → MapKind k .user x pageShared

section
variable {l : PgLayout} {k : KernelSymbols} {st st' : PgState} {tables : List (Table Root)} {r : Root}
  {addr x attributes : Nat}

theorem AfterInit.kind (after : AfterInit l k st st' tables) (h : Placed l.root l.pool) (linked : k.Linked)
    (maps : Maps l st' r addr x attributes) : MapKind k r x attributes := by
  obtain ⟨half, walk⟩ := maps
  cases r with
  | swapper =>
    have walk := (after.swapper h linked half.1 half.2).symm.trans walk
    unfold swapperMap at walk
    split at walk
    · obtain ⟨rfl, rfl⟩ := Prod.mk.inj (Option.some_inj.1 walk)
      exact .linear (by decide) (Nat.le_add_right _ _)
    · split at walk
      next device =>
        obtain ⟨rfl, rfl⟩ := Prod.mk.inj (Option.some_inj.1 walk)
        exact .device device.2
      next => cases walk
  | idmap =>
    have walk := (after.idmap h linked half).symm.trans walk
    unfold idMap at walk
    split at walk
    next ram =>
      obtain ⟨rfl, rfl⟩ := Prod.mk.inj (Option.some_inj.1 walk)
      exact .linear (by decide) ram.1
    next => cases walk
  | user =>
    have walk := (after.user h half).symm.trans walk
    unfold userMap at walk
    split at walk
    next image =>
      obtain ⟨rfl, rfl⟩ := Prod.mk.inj (Option.some_inj.1 walk)
      obtain ⟨i, lt, inside⟩ := image
      exact .image lt inside
    next =>
      split at walk
      next stack =>
        obtain ⟨rfl, rfl⟩ := Prod.mk.inj (Option.some_inj.1 walk)
        obtain ⟨i, lt, inside⟩ := stack
        exact .stack lt inside
      next => cases walk

/-- The attributes of the linear map, by segment. -/
theorem linearProt_cases (k : KernelSymbols) (x : Nat) :
    (linearProt k x = pageKernelRox ∧ k.text ≤ x ∧ x < k.etext) ∨
    (linearProt k x = pageKernelRo ∧ ¬ (k.text ≤ x ∧ x < k.etext)) ∨
    (linearProt k x = pageKernel ∧ ¬ (k.text ≤ x ∧ x < k.etext) ∧ ¬ (k.startRodata ≤ x ∧ x < k.endRodata)) := by
  unfold linearProt
  split
  next text => exact .inl ⟨rfl, text⟩
  next text =>
    split
    next => exact .inr (.inl ⟨rfl, text⟩)
    next rodata => exact .inr (.inr ⟨rfl, text, rodata⟩)

/-- Kernel text and read-only data are not writable, under any mapping. -/
theorem MapKind.not_writable (kind : MapKind k r x attributes) (linked : k.Linked)
    (inside : k.text ≤ x ∧ x < k.endRodata) (el : El) : ¬ Writable attributes el := by
  have adjacent := linked.adjacent
  have belowApps := linked.belowApps
  have text := linked.text
  cases kind with
  | linear _ _ =>
    rcases linearProt_cases k x with ⟨eq, _⟩ | ⟨eq, _⟩ | ⟨_, out, out'⟩
    · rw [eq]
      cases el <;> decide
    · rw [eq]
      cases el <;> decide
    · omega
  | device device =>
    unfold InDevice at device
    simp only [physOffset, pageSize] at *
    omega
  | image lt image =>
    unfold InImage at image
    omega
  | stack lt stack =>
    unfold InStack at stack
    simp only [appFirst, appSlotSize, appStackSize] at *
    omega

/-- Only kernel text is executable at EL1. -/
theorem MapKind.executable (kind : MapKind k r x attributes) (exec : Executable attributes .el1) :
    k.text ≤ x ∧ x < k.etext := by
  cases kind with
  | linear _ _ =>
    rcases linearProt_cases k x with ⟨_, text⟩ | ⟨eq, _⟩ | ⟨eq, _⟩
    · exact text
    · rw [eq] at exec
      exact absurd exec (by decide)
    · rw [eq] at exec
      exact absurd exec (by decide)
  | device _ => exact absurd exec (by decide)
  | image _ _ => exact absurd exec (by decide)
  | stack _ _ => exact absurd exec (by decide)

/-- The kernel's own mappings give EL0 no access. -/
theorem MapKind.kernel_only (kind : MapKind k r x attributes) (own : r ≠ .user) : ¬ AccessibleEl0 attributes := by
  cases kind with
  | linear _ _ =>
    rcases linearProt_cases k x with ⟨eq, _⟩ | ⟨eq, _⟩ | ⟨eq, _⟩
    · rw [eq]
      decide
    · rw [eq]
      decide
    · rw [eq]
      decide
  | device _ =>
    decide
  | image _ _ => exact absurd rfl own
  | stack _ _ => exact absurd rfl own

/-- What EL0 reaches belongs to the applications. -/
theorem MapKind.confined (kind : MapKind k r x attributes) (access : AccessibleEl0 attributes) :
    ∃ i < appCount, InImage i x ∨ InStack i x := by
  by_cases own : r = .user
  · subst own
    cases kind with
    | linear own _ => exact absurd rfl own
    | image lt inside => exact ⟨_, lt, .inl inside⟩
    | stack lt inside => exact ⟨_, lt, .inr inside⟩
  · exact absurd access (kind.kernel_only own)

/-- A page that is executable at EL1 is writable under no mapping. -/
theorem MapKind.not_writable_of_executable {r' : Root} {y attributes' : Nat} (linked : k.Linked)
    (kind : MapKind k r x attributes) (kind' : MapKind k r' y attributes') (page : x / pageSize = y / pageSize)
    (exec : Executable attributes' .el1) (el : El) : ¬ Writable attributes el := by
  obtain ⟨c, hc⟩ := linked.textAligned
  obtain ⟨a, ha⟩ := linked.etextAligned
  have inside := kind'.executable exec
  have adjacent := linked.adjacent
  have endRodata := linked.endRodata
  apply kind.not_writable linked
  simp only [pageSize] at *
  omega

/-- A page that one mapping lets an exception level execute is writable at that
level under no mapping. -/
theorem MapKind.not_writable_executable {r' : Root} {y attributes' : Nat} (linked : k.Linked)
    (kind : MapKind k r x attributes) (kind' : MapKind k r' y attributes') (page : x / pageSize = y / pageSize) (el : El) :
    ¬ (Writable attributes el ∧ Executable attributes' el) := by
  intro both
  obtain ⟨write, exec⟩ := both
  cases el with
  | el1 => exact kind.not_writable_of_executable linked kind' page exec .el1 write
  | el0 =>
    have access : AccessibleEl0 attributes := .inl write.1
    have access' : AccessibleEl0 attributes' := .inr exec
    by_cases own : r = .user
    · by_cases own' : r' = .user
      · subst own own'
        cases kind with
        | linear own _ => exact absurd rfl own
        | image _ _ => exact absurd write (by decide)
        | stack _ stack =>
          cases kind' with
          | linear own _ => exact absurd rfl own
          | image _ image => exact not_image_of_stack stack page image
          | stack _ _ => exact absurd exec (by decide)
      · exact kind'.kernel_only own' access'
    · exact kind.kernel_only own access

/-- **W^X, no writable alias, EL0 confinement.** After `mmu_init`, of every
mapping, and of every two mappings of one page. -/
theorem write_xor_execute (h : Placed l.root l.pool) (linked : k.Linked) (clear : Cleared l st) :
    ∃ st', mmuInit l k st = some st' ∧
      (∀ r addr x attributes, Maps l st' r addr x attributes →
        (∀ el, ¬ (Writable attributes el ∧ Executable attributes el)) ∧
        (k.text ≤ x ∧ x < k.endRodata → ∀ el, ¬ Writable attributes el) ∧
        (r ≠ .user → ¬ AccessibleEl0 attributes) ∧
        (AccessibleEl0 attributes → ∃ i < appCount, InImage i x ∨ InStack i x) ∧
        (Executable attributes .el1 → k.text ≤ x ∧ x < k.etext)) ∧
      (∀ r addr x attributes r' addr' x' attributes', Maps l st' r addr x attributes →
        Maps l st' r' addr' x' attributes' → x / pageSize = x' / pageSize →
        (∀ el, ¬ (Writable attributes el ∧ Executable attributes' el)) ∧
        (Executable attributes' .el1 → ∀ el, ¬ Writable attributes el)) := by
  obtain ⟨st', tables, run, sub, rep⟩ := mmuInit_spec h linked clear
  have after : AfterInit l k st' _ tables := ⟨rep, sub, rfl⟩
  refine ⟨_, run, ?_, ?_⟩
  · intro r addr x attributes maps
    have kind := after.kind h linked maps
    exact ⟨kind.not_writable_executable linked kind rfl, kind.not_writable linked, kind.kernel_only, kind.confined,
      kind.executable⟩
  · intro r addr x attributes r' addr' x' attributes' maps maps' page
    have kind := after.kind h linked maps
    have kind' := after.kind h linked maps'
    exact ⟨kind.not_writable_executable linked kind' page, kind.not_writable_of_executable linked kind' page⟩

theorem write_xor_execute_example : ∃ st',
    mmuInit exampleLayout exampleSymbols ⟨fun _ => 0, 0⟩ = some st' ∧
    ∀ r addr attributes, Maps exampleLayout st' r addr 0x40080000 attributes → ¬ Writable attributes .el1 := by
  obtain ⟨st', run, single, _⟩ :=
    write_xor_execute exampleLayout_placed exampleSymbols_linked exampleLayout_cleared
  refine ⟨st', run, ?_⟩
  intro r addr attributes maps
  exact (single r addr _ attributes maps).2.1 (by decide) .el1

end

end MiaowOs
