import MiaowOs.Mm.PageTables
import Mathlib

/-!
# Sequences of mappings

Any sequence of `create_pgd_mapping` calls on any set of roots. Each call
overwrites the descriptors of its pages, in the tree of its own root; the tables
that the sequence takes are those on the way to its pages. So a walk finds what
the last call on the root that covers the page has written.
-/

namespace MiaowOs

/-- The halves of the address space that a root can serve. -/
inductive Half
  | low
  | high
deriving DecidableEq

def Half.start : Half → Nat
  | .low => 0
  | .high => 2 ^ 64 - 2 ^ 39

/-- An address of the half. -/
def Half.Mem (h : Half) (addr : Nat) : Prop := h.start ≤ addr ∧ addr < h.start + 2 ^ 39

/-- A call of `create_pgd_mapping`. -/
structure Mapping (ι : Type) where
  root : ι
  phys : Nat
  virt : Nat
  size : Nat
  prot : Nat

section
variable {ι : Type}

/-- The arguments are page aligned, the pages lie below `2 ^ 48` and in one half,
and the protection is not zero and leaves the address field alone. -/
structure Mapping.Ok (half : ι → Half) (m : Mapping ι) : Prop where
  phys : pageSize ∣ m.phys
  virt : pageSize ∣ m.virt
  size : pageSize ∣ m.size
  below : m.phys + m.size ≤ 2 ^ 48
  prot : m.prot ≠ 0
  field : m.prot &&& pteAddrMask = 0
  start : (half m.root).start ≤ m.virt
  stop : m.virt + m.size ≤ (half m.root).start + 2 ^ 39

/-- The pages of the call lie in the half of its root, from one page boundary to
another. -/
structure Mapping.Fits (half : ι → Half) (m : Mapping ι) : Prop where
  virt : pageSize ∣ m.virt
  size : pageSize ∣ m.size
  start : (half m.root).start ≤ m.virt
  stop : m.virt + m.size ≤ (half m.root).start + 2 ^ 39

/-- The call maps the page of the address in the root. -/
def Mapping.Covers (m : Mapping ι) (r : ι) (addr : Nat) : Prop :=
  m.root = r ∧ m.virt ≤ addr ∧ addr < m.virt + m.size

instance [DecidableEq ι] (m : Mapping ι) (r : ι) (addr : Nat) : Decidable (m.Covers r addr) :=
  inferInstanceAs (Decidable (_ ∧ _ ∧ _))

/-- The descriptor the call writes for the page of the address. -/
def Mapping.descriptor (m : Mapping ι) (addr : Nat) : Nat :=
  m.phys + pageSize * ((addr - m.virt) / pageSize) ||| m.prot

/-- The descriptor of the last call on the root that covers the page. -/
def lastWritten [DecidableEq ι] (calls : List (Mapping ι)) (r : ι) (addr : Nat) : Option Nat :=
  (calls.reverse.find? (·.Covers r addr)).map (·.descriptor addr)

/-- The calls one after the other. -/
def runMappings (pool : Pool) (root : ι → Nat) (st : PgState) (calls : List (Mapping ι)) : Option PgState :=
  calls.foldlM (fun st m => createPgdMapping pool st (root m.root) m.phys m.virt m.size m.prot) st

/-- The tables on the way to the pages of the calls. -/
def neededTables (calls : List (Mapping ι)) : Set (Table ι) :=
  {t | ∃ m ∈ calls, ∃ addr, m.virt ≤ addr ∧ addr < m.virt + m.size ∧
    (t = midOf m.root (vpn addr) ∨ t = lowOf m.root (vpn addr))}

/-- Roots and pool are clear. -/
structure Zeroed (root : ι → Nat) (pool : Pool) (st : PgState) : Prop where
  used : st.used = 0
  cells : ∀ f : Frame ι, f.Valid pool → ∀ i < 512, st.mem (f.cell root pool i) = 0

/-- The descriptor that a three-level walk finds; 0 is no page. -/
def findPage (mem : Nat → Nat) (root addr : Nat) : Option Nat := (walkTo mem root addr).filter (· ≠ 0)

variable {root : ι → Nat} {pool : Pool} {half : ι → Half} {st : PgState} {calls : List (Mapping ι)}
  {m : Mapping ι} {leaf : ι → Nat → Nat} {tables : List (Table ι)} {r : ι} {addr : Nat}

/-! ## Pages of a half -/

theorem Half.vpn_eq {h : Half} (mem : h.Mem addr) : vpn addr = (addr - h.start) / pageSize := by
  obtain ⟨low, high⟩ := mem
  cases h with
  | low =>
    simp only [Half.start, vpn, pageSize] at *
    omega
  | high =>
    simp only [Half.start, vpn, pageSize] at *
    omega

theorem Half.start_dvd (h : Half) : pageSize ∣ h.start := by
  cases h with
  | low => exact Nat.dvd_zero _
  | high => decide

theorem Mapping.Ok.fits (ok : m.Ok half) : m.Fits half := ⟨ok.virt, ok.size, ok.start, ok.stop⟩

theorem Mapping.Fits.whole (fits : m.Fits half) : pageSize * (m.size / pageSize) = m.size :=
  Nat.mul_div_cancel' fits.size

theorem Mapping.Fits.below (fits : m.Fits half) : m.virt + m.size ≤ 2 ^ 64 := by
  have stop := fits.stop
  have top : (half m.root).start + 2 ^ 39 ≤ 2 ^ 64 := by cases half m.root <;> decide
  omega

/-- The pages of a call, by their numbers. -/
theorem Mapping.Fits.vpn_le (fits : m.Fits half) : vpn m.virt + m.size / pageSize ≤ 2 ^ 27 := by
  have whole := fits.whole
  have start := fits.start
  have stop := fits.stop
  rcases Nat.eq_zero_or_pos (m.size / pageSize) with none | some
  · have : vpn m.virt < 2 ^ 27 := Nat.mod_lt _ (by decide)
    omega
  · have mem : (half m.root).Mem m.virt := ⟨start, by simp only [pageSize] at *; omega⟩
    rw [Half.vpn_eq mem]
    simp only [pageSize] at *
    omega

/-- The pages of a call, counted from the start of the half. -/
theorem Mapping.Fits.page_iff (fits : m.Fits half) (mem : (half m.root).Mem addr) :
    vpn m.virt ≤ vpn addr ∧ vpn addr < vpn m.virt + m.size / pageSize ↔ m.virt ≤ addr ∧ addr < m.virt + m.size := by
  have whole := fits.whole
  have start := fits.start
  have stop := fits.stop
  obtain ⟨first, virt⟩ := fits.virt
  obtain ⟨s, aligned⟩ := (half m.root).start_dvd
  rcases Nat.eq_zero_or_pos (m.size / pageSize) with none | some
  · rw [none, Nat.mul_zero] at whole
    omega
  · have inside : (half m.root).Mem m.virt := ⟨start, by simp only [pageSize] at *; omega⟩
    rw [Half.vpn_eq mem, Half.vpn_eq inside]
    obtain ⟨low, high⟩ := mem
    simp only [pageSize] at *
    omega

/-- The place of a page among those of a call. -/
theorem Mapping.Fits.page_sub (fits : m.Fits half) (mem : (half m.root).Mem addr) (low : m.virt ≤ addr)
    (high : addr < m.virt + m.size) : vpn addr - vpn m.virt = (addr - m.virt) / pageSize := by
  have start := fits.start
  have stop := fits.stop
  obtain ⟨first, virt⟩ := fits.virt
  obtain ⟨s, aligned⟩ := (half m.root).start_dvd
  have inside : (half m.root).Mem m.virt := ⟨start, by omega⟩
  rw [Half.vpn_eq mem, Half.vpn_eq inside]
  simp only [pageSize] at *
  omega

/-- A number of a page of the call is that of one of its addresses. -/
theorem Mapping.Fits.exists_addr_iff (fits : m.Fits half) {q : Nat → Prop} :
    (∃ p, vpn m.virt ≤ p ∧ p < vpn m.virt + m.size / pageSize ∧ q p) ↔
      ∃ addr, m.virt ≤ addr ∧ addr < m.virt + m.size ∧ q (vpn addr) := by
  have whole := fits.whole
  have top := fits.vpn_le
  constructor
  · rintro ⟨p, low, high, holds⟩
    have page : vpn (m.virt + pageSize * (p - vpn m.virt)) = p := by
      rw [vpn_add fits.virt (by omega)]
      omega
    have inside : pageSize * (p - vpn m.virt) < pageSize * (m.size / pageSize) :=
      Nat.mul_lt_mul_of_pos_left (by omega) (by decide)
    exact ⟨m.virt + pageSize * (p - vpn m.virt), Nat.le_add_right _ _, by omega, by rwa [page]⟩
  · rintro ⟨addr, low, high, holds⟩
    have mem : (half m.root).Mem addr := by
      have start := fits.start
      have stop := fits.stop
      exact ⟨by omega, by omega⟩
    obtain ⟨first, last⟩ := (fits.page_iff mem).2 ⟨low, high⟩
    exact ⟨vpn addr, first, last, holds⟩

/-! ## The tables of the calls -/

theorem neededTables_finite (calls : List (Mapping ι)) : (neededTables calls).Finite := by
  have each : ∀ m : Mapping ι, {t : Table ι | ∃ addr, m.virt ≤ addr ∧ addr < m.virt + m.size ∧
      (t = midOf m.root (vpn addr) ∨ t = lowOf m.root (vpn addr))}.Finite := by
    intro m
    apply Set.Finite.subset (((Set.finite_Ico m.virt (m.virt + m.size)).image fun addr =>
      midOf m.root (vpn addr)).union ((Set.finite_Ico m.virt (m.virt + m.size)).image fun addr =>
      lowOf m.root (vpn addr)))
    rintro t ⟨addr, low, high, rfl | rfl⟩
    · exact .inl ⟨addr, ⟨low, high⟩, rfl⟩
    · exact .inr ⟨addr, ⟨low, high⟩, rfl⟩
  apply Set.Finite.subset (s := ⋃ m ∈ {m | m ∈ calls}, _) (Set.Finite.biUnion calls.finite_toSet fun m _ => each m)
  rintro t ⟨m, mem, found⟩
  exact Set.mem_biUnion mem found

theorem mem_neededTables_concat {t : Table ι} : t ∈ neededTables (calls ++ [m]) ↔ t ∈ neededTables calls ∨
    ∃ addr, m.virt ≤ addr ∧ addr < m.virt + m.size ∧ (t = midOf m.root (vpn addr) ∨ t = lowOf m.root (vpn addr)) := by
  constructor
  · rintro ⟨m', mem, found⟩
    rcases List.mem_append.1 mem with mem | mem
    · exact .inl ⟨m', mem, found⟩
    · obtain rfl := List.mem_singleton.1 mem
      exact .inr found
  · rintro (⟨m', mem, found⟩ | found)
    · exact ⟨m', List.mem_append_left _ mem, found⟩
    · exact ⟨m, by simp, found⟩

theorem neededTables_mono {calls' : List (Mapping ι)} (sub : calls ⊆ calls') :
    neededTables calls ⊆ neededTables calls' :=
  fun _ ⟨m, mem, found⟩ => ⟨m, sub mem, found⟩

theorem neededTables_le {calls' : List (Mapping ι)} (sub : calls ⊆ calls') :
    (neededTables calls).ncard ≤ (neededTables calls').ncard :=
  Set.ncard_le_ncard (neededTables_mono sub) (neededTables_finite calls')

/-! ## A run -/

variable [DecidableEq ι]

/-- A call overwrites the descriptors of the pages that it covers. -/
theorem Mapping.Fits.overwritten_apply (fits : m.Fits half) (room : m.phys + m.size ≤ 2 ^ 64)
    (mem : (half r).Mem addr) :
    overwritten leaf m.root (vpn m.virt) (m.size / pageSize) (fun k => add64 m.phys (pageSize * k) ||| m.prot)
      r (vpn addr) = if m.Covers r addr then m.descriptor addr else leaf r (vpn addr) := by
  rw [overwritten_eq_mapped (by rwa [fits.whole])]
  unfold mapped
  by_cases covers : m.Covers r addr
  · rw [if_pos covers]
    obtain ⟨rfl, low, high⟩ := covers
    rw [if_pos ⟨rfl, (fits.page_iff mem).2 ⟨low, high⟩⟩, fits.page_sub mem low high]
    rfl
  · rw [if_neg covers]
    apply if_neg
    rintro ⟨rfl, inside⟩
    exact covers ⟨rfl, (fits.page_iff mem).1 inside⟩

theorem lastWritten_append :
    lastWritten (calls ++ [m]) r addr =
      if m.Covers r addr then some (m.descriptor addr) else lastWritten calls r addr := by
  unfold lastWritten
  rw [List.reverse_append, List.reverse_singleton, List.singleton_append, List.find?_cons]
  by_cases covers : m.Covers r addr
  · simp [covers]
  · simp [covers]

theorem lastWritten_ne_zero (ok : ∀ m ∈ calls, m.Ok half) : lastWritten calls r addr ≠ some 0 := by
  intro zero
  obtain ⟨m, found, descriptor⟩ := Option.map_eq_some_iff.1 zero
  have mem := List.mem_reverse.1 (List.mem_of_find?_eq_some found)
  exact (ok m mem).prot (Nat.or_eq_zero_iff.1 descriptor).2

theorem Zeroed.rep (zeroed : Zeroed root pool st) : Rep root pool st [] (fun _ _ => 0) where
  nodup := List.nodup_nil
  used := zeroed.used
  fits := Nat.zero_le _
  rooted := by simp
  slots := by simp
  bare := fun _ _ _ _ _ _ _ => rfl
  cells := by
    intro f valid i lt
    rw [zeroed.cells f valid i lt]
    cases f with
    | root r => simp [content, tableEntry]
    | table k => simp [content]

/-- The run goes through and takes the tables it needs, each of them once; if no
physical address wraps, the leaves are those of the last calls. -/
theorem runMappings_within (allowed : List (Table ι)) (h : Placed root pool) (zeroed : Zeroed root pool st)
    (enough : allowed.length ≤ pool.count) (fits : ∀ m ∈ calls, m.Fits half)
    (needed : ∀ t ∈ neededTables calls, t ∈ allowed) : ∃ st' tables leaf,
      runMappings pool root st calls = some st' ∧ Rep root pool st' tables leaf ∧
      (∀ t, t ∈ tables ↔ t ∈ neededTables calls) ∧
      ((∀ m ∈ calls, m.phys + m.size ≤ 2 ^ 64) →
        ∀ r addr, (half r).Mem addr → leaf r (vpn addr) = (lastWritten calls r addr).getD 0) := by
  induction calls using List.reverseRecOn with
  | nil => exact ⟨st, [], _, rfl, zeroed.rep, fun t => by simp [neededTables], fun _ _ _ _ => rfl⟩
  | append_singleton calls m ih =>
    have fitsLast := fits m (by simp)
    have whole := fitsLast.whole
    obtain ⟨st₁, tables₁, leaf₁, run₁, rep₁, takes₁, leaves₁⟩ := ih
      (fun m' mem => fits m' (List.mem_append_left _ mem))
      (fun t mem => needed t (mem_neededTables_concat.2 (.inl mem)))
    have sub₁ : tables₁ ⊆ allowed := fun t mem =>
      needed t (mem_neededTables_concat.2 (.inl ((takes₁ t).1 mem)))
    have tablesFor : ∀ p, vpn m.virt ≤ p → p < vpn m.virt + m.size / pageSize →
        midOf m.root p ∈ allowed ∧ lowOf m.root p ∈ allowed := by
      intro p low high
      have table : ∀ t, t = midOf m.root p ∨ t = lowOf m.root p → t ∈ allowed := by
        intro t which
        apply needed
        apply mem_neededTables_concat.2
        have pages := fitsLast.exists_addr_iff (q := fun p => t = midOf m.root p ∨ t = lowOf m.root p)
        exact .inr (pages.1 ⟨p, low, high, which⟩)
      exact ⟨table _ (.inl rfl), table _ (.inr rfl)⟩
    obtain ⟨st₂, tables₂, run₂, takes₂, rep₂⟩ := createPgdMapping_takes m.phys m.prot h fitsLast.virt
      (by rw [whole]; exact fitsLast.below) fitsLast.vpn_le enough tablesFor sub₁ rep₁
    rw [whole] at run₂
    refine ⟨st₂, tables₂, _, ?_, rep₂, ?_, ?_⟩
    · rw [runMappings, List.foldlM_append]
      exact Option.bind_eq_some_iff.2 ⟨st₁, run₁, by simpa using run₂⟩
    · intro t
      rw [takes₂ t, takes₁ t, mem_neededTables_concat, fitsLast.exists_addr_iff]
    · intro room r addr mem
      rw [fitsLast.overwritten_apply (room m (by simp)) mem, lastWritten_append,
        leaves₁ (fun m' mem' => room m' (List.mem_append_left _ mem')) r addr mem]
      split <;> rfl

/-- **A run takes the tables it needs**, if the pool has room for them. -/
theorem runMappings_spec (h : Placed root pool) (zeroed : Zeroed root pool st)
    (enough : (neededTables calls).ncard ≤ pool.count) (fits : ∀ m ∈ calls, m.Fits half) : ∃ st' tables leaf,
      runMappings pool root st calls = some st' ∧ Rep root pool st' tables leaf ∧
      (∀ t, t ∈ tables ↔ t ∈ neededTables calls) ∧
      ((∀ m ∈ calls, m.phys + m.size ≤ 2 ^ 64) →
        ∀ r addr, (half r).Mem addr → leaf r (vpn addr) = (lastWritten calls r addr).getD 0) := by
  have finite := neededTables_finite calls
  apply runMappings_within finite.toFinset.toList h zeroed _ fits
  · intro t mem
    exact Finset.mem_toList.2 (finite.mem_toFinset.2 mem)
  · rwa [Finset.length_toList, ← Set.ncard_eq_toFinset_card _ finite]

/-- The walk finds the leaf, unless it is empty. -/
theorem findPage_spec (h : Placed root pool) (rep : Rep root pool st tables leaf) :
    findPage st.mem (root r) addr = if leaf r (vpn addr) = 0 then none else some (leaf r (vpn addr)) := by
  have holds : HoldsPool root pool st.mem tables leaf := fun k lt i lt' => rep.cells (.table k) lt i lt'
  have index : pgdIndex addr < 512 := by
    have : vpn addr < 2 ^ 27 := Nat.mod_lt _ (by decide)
    rw [pgdIndex_eq]
    omega
  have entry : st.mem (root r + 8 * pgdIndex addr) = tableEntry pool tables (.mid r (pgdIndex addr)) :=
    rep.cells (.root r) trivial _ index
  have page : pgdIndex addr * 2 ^ 18 + vpn addr % 2 ^ 18 = vpn addr := by
    rw [pgdIndex_eq]
    omega
  have found := walkTo_spec h rep holds entry
  rw [page] at found
  rw [findPage, ← found]
  cases walkTo st.mem (root r) addr with
  | none => rfl
  | some descriptor =>
    by_cases zero : descriptor = 0
    · simp [zero]
    · simp [zero]

/-- After a run, a walk finds what the last call on the root has written. -/
theorem runMappings_findPage (h : Placed root pool) (zeroed : Zeroed root pool st) (ok : ∀ m ∈ calls, m.Ok half)
    (enough : (neededTables calls).ncard ≤ pool.count) : ∃ st', runMappings pool root st calls = some st' ∧
      ∀ r addr, (half r).Mem addr → findPage st'.mem (root r) addr = lastWritten calls r addr := by
  obtain ⟨st', tables, leaf, run, rep, -, leaves⟩ := runMappings_spec h zeroed enough fun m mem => (ok m mem).fits
  have room : ∀ m ∈ calls, m.phys + m.size ≤ 2 ^ 64 := fun m mem => (ok m mem).below.trans (by decide)
  refine ⟨st', run, fun r addr mem => ?_⟩
  rw [findPage_spec h rep, leaves room r addr mem]
  cases written : lastWritten calls r addr with
  | none => rfl
  | some descriptor =>
    have nonzero : descriptor ≠ 0 := fun zero => lastWritten_ne_zero ok (zero ▸ written)
    exact if_neg nonzero

/-- Calls on other roots are not seen. -/
theorem lastWritten_append_of_ne {later : List (Mapping ι)} (other : ∀ m ∈ later, m.root ≠ r) :
    lastWritten (calls ++ later) r addr = lastWritten calls r addr := by
  induction later using List.reverseRecOn with
  | nil => rw [List.append_nil]
  | append_singleton later m ih =>
    rw [← List.append_assoc, lastWritten_append, if_neg fun covers => other m (by simp) covers.1]
    exact ih fun m' mem => other m' (List.mem_append_left _ mem)

/-- **The last writer wins**: from clear roots and a clear pool that has room for
the tables, every sequence of calls goes through; a walk from a root finds the
descriptor of the last call on the root that covers the page, and none if there
is no such call; and a walk from a root finds the same before and after calls on
other roots. -/
theorem last_writer_wins (h : Placed root pool) (zeroed : Zeroed root pool st) (ok : ∀ m ∈ calls, m.Ok half)
    (enough : (neededTables calls).ncard ≤ pool.count) : ∃ st', runMappings pool root st calls = some st' ∧
      (∀ r addr, (half r).Mem addr → findPage st'.mem (root r) addr = lastWritten calls r addr) ∧
      ∀ earlier later, calls = earlier ++ later → ∃ st₁, runMappings pool root st earlier = some st₁ ∧
        ∀ r, (∀ m ∈ later, m.root ≠ r) → ∀ addr, (half r).Mem addr →
          findPage st'.mem (root r) addr = findPage st₁.mem (root r) addr := by
  obtain ⟨st', run, finds⟩ := runMappings_findPage h zeroed ok enough
  refine ⟨st', run, finds, ?_⟩
  rintro earlier later rfl
  obtain ⟨st₁, run₁, finds₁⟩ := runMappings_findPage h zeroed (fun m mem => ok m (List.mem_append_left _ mem))
    ((neededTables_le (List.subset_append_left earlier later)).trans enough)
  refine ⟨st₁, run₁, fun r other addr mem => ?_⟩
  rw [finds r addr mem, finds₁ r addr mem, lastWritten_append_of_ne other]

end

/-- Two overlapping calls on a root of the low half and one at the very end of
the high half. -/
def threeMappings : List (Mapping Bool) :=
  [⟨false, 0x40000000, 0x1000, 0x2000, 3⟩, ⟨false, 0x50000000, 0x2000, 0x1000, 0x403⟩,
    ⟨true, 0x60000000, 0xfffffffffffff000, 0x1000, 3⟩]

theorem threeMappings_needed : (neededTables threeMappings).ncard ≤ 4 := by
  have sub : neededTables threeMappings ⊆
      (({.mid false 0, .low false 0 0, .mid true 511, .low true 511 511} : Finset (Table Bool)) : Set (Table Bool)) := by
    rintro t ⟨m, mem, addr, low, high, found⟩
    simp only [threeMappings, List.mem_cons, List.not_mem_nil, or_false] at mem
    rcases mem with rfl | rfl | rfl
    · have page : vpn addr / 2 ^ 18 = 0 ∧ vpn addr / 512 % 512 = 0 := by
        simp only [vpn, pageSize] at *
        omega
      rw [midOf, lowOf, page.1, page.2] at found
      rcases found with rfl | rfl <;> simp
    · have page : vpn addr / 2 ^ 18 = 0 ∧ vpn addr / 512 % 512 = 0 := by
        simp only [vpn, pageSize] at *
        omega
      rw [midOf, lowOf, page.1, page.2] at found
      rcases found with rfl | rfl <;> simp
    · have page : vpn addr / 2 ^ 18 = 511 ∧ vpn addr / 512 % 512 = 511 := by
        simp only [vpn, pageSize] at *
        omega
      rw [midOf, lowOf, page.1, page.2] at found
      rcases found with rfl | rfl <;> simp
  refine (Set.ncard_le_ncard sub (Finset.finite_toSet _)).trans ?_
  rw [Set.ncard_coe_finset]
  decide

theorem last_writer_wins_three : ∃ st',
    runMappings ⟨0x10000, 4⟩ (fun r => if r then 0x2000 else 0x1000) ⟨fun _ => 0, 0⟩ threeMappings = some st' ∧
      findPage st'.mem 0x1000 0x1abc = some 0x40000003 ∧ findPage st'.mem 0x1000 0x2abc = some 0x50000403 ∧
      findPage st'.mem 0x1000 0x3000 = none ∧ findPage st'.mem 0x2000 0xffffffffffffffff = some 0x60000003 := by
  have placed : Placed (fun r : Bool => if r then 0x2000 else 0x1000) ⟨0x10000, 4⟩ := by
    constructor <;> decide
  have zeroed : Zeroed (fun r : Bool => if r then 0x2000 else 0x1000) ⟨0x10000, 4⟩ ⟨fun _ => 0, 0⟩ :=
    ⟨rfl, fun _ _ _ _ => rfl⟩
  have ok : ∀ m ∈ threeMappings, m.Ok fun r => if r then .high else .low := by
    intro m mem
    simp only [threeMappings, List.mem_cons, List.not_mem_nil, or_false] at mem
    rcases mem with rfl | rfl | rfl <;> constructor <;> decide
  obtain ⟨st', run, finds, -⟩ := last_writer_wins placed zeroed ok threeMappings_needed
  refine ⟨st', run, ?_, ?_, ?_, ?_⟩
  · exact (finds false 0x1abc (by constructor <;> decide)).trans (by decide)
  · exact (finds false 0x2abc (by constructor <;> decide)).trans (by decide)
  · exact (finds false 0x3000 (by constructor <;> decide)).trans (by decide)
  · exact (finds true 0xffffffffffffffff (by constructor <;> decide)).trans (by decide)

end MiaowOs
