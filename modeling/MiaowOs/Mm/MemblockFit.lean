import MiaowOs.Mm.MemblockRuns

/-!
# Lowest fit

`memblock_phys_alloc` rounds the start of each free range up to the alignment
and takes the first range in which the request still fits. Rounding is done in
64 bits: for a range that starts less than `align` below the top of the
address space the sum wraps and the rounded start is 0, which passes the test
for a fit although nothing there is free. A nonzero result is always the
lowest aligned fit.
-/

namespace MiaowOs
open Spans

/-- `candidate` of `memblock_phys_alloc`. -/
def fitAt (align start : Nat) : Nat := sub64 (add64 start align) 1 &&& not64 (sub64 align 1)

/-- The least multiple of `align` from `start` on. -/
def alignUp (align start : Nat) : Nat := align * ((start + (align - 1)) / align)

/-- The candidate of the first free range that passes the test. -/
def firstFit (size align : Nat) : List (Nat × Nat) → Option Nat
  | [] => none
  | (start, limit) :: ranges =>
    if fitAt align start < limit ∧ limit - fitAt align start ≥ size then some (fitAt align start)
    else firstFit size align ranges

section
variable {memblock : Memblock} {memory reserved : List MemblockRegion} {cursor : MemblockCursor}
  {ranges : List (Nat × Nat)} {size align fuel start limit k q : Nat}

/-! ## Rounding up -/

/-- Masking off the low bits rounds down to a power of two. -/
theorem and_not64_mask {x : Nat} (lt : x < 2 ^ 64) : x &&& not64 (2 ^ k - 1) = 2 ^ k * (x / 2 ^ k) := by
  apply Nat.eq_of_testBit_eq
  intro i
  rw [Nat.testBit_and, not64, Nat.testBit_xor, Nat.testBit_two_pow_sub_one, Nat.testBit_two_pow_sub_one,
    Nat.testBit_two_pow_mul, Nat.testBit_div_two_pow]
  by_cases high : i < 64
  · by_cases low : k ≤ i
    · simp [high, low, Nat.not_lt.2 low, Nat.sub_add_cancel low]
    · simp [high, low, Nat.lt_of_not_le low]
  · have zero : x.testBit i = false :=
      Nat.testBit_lt_two_pow (lt.trans_le (Nat.pow_le_pow_right (by decide) (by omega)))
    by_cases low : k ≤ i
    · simp [zero, low, Nat.sub_add_cancel low]
    · simp [zero, low]

/-- The candidate is the rounded start, or 0 when rounding wraps. -/
theorem fitAt_eq (hk : k < 64) (lt : start < 2 ^ 64) :
    fitAt (2 ^ k) start = if start + (2 ^ k - 1) < 2 ^ 64 then alignUp (2 ^ k) start else 0 := by
  have pos : 0 < 2 ^ k := Nat.two_pow_pos k
  have small : 2 ^ k < 2 ^ 64 := Nat.pow_lt_pow_right (by decide) hk
  have sum : sub64 (add64 start (2 ^ k)) 1 = (start + (2 ^ k - 1)) % 2 ^ 64 := by
    unfold sub64 add64
    omega
  rw [fitAt, sum, sub64_of_le pos small, and_not64_mask (Nat.mod_lt _ (by decide))]
  split
  · next fits => rw [Nat.mod_eq_of_lt fits, alignUp]
  · next wraps =>
    rw [Nat.div_eq_of_lt (by omega), Nat.mul_zero]

theorem alignUp_ge (pos : 0 < align) : start ≤ alignUp align start := by
  have := Nat.div_add_mod (start + (align - 1)) align
  have := Nat.mod_lt (start + (align - 1)) pos
  rw [alignUp]
  omega

theorem alignUp_le (pos : 0 < align) (dvd : align ∣ q) (ge : start ≤ q) : alignUp align start ≤ q := by
  obtain ⟨c, rfl⟩ := dvd
  rw [alignUp]
  refine Nat.mul_le_mul_left align (Nat.le_of_lt_succ ?_)
  rw [Nat.div_lt_iff_lt_mul pos, Nat.mul_comm, Nat.mul_succ]
  omega

/-! ## The first fit on the list of free ranges -/

/-- An aligned place for `size` bytes inside one of the ranges. -/
def Fits (size align : Nat) (ranges : List (Nat × Nat)) (q : Nat) : Prop :=
  align ∣ q ∧ ∃ p ∈ ranges, p.1 ≤ q ∧ q + size ≤ p.2

/-- A range whose start wraps when it is rounded up, large enough for the test. -/
def Wraps (size align : Nat) (ranges : List (Nat × Nat)) : Prop :=
  ∃ p ∈ ranges, uintptrMax < p.1 + (align - 1) ∧ size ≤ p.2

/-- What the search finds: nothing; the lowest fit; or address 0, by wrapping,
when nothing fits. -/
def Found (size align : Nat) (ranges : List (Nat × Nat)) : Option Nat → Prop
  | none => (∀ q, ¬ Fits size align ranges q) ∧ ¬ Wraps size align ranges
  | some c => (Fits size align ranges c ∧ ∀ q < c, ¬ Fits size align ranges q) ∨
    (c = 0 ∧ (∀ q, ¬ Fits size align ranges q) ∧ Wraps size align ranges)

theorem fits_cons {p : Nat × Nat} : Fits size align (p :: ranges) q ↔
    (align ∣ q ∧ p.1 ≤ q ∧ q + size ≤ p.2) ∨ Fits size align ranges q := by
  simp only [Fits, List.mem_cons, exists_eq_or_imp]
  constructor
  · rintro ⟨dvd, here | later⟩
    · exact .inl ⟨dvd, here⟩
    · exact .inr ⟨dvd, later⟩
  · rintro (⟨dvd, here⟩ | ⟨dvd, later⟩)
    · exact ⟨dvd, .inl here⟩
    · exact ⟨dvd, .inr later⟩

/-- An aligned address is at least `align` below the top of the address space. -/
theorem add_le_of_dvd (hk : k < 64) (dvd : 2 ^ k ∣ q) (le : q ≤ uintptrMax) : q + 2 ^ k ≤ 2 ^ 64 := by
  obtain ⟨c, rfl⟩ := dvd
  have split : 2 ^ k * 2 ^ (64 - k) = 2 ^ 64 := by rw [← Nat.pow_add]; congr 1; omega
  have lt : 2 ^ k * c < 2 ^ k * 2 ^ (64 - k) := split ▸ Nat.lt_of_le_of_lt le (by decide)
  rw [← Nat.mul_succ, ← split]
  exact Nat.mul_le_mul_left _ (Nat.lt_of_mul_lt_mul_left lt)

/-- Nothing fits in ranges that start where rounding wraps. -/
theorem not_fits_of_wrap (hk : k < 64) (top : ∀ p ∈ ranges, p.2 ≤ uintptrMax)
    (wrap : ∀ p ∈ ranges, uintptrMax < p.1 + (2 ^ k - 1)) : ¬ Fits size (2 ^ k) ranges q := by
  rintro ⟨dvd, p, mem, le, fits⟩
  have high := wrap p mem
  have low := top p mem
  have := add_le_of_dvd hk dvd (by omega)
  simp only [uintptrMax] at high
  omega

/-- The first range passes the test with a wrapped start: so do the later
ones, and none of them has room. -/
theorem found_wrap {p : Nat × Nat} (hk : k < 64) (sep : Separated Prod.fst Prod.snd (p :: ranges))
    (top : ∀ r ∈ p :: ranges, r.2 ≤ uintptrMax) (wrap : uintptrMax < p.1 + (2 ^ k - 1)) (fits : size ≤ p.2) :
    Found size (2 ^ k) (p :: ranges) (some 0) := by
  have later : ∀ r ∈ p :: ranges, uintptrMax < r.1 + (2 ^ k - 1) := by
    intro r mem
    have above : p.1 ≤ r.1 := sep.ordered.head_le r mem
    omega
  exact .inr ⟨rfl, fun q => not_fits_of_wrap hk top later, p, by simp, wrap, fits⟩

/-- The first range has room at its rounded start: nothing lower fits. -/
theorem found_head {p : Nat × Nat} (sep : Separated Prod.fst Prod.snd (p :: ranges))
    (fits : alignUp (2 ^ k) p.1 + size ≤ p.2) : Found size (2 ^ k) (p :: ranges) (some (alignUp (2 ^ k) p.1)) := by
  have pos : 0 < 2 ^ k := Nat.two_pow_pos k
  refine .inl ⟨⟨⟨_, rfl⟩, p, by simp, alignUp_ge pos, fits⟩, fun q lt => ?_⟩
  rintro ⟨dvd, r, mem, le, -⟩
  have above : p.1 ≤ r.1 := sep.ordered.head_le r mem
  exact (alignUp_le pos dvd (above.trans le)).not_gt lt

/-- A first range that has no room and does not pass by wrapping adds nothing. -/
theorem found_skip {p : Nat × Nat} {result : Option Nat} (no_fit : ∀ q, 2 ^ k ∣ q → p.1 ≤ q → ¬ q + size ≤ p.2)
    (no_wrap : ¬(uintptrMax < p.1 + (2 ^ k - 1) ∧ size ≤ p.2)) (rest : Found size (2 ^ k) ranges result) :
    Found size (2 ^ k) (p :: ranges) result := by
  have fits : ∀ q, Fits size (2 ^ k) (p :: ranges) q ↔ Fits size (2 ^ k) ranges q := fun q => by
    rw [fits_cons]
    exact or_iff_right fun ⟨dvd, le, room⟩ => no_fit q dvd le room
  have wraps : Wraps size (2 ^ k) (p :: ranges) ↔ Wraps size (2 ^ k) ranges := by
    simp only [Wraps, List.mem_cons, exists_eq_or_imp]
    exact or_iff_right no_wrap
  cases result with
  | none => simpa only [Found, fits, wraps] using rest
  | some c => simpa only [Found, fits, wraps] using rest

theorem firstFit_found (hk : k < 64) (sep : Separated Prod.fst Prod.snd ranges)
    (top : ∀ p ∈ ranges, p.2 ≤ uintptrMax) (positive : 0 < size) :
    Found size (2 ^ k) ranges (firstFit size (2 ^ k) ranges) := by
  induction ranges with
  | nil => simp [firstFit, Found, Fits, Wraps]
  | cons p ranges ih =>
    obtain ⟨nonempty, first, rest⟩ := separated_cons.1 sep
    have le : p.2 ≤ uintptrMax := top p (by simp)
    have later := ih rest fun r mem => top r (by simp [mem])
    obtain ⟨start, limit⟩ := p
    simp only at nonempty le
    have candidate : fitAt (2 ^ k) start = _ := fitAt_eq hk (by simp only [uintptrMax] at le; omega)
    rw [firstFit]
    by_cases wrap : start + (2 ^ k - 1) < 2 ^ 64
    · rw [if_pos wrap] at candidate
      rw [candidate]
      split
      · next fits => exact found_head sep (by simp only; omega)
      · next small =>
        refine found_skip (fun q dvd ge room => ?_) (fun ⟨high, _⟩ => ?_) later
        · have low : alignUp (2 ^ k) start ≤ q := alignUp_le (Nat.two_pow_pos k) dvd ge
          simp only at room
          omega
        · simp only [uintptrMax] at high
          omega
    · rw [if_neg wrap] at candidate
      have high : uintptrMax < start + (2 ^ k - 1) := by simp only [uintptrMax]; omega
      rw [candidate]
      split
      · next fits => exact found_wrap hk sep top high (by simp only; omega)
      · next small =>
        refine found_skip (fun q dvd ge room => ?_) (fun ⟨_, fits⟩ => ?_) later
        · simp only at room
          omega
        · simp only at fits
          omega

/-! ## The search of `memblock_phys_alloc` -/

/-- What the call does with the candidate its loop stops at. -/
def takeFit (memblock : Memblock) (size : Nat) : Option Nat → Option (Memblock × Nat)
  | none => some (memblock, 0)
  | some candidate => reserveAt memblock candidate size

theorem fitScan_eq (h : Mapped memblock memory reserved) (ahead : Ahead memory reserved cursor ranges)
    (enough : ranges.length < fuel) :
    fitScan memblock size align fuel cursor = takeFit memblock size (firstFit size align ranges) := by
  induction ranges generalizing cursor fuel with
  | nil =>
    obtain ⟨fuel, rfl⟩ := Nat.exists_eq_add_one_of_ne_zero (Nat.ne_zero_of_lt enough)
    obtain ⟨cursor', next, -⟩ := memblockNextFree_spec h ahead
    rw [fitScan, bind_of_some next]
    rfl
  | cons range ranges ih =>
    obtain ⟨fuel, rfl⟩ := Nat.exists_eq_add_one_of_ne_zero (Nat.ne_zero_of_lt enough)
    obtain ⟨cursor', next, ahead'⟩ := memblockNextFree_spec h ahead
    obtain ⟨start, limit⟩ := range
    have later := ih ahead' (show ranges.length < fuel by simpa using enough)
    have same : sub64 (add64 start align) 1 &&& not64 (sub64 align 1) = fitAt align start := by rw [fitAt]
    rw [fitScan, bind_of_some next, firstFit]
    simp only [List.head?_cons, same]
    by_cases fits : fitAt align start < limit ∧ limit - fitAt align start ≥ size
    · rw [if_pos fits, if_pos fits, takeFit]
    · rw [if_neg fits, if_neg fits]
      exact later

/-- The alignment the call works with. -/
def fitAlign (align : Nat) : Nat := if align = 0 then 1 else align

theorem memblockPhysAlloc_eq (h : Mapped memblock memory reserved) (positive : 0 < size) :
    memblockPhysAlloc memblock size align =
      takeFit memblock size (firstFit size (fitAlign align) (freeRanges memory reserved)) := by
  rw [memblockPhysAlloc, if_neg (by omega)]
  exact fitScan_eq h .zero ((freeRanges_length h).trans_lt (by decide))

theorem fitAlign_pow (word : align ≤ uintptrMax) (pow : align = 0 ∨ ∃ k, align = 2 ^ k) :
    ∃ k < 64, fitAlign align = 2 ^ k := by
  rcases pow with rfl | ⟨k, rfl⟩
  · exact ⟨0, by decide, rfl⟩
  · refine ⟨k, (Nat.pow_lt_pow_iff_right (a := 2) (by decide)).1 (Nat.lt_of_le_of_lt word (by decide)), ?_⟩
    rw [fitAlign, if_neg (Nat.two_pow_pos k).ne']

/-- The addresses of memory that are not reserved. -/
def Memblock.free (memblock : Memblock) : Set Nat := memblock.memory.addresses \ memblock.reserved.addresses

theorem Mapped.free_eq (h : Mapped memblock memory reserved) :
    memblock.free = cover Prod.fst Prod.snd (freeRanges memory reserved) := by
  ext x
  rw [mem_freeRanges h, Memblock.free, h.memory.addresses_eq, h.reserved.addresses_eq]
  rfl

theorem fits_iff (h : Mapped memblock memory reserved) (positive : 0 < size) :
    Fits size align (freeRanges memory reserved) q ↔ align ∣ q ∧ Set.Ico q (q + size) ⊆ memblock.free := by
  rw [h.free_eq]
  constructor
  · rintro ⟨dvd, p, mem, le, room⟩
    exact ⟨dvd, fun x ⟨ge, lt⟩ => ⟨p, mem, le.trans ge, by omega⟩⟩
  · rintro ⟨dvd, inside⟩
    exact ⟨dvd, (freeRanges_separated h).within_one (by omega) fun z ge lt => inside ⟨ge, lt⟩⟩

theorem wraps_iff (h : Mapped memblock memory reserved) : Wraps size align (freeRanges memory reserved) ↔
    ∃ s e, MaximalIn memblock.free s e ∧ uintptrMax < s + (align - 1) ∧ size ≤ e := by
  simp only [h.free_eq, (freeRanges_separated h).maximal_iff]
  constructor
  · rintro ⟨p, mem, high, fits⟩
    exact ⟨p.1, p.2, ⟨p, mem, rfl, rfl⟩, high, fits⟩
  · rintro ⟨s, e, ⟨p, mem, rfl, rfl⟩, high, fits⟩
    exact ⟨p, mem, high, fits⟩

/-- The reserved array takes `[0, size)` in and grows by it. -/
structure Memblock.Grows (memblock : Memblock) (size : Nat) : Prop where
  fresh : ∃ x < size, x ∉ memblock.reserved.addresses
  room : memblock.reserved.cnt + gaps size 0 memblock.reserved.list ≤ initMemblockRegions

/-- Reserving at address 0, the candidate that is also the failure value. -/
theorem reserveAt_zero (h : Mapped memblock memory reserved) (le : size ≤ uintptrMax) :
    (∀ memblock', reserveAt memblock 0 size = some (memblock', 0) → memblock' = memblock) ↔
      ¬ memblock.Grows size := by
  have le' : 0 + size ≤ uintptrMax := by omega
  have list : memblock.reserved.list = reserved := h.reserved.list_eq
  constructor
  · rintro clean ⟨⟨x, lt, out⟩, room⟩
    rw [h.reserved.addresses_eq] at out
    rcases memblockAddRange_spec h.reserved le' with ⟨type', l', run, canonical, covers⟩ | ⟨-, full⟩
    · have reserve : reserveAt memblock 0 size = some ({ memblock with reserved := type' }, 0) := by
        rw [reserveAt, memblockReserve, bind_of_some run]
        rfl
      have same : type' = memblock.reserved := congrArg Memblock.reserved (clean _ reserve)
      have inside : x ∈ addresses l' := (covers x).2 (.inr ⟨Nat.zero_le x, by omega⟩)
      rw [← canonical.addresses_eq, same, h.reserved.addresses_eq] at inside
      exact out inside
    · rw [list, h.reserved.cnt] at room
      rw [Nat.zero_add] at full
      omega
  · intro fixed memblock' reserve
    by_cases full : initMemblockRegions < reserved.length + gaps (0 + size) 0 reserved
    · rw [reserveAt, memblockReserve, bind_of_some (memblockAddRange_full h.reserved le' full)] at reserve
      exact (Prod.mk.inj (Option.some_inj.1 reserve)).1.symm
    · have covered : ∀ x, 0 ≤ x → x < 0 + size → x ∈ addresses reserved := by
        intro x _ lt
        by_contra out
        rw [← h.reserved.addresses_eq] at out
        refine fixed ⟨⟨x, by omega, out⟩, ?_⟩
        rw [list, h.reserved.cnt, ← Nat.zero_add size]
        omega
      have run := memblockAddRange_covered h.reserved le' (gaps_eq_zero h.reserved.apart covered)
      rw [reserveAt, memblockReserve, bind_of_some run] at reserve
      exact (Prod.mk.inj (Option.some_inj.1 reserve)).1.symm

/-- A failed reservation above address 0 changes nothing. -/
theorem reserveAt_failed {memblock' : Memblock} (h : Mapped memblock memory reserved) (le : q + size ≤ uintptrMax)
    (ne : q ≠ 0) (run : reserveAt memblock q size = some (memblock', 0)) : memblock' = memblock := by
  rcases memblockAddRange_spec h.reserved le with ⟨type', l', add, -⟩ | ⟨add, -⟩
  · rw [reserveAt, memblockReserve, bind_of_some add] at run
    exact absurd (Prod.mk.inj (Option.some_inj.1 run)).2 ne
  · rw [reserveAt, memblockReserve, bind_of_some add] at run
    exact (Prod.mk.inj (Option.some_inj.1 run)).1.symm

theorem reserveAt_ne_zero {memblock' : Memblock} {p : Nat} (h : Mapped memblock memory reserved)
    (le : q + size ≤ uintptrMax) (run : reserveAt memblock q size = some (memblock', p)) (ne : p ≠ 0) :
    p = q ∧ memblock'.memory = memblock.memory ∧
      memblock'.reserved.addresses = memblock.reserved.addresses ∪ Set.Ico q (q + size) := by
  rcases memblockAddRange_spec h.reserved le with ⟨type', l', add, canonical, covers⟩ | ⟨add, -⟩
  · rw [reserveAt, memblockReserve, bind_of_some add] at run
    obtain ⟨rfl, rfl⟩ := Prod.mk.inj (Option.some_inj.1 run)
    refine ⟨rfl, rfl, ?_⟩
    rw [h.reserved.addresses_eq]
    exact canonical.addresses_eq.trans (Set.ext covers)
  · rw [reserveAt, memblockReserve, bind_of_some add] at run
    exact absurd (Prod.mk.inj (Option.some_inj.1 run)).2.symm ne

/-- A nonzero result is the lowest fit, and exactly this place is reserved. -/
theorem physAlloc_found {memblock' : Memblock} {p : Nat} (h : Mapped memblock memory reserved) (positive : 0 < size)
    (hk : k < 64) (two_pow : fitAlign align = 2 ^ k) (run : memblockPhysAlloc memblock size align = some (memblock', p))
    (ne : p ≠ 0) : Fits size (2 ^ k) (freeRanges memory reserved) p ∧
      (∀ q < p, ¬ Fits size (2 ^ k) (freeRanges memory reserved) q) ∧ memblock'.memory = memblock.memory ∧
      memblock'.reserved.addresses = memblock.reserved.addresses ∪ Set.Ico p (p + size) := by
  have found := firstFit_found hk (freeRanges_separated h) (fun p mem => freeRanges_bounded h mem) positive
  rw [memblockPhysAlloc_eq h positive, two_pow] at run
  cases first : firstFit size (2 ^ k) (freeRanges memory reserved) with
  | none =>
    rw [first, takeFit] at run
    exact absurd (Prod.mk.inj (Option.some_inj.1 run)).2.symm ne
  | some c =>
    rw [first] at run found
    rw [takeFit] at run
    rcases found with ⟨fits, lowest⟩ | ⟨rfl, -, r, mem, -, le⟩
    · obtain ⟨dvd, range, mem, ge, room⟩ := fits
      obtain ⟨rfl, memory_eq, reserved_eq⟩ :=
        reserveAt_ne_zero h (room.trans (freeRanges_bounded h mem)) run ne
      exact ⟨⟨dvd, range, mem, ge, room⟩, lowest, memory_eq, reserved_eq⟩
    · have bound := freeRanges_bounded h mem
      exact absurd (reserveAt_ne_zero h (by omega) run ne).1 ne

namespace Memblock

/-- **The lowest fit.** In every memory map a history leaves, a nonzero result
is the lowest aligned place for the request in free memory, and exactly this
place is reserved. -/
theorem physAlloc_lowest {calls : List Call} {m m' : Memblock} {p : Nat} (ok : ∀ call ∈ calls, call.Admissible)
    (history : Memblock.zero.run calls = some m) (positive : 0 < size) (word : align ≤ uintptrMax)
    (pow : align = 0 ∨ ∃ k, align = 2 ^ k) (alloc : memblockPhysAlloc m size align = some (m', p)) (ne : p ≠ 0) :
    fitAlign align ∣ p ∧ Set.Ico p (p + size) ⊆ m.memory.addresses ∧
    Disjoint (Set.Ico p (p + size)) m.reserved.addresses ∧
    (∀ q < p, fitAlign align ∣ q → ¬ Set.Ico q (q + size) ⊆ m.memory.addresses \ m.reserved.addresses) ∧
    m'.reserved.addresses = m.reserved.addresses ∪ Set.Ico p (p + size) ∧ m'.memory = m.memory := by
  obtain ⟨n, memory, reserved, run, mapped⟩ := run_mapped Mapped.zero ok
  obtain rfl := Option.some_inj.1 (run.symm.trans history)
  obtain ⟨k, hk, two_pow⟩ := fitAlign_pow word pow
  rw [two_pow]
  obtain ⟨fits, lowest, memory_eq, reserved_eq⟩ := physAlloc_found mapped positive hk two_pow alloc ne
  obtain ⟨dvd, inside⟩ := (fits_iff mapped positive).1 fits
  refine ⟨dvd, fun x mem => (inside mem).1, Set.disjoint_left.2 fun x mem => (inside mem).2, ?_,
    reserved_eq, memory_eq⟩
  intro q lt aligned sub
  exact lowest q lt ((fits_iff mapped positive).2 ⟨aligned, sub⟩)

/-- The first free range starts at an unaligned address behind a reserved one. -/
theorem physAlloc_lowest_rounded :
    ∃ m m' : Memblock, Memblock.zero.run [.add 0x1000 0x9000, .reserve 0x1000 0x1008] = some m ∧
      memblockPhysAlloc m 0x20 0x10 = some (m', 0x2010) ∧
      (∀ q < 0x2010, 0x10 ∣ q → ¬ Set.Ico q (q + 0x20) ⊆ m.memory.addresses \ m.reserved.addresses) ∧
      m'.reserved.addresses = m.reserved.addresses ∪ Set.Ico 0x2010 (0x2010 + 0x20) := by
  have ok : ∀ call ∈ [Call.add 0x1000 0x9000, .reserve 0x1000 0x1008], call.Admissible := by
    simp only [List.forall_mem_cons, Call.Admissible]
    exact ⟨by decide, by decide, by simp⟩
  obtain ⟨m, history⟩ := Option.isSome_iff_exists.1
    (show (Memblock.zero.run [.add 0x1000 0x9000, .reserve 0x1000 0x1008]).isSome by decide +kernel)
  have result : ((Memblock.zero.run [.add 0x1000 0x9000, .reserve 0x1000 0x1008]).bind
      fun m => memblockPhysAlloc m 0x20 0x10).map Prod.snd = some 0x2010 := by decide +kernel
  rw [history, Option.bind_some] at result
  obtain ⟨⟨m', p⟩, alloc, rfl⟩ := Option.map_eq_some_iff.1 result
  have lowest := physAlloc_lowest ok history (by decide) (by decide) (.inr ⟨4, rfl⟩) alloc (by decide)
  exact ⟨m, m', history, alloc, lowest.2.2.2.1, lowest.2.2.2.2.1⟩

/-! ## A result of 0 -/

/-- The call reserves memory and still returns 0: the request is placed at
address 0, either because it fits there or because rounding up wraps in a free
range less than `align` below the top while nothing fits at all. -/
structure TakesZero (m : Memblock) (size align : Nat) : Prop where
  positive : 0 < size
  grows : m.Grows size
  placed : Set.Ico 0 size ⊆ m.free ∨
    (∀ q, fitAlign align ∣ q → ¬ Set.Ico q (q + size) ⊆ m.free) ∧
      ∃ s e, MaximalIn m.free s e ∧ uintptrMax < s + (fitAlign align - 1) ∧ size ≤ e

/-- **A result of 0.** In every memory map a history leaves, the call returns 0
with the map unchanged, except exactly when the request is placed at address 0. -/
theorem physAlloc_clean_iff {calls : List Call} {m : Memblock} (ok : ∀ call ∈ calls, call.Admissible)
    (history : Memblock.zero.run calls = some m) (word : align ≤ uintptrMax)
    (pow : align = 0 ∨ ∃ k, align = 2 ^ k) :
    (∀ m', memblockPhysAlloc m size align = some (m', 0) → m' = m) ↔ ¬ m.TakesZero size align := by
  obtain ⟨n, memory, reserved, run, mapped⟩ := run_mapped Mapped.zero ok
  obtain rfl := Option.some_inj.1 (run.symm.trans history)
  rcases Nat.eq_zero_or_pos size with rfl | positive
  · refine iff_of_true (fun m' alloc => ?_) fun h => absurd h.positive (by decide)
    exact (Prod.mk.inj (Option.some_inj.1 alloc)).1.symm
  obtain ⟨k, hk, two_pow⟩ := fitAlign_pow word pow
  have found := firstFit_found hk (freeRanges_separated mapped) (fun p mem => freeRanges_bounded mapped mem) positive
  have zero_fits : Set.Ico 0 size ⊆ n.free ↔ Fits size (2 ^ k) (freeRanges memory reserved) 0 := by
    rw [fits_iff mapped positive, Nat.zero_add]
    exact (and_iff_right (Nat.dvd_zero _)).symm
  have no_fits : (∀ q, 2 ^ k ∣ q → ¬ Set.Ico q (q + size) ⊆ n.free) ↔
      ∀ q, ¬ Fits size (2 ^ k) (freeRanges memory reserved) q :=
    forall_congr' fun q => by rw [fits_iff mapped positive, not_and]
  have takes : n.TakesZero size align ↔ n.Grows size ∧ (Fits size (2 ^ k) (freeRanges memory reserved) 0 ∨
      (∀ q, ¬ Fits size (2 ^ k) (freeRanges memory reserved) q) ∧
        Wraps size (2 ^ k) (freeRanges memory reserved)) := by
    rw [← zero_fits, ← no_fits, wraps_iff mapped, ← two_pow]
    exact ⟨fun h => ⟨h.grows, h.placed⟩, fun h => ⟨positive, h.1, h.2⟩⟩
  rw [takes, memblockPhysAlloc_eq mapped positive, two_pow]
  cases first : firstFit size (2 ^ k) (freeRanges memory reserved) with
  | none =>
    rw [first] at found
    refine iff_of_true (fun m' alloc => (Prod.mk.inj (Option.some_inj.1 alloc)).1.symm) ?_
    rintro ⟨-, fits | ⟨-, wraps⟩⟩
    · exact found.1 0 fits
    · exact found.2 wraps
  | some c =>
    rw [first] at found
    rw [takeFit]
    rcases found with ⟨fits, lowest⟩ | ⟨rfl, none, wraps⟩
    · obtain ⟨dvd, range, mem, ge, room⟩ := fits
      have le := room.trans (freeRanges_bounded mapped mem)
      rcases Nat.eq_zero_or_pos c with rfl | high
      · rw [reserveAt_zero mapped (by omega)]
        exact not_congr (iff_self_and.2 fun _ => .inl ⟨dvd, range, mem, ge, room⟩)
      · refine iff_of_true (fun m' alloc => ?_) ?_
        · exact reserveAt_failed mapped le high.ne' alloc
        · rintro ⟨-, fits | ⟨none, -⟩⟩
          · exact lowest 0 high fits
          · exact none c ⟨dvd, range, mem, ge, room⟩
    · obtain ⟨range, mem, -, fits⟩ := id wraps
      rw [reserveAt_zero mapped (fits.trans (freeRanges_bounded mapped mem))]
      exact not_congr (iff_self_and.2 fun _ => .inr ⟨none, wraps⟩)

/-- Memory from address 0 on whose lowest page is reserved: a request that does not fit
is refused with the map unchanged. -/
theorem physAlloc_clean_iff_low_memory : ∃ m : Memblock,
    Memblock.zero.run [.add 0 0x10000, .reserve 0 0x1000] = some m ∧ ¬ m.TakesZero 0x10000 8 ∧
      memblockPhysAlloc m 0x10000 8 = some (m, 0) := by
  have ok : ∀ call ∈ [Call.add 0 0x10000, .reserve 0 0x1000], call.Admissible := by
    simp only [List.forall_mem_cons, Call.Admissible]
    exact ⟨by decide, by decide, by simp⟩
  obtain ⟨m, history⟩ := Option.isSome_iff_exists.1
    (show (Memblock.zero.run [.add 0 0x10000, .reserve 0 0x1000]).isSome by decide +kernel)
  have lists : (Memblock.zero.run [.add 0 0x10000, .reserve 0 0x1000]).map (fun m => (m.memory.list, m.reserved.list)) =
      some ([⟨0, 0x10000⟩], [⟨0, 0x1000⟩]) := by decide +kernel
  have result : ((Memblock.zero.run [.add 0 0x10000, .reserve 0 0x1000]).bind
      fun m => memblockPhysAlloc m 0x10000 8).map Prod.snd = some 0 := by decide +kernel
  rw [history, Option.map_some, Option.some_inj] at lists
  rw [history, Option.bind_some] at result
  obtain ⟨⟨m', p⟩, alloc, rfl⟩ := Option.map_eq_some_iff.1 result
  obtain ⟨memory, reserved⟩ := Prod.mk.inj lists
  have free : ∀ x, x ∈ m.free ↔ 0x1000 ≤ x ∧ x < 0x10000 := by
    intro x
    rw [Memblock.free, Set.mem_sdiff, MemblockType.mem_addresses, MemblockType.mem_addresses, memory, reserved]
    simp only [List.mem_cons, List.not_mem_nil, or_false, exists_eq_left, MemblockRegion.limit]
    omega
  have fails : ¬ m.TakesZero 0x10000 8 := by
    rintro ⟨-, -, fits | ⟨-, s, e, ⟨ne, inside, -⟩, wraps, -⟩⟩
    · exact absurd ((free 0).1 (fits ⟨le_rfl, by decide⟩)).1 (by decide)
    · have below := ((free s).1 (inside ⟨le_rfl, ne⟩)).2
      have align : fitAlign 8 = 8 := rfl
      rw [align] at wraps
      simp only [uintptrMax] at wraps
      omega
  obtain rfl := (physAlloc_clean_iff ok history (by decide) (.inr ⟨3, rfl⟩)).2 fails m' alloc
  exact ⟨m', history, fails, alloc⟩

/-- Memory that starts at address 0: the call returns 0 and `[0, 0x100)` is
reserved. -/
theorem physAlloc_takes_zero : ∃ calls : List Call, (∀ call ∈ calls, call.Admissible) ∧ ∃ m m' : Memblock,
    Memblock.zero.run calls = some m ∧ memblockPhysAlloc m 0x100 1 = some (m', 0) ∧
      m' ≠ m ∧ m.reserved.cnt = 0 ∧ m'.reserved.cnt = 1 := by
  refine ⟨[.add 0 0x10000], ?_, ?_⟩
  · simp only [List.forall_mem_cons, Call.Admissible]
    exact ⟨by decide, by simp⟩
  have before : (Memblock.zero.run [.add 0 0x10000]).map (·.reserved.cnt) = some 0 := by decide +kernel
  have after : ((Memblock.zero.run [.add 0 0x10000]).bind
      fun m => memblockPhysAlloc m 0x100 1).map (fun r => (r.1.reserved.cnt, r.2)) = some (1, 0) := by
    decide +kernel
  obtain ⟨m, history, empty⟩ := Option.map_eq_some_iff.1 before
  rw [history, Option.bind_some] at after
  obtain ⟨⟨m', p⟩, alloc, eq⟩ := Option.map_eq_some_iff.1 after
  obtain ⟨one, rfl⟩ := Prod.mk.inj eq
  refine ⟨m, m', history, alloc, fun same => ?_, empty, one⟩
  rw [same, empty] at one
  exact absurd one (by decide)

end Memblock

end

end MiaowOs
