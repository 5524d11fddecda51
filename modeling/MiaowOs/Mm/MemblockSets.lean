import MiaowOs.Mm.MemblockRuns
import Mathlib

/-!
# Calls of the early memory map as operations on sets

What one call does to the set of addresses that its array denotes, after any
history: adding is union and releasing is difference, or else nothing happens.
The failures are counted in terms of the sets too.
-/

namespace MiaowOs
open Spans

/-- The maximal parts of `[lo, hi)` that are not covered. -/
def uncoveredParts (covered : Set Nat) (lo hi : Nat) : Set (Nat × Nat) :=
  {p | MaximalIn (Set.Ico lo hi \ covered) p.1 p.2}

/-- The parts that the counting pass meets. -/
def uncovered (limit : Nat) : Nat → List MemblockRegion → List (Nat × Nat)
  | base, [] => if base < limit then [(base, limit)] else []
  | base, r :: rest =>
    if limit ≤ r.base then if base < limit then [(base, limit)] else []
    else if r.limit ≤ base then uncovered limit base rest
    else (if base < r.base then [(base, r.base)] else []) ++ uncovered limit (min r.limit limit) rest

section
variable {type type' : MemblockType} {l : List MemblockRegion} {base size limit x : Nat}

theorem length_uncovered : (uncovered limit base l).length = gaps limit base l := by
  induction l generalizing base with
  | nil =>
    unfold uncovered gaps
    split <;> rfl
  | cons r rest ih =>
    unfold uncovered gaps
    split
    · split <;> rfl
    · split
      · exact ih
      · rw [List.length_append, ih]
        split <;> rfl

theorem uncovered_low : ∀ p ∈ uncovered limit base l, min base limit ≤ p.1 := by
  induction l generalizing base with
  | nil =>
    intro p here
    unfold uncovered at here
    split at here
    · rw [List.mem_singleton.1 here]
      exact min_le_left base limit
    · cases here
  | cons r rest ih =>
    intro p here
    unfold uncovered at here
    split_ifs at here with stop lt skip gap
    · rw [List.mem_singleton.1 here]
      exact min_le_left base limit
    · cases here
    · exact ih p here
    · rcases List.mem_append.1 here with first | later
      · rw [List.mem_singleton.1 first]
        exact min_le_left base limit
      · have := ih p later
        omega
    · have := ih p here
      omega

/-- The parts are apart. -/
theorem uncovered_separated (h : RegionsApart l) : Separated Prod.fst Prod.snd (uncovered limit base l) := by
  have one : ∀ {a b : Nat}, a < b → Separated (Prod.fst : Nat × Nat → Nat) Prod.snd [(a, b)] := by
    intro a b lt
    exact ⟨by simpa using lt, List.pairwise_singleton _ _⟩
  induction l generalizing base with
  | nil =>
    unfold uncovered
    split
    · exact one (by assumption)
    · exact Separated.nil
  | cons r rest ih =>
    obtain ⟨ne, first, apart⟩ := separated_cons.1 h
    unfold uncovered
    split_ifs with stop lt skip gap
    · exact one lt
    · exact Separated.nil
    · exact ih apart
    · apply separated_append.2
      refine ⟨one gap, ih apart, ?_⟩
      intro a ha b hb
      have above := uncovered_low b hb
      rw [List.mem_singleton.1 ha]
      dsimp only
      omega
    · exact ih apart

/-- The parts are all that is not covered. -/
theorem mem_cover_uncovered (h : RegionsApart l) :
    x ∈ cover Prod.fst Prod.snd (uncovered limit base l) ↔ (base ≤ x ∧ x < limit) ∧ x ∉ addresses l := by
  induction l generalizing base with
  | nil =>
    unfold uncovered
    split
    · simp
    · simp
      omega
  | cons r rest ih =>
    obtain ⟨ne, first, apart⟩ := separated_cons.1 h
    have later : x < r.limit → x ∉ addresses rest := fun lt => h.not_mem_rest lt
    have start : r.base < r.limit := ne
    rw [mem_cover_cons]
    unfold uncovered
    split_ifs with stop lt skip gap
    · simp only [mem_cover_cons, mem_cover_nil, or_false]
      constructor
      · intro inside
        refine ⟨inside, ?_⟩
        rintro (here | here)
        · omega
        · exact later (by omega) here
      · exact fun both => both.1
    · simp only [mem_cover_nil, false_iff]
      omega
    · rw [ih apart]
      constructor
      · intro both
        refine ⟨both.1, ?_⟩
        rintro (here | here)
        · omega
        · exact both.2 here
      · exact fun both => ⟨both.1, fun here => both.2 (.inr here)⟩
    · rw [mem_cover_append, mem_cover_cons, ih apart]
      simp only [mem_cover_nil, or_false]
      constructor
      · rintro (inside | both)
        · refine ⟨by omega, ?_⟩
          rintro (here | here)
          · omega
          · exact later (by omega) here
        · refine ⟨by omega, ?_⟩
          rintro (here | here)
          · omega
          · exact both.2 here
      · intro both
        rcases Nat.lt_or_ge x r.base with low | high
        · exact .inl ⟨both.1.1, low⟩
        · have past : r.limit ≤ x := Nat.le_of_not_lt fun lt => both.2 (.inl ⟨high, lt⟩)
          exact .inr ⟨by omega, fun here => both.2 (.inr here)⟩
    · rw [List.nil_append, ih apart]
      constructor
      · intro both
        refine ⟨by omega, ?_⟩
        rintro (here | here)
        · omega
        · exact both.2 here
      · intro both
        have past : r.limit ≤ x := Nat.le_of_not_lt fun lt => both.2 (.inl ⟨by omega, lt⟩)
        exact ⟨by omega, fun here => both.2 (.inr here)⟩

/-- **The counting pass** counts the maximal parts that are not covered. -/
theorem gaps_eq_ncard (h : RegionsApart l) : gaps limit base l = (uncoveredParts (addresses l) base limit).ncard := by
  have separated := @uncovered_separated l base limit h
  have nodup : (uncovered limit base l).Nodup := by
    apply separated.apart.imp_of_mem
    rintro a b ha hb lt rfl
    exact absurd (separated.nonempty a ha) (by omega)
  have parts : uncoveredParts (addresses l) base limit = ↑(uncovered limit base l).toFinset := by
    ext p
    have same : Set.Ico base limit \ addresses l = cover Prod.fst Prod.snd (uncovered limit base l) := by
      ext x
      rw [mem_cover_uncovered h]
      rfl
    rw [List.coe_toFinset]
    show MaximalIn (Set.Ico base limit \ addresses l) p.1 p.2 ↔ p ∈ uncovered limit base l
    rw [same, separated.maximal_iff]
    constructor
    · rintro ⟨s, here, low, high⟩
      rwa [Prod.ext low high] at here
    · intro here
      exact ⟨p, here, rfl, rfl⟩
  rw [parts, Set.ncard_coe_finset, List.toFinset_card_of_nodup nodup, length_uncovered]

/-! ## Adding -/

/-- Union, or nothing if the parts that are not covered do not fit. -/
structure AddsRange (type type' : MemblockType) (base size : Nat) (status : Int) : Prop where
  outcome : status = 0 ∨ status = -1
  union : status = 0 → type'.addresses = type.addresses ∪ Set.Ico base (base + size)
  full : status = -1 ↔
    initMemblockRegions < type.cnt + (uncoveredParts type.addresses base (base + size)).ncard
  unchanged : status = -1 → type' = type

theorem memblockAddRange_adds (h : Canonical type l) (le : base + size ≤ uintptrMax) :
    ∃ type' status, memblockAddRange type base size = some (type', status) ∧
      AddsRange type type' base size status := by
  have parts := @gaps_eq_ncard l base (base + size) h.apart
  rw [← h.addresses_eq] at parts
  rcases memblockAddRange_spec h le with ⟨type', l', run, canonical, covers⟩ | ⟨run, full⟩
  · refine ⟨type', 0, run, .inl rfl, ?_, ?_, fun absurd => by cases absurd⟩
    · intro _
      rw [h.addresses_eq, canonical.addresses_eq]
      ext x
      exact covers x
    · rw [← parts, h.cnt]
      constructor
      · intro absurd
        cases absurd
      · intro full
        have failed := memblockAddRange_full h le full
        exact (Prod.mk.inj (Option.some_inj.1 (run.symm.trans failed))).2
  · refine ⟨type, -1, run, .inr rfl, fun absurd => (by cases absurd), ?_, fun _ => rfl⟩
    rw [← parts, h.cnt]
    exact ⟨fun _ => full, fun _ => rfl⟩

end

namespace Memblock

/-- **Add is set union, or nothing**, after any history. -/
theorem run_add_union (calls : List Call) (ok : ∀ call ∈ calls, call.Admissible) (m : Memblock)
    (history : Memblock.zero.run calls = some m) (base size : Nat) (le : base + size ≤ uintptrMax) :
    (∃ m' status, memblockAdd m base size = some (m', status) ∧
      AddsRange m.memory m'.memory base size status ∧ m'.reserved = m.reserved) ∧
    ∃ m' status, memblockReserve m base size = some (m', status) ∧
      AddsRange m.reserved m'.reserved base size status ∧ m'.memory = m.memory := by
  obtain ⟨n, memory, reserved, run, mapped⟩ := run_mapped Mapped.zero ok
  obtain rfl := Option.some_inj.1 (run.symm.trans history)
  constructor
  · obtain ⟨type', status, added, adds⟩ := memblockAddRange_adds mapped.memory le
    exact ⟨{ n with memory := type' }, status, by rw [memblockAdd, bind_of_some added]; rfl, adds, rfl⟩
  · obtain ⟨type', status, added, adds⟩ := memblockAddRange_adds mapped.reserved le
    exact ⟨{ n with reserved := type' }, status, by rw [memblockReserve, bind_of_some added]; rfl, adds, rfl⟩

/-- Reserving across two regions makes one of them. -/
theorem run_add_union_bridge : ∃ m m' : Memblock,
    Memblock.zero.run [.reserve 0x1000 0x1000, .reserve 0x4000 0x1000] = some m ∧
      memblockReserve m 0x1800 0x3000 = some (m', 0) ∧ m'.reserved.addresses = Set.Ico 0x1000 0x5000 := by
  have ok : ∀ call ∈ [Call.reserve 0x1000 0x1000, .reserve 0x4000 0x1000], call.Admissible := by
    simp only [List.forall_mem_cons, Call.Admissible]
    exact ⟨by decide, by decide, by simp⟩
  obtain ⟨m, history⟩ := Option.isSome_iff_exists.1
    (show (Memblock.zero.run [.reserve 0x1000 0x1000, .reserve 0x4000 0x1000]).isSome by decide +kernel)
  have before : (Memblock.zero.run [.reserve 0x1000 0x1000, .reserve 0x4000 0x1000]).map (·.reserved.list) =
      some [⟨0x1000, 0x1000⟩, ⟨0x4000, 0x1000⟩] := by decide +kernel
  have after : ((Memblock.zero.run [.reserve 0x1000 0x1000, .reserve 0x4000 0x1000]).bind
      fun m => memblockReserve m 0x1800 0x3000).map Prod.snd = some 0 := by decide +kernel
  rw [history, Option.map_some, Option.some_inj] at before
  rw [history, Option.bind_some] at after
  obtain ⟨m', status, run, adds, -⟩ := (run_add_union _ ok m history 0x1800 0x3000 (by decide)).2
  rw [run, Option.map_some, Option.some_inj] at after
  subst after
  refine ⟨m, m', history, run, ?_⟩
  ext x
  rw [adds.union rfl, Set.mem_union, MemblockType.mem_addresses, before]
  simp only [List.mem_cons, List.not_mem_nil, or_false, exists_eq_or_imp, exists_eq_left, MemblockRegion.limit, Set.mem_Ico]
  omega

end Memblock

/-! ## Releasing -/

section
variable {type : MemblockType} {l : List MemblockRegion}

theorem finite_addresses (l : List MemblockRegion) : (addresses l).Finite := by
  induction l with
  | nil => exact Set.finite_empty.subset fun x here => (mem_cover_nil.1 here).elim
  | cons r l ih =>
    apply ((Set.finite_Ico r.base r.limit).union ih).subset
    intro x here
    exact mem_cover_cons.1 here

/-- The sizes of regions that do not overlap count their addresses. -/
theorem ncard_addresses (h : RegionsOrdered l) : (addresses l).ncard = sizes l := by
  induction l with
  | nil =>
    have none : addresses [] = ∅ := Set.eq_empty_of_forall_notMem fun x here => mem_cover_nil.1 here
    rw [none, Set.ncard_empty]
    rfl
  | cons r l ih =>
    obtain ⟨-, first, rest⟩ := ordered_cons.1 h
    have split : addresses (r :: l) = Set.Ico r.base r.limit ∪ addresses l := by
      ext x
      exact mem_cover_cons
    have disjoint : Disjoint (Set.Ico r.base r.limit) (addresses l) := by
      rw [Set.disjoint_left]
      intro x inside
      exact not_mem_of_lt first inside.2
    rw [split, Set.ncard_union_eq disjoint (Set.finite_Ico _ _) (finite_addresses l), ih rest, sizes_cons,
      ← Finset.coe_Ico, Set.ncard_coe_finset, Nat.card_Ico, MemblockRegion.limit, Nat.add_sub_cancel_left]

/-- `total_size` counts the addresses. -/
theorem Canonical.total_eq (h : Canonical type l) : type.totalSize = type.addresses.ncard := by
  have bound : 0 + sizes l ≤ uintptrMax :=
    sizes_le h.apart.ordered (fun _ _ => Nat.zero_le _) h.bounded (Nat.zero_le _)
  rw [h.addresses_eq, ncard_addresses h.apart.ordered, h.total]
  exact Nat.mod_eq_of_lt (Nat.lt_of_le_of_lt (by simpa using bound) (by decide))

end

/-- Difference, or nothing. -/
structure RemovesRange (type type' : MemblockType) (base size : Nat) (status : Int) : Prop where
  outcome : status = 0 ∨ status = -1
  difference : status = 0 → type'.addresses = type.addresses \ Set.Ico base (min (base + size) uintptrMax)
  total : status = 0 →
    type'.totalSize + (type.addresses ∩ Set.Ico base (min (base + size) uintptrMax)).ncard = type.totalSize
  unchanged : status = -1 → type' = type

namespace Memblock

/-- **Free is set difference, or nothing**, after any history. -/
theorem run_free_difference (calls : List Call) (ok : ∀ call ∈ calls, call.Admissible) (m : Memblock)
    (history : Memblock.zero.run calls = some m) (base size : Nat) (word : base ≤ uintptrMax) :
    ∃ m' status, memblockPhysFree m base size = some (m', status) ∧
      RemovesRange m.reserved m'.reserved base size status ∧ m'.memory = m.memory := by
  obtain ⟨n, memory, reserved, run, mapped⟩ := run_mapped Mapped.zero ok
  obtain rfl := Option.some_inj.1 (run.symm.trans history)
  have h := mapped.reserved
  rcases memblockRemoveRange_spec size h (Nat.lt_of_le_of_lt word (by decide)) with
    ⟨type', l', removed, canonical, covers⟩ | ⟨removed, -⟩
  · have difference : type'.addresses = n.reserved.addresses \ Set.Ico base (min (base + size) uintptrMax) := by
      rw [h.addresses_eq, canonical.addresses_eq]
      ext x
      exact covers x
    refine ⟨{ n with reserved := type' }, 0, by rw [memblockPhysFree, bind_of_some removed]; rfl, ?_, rfl⟩
    refine ⟨.inl rfl, fun _ => difference, fun _ => ?_, fun absurd => by cases absurd⟩
    have finite : n.reserved.addresses.Finite := h.addresses_eq ▸ finite_addresses reserved
    rw [canonical.total_eq, h.total_eq, difference, Nat.add_comm]
    exact Set.ncard_inter_add_ncard_sdiff_eq_ncard _ _ finite
  · refine ⟨n, -1, by rw [memblockPhysFree, bind_of_some removed]; rfl, ?_, rfl⟩
    exact ⟨.inr rfl, fun absurd => (by cases absurd), fun absurd => (by cases absurd), fun _ => rfl⟩

/-- Everything from the middle of a region on. -/
theorem run_free_difference_top : ∃ m m' : Memblock, Memblock.zero.run [.reserve 0x1000 0x2000] = some m ∧
    memblockPhysFree m 0x2000 uintptrMax = some (m', 0) ∧ m'.reserved.addresses = Set.Ico 0x1000 0x2000 := by
  have ok : ∀ call ∈ [Call.reserve 0x1000 0x2000], call.Admissible := by
    simp only [List.forall_mem_cons, Call.Admissible]
    exact ⟨by decide, by simp⟩
  obtain ⟨m, history⟩ := Option.isSome_iff_exists.1
    (show (Memblock.zero.run [.reserve 0x1000 0x2000]).isSome by decide +kernel)
  have before : (Memblock.zero.run [.reserve 0x1000 0x2000]).map (·.reserved.list) = some [⟨0x1000, 0x2000⟩] := by
    decide +kernel
  have after : ((Memblock.zero.run [.reserve 0x1000 0x2000]).bind
      fun m => memblockPhysFree m 0x2000 uintptrMax).map Prod.snd = some 0 := by decide +kernel
  rw [history, Option.map_some, Option.some_inj] at before
  rw [history, Option.bind_some] at after
  obtain ⟨m', status, run, removes, -⟩ := run_free_difference _ ok m history 0x2000 uintptrMax (by decide)
  rw [run, Option.map_some, Option.some_inj] at after
  subst after
  refine ⟨m, m', history, run, ?_⟩
  ext x
  rw [removes.difference rfl, Set.mem_sdiff, MemblockType.mem_addresses, before]
  simp only [List.mem_cons, List.not_mem_nil, or_false, exists_eq_left, MemblockRegion.limit, Set.mem_Ico, uintptrMax]
  omega

/-- The end points of a range that fall strictly inside a region. -/
def cuts (type : MemblockType) (base limit : Nat) : Set Nat :=
  {e | (e = base ∨ e = limit) ∧
    ∃ i < type.cnt, (type.regions i).base < e ∧ e < (type.regions i).base + (type.regions i).size}

/-- `memblock_phys_free` fails only if isolating the range overflows the array. -/
def FailsOnOverflow (m : Memblock) (base size : Nat) : Prop :=
  ∀ m', memblockPhysFree m base size = some (m', -1) →
    initMemblockRegions < m.reserved.cnt + (cuts m.reserved base (base + size)).ncard

/-- The cuts can be counted. -/
theorem cuts_finite (type : MemblockType) (base limit : Nat) : (cuts type base limit).Finite := by
  apply (Set.toFinite {base, limit}).subset
  intro e here
  exact here.1

/-- **The overflow check is made up front**: it is exact only for an array with
two free slots, for an empty range, and for a range that would not fit. -/
theorem run_free_overflow (calls : List Call) (ok : ∀ call ∈ calls, call.Admissible) (m : Memblock)
    (history : Memblock.zero.run calls = some m) (base size : Nat) (le : base + size ≤ uintptrMax) :
    FailsOnOverflow m base size ↔
      size = 0 ∨ m.reserved.cnt + 2 ≤ initMemblockRegions ∨
        initMemblockRegions < m.reserved.cnt + (cuts m.reserved base (base + size)).ncard := by
  obtain ⟨n, memory, reserved, run, mapped⟩ := run_mapped Mapped.zero ok
  obtain rfl := Option.some_inj.1 (run.symm.trans history)
  have h := mapped.reserved
  have fits := h.cnt_le
  have word : base < 2 ^ 64 := by
    have top : uintptrMax = 2 ^ 64 - 1 := rfl
    omega
  constructor
  · intro fails
    by_contra neither
    rw [not_or, not_or] at neither
    obtain ⟨some_, full, room⟩ := neither
    have refused : memblockRemoveRange n.reserved base size = some (n.reserved, -1) := by
      rw [memblockRemoveRange, memblockIsolateRange, if_neg some_,
        add32_of_lt (by simp only [initMemblockRegions] at fits; omega),
        if_pos (by omega)]
      rfl
    exact room (fails n (by rw [memblockPhysFree, bind_of_some refused]; rfl))
  · intro holds m' failed
    rcases memblockRemoveRange_spec size h word with ⟨type', l', removed, -⟩ | ⟨-, full⟩
    · rw [memblockPhysFree, bind_of_some removed] at failed
      exact absurd (Prod.mk.inj (Option.some_inj.1 failed)).2 (by decide)
    · rcases holds with rfl | room | overflow
      · have nothing : memblockRemoveRange n.reserved base 0 = some (n.reserved, 0) := by
          rw [memblockRemoveRange, memblockIsolateRange, if_pos rfl]
          rfl
        rw [memblockPhysFree, bind_of_some nothing] at failed
        exact absurd (Prod.mk.inj (Option.some_inj.1 failed)).2 (by decide)
      · rw [h.cnt] at room
        omega
      · exact overflow

/-- Cutting the middle out of the only region. -/
theorem run_free_overflow_one : ∃ m, Memblock.zero.run [.reserve 0x1000 0x3000] = some m ∧
    FailsOnOverflow m 0x2000 0x1000 := by
  have ok : ∀ call ∈ [Call.reserve 0x1000 0x3000], call.Admissible := by
    simp only [List.forall_mem_cons, Call.Admissible]
    exact ⟨by decide, by simp⟩
  obtain ⟨m, history⟩ := Option.isSome_iff_exists.1
    (show (Memblock.zero.run [.reserve 0x1000 0x3000]).isSome by decide +kernel)
  have count : (Memblock.zero.run [.reserve 0x1000 0x3000]).map (·.reserved.cnt) = some 1 := by decide +kernel
  rw [history, Option.map_some, Option.some_inj] at count
  exact ⟨m, history, (run_free_overflow _ ok m history 0x2000 0x1000 (by decide)).2 (.inr (.inl (by rw [count]; decide)))⟩

/-- Fifteen regions, of which the first is released as a whole. -/
theorem run_free_overflow_refused : ∃ m m',
    Memblock.zero.run ((List.range 15).map fun i => .reserve (0x2000 * i) 0x1000) = some m ∧
      m.reserved.cnt = 15 ∧ m.reserved.regions 0 = ⟨0, 0x1000⟩ ∧ memblockPhysFree m 0 0x1000 = some (m', -1) ∧
      ¬ FailsOnOverflow m 0 0x1000 := by
  obtain ⟨m, history⟩ := Option.isSome_iff_exists.1
    (show (Memblock.zero.run ((List.range 15).map fun i => .reserve (0x2000 * i) 0x1000)).isSome by decide +kernel)
  have list : (Memblock.zero.run ((List.range 15).map fun i => .reserve (0x2000 * i) 0x1000)).map (·.reserved.list) =
      some ((List.range 15).map fun i => ⟨0x2000 * i, 0x1000⟩) := by decide +kernel
  have count : (Memblock.zero.run ((List.range 15).map fun i => .reserve (0x2000 * i) 0x1000)).map (·.reserved.cnt) =
      some 15 := by decide +kernel
  have failed : ((Memblock.zero.run ((List.range 15).map fun i => .reserve (0x2000 * i) 0x1000)).bind
      fun m => memblockPhysFree m 0 0x1000).map Prod.snd = some (-1) := by decide +kernel
  rw [history, Option.map_some, Option.some_inj] at list count
  rw [history, Option.bind_some] at failed
  obtain ⟨⟨m', status⟩, run, rfl⟩ := Option.map_eq_some_iff.1 failed
  have slots : ∀ i < 15, m.reserved.regions i = ⟨0x2000 * i, 0x1000⟩ := by
    intro i lt
    have slot := congrArg (·[i]?) list
    simpa [MemblockType.list, count, lt] using slot
  have none : cuts m.reserved 0 (0 + 0x1000) = ∅ := by
    apply Set.eq_empty_of_forall_notMem
    intro e here
    obtain ⟨ends, i, lt, inside⟩ := here
    rw [count] at lt
    rw [slots i lt] at inside
    dsimp only at inside
    omega
  refine ⟨m, m', history, count, slots 0 (by decide), run, ?_⟩
  intro fails
  have overflow := fails m' run
  rw [none, Set.ncard_empty, count] at overflow
  exact absurd overflow (by decide)

end Memblock

/-! ## Sizes are capped

`total_size` is counted along and decides nothing, so what is known of arrays
between calls holds of all arrays whose regions are in order. -/

/-- The array with another `total_size`. -/
def MemblockType.withTotal (type : MemblockType) (total : Nat) : MemblockType := { type with totalSize := total }

def AddPass.withTotal (pass : AddPass) (total : Nat) : AddPass := { pass with type := pass.type.withTotal total }

theorem bind_map {α β : Type} {f : α → α} {x : Option α} {g g' : α → Option β} {h : β → β}
    (eq : ∀ a, g' (f a) = (g a).map h) : (x.map f >>= g') = (x >>= g).map h := by
  cases x with
  | none => rfl
  | some a => exact eq a

theorem bind_map_exists {α β : Type} {f : α → α} {x : Option α} {g g' : α → Option β} {h : Nat → β → β}
    (eq : ∀ a, ∃ total, g' (f a) = (g a).map (h total)) : ∃ total, (x.map f >>= g') = (x >>= g).map (h total) := by
  cases x with
  | none => exact ⟨0, rfl⟩
  | some a => exact eq a

section
variable (type : MemblockType) (total : Nat)

theorem store_withTotal (index : Nat) (r : MemblockRegion) :
    (type.withTotal total).store index r = (type.store index r).map (·.withTotal total) := by
  unfold MemblockType.store
  split <;> rfl

theorem move_withTotal (dst src count : Nat) :
    (type.withTotal total).move dst src count = (type.move dst src count).map (·.withTotal total) := by
  unfold MemblockType.move
  split <;> rfl

theorem insert_withTotal (index base size : Nat) : memblockInsertRegion (type.withTotal total) index base size =
    (memblockInsertRegion type index base size).map (·.withTotal (add64 total size)) := by
  have cnt : (type.withTotal total).cnt = type.cnt := rfl
  unfold memblockInsertRegion
  rw [move_withTotal, cnt]
  apply bind_map
  intro moved
  rw [store_withTotal]
  apply bind_map
  intro stored
  rfl

theorem joinNext_withTotal (index : Nat) (current next : MemblockRegion) :
    joinNext (type.withTotal total) index current next =
      (joinNext type index current next).map (·.withTotal total) := by
  unfold joinNext
  rw [store_withTotal]
  apply bind_map
  intro stored
  rw [move_withTotal]
  apply bind_map
  intro moved
  rfl

theorem mergeScan_withTotal (fuel index endRgn : Nat) : mergeScan fuel (type.withTotal total) index endRgn =
    (mergeScan fuel type index endRgn).map (·.withTotal total) := by
  induction fuel generalizing type index endRgn with
  | zero => rfl
  | succ fuel ih =>
    have load : ∀ i, (type.withTotal total).load i = type.load i := fun _ => rfl
    unfold mergeScan
    by_cases more : index < endRgn
    · rw [if_pos more, if_pos more, load, load]
      cases type.load index with
      | none => rfl
      | some current =>
        cases type.load (index + 1) with
        | none => rfl
        | some next =>
          rw [bind_of_some rfl, bind_of_some rfl, bind_of_some rfl, bind_of_some rfl]
          by_cases apart : add64 current.base current.size ≠ next.base
          · rw [if_pos apart, if_pos apart]
            exact ih type (add32 index 1) endRgn
          · rw [if_neg apart, if_neg apart, joinNext_withTotal]
            apply bind_map
            intro joined
            exact ih joined index (sub32 endRgn 1)
    · rw [if_neg more, if_neg more]
      rfl

theorem memblockMergeRegions_withTotal (startRgn endRgn : Nat) :
    memblockMergeRegions (type.withTotal total) startRgn endRgn =
      (memblockMergeRegions type startRgn endRgn).map (·.withTotal total) := by
  have cnt : (type.withTotal total).cnt = type.cnt := rfl
  unfold memblockMergeRegions
  rw [cnt]
  apply mergeScan_withTotal

variable (pass : AddPass) (insert : Bool) (limit : Nat)

theorem piece_withTotal (size : Nat) :
    ∃ total', (pass.withTotal total).piece insert size = (pass.piece insert size).map (·.withTotal total') := by
  cases insert with
  | false => exact ⟨total, rfl⟩
  | true =>
    refine ⟨add64 total size, ?_⟩
    unfold AddPass.piece
    rw [if_pos rfl, if_pos rfl]
    show memblockInsertRegion (pass.type.withTotal total) pass.index pass.base size >>= _ = _
    rw [insert_withTotal]
    apply bind_map
    intro inserted
    rfl

theorem addScan_withTotal (fuel : Nat) : ∃ total', addScan insert limit fuel (pass.withTotal total) =
    (addScan insert limit fuel pass).map (·.withTotal total') := by
  induction fuel generalizing pass total with
  | zero => exact ⟨total, rfl⟩
  | succ fuel ih =>
    have cnt : (pass.withTotal total).type.cnt = pass.type.cnt := rfl
    have index : (pass.withTotal total).index = pass.index := rfl
    have low : (pass.withTotal total).base = pass.base := rfl
    have load : (pass.withTotal total).type.load pass.index = pass.type.load pass.index := rfl
    unfold addScan
    rw [index, cnt, load, low]
    by_cases more : pass.index < pass.type.cnt
    · rw [if_pos more, if_pos more]
      cases pass.type.load pass.index with
      | none => exact ⟨total, rfl⟩
      | some region =>
        rw [bind_of_some rfl, bind_of_some rfl]
        by_cases stop : region.base ≥ limit
        · rw [if_pos stop, if_pos stop]
          exact ⟨total, rfl⟩
        rw [if_neg stop, if_neg stop]
        by_cases skip : add64 region.base region.size ≤ pass.base
        · rw [if_pos skip, if_pos skip]
          exact ih total { pass with index := add32 pass.index 1 }
        rw [if_neg skip, if_neg skip]
        generalize (if add64 region.base region.size < limit then add64 region.base region.size else limit) = next
        by_cases gap : region.base > pass.base
        · rw [if_pos gap, if_pos gap]
          obtain ⟨total', pieced⟩ := piece_withTotal total pass insert (sub64 region.base pass.base)
          rw [pieced]
          apply bind_map_exists
          intro after
          rw [pure_bind, pure_bind]
          cases insert with
          | false => exact ih total' { after with base := next, index := add32 after.index 1 }
          | true => exact ih total' { after with base := next, index := add32 (add32 after.index 1) 1 }
        · rw [if_neg gap, if_neg gap, pure_bind, pure_bind]
          exact ih total { pass with base := next, index := add32 pass.index 1 }
    · rw [if_neg more, if_neg more]
      exact ⟨total, rfl⟩

theorem addPass_withTotal (base startRgn endRgn : Nat) :
    ∃ total', addPass insert (type.withTotal total) base limit startRgn endRgn =
      (addPass insert type base limit startRgn endRgn).map (·.withTotal total') := by
  obtain ⟨total', scanned⟩ := addScan_withTotal total
    { type, base, startRgn, endRgn, index := 0, added := 0 } insert limit loopBound
  unfold addPass
  show ∃ total', (addScan insert limit loopBound
    (AddPass.withTotal { type, base, startRgn, endRgn, index := 0, added := 0 } total) >>= _) = _
  rw [scanned]
  apply bind_map_exists
  intro pass
  have low : (pass.withTotal total').base = pass.base := rfl
  rw [low]
  by_cases above : pass.base < limit
  · rw [if_pos above, if_pos above]
    apply piece_withTotal
  · rw [if_neg above, if_neg above]
    exact ⟨total', rfl⟩

/-- What `total_size` was does not matter to the regions. -/
theorem memblockAddRange_withTotal (base size : Nat) : ∃ total', memblockAddRange (type.withTotal total) base size =
    (memblockAddRange type base size).map fun r => (r.1.withTotal total', r.2) := by
  have cnt : (type.withTotal total).cnt = type.cnt := rfl
  unfold memblockAddRange
  rw [cnt]
  generalize add64 base (capSize base size) = limit
  by_cases empty : size = 0
  · rw [if_pos empty, if_pos empty]
    exact ⟨total, rfl⟩
  rw [if_neg empty, if_neg empty]
  by_cases first : type.cnt = 0
  · rw [if_pos first, if_pos first, store_withTotal]
    refine ⟨size, ?_⟩
    cases type.store 0 ⟨base, size⟩ with
    | none => rfl
    | some stored => rfl
  rw [if_neg first, if_neg first]
  obtain ⟨_, counted⟩ := addPass_withTotal type total false limit base 0 0
  rw [counted]
  cases addPass false type base limit 0 0 with
  | none => exact ⟨total, rfl⟩
  | some count =>
    rw [Option.map_some, bind_of_some rfl, bind_of_some rfl]
    show ∃ total', (if count.added = 0 then _ else if add32 type.cnt count.added > initMemblockRegions then _ else _) = _
    by_cases none : count.added = 0
    · rw [if_pos none, if_pos none]
      exact ⟨total, rfl⟩
    rw [if_neg none, if_neg none]
    by_cases full : add32 type.cnt count.added > initMemblockRegions
    · rw [if_pos full, if_pos full]
      exact ⟨total, rfl⟩
    rw [if_neg full, if_neg full]
    obtain ⟨total', filled⟩ := addPass_withTotal type total true limit base 0 0
    rw [filled]
    cases addPass true type base limit 0 0 with
    | none => exact ⟨total, rfl⟩
    | some pass =>
      refine ⟨total', ?_⟩
      rw [Option.map_some, bind_of_some rfl, bind_of_some rfl]
      show (if pass.added = 0 then _ else
        memblockMergeRegions (pass.type.withTotal total') pass.startRgn pass.endRgn >>= _) = _
      by_cases none : pass.added = 0
      · rw [if_pos none, if_pos none]
        rfl
      · rw [if_neg none, if_neg none, memblockMergeRegions_withTotal]
        cases memblockMergeRegions pass.type pass.startRgn pass.endRgn with
        | none => rfl
        | some merged => rfl

end

section
variable {type type' : MemblockType} {l : List MemblockRegion} {base size : Nat}

/-- In an array that is not empty the capped range is added. -/
theorem memblockAddRange_cap (h : Canonical type l) (word : base ≤ uintptrMax) (some_ : type.cnt ≠ 0) :
    memblockAddRange type base size = memblockAddRange type base (min size (uintptrMax - base)) := by
  have top : uintptrMax = 2 ^ 64 - 1 := rfl
  have limit := @add64_capSize base size word
  have limit' := @add64_capSize base (min size (uintptrMax - base)) word
  rw [show min (base + min size (uintptrMax - base)) uintptrMax = min (base + size) uintptrMax by omega] at limit'
  by_cases empty : size = 0
  · rw [show min size (uintptrMax - base) = size by omega]
  rw [memblockAddRange, limit, if_neg empty, if_neg some_, memblockAddRange, limit']
  by_cases none : min size (uintptrMax - base) = 0
  · -- at the top of the address space there is nothing to add
    obtain ⟨count, counted, need⟩ := addPass_count base (min (base + size) uintptrMax) h
    have covered : gaps (min (base + size) uintptrMax) base l = 0 := gaps_eq_zero h.apart fun x _ _ => by omega
    rw [if_pos none, bind_of_some counted, need, if_pos covered]
  · rw [if_neg none, if_neg some_]

/-- Every region is capped, and the capped range is added. -/
structure Capped (type type' : MemblockType) (base size : Nat) : Prop where
  nonempty : ∀ i < type'.cnt, 0 < (type'.regions i).size
  bounded : ∀ i < type'.cnt, (type'.regions i).base + (type'.regions i).size ≤ uintptrMax
  union : type'.addresses = type.addresses ∪ Set.Ico base (base + min size (uintptrMax - base))

theorem Canonical.capped {l' : List MemblockRegion} (h : Canonical type l) (h' : Canonical type' l')
    (covers : ∀ x, x ∈ addresses l' ↔ x ∈ addresses l ∨ base ≤ x ∧ x < base + min size (uintptrMax - base)) :
    Capped type type' base size := by
  refine ⟨h'.wellFormed.nonempty, h'.wellFormed.no_wrap, ?_⟩
  rw [h.addresses_eq, h'.addresses_eq]
  ext x
  exact covers x

theorem memblockAddRange_capped (h : Canonical type l) (word : base ≤ uintptrMax)
    (holds : type.cnt ≠ 0 ∨ size = 0 ∨ base + size ≤ uintptrMax)
    (run : memblockAddRange type base size = some (type', 0)) : Capped type type' base size := by
  have fits : base + min size (uintptrMax - base) ≤ uintptrMax := by omega
  have same : memblockAddRange type base size = memblockAddRange type base (min size (uintptrMax - base)) := by
    rcases holds with some_ | small
    · exact memblockAddRange_cap h word some_
    · rw [show min size (uintptrMax - base) = size by omega]
  rw [same] at run
  rcases memblockAddRange_spec h fits with ⟨added, l', run', canonical, covers⟩ | ⟨run', -⟩
  · rw [run'] at run
    obtain ⟨rfl, -⟩ := Prod.mk.inj (Option.some_inj.1 run)
    exact h.capped canonical covers
  · rw [run'] at run
    exact absurd (Prod.mk.inj (Option.some_inj.1 run)).2 (by decide)

/-- A successful addition caps its range. -/
def Caps (type : MemblockType) (base size : Nat) : Prop :=
  ∀ type', memblockAddRange type base size = some (type', 0) → Capped type type' base size

/-- The range is stored as it is in an empty array. -/
theorem caps_iff (sorted : type.Sorted) (word : base ≤ uintptrMax) :
    Caps type base size ↔ type.cnt ≠ 0 ∨ size = 0 ∨ base + size ≤ uintptrMax := by
  constructor
  · intro caps
    by_contra neither
    rw [not_or, not_or, not_ne_iff] at neither
    obtain ⟨first, some_, high⟩ := neither
    have stored : memblockAddRange type base size =
        some (⟨1, size, fun i => if i = 0 then ⟨base, size⟩ else type.regions i⟩, 0) := by
      unfold memblockAddRange
      rw [if_neg some_, if_pos first, bind_of_some (store_eq (by decide))]
      rfl
    exact high ((caps _ stored).bounded 0 Nat.one_pos)
  · intro holds type' run
    obtain ⟨total, same⟩ := memblockAddRange_withTotal type (sizes type.list % 2 ^ 64) base size
    rw [run, Option.map_some] at same
    have capped := memblockAddRange_capped sorted.canonical word holds same
    exact ⟨capped.nonempty, capped.bounded, capped.union⟩

/-- **When ranges are capped**: if the array is not empty, or the range needs no
capping. -/
theorem memblock_caps_iff (m : Memblock) (memory : m.memory.Sorted) (reserved : m.reserved.Sorted) (base size : Nat)
    (word : base ≤ uintptrMax) :
    ((∀ m', memblockAdd m base size = some (m', 0) → Capped m.memory m'.memory base size) ↔
      m.memory.cnt ≠ 0 ∨ size = 0 ∨ base + size ≤ uintptrMax) ∧
    ((∀ m', memblockReserve m base size = some (m', 0) → Capped m.reserved m'.reserved base size) ↔
      m.reserved.cnt ≠ 0 ∨ size = 0 ∨ base + size ≤ uintptrMax) := by
  constructor
  · rw [← caps_iff memory word]
    constructor
    · intro caps type' run
      exact caps { m with memory := type' } (by rw [memblockAdd, bind_of_some run]; rfl)
    · intro caps m' run
      obtain ⟨⟨type', status⟩, added, same⟩ := Option.bind_eq_some_iff.1 run
      obtain ⟨rfl, rfl⟩ := Prod.mk.inj (Option.some_inj.1 same)
      exact caps type' added
  · rw [← caps_iff reserved word]
    constructor
    · intro caps type' run
      exact caps { m with reserved := type' } (by rw [memblockReserve, bind_of_some run]; rfl)
    · intro caps m' run
      obtain ⟨⟨type', status⟩, added, same⟩ := Option.bind_eq_some_iff.1 run
      obtain ⟨rfl, rfl⟩ := Prod.mk.inj (Option.some_inj.1 same)
      exact caps type' added

/-- Past the top of the address space, next to a region. -/
theorem memblock_caps_top : ∃ m m', m.memory.Sorted ∧
    memblockAdd m 0x2000 uintptrMax = some (m', 0) ∧ Capped m.memory m'.memory 0x2000 uintptrMax := by
  have one : MemblockType.Sorted ⟨1, 0x1000, fun _ => ⟨0, 0x1000⟩⟩ :=
    ⟨by decide, by decide, by decide, fun i lt => by simp at lt⟩
  have success : (memblockAdd ⟨⟨1, 0x1000, fun _ => ⟨0, 0x1000⟩⟩, ⟨1, 0x1000, fun _ => ⟨0, 0x1000⟩⟩⟩ 0x2000
      uintptrMax).map Prod.snd = some 0 := by decide +kernel
  obtain ⟨⟨m', status⟩, run, rfl⟩ := Option.map_eq_some_iff.1 success
  exact ⟨_, m', one, run,
    (memblock_caps_iff ⟨_, _⟩ one one 0x2000 uintptrMax (by decide)).1.2 (.inl (by decide)) m' run⟩

/-- The first region reaches past the top of the address space. -/
theorem memblock_caps_first : Memblock.zero.memory.Sorted ∧
    ∃ m', memblockAdd .zero uintptrMax 2 = some (m', 0) ∧ m'.memory.regions 0 = ⟨uintptrMax, 2⟩ ∧
      ¬ Capped Memblock.zero.memory m'.memory uintptrMax 2 := by
  have empty : Memblock.zero.memory.Sorted :=
    ⟨by decide, fun i lt => absurd lt (Nat.not_lt_zero i), fun i lt => absurd lt (Nat.not_lt_zero i),
      fun i lt => absurd lt (Nat.not_lt_zero (i + 1))⟩
  refine ⟨empty, _, rfl, rfl, ?_⟩
  intro capped
  exact absurd (capped.bounded 0 (by decide)) (by decide)

end

end MiaowOs
