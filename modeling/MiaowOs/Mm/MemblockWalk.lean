import MiaowOs.Mm.MemblockAdd
import Mathlib

/-!
# The walk over the free ranges

`memblock_next_free` steps through memory minus reserved: a cursor stands for
the list of ranges still to be reported, one call takes its head, and from a
zeroed cursor the list is the difference of the two arrays (`freeRanges`), in
order and with every range maximal. `memblock_phys_alloc` reserves the first
aligned fit it meets on that walk.
-/

namespace MiaowOs
open Spans

/-- The end of the last region of a list; the walk takes 0 before the first. -/
def lastEnd : List MemblockRegion → Nat
  | [] => 0
  | [r] => r.limit
  | _ :: r :: l => lastEnd (r :: l)

@[simp] theorem lastEnd_concat (l : List MemblockRegion) (r : MemblockRegion) : lastEnd (l ++ [r]) = r.limit := by
  induction l with
  | nil => rfl
  | cons a l ih =>
    cases l with
    | nil => rfl
    | cons b l => exact ih

/-- What memory regions `ms` leave free, past the reserved regions `done` and
before the reserved regions `rs`. -/
abbrev freeAfter (ms done rs : List MemblockRegion) : List (Nat × Nat) :=
  diff MemblockRegion.base MemblockRegion.limit uintptrMax ms (lastEnd done) rs

/-- The free ranges: memory minus reserved. -/
abbrev freeRanges (memory reserved : List MemblockRegion) : List (Nat × Nat) := freeAfter memory [] reserved

/-- The two arrays of a memory map between calls. -/
structure Mapped (memblock : Memblock) (memory reserved : List MemblockRegion) : Prop where
  memory : Canonical memblock.memory memory
  reserved : Canonical memblock.reserved reserved

/-- The cursor has the ranges `ranges` ahead of it. -/
def Ahead (memory reserved : List MemblockRegion) (cursor : MemblockCursor) (ranges : List (Nat × Nat)) : Prop :=
  ∃ passed ms done rs, memory = passed ++ ms ∧ reserved = done ++ rs ∧ cursor = ⟨passed.length, done.length⟩ ∧
    ranges = freeAfter ms done rs

section
variable {memblock : Memblock} {memory reserved passed ms done rs : List MemblockRegion} {m : MemblockRegion}
  {cursor : MemblockCursor} {ranges : List (Nat × Nat)} {base size align fuel : Nat}

theorem Ahead.zero : Ahead memory reserved .zero (freeRanges memory reserved) :=
  ⟨[], memory, [], reserved, rfl, rfl, rfl, rfl⟩

theorem freeRanges_length (h : Mapped memblock memory reserved) : (freeRanges memory reserved).length ≤ 32 := by
  have := h.memory.fits
  have := h.reserved.fits
  simp only [initMemblockRegions] at *
  exact diff_length.trans (by omega)

/-- **The walk is exact**: the free ranges cover memory minus reserved. -/
theorem mem_freeRanges (h : Mapped memblock memory reserved) {x : Nat} :
    x ∈ cover Prod.fst Prod.snd (freeRanges memory reserved) ↔ x ∈ addresses memory ∧ x ∉ addresses reserved := by
  refine (mem_cover_diff h.memory.apart h.reserved.apart h.memory.bounded fun _ _ => Nat.zero_le _).trans ?_
  simp

/-- The free ranges are in order, and never touch: each is maximal. -/
theorem freeRanges_separated (h : Mapped memblock memory reserved) :
    Separated Prod.fst Prod.snd (freeRanges memory reserved) :=
  diff_separated h.memory.apart h.reserved.apart h.memory.bounded (fun _ _ => Nat.zero_le _)
    fun _ _ _ _ => .inl (Nat.zero_le _)

theorem freeRanges_bounded (h : Mapped memblock memory reserved) {p : Nat × Nat}
    (mem : p ∈ freeRanges memory reserved) : p.2 ≤ uintptrMax := by
  have ne := (freeRanges_separated h).nonempty p mem
  have inside := ((mem_freeRanges h).1 ⟨p, mem, Nat.le_sub_one_of_lt ne, by omega⟩).1
  have := (bounded_iff h.memory.apart.nonempty).1 h.memory.bounded _ inside
  omega

/-! The head of what is free after `done`, by the branches of the inner loop. -/

theorem freeAfter_stop (stop : m.limit ≤ lastEnd done) : freeAfter (m :: ms) done rs = freeAfter ms done rs := by
  unfold freeAfter
  cases rs with
  | nil => rw [diff, if_pos stop]
  | cons r rs => rw [diff, if_pos stop]

theorem freeAfter_last (more : ¬ m.limit ≤ lastEnd done) : freeAfter (m :: ms) done [] =
    (max m.base (lastEnd done), min m.limit uintptrMax) :: freeAfter ms done [] := by
  unfold freeAfter
  rw [diff, if_neg more]

theorem freeAfter_short {r : MemblockRegion} (more : ¬ m.limit ≤ lastEnd done) (first : m.base < r.base)
    (short : m.limit ≤ r.base) :
    freeAfter (m :: ms) done (r :: rs) =
      (max m.base (lastEnd done), min m.limit r.base) :: freeAfter ms done (r :: rs) := by
  unfold freeAfter
  rw [diff, if_neg more, if_pos first, if_pos short]

theorem freeAfter_gap {r : MemblockRegion} (more : ¬ m.limit ≤ lastEnd done) (first : m.base < r.base)
    (long : ¬ m.limit ≤ r.base) :
    freeAfter (m :: ms) done (r :: rs) =
      (max m.base (lastEnd done), min m.limit r.base) :: freeAfter (m :: ms) (done ++ [r]) rs := by
  unfold freeAfter
  rw [diff, if_neg more, if_pos first, if_neg long, lastEnd_concat]

theorem freeAfter_past {r : MemblockRegion} (more : ¬ m.limit ≤ lastEnd done) (past : ¬ m.base < r.base) :
    freeAfter (m :: ms) done (r :: rs) = freeAfter (m :: ms) (done ++ [r]) rs := by
  unfold freeAfter
  rw [diff, if_neg more, if_neg past, lastEnd_concat]

/-! ## `memblock_next_free` -/

/-- The gap before the reserved regions `rs` starts where those before them end. -/
theorem gapStart_eq (h : Holds memblock.reserved (done ++ rs)) (bounded : ∀ r ∈ done, r.limit ≤ uintptrMax) :
    gapStart memblock done.length = some (lastEnd done) := by
  obtain rfl | ⟨done, r, rfl⟩ := List.eq_nil_or_concat' done
  · rfl
  · have split : Holds memblock.reserved (done ++ r :: rs) := by simpa using h
    have load : memblock.reserved.load ((done ++ [r]).length - 1) = some r := split.load (by simp)
    rw [gapStart, if_pos (by simp), bind_of_some load, add64_limit (bounded r (by simp)), lastEnd_concat]
    rfl

theorem gapEnd_cons {r : MemblockRegion} (h : Holds memblock.reserved (done ++ r :: rs)) :
    gapEnd memblock done.length = some r.base := by
  rw [gapEnd, if_pos (by simp [h.cnt]), bind_of_some (h.load rfl)]
  rfl

theorem gapEnd_nil (h : Holds memblock.reserved (done ++ [])) : gapEnd memblock done.length = some uintptrMax := by
  rw [gapEnd, if_neg (by simp [h.cnt])]
  rfl

theorem ite_gt_eq_max (a b : Nat) : (if a > b then a else b) = max a b := by
  split <;> omega

/-- The inner loop takes the next range of the area `m`, or leaves the area. -/
theorem gapScan_spec (h : Mapped memblock memory reserved) (hm : memory = passed ++ m :: ms)
    (hr : reserved = done ++ rs) (enough : rs.length < fuel) : ∃ cursor range,
      gapScan memblock m.base m.limit fuel ⟨passed.length, done.length⟩ = some (cursor, range) ∧
      match range with
      | none => cursor.memory = passed.length ∧
        Ahead memory reserved { cursor with memory := add32 cursor.memory 1 } (freeAfter (m :: ms) done rs)
      | some range => ∃ ranges, freeAfter (m :: ms) done rs = range :: ranges ∧ Ahead memory reserved cursor ranges := by
  have word : initMemblockRegions + 1 < 2 ^ 32 := by decide
  have mfits := h.memory.fits
  have rfits := h.reserved.fits
  have ne : m.base < m.limit := h.memory.apart.nonempty m (by simp [hm])
  have mtop : m.limit ≤ uintptrMax := h.memory.bounded m (by simp [hm])
  have nextArea : add32 passed.length 1 = (passed ++ [m]).length := by
    simp only [hm, List.length_append, List.length_cons, List.length_nil] at mfits ⊢
    exact add32_of_lt (by omega)
  have hm' : memory = (passed ++ [m]) ++ ms := by simp [hm]
  induction rs generalizing done fuel with
  | nil =>
    obtain ⟨fuel, rfl⟩ := Nat.exists_eq_add_one_of_ne_zero (Nat.ne_zero_of_lt enough)
    have held : Holds memblock.reserved (done ++ []) := hr ▸ h.reserved.toHolds
    have inRange : done.length < add32 memblock.reserved.cnt 1 := by
      rw [held.cnt, List.append_nil, add32_of_lt (by simp only [hr, List.append_nil] at rfits; omega)]
      omega
    rw [gapScan, if_pos inRange, bind_of_some (gapStart_eq held fun r mem => h.reserved.bounded r (by simp [hr, mem])),
      bind_of_some (gapEnd_nil held)]
    by_cases stop : m.limit ≤ lastEnd done
    · rw [if_pos stop]
      exact ⟨_, none, rfl, rfl, passed ++ [m], ms, done, [], hm', hr, by simp only [nextArea], freeAfter_stop stop⟩
    · rw [if_neg stop, if_pos (by omega), if_pos mtop, ite_gt_eq_max, ite_lt_eq_min]
      exact ⟨_, some _, rfl, freeAfter ms done [], freeAfter_last stop, passed ++ [m], ms, done, [], hm', hr,
        by simp only [nextArea], rfl⟩
  | cons r rs ih =>
    obtain ⟨fuel, rfl⟩ := Nat.exists_eq_add_one_of_ne_zero (Nat.ne_zero_of_lt enough)
    have held : Holds memblock.reserved (done ++ r :: rs) := hr ▸ h.reserved.toHolds
    have hr' : reserved = (done ++ [r]) ++ rs := by simp [hr]
    simp only [hr, List.length_append, List.length_cons] at rfits
    have inRange : done.length < add32 memblock.reserved.cnt 1 := by
      rw [held.cnt, List.length_append, List.length_cons, add32_of_lt (by omega)]
      omega
    have nextGap : add32 done.length 1 = (done ++ [r]).length := by
      rw [List.length_append, List.length_singleton]
      exact add32_of_lt (by omega)
    rw [gapScan, if_pos inRange, bind_of_some (gapStart_eq held fun r mem => h.reserved.bounded r (by simp [hr, mem])),
      bind_of_some (gapEnd_cons held)]
    by_cases stop : m.limit ≤ lastEnd done
    · rw [if_pos stop]
      exact ⟨_, none, rfl, rfl, passed ++ [m], ms, done, r :: rs, hm', hr, by simp only [nextArea],
        freeAfter_stop stop⟩
    rw [if_neg stop]
    by_cases first : m.base < r.base
    · rw [if_pos first, ite_gt_eq_max, ite_lt_eq_min]
      by_cases short : m.limit ≤ r.base
      · rw [if_pos short]
        exact ⟨_, some _, rfl, freeAfter ms done (r :: rs), freeAfter_short stop first short, passed ++ [m], ms, done,
          r :: rs, hm', hr, by simp only [nextArea], rfl⟩
      · rw [if_neg short]
        exact ⟨_, some _, rfl, freeAfter (m :: ms) (done ++ [r]) rs, freeAfter_gap stop first short, passed, m :: ms,
          done ++ [r], rs, hm, hr', by simp only [nextGap], rfl⟩
    · rw [if_neg first]
      obtain ⟨cursor, range, run, post⟩ := ih hr'
        (show rs.length < fuel by simpa using enough)
      rw [freeAfter_past stop first, nextGap]
      exact ⟨cursor, range, run, post⟩

/-- The outer loop reports the head of what is ahead. -/
theorem areaScan_spec (h : Mapped memblock memory reserved) (ahead : Ahead memory reserved cursor ranges)
    (enough : memory.length < fuel + cursor.memory) : ∃ cursor',
      areaScan memblock fuel cursor = some (cursor', ranges.head?) ∧ Ahead memory reserved cursor' ranges.tail := by
  induction fuel generalizing cursor with
  | zero =>
    obtain ⟨passed, ms, done, rs, hm, -, rfl, -⟩ := ahead
    simp only [hm, List.length_append] at enough
    omega
  | succ fuel ih =>
    obtain ⟨passed, ms, done, rs, hm, hr, rfl, rfl⟩ := ahead
    have held : Holds memblock.memory (passed ++ ms) := hm ▸ h.memory.toHolds
    have rfits := h.reserved.fits
    have mfits := h.memory.fits
    cases ms with
    | nil =>
      rw [areaScan, if_neg (by simp [held.cnt])]
      exact ⟨_, by rw [freeAfter, diff]; rfl, passed, [], done, rs, hm, hr, rfl, by simp only [freeAfter]; rw [diff]; rfl⟩
    | cons m ms =>
      obtain ⟨cursor, range, run, post⟩ := gapScan_spec h hm hr (show rs.length < loopBound by
        simp only [hr, List.length_append, initMemblockRegions] at rfits
        simp only [loopBound]
        omega)
      have mtop : m.limit ≤ uintptrMax := h.memory.bounded m (by simp [hm])
      rw [areaScan, if_pos (by simp [held.cnt]), bind_of_some (held.load rfl), add64_limit mtop, bind_of_some run]
      cases range with
      | none =>
        obtain ⟨same, ahead⟩ := post
        simp only [hm, List.length_append, List.length_cons, initMemblockRegions] at enough mfits
        refine ih ahead ?_
        simp only [hm, same, List.length_append, List.length_cons, add32_of_lt (a := passed.length) (b := 1) (by omega)]
        omega
      | some range =>
        obtain ⟨ranges, eq, ahead⟩ := post
        rw [eq]
        exact ⟨cursor, rfl, ahead⟩

/-- **`memblock_next_free`** reports the ranges ahead of the cursor one by one. -/
theorem memblockNextFree_spec (h : Mapped memblock memory reserved) (ahead : Ahead memory reserved cursor ranges) :
    ∃ cursor', memblockNextFree memblock cursor = some (cursor', ranges.head?) ∧
      Ahead memory reserved cursor' ranges.tail := by
  have fits := h.memory.fits
  exact areaScan_spec h ahead (by simp only [loopBound, initMemblockRegions] at *; omega)

/-! ## The whole walk -/

/-- The results of `n` calls of `memblock_next_free` in a row. -/
def memblockReports (memblock : Memblock) : Nat → MemblockCursor → Option (List (Option (Nat × Nat)))
  | 0, _ => some []
  | n + 1, cursor => do
    let (cursor, range) ← memblockNextFree memblock cursor
    let later ← memblockReports memblock n cursor
    return range :: later

/-- The `i`-th call reports the `i`-th range ahead, and nothing once they are used up. -/
theorem memblockReports_spec (h : Mapped memblock memory reserved) (ahead : Ahead memory reserved cursor ranges)
    (n : Nat) : memblockReports memblock n cursor = some ((List.range n).map fun i => ranges[i]?) := by
  induction n generalizing cursor ranges with
  | zero => rfl
  | succ n ih =>
    obtain ⟨cursor', next, ahead'⟩ := memblockNextFree_spec h ahead
    rw [memblockReports, bind_of_some next]
    simp only []
    rw [bind_of_some (ih ahead'), List.range_succ_eq_map]
    simp [List.head?_eq_getElem?, List.getElem?_tail, Function.comp_def]

/-- Two region arrays with the same live regions. -/
def MemblockType.Agrees (type type' : MemblockType) : Prop :=
  type'.cnt = type.cnt ∧ ∀ i < type.cnt, type'.regions i = type.regions i

section Agrees
variable {memblock' : Memblock} (hm : memblock.memory.Agrees memblock'.memory)
  (hr : memblock.reserved.Agrees memblock'.reserved) (small : memblock.reserved.cnt ≤ initMemblockRegions)

theorem MemblockType.Agrees.load {type type' : MemblockType} (h : type.Agrees type') {index : Nat}
    (lt : index < type.cnt) : type'.load index = type.load index := by
  rw [MemblockType.load, MemblockType.load, h.2 index lt]

include hr in
theorem gapStart_congr {index : Nat} (le : index ≤ memblock.reserved.cnt) :
    gapStart memblock' index = gapStart memblock index := by
  unfold gapStart
  split
  · next ne => rw [hr.load (by omega)]
  · rfl

include hr in
theorem gapEnd_congr {index : Nat} : gapEnd memblock' index = gapEnd memblock index := by
  unfold gapEnd
  rw [hr.1]
  split
  · next lt => rw [hr.load lt]
  · rfl

include hr small in
theorem gapScan_congr {areaStart areaEnd : Nat} :
    gapScan memblock' areaStart areaEnd fuel cursor = gapScan memblock areaStart areaEnd fuel cursor := by
  have next : add32 memblock.reserved.cnt 1 = memblock.reserved.cnt + 1 :=
    add32_of_lt (by simp only [initMemblockRegions] at small; omega)
  induction fuel generalizing cursor with
  | zero => rfl
  | succ fuel ih =>
    rw [gapScan, gapScan, hr.1, next]
    split
    · next lt => simp only [gapStart_congr hr (Nat.le_of_lt_succ lt), gapEnd_congr hr, ih]
    · rfl

include hm hr small in
/-- **The walk reads live regions only**: slots from `cnt` on do not matter. -/
theorem areaScan_congr : areaScan memblock' fuel cursor = areaScan memblock fuel cursor := by
  induction fuel generalizing cursor with
  | zero => rfl
  | succ fuel ih =>
    rw [areaScan, areaScan, hm.1]
    split
    · next lt => simp only [hm.load lt, gapScan_congr hr small, ih]
    · rfl

include hm hr small in
theorem memblockReports_congr {n : Nat} : memblockReports memblock' n cursor = memblockReports memblock n cursor := by
  induction n generalizing cursor with
  | zero => rfl
  | succ n ih => simp only [memblockReports, memblockNextFree, areaScan_congr hm hr small, ih]

end Agrees

/-- A region array with non-empty, sorted, separated regions that do not wrap;
nothing is said about `total_size`. -/
structure MemblockType.Sorted (type : MemblockType) : Prop where
  cnt_le : type.cnt ≤ initMemblockRegions
  nonempty : ∀ i < type.cnt, 0 < (type.regions i).size
  no_wrap : ∀ i < type.cnt, (type.regions i).base + (type.regions i).size ≤ uintptrMax
  separated : ∀ i, i + 1 < type.cnt →
    (type.regions i).base + (type.regions i).size < (type.regions (i + 1)).base

/-- The addresses a region array denotes. -/
def MemblockType.addresses (type : MemblockType) : Set Nat :=
  {x | ∃ i < type.cnt, (type.regions i).base ≤ x ∧ x < (type.regions i).base + (type.regions i).size}

theorem Holds.addresses_eq {type : MemblockType} {l : List MemblockRegion} (h : Holds type l) :
    type.addresses = addresses l := by
  ext x
  rw [← h.list_eq, mem_cover]
  simp [MemblockType.addresses, MemblockType.list, MemblockRegion.limit]

/-- A sorted array is canonical but for its `total_size`. -/
theorem MemblockType.Sorted.canonical {type : MemblockType} (h : type.Sorted) :
    Canonical { type with totalSize := sizes type.list % 2 ^ 64 } type.list := by
  have length : type.list.length = type.cnt := by simp [MemblockType.list]
  have slot : ∀ i (lt : i < type.list.length), type.list[i] = type.regions i := fun i lt => by
    simp [MemblockType.list]
  refine ⟨⟨length.symm, length ▸ h.cnt_le, fun i lt => ?_, rfl⟩, ⟨fun r mem => ?_, ?_⟩, fun r mem => ?_⟩
  · rw [List.getElem?_eq_getElem lt, slot i lt]
  · obtain ⟨i, lt, rfl⟩ := List.mem_map.1 mem
    have := h.nonempty i (List.mem_range.1 lt)
    simp only [MemblockRegion.limit]
    omega
  · -- neighbours are apart, and the regions between two others are not empty
    rw [List.pairwise_iff_getElem]
    intro i j hi hj lt
    rw [slot i hi, slot j hj]
    rw [length] at hj
    induction j with
    | zero => omega
    | succ j ih =>
      rcases Nat.lt_succ_iff_lt_or_eq.1 lt with before | rfl
      · have first := ih (by omega) before
        have next := h.separated j hj
        simp only [MemblockRegion.limit] at *
        omega
      · exact h.separated i hj
  · obtain ⟨i, lt, rfl⟩ := List.mem_map.1 mem
    exact h.no_wrap i (List.mem_range.1 lt)

/-- **The free-range walk is exact.** From a zeroed cursor the calls report the
maximal intervals of memory minus reserved in increasing order, at most
`memory.cnt + reserved.cnt` of them, and nothing from then on; only the live
regions of the two arrays matter. -/
theorem memblockNextFree_exact {memblock : Memblock} (hm : memblock.memory.Sorted) (hr : memblock.reserved.Sorted) :
    ∃ ranges : List (Nat × Nat), ranges.length ≤ memblock.memory.cnt + memblock.reserved.cnt ∧
      (∀ n, memblockReports memblock n .zero = some ((List.range n).map fun i => ranges[i]?)) ∧
      ranges.Pairwise (fun a b => a.2 < b.1) ∧
      (∀ s e, (s, e) ∈ ranges ↔ MaximalIn (memblock.memory.addresses \ memblock.reserved.addresses) s e) ∧
      ∀ memblock' : Memblock, memblock.memory.Agrees memblock'.memory →
        memblock.reserved.Agrees memblock'.reserved →
        ∀ n, memblockReports memblock' n .zero = memblockReports memblock n .zero := by
  obtain ⟨canonical, mapped, agm, agr⟩ : ∃ canonical : Memblock,
      Mapped canonical memblock.memory.list memblock.reserved.list ∧
      memblock.memory.Agrees canonical.memory ∧ memblock.reserved.Agrees canonical.reserved :=
    ⟨⟨_, _⟩, ⟨hm.canonical, hr.canonical⟩, ⟨rfl, fun _ _ => rfl⟩, ⟨rfl, fun _ _ => rfl⟩⟩
  have separated := freeRanges_separated mapped
  refine ⟨freeRanges memblock.memory.list memblock.reserved.list, ?_, fun n => ?_, separated.apart, fun s e => ?_,
    fun memblock' agm agr n => memblockReports_congr agm agr hr.cnt_le⟩
  · refine diff_length.trans ?_
    simp [MemblockType.list]
  · rw [← memblockReports_congr agm agr hr.cnt_le]
    exact memblockReports_spec mapped .zero n
  · have sets : memblock.memory.addresses \ memblock.reserved.addresses =
        cover Prod.fst Prod.snd (freeRanges memblock.memory.list memblock.reserved.list) := by
      ext x
      rw [mem_freeRanges mapped, ← hm.canonical.addresses_eq, ← hr.canonical.addresses_eq]
      rfl
    rw [sets, separated.maximal_iff]
    constructor
    · intro mem
      exact ⟨(s, e), mem, rfl, rfl⟩
    · intro reported
      obtain ⟨p, mem, hs, he⟩ := reported
      rwa [← hs, ← he]

/-- A reserved region at address 0 and one in the middle of memory. -/
theorem memblockNextFree_exact_two_gaps :
    ∃ memblock : Memblock, memblock.memory.Sorted ∧ memblock.reserved.Sorted ∧
      memblockReports memblock 3 .zero = some [some (0x1000, 0x5000), some (0x6000, 0x10000), none] ∧
      ∃ ranges : List (Nat × Nat), ranges.length ≤ 3 ∧
        ∀ s e, (s, e) ∈ ranges ↔ MaximalIn (memblock.memory.addresses \ memblock.reserved.addresses) s e := by
  have hm : MemblockType.Sorted ⟨1, 0, fun _ => ⟨0, 0x10000⟩⟩ :=
    ⟨by decide, by decide, by decide, fun i lt => by simp at lt⟩
  have hr : MemblockType.Sorted ⟨2, 0, fun i => if i = 0 then ⟨0, 0x1000⟩ else ⟨0x5000, 0x1000⟩⟩ :=
    ⟨by decide, by decide, by decide, fun i lt => by
      obtain rfl : i = 0 := by simp only at lt; omega
      decide⟩
  obtain ⟨ranges, length, -, -, maximal, -⟩ := @memblockNextFree_exact ⟨_, _⟩ hm hr
  exact ⟨⟨_, _⟩, hm, hr, by decide +kernel, ranges, length, maximal⟩

/-! ## `memblock_reserve` and `memblock_phys_alloc` -/

/-- `memblock_add` and `memblock_reserve` keep a memory map; the reserved
addresses grow by the range, or nothing changes. -/
theorem memblockReserve_spec (h : Mapped memblock memory reserved) (le : base + size ≤ uintptrMax) :
    (∃ memblock' reserved', memblockReserve memblock base size = some (memblock', 0) ∧
      Mapped memblock' memory reserved' ∧
      ∀ x, x ∈ addresses reserved' ↔ x ∈ addresses reserved ∨ base ≤ x ∧ x < base + size) ∨
    memblockReserve memblock base size = some (memblock, -1) := by
  rcases memblockAddRange_spec h.reserved le with ⟨type', l', run, canonical, covers⟩ | ⟨run, -⟩
  · exact .inl ⟨{ memblock with reserved := type' }, l', by rw [memblockReserve, bind_of_some run]; rfl,
      ⟨h.memory, canonical⟩, covers⟩
  · exact .inr (by rw [memblockReserve, bind_of_some run]; rfl)

theorem memblockAdd_spec (h : Mapped memblock memory reserved) (le : base + size ≤ uintptrMax) :
    (∃ memblock' memory', memblockAdd memblock base size = some (memblock', 0) ∧ Mapped memblock' memory' reserved ∧
      ∀ x, x ∈ addresses memory' ↔ x ∈ addresses memory ∨ base ≤ x ∧ x < base + size) ∨
    memblockAdd memblock base size = some (memblock, -1) := by
  rcases memblockAddRange_spec h.memory le with ⟨type', l', run, canonical, covers⟩ | ⟨run, -⟩
  · exact .inl ⟨{ memblock with memory := type' }, l', by rw [memblockAdd, bind_of_some run]; rfl,
      ⟨canonical, h.reserved⟩, covers⟩
  · exact .inr (by rw [memblockAdd, bind_of_some run]; rfl)

/-- What `memblock_phys_alloc` does: it returns 0 and changes nothing, or it
reserves a range of the returned address. -/
def PhysAllocated (memblock : Memblock) (memory reserved : List MemblockRegion) (size : Nat)
    (memblock' : Memblock) (address : Nat) : Prop :=
  (memblock' = memblock ∧ address = 0) ∨
  ∃ reserved', Mapped memblock' memory reserved' ∧ address + size ≤ uintptrMax ∧
    ∀ x, x ∈ addresses reserved' ↔ x ∈ addresses reserved ∨ address ≤ x ∧ x < address + size

theorem reserveAt_spec (h : Mapped memblock memory reserved) (le : base + size ≤ uintptrMax) :
    ∃ memblock' address, reserveAt memblock base size = some (memblock', address) ∧
      PhysAllocated memblock memory reserved size memblock' address := by
  rcases memblockReserve_spec h le with ⟨memblock', reserved', run, mapped, covers⟩ | run
  · exact ⟨memblock', base, by rw [reserveAt, bind_of_some run]; rfl, .inr ⟨reserved', mapped, le, covers⟩⟩
  · exact ⟨memblock, 0, by rw [reserveAt, bind_of_some run]; rfl, .inl ⟨rfl, rfl⟩⟩

/-- The loop stops at the first fit. -/
theorem fitScan_spec (h : Mapped memblock memory reserved) (ahead : Ahead memory reserved cursor ranges)
    (top : ∀ p ∈ ranges, p.2 ≤ uintptrMax) (enough : ranges.length < fuel) : ∃ memblock' address,
      fitScan memblock size align fuel cursor = some (memblock', address) ∧
      PhysAllocated memblock memory reserved size memblock' address := by
  induction ranges generalizing cursor fuel with
  | nil =>
    obtain ⟨fuel, rfl⟩ := Nat.exists_eq_add_one_of_ne_zero (Nat.ne_zero_of_lt enough)
    obtain ⟨cursor', next, -⟩ := memblockNextFree_spec h ahead
    rw [fitScan, bind_of_some next]
    exact ⟨memblock, 0, rfl, .inl ⟨rfl, rfl⟩⟩
  | cons range ranges ih =>
    obtain ⟨fuel, rfl⟩ := Nat.exists_eq_add_one_of_ne_zero (Nat.ne_zero_of_lt enough)
    obtain ⟨cursor', next, ahead'⟩ := memblockNextFree_spec h ahead
    obtain ⟨start, limit⟩ := range
    have limit_le : limit ≤ uintptrMax := top (start, limit) (by simp)
    rw [fitScan, bind_of_some next]
    simp only [List.head?_cons]
    generalize sub64 (add64 start align) 1 &&& not64 (sub64 align 1) = candidate
    by_cases fits : candidate < limit ∧ limit - candidate ≥ size
    · rw [if_pos fits]
      exact reserveAt_spec h (by omega)
    · rw [if_neg fits]
      exact ih ahead' (fun p mem => top p (by simp [mem])) (by simpa using enough)

theorem memblockPhysAlloc_spec (size align : Nat) (h : Mapped memblock memory reserved) : ∃ memblock' address,
    memblockPhysAlloc memblock size align = some (memblock', address) ∧
    PhysAllocated memblock memory reserved size memblock' address := by
  rw [memblockPhysAlloc]
  by_cases zero : size = 0
  · rw [if_pos zero]
    exact ⟨memblock, 0, rfl, .inl ⟨rfl, rfl⟩⟩
  · rw [if_neg zero]
    exact fitScan_spec h .zero (fun p mem => freeRanges_bounded h mem)
      ((freeRanges_length h).trans_lt (by decide))

end

end MiaowOs
