import MiaowOs.Mm.MemblockSets

/-!
# Isolating a range and inserting its pieces

The two loops of `memblock.c` that grow the array they walk over, in any array
whose regions are in order: `memblock_isolate_range` cuts at most two regions
and finds exactly the regions inside the range, and the two passes of
`memblock_add_range` agree on how many regions are inserted and where.
-/

namespace MiaowOs
open Spans

/-! ## `memblock_isolate_range` -/

section
variable (type : MemblockType) (total : Nat)

/-- A split moves bytes from one region to another, so `total_size` stays. -/
theorem splitRegion_withTotal (word : total < 2 ^ 64) (index : Nat) (region : MemblockRegion) (cut : Nat) :
    splitRegion (type.withTotal total) index region cut =
      (splitRegion type index region cut).map (·.withTotal total) := by
  have back : add64 (sub64 total (sub64 cut region.base)) (sub64 cut region.base) = total := by
    unfold add64 sub64
    omega
  unfold splitRegion
  rw [store_withTotal]
  apply bind_map
  intro stored
  have taken : { stored.withTotal total with
      totalSize := sub64 (stored.withTotal total).totalSize (sub64 cut region.base) } =
      ({ stored with totalSize := sub64 stored.totalSize (sub64 cut region.base) } : MemblockType).withTotal
        (sub64 total (sub64 cut region.base)) := rfl
  rw [taken, insert_withTotal, back]

theorem isolateScan_withTotal (word : total < 2 ^ 64) (base limit fuel index s e : Nat) :
    isolateScan base limit fuel (type.withTotal total) index s e =
      (isolateScan base limit fuel type index s e).map fun r => (r.1.withTotal total, r.2) := by
  induction fuel generalizing type index s e with
  | zero => rfl
  | succ fuel ih =>
    have cnt : (type.withTotal total).cnt = type.cnt := rfl
    have load : (type.withTotal total).load index = type.load index := rfl
    unfold isolateScan
    rw [cnt, load]
    by_cases more : index < type.cnt
    · rw [if_pos more, if_pos more]
      cases type.load index with
      | none => rfl
      | some region =>
        rw [bind_of_some rfl, bind_of_some rfl]
        by_cases stop : region.base ≥ limit
        · rw [if_pos stop, if_pos stop]
          rfl
        rw [if_neg stop, if_neg stop]
        by_cases skip : add64 region.base region.size ≤ base
        · rw [if_pos skip, if_pos skip]
          exact ih type (add32 index 1) s e
        rw [if_neg skip, if_neg skip]
        by_cases low : region.base < base
        · rw [if_pos low, if_pos low, splitRegion_withTotal type total word]
          apply bind_map
          intro split
          exact ih split (add32 index 1) s e
        rw [if_neg low, if_neg low]
        by_cases high : add64 region.base region.size > limit
        · rw [if_pos high, if_pos high, splitRegion_withTotal type total word]
          apply bind_map
          intro split
          exact ih split (add32 (sub32 index 1) 1) s e
        · rw [if_neg high, if_neg high]
          exact ih type (add32 index 1) (if e = 0 then index else s) (add32 index 1)
    · rw [if_neg more, if_neg more]
      rfl

end

/-- Region `r` lies on both sides of the address `cut`. -/
def MemblockRegion.Straddles (r : MemblockRegion) (cut : Nat) : Prop := r.base < cut ∧ cut < r.base + r.size

/-- The range `[base, limit)` is isolated in `type'`, as the slots `s` to `e`. -/
structure RangeIsolated (type type' : MemblockType) (base limit s e : Nat) : Prop where
  inserted : type.cnt ≤ type'.cnt ∧ type'.cnt ≤ type.cnt + 2
  same : type'.addresses = type.addresses
  total : type'.totalSize = type.totalSize
  cut : ∀ i < type'.cnt, ¬ (type'.regions i).Straddles base ∧ ¬ (type'.regions i).Straddles limit
  window : s ≤ e ∧ e ≤ type'.cnt
  members : ∀ i < type'.cnt, s ≤ i ∧ i < e ↔
    base ≤ (type'.regions i).base ∧ (type'.regions i).base + (type'.regions i).size ≤ limit

section
variable {type type' : MemblockType} {l A M B : List MemblockRegion} {base limit s e : Nat}

/-- The marks delimit the regions inside the range. -/
theorem Isolated.window (iso : Isolated base limit l type' s e A M B) : s ≤ e ∧ e ≤ type'.cnt := by
  have marks := iso.marks
  have cnt := iso.holds.cnt
  simp only [List.length_append] at cnt
  unfold Marks at marks
  split at marks <;> omega

/-- The slots between the marks are those of the regions inside the range. -/
theorem Isolated.members (iso : Isolated base limit l type' s e A M B) {i : Nat} (lt : i < type'.cnt) :
    s ≤ i ∧ i < e ↔ base ≤ (type'.regions i).base ∧ (type'.regions i).limit ≤ limit := by
  have cnt := iso.holds.cnt
  have slot := iso.holds.regions i (by omega)
  have marks : s ≤ i ∧ i < e ↔ A.length ≤ i ∧ i < A.length + M.length := by
    have marks := iso.marks
    unfold Marks at marks
    split at marks
    · next empty =>
      subst empty
      simp only [List.length_nil]
      omega
    · omega
  simp only [List.length_append] at cnt
  rw [marks]
  rcases Nat.lt_or_ge i A.length with low | high
  · rw [List.getElem?_append_left low] at slot
    have here := List.mem_of_getElem? slot
    have below := iso.below _ here
    have ne := iso.before.nonempty _ here
    omega
  · rw [List.getElem?_append_right high] at slot
    rcases Nat.lt_or_ge (i - A.length) M.length with low | above
    · rw [List.getElem?_append_left low] at slot
      have inside := iso.inside _ (List.mem_of_getElem? slot)
      omega
    · rw [List.getElem?_append_right above] at slot
      have here := List.mem_of_getElem? slot
      have above := iso.above _ here
      have ne := iso.after.nonempty _ here
      omega

/-- No region of an isolated array straddles an end of the range. -/
theorem Isolated.cut (iso : Isolated base limit l type' s e A M B) (le : base ≤ limit) {i : Nat} (lt : i < type'.cnt) :
    ¬ (type'.regions i).Straddles base ∧ ¬ (type'.regions i).Straddles limit := by
  have here := List.mem_of_getElem? (iso.holds.regions i (by rw [← iso.holds.cnt]; exact lt))
  unfold MemblockRegion.Straddles
  rcases List.mem_append.1 here with below | here
  · have := iso.below _ below
    simp only [MemblockRegion.limit] at this
    omega
  · rcases List.mem_append.1 here with inside | above
    · have := iso.inside _ inside
      simp only [MemblockRegion.limit] at this
      omega
    · have := iso.above _ above
      omega

/-- **Isolation terminates and is exact.** With two free slots, the range is
isolated without leaving the array. -/
theorem memblockIsolateRange_exact (sorted : type.Sorted) (room : type.cnt + 2 ≤ initMemblockRegions)
    (word : base ≤ uintptrMax) (total : type.totalSize ≤ uintptrMax) {size : Nat} (some_ : 0 < size) :
    ∃ type' s e, memblockIsolateRange type base size = some (some (type', s, e)) ∧
      RangeIsolated type type' base (min (base + size) uintptrMax) s e := by
  have h := sorted.canonical
  have small : type.totalSize < 2 ^ 64 := Nat.lt_of_le_of_lt total (by decide)
  have length : type.list.length = type.cnt := by simp [MemblockType.list]
  simp only [initMemblockRegions] at room
  obtain ⟨type', s, e, A, M, B, run, iso, least, most⟩ := isolateScan_spec (A := [])
    h.toHolds List.length_nil.symm h.apart (by simp) h.bounded
    (show base ≤ min (base + size) uintptrMax by omega) (by omega)
    (show type.list.length + 2 ≤ initMemblockRegions by rw [length]; exact room)
    (show type.list.length + 3 < loopBound by simp only [length, loopBound]; omega)
  have scanned := isolateScan_withTotal { type with totalSize := sizes type.list % 2 ^ 64 } type.totalSize small
    base (min (base + size) uintptrMax) loopBound 0 0 0
  rw [run, Option.map_some] at scanned
  refine ⟨type'.withTotal type.totalSize, s, e, ?_, ⟨least, most⟩, ?_, rfl, ?_, iso.window, ?_⟩
  · unfold memblockIsolateRange
    rw [add64_capSize word, if_neg (by omega), add32_of_lt (by omega),
      if_neg (by simp only [initMemblockRegions]; omega)]
    exact congrArg (Option.map some) scanned
  · show type'.addresses = MemblockType.addresses { type with totalSize := sizes type.list % 2 ^ 64 }
    rw [h.addresses_eq, iso.holds.addresses_eq]
    exact iso.same
  · intro i lt
    exact iso.cut (by omega) lt
  · intro i lt
    exact iso.members lt

/-- The first region is cut at the end of the range, and the index wraps below zero. -/
theorem memblockIsolateRange_wraps : ∃ type' s e,
    memblockIsolateRange ⟨1, 0x3000, fun _ => ⟨0x1000, 0x3000⟩⟩ 0x1000 0x1000 = some (some (type', s, e)) ∧
      RangeIsolated ⟨1, 0x3000, fun _ => ⟨0x1000, 0x3000⟩⟩ type' 0x1000 (min (0x1000 + 0x1000) uintptrMax) s e := by
  have sorted : MemblockType.Sorted ⟨1, 0x3000, fun _ => ⟨0x1000, 0x3000⟩⟩ :=
    ⟨by decide, by decide, by decide, fun i lt => by simp at lt⟩
  exact memblockIsolateRange_exact sorted (by decide) (by decide) (by decide) (by decide)

end

/-! ## The two passes of `memblock_add_range`

What the inserting pass does to the slots: every call of
`memblock_insert_region` moves the slots from its index on up by one, and the
indices of the calls increase. -/

/-- `type'` is what `n` calls of `memblock_insert_region` make of `type`. -/
inductive Inserts (type : MemblockType) : Nat → MemblockType → Prop
  | none : Inserts type 0 type
  | call {n : Nat} {before after : MemblockType} (index base size : Nat) : Inserts type n before →
      memblockInsertRegion before index base size = some after → Inserts type (n + 1) after

section
variable {type type' : MemblockType} {pass pass' : AddPass} {index base limit size : Nat}

/-- What an insertion inside the array does to the slots. -/
structure InsertFrame (type type' : MemblockType) (index : Nat) : Prop where
  cnt : type'.cnt = type.cnt + 1
  fits : type'.cnt ≤ initMemblockRegions
  below : ∀ i < index, type'.regions i = type.regions i
  above : ∀ i, index < i → i < type'.cnt → type'.regions i = type.regions (i - 1)

theorem memblockInsertRegion_frame (le : index ≤ type.cnt) (fits : type.cnt ≤ initMemblockRegions)
    (run : memblockInsertRegion type index base size = some type') : InsertFrame type type' index := by
  simp only [initMemblockRegions] at fits
  have moved : sub32 type.cnt index = type.cnt - index := sub32_of_le le (by omega)
  unfold memblockInsertRegion at run
  rw [moved] at run
  obtain ⟨shifted, move, run⟩ := Option.bind_eq_some_iff.1 run
  obtain ⟨stored, store, run⟩ := Option.bind_eq_some_iff.1 run
  unfold MemblockType.move at move
  split at move
  · next room =>
    obtain rfl := Option.some_inj.1 move
    unfold MemblockType.store at store
    split at store
    · next slot =>
      obtain rfl := Option.some_inj.1 store
      obtain rfl := Option.some_inj.1 run
      simp only [initMemblockRegions] at room slot
      have one : add32 type.cnt 1 = type.cnt + 1 := add32_of_lt (by omega)
      refine ⟨one, ?_, ?_, ?_⟩
      · show add32 type.cnt 1 ≤ initMemblockRegions
        simp only [one, initMemblockRegions]
        omega
      · intro i low
        show (if i = index then _ else if _ then _ else _) = _
        rw [if_neg (by omega), if_neg (by omega)]
      · intro i high lt
        have lt : i < add32 type.cnt 1 := lt
        show (if i = index then _ else if _ then _ else _) = _
        rw [if_neg (by omega), if_pos (by omega)]
        congr 1
        omega
    · cases store
  · cases move

/-- The inserting pass over `type` so far: `added` calls were made, all of them
between the slots `startRgn` and `endRgn`. -/
structure Inserting (type : MemblockType) (pass : AddPass) : Prop where
  calls : Inserts type pass.added pass.type
  cnt : pass.type.cnt = type.cnt + pass.added
  fits : pass.type.cnt ≤ initMemblockRegions
  start : pass.startRgn ≤ type.cnt
  window : pass.startRgn + pass.added ≤ pass.endRgn
  unopened : pass.endRgn = 0 → pass.added = 0
  below : ∀ i < pass.startRgn, pass.type.regions i = type.regions i
  above : ∀ i, pass.endRgn ≤ i → i < pass.type.cnt → pass.type.regions i = type.regions (i - pass.added)

/-- The pass stands behind its window, inside the array. -/
def AddPass.Ready (pass : AddPass) : Prop := pass.endRgn ≤ pass.index ∧ pass.index ≤ pass.type.cnt

theorem Inserting.init (fits : type.cnt ≤ initMemblockRegions) :
    Inserting type { type, base, startRgn := 0, endRgn := 0, index := 0, added := 0 } where
  calls := .none
  cnt := rfl
  fits := fits
  start := Nat.zero_le _
  window := le_rfl
  unopened := fun _ => rfl
  below := fun i lt => absurd lt (Nat.not_lt_zero i)
  above := fun _ _ _ => rfl

theorem Inserting.walk (h : Inserting type pass) (base index : Nat) : Inserting type { pass with base, index } where
  calls := h.calls
  cnt := h.cnt
  fits := h.fits
  start := h.start
  window := h.window
  unopened := h.unopened
  below := h.below
  above := h.above

/-- One insertion opens the window or extends it. -/
theorem Inserting.piece (h : Inserting type pass) (ready : pass.Ready) (run : pass.piece true size = some pass') :
    Inserting type pass' ∧ pass'.index = pass.index ∧ pass'.endRgn = pass.index + 1 ∧
      pass'.type.cnt = pass.type.cnt + 1 := by
  have cnt := h.cnt
  have fits := h.fits
  obtain ⟨behind, inside⟩ := ready
  simp only [initMemblockRegions] at fits
  have nextIndex : add32 pass.index 1 = pass.index + 1 := add32_of_lt (by omega)
  have nextAdded : add32 pass.added 1 = pass.added + 1 := add32_of_lt (by omega)
  unfold AddPass.piece at run
  rw [if_pos rfl] at run
  obtain ⟨after, inserted, run⟩ := Option.bind_eq_some_iff.1 run
  obtain rfl := Option.some_inj.1 run
  have frame := memblockInsertRegion_frame inside h.fits inserted
  refine ⟨⟨?_, ?_, frame.fits, ?_, ?_, ?_, ?_, ?_⟩, rfl, nextIndex, frame.cnt⟩
  · show Inserts type (add32 pass.added 1) after
    rw [nextAdded]
    exact .call _ _ _ h.calls inserted
  · show after.cnt = type.cnt + add32 pass.added 1
    rw [frame.cnt, nextAdded, cnt, Nat.add_assoc]
  · show (if pass.endRgn = 0 then pass.index else pass.startRgn) ≤ type.cnt
    split
    · next unopened =>
      have none := h.unopened unopened
      omega
    · exact h.start
  · show (if pass.endRgn = 0 then pass.index else pass.startRgn) + add32 pass.added 1 ≤ add32 pass.index 1
    have window := h.window
    split
    · next unopened =>
      have none := h.unopened unopened
      omega
    · omega
  · show add32 pass.index 1 = 0 → _
    omega
  · show ∀ i < (if pass.endRgn = 0 then pass.index else pass.startRgn), after.regions i = type.regions i
    intro i low
    have window := h.window
    split at low
    · next unopened =>
      have same := h.above i (by omega) (by omega)
      rw [h.unopened unopened, Nat.sub_zero] at same
      exact (frame.below i low).trans same
    · exact (frame.below i (by omega)).trans (h.below i low)
  · show ∀ i, add32 pass.index 1 ≤ i → i < after.cnt → after.regions i = type.regions (i - add32 pass.added 1)
    intro i high lt
    have grown := frame.cnt
    have shifted := h.above (i - 1) (by omega) (by omega)
    rw [frame.above i (by omega) lt, shifted, nextAdded]
    congr 1
    omega

theorem Inserting.scan {fuel : Nat} (h : Inserting type pass) (ready : pass.Ready)
    (run : addScan true limit fuel pass = some pass') : Inserting type pass' ∧ pass'.Ready := by
  induction fuel generalizing pass with
  | zero => cases run
  | succ fuel ih =>
    have fits := h.fits
    obtain ⟨behind, inside⟩ := ready
    simp only [initMemblockRegions] at fits
    unfold addScan at run
    by_cases more : pass.index < pass.type.cnt
    · have nextIndex : add32 pass.index 1 = pass.index + 1 := add32_of_lt (by omega)
      rw [if_pos more] at run
      obtain ⟨region, load, run⟩ := Option.bind_eq_some_iff.1 run
      by_cases stop : region.base ≥ limit
      · rw [if_pos stop] at run
        obtain rfl := Option.some_inj.1 run
        exact ⟨h, behind, inside⟩
      rw [if_neg stop] at run
      by_cases skip : add64 region.base region.size ≤ pass.base
      · rw [if_pos skip, nextIndex] at run
        exact ih (h.walk pass.base (pass.index + 1)) (And.intro (Nat.le_succ_of_le behind) more) run
      rw [if_neg skip] at run
      generalize (if add64 region.base region.size < limit then add64 region.base region.size else limit) = next at run
      by_cases gap : region.base > pass.base
      · rw [if_pos gap] at run
        obtain ⟨pieced, piece, run⟩ := Option.bind_eq_some_iff.1 run
        obtain ⟨h', index, endRgn, cnt⟩ := h.piece ⟨behind, inside⟩ piece
        have small := h'.fits
        simp only [initMemblockRegions] at small
        -- past the new region and past the one that was at `index`
        have twice : add32 (add32 pieced.index 1) 1 = pass.index + 2 := by
          rw [index, nextIndex]
          exact add32_of_lt (by omega)
        rw [if_pos rfl, pure_bind] at run
        dsimp only at run
        rw [twice] at run
        refine ih (h'.walk next (pass.index + 2)) (And.intro ?_ ?_) run
        · show pieced.endRgn ≤ pass.index + 2
          omega
        · show pass.index + 2 ≤ pieced.type.cnt
          omega
      · rw [if_neg gap, pure_bind] at run
        dsimp only at run
        rw [nextIndex] at run
        exact ih (h.walk next (pass.index + 1)) (And.intro (Nat.le_succ_of_le behind) more) run
    · rw [if_neg more] at run
      obtain rfl := Option.some_inj.1 run
      exact ⟨h, behind, inside⟩

/-- The whole inserting pass. -/
theorem addPass_inserting (fits : type.cnt ≤ initMemblockRegions)
    (run : addPass true type base limit 0 0 = some pass) : Inserting type pass := by
  obtain ⟨scanned, scan, run⟩ := Option.bind_eq_some_iff.1 run
  obtain ⟨h, ready⟩ := (Inserting.init fits).scan ⟨Nat.le_refl 0, Nat.zero_le _⟩ scan
  split at run
  · exact (h.piece ready run).1
  · obtain rfl := Option.some_inj.1 run
    exact h

/-- Regions `a` and `b` follow each other in the array. -/
def MemblockType.Neighbours (type : MemblockType) (a b : MemblockRegion) : Prop :=
  ∃ i, i + 1 < type.cnt ∧ type.regions i = a ∧ type.regions (i + 1) = b

/-- Neighbours outside the window were neighbours before. -/
theorem Inserting.new_neighbours (h : Inserting type pass) {i : Nat} (lt : i + 1 < pass.type.cnt)
    (new : ¬ type.Neighbours (pass.type.regions i) (pass.type.regions (i + 1))) :
    pass.startRgn - 1 ≤ i ∧ i + 1 ≤ pass.endRgn := by
  have cnt := h.cnt
  have start := h.start
  have window := h.window
  constructor
  · apply Nat.le_of_not_lt
    intro before
    exact new ⟨i, by omega, (h.below i (by omega)).symm, (h.below (i + 1) (by omega)).symm⟩
  · apply Nat.le_of_not_lt
    intro after
    have next := h.above (i + 1) (by omega) lt
    rw [show i + 1 - pass.added = i - pass.added + 1 by omega] at next
    exact new ⟨i - pass.added, by omega, (h.above i (by omega) (by omega)).symm, next.symm⟩

/-- The counting pass leaves the array alone. -/
theorem addScan_count_type {fuel : Nat} (run : addScan false limit fuel pass = some pass') : pass'.type = pass.type := by
  induction fuel generalizing pass with
  | zero => cases run
  | succ fuel ih =>
    unfold addScan at run
    by_cases more : pass.index < pass.type.cnt
    · rw [if_pos more] at run
      obtain ⟨region, load, run⟩ := Option.bind_eq_some_iff.1 run
      by_cases stop : region.base ≥ limit
      · rw [if_pos stop] at run
        obtain rfl := Option.some_inj.1 run
        rfl
      rw [if_neg stop] at run
      by_cases skip : add64 region.base region.size ≤ pass.base
      · rw [if_pos skip] at run
        have same := ih run
        exact same
      rw [if_neg skip] at run
      by_cases gap : region.base > pass.base
      · rw [if_pos gap] at run
        obtain ⟨pieced, piece, run⟩ := Option.bind_eq_some_iff.1 run
        obtain rfl := Option.some_inj.1 piece
        rw [if_neg Bool.false_ne_true, pure_bind] at run
        have same := ih run
        exact same
      · rw [if_neg gap, pure_bind] at run
        have same := ih run
        exact same
    · rw [if_neg more] at run
      obtain rfl := Option.some_inj.1 run
      rfl

theorem addPass_count_type (run : addPass false type base limit 0 0 = some pass) : pass.type = type := by
  obtain ⟨scanned, scan, run⟩ := Option.bind_eq_some_iff.1 run
  have same := addScan_count_type scan
  split at run
  · obtain rfl := Option.some_inj.1 run
    exact same
  · obtain rfl := Option.some_inj.1 run
    exact same

/-- The inserting pass over `type` that ends as `pass` makes `n` insertions, and the
window for the merge holds all regions that became neighbours, touching or not. -/
structure PassInserts (type : MemblockType) (n : Nat) (pass : AddPass) : Prop where
  added : pass.added = n
  calls : Inserts type n pass.type
  neighbours : ∀ i, i + 1 < pass.type.cnt →
    ¬ type.Neighbours (pass.type.regions i) (pass.type.regions (i + 1)) →
      pass.startRgn - 1 ≤ i ∧ i + 1 ≤ pass.endRgn
  touching : ∀ i, i + 1 < pass.type.cnt →
    (pass.type.regions i).base + (pass.type.regions i).size = (pass.type.regions (i + 1)).base →
      pass.startRgn - 1 ≤ i ∧ i + 1 ≤ pass.endRgn

theorem Inserting.passInserts (h : Inserting type pass) (sorted : type.Sorted) : PassInserts type pass.added pass where
  added := rfl
  calls := h.calls
  neighbours := fun _ lt new => h.new_neighbours lt new
  touching := by
    intro i lt touch
    apply h.new_neighbours lt
    rintro ⟨j, inside, low, high⟩
    have apart := sorted.separated j inside
    rw [low, high] at apart
    omega

end

section
variable {type : MemblockType} {base size : Nat}

/-- In a sorted array that is not empty, the call never leaves the array. -/
theorem memblockAddRange_some (sorted : type.Sorted) (some_ : type.cnt ≠ 0) (word : base ≤ uintptrMax) :
    ∃ r, memblockAddRange type base size = some r := by
  have h := sorted.canonical
  have fits : base + min size (uintptrMax - base) ≤ uintptrMax := by omega
  obtain ⟨_, same⟩ := memblockAddRange_withTotal type (sizes type.list % 2 ^ 64) base size
  rw [show type.withTotal (sizes type.list % 2 ^ 64) = { type with totalSize := sizes type.list % 2 ^ 64 } from rfl,
    memblockAddRange_cap h word some_] at same
  rcases memblockAddRange_spec h fits with ⟨added, _, run, -⟩ | ⟨run, -⟩
  · obtain ⟨r, run', -⟩ := Option.map_eq_some_iff.1 (same.symm.trans run)
    exact ⟨r, run'⟩
  · obtain ⟨r, run', -⟩ := Option.map_eq_some_iff.1 (same.symm.trans run)
    exact ⟨r, run'⟩

/-- **The passes agree**: the inserting pass makes the insertions that the first
pass counted, inside the array whenever they fit. -/
theorem addPass_agree (sorted : type.Sorted) (some_ : type.cnt ≠ 0) (word : base ≤ uintptrMax) (pos : 0 < size) :
    ∃ count, addPass false type base (add64 base (capSize base size)) 0 0 = some count ∧ count.type = type ∧
      (type.cnt + count.added ≤ initMemblockRegions →
        ∃ pass, addPass true type base (add64 base (capSize base size)) 0 0 = some pass ∧
          PassInserts type count.added pass ∧
          (count.added ≠ 0 → ∃ merged,
            memblockMergeRegions pass.type pass.startRgn pass.endRgn = some merged ∧
              memblockAddRange type base size = some (merged, 0))) := by
  have h := sorted.canonical
  have length : type.list.length = type.cnt := by simp [MemblockType.list]
  have top : uintptrMax = 2 ^ 64 - 1 := rfl
  have limit := @add64_capSize base size word
  have small := sorted.cnt_le
  simp only [initMemblockRegions] at small
  generalize eq : add64 base (capSize base size) = limit_ at limit ⊢
  obtain ⟨counted, countRun, need⟩ := addPass_count base limit_ h
  obtain ⟨_, same⟩ := addPass_withTotal type (sizes type.list % 2 ^ 64) false limit_ base 0 0
  obtain ⟨count, run, rfl⟩ := Option.map_eq_some_iff.1 (same.symm.trans countRun)
  have added : count.added = gaps limit_ base type.list := need
  refine ⟨count, run, addPass_count_type run, ?_⟩
  intro room
  obtain ⟨filled, pre, rest, fillRun, made, -⟩ := addPass_fill h (show base ≤ limit_ by omega) (by omega)
    (show type.list.length + gaps limit_ base type.list ≤ initMemblockRegions by rw [length, ← added]; exact room)
  obtain ⟨_, same⟩ := addPass_withTotal type (sizes type.list % 2 ^ 64) true limit_ base 0 0
  obtain ⟨pass, run', rfl⟩ := Option.map_eq_some_iff.1 (same.symm.trans fillRun)
  have agree : pass.added = count.added := Eq.trans made added.symm
  have inserting := addPass_inserting sorted.cnt_le run'
  refine ⟨pass, run', agree ▸ inserting.passInserts sorted, ?_⟩
  intro more
  simp only [initMemblockRegions] at room
  have call : memblockAddRange type base size =
      memblockMergeRegions pass.type pass.startRgn pass.endRgn >>= fun merged => some (merged, 0) := by
    rw [memblockAddRange, eq, if_neg (by omega), if_neg some_, bind_of_some run, if_neg more,
      add32_of_lt (by omega), if_neg (by simp only [initMemblockRegions]; omega), bind_of_some run',
      if_neg (agree ▸ more)]
    rfl
  obtain ⟨r, result⟩ := @memblockAddRange_some type base size sorted some_ word
  obtain ⟨merged, merge, last⟩ := Option.bind_eq_some_iff.1 (call.symm.trans result)
  exact ⟨merged, merge, result.trans last.symm⟩

/-- A range around two regions: three pieces, all of them merged. -/
theorem addPass_agree_around : ∃ type : MemblockType, type.Sorted ∧ ∃ count pass,
    addPass false type 0 (add64 0 (capSize 0 0x6000)) 0 0 = some count ∧ count.added = 3 ∧
      addPass true type 0 (add64 0 (capSize 0 0x6000)) 0 0 = some pass ∧ PassInserts type 3 pass := by
  have sorted : MemblockType.Sorted ⟨2, 0x2000, fun i => if i = 0 then ⟨0x1000, 0x1000⟩ else ⟨0x4000, 0x1000⟩⟩ := by
    refine ⟨by decide, by decide, by decide, ?_⟩
    intro i lt
    obtain rfl : i = 0 := Nat.lt_one_iff.1 (Nat.lt_of_succ_lt_succ lt)
    decide
  have three : (addPass false ⟨2, 0x2000, fun i => if i = 0 then ⟨0x1000, 0x1000⟩ else ⟨0x4000, 0x1000⟩⟩ 0
      (add64 0 (capSize 0 0x6000)) 0 0).map AddPass.added = some 3 := by decide +kernel
  obtain ⟨count, counted, -, fits⟩ := addPass_agree sorted (by decide) (show 0 ≤ uintptrMax by decide)
    (show 0 < 0x6000 by decide)
  rw [counted, Option.map_some, Option.some_inj] at three
  obtain ⟨pass, run, inserts, -⟩ := fits (by rw [three]; decide)
  exact ⟨_, sorted, count, pass, counted, three, run, three ▸ inserts⟩

end

end MiaowOs
