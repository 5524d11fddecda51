import MiaowOs.Mm.MemblockLists

/-!
# Removing a range

`memblock_isolate_range` cuts the regions at the two ends of the range and
marks the regions inside it; removing these subtracts the range from the
denoted set. The loop skips the regions below the range (`A`), keeps those
inside it (`M`) and stops at the first one above it (`B`).
-/

namespace MiaowOs
open Spans

section
variable {type : MemblockType} {l pre rest A M B : List MemblockRegion} {r : MemblockRegion}
  {base size limit index s e cut fuel : Nat}

/-- Cutting a region in two keeps the sizes and the addresses. -/
theorem Holds.split (h : Holds type (pre ++ r :: rest)) (at_ : index = pre.length) (low : r.base < cut)
    (high : cut < r.limit) (bounded : r.limit ≤ uintptrMax)
    (room : (pre ++ r :: rest).length < initMemblockRegions) : ∃ type',
      splitRegion type index r cut = some type' ∧
      Holds type' (pre ++ ⟨r.base, cut - r.base⟩ :: ⟨cut, r.limit - cut⟩ :: rest) := by
  have word : uintptrMax < 2 ^ 64 := by decide
  simp only [MemblockRegion.limit] at high bounded
  have cut_eq : sub64 cut r.base = cut - r.base := sub64_of_le (by omega) (by omega)
  have size_eq : sub64 r.size (cut - r.base) = r.limit - cut := by
    rw [sub64_of_le (by omega) (by omega), MemblockRegion.limit]; omega
  have sum : sub64 type.totalSize (cut - r.base) = sizes (pre ++ ⟨cut, r.limit - cut⟩ :: rest) % 2 ^ 64 := by
    simp only [sub64, h.total, sizes_append, sizes_cons, MemblockRegion.limit]
    omega
  obtain ⟨type', stored, total, held⟩ := h.store at_ sum
  rw [splitRegion, cut_eq, size_eq, bind_of_some stored, total]
  exact held.insert _ _ at_ (by simpa using room)

/-- The parts of a region that is cut in two. -/
structure Cut (pre : List MemblockRegion) (r : MemblockRegion) (rest : List MemblockRegion) (cut : Nat) : Prop where
  lower : (MemblockRegion.mk r.base (cut - r.base)).limit = cut
  upper : (MemblockRegion.mk cut (r.limit - cut)).limit = r.limit
  same : addresses (pre ++ ⟨r.base, cut - r.base⟩ :: ⟨cut, r.limit - cut⟩ :: rest) = addresses (pre ++ r :: rest)
  bounded : (∀ b ∈ pre ++ r :: rest, b.limit ≤ uintptrMax) →
    ∀ b ∈ pre ++ ⟨r.base, cut - r.base⟩ :: ⟨cut, r.limit - cut⟩ :: rest, b.limit ≤ uintptrMax
  apart : RegionsApart (r :: rest) → RegionsApart (⟨cut, r.limit - cut⟩ :: rest)
  ahead : RegionsApart (r :: rest) → ∀ b ∈ (⟨cut, r.limit - cut⟩ : MemblockRegion) :: rest, cut ≤ b.base

theorem cut_region (low : r.base < cut) (high : cut < r.limit) : Cut pre r rest cut := by
  have lower : (MemblockRegion.mk r.base (cut - r.base)).limit = cut := limit_mk low.le
  have upper : (MemblockRegion.mk cut (r.limit - cut)).limit = r.limit := limit_mk high.le
  have later : RegionsApart (r :: rest) → RegionsApart (⟨cut, r.limit - cut⟩ :: rest) := by
    intro apart
    obtain ⟨-, after, hrest⟩ := separated_cons.1 apart
    exact separated_cons.2 ⟨by rw [upper]; exact high, by rw [upper]; exact after, hrest⟩
  refine ⟨lower, upper, ?_, ?_, later, fun apart => (later apart).ordered.head_le⟩
  · ext x
    simp only [mem_cover_append, mem_cover_cons, lower, upper]
    refine or_congr_right ?_
    rw [← or_assoc]
    refine or_congr_left ?_
    omega
  · intro bounded b mem
    have rmax := bounded r (by simp)
    simp only [List.mem_append, List.mem_cons] at mem
    rcases mem with mem | rfl | rfl | mem
    · exact bounded b (by simp [mem])
    · rw [lower]
      exact high.le.trans rmax
    · rw [upper]
      exact rmax
    · exact bounded b (by simp [mem])

/-! ## One iteration of the loop -/

theorem isolateScan_stop (h : Holds type (pre ++ rest)) (at_ : index = pre.length)
    (above : ∀ r ∈ rest, limit ≤ r.base) : isolateScan base limit (fuel + 1) type index s e = some (type, s, e) := by
  cases rest with
  | nil => rw [isolateScan, if_neg (by simp [h.cnt, at_])]; rfl
  | cons r rest =>
    rw [isolateScan, if_pos (by simp [h.cnt, at_]), bind_of_some (h.load at_), if_pos (above r (by simp))]
    rfl

section
variable (h : Holds type (pre ++ r :: rest)) (at_ : index = pre.length) (bounded : r.limit ≤ uintptrMax)
  (start : r.base < limit)
include h at_ bounded start

theorem isolateScan_skip (below : r.limit ≤ base) : isolateScan base limit (fuel + 1) type index s e =
    isolateScan base limit fuel type (add32 index 1) s e := by
  rw [isolateScan, if_pos (by simp [h.cnt, at_]), bind_of_some (h.load at_), add64_limit bounded,
    if_neg (Nat.not_le.2 start), if_pos below]

theorem isolateScan_low (low : r.base < base) (high : base < r.limit) {type' : MemblockType}
    (split : splitRegion type index r base = some type') : isolateScan base limit (fuel + 1) type index s e =
      isolateScan base limit fuel type' (add32 index 1) s e := by
  rw [isolateScan, if_pos (by simp [h.cnt, at_]), bind_of_some (h.load at_), add64_limit bounded,
    if_neg (Nat.not_le.2 start), if_neg (Nat.not_le.2 high), if_pos low, bind_of_some split]

theorem isolateScan_high (low : base ≤ r.base) (high : limit < r.limit)
    {type' : MemblockType} (split : splitRegion type index r limit = some type') :
    isolateScan base limit (fuel + 1) type index s e = isolateScan base limit fuel type' index s e := by
  have fits := h.fits
  simp only [List.length_append, List.length_cons, initMemblockRegions] at fits
  -- `index--` in the loop body undoes the `index++` of the loop, through zero as well
  have again : add32 (sub32 index 1) 1 = index := by
    unfold add32 sub32
    omega
  rw [isolateScan, if_pos (by simp [h.cnt, at_]), bind_of_some (h.load at_), add64_limit bounded,
    if_neg (Nat.not_le.2 start), if_neg (by omega), if_neg (Nat.not_lt.2 low), if_pos high, bind_of_some split, again]

theorem isolateScan_keep (ne : r.base < r.limit) (low : base ≤ r.base) (high : r.limit ≤ limit) :
    isolateScan base limit (fuel + 1) type index s e =
      isolateScan base limit fuel type (add32 index 1) (if e = 0 then index else s) (add32 index 1) := by
  rw [isolateScan, if_pos (by simp [h.cnt, at_]), bind_of_some (h.load at_), add64_limit bounded,
    if_neg (Nat.not_le.2 start), if_neg (by omega), if_neg (Nat.not_lt.2 low), if_neg (Nat.not_lt.2 high)]

end

/-! ## The whole loop -/

/-- The out-parameters delimit the regions `M` that follow `A`. -/
def Marks (A M : List MemblockRegion) (s e : Nat) : Prop :=
  if M = [] then s = 0 ∧ e = 0 else s = A.length ∧ e = A.length + M.length

/-- The array with the range `[base, limit)` isolated: `A` lies below it, `M`
inside and `B` above. -/
structure Isolated (base limit : Nat) (l : List MemblockRegion) (type : MemblockType) (s e : Nat)
    (A M B : List MemblockRegion) : Prop where
  holds : Holds type (A ++ (M ++ B))
  before : RegionsApart A
  after : RegionsApart B
  below : ∀ a ∈ A, a.limit ≤ base
  inside : ∀ m ∈ M, base ≤ m.base ∧ m.limit ≤ limit
  above : ∀ b ∈ B, limit ≤ b.base
  bounded : ∀ r ∈ A ++ (M ++ B), r.limit ≤ uintptrMax
  same : addresses (A ++ (M ++ B)) = addresses l
  marks : Marks A M s e

theorem Marks.keep (h : Marks A M s e) (at_ : index = (A ++ M).length) (word : index + 1 < 2 ^ 32) :
    Marks A (M ++ [r]) (if e = 0 then index else s) (add32 index 1) := by
  rw [add32_of_lt word, Marks, if_neg (by simp)]
  simp only [List.length_append, List.length_singleton] at at_ ⊢
  by_cases empty : M = []
  · rw [Marks, if_pos empty] at h
    subst empty
    rw [if_pos h.2]
    exact ⟨at_, by omega⟩
  · rw [Marks, if_neg empty] at h
    have := List.length_pos_iff.2 empty
    rw [if_neg (by omega)]
    exact ⟨h.1, by omega⟩

/-- The loop from the first region that starts inside the range: one cut at most. -/
theorem isolateScan_inside (h : Holds type (A ++ (M ++ rest))) (at_ : index = (A ++ M).length)
    (hA : RegionsApart A) (below : ∀ a ∈ A, a.limit ≤ base) (inside : ∀ m ∈ M, base ≤ m.base ∧ m.limit ≤ limit)
    (hrest : RegionsApart rest) (ahead : ∀ r ∈ rest, base ≤ r.base)
    (bounded : ∀ r ∈ A ++ (M ++ rest), r.limit ≤ uintptrMax) (top : limit ≤ uintptrMax)
    (room : (A ++ (M ++ rest)).length < initMemblockRegions) (enough : rest.length + 2 < fuel)
    (marks : Marks A M s e) : ∃ type' s' e' M' B, isolateScan base limit fuel type index s e = some (type', s', e') ∧
      Isolated base limit (A ++ (M ++ rest)) type' s' e' A M' B ∧
      type.cnt ≤ type'.cnt ∧ type'.cnt ≤ type.cnt + 1 := by
  induction rest generalizing M type index s e fuel with
  | nil =>
    obtain ⟨fuel, rfl⟩ := Nat.exists_eq_add_one_of_ne_zero (Nat.ne_zero_of_lt enough)
    have stop : isolateScan base limit (fuel + 1) type index s e = some (type, s, e) :=
      isolateScan_stop (by rwa [← List.append_assoc] at h) at_ (by simp)
    exact ⟨type, s, e, M, [], stop, ⟨h, hA, .nil, below, inside, by simp, bounded, rfl, marks⟩, le_rfl, Nat.le_succ _⟩
  | cons r rest ih =>
    obtain ⟨fuel, rfl⟩ := Nat.exists_eq_add_one_of_ne_zero (Nat.ne_zero_of_lt enough)
    obtain ⟨ne, apart, hrest'⟩ := separated_cons.1 hrest
    have h' : Holds type ((A ++ M) ++ r :: rest) := by rwa [List.append_assoc]
    have rmax : r.limit ≤ uintptrMax := bounded r (by simp)
    have small : (A ++ M).length + 1 < initMemblockRegions := by
      simp only [List.length_append, List.length_cons] at room ⊢
      omega
    have nextIndex : add32 index 1 = (A ++ M).length + 1 := by
      rw [at_]
      exact add32_of_lt (small.trans (by decide))
    have word : index + 1 < 2 ^ 32 := by
      rw [at_]
      exact small.trans (by decide)
    by_cases stop : limit ≤ r.base
    · have above : ∀ b ∈ r :: rest, limit ≤ b.base := fun b mem =>
        stop.trans (hrest.ordered.head_le b mem)
      exact ⟨type, s, e, M, r :: rest, isolateScan_stop h' at_ above,
        ⟨h, hA, hrest, below, inside, above, bounded, rfl, marks⟩, le_rfl, Nat.le_succ _⟩
    have start : r.base < limit := Nat.lt_of_not_le stop
    have low := ahead r (by simp)
    by_cases high : r.limit ≤ limit
    · rw [isolateScan_keep h' at_ rmax start ne low high]
      have assoc : A ++ (M ++ r :: rest) = A ++ ((M ++ [r]) ++ rest) := by simp
      obtain ⟨type', s', e', M', B, run, iso, grown⟩ := ih (M := M ++ [r])
        (assoc ▸ h) (show add32 index 1 = (A ++ (M ++ [r])).length by rw [nextIndex]; simp; omega)
        (List.forall_mem_append.2 ⟨inside, List.forall_mem_singleton.2 ⟨low, high⟩⟩)
        hrest' (fun b mem => ahead b (by simp [mem])) (assoc ▸ bounded) (assoc ▸ room)
        (show rest.length + 2 < fuel by simp only [List.length_cons] at enough; omega) (marks.keep at_ word)
      exact ⟨type', s', e', M', B, run, assoc ▸ iso, grown⟩
    · -- cut at the end of the range; the lower part is kept, and the upper part ends the loop
      obtain ⟨type', split, held⟩ := h'.split at_ start (Nat.lt_of_not_le high) rmax (by rwa [List.append_assoc])
      obtain ⟨fuel, rfl⟩ := Nat.exists_eq_add_one_of_ne_zero (n := fuel) (by omega)
      obtain ⟨fuel, rfl⟩ := Nat.exists_eq_add_one_of_ne_zero (n := fuel) (by omega)
      have parts : Cut (A ++ M) r rest limit := cut_region start (Nat.lt_of_not_le high)
      have regroup : A ++ (M ++ [⟨r.base, limit - r.base⟩] ++ ⟨limit, r.limit - limit⟩ :: rest) =
          (A ++ M) ++ ⟨r.base, limit - r.base⟩ :: ⟨limit, r.limit - limit⟩ :: rest := by simp
      have held' : Holds type' (A ++ M ++ [⟨r.base, limit - r.base⟩] ++ ⟨limit, r.limit - limit⟩ :: rest) := by
        simpa using held
      have last : isolateScan base limit (fuel + 1) type' (add32 index 1) (if e = 0 then index else s)
          (add32 index 1) = some (type', if e = 0 then index else s, add32 index 1) :=
        isolateScan_stop held' (by rw [nextIndex]; simp; omega) (parts.ahead hrest)
      refine ⟨type', if e = 0 then index else s, add32 index 1, M ++ [⟨r.base, limit - r.base⟩],
        ⟨limit, r.limit - limit⟩ :: rest, ?_, ?_, ?_⟩
      · rw [isolateScan_high h' at_ rmax start low (Nat.lt_of_not_le high) split,
          isolateScan_keep held at_ (by rw [parts.lower]; exact top) start (by rw [parts.lower]; exact start) low
            (by rw [parts.lower])]
        exact last
      · refine ⟨regroup ▸ held, hA, parts.apart hrest, below, ?_, parts.ahead hrest, ?_, ?_, marks.keep at_ word⟩
        · exact List.forall_mem_append.2 ⟨inside, List.forall_mem_singleton.2 ⟨low, parts.lower.le⟩⟩
        · rw [regroup]
          exact parts.bounded (by rwa [List.append_assoc])
        · rw [regroup, parts.same, List.append_assoc]
      · rw [h'.cnt, held.cnt]
        simp only [List.length_append, List.length_cons]
        omega

/-- The loop of `memblock_isolate_range` isolates the range, with two cuts at most. -/
theorem isolateScan_spec (h : Holds type (A ++ rest)) (at_ : index = A.length) (apart : RegionsApart (A ++ rest))
    (below : ∀ a ∈ A, a.limit ≤ base) (bounded : ∀ r ∈ A ++ rest, r.limit ≤ uintptrMax) (le : base ≤ limit)
    (top : limit ≤ uintptrMax) (room : (A ++ rest).length + 2 ≤ initMemblockRegions)
    (enough : rest.length + 3 < fuel) : ∃ type' s' e' A' M' B,
      isolateScan base limit fuel type index 0 0 = some (type', s', e') ∧
      Isolated base limit (A ++ rest) type' s' e' A' M' B ∧
      type.cnt ≤ type'.cnt ∧ type'.cnt ≤ type.cnt + 2 := by
  have unmarked : Marks A [] 0 0 := by simp [Marks]
  induction rest generalizing A index fuel with
  | nil =>
    obtain ⟨fuel, rfl⟩ := Nat.exists_eq_add_one_of_ne_zero (Nat.ne_zero_of_lt enough)
    have hA : RegionsApart A := by simpa using apart
    exact ⟨type, 0, 0, A, [], [], isolateScan_stop h at_ (by simp),
      ⟨h, hA, .nil, below, by simp, by simp, bounded, rfl, unmarked⟩, le_rfl, Nat.le_add_right _ _⟩
  | cons r rest ih =>
    obtain ⟨hA, hrest, across⟩ := separated_append.1 apart
    obtain ⟨ne, after, hrest'⟩ := separated_cons.1 hrest
    have rmax : r.limit ≤ uintptrMax := bounded r (by simp)
    have nextIndex : add32 index 1 = A.length + 1 := by
      simp only [List.length_append, List.length_cons, initMemblockRegions] at room
      rw [at_]
      exact add32_of_lt (by omega)
    have assoc : A ++ r :: rest = (A ++ [r]) ++ rest := by simp
    by_cases above : base ≤ r.base
    · -- everything from here on starts inside the range or above it
      obtain ⟨type', s', e', M', B, run, iso, low, high⟩ := isolateScan_inside (M := [])
        h (by simpa using at_) hA below (by simp) hrest (fun b mem => above.trans (hrest.ordered.head_le b mem))
        bounded top (by simp only [List.nil_append] at room ⊢; omega)
        (show (r :: rest).length + 2 < fuel by omega) unmarked
      exact ⟨type', s', e', A, M', B, run, iso, low, by omega⟩
    have low : r.base < base := Nat.lt_of_not_le above
    obtain ⟨fuel, rfl⟩ := Nat.exists_eq_add_one_of_ne_zero (Nat.ne_zero_of_lt enough)
    simp only [List.length_cons] at enough
    by_cases skip : r.limit ≤ base
    · rw [isolateScan_skip h at_ rmax (low.trans_le le) skip]
      obtain ⟨type', s', e', A', M', B, run, iso, grown⟩ := ih (A := A ++ [r])
        (assoc ▸ h) (show add32 index 1 = (A ++ [r]).length by simpa using nextIndex) (assoc ▸ apart)
        (List.forall_mem_append.2 ⟨below, List.forall_mem_singleton.2 skip⟩)
        (assoc ▸ bounded) (assoc ▸ room) (show rest.length + 3 < fuel by omega) (by simp [Marks])
      exact ⟨type', s', e', A', M', B, run, assoc ▸ iso, grown⟩
    · -- cut at the start of the range
      have high : base < r.limit := Nat.lt_of_not_le skip
      obtain ⟨type', split, held⟩ := h.split at_ low high rmax (by omega)
      have parts : Cut A r rest base := cut_region low high
      have regroup : A ++ ⟨r.base, base - r.base⟩ :: ⟨base, r.limit - base⟩ :: rest =
          (A ++ [⟨r.base, base - r.base⟩]) ++ ([] ++ ⟨base, r.limit - base⟩ :: rest) := by simp
      have at_' : add32 index 1 = (A ++ [(⟨r.base, base - r.base⟩ : MemblockRegion)] ++ []).length := by
        simpa using nextIndex
      have below' : ∀ a ∈ A ++ [(⟨r.base, base - r.base⟩ : MemblockRegion)], a.limit ≤ base :=
        List.forall_mem_append.2 ⟨below, List.forall_mem_singleton.2 parts.lower.le⟩
      have apart' : RegionsApart (A ++ [⟨r.base, base - r.base⟩]) := by
        refine separated_append.2 ⟨hA, ⟨by simpa [parts.lower] using low, by simp⟩, ?_⟩
        intro a mem b mem'
        rw [List.mem_singleton.1 mem']
        exact across a mem r (by simp)
      rw [isolateScan_low h at_ rmax (low.trans_le le) low high split]
      obtain ⟨type'', s', e', M', B, run, iso, least, most⟩ := isolateScan_inside (M := [])
        (regroup ▸ held) at_' apart' below' (by simp) (parts.apart hrest) (parts.ahead hrest)
        (regroup ▸ parts.bounded bounded)
        top (by simp only [List.length_append, List.length_cons, List.length_nil] at room ⊢; omega)
        (show (_ :: rest).length + 2 < fuel by simp only [List.length_cons]; omega)
        (show Marks (A ++ [⟨r.base, base - r.base⟩]) [] 0 0 by simp [Marks])
      have same := parts.same
      rw [regroup] at same
      have one : type'.cnt = type.cnt + 1 := by
        rw [h.cnt, held.cnt]
        simp only [List.length_append, List.length_cons]
        omega
      exact ⟨type'', s', e', _, M', B, run, { iso with same := iso.same.trans same }, by omega, by omega⟩

/-! ## `memblock_remove_range` -/

/-- Removing the marked regions from the last to the first. -/
theorem removeScan_spec (h : Holds type (A ++ (M ++ B))) (last : e = A.length + M.length) : ∃ type',
    removeScan A.length e type = some type' ∧ Holds type' (A ++ B) := by
  induction M using List.reverseRecOn generalizing type e B with
  | nil =>
    refine ⟨type, ?_, by simpa using h⟩
    cases e with
    | zero => rfl
    | succ e => rw [removeScan, if_neg (by simp only [List.length_nil] at last; omega)]; rfl
  | append_singleton M m ih =>
    simp only [List.length_append, List.length_singleton] at last
    have regroup : A ++ (M ++ [m] ++ B) = (A ++ M) ++ m :: B := by simp
    have at_ : A.length + M.length = (A ++ M).length := by simp
    obtain ⟨type', removed, held⟩ := (regroup ▸ h).remove at_
    obtain ⟨type'', run, held'⟩ := ih (e := A.length + M.length) (by simpa using held) rfl
    refine ⟨type'', ?_, held'⟩
    rw [last, ← Nat.add_assoc, removeScan, if_pos (by omega), bind_of_some removed]
    exact run

/-- Without the regions inside the range, an isolated array is canonical again
and denotes the difference. -/
theorem Isolated.removed {type' : MemblockType} (iso : Isolated base limit l type s e A M B)
    (h : Holds type' (A ++ B)) (range : base < limit ∨ base = uintptrMax ∧ limit = uintptrMax) :
    Canonical type' (A ++ B) ∧ ∀ x, x ∈ addresses (A ++ B) ↔ x ∈ addresses l ∧ ¬(base ≤ x ∧ x < limit) := by
  have strict : ∀ a ∈ A, ∀ b ∈ B, a.limit < b.base := fun a ha b hb => by
    have := iso.below a ha
    have := iso.above b hb
    rcases range with lt | ⟨rfl, rfl⟩
    · omega
    · have := iso.bounded b (by simp [hb])
      have := iso.after.nonempty b hb
      omega
  have bounded : ∀ r ∈ A ++ B, r.limit ≤ uintptrMax := fun r mem => iso.bounded r (by
    rcases List.mem_append.1 mem with mem | mem <;> simp [mem])
  refine ⟨⟨h, separated_append.2 ⟨iso.before, iso.after, strict⟩, bounded⟩, fun x => ?_⟩
  rw [← iso.same, mem_cover_append, mem_cover_append, mem_cover_append]
  constructor
  · rintro (⟨a, ha, le, lt⟩ | ⟨b, hb, le, lt⟩)
    · have := iso.below a ha
      exact ⟨.inl ⟨a, ha, le, lt⟩, by omega⟩
    · have := iso.above b hb
      exact ⟨.inr (.inr ⟨b, hb, le, lt⟩), by omega⟩
  · rintro ⟨mem | ⟨m, hm, le, lt⟩ | mem, out⟩
    · exact .inl mem
    · have := iso.inside m hm
      omega
    · exact .inr mem

/-- **Removing is difference, or nothing.** -/
theorem memblockRemoveRange_spec (size : Nat) (h : Canonical type l) (hb : base < 2 ^ 64) :
    (∃ type' l', memblockRemoveRange type base size = some (type', 0) ∧ Canonical type' l' ∧
      ∀ x, x ∈ addresses l' ↔ x ∈ addresses l ∧ ¬(base ≤ x ∧ x < min (base + size) uintptrMax)) ∨
    (memblockRemoveRange type base size = some (type, -1) ∧ initMemblockRegions < l.length + 2) := by
  have top : uintptrMax = 2 ^ 64 - 1 := rfl
  have cnt := h.cnt
  have fits := h.fits
  have limit : add64 base (capSize base size) = min (base + size) uintptrMax := add64_capSize (by omega)
  rw [memblockRemoveRange, memblockIsolateRange, limit]
  by_cases zero : size = 0
  · rw [if_pos zero, pure_bind]
    exact .inl ⟨type, l, rfl, h, fun x => ⟨fun mem => ⟨mem, by omega⟩, And.left⟩⟩
  have words : l.length + 2 < 2 ^ 32 := Nat.lt_of_le_of_lt (Nat.add_le_add_right fits 2) (by decide)
  rw [if_neg zero, cnt, add32_of_lt words]
  by_cases full : l.length + 2 > initMemblockRegions
  · rw [if_pos full, pure_bind]
    exact .inr ⟨rfl, full⟩
  rw [if_neg full]
  obtain ⟨type', s, e, A, M, B, run, iso, -⟩ := isolateScan_spec (A := [])
    h.toHolds List.length_nil.symm h.apart (by simp) h.bounded (show base ≤ min (base + size) uintptrMax by omega)
    (by omega)
    (Nat.le_of_not_lt full)
    (show l.length + 3 < loopBound by simp only [loopBound, initMemblockRegions] at fits ⊢; omega)
  have isolated : (some <$> isolateScan base (min (base + size) uintptrMax) loopBound type 0 0 0) =
      some (some (type', s, e)) := by rw [run]; rfl
  rw [bind_of_some isolated]
  obtain ⟨type'', removed, held⟩ : ∃ type'', removeScan s e type' = some type'' ∧ Holds type'' (A ++ B) := by
    have marks := iso.marks
    rw [Marks] at marks
    split at marks
    · next empty =>
      obtain ⟨rfl, rfl⟩ := marks
      exact ⟨type', rfl, by simpa [empty] using iso.holds⟩
    · obtain ⟨rfl, last⟩ := marks
      exact removeScan_spec iso.holds last
  obtain ⟨canonical, covers⟩ := iso.removed held (by omega)
  refine .inl ⟨type'', A ++ B, ?_, canonical, covers⟩
  simp only [removed]
  rfl

end

end MiaowOs
