import MiaowOs.Mm.MemblockLists

/-!
# Adding a range

`memblock_add_range` adds a set: on a canonical array it either reports that
the pieces of the new range that are still uncovered do not fit, and changes
nothing, or leaves the canonical array of the union. Both passes walk the same
regions; `gaps` counts the pieces they find, and `Filling` is the invariant of
the inserting pass, with the window of touching neighbours that is merged
afterwards.
-/

namespace MiaowOs
open Spans

section
variable {type : MemblockType} {l pre rest A M B C : List MemblockRegion} {r : MemblockRegion}
  {base size limit : Nat}

theorem bounded_iff (h : ∀ r ∈ l, r.base < r.limit) :
    (∀ r ∈ l, r.limit ≤ uintptrMax) ↔ ∀ x ∈ addresses l, x < uintptrMax := by
  constructor
  · rintro bounded x ⟨r, mem, -, lt⟩
    exact lt.trans_le (bounded r mem)
  · intro bounded r mem
    have := bounded (r.limit - 1) ⟨r, mem, by have := h r mem; omega, by have := h r mem; omega⟩
    omega

/-! ## Merging after an insertion -/

/-- Joining the pairs of a window leaves a canonical array when the regions
before it are apart from everything and those after it are apart. -/
theorem mergeScan_canonical {index n endRgn : Nat} (h : Holds type (pre ++ l)) (at_ : index = pre.length)
    (window : endRgn = pre.length + n) (inside : n < l.length)
    (ordered : RegionsOrdered (pre ++ l)) (bounded : ∀ r ∈ pre ++ l, r.limit ≤ uintptrMax)
    (before : RegionsApart pre) (across : ∀ a ∈ pre, ∀ s ∈ l, a.limit < s.base)
    (after : RegionsApart (l.drop n)) : ∃ type' l',
      mergeScan loopBound type index endRgn = some type' ∧ Canonical type' l' ∧
      addresses l' = addresses (pre ++ l) := by
  have fits := h.fits
  simp only [List.length_append, initMemblockRegions] at fits
  obtain ⟨type', run, held⟩ := mergeScan_spec h at_ window inside
    (show n < loopBound by simp only [loopBound]; omega) fun r mem => bounded r (by simp [mem])
  have orderedL : RegionsOrdered l := (ordered_append.1 ordered).2.1
  have joined := coalesce_separated (n := n) (fun a b _ => base_join a b) limit_join orderedL after
  have apart : RegionsApart (pre ++ coalesce MemblockRegion.base MemblockRegion.limit MemblockRegion.join n l) :=
    separated_append.2 ⟨before, joined, fun a mem => coalesce_lower (fun a b _ => base_join a b) (across a mem)⟩
  have same : addresses (pre ++ coalesce MemblockRegion.base MemblockRegion.limit MemblockRegion.join n l) =
      addresses (pre ++ l) := by
    ext x
    rw [mem_cover_append, mem_cover_append, cover_coalesce (fun a b _ => base_join a b) limit_join orderedL]
  refine ⟨type', _, run, ⟨held, apart, (bounded_iff apart.nonempty).2 ?_⟩, same⟩
  rw [same]
  exact (bounded_iff ordered.nonempty).1 bounded

/-- `memblock_merge_regions` after regions `M` were inserted between `A` and `B`. -/
theorem memblockMergeRegions_spec (h : Holds type (A ++ (M ++ B))) (ne : M ≠ [])
    (ordered : RegionsOrdered (A ++ (M ++ B))) (bounded : ∀ r ∈ A ++ (M ++ B), r.limit ≤ uintptrMax)
    (hA : RegionsApart A) (hB : RegionsApart B) : ∃ type' l',
      memblockMergeRegions type A.length (A.length + M.length) = some type' ∧ Canonical type' l' ∧
      addresses l' = addresses (A ++ (M ++ B)) := by
  have cnt := h.cnt
  have fits := h.fits
  have pos := List.length_pos_iff.2 ne
  simp only [List.length_append, initMemblockRegions] at cnt fits
  -- the window ends at the last region when nothing follows the inserted ones
  obtain ⟨last, hlast, le, short, after⟩ : ∃ last,
      (if A.length + M.length > sub32 type.cnt 1 then sub32 type.cnt 1 else A.length + M.length) = last ∧
      A.length ≤ last ∧ last < A.length + M.length + B.length ∧
      RegionsApart ((A ++ (M ++ B)).drop last) := by
    rw [sub32_of_le (by omega) (by omega), cnt]
    obtain rfl | ⟨b, B', rfl⟩ : B = [] ∨ ∃ b B', B = b :: B' := by cases B <;> simp
    · refine ⟨A.length + M.length - 1, by simp only [List.length_nil]; split <;> omega, by omega, by omega, ?_, ?_⟩
      · exact fun s mem => ordered.nonempty s (List.mem_of_mem_drop mem)
      · have single : ((A ++ (M ++ [])).drop (A.length + M.length - 1)).length = 1 := by
          simp only [List.length_drop, List.length_append, List.length_nil]
          omega
        obtain ⟨s, eq⟩ := List.length_eq_one_iff.1 single
        rw [eq]
        exact List.pairwise_singleton _ _
    · simp only [List.length_cons]
      refine ⟨A.length + M.length, if_neg (by omega), by omega, by omega, ?_⟩
      rw [← List.append_assoc, List.drop_left' (by simp)]
      exact hB
  rw [memblockMergeRegions, hlast]
  obtain rfl | ⟨A', z, rfl⟩ := List.eq_nil_or_concat' A
  · refine mergeScan_canonical (n := last) h (List.length_nil.symm) (by simp) ?_ ordered bounded .nil (by simp) after
    simp only [List.length_append, List.length_nil] at short ⊢
    omega
  · have split : A' ++ [z] ++ (M ++ B) = A' ++ (z :: (M ++ B)) := by simp
    simp only [List.length_append, List.length_cons, List.length_nil] at le short fits
    have start : (if (A' ++ [z]).length ≠ 0 then sub32 (A' ++ [z]).length 1 else 0) = A'.length := by
      rw [if_pos (by simp), List.length_append, List.length_singleton, sub32_of_le (by omega) (by omega)]
      omega
    simp only [split] at *
    rw [start]
    obtain ⟨hA', hz, across⟩ := separated_append.1 hA
    refine mergeScan_canonical (n := last - A'.length) h rfl (by omega)
      (by simp only [List.length_cons, List.length_append]; omega) ordered bounded hA' ?_ ?_
    · intro a ha s hs
      have az := across a ha z (by simp)
      rcases List.mem_cons.1 hs with rfl | hs
      · exact az
      · have zs := (ordered_cons.1 (ordered_append.1 ordered).2.1).2.1 s hs
        have hz := hz.nonempty z (by simp)
        omega
    · have none : A'.drop last = [] := List.drop_eq_nil_of_le (by omega)
      rwa [List.drop_append, none, List.nil_append] at after

/-! ## The counting pass -/

/-- The number of pieces of `[base, limit)` between the regions of a sorted list. -/
def gaps (limit : Nat) : Nat → List MemblockRegion → Nat
  | base, [] => if base < limit then 1 else 0
  | base, r :: rest =>
    if limit ≤ r.base then if base < limit then 1 else 0
    else if r.limit ≤ base then gaps limit base rest
    else (if base < r.base then 1 else 0) + gaps limit (min r.limit limit) rest

theorem gaps_le : gaps limit base l ≤ l.length + 1 := by
  induction l generalizing base with
  | nil => simp only [gaps]; split <;> simp
  | cons r rest ih =>
    simp only [gaps, List.length_cons]
    have skip : gaps limit base rest ≤ rest.length + 1 := ih
    have past : gaps limit (min r.limit limit) rest ≤ rest.length + 1 := ih
    split_ifs <;> omega

/-- A range without gaps is covered. -/
theorem mem_of_gaps_eq_zero {x : Nat} (none : gaps limit base l = 0) (mem : base ≤ x ∧ x < limit) :
    x ∈ addresses l := by
  induction l generalizing base with
  | nil =>
    simp only [gaps] at none
    split at none <;> omega
  | cons r rest ih =>
    simp only [gaps] at none
    rw [mem_cover_cons]
    split_ifs at none with stop lt skip gap
    · omega
    · exact .inr (ih none mem)
    · omega
    · rcases Nat.lt_or_ge x r.limit with lt | ge
      · exact .inl ⟨by omega, lt⟩
      · exact .inr (ih (by simpa using none) ⟨by omega, mem.2⟩)

/-- A covered range has no gaps. -/
theorem gaps_eq_zero (h : RegionsApart l) (covered : ∀ x, base ≤ x → x < limit → x ∈ addresses l) :
    gaps limit base l = 0 := by
  induction l generalizing base with
  | nil =>
    have empty : ¬ base < limit := fun lt => by simpa using covered base le_rfl lt
    rw [gaps, if_neg empty]
  | cons r rest ih =>
    obtain ⟨ne, first, apart⟩ := separated_cons.1 h
    have later : ∀ x, x < r.base → x ∉ addresses (r :: rest) := fun x lt => h.not_mem_before lt
    have reach : ∀ x, r.limit ≤ x → x ∈ addresses (r :: rest) → x ∈ addresses rest := fun x ge mem =>
      (mem_cover_cons.1 mem).resolve_left fun ⟨_, lt⟩ => by omega
    rw [gaps]
    split_ifs with stop lt skip gap
    · exact absurd (covered base le_rfl lt) (later base (by omega))
    · rfl
    · exact ih apart fun x le lt => reach x (by omega) (covered x le lt)
    · exact absurd (covered base le_rfl (by omega)) (later base gap)
    · rw [Nat.zero_add]
      exact ih apart fun x le lt => reach x (by omega) (covered x (by omega) lt)

/-- The code's choice of the new lower end. -/
theorem ite_lt_eq_min (a b : Nat) : (if a < b then a else b) = min a b := by
  split <;> omega

theorem addScan_count {pre rest : List MemblockRegion} {limit fuel : Nat} {pass : AddPass} (h : Holds pass.type (pre ++ rest))
    (at_ : pass.index = pre.length) (bounded : ∀ r ∈ rest, r.limit ≤ uintptrMax) (enough : rest.length < fuel)
    (small : pass.added + rest.length < 32) : ∃ pass', addScan false limit fuel pass = some pass' ∧
      pass'.added + (if pass'.base < limit then 1 else 0) = pass.added + gaps limit pass.base rest ∧
      pass'.added ≤ pass.added + rest.length := by
  induction rest generalizing pre pass fuel with
  | nil =>
    obtain ⟨fuel, rfl⟩ := Nat.exists_eq_add_one_of_ne_zero (Nat.ne_zero_of_lt enough)
    rw [addScan, if_neg (by simp [h.cnt, at_])]
    exact ⟨pass, rfl, rfl, by simp⟩
  | cons r rest ih =>
    obtain ⟨fuel, rfl⟩ := Nat.exists_eq_add_one_of_ne_zero (Nat.ne_zero_of_lt enough)
    have cnt := h.cnt
    have fits := h.fits
    simp only [List.length_append, List.length_cons, initMemblockRegions] at cnt fits enough small
    have bounded' : ∀ r ∈ rest, r.limit ≤ uintptrMax := fun s mem => bounded s (by simp [mem])
    have next : add32 pass.index 1 = (pre ++ [r]).length := by
      rw [add32_of_lt (by omega), at_, List.length_append, List.length_singleton]
    have held : Holds pass.type ((pre ++ [r]) ++ rest) := by simpa using h
    rw [addScan, if_pos (by omega), bind_of_some (h.load at_), add64_limit (bounded r (by simp))]
    simp only [gaps]
    by_cases stop : limit ≤ r.base
    · rw [if_pos stop, if_pos stop]
      exact ⟨pass, rfl, rfl, by omega⟩
    rw [if_neg stop, if_neg stop]
    by_cases skip : r.limit ≤ pass.base
    · rw [if_pos skip, if_pos skip]
      obtain ⟨pass', run, count, le⟩ := @ih _ fuel { pass with index := add32 pass.index 1 }
        held next bounded' (by omega) (by simp only; omega)
      exact ⟨pass', run, count, le.trans (by simp)⟩
    rw [if_neg skip, if_neg skip, ite_lt_eq_min]
    by_cases gap : pass.base < r.base
    · rw [if_pos gap, if_pos gap]
      obtain ⟨pass', run, count, le⟩ := @ih _ fuel
        { pass with added := add32 pass.added 1, base := min r.limit limit, index := add32 pass.index 1 }
        held next bounded' (by omega) (by simp only [add32_of_lt (a := pass.added) (b := 1) (by omega)]; omega)
      simp only [add32_of_lt (a := pass.added) (b := 1) (by omega)] at count le
      exact ⟨pass', run, by omega, le.trans (by simp; omega)⟩
    · rw [if_neg gap, if_neg gap]
      obtain ⟨pass', run, count, le⟩ := @ih _ fuel
        { pass with base := min r.limit limit, index := add32 pass.index 1 }
        held next bounded' (by omega) (by simp only; omega)
      exact ⟨pass', run, by simpa using count, le.trans (by simp)⟩

/-- The first pass counts the gaps and leaves the array alone. -/
theorem addPass_count (base limit : Nat) (h : Canonical type l) : ∃ pass,
    addPass false type base limit 0 0 = some pass ∧ pass.added = gaps limit base l := by
  have fits := h.fits
  simp only [initMemblockRegions] at fits
  obtain ⟨pass, run, count, le⟩ := @addScan_count [] l limit loopBound
    { type, base, startRgn := 0, endRgn := 0, index := 0, added := 0 } h.toHolds rfl h.bounded
    (by simp only [loopBound]; omega) (by simp only; omega)
  rw [addPass, bind_of_some run]
  simp only [Nat.zero_add] at count le
  by_cases more : pass.base < limit
  · rw [if_pos more] at count ⊢
    refine ⟨_, rfl, ?_⟩
    simp only [add32_of_lt (a := pass.added) (b := 1) (by omega)]
    exact count
  · rw [if_neg more] at count ⊢
    exact ⟨pass, rfl, count⟩

/-! ## The inserting pass -/

/-- The regions `M` inserted so far, between the regions `A` and `C` of the
original list: the window the merge looks at. -/
structure Window (pass : AddPass) (pre rest A M C : List MemblockRegion) : Prop where
  split : pre = A ++ (M ++ C)
  before : RegionsApart A
  after : RegionsApart (C ++ rest)
  startRgn : pass.startRgn = A.length
  endRgn : pass.endRgn = A.length + M.length
  none : M = [] → A = [] ∧ pass.added = 0

/-- The inserting pass over the list `l` with `pre` behind it and `rest` ahead:
what `pass.base` leaves of the range `[start, limit)` is still to be added. -/
structure Filling (limit start : Nat) (l : List MemblockRegion) (pass : AddPass)
    (pre rest : List MemblockRegion) : Prop where
  holds : Holds pass.type (pre ++ rest)
  index : pass.index = pre.length
  ordered : RegionsOrdered (pre ++ rest)
  bounded : ∀ r ∈ pre ++ rest, r.limit ≤ uintptrMax
  base_le : pass.base ≤ limit
  behind : pass.base < limit → ∀ r ∈ pre, r.limit ≤ pass.base
  covers : ∀ x, x ∈ addresses (pre ++ rest) ∨ pass.base ≤ x ∧ x < limit ↔
    x ∈ addresses l ∨ start ≤ x ∧ x < limit
  count : pass.added + gaps limit pass.base rest = gaps limit start l
  length : (pre ++ rest).length = l.length + pass.added
  window : ∃ A M C, Window pass pre rest A M C

section Filling
variable {start b : Nat} {pass : AddPass}

theorem Filling.init (h : Canonical type l) (le : base ≤ limit) :
    Filling limit base l { type, base, startRgn := 0, endRgn := 0, index := 0, added := 0 } [] l where
  holds := h.toHolds
  index := rfl
  ordered := h.apart.ordered
  bounded := h.bounded
  base_le := le
  behind := by simp
  covers := fun x => Iff.rfl
  count := by simp
  length := by simp
  window := ⟨[], [], [], by simp, .nil, h.apart, rfl, rfl, by simp⟩

/-- Moving past a region that covers what is skipped of the range. -/
theorem Filling.advance (f : Filling limit start l pass pre (r :: rest)) (ge : pass.base ≤ b) (le : b ≤ limit)
    (clear : b < limit → r.limit ≤ b) (inside : ∀ x, pass.base ≤ x → x < b → r.base ≤ x ∧ x < r.limit)
    (same : gaps limit b rest = gaps limit pass.base (r :: rest)) :
    Filling limit start l { pass with base := b, index := add32 pass.index 1 } (pre ++ [r]) rest := by
  have assoc : (pre ++ [r]) ++ rest = pre ++ r :: rest := by simp
  have fits := f.holds.fits
  simp only [List.length_append, List.length_cons, initMemblockRegions] at fits
  obtain ⟨A, M, C, w⟩ := f.window
  refine ⟨assoc ▸ f.holds, ?_, assoc ▸ f.ordered, assoc ▸ f.bounded, le, fun lt s mem => ?_, fun x => ?_, ?_,
    assoc ▸ f.length, A, M, C ++ [r], ?_, w.before, ?_, w.startRgn, w.endRgn, w.none⟩
  · simp only [f.index, List.length_append, List.length_singleton]
    exact add32_of_lt (by omega)
  · rcases List.mem_append.1 mem with mem | mem
    · exact (f.behind (ge.trans_lt lt) s mem).trans ge
    · rw [List.mem_singleton.1 mem]
      exact clear lt
  · rw [← f.covers x, assoc]
    refine ⟨Or.imp_right fun ⟨h, h'⟩ => ⟨ge.trans h, h'⟩, ?_⟩
    rintro (mem | ⟨h, h'⟩)
    · exact .inl mem
    · rcases Nat.lt_or_ge x b with lt | ge
      · exact .inl ⟨r, by simp, inside x h lt⟩
      · exact .inr ⟨ge, h'⟩
  · simpa only [same] using f.count
  · rw [w.split]
    simp
  · simpa using w.after

/-- Inserting the piece of the range below `b`. -/
theorem Filling.fill (f : Filling limit start l pass pre rest) (top : limit ≤ uintptrMax)
    (room : l.length + gaps limit start l ≤ initMemblockRegions) (lt : pass.base < b) (le : b ≤ limit)
    (ahead : ∀ r ∈ rest, b ≤ r.base) (same : gaps limit pass.base rest = 1 + gaps limit b rest) :
    ∃ pass', pass.piece true (sub64 b pass.base) = some pass' ∧ pass'.added = pass.added + 1 ∧
      Filling limit start l { pass' with base := b, index := add32 pass'.index 1 }
        (pre ++ [⟨pass.base, b - pass.base⟩]) rest := by
  have word : uintptrMax < 2 ^ 64 := by decide
  have count := f.count
  have length := f.length
  have index := f.index
  simp only [List.length_append, initMemblockRegions] at room length
  obtain ⟨A, M, C, w⟩ := f.window
  have behind := f.behind (lt.trans_le le)
  obtain ⟨type', inserted, held⟩ := f.holds.insert pass.base (b - pass.base) index
    (by simp only [List.length_append, initMemblockRegions]; omega)
  have nextIndex : add32 pass.index 1 = pre.length + 1 := by rw [index]; exact add32_of_lt (by omega)
  have nextAdded : add32 pass.added 1 = pass.added + 1 := add32_of_lt (by omega)
  have assoc : (pre ++ [⟨pass.base, b - pass.base⟩]) ++ rest = pre ++ ⟨pass.base, b - pass.base⟩ :: rest := by simp
  have end_eq : (MemblockRegion.mk pass.base (b - pass.base)).limit = b := limit_mk lt.le
  refine ⟨_, by rw [AddPass.piece, sub64_of_le (by omega) (by omega), if_pos rfl, bind_of_some inserted]; rfl,
    nextAdded, assoc ▸ held, ?_, ?_, ?_, le, fun _ s mem => ?_, fun x => ?_, ?_, ?_, ?_⟩
  · simp only [List.length_append, List.length_singleton]
    exact nextIndex
  · obtain ⟨low, high, across⟩ := ordered_append.1 f.ordered
    rw [assoc]
    refine ordered_append.2 ⟨low, ordered_cons.2 ⟨?_, ?_, high⟩, fun s mem t mem' => ?_⟩
    · rw [end_eq]; exact lt
    · rw [end_eq]; exact ahead
    · rcases List.mem_cons.1 mem' with rfl | mem'
      · exact behind s mem
      · exact across s mem t mem'
  · intro s mem
    rw [assoc, List.mem_append, List.mem_cons] at mem
    rcases mem with mem | rfl | mem
    · exact f.bounded s (by simp [mem])
    · rw [end_eq]; exact le.trans top
    · exact f.bounded s (by simp [mem])
  · rcases List.mem_append.1 mem with mem | mem
    · exact (behind s mem).trans lt.le
    · rw [List.mem_singleton.1 mem, end_eq]
  · rw [← f.covers x, assoc]
    simp only [mem_cover_append, mem_cover_cons, end_eq]
    constructor
    · rintro ((mem | ⟨h, h'⟩ | mem) | ⟨h, h'⟩)
      · exact .inl (.inl mem)
      · exact .inr ⟨h, h'.trans_le le⟩
      · exact .inl (.inr mem)
      · exact .inr ⟨lt.le.trans h, h'⟩
    · rintro ((mem | mem) | ⟨h, h'⟩)
      · exact .inl (.inl mem)
      · exact .inl (.inr (.inr mem))
      · rcases Nat.lt_or_ge x b with lt' | ge
        · exact .inl (.inr (.inl ⟨h, lt'⟩))
        · exact .inr ⟨ge, h'⟩
  · simp only [nextAdded]
    omega
  · simp only [assoc, nextAdded, List.length_append, List.length_cons]
    omega
  · -- the window is opened at the first insertion and reaches to the last one
    by_cases empty : M = []
    · obtain ⟨rfl, -⟩ := w.none empty
      subst empty
      refine ⟨C, [⟨pass.base, b - pass.base⟩], [], by simpa using w.split, (separated_append.1 w.after).1,
        by simpa using (separated_append.1 w.after).2.1, ?_, ?_, by simp⟩
      · have zero : pass.endRgn = 0 := by simpa using w.endRgn
        simp only [zero, if_true, index, w.split, List.nil_append]
      · simp only [nextIndex, w.split, List.nil_append, List.length_singleton]
    · have pos : pass.endRgn ≠ 0 := by
        have := List.length_pos_iff.2 empty
        have := w.endRgn
        omega
      refine ⟨A, M ++ (C ++ [⟨pass.base, b - pass.base⟩]), [], by simp [w.split], w.before,
        by simpa using (separated_append.1 w.after).2.1, ?_, ?_, by simp⟩
      · simp only [pos, if_false, w.startRgn]
      · simp only [nextIndex, w.split, List.length_append, List.length_singleton]
        omega

theorem addScan_fill {fuel : Nat} (f : Filling limit start l pass pre rest) (top : limit ≤ uintptrMax)
    (room : l.length + gaps limit start l ≤ initMemblockRegions) (enough : rest.length < fuel) :
    ∃ pass' pre' rest', addScan true limit fuel pass = some pass' ∧ Filling limit start l pass' pre' rest' ∧
      ∀ r ∈ rest', limit ≤ r.base := by
  induction rest generalizing pre pass fuel with
  | nil =>
    obtain ⟨fuel, rfl⟩ := Nat.exists_eq_add_one_of_ne_zero (Nat.ne_zero_of_lt enough)
    rw [addScan, if_neg (by simp [f.holds.cnt, f.index])]
    exact ⟨pass, pre, [], rfl, f, by simp⟩
  | cons r rest ih =>
    obtain ⟨fuel, rfl⟩ := Nat.exists_eq_add_one_of_ne_zero (Nat.ne_zero_of_lt enough)
    have enough' : rest.length < fuel := by simpa using enough
    have in_list : pass.index < pass.type.cnt := by simp [f.holds.cnt, f.index]
    have ne : r.base < r.limit := f.ordered.nonempty r (by simp)
    have ahead : ∀ s ∈ r :: rest, r.base ≤ s.base := (ordered_append.1 f.ordered).2.1.head_le
    rw [addScan, if_pos in_list, bind_of_some (f.holds.load f.index), add64_limit (f.bounded r (by simp))]
    simp only []
    by_cases stop : limit ≤ r.base
    · rw [if_pos stop]
      exact ⟨pass, pre, r :: rest, rfl, f, fun s mem => stop.trans (ahead s mem)⟩
    rw [if_neg stop]
    by_cases skip : r.limit ≤ pass.base
    · rw [if_pos skip]
      refine ih (f.advance le_rfl f.base_le (fun _ => skip) (fun x h h' => by omega) ?_) enough'
      rw [gaps, if_neg stop, if_pos skip]
    rw [if_neg skip, ite_lt_eq_min]
    by_cases gap : pass.base < r.base
    · have here : gaps limit r.base (r :: rest) = gaps limit (min r.limit limit) rest := by
        rw [gaps, if_neg stop, if_neg (by omega), if_neg (by omega), Nat.zero_add]
      obtain ⟨pass', inserted, -, f'⟩ := f.fill top room gap (by omega) ahead
        (by rw [here, gaps, if_neg stop, if_neg skip, if_pos gap])
      rw [if_pos gap, bind_of_some inserted, if_pos trivial]
      refine ih (f'.advance (b := min r.limit limit) ?_ (by omega) (by omega) ?_ here.symm) enough'
      · simp only; omega
      · simp only
        intro x h h'
        omega
    · rw [if_neg gap]
      refine ih (f.advance (b := min r.limit limit) ?_ (by omega) (by omega) ?_ ?_) enough'
      · have := f.base_le
        omega
      · intro x h h'
        omega
      · rw [gaps, if_neg stop, if_neg skip, if_neg gap, Nat.zero_add]

/-- The second pass inserts what the first one counted. -/
theorem addPass_fill (h : Canonical type l) (le : base ≤ limit) (top : limit ≤ uintptrMax)
    (room : l.length + gaps limit base l ≤ initMemblockRegions) : ∃ pass pre rest,
      addPass true type base limit 0 0 = some pass ∧ pass.added = gaps limit base l ∧
      Filling limit base l { pass with base := limit, index := pre.length } pre rest := by
  have fits := h.fits
  simp only [initMemblockRegions] at fits
  obtain ⟨pass, pre, rest, run, f, ahead⟩ := addScan_fill (Filling.init h le) top room
    (show l.length < loopBound by simp only [loopBound]; omega)
  have tail : ∀ b, gaps limit b rest = if b < limit then 1 else 0 := fun b => by
    cases rest with
    | nil => rfl
    | cons r rest => rw [gaps, if_pos (ahead r (by simp))]
  have none : gaps limit limit rest = 0 := by simp [tail]
  rw [addPass, bind_of_some run]
  by_cases more : pass.base < limit
  · obtain ⟨pass', inserted, -, f'⟩ := f.fill top room more le_rfl ahead (by rw [none, tail, if_pos more])
    rw [if_pos more, inserted]
    have count := f'.count
    have index := f'.index
    simp only [none, Nat.add_zero] at count index
    exact ⟨pass', _, rest, rfl, count, index ▸ f'⟩
  · rw [if_neg more]
    have eq : pass.base = limit := Nat.le_antisymm f.base_le (Nat.le_of_not_lt more)
    have count := f.count
    rw [eq, none, Nat.add_zero] at count
    have same : { pass with base := limit, index := pre.length } = pass := by rw [← f.index, ← eq]
    exact ⟨pass, pre, rest, rfl, count, same ▸ f⟩

/-! ## `memblock_add_range` -/

/-- **Adding is union, or nothing**: the call fails exactly when the uncovered
pieces do not fit, and then changes nothing. -/
theorem memblockAddRange_spec (h : Canonical type l) (le : base + size ≤ uintptrMax) :
    (∃ type' l', memblockAddRange type base size = some (type', 0) ∧ Canonical type' l' ∧
      ∀ x, x ∈ addresses l' ↔ x ∈ addresses l ∨ base ≤ x ∧ x < base + size) ∨
    (memblockAddRange type base size = some (type, -1) ∧
      initMemblockRegions < l.length + gaps (base + size) base l) := by
  have word : uintptrMax < 2 ^ 64 := by decide
  have cnt := h.cnt
  have fits := h.fits
  have few : gaps (base + size) base l ≤ l.length + 1 := gaps_le
  simp only [initMemblockRegions] at fits
  have limit : add64 base (capSize base size) = base + size := by
    rw [add64_capSize (by omega)]; omega
  rw [memblockAddRange, limit]
  by_cases zero : size = 0
  · rw [if_pos zero]
    exact .inl ⟨type, l, rfl, h, fun x => ⟨.inl, fun mem => mem.elim id fun ⟨_, _⟩ => by omega⟩⟩
  rw [if_neg zero]
  by_cases first : type.cnt = 0
  · obtain rfl : l = [] := List.length_eq_zero_iff.1 (by omega)
    rw [if_pos first, bind_of_some (store_eq (by decide))]
    refine .inl ⟨_, [⟨base, size⟩], rfl, ⟨⟨rfl, by simp, ?_, ?_⟩, ⟨?_, by simp⟩, ?_⟩, fun x => ?_⟩
    · simp
    · simp only [sizes, List.map_cons, List.map_nil, List.sum_cons, List.sum_nil]
      omega
    · simp only [List.mem_singleton, forall_eq, MemblockRegion.limit]
      omega
    · simpa [MemblockRegion.limit] using le
    · simp [MemblockRegion.limit]
  rw [if_neg first]
  obtain ⟨count, counted, need⟩ := addPass_count base (base + size) h
  rw [bind_of_some counted, need, add32_of_lt (by omega), cnt]
  by_cases none : gaps (base + size) base l = 0
  · -- the range is covered already
    rw [if_pos none]
    exact .inl ⟨type, l, rfl, h, fun x => ⟨.inl, fun mem => mem.elim id (mem_of_gaps_eq_zero none)⟩⟩
  rw [if_neg none]
  by_cases full : l.length + gaps (base + size) base l > initMemblockRegions
  · rw [if_pos full]
    exact .inr ⟨rfl, full⟩
  rw [if_neg full]
  obtain ⟨pass, pre, rest, run, added, f⟩ := addPass_fill h (Nat.le_add_right base size) le (Nat.le_of_not_lt full)
  obtain ⟨A, M, C, w⟩ := f.window
  have window : pre ++ rest = A ++ (M ++ (C ++ rest)) := by rw [w.split]; simp
  have inserted : M ≠ [] := fun empty => none (added ▸ (w.none empty).2)
  obtain ⟨type', l', merged, canonical, same⟩ := memblockMergeRegions_spec (window ▸ f.holds) inserted
    (window ▸ f.ordered) (window ▸ f.bounded) w.before w.after
  have startRgn : pass.startRgn = A.length := w.startRgn
  have endRgn : pass.endRgn = A.length + M.length := w.endRgn
  rw [bind_of_some run, if_neg (added ▸ none), startRgn, endRgn, bind_of_some merged]
  refine .inl ⟨type', l', rfl, canonical, fun x => ?_⟩
  have covers := f.covers x
  rw [same, ← window, ← covers]
  simp only [iff_self_or]
  omega

/-- Adding a range that is covered already changes nothing. -/
theorem memblockAddRange_covered (h : Canonical type l) (le : base + size ≤ uintptrMax)
    (none : gaps (base + size) base l = 0) : memblockAddRange type base size = some (type, 0) := by
  have limit : add64 base (capSize base size) = base + size := by
    rw [add64_capSize (by omega)]; omega
  rw [memblockAddRange, limit]
  by_cases zero : size = 0
  · rw [if_pos zero]
    rfl
  rw [if_neg zero]
  have first : type.cnt ≠ 0 := fun first => by
    obtain rfl : l = [] := List.length_eq_zero_iff.1 (h.cnt ▸ first)
    rw [gaps, if_pos (by omega)] at none
    omega
  obtain ⟨count, counted, need⟩ := addPass_count base (base + size) h
  rw [if_neg first, bind_of_some counted, if_pos (need.trans none)]
  rfl

/-- An array without room for the pieces stays as it is. -/
theorem memblockAddRange_full (h : Canonical type l) (le : base + size ≤ uintptrMax)
    (full : initMemblockRegions < l.length + gaps (base + size) base l) :
    memblockAddRange type base size = some (type, -1) := by
  have fits := h.fits
  have few : gaps (base + size) base l ≤ l.length + 1 := gaps_le
  have limit : add64 base (capSize base size) = base + size := by
    rw [add64_capSize (by omega)]; omega
  simp only [initMemblockRegions] at fits full
  have first : type.cnt ≠ 0 := fun first => by
    obtain rfl : l = [] := List.length_eq_zero_iff.1 (h.cnt ▸ first)
    simp only [List.length_nil] at full few
    omega
  have zero : size ≠ 0 := fun zero => by
    have none : gaps (base + size) base l = 0 := gaps_eq_zero h.apart fun x _ _ => by omega
    omega
  obtain ⟨count, counted, need⟩ := addPass_count base (base + size) h
  rw [memblockAddRange, limit, if_neg zero, if_neg first, bind_of_some counted, need, if_neg (by omega),
    add32_of_lt (by rw [h.cnt]; omega), h.cnt, if_pos full]
  rfl

end Filling

end

end MiaowOs
