import MiaowOs.Mm.Memblock
import MiaowOs.Lib.Spans
import Mathlib.Algebra.BigOperators.Group.List.Basic

/-!
# Region arrays as sorted lists

`Holds type l` reads the first `cnt` slots of a region array as the list `l`;
`Canonical type l` adds that the list is separated and stays inside the
address space, which is what every call leaves behind. The three primitives
that shift the array act on the list as insertion, removal and joining.
-/

namespace MiaowOs
open Spans

/-- The end of a region, as a number. -/
def MemblockRegion.limit (r : MemblockRegion) : Nat := r.base + r.size

/-- The region between two addresses. -/
theorem limit_mk {a b : Nat} (h : a ≤ b) : (MemblockRegion.mk a (b - a)).limit = b := Nat.add_sub_cancel' h

/-- Two touching regions as one. -/
def MemblockRegion.join (a b : MemblockRegion) : MemblockRegion := ⟨a.base, a.size + b.size⟩

/-- The addresses of a list of regions. -/
abbrev addresses (l : List MemblockRegion) : Set Nat := cover MemblockRegion.base MemblockRegion.limit l

/-- Sorted, non-empty regions. -/
abbrev RegionsOrdered (l : List MemblockRegion) : Prop := Ordered MemblockRegion.base MemblockRegion.limit l

/-- Sorted, non-empty regions that do not touch. -/
abbrev RegionsApart (l : List MemblockRegion) : Prop := Separated MemblockRegion.base MemblockRegion.limit l

/-- The sum of the region sizes. -/
def sizes (l : List MemblockRegion) : Nat := (l.map MemblockRegion.size).sum

@[simp] theorem sizes_cons (r : MemblockRegion) (l : List MemblockRegion) : sizes (r :: l) = r.size + sizes l := by
  simp [sizes]

@[simp] theorem sizes_append (l l' : List MemblockRegion) : sizes (l ++ l') = sizes l + sizes l' := by
  simp [sizes]

theorem base_join (a b : MemblockRegion) : (a.join b).base = a.base := rfl

theorem limit_join (a b : MemblockRegion) (touch : a.limit = b.base) : (a.join b).limit = b.limit := by
  simp only [MemblockRegion.join, MemblockRegion.limit] at *
  omega

/-- The code's end of a region inside the address space. -/
theorem add64_limit {r : MemblockRegion} (h : r.limit ≤ uintptrMax) : add64 r.base r.size = r.limit :=
  add64_of_lt (Nat.lt_of_le_of_lt h (by decide))

theorem join_size_lt {a b : MemblockRegion} (touch : a.limit = b.base) (h : b.limit ≤ uintptrMax) :
    a.size + b.size < 2 ^ 64 := by
  have top : uintptrMax < 2 ^ 64 := by decide
  simp only [MemblockRegion.limit] at touch h
  omega

/-- `cap_size` stops at the top of the address space. -/
theorem capSize_eq {base size : Nat} (h : base ≤ uintptrMax) : capSize base size = min size (uintptrMax - base) := by
  have top : sub64 uintptrMax base = uintptrMax - base := sub64_of_le h (by decide)
  rw [capSize, top]
  split <;> omega

/-- The end of the capped range `[base, base + size)`. -/
theorem add64_capSize {base size : Nat} (h : base ≤ uintptrMax) :
    add64 base (capSize base size) = min (base + size) uintptrMax := by
  have top : uintptrMax = 2 ^ 64 - 1 := rfl
  rw [capSize_eq h, add64_of_lt (by omega)]
  omega

/-- Run one step of a computation that may end in `none`. -/
theorem bind_of_some {α β : Type} {x : Option α} {v : α} {f : α → Option β} (h : x = some v) :
    (x >>= f) = f v := by
  rw [h]
  rfl

/-- The first `cnt` slots of `type` hold `l`, and `total_size` sums them. -/
structure Holds (type : MemblockType) (l : List MemblockRegion) : Prop where
  cnt : type.cnt = l.length
  fits : l.length ≤ initMemblockRegions
  regions : ∀ i < l.length, l[i]? = some (type.regions i)
  total : type.totalSize = sizes l % 2 ^ 64

/-- A region array between calls. -/
structure Canonical (type : MemblockType) (l : List MemblockRegion) : Prop extends Holds type l where
  apart : RegionsApart l
  bounded : ∀ r ∈ l, r.limit ≤ uintptrMax

/-- The list an array holds. -/
def MemblockType.list (type : MemblockType) : List MemblockRegion := (List.range type.cnt).map type.regions

section
variable {type : MemblockType} {l pre post : List MemblockRegion} {r a b : MemblockRegion}
  {index base size : Nat}

theorem Holds.list_eq (h : Holds type l) : type.list = l := by
  apply List.ext_getElem?
  intro i
  rcases Nat.lt_or_ge i l.length with lt | ge
  · rw [h.regions i lt]
    simp [MemblockType.list, h.cnt, lt]
  · simp [MemblockType.list, h.cnt, ge]

theorem Holds.cnt_le (h : Holds type l) : type.cnt ≤ initMemblockRegions := h.cnt ▸ h.fits

theorem Holds.load (h : Holds type (pre ++ r :: post)) (at_ : index = pre.length) : type.load index = some r := by
  have len := h.fits
  have slot := h.regions index
  simp only [List.length_append, List.length_cons] at len slot
  have := slot (by omega)
  rw [at_, List.getElem?_append_right le_rfl] at this
  rw [MemblockType.load, if_pos (by omega), at_]
  simpa using this.symm

theorem store_eq (h : index < initMemblockRegions) : type.store index r =
    some { type with regions := fun i => if i = index then r else type.regions i } := if_pos h

theorem move_eq {dst src count : Nat}
    (h : count = 0 ∨ dst + count ≤ initMemblockRegions ∧ src + count ≤ initMemblockRegions) :
    type.move dst src count = some { type with regions := fun i =>
      if dst ≤ i ∧ i < dst + count then type.regions (src + (i - dst)) else type.regions i } := if_pos h

/-- Writing one slot replaces one region; `total` accounts for the new size. -/
theorem Holds.store (h : Holds type (pre ++ r :: post)) (at_ : index = pre.length) {total : Nat}
    (sum : total = sizes (pre ++ a :: post) % 2 ^ 64) : ∃ type', type.store index a = some type' ∧
      type'.totalSize = type.totalSize ∧ Holds { type' with totalSize := total } (pre ++ a :: post) := by
  have len := h.fits
  simp only [List.length_append, List.length_cons] at len
  refine ⟨_, store_eq (by omega), rfl, by simpa using h.cnt, by simpa using len, fun i lt => ?_, sum⟩
  have slot := h.regions i (by simpa using lt)
  simp only [List.getElem?_append, List.getElem?_cons] at slot ⊢
  split <;> simp_all <;> grind

/-- `memblock_insert_region` inserts into the list. -/
theorem Holds.insert (base size : Nat) (h : Holds type (pre ++ post)) (at_ : index = pre.length)
    (room : (pre ++ post).length < initMemblockRegions) : ∃ type',
      memblockInsertRegion type index base size = some type' ∧ Holds type' (pre ++ ⟨base, size⟩ :: post) := by
  have cnt := h.cnt
  simp only [List.length_append, initMemblockRegions] at room cnt
  have moved : sub32 type.cnt index = post.length := by
    rw [sub32_of_le (by omega) (by omega)]; omega
  rw [memblockInsertRegion, moved, bind_of_some (move_eq (by simp only [initMemblockRegions]; omega)),
    bind_of_some (store_eq (by simp only [initMemblockRegions]; omega))]
  refine ⟨_, rfl, ?_, ?_, fun i lt => ?_, ?_⟩
  · simp only [List.length_append, List.length_cons, add32_of_lt (a := type.cnt) (b := 1) (by omega)]
    omega
  · simp only [List.length_append, List.length_cons, initMemblockRegions]
    omega
  · have low := h.regions i
    have high := h.regions (i - 1)
    simp only [List.length_append, List.length_cons, List.getElem?_append, List.getElem?_cons] at lt low high ⊢
    grind
  · simp only [add64, h.total, sizes_append, sizes_cons]
    omega

/-- `memblock_remove_region` removes from the list. -/
theorem Holds.remove (h : Holds type (pre ++ r :: post)) (at_ : index = pre.length) : ∃ type',
    memblockRemoveRegion type index = some type' ∧ Holds type' (pre ++ post) := by
  have cnt := h.cnt
  have fits := h.fits
  simp only [List.length_append, List.length_cons, initMemblockRegions] at cnt fits
  have moved : sub32 (sub32 type.cnt index) 1 = post.length := by
    rw [sub32_of_le (b := index) (by omega) (by omega), sub32_of_le (by omega) (by omega)]; omega
  rw [memblockRemoveRegion, bind_of_some (h.load at_), moved,
    bind_of_some (move_eq (by simp only [initMemblockRegions]; omega))]
  refine ⟨_, rfl, ?_, ?_, fun i lt => ?_, ?_⟩
  · simp only [List.length_append, sub32_of_le (a := type.cnt) (b := 1) (by omega) (by omega)]
    omega
  · simp only [List.length_append, initMemblockRegions]
    omega
  · have low := h.regions i
    have high := h.regions (i + 1)
    simp only [List.length_append, List.length_cons, List.getElem?_append, List.getElem?_cons] at lt low high ⊢
    grind
  · simp only [sub64, h.total, sizes_append, sizes_cons]
    omega

/-- `joinNext` joins two neighbours of the list. -/
theorem Holds.join (h : Holds type (pre ++ a :: b :: post)) (at_ : index = pre.length)
    (fits64 : a.size + b.size < 2 ^ 64) : ∃ type',
      joinNext type index a b = some type' ∧ Holds type' (pre ++ a.join b :: post) := by
  have cnt := h.cnt
  have fits := h.fits
  simp only [List.length_append, List.length_cons, initMemblockRegions] at cnt fits
  have moved : sub32 (sub32 type.cnt index) 2 = post.length := by
    rw [sub32_of_le (b := index) (by omega) (by omega), sub32_of_le (by omega) (by omega)]; omega
  rw [joinNext, add64_of_lt fits64, bind_of_some (store_eq (by simp only [initMemblockRegions]; omega)), moved,
    bind_of_some (move_eq (by simp only [initMemblockRegions]; omega))]
  refine ⟨_, rfl, ?_, ?_, fun i lt => ?_, ?_⟩
  · simp only [List.length_append, List.length_cons, sub32_of_le (a := type.cnt) (b := 1) (by omega) (by omega)]
    omega
  · simp only [List.length_append, List.length_cons, initMemblockRegions]
    omega
  · have low := h.regions i
    have high := h.regions (i + 1)
    simp only [List.length_append, List.length_cons, List.getElem?_append, List.getElem?_cons] at lt low high ⊢
    grind [MemblockRegion.join]
  · simp only [h.total, sizes_append, sizes_cons, MemblockRegion.join]
    omega

/-! ## `memblock_merge_regions` -/

/-- The loop joins the touching pairs among the next `n`. -/
theorem mergeScan_spec {n fuel endRgn : Nat} (h : Holds type (pre ++ l)) (at_ : index = pre.length)
    (window : endRgn = pre.length + n) (inside : n < l.length) (enough : n < fuel)
    (bounded : ∀ r ∈ l, r.limit ≤ uintptrMax) : ∃ type', mergeScan fuel type index endRgn = some type' ∧
      Holds type' (pre ++ coalesce MemblockRegion.base MemblockRegion.limit MemblockRegion.join n l) := by
  have fits := h.fits
  simp only [List.length_append, initMemblockRegions] at fits
  induction n generalizing type pre l index endRgn fuel with
  | zero =>
    obtain ⟨fuel, rfl⟩ := Nat.exists_eq_add_one_of_ne_zero (Nat.ne_zero_of_lt enough)
    exact ⟨type, by rw [mergeScan, if_neg (by omega)]; rfl, by simpa [coalesce] using h⟩
  | succ n ih =>
    obtain ⟨fuel, rfl⟩ := Nat.exists_eq_add_one_of_ne_zero (Nat.ne_zero_of_lt enough)
    obtain _ | ⟨a, _ | ⟨b, l⟩⟩ := l
    · simp at inside
    · simp at inside
    simp only [List.length_cons] at inside fits
    have split : pre ++ a :: b :: l = (pre ++ [a]) ++ b :: l := by simp
    have next : type.load (index + 1) = some b :=
      Holds.load (split ▸ h) (by simp [at_])
    rw [mergeScan, if_pos (by omega), bind_of_some (h.load at_), bind_of_some next, coalesce,
      add64_limit (bounded a (by simp))]
    by_cases touch : a.limit = b.base
    · rw [if_neg (by simpa using touch), if_pos touch]
      obtain ⟨type', joined, held⟩ := h.join at_ (join_size_lt touch (bounded b (by simp)))
      rw [bind_of_some joined]
      refine ih held at_ ?_ (by simp; omega) (by omega) ?_ (by simp; omega)
      · rw [sub32_of_le (by omega) (by omega)]; omega
      · simp only [List.mem_cons, forall_eq_or_imp, limit_join a b touch] at bounded ⊢
        exact bounded.2
    · rw [if_pos (by simpa using touch), if_neg touch]
      obtain ⟨type', run, held⟩ := ih (split ▸ h)
        (show add32 index 1 = (pre ++ [a]).length by rw [add32_of_lt (by omega)]; simp [at_])
        (show endRgn = (pre ++ [a]).length + n by simp; omega) (by simp; omega) (show n < fuel by omega)
        (fun r mem => bounded r (by simp only [List.mem_cons] at mem ⊢; exact .inr mem)) (by simp; omega)
      exact ⟨type', run, by simpa using held⟩

end

end MiaowOs
