import MiaowOs.Mm.Slab
import MiaowOs.Mm.FreeLists
import MiaowOs.Lib.Chain
import Mathlib

/-!
# Pages and objects of the slab allocator

Where the pages lie in the linear map, how `new_slab` cuts one into a chain of free
objects, and which size class or order `kmalloc` picks.
-/

namespace MiaowOs
open TwoWay Bytes Chains SlabAlloc

/-! ## The linear map -/

/-- The linear-map address of a page frame. -/
def linear (pfn : Nat) : Nat := va (pfn * pageSize)

/-- The page frame behind a linear-map address. -/
def frameOf (address : Nat) : Nat := pa address / pageSize

/-- A frame whose page has addresses of its own in the linear map: it does not start
at null, and it ends below the top of the addresses. -/
structure InLinearMap (f : Nat) : Prop where
  small : f * pageSize < 2 ^ 64
  nonnull : linear f ≠ 0
  below : linear f + pageSize < 2 ^ 64

section
variable {f n x d : Nat}

theorem linear_dvd (f : Nat) : pageSize ∣ linear f := by
  apply Nat.dvd_of_mod_eq_zero
  simp only [linear, va, add64, sub64, pageOffset, physOffset, pageSize]
  omega

theorem linear_room (f : Nat) : linear f + pageSize ≤ 2 ^ 64 := by
  have lt : linear f < 2 ^ 64 := va_lt _
  obtain ⟨q, eq⟩ := linear_dvd f
  simp only [pageSize] at *
  omega

theorem frameOf_linear (small : f * pageSize < 2 ^ 64) (lt : d < pageSize) : frameOf (linear f + d) = f := by
  have room := linear_room f
  simp only [frameOf, linear, pa, va, add64, sub64, pageOffset, physOffset, pageSize] at *
  omega

/-- Frames that follow one another follow one another in the linear map, up to
address zero. -/
theorem linear_succ (nonnull : linear (f + 1) ≠ 0) : linear (f + 1) = linear f + pageSize := by
  have room := linear_room f
  have step : linear (f + 1) = (linear f + pageSize) % 2 ^ 64 := by
    simp only [linear, va, add64, sub64, pageOffset, physOffset, pageSize]
    omega
  rw [step] at nonnull ⊢
  omega

theorem linear_add (nonnull : ∀ k < n, linear (f + k) ≠ 0) : ∀ k < n, linear (f + k) = linear f + pageSize * k := by
  intro k lt
  induction k with
  | zero => rw [Nat.add_zero, Nat.mul_zero, Nat.add_zero]
  | succ k ih =>
    have next := nonnull (k + 1) lt
    rw [← Nat.add_assoc] at next ⊢
    rw [linear_succ next, ih (by omega), Nat.mul_succ, Nat.add_assoc]

/-- The addresses of a run of frames. -/
theorem frameOf_run (mapped : ∀ k < n, InLinearMap (f + k)) (low : linear f ≤ x)
    (high : x < linear f + pageSize * n) : x < 2 ^ 64 ∧ f ≤ frameOf x ∧ frameOf x < f + n := by
  have wide : 0 < pageSize := by decide
  have lt : (x - linear f) / pageSize < n := by
    rw [Nat.div_lt_iff_lt_mul wide, Nat.mul_comm]
    omega
  have at_ : linear (f + (x - linear f) / pageSize) = linear f + pageSize * ((x - linear f) / pageSize) :=
    linear_add (fun k lt => (mapped k lt).nonnull) _ lt
  have split := Nat.div_add_mod (x - linear f) pageSize
  have rest := Nat.mod_lt (x - linear f) wide
  have here : x = linear (f + (x - linear f) / pageSize) + (x - linear f) % pageSize := by omega
  have room := linear_room (f + (x - linear f) / pageSize)
  have frame := frameOf_linear (mapped _ lt).small rest
  rw [← here] at frame
  rw [frame]
  exact ⟨by omega, Nat.le_add_right _ _, Nat.add_lt_add_left lt _⟩

end

namespace PageAlloc
variable {s s' : PageAlloc} {page : Nat}

theorem pageAddress_eq (managed : s.memMapBasePfn + page < s.mapEnd) (small : (s.memMapBasePfn + page) * pageSize < 2 ^ 64) :
    s.pageAddress page = linear (s.memMapBasePfn + page) := by
  rw [pageAddress, pageToPhys_eq managed small]
  rfl

theorem pageAddress_congr (base : s'.memMapBasePfn = s.memMapBasePfn) : s'.pageAddress page = s.pageAddress page := by
  simp only [pageAddress, pageToPhys, pageToPfn, base]

theorem virtToPage_eq {x : Nat} (frame : frameOf x = s.memMapBasePfn + page) (lt : s.memMapBasePfn + page < 2 ^ 64) :
    s.virtToPage x = page := by
  have shift : pa x >>> pageShift = s.memMapBasePfn + page := by
    rw [← frame, Nat.shiftRight_eq_div_pow]
    rfl
  rw [virtToPage, physToPage, shift, pfnToPage_eq (Nat.le_add_right _ _) lt]
  omega

end PageAlloc

/-! ## Size classes -/

/-- The size of the objects of a cache. -/
def classSize (cache : Nat) : Nat := 16 * 2 ^ cache

/-- The number of objects in a slab of a cache. -/
def classCount (cache : Nat) : Nat := pageSize / classSize cache

theorem classSize_pos (c : Nat) : 16 ≤ classSize c := Nat.le_mul_of_pos_right 16 (Nat.two_pow_pos c)

theorem minSize_shiftLeft (c : Nat) : kmallocMinSize <<< c = classSize c := Nat.shiftLeft_eq _ _

theorem pageSize_shiftLeft (o : Nat) : pageSize <<< o = pageSize * 2 ^ o := Nat.shiftLeft_eq _ _

theorem classes : ∀ c < kmallocCaches, classSize c * classCount c = pageSize ∧ 2 ≤ classCount c ∧ classCount c ≤ 256 := by
  decide

/-- The smallest class with room for `size` bytes. -/
def leastClass (size : Nat) : Nat :=
  Nat.find (p := fun cache => size ≤ classSize cache)
    ⟨size, Nat.lt_two_pow_self.le.trans (Nat.le_mul_of_pos_left _ (by decide))⟩

/-- The order of the smallest block with room for `size` bytes. -/
def leastOrder (size : Nat) : Nat :=
  Nat.find (p := fun order => size ≤ pageSize * 2 ^ order)
    ⟨size, Nat.lt_two_pow_self.le.trans (Nat.le_mul_of_pos_left _ (by decide))⟩

section
variable {size n index order : Nat}

theorem le_leastClass (size : Nat) : size ≤ classSize (leastClass size) :=
  Nat.find_spec (p := fun cache => size ≤ classSize cache) _

theorem leastClass_le {cache : Nat} (le : size ≤ classSize cache) : leastClass size ≤ cache := Nat.find_min' _ le

theorem le_leastOrder (size : Nat) : size ≤ pageSize * 2 ^ leastOrder size :=
  Nat.find_spec (p := fun order => size ≤ pageSize * 2 ^ order) _

theorem lt_leastOrder (lt : order < leastOrder size) : pageSize * 2 ^ order < size :=
  Nat.lt_of_not_le (Nat.find_min (p := fun order => size ≤ pageSize * 2 ^ order) _ lt)

theorem leastOrder_le (le : size ≤ pageSize * 2 ^ order) : leastOrder size ≤ order := Nat.find_min' _ le

/-- The loop of `kmalloc_index` finds the smallest class with room. -/
theorem indexLoop_spec (bound : index + n = kmallocCaches) (small : ∀ j < index, classSize j < size)
    (fits : size ≤ kmallocMaxSize) (enough : 0 < n) : indexLoop size n index < kmallocCaches ∧
      size ≤ classSize (indexLoop size n index) ∧ ∀ j < indexLoop size n index, classSize j < size := by
  induction n generalizing index with
  | zero => omega
  | succ n ih =>
    rw [indexLoop, minSize_shiftLeft]
    by_cases less : classSize index < size
    · rw [if_pos less]
      have more : 0 < n := by
        rcases Nat.eq_zero_or_pos n with rfl | pos
        · obtain rfl : index = 7 := by simp only [kmallocCaches] at bound; omega
          have top : classSize 7 = kmallocMaxSize := by decide
          omega
        · exact pos
      refine ih (by omega) ?_ more
      intro j lt
      rcases Nat.lt_succ_iff_lt_or_eq.1 lt with lt | rfl
      · exact small j lt
      · exact less
    · rw [if_neg less]
      exact ⟨by omega, by omega, small⟩

/-- **`kmalloc_index`** is the smallest size class with room. -/
theorem kmallocIndex_eq (fits : size ≤ kmallocMaxSize) :
    kmallocIndex size = leastClass size ∧ leastClass size < kmallocCaches := by
  have found : kmallocIndex size < kmallocCaches ∧ size ≤ classSize (kmallocIndex size) ∧
      ∀ j < kmallocIndex size, classSize j < size :=
    indexLoop_spec rfl (fun j lt => (Nat.not_lt_zero j lt).elim) fits (by decide)
  obtain ⟨lt, room, small⟩ := found
  have same : leastClass size = kmallocIndex size := by
    apply le_antisymm (leastClass_le room)
    by_contra less
    have := small _ (Nat.lt_of_not_le less)
    have := le_leastClass size
    omega
  rw [same]
  exact ⟨rfl, lt⟩

/-- The loop of `kmalloc` finds the least order, if there is a block of it. -/
theorem orderLoop_spec (bound : order + n = maxOrder) (small : ∀ j < order, pageSize * 2 ^ j < size) (enough : 0 < n) :
    orderLoop size n order = if leastOrder size < maxOrder then some (leastOrder size) else none := by
  induction n generalizing order with
  | zero => omega
  | succ n ih =>
    rw [orderLoop, pageSize_shiftLeft]
    by_cases less : pageSize * 2 ^ order < size
    · have beyond : order < leastOrder size := by
        by_contra le
        have := le_leastOrder size
        have := Nat.pow_le_pow_right (by decide : 0 < 2) (Nat.le_of_not_lt le)
        have := Nat.mul_le_mul_left pageSize this
        omega
      rw [if_pos less]
      by_cases last : maxOrder ≤ order + 1
      · rw [if_pos last, if_neg (by omega)]
      · rw [if_neg last]
        refine ih (by omega) ?_ (by omega)
        intro j lt
        rcases Nat.lt_succ_iff_lt_or_eq.1 lt with lt | rfl
        · exact small j lt
        · exact less
    · have least : leastOrder size = order := by
        apply le_antisymm (leastOrder_le (Nat.le_of_not_lt less))
        by_contra lt
        have := small _ (Nat.lt_of_not_le lt)
        have := le_leastOrder size
        omega
      rw [if_neg less, least, if_pos (by omega)]

theorem kmalloc_order (size : Nat) :
    orderLoop size maxOrder 0 = if leastOrder size < maxOrder then some (leastOrder size) else none :=
  orderLoop_spec rfl (fun j lt => (Nat.not_lt_zero j lt).elim) (by decide)

end

/-! ## Objects -/

/-- The objects of a slab of a cache. -/
def objectsAt (start cache : Nat) : List Nat := List.range' start (classCount cache) (classSize cache)

section
variable {mem mem' : Mem} {start last obj size stop n c o x : Nat}

theorem mem_objectsAt : o ∈ objectsAt start c ↔ ∃ k < classCount c, o = start + classSize c * k := List.mem_range'

theorem objectsAt_nodup (start c : Nat) : (objectsAt start c).Nodup :=
  List.nodup_range' _ (by have := classSize_pos c; omega)

/-- An object lies inside its slab and is a multiple of its size away from the
start. -/
theorem objectsAt_bounds (lt : c < kmallocCaches) (mem : o ∈ objectsAt start c) :
    start ≤ o ∧ o + classSize c ≤ start + pageSize ∧ classSize c ∣ o - start := by
  obtain ⟨k, less, rfl⟩ := mem_objectsAt.1 mem
  have whole := (classes c lt).1
  have ends : classSize c * (k + 1) ≤ classSize c * classCount c := Nat.mul_le_mul_left _ less
  rw [Nat.mul_succ] at ends
  refine ⟨Nat.le_add_right _ _, by omega, ?_⟩
  rw [Nat.add_sub_cancel_left]
  exact Nat.dvd_mul_right _ _

/-- Different objects do not overlap. -/
theorem objectsAt_apart {o' : Nat} (mem : o ∈ objectsAt start c) (mem' : o' ∈ objectsAt start c) (ne : o ≠ o') :
    o + classSize c ≤ o' ∨ o' + classSize c ≤ o := by
  obtain ⟨k, -, rfl⟩ := mem_objectsAt.1 mem
  obtain ⟨k', -, rfl⟩ := mem_objectsAt.1 mem'
  rcases Nat.lt_trichotomy k k' with lt | rfl | lt
  · have := Nat.mul_le_mul_left (classSize c) (show k + 1 ≤ k' from lt)
    rw [Nat.mul_succ] at this
    omega
  · exact (ne rfl).elim
  · have := Nat.mul_le_mul_left (classSize c) (show k' + 1 ≤ k from lt)
    rw [Nat.mul_succ] at this
    omega

theorem getFreepointer_set {fp : Nat} (lt : fp < 2 ^ 64) : getFreepointer (setFreepointer mem o fp) o = fp :=
  load_store lt

theorem getFreepointer_congr (agree : ∀ x, o ≤ x → x < o + 8 → mem' x = mem x) :
    getFreepointer mem' o = getFreepointer mem o :=
  load_congr agree

theorem setFreepointer_of_not_mem {fp : Nat} (out : x < o ∨ o + 8 ≤ x) : setFreepointer mem o fp x = mem x :=
  store_of_not_mem out

/-- The loop of `new_slab` and the store after it link the objects from `last`
on into a chain, and write nowhere else. -/
theorem carveLoop_spec {fuel : Nat} (wide : 8 ≤ size) (apart : last + 8 ≤ obj) (nonnull : last ≠ 0)
    (end_ : stop = obj + size * n) (top : stop < 2 ^ 64) (enough : n ≤ fuel) :
    Chain (getFreepointer (setFreepointer (carveLoop size stop fuel mem last obj).1
        (carveLoop size stop fuel mem last obj).2 0)) 0 last (last :: List.range' obj n size) ∧
      ∀ x, x < last ∨ stop ≤ x ∧ last + 8 ≤ x → setFreepointer (carveLoop size stop fuel mem last obj).1
        (carveLoop size stop fuel mem last obj).2 0 x = mem x := by
  induction n generalizing fuel mem last obj with
  | zero =>
    have done : carveLoop size stop fuel mem last obj = (mem, last) := by
      cases fuel with
      | zero => rfl
      | succ fuel => rw [carveLoop, if_neg (by omega)]
    rw [done]
    refine ⟨?_, fun x out => setFreepointer_of_not_mem (by omega)⟩
    apply Chain.cons nonnull
    rw [getFreepointer_set (by decide)]
    exact .nil
  | succ n ih =>
    obtain ⟨fuel, rfl⟩ : ∃ k, fuel = k + 1 := ⟨fuel - 1, by omega⟩
    rw [Nat.mul_succ] at end_
    have more : obj < stop := by omega
    rw [carveLoop, if_pos more, add64_of_lt (by omega)]
    obtain ⟨chain, frame⟩ := @ih (setFreepointer mem last obj) obj (obj + size) fuel (by omega) (by omega) (by omega)
      (by omega)
    refine ⟨?_, fun x out => ?_⟩
    · rw [List.range'_succ]
      apply Chain.cons nonnull
      have link := @getFreepointer_congr (setFreepointer mem last obj) _ last fun x low high => frame x (.inl (by omega))
      rw [link, getFreepointer_set (by omega)]
      exact chain
    · rw [frame x (by omega)]
      exact setFreepointer_of_not_mem (by omega)

end

/-! ## `kmem_cache_init` -/

namespace SlabAlloc

/-- The caches that have been set up; nothing but their heads is linked anew. -/
structure CachesReady (n : Nat) (s s' : SlabAlloc) : Prop where
  caches : ∀ c < n, s'.caches c = ⟨classSize c, classCount c⟩
  ring : ∀ c < n, Ring s'.alloc.links (.cachePartial c) []
  links : ∀ x, (∀ c, x ≠ .cachePartial c) → s'.alloc.links x = s.alloc.links x
  base : s'.alloc.memMapBasePfn = s.alloc.memMapBasePfn
  size : s'.alloc.maxMapnr = s.alloc.maxMapnr
  memMap : s'.alloc.memMap = s.alloc.memMap
  nrFree : s'.alloc.nrFree = s.alloc.nrFree
  count : s'.alloc.freeCount = s.alloc.freeCount
  mem : s'.mem = s.mem

theorem kmemCacheInit_spec (s : SlabAlloc) : CachesReady kmallocCaches s s.kmemCacheInit := by
  unfold kmemCacheInit
  generalize kmallocCaches = n
  induction n with
  | zero =>
    exact ⟨fun c lt => (Nat.not_lt_zero c lt).elim, fun c lt => (Nat.not_lt_zero c lt).elim, fun _ _ => rfl, rfl, rfl, rfl,
      rfl, rfl, rfl⟩
  | succ n ih =>
    rw [List.range_succ, List.foldl_append, List.foldl_cons, List.foldl_nil]
    revert ih
    generalize List.foldl _ s (List.range n) = s₁
    intro ready
    refine ⟨?_, ?_, ?_, ready.base, ready.size, ready.memMap, ready.nrFree, ready.count, ready.mem⟩
    · intro c lt
      by_cases last : c = n
      · rw [last]
        simp only [Function.update_self, minSize_shiftLeft]
        rfl
      · simp only [Function.update_of_ne last]
        exact ready.caches c (by omega)
    · intro c lt
      by_cases last : c = n
      · rw [last]
        exact initListHead_ring _ _
      · refine (ready.ring c (by omega)).congr fun x mem => ?_
        obtain rfl : x = .cachePartial c := by simpa using mem
        exact initListHead_frame (by simpa using last)
    · intro x other
      rw [← ready.links x other]
      exact initListHead_frame (other n)

end SlabAlloc

end MiaowOs
