import MiaowOs.Mm.PageAlloc
import Mathlib.Algebra.BigOperators.Group.Finset.Basic
import Mathlib.Data.Finset.Card

/-!
# The free lists of the page allocator

`FreeInv s L` says that the free areas of `s` hold the lists `L`: the rings,
counters, flags and orders agree with `L`, and the blocks named by `L` are a
tiling of managed pages (aligned, disjoint, fully coalesced). The code changes
a free list in two ways only, and each has one lemma: `FreeInv.publish` puts a
block on a list, `FreeInv.withdraw` takes one off. `Touches U` is the frame of
both: descriptors and links of pages outside `U` are kept.
-/

namespace MiaowOs
open TwoWay Pow2

/-! ## Flag bits -/

theorem or_and_self (f g : BitVec 32) : (f ||| g) &&& g = g := by
  ext i; simp; tauto

theorem or_and_other {f g h : BitVec 32} (d : g &&& h = 0) : (f ||| g) &&& h = f &&& h := by
  rw [BitVec.and_comm, BitVec.and_or_distrib_left, BitVec.and_comm h g, d, BitVec.and_comm]; simp

theorem andNot_and_self (f g : BitVec 32) : (f &&& ~~~g) &&& g = 0 := by
  ext i; simp

theorem andNot_and_other {f g h : BitVec 32} (d : g &&& h = 0) : (f &&& ~~~g) &&& h = f &&& h := by
  have keep : ~~~g &&& h = h := by
    ext i hi
    have bit := congrArg (fun v : BitVec 32 => v.getLsbD i) d
    simp at bit ⊢
    grind
  rw [BitVec.and_assoc, keep]

/-! ## Families of lists -/

section
variable {P : Nat → List Nat} {i j c c' : Nat}

theorem mem_update_cons : j ∈ Function.update P c (i :: P c) c' ↔ j ∈ P c' ∨ j = i ∧ c = c' := by
  by_cases same : c' = c
  · subst same
    rw [Function.update_self, List.mem_cons]
    tauto
  · rw [Function.update_of_ne same]
    tauto

theorem mem_update_erase (nodup : (P c).Nodup) :
    j ∈ Function.update P c ((P c).erase i) c' ↔ j ∈ P c' ∧ ¬ (j = i ∧ c = c') := by
  by_cases same : c' = c
  · subst same
    rw [Function.update_self, nodup.mem_erase_iff]
    tauto
  · rw [Function.update_of_ne same]
    tauto

end

/-! ## The invariant -/

namespace PageAlloc

/-- One past the last managed page frame number, as `pfn_valid` computes it. -/
def mapEnd (s : PageAlloc) : Nat := add64 s.memMapBasePfn s.maxMapnr

/-- The block of order `order` that starts at a descriptor. -/
def blockAt (s : PageAlloc) (page order : Nat) : Block := ⟨s.memMapBasePfn + page, order⟩

/-- The blocks named by the lists `L`. -/
def blocks (s : PageAlloc) (L : Nat → List Nat) : Set Block :=
  {b | b.order < maxOrder ∧ ∃ i ∈ L b.order, b = s.blockAt i b.order}

/-- The number of pages on the lists `L`. -/
def freeTotal (L : Nat → List Nat) : Nat := ∑ o ∈ Finset.range maxOrder, 2 ^ o * (L o).length

/-- The free areas hold the lists `L`, whose blocks tile managed pages. -/
structure FreeInv (s : PageAlloc) (L : Nat → List Nat) : Prop where
  ring : ∀ o < maxOrder, Ring s.links (.freeList o) ((L o).map .lru)
  count : ∀ o < maxOrder, s.nrFree o = (L o).length
  flag : ∀ i < s.maxMapnr, (s.memMap i).buddy = true ↔ ∃ o < maxOrder, i ∈ L o
  order : ∀ o < maxOrder, ∀ i ∈ L o, (s.memMap i).order = o
  inside : ∀ o < maxOrder, ∀ i ∈ L o, s.memMapBasePfn + i + 2 ^ o ≤ s.mapEnd
  tiling : Tiling (maxOrder - 1) (s.blocks L)

/-- Only descriptors and links of pages in `U` change, and no `PAGE_SLAB` bit. -/
structure Touches (U : Set Nat) (s s' : PageAlloc) : Prop where
  base : s'.memMapBasePfn = s.memMapBasePfn
  size : s'.maxMapnr = s.maxMapnr
  page : ∀ j, s.memMapBasePfn + j ∉ U → s'.memMap j = s.memMap j
  slab : ∀ j, (s'.memMap j).isSlab = (s.memMap j).isSlab
  lru : ∀ j, s.memMapBasePfn + j ∉ U → s'.links (.lru j) = s.links (.lru j)
  cachePartial : ∀ c, s'.links (.cachePartial c) = s.links (.cachePartial c)

theorem Touches.refl (U : Set Nat) (s : PageAlloc) : Touches U s s :=
  ⟨rfl, rfl, fun _ _ => rfl, fun _ => rfl, fun _ _ => rfl, fun _ => rfl⟩

theorem Touches.trans {U : Set Nat} {s s' s'' : PageAlloc} (h : Touches U s s') (k : Touches U s' s'') :
    Touches U s s'' where
  base := k.base.trans h.base
  size := k.size.trans h.size
  page j hj := (k.page j (by rw [h.base]; exact hj)).trans (h.page j hj)
  slab j := (k.slab j).trans (h.slab j)
  lru j hj := (k.lru j (by rw [h.base]; exact hj)).trans (h.lru j hj)
  cachePartial c := (k.cachePartial c).trans (h.cachePartial c)

theorem Touches.mono {U V : Set Nat} {s s' : PageAlloc} (h : Touches U s s') (sub : U ⊆ V) : Touches V s s' where
  base := h.base
  size := h.size
  page j hj := h.page j fun q => hj (sub q)
  slab := h.slab
  lru j hj := h.lru j fun q => hj (sub q)
  cachePartial := h.cachePartial

section
variable {s s' : PageAlloc} {L : Nat → List Nat} {i o : Nat}

theorem mapEnd_lt (s : PageAlloc) : s.mapEnd < 2 ^ 64 := add64_lt _ _

theorem pfnValid_iff {pfn : Nat} : s.pfnValid pfn = true ↔ s.memMapBasePfn ≤ pfn ∧ pfn < s.mapEnd := by
  simp [pfnValid, mapEnd]

/-- Managed frames are `base + i` with `i` below the number of descriptors. -/
theorem lt_maxMapnr (h : s.memMapBasePfn + i < s.mapEnd) : i < s.maxMapnr := by
  have : s.mapEnd ≤ s.memMapBasePfn + s.maxMapnr := Nat.mod_le _ _
  omega

theorem pageToPfn_eq (h : s.memMapBasePfn + i < s.mapEnd) : s.pageToPfn i = s.memMapBasePfn + i :=
  add64_of_lt (h.trans s.mapEnd_lt)

theorem pageToPhys_eq (h : s.memMapBasePfn + i < s.mapEnd) (small : (s.memMapBasePfn + i) * pageSize < 2 ^ 64) :
    s.pageToPhys i = (s.memMapBasePfn + i) * pageSize := by
  rw [pageToPhys, pageToPfn_eq h, Nat.shiftLeft_eq]
  exact Nat.mod_eq_of_lt small

theorem pfnToPage_eq {pfn : Nat} (h : s.memMapBasePfn ≤ pfn) (lt : pfn < 2 ^ 64) :
    s.pfnToPage pfn = pfn - s.memMapBasePfn := sub64_of_le h lt

theorem mem_blocks : s.blockAt i o ∈ s.blocks L ↔ o < maxOrder ∧ i ∈ L o := by
  constructor
  · rintro ⟨lt, j, hj, eq⟩
    have : s.memMapBasePfn + i = s.memMapBasePfn + j := congrArg Block.start eq
    exact ⟨lt, by rwa [show i = j by omega]⟩
  · rintro ⟨lt, hi⟩
    exact ⟨lt, i, hi, rfl⟩

theorem blocks_congr (h : s'.memMapBasePfn = s.memMapBasePfn) : s'.blocks L = s.blocks L := by
  simp only [blocks, blockAt, h]

theorem blocks_cons (lt : o < maxOrder) :
    s.blocks (Function.update L o (i :: L o)) = insert (s.blockAt i o) (s.blocks L) := by
  ext b
  simp only [blocks, Set.mem_ofPred_eq, Set.mem_insert_iff]
  by_cases same : b.order = o
  · subst same
    simp only [Function.update_self, List.mem_cons, exists_eq_or_imp, lt, true_and]
  · rw [Function.update_of_ne same]
    have : b ≠ s.blockAt i o := fun q => same (congrArg Block.order q)
    simp [this]

theorem blocks_erase (lt : o < maxOrder) (nodup : (L o).Nodup) :
    s.blocks (Function.update L o ((L o).erase i)) = s.blocks L \ {s.blockAt i o} := by
  ext b
  simp only [blocks, Set.mem_ofPred_eq, Set.mem_sdiff, Set.mem_singleton_iff]
  by_cases same : b.order = o
  · subst same
    simp only [Function.update_self, nodup.mem_erase_iff]
    constructor
    · rintro ⟨h, j, ⟨ne, hj⟩, eq⟩
      refine ⟨⟨h, j, hj, eq⟩, fun q => ne ?_⟩
      have : s.memMapBasePfn + j = s.memMapBasePfn + i := congrArg Block.start (eq.symm.trans q)
      omega
    · rintro ⟨⟨h, j, hj, eq⟩, ne⟩
      exact ⟨h, j, ⟨fun q => ne (q ▸ eq), hj⟩, eq⟩
  · rw [Function.update_of_ne same]
    have : b ≠ s.blockAt i o := fun q => same (congrArg Block.order q)
    simp [this]

/-- Replacing one list changes the page count by that list's share. -/
theorem freeTotal_update (lt : o < maxOrder) (l : List Nat) :
    freeTotal (Function.update L o l) + 2 ^ o * (L o).length = freeTotal L + 2 ^ o * l.length := by
  have hm : o ∈ Finset.range maxOrder := Finset.mem_range.2 lt
  have rest : ∀ k ∈ (Finset.range maxOrder).erase o,
      2 ^ k * (Function.update L o l k).length = 2 ^ k * (L k).length := fun k hk => by
    rw [Function.update_of_ne (Finset.ne_of_mem_erase hk)]
  unfold freeTotal
  rw [← Finset.add_sum_erase _ _ hm, ← Finset.add_sum_erase _ (fun k => 2 ^ k * (L k).length) hm,
    Finset.sum_congr rfl rest, Function.update_self]
  omega

theorem freeTotal_cons (lt : o < maxOrder) :
    freeTotal (Function.update L o (i :: L o)) = freeTotal L + 2 ^ o := by
  have total := freeTotal_update (L := L) lt (i :: L o)
  rw [List.length_cons, Nat.mul_add] at total
  omega

theorem freeTotal_erase (lt : o < maxOrder) (mem : i ∈ L o) :
    freeTotal (Function.update L o ((L o).erase i)) + 2 ^ o = freeTotal L := by
  have total := freeTotal_update (L := L) lt ((L o).erase i)
  have le : 2 ^ o * 1 ≤ 2 ^ o * (L o).length := Nat.mul_le_mul_left _ (List.length_pos_of_mem mem)
  rw [List.length_erase_of_mem mem, Nat.mul_sub] at total
  omega

theorem mem_cover (lt : o < maxOrder) (mem : i ∈ L o) : s.memMapBasePfn + i ∈ cover (s.blocks L) :=
  ⟨s.blockAt i o, mem_blocks.2 ⟨lt, mem⟩, Block.start_mem _⟩

/-- A page outside the cover is on no list. -/
theorem not_listed {j : Nat} (out : s.memMapBasePfn + j ∉ cover (s.blocks L))
    (lt : o < maxOrder) : j ∉ L o :=
  fun mem => out (mem_cover lt mem)

theorem lru_not_in_ring {j : Nat} (out : s.memMapBasePfn + j ∉ cover (s.blocks L))
    (lt : o < maxOrder) : Node.lru j ∉ Node.freeList o :: (L o).map Node.lru := by
  simp only [List.mem_cons, reduceCtorEq, List.mem_map, Node.lru.injEq, exists_eq_right, false_or]
  exact not_listed out lt

namespace FreeInv

theorem nodup (h : FreeInv s L) (lt : o < maxOrder) : (L o).Nodup :=
  (List.nodup_cons.1 (h.ring o lt).nodup).2.of_map

/-- A listed page is on one list only. -/
theorem list_unique (h : FreeInv s L) {o' : Nat} (lt : o < maxOrder) (lt' : o' < maxOrder)
    (mem : i ∈ L o) (mem' : i ∈ L o') : o = o' := by
  rw [← h.order o lt i mem, ← h.order o' lt' i mem']

theorem lt_mapEnd (h : FreeInv s L) (lt : o < maxOrder) (mem : i ∈ L o) : s.memMapBasePfn + i < s.mapEnd := by
  have := h.inside o lt i mem
  have := Nat.two_pow_pos o
  omega

/-- Covered frames are managed. -/
theorem cover_managed (h : FreeInv s L) {x : Nat} (hx : x ∈ cover (s.blocks L)) :
    s.memMapBasePfn ≤ x ∧ x < s.mapEnd := by
  obtain ⟨b, ⟨lt, i, mem, eq⟩, hb⟩ := hx
  have inside := h.inside _ lt i mem
  have start : b.start = s.memMapBasePfn + i := congrArg Block.start eq
  simp only [Block.Mem] at hb
  omega

/-- A list has fewer entries than there are machine words. -/
theorem length_lt (h : FreeInv s L) (lt : o < maxOrder) : (L o).length ≤ s.mapEnd - s.memMapBasePfn := by
  have sub : (L o).toFinset ⊆ Finset.range (s.mapEnd - s.memMapBasePfn) := fun i hi => by
    have := h.lt_mapEnd lt (List.mem_toFinset.1 hi)
    exact Finset.mem_range.2 (by omega)
  have card := Finset.card_le_card sub
  rwa [List.toFinset_card_of_nodup (h.nodup lt), Finset.card_range] at card

/-- The rings of two orders have no node in common. -/
theorem rings_apart (h : FreeInv s L) {o' : Nat} (lt : o < maxOrder) (lt' : o' < maxOrder) (ne : o' ≠ o) {x : Node}
    (mem : x ∈ Node.freeList o' :: (L o').map Node.lru) : x ∉ Node.freeList o :: (L o).map Node.lru := by
  intro mem'
  rcases List.mem_cons.1 mem with rfl | mem
  · simp only [List.mem_cons, Node.freeList.injEq, List.mem_map, reduceCtorEq, and_false, exists_false,
      or_false] at mem'
    exact ne mem'
  · obtain ⟨j, hj, rfl⟩ := List.mem_map.1 mem
    simp only [List.mem_cons, reduceCtorEq, List.mem_map, Node.lru.injEq, exists_eq_right, false_or] at mem'
    exact ne (h.list_unique lt' lt hj mem')

end FreeInv

/-! ## Putting a block on a list -/

@[simp] theorem publish_base : (s.publish i o).memMapBasePfn = s.memMapBasePfn := rfl
@[simp] theorem publish_maxMapnr : (s.publish i o).maxMapnr = s.maxMapnr := rfl
@[simp] theorem publish_freeCount : (s.publish i o).freeCount = s.freeCount := rfl
@[simp] theorem publish_mapEnd : (s.publish i o).mapEnd = s.mapEnd := rfl
@[simp] theorem publish_links : (s.publish i o).links = listAdd s.links (.lru i) (.freeList o) := rfl
@[simp] theorem publish_nrFree :
    (s.publish i o).nrFree = Function.update s.nrFree o (add64 (s.nrFree o) 1) := rfl

theorem publish_memMap : (s.publish i o).memMap =
    Function.update s.memMap i { s.memMap i with order := o, flags := (s.memMap i).flags ||| pageBuddy } := by
  simp [publish, setPage]

theorem publish_buddy (j : Nat) :
    ((s.publish i o).memMap j).buddy = (decide (j = i) || (s.memMap j).buddy) := by
  rw [publish_memMap]
  by_cases same : j = i
  · subst same
    simp only [Function.update_self, Page.buddy, or_and_self]
    simp
  · simp [same]

theorem publish_isSlab (j : Nat) : ((s.publish i o).memMap j).isSlab = (s.memMap j).isSlab := by
  rw [publish_memMap]
  by_cases same : j = i
  · subst same
    simp only [Function.update_self, Page.isSlab, or_and_other (show pageBuddy &&& pageSlab = 0 by decide)]
  · simp [same]

/-- A block in hand: aligned, managed and apart from the free blocks. -/
structure InHand (s : PageAlloc) (L : Nat → List Nat) (i o : Nat) : Prop where
  lt : o < maxOrder
  aligned : (s.blockAt i o).Aligned
  inside : s.memMapBasePfn + i + 2 ^ o ≤ s.mapEnd
  apart : ∀ c ∈ s.blocks L, (s.blockAt i o).Apart c

/-- A block that can go on its list: in hand, with no free buddy to merge with. -/
structure Addable (s : PageAlloc) (L : Nat → List Nat) (i o : Nat) : Prop extends InHand s L i o where
  alone : o < maxOrder - 1 → (s.blockAt i o).buddy ∉ s.blocks L

/-- The head of a block apart from the free blocks is not covered. -/
theorem head_not_covered (apart : ∀ c ∈ s.blocks L, (s.blockAt i o).Apart c) :
    s.memMapBasePfn + i ∉ cover (s.blocks L) := by
  rintro ⟨c, hc, hx⟩
  exact apart c hc _ (Block.start_mem (s.blockAt i o)) hx

theorem cover_insert (b : Block) (B : Set Block) (x : Nat) :
    x ∈ cover (insert b B) ↔ b.Mem x ∨ x ∈ cover B := by
  simp only [cover, Set.mem_ofPred_eq, Set.mem_insert_iff, exists_eq_or_imp]

/-- The new list is still duplicate free inside the managed range. -/
theorem FreeInv.room (h : FreeInv s L) (a : Addable s L i o) : (L o).length + 1 < 2 ^ 64 := by
  have fresh : i ∉ L o := not_listed (head_not_covered a.apart) a.lt
  have sub : (i :: L o).toFinset ⊆ Finset.range (s.mapEnd - s.memMapBasePfn) := fun j hj => by
    have pos := Nat.two_pow_pos o
    have inside := a.inside
    rcases List.mem_cons.1 (List.mem_toFinset.1 hj) with rfl | hj
    · exact Finset.mem_range.2 (by omega)
    · have := h.lt_mapEnd a.lt hj
      exact Finset.mem_range.2 (by omega)
  have card := Finset.card_le_card sub
  rw [List.toFinset_card_of_nodup (List.nodup_cons.2 ⟨fresh, h.nodup a.lt⟩), Finset.card_range,
    List.length_cons] at card
  have := s.mapEnd_lt
  omega

/-- **Putting a block on its list** keeps the invariant. -/
theorem FreeInv.publish (h : FreeInv s L) (a : Addable s L i o) :
    FreeInv (s.publish i o) (Function.update L o (i :: L o)) := by
  have out := head_not_covered a.apart
  have fresh : ∀ o' < maxOrder, i ∉ L o' := fun o' lt => not_listed out lt
  constructor
  · intro o' lt
    by_cases same : o' = o
    · subst same
      rw [Function.update_self, List.map_cons]
      exact listAdd_ring (h.ring o' lt) (lru_not_in_ring out lt)
    · rw [Function.update_of_ne same]
      refine (h.ring o' lt).congr fun x hx => listAdd_frame (h.ring o a.lt) (h.rings_apart a.lt lt same hx) ?_
      rintro rfl
      exact lru_not_in_ring out lt hx
  · intro o' lt
    by_cases same : o' = o
    · subst same
      rw [publish_nrFree, Function.update_self, Function.update_self, h.count o' lt, List.length_cons,
        add64_of_lt (h.room a)]
    · rw [publish_nrFree, Function.update_of_ne same, Function.update_of_ne same, h.count o' lt]
  · intro j hj
    rw [publish_buddy, Bool.or_eq_true, decide_eq_true_eq, h.flag j hj]
    constructor
    · rintro (rfl | ⟨o', lt, mem⟩)
      · exact ⟨o, a.lt, mem_update_cons.2 (.inr ⟨rfl, rfl⟩)⟩
      · exact ⟨o', lt, mem_update_cons.2 (.inl mem)⟩
    · rintro ⟨o', lt, mem⟩
      rcases mem_update_cons.1 mem with mem | ⟨rfl, -⟩
      · exact .inr ⟨o', lt, mem⟩
      · exact .inl rfl
  · intro o' lt j mem
    rw [publish_memMap]
    rcases mem_update_cons.1 mem with listed | ⟨rfl, rfl⟩
    · have other : j ≠ i := fun same => fresh o' lt (same ▸ listed)
      rw [Function.update_of_ne other]
      exact h.order o' lt j listed
    · simp
  · intro o' lt j mem
    rcases mem_update_cons.1 mem with mem | ⟨rfl, rfl⟩
    · exact h.inside o' lt j mem
    · exact a.inside
  · rw [blocks_congr publish_base, blocks_cons a.lt]
    exact h.tiling.insert a.aligned (Nat.le_pred_of_lt a.lt) a.apart a.alone

/-- The frame of putting a block on its list. -/
theorem FreeInv.publish_touches (h : FreeInv s L) (lt : o < maxOrder) {U : Set Nat}
    (sub : cover (s.blocks L) ⊆ U) (head : s.memMapBasePfn + i ∈ U) : Touches U s (s.publish i o) where
  base := rfl
  size := rfl
  page j hj := by
    rw [publish_memMap, Function.update_of_ne (by rintro rfl; exact hj head)]
  slab := publish_isSlab
  lru j hj := by
    rw [publish_links]
    refine listAdd_frame (h.ring o lt) (lru_not_in_ring (fun q => hj (sub q)) lt) ?_
    simp only [ne_eq, Node.lru.injEq]
    rintro rfl
    exact hj head
  cachePartial c := listAdd_frame (h.ring o lt) (by simp) (by simp)

/-! ## Taking a block off its list -/

@[simp] theorem withdraw_base : (s.withdraw i o).memMapBasePfn = s.memMapBasePfn := rfl
@[simp] theorem withdraw_maxMapnr : (s.withdraw i o).maxMapnr = s.maxMapnr := rfl
@[simp] theorem withdraw_freeCount : (s.withdraw i o).freeCount = s.freeCount := rfl
@[simp] theorem withdraw_mapEnd : (s.withdraw i o).mapEnd = s.mapEnd := rfl
@[simp] theorem withdraw_links : (s.withdraw i o).links = listDel s.links (.lru i) := rfl
@[simp] theorem withdraw_nrFree :
    (s.withdraw i o).nrFree = Function.update s.nrFree o (sub64 (s.nrFree o) 1) := rfl

theorem withdraw_memMap : (s.withdraw i o).memMap =
    Function.update s.memMap i { s.memMap i with flags := (s.memMap i).flags &&& ~~~pageBuddy } := by
  simp [withdraw, setPage]

theorem withdraw_buddy (j : Nat) :
    ((s.withdraw i o).memMap j).buddy = (decide (j ≠ i) && (s.memMap j).buddy) := by
  rw [withdraw_memMap]
  by_cases same : j = i
  · subst same
    simp only [Function.update_self, Page.buddy, andNot_and_self]
    simp
  · simp [same]

theorem withdraw_isSlab (j : Nat) : ((s.withdraw i o).memMap j).isSlab = (s.memMap j).isSlab := by
  rw [withdraw_memMap]
  by_cases same : j = i
  · subst same
    simp only [Function.update_self, Page.isSlab,
      andNot_and_other (show pageBuddy &&& pageSlab = 0 by decide)]
  · simp [same]

theorem mem_map_lru {l : List Nat} {j : Nat} : Node.lru j ∈ l.map Node.lru ↔ j ∈ l := by simp

theorem map_lru_erase (l : List Nat) (j : Nat) : (l.erase j).map Node.lru = (l.map Node.lru).erase (.lru j) :=
  List.map_erase (fun _ _ q => Node.lru.inj q) _

/-- **Taking a block off its list** keeps the invariant. -/
theorem FreeInv.withdraw (h : FreeInv s L) (lt : o < maxOrder) (mem : i ∈ L o) :
    FreeInv (s.withdraw i o) (Function.update L o ((L o).erase i)) := by
  have nodup := h.nodup lt
  have pos := List.length_pos_of_mem mem
  have len := h.length_lt lt
  have bound := s.mapEnd_lt
  have elsewhere : ∀ {o' j : Nat}, o' < maxOrder → j ∈ Function.update L o ((L o).erase i) o' →
      j ∈ L o' ∧ j ≠ i := by
    intro o' j lt' hj
    obtain ⟨hj, other⟩ := (mem_update_erase nodup).1 hj
    exact ⟨hj, fun q => other ⟨q, h.list_unique lt lt' mem (q ▸ hj)⟩⟩
  constructor
  · intro o' lt'
    by_cases same : o' = o
    · subst same
      rw [Function.update_self, map_lru_erase]
      exact listDel_ring (h.ring o' lt) (mem_map_lru.2 mem)
    · rw [Function.update_of_ne same]
      exact (h.ring o' lt').congr fun x hx => listDel_frame (h.ring o lt) (mem_map_lru.2 mem) (h.rings_apart lt lt' same hx)
  · intro o' lt'
    by_cases same : o' = o
    · subst same
      rw [withdraw_nrFree, Function.update_self, Function.update_self, h.count o' lt,
        List.length_erase_of_mem mem, sub64_of_le (by omega) (by omega)]
    · rw [withdraw_nrFree, Function.update_of_ne same, Function.update_of_ne same, h.count o' lt']
  · intro j hj
    rw [withdraw_buddy, Bool.and_eq_true, decide_eq_true_eq, h.flag j hj]
    constructor
    · rintro ⟨ne, o', lt', hj'⟩
      exact ⟨o', lt', (mem_update_erase nodup).2 ⟨hj', fun q => ne q.1⟩⟩
    · rintro ⟨o', lt', hj'⟩
      obtain ⟨hj', ne⟩ := elsewhere lt' hj'
      exact ⟨ne, o', lt', hj'⟩
  · intro o' lt' j hj
    obtain ⟨hj, ne⟩ := elsewhere lt' hj
    rw [withdraw_memMap, Function.update_of_ne ne]
    exact h.order o' lt' j hj
  · intro o' lt' j hj
    exact h.inside o' lt' j (elsewhere lt' hj).1
  · rw [blocks_congr withdraw_base, blocks_erase lt nodup]
    exact h.tiling.mono Set.sdiff_subset

/-- The frame of taking a block off its list. -/
theorem FreeInv.withdraw_touches (h : FreeInv s L) (lt : o < maxOrder) (mem : i ∈ L o) {U : Set Nat}
    (sub : cover (s.blocks L) ⊆ U) : Touches U s (s.withdraw i o) where
  base := rfl
  size := rfl
  page j hj := by
    rw [withdraw_memMap, Function.update_of_ne (by rintro rfl; exact hj (sub (mem_cover lt mem)))]
  slab := withdraw_isSlab
  lru j hj :=
    listDel_frame (h.ring o lt) (mem_map_lru.2 mem) (lru_not_in_ring (fun q => hj (sub q)) lt)
  cachePartial c := listDel_frame (h.ring o lt) (mem_map_lru.2 mem) (by simp)

end

end PageAlloc

end MiaowOs
