import MiaowOs.Mm.SlabInv
import MiaowOs.Mm.BuddyCalls
import Mathlib

/-!
# The functions of the slab allocator on its invariant

One specification per function of `mm/slab.c`, over `SlabInv`.
-/

namespace MiaowOs
open TwoWay Pow2 Bytes Chains PageAlloc SlabAlloc

section
variable {s : SlabAlloc} {L P : Nat → List Nat} {slabs : List SlabPage} {large : List LargeBlock}
  {D : List (Nat × Nat)} {S : Set Nat} {p : SlabPage} {b : LargeBlock} {a : Allocation} {i j c c' o x size page : Nat}

/-! ## The partial lists -/

namespace SlabInv

/-- A page with free objects is on the partial list of its cache. -/
theorem listed_iff (h : SlabInv s L P (p :: slabs) large D S) (lt : c < kmallocCaches) :
    p.page ∈ P c ↔ p.cache = c ∧ p.free ≠ [] := by
  rw [h.listed c lt p.page]
  constructor
  · rintro ⟨q, mem, page, rest⟩
    rcases List.mem_cons.1 mem with rfl | mem
    · exact rest
    · exact (h.page_ne mem page).elim
  · rintro rest
    exact ⟨p, List.mem_cons_self, rfl, rest⟩

/-- A list holds other pages, and a page of the cache that has free objects. -/
theorem listed_cases (h : SlabInv s L P (p :: slabs) large D S) (lt : c < kmallocCaches) (j : Nat) :
    j ∈ P c ↔ j ≠ p.page ∧ j ∈ P c ∨ j = p.page ∧ p.cache = c ∧ p.free ≠ [] := by
  by_cases same : j = p.page
  · rw [same, h.listed_iff lt]
    simp
  · simp [same]

theorem slab_flag (h : SlabInv s L P slabs large D S) (mem : p ∈ slabs) : (s.alloc.memMap p.page).isSlab = true :=
  (h.flag p.page (lt_maxMapnr (h.hand_slab mem).start_lt)).2 ⟨p, mem, rfl⟩

/-- Taking a page off its list leaves the other pages there. -/
theorem unlist (h : SlabInv s L P (p :: slabs) large D S) (free : p.free ≠ []) :
    ∃ P', Partials (listDel s.alloc.links (.lru p.page)) P' ∧
      Relinked s.alloc.links (listDel s.alloc.links (.lru p.page)) P p.page ∧
      ∀ c < kmallocCaches, ∀ j, j ∈ P' c ↔ j ≠ p.page ∧ j ∈ P c := by
  have lt := (h.ok p List.mem_cons_self).cache
  obtain ⟨partials, relinked⟩ := h.partials.del lt ((h.listed_iff lt).2 ⟨rfl, free⟩)
  refine ⟨_, partials, relinked, fun c lt' j => ?_⟩
  rw [mem_update_erase (h.partials.nodup lt)]
  constructor
  · rintro ⟨mem, other⟩
    refine ⟨?_, mem⟩
    rintro rfl
    exact other ⟨rfl, ((h.listed_iff lt').1 mem).1⟩
  · rintro ⟨ne, mem⟩
    exact ⟨mem, fun same => ne same.1⟩

/-- Putting a page on a list. -/
theorem list (h : SlabInv s L P slabs large D S) (lt : c < kmallocCaches) (fresh : ∀ c' < kmallocCaches, i ∉ P c') :
    ∃ P', Partials (listAdd s.alloc.links (.lru i) (.cachePartial c)) P' ∧
      Relinked s.alloc.links (listAdd s.alloc.links (.lru i) (.cachePartial c)) P i ∧
      ∀ c' < kmallocCaches, ∀ j, j ∈ P' c' ↔ j ≠ i ∧ j ∈ P c' ∨ j = i ∧ c = c' := by
  obtain ⟨partials, relinked⟩ := h.partials.add lt fresh
  refine ⟨_, partials, relinked, fun c' lt' j => ?_⟩
  rw [mem_update_cons]
  refine or_congr_left ⟨fun mem => ⟨?_, mem⟩, fun mem => mem.2⟩
  rintro rfl
  exact fresh c' lt' mem

end SlabInv

/-! ## Pages from the page allocator -/

namespace SlabInv

/-- A block that is not a slab or a large allocation is apart from these. -/
theorem direct_apart (h : SlabInv s L P slabs large ((i, o) :: D) S) {b : Nat × Nat} (mem : b ∈ heldPages slabs large) :
    (s.alloc.blockAt b.1 b.2).Apart (s.alloc.blockAt i o) := by
  have apart := h.owned.apart
  simp only [heldBlocks, List.map_append, List.pairwise_append, List.map_cons] at apart
  exact apart.2.2 _ (List.mem_map_of_mem mem) _ List.mem_cons_self

theorem direct_held (D : List (Nat × Nat)) (slabs : List SlabPage) (large : List LargeBlock) :
    (i, o) ∈ heldPages slabs large ++ (i, o) :: D :=
  List.mem_append_right _ List.mem_cons_self

theorem direct_ne (h : SlabInv s L P slabs large ((i, o) :: D) S) (mem : p ∈ slabs) : p.page ≠ i := by
  rintro rfl
  have held : (p.page, 0) ∈ heldPages slabs large := List.mem_append_left _ (List.mem_map_of_mem mem)
  exact h.direct_apart held _ (Block.start_mem _) (Block.start_mem (s.alloc.blockAt p.page o))

theorem direct_ne_large (h : SlabInv s L P slabs large ((i, o) :: D) S) (mem : b ∈ large) : b.page ≠ i := by
  rintro rfl
  have held : (b.page, leastOrder b.size) ∈ heldPages slabs large := List.mem_append_right _ (List.mem_map_of_mem mem)
  exact h.direct_apart held _ (Block.start_mem _) (Block.start_mem (s.alloc.blockAt b.page o))

/-- A byte of a slab or of a large block lies outside the block. -/
theorem direct_byte (h : SlabInv s L P slabs large ((i, o) :: D) S) {b : Nat × Nat} (mem : b ∈ heldPages slabs large)
    (frame : (s.alloc.blockAt b.1 b.2).Mem (frameOf x)) :
    x < s.alloc.pageAddress i ∨ s.alloc.pageAddress i + pageSize * 2 ^ o ≤ x := by
  by_contra inside
  obtain ⟨-, -, -, byte⟩ := block_address h.owned h.mapped (direct_held D slabs large)
  exact h.direct_apart mem _ frame (byte x (by omega) (by omega)).2

theorem direct_not_listed (h : SlabInv s L P slabs large ((i, o) :: D) S) (lt : c < kmallocCaches) : i ∉ P c := by
  intro mem
  obtain ⟨p, here, page⟩ := h.partial_page lt mem
  exact h.direct_ne here page

/-- A block from `alloc_pages`. -/
theorem allocPages {order c₀ : Nat} {L' : Nat → List Nat} {alloc : PageAlloc} (h : SlabInv s L P slabs large D S)
    (a : Allocated s.alloc L order i c₀ alloc L') :
    SlabInv { s with alloc := alloc } L' P slabs large ((i, order) :: D) S where
  toSlabs := h.toSlabs.touch a.touches (fun _ mem => h.not_free mem) fun _ mem => h.large_not_free mem
  owned := (h.owned.alloc a).perm List.perm_middle.symm
  mapped := h.mapped

/-- A block goes back with `__free_pages`. -/
theorem freePages (h : SlabInv s L P slabs large ((i, o) :: D) S) :
    ∃ L', SlabInv { s with alloc := s.alloc.freePages i o } L' P slabs large D S := by
  obtain ⟨L', freed, owned⟩ := (h.owned.perm List.perm_middle).free
  refine ⟨L', ⟨h.toSlabs.touch freed.touches ?_ ?_, owned, h.mapped⟩⟩
  · rintro p mem (block | free)
    · have held : (p.page, 0) ∈ heldPages slabs large := List.mem_append_left _ (List.mem_map_of_mem mem)
      exact h.direct_apart held _ (Block.start_mem _) block
    · exact h.not_free mem free
  · rintro b mem (block | free)
    · have held : (b.page, leastOrder b.size) ∈ heldPages slabs large := List.mem_append_right _ (List.mem_map_of_mem mem)
      exact h.direct_apart held _ (Block.start_mem _) block
    · exact h.large_not_free mem free

end SlabInv

/-! ## `new_slab` -/

/-- The memory after the free objects of a new slab have been linked. -/
def carved (mem : Mem) (start cache : Nat) : Mem :=
  let stop := add64 start (classCount cache * classSize cache)
  let result := carveLoop (classSize cache) stop (classCount cache) mem start (add64 start (classSize cache))
  setFreepointer result.1 result.2 0

theorem carved_spec {mem : Mem} {start : Nat} (lt : c < kmallocCaches) (nonnull : start ≠ 0)
    (below : start + pageSize < 2 ^ 64) : Chain (getFreepointer (carved mem start c)) 0 start (objectsAt start c) ∧
      ∀ x, x < start ∨ start + pageSize ≤ x → carved mem start c x = mem x := by
  obtain ⟨whole, many, -⟩ := classes c lt
  have wide := classSize_pos c
  have end_ : add64 start (classCount c * classSize c) = start + pageSize := by
    rw [Nat.mul_comm, whole, add64_of_lt below]
  obtain ⟨n, count⟩ : ∃ n, classCount c = n + 1 := ⟨classCount c - 1, by omega⟩
  have rest : start + pageSize = start + classSize c + classSize c * n := by
    rw [← whole, count, Nat.mul_succ]
    omega
  obtain ⟨chain, frame⟩ := @carveLoop_spec mem start (start + classSize c) (classSize c) (start + pageSize) n
    (classCount c) (by omega) (by omega) nonnull rest below (by omega)
  rw [objectsAt, count, List.range'_succ]
  unfold carved
  simp only [end_, add64_of_lt (show start + classSize c < 2 ^ 64 by omega)]
  exact ⟨chain, fun x out => frame x (by simp only [pageSize] at *; omega)⟩

theorem SlabAlloc.newSlab_eq {alloc : PageAlloc} (run : s.alloc.allocPages 0 = (alloc, some page))
    (cache : s.caches c = ⟨classSize c, classCount c⟩) : s.newSlab c =
    ({ s with
        alloc := { alloc.setPage page { alloc.memMap page with
            slab := some c
            inuse := 0
            flags := (alloc.memMap page).flags ||| pageSlab
            freelist := alloc.pageAddress page } with
          links := listAdd alloc.links (.lru page) (.cachePartial c) }
        mem := carved s.mem (alloc.pageAddress page) c }, some page) := by
  simp only [newSlab, run, cache, setPage_memMap_self, setPage_setPage]
  rfl

/-- A page becomes a slab without allocations. -/
theorem SlabInv.newSlab_page (h : SlabInv s L P slabs large ((page, 0) :: D) S) (lt : c < kmallocCaches) :
    ∃ P', SlabInv { s with
        alloc := { s.alloc.setPage page { s.alloc.memMap page with
            slab := some c
            inuse := 0
            flags := (s.alloc.memMap page).flags ||| pageSlab
            freelist := s.alloc.pageAddress page } with
          links := listAdd s.alloc.links (.lru page) (.cachePartial c) }
        mem := carved s.mem (s.alloc.pageAddress page) c } L P'
      (⟨page, c, [], objectsAt (s.alloc.pageAddress page) c⟩ :: slabs) large D S := by
  obtain ⟨-, nonnull, below, -⟩ := block_address h.owned h.mapped (direct_held D slabs large)
  obtain ⟨chain, frame⟩ := @carved_spec c s.mem _ lt nonnull below
  obtain ⟨P', partials, relinked, listed⟩ := h.list lt fun c' lt' => h.direct_not_listed lt'
  have count := (classes c lt).2.1
  refine ⟨P', ⟨?_, ?_, h.mapped⟩⟩
  · refine h.toSlabs.replace page [] [_] rfl rfl rfl (fun j ne => setPage_memMap_of_ne _ _ ne)
      (by simp) (by simp) (fun q mem => h.direct_ne mem) (fun b mem => h.direct_ne_large mem) ?_ ?_ ?_ partials ?_
    · intro q mem o free
      apply getFreepointer_congr
      intro x low high
      have wide := classSize_pos q.cache
      obtain ⟨-, inside⟩ := h.object_byte mem (.inl free) low (by omega)
      have held : (q.page, 0) ∈ heldPages slabs large := List.mem_append_left _ (List.mem_map_of_mem mem)
      have out := h.direct_byte held (x := x) (by rw [inside]; exact Block.start_mem _)
      exact frame x (by omega)
    · have set : (pageSlab != 0) = true := by decide
      simp only [setPage_memMap_self, Page.isSlab, or_and_self, set]
      simp
    · intro q mem
      obtain rfl := List.mem_singleton.1 mem
      constructor
      · exact lt
      · simp only [setPage_memMap_self]
      · simp only [setPage_memMap_self, List.length_nil]
      · simp only [setPage_memMap_self]
        exact chain
      · rw [List.map_nil, List.append_nil]
        exact .refl _
      · intro a absurd
        cases absurd
    · intro c' lt' j
      have some : objectsAt (s.alloc.pageAddress page) c ≠ [] := by
        intro none
        have := congrArg List.length none
        simp only [objectsAt, List.length_range', List.length_nil] at this
        omega
      rw [listed c' lt' j]
      simp only [List.mem_singleton, exists_eq_left, eq_comm (a := j), some, ne_eq, not_false_eq_true, and_true]
  · have owned : Owned s.alloc L
        (heldPages (⟨page, c, [], objectsAt (s.alloc.pageAddress page) c⟩ :: slabs) large ++ D) S :=
      h.owned.perm List.perm_middle
    refine owned.edit (P := P) rfl rfl rfl rfl (fun j ne => setPage_memMap_of_ne _ _ ne) ?_ relinked
      (head_not_covered (h.owned.hand _ (direct_held D slabs large)).apart) fun c lt j mem => h.partial_not_free lt mem
    simp only [setPage_memMap_self, Page.buddy, or_and_other (show pageSlab &&& pageBuddy = 0 by decide)]

/-- **`new_slab`** turns a free page into a slab, if there is one. -/
theorem SlabInv.newSlab (h : SlabInv s L P slabs large D S) (lt : c < kmallocCaches) :
    (s.newSlab c = (s, none) ∧ ∀ k < maxOrder, L k = []) ∨
    ∃ s' page L' P', s.newSlab c = (s', some page) ∧ (∃ k < maxOrder, L k ≠ []) ∧
      SlabInv s' L' P' (⟨page, c, [], objectsAt (s'.alloc.pageAddress page) c⟩ :: slabs) large D S ∧
      ∀ a ∈ allocations slabs large, ∀ x, a.Room x → s'.mem x = s.mem x := by
  rcases allocPages_spec h.owned.inv 0 with ⟨run, none⟩ | ⟨page, c₀, alloc, L', run, a⟩
  · refine .inl ⟨?_, fun k lt => none k (Nat.zero_le k) lt⟩
    simp only [SlabAlloc.newSlab, run]
  · have h' := h.allocPages a
    obtain ⟨P', slab⟩ := h'.newSlab_page lt
    refine .inr ⟨_, page, L', P', newSlab_eq run (h.caches c lt), ⟨c₀, a.lt, ?_⟩, slab, ?_⟩
    · intro none
      have head := a.head
      rw [none] at head
      cases head
    · intro a mem x room
      obtain ⟨-, nonnull, below, -⟩ := block_address h'.owned h'.mapped (direct_held D slabs large)
      obtain ⟨-, b, held, frame⟩ := h'.allocation_byte mem room
      have out := h'.direct_byte held frame
      exact (@carved_spec c s.mem _ lt nonnull below).2 x (by omega)

/-! ## `slab_alloc` -/

theorem SlabAlloc.takeObject_eq (s : SlabAlloc) (page : Nat) : s.takeObject page =
    ({ s with alloc := { s.alloc.setPage page { s.alloc.memMap page with
          freelist := getFreepointer s.mem (s.alloc.memMap page).freelist
          inuse := add32 (s.alloc.memMap page).inuse 1 } with
        links := if getFreepointer s.mem (s.alloc.memMap page).freelist = 0 then listDel s.alloc.links (.lru page)
          else s.alloc.links } },
      (s.alloc.memMap page).freelist) := by
  simp only [takeObject, setPage_memMap_self, setPage_setPage]
  split <;> rfl

/-- **Taking an object** off the chain of a slab page. -/
theorem SlabInv.takeObject (h : SlabInv s L P (p :: slabs) large D S) {rest : List Nat} (free : p.free = o :: rest)
    (pos : 0 < size) (small : size ≤ kmallocMaxSize) (index : leastClass size = p.cache) :
    (s.takeObject p.page).2 = o ∧ o ≠ 0 ∧ (s.takeObject p.page).1.mem = s.mem ∧
      ∃ P', SlabInv (s.takeObject p.page).1 L P' (⟨p.page, p.cache, ⟨o, size⟩ :: p.used, rest⟩ :: slabs) large D S := by
  have self : p ∈ p :: slabs := List.mem_cons_self
  have ok := h.ok p self
  have chain := ok.chain
  rw [free] at chain
  obtain ⟨-, absurd⟩ | ⟨nonnull, rest', eq, tail⟩ := chain.cases
  · cases absurd
  obtain ⟨first, rfl⟩ := List.cons.inj eq
  have lists : ∃ P', Partials (s.takeObject p.page).1.alloc.links P' ∧
      Relinked s.alloc.links (s.takeObject p.page).1.alloc.links P p.page ∧ ∀ c < kmallocCaches, ∀ j,
        j ∈ P' c ↔ j ≠ p.page ∧ j ∈ P c ∨ j = p.page ∧ p.cache = c ∧ rest ≠ [] := by
    rw [takeObject_eq]
    by_cases last : rest = []
    · rw [if_pos (tail.null_iff.2 last)]
      obtain ⟨P', partials, relinked, listed⟩ := h.unlist (by simp [free])
      exact ⟨P', partials, relinked, fun c lt j => by simp [listed c lt j, last]⟩
    · rw [if_neg fun null => last (tail.null_iff.1 null)]
      refine ⟨P, h.partials, .refl _ _ _, fun c lt j => (h.listed_cases lt j).trans ?_⟩
      simp [free, last]
  obtain ⟨P', partials, relinked, listed⟩ := lists
  rw [takeObject_eq] at partials relinked ⊢
  refine ⟨first.symm, first ▸ nonnull, rfl, P', ⟨?_, ?_, h.mapped⟩⟩
  · refine h.toSlabs.replace p.page [p] [_] rfl rfl rfl
      (fun j ne => setPage_memMap_of_ne _ _ ne) (by simp) (by simp) (fun q mem => h.page_ne mem)
      (fun b mem => h.large_ne self mem) (fun _ _ _ _ => rfl) ?_ ?_ partials ?_
    · have flag := h.slab_flag self
      simp only [setPage_memMap_self, ne_eq, List.cons_ne_nil, not_false_eq_true, iff_true]
      exact flag
    · intro q mem
      obtain rfl := List.mem_singleton.1 mem
      constructor
      · exact ok.cache
      · simp only [setPage_memMap_self]
        exact ok.slab
      · simp only [setPage_memMap_self, ok.inuse, List.length_cons]
        have counts := ok.objects.length_eq
        have bound := (classes p.cache ok.cache).2.2
        simp only [objectsAt, List.length_range', List.length_append, List.length_map] at counts
        exact add32_of_lt (by omega)
      · simp only [setPage_memMap_self]
        exact tail
      · refine List.Perm.trans ?_ ok.objects
        rw [free]
        exact List.perm_middle
      · intro a mem
        rcases List.mem_cons.1 mem with rfl | mem
        · exact ⟨pos, small, index⟩
        · exact ok.sizes a mem
    · intro c lt j
      rw [listed c lt j]
      simp only [List.mem_singleton, exists_eq_left, eq_comm (a := j)]
  · refine h.owned.edit (P := P) rfl rfl rfl rfl (fun j ne => setPage_memMap_of_ne _ _ ne) ?_ relinked
      (h.not_free self) fun c lt j mem => h.partial_not_free lt mem
    simp only [setPage_memMap_self]
    rfl

theorem SlabInv.firstPartial (h : SlabInv s L P slabs large D S) (lt : c < kmallocCaches) {rest : List Nat}
    (first : P c = i :: rest) : s.firstPartial c = i := by
  have head := (h.partials.ring c lt).next_head
  rw [first, List.map_cons, List.headD_cons] at head
  rw [SlabAlloc.firstPartial, head]

/-- The allocations after one page has been given another list of them. -/
theorem allocations_cons (p : SlabPage) (slabs : List SlabPage) (large : List LargeBlock) :
    allocations (p :: slabs) large = p.used ++ allocations slabs large := by
  rw [allocations, List.flatMap_cons, List.append_assoc]
  rfl

theorem allocations_perm {slabs' : List SlabPage} {large' : List LargeBlock} (ps : slabs.Perm slabs')
    (pl : large.Perm large') : (allocations slabs large).Perm (allocations slabs' large') :=
  (ps.flatMap_right _).append (pl.map _)

/-- A state without empty slabs stands for the allocations `live`. -/
def Stands (s : SlabAlloc) (live : List Allocation) (D : List (Nat × Nat)) (S : Set Nat) : Prop :=
  ∃ L P slabs large, SlabInv s L P slabs large D S ∧ (∀ p ∈ slabs, p.used ≠ []) ∧ live.Perm (allocations slabs large)

/-- A call has served a request of `size` bytes with the pointer `o`. -/
structure Serves (s : SlabAlloc) (live : List Allocation) (D : List (Nat × Nat)) (S : Set Nat) (size : Nat)
    (s' : SlabAlloc) (o : Nat) : Prop where
  nonnull : o ≠ 0
  stands : Stands s' (⟨o, size⟩ :: live) D S
  keeps : ∀ a ∈ live, ∀ x, a.Room x → s'.mem x = s.mem x

/-- Taking an object of a page serves the request. -/
theorem SlabInv.takeObject_serves (h : SlabInv s L P (p :: slabs) large D S) (busy : ∀ p ∈ slabs, p.used ≠ [])
    (free : p.free ≠ []) (pos : 0 < size) (small : size ≤ kmallocMaxSize) (index : leastClass size = p.cache) :
    Serves s (allocations (p :: slabs) large) D S size (s.takeObject p.page).1 (s.takeObject p.page).2 := by
  obtain ⟨o, rest, eq⟩ := List.exists_cons_of_ne_nil free
  obtain ⟨object, nonnull, mem, P', inv⟩ := h.takeObject eq pos small index
  rw [object]
  refine ⟨nonnull, ⟨L, P', _, large, inv, ?_, ?_⟩, fun _ _ _ _ => congrFun mem _⟩
  · intro q here
    rcases List.mem_cons.1 here with rfl | here
    · exact List.cons_ne_nil _ _
    · exact busy q here
  · rw [allocations_cons, allocations_cons]
    exact .refl _

/-- **`slab_alloc`** serves a request unless no slab of the class has a free
object and there is no free page. -/
theorem SlabInv.slabAlloc (h : SlabInv s L P slabs large D S) (busy : ∀ p ∈ slabs, p.used ≠ []) (pos : 0 < size)
    (small : size ≤ kmallocMaxSize) :
    (s.slabAlloc (leastClass size) = (s, 0) ∧ (∀ p ∈ slabs, p.cache = leastClass size → p.free = []) ∧
      ∀ k < maxOrder, L k = []) ∨
    ((∃ p ∈ slabs, p.cache = leastClass size ∧ p.free ≠ []) ∨ ∃ k < maxOrder, L k ≠ []) ∧
      Serves s (allocations slabs large) D S size (s.slabAlloc (leastClass size)).1 (s.slabAlloc (leastClass size)).2 := by
  have lt := (kmallocIndex_eq small).2
  generalize index : leastClass size = c at lt
  unfold SlabAlloc.slabAlloc
  cases first : P c with
  | nil =>
    have none : ∀ p ∈ slabs, p.cache = c → p.free = [] := by
      intro p mem cache
      by_contra free
      have listed := (h.listed c lt p.page).2 ⟨p, mem, rfl, cache, free⟩
      rw [first] at listed
      cases listed
    have empty : listEmpty s.alloc.links (.cachePartial c) = true := by
      rw [listEmpty_iff (h.partials.ring c lt), first]
      rfl
    rw [if_pos empty]
    rcases h.newSlab lt with ⟨run, noPage⟩ | ⟨s', page, L', P', run, somePage, inv, keeps⟩
    · rw [run]
      exact .inl ⟨rfl, none, noPage⟩
    · rw [run]
      have many := (classes c lt).2.1
      have free : objectsAt (s'.alloc.pageAddress page) c ≠ [] := by
        intro absurd
        have := congrArg List.length absurd
        simp only [objectsAt, List.length_range', List.length_nil] at this
        omega
      have serves := inv.takeObject_serves busy free pos small index
      rw [allocations_cons, List.nil_append] at serves
      refine .inr ⟨.inr somePage, serves.nonnull, serves.stands, fun a mem x room => ?_⟩
      exact (serves.keeps a mem x room).trans (keeps a mem x room)
  | cons i rest =>
    have mem : i ∈ P c := by rw [first]; exact List.mem_cons_self
    have full : ¬ listEmpty s.alloc.links (.cachePartial c) = true := by
      rw [listEmpty_iff (h.partials.ring c lt), first]
      simp
    rw [if_neg full, h.firstPartial lt first]
    obtain ⟨p, here, rfl, rfl, free⟩ := (h.listed c lt i).1 mem
    have front := List.perm_cons_erase here
    have serves := (h.perm front (.refl _)).takeObject_serves (fun q there => busy q (List.mem_of_mem_erase there)) free pos
      small index
    have same := allocations_perm front (.refl large)
    refine .inr ⟨.inl ⟨p, here, rfl, free⟩, serves.nonnull, ?_, fun a mem => serves.keeps a (same.mem_iff.1 mem)⟩
    obtain ⟨L', P', slabs', large', inv, busy', perm⟩ := serves.stands
    exact ⟨L', P', slabs', large', inv, busy', (same.cons _).trans perm⟩

/-! ## `slab_free` -/

theorem SlabAlloc.slabFree_last (inuse : sub32 (s.alloc.memMap page).inuse 1 = 0) : s.slabFree page o =
    { s with
      alloc := PageAlloc.freePages { s.alloc.setPage page { s.alloc.memMap page with
            freelist := o
            inuse := sub32 (s.alloc.memMap page).inuse 1
            flags := (s.alloc.memMap page).flags &&& ~~~pageSlab } with
          links := if (s.alloc.memMap page).freelist ≠ 0 then listDel s.alloc.links (.lru page) else s.alloc.links } page 0
      mem := setFreepointer s.mem o (s.alloc.memMap page).freelist } := by
  simp only [slabFree, setPage_memMap_self, setPage_setPage]
  rw [if_pos inuse]
  by_cases full : (s.alloc.memMap page).freelist ≠ 0
  · rw [if_pos full, if_pos full]
    simp only [setPage_memMap_self, setPage_relink]
    rfl
  · rw [if_neg full, if_neg full]
    simp only [setPage_memMap_self, setPage_setPage]
    rfl

theorem SlabAlloc.slabFree_more (inuse : sub32 (s.alloc.memMap page).inuse 1 ≠ 0)
    (cache : (s.alloc.memMap page).slab = some c) : s.slabFree page o =
    { s with
      alloc := { s.alloc.setPage page { s.alloc.memMap page with
            freelist := o
            inuse := sub32 (s.alloc.memMap page).inuse 1 } with
          links := if (s.alloc.memMap page).freelist = 0 then listAdd s.alloc.links (.lru page) (.cachePartial c)
            else s.alloc.links }
      mem := setFreepointer s.mem o (s.alloc.memMap page).freelist } := by
  simp only [slabFree, setPage_memMap_self, setPage_setPage, cache]
  rw [if_neg inuse]
  by_cases full : (s.alloc.memMap page).freelist = 0
  · rw [if_pos full, if_pos full]
    rfl
  · rw [if_neg full, if_neg full]
    rfl

/-- The word of a freed object is not one of another chain. -/
theorem SlabInv.words_of_free (h : SlabInv s L P slabs large D S) (memP : p ∈ slabs) (memA : a ∈ p.used) {q : SlabPage}
    (memQ : q ∈ slabs) (memO : o ∈ q.free) (fp : Nat) :
    getFreepointer (setFreepointer s.mem a.addr fp) o = getFreepointer s.mem o := by
  apply getFreepointer_congr
  intro x low high
  have wide := classSize_pos q.cache
  have wide' := classSize_pos p.cache
  apply setFreepointer_of_not_mem
  by_contra inside
  have room : a.Room x := ⟨by omega, by rw [h.roomSize_slab memP memA]; omega⟩
  have out := h.free_apart memQ memO (mem_allocations.2 (.inl ⟨p, memP, memA⟩)) room
  omega

/-- Freeing the last allocation of a slab gives the page back. -/
theorem SlabInv.slabFree_last (h : SlabInv s L P (p :: slabs) large D S) (only : p.used = [a]) :
    ∃ L' P', SlabInv (s.slabFree p.page a.addr) L' P' slabs large D S := by
  have self : p ∈ p :: slabs := List.mem_cons_self
  have ok := h.ok p self
  have inuse : sub32 (s.alloc.memMap p.page).inuse 1 = 0 := by
    rw [ok.inuse, only, List.length_singleton]
    exact sub32_of_le le_rfl (by decide)
  have lists : ∃ P', Partials (if (s.alloc.memMap p.page).freelist ≠ 0 then listDel s.alloc.links (.lru p.page)
        else s.alloc.links) P' ∧
      Relinked s.alloc.links (if (s.alloc.memMap p.page).freelist ≠ 0 then listDel s.alloc.links (.lru p.page)
        else s.alloc.links) P p.page ∧ ∀ c < kmallocCaches, ∀ j, j ∈ P' c ↔ j ≠ p.page ∧ j ∈ P c := by
    by_cases full : (s.alloc.memMap p.page).freelist ≠ 0
    · rw [if_pos full]
      exact h.unlist fun none => full (ok.chain.null_iff.2 none)
    · rw [if_neg full]
      refine ⟨P, h.partials, .refl _ _ _, fun c lt j => (h.listed_cases lt j).trans ?_⟩
      simp [ok.chain.null_iff.1 (not_not.1 full)]
  obtain ⟨P', partials, relinked, listed⟩ := lists
  rw [SlabAlloc.slabFree_last inuse]
  generalize (if (s.alloc.memMap p.page).freelist ≠ 0 then listDel s.alloc.links (.lru p.page) else s.alloc.links) = links
    at partials relinked
  have held : p.used ≠ [] := by simp [only]
  have edited : SlabInv { s with
      alloc := { s.alloc.setPage p.page { s.alloc.memMap p.page with
            freelist := a.addr
            inuse := sub32 (s.alloc.memMap p.page).inuse 1
            flags := (s.alloc.memMap p.page).flags &&& ~~~pageSlab } with
          links := links }
      mem := setFreepointer s.mem a.addr (s.alloc.memMap p.page).freelist } L P' slabs large ((p.page, 0) :: D) S := by
    refine ⟨?_, ?_, h.mapped⟩
    · refine h.toSlabs.replace p.page [p] [] rfl rfl rfl (fun j ne => setPage_memMap_of_ne _ _ ne) (by simp) (by simp)
        (fun q mem => h.page_ne mem) (fun b mem => h.large_ne self mem) ?_ ?_ (by simp) partials ?_
      · intro q mem o free
        exact h.words_of_free self (by simp [only]) (List.mem_cons_of_mem _ mem) free _
      · simp only [setPage_memMap_self, Page.isSlab, andNot_and_self]
        simp
      · intro c lt j
        rw [listed c lt j]
        simp
    · have owned : Owned s.alloc L (heldPages slabs large ++ (p.page, 0) :: D) S := h.owned.perm List.perm_middle.symm
      refine owned.edit (P := P) rfl rfl rfl rfl (fun j ne => setPage_memMap_of_ne _ _ ne) ?_ relinked
        (h.not_free self) fun c lt j mem => h.partial_not_free lt mem
      simp only [setPage_memMap_self, Page.buddy, andNot_and_other (show pageSlab &&& pageBuddy = 0 by decide)]
  obtain ⟨L', freed⟩ := edited.freePages
  exact ⟨L', P', freed⟩

/-- Freeing one of several allocations of a slab puts its object on the chain. -/
theorem SlabInv.slabFree_more (h : SlabInv s L P (p :: slabs) large D S) (mem : a ∈ p.used) (more : p.used.erase a ≠ []) :
    ∃ P', SlabInv (s.slabFree p.page a.addr) L P' (⟨p.page, p.cache, p.used.erase a, a.addr :: p.free⟩ :: slabs)
      large D S := by
  have self : p ∈ p :: slabs := List.mem_cons_self
  have ok := h.ok p self
  have length := List.length_erase_of_mem mem
  have pos := List.length_pos_of_ne_nil more
  have bound := (classes p.cache ok.cache).2.2
  have counts := ok.objects.length_eq
  simp only [objectsAt, List.length_range', List.length_append, List.length_map] at counts
  have inuse : sub32 (s.alloc.memMap p.page).inuse 1 = (p.used.erase a).length := by
    rw [ok.inuse, length, sub32_of_le (by omega) (by omega)]
  have lists : ∃ P', Partials (if (s.alloc.memMap p.page).freelist = 0
        then listAdd s.alloc.links (.lru p.page) (.cachePartial p.cache) else s.alloc.links) P' ∧
      Relinked s.alloc.links (if (s.alloc.memMap p.page).freelist = 0
        then listAdd s.alloc.links (.lru p.page) (.cachePartial p.cache) else s.alloc.links) P p.page ∧
      ∀ c < kmallocCaches, ∀ j, j ∈ P' c ↔ j ≠ p.page ∧ j ∈ P c ∨ j = p.page ∧ p.cache = c := by
    by_cases full : (s.alloc.memMap p.page).freelist = 0
    · rw [if_pos full]
      exact h.list ok.cache fun c lt listed => ((h.listed_iff lt).1 listed).2 (ok.chain.null_iff.1 full)
    · rw [if_neg full]
      have free : p.free ≠ [] := fun none => full (ok.chain.null_iff.2 none)
      refine ⟨P, h.partials, .refl _ _ _, fun c lt j => (h.listed_cases lt j).trans ?_⟩
      simp [free]
  obtain ⟨P', partials, relinked, listed⟩ := lists
  rw [SlabAlloc.slabFree_more (by rw [inuse]; omega) ok.slab]
  generalize (if (s.alloc.memMap p.page).freelist = 0 then listAdd s.alloc.links (.lru p.page) (.cachePartial p.cache)
    else s.alloc.links) = links at partials relinked
  refine ⟨P', ⟨?_, ?_, h.mapped⟩⟩
  · refine h.toSlabs.replace p.page [p] [_] rfl rfl rfl (fun j ne => setPage_memMap_of_ne _ _ ne) (by simp) (by simp)
      (fun q mem => h.page_ne mem) (fun b mem => h.large_ne self mem) ?_ ?_ ?_ partials ?_
    · intro q there o free
      exact h.words_of_free self mem (List.mem_cons_of_mem _ there) free _
    · have flag := h.slab_flag self
      simp only [setPage_memMap_self, ne_eq, List.cons_ne_nil, not_false_eq_true, iff_true]
      exact flag
    · intro q there
      obtain rfl := List.mem_singleton.1 there
      constructor
      · exact ok.cache
      · simp only [setPage_memMap_self]
        exact ok.slab
      · simp only [setPage_memMap_self, inuse]
      · simp only [setPage_memMap_self]
        have nonnull := (block_address h.owned h.mapped (mem_heldPages_slab self)).2.1
        have inside := objectsAt_bounds ok.cache (h.object_mem self (.inr ⟨a, mem, rfl⟩))
        refine ok.chain.push (by omega) ?_ fun o free => h.words_of_free self mem self free _
        apply getFreepointer_set
        obtain ⟨null, -⟩ | ⟨-, rest, eq, -⟩ := ok.chain.cases
        · rw [null]
          decide
        · have wide := classSize_pos p.cache
          have first : (s.alloc.memMap p.page).freelist ∈ p.free := by rw [eq]; exact List.mem_cons_self
          exact (h.object_byte self (.inl first) le_rfl (by omega)).1
      · refine List.Perm.trans ?_ ok.objects
        have used := (List.perm_cons_erase mem).map (·.addr)
        exact List.perm_middle.symm.trans (used.symm.append_left p.free)
      · intro b there
        exact ok.sizes b (List.mem_of_mem_erase there)
    · intro c lt j
      rw [listed c lt j]
      simp [eq_comm (a := j)]
  · refine h.owned.edit (P := P) rfl rfl rfl rfl (fun j ne => setPage_memMap_of_ne _ _ ne) ?_ relinked
      (h.not_free self) fun c lt j mem => h.partial_not_free lt mem
    simp only [setPage_memMap_self]
    rfl

theorem SlabAlloc.slabFree_mem (s : SlabAlloc) (page o : Nat) (out : x < o ∨ o + 8 ≤ x) :
    (s.slabFree page o).mem x = s.mem x := by
  have written : (s.slabFree page o).mem = setFreepointer s.mem o (s.alloc.memMap page).freelist := by
    simp only [slabFree]
    split
    · rfl
    · split
      · split <;> rfl
      · rfl
  rw [written]
  exact setFreepointer_of_not_mem out

/-- A call has freed the allocation `a`. -/
structure Frees (s : SlabAlloc) (live : List Allocation) (D : List (Nat × Nat)) (S : Set Nat) (a : Allocation)
    (s' : SlabAlloc) : Prop where
  stands : Stands s' (live.erase a) D S
  keeps : ∀ x, ¬ a.Room x → s'.mem x = s.mem x

/-- **`slab_free`** frees an allocation of a slab. -/
theorem SlabInv.slabFree (h : SlabInv s L P (p :: slabs) large D S) (busy : ∀ p ∈ slabs, p.used ≠ []) (mem : a ∈ p.used) :
    Stands (s.slabFree p.page a.addr) (p.used.erase a ++ allocations slabs large) D S := by
  by_cases more : p.used.erase a = []
  · have only : p.used = [a] := List.perm_singleton.1 (more ▸ List.perm_cons_erase mem)
    obtain ⟨L', P', inv⟩ := h.slabFree_last only
    exact ⟨L', P', slabs, large, inv, busy, by rw [more]; exact .refl _⟩
  · obtain ⟨P', inv⟩ := h.slabFree_more mem more
    refine ⟨L, P', _, large, inv, ?_, by rw [allocations_cons]⟩
    intro q here
    rcases List.mem_cons.1 here with rfl | here
    · exact more
    · exact busy q here

/-! ## `kmalloc` -/

/-- A block becomes a large allocation. -/
theorem SlabInv.kmalloc_block (h : SlabInv s L P slabs large ((page, leastOrder size) :: D) S)
    (big : kmallocMaxSize < size) :
    SlabInv { s with alloc := s.alloc.setPage page { s.alloc.memMap page with order := leastOrder size } } L P slabs
      (⟨page, s.alloc.pageAddress page, size⟩ :: large) D S := by
  have direct := direct_held (i := page) (o := leastOrder size) D slabs large
  have here : page < s.alloc.maxMapnr := lt_maxMapnr (h.owned.hand _ direct).start_lt
  have replaced : Slabs { s with alloc := s.alloc.setPage page { s.alloc.memMap page with order := leastOrder size } } P
      slabs large := by
    refine h.toSlabs.replace page [] [] rfl rfl rfl (fun j ne => setPage_memMap_of_ne _ _ ne) (by simp) (by simp)
      (fun q mem => h.direct_ne mem) (fun b mem => h.direct_ne_large mem) (fun _ _ _ _ => rfl) ?_ (by simp) h.partials ?_
    · have plain : ¬ (s.alloc.memMap page).isSlab = true := by
        rw [h.flag page here]
        rintro ⟨p, mem, same⟩
        exact h.direct_ne mem same
      simp only [setPage_memMap_self, ne_eq, not_true_eq_false, iff_false]
      exact plain
    · intro c lt j
      constructor
      · intro mem
        refine .inl ⟨?_, mem⟩
        rintro rfl
        exact h.direct_not_listed lt mem
      · rintro (⟨-, mem⟩ | ⟨p, absurd, -⟩)
        · exact mem
        · cases absurd
  refine ⟨⟨replaced.caches, replaced.flag, replaced.ok, ?_, replaced.partials, replaced.listed⟩, ?_, h.mapped⟩
  · intro b mem
    rcases List.mem_cons.1 mem with rfl | mem
    · refine ⟨?_, rfl, big⟩
      simp only [setPage_memMap_self]
    · exact replaced.blocks b mem
  · have owned : Owned s.alloc L (heldPages slabs (⟨page, s.alloc.pageAddress page, size⟩ :: large) ++ D) S := by
      apply h.owned.perm
      rw [heldPages, heldPages, List.map_cons, List.append_assoc, List.append_assoc]
      exact List.perm_middle.append_left _
    refine owned.edit (P := P) rfl rfl rfl rfl (fun j ne => setPage_memMap_of_ne _ _ ne) ?_ (.refl _ _ _)
      (head_not_covered (h.owned.hand _ direct).apart) fun c lt j mem => h.partial_not_free lt mem
    simp only [setPage_memMap_self]
    rfl

/-- **A large request** is served unless there is no free run for it. -/
theorem SlabInv.kmalloc_large (h : SlabInv s L P slabs large D S) (busy : ∀ p ∈ slabs, p.used ≠ [])
    (big : kmallocMaxSize < size) :
    s.kmalloc size = (s, 0) ∧ (maxOrder ≤ leastOrder size ∨ ¬ History.FreeRun s.alloc (leastOrder size)) ∨
    ¬ (maxOrder ≤ leastOrder size ∨ ¬ History.FreeRun s.alloc (leastOrder size)) ∧
      Serves s (allocations slabs large) D S size (s.kmalloc size).1 (s.kmalloc size).2 := by
  have some : size ≠ 0 := by omega
  unfold SlabAlloc.kmalloc
  rw [if_neg some, if_pos big, kmalloc_order]
  by_cases fits : leastOrder size < maxOrder
  · have refused := History.allocPages_none_iff h.owned.inv (leastOrder size)
    rw [if_pos fits]
    rcases allocPages_spec h.owned.inv (leastOrder size) with ⟨run, -⟩ | ⟨page, c₀, alloc, L', run, a⟩
    · rw [run] at refused
      refine .inl ⟨?_, refused.1 rfl⟩
      simp only [run]
    · rw [run] at refused
      simp only [run]
      have block := h.allocPages a
      have nonnull := (block_address block.owned block.mapped (direct_held D slabs large)).2.1
      have inv := block.kmalloc_block big
      refine .inr ⟨fun none => (by cases refused.2 none), nonnull, ⟨L', P, slabs, _, inv, busy, ?_⟩, fun _ _ _ _ => rfl⟩
      exact List.perm_middle.symm
  · rw [if_neg fits]
    exact .inl ⟨rfl, .inl (Nat.le_of_not_lt fits)⟩

/-! ## Clients -/

theorem le_roomSize (size : Nat) : size ≤ roomSize size := by
  unfold roomSize
  split
  · exact le_leastClass size
  · exact le_leastOrder size

/-- The byte of an allocation lies in its room. -/
theorem Allocation.Mem.room (mem : a.Mem x) : a.Room x := ⟨mem.1, mem.2.trans_le (Nat.add_le_add_left (le_roomSize _) _)⟩

theorem roomSize_pos (size : Nat) : 0 < roomSize size := by
  unfold roomSize
  split
  · have := classSize_pos (leastClass size)
    omega
  · exact Nat.mul_pos (by decide) (Nat.two_pow_pos _)

/-- Clients write to their objects and blocks. -/
theorem SlabInv.write (h : SlabInv s L P slabs large D S) (mem : Mem)
    (inside : ∀ x, mem x ≠ s.mem x → (∃ a ∈ allocations slabs large, a.Room x) ∨
      ∃ b ∈ D, (s.alloc.blockAt b.1 b.2).Mem (frameOf x)) : SlabInv { s with mem := mem } L P slabs large D S where
  caches := h.caches
  flag := h.flag
  ok := by
    intro p memP
    refine (h.ok p memP).congr rfl rfl fun o free => getFreepointer_congr fun x low high => ?_
    by_contra changed
    have wide := classSize_pos p.cache
    rcases inside x changed with ⟨a, memA, room⟩ | ⟨b, memB, frame⟩
    · have := h.free_apart memP free memA room
      omega
    · have apart := h.owned.apart
      simp only [heldBlocks, List.map_append, List.pairwise_append] at apart
      have held : (p.page, 0) ∈ heldPages slabs large := List.mem_append_left _ (List.mem_map_of_mem memP)
      have byte := h.object_byte memP (.inl free) low (by omega)
      refine apart.2.2 _ (List.mem_map_of_mem held) _ (List.mem_map_of_mem memB) (frameOf x) ?_ frame
      rw [byte.2]
      exact Block.start_mem _
  blocks b mem := (h.blocks b mem).congr rfl rfl
  partials := h.partials
  listed := h.listed
  owned := h.owned
  mapped := h.mapped

/-! ## `kfree` -/

/-- `virt_to_page` finds the descriptor of a large block. -/
theorem SlabInv.virtToPage_large (h : SlabInv s L P slabs large D S) (mem : b ∈ large) :
    s.alloc.virtToPage b.addr = b.page := by
  have lt := (h.hand_large mem).start_lt
  obtain ⟨address, -, -⟩ := block_address h.owned h.mapped (mem_heldPages_large mem)
  obtain ⟨-, first⟩ := held_mapped h.owned h.mapped (mem_heldPages_large mem) 0 (Nat.two_pow_pos _)
  have small := first.small
  have first := frameOf_linear (d := 0) small (by decide)
  rw [Nat.add_zero, Nat.add_zero] at first
  rw [← address, ← (h.blocks b mem).addr] at first
  exact virtToPage_eq first (lt.trans s.alloc.mapEnd_lt)

/-- A large block is not flagged as a slab. -/
theorem SlabInv.large_plain (h : SlabInv s L P slabs large D S) (mem : b ∈ large) :
    (s.alloc.memMap b.page).isSlab = false := by
  rw [← Bool.not_eq_true, h.flag b.page (lt_maxMapnr (h.hand_large mem).start_lt)]
  rintro ⟨p, here, same⟩
  exact h.large_ne here mem same.symm

/-- `virt_to_page` finds the page of an allocation on a slab. -/
theorem SlabInv.virtToPage_used (h : SlabInv s L P slabs large D S) (mem : p ∈ slabs) (here : a ∈ p.used) :
    s.alloc.virtToPage a.addr = p.page := by
  have room : a.Room a.addr := ⟨le_rfl, Nat.lt_add_of_pos_right (roomSize_pos _)⟩
  exact virtToPage_eq (h.used_byte mem here room).2 ((h.hand_slab mem).start_lt.trans s.alloc.mapEnd_lt)

/-- Freeing a large allocation gives its block back. -/
theorem SlabInv.kfree_block (h : SlabInv s L P slabs (b :: large) D S) (busy : ∀ p ∈ slabs, p.used ≠ []) :
    Stands (s.kfree b.addr) (allocations slabs large) D S ∧ (s.kfree b.addr).mem = s.mem := by
  have self : b ∈ b :: large := List.mem_cons_self
  have ok := h.blocks b self
  have nonnull := (block_address h.owned h.mapped (mem_heldPages_large self)).2.1
  have page := h.virtToPage_large self
  have plain := h.large_plain self
  have value : s.kfree b.addr = { s with alloc := s.alloc.freePages b.page (leastOrder b.size) } := by
    have some : b.addr ≠ 0 := by
      rw [ok.addr]
      exact nonnull
    unfold SlabAlloc.kfree
    rw [if_neg some, page, if_neg (Bool.eq_false_iff.1 plain), ok.order]
  have released : SlabInv s L P slabs large ((b.page, leastOrder b.size) :: D) S := by
    refine ⟨⟨h.caches, h.flag, h.ok, fun c mem => h.blocks c (List.mem_cons_of_mem _ mem), h.partials, h.listed⟩, ?_,
      h.mapped⟩
    apply h.owned.perm
    rw [heldPages, heldPages, List.map_cons, List.append_assoc, List.append_assoc]
    exact List.perm_middle.symm.append_left _
  obtain ⟨L', inv⟩ := released.freePages
  rw [value]
  exact ⟨⟨L', P, slabs, large, inv, busy, .refl _⟩, rfl⟩

/-- Freeing an allocation of a slab. -/
theorem SlabInv.kfree_object (h : SlabInv s L P (p :: slabs) large D S) (busy : ∀ p ∈ slabs, p.used ≠ [])
    (mem : a ∈ p.used) : s.kfree a.addr = s.slabFree p.page a.addr ∧
      Stands (s.kfree a.addr) (p.used.erase a ++ allocations slabs large) D S := by
  have self : p ∈ p :: slabs := List.mem_cons_self
  have page := h.virtToPage_used self mem
  have flag := h.slab_flag self
  have nonnull := (block_address h.owned h.mapped (mem_heldPages_slab self)).2.1
  have inside := objectsAt_bounds (h.ok p self).cache (h.object_mem self (.inr ⟨a, mem, rfl⟩))
  have value : s.kfree a.addr = s.slabFree p.page a.addr := by
    unfold SlabAlloc.kfree
    rw [if_neg (by omega), page, if_pos flag]
  rw [value]
  exact ⟨rfl, h.slabFree busy mem⟩

end

end MiaowOs
