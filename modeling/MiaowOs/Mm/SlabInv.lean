import MiaowOs.Mm.SlabPages
import MiaowOs.Mm.Owned
import Mathlib

/-!
# The invariant of the slab allocator

`SlabInv s L P slabs large D S` says what the page descriptors, the partial lists
and the chains in memory stand for: `slabs` are the pages cut into objects, each
with its allocations and its free objects, `large` are the blocks of the large
allocations, and `P c` is the partial list of cache `c`. Together with the blocks
`D` of other clients they are the held blocks of the page allocator.

A call changes one slab page at a time (`Slabs.replace`), or the page allocator
alone (`Slabs.touch`).
-/

namespace MiaowOs
open TwoWay Pow2 Bytes Chains PageAlloc SlabAlloc

/-- An allocation of a client: the pointer, and the size it asked for. -/
structure Allocation where
  addr : Nat
  size : Nat
deriving DecidableEq

/-- The bytes asked for. -/
def Allocation.Mem (a : Allocation) (x : Nat) : Prop := a.addr ≤ x ∧ x < a.addr + a.size

/-- The size of the object or block that serves a request. -/
def roomSize (size : Nat) : Nat :=
  if size ≤ kmallocMaxSize then classSize (leastClass size) else pageSize * 2 ^ leastOrder size

/-- The whole object or block behind an allocation. -/
def Allocation.Room (a : Allocation) (x : Nat) : Prop := a.addr ≤ x ∧ x < a.addr + roomSize a.size

/-- A slab page: its allocations, and its free objects in the order of the
chain. -/
structure SlabPage where
  page : Nat
  cache : Nat
  used : List Allocation
  free : List Nat
deriving DecidableEq

/-- The block of a large allocation. -/
structure LargeBlock where
  page : Nat
  addr : Nat
  size : Nat
deriving DecidableEq

/-- The descriptor and the memory of a slab page are as they should be. -/
structure SlabPage.Ok (s : SlabAlloc) (p : SlabPage) : Prop where
  cache : p.cache < kmallocCaches
  slab : (s.alloc.memMap p.page).slab = some p.cache
  inuse : (s.alloc.memMap p.page).inuse = p.used.length
  chain : Chain (getFreepointer s.mem) 0 (s.alloc.memMap p.page).freelist p.free
  objects : (p.free ++ p.used.map (·.addr)).Perm (objectsAt (s.alloc.pageAddress p.page) p.cache)
  sizes : ∀ a ∈ p.used, 0 < a.size ∧ a.size ≤ kmallocMaxSize ∧ leastClass a.size = p.cache

/-- The descriptor of a large block is as it should be. -/
structure LargeBlock.Ok (s : SlabAlloc) (b : LargeBlock) : Prop where
  order : (s.alloc.memMap b.page).order = leastOrder b.size
  addr : b.addr = s.alloc.pageAddress b.page
  size : kmallocMaxSize < b.size

/-- The partial lists are rings, and no page is on two of them. -/
structure Partials (m : Heap Node) (P : Nat → List Nat) : Prop where
  ring : ∀ c < kmallocCaches, Ring m (.cachePartial c) ((P c).map .lru)
  single : ∀ c < kmallocCaches, ∀ c' < kmallocCaches, ∀ i, i ∈ P c → i ∈ P c' → c = c'

/-- The slabs and large blocks that a state stands for. -/
structure Slabs (s : SlabAlloc) (P : Nat → List Nat) (slabs : List SlabPage) (large : List LargeBlock) : Prop where
  caches : ∀ c < kmallocCaches, s.caches c = ⟨classSize c, classCount c⟩
  flag : ∀ i < s.alloc.maxMapnr, (s.alloc.memMap i).isSlab = true ↔ ∃ p ∈ slabs, p.page = i
  ok : ∀ p ∈ slabs, p.Ok s
  blocks : ∀ b ∈ large, b.Ok s
  partials : Partials s.alloc.links P
  listed : ∀ c < kmallocCaches, ∀ i, i ∈ P c ↔ ∃ p ∈ slabs, p.page = i ∧ p.cache = c ∧ p.free ≠ []

/-- The blocks held from the page allocator. -/
def heldPages (slabs : List SlabPage) (large : List LargeBlock) : List (Nat × Nat) :=
  slabs.map (fun p => (p.page, 0)) ++ large.map (fun b => (b.page, leastOrder b.size))

/-- The allocations on slab pages and in large blocks. -/
def allocations (slabs : List SlabPage) (large : List LargeBlock) : List Allocation :=
  slabs.flatMap (·.used) ++ large.map (fun b => ⟨b.addr, b.size⟩)

/-- **The invariant.** The frames `S` are those handed over to the page allocator;
they lie in the linear map. -/
structure SlabInv (s : SlabAlloc) (L P : Nat → List Nat) (slabs : List SlabPage) (large : List LargeBlock)
    (D : List (Nat × Nat)) (S : Set Nat) : Prop extends Slabs s P slabs large where
  owned : Owned s.alloc L (heldPages slabs large ++ D) S
  mapped : ∀ x ∈ S, InLinearMap x

/-! ## Partial lists -/

section
variable {m m' : Heap Node} {P : Nat → List Nat} {c i : Nat}

/-- What an edit of the partial lists leaves alone. -/
structure Relinked (m m' : Heap Node) (P : Nat → List Nat) (i : Nat) : Prop where
  freeList : ∀ o, m' (.freeList o) = m (.freeList o)
  lru : ∀ j, j ≠ i → (∀ c < kmallocCaches, j ∉ P c) → m' (.lru j) = m (.lru j)

theorem Relinked.refl (m : Heap Node) (P : Nat → List Nat) (i : Nat) : Relinked m m P i :=
  ⟨fun _ => rfl, fun _ _ _ => rfl⟩

theorem lru_not_mem {j : Nat} (out : j ∉ P c) : Node.lru j ∉ Node.cachePartial c :: (P c).map Node.lru := by
  simpa using out

/-- A node of another partial list. -/
theorem Partials.other (h : Partials m P) {c' : Nat} (lt : c < kmallocCaches) (lt' : c' < kmallocCaches) (ne : c' ≠ c)
    {x : Node} (mem : x ∈ Node.cachePartial c' :: (P c').map Node.lru) :
    x ∉ Node.cachePartial c :: (P c).map Node.lru := by
  rcases List.mem_cons.1 mem with rfl | mem
  · simpa using ne
  · obtain ⟨j, here, rfl⟩ := List.mem_map.1 mem
    exact lru_not_mem fun there => ne (h.single c' lt' c lt j here there)

/-- Putting a page on a partial list. -/
theorem Partials.add (h : Partials m P) (lt : c < kmallocCaches) (fresh : ∀ c' < kmallocCaches, i ∉ P c') :
    Partials (listAdd m (.lru i) (.cachePartial c)) (Function.update P c (i :: P c)) ∧
      Relinked m (listAdd m (.lru i) (.cachePartial c)) P i := by
  have frame : ∀ x, x ∉ Node.cachePartial c :: (P c).map Node.lru → x ≠ .lru i →
      listAdd m (.lru i) (.cachePartial c) x = m x := fun x out ne => listAdd_frame (h.ring c lt) out ne
  refine ⟨⟨?_, ?_⟩, fun o => frame _ (by simp) (by simp), fun j ne out => frame _ (lru_not_mem (out c lt)) (by simpa)⟩
  · intro c' lt'
    by_cases same : c' = c
    · subst same
      rw [Function.update_self, List.map_cons]
      exact listAdd_ring (h.ring c' lt') (lru_not_mem (fresh c' lt'))
    · rw [Function.update_of_ne same]
      refine (h.ring c' lt').congr fun x mem => frame x (h.other lt lt' same mem) ?_
      rintro rfl
      exact lru_not_mem (fresh c' lt') mem
  · intro c₁ lt₁ c₂ lt₂ j mem₁ mem₂
    have old : ∀ {c'}, c' < kmallocCaches → j ∈ Function.update P c (i :: P c) c' → j = i ∧ c' = c ∨ j ∈ P c' := by
      intro c' lt' mem
      by_cases same : c' = c
      · subst same
        rw [Function.update_self] at mem
        exact (List.mem_cons.1 mem).imp_left fun eq => ⟨eq, rfl⟩
      · rw [Function.update_of_ne same] at mem
        exact .inr mem
    rcases old lt₁ mem₁ with ⟨rfl, rfl⟩ | mem₁'
    · rcases old lt₂ mem₂ with ⟨-, rfl⟩ | mem₂'
      · rfl
      · exact (fresh c₂ lt₂ mem₂').elim
    · rcases old lt₂ mem₂ with ⟨rfl, rfl⟩ | mem₂'
      · exact (fresh c₁ lt₁ mem₁').elim
      · exact h.single c₁ lt₁ c₂ lt₂ j mem₁' mem₂'

/-- Taking a page off its partial list. -/
theorem Partials.del (h : Partials m P) (lt : c < kmallocCaches) (mem : i ∈ P c) :
    Partials (listDel m (.lru i)) (Function.update P c ((P c).erase i)) ∧ Relinked m (listDel m (.lru i)) P i := by
  have frame : ∀ x, x ∉ Node.cachePartial c :: (P c).map Node.lru → listDel m (.lru i) x = m x :=
    fun x out => listDel_frame (h.ring c lt) (mem_map_lru.2 mem) out
  refine ⟨⟨?_, ?_⟩, fun o => frame _ (by simp), fun j _ out => frame _ (lru_not_mem (out c lt))⟩
  · intro c' lt'
    by_cases same : c' = c
    · subst same
      rw [Function.update_self, map_lru_erase]
      exact listDel_ring (h.ring c' lt') (mem_map_lru.2 mem)
    · rw [Function.update_of_ne same]
      exact (h.ring c' lt').congr fun x mem => frame x (h.other lt lt' same mem)
  · intro c₁ lt₁ c₂ lt₂ j mem₁ mem₂
    have old : ∀ {c'}, j ∈ Function.update P c ((P c).erase i) c' → j ∈ P c' := by
      intro c' mem
      by_cases same : c' = c
      · subst same
        rw [Function.update_self] at mem
        exact List.mem_of_mem_erase mem
      · rwa [Function.update_of_ne same] at mem
    exact h.single c₁ lt₁ c₂ lt₂ j (old mem₁) (old mem₂)

theorem Partials.nodup (h : Partials m P) (lt : c < kmallocCaches) : (P c).Nodup :=
  (List.nodup_cons.1 (h.ring c lt).nodup).2.of_map

end

/-! ## Descriptors -/

section
variable {s s' : SlabAlloc} {L P P' : Nat → List Nat} {slabs : List SlabPage} {large : List LargeBlock}
  {D : List (Nat × Nat)} {S : Set Nat} {p q : SlabPage} {b : LargeBlock} {a : Allocation} {i c o x size : Nat}

@[simp] theorem PageAlloc.setPage_memMap_self (s : PageAlloc) (d : Page) : (s.setPage i d).memMap i = d :=
  Function.update_self _ _ _

theorem PageAlloc.setPage_memMap_of_ne {j : Nat} (s : PageAlloc) (d : Page) (ne : j ≠ i) :
    (s.setPage i d).memMap j = s.memMap j := Function.update_of_ne ne _ _

@[simp] theorem PageAlloc.setPage_setPage (s : PageAlloc) (d e : Page) : (s.setPage i d).setPage i e = s.setPage i e := by
  simp [setPage]

@[simp] theorem PageAlloc.setPage_relink (s : PageAlloc) (d e : Page) (m : Heap Node) :
    PageAlloc.setPage { s.setPage i d with links := m } i e = { s.setPage i e with links := m } := by
  simp [setPage]

/-- A slab page whose descriptor and chain are not written. -/
theorem SlabPage.Ok.congr (h : p.Ok s) (base : s'.alloc.memMapBasePfn = s.alloc.memMapBasePfn)
    (page : s'.alloc.memMap p.page = s.alloc.memMap p.page)
    (words : ∀ o ∈ p.free, getFreepointer s'.mem o = getFreepointer s.mem o) : p.Ok s' where
  cache := h.cache
  slab := by rw [page]; exact h.slab
  inuse := by rw [page]; exact h.inuse
  chain := by rw [page]; exact h.chain.congr words
  objects := by rw [pageAddress_congr base]; exact h.objects
  sizes := h.sizes

theorem LargeBlock.Ok.congr (h : b.Ok s) (base : s'.alloc.memMapBasePfn = s.alloc.memMapBasePfn)
    (page : s'.alloc.memMap b.page = s.alloc.memMap b.page) : b.Ok s' where
  order := by rw [page]; exact h.order
  addr := by rw [pageAddress_congr base]; exact h.addr
  size := h.size

/-- A page on a partial list backs a slab. -/
theorem Slabs.partial_page (h : Slabs s P slabs large) (lt : c < kmallocCaches) (mem : i ∈ P c) :
    ∃ p ∈ slabs, p.page = i := by
  obtain ⟨p, here, page, -⟩ := (h.listed c lt i).1 mem
  exact ⟨p, here, page⟩

/-- **One slab page is replaced**: the descriptors of the other pages and the
words of their chains are not written. -/
theorem Slabs.replace (i : Nat) (old new : List SlabPage) (h : Slabs s P (old ++ slabs) large)
    (base : s'.alloc.memMapBasePfn = s.alloc.memMapBasePfn) (size : s'.alloc.maxMapnr = s.alloc.maxMapnr)
    (caches : s'.caches = s.caches) (others : ∀ j, j ≠ i → s'.alloc.memMap j = s.alloc.memMap j)
    (oldPage : ∀ p ∈ old, p.page = i) (newPage : ∀ p ∈ new, p.page = i) (apart : ∀ p ∈ slabs, p.page ≠ i)
    (apartLarge : ∀ b ∈ large, b.page ≠ i)
    (words : ∀ p ∈ slabs, ∀ o ∈ p.free, getFreepointer s'.mem o = getFreepointer s.mem o)
    (flag : (s'.alloc.memMap i).isSlab = true ↔ new ≠ []) (ok : ∀ p ∈ new, p.Ok s')
    (partials : Partials s'.alloc.links P')
    (listed : ∀ c < kmallocCaches, ∀ j, j ∈ P' c ↔ j ≠ i ∧ j ∈ P c ∨ ∃ p ∈ new, p.page = j ∧ p.cache = c ∧ p.free ≠ []) :
    Slabs s' P' (new ++ slabs) large where
  caches := by rw [caches]; exact h.caches
  flag := by
    intro j lt
    rw [size] at lt
    by_cases same : j = i
    · subst same
      rw [flag]
      constructor
      · intro some
        obtain ⟨p, mem⟩ := List.exists_mem_of_ne_nil new some
        exact ⟨p, List.mem_append_left _ mem, newPage p mem⟩
      · rintro ⟨p, mem, page⟩ none
        rw [none, List.nil_append] at mem
        exact apart p mem page
    · rw [others j same, h.flag j lt]
      constructor
      · rintro ⟨p, mem, page⟩
        rcases List.mem_append.1 mem with mem | mem
        · exact (same (page.symm.trans (oldPage p mem))).elim
        · exact ⟨p, List.mem_append_right _ mem, page⟩
      · rintro ⟨p, mem, page⟩
        rcases List.mem_append.1 mem with mem | mem
        · exact (same (page.symm.trans (newPage p mem))).elim
        · exact ⟨p, List.mem_append_right _ mem, page⟩
  ok := by
    intro p mem
    rcases List.mem_append.1 mem with mem | mem
    · exact ok p mem
    · exact (h.ok p (List.mem_append_right _ mem)).congr base (others _ (apart p mem)) (words p mem)
  blocks b mem := (h.blocks b mem).congr base (others _ (apartLarge b mem))
  partials := partials
  listed := by
    intro c lt j
    rw [listed c lt j, h.listed c lt j]
    constructor
    · rintro (⟨ne, p, mem, page, rest⟩ | ⟨p, mem, rest⟩)
      · rcases List.mem_append.1 mem with mem | mem
        · exact (ne (page.symm.trans (oldPage p mem))).elim
        · exact ⟨p, List.mem_append_right _ mem, page, rest⟩
      · exact ⟨p, List.mem_append_left _ mem, rest⟩
    · rintro ⟨p, mem, page, rest⟩
      rcases List.mem_append.1 mem with mem | mem
      · exact .inr ⟨p, mem, page, rest⟩
      · exact .inl ⟨page ▸ apart p mem, p, List.mem_append_right _ mem, page, rest⟩

/-- **The page allocator alone changes**, on other pages. -/
theorem Slabs.touch {U : Set Nat} {alloc : PageAlloc} (h : Slabs s P slabs large) (t : Touches U s.alloc alloc)
    (out : ∀ p ∈ slabs, s.alloc.memMapBasePfn + p.page ∉ U) (outLarge : ∀ b ∈ large, s.alloc.memMapBasePfn + b.page ∉ U) :
    Slabs { s with alloc := alloc } P slabs large where
  caches := h.caches
  flag := by
    intro j lt
    rw [show alloc.maxMapnr = s.alloc.maxMapnr from t.size] at lt
    rw [t.slab j]
    exact h.flag j lt
  ok p mem := (h.ok p mem).congr t.base (t.page _ (out p mem)) fun _ _ => rfl
  blocks b mem := (h.blocks b mem).congr t.base (t.page _ (outLarge b mem))
  partials := by
    refine ⟨fun c lt => (h.partials.ring c lt).congr fun x mem => ?_, h.partials.single⟩
    rcases List.mem_cons.1 mem with rfl | mem
    · exact t.cachePartial c
    · obtain ⟨j, here, rfl⟩ := List.mem_map.1 mem
      obtain ⟨p, there, rfl⟩ := h.partial_page lt here
      exact t.lru _ (out p there)
  listed := h.listed

/-- A client of the page allocator writes one descriptor and edits its own lists. -/
theorem PageAlloc.Owned.edit {t t' : PageAlloc} {H : List (Nat × Nat)} (h : Owned t L H S)
    (base : t'.memMapBasePfn = t.memMapBasePfn) (size : t'.maxMapnr = t.maxMapnr) (nrFree : t'.nrFree = t.nrFree)
    (count : t'.freeCount = t.freeCount) (others : ∀ j, j ≠ i → t'.memMap j = t.memMap j)
    (buddy : (t'.memMap i).buddy = (t.memMap i).buddy) (links : Relinked t.links t'.links P i)
    (out : t.memMapBasePfn + i ∉ cover (t.blocks L))
    (lists : ∀ c < kmallocCaches, ∀ j ∈ P c, t.memMapBasePfn + j ∉ cover (t.blocks L)) : Owned t' L H S := by
  apply h.congr base size nrFree count
  · intro j
    by_cases same : j = i
    · rw [same, buddy]
    · rw [others j same]
  · intro j covered
    rw [others j fun same => out (same ▸ covered)]
  · exact links.freeList
  · intro j covered
    exact links.lru j (fun same => out (same ▸ covered)) fun c lt mem => lists c lt j mem covered

/-! ## Held pages -/

theorem mem_heldPages_slab (mem : p ∈ slabs) : (p.page, 0) ∈ heldPages slabs large ++ D :=
  List.mem_append_left _ (List.mem_append_left _ (List.mem_map_of_mem mem))

theorem mem_heldPages_large (mem : b ∈ large) : (b.page, leastOrder b.size) ∈ heldPages slabs large ++ D :=
  List.mem_append_left _ (List.mem_append_right _ (List.mem_map_of_mem mem))

namespace SlabInv

/-- The order of the slabs and of the blocks does not matter. -/
theorem perm {slabs' : List SlabPage} {large' : List LargeBlock} (h : SlabInv s L P slabs large D S)
    (ps : slabs.Perm slabs') (pl : large.Perm large') : SlabInv s L P slabs' large' D S where
  caches := h.caches
  flag j lt := by
    rw [h.flag j lt]
    simp only [ps.mem_iff]
  ok p mem := h.ok p (ps.mem_iff.2 mem)
  blocks b mem := h.blocks b (pl.mem_iff.2 mem)
  partials := h.partials
  listed c lt j := by
    rw [h.listed c lt j]
    simp only [ps.mem_iff]
  owned := h.owned.perm (((ps.map _).append (pl.map _)).append_right D)
  mapped := h.mapped

theorem hand_slab (h : SlabInv s L P slabs large D S) (mem : p ∈ slabs) : InHand s.alloc L p.page 0 :=
  h.owned.hand _ (mem_heldPages_slab mem)

theorem hand_large (h : SlabInv s L P slabs large D S) (mem : b ∈ large) : InHand s.alloc L b.page (leastOrder b.size) :=
  h.owned.hand _ (mem_heldPages_large mem)

/-- The blocks of slabs and of large allocations share no frame. -/
theorem blocks_apart (h : SlabInv s L P slabs large D S) :
    (slabs.Pairwise fun p q => (s.alloc.blockAt p.page 0).Apart (s.alloc.blockAt q.page 0)) ∧
    (large.Pairwise fun b c => (s.alloc.blockAt b.page (leastOrder b.size)).Apart
      (s.alloc.blockAt c.page (leastOrder c.size))) ∧
    ∀ p ∈ slabs, ∀ b ∈ large, (s.alloc.blockAt p.page 0).Apart (s.alloc.blockAt b.page (leastOrder b.size)) := by
  have apart := h.owned.apart
  simp only [heldBlocks, heldPages, List.map_append, List.map_map, List.pairwise_append, List.pairwise_map] at apart
  obtain ⟨⟨ps, bs, cross⟩, -, -⟩ := apart
  refine ⟨ps, bs, fun p memP b memB => ?_⟩
  exact cross _ (List.mem_map_of_mem memP) _ (List.mem_map_of_mem memB)

theorem page_ne (h : SlabInv s L P (p :: slabs) large D S) (mem : q ∈ slabs) : q.page ≠ p.page := by
  intro same
  have apart := (List.pairwise_cons.1 h.blocks_apart.1).1 q mem
  rw [same] at apart
  exact apart _ (Block.start_mem _) (Block.start_mem _)

theorem large_ne (h : SlabInv s L P slabs large D S) (memP : p ∈ slabs) (memB : b ∈ large) : b.page ≠ p.page := by
  intro same
  have apart := h.blocks_apart.2.2 p memP b memB
  rw [← same] at apart
  exact apart _ (Block.start_mem _) (Block.start_mem (s.alloc.blockAt b.page (leastOrder b.size)))

/-- A slab page is not free. -/
theorem not_free (h : SlabInv s L P slabs large D S) (mem : p ∈ slabs) :
    s.alloc.memMapBasePfn + p.page ∉ cover (s.alloc.blocks L) :=
  head_not_covered (h.hand_slab mem).apart

theorem large_not_free (h : SlabInv s L P slabs large D S) (mem : b ∈ large) :
    s.alloc.memMapBasePfn + b.page ∉ cover (s.alloc.blocks L) :=
  head_not_covered (h.hand_large mem).apart

theorem partial_not_free (h : SlabInv s L P slabs large D S) (lt : c < kmallocCaches) (mem : i ∈ P c) :
    s.alloc.memMapBasePfn + i ∉ cover (s.alloc.blocks L) := by
  obtain ⟨p, here, rfl⟩ := h.partial_page lt mem
  exact h.not_free here

/-- The frames of a held block are seeded, so they are mapped. -/
theorem held_mapped {H : List (Nat × Nat)} {t : PageAlloc} (owned : Owned t L H S)
    (mapped : ∀ x ∈ S, InLinearMap x) {order : Nat} (mem : (i, order) ∈ H) :
    ∀ k < 2 ^ order, t.memMapBasePfn + i + k ∈ S ∧ InLinearMap (t.memMapBasePfn + i + k) := by
  intro k lt
  have seeded : t.memMapBasePfn + i + k ∈ S :=
    (owned.share _).2 (.inl ⟨_, List.mem_map_of_mem mem, Nat.le_add_right _ _, Nat.add_lt_add_left lt _⟩)
  exact ⟨seeded, mapped _ seeded⟩

/-- The linear-map addresses of a held block. -/
theorem block_address {H : List (Nat × Nat)} {t : PageAlloc} (owned : Owned t L H S)
    (mapped : ∀ x ∈ S, InLinearMap x) {order : Nat} (mem : (i, order) ∈ H) :
    t.pageAddress i = linear (t.memMapBasePfn + i) ∧ t.pageAddress i ≠ 0 ∧ t.pageAddress i + pageSize < 2 ^ 64 ∧
      ∀ x, t.pageAddress i ≤ x → x < t.pageAddress i + pageSize * 2 ^ order →
        x < 2 ^ 64 ∧ (t.blockAt i order).Mem (frameOf x) := by
  have run := held_mapped owned mapped mem
  obtain ⟨-, first⟩ := run 0 (Nat.two_pow_pos order)
  have address := pageAddress_eq (owned.hand _ mem).start_lt first.small
  rw [address]
  refine ⟨rfl, first.nonnull, first.below, fun x low high => ?_⟩
  exact frameOf_run (fun k lt => (run k lt).2) low high

/-- A byte of a slab page lies in its frame. -/
theorem slab_byte (h : SlabInv s L P slabs large D S) (mem : p ∈ slabs) (low : s.alloc.pageAddress p.page ≤ x)
    (high : x < s.alloc.pageAddress p.page + pageSize) : x < 2 ^ 64 ∧ frameOf x = s.alloc.memMapBasePfn + p.page := by
  obtain ⟨-, -, -, inside⟩ := block_address h.owned h.mapped (mem_heldPages_slab mem)
  have byte := inside x low (by omega)
  rw [blockAt_mem] at byte
  omega

/-- The objects of a slab page, free or not. -/
theorem object_mem (h : SlabInv s L P slabs large D S) (mem : p ∈ slabs) (here : o ∈ p.free ∨ ∃ a ∈ p.used, a.addr = o) :
    o ∈ objectsAt (s.alloc.pageAddress p.page) p.cache := by
  rw [← (h.ok p mem).objects.mem_iff]
  simpa using here

/-- A byte of an object lies in the frame of its page. -/
theorem object_byte (h : SlabInv s L P slabs large D S) (mem : p ∈ slabs) (here : o ∈ p.free ∨ ∃ a ∈ p.used, a.addr = o)
    (low : o ≤ x) (high : x < o + classSize p.cache) : x < 2 ^ 64 ∧ frameOf x = s.alloc.memMapBasePfn + p.page := by
  obtain ⟨first, last, -⟩ := objectsAt_bounds (h.ok p mem).cache (h.object_mem mem here)
  exact h.slab_byte mem (by omega) (by omega)

theorem objects_nodup (h : SlabInv s L P slabs large D S) (mem : p ∈ slabs) : (p.free ++ p.used.map (·.addr)).Nodup :=
  (h.ok p mem).objects.nodup_iff.2 (objectsAt_nodup _ _)

theorem roomSize_slab (h : SlabInv s L P slabs large D S) (mem : p ∈ slabs) (here : a ∈ p.used) :
    roomSize a.size = classSize p.cache := by
  obtain ⟨-, small, index⟩ := (h.ok p mem).sizes a here
  rw [roomSize, if_pos small, index]

/-- A byte of an allocation on a slab page. -/
theorem used_byte (h : SlabInv s L P slabs large D S) (mem : p ∈ slabs) (here : a ∈ p.used) (room : a.Room x) :
    x < 2 ^ 64 ∧ frameOf x = s.alloc.memMapBasePfn + p.page := by
  obtain ⟨low, high⟩ := room
  rw [h.roomSize_slab mem here] at high
  exact h.object_byte mem (.inr ⟨a, here, rfl⟩) low high

/-- A byte of a large block. -/
theorem large_byte (h : SlabInv s L P slabs large D S) (mem : b ∈ large) (room : Allocation.Room ⟨b.addr, b.size⟩ x) :
    x < 2 ^ 64 ∧ (s.alloc.blockAt b.page (leastOrder b.size)).Mem (frameOf x) := by
  obtain ⟨low, high⟩ := room
  have ok := h.blocks b mem
  have big := ok.size
  simp only [roomSize, if_neg (Nat.not_le.2 big)] at high
  rw [ok.addr] at low high
  exact (block_address h.owned h.mapped (mem_heldPages_large mem)).2.2.2 x low high

/-! ## Allocations do not overlap -/

theorem mem_allocations : a ∈ allocations slabs large ↔
    (∃ p ∈ slabs, a ∈ p.used) ∨ ∃ b ∈ large, a = ⟨b.addr, b.size⟩ := by
  simp only [allocations, List.mem_append, List.mem_flatMap, List.mem_map, eq_comm (a := a)]

/-- A byte of an allocation lies in a seeded frame that is held. -/
theorem allocation_byte (h : SlabInv s L P slabs large D S) (mem : a ∈ allocations slabs large) (room : a.Room x) :
    x < 2 ^ 64 ∧ ∃ b ∈ heldPages slabs large, (s.alloc.blockAt b.1 b.2).Mem (frameOf x) := by
  rcases mem_allocations.1 mem with ⟨p, memP, here⟩ | ⟨b, memB, rfl⟩
  · obtain ⟨lt, frame⟩ := h.used_byte memP here room
    refine ⟨lt, (p.page, 0), List.mem_append_left _ (List.mem_map_of_mem memP), ?_⟩
    rw [frame]
    exact Block.start_mem _
  · obtain ⟨lt, frame⟩ := h.large_byte memB room
    exact ⟨lt, _, List.mem_append_right _ (List.mem_map_of_mem memB), frame⟩

theorem allocation_frame (h : SlabInv s L P slabs large D S) (mem : a ∈ allocations slabs large) (room : a.Room x) :
    x < 2 ^ 64 ∧ frameOf x ∈ S ∧ frameOf x ∉ cover (s.alloc.blocks L) := by
  obtain ⟨lt, b, memB, frame⟩ := h.allocation_byte mem room
  have held : b ∈ heldPages slabs large ++ D := List.mem_append_left _ memB
  exact ⟨lt, (h.owned.share _).2 (.inl ⟨_, List.mem_map_of_mem held, frame⟩), (h.owned.hand b held).not_cover frame⟩

/-- Two objects of a slab page share no byte. -/
theorem objects_apart (h : SlabInv s L P slabs large D S) (mem : p ∈ slabs) {o' : Nat}
    (here : o ∈ p.free ∨ ∃ a ∈ p.used, a.addr = o) (here' : o' ∈ p.free ∨ ∃ a ∈ p.used, a.addr = o') (ne : o ≠ o') :
    o + classSize p.cache ≤ o' ∨ o' + classSize p.cache ≤ o :=
  objectsAt_apart (h.object_mem mem here) (h.object_mem mem here') ne

/-- A free object shares no byte with an allocation. -/
theorem free_apart (h : SlabInv s L P slabs large D S) (memP : p ∈ slabs) (memO : o ∈ p.free)
    (memA : a ∈ allocations slabs large) (room : a.Room x) : x < o ∨ o + classSize p.cache ≤ x := by
  by_contra inside
  have frame := h.object_byte memP (.inl memO) (x := x) (by omega) (by omega)
  rcases mem_allocations.1 memA with ⟨q, memQ, here⟩ | ⟨b, memB, rfl⟩
  · have frame' := h.used_byte memQ here room
    have same : p = q := by
      by_contra ne
      have symm : Std.Symm fun p q : SlabPage => (s.alloc.blockAt p.page 0).Apart (s.alloc.blockAt q.page 0) :=
        ⟨fun _ _ apart => apart.symm⟩
      have apart := h.blocks_apart.1.forall memP memQ ne
      refine apart (frameOf x) ?_ ?_
      · rw [frame.2]
        exact Block.start_mem _
      · rw [frame'.2]
        exact Block.start_mem _
    subst same
    obtain ⟨low, high⟩ := room
    rw [h.roomSize_slab memQ here] at high
    have ne : o ≠ a.addr := fun same =>
      (List.nodup_append.1 (h.objects_nodup memQ)).2.2 o memO a.addr (List.mem_map_of_mem here) same
    have := h.objects_apart memQ (.inl memO) (.inr ⟨a, here, rfl⟩) ne
    omega
  · have frame' := h.large_byte memB room
    refine h.blocks_apart.2.2 p memP b memB (frameOf x) ?_ frame'.2
    rw [frame.2]
    exact Block.start_mem _

/-- **Allocations do not overlap.** -/
theorem allocations_apart (h : SlabInv s L P slabs large D S) :
    (allocations slabs large).Pairwise fun a b => ∀ x, a.Room x → ¬ b.Room x := by
  obtain ⟨ps, bs, cross⟩ := h.blocks_apart
  refine List.pairwise_append.2 ⟨List.pairwise_flatMap.2 ⟨?_, ?_⟩, ?_, ?_⟩
  · -- on one page
    intro p memP
    have nodup := (List.nodup_append.1 (h.objects_nodup memP)).2.1
    refine (List.pairwise_map.1 nodup).imp_of_mem fun {a b} memA memB ne x room room' => ?_
    obtain ⟨low, high⟩ := room
    obtain ⟨low', high'⟩ := room'
    rw [h.roomSize_slab memP memA] at high
    rw [h.roomSize_slab memP memB] at high'
    have := h.objects_apart memP (.inr ⟨a, memA, rfl⟩) (.inr ⟨b, memB, rfl⟩) ne
    omega
  · -- on two pages
    refine ps.imp_of_mem fun {p q} memP memQ apart a memA b memB x room room' => ?_
    have frame := h.used_byte memP memA room
    have frame' := h.used_byte memQ memB room'
    refine apart (frameOf x) ?_ ?_
    · rw [frame.2]
      exact Block.start_mem _
    · rw [frame'.2]
      exact Block.start_mem _
  · refine List.pairwise_map.2 (bs.imp_of_mem fun {b c} memB memC apart x room room' => ?_)
    exact apart (frameOf x) (h.large_byte memB room).2 (h.large_byte memC room').2
  · intro a memA b memB x room room'
    obtain ⟨p, memP, here⟩ := List.mem_flatMap.1 memA
    obtain ⟨b, memL, rfl⟩ := List.mem_map.1 memB
    have frame := h.used_byte memP here room
    refine cross p memP b memL (frameOf x) ?_ (h.large_byte memL room').2
    rw [frame.2]
    exact Block.start_mem _

end SlabInv

end

end MiaowOs
