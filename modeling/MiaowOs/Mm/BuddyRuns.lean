import MiaowOs.Mm.Owned
import Mathlib

/-!
# Histories of the page allocator

A history records the allocator state, the ranges handed over by
`__free_memory_core` and the blocks held from `alloc_pages`. Every history
from `free_area_init` keeps the ownership invariant (`Reachable.owned`). The
results about whole runs follow from it: the representation of the free lists,
the conservation of pages, and the independence of the free blocks from the
order of the calls.
-/

namespace MiaowOs
open TwoWay Pow2 Relation

namespace PageAlloc

/-- The free blocks of a state, read off the linked lists. -/
def freeBlocks (s : PageAlloc) : Set Block :=
  {b | b.order < maxOrder ∧ ∃ l : List Nat, Ring s.links (.freeList b.order) (l.map .lru) ∧
    ∃ i ∈ l, b = s.blockAt i b.order}

/-- The lists of the invariant are the linked lists. -/
theorem FreeInv.freeBlocks_eq {s : PageAlloc} {L : Nat → List Nat} (h : FreeInv s L) :
    s.freeBlocks = s.blocks L := by
  ext b
  constructor
  · rintro ⟨lt, l, ring, i, mem, eq⟩
    have same := ring.unique (h.ring b.order lt)
    rw [List.map_inj_right (fun _ _ q => Node.lru.inj q)] at same
    exact ⟨lt, i, same ▸ mem, eq⟩
  · rintro ⟨lt, i, mem, eq⟩
    exact ⟨lt, L b.order, h.ring b.order lt, i, mem, eq⟩

end PageAlloc

/-- A state of the page allocator with its history: the ranges handed over and
the `(page, order)` blocks held from `alloc_pages`. -/
structure History where
  alloc : PageAlloc
  seeds : List (Nat × Nat)
  held : List (Nat × Nat)

namespace History
open PageAlloc

/-- A managed frame that lies wholly inside a range handed over. -/
def seeded (h : History) : Set Nat :=
  {x | h.alloc.pfnValid x = true ∧ ∃ r ∈ h.seeds, r.1 ≤ x * pageSize ∧ (x + 1) * pageSize ≤ r.2}

/-- The state after `free_area_init`. -/
def init (s : PageAlloc) (base pages : Nat) : History := ⟨s.freeAreaInit base pages, [], []⟩

/-- One call: seeding a range that is disjoint from the earlier ones and whose
start, rounded up to a page, does not wrap; an allocation of any order; the
release of a held block with the order it was allocated with. -/
inductive Step : History → History → Prop where
  | seed {h : History} (start stop : Nat) (wrap : start + (pageSize - 1) < 2 ^ 64) (word : stop < 2 ^ 64)
      (fresh : ∀ r ∈ h.seeds, Disjoint (Set.Ico start stop) (Set.Ico r.1 r.2)) :
      Step h { h with alloc := h.alloc.freeMemoryCore start stop, seeds := (start, stop) :: h.seeds }
  | alloc {h : History} (order : Nat) :
      Step h { h with
        alloc := (h.alloc.allocPages order).1
        held := ((h.alloc.allocPages order).2.map fun page => (page, order)).toList ++ h.held }
  | free {h : History} (page order : Nat) (mem : (page, order) ∈ h.held) :
      Step h { h with alloc := h.alloc.freePages page order, held := h.held.erase (page, order) }

/-- The histories over the managed range of `pages` pages from `base`. -/
def Reachable (base pages : Nat) (h : History) : Prop :=
  ∃ s, ReflTransGen Step (init s base pages) h

/-- The ownership invariant of a history over a managed range. -/
structure Inv (base pages : Nat) (h : History) (L : Nat → List Nat) : Prop where
  owned : Owned h.alloc L h.held h.seeded
  base_eq : h.alloc.memMapBasePfn = base >>> pageShift
  size_eq : h.alloc.maxMapnr = pages
  word : ∀ r ∈ h.seeds, r.2 < 2 ^ 64

section
variable {base pages : Nat} {h h' : History} {L : Nat → List Nat}

theorem seeded_congr {s : PageAlloc} (b : s.memMapBasePfn = h.alloc.memMapBasePfn)
    (m : s.maxMapnr = h.alloc.maxMapnr) (held : List (Nat × Nat)) :
    (⟨s, h.seeds, held⟩ : History).seeded = h.seeded := by
  simp only [seeded, pfnValid, b, m]

/-- The frames of a new range are those between its rounded ends. -/
theorem mem_range_iff {s : PageAlloc} {start stop x : Nat} (wrap : start + (pageSize - 1) < 2 ^ 64) :
    (s.seedStart start ≤ x ∧ x < s.seedLimit stop) ↔
      s.pfnValid x = true ∧ start ≤ x * pageSize ∧ (x + 1) * pageSize ≤ stop := by
  rw [pfnValid_iff, seedStart, seedLimit, add64_of_lt wrap]
  simp only [pageSize, pageShift, Nat.shiftRight_eq_div_pow, max_le_iff, lt_min_iff] at *
  omega

/-- The frames of a new range were not seeded before. -/
theorem not_seeded {start stop : Nat} (wrap : start + (pageSize - 1) < 2 ^ 64)
    (fresh : ∀ r ∈ h.seeds, Disjoint (Set.Ico start stop) (Set.Ico r.1 r.2)) :
    ∀ x, h.alloc.seedStart start ≤ x → x < h.alloc.seedLimit stop → x ∉ h.seeded := by
  intro x h1 h2 hx
  obtain ⟨-, lo, hi⟩ := (mem_range_iff wrap).1 ⟨h1, h2⟩
  obtain ⟨-, r, hr, lo', hi'⟩ := hx
  -- the first byte of the frame would lie in both ranges
  have both : x * pageSize ∈ Set.Ico start stop := ⟨lo, by simp only [pageSize] at *; omega⟩
  exact Set.disjoint_left.1 (fresh r hr) both ⟨lo', by simp only [pageSize] at *; omega⟩

/-- Every call keeps the invariant. -/
theorem Inv.step (inv : Inv base pages h L) (st : Step h h') : ∃ L', Inv base pages h' L' := by
  obtain ⟨owned, hb, hm, hw⟩ := inv
  cases st with
  | seed start stop wrap word fresh =>
    obtain ⟨L', d, owned'⟩ := owned.seed start stop (not_seeded wrap fresh)
    refine ⟨L', ?_, d.touches.base.trans hb, d.touches.size.trans hm, fun r hr => ?_⟩
    swap
    · rcases List.mem_cons.1 hr with rfl | hr
      · exact word
      · exact hw r hr
    have same : ({ h with alloc := h.alloc.freeMemoryCore start stop, seeds := (start, stop) :: h.seeds } :
        History).seeded = {x | h.alloc.seedStart start ≤ x ∧ x < h.alloc.seedLimit stop} ∪ h.seeded := by
      ext x
      simp only [seeded, pfnValid, d.touches.base, d.touches.size, List.mem_cons, exists_eq_or_imp, Set.mem_union,
        Set.mem_ofPred_eq, mem_range_iff wrap]
      tauto
    rw [same]
    exact owned'
  | alloc order =>
    rcases allocPages_spec owned.inv order with ⟨eq, -⟩ | ⟨i, c, s', L', eq, a⟩
    · simp only [eq, Option.map_none, Option.toList_none, List.nil_append]
      exact ⟨L, owned, hb, hm, hw⟩
    · simp only [eq, Option.map_some, Option.toList_some, List.singleton_append]
      refine ⟨L', ?_, a.touches.base.trans hb, a.touches.size.trans hm, hw⟩
      rw [seeded_congr a.touches.base a.touches.size]
      exact owned.alloc a
  | free page order mem =>
    obtain ⟨L', f, owned'⟩ := (owned.perm (List.perm_cons_erase mem)).free
    refine ⟨L', ?_, f.touches.base.trans hb, f.touches.size.trans hm, hw⟩
    rw [seeded_congr f.touches.base f.touches.size]
    exact owned'

/-- **Every history keeps the ownership invariant.** -/
theorem Reachable.owned (r : Reachable base pages h) : ∃ L, Inv base pages h L := by
  obtain ⟨s, run⟩ := r
  induction run with
  | refl =>
    refine ⟨fun _ => [], ?_, rfl, rfl, fun r hr => by cases hr⟩
    have none : (init s base pages).seeded = ∅ := by ext x; simp [seeded, init]
    rw [none]
    exact freeAreaInit_owned s base pages
  | tail _ st ih =>
    obtain ⟨L, inv⟩ := ih
    exact inv.step st

/-! ## The representation of the free lists -/

/-- The representation invariant of the free areas holding the lists `L`. -/
structure Representation (s : PageAlloc) (L : Nat → List Nat) : Prop where
  /-- Each list is a circular doubly linked list without repetition, ... -/
  ring : ∀ o < maxOrder, Ring s.links (.freeList o) ((L o).map .lru)
  /-- ... it has `nr_free` entries, ... -/
  entries : ∀ o < maxOrder, (L o).length = s.nrFree o
  /-- ... and no page is on two lists. -/
  single : ∀ o < maxOrder, ∀ o' < maxOrder, ∀ i, i ∈ L o → i ∈ L o' → o = o'
  /-- `PAGE_BUDDY` marks the heads of listed blocks, each on one list. -/
  flag : ∀ i < s.maxMapnr, (s.memMap i).buddy = true ↔ ∃! o, o < maxOrder ∧ i ∈ L o
  /-- A listed page carries the order of its list. -/
  order : ∀ o < maxOrder, ∀ i ∈ L o, (s.memMap i).order = o
  /-- A listed block is naturally aligned ... -/
  aligned : ∀ o < maxOrder, ∀ i ∈ L o, 2 ^ o ∣ s.memMapBasePfn + i
  /-- ... and inside the managed range. -/
  inside : ∀ o < maxOrder, ∀ i ∈ L o, i + 2 ^ o ≤ s.maxMapnr
  /-- Different listed blocks share no frame. -/
  disjoint : ∀ o < maxOrder, ∀ i ∈ L o, ∀ o' < maxOrder, ∀ j ∈ L o', (i, o) ≠ (j, o') →
    i + 2 ^ o ≤ j ∨ j + 2 ^ o' ≤ i
  /-- No two buddies are listed at one order below the largest. -/
  coalesced : ∀ o < maxOrder - 1, ∀ i ∈ L o, ∀ j ∈ L o,
    (s.memMapBasePfn + i) ^^^ (s.memMapBasePfn + j) ≠ 2 ^ o
  /-- `free_count` is the number of listed pages. -/
  count : s.freeCount = ∑ o ∈ Finset.range maxOrder, s.nrFree o * 2 ^ o

theorem Inv.representation (inv : Inv base pages h L) : Representation h.alloc L := by
  have free := inv.owned.inv
  have managed : h.alloc.mapEnd ≤ h.alloc.memMapBasePfn + h.alloc.maxMapnr := Nat.mod_le _ _
  constructor
  · exact free.ring
  · exact fun o lt => (free.count o lt).symm
  · exact fun o lt o' lt' i mem mem' => free.list_unique lt lt' mem mem'
  · intro i lt
    rw [free.flag i lt]
    constructor
    · rintro ⟨o, lt', mem⟩
      exact ⟨o, ⟨lt', mem⟩, fun o' q => free.list_unique q.1 lt' q.2 mem⟩
    · rintro ⟨o, ⟨lt', mem⟩, -⟩
      exact ⟨o, lt', mem⟩
  · exact free.order
  · exact fun o lt i mem => free.tiling.aligned _ (mem_blocks.2 ⟨lt, mem⟩)
  · intro o lt i mem
    have := free.inside o lt i mem
    omega
  · intro o lt i mem o' lt' j mem' ne
    have apart := free.tiling.apart _ (mem_blocks.2 ⟨lt, mem⟩) _ (mem_blocks.2 ⟨lt', mem'⟩) fun q => ne ?_
    · -- disjoint intervals lie on one side of each other
      by_contra beyond
      push Not at beyond
      have pos := Nat.two_pow_pos o
      have pos' := Nat.two_pow_pos o'
      refine apart (h.alloc.memMapBasePfn + max i j) ?_ ?_ <;> rw [blockAt_mem] <;> omega
    · have hs : h.alloc.memMapBasePfn + i = h.alloc.memMapBasePfn + j := congrArg Block.start q
      have ho : o = o' := congrArg Block.order q
      rw [ho, show i = j by omega]
  · intro o lt i mem j mem' buddies
    have lt' : o < maxOrder := by omega
    refine free.tiling.coalesced _ (mem_blocks.2 ⟨lt', mem⟩) lt ?_
    have other : (h.alloc.blockAt i o).buddy = h.alloc.blockAt j o := by
      simp only [Block.buddy, blockAt, ← buddies, ← Nat.xor_assoc, Nat.xor_self, Nat.zero_xor]
    rw [other]
    exact mem_blocks.2 ⟨lt', mem'⟩
  · rw [inv.owned.count, freeTotal]
    refine Finset.sum_congr rfl fun o mem => ?_
    rw [free.count o (Finset.mem_range.1 mem), Nat.mul_comm]

/-- **Buddy representation invariant.** After every call of every history the
free areas are well-formed, disjoint and fully coalesced. -/
theorem reachable_representation (r : Reachable base pages h) : ∃ L, Representation h.alloc L := by
  obtain ⟨L, inv⟩ := r.owned
  exact ⟨L, inv.representation⟩

/-- Six pages from an odd frame, seeded, with two of them held. -/
theorem reachable_representation_odd_base :
    ∃ h, Reachable 0x40001000 6 h ∧ h.held = [(3, 1)] ∧ ∃ L, Representation h.alloc L := by
  have r : Reachable 0x40001000 6 _ := ⟨.zero, .tail (.tail .refl
    (.seed 0x40001000 0x40007000 (by decide) (by decide) (by simp [init]))) (.alloc 1)⟩
  exact ⟨_, r, by decide +kernel, reachable_representation r⟩

/-! ## Page conservation -/

/-- **Buddy page conservation.** The frames handed over are those of the held
and of the free blocks, each in exactly one block; a held block is aligned
to its size, and the free count is what is not held. -/
theorem reachable_conservation (r : Reachable base pages h) :
    (∀ x, x ∈ h.seeded ↔ x ∈ cover {b | b ∈ h.alloc.heldBlocks h.held} ∨ x ∈ cover h.alloc.freeBlocks) ∧
    (h.alloc.heldBlocks h.held).Pairwise Block.Apart ∧
    (∀ b ∈ h.alloc.freeBlocks, ∀ c ∈ h.alloc.freeBlocks, b ≠ c → b.Apart c) ∧
    (∀ b ∈ h.alloc.heldBlocks h.held, ∀ c ∈ h.alloc.freeBlocks, b.Apart c) ∧
    (∀ b ∈ h.held, (∀ k < 2 ^ b.2, h.alloc.pageToPfn (b.1 + k) ∈ h.seeded) ∧
      h.alloc.pageToPhys b.1 = h.alloc.pageToPfn b.1 * pageSize ∧
      pageSize * 2 ^ b.2 ∣ h.alloc.pageToPhys b.1) ∧
    h.alloc.nrFreePages = h.seeded.ncard - (h.held.map fun b => 2 ^ b.2).sum ∧
    (h.held.map fun b => 2 ^ b.2).sum ≤ h.seeded.ncard := by
  obtain ⟨L, inv⟩ := r.owned
  have owned := inv.owned
  have counts := owned.count_seeded.2
  rw [owned.inv.freeBlocks_eq]
  refine ⟨owned.share, owned.apart, owned.inv.tiling.apart, ?_, ?_, by omega, by omega⟩
  · intro b hb
    obtain ⟨p, hp, rfl⟩ := List.mem_map.1 hb
    exact (owned.hand p hp).apart
  · intro b hb
    have hand := owned.hand b hb
    have inside := hand.inside
    have frame : ∀ k < 2 ^ b.2, h.alloc.pageToPfn (b.1 + k) ∈ h.seeded := fun k lt => by
      rw [pageToPfn_eq (by omega)]
      refine (owned.share _).2 (.inl ⟨_, List.mem_map_of_mem hb, ?_⟩)
      rw [blockAt_mem]
      omega
    have first := frame 0 (Nat.two_pow_pos _)
    rw [Nat.add_zero] at first
    have pfn : h.alloc.pageToPfn b.1 = h.alloc.memMapBasePfn + b.1 := pageToPfn_eq hand.start_lt
    obtain ⟨q, hq⟩ := hand.aligned
    replace hq : h.alloc.memMapBasePfn + b.1 = 2 ^ b.2 * q := hq
    have phys : h.alloc.pageToPhys b.1 = h.alloc.pageToPfn b.1 * pageSize := by
      obtain ⟨-, r, hr, -, hi⟩ := first
      have word := inv.word r hr
      rw [pfn] at hi ⊢
      apply pageToPhys_eq hand.start_lt
      simp only [pageSize] at *
      omega
    refine ⟨frame, phys, ?_⟩
    rw [phys, pfn, hq]
    exact ⟨q, by ring⟩

/-- Seven bytes short of three pages are seeded as two frames; one is held. -/
theorem reachable_conservation_cut_range :
    ∃ h, Reachable 0x40001000 6 h ∧ h.held = [(1, 0)] ∧
      h.alloc.nrFreePages = h.seeded.ncard - (h.held.map fun b => 2 ^ b.2).sum := by
  have r : Reachable 0x40001000 6 _ := ⟨.zero, .tail (.tail .refl
    (.seed 0x40001007 0x40004000 (by decide) (by decide) (by simp [init]))) (.alloc 0)⟩
  exact ⟨_, r, by decide +kernel, (reachable_conservation r).2.2.2.2.2.1⟩

/-! ## Canonicity -/

/-- **Buddy canonicity.** The free blocks of a history are the maximal
naturally aligned blocks inside its free frames, so they, the `nr_free`
counters and `free_count` depend on the free frames only; histories over one
managed range that handed over the same frames and hold nothing agree. -/
theorem reachable_canonical (r : Reachable base pages h) (r' : Reachable base pages h') :
    (∀ b, b ∈ h.alloc.freeBlocks ↔ Maximal (maxOrder - 1) (cover h.alloc.freeBlocks) b) ∧
    (cover h.alloc.freeBlocks = cover h'.alloc.freeBlocks →
      h.alloc.freeBlocks = h'.alloc.freeBlocks ∧ (∀ o < maxOrder, h.alloc.nrFree o = h'.alloc.nrFree o) ∧
      h.alloc.freeCount = h'.alloc.freeCount) ∧
    (h.seeded = h'.seeded → h.held = [] → h'.held = [] → h.alloc.freeBlocks = h'.alloc.freeBlocks) := by
  obtain ⟨L, inv⟩ := r.owned
  obtain ⟨L', inv'⟩ := r'.owned
  have tiling : Tiling (maxOrder - 1) h.alloc.freeBlocks :=
    inv.owned.inv.freeBlocks_eq ▸ inv.owned.inv.tiling
  have tiling' : Tiling (maxOrder - 1) h'.alloc.freeBlocks :=
    inv'.owned.inv.freeBlocks_eq ▸ inv'.owned.inv.tiling
  have bases : h.alloc.memMapBasePfn = h'.alloc.memMapBasePfn := inv.base_eq.trans inv'.base_eq.symm
  refine ⟨fun b => tiling.mem_iff_maximal, fun same => ?_, fun same none none' => tiling.ext tiling' ?_⟩
  · have eq := tiling.ext tiling' same
    have lists : ∀ o < maxOrder, (L o).length = (L' o).length := fun o lt => by
      have members : ∀ i, i ∈ L o ↔ i ∈ L' o := fun i => by
        have hi := mem_blocks (s := h.alloc) (L := L) (i := i) (o := o)
        have hi' := mem_blocks (s := h'.alloc) (L := L') (i := i) (o := o)
        rw [← inv.owned.inv.freeBlocks_eq, eq] at hi
        rw [← inv'.owned.inv.freeBlocks_eq, show h'.alloc.blockAt i o = h.alloc.blockAt i o by
          simp only [blockAt, bases]] at hi'
        exact (and_congr_right_iff.1 (hi.symm.trans hi')) lt
      exact ((List.perm_ext_iff_of_nodup (inv.owned.inv.nodup lt) (inv'.owned.inv.nodup lt)).2 members).length_eq
    refine ⟨eq, fun o lt => ?_, ?_⟩
    · rw [inv.owned.inv.count o lt, inv'.owned.inv.count o lt, lists o lt]
    · rw [inv.owned.count, inv'.owned.count]
      exact Finset.sum_congr rfl fun o mem => by rw [lists o (Finset.mem_range.1 mem)]
  · -- with nothing held, the free frames are the seeded ones
    have free : ∀ {g : History} {M : Nat → List Nat}, Inv base pages g M → g.held = [] →
        cover g.alloc.freeBlocks = g.seeded := fun {g M} i none => by
      have owned := i.owned
      rw [none] at owned
      rw [i.owned.inv.freeBlocks_eq, owned.cover_idle]
    rw [free inv none, free inv' none', same]

/-- Taking two pages and giving them back restores the seeded free blocks. -/
theorem reachable_canonical_released :
    ∃ h h', Reachable 0x40001000 6 h ∧ Reachable 0x40001000 6 h' ∧
      h.alloc.freeBlocks = h'.alloc.freeBlocks := by
  have r : Reachable 0x40001000 6 _ := ⟨.zero, .tail .refl
    (.seed 0x40001000 0x40007000 (by decide) (by decide) (by simp [init]))⟩
  have r' : Reachable 0x40001000 6 _ := ⟨.zero, .tail (.tail (.tail .refl
    (.seed 0x40001000 0x40007000 (by decide) (by decide) (by simp [init]))) (.alloc 1))
    (.free 3 1 (by decide +kernel))⟩
  exact ⟨_, _, r, r', (reachable_canonical r r').2.2
    (seeded_congr (by decide +kernel) (by decide +kernel) _).symm rfl (by decide +kernel)⟩

end

end History

end MiaowOs
