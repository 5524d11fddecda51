import MiaowOs.Mm.SlabCalls
import Mathlib

/-!
# Runs of the slab allocator

A session is a state of the allocator with the live allocations of its clients. It
starts after the page allocator has been seeded and `kmem_cache_init` has run; its
steps are the calls of `kmalloc`, `kzalloc` and `kfree`, and writes of the clients
to what they hold. Every session stands for its live allocations (`Runs.stands`).
-/

namespace MiaowOs
open TwoWay Pow2 Bytes Chains PageAlloc SlabAlloc Relation

section
variable {s s' : SlabAlloc} {L P : Nat → List Nat} {slabs : List SlabPage} {large : List LargeBlock}
  {D : List (Nat × Nat)} {S : Set Nat} {p : SlabPage} {b : LargeBlock} {a : Allocation} {live live' : List Allocation}
  {i c o x size : Nat}

/-! ## Requests -/

/-- A slab of the cache has a free object. -/
def HasFreeObject (s : SlabAlloc) (cache : Nat) : Prop :=
  ∃ i < s.alloc.maxMapnr, (s.alloc.memMap i).isSlab = true ∧ (s.alloc.memMap i).slab = some cache ∧
    (s.alloc.memMap i).inuse < (s.caches cache).objects

/-- The requests that cannot be served. -/
def Refused (s : SlabAlloc) (size : Nat) : Prop :=
  size = 0 ∨ pageSize * 2 ^ (maxOrder - 1) < size ∨
    (kmallocMaxSize < size ∧ ¬ History.FreeRun s.alloc (leastOrder size)) ∨
    (size ≤ kmallocMaxSize ∧ ¬ HasFreeObject s (leastClass size) ∧ s.alloc.nrFreePages = 0)

/-- The counters of a slab page. -/
theorem SlabPage.Ok.counts (h : p.Ok s) : p.free.length + p.used.length = classCount p.cache := by
  have counts := h.objects.length_eq
  simpa only [objectsAt, List.length_range', List.length_append, List.length_map] using counts

namespace SlabInv

theorem slab_lt (h : SlabInv s L P slabs large D S) (mem : p ∈ slabs) : p.page < s.alloc.maxMapnr :=
  lt_maxMapnr (h.hand_slab mem).start_lt

theorem hasFreeObject_iff (h : SlabInv s L P slabs large D S) :
    HasFreeObject s c ↔ ∃ p ∈ slabs, p.cache = c ∧ p.free ≠ [] := by
  have room : ∀ p ∈ slabs, (s.alloc.memMap p.page).inuse < (s.caches p.cache).objects ↔ p.free ≠ [] := by
    intro p mem
    have ok := h.ok p mem
    have counts := ok.counts
    rw [ok.inuse, h.caches p.cache ok.cache, ← counts, ← List.length_pos_iff]
    show p.used.length < p.free.length + p.used.length ↔ 0 < p.free.length
    omega
  constructor
  · rintro ⟨i, lt, flag, cache, inuse⟩
    obtain ⟨p, mem, rfl⟩ := (h.flag i lt).1 flag
    have same : p.cache = c := Option.some_inj.1 ((h.ok p mem).slab.symm.trans cache)
    rw [← same] at inuse
    exact ⟨p, mem, same, (room p mem).1 inuse⟩
  · rintro ⟨p, mem, rfl, free⟩
    have lt := h.slab_lt mem
    exact ⟨p.page, lt, (h.flag _ lt).2 ⟨p, mem, rfl⟩, (h.ok p mem).slab, (room p mem).2 free⟩

theorem nrFreePages_eq_zero (h : SlabInv s L P slabs large D S) : s.alloc.nrFreePages = 0 ↔ ∀ k < maxOrder, L k = [] := by
  have count : s.alloc.nrFreePages = freeTotal L := h.owned.count
  rw [count, freeTotal, Finset.sum_eq_zero_iff]
  simp

theorem huge_iff : maxOrder ≤ leastOrder size ↔ pageSize * 2 ^ (maxOrder - 1) < size := by
  constructor
  · intro le
    exact lt_leastOrder (lt_of_lt_of_le (by decide) le)
  · intro lt
    by_contra less
    have grow := Nat.pow_le_pow_right (by decide : 0 < 2) (show leastOrder size ≤ maxOrder - 1 by omega)
    have := Nat.mul_le_mul_left pageSize grow
    have := le_leastOrder size
    omega

/-- **`kmalloc`** serves the requests that it can serve, and leaves everything as
it is otherwise. -/
theorem kmalloc (h : SlabInv s L P slabs large D S) (busy : ∀ p ∈ slabs, p.used ≠ []) (size : Nat) :
    s.kmalloc size = (s, 0) ∧ Refused s size ∨
      ¬ Refused s size ∧ Serves s (allocations slabs large) D S size (s.kmalloc size).1 (s.kmalloc size).2 := by
  rcases Nat.eq_zero_or_pos size with rfl | pos
  · exact .inl ⟨rfl, .inl rfl⟩
  by_cases big : kmallocMaxSize < size
  · have refused : Refused s size ↔ maxOrder ≤ leastOrder size ∨ ¬ History.FreeRun s.alloc (leastOrder size) := by
      rw [huge_iff]
      constructor
      · rintro (zero | huge | ⟨-, run⟩ | ⟨small, -⟩)
        · omega
        · exact .inl huge
        · exact .inr run
        · omega
      · rintro (huge | run)
        · exact .inr (.inl huge)
        · exact .inr (.inr (.inl ⟨big, run⟩))
    rw [refused]
    exact h.kmalloc_large busy big
  · have small : size ≤ kmallocMaxSize := Nat.le_of_not_lt big
    have value : s.kmalloc size = s.slabAlloc (leastClass size) := by
      rw [SlabAlloc.kmalloc, if_neg (by omega), if_neg big, (kmallocIndex_eq small).1]
    have refused : Refused s size ↔ ¬ HasFreeObject s (leastClass size) ∧ s.alloc.nrFreePages = 0 := by
      constructor
      · rintro (zero | huge | ⟨big', -⟩ | ⟨-, none⟩)
        · omega
        · simp only [pageSize, maxOrder, kmallocMaxSize] at *
          omega
        · exact (big big').elim
        · exact none
      · exact fun none => .inr (.inr (.inr ⟨small, none⟩))
    rw [refused, h.hasFreeObject_iff, h.nrFreePages_eq_zero, value]
    rcases h.slabAlloc busy pos small with ⟨run, noObject, noPage⟩ | ⟨some, serves⟩
    · refine .inl ⟨run, ?_, noPage⟩
      rintro ⟨p, mem, cache, free⟩
      exact free (noObject p mem cache)
    · refine .inr ⟨?_, serves⟩
      rintro ⟨noObject, noPage⟩
      rcases some with object | ⟨k, lt, page⟩
      · exact noObject object
      · exact page (noPage k lt)

/-- **`kfree`** frees one allocation. -/
theorem kfree (h : SlabInv s L P slabs large D S) (busy : ∀ p ∈ slabs, p.used ≠ []) (mem : a ∈ allocations slabs large) :
    Frees s (allocations slabs large) D S a (s.kfree a.addr) := by
  rcases mem_allocations.1 mem with ⟨p, memP, here⟩ | ⟨b, memB, rfl⟩
  · have front := List.perm_cons_erase memP
    obtain ⟨value, L', P', slabs', large', inv, busy', perm⟩ := (h.perm front (.refl _)).kfree_object
      (fun q there => busy q (List.mem_of_mem_erase there)) here
    refine ⟨⟨L', P', slabs', large', inv, busy', ?_⟩, fun x out => ?_⟩
    · have same := (allocations_perm front (.refl large)).erase a
      rw [allocations_cons, List.erase_append_left _ here] at same
      exact same.trans perm
    · rw [value]
      have wide := classSize_pos p.cache
      have room := h.roomSize_slab memP here
      apply slabFree_mem
      by_contra inside
      exact out ⟨by omega, by omega⟩
  · have front := List.perm_cons_erase memB
    obtain ⟨⟨L', P', slabs', large', inv, busy', perm⟩, same⟩ := (h.perm (.refl _) front).kfree_block busy
    refine ⟨⟨L', P', slabs', large', inv, busy', ?_⟩, fun x _ => congrFun same x⟩
    have split : (allocations slabs large).Perm (⟨b.addr, b.size⟩ :: allocations slabs (large.erase b)) :=
      (allocations_perm (.refl slabs) front).trans List.perm_middle
    have rest := split.erase ⟨b.addr, b.size⟩
    rw [List.erase_cons_head] at rest
    exact rest.trans perm

end SlabInv

/-! ## States and their allocations -/

theorem Stands.perm (h : Stands s live D S) (p : live.Perm live') : Stands s live' D S := by
  obtain ⟨L, P, slabs, large, inv, busy, perm⟩ := h
  exact ⟨L, P, slabs, large, inv, busy, p.symm.trans perm⟩

theorem Stands.kmalloc (h : Stands s live D S) (size : Nat) : s.kmalloc size = (s, 0) ∧ Refused s size ∨
    ¬ Refused s size ∧ Serves s live D S size (s.kmalloc size).1 (s.kmalloc size).2 := by
  obtain ⟨L, P, slabs, large, inv, busy, perm⟩ := h
  refine (inv.kmalloc busy size).imp_right fun ⟨served, serves⟩ => ⟨served, serves.nonnull, ?_, ?_⟩
  · exact serves.stands.perm (perm.symm.cons _)
  · exact fun a mem => serves.keeps a (perm.mem_iff.1 mem)

theorem Stands.kfree (h : Stands s live D S) (mem : a ∈ live) : Frees s live D S a (s.kfree a.addr) := by
  obtain ⟨L, P, slabs, large, inv, busy, perm⟩ := h
  have frees := inv.kfree busy (perm.mem_iff.1 mem)
  exact ⟨frees.stands.perm (perm.symm.erase a), frees.keeps⟩

/-- Writes to live allocations and to blocks held from the page allocator. -/
theorem Stands.write (h : Stands s live D S) (mem : Mem) (inside : ∀ x, mem x ≠ s.mem x → (∃ a ∈ live, a.Room x) ∨
    ∃ b ∈ D, (s.alloc.blockAt b.1 b.2).Mem (frameOf x)) : Stands { s with mem := mem } live D S := by
  obtain ⟨L, P, slabs, large, inv, busy, perm⟩ := h
  refine ⟨L, P, slabs, large, inv.write mem fun x changed => ?_, busy, perm⟩
  refine (inside x changed).imp_left ?_
  rintro ⟨a, here, room⟩
  exact ⟨a, perm.mem_iff.1 here, room⟩

/-- Without live allocations there are no slabs and no large blocks. -/
theorem Stands.none_live (h : Stands s [] D S) : ∃ L P, SlabInv s L P [] [] D S := by
  obtain ⟨L, P, slabs, large, inv, busy, perm⟩ := h
  have empty := perm.nil_eq
  have noSlabs : slabs = [] := by
    cases slabs with
    | nil => rfl
    | cons p slabs =>
      rw [allocations_cons] at empty
      exact (busy p List.mem_cons_self (List.append_eq_nil_iff.1 empty.symm).1).elim
  subst noSlabs
  have noLarge : large = [] := List.map_eq_nil_iff.1 empty.symm
  subst noLarge
  exact ⟨L, P, inv⟩

/-- With nothing held, every seeded frame is free. -/
theorem Stands.idle (h : Stands s [] [] S) : cover s.alloc.freeBlocks = S ∧ s.alloc.nrFreePages = S.ncard := by
  obtain ⟨L, P, inv⟩ := h.none_live
  have owned : Owned s.alloc L [] S := inv.owned
  rw [owned.count_free, owned.inv.freeBlocks_eq, owned.cover_idle]
  exact ⟨rfl, rfl⟩

/-- Live allocations do not overlap, and their bytes lie in seeded memory. -/
theorem Stands.apart (h : Stands s live D S) : live.Pairwise fun a b => ∀ x, a.Room x → ¬ b.Room x := by
  obtain ⟨L, P, slabs, large, inv, busy, perm⟩ := h
  exact (perm.symm.pairwise_iff fun apart x room room' => apart x room' room).1 inv.allocations_apart

theorem Stands.seeded (h : Stands s live D S) (mem : a ∈ live) (room : a.Room x) : x < 2 ^ 64 ∧ frameOf x ∈ S := by
  obtain ⟨L, P, slabs, large, inv, busy, perm⟩ := h
  obtain ⟨lt, frame, -⟩ := inv.allocation_frame (perm.mem_iff.1 mem) room
  exact ⟨lt, frame⟩

theorem Stands.aligned (h : Stands s live D S) (mem : a ∈ live) :
    (a.size ≤ kmallocMaxSize → classSize (leastClass a.size) ∣ a.addr) ∧ (kmallocMaxSize < a.size → pageSize ∣ a.addr) := by
  obtain ⟨L, P, slabs, large, inv, busy, perm⟩ := h
  rcases SlabInv.mem_allocations.1 (perm.mem_iff.1 mem) with ⟨p, memP, here⟩ | ⟨b, memB, rfl⟩
  · have ok := inv.ok p memP
    obtain ⟨-, small, index⟩ := ok.sizes a here
    refine ⟨fun _ => ?_, fun big => (Nat.not_lt.2 small big).elim⟩
    obtain ⟨low, -, apart⟩ := objectsAt_bounds ok.cache (inv.object_mem memP (.inr ⟨a, here, rfl⟩))
    have start := (SlabInv.block_address inv.owned inv.mapped (mem_heldPages_slab memP)).1
    have whole : classSize p.cache ∣ pageSize := ⟨_, (classes p.cache ok.cache).1.symm⟩
    have aligned : classSize p.cache ∣ s.alloc.pageAddress p.page := by
      rw [start]
      exact whole.trans (linear_dvd _)
    rw [index]
    exact (Nat.dvd_sub_iff_left low aligned).1 apart
  · have ok := inv.blocks b memB
    refine ⟨fun small => (Nat.not_lt.2 small ok.size).elim, fun _ => ?_⟩
    have start := (SlabInv.block_address inv.owned inv.mapped (mem_heldPages_large memB)).1
    show pageSize ∣ b.addr
    rw [ok.addr, start]
    exact linear_dvd _

/-- `kzalloc` returns what `kmalloc` returns. -/
theorem kzalloc_object (s : SlabAlloc) (size : Nat) : (s.kzalloc size).2 = (s.kmalloc size).2 := by
  unfold SlabAlloc.kzalloc
  generalize s.kmalloc size = result
  obtain ⟨s', object⟩ := result
  simp only []
  split <;> rfl

theorem kzalloc_null (none : (s.kmalloc size).2 = 0) : (s.kzalloc size).1 = (s.kmalloc size).1 := by
  unfold SlabAlloc.kzalloc
  generalize s.kmalloc size = result at none
  obtain ⟨s', object⟩ := result
  simp only [] at none
  simp only [none, ne_eq, not_true_eq_false, if_false]

theorem kzalloc_some (some : (s.kmalloc size).2 ≠ 0) : (s.kzalloc size).1 =
    { (s.kmalloc size).1 with mem := memset (s.kmalloc size).1.mem (s.kmalloc size).2 0 size } := by
  unfold SlabAlloc.kzalloc
  generalize s.kmalloc size = result at some
  obtain ⟨s', object⟩ := result
  simp only [] at some
  simp only [some, ne_eq, not_false_eq_true, if_true]

/-- **`kzalloc`** serves like `kmalloc` and clears the bytes asked for. -/
theorem Stands.kzalloc (h : Stands s live D S) (size : Nat) (served : ¬ Refused s size) :
    Serves s live D S size (s.kzalloc size).1 (s.kzalloc size).2 ∧
      ∀ x, (s.kzalloc size).2 ≤ x → x < (s.kzalloc size).2 + size → (s.kzalloc size).1.mem x = 0 := by
  rcases h.kmalloc size with ⟨-, refused⟩ | ⟨-, serves⟩
  · exact (served refused).elim
  have filled := memset_spec (s.kmalloc size).1.mem (s.kmalloc size).2 0 size
  rw [kzalloc_object, kzalloc_some serves.nonnull]
  refine ⟨⟨serves.nonnull, ?_, ?_⟩, fun x low high => ?_⟩
  · refine serves.stands.write _ fun x changed => .inl ⟨_, List.mem_cons_self, ?_⟩
    by_contra out
    apply changed
    exact (filled x).trans (if_neg fun inside => out (Allocation.Mem.room inside))
  · intro a mem x room
    have apart := (List.pairwise_cons.1 serves.stands.apart).1 a mem x
    refine Eq.trans ?_ (serves.keeps a mem x room)
    exact (filled x).trans (if_neg fun inside => apart (Allocation.Mem.room inside) room)
  · exact (filled x).trans (if_pos ⟨low, high⟩)

end

/-! ## Sessions -/

namespace History

/-- No page of the page allocator's histories is flagged as a slab. -/
theorem Reachable.plain {base pages : Nat} {h : History} (r : Reachable base pages h) :
    ∀ i < h.alloc.maxMapnr, (h.alloc.memMap i).isSlab = false := by
  obtain ⟨s, run⟩ := r
  induction run with
  | refl =>
    intro i lt
    have cleared : (init s base pages).alloc.memMap i = Page.zero := if_pos lt
    rw [cleared]
    rfl
  | @tail h₁ h₂ before step ih =>
    obtain ⟨L, inv⟩ : ∃ L, Inv base pages h₁ L := Reachable.owned ⟨s, before⟩
    have owned := inv.owned
    have touched : ∃ U, Touches U h₁.alloc h₂.alloc := by
      cases step with
      | seed start stop wrap word fresh =>
        obtain ⟨L', d, -⟩ := owned.seed start stop (not_seeded wrap fresh)
        exact ⟨_, d.touches⟩
      | alloc order =>
        rcases allocPages_spec owned.inv order with ⟨eq, -⟩ | ⟨i, c, s', L', eq, a⟩
        · simp only [eq]
          exact ⟨∅, .refl _ _⟩
        · simp only [eq]
          exact ⟨_, a.touches⟩
      | free page order mem =>
        obtain ⟨L', f, -⟩ := (owned.perm (List.perm_cons_erase mem)).free
        exact ⟨_, f.touches⟩
    obtain ⟨U, touches⟩ := touched
    intro i lt
    rw [touches.slab i]
    rw [touches.size] at lt
    exact ih i lt

end History

/-- The page allocator is ready for the slab allocator: memory has been handed
over, none of it is held, and address 0 is not an address of it. -/
structure BootNonnull (base pages : Nat) (h : History) : Prop where
  reachable : History.Reachable base pages h
  idle : h.held = []
  nonnull : ∀ x ∈ h.seeded, linear x ≠ 0

/-- Nor does a page of it end at the top of the addresses: `new_slab` compares with
the address behind the last object. -/
structure Boot (base pages : Nat) (h : History) : Prop extends BootNonnull base pages h where
  below : ∀ x ∈ h.seeded, linear x + pageSize < 2 ^ 64

/-- A state of the slab allocator with the live allocations. -/
structure Session where
  heap : SlabAlloc
  live : List Allocation

namespace Session

/-- After `free_area_init`, the seeding and `kmem_cache_init`. -/
def start (h : History) (caches : Nat → KmemCache) (mem : Mem) : Session :=
  ⟨SlabAlloc.kmemCacheInit ⟨h.alloc, caches, mem⟩, []⟩

/-- The live allocations after a request of `size` bytes. -/
def gain (live : List Allocation) (size object : Nat) : List Allocation :=
  if object = 0 then live else ⟨object, size⟩ :: live

/-- One call, or a write of the clients inside what they hold. -/
inductive Step : Session → Session → Prop where
  | kmalloc {r : Session} (size : Nat) :
      Step r ⟨(r.heap.kmalloc size).1, gain r.live size (r.heap.kmalloc size).2⟩
  | kzalloc {r : Session} (size : Nat) :
      Step r ⟨(r.heap.kzalloc size).1, gain r.live size (r.heap.kzalloc size).2⟩
  | kfree {r : Session} (a : Allocation) (mem : a ∈ r.live) : Step r ⟨r.heap.kfree a.addr, r.live.erase a⟩
  | kfreeNull {r : Session} : Step r ⟨r.heap.kfree 0, r.live⟩
  | write {r : Session} (mem : Mem) (inside : ∀ x, mem x ≠ r.heap.mem x → ∃ a ∈ r.live, a.Room x) :
      Step r ⟨{ r.heap with mem := mem }, r.live⟩

/-- The sessions after a boot. -/
def Runs (h : History) (r : Session) : Prop := ∃ caches mem, ReflTransGen Step (start h caches mem) r

variable {base pages : Nat} {h : History} {r r' : Session} {a b : Allocation} {D : List (Nat × Nat)} {S : Set Nat}
  {size : Nat}

theorem seeded_small (reachable : History.Reachable base pages h) {x : Nat} (mem : x ∈ h.seeded) : x * pageSize < 2 ^ 64 := by
  obtain ⟨L, inv⟩ := reachable.owned
  obtain ⟨-, range, here, -, high⟩ := mem
  have word := inv.word range here
  simp only [pageSize] at *
  omega

/-- **The start** stands for no allocations. -/
theorem start_stands (boot : Boot base pages h) (caches : Nat → KmemCache) (mem : Mem) :
    Stands (start h caches mem).heap [] [] h.seeded := by
  obtain ⟨L, inv⟩ := boot.reachable.owned
  have plain := boot.reachable.plain
  have owned := inv.owned
  have mapped : ∀ x ∈ h.seeded, InLinearMap x :=
    fun x seeded => ⟨seeded_small boot.reachable seeded, boot.nonnull x seeded, boot.below x seeded⟩
  rw [boot.idle] at owned
  have ready := kmemCacheInit_spec ⟨h.alloc, caches, mem⟩
  unfold start
  generalize SlabAlloc.kmemCacheInit ⟨h.alloc, caches, mem⟩ = s at ready
  have memMap : s.alloc.memMap = h.alloc.memMap := ready.memMap
  have size : s.alloc.maxMapnr = h.alloc.maxMapnr := ready.size
  refine ⟨L, fun _ => [], [], [], ⟨⟨ready.caches, ?_, ?_, ?_, ⟨ready.ring, ?_⟩, ?_⟩, ?_, mapped⟩, ?_, .refl _⟩
  · intro i lt
    rw [memMap, plain i (size ▸ lt)]
    simp
  · intro p absurd
    cases absurd
  · intro b absurd
    cases absurd
  · intro c _ c' _ i absurd
    cases absurd
  · intro c _ i
    simp
  · refine owned.congr ready.base size ready.nrFree ready.count ?_ ?_ ?_ ?_
    · exact fun j => by rw [memMap]
    · exact fun j _ => by rw [memMap]
    · exact fun o => ready.links _ (by simp)
    · exact fun j _ => ready.links _ (by simp)
  · intro p absurd
    cases absurd

/-- **Every step** keeps a state that stands for its live allocations. -/
theorem Step.stands (stands : Stands r.heap r.live D S) (step : Step r r') : Stands r'.heap r'.live D S := by
  cases step with
  | kmalloc size =>
    rcases stands.kmalloc size with ⟨run, -⟩ | ⟨-, serves⟩
    · rw [run]
      exact stands
    · rw [gain, if_neg serves.nonnull]
      exact serves.stands
  | kzalloc size =>
    rcases stands.kmalloc size with ⟨run, -⟩ | ⟨served, -⟩
    · have none : (r.heap.kmalloc size).2 = 0 := by rw [run]
      rw [kzalloc_object, kzalloc_null none, run]
      exact stands
    · have serves := (stands.kzalloc size served).1
      rw [gain, if_neg serves.nonnull]
      exact serves.stands
  | kfree a mem => exact (stands.kfree mem).stands
  | kfreeNull => exact stands
  | write mem inside => exact stands.write mem fun x changed => .inl (inside x changed)

/-- **Every session** stands for its live allocations. -/
theorem Runs.stands (boot : Boot base pages h) (run : Runs h r) : Stands r.heap r.live [] h.seeded := by
  obtain ⟨caches, mem, steps⟩ := run
  induction steps with
  | refl => exact start_stands boot caches mem
  | tail _ step ih => exact step.stands ih

/-! ## What the clients see -/

/-- The bytes of an allocation lie in seeded memory, and the pointer is a multiple
of its size class, or of the page size. -/
structure WellPlaced (h : History) (a : Allocation) : Prop where
  seeded : ∀ x, a.Mem x → x < 2 ^ 64 ∧ frameOf x ∈ h.seeded
  small : a.size ≤ kmallocMaxSize → classSize (leastClass a.size) ∣ a.addr
  large : kmallocMaxSize < a.size → pageSize ∣ a.addr

theorem wellPlaced (stands : Stands r.heap r.live D h.seeded) (mem : a ∈ r.live) : WellPlaced h a :=
  ⟨fun _ byte => stands.seeded mem byte.room, (stands.aligned mem).1, (stands.aligned mem).2⟩

/-- **Client safety.** The live allocations lie in seeded memory, aligned, and do
not overlap; the next one will not overlap any of them; no call changes a byte of
another live allocation; and `kzalloc` clears the bytes asked for. -/
theorem client_safety (boot : Boot base pages h) (run : Runs h r) :
    (∀ a ∈ r.live, WellPlaced h a) ∧ (r.live.Pairwise fun a b => ∀ x, a.Mem x → ¬ b.Mem x) ∧
    (∀ size, (r.heap.kmalloc size).2 ≠ 0 → WellPlaced h ⟨(r.heap.kmalloc size).2, size⟩ ∧
      ∀ a ∈ r.live, ∀ x, Allocation.Mem ⟨(r.heap.kmalloc size).2, size⟩ x → ¬ a.Mem x) ∧
    (∀ size, ∀ a ∈ r.live, ∀ x, a.Mem x → (r.heap.kmalloc size).1.mem x = r.heap.mem x ∧
      (r.heap.kzalloc size).1.mem x = r.heap.mem x) ∧
    (∀ a ∈ r.live, ∀ b ∈ r.live.erase a, ∀ x, b.Mem x → (r.heap.kfree a.addr).mem x = r.heap.mem x) ∧
    (r.heap.kfree 0).mem = r.heap.mem ∧
    ∀ size, (r.heap.kzalloc size).2 = (r.heap.kmalloc size).2 ∧ ((r.heap.kzalloc size).2 ≠ 0 →
      ∀ x, Allocation.Mem ⟨(r.heap.kzalloc size).2, size⟩ x → (r.heap.kzalloc size).1.mem x = 0) := by
  have stands := run.stands boot
  refine ⟨fun a mem => wellPlaced stands mem, ?_, ?_, ?_, ?_, rfl, ?_⟩
  · exact stands.apart.imp fun apart x byte byte' => apart x byte.room byte'.room
  · intro size some
    rcases stands.kmalloc size with ⟨refused, -⟩ | ⟨-, serves⟩
    · rw [refused] at some
      exact (some rfl).elim
    · have apart := (List.pairwise_cons.1 serves.stands.apart).1
      exact ⟨@wellPlaced h ⟨_, _⟩ _ _ serves.stands List.mem_cons_self,
        fun a mem x byte byte' => apart a mem x byte.room byte'.room⟩
  · intro size a mem x byte
    rcases stands.kmalloc size with ⟨refused, -⟩ | ⟨served, serves⟩
    · have none : (r.heap.kmalloc size).2 = 0 := by rw [refused]
      rw [kzalloc_null none, refused]
      exact ⟨rfl, rfl⟩
    · exact ⟨serves.keeps a mem x byte.room, (stands.kzalloc size served).1.keeps a mem x byte.room⟩
  · intro a mem b memB x byte
    apply (stands.kfree mem).keeps
    have apart := ((List.perm_cons_erase mem).pairwise_iff fun apart x room room' => apart x room' room).1 stands.apart
    exact fun room => (List.pairwise_cons.1 apart).1 b memB x room byte.room
  · intro size
    refine ⟨kzalloc_object _ _, fun some x byte => ?_⟩
    rcases stands.kmalloc size with ⟨refused, -⟩ | ⟨served, -⟩
    · rw [kzalloc_object, refused] at some
      exact (some rfl).elim
    · exact (stands.kzalloc size served).2 x byte.1 byte.2

/-- Six pages of RAM from an odd frame, as seeded at boot. -/
def sixPages : History :=
  ⟨((PageAlloc.zero.freeAreaInit 0x40001000 6).freeMemoryCore 0x40001000 0x40007000), [(0x40001000, 0x40007000)], []⟩

theorem sixPages_boot : Boot 0x40001000 6 sixPages where
  reachable := ⟨.zero, .tail .refl (.seed 0x40001000 0x40007000 (by decide) (by decide) (by simp [History.init]))⟩
  idle := rfl
  nonnull := by
    rintro x ⟨-, range, here, low, high⟩
    obtain rfl := List.mem_singleton.1 here
    simp only [linear, va, add64, sub64, pageOffset, physOffset, pageSize] at *
    omega
  below := by
    rintro x ⟨-, range, here, low, high⟩
    obtain rfl := List.mem_singleton.1 here
    simp only [linear, va, add64, sub64, pageOffset, physOffset, pageSize] at *
    omega

/-- The caches and the memory before they are set up. -/
def sixPagesStart : Session := start sixPages (fun _ => ⟨0, 0⟩) fun _ => 0

/-- After a request of 100 bytes and one of 5000. -/
def twoRequests : Session :=
  let r := sixPagesStart
  let r : Session := ⟨(r.heap.kmalloc 100).1, gain r.live 100 (r.heap.kmalloc 100).2⟩
  ⟨(r.heap.kmalloc 5000).1, gain r.live 5000 (r.heap.kmalloc 5000).2⟩

theorem twoRequests_runs : Runs sixPages twoRequests :=
  ⟨_, _, .tail (.tail .refl (.kmalloc 100)) (.kmalloc 5000)⟩

theorem client_safety_two : twoRequests.live.length = 2 ∧
    (twoRequests.live.Pairwise fun a b => ∀ x, a.Mem x → ¬ b.Mem x) :=
  ⟨by decide +kernel, (client_safety sixPages_boot twoRequests_runs).2.1⟩

/-- **`kmalloc` fails exactly when it must**, and changes nothing then. -/
theorem kmalloc_fails_iff (boot : Boot base pages h) (run : Runs h r) (size : Nat) :
    ((r.heap.kmalloc size).2 = 0 ↔ Refused r.heap size) ∧
      ((r.heap.kmalloc size).2 = 0 → (r.heap.kmalloc size).1 = r.heap) := by
  rcases (run.stands boot).kmalloc size with ⟨eq, refused⟩ | ⟨served, serves⟩
  · rw [eq]
    exact ⟨⟨fun _ => refused, fun _ => rfl⟩, fun _ => rfl⟩
  · exact ⟨⟨fun null => (serves.nonnull null).elim, fun refused => (served refused).elim⟩,
      fun null => (serves.nonnull null).elim⟩

/-- A third request of two megabytes fails. -/
theorem kmalloc_fails_two : (twoRequests.heap.kmalloc 0x200000).2 = 0 ∧ Refused twoRequests.heap 0x200000 := by
  have null : (twoRequests.heap.kmalloc 0x200000).2 = 0 := by decide +kernel
  exact ⟨null, (kmalloc_fails_iff sixPages_boot twoRequests_runs 0x200000).1.1 null⟩

/-- The page of the linear map that ends at the top of the addresses. There the end of
the loop of `new_slab` wraps around to null, and the slab gets one object. -/
def topPage : History :=
  ⟨(PageAlloc.zero.freeAreaInit 0x403ffff000 1).freeMemoryCore 0x403ffff000 0x4040000000,
    [(0x403ffff000, 0x4040000000)], []⟩

theorem topPage_boot : BootNonnull 0x403ffff000 1 topPage where
  reachable := ⟨.zero, .tail .refl (.seed 0x403ffff000 0x4040000000 (by decide) (by decide) (by simp [History.init]))⟩
  idle := rfl
  nonnull := by
    rintro x ⟨-, range, here, low, high⟩
    obtain rfl := List.mem_singleton.1 here
    simp only [linear, va, add64, sub64, pageOffset, physOffset, pageSize] at *
    omega

/-- After a request of 16 bytes there. -/
def oneObject : Session :=
  let r := start topPage (fun _ => ⟨0, 0⟩) fun _ => 0
  ⟨(r.heap.kmalloc 16).1, gain r.live 16 (r.heap.kmalloc 16).2⟩

theorem oneObject_runs : Runs topPage oneObject := ⟨_, _, .tail .refl (.kmalloc 16)⟩

/-- There a second request of 16 bytes fails, though 255 objects of the slab are not in use. -/
theorem kmalloc_fails_top : BootNonnull 0x403ffff000 1 topPage ∧ Runs topPage oneObject ∧
    (oneObject.heap.kmalloc 16).2 = 0 ∧ ¬ Refused oneObject.heap 16 := by
  refine ⟨topPage_boot, oneObject_runs, by decide +kernel, ?_⟩
  have free : HasFreeObject oneObject.heap (leastClass 16) :=
    ⟨0, by decide +kernel, by decide +kernel, by decide +kernel, by decide +kernel⟩
  rintro (zero | big | ⟨large, -⟩ | ⟨-, none, -⟩)
  · exact absurd zero (by decide)
  · exact absurd big (by decide)
  · exact absurd large (by decide)
  · exact none free

/-! ## The representation -/

/-- A slab page of cache `c`: its counter, its chain of free objects, and its place
on the partial lists. -/
structure SlabPageOk (s : SlabAlloc) (live : List Allocation) (L P : Nat → List Nat) (i c : Nat) : Prop where
  cache : (s.alloc.memMap i).slab = some c
  busy : 0 < (s.alloc.memMap i).inuse
  fits : (s.alloc.memMap i).inuse ≤ (s.caches c).objects
  /-- The chain from `freelist` ends with null, has no duplicates, and consists of
  the objects of the page that are not live. -/
  chain : ∃ free, Chain (getFreepointer s.mem) 0 (s.alloc.memMap i).freelist free ∧ free.Nodup ∧
    free.length = (s.caches c).objects - (s.alloc.memMap i).inuse ∧
    ∀ o, o ∈ free ↔ (∃ k < (s.caches c).objects, o = s.alloc.pageAddress i + (s.caches c).size * k) ∧
      ∀ a ∈ live, a.addr ≠ o
  listed : (s.alloc.memMap i).inuse < (s.caches c).objects → (P c).count i = 1
  elsewhere : ∀ c' < kmallocCaches, i ∈ P c' → c' = c ∧ (s.alloc.memMap i).inuse < (s.caches c).objects
  taken : ∀ o < maxOrder, i ∉ L o

/-- The free lists hold `L`, the partial lists `P`, and the descriptors of the slab
pages agree with the live allocations. -/
structure SlabRepresentation (s : SlabAlloc) (live : List Allocation) (L P : Nat → List Nat) : Prop where
  /-- `PAGE_SLAB` marks the pages that hold live objects of the size classes. -/
  flag : ∀ i < s.alloc.maxMapnr, (s.alloc.memMap i).isSlab = true ↔
    ∃ a ∈ live, a.size ≤ kmallocMaxSize ∧ s.alloc.virtToPage a.addr = i
  page : ∀ i < s.alloc.maxMapnr, (s.alloc.memMap i).isSlab = true → ∃ c < kmallocCaches, SlabPageOk s live L P i c
  freeRing : ∀ o < maxOrder, Ring s.alloc.links (.freeList o) ((L o).map .lru)
  partialRing : ∀ c < kmallocCaches, Ring s.alloc.links (.cachePartial c) ((P c).map .lru)
  /-- A page on a partial list backs a slab, and is on no free list. -/
  members : ∀ c < kmallocCaches, ∀ i ∈ P c, i < s.alloc.maxMapnr ∧ (s.alloc.memMap i).isSlab = true ∧
    ∀ o < maxOrder, i ∉ L o

end Session

section
variable {s : SlabAlloc} {L P : Nat → List Nat} {slabs : List SlabPage} {large : List LargeBlock}
  {D : List (Nat × Nat)} {S : Set Nat} {p : SlabPage} {live : List Allocation} {i o : Nat}

namespace SlabInv

/-- The pages with a live object of a size class are the slab pages. -/
theorem page_iff (h : SlabInv s L P slabs large D S) (busy : ∀ p ∈ slabs, p.used ≠ []) :
    (∃ a ∈ allocations slabs large, a.size ≤ kmallocMaxSize ∧ s.alloc.virtToPage a.addr = i) ↔
      ∃ p ∈ slabs, p.page = i := by
  constructor
  · rintro ⟨a, mem, small, page⟩
    rcases mem_allocations.1 mem with ⟨p, memP, here⟩ | ⟨b, memB, rfl⟩
    · exact ⟨p, memP, (h.virtToPage_used memP here).symm.trans page⟩
    · exact (Nat.not_lt.2 small (h.blocks b memB).size).elim
  · rintro ⟨p, memP, page⟩
    obtain ⟨a, here⟩ := List.exists_mem_of_ne_nil _ (busy p memP)
    refine ⟨a, mem_allocations.2 (.inl ⟨p, memP, here⟩), ((h.ok p memP).sizes a here).2.1, ?_⟩
    rw [h.virtToPage_used memP here, page]

/-- The free objects of a page are those that are not live. -/
theorem free_iff (h : SlabInv s L P slabs large D S) (mem : p ∈ slabs) :
    o ∈ p.free ↔ o ∈ objectsAt (s.alloc.pageAddress p.page) p.cache ∧ ∀ a ∈ allocations slabs large, a.addr ≠ o := by
  constructor
  · intro free
    refine ⟨h.object_mem mem (.inl free), ?_⟩
    rintro a memA rfl
    have room : a.Room a.addr := ⟨le_rfl, Nat.lt_add_of_pos_right (roomSize_pos _)⟩
    have wide := classSize_pos p.cache
    have := h.free_apart mem free memA room
    omega
  · rintro ⟨object, dead⟩
    rw [← (h.ok p mem).objects.mem_iff, List.mem_append, List.mem_map] at object
    rcases object with free | ⟨a, here, addr⟩
    · exact free
    · exact (dead a (mem_allocations.2 (.inl ⟨p, mem, here⟩)) addr).elim

theorem slab_not_listed (h : SlabInv s L P slabs large D S) (mem : p ∈ slabs) : ∀ o < maxOrder, p.page ∉ L o :=
  fun _ lt => not_listed (h.not_free mem) lt

/-- There are as many pages with a live object of a size class as slabs. -/
theorem ncard_slab_pages (h : SlabInv s L P slabs large D S) (busy : ∀ p ∈ slabs, p.used ≠ []) :
    {i | ∃ a ∈ allocations slabs large, a.size ≤ kmallocMaxSize ∧ s.alloc.virtToPage a.addr = i}.ncard = slabs.length := by
  have same : {i | ∃ a ∈ allocations slabs large, a.size ≤ kmallocMaxSize ∧ s.alloc.virtToPage a.addr = i} =
      ((slabs.map (·.page)).toFinset : Set Nat) := by
    ext i
    simp only [List.coe_toFinset, List.mem_map]
    exact h.page_iff busy
  have nodup : (slabs.map (·.page)).Nodup := by
    refine List.pairwise_map.2 (h.blocks_apart.1.imp fun {p q} apart page => ?_)
    rw [page] at apart
    exact apart _ (Block.start_mem _) (Block.start_mem _)
  rw [same, Set.ncard_coe_finset, List.toFinset_card_of_nodup nodup, List.length_map]

/-- The allocations above the size classes are the large blocks. -/
theorem sum_large_orders (h : SlabInv s L P slabs large D S) :
    (((allocations slabs large).filter fun a => kmallocMaxSize < a.size).map fun a => 2 ^ leastOrder a.size).sum =
      (large.map fun b => 2 ^ leastOrder b.size).sum := by
  have none : (slabs.flatMap (·.used)).filter (fun a => kmallocMaxSize < a.size) = [] := by
    rw [List.filter_eq_nil_iff]
    intro a mem big
    obtain ⟨p, memP, here⟩ := List.mem_flatMap.1 mem
    exact Nat.not_lt.2 ((h.ok p memP).sizes a here).2.1 (of_decide_eq_true big)
  have all : (large.map fun b => (⟨b.addr, b.size⟩ : Allocation)).filter (fun a => kmallocMaxSize < a.size) =
      large.map fun b => ⟨b.addr, b.size⟩ := by
    rw [List.filter_eq_self]
    intro a mem
    obtain ⟨b, memB, rfl⟩ := List.mem_map.1 mem
    exact decide_eq_true (h.blocks b memB).size
  rw [allocations, List.filter_append, none, all, List.nil_append, List.map_map]
  rfl

/-- A page is the page of one slab only. -/
theorem page_unique (h : SlabInv s L P slabs large D S) {q : SlabPage} (memP : p ∈ slabs) (memQ : q ∈ slabs)
    (same : q.page = p.page) : q = p := by
  by_contra ne
  have front := h.perm (List.perm_cons_erase memP) (.refl large)
  exact front.page_ne ((List.mem_erase_of_ne ne).2 memQ) same

theorem slabPageOk (h : SlabInv s L P slabs large D S) (busy : ∀ p ∈ slabs, p.used ≠ [])
    (perm : live.Perm (allocations slabs large)) (mem : p ∈ slabs) : Session.SlabPageOk s live L P p.page p.cache := by
  have ok := h.ok p mem
  have counts := ok.counts
  have cache := h.caches p.cache ok.cache
  have inuse := ok.inuse
  have objects : (s.caches p.cache).objects = p.free.length + p.used.length := by rw [cache, counts]
  have partial_iff : ∀ c < kmallocCaches, p.page ∈ P c ↔ p.cache = c ∧ p.free ≠ [] := by
    intro c lt
    rw [h.listed c lt]
    constructor
    · rintro ⟨q, memQ, page, rest⟩
      rw [h.page_unique mem memQ page] at rest
      exact rest
    · exact fun rest => ⟨p, mem, rfl, rest⟩
  constructor
  · exact ok.slab
  · rw [inuse]
    exact List.length_pos_of_ne_nil (busy p mem)
  · omega
  · refine ⟨p.free, ok.chain, (List.nodup_append.1 (h.objects_nodup mem)).1, by omega, fun o => ?_⟩
    rw [h.free_iff mem, mem_objectsAt, cache]
    simp only [perm.mem_iff]
  · intro room
    have free : p.free ≠ [] := List.length_pos_iff.1 (by omega)
    exact List.count_eq_one_of_mem (h.partials.nodup ok.cache) ((partial_iff _ ok.cache).2 ⟨rfl, free⟩)
  · intro c lt listed
    obtain ⟨same, free⟩ := (partial_iff c lt).1 listed
    have := List.length_pos_of_ne_nil free
    exact ⟨same.symm, by omega⟩
  · exact h.slab_not_listed mem

end SlabInv

end

namespace Session
variable {base pages : Nat} {h : History} {r r' : Session}

/-- **Slab representation invariant**, after every run. -/
theorem slab_representation (boot : Boot base pages h) (run : Runs h r) :
    ∃ L P, SlabRepresentation r.heap r.live L P := by
  obtain ⟨L, P, slabs, large, inv, busy, perm⟩ := run.stands boot
  refine ⟨L, P, ?_, ?_, inv.owned.inv.ring, inv.partials.ring, ?_⟩
  · intro i lt
    rw [inv.flag i lt, ← inv.page_iff busy]
    simp only [perm.mem_iff]
  · intro i lt flag
    obtain ⟨p, mem, rfl⟩ := (inv.flag i lt).1 flag
    exact ⟨p.cache, (inv.ok p mem).cache, inv.slabPageOk busy perm mem⟩
  · intro c lt i listed
    obtain ⟨p, mem, rfl⟩ := inv.partial_page lt listed
    have here := inv.slab_lt mem
    exact ⟨here, (inv.flag _ here).2 ⟨p, mem, rfl⟩, inv.slab_not_listed mem⟩

theorem slab_representation_two : twoRequests.live.length = 2 ∧ ∃ L P, SlabRepresentation twoRequests.heap twoRequests.live L P :=
  ⟨by decide +kernel, slab_representation sixPages_boot twoRequests_runs⟩

/-- On the page at the top, the chain of the slab is empty after one request, not of 255 objects. -/
theorem slab_representation_top : BootNonnull 0x403ffff000 1 topPage ∧ Runs topPage oneObject ∧
    ¬ ∃ L P, SlabRepresentation oneObject.heap oneObject.live L P := by
  refine ⟨topPage_boot, oneObject_runs, ?_⟩
  rintro ⟨L, P, represents⟩
  have slab : (oneObject.heap.alloc.memMap 0).isSlab = true := by decide +kernel
  have one : 0 < oneObject.heap.alloc.maxMapnr := by decide +kernel
  obtain ⟨c, -, page⟩ := represents.page 0 one slab
  have cache : (oneObject.heap.alloc.memMap 0).slab = some 0 := by decide +kernel
  obtain rfl : c = 0 := Option.some_inj.1 (page.cache.symm.trans cache)
  obtain ⟨free, chain, -, count, -⟩ := page.chain
  have last : (oneObject.heap.alloc.memMap 0).freelist = 0 := by decide +kernel
  have rest : (oneObject.heap.caches 0).objects - (oneObject.heap.alloc.memMap 0).inuse = 255 := by decide +kernel
  have none := chain.null_iff.1 last
  rw [none, rest] at count
  cases count

/-! ## Page accounting -/

/-- **Page accounting.** The seeded pages that are not free are the slab pages with a
live object and the blocks of the live large allocations, whose descriptors still
hold their orders; with nothing live, the free blocks are those before the run. -/
theorem page_accounting (boot : Boot base pages h) (run : Runs h r) :
    h.seeded.ncard - r.heap.alloc.nrFreePages =
      {i | ∃ a ∈ r.live, a.size ≤ kmallocMaxSize ∧ r.heap.alloc.virtToPage a.addr = i}.ncard +
        ((r.live.filter fun a => kmallocMaxSize < a.size).map fun a => 2 ^ leastOrder a.size).sum ∧
    r.heap.alloc.nrFreePages ≤ h.seeded.ncard ∧
    (∀ a ∈ r.live, kmallocMaxSize < a.size →
      (r.heap.alloc.memMap (r.heap.alloc.virtToPage a.addr)).order = leastOrder a.size ∧
      (r.heap.alloc.memMap (r.heap.alloc.virtToPage a.addr)).isSlab = false) ∧
    (r.live = [] → r.heap.alloc.freeBlocks = h.alloc.freeBlocks) := by
  obtain ⟨L, P, slabs, large, inv, busy, perm⟩ := run.stands boot
  obtain ⟨finite, counted⟩ := inv.owned.count_seeded
  have slabPages : {i | ∃ a ∈ r.live, a.size ≤ kmallocMaxSize ∧ r.heap.alloc.virtToPage a.addr = i}.ncard =
      slabs.length := by
    simp only [perm.mem_iff]
    exact inv.ncard_slab_pages busy
  have largePages : ((r.live.filter fun a => kmallocMaxSize < a.size).map fun a => 2 ^ leastOrder a.size).sum =
      (large.map fun b => 2 ^ leastOrder b.size).sum := by
    rw [((perm.filter _).map _).sum_eq]
    exact inv.sum_large_orders
  have held : ((heldPages slabs large ++ []).map fun b : Nat × Nat => 2 ^ b.2).sum =
      slabs.length + (large.map fun b => 2 ^ leastOrder b.size).sum := by
    rw [List.append_nil, heldPages, List.map_append, List.sum_append, List.map_map, List.map_map]
    congr 1
    simp [Function.comp_def]
  rw [slabPages, largePages]
  refine ⟨by omega, by omega, ?_, ?_⟩
  · intro a mem big
    rcases SlabInv.mem_allocations.1 (perm.mem_iff.1 mem) with ⟨p, memP, here⟩ | ⟨b, memB, rfl⟩
    · exact (Nat.not_lt.2 ((inv.ok p memP).sizes a here).2.1 big).elim
    · simp only [inv.virtToPage_large memB]
      exact ⟨(inv.blocks b memB).order, inv.large_plain memB⟩
  · intro none
    have stands := run.stands boot
    rw [none] at stands
    obtain ⟨L₁, P₁, inv₁⟩ := stands.none_live
    obtain ⟨L₀, inv₀⟩ := boot.reachable.owned
    have owned₁ : Owned r.heap.alloc L₁ [] h.seeded := inv₁.owned
    have owned₀ := inv₀.owned
    rw [boot.idle] at owned₀
    rw [owned₁.inv.freeBlocks_eq, owned₀.inv.freeBlocks_eq]
    apply owned₁.inv.tiling.ext owned₀.inv.tiling
    rw [owned₁.cover_idle, owned₀.cover_idle]

theorem page_accounting_two : twoRequests.live.length = 2 ∧
    (∀ a ∈ twoRequests.live, kmallocMaxSize < a.size →
      (twoRequests.heap.alloc.memMap (twoRequests.heap.alloc.virtToPage a.addr)).order = leastOrder a.size ∧
      (twoRequests.heap.alloc.memMap (twoRequests.heap.alloc.virtToPage a.addr)).isSlab = false) :=
  ⟨by decide +kernel, (page_accounting sixPages_boot twoRequests_runs).2.2.1⟩

end Session

end MiaowOs
