import MiaowOs.Mm.Buddy
import Mathlib.Data.List.Flatten

/-!
# Ownership of the seeded pages

`Owned s L H S` is the invariant of a page allocator with clients: the frames
`S` were handed over, `H` lists the blocks held by clients, and every frame of
`S` is either in one held block or in one free block. The free count is then
the number of free frames. `alloc_pages`, `__free_pages` and
`__free_memory_core` keep it; so does a client that writes the descriptors of
the pages it holds (`Owned.congr`).
-/

namespace MiaowOs
open TwoWay Pow2

namespace PageAlloc

section
variable {s s' : PageAlloc} {L : Nat → List Nat} {i o : Nat}

/-! ## Counting free frames -/

/-- The free blocks in list form. -/
def blockList (s : PageAlloc) (L : Nat → List Nat) : List Block :=
  (List.range maxOrder).flatMap fun o => (L o).map fun i => s.blockAt i o

theorem mem_blockList {b : Block} : b ∈ s.blockList L ↔ b ∈ s.blocks L := by
  simp only [blockList, List.mem_flatMap, List.mem_range, List.mem_map, blocks, Set.mem_ofPred_eq]
  constructor
  · rintro ⟨o, lt, i, mem, rfl⟩
    exact ⟨lt, i, mem, rfl⟩
  · rintro ⟨lt, i, mem, eq⟩
    exact ⟨b.order, lt, i, mem, eq.symm⟩

theorem blockList_nodup (h : FreeInv s L) : (s.blockList L).Nodup := by
  refine List.nodup_flatMap.2 ⟨fun o lt => ?_, ?_⟩
  · refine (h.nodup (List.mem_range.1 lt)).map fun i j eq => ?_
    have : s.memMapBasePfn + i = s.memMapBasePfn + j := congrArg Block.start eq
    omega
  · refine List.nodup_range.imp fun {o o'} ne b hb hb' => ne ?_
    obtain ⟨i, -, rfl⟩ := List.mem_map.1 hb
    obtain ⟨j, -, eq⟩ := List.mem_map.1 hb'
    exact (congrArg Block.order eq).symm

theorem blockList_apart (h : FreeInv s L) : (s.blockList L).Pairwise Block.Apart :=
  (blockList_nodup h).pairwise_of_forall_ne fun b hb c hc ne =>
    h.tiling.apart b (mem_blockList.1 hb) c (mem_blockList.1 hc) ne

theorem blockList_sum (s : PageAlloc) (L : Nat → List Nat) :
    ((s.blockList L).map fun b => 2 ^ b.order).sum = freeTotal L := by
  have each : ∀ o, (((L o).map fun i => s.blockAt i o).map fun b => 2 ^ b.order).sum = 2 ^ o * (L o).length :=
    fun o => by simp [blockAt, Function.comp_def, Nat.mul_comm]
  rw [blockList, List.map_flatMap, List.flatMap_def, List.sum_flatten, List.map_map, freeTotal]
  simp only [Function.comp_def, each]
  rfl

theorem cover_blockList : cover {b | b ∈ s.blockList L} = cover (s.blocks L) := by
  simp only [mem_blockList, Set.ofPred_mem_eq]

/-- The lists hold as many pages as there are covered frames. -/
theorem FreeInv.ncard_cover (h : FreeInv s L) :
    (cover (s.blocks L)).Finite ∧ (cover (s.blocks L)).ncard = freeTotal L := by
  rw [← cover_blockList, ← blockList_sum s L]
  exact Pow2.ncard_cover (blockList_apart h)

theorem FreeInv.freeTotal_lt (h : FreeInv s L) : freeTotal L < 2 ^ 64 := by
  have sub : cover (s.blocks L) ⊆ Set.Ico s.memMapBasePfn s.mapEnd := fun x hx => h.cover_managed hx
  have card := Set.ncard_le_ncard sub (Set.finite_Ico _ _)
  rw [h.ncard_cover.2, ← Finset.coe_Ico, Set.ncard_coe_finset, Nat.card_Ico] at card
  have := s.mapEnd_lt
  omega

/-! ## The invariant -/

/-- The blocks of a list of held `(page, order)` pairs. -/
def heldBlocks (s : PageAlloc) (H : List (Nat × Nat)) : List Block := H.map fun b => s.blockAt b.1 b.2

/-- The frames `S` were handed over; `H` are the held blocks, `L` the free
lists, and together they hold every frame of `S` once. -/
structure Owned (s : PageAlloc) (L : Nat → List Nat) (H : List (Nat × Nat)) (S : Set Nat) : Prop where
  inv : FreeInv s L
  count : s.freeCount = freeTotal L
  hand : ∀ b ∈ H, InHand s L b.1 b.2
  apart : (s.heldBlocks H).Pairwise Block.Apart
  share : ∀ x, x ∈ S ↔ x ∈ cover {b | b ∈ s.heldBlocks H} ∨ x ∈ cover (s.blocks L)

theorem heldBlocks_congr (h : s'.memMapBasePfn = s.memMapBasePfn) (H : List (Nat × Nat)) :
    s'.heldBlocks H = s.heldBlocks H := by
  simp only [heldBlocks, blockAt, h]

theorem cover_heldBlocks_cons {H : List (Nat × Nat)} {x : Nat} :
    x ∈ cover {b | b ∈ s.heldBlocks ((i, o) :: H)} ↔
      (s.blockAt i o).Mem x ∨ x ∈ cover {b | b ∈ s.heldBlocks H} := by
  rw [heldBlocks, List.map_cons, cover_cons]
  rfl

/-- A block in hand stays in hand while the free lists keep off it. -/
theorem InHand.of_cover {L' : Nat → List Nat} (b : InHand s L i o) (base : s'.memMapBasePfn = s.memMapBasePfn)
    (size : s'.maxMapnr = s.maxMapnr)
    (out : ∀ x, (s.blockAt i o).Mem x → x ∉ cover (s'.blocks L')) : InHand s' L' i o where
  lt := b.lt
  aligned := by simpa only [blockAt, base] using b.aligned
  inside := by simpa only [mapEnd, base, size] using b.inside
  apart c hc x hx hx' := out x (by simpa only [blockAt, base] using hx) ⟨c, hc, hx'⟩

/-- A block in hand shares no frame with the free blocks. -/
theorem InHand.not_cover (b : InHand s L i o) {x : Nat} (hx : (s.blockAt i o).Mem x) :
    x ∉ cover (s.blocks L) := by
  rintro ⟨c, hc, hx'⟩
  exact b.apart c hc x hx hx'

/-- Two held blocks with a common frame are the same list entry. -/
theorem apart_of_pairwise_cons {b : Block} {bs : List Block} (h : (b :: bs).Pairwise Block.Apart) {c : Block}
    (hc : c ∈ bs) {x : Nat} (hx : b.Mem x) : ¬ c.Mem x :=
  (List.pairwise_cons.1 h).1 c hc x hx

namespace Owned
variable {H : List (Nat × Nat)} {S : Set Nat}

theorem managed (h : Owned s L H S) {x : Nat} (hx : x ∈ S) : s.memMapBasePfn ≤ x ∧ x < s.mapEnd := by
  rcases (h.share x).1 hx with ⟨b, hb, hx⟩ | hx
  · obtain ⟨p, hp, rfl⟩ := List.mem_map.1 hb
    have inside := (h.hand p hp).inside
    have hx : (s.blockAt p.1 p.2).Mem x := hx
    rw [blockAt_mem] at hx
    omega
  · exact h.inv.cover_managed hx

/-- The free count is the number of free frames. -/
theorem count_free (h : Owned s L H S) : s.nrFreePages = (cover (s.blocks L)).ncard := by
  rw [h.inv.ncard_cover.2]
  exact h.count

/-- The seeded frames are the free ones and those of the held blocks. -/
theorem count_seeded (h : Owned s L H S) :
    S.Finite ∧ S.ncard = s.nrFreePages + (H.map fun b => 2 ^ b.2).sum := by
  obtain ⟨finFree, cardFree⟩ := h.inv.ncard_cover
  obtain ⟨finHeld, cardHeld⟩ := Pow2.ncard_cover h.apart
  have union : S = cover {b | b ∈ s.heldBlocks H} ∪ cover (s.blocks L) := by
    ext x; exact h.share x
  have dis : Disjoint (cover {b | b ∈ s.heldBlocks H}) (cover (s.blocks L)) := by
    rw [Set.disjoint_left]
    rintro x ⟨b, hb, hx⟩ hx'
    obtain ⟨p, hp, rfl⟩ := List.mem_map.1 hb
    exact (h.hand p hp).not_cover hx hx'
  have sizes : ((s.heldBlocks H).map fun b => 2 ^ b.order).sum = (H.map fun b => 2 ^ b.2).sum := by
    simp only [heldBlocks, List.map_map, Function.comp_def, blockAt]
  refine ⟨union ▸ finHeld.union finFree, ?_⟩
  rw [union, Set.ncard_union_eq dis finHeld finFree, cardHeld, cardFree, sizes]
  have count : s.nrFreePages = freeTotal L := h.count
  omega

/-- With nothing held, every seeded frame is free. -/
theorem cover_idle (h : Owned s L [] S) : cover (s.blocks L) = S := by
  ext x
  rw [h.share x]
  simp [heldBlocks, cover]

/-- The held blocks may be listed in any order. -/
theorem perm {H' : List (Nat × Nat)} (h : Owned s L H S) (p : H.Perm H') : Owned s L H' S where
  inv := h.inv
  count := h.count
  hand b hb := h.hand b (p.mem_iff.2 hb)
  apart := (List.Perm.pairwise_iff (fun q => q.symm) (p.map _)).1 h.apart
  share x := by
    have same : {b | b ∈ s.heldBlocks H'} = {b | b ∈ s.heldBlocks H} := by
      ext b; exact (p.map _).mem_iff.symm
    rw [h.share x, same]

/-- **`alloc_pages`** moves one block from the free lists to the held ones. -/
theorem alloc (h : Owned s L H S) {order c : Nat} {L' : Nat → List Nat} (a : Allocated s L order i c s' L') :
    Owned s' L' ((i, order) :: H) S := by
  have base := a.touches.base
  have bound := h.inv.freeTotal_lt
  have total := a.total
  have sub : ∀ x, x ∈ cover (s'.blocks L') → x ∈ cover (s.blocks L) := fun x hx => (a.cover x).2 (.inr hx)
  have block : s'.blockAt i order = s.blockAt i order := by simp only [blockAt, base]
  refine ⟨a.inv, ?_, ?_, ?_, fun x => ?_⟩
  · rw [a.count, h.count, sub64_of_le (by omega) bound]
    omega
  · intro b hb
    rcases List.mem_cons.1 hb with rfl | hb
    · exact a.hand
    · exact (h.hand b hb).of_cover base a.touches.size fun x hx hx' => (h.hand b hb).not_cover hx (sub x hx')
  · rw [heldBlocks_congr base, heldBlocks, List.map_cons]
    refine List.pairwise_cons.2 ⟨fun c hc x hx hx' => ?_, h.apart⟩
    obtain ⟨p, hp, rfl⟩ := List.mem_map.1 hc
    exact (h.hand p hp).not_cover hx' ((a.cover x).2 (.inl hx))
  · rw [h.share x, a.cover x, heldBlocks_congr base, cover_heldBlocks_cons, or_left_comm, or_assoc]

/-- **`__free_pages`** moves a held block back to the free lists. -/
theorem free (h : Owned s L ((i, o) :: H) S) :
    ∃ L', Freed s L i o (s.freePages i o) L' ∧ Owned (s.freePages i o) L' H S := by
  have hand := h.hand (i, o) List.mem_cons_self
  obtain ⟨L', f, count⟩ := freePages_spec h.inv hand
  have base := f.touches.base
  have bound := f.inv.freeTotal_lt
  have total := f.total
  refine ⟨L', f, f.inv, ?_, ?_, ?_, fun x => ?_⟩
  · rw [count, h.count, add64_of_lt (by omega), f.total]
  · intro b hb
    refine (h.hand b (List.mem_cons_of_mem _ hb)).of_cover base f.touches.size fun x hx hx' => ?_
    rcases (f.cover x).1 hx' with q | q
    · exact apart_of_pairwise_cons h.apart (List.mem_map_of_mem hb) q hx
    · exact (h.hand b (List.mem_cons_of_mem _ hb)).not_cover hx q
  · rw [heldBlocks_congr base]
    exact (List.pairwise_cons.1 h.apart).2
  · rw [h.share x, f.cover x, heldBlocks_congr base, cover_heldBlocks_cons, or_assoc, or_left_comm]

/-- **`__free_memory_core`** hands new frames over. -/
theorem seed (h : Owned s L H S) (start stop : Nat)
    (fresh : ∀ x, s.seedStart start ≤ x → x < s.seedLimit stop → x ∉ S) :
    ∃ L', Seeded s L (s.seedStart start) (s.seedLimit stop) (s.freeMemoryCore start stop) L' ∧
      Owned (s.freeMemoryCore start stop) L' H
        ({x | s.seedStart start ≤ x ∧ x < s.seedLimit stop} ∪ S) := by
  have small : s.freeCount < 2 ^ 64 := by rw [h.count]; exact h.inv.freeTotal_lt
  obtain ⟨L', d⟩ := freeMemoryCore_spec h.inv start stop small
    fun x h1 h2 hx => fresh x h1 h2 ((h.share x).2 (.inr hx))
  have base := d.touches.base
  have bound := d.inv.freeTotal_lt
  have total := d.total
  refine ⟨L', d, d.inv, ?_, ?_, ?_, fun x => ?_⟩
  · rw [d.count, h.count, add64_of_lt (by omega), d.total]
  · intro b hb
    refine (h.hand b hb).of_cover base d.touches.size fun x hx hx' => ?_
    rcases (d.cover x).1 hx' with q | q
    · exact fresh x q.1 q.2 ((h.share x).2 (.inl ⟨_, List.mem_map_of_mem hb, hx⟩))
    · exact (h.hand b hb).not_cover hx q
  · rw [heldBlocks_congr base]
    exact h.apart
  · have split : x ∈ {x | s.seedStart start ≤ x ∧ x < s.seedLimit stop} ∪ S ↔
        (s.seedStart start ≤ x ∧ x < s.seedLimit stop) ∨ x ∈ S := Iff.rfl
    rw [split, h.share x, d.cover x, heldBlocks_congr base, or_left_comm]

/-- A client that changes descriptors or links, but no `PAGE_BUDDY` bit and
nothing of the listed pages, keeps the invariant. -/
theorem congr (h : Owned s L H S) (base : s'.memMapBasePfn = s.memMapBasePfn)
    (size : s'.maxMapnr = s.maxMapnr) (nrFree : s'.nrFree = s.nrFree) (count : s'.freeCount = s.freeCount)
    (buddy : ∀ j, (s'.memMap j).buddy = (s.memMap j).buddy)
    (page : ∀ j, s.memMapBasePfn + j ∈ cover (s.blocks L) → (s'.memMap j).order = (s.memMap j).order)
    (heads : ∀ o, s'.links (.freeList o) = s.links (.freeList o))
    (lru : ∀ j, s.memMapBasePfn + j ∈ cover (s.blocks L) → s'.links (.lru j) = s.links (.lru j)) :
    Owned s' L H S := by
  have inv := h.inv
  have ends : s'.mapEnd = s.mapEnd := by simp only [mapEnd, base, size]
  have inv' : FreeInv s' L := by
    refine ⟨fun o lt => ?_, ?_, ?_, ?_, ?_, ?_⟩
    · refine (inv.ring o lt).congr fun x hx => ?_
      rcases List.mem_cons.1 hx with rfl | hx
      · exact heads o
      · obtain ⟨j, mem, rfl⟩ := List.mem_map.1 hx
        exact lru j (mem_cover lt mem)
    · rw [nrFree]; exact inv.count
    · intro j lt
      rw [buddy j]
      exact inv.flag j (size ▸ lt)
    · intro o lt j mem
      rw [page j (mem_cover lt mem)]
      exact inv.order o lt j mem
    · rw [base, ends]; exact inv.inside
    · rw [blocks_congr base]; exact inv.tiling
  refine ⟨inv', count.trans h.count, fun b hb => ?_, ?_, fun x => ?_⟩
  · refine (h.hand b hb).of_cover base size fun x hx => ?_
    rw [blocks_congr base]
    exact (h.hand b hb).not_cover hx
  · rw [heldBlocks_congr base]; exact h.apart
  · rw [heldBlocks_congr base, blocks_congr base]; exact h.share x

end Owned

/-- After `free_area_init` nothing is handed over and nothing is held. -/
theorem freeAreaInit_owned (s : PageAlloc) (base pages : Nat) :
    Owned (s.freeAreaInit base pages) (fun _ => []) [] ∅ where
  inv := freeAreaInit_spec s base pages
  count := by simp [freeAreaInit, freeTotal]
  hand b hb := by cases hb
  apart := .nil
  share x := by simp [cover, heldBlocks, blocks]

end

end PageAlloc

end MiaowOs
