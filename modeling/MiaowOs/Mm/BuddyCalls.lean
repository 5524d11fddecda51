import MiaowOs.Mm.BuddyRuns

/-!
# Calls of the page allocator

What one call does after any history. The histories are more general than those
of `MiaowOs.Mm.BuddyRuns`: a range may be handed over whenever none of the pages
inside it is free or held. Allocation is complete and splits as little as it
can; seeding is exact and, where nothing else is free, greedy.
-/

namespace MiaowOs
open TwoWay Pow2 Relation

namespace PageAlloc

/-- The managed pages that lie wholly inside a range. -/
def pagesInside (s : PageAlloc) (start stop : Nat) : Set Nat :=
  {x | s.pfnValid x = true ∧ start ≤ x * pageSize ∧ (x + 1) * pageSize ≤ stop}

theorem pagesInside_eq {s : PageAlloc} {start stop : Nat} (wrap : start + (pageSize - 1) < 2 ^ 64) :
    s.pagesInside start stop = Set.Ico (s.seedStart start) (s.seedLimit stop) := by
  ext x
  exact (History.mem_range_iff wrap).symm

/-! ## Greedy decomposition -/

/-- A naturally aligned block that ends by `limit`. -/
def Fits (limit : Nat) (b : Block) : Prop := b.order < maxOrder ∧ b.Aligned ∧ b.start + 2 ^ b.order ≤ limit

/-- From `pfn` to `limit`, always the largest naturally aligned block that fits. -/
inductive Greedy (limit : Nat) : Nat → List Block → Prop where
  | done {pfn : Nat} (stop : limit ≤ pfn) : Greedy limit pfn []
  | piece {order pfn : Nat} {bs : List Block} (lt : pfn < limit) (fits : Fits limit ⟨pfn, order⟩)
      (largest : ∀ o, Fits limit ⟨pfn, o⟩ → o ≤ order) (rest : Greedy limit (pfn + 2 ^ order) bs) :
      Greedy limit pfn (⟨pfn, order⟩ :: bs)

/-- In each of the next `n` iterations of `__free_memory_core` the merge loop of
`__free_one_page` ends with the page and the order it was given. -/
def Unmerged : Nat → PageAlloc → Nat → Nat → Prop
  | 0, _, _, _ => True
  | n + 1, s, pfn, limit =>
    pfn < limit →
      mergeLoop maxOrder s (s.pageToPfn (s.pfnToPage pfn)) (s.pfnToPage pfn) (fitOrder pfn limit (maxOrder - 1)) =
          (s, s.pfnToPage pfn, fitOrder pfn limit (maxOrder - 1)) ∧
        Unmerged n (s.freePages (s.pfnToPage pfn) (fitOrder pfn limit (maxOrder - 1)))
          (pfn + 2 ^ fitOrder pfn limit (maxOrder - 1)) limit

section
variable {s : PageAlloc} {L : Nat → List Nat} {pfn limit : Nat}

theorem fitOrder_fits (lt : pfn < limit) : Fits limit ⟨pfn, fitOrder pfn limit (maxOrder - 1)⟩ ∧
    ∀ o, Fits limit ⟨pfn, o⟩ → o ≤ fitOrder pfn limit (maxOrder - 1) := by
  obtain ⟨le, aligned, ends, largest⟩ := fitOrder_spec lt (maxOrder - 1)
  refine ⟨⟨by simp only [maxOrder] at *; omega, aligned, ends⟩, ?_⟩
  intro o fits
  by_contra beyond
  have small : o ≤ maxOrder - 1 := by
    have := fits.1
    simp only [maxOrder] at *
    omega
  exact largest o (Nat.lt_of_not_le beyond) small ⟨fits.2.1, fits.2.2⟩

/-- Past its end the loop does nothing. -/
theorem seedLoop_done (n : Nat) (s : PageAlloc) (stop : limit ≤ pfn) : seedLoop n s pfn limit = s := by
  cases n with
  | zero => rfl
  | succ n => rw [seedLoop, if_neg (Nat.not_lt.2 stop)]

/-- **The loop of `__free_memory_core` terminates**: further iterations change
nothing. -/
theorem seedLoop_fuel : ∀ (n k : Nat) (s : PageAlloc) (pfn : Nat), limit - pfn ≤ n →
    seedLoop (n + k) s pfn limit = seedLoop n s pfn limit := by
  intro n
  induction n with
  | zero =>
    intro k s pfn enough
    rw [seedLoop_done _ s (by omega), seedLoop_done _ s (by omega)]
  | succ n ih =>
    intro k s pfn enough
    rw [Nat.succ_add]
    simp only [seedLoop]
    by_cases lt : pfn < limit
    · have pos := Nat.two_pow_pos (fitOrder pfn limit (maxOrder - 1))
      rw [if_pos lt, if_pos lt, ih k _ _ (by rw [Nat.one_shiftLeft]; omega)]
    · rw [if_neg lt, if_neg lt]

/-- What has been handed over so far: each block is the largest that fits at its
start, and ends by `pfn`. -/
def Laid (limit pfn : Nat) (B : Set Block) : Prop :=
  ∀ b ∈ B, b.start + 2 ^ b.order ≤ pfn ∧ ∀ o, Fits limit ⟨b.start, o⟩ → o ≤ b.order

/-- The largest block that fits has no free buddy: below it, the buddy would not
have been the largest one. -/
theorem Laid.alone {B : Set Block} {order : Nat} (laid : Laid limit pfn B) (fits : Fits limit ⟨pfn, order⟩)
    (lt : order < maxOrder - 1) : (⟨pfn, order⟩ : Block).buddy ∉ B := by
  intro free
  obtain ⟨ends, largest⟩ := laid _ free
  have same : (⟨pfn, order⟩ : Block).buddy.order = order := rfl
  have pos := Nat.two_pow_pos order
  rw [same] at ends
  have parent := (⟨pfn, order⟩ : Block).parent_aligned
  rcases Block.buddy_cases fits.2.1 with above | below
  · have start : (⟨pfn, order⟩ : Block).buddy.start = pfn + 2 ^ order := above.1
    omega
  · have start : pfn = (⟨pfn, order⟩ : Block).buddy.start + 2 ^ order := below.1
    have top : pfn + 2 ^ order ≤ limit := fits.2.2
    have aligned : (⟨(⟨pfn, order⟩ : Block).buddy.start, order + 1⟩ : Block).Aligned := by
      rw [← below.2]
      exact parent
    have room : (⟨pfn, order⟩ : Block).buddy.start + 2 ^ (order + 1) ≤ limit := by
      rw [pow_succ]
      omega
    have larger : Fits limit ⟨(⟨pfn, order⟩ : Block).buddy.start, order + 1⟩ :=
      ⟨show order + 1 < maxOrder by omega, aligned, room⟩
    have := largest (order + 1) larger
    rw [same] at this
    omega

/-- Without a free buddy, `__free_pages` puts the block on its list and does nothing else. -/
theorem freePages_alone {L : Nat → List Nat} {i o : Nat} (h : FreeInv s L) (hand : InHand s L i o)
    (alone : o < maxOrder - 1 → (s.blockAt i o).buddy ∉ s.blocks L) :
    mergeLoop maxOrder s (s.pageToPfn i) i o = (s, i, o) ∧
    FreeInv (s.freePages i o) (Function.update L o (i :: L o)) ∧
    (s.freePages i o).memMapBasePfn = s.memMapBasePfn ∧ (s.freePages i o).mapEnd = s.mapEnd ∧
    (s.freePages i o).blocks (Function.update L o (i :: L o)) = insert (s.blockAt i o) (s.blocks L) := by
  have stop : mergeLoop maxOrder s (s.pageToPfn i) i o = (s, i, o) := by
    rw [pageToPfn_eq hand.start_lt]
    exact mergeLoop_stop 10 h hand alone
  have freed : s.freePages i o =
      { s.publish i o with freeCount := add64 (s.publish i o).freeCount (1 <<< o) } := by
    simp only [freePages, freeOnePage, stop]
  have published := h.publish ⟨hand, alone⟩
  have base : (s.freePages i o).memMapBasePfn = s.memMapBasePfn := by
    rw [freed]
    rfl
  refine ⟨stop, ?_, base, ?_, ?_⟩
  · rw [freed]
    exact ⟨published.ring, published.count, published.flag, published.order, published.inside, published.tiling⟩
  · rw [freed]
    rfl
  · rw [blocks_congr base, blocks_cons hand.lt]

/-- **Seeding has nothing to merge**, and lays the range out greedily. -/
theorem seedLoop_greedy : ∀ (n : Nat) (s : PageAlloc) (L : Nat → List Nat) (pfn : Nat), limit - pfn ≤ n →
    FreeInv s L → s.memMapBasePfn ≤ pfn → limit ≤ s.mapEnd → Laid limit pfn (s.blocks L) →
    Unmerged n s pfn limit ∧ ∃ bs L', Greedy limit pfn bs ∧ FreeInv (seedLoop n s pfn limit) L' ∧
      (seedLoop n s pfn limit).blocks L' = s.blocks L ∪ {b | b ∈ bs} := by
  intro n
  induction n with
  | zero =>
    intro s L pfn enough h lower upper laid
    refine ⟨trivial, [], L, .done (by omega), h, ?_⟩
    simp [seedLoop]
  | succ n ih =>
    intro s L pfn enough h lower upper laid
    by_cases lt : pfn < limit
    swap
    · refine ⟨fun absurd => (lt absurd).elim, [], L, .done (Nat.le_of_not_lt lt), ?_, ?_⟩
      · rwa [seedLoop_done _ s (Nat.le_of_not_lt lt)]
      · rw [seedLoop_done _ s (Nat.le_of_not_lt lt)]
        simp
    obtain ⟨fits, largest⟩ := fitOrder_fits lt
    unfold Unmerged
    simp only [seedLoop, if_pos lt, Nat.one_shiftLeft]
    generalize fitOrder pfn limit (maxOrder - 1) = order at *
    have bound := s.mapEnd_lt
    have pos := Nat.two_pow_pos order
    have ends : pfn + 2 ^ order ≤ limit := fits.2.2
    have start : s.memMapBasePfn + (pfn - s.memMapBasePfn) = pfn := Nat.add_sub_cancel' lower
    have page : s.pfnToPage pfn = pfn - s.memMapBasePfn := pfnToPage_eq lower (by omega)
    have here : s.blockAt (pfn - s.memMapBasePfn) order = ⟨pfn, order⟩ := by rw [blockAt, start]
    have out : ∀ x, pfn ≤ x → x < pfn + 2 ^ order → x ∉ Pow2.cover (s.blocks L) := by
      rintro x low - ⟨b, mem, inside⟩
      have := (laid b mem).1
      have := inside.2
      omega
    have hand : InHand s L (pfn - s.memMapBasePfn) order :=
      .of_frames fits.1 lower fits.2.1 (ends.trans upper) out
    have alone : order < maxOrder - 1 → (s.blockAt (pfn - s.memMapBasePfn) order).buddy ∉ s.blocks L := by
      rw [here]
      exact laid.alone fits
    obtain ⟨stop, inv, base, size, blocks⟩ := freePages_alone h hand alone
    have frame : s.pageToPfn (pfn - s.memMapBasePfn) = pfn := by
      rw [pageToPfn_eq hand.start_lt, start]
    rw [frame] at stop
    rw [here] at blocks
    have laid' : Laid limit (pfn + 2 ^ order) ((s.freePages (pfn - s.memMapBasePfn) order).blocks
        (Function.update L order ((pfn - s.memMapBasePfn) :: L order))) := by
      rw [blocks]
      rintro b (rfl | mem)
      · exact ⟨le_rfl, largest⟩
      · exact ⟨(laid b mem).1.trans (Nat.le_add_right _ _), (laid b mem).2⟩
    obtain ⟨unmerged, bs, L', greedy, inv', all⟩ := ih _ _ (pfn + 2 ^ order) (by omega) inv (by rw [base]; omega)
      (by rw [size]; exact upper) laid'
    rw [page, frame]
    refine ⟨fun _ => ⟨stop, unmerged⟩, ⟨pfn, order⟩ :: bs, L', .piece lt fits largest greedy, inv', ?_⟩
    rw [all, blocks]
    ext b
    simp only [Set.mem_union, Set.mem_insert_iff, Set.mem_ofPred_eq, List.mem_cons]
    tauto

end

end PageAlloc

namespace History
open PageAlloc

/-- The pages that are free or held. -/
def taken (h : History) : Set Nat := cover {b | b ∈ h.alloc.heldBlocks h.held} ∪ cover h.alloc.freeBlocks

/-- One call, where a range may be handed over if no page inside it is free or
held. -/
inductive Move : History → History → Prop where
  | seed {h : History} (start stop : Nat) (wrap : start + (pageSize - 1) < 2 ^ 64)
      (fresh : Disjoint (h.alloc.pagesInside start stop) h.taken) :
      Move h { h with alloc := h.alloc.freeMemoryCore start stop, seeds := (start, stop) :: h.seeds }
  | alloc {h : History} (order : Nat) :
      Move h { h with
        alloc := (h.alloc.allocPages order).1
        held := ((h.alloc.allocPages order).2.map fun page => (page, order)).toList ++ h.held }
  | free {h : History} (page order : Nat) (mem : (page, order) ∈ h.held) :
      Move h { h with alloc := h.alloc.freePages page order, held := h.held.erase (page, order) }

/-- The histories over the managed range of `pages` pages from `base`. -/
def Reached (base pages : Nat) (h : History) : Prop := ∃ s, ReflTransGen Move (init s base pages) h

section
variable {base pages : Nat} {h h' : History} {L : Nat → List Nat} {S : Set Nat}

theorem taken_eq (owned : Owned h.alloc L h.held S) : h.taken = S := by
  ext x
  rw [taken, owned.inv.freeBlocks_eq]
  exact (owned.share x).symm

/-- Every call keeps the ownership of the pages that are free or held. -/
theorem Move.owned (owned : Owned h.alloc L h.held S) (move : Move h h') : ∃ L' S', Owned h'.alloc L' h'.held S' := by
  cases move with
  | seed start stop wrap fresh =>
    rw [taken_eq owned, pagesInside_eq wrap, Set.disjoint_left] at fresh
    obtain ⟨L', -, owned'⟩ := owned.seed start stop fun x low high => fresh ⟨low, high⟩
    exact ⟨L', _, owned'⟩
  | alloc order =>
    rcases allocPages_spec owned.inv order with ⟨eq, -⟩ | ⟨i, c, s', L', eq, a⟩
    · simp only [eq, Option.map_none, Option.toList_none, List.nil_append]
      exact ⟨L, S, owned⟩
    · simp only [eq, Option.map_some, Option.toList_some, List.singleton_append]
      exact ⟨L', S, owned.alloc a⟩
  | free page order mem =>
    obtain ⟨L', -, owned'⟩ := (owned.perm (List.perm_cons_erase mem)).free
    exact ⟨L', S, owned'⟩

theorem Reached.owned (r : Reached base pages h) : ∃ L S, Owned h.alloc L h.held S := by
  obtain ⟨s, run⟩ := r
  induction run with
  | refl => exact ⟨_, ∅, freeAreaInit_owned s base pages⟩
  | tail _ move ih =>
    obtain ⟨L, S, owned⟩ := ih
    exact move.owned owned

/-! ## Allocating -/

/-- A run of free pages that an allocation of order `order` could return. -/
def FreeRun (s : PageAlloc) (order : Nat) : Prop :=
  ∃ pfn, 2 ^ order ∣ pfn ∧ ∀ x, pfn ≤ x → x < pfn + 2 ^ order → x ∈ cover s.freeBlocks

/-- The allocation of page `page` from a free block of order `c`, the least one
that is large enough: its upper halves are free afterwards. -/
structure SplitsMinimally (s s' : PageAlloc) (order page c : Nat) : Prop where
  le : order ≤ c
  lt : c < maxOrder
  least : ∀ b ∈ s.freeBlocks, order ≤ b.order → c ≤ b.order
  free : s.blockAt page c ∈ s.freeBlocks
  blocks : s'.freeBlocks = s.freeBlocks \ {s.blockAt page c} ∪
    {b | order ≤ b.order ∧ b.order < c ∧ b.start = s.memMapBasePfn + page + 2 ^ b.order}
  count : s'.freeCount + 2 ^ order = s.freeCount

/-- A free run lies in a free block that is large enough. -/
theorem FreeRun.block {s : PageAlloc} {order : Nat} (inv : FreeInv s L) (lt : order < maxOrder) (run : FreeRun s order) :
    ∃ b ∈ s.blocks L, order ≤ b.order := by
  obtain ⟨pfn, aligned, free⟩ := run
  rw [inv.freeBlocks_eq] at free
  obtain ⟨c, mem, le, -⟩ := inv.tiling.covering order pfn aligned (by omega) fun x inside => free x inside.1 inside.2
  exact ⟨c, mem, le⟩

/-- `alloc_pages` fails when there is no free run. -/
theorem allocPages_none_iff {s : PageAlloc} (inv : FreeInv s L) (order : Nat) :
    (s.allocPages order).2 = none ↔ maxOrder ≤ order ∨ ¬ FreeRun s order := by
  rcases allocPages_spec inv order with ⟨eq, none⟩ | ⟨i, c, s', L', eq, a⟩
  · rw [eq]
    refine ⟨fun _ => ?_, fun _ => rfl⟩
    rw [or_iff_not_imp_left]
    intro lt run
    obtain ⟨b, ⟨lt', i, mem, -⟩, le⟩ := run.block inv (Nat.lt_of_not_le lt)
    rw [none b.order le lt'] at mem
    cases mem
  · have lt := a.lt
    have le := a.le
    have free : s.blockAt i c ∈ s.blocks L := mem_blocks.2 ⟨lt, List.mem_of_head? a.head⟩
    rw [eq]
    refine ⟨fun absurd => (by cases absurd), ?_⟩
    rintro (big | missing)
    · omega
    · refine (missing ⟨s.memMapBasePfn + i, ?_, ?_⟩).elim
      · exact (pow_dvd_pow 2 le).trans (inv.tiling.aligned _ free)
      · intro x low high
        have fits : 2 ^ order ≤ 2 ^ c := Nat.pow_le_pow_right (by decide) le
        rw [inv.freeBlocks_eq]
        exact ⟨_, free, low, high.trans_le (Nat.add_le_add_left fits _)⟩

/-- **`alloc_pages` is complete and splits minimally.** -/
theorem reached_alloc (r : Reached base pages h) (order : Nat) :
    ((h.alloc.allocPages order).2 = none ↔ maxOrder ≤ order ∨ ¬ FreeRun h.alloc order) ∧
    ((h.alloc.allocPages order).2 = none → (h.alloc.allocPages order).1 = h.alloc) ∧
    ∀ page, (h.alloc.allocPages order).2 = some page →
      ∃ c, SplitsMinimally h.alloc (h.alloc.allocPages order).1 order page c := by
  obtain ⟨L, S, owned⟩ := r.owned
  have inv := owned.inv
  rcases allocPages_spec inv order with ⟨eq, none⟩ | ⟨i, c, s', L', eq, a⟩
  · have refused := allocPages_none_iff inv order
    rw [eq] at refused ⊢
    exact ⟨refused, fun _ => rfl, fun page absurd => (by cases absurd)⟩
  · have lt := a.lt
    have le := a.le
    have listed : i ∈ L c := List.mem_of_head? a.head
    have free : h.alloc.blockAt i c ∈ h.alloc.blocks L := mem_blocks.2 ⟨lt, listed⟩
    have owned' := owned.alloc a
    have total := a.total
    have refused := allocPages_none_iff inv order
    rw [eq] at refused ⊢
    refine ⟨refused, fun absurd => (by cases absurd), ?_⟩
    intro page found
    obtain rfl := Option.some_inj.1 found
    refine ⟨c, le, lt, ?_, ?_, ?_, ?_⟩
    · rw [inv.freeBlocks_eq]
      rintro b ⟨lt', j, mem, -⟩ enough
      by_contra short
      rw [a.least b.order enough (Nat.lt_of_not_le short)] at mem
      cases mem
    · rw [inv.freeBlocks_eq]
      exact free
    · rw [inv.freeBlocks_eq, a.inv.freeBlocks_eq]
      exact a.blocks
    · show s'.freeCount + 2 ^ order = h.alloc.freeCount
      rw [owned'.count, owned.count, total]

/-- Two pages out of six, from an odd frame. -/
theorem reached_alloc_six : ∃ h, Reached 0x40001000 6 h ∧ h.alloc.nrFreePages = 6 ∧
    ((h.alloc.allocPages 1).2 = none ↔ maxOrder ≤ 1 ∨ ¬ FreeRun h.alloc 1) := by
  have r : Reached 0x40001000 6 _ := ⟨.zero, .tail .refl (.seed 0x40001000 0x40007000 (by decide) ?_)⟩
  · exact ⟨_, r, by decide +kernel, (reached_alloc r 1).1⟩
  · have none : (init .zero 0x40001000 6).taken = ∅ := taken_eq (freeAreaInit_owned .zero 0x40001000 6)
    rw [none]
    exact Set.disjoint_empty _

/-! ## Seeding -/

/-- The range is laid out greedily in the free lists, piece by piece. -/
def SeedsGreedily (s : PageAlloc) (start stop : Nat) : Prop :=
  Unmerged (s.seedLimit stop - s.seedStart start) s (s.seedStart start) (s.seedLimit stop) ∧
    ∃ bs, Greedy (s.seedLimit stop) (s.seedStart start) bs ∧ (s.freeMemoryCore start stop).freeBlocks = {b | b ∈ bs}

theorem freeMemoryCore_eq (s : PageAlloc) (start stop : Nat) : s.freeMemoryCore start stop =
    seedLoop (s.seedLimit stop - s.seedStart start) s (s.seedStart start) (s.seedLimit stop) := by
  have low : (if add64 start (pageSize - 1) >>> pageShift < s.memMapBasePfn then s.memMapBasePfn
      else add64 start (pageSize - 1) >>> pageShift) = s.seedStart start := by
    unfold seedStart
    split <;> omega
  have high : (if add64 s.memMapBasePfn s.maxMapnr < stop >>> pageShift then add64 s.memMapBasePfn s.maxMapnr
      else stop >>> pageShift) = s.seedLimit stop := by
    unfold seedLimit mapEnd
    split <;> omega
  unfold freeMemoryCore
  dsimp only
  rw [low, high]

/-- **Seeding is exact and needs no merging.** -/
theorem reached_seed (r : Reached base pages h) (start stop : Nat) (wrap : start + (pageSize - 1) < 2 ^ 64)
    (fresh : Disjoint (h.alloc.pagesInside start stop) h.taken) :
    (∀ k, seedLoop (h.alloc.seedLimit stop - h.alloc.seedStart start + k) h.alloc (h.alloc.seedStart start)
      (h.alloc.seedLimit stop) = h.alloc.freeMemoryCore start stop) ∧
    cover (h.alloc.freeMemoryCore start stop).freeBlocks =
      h.alloc.pagesInside start stop ∪ cover h.alloc.freeBlocks ∧
    (h.alloc.freeMemoryCore start stop).freeCount =
      h.alloc.freeCount + (h.alloc.pagesInside start stop).ncard ∧
    (cover h.alloc.freeBlocks = ∅ → SeedsGreedily h.alloc start stop) := by
  obtain ⟨L, S, owned⟩ := r.owned
  have inside := @pagesInside_eq h.alloc start stop wrap
  rw [taken_eq owned, inside, Set.disjoint_left] at fresh
  obtain ⟨L', d, owned'⟩ := owned.seed start stop fun x low high => fresh ⟨low, high⟩
  refine ⟨?_, ?_, ?_, ?_⟩
  · intro k
    rw [freeMemoryCore_eq]
    exact seedLoop_fuel _ k _ _ le_rfl
  · rw [d.inv.freeBlocks_eq, owned.inv.freeBlocks_eq, inside]
    ext x
    exact d.cover x
  · rw [owned'.count, owned.count, d.total, inside, ← Finset.coe_Ico, Set.ncard_coe_finset, Nat.card_Ico]
  · intro none
    rw [owned.inv.freeBlocks_eq] at none
    have empty : h.alloc.blocks L = ∅ := by
      apply Set.eq_empty_of_forall_notMem
      intro b mem
      have covered : b.start ∈ cover (h.alloc.blocks L) := ⟨b, mem, b.start_mem⟩
      rw [none] at covered
      exact covered
    have laid : Laid (h.alloc.seedLimit stop) (h.alloc.seedStart start) (h.alloc.blocks L) := by
      rw [empty]
      rintro b ⟨⟩
    have low : h.alloc.memMapBasePfn ≤ h.alloc.seedStart start := le_max_left _ _
    have high : h.alloc.seedLimit stop ≤ h.alloc.mapEnd := min_le_left _ _
    obtain ⟨unmerged, bs, L'', greedy, inv, all⟩ := seedLoop_greedy _ h.alloc L _ le_rfl owned.inv low high laid
    rw [← freeMemoryCore_eq] at inv all
    refine ⟨unmerged, bs, greedy, ?_⟩
    rw [inv.freeBlocks_eq, all, empty, Set.empty_union]

/-- Six pages from an odd frame: one page, two, two, and one. -/
theorem reached_seed_six : Reached 0x40001000 6 (init .zero 0x40001000 6) ∧
    cover ((init .zero 0x40001000 6).alloc.freeMemoryCore 0x40001000 0x40007000).freeBlocks =
      (init .zero 0x40001000 6).alloc.pagesInside 0x40001000 0x40007000 ∪
        cover (init .zero 0x40001000 6).alloc.freeBlocks ∧
    ((init .zero 0x40001000 6).alloc.freeMemoryCore 0x40001000 0x40007000).freeCount = 6 := by
  have r : Reached 0x40001000 6 (init .zero 0x40001000 6) := ⟨.zero, .refl⟩
  have none : (init .zero 0x40001000 6).taken = ∅ := taken_eq (freeAreaInit_owned .zero 0x40001000 6)
  have exact_ := reached_seed r 0x40001000 0x40007000 (by decide) (none ▸ Set.disjoint_empty _)
  exact ⟨r, exact_.2.1, by decide +kernel⟩

end

end History

end MiaowOs
