import MiaowOs.Mm.FreeLists

/-!
# The functions of the page allocator on the free lists

One specification per function of `mm/page_alloc.c`, over `FreeInv`. The merge
loop of `__free_one_page` and the split loop of `expand` carry a block in hand
(`InHand`): each iteration joins it with its free buddy, or returns its upper
half to a list. The results say which frames are covered afterwards, how many
pages the lists hold, and which descriptors were touched.
-/

namespace MiaowOs
open TwoWay Pow2

namespace PageAlloc

section
variable {s : PageAlloc} {L : Nat → List Nat} {i o : Nat}

/-- A descriptor's block of order `o` and the frames around it. -/
theorem blockAt_mem {x : Nat} :
    (s.blockAt i o).Mem x ↔ s.memMapBasePfn + i ≤ x ∧ x < s.memMapBasePfn + i + 2 ^ o := Iff.rfl

theorem InHand.start_lt (b : InHand s L i o) : s.memMapBasePfn + i < s.mapEnd := by
  have := b.inside
  have := Nat.two_pow_pos o
  omega

theorem InHand.of_publish {j k : Nat} (b : InHand s L i o) (lt : k < maxOrder)
    (apart : (s.blockAt i o).Apart (s.blockAt j k)) :
    InHand (s.publish j k) (Function.update L k (j :: L k)) i o where
  lt := b.lt
  aligned := b.aligned
  inside := b.inside
  apart c hc := by
    rw [blocks_congr publish_base, blocks_cons lt] at hc
    rcases hc with rfl | hc
    · exact apart
    · exact b.apart c hc

/-! ## Merging -/

/-- The outcome of the merge loop from the block `i`, `o` in hand. -/
structure Merged (s : PageAlloc) (L : Nat → List Nat) (i o : Nat)
    (s' : PageAlloc) (L' : Nat → List Nat) (i' o' : Nat) : Prop where
  inv : FreeInv s' L'
  add : Addable s' L' i' o'
  cover : ∀ x, (s'.blockAt i' o').Mem x ∨ x ∈ cover (s'.blocks L') ↔
    (s.blockAt i o).Mem x ∨ x ∈ cover (s.blocks L)
  total : freeTotal L' + 2 ^ o' = freeTotal L + 2 ^ o
  touches : Touches (Pow2.cover (s.blocks L)) s s'
  count : s'.freeCount = s.freeCount

theorem Merged.done (h : FreeInv s L) (b : InHand s L i o)
    (alone : o < maxOrder - 1 → (s.blockAt i o).buddy ∉ s.blocks L) : Merged s L i o s L i o :=
  ⟨h, ⟨b, alone⟩, fun _ => Iff.rfl, rfl, .refl _ s, rfl⟩

/-- The test of the merge loop finds the buddy exactly when it is listed at
the same order. -/
theorem buddy_test (h : FreeInv s L) (lt : o < maxOrder) {j : Nat} (managed : s.memMapBasePfn + j < s.mapEnd) :
    (s.memMap j).buddy = true ∧ (s.memMap j).order = o ↔ j ∈ L o := by
  constructor
  · rintro ⟨flag, order⟩
    obtain ⟨o', lt', mem⟩ := (h.flag j (lt_maxMapnr managed)).1 flag
    rw [h.order o' lt' j mem] at order
    exact order ▸ mem
  · intro mem
    exact ⟨(h.flag j (lt_maxMapnr managed)).2 ⟨o, lt, mem⟩, h.order o lt j mem⟩

/-- The descriptor at the start of a managed block. -/
theorem blockAt_sub {b : Block} (le : s.memMapBasePfn ≤ b.start) :
    s.blockAt (b.start - s.memMapBasePfn) b.order = b := by
  simp only [blockAt, Nat.add_sub_cancel' le]

/-- Taking block `j`, `o` off its list and joining it to another block leaves
the covered frames as they were. -/
theorem cover_withdraw (h : FreeInv s L) {j : Nat} (lt : o < maxOrder) (mem : j ∈ L o) (x : Nat) :
    x ∈ Pow2.cover (s.blocks L) ↔ (s.blockAt j o).Mem x ∨
      x ∈ Pow2.cover ((s.withdraw j o).blocks (Function.update L o ((L o).erase j))) := by
  rw [blocks_congr withdraw_base, blocks_erase lt (h.nodup lt)]
  constructor
  · rintro ⟨c, hc, hx⟩
    by_cases same : c = s.blockAt j o
    · exact .inl (same ▸ hx)
    · exact .inr ⟨c, ⟨hc, same⟩, hx⟩
  · rintro (hx | ⟨c, hc, hx⟩)
    · exact ⟨_, mem_blocks.2 ⟨lt, mem⟩, hx⟩
    · exact ⟨c, hc.1, hx⟩

/-- Joining the block in hand with its listed buddy `j` gives their parent in
hand. -/
theorem InHand.join (h : FreeInv s L) (b : InHand s L i o) (lt : o < maxOrder - 1) {j : Nat}
    (hj : s.blockAt j o = (s.blockAt i o).buddy) (mem : j ∈ L o) :
    s.memMapBasePfn ≤ (s.blockAt i o).parent.start ∧
    InHand (s.withdraw j o) (Function.update L o ((L o).erase j))
      ((s.blockAt i o).parent.start - s.memMapBasePfn) (o + 1) := by
  have lt' : o < maxOrder := b.lt
  have insideB := b.inside
  have insideJ := h.inside o lt' j mem
  have hs : s.memMapBasePfn + j = (s.blockAt i o).buddy.start := congrArg Block.start hj
  have start : (s.blockAt i o).start = s.memMapBasePfn + i := rfl
  have order : (s.blockAt i o).order = o := rfl
  have cases := Block.buddy_cases b.aligned
  rw [order, start, ← hs] at cases
  have lower : s.memMapBasePfn ≤ (s.blockAt i o).parent.start := by omega
  have shape : (s.withdraw j o).blockAt ((s.blockAt i o).parent.start - s.memMapBasePfn) (o + 1) =
      (s.blockAt i o).parent := blockAt_sub lower
  refine ⟨lower, ⟨by omega, ?_, ?_, ?_⟩⟩
  · rw [shape]; exact Block.parent_aligned _
  · rw [withdraw_base, withdraw_mapEnd, Nat.add_sub_cancel' lower, pow_succ]
    omega
  · intro c hc x hx
    rw [shape, Block.parent_mem b.aligned] at hx
    rw [blocks_congr withdraw_base, blocks_erase lt' (h.nodup lt')] at hc
    rcases hx with hx | hx
    · exact b.apart c hc.1 x hx
    · refine h.tiling.apart _ (mem_blocks.2 ⟨lt', mem⟩) c hc.1 (fun q => hc.2 q.symm) x ?_
      rw [hj]; exact hx

/-- The merge loop stops when the buddy is not listed at the same order. -/
theorem mergeLoop_stop (n : Nat) (h : FreeInv s L) (b : InHand s L i o)
    (alone : o < maxOrder - 1 → (s.blockAt i o).buddy ∉ s.blocks L) :
    mergeLoop (n + 1) s (s.memMapBasePfn + i) i o = (s, i, o) := by
  by_cases lt : o < maxOrder - 1
  swap
  · simp only [mergeLoop, if_neg lt]
  have buddyPfn : (s.memMapBasePfn + i) ^^^ (1 <<< o) = (s.blockAt i o).buddy.start := by
    rw [Nat.one_shiftLeft]; rfl
  by_cases valid : s.pfnValid (s.blockAt i o).buddy.start = true
  swap
  · simp only [mergeLoop, if_pos lt, buddyPfn, valid]; rfl
  obtain ⟨lower, upper⟩ := pfnValid_iff.1 valid
  have page := pfnToPage_eq lower (upper.trans s.mapEnd_lt)
  have test := buddy_test h b.lt (j := (s.blockAt i o).buddy.start - s.memMapBasePfn) (by omega)
  have mem : (s.blockAt i o).buddy.start - s.memMapBasePfn ∉ L o := fun mem => alone lt <| by
    have listed := mem_blocks (s := s) |>.2 ⟨b.lt, mem⟩
    rwa [show s.blockAt _ o = (s.blockAt i o).buddy from blockAt_sub lower] at listed
  rw [← test, not_and] at mem
  simp only [mergeLoop, if_pos lt, buddyPfn, valid, page]
  simp only [Bool.not_true, Bool.false_eq_true, if_false, Bool.or_eq_true, Bool.not_eq_true',
    bne_iff_ne, ite_eq_left_iff, not_or, Bool.not_eq_false, not_not]
  rintro ⟨flag, order⟩
  exact absurd order (mem flag)

/-- One merge: the listed buddy `j` leaves its list and the parent goes on. -/
theorem mergeLoop_join (n : Nat) (h : FreeInv s L) (b : InHand s L i o) (lt : o < maxOrder - 1) {j : Nat}
    (hj : s.blockAt j o = (s.blockAt i o).buddy) (mem : j ∈ L o) :
    mergeLoop (n + 1) s (s.memMapBasePfn + i) i o =
      mergeLoop n (s.withdraw j o) (s.blockAt i o).parent.start
        ((s.blockAt i o).parent.start - s.memMapBasePfn) (o + 1) := by
  have hs : s.memMapBasePfn + j = (s.blockAt i o).buddy.start := congrArg Block.start hj
  have upper := h.lt_mapEnd b.lt mem
  have bound := s.mapEnd_lt
  obtain ⟨lowerP, hand⟩ := b.join h lt hj mem
  have ltP := hand.start_lt
  rw [withdraw_base, withdraw_mapEnd, Nat.add_sub_cancel' lowerP] at ltP
  have buddyPfn : (s.memMapBasePfn + i) ^^^ (1 <<< o) = s.memMapBasePfn + j := by
    rw [hs, Nat.one_shiftLeft]; rfl
  have valid : s.pfnValid (s.memMapBasePfn + j) = true := pfnValid_iff.2 ⟨by omega, upper⟩
  have page : s.pfnToPage (s.memMapBasePfn + j) = j := by
    rw [pfnToPage_eq (by omega) (by omega), Nat.add_sub_cancel_left]
  have pfn : (s.memMapBasePfn + i) &&& not64 (1 <<< o) = (s.blockAt i o).parent.start := by
    rw [Nat.one_shiftLeft]
    exact and_not64_eq_parent b.aligned (b.start_lt.trans bound)
  have pageP : (s.withdraw j o).pfnToPage (s.blockAt i o).parent.start =
      (s.blockAt i o).parent.start - s.memMapBasePfn := pfnToPage_eq lowerP (ltP.trans bound)
  obtain ⟨flag, order⟩ := (buddy_test h b.lt upper).2 mem
  simp only [mergeLoop, if_pos lt, buddyPfn, valid, page, pfn, flag, order, bne_self_eq_false,
    Bool.not_true, Bool.or_self, Bool.false_eq_true, if_false, pageP]

/-- **The merge loop of `__free_one_page`** ends with a block that has no free
buddy. -/
theorem mergeLoop_spec : ∀ (n : Nat) (s : PageAlloc) (L : Nat → List Nat) (i o : Nat),
    maxOrder - 1 - o < n → FreeInv s L → InHand s L i o →
    ∃ s' L' i' o', mergeLoop n s (s.memMapBasePfn + i) i o = (s', i', o') ∧ Merged s L i o s' L' i' o' := by
  intro n
  induction n with
  | zero => intro s L i o le; omega
  | succ n ih =>
    intro s L i o le h b
    by_cases more : o < maxOrder - 1 ∧ (s.blockAt i o).buddy ∈ s.blocks L
    swap
    · have alone : o < maxOrder - 1 → (s.blockAt i o).buddy ∉ s.blocks L := fun lt hb => more ⟨lt, hb⟩
      exact ⟨s, L, i, o, mergeLoop_stop n h b alone, .done h b alone⟩
    -- the buddy is free: one merge, then the rest of the loop
    obtain ⟨lt, lt', j, mem, hj⟩ := more
    replace lt' : o < maxOrder := lt'
    replace mem : j ∈ L o := mem
    replace hj : s.blockAt j o = (s.blockAt i o).buddy := hj.symm
    obtain ⟨lower, hand⟩ := b.join h lt hj mem
    obtain ⟨s', L', i', o', run, m⟩ := ih _ _ _ _ (by omega) (h.withdraw lt' mem) hand
    rw [withdraw_base, Nat.add_sub_cancel' lower] at run
    have cov := cover_withdraw h lt' mem
    refine ⟨s', L', i', o', (mergeLoop_join n h b lt hj mem).trans run, m.inv, m.add, fun x => ?_, ?_, ?_, m.count⟩
    · have shape : (s.withdraw j o).blockAt ((s.blockAt i o).parent.start - s.memMapBasePfn) (o + 1) =
          (s.blockAt i o).parent := blockAt_sub lower
      rw [m.cover x, cov x, shape, Block.parent_mem b.aligned, hj, or_assoc]
    · have erased := freeTotal_erase lt' mem
      have total := m.total
      rw [pow_succ] at total
      omega
    · have sub : Pow2.cover ((s.withdraw j o).blocks (Function.update L o ((L o).erase j))) ⊆
          Pow2.cover (s.blocks L) := fun x hx => (cov x).2 (.inr hx)
      exact (h.withdraw_touches lt' mem subset_rfl).trans (m.touches.mono sub)

/-- The effect of returning a block in hand to the free lists. -/
structure Freed (s : PageAlloc) (L : Nat → List Nat) (i o : Nat)
    (s' : PageAlloc) (L' : Nat → List Nat) : Prop where
  inv : FreeInv s' L'
  cover : ∀ x, x ∈ cover (s'.blocks L') ↔ (s.blockAt i o).Mem x ∨ x ∈ cover (s.blocks L)
  total : freeTotal L' = freeTotal L + 2 ^ o
  touches : Touches ({x | (s.blockAt i o).Mem x} ∪ Pow2.cover (s.blocks L)) s s'

/-- **`__free_one_page`** returns a block in hand to the free lists. -/
theorem freeOnePage_spec (h : FreeInv s L) (b : InHand s L i o) :
    ∃ L', Freed s L i o (s.freeOnePage i o) L' ∧ (s.freeOnePage i o).freeCount = s.freeCount := by
  obtain ⟨s', L', i', o', run, m⟩ := mergeLoop_spec maxOrder s L i o (by simp only [maxOrder]; omega) h b
  have value : s.freeOnePage i o = s'.publish i' o' := by
    simp only [freeOnePage, pageToPfn_eq b.start_lt, run]
  have base := m.touches.base
  have cov : ∀ x, x ∈ Pow2.cover ((s'.publish i' o').blocks (Function.update L' o' (i' :: L' o'))) ↔
      (s.blockAt i o).Mem x ∨ x ∈ Pow2.cover (s.blocks L) := fun x => by
    rw [blocks_congr publish_base, blocks_cons m.add.lt, cover_insert, m.cover x]
  refine ⟨Function.update L' o' (i' :: L' o'), ?_, by rw [value, publish_freeCount, m.count]⟩
  rw [value]
  refine ⟨m.inv.publish m.add, cov, ?_, ?_⟩
  · rw [freeTotal_cons m.add.lt, m.total]
  · refine (m.touches.mono Set.subset_union_right).trans (m.inv.publish_touches m.add.lt ?_ ?_)
    · intro x hx
      exact (m.cover x).1 (.inr hx)
    · exact (m.cover _).1 (.inl (Block.start_mem (s'.blockAt i' o')))

/-- `__free_pages` is `__free_one_page` and the page count. -/
theorem freePages_spec (h : FreeInv s L) (b : InHand s L i o) :
    ∃ L', Freed s L i o (s.freePages i o) L' ∧ (s.freePages i o).freeCount = add64 s.freeCount (2 ^ o) := by
  obtain ⟨L', f, count⟩ := freeOnePage_spec h b
  refine ⟨L', ⟨⟨f.inv.ring, f.inv.count, f.inv.flag, f.inv.order, f.inv.inside, f.inv.tiling⟩, f.cover, f.total,
    ⟨f.touches.base, f.touches.size, f.touches.page, f.touches.slab, f.touches.lru, f.touches.cachePartial⟩⟩, ?_⟩
  simp only [freePages, count, Nat.one_shiftLeft]

/-! ## Splitting -/

/-- The outcome of splitting a block of order `high` in hand down to `low`. -/
structure Split (s : PageAlloc) (L : Nat → List Nat) (i low high : Nat)
    (s' : PageAlloc) (L' : Nat → List Nat) : Prop where
  inv : FreeInv s' L'
  hand : InHand s' L' i low
  blocks : s'.blocks L' = s.blocks L ∪
    {b | low ≤ b.order ∧ b.order < high ∧ b.start = s.memMapBasePfn + i + 2 ^ b.order}
  cover : ∀ x, (s.blockAt i low).Mem x ∨ x ∈ cover (s'.blocks L') ↔
    (s.blockAt i high).Mem x ∨ x ∈ cover (s.blocks L)
  total : freeTotal L' + 2 ^ low = freeTotal L + 2 ^ high
  touches : Touches ({x | (s.blockAt i high).Mem x} ∪ Pow2.cover (s.blocks L)) s s'
  count : s'.freeCount = s.freeCount

/-- A block of the wanted order is not split. -/
theorem Split.refl (h : FreeInv s L) (b : InHand s L i o) : Split s L i o o s L := by
  refine ⟨h, b, ?_, fun _ => Iff.rfl, rfl, .refl _ s, rfl⟩
  ext c
  simp only [Set.mem_union, Set.mem_ofPred_eq]
  constructor
  · exact .inl
  · rintro (hc | ⟨h1, h2, -⟩)
    · exact hc
    · omega

/-- The upper half of a block in hand can go on its list. -/
theorem InHand.upper (b : InHand s L i (o + 1)) : Addable s L (i + 2 ^ o) o := by
  obtain ⟨low, high, buddy⟩ := Block.upper_half b.aligned
  have inside := b.inside
  have lt := b.lt
  have sub : ∀ x, (⟨s.memMapBasePfn + i + 2 ^ o, o⟩ : Block).Mem x → (s.blockAt i (o + 1)).Mem x := by
    intro x hx
    simp only [Block.Mem, blockAt, pow_succ] at hx ⊢
    omega
  have shape : s.blockAt (i + 2 ^ o) o = ⟨s.memMapBasePfn + i + 2 ^ o, o⟩ := by
    simp only [blockAt, Nat.add_assoc]
  rw [pow_succ] at inside
  refine ⟨⟨by omega, by rw [shape]; exact high, by omega, fun c hc x hx => ?_⟩, fun _ hc => ?_⟩
  · rw [shape] at hx
    exact b.apart c hc x (sub x hx)
  · -- the buddy of the upper half is the lower half, which is in hand
    rw [shape, buddy] at hc
    exact b.apart _ hc _ (Block.start_mem (s.blockAt i (o + 1))) (Block.start_mem ⟨s.memMapBasePfn + i, o⟩)

/-- After its upper half went on a list, the lower half is in hand. -/
theorem InHand.lower (b : InHand s L i (o + 1)) :
    InHand (s.publish (i + 2 ^ o) o) (Function.update L o ((i + 2 ^ o) :: L o)) i o := by
  have inside := b.inside
  have lt := b.lt
  rw [pow_succ] at inside
  have low : InHand s L i o := by
    refine ⟨by omega, (Block.upper_half b.aligned).1, by omega, fun c hc x hx => b.apart c hc x ?_⟩
    rw [blockAt_mem] at hx ⊢
    rw [pow_succ]
    omega
  refine low.of_publish (by omega) fun x hx hx' => ?_
  rw [blockAt_mem] at hx hx'
  omega

/-- Halving: the upper half goes on its list, and the lower half is split further. -/
theorem Split.halve {low k : Nat} {s' : PageAlloc} {L' : Nat → List Nat} (h : FreeInv s L)
    (b : InHand s L i (k + 1)) (le : low ≤ k)
    (p : Split (s.publish (i + 2 ^ k) k) (Function.update L k ((i + 2 ^ k) :: L k)) i low k s' L') :
    Split s L i low (k + 1) s' L' := by
  have lt : k < maxOrder := by
    have := b.lt
    omega
  have blocks := blocks_cons (s := s) (L := L) (i := i + 2 ^ k) lt
  have whole : ∀ x, (s.blockAt i (k + 1)).Mem x ↔
      (s.blockAt i k).Mem x ∨ (s.blockAt (i + 2 ^ k) k).Mem x := fun x => by
    simp only [blockAt_mem, pow_succ]
    omega
  refine ⟨p.inv, p.hand, ?_, fun x => ?_, ?_, ?_, p.count⟩
  · rw [p.blocks, blocks_congr publish_base, blocks]
    ext c
    simp only [Set.mem_union, Set.mem_insert_iff, Set.mem_ofPred_eq, publish_base]
    constructor
    · rintro ((rfl | hc) | ⟨h1, h2, h3⟩)
      · exact .inr ⟨le, Nat.lt_succ_self k, by simp only [blockAt]; omega⟩
      · exact .inl hc
      · exact .inr ⟨h1, by omega, h3⟩
    · rintro (hc | ⟨h1, h2, h3⟩)
      · exact .inl (.inr hc)
      · by_cases top : c.order = k
        · left; left
          cases c
          simp only at top h3
          subst top
          simp only [blockAt, h3, Nat.add_assoc]
        · exact .inr ⟨h1, by omega, h3⟩
  · have step := p.cover x
    rw [blocks_congr publish_base, blocks, cover_insert] at step
    rw [whole x, or_assoc]
    exact step
  · have total := p.total
    rw [freeTotal_cons lt] at total
    rw [pow_succ]
    omega
  · have sub : {x | ((s.publish (i + 2 ^ k) k).blockAt i k).Mem x} ∪
        Pow2.cover ((s.publish (i + 2 ^ k) k).blocks (Function.update L k ((i + 2 ^ k) :: L k))) ⊆
        {x | (s.blockAt i (k + 1)).Mem x} ∪ Pow2.cover (s.blocks L) := by
      rintro x (hx | hx)
      · exact .inl ((whole x).2 (.inl hx))
      · rw [blocks_congr publish_base, blocks, cover_insert] at hx
        exact hx.imp (fun q => (whole x).2 (.inr q)) id
    refine (h.publish_touches lt Set.subset_union_right (.inl ((whole _).2 (.inr ?_)))).trans (p.touches.mono sub)
    rw [blockAt_mem]
    have := Nat.two_pow_pos k
    omega

/-- **The loop of `expand`** gives back one upper half of each order. -/
theorem expandLoop_spec : ∀ (n : Nat) (s : PageAlloc) (L : Nat → List Nat) (i low high : Nat),
    low ≤ high → high - low ≤ n → FreeInv s L → InHand s L i high →
    ∃ L', Split s L i low high (expandLoop n s i low high (2 ^ high)) L' := by
  intro n
  induction n with
  | zero =>
    intro s L i low high le fuel h b
    have same : low = high := by omega
    subst same
    exact ⟨L, .refl h b⟩
  | succ n ih =>
    intro s L i low high le fuel h b
    by_cases lt : low < high
    swap
    · have same : low = high := by omega
      subst same
      simp only [expandLoop, lt_irrefl, if_false]
      exact ⟨L, .refl h b⟩
    obtain ⟨k, rfl⟩ := Nat.exists_eq_add_of_lt lt
    have half : 2 ^ (low + k + 1) >>> 1 = 2 ^ (low + k) := by
      rw [Nat.shiftRight_eq_div_pow, pow_succ]; omega
    obtain ⟨L', p⟩ := ih _ _ i low (low + k) (by omega) (by omega) (h.publish b.upper) b.lower
    simp only [expandLoop, if_pos lt, Nat.add_sub_cancel, half]
    exact ⟨L', p.halve h b (Nat.le_add_right _ _)⟩

/-! ## Allocation -/

/-- What an allocation of order `order` from the block `i`, `c` does. -/
structure Allocated (s : PageAlloc) (L : Nat → List Nat) (order i c : Nat)
    (s' : PageAlloc) (L' : Nat → List Nat) : Prop where
  lt : c < maxOrder
  le : order ≤ c
  least : ∀ k, order ≤ k → k < c → L k = []
  head : (L c).head? = some i
  inv : FreeInv s' L'
  hand : InHand s' L' i order
  blocks : s'.blocks L' = s.blocks L \ {s.blockAt i c} ∪
    {b | order ≤ b.order ∧ b.order < c ∧ b.start = s.memMapBasePfn + i + 2 ^ b.order}
  cover : ∀ x, x ∈ cover (s.blocks L) ↔ (s.blockAt i order).Mem x ∨ x ∈ cover (s'.blocks L')
  total : freeTotal L' + 2 ^ order = freeTotal L
  touches : Touches (Pow2.cover (s.blocks L)) s s'
  count : s'.freeCount = sub64 s.freeCount (2 ^ order)

/-- A listed block, taken off its list, is in hand. -/
theorem FreeInv.take (h : FreeInv s L) (lt : o < maxOrder) (mem : i ∈ L o) :
    InHand (s.withdraw i o) (Function.update L o ((L o).erase i)) i o where
  lt := lt
  aligned := h.tiling.aligned _ (mem_blocks.2 ⟨lt, mem⟩)
  inside := h.inside o lt i mem
  apart c hc := by
    rw [blocks_congr withdraw_base, blocks_erase lt (h.nodup lt)] at hc
    exact h.tiling.apart _ (mem_blocks.2 ⟨lt, mem⟩) c hc.1 fun q => hc.2 q.symm

/-- Taking the first block of order `c` and splitting it. -/
theorem take_expand (h : FreeInv s L) {order c : Nat} (lt : c < maxOrder) (le : order ≤ c)
    (least : ∀ k, order ≤ k → k < c → L k = []) (head : (L c).head? = some i) :
    ∃ L', Allocated s L order i c
      (expand { s.withdraw i c with freeCount := sub64 (s.withdraw i c).freeCount (1 <<< order) } i order c) L' := by
  have mem : i ∈ L c := List.mem_of_head? head
  have inv := h.withdraw lt mem
  have hand := h.take lt mem
  have inv' : FreeInv { s.withdraw i c with freeCount := sub64 (s.withdraw i c).freeCount (1 <<< order) }
      (Function.update L c ((L c).erase i)) :=
    ⟨inv.ring, inv.count, inv.flag, inv.order, inv.inside, inv.tiling⟩
  have hand' : InHand { s.withdraw i c with freeCount := sub64 (s.withdraw i c).freeCount (1 <<< order) }
      (Function.update L c ((L c).erase i)) i c := ⟨hand.lt, hand.aligned, hand.inside, hand.apart⟩
  obtain ⟨L', p⟩ := expandLoop_spec c _ _ i order c le (by omega) inv' hand'
  have erased : s.blocks (Function.update L c ((L c).erase i)) = s.blocks L \ {s.blockAt i c} :=
    blocks_erase lt (h.nodup lt)
  have cov : ∀ x, x ∈ Pow2.cover (s.blocks L) ↔
      (s.blockAt i c).Mem x ∨ x ∈ Pow2.cover (s.blocks (Function.update L c ((L c).erase i))) :=
    cover_withdraw h lt mem
  refine ⟨L', ?_⟩
  rw [expand, Nat.one_shiftLeft, Nat.one_shiftLeft]
  rw [Nat.one_shiftLeft] at p
  refine ⟨lt, le, least, head, p.inv, p.hand, ?_, fun x => ?_, ?_, ?_, p.count⟩
  · rw [p.blocks, ← erased]; rfl
  · rw [cov x]
    exact (p.cover x).symm
  · rw [p.total]
    exact freeTotal_erase lt mem
  · have sub : {x | (s.blockAt i c).Mem x} ∪ Pow2.cover (s.blocks (Function.update L c ((L c).erase i))) ⊆
        Pow2.cover (s.blocks L) := fun x hx => (cov x).2 hx
    have first := h.withdraw_touches lt mem (subset_refl (Pow2.cover (s.blocks L)))
    have second := p.touches.mono sub
    exact first.trans ⟨second.base, second.size, second.page, second.slab, second.lru, second.cachePartial⟩

theorem firstFree_eq (h : FreeInv s L) {c : Nat} (lt : c < maxOrder) (head : (L c).head? = some i) :
    s.firstFree c = i := by
  have next := (h.ring c lt).next_head
  cases hl : L c with
  | nil => simp [hl] at head
  | cons j rest =>
    rw [hl, List.head?_cons, Option.some.injEq] at head
    rw [hl, List.map_cons, List.headD_cons] at next
    simp only [firstFree, next, head]

/-- The search loop of `alloc_pages` takes the first non-empty order. -/
theorem allocLoop_spec (h : FreeInv s L) (order : Nat) : ∀ (n current : Nat), order ≤ current →
    maxOrder - current ≤ n → (∀ k, order ≤ k → k < current → L k = []) →
    (allocLoop n s order current = (s, none) ∧ ∀ k, order ≤ k → k < maxOrder → L k = []) ∨
    ∃ i c s' L', allocLoop n s order current = (s', some i) ∧ Allocated s L order i c s' L' := by
  intro n
  induction n with
  | zero =>
    intro current le fuel least
    exact .inl ⟨rfl, fun k h1 h2 => least k h1 (by omega)⟩
  | succ n ih =>
    intro current le fuel least
    by_cases lt : current < maxOrder
    swap
    · exact .inl ⟨by simp only [allocLoop, if_neg lt], fun k h1 h2 => least k h1 (by omega)⟩
    have empty := listEmpty_iff (h.ring current lt)
    rw [List.map_eq_nil_iff] at empty
    cases hl : L current with
    | nil =>
      simp only [allocLoop, if_pos lt, empty.2 hl, if_true]
      refine ih (current + 1) (by omega) (by omega) fun k h1 h2 => ?_
      by_cases same : k = current
      · exact same ▸ hl
      · exact least k h1 (by omega)
    | cons i rest =>
      have head : (L current).head? = some i := by rw [hl, List.head?_cons]
      have nonempty : listEmpty s.links (.freeList current) = false := by
        rw [Bool.eq_false_iff]; intro q; rw [empty.1 q] at hl; cases hl
      obtain ⟨L', a⟩ := take_expand h lt le least head
      exact .inr ⟨i, current, _, L', by simp only [allocLoop, if_pos lt, nonempty, firstFree_eq h lt head]; rfl, a⟩

/-- **`alloc_pages`** fails with nothing changed, or allocates from the least
sufficient order. -/
theorem allocPages_spec (h : FreeInv s L) (order : Nat) :
    (s.allocPages order = (s, none) ∧ ∀ k, order ≤ k → k < maxOrder → L k = []) ∨
    ∃ i c s' L', s.allocPages order = (s', some i) ∧ Allocated s L order i c s' L' := by
  by_cases big : maxOrder ≤ order
  · exact .inl ⟨by simp only [allocPages, if_pos big], fun k h1 h2 => by omega⟩
  · simp only [allocPages, if_neg big]
    exact allocLoop_spec h order maxOrder order le_rfl (by omega) fun k h1 h2 => by omega

/-! ## Seeding -/

/-- The inner loop of `__free_memory_core` finds an order at which `pfn` is
aligned and the block ends by `limit`; every larger one it tried fails. -/
theorem fitOrder_spec {pfn limit : Nat} (lt : pfn < limit) : ∀ k,
    fitOrder pfn limit k ≤ k ∧ 2 ^ fitOrder pfn limit k ∣ pfn ∧ pfn + 2 ^ fitOrder pfn limit k ≤ limit ∧
      ∀ o, fitOrder pfn limit k < o → o ≤ k → ¬ (2 ^ o ∣ pfn ∧ pfn + 2 ^ o ≤ limit) := by
  intro k
  induction k with
  | zero =>
    refine ⟨le_rfl, by simp [fitOrder], by simp only [fitOrder, pow_zero]; omega, fun o h1 h2 => by omega⟩
  | succ k ih =>
    rw [fitOrder, Nat.one_shiftLeft, Nat.and_two_pow_sub_one_eq_mod]
    split
    · next bad =>
      obtain ⟨h1, h2, h3, h4⟩ := ih
      refine ⟨by omega, h2, h3, fun o lo hi => ?_⟩
      by_cases top : o = k + 1
      · subst top
        rintro ⟨div, fits⟩
        simp only [Nat.mod_eq_zero_of_dvd div, bne_self_eq_false, Bool.false_or, decide_eq_true_eq] at bad
        omega
      · exact h4 o lo (by omega)
    · next good =>
      simp only [Bool.or_eq_true, bne_iff_ne, decide_eq_true_eq, not_or, not_not, not_lt] at good
      exact ⟨le_rfl, Nat.dvd_of_mod_eq_zero good.1, good.2, fun o h1 h2 => by omega⟩

/-- What handing the frames `[pfn, limit)` over does. -/
structure Seeded (s : PageAlloc) (L : Nat → List Nat) (pfn limit : Nat)
    (s' : PageAlloc) (L' : Nat → List Nat) : Prop where
  inv : FreeInv s' L'
  cover : ∀ x, x ∈ cover (s'.blocks L') ↔ pfn ≤ x ∧ x < limit ∨ x ∈ cover (s.blocks L)
  total : freeTotal L' = freeTotal L + (limit - pfn)
  touches : Touches (Set.Ico pfn limit ∪ Pow2.cover (s.blocks L)) s s'
  count : s'.freeCount = add64 s.freeCount (limit - pfn)

theorem Seeded.refl {pfn limit : Nat} (h : FreeInv s L) (count : s.freeCount < 2 ^ 64) (le : limit ≤ pfn) :
    Seeded s L pfn limit s L := by
  refine ⟨h, fun x => ⟨.inr, ?_⟩, by omega, .refl _ s, ?_⟩
  · rintro (hx | hx)
    · omega
    · exact hx
  · rw [show limit - pfn = 0 by omega, add64_of_lt (by omega), Nat.add_zero]

/-- Frames that are managed and not covered make an aligned block in hand. -/
theorem InHand.of_frames {pfn : Nat} (lt : o < maxOrder) (lower : s.memMapBasePfn ≤ pfn)
    (aligned : 2 ^ o ∣ pfn) (upper : pfn + 2 ^ o ≤ s.mapEnd)
    (out : ∀ x, pfn ≤ x → x < pfn + 2 ^ o → x ∉ Pow2.cover (s.blocks L)) :
    InHand s L (pfn - s.memMapBasePfn) o := by
  have start : s.memMapBasePfn + (pfn - s.memMapBasePfn) = pfn := Nat.add_sub_cancel' lower
  refine ⟨lt, ?_, ?_, fun c hc x hx hx' => ?_⟩
  · simpa only [Block.Aligned, blockAt, start] using aligned
  · rwa [start]
  · rw [blockAt_mem, start] at hx
    exact out x hx.1 hx.2 ⟨c, hc, hx'⟩

theorem add64_assoc (a b c : Nat) : add64 (add64 a b) c = add64 a (b + c) := by
  simp only [add64]; omega

/-- A block that is freed, and then the frames behind it. -/
theorem Seeded.block {pfn limit : Nat} {s₁ s' : PageAlloc} {L₁ L' : Nat → List Nat}
    (f : Freed s L (pfn - s.memMapBasePfn) o s₁ L₁) (count : s₁.freeCount = add64 s.freeCount (2 ^ o))
    (lower : s.memMapBasePfn ≤ pfn) (fits : pfn + 2 ^ o ≤ limit) (d : Seeded s₁ L₁ (pfn + 2 ^ o) limit s' L') :
    Seeded s L pfn limit s' L' := by
  have pos := Nat.two_pow_pos o
  have start : s.memMapBasePfn + (pfn - s.memMapBasePfn) = pfn := Nat.add_sub_cancel' lower
  have cov₁ : ∀ x, x ∈ Pow2.cover (s₁.blocks L₁) ↔
      (pfn ≤ x ∧ x < pfn + 2 ^ o) ∨ x ∈ Pow2.cover (s.blocks L) := fun x => by
    rw [f.cover x, blockAt_mem, start]
  refine ⟨d.inv, fun x => ?_, ?_, ?_, ?_⟩
  · rw [d.cover x, cov₁ x, ← or_assoc]
    refine or_congr_left ?_
    omega
  · have total := f.total
    have total' := d.total
    omega
  · refine (f.touches.mono ?_).trans (d.touches.mono ?_)
    · rintro x (hx | hx)
      · have hx' : (s.blockAt (pfn - s.memMapBasePfn) o).Mem x := hx
        rw [blockAt_mem, start] at hx'
        exact .inl ⟨hx'.1, by omega⟩
      · exact .inr hx
    · rintro x (hx | hx)
      · exact .inl ⟨by have := hx.1; omega, hx.2⟩
      · exact ((cov₁ x).1 hx).imp (fun q => ⟨q.1, by omega⟩) id
  · rw [d.count, count, add64_assoc]
    congr 1
    omega

/-- **The loop of `__free_memory_core`** hands over every frame of the range. -/
theorem seedLoop_spec : ∀ (n : Nat) (s : PageAlloc) (L : Nat → List Nat) (pfn limit : Nat),
    limit - pfn ≤ n → FreeInv s L → s.memMapBasePfn ≤ pfn → limit ≤ s.mapEnd → s.freeCount < 2 ^ 64 →
    (∀ x, pfn ≤ x → x < limit → x ∉ Pow2.cover (s.blocks L)) →
    ∃ L', Seeded s L pfn limit (seedLoop n s pfn limit) L' := by
  intro n
  induction n with
  | zero =>
    intro s L pfn limit fuel h lower upper count out
    exact ⟨L, .refl h count (by omega)⟩
  | succ n ih =>
    intro s L pfn limit fuel h lower upper count out
    by_cases lt : pfn < limit
    swap
    · simp only [seedLoop, if_neg lt]
      exact ⟨L, .refl h count (by omega)⟩
    obtain ⟨leO, aligned, fits, -⟩ := fitOrder_spec lt (maxOrder - 1)
    generalize hfit : fitOrder pfn limit (maxOrder - 1) = o at leO aligned fits
    have bound := s.mapEnd_lt
    have pos := Nat.two_pow_pos o
    have ltO : o < maxOrder := by simp only [maxOrder] at leO ⊢; omega
    have hand : InHand s L (pfn - s.memMapBasePfn) o :=
      .of_frames ltO lower aligned (fits.trans upper) fun x h1 h2 => out x h1 (by omega)
    have page : s.pfnToPage pfn = pfn - s.memMapBasePfn := pfnToPage_eq lower (by omega)
    obtain ⟨L₁, f, count₁⟩ := freePages_spec h hand
    have base := f.touches.base
    have ends : (s.freePages (pfn - s.memMapBasePfn) o).mapEnd = s.mapEnd := by
      simp only [mapEnd, base, f.touches.size]
    have out₁ : ∀ x, pfn + 2 ^ o ≤ x → x < limit →
        x ∉ Pow2.cover ((s.freePages (pfn - s.memMapBasePfn) o).blocks L₁) := by
      intro x low high covered
      rcases (f.cover x).1 covered with inside | before
      · rw [blockAt_mem] at inside
        omega
      · exact out x (by omega) high before
    obtain ⟨L', d⟩ := ih (s.freePages (pfn - s.memMapBasePfn) o) L₁ (pfn + 2 ^ o) limit (by omega) f.inv
      (by rw [base]; omega) (by rw [ends]; exact upper) (by rw [count₁]; exact add64_lt _ _) out₁
    simp only [seedLoop, if_pos lt, hfit, page, Nat.one_shiftLeft]
    exact ⟨L', d.block f count₁ lower fits⟩

/-- The first and the last frame that `__free_memory_core` hands over. -/
def seedStart (s : PageAlloc) (start : Nat) : Nat :=
  max s.memMapBasePfn (add64 start (pageSize - 1) >>> pageShift)

def seedLimit (s : PageAlloc) (stop : Nat) : Nat := min s.mapEnd (stop >>> pageShift)

/-- **`__free_memory_core`** hands over the managed frames between the rounded
ends of the range. -/
theorem freeMemoryCore_spec (h : FreeInv s L) (start stop : Nat) (count : s.freeCount < 2 ^ 64)
    (out : ∀ x, s.seedStart start ≤ x → x < s.seedLimit stop → x ∉ Pow2.cover (s.blocks L)) :
    ∃ L', Seeded s L (s.seedStart start) (s.seedLimit stop) (s.freeMemoryCore start stop) L' := by
  have h1 : (if add64 start (pageSize - 1) >>> pageShift < s.memMapBasePfn then s.memMapBasePfn
      else add64 start (pageSize - 1) >>> pageShift) = s.seedStart start := by
    simp only [seedStart]; split <;> omega
  have h2 : (if add64 s.memMapBasePfn s.maxMapnr < stop >>> pageShift then add64 s.memMapBasePfn s.maxMapnr
      else stop >>> pageShift) = s.seedLimit stop := by
    simp only [seedLimit, mapEnd]; split <;> omega
  simp only [freeMemoryCore, h1, h2]
  exact seedLoop_spec _ s L _ _ le_rfl h (le_max_left _ _) (min_le_left _ _) count out

/-! ## Initialisation -/

theorem initLinks_ring (m : Heap Node) (n : Nat) {o : Nat} (lt : o < n) :
    Ring ((List.range n).foldl (fun m order => initListHead m (.freeList order)) m) (.freeList o) [] := by
  induction n with
  | zero => omega
  | succ n ih =>
    rw [List.range_succ, List.foldl_append, List.foldl_cons, List.foldl_nil]
    by_cases top : o = n
    · subst top
      exact initListHead_ring _ _
    · refine (ih (by omega)).congr fun x hx => initListHead_frame ?_
      simp only [List.mem_cons, List.not_mem_nil, or_false] at hx
      rw [hx]
      simpa using top

/-- **`free_area_init`** leaves every list empty, whatever was there before. -/
theorem freeAreaInit_spec (s : PageAlloc) (base pages : Nat) :
    FreeInv (s.freeAreaInit base pages) (fun _ => []) where
  ring o lt := initLinks_ring _ maxOrder lt
  count o lt := by simp [freeAreaInit, lt]
  flag i lt := by
    have zero : (s.freeAreaInit base pages).memMap i = Page.zero := if_pos lt
    simp [zero, Page.zero, Page.buddy]
  order o lt i mem := by cases mem
  inside o lt i mem := by cases mem
  tiling := by
    have none : (s.freeAreaInit base pages).blocks (fun _ => []) = ∅ := by
      ext b; simp [blocks]
    rw [none]
    constructor <;> intro b hb <;> cases hb

end

end PageAlloc

end MiaowOs
