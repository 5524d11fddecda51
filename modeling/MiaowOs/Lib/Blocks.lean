import Mathlib.Data.Nat.Bitwise
import Mathlib.Data.Set.Basic
import Mathlib.Data.Set.Card
import Mathlib.Order.Interval.Finset.Nat
import Mathlib.Tactic.Ring

/-!
# Naturally aligned power-of-two blocks

A block of order `o` holds `2 ^ o` consecutive numbers. Two naturally aligned
blocks are nested or disjoint (`Block.nested`), and the two halves of a block
are each other's buddies: their starts differ in one bit. A `Tiling N` is a set
of disjoint aligned blocks of order at most `N` in which no two buddies below
order `N` are both present. Such a set is determined by the numbers it covers:
its blocks are the maximal aligned blocks inside the cover
(`Tiling.mem_iff_maximal`, `Tiling.ext`).
-/

namespace Pow2

/-- `2 ^ order` consecutive numbers from `start`. -/
structure Block where
  start : Nat
  order : Nat
  deriving DecidableEq, Repr

namespace Block

/-- The number `x` lies in the block. -/
def Mem (b : Block) (x : Nat) : Prop := b.start ≤ x ∧ x < b.start + 2 ^ b.order

instance (b : Block) (x : Nat) : Decidable (b.Mem x) := inferInstanceAs (Decidable (_ ∧ _))

/-- The block starts at a multiple of its size. -/
def Aligned (b : Block) : Prop := 2 ^ b.order ∣ b.start

/-- The blocks share no number. -/
def Apart (b c : Block) : Prop := ∀ x, b.Mem x → ¬ c.Mem x

/-- The other half of the block of the next order. -/
def buddy (b : Block) : Block := ⟨b.start ^^^ 2 ^ b.order, b.order⟩

/-- The aligned block of the next order around the block. -/
def parent (b : Block) : Block := ⟨2 ^ (b.order + 1) * (b.start / 2 ^ (b.order + 1)), b.order + 1⟩

variable {b c : Block} {x y : Nat}

theorem start_mem (b : Block) : b.Mem b.start := ⟨le_rfl, Nat.lt_add_of_pos_right (Nat.two_pow_pos _)⟩

theorem Apart.symm (h : b.Apart c) : c.Apart b := fun x hc hb => h x hb hc

theorem mem_iff_div (h : b.Aligned) : b.Mem x ↔ x / 2 ^ b.order = b.start / 2 ^ b.order := by
  obtain ⟨q, hq⟩ := h
  have pos := Nat.two_pow_pos b.order
  simp only [Mem, hq, Nat.mul_div_cancel_left q pos]
  rw [Nat.div_eq_iff pos, Nat.mul_comm]
  constructor <;> intro hx <;> omega

/-- Aligned blocks that meet are nested. -/
theorem nested (hb : b.Aligned) (hc : c.Aligned) (le : b.order ≤ c.order) (xb : b.Mem x)
    (xc : c.Mem x) (yb : b.Mem y) : c.Mem y := by
  rw [mem_iff_div hb] at xb yb
  rw [mem_iff_div hc] at xc ⊢
  obtain ⟨k, hk⟩ := Nat.exists_eq_add_of_le le
  rw [hk, pow_add, ← Nat.div_div_eq_div_mul] at xc ⊢
  rw [yb, ← xb, xc]

/-- Aligned blocks of one order that meet are equal. -/
theorem eq_of_mem (hb : b.Aligned) (hc : c.Aligned) (same : b.order = c.order) (xb : b.Mem x)
    (xc : c.Mem x) : b = c := by
  have h1 := nested hb hc same.le xb xc b.start_mem
  have h2 := nested hc hb same.ge xc xb c.start_mem
  cases b; cases c
  simp only [Mem] at *
  subst same
  congr 1
  omega

/-- The two cases of a buddy: the bit `order` of the start is clear, and the
buddy is the upper half, or it is set, and the buddy is the lower half. -/
theorem buddy_cases (h : b.Aligned) :
    (b.buddy.start = b.start + 2 ^ b.order ∧ b.parent.start = b.start) ∨
    (b.start = b.buddy.start + 2 ^ b.order ∧ b.parent.start = b.buddy.start) := by
  obtain ⟨q, hq⟩ := h
  have pos := Nat.two_pow_pos b.order
  have hx : b.buddy.start = 2 ^ b.order * (q ^^^ 1) := by
    simp only [buddy, hq]
    apply Nat.eq_of_testBit_eq
    intro i
    rw [Nat.testBit_xor, Nat.testBit_two_pow_mul, Nat.testBit_two_pow_mul, Nat.testBit_two_pow,
      Nat.testBit_xor, show (1 : Nat) = 2 ^ 0 from rfl, Nat.testBit_two_pow]
    by_cases hi : b.order ≤ i
    · simp only [hi, decide_true, Bool.true_and]
      congr 1
      exact decide_eq_decide.2 (by omega)
    · simp [hi]; omega
  have hp : b.parent.start = 2 ^ b.order * (2 * (q / 2)) := by
    simp only [parent, hq, pow_succ, Nat.mul_div_mul_left q 2 pos, Nat.mul_assoc]
  rcases Nat.even_or_odd q with he | ho
  · left
    rw [hx, hp, hq, Nat.xor_one_of_even he, Nat.mul_add, Nat.mul_one]
    exact ⟨rfl, by rw [Nat.two_mul_div_two_of_even he]⟩
  · right
    rw [hx, hp, hq, Nat.xor_one_of_odd ho]
    obtain ⟨k, hk⟩ := ho
    subst hk
    refine ⟨?_, by congr 1; omega⟩
    rw [show 2 * k + 1 - 1 = 2 * k by omega, Nat.mul_add, Nat.mul_one]

theorem parent_aligned (b : Block) : b.parent.Aligned := ⟨_, rfl⟩

theorem buddy_aligned (h : b.Aligned) : b.buddy.Aligned := by
  rcases buddy_cases h with ⟨hs, -⟩ | ⟨hs, -⟩
  · show 2 ^ b.order ∣ _
    rw [hs]
    exact Nat.dvd_add h (dvd_refl _)
  · show 2 ^ b.order ∣ b.buddy.start
    have h' : 2 ^ b.order ∣ b.buddy.start + 2 ^ b.order := hs ▸ h
    exact (Nat.dvd_add_left (dvd_refl _)).1 h'

theorem buddy_ne (b : Block) : b.buddy ≠ b := by
  intro h
  have hs : b.start ^^^ 2 ^ b.order = b.start := congrArg start h
  have hz : 2 ^ b.order = 0 := by
    have := congrArg (b.start ^^^ ·) hs
    simp only [← Nat.xor_assoc, Nat.xor_self, Nat.zero_xor] at this
    exact this
  have := Nat.two_pow_pos b.order
  omega

@[simp] theorem buddy_buddy (b : Block) : b.buddy.buddy = b := by
  simp [buddy]

/-- A parent is its block and the buddy. -/
theorem parent_mem (h : b.Aligned) : b.parent.Mem x ↔ b.Mem x ∨ b.buddy.Mem x := by
  have ho : b.parent.order = b.order + 1 := rfl
  have hb : b.buddy.order = b.order := rfl
  simp only [Mem, ho, hb, pow_succ]
  rcases buddy_cases h with ⟨hs, hp⟩ | ⟨hs, hp⟩ <;> omega

/-- The upper half of an aligned block, and the lower half as its buddy. -/
theorem upper_half {p o : Nat} (h : (⟨p, o + 1⟩ : Block).Aligned) :
    (⟨p, o⟩ : Block).Aligned ∧ (⟨p + 2 ^ o, o⟩ : Block).Aligned ∧
      (⟨p + 2 ^ o, o⟩ : Block).buddy = ⟨p, o⟩ := by
  have hp : 2 ^ (o + 1) ∣ p := h
  have low : (⟨p, o⟩ : Block).Aligned := (pow_dvd_pow 2 (Nat.le_succ o)).trans hp
  have hb : (⟨p, o⟩ : Block).buddy = ⟨p + 2 ^ o, o⟩ := by
    have hparent : (⟨p, o⟩ : Block).parent.start = p := Nat.mul_div_cancel' hp
    rcases buddy_cases low with ⟨hs, -⟩ | ⟨hs, hq⟩
    · exact congrArg (Block.mk · o) hs
    · rw [hparent] at hq
      simp only at hs
      have := Nat.two_pow_pos o
      omega
  exact ⟨low, hb ▸ buddy_aligned low, by rw [← hb, buddy_buddy]⟩

end Block

/-- The numbers covered by a set of blocks. -/
def cover (B : Set Block) : Set Nat := {x | ∃ b ∈ B, b.Mem x}

/-- Disjoint aligned blocks of order at most `N`, fully coalesced below `N`. -/
structure Tiling (N : Nat) (B : Set Block) : Prop where
  order_le : ∀ b ∈ B, b.order ≤ N
  aligned : ∀ b ∈ B, b.Aligned
  apart : ∀ b ∈ B, ∀ c ∈ B, b ≠ c → b.Apart c
  coalesced : ∀ b ∈ B, b.order < N → b.buddy ∉ B

/-- An aligned block of order at most `N` inside `F` that no larger such block
contains. -/
structure Maximal (N : Nat) (F : Set Nat) (b : Block) : Prop where
  aligned : b.Aligned
  order_le : b.order ≤ N
  inside : ∀ x, b.Mem x → x ∈ F
  outgrown : b.order < N → ∃ x, b.parent.Mem x ∧ x ∉ F

section
variable {N : Nat} {B C : Set Block}

theorem Tiling.eq_of_mem (t : Tiling N B) {b c : Block} (hb : b ∈ B) (hc : c ∈ B) {x : Nat}
    (xb : b.Mem x) (xc : c.Mem x) : b = c := by
  by_contra ne
  exact t.apart b hb c hc ne x xb xc

/-- An aligned block inside the cover lies inside one block of the tiling. -/
theorem Tiling.covering (t : Tiling N B) : ∀ (o p : Nat), (⟨p, o⟩ : Block).Aligned → o ≤ N →
    (∀ x, (⟨p, o⟩ : Block).Mem x → x ∈ cover B) →
    ∃ c ∈ B, o ≤ c.order ∧ ∀ x, (⟨p, o⟩ : Block).Mem x → c.Mem x := by
  intro o
  induction o with
  | zero =>
    intro p _ _ inside
    obtain ⟨c, hc, hx⟩ := inside p (Block.start_mem ⟨p, 0⟩)
    refine ⟨c, hc, Nat.zero_le _, fun x hx' => ?_⟩
    simp only [Block.Mem, pow_zero] at hx' hx ⊢
    omega
  | succ o ih =>
    intro p al le inside
    obtain ⟨low, high, hbuddy⟩ := Block.upper_half al
    have halves : ∀ x, (⟨p, o + 1⟩ : Block).Mem x ↔
        (⟨p, o⟩ : Block).Mem x ∨ (⟨p + 2 ^ o, o⟩ : Block).Mem x := by
      intro x
      simp only [Block.Mem, pow_succ]
      omega
    obtain ⟨c, hc, hco, hcx⟩ := ih p low (by omega) fun x hx => inside x ((halves x).2 (.inl hx))
    obtain ⟨d, hd, hdo, hdx⟩ := ih (p + 2 ^ o) high (by omega) fun x hx =>
      inside x ((halves x).2 (.inr hx))
    by_cases hcl : o + 1 ≤ c.order
    · exact ⟨c, hc, hcl, fun x hx => Block.nested al (t.aligned c hc) hcl
        ((halves p).2 (.inl (Block.start_mem ⟨p, o⟩))) (hcx p (Block.start_mem ⟨p, o⟩)) hx⟩
    · by_cases hdl : o + 1 ≤ d.order
      · exact ⟨d, hd, hdl, fun x hx => Block.nested al (t.aligned d hd) hdl
          ((halves _).2 (.inr (Block.start_mem ⟨p + 2 ^ o, o⟩)))
          (hdx _ (Block.start_mem ⟨p + 2 ^ o, o⟩)) hx⟩
      · -- both halves are blocks of the tiling: it would not be coalesced
        have hce : (⟨p, o⟩ : Block) = c := Block.eq_of_mem low (t.aligned c hc) (by simp only; omega)
          (Block.start_mem ⟨p, o⟩) (hcx p (Block.start_mem ⟨p, o⟩))
        have hde : (⟨p + 2 ^ o, o⟩ : Block) = d := Block.eq_of_mem high (t.aligned d hd)
          (by simp only; omega) (Block.start_mem ⟨p + 2 ^ o, o⟩)
          (hdx _ (Block.start_mem ⟨p + 2 ^ o, o⟩))
        subst hce hde
        refine absurd ?_ (t.coalesced _ hd (by simp only; omega))
        rw [hbuddy]
        exact hc

/-- **The blocks of a tiling are the maximal aligned blocks inside its cover.** -/
theorem Tiling.mem_iff_maximal (t : Tiling N B) {b : Block} : b ∈ B ↔ Maximal N (cover B) b := by
  constructor
  · intro hb
    refine ⟨t.aligned b hb, t.order_le b hb, fun x hx => ⟨b, hb, hx⟩, fun lt => ?_⟩
    by_contra all
    push Not at all
    obtain ⟨c, hc, hco, hcx⟩ := t.covering (b.order + 1) b.parent.start b.parent_aligned lt all
    have same := t.eq_of_mem hb hc b.start_mem
      (hcx _ ((Block.parent_mem (t.aligned b hb)).2 (.inl b.start_mem)))
    rw [← same] at hco
    omega
  · intro m
    obtain ⟨c, hc, hco, hcx⟩ := t.covering b.order b.start m.aligned m.order_le m.inside
    have atStart := hcx _ b.start_mem
    by_cases same : b.order = c.order
    · exact Block.eq_of_mem m.aligned (t.aligned c hc) same b.start_mem atStart ▸ hc
    · have := t.order_le c hc
      obtain ⟨x, hx, out⟩ := m.outgrown (by omega)
      refine absurd ⟨c, hc, ?_⟩ out
      exact Block.nested b.parent_aligned (t.aligned c hc) (show b.order + 1 ≤ c.order by omega)
        ((Block.parent_mem m.aligned).2 (.inl b.start_mem)) atStart hx

/-- A tiling is determined by what it covers. -/
theorem Tiling.ext (t : Tiling N B) (u : Tiling N C) (same : cover B = cover C) : B = C := by
  ext b
  rw [t.mem_iff_maximal, u.mem_iff_maximal, same]

/-- Taking blocks away keeps a tiling. -/
theorem Tiling.mono (t : Tiling N B) (sub : C ⊆ B) : Tiling N C where
  order_le b hb := t.order_le b (sub hb)
  aligned b hb := t.aligned b (sub hb)
  apart b hb c hc := t.apart b (sub hb) c (sub hc)
  coalesced b hb lt hb' := t.coalesced b (sub hb) lt (sub hb')

/-- Adding an aligned block apart from the others keeps a tiling, if the
block's buddy is not there. -/
theorem Tiling.insert (t : Tiling N B) {b : Block} (al : b.Aligned) (le : b.order ≤ N)
    (ap : ∀ c ∈ B, b.Apart c) (alone : b.order < N → b.buddy ∉ B) : Tiling N (insert b B) where
  order_le c hc := by
    rcases hc with rfl | hc
    · exact le
    · exact t.order_le c hc
  aligned c hc := by
    rcases hc with rfl | hc
    · exact al
    · exact t.aligned c hc
  apart c hc d hd ne := by
    rcases hc with rfl | hc <;> rcases hd with rfl | hd
    · exact absurd rfl ne
    · exact ap d hd
    · exact (ap c hc).symm
    · exact t.apart c hc d hd ne
  coalesced c hc lt hc' := by
    rcases hc with rfl | hc <;> rcases hc' with hc' | hc'
    · exact Block.buddy_ne _ hc'
    · exact alone lt hc'
    · have : b.buddy = c := by rw [← hc', Block.buddy_buddy]
      refine alone ?_ (this ▸ hc)
      rw [show b.order = c.order by rw [← hc']; rfl]
      exact lt
    · exact t.coalesced c hc lt hc'

/-- The numbers of a block are an interval. -/
theorem Block.setOf_mem (b : Block) : {x | b.Mem x} = Set.Ico b.start (b.start + 2 ^ b.order) := rfl

theorem cover_cons (b : Block) (bs : List Block) :
    cover {c | c ∈ b :: bs} = {x | b.Mem x} ∪ cover {c | c ∈ bs} := by
  ext x
  simp only [cover, Set.mem_ofPred_eq, List.mem_cons, exists_eq_or_imp, Set.mem_union]

/-- Pairwise disjoint blocks cover as many numbers as their sizes add up to. -/
theorem ncard_cover {bs : List Block} (ap : bs.Pairwise Block.Apart) :
    (cover {c | c ∈ bs}).Finite ∧ (cover {c | c ∈ bs}).ncard = (bs.map fun b => 2 ^ b.order).sum := by
  induction bs with
  | nil => simp [cover]
  | cons b bs ih =>
    obtain ⟨head, tail⟩ := List.pairwise_cons.1 ap
    obtain ⟨fin, card⟩ := ih tail
    have hb : {x | b.Mem x}.Finite := b.setOf_mem ▸ Set.finite_Ico _ _
    have size : {x | b.Mem x}.ncard = 2 ^ b.order := by
      rw [b.setOf_mem, ← Finset.coe_Ico, Set.ncard_coe_finset, Nat.card_Ico, Nat.add_sub_cancel_left]
    have dis : Disjoint {x | b.Mem x} (cover {c | c ∈ bs}) := by
      rw [Set.disjoint_left]
      rintro x hx ⟨c, hc, hx'⟩
      exact head c hc x hx hx'
    rw [cover_cons, Set.ncard_union_eq dis hb fin, size, card, List.map_cons, List.sum_cons]
    exact ⟨hb.union fin, rfl⟩

end

end Pow2
