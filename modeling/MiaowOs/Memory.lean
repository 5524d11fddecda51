import MiaowOs.Lib.Blocks

/-!
# Machine words and the memory layout

`unsigned long`, `uintptr_t` and `size_t` are natural numbers below `2 ^ 64`;
the operations that can leave that range are reduced modulo `2 ^ 64` where the
code computes them (`add64`, `sub64`, `not64`). The constants are those of
`include/miaow/memory.h`, `include/miaow/mm.h` and `include/abi.h`; `pa` and
`va` are the `__pa` and `__va` macros.
-/

namespace MiaowOs

/-- `UINTPTR_MAX`. -/
abbrev uintptrMax : Nat := 2 ^ 64 - 1

/-- Addition of `unsigned long`. -/
def add64 (a b : Nat) : Nat := (a + b) % 2 ^ 64

/-- Subtraction of `unsigned long`. -/
def sub64 (a b : Nat) : Nat := (a + (2 ^ 64 - b % 2 ^ 64)) % 2 ^ 64

/-- Complement of `unsigned long`. -/
def not64 (a : Nat) : Nat := (2 ^ 64 - 1) ^^^ a

/-- Addition of `unsigned`. -/
def add32 (a b : Nat) : Nat := (a + b) % 2 ^ 32

/-- Subtraction of `unsigned`. -/
def sub32 (a b : Nat) : Nat := (a + (2 ^ 32 - b % 2 ^ 32)) % 2 ^ 32

theorem add64_of_lt {a b : Nat} (h : a + b < 2 ^ 64) : add64 a b = a + b := Nat.mod_eq_of_lt h

theorem sub64_of_le {a b : Nat} (h : b ≤ a) (ha : a < 2 ^ 64) : sub64 a b = a - b := by
  unfold sub64; omega

theorem add32_of_lt {a b : Nat} (h : a + b < 2 ^ 32) : add32 a b = a + b := Nat.mod_eq_of_lt h

theorem sub32_of_le {a b : Nat} (h : b ≤ a) (ha : a < 2 ^ 32) : sub32 a b = a - b := by
  unfold sub32; omega

theorem add64_lt (a b : Nat) : add64 a b < 2 ^ 64 := Nat.mod_lt _ (by decide)

/-- Clearing bit `order` of an aligned start gives the start of the parent:
the merge step of `__free_one_page`. -/
theorem and_not64_eq_parent {b : Pow2.Block} (h : b.Aligned) (lt : b.start < 2 ^ 64) :
    b.start &&& not64 (2 ^ b.order) = b.parent.start := by
  obtain ⟨q, hq⟩ := h
  have low : ∀ i, i < b.order → b.start.testBit i = false := fun i hi => by
    rw [hq, Nat.testBit_two_pow_mul]; simp; omega
  apply Nat.eq_of_testBit_eq
  intro i
  have hp : b.parent.start.testBit i = (decide (b.order + 1 ≤ i) && b.start.testBit i) := by
    simp only [Pow2.Block.parent]
    rw [Nat.testBit_two_pow_mul, Nat.testBit_div_two_pow]
    by_cases hi : b.order + 1 ≤ i
    · simp only [hi, decide_true, Bool.true_and]; congr 1; omega
    · simp [hi]
  rw [hp, Nat.testBit_and, not64, Nat.testBit_xor, Nat.testBit_two_pow_sub_one, Nat.testBit_two_pow]
  rcases Nat.lt_trichotomy i b.order with lt' | rfl | gt
  · simp [low i lt']
  · by_cases hi : b.order < 64
    · simp [hi]
    · have : b.start.testBit b.order = false :=
        Nat.testBit_lt_two_pow (lt.trans_le (Nat.pow_le_pow_right (by decide) (by omega)))
      simp [this]
  · by_cases hi : i < 64
    · simp [hi, show b.order ≠ i by omega, show b.order + 1 ≤ i by omega]
    · have : b.start.testBit i = false :=
        Nat.testBit_lt_two_pow (lt.trans_le (Nat.pow_le_pow_right (by decide) (by omega)))
      simp [this]

/-! ## `memory.h` -/

abbrev pageShift : Nat := 12
abbrev pageSize : Nat := 4096
abbrev physOffset : Nat := 0x40000000
abbrev ramSize : Nat := 0x08000000
abbrev pageOffset : Nat := 0xffffffc000000000

/-- `__pa`: the physical address of a linear-map address. -/
def pa (address : Nat) : Nat := add64 (sub64 address pageOffset) physOffset

/-- `__va`: the linear-map address of a physical address. -/
def va (address : Nat) : Nat := add64 (sub64 address physOffset) pageOffset

theorem pa_va {a : Nat} (h : a < 2 ^ 64) : pa (va a) = a := by
  unfold pa va add64 sub64; omega

theorem va_lt (a : Nat) : va a < 2 ^ 64 := add64_lt _ _

theorem pa_lt (a : Nat) : pa a < 2 ^ 64 := add64_lt _ _

/-! ## `mm.h` -/

abbrev maxOrder : Nat := 11

/-! ## `abi.h` -/

abbrev appFirst : Nat := 0x41000000
abbrev appSlotSize : Nat := 0x20000
abbrev appImageSize : Nat := 0x10000
abbrev appStackSize : Nat := 0x4000
abbrev appCount : Nat := 3

end MiaowOs
