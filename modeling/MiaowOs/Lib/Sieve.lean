import Mathlib

/-!
# Counting primes with bits

The sieve of Eratosthenes on one large number whose bit `i` says that `i` is
composite. The multiples of a number are a geometric sum, so they are had with one
division; the bits are counted by halves. What comes out is the number of primes
(`primeCounting_eq`), and it comes out fast enough to be computed in a proof.
-/

namespace Sieve

/-- The bits at the multiples of `d` below `d * n`. -/
def multiples (d n : ℕ) : ℕ := (2 ^ (d * n) - 1) / (2 ^ d - 1)

/-- The bits at the proper multiples of `2, …, r + 1`, up to `top` at least. -/
def composites (top : ℕ) : ℕ → ℕ
  | 0 => 0
  | r + 1 => composites top r ||| multiples (r + 2) (top / (r + 2) + 1) <<< (2 * (r + 2))

/-- The number of bits set in a byte. -/
def onesByte (x : ℕ) : ℕ :=
  x % 2 + x / 2 % 2 + x / 4 % 2 + x / 8 % 2 + x / 16 % 2 + x / 32 % 2 + x / 64 % 2 + x / 128 % 2

/-- The number of bits set in `2 ^ k` bytes. -/
def ones : ℕ → ℕ → ℕ
  | 0, x => onesByte x
  | k + 1, x => ones k (x % 2 ^ (8 * 2 ^ k)) + ones k (x / 2 ^ (8 * 2 ^ k))

variable {d n i k r top x : ℕ}

theorem multiples_succ (pos : 0 < d) : multiples d (n + 1) = 2 ^ (d * n) + multiples d n := by
  have two : 2 ≤ 2 ^ d := Nat.pow_le_pow_right (by decide : 0 < 2) pos
  have sum : ∀ n, multiples d n = ∑ k ∈ Finset.range n, (2 ^ d) ^ k := by
    intro n
    rw [multiples, Nat.pow_mul, Nat.geomSum_eq two]
  rw [sum, sum, Finset.sum_range_succ, Nat.pow_mul, Nat.add_comm]

theorem multiples_lt (pos : 0 < d) : multiples d n < 2 ^ (d * n) := by
  induction n with
  | zero => simp [multiples]
  | succ n ih =>
    have step : 2 ^ (d * n) + 2 ^ (d * n) ≤ 2 ^ (d * (n + 1)) := by
      rw [← Nat.two_mul, ← Nat.pow_succ']
      apply Nat.pow_le_pow_right (by decide)
      rw [Nat.mul_succ]
      omega
    rw [multiples_succ pos]
    omega

theorem testBit_multiples (pos : 0 < d) : (multiples d n).testBit i = true ↔ d ∣ i ∧ i < d * n := by
  induction n with
  | zero => simp [multiples]
  | succ n ih =>
    have below : multiples d n < 2 ^ (d * n) := multiples_lt pos
    have next : d * (n + 1) = d * n + d := Nat.mul_succ d n
    rw [multiples_succ pos, next]
    rcases Nat.lt_trichotomy i (d * n) with lt | rfl | gt
    · rw [Nat.testBit_two_pow_add_gt lt, ih]
      constructor
      · exact fun inside => ⟨inside.1, by omega⟩
      · exact fun inside => ⟨inside.1, lt⟩
    · rw [Nat.testBit_two_pow_add_eq, Nat.testBit_lt_two_pow below]
      simp only [Bool.not_false, true_iff]
      exact ⟨Nat.dvd_mul_right d n, by omega⟩
    · have small : 2 ^ (d * n) + multiples d n < 2 ^ i := by
        have step : 2 ^ (d * n) + 2 ^ (d * n) ≤ 2 ^ i := by
          rw [← Nat.two_mul, ← Nat.pow_succ']
          exact Nat.pow_le_pow_right (by decide) gt
        omega
      rw [Nat.testBit_lt_two_pow small]
      apply iff_of_false (by simp)
      rintro ⟨⟨c, rfl⟩, lt⟩
      have low : n < c := Nat.lt_of_mul_lt_mul_left gt
      have high : c < n + 1 := Nat.lt_of_mul_lt_mul_left (show d * c < d * (n + 1) by omega)
      omega

theorem testBit_composites (le : i ≤ top) :
    (composites top r).testBit i = true ↔ ∃ d, 2 ≤ d ∧ d ≤ r + 1 ∧ d ∣ i ∧ 2 * d ≤ i := by
  induction r with
  | zero =>
    apply iff_of_false (by simp [composites])
    rintro ⟨d, low, high, -⟩
    omega
  | succ r ih =>
    have new : (multiples (r + 2) (top / (r + 2) + 1) <<< (2 * (r + 2))).testBit i = true ↔
        r + 2 ∣ i ∧ 2 * (r + 2) ≤ i := by
      rw [Nat.testBit_shiftLeft, Bool.and_eq_true, decide_eq_true_iff, testBit_multiples (by omega), and_comm]
      constructor
      · rintro ⟨⟨divides, -⟩, low⟩
        exact ⟨(Nat.dvd_sub_iff_left low (Nat.dvd_mul_left _ 2)).1 divides, low⟩
      · rintro ⟨divides, low⟩
        refine ⟨⟨Nat.dvd_sub divides (Nat.dvd_mul_left _ 2), ?_⟩, low⟩
        have room := Nat.lt_mul_div_succ top (show 0 < r + 2 by omega)
        omega
    rw [composites, Nat.testBit_or, Bool.or_eq_true, ih, new]
    constructor
    · rintro (⟨d, low, high, divides, small⟩ | ⟨divides, small⟩)
      · exact ⟨d, low, by omega, divides, small⟩
      · exact ⟨r + 2, by omega, le_rfl, divides, small⟩
    · rintro ⟨d, low, high, divides, small⟩
      rcases Nat.lt_or_ge d (r + 2) with lt | ge
      · exact .inl ⟨d, low, by omega, divides, small⟩
      · obtain rfl : d = r + 2 := by omega
        exact .inr ⟨divides, small⟩

/-- Once the numbers up to the root have been sieved with, the primes are left. -/
theorem prime_iff (le : i ≤ top) (two : 2 ≤ i) (root : top < (r + 2) ^ 2) :
    i.Prime ↔ (composites top r).testBit i = false := by
  rw [← Bool.not_eq_true, testBit_composites le]
  constructor
  · rintro prime ⟨d, low, -, divides, small⟩
    rcases (Nat.dvd_prime prime).1 divides with rfl | rfl <;> omega
  · intro none
    by_contra composite
    have least := Nat.minFac_sq_le_self (by omega) composite
    have prime := Nat.minFac_prime (show i ≠ 1 by omega)
    have low := prime.two_le
    apply none
    refine ⟨i.minFac, low, ?_, Nat.minFac_dvd i, ?_⟩
    · have lt : i.minFac ^ 2 < (r + 2) ^ 2 := by omega
      have := lt_of_pow_lt_pow_left₀ 2 (by omega) lt
      omega
    · rw [sq] at least
      have := Nat.mul_le_mul_right i.minFac low
      omega

/-! ## Counting -/

theorem onesByte_eq (x : ℕ) : onesByte x = ∑ i ∈ Finset.range 8, (x.testBit i).toNat := by
  simp [onesByte, Finset.sum_range_succ, Nat.toNat_testBit]

/-- The bits of a number are those of its halves. -/
theorem sum_testBit_halves (x w : ℕ) : ∑ i ∈ Finset.range (w + w), (x.testBit i).toNat =
    ∑ i ∈ Finset.range w, ((x % 2 ^ w).testBit i).toNat + ∑ i ∈ Finset.range w, ((x / 2 ^ w).testBit i).toNat := by
  rw [Finset.sum_range_add]
  congr 1
  · apply Finset.sum_congr rfl
    intro i mem
    rw [Nat.testBit_mod_two_pow, decide_eq_true (Finset.mem_range.1 mem), Bool.true_and]
  · apply Finset.sum_congr rfl
    intro i _
    rw [Nat.testBit_div_two_pow, Nat.add_comm]

/-- The bits are counted. -/
theorem ones_eq (k x : ℕ) : ones k x = ∑ i ∈ Finset.range (8 * 2 ^ k), (x.testBit i).toNat := by
  induction k generalizing x with
  | zero => exact onesByte_eq x
  | succ k ih =>
    have double : 8 * 2 ^ (k + 1) = 8 * 2 ^ k + 8 * 2 ^ k := by
      rw [Nat.pow_succ]
      omega
    rw [double, sum_testBit_halves, ones, ih, ih]

/-- From 2 on, a number is prime or its bit is set. -/
theorem count_add_bits {m : ℕ} (root : top < (r + 2) ^ 2) (two : 2 ≤ m) (le : m ≤ top + 1) :
    m.count Nat.Prime + ∑ i ∈ Finset.range m, ((composites top r).testBit i).toNat + 2 = m := by
  induction m, two using Nat.le_induction with
  | base =>
    have clear : ∀ i < 2, (composites top r).testBit i = false := by
      intro i lt
      rw [← Bool.not_eq_true, testBit_composites (by omega)]
      rintro ⟨d, low, -, -, small⟩
      omega
    rw [Finset.sum_range_succ, Finset.sum_range_one, clear 0 (by decide), clear 1 (by decide)]
    simp [Nat.count_succ, Nat.not_prime_zero, Nat.not_prime_one]
  | succ m low ih =>
    have before := ih (by omega)
    have either := prime_iff (show m ≤ top by omega) low root
    rw [Nat.count_succ, Finset.sum_range_succ]
    by_cases prime : m.Prime
    · rw [if_pos prime, either.1 prime, Bool.toNat_false]
      omega
    · have set : (composites top r).testBit m = true := by
        rw [← Bool.not_eq_false]
        exact fun clear => prime (either.2 clear)
      rw [if_neg prime, set, Bool.toNat_true]
      omega

/-- **The number of primes.** -/
theorem primeCounting_eq (two : 2 ≤ top + 1) (root : top < (r + 2) ^ 2) (room : top + 1 ≤ 8 * 2 ^ k) :
    top.primeCounting + ones k (composites top r % 2 ^ (top + 1)) + 2 = top + 1 := by
  have bits : ones k (composites top r % 2 ^ (top + 1)) =
      ∑ i ∈ Finset.range (top + 1), ((composites top r).testBit i).toNat := by
    rw [ones_eq, ← Finset.sum_range_add_sum_Ico _ room]
    have inside : ∀ i ∈ Finset.range (top + 1), ((composites top r % 2 ^ (top + 1)).testBit i).toNat =
        ((composites top r).testBit i).toNat := by
      intro i mem
      rw [Nat.testBit_mod_two_pow, decide_eq_true (Finset.mem_range.1 mem), Bool.true_and]
    have outside : ∀ i ∈ Finset.Ico (top + 1) (8 * 2 ^ k),
        ((composites top r % 2 ^ (top + 1)).testBit i).toNat = 0 := by
      intro i mem
      rw [Nat.testBit_mod_two_pow, decide_eq_false (by have := (Finset.mem_Ico.1 mem).1; omega), Bool.false_and]
      rfl
    rw [Finset.sum_congr rfl inside, Finset.sum_eq_zero outside, Nat.add_zero]
  rw [bits]
  exact count_add_bits root two le_rfl

end Sieve
