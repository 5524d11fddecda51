import Mathlib.Tactic.Ring

/-!
# Byte memory

A memory is a byte at every address. Words are stored with their low byte
first. A store is characterised by what it leaves in its own bytes
(`load_store`) and by its frame (`store_of_not_mem`).
-/

namespace Bytes

/-- A byte at every address. -/
abbrev Mem := Nat → UInt8

/-- Store one byte. -/
def put (m : Mem) (a : Nat) (v : UInt8) : Mem := fun x => if x = a then v else m x

/-- The number in the `n` bytes from `a`. -/
def load (m : Mem) (a : Nat) : Nat → Nat
  | 0 => 0
  | n + 1 => (m a).toNat + 256 * load m (a + 1) n

/-- Store the low `n` bytes of a number. -/
def store (m : Mem) (a : Nat) : Nat → Nat → Mem
  | 0, _ => m
  | n + 1, v => store (put m a (UInt8.ofNat v)) (a + 1) n (v / 256)

section
variable {m m' : Mem} {a x n v : Nat}

@[simp] theorem put_self {b : UInt8} : put m a b a = b := by simp [put]

theorem put_of_ne {b : UInt8} (h : x ≠ a) : put m a b x = m x := by simp [put, h]

/-- The frame of a store. -/
theorem store_of_not_mem (h : x < a ∨ a + n ≤ x) : store m a n v x = m x := by
  induction n generalizing m a v with
  | zero => rfl
  | succ n ih => rw [store, ih (by omega), put_of_ne (by omega)]

/-- A load depends on its own bytes only. -/
theorem load_congr (h : ∀ x, a ≤ x → x < a + n → m' x = m x) : load m' a n = load m a n := by
  induction n generalizing a with
  | zero => rfl
  | succ n ih =>
    rw [load, load, h a (by omega) (by omega), ih fun x le lt => h x (by omega) (by omega)]

/-- A stored number is read back. -/
theorem load_store (lt : v < 256 ^ n) : load (store m a n v) a n = v := by
  induction n generalizing m a v with
  | zero => simp only [Nat.pow_zero] at lt; simp only [load]; omega
  | succ n ih =>
    rw [load, store, store_of_not_mem (by omega), put_self, ih (by rw [Nat.pow_succ] at lt; omega),
      UInt8.toNat_ofNat']
    omega

/-- Every byte of a stored number. -/
theorem store_at {i : Nat} (lt : i < n) : store m a n v (a + i) = UInt8.ofNat (v / 256 ^ i) := by
  induction n generalizing m a v i with
  | zero => omega
  | succ n ih =>
    cases i with
    | zero =>
      rw [store, store_of_not_mem (by omega)]
      simp
    | succ i =>
      rw [store, show a + (i + 1) = a + 1 + i by ring, ih (by omega), Nat.div_div_eq_div_mul, Nat.pow_succ,
        Nat.mul_comm]

/-- Every byte of a loaded number. -/
theorem load_at {i : Nat} (lt : i < n) : UInt8.ofNat (load m a n / 256 ^ i) = m (a + i) := by
  induction n generalizing a i with
  | zero => omega
  | succ n ih =>
    have byte := (m a).toNat_lt
    cases i with
    | zero =>
      show _ = m a
      apply UInt8.toNat_inj.1
      rw [UInt8.toNat_ofNat', load, Nat.pow_zero, Nat.div_one]
      omega
    | succ i =>
      have rest : load m a (n + 1) / 256 = load m (a + 1) n := by
        rw [load]
        omega
      rw [Nat.pow_succ, Nat.mul_comm, ← Nat.div_div_eq_div_mul, rest, ih (by omega), show a + 1 + i = a + (i + 1) by ring]

/-- A word that is loaded and stored, byte by byte. -/
theorem store_load {b : Nat} : store m a n (load m b n) x = if a ≤ x ∧ x < a + n then m (b + (x - a)) else m x := by
  by_cases inside : a ≤ x ∧ x < a + n
  · obtain ⟨i, rfl⟩ := Nat.exists_eq_add_of_le inside.1
    rw [if_pos inside, store_at (by omega), load_at (by omega), Nat.add_sub_cancel_left]
  · rw [if_neg inside, store_of_not_mem (by omega)]

end

end Bytes
