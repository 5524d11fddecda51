import Mathlib.Logic.Function.Iterate
import Mathlib.Logic.Function.Basic

/-!
# Machines that take turns

A family of deterministic machines, one of which takes a step at a time.
Whatever the order of the turns, every machine is where its own steps take it
(`Runs.alone`); so where all of them have halted does not depend on the order
(`Runs.halted_unique`), and a machine that halts has had no more turns than it
needs (`Runs.turns_le`).
-/

namespace Interleave

/-- A machine: what a step does, and where it has halted. -/
structure Machine (σ : Type) where
  step : σ → σ
  Halted : σ → Prop
  rest : ∀ s, Halted s → step s = s

section
variable {σ : Type} {m : Machine σ} {s : σ} {j k : ℕ}

/-- A halted machine stays where it is. -/
theorem Machine.iterate_halted (h : m.Halted s) : m.step^[k] s = s := by
  induction k with
  | zero => rfl
  | succ k ih => rw [Function.iterate_succ_apply, m.rest s h, ih]

theorem Machine.iterate_of_le (h : m.Halted (m.step^[j] s)) (le : j ≤ k) : m.step^[k] s = m.step^[j] s := by
  obtain ⟨d, rfl⟩ := Nat.exists_eq_add_of_le' le
  rw [Function.iterate_add_apply, m.iterate_halted h]

/-- There is one state to halt in. -/
theorem Machine.halted_unique (hj : m.Halted (m.step^[j] s)) (hk : m.Halted (m.step^[k] s)) :
    m.step^[j] s = m.step^[k] s := by
  rcases Nat.le_total j k with le | le
  · exact (m.iterate_of_le hj le).symm
  · exact m.iterate_of_le hk le

end

section
variable {ι : Type} [DecidableEq ι] {σ : ι → Type} (machines : ∀ i, Machine (σ i))

/-- The states that turns of machines that have not halted lead to, with the
number of turns of each machine. -/
inductive Runs (start : ∀ i, σ i) : (ι → ℕ) → (∀ i, σ i) → Prop
  | refl : Runs start (fun _ => 0) start
  | turn {turns : ι → ℕ} {s : ∀ i, σ i} (i : ι) (run : Runs start turns s) (alive : ¬ (machines i).Halted (s i)) :
      Runs start (Function.update turns i (turns i + 1)) (Function.update s i ((machines i).step (s i)))

variable {machines} {start s s' : ∀ i, σ i} {turns turns' : ι → ℕ} {i : ι} {k : ℕ}

/-- Every machine is where its own steps take it. -/
theorem Runs.alone (run : Runs machines start turns s) : ∀ i, s i = (machines i).step^[turns i] (start i) := by
  induction run with
  | refl => exact fun i => rfl
  | turn j run alive ih =>
    intro i
    by_cases here : i = j
    · subst here
      rw [Function.update_self, Function.update_self, Function.iterate_succ_apply', ← ih i]
    · rw [Function.update_of_ne here, Function.update_of_ne here, ih i]

/-- Where a machine has halted does not depend on the order of the turns. -/
theorem Runs.halted_unique (run : Runs machines start turns s) (run' : Runs machines start turns' s')
    (h : (machines i).Halted (s i)) (h' : (machines i).Halted (s' i)) : s i = s' i := by
  rw [run.alone i] at h ⊢
  rw [run'.alone i] at h' ⊢
  exact (machines i).halted_unique h h'

/-- A machine that halts has no more turns than it needs. -/
theorem Runs.turns_le (run : Runs machines start turns s) (h : (machines i).Halted ((machines i).step^[k] (start i))) :
    turns i ≤ k := by
  induction run with
  | refl => exact Nat.zero_le k
  | @turn turns s j run alive ih =>
    by_cases here : i = j
    · subst here
      rw [Function.update_self]
      have before : turns i ≠ k := by
        intro eq
        apply alive
        rwa [run.alone i, eq]
      omega
    · rw [Function.update_of_ne here]
      exact ih

end

end Interleave
