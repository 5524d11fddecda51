import Mathlib.Logic.Basic

/-!
# Progress under every schedule

Agents act on one state, in an order that none of them controls. An agent that has to
wait changes nothing. If all that changes the state lowers a rank, then every schedule
that lets all agents act often enough brings them to rest.
-/

namespace Progress

section
variable {σ α : Type} (step : α → σ → σ)

/-- The agents act in this order. -/
def follow (schedule : List α) (s : σ) : σ := schedule.foldl (fun s a => step a s) s

/-- No agent changes anything. -/
def Resting (s : σ) : Prop := ∀ a, step a s = s

end

section
variable {σ α : Type} {step : α → σ → σ} {schedule schedule' round : List α} {rounds : List (List α)} {s : σ} {a : α}
  {rank : σ → Nat}

theorem follow_append : follow step (schedule ++ schedule') s = follow step schedule' (follow step schedule s) :=
  List.foldl_append

/-- What every step keeps holds after every schedule. -/
theorem follow_invariant {I : σ → Prop} (keeps : ∀ a s, I s → I (step a s)) (start : I s) :
    I (follow step schedule s) := by
  induction schedule generalizing s with
  | nil => exact start
  | cons a schedule ih => exact ih (keeps a s start)

theorem Resting.follow (resting : Resting step s) : follow step schedule s = s := by
  refine follow_invariant (I := (· = s)) (fun a s' same => ?_) rfl
  rw [same]
  exact resting a

theorem follow_le (lowers : ∀ a s, step a s = s ∨ rank (step a s) < rank s) :
    rank (follow step schedule s) ≤ rank s := by
  induction schedule generalizing s with
  | nil => exact Nat.le_refl _
  | cons a schedule ih =>
    have rest : rank (follow step schedule (step a s)) ≤ rank (step a s) := ih
    show rank (follow step schedule (step a s)) ≤ rank s
    rcases lowers a s with same | lower
    · rwa [same] at rest ⊢
    · exact Nat.le_trans rest (Nat.le_of_lt lower)

/-- A round with an agent that has something to do lowers the rank. -/
theorem follow_lt (lowers : ∀ a s, step a s = s ∨ rank (step a s) < rank s) (acts : a ∈ round) (moves : step a s ≠ s) :
    rank (follow step round s) < rank s := by
  induction round with
  | nil => cases acts
  | cons b round ih =>
    show rank (follow step round (step b s)) < rank s
    rcases lowers b s with same | lower
    · -- an agent that waits is not the one
      rw [same]
      rcases List.mem_cons.1 acts with rfl | later
      · exact absurd same moves
      · exact ih later
    · exact Nat.lt_of_le_of_lt (follow_le lowers) lower

/-- **Every schedule comes to rest** that has as many rounds as the rank. -/
theorem resting_of_rounds (lowers : ∀ a s, step a s = s ∨ rank (step a s) < rank s)
    (all : ∀ round ∈ rounds, ∀ a, a ∈ round) (enough : rank s ≤ rounds.length) :
    Resting step (follow step rounds.flatten s) := by
  induction rounds generalizing s with
  | nil =>
    intro a
    refine (lowers a s).resolve_right fun lower => ?_
    exact absurd (Nat.lt_of_lt_of_le lower enough) (Nat.not_lt_zero _)
  | cons round rounds ih =>
    by_cases resting : Resting step s
    · rw [resting.follow]
      exact resting
    · obtain ⟨a, moves⟩ := not_forall.1 resting
      have lower := follow_lt lowers (all round List.mem_cons_self a) moves
      rw [List.flatten_cons, follow_append]
      refine ih (fun r mem => all r (List.mem_cons_of_mem _ mem)) ?_
      rw [List.length_cons] at enough
      omega

end

end Progress
