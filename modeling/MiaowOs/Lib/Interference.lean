/-!
# Proof outlines under interference

A sequence of operations runs while its environment takes steps of its own, any number
before, between and after the operations. An outline puts an assertion before every
operation; it is enough that the environment keeps each of them.
-/

namespace Interference

section
variable {σ ω : Type} (env : σ → σ → Prop) (exec : ω → σ → σ)

/-- What the operations and the environment reach. -/
inductive Steps : List ω → σ → σ → Prop
  | refl {s : σ} : Steps [] s s
  | env {ops : List ω} {s s' s'' : σ} (run : Steps ops s s') (step : env s' s'') : Steps ops s s''
  | own {ops : List ω} {o : ω} {s s' : σ} (run : Steps ops s s') : Steps (ops ++ [o]) s (exec o s')

/-- The environment keeps an assertion. -/
def Stable (P : σ → Prop) : Prop := ∀ ⦃s s' : σ⦄, env s s' → P s → P s'

/-- The assertions of a sequence: each one is stable, those before an operation imply
`I`, and every operation leads from one to the next. -/
inductive Outline (I : σ → Prop) : (σ → Prop) → List ω → (σ → Prop) → Prop
  | nil {P : σ → Prop} (stable : Stable env P) : Outline I P [] P
  | cons {P Q R : σ → Prop} {o : ω} {ops : List ω} (stable : Stable env P) (holds : ∀ {s}, P s → I s)
      (step : ∀ {s}, P s → Q (exec o s)) (rest : Outline I Q ops R) : Outline I P (o :: ops) R

end

section
variable {σ ω : Type} {env : σ → σ → Prop} {exec : ω → σ → σ} {I P Q : σ → Prop} {ops ops' : List ω} {o : ω}
  {s s' : σ}

theorem Stable.and (hP : Stable env P) (hQ : Stable env Q) : Stable env fun s => P s ∧ Q s :=
  fun _ _ step both => ⟨hP step both.1, hQ step both.2⟩

/-- The environment moves first, then the first operation. -/
theorem Steps.head (run : Steps env exec (o :: ops) s s') :
    ∃ s₁, Steps env exec [] s s₁ ∧ Steps env exec ops (exec o s₁) s' := by
  generalize shape : o :: ops = all at run
  induction run generalizing ops with
  | refl => cases shape
  | env run step ih =>
    obtain ⟨s₁, before, rest⟩ := ih shape
    exact ⟨s₁, before, rest.env step⟩
  | @own all o' s s' run ih =>
    cases all with
    | nil =>
      obtain ⟨rfl, rfl⟩ := List.cons.inj shape
      exact ⟨s', run, .refl⟩
    | cons o₁ all =>
      obtain ⟨rfl, rfl⟩ := List.cons.inj shape
      obtain ⟨s₁, before, rest⟩ := ih rfl
      exact ⟨s₁, before, rest.own⟩

/-- The environment alone keeps a stable assertion. -/
theorem Stable.steps (stable : Stable env P) (run : Steps env exec [] s s') (start : P s) : P s' := by
  generalize shape : ([] : List ω) = none at run
  induction run with
  | refl => exact start
  | env run step ih => exact stable step (ih start shape)
  | own run ih => cases List.append_ne_nil_of_right_ne_nil _ (List.cons_ne_nil _ _) shape.symm

/-- **The rule for whole runs.** -/
theorem Outline.post (outline : Outline env exec I P ops Q) (run : Steps env exec ops s s') (start : P s) : Q s' := by
  induction outline generalizing s with
  | nil stable => exact stable.steps run start
  | cons stable holds step rest ih =>
    obtain ⟨s₁, before, after⟩ := run.head
    exact ih after (step (stable.steps before start))

/-- **The rule for the points of a run**: before every operation its assertion holds. -/
theorem Outline.point (outline : Outline env exec I P (ops ++ o :: ops') Q) (run : Steps env exec ops s s') (start : P s) :
    I s' := by
  induction ops generalizing s P with
  | nil =>
    cases outline with
    | cons stable holds _ _ => exact holds (stable.steps run start)
  | cons o₁ ops ih =>
    cases outline with
    | cons stable _ step rest =>
      obtain ⟨s₁, before, after⟩ := run.head
      exact ih rest after (step (stable.steps before start))

/-- A run of two sequences is a run of the first, then one of the second. -/
theorem Steps.split (run : Steps env exec (ops ++ ops') s s') :
    ∃ s₁, Steps env exec ops s s₁ ∧ Steps env exec ops' s₁ s' := by
  generalize shape : ops ++ ops' = all at run
  induction run generalizing ops' with
  | @refl s =>
    obtain ⟨rfl, rfl⟩ := List.append_eq_nil_iff.1 shape
    exact ⟨s, .refl, .refl⟩
  | env run step ih =>
    obtain ⟨s₁, first, second⟩ := ih shape
    exact ⟨s₁, first, second.env step⟩
  | @own all o s s' run ih =>
    rcases List.eq_nil_or_concat ops' with rfl | ⟨front, last, rfl⟩
    · rw [List.append_nil] at shape
      subst shape
      exact ⟨exec o s', run.own, .refl⟩
    · rw [List.concat_eq_append, ← List.append_assoc] at shape
      obtain ⟨same, tail⟩ := List.append_inj' shape rfl
      obtain rfl := List.singleton_inj.1 tail
      obtain ⟨s₁, first, second⟩ := ih same
      rw [List.concat_eq_append]
      exact ⟨s₁, first, second.own⟩

end

end Interference
