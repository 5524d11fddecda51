import MiaowOs.Kernel.TaskSafety

/-!
# Round robin

The decisions of `schedule` along a run. Each one takes the nearest runnable
task after the current one, while tasks that exit or fault drop out; so the
decisions of any stretch of a run form a chain of nearest choices.
-/

namespace MiaowOs
open Cyclic

variable {n : Nat}

/-- `schedule` was called. -/
def Record.scheduled (r : Record n) : Bool := !r.event.kind.returns

/-- The task `schedule` chose. -/
def Record.choice (r : Record n) : Option (Fin n) :=
  match r.event.kind.returns, r.exit with
  | false, .resume j => some j
  | _, _ => none

/-- The choices of a stretch of records, in the order of time. -/
def choices (records : List (Record n)) : List (Fin n) := records.reverse.filterMap Record.choice

/-- A task can run. -/
def Sys.able (s : Sys n) (i : Fin n) : Bool := (s.kernel.tasks i).runnable

section
variable {tasksAt : Fin n → Word} {s s' : Sys n} {new : List (Record n)} {r : Record n} {running j : Fin n} {e : Event}

theorem choices_cons : choices (r :: new) = choices new ++ r.choice.toList := by
  cases h : r.choice <;> simp [choices, h]

/-- One exception: either nothing is chosen and the current task stays, or
the nearest runnable task is chosen. -/
theorem Handled.choice (handled : Handled s running e s') :
    ∃ r, s'.records = r :: s.records ∧ (∀ i, s'.able i → s.able i) ∧
      ((r.choice = none ∧ s'.kernel.current = s.kernel.current ∧ (r.scheduled → ∀ i, s'.able i = false)) ∨
      (r.choice = some s'.kernel.current ∧ r.scheduled ∧ Nearest s'.able s.kernel.current s'.kernel.current)) := by
  refine ⟨_, handled.recorded, fun i able => ?_, ?_⟩
  · unfold Sys.able at able ⊢
    rw [handled.trapped.tasks] at able
    by_cases here : i = s.kernel.current
    · rw [here, Function.update_self] at able
      rw [here]
      exact after_runnable able
    · rwa [Function.update_of_ne here] at able
  · have outcome := handled.trapped.outcome
    generalize s'.status = status at outcome
    cases returns : e.kind.returns with
    | true =>
      rw [if_pos returns] at outcome
      exact .inl ⟨by simp [Record.choice, returns], outcome.1, by simp [Record.scheduled, returns]⟩
    | false =>
      rw [if_neg (by simp [returns])] at outcome
      cases outcome with
      | next run =>
        refine .inr ⟨by simp [Record.choice, returns], by simp [Record.scheduled, returns], nextRunnable_nearest run⟩
      | idle run same stopped =>
        exact .inl ⟨by simp [Record.choice, returns], same, fun _ => nextRunnable_none.1 run⟩

/-- What the choices of a stretch from `s` to `s'` are. -/
structure Stretch (s s' : Sys n) (new : List (Record n)) : Prop where
  records : s'.records = new ++ s.records
  shrinks : ∀ i, s'.able i → s.able i
  chain : (s.kernel.current :: choices new).IsChain fun a b =>
    ∃ p, Nearest p a b ∧ (∀ i, s'.able i → p i) ∧ ∀ i, p i → s.able i
  last : (s.kernel.current :: choices new).getLast? = some s'.kernel.current
  counted : (∃ i, s'.able i) → new.countP Record.scheduled = (choices new).length

theorem Stretch.refl : Stretch s s [] where
  records := rfl
  shrinks := fun _ able => able
  chain := List.isChain_singleton _
  last := rfl
  counted := fun _ => rfl

/-- Every run is a stretch; the induction adds one record at a time. -/
theorem Runs.stretch (run : Runs tasksAt s s') : ∃ new, Stretch s s' new := by
  induction run with
  | refl => exact ⟨[], .refl⟩
  | @step s₂ running e run at_ ok ih =>
    obtain ⟨new, h⟩ := ih
    obtain ⟨r, records, shrinks, outcome⟩ := (handle_spec ok).choice
    generalize s₂.handle tasksAt running e = s₃ at *
    have chain : (s.kernel.current :: choices new).IsChain fun a b =>
        ∃ p, Nearest p a b ∧ (∀ i, s₃.able i → p i) ∧ ∀ i, p i → s.able i :=
      h.chain.imp fun a b ⟨p, nearest, above, below⟩ => ⟨p, nearest, fun i able => above i (shrinks i able), below⟩
    refine ⟨r :: new, by rw [records, h.records]; rfl, fun i able => h.shrinks i (shrinks i able), ?_, ?_, ?_⟩
    · rw [choices_cons]
      rcases outcome with ⟨none, -⟩ | ⟨some, -, nearest⟩
      · rw [none]
        simpa using chain
      · rw [some, Option.toList_some, ← List.cons_append]
        refine List.isChain_append.2 ⟨chain, List.isChain_singleton _, fun a mem b mem' => ?_⟩
        rw [h.last, Option.mem_some_iff] at mem
        rw [List.head?_cons, Option.mem_some_iff] at mem'
        subst mem mem'
        exact ⟨s₃.able, nearest, fun i able => able, fun i able => h.shrinks i (shrinks i able)⟩
    · rw [choices_cons]
      rcases outcome with ⟨none, same, -⟩ | ⟨some, -, -⟩
      · rw [none, Option.toList_none, List.append_nil, h.last, same]
      · rw [some, Option.toList_some, ← List.cons_append, List.getLast?_concat]
    · rintro ⟨i, able⟩
      have before := h.counted ⟨i, shrinks i able⟩
      rw [choices_cons]
      rcases outcome with ⟨none, -, idle⟩ | ⟨some, scheduled, -⟩
      · have quiet : ¬ r.scheduled := fun scheduled => by simp [idle scheduled i] at able
        rw [none, List.countP_cons_of_neg quiet, before]
        simp
      · rw [some, List.countP_cons_of_pos scheduled, before]
        simp

theorem mem_choices (h : j ∈ choices new) : ∃ r ∈ new, r.scheduled ∧ r.exit = .resume j := by
  obtain ⟨r, mem, choice⟩ := List.mem_filterMap.1 h
  refine ⟨r, List.mem_reverse.1 mem, ?_⟩
  unfold Record.choice at choice
  split at choice
  · next returns exit =>
    obtain rfl := Option.some_inj.1 choice
    exact ⟨by simp [Record.scheduled, returns], exit⟩
  · cases choice

/-- **Round robin without starvation.** For any number of tasks and any stretch
of any run without a panic: a task that stays runnable is chosen by one of any
`n` consecutive decisions; and while the set of runnable tasks stays the same,
the decisions run through it in cyclic index order, so that each cycle of
decisions takes every runnable task once. -/
theorem round_robin (run : Runs tasksAt s s') (stretch : s'.records = new ++ s.records) :
    (∀ j, s'.able j → n ≤ new.countP Record.scheduled → ∃ r ∈ new, r.scheduled ∧ r.exit = .resume j) ∧
    ((∀ i, s'.able i = s.able i) →
      (∃ k, ∀ a < (choices new).length, (choices new)[a]? = (order s.able)[(k + a) % (order s.able).length]?) ∧
      ∀ a, a + (order s.able).length ≤ (choices new).length →
        (((choices new).drop a).take (order s.able).length).Perm (order s.able)) := by
  obtain ⟨new', h⟩ := run.stretch
  obtain rfl : new' = new := List.append_cancel_right (h.records.symm.trans stretch)
  refine ⟨fun j able many => ?_, fun fixed => ?_⟩
  · have chain : (s.kernel.current :: choices new').IsChain fun a b => ∃ p, Nearest p a b ∧ p j :=
      h.chain.imp fun a b ⟨p, nearest, above, below⟩ => ⟨p, nearest, above j able⟩
    rw [h.counted ⟨j, able⟩] at many
    exact mem_choices (mem_of_chain chain (dist_le.trans many))
  · have chain : (s.kernel.current :: choices new').IsChain (Nearest s.able) := by
      refine h.chain.imp fun a b ⟨p, nearest, above, below⟩ => ?_
      have same : p = s.able := funext fun i => Bool.eq_iff_iff.2 ⟨below i, fun able => above i (fixed i ▸ able)⟩
      exact same ▸ nearest
    have turns : ∃ k, ∀ a < (choices new').length,
        (choices new')[a]? = (order s.able)[(k + a) % (order s.able).length]? := by
      cases found : choices new' with
      | nil => exact ⟨0, by simp⟩
      | cons first rest =>
        rw [found] at chain
        obtain ⟨nearest, chain⟩ := List.isChain_cons_cons.1 chain
        obtain ⟨k, hk⟩ := List.mem_iff_getElem?.1 (mem_order.2 nearest.1)
        exact ⟨k, chain_in_order hk chain⟩
    refine ⟨turns, fun a le => ?_⟩
    obtain ⟨k, turn⟩ := turns
    have length : (((choices new').drop a).take (order s.able).length).length = (order s.able).length := by
      rw [List.length_take, List.length_drop]
      omega
    refine chain_perm (k := k + a) length fun b lt => ?_
    rw [length] at lt
    rw [List.getElem?_take_of_lt lt, List.getElem?_drop, turn (a + b) (by omega), Nat.add_assoc]

end

/-! ## A run to look at -/

/-- The timer interrupts any number of times while all three tasks go on. -/
theorem Runs.exists_ticks {tasksAt : Fin 3 → Word} {s : Sys 3} {sp : Word} (inv : s.Inv sp) (at_ : s.status = .resume 0)
    (alive : ∀ i, (s.kernel.tasks i).runnable) (k : ℕ) :
    ∃ s' new, Runs tasksAt s s' ∧ s'.records = new ++ s.records ∧ (∃ i, s'.status = .resume i) ∧
      (∀ i, (s'.kernel.tasks i).runnable) ∧ new.countP Record.scheduled = k ∧ (choices new).length = k := by
  induction k with
  | zero => exact ⟨s, [], .refl, rfl, ⟨0, at_⟩, alive, rfl, rfl⟩
  | succ k ih =>
    obtain ⟨s₁, new, run, records, ⟨i, at₁⟩, alive₁, scheduled, chosen⟩ := ih
    obtain ⟨at₂, alive₂⟩ := @Sys.Inv.tick 3 tasksAt s₁ i sp (run.inv inv) at₁ alive₁
    have ok : (s₁.handle tasksAt i s₁.tick).status ≠ .panic := by simp [at₂]
    have recorded := (handle_spec ok).recorded
    rw [at₂, records, ← List.cons_append] at recorded
    refine ⟨_, _, run.step at₁ ok, recorded, ⟨_, at₂⟩, alive₂, ?_, ?_⟩
    · rw [List.countP_cons_of_pos rfl, scheduled]
    · rw [choices_cons, List.length_append, chosen]
      rfl

/-- Four interrupts of the timer while three tasks go on: each of them gets its turn,
and the turns are taken in the order of the slots. -/
theorem round_robin_four_ticks : ∃ (tasksAt : Fin 3 → Word) (s s' : Sys 3) (new : List (Record 3)),
    Booted tasksAt 0xffffffc0000b0000 s ∧ Runs tasksAt s s' ∧ s'.records = new ++ s.records ∧
      (choices new).length = 4 ∧ (∀ j, ∃ r ∈ new, r.scheduled ∧ r.exit = .resume j) ∧
      (∃ k, ∀ a < 4, (choices new)[a]? = [(0 : Fin 3), 1, 2][(k + a) % 3]?) ∧
      ∀ a, a + 3 ≤ 4 → (((choices new).drop a).take 3).Perm [0, 1, 2] := by
  obtain ⟨s, booted, at_, -, -, tasks⟩ := exists_start
  have alive : ∀ i, (s.kernel.tasks i).runnable := fun i => by
    rw [tasks]
    rfl
  obtain ⟨s', new, run, records, -, alive', scheduled, chosen⟩ := Runs.exists_ticks booted.inv at_ alive 4
  have all : s.able = fun _ => true := funext alive
  have fixed : ∀ i, s'.able i = s.able i := fun i => (alive' i).trans (alive i).symm
  obtain ⟨fair, cyclic⟩ := round_robin run records
  obtain ⟨turns, cycles⟩ := cyclic fixed
  have three : order (fun _ : Fin 3 => true) = [0, 1, 2] := by decide
  rw [all, three, chosen] at turns cycles
  exact ⟨_, s, s', new, booted, run, records, chosen, fun j => fair j (alive' j) (by rw [scheduled]; decide), turns, cycles⟩

end MiaowOs
