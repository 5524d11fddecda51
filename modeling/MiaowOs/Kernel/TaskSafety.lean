import MiaowOs.Kernel.Runs

/-!
# Context preservation, live tasks and faults

The main results about single tasks: a task gets back the context of its own
last exception; only live tasks run, at EL0 and on their own stack; and a fault
stops the task that caused it and nothing else, as long as its stack pointer
passes the check at the entry of `trap`.
-/

namespace MiaowOs
open Cyclic

variable {n : Nat}

section
variable {tasksAt : Fin n → Word} {s s' : Sys n} {i running : Fin n} {e : Event} {sp : Word} {k : Kernel n}

/-! ## A run to look at -/

/-- Three applications of one byte each, in a memory filled with one value. -/
def bootExample : Option (Kernel 3 × Bytes.Mem) :=
  startApps (fun _ => 0x2a) ⟨0, 0, []⟩ (fun i => 0xffffffc000090000 + BitVec.ofNat 64 i)
    (fun i => 0xffffffc000090001 + BitVec.ofNat 64 i) ⟨0, 0, 0, 0, 62500000⟩

set_option maxRecDepth 100000 in
theorem bootExample_isSome : bootExample.isSome := by
  decide +kernel

/-- The first task raises a synchronous exception: with `x8` = 77 and a stack
pointer and a syndrome of its choice. -/
def syncExample (sp esr : Word) : Event where
  exception := .sync
  user := ⟨fun i => if i = 8 then 77 else 5, sp, appImage 0, 0x60000340⟩
  esr := esr
  far := 0
  daif := 0x3c0
  currentEl := 4
  iar := 0
  timerStatus := false
  bytes := fun _ => 0
  mem := fun _ => 0
  clobbered := fun _ => 0

/-- The system after `start_apps`, with its first task as it was loaded. -/
theorem exists_start : ∃ s : Sys 3, Booted (fun i => 0xffffffc0000a0000 + 320 * BitVec.ofNat 64 i) 0xffffffc0000b0000 s ∧
    s.status = .resume 0 ∧ s.kernel.current = 0 ∧ s.records = [] ∧ ∀ i, s.kernel.tasks i = loadedTask i 1 := by
  obtain ⟨⟨k, mem'⟩, boot⟩ := Option.isSome_iff_exists.1 bootExample_isSome
  obtain ⟨first, loaded⟩ := startApps_spec boot
  have sizes : ∀ i : Fin 3, (0xffffffc000090001 + BitVec.ofNat 64 i - (0xffffffc000090000 + BitVec.ofNat 64 i) : Word) =
      1 := by decide
  refine ⟨Sys.start _ k _ (fun _ => 0) (fun _ => 0), .mk boot .refl, rfl, first, rfl, fun i => ?_⟩
  rw [← sizes i]
  exact (loaded i).1

/-- The timer interrupts the running task. -/
def Sys.tick (s : Sys n) : Event := { syncExample 0 0 with exception := .irq, user := s.context, iar := timerIrq }

theorem Sys.tick_kind : s.tick.kind = .tick := rfl

/-- The running task executes an undefined instruction. -/
def Sys.undefined (s : Sys n) : Event := { syncExample 0 0x02000000 with user := s.context }

theorem Sys.undefined_kind : s.undefined.kind = .fault := by
  have instruction : ¬ s.undefined.isSvc :=
    (by decide : ¬ ((0x02000000 : Word) >>> 26 = 0x15 ∧ (0x02000000 : Word) &&& 0xffff = 0))
  have sync : ¬ s.undefined.exception = .irq := (by decide : ¬ Exception.sync = .irq)
  rw [Event.kind, if_neg sync, if_pos instruction]

/-- As long as no task has ended, the timer gives the processor to the next one. -/
theorem Sys.Inv.tick (inv : s.Inv sp) (at_ : s.status = .resume i) (alive : ∀ j, (s.kernel.tasks j).runnable) :
    (s.handle tasksAt i s.tick).status = .resume (shift i 1) ∧
      ∀ j, ((s.handle tasksAt i s.tick).kernel.tasks j).runnable := by
  have current := (inv.resumed at_).1
  have ok : (s.handle tasksAt i s.tick).status ≠ .panic :=
    inv.handle_ok at_ rfl (.inr rfl) (by decide : (0x3c0 : Word) &&& 0x80 ≠ 0) (by rw [tick_kind]; decide)
  have handled := handle_spec ok
  have rest : ∀ j, ((s.handle tasksAt i s.tick).kernel.tasks j).runnable := by
    intro j
    rw [handled.trapped.tasks]
    by_cases here : j = s.kernel.current
    · subst here
      rw [Function.update_self, TaskStruct.after, tick_kind]
      exact alive _
    · rw [Function.update_of_ne here]
      exact alive j
  have next := handled.next rfl (rest _)
  rw [← current] at next
  exact ⟨next, rest⟩

/-- So does a fault of the running task, if there is another one. -/
theorem Sys.Inv.undefined (inv : s.Inv sp) (at_ : s.status = .resume i) (alive : ∀ j, (s.kernel.tasks j).runnable)
    (other : shift i 1 ≠ i) : (s.handle tasksAt i s.undefined).status = .resume (shift i 1) := by
  have current := (inv.resumed at_).1
  have ok : (s.handle tasksAt i s.undefined).status ≠ .panic :=
    inv.handle_ok at_ rfl (.inl rfl) (by decide : (0x3c0 : Word) &&& 0x80 ≠ 0) (by rw [undefined_kind]; decide)
  have handled := handle_spec ok
  have next := handled.next (by rw [undefined_kind]; rfl) (by
    rw [handled.trapped.tasks, ← current, Function.update_of_ne other]
    exact alive _)
  rwa [← current] at next

/-! ## Contexts -/

/-- A spurious interrupt only reports the first trap of a task. -/
theorem trap_spurious (checked : entryCheck (k.tasks k.current) e.user e.daif) (irq : e.exception = .irq)
    (reserved : 1020 ≤ e.iar ∧ e.iar ≤ 1023) :
    trap k e.user e.irqWord e = (recordTrap k e.user e, .resume (recordTrap k e.user e).current) := by
  rw [trap, if_neg (by simpa using checked), Event.irqWord, if_pos irq, if_pos (by decide), timerInterrupt,
    if_pos reserved]

theorem firstReport_msr {regs : PtRegs} {register : DeviceReg} {v : Word} :
    Effect.msr register v ∉ firstReport k regs e := by
  unfold firstReport
  split <;> simp

/-- **Context preservation.** In every run without a panic, a task is resumed
with the context of its own most recent exception, with the result of the
system call in `x0` if that was one that returns, and with its initial context
before its first exception. The kernel is entered with one stack pointer
throughout. A spurious interrupt resumes the same task with the context it had,
and touches neither the timer nor the interrupt controller. -/
theorem context_preserved [NeZero n] (booted : Booted tasksAt sp s) :
    (∀ i, s.status = .resume i → s.context = lastContext s.records i) ∧
    (∀ r ∈ s.records, r.sp = sp) ∧
    ∀ i e, s.status = .resume i → e.exception = .irq → 1020 ≤ e.iar → e.iar ≤ 1023 →
      (s.handle tasksAt i e).status ≠ .panic →
      (s.handle tasksAt i e).status = .resume i ∧ (s.handle tasksAt i e).context = e.user ∧
        ∃ r, (s.handle tasksAt i e).records = r :: s.records ∧ ∀ register v, .msr register v ∉ r.effects := by
  have inv := booted.inv
  refine ⟨fun i at_ => ?_, inv.entries, fun i e at_ irq low high ok => ?_⟩
  · have settled := inv.resumed at_
    rw [settled.2.2.1, inv.saved]
  · have settled := inv.resumed at_
    have handled := handle_spec ok
    have kind : e.kind = .spurious := by rw [Event.kind, if_pos irq, if_pos ⟨low, high⟩]
    have outcome := handled.trapped.outcome
    rw [if_pos (by rw [kind]; rfl), ← settled.1] at outcome
    refine ⟨outcome.2, ?_, _, handled.recorded, fun register v => ?_⟩
    · rw [(handled.resumed i outcome.2).1, handled.trapped.tasks, settled.1, Function.update_self, after_regs,
        Event.result, kind]
    · rw [handled.kernel, trap_spurious (k := s.entered) handled.trapped.checked irq ⟨low, high⟩, recordTrap_trace]
      exact firstReport_msr

/-- An unknown system call returns to its task with `-ENOSYS` in `x0`. -/
theorem context_preserved_unknown_call : ∃ (tasksAt : Fin 3 → Word) (s : Sys 3), Booted tasksAt 0xffffffc0000b0000 s ∧
    s.status = .resume 0 ∧ s.context = setX0 (syncExample 0x41020000 0x56000000).user (-38) := by
  obtain ⟨s, booted, at_, current, empty, task⟩ := exists_start
  have ok : (s.handle (fun i => 0xffffffc0000a0000 + 320 * BitVec.ofNat 64 i) 0
      (syncExample 0x41020000 0x56000000)).status ≠ .panic :=
    handle_ok (.inl rfl) (by rw [current, task]; decide) (by decide)
  have handled := handle_spec ok
  have outcome := handled.trapped.outcome
  rw [if_pos (by decide), current] at outcome
  cases booted with
  | mk boot run =>
    have booted := Booted.mk boot (run.step at_ ok)
    refine ⟨_, _, booted, outcome.2, ?_⟩
    rw [(context_preserved booted).1 0 outcome.2, handled.recorded, task]
    rfl

/-! ## Live tasks -/

/-- A task that is not runnable is not touched by the exceptions of others. -/
theorem Runs.dead (run : Runs tasksAt s s') (inv : s.Inv sp) (dead : (s.kernel.tasks i).runnable = false) :
    s'.kernel.tasks i = s.kernel.tasks i ∧ s'.status ≠ .resume i := by
  induction run with
  | refl =>
    refine ⟨rfl, fun at_ => ?_⟩
    have settled := inv.resumed at_
    exact absurd settled.2.1 (by simp [dead])
  | @step s₂ running e run at_ ok ih =>
    obtain ⟨same, other⟩ := ih
    have later := (run.step at_ ok).inv inv
    have settled := (run.inv inv).settled
    rw [at_] at settled
    have untouched := (handle_spec ok).trapped.tasks
    rw [← settled.1] at untouched
    have ne : i ≠ running := fun eq => other (eq ▸ at_)
    have kept : (s₂.handle tasksAt running e).kernel.tasks i = s.kernel.tasks i := by
      rw [untouched, Function.update_of_ne ne, same]
    refine ⟨kept, fun resumed => ?_⟩
    have settled := later.settled
    rw [resumed] at settled
    exact absurd settled.2.1 (by simp [kept, dead])

/-- **Only live tasks run, at EL0 and on their own stack.** In every run
without a panic: the resumed context is that of the current task, which is
runnable, at EL0 and on its own stack; a task that exits or faults never runs
again and never changes again; system calls that return and spurious interrupts
change neither the current task nor who is runnable; and the system comes to
rest, with the timer stopped, exactly when no task is runnable. -/
theorem only_live_tasks_run [NeZero n] (booted : Booted tasksAt sp s) :
    (∀ i, s.status = .resume i → i = s.kernel.current ∧ s.context = (s.kernel.tasks i).regs ∧
      (s.kernel.tasks i).runnable ∧ (s.kernel.tasks i).OnStack s.context) ∧
    (∀ i e, s.status = .resume i → (e.kind = .exit ∨ e.kind = .fault) → (s.handle tasksAt i e).status ≠ .panic →
      ∀ s', Runs tasksAt (s.handle tasksAt i e) s' →
        s'.status ≠ .resume i ∧ s'.kernel.tasks i = (s.handle tasksAt i e).kernel.tasks i) ∧
    (∀ i e, s.status = .resume i → (e.kind = .log ∨ e.kind = .unknown ∨ e.kind = .spurious) →
      (s.handle tasksAt i e).status ≠ .panic →
        (s.handle tasksAt i e).kernel.current = s.kernel.current ∧
        ∀ j, ((s.handle tasksAt i e).kernel.tasks j).runnable = (s.kernel.tasks j).runnable) ∧
    (s.status = .done ↔ ∀ i, (s.kernel.tasks i).runnable = false) ∧
    (s.status = .done → s.kernel.board.cntpCtl = 0) := by
  have inv := booted.inv
  have settled := inv.settled
  refine ⟨fun i at_ => ?_, fun i e at_ kind ok s' run => ?_, fun i e at_ kind ok => ?_, ?_, fun done => ?_⟩
  · rw [at_] at settled
    refine ⟨settled.1, settled.2.2.1, settled.2.1, ?_⟩
    rw [settled.2.2.1]
    exact inv.onStack i
  · rw [at_] at settled
    have handled := handle_spec ok
    have stopped : ((s.handle tasksAt i e).kernel.tasks i).runnable = false := by
      rw [handled.trapped.tasks, settled.1, Function.update_self, TaskStruct.after]
      rcases kind with h | h <;> rw [h]
    exact (run.dead (inv.step at_ handled) stopped).symm
  · have handled := handle_spec ok
    have returns : e.kind.returns := by rcases kind with h | h | h <;> rw [h] <;> rfl
    have outcome := handled.trapped.outcome
    rw [if_pos returns] at outcome
    refine ⟨outcome.1, fun j => ?_⟩
    rw [handled.trapped.tasks]
    by_cases here : j = s.kernel.current
    · rw [here, Function.update_self, after_returns returns]
    · rw [Function.update_of_ne here]
  · cases status : s.status with
    | resume i =>
      rw [status] at settled
      refine iff_of_false (fun eq => by cases eq) fun idle => ?_
      exact absurd settled.2.1 (by simp [idle i])
    | done =>
      rw [status] at settled
      exact iff_of_true rfl settled.1
    | panic =>
      rw [status] at settled
      exact settled.elim
  · rw [done] at settled
    exact settled.2

/-- A task that runs into an undefined instruction never runs again. -/
theorem only_live_tasks_run_after_fault : ∃ (tasksAt : Fin 3 → Word) (s : Sys 3),
    Booted tasksAt 0xffffffc0000b0000 s ∧ s.status = .resume 0 ∧
      (s.handle tasksAt 0 (syncExample 0x41020000 0x02000000)).status ≠ .panic ∧
      ∀ s', Runs tasksAt (s.handle tasksAt 0 (syncExample 0x41020000 0x02000000)) s' → s'.status ≠ .resume 0 := by
  obtain ⟨s, booted, at_, current, empty, task⟩ := exists_start
  have ok : (s.handle (fun i => 0xffffffc0000a0000 + 320 * BitVec.ofNat 64 i) 0
      (syncExample 0x41020000 0x02000000)).status ≠ .panic :=
    handle_ok (.inl rfl) (by rw [current, task]; decide) (by decide)
  exact ⟨_, s, booted, at_, ok, fun s' run =>
    ((only_live_tasks_run booted).2.1 0 _ at_ (.inr (by decide)) ok s' run).1⟩

/-! ## Faults -/

/-- A fault of task `i` stops that task, changes no other one, and lets the
next runnable task go on, or ends with the timer stopped if none is left. -/
structure Contained (s : Sys n) (i : Fin n) (s' : Sys n) : Prop where
  no_panic : s'.status ≠ .panic
  stopped : (s'.kernel.tasks i).runnable = false
  others : ∀ j ≠ i, s'.kernel.tasks j = s.kernel.tasks j
  goes_on : (∃ j, Nearest (fun j => (s'.kernel.tasks j).runnable) i j ∧ s'.status = .resume j ∧
      s'.context = (s'.kernel.tasks j).regs) ∨
    ((∀ j, (s'.kernel.tasks j).runnable = false) ∧ s'.status = .done ∧ s'.kernel.board.cntpCtl = 0)

/-- **Faults.** A synchronous exception of the running task that is not
`svc #0` is contained exactly when the task's stack pointer is 16-byte aligned
and between the bounds of its stack: `trap` checks that before it looks at the
exception. -/
theorem fault_contained_iff [NeZero n] (booted : Booted tasksAt sp s) (at_ : s.status = .resume i)
    (sync : e.exception = .sync) (fault : ¬ e.isSvc) (masked : e.daif &&& 0x80 ≠ 0)
    (el0 : e.user.pstate &&& 0x1f = 0) :
    Contained s i (s.handle tasksAt i e) ↔
      (s.kernel.tasks i).stackBottom ≤ e.user.sp ∧ e.user.sp ≤ (s.kernel.tasks i).stackTop ∧ e.user.sp &&& 15 = 0 := by
  have settled := booted.inv.resumed at_
  have current := settled.1
  have kind : e.kind = .fault := by rw [Event.kind, if_neg (by simp [sync]), if_pos fault]
  constructor
  · intro contained
    have checked := (handle_spec contained.no_panic).trapped.checked
    rw [← current] at checked
    simp only [entryCheck, Bool.and_eq_true, decide_eq_true_eq] at checked
    exact ⟨checked.1.1.2, checked.1.2, checked.2⟩
  · rintro ⟨above, below, aligned⟩
    have checked : entryCheck (s.kernel.tasks s.kernel.current) e.user e.daif := by
      rw [← current]
      simp only [entryCheck, Bool.and_eq_true, decide_eq_true_eq]
      exact ⟨⟨⟨⟨el0, masked⟩, above⟩, below⟩, aligned⟩
    have ok : (s.handle tasksAt i e).status ≠ .panic := handle_ok (.inl sync) checked (by simp [kind])
    have handled := handle_spec ok
    have tasks := handled.trapped.tasks
    have outcome := handled.trapped.outcome
    rw [← current] at tasks outcome
    rw [kind, if_neg (by decide)] at outcome
    refine ⟨ok, ?_, fun j ne => by rw [tasks, Function.update_of_ne ne], ?_⟩
    · rw [tasks, Function.update_self, TaskStruct.after, kind]
    · have resumed := handled.resumed
      generalize (s.handle tasksAt i e).status = status at *
      cases outcome with
      | next run => exact .inl ⟨_, nextRunnable_nearest run, rfl, (resumed _ rfl).1⟩
      | idle run same stopped => exact .inr ⟨nextRunnable_none.1 run, rfl, stopped⟩

/-- An undefined instruction with the stack pointer in place. -/
theorem fault_contained_undefined : ∃ (tasksAt : Fin 3 → Word) (s : Sys 3), Booted tasksAt 0xffffffc0000b0000 s ∧
    Contained s 0 (s.handle tasksAt 0 (syncExample 0x41020000 0x02000000)) := by
  obtain ⟨s, booted, at_, current, empty, task⟩ := exists_start
  refine ⟨_, s, booted, (fault_contained_iff booted at_ rfl (by decide) (by decide) (by decide)).2 ?_⟩
  rw [task]
  decide

/-- A task whose stack pointer has run off the bottom of its stack faults on its
next push: the kernel panics, with all three tasks runnable. -/
theorem fault_below_stack_panics : ∃ (tasksAt : Fin 3 → Word) (s : Sys 3) (e : Event),
    Booted tasksAt 0xffffffc0000b0000 s ∧ s.status = .resume 0 ∧ e.exception = .sync ∧ ¬ e.isSvc ∧
      e.daif &&& 0x80 ≠ 0 ∧ e.user.pstate &&& 0x1f = 0 ∧ e.user.sp = appStackBottom 0 - 16 ∧
      (s.handle tasksAt 0 e).status = .panic := by
  obtain ⟨s, booted, at_, current, empty, task⟩ := exists_start
  refine ⟨_, s, syncExample 0x4101bff0 0x92000047, booted, at_, rfl, by decide, by decide, by decide, by decide, ?_⟩
  by_contra ok
  have checked := (handle_spec ok).trapped.checked
  rw [current, task] at checked
  exact absurd checked (by decide)

end

end MiaowOs
