import MiaowOs.Kernel.Task
import MiaowOs.Lib.Cyclic

/-!
# What a trap does

`Event.kind` classifies an exception as `trap` does, and `TaskStruct.after` is
what becomes of the task that raised it. A trap changes no other task; it
returns to the task that trapped, or lets `schedule` choose the nearest
runnable one.
-/

namespace MiaowOs
open Cyclic

/-- What an exception asks of the kernel. -/
inductive Kind
  /-- An interrupt whose identifier is one of the reserved ones. -/
  | spurious
  | tick
  /-- An interrupt of another source. -/
  | strange
  | fault
  | log
  | exit
  | unknown
deriving DecidableEq, Repr

/-- The exception is `svc #0`. -/
def Event.isSvc (e : Event) : Prop := e.esr >>> 26 = 0x15 ∧ e.esr &&& 0xffff = 0

instance (e : Event) : Decidable e.isSvc := inferInstanceAs (Decidable (_ ∧ _))

/-- The kind of a synchronous exception or an interrupt. -/
def Event.kind (e : Event) : Kind :=
  if e.exception = .irq then
    if 1020 ≤ e.iar ∧ e.iar ≤ 1023 then .spurious else if e.iar = timerIrq then .tick else .strange
  else if ¬ e.isSvc then .fault
  else if e.user.regs 8 = nrLog then .log
  else if e.user.regs 8 = nrExit then .exit
  else .unknown

/-- What `sys_log` returns. -/
def logResult (task : TaskStruct) (pointer length : Word) : Word :=
  if logLimit < length then -eInval
  else if length = 0 then 0
  else if !contains task.image task.size pointer length &&
      !contains task.stackBottom (BitVec.ofNat 64 appStackSize) pointer length then -eFault
  else length

/-- What a trap leaves of the task that raised it. -/
def TaskStruct.after (task : TaskStruct) (e : Event) : TaskStruct :=
  match e.kind with
  | .fault => { task with regs := e.user, observed := true, runnable := false }
  | .exit => { task with regs := e.user, observed := true, runnable := false, exitCode := e.user.regs 0 }
  | .log => { task with
      regs := setX0 e.user (logResult task (e.user.regs 0) (e.user.regs 1)), observed := true }
  | .unknown => { task with regs := setX0 e.user (-eNosys), observed := true }
  | _ => { task with regs := e.user, observed := true }

/-- `x1` at the call of `trap`. -/
def Event.irqWord (e : Event) : Word := if e.exception = .irq then 1 else 0

section
variable {n : Nat} {k k' : Kernel n} {e : Event} {exit : Exit n} {tasks : Fin n → TaskStruct} {c j : Fin n}

/-! ## Scheduling -/

theorem nextRunnableFrom_succ {fuel offset : Nat} : nextRunnableFrom tasks c (fuel + 1) offset =
    if (tasks (shift c offset)).runnable then some (shift c offset)
    else nextRunnableFrom tasks c fuel (offset + 1) := rfl

/-- `next_runnable` takes the nearest runnable task; the loop has passed the
first `offset - 1` places in vain. -/
theorem nextRunnableFrom_spec {fuel offset : Nat} (count : fuel + offset = n + 1) (pos : 0 < offset)
    (passed : ∀ m, 0 < m → m < offset → (tasks (shift c m)).runnable = false) :
    match nextRunnableFrom tasks c fuel offset with
    | some j => Nearest (fun i => (tasks i).runnable) c j
    | none => ∀ i, (tasks i).runnable = false := by
  induction fuel generalizing offset with
  | zero =>
    intro i
    have le : dist c i ≤ n := dist_le
    rw [← @shift_dist n c i]
    exact passed _ dist_pos (by omega)
  | succ fuel ih =>
    have far : dist c (shift c offset) = offset := dist_shift pos (by omega)
    rw [nextRunnableFrom_succ]
    by_cases here : (tasks (shift c offset)).runnable
    · rw [if_pos here]
      refine ⟨here, fun i able => ?_⟩
      by_contra nearer
      have reached : (tasks (shift c (dist c i))).runnable = false := by
        apply passed _ dist_pos
        omega
      rw [shift_dist] at reached
      exact absurd able (by simp [reached])
    · rw [if_neg here]
      refine ih (by omega) (by omega) fun m hm lt => ?_
      rcases Nat.lt_succ_iff_lt_or_eq.1 lt with before | rfl
      · exact passed m hm before
      · simpa using here

theorem nextRunnable_nearest (run : nextRunnable tasks c = some j) :
    Nearest (fun i => (tasks i).runnable) c j := by
  have spec := @nextRunnableFrom_spec n tasks c n 1 rfl (by decide) (by omega)
  rw [nextRunnable] at run
  rwa [run] at spec

theorem nextRunnable_none : nextRunnable tasks c = none ↔ ∀ i, (tasks i).runnable = false := by
  have spec := @nextRunnableFrom_spec n tasks c n 1 rfl (by decide) (by omega)
  constructor
  · intro run
    rw [nextRunnable] at run
    rwa [run] at spec
  · intro idle
    cases run : nextRunnable tasks c with
    | none => rfl
    | some j => exact absurd (nextRunnable_nearest run).1 (by simp [idle j])

/-- The next task by index is the first choice. -/
theorem nextRunnable_next (alive : (tasks (shift c 1)).runnable) : nextRunnable tasks c = some (shift c 1) := by
  obtain ⟨m, rfl⟩ : ∃ m, n = m + 1 := ⟨n - 1, by have := c.pos; omega⟩
  rw [nextRunnable, nextRunnableFrom_succ, if_pos alive]

/-- The outcome of a call of `schedule` from the task `c`. -/
inductive Chosen (k : Kernel n) (c : Fin n) : Exit n → Prop
  | next (run : nextRunnable k.tasks c = some k.current) : Chosen k c (.resume k.current)
  | idle (run : nextRunnable k.tasks c = none) (same : k.current = c) (stopped : k.board.cntpCtl = 0) :
      Chosen k c .done

theorem schedule_spec (run : schedule k e = (k', exit)) :
    k'.tasks = k.tasks ∧ Chosen k' k.current exit := by
  unfold schedule at run
  split at run
  · next j next =>
    obtain ⟨rfl, rfl⟩ := Prod.mk.inj run
    exact ⟨rfl, .next next⟩
  · next idle =>
    rw [if_neg (by simpa using timerStop_disabled e.timerStatus)] at run
    obtain ⟨rfl, rfl⟩ := Prod.mk.inj run
    exact ⟨rfl, .idle idle rfl rfl⟩

/-! ## System calls -/

@[simp] theorem logBytes_tasks {pointer : Word} {count i : Nat} :
    (logBytes e pointer count i k).tasks = k.tasks ∧ (logBytes e pointer count i k).current = k.current := by
  induction count generalizing i k with
  | zero => exact ⟨rfl, rfl⟩
  | succ count ih => exact ih

theorem uartPuts_tasks {text : List UInt8} :
    (uartPuts k text).tasks = k.tasks ∧ (uartPuts k text).current = k.current := by
  unfold uartPuts
  induction text.takeWhile (· ≠ 0) generalizing k with
  | nil => exact ⟨rfl, rfl⟩
  | cons c text ih => exact ih

theorem sysLog_spec {task : TaskStruct} {pointer length : Word} :
    (sysLog k e task pointer length).1.tasks = k.tasks ∧ (sysLog k e task pointer length).1.current = k.current ∧
      (sysLog k e task pointer length).2 = logResult task pointer length := by
  unfold sysLog logResult
  split
  · exact ⟨rfl, rfl, rfl⟩
  · split
    · exact ⟨rfl, rfl, rfl⟩
    · split
      · exact ⟨rfl, rfl, rfl⟩
      · refine ⟨?_, ?_, rfl⟩
        · rw [logBytes_tasks.1, taskPrefix, uartPuts_tasks.1]
        · rw [logBytes_tasks.2, taskPrefix, uartPuts_tasks.2]

/-! ## The handler -/

theorem recordTrap_spec {regs : PtRegs} :
    (recordTrap k regs e).tasks =
      Function.update k.tasks k.current { k.tasks k.current with regs, observed := true } ∧
    (recordTrap k regs e).current = k.current := by
  by_cases seen : (k.tasks k.current).observed
  · simp [recordTrap, Kernel.modify, seen]
  · simp [recordTrap, Kernel.modify, Kernel.printk, seen]

/-- The report of a task's first trap. -/
def firstReport (k : Kernel n) (regs : PtRegs) (e : Event) : List Effect :=
  if (k.tasks k.current).observed then []
  else [.printk "[app %u] TRAP origin=%016lx handler=%016lx\n"
    [k.currentWord, regs.pstate &&& 0x1f, e.currentEl >>> 2]]

theorem recordTrap_trace {regs : PtRegs} :
    (recordTrap k regs e).board.trace = k.board.trace ++ firstReport k regs e := by
  by_cases seen : (k.tasks k.current).observed
  · simp [recordTrap, firstReport, Kernel.modify, seen]
  · simp [recordTrap, firstReport, Kernel.modify, Kernel.printk, Kernel.currentWord, Board.printk, Board.emit, seen]

/-- Kinds of trap after which the same task goes on. -/
def Kind.returns : Kind → Bool
  | .spurious | .log | .unknown => true
  | _ => false

/-- **A trap.** When `trap` does not panic, the task has passed the check at
the entry, the trapping task alone is changed, and either it goes on or
`schedule` has chosen. -/
structure Trapped (k : Kernel n) (e : Event) (k' : Kernel n) (exit : Exit n) : Prop where
  checked : entryCheck (k.tasks k.current) e.user e.daif
  known : e.kind ≠ .strange
  tasks : k'.tasks = Function.update k.tasks k.current ((k.tasks k.current).after e)
  outcome : if e.kind.returns then k'.current = k.current ∧ exit = .resume k.current
    else Chosen k' k.current exit

/-- The traps of a kind that ends in `schedule`. -/
theorem Trapped.scheduled {k₁ : Kernel n} (run : schedule k₁ e = (k', exit))
    (checked : entryCheck (k.tasks k.current) e.user e.daif) (known : e.kind ≠ .strange)
    (switch : e.kind.returns = false) (current : k₁.current = k.current)
    (tasks : k₁.tasks = Function.update k.tasks k.current ((k.tasks k.current).after e)) :
    Trapped k e k' exit := by
  obtain ⟨same, chosen⟩ := schedule_spec run
  refine ⟨checked, known, same.trans tasks, ?_⟩
  rw [switch, ← current]
  exact chosen

/-- The part of `trap` for interrupts. -/
theorem trap_irq {k₁ : Kernel n} (checked : entryCheck (k.tasks k.current) e.user e.daif) (irq : e.exception = .irq)
    (tasks : k₁.tasks = Function.update k.tasks k.current { k.tasks k.current with regs := e.user, observed := true })
    (current : k₁.current = k.current) (known : e.kind ≠ .strange)
    (run : (match timerInterrupt k₁.board e.iar with
      | none => k₁.panic e
      | some (board, false) => ({ k₁ with board }, .resume k₁.current)
      | some (board, true) => schedule { k₁ with board } e) = (k', exit)) : Trapped k e k' exit := by
  unfold timerInterrupt at run
  by_cases reserved : 1020 ≤ e.iar ∧ e.iar ≤ 1023
  · rw [if_pos reserved] at run
    obtain ⟨rfl, rfl⟩ := Prod.mk.inj run
    have kind : e.kind = .spurious := by rw [Event.kind, if_pos irq, if_pos reserved]
    refine ⟨checked, by simp [kind], ?_, ?_⟩
    · simp only [tasks, TaskStruct.after, kind]
    · simp [kind, Kind.returns, current]
  · rw [if_neg reserved] at run
    by_cases timer : e.iar = timerIrq
    · rw [if_neg (by simpa using timer)] at run
      have kind : e.kind = .tick := by rw [Event.kind, if_pos irq, if_neg reserved, if_pos timer]
      replace run : schedule
        { k₁ with board := (timerRearm k₁.board).emit (.msr .iccEoir1El1 e.iar) } e = (k', exit) := run
      refine Trapped.scheduled run checked (by simp [kind]) (by simp [kind, Kind.returns]) current ?_
      simp only [tasks, TaskStruct.after, kind]
    · exact absurd (by rw [Event.kind, if_pos irq, if_neg reserved, if_neg timer]) known

theorem trap_spec (run : trap k e.user e.irqWord e = (k', exit))
    (checked : entryCheck (k.tasks k.current) e.user e.daif) (known : e.kind ≠ .strange) : Trapped k e k' exit := by
  have record := @recordTrap_spec n k e e.user
  rw [trap, if_neg (by simpa using checked)] at run
  generalize recordTrap k e.user e = k₁ at record run
  obtain ⟨tasks, current⟩ := record
  dsimp only at run
  by_cases irq : e.exception = .irq
  · rw [Event.irqWord, if_pos irq, if_pos (by decide)] at run
    exact trap_irq checked irq tasks current known run
  rw [Event.irqWord, if_neg irq, if_neg (by decide)] at run
  by_cases svc : e.isSvc
  · rw [if_neg (by simpa [Event.isSvc, imp_iff_not_or] using svc)] at run
    by_cases log : e.user.regs 8 = nrLog
    · rw [if_pos log] at run
      have kind : e.kind = .log := by rw [Event.kind, if_neg irq, if_neg (not_not.2 svc), if_pos log]
      have result := @sysLog_spec n k₁ e (k₁.tasks k₁.current) (e.user.regs 0) (e.user.regs 1)
      generalize sysLog k₁ e (k₁.tasks k₁.current) (e.user.regs 0) (e.user.regs 1) = p at run result
      obtain ⟨tasks₂, current₂, result⟩ := result
      obtain ⟨rfl, rfl⟩ := Prod.mk.inj run
      refine ⟨checked, by simp [kind], ?_, by simp [kind, Kind.returns, Kernel.modify, current₂, current]⟩
      simp only [Kernel.modify, tasks₂, current₂, current, tasks, result, Function.update_self,
        Function.update_idem, TaskStruct.after, kind]
      rfl
    rw [if_neg log] at run
    by_cases exits : e.user.regs 8 = nrExit
    · rw [if_pos exits] at run
      have kind : e.kind = .exit := by
        rw [Event.kind, if_neg irq, if_neg (not_not.2 svc), if_neg log, if_pos exits]
      refine Trapped.scheduled run checked (by simp [kind]) (by simp [kind, Kind.returns]) current ?_
      simp only [stopCurrent, Kernel.modify, Kernel.printk, current, tasks, Function.update_self,
        Function.update_idem, TaskStruct.after, kind]
    · rw [if_neg exits] at run
      have kind : e.kind = .unknown := by
        rw [Event.kind, if_neg irq, if_neg (not_not.2 svc), if_neg log, if_neg exits]
      obtain ⟨rfl, rfl⟩ := Prod.mk.inj run
      refine ⟨checked, by simp [kind], ?_, by simp [kind, Kind.returns, Kernel.modify, current]⟩
      simp only [Kernel.modify, current, tasks, Function.update_self, Function.update_idem, TaskStruct.after, kind]
  · rw [if_pos (by simpa [Event.isSvc, imp_iff_not_or] using svc)] at run
    have kind : e.kind = .fault := by rw [Event.kind, if_neg irq, if_pos svc]
    refine Trapped.scheduled run checked (by simp [kind]) (by simp [kind, Kind.returns]) current ?_
    simp only [stopCurrent, Kernel.modify, Kernel.printk, current, tasks, Function.update_self,
      Function.update_idem, TaskStruct.after, kind]

/-- The traps that end in `kernel_panic`. -/
theorem trap_panics (bad : ¬(entryCheck (k.tasks k.current) e.user e.daif ∧ e.kind ≠ .strange)) :
    (trap k e.user e.irqWord e).2 = .panic := by
  unfold trap
  by_cases checked : entryCheck (k.tasks k.current) e.user e.daif
  · have kind : e.kind = .strange := by_contra fun known => bad ⟨checked, known⟩
    have irq : e.exception = .irq := by
      by_contra sync
      rw [Event.kind, if_neg sync] at kind
      split_ifs at kind
    have source : ¬(1020 ≤ e.iar ∧ e.iar ≤ 1023) ∧ e.iar ≠ timerIrq := by
      rw [Event.kind, if_pos irq] at kind
      split_ifs at kind with reserved timer
      exact ⟨reserved, timer⟩
    rw [if_neg (by simpa using checked), Event.irqWord, if_pos irq, if_pos (by decide)]
    unfold timerInterrupt
    rw [if_neg source.1, if_pos source.2]
    rfl
  · rw [if_pos (by simpa using checked)]
    rfl

end

end MiaowOs
