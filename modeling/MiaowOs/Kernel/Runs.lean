import MiaowOs.Kernel.Trap

/-!
# Runs of the system

An application runs at EL0 until an exception; the vector table, `kernel_entry`,
`trap` and `enter_app` handle it, and `eret` resumes an application. EL0 code
does what it likes: the context at an exception is part of the event. The
invariant `Sys.Inv` ties the context in the registers, the saved contexts and
the scheduler's variables together, after every exception of every run.
-/

namespace MiaowOs

variable {n : Nat}

/-- What happened at one exception. -/
structure Record (n : Nat) where
  task : Fin n
  event : Event
  /-- `SP_EL1` at the entry. -/
  sp : Word
  effects : List Effect
  /-- The result of the system call, if the exception is one that returns. -/
  result : Option Word
  exit : Exit n

/-- The system while an application runs, or after it has come to rest. -/
structure Sys (n : Nat) where
  kernel : Kernel n
  sp : Word
  /-- The context `eret` has put in place. -/
  context : PtRegs
  status : Exit n
  /-- The exceptions so far, the last one first. -/
  records : List (Record n)

/-- The result of a returning system call of a task. -/
def Event.result (task : TaskStruct) (e : Event) : Option Word :=
  match e.kind with
  | .log => some (logResult task (e.user.regs 0) (e.user.regs 1))
  | .unknown => some (-eNosys)
  | _ => none

section
variable (tasksAt : Fin n → Word)

/-- The code after `bl trap`: the stack pointer goes back up, and `enter_app`
loads the structure the returned pointer addresses. `tasksAt` are the addresses
of the elements of `tasks`, whose first member is `regs`. -/
def resumeFrom (cpu : Cpu) (k : Kernel n) (task : Fin n) (clobbered : Fin 31 → Word) : Cpu :=
  let cpu := { cpu with
    x := Function.update clobbered 0 (tasksAt task)
    mem := (k.tasks task).regs.store cpu.mem (tasksAt task) }
  (cpu.step (.addSp sFrameSize)).exec enterApp

/-- The kernel at an exception, with nothing in its trace yet. -/
def Sys.entered (s : Sys n) : Kernel n := { s.kernel with board := { s.kernel.board with trace := [] } }

/-- `el0_sync` and `el0_irq`, from the exception of the running task to `eret`. -/
def Sys.dispatch (s : Sys n) (running : Fin n) (e : Event) (irq : Word) : Sys n :=
  let cpu := Cpu.exec ⟨e.user.regs, s.sp, e.user.sp, e.user.pc, e.user.pstate, e.mem⟩ (callTrap irq)
  let (kernel, exit) := trap s.entered (PtRegs.load cpu.mem (cpu.x 0)) (cpu.x 1) e
  let cpu := match exit with
    | .resume task => resumeFrom tasksAt cpu kernel task e.clobbered
    | _ => cpu
  { kernel, sp := cpu.sp, context := cpu.context, status := exit,
    records := ⟨running, e, s.sp, kernel.board.trace, e.result (s.kernel.tasks running), exit⟩ :: s.records }

/-- An exception of the running task. -/
def Sys.handle (s : Sys n) (running : Fin n) (e : Event) : Sys n :=
  match vectors[e.exception.slot]? with
  | some .el0Sync => s.dispatch tasksAt running e 0
  | some .el0Irq => s.dispatch tasksAt running e 1
  | _ =>
    let (kernel, exit) := s.kernel.panic e
    { kernel, sp := s.sp, context := s.context, status := exit,
      records := ⟨running, e, s.sp, kernel.board.trace, none, exit⟩ :: s.records }

/-- The system after `enter_app(&tasks[0].regs)` in `start_apps`. -/
def Sys.start [NeZero n] (k : Kernel n) (sp : Word) (mem : Word → Word) (clobbered : Fin 31 → Word) : Sys n :=
  let cpu : Cpu := ⟨Function.update clobbered 0 (tasksAt 0), sp, 0, 0, 0, (k.tasks 0).regs.store mem (tasksAt 0)⟩
  let cpu := cpu.exec enterApp
  { kernel := k, sp := cpu.sp, context := cpu.context, status := .resume 0, records := [] }

/-- The runs that do not panic. -/
inductive Runs : Sys n → Sys n → Prop
  | refl {s : Sys n} : Runs s s
  | step {s s' : Sys n} {running : Fin n} {e : Event} (run : Runs s s') (at_ : s'.status = .resume running)
      (ok : (s'.handle tasksAt running e).status ≠ .panic) : Runs s (s'.handle tasksAt running e)

/-- The systems that runs from `start_apps` reach. -/
inductive Booted [NeZero n] (sp : Word) : Sys n → Prop
  | mk {mem mem' : Bytes.Mem} {board : Board} {starts ends : Fin n → Word} {inputs : TimerInputs} {k : Kernel n}
      {cells : Word → Word} {clobbered : Fin 31 → Word} {s : Sys n}
      (boot : startApps mem board starts ends inputs = some (k, mem'))
      (run : Runs tasksAt (Sys.start tasksAt k sp cells clobbered) s) : Booted sp s

end

/-! ## One exception -/

section
variable {tasksAt : Fin n → Word} {s : Sys n} {running : Fin n} {e : Event} {irq : Word}

theorem exec_append {cpu : Cpu} {a b : List Instr} : cpu.exec (a ++ b) = (cpu.exec a).exec b := by
  rw [Cpu.exec, List.foldl_append]
  rfl

theorem callTrap_spec {cpu : Cpu} : (cpu.exec (callTrap irq)).x 1 = irq ∧
    (cpu.exec (callTrap irq)).sp = cpu.sp - sFrameSize ∧
    PtRegs.load (cpu.exec (callTrap irq)).mem ((cpu.exec (callTrap irq)).x 0) = cpu.context := by
  have frame := @kernelEntry_frame cpu
  have sp := @kernelEntry_sp cpu
  rw [callTrap, exec_append]
  generalize cpu.exec kernelEntry = entered at frame sp ⊢
  exact ⟨rfl, sp, frame⟩

/-- `resumeFrom` restores the context of the task and the stack pointer. -/
theorem resumeFrom_spec {cpu : Cpu} {k : Kernel n} {task : Fin n} {clobbered : Fin 31 → Word} :
    (resumeFrom tasksAt cpu k task clobbered).context = (k.tasks task).regs ∧
    (resumeFrom tasksAt cpu k task clobbered).sp = cpu.sp + sFrameSize := by
  unfold resumeFrom
  refine ⟨?_, enterApp_sp⟩
  rw [enterApp_context]
  simp only [Cpu.step, Function.update_self]
  exact PtRegs.load_store

/-- **One exception**: the trap, with the context and the stack pointer of the
task that goes on. -/
structure Handled (s : Sys n) (running : Fin n) (e : Event) (s' : Sys n) : Prop where
  kernel : s'.kernel = (trap s.entered e.user e.irqWord e).1
  trapped : Trapped s.kernel e s'.kernel s'.status
  resumed : ∀ i, s'.status = .resume i → s'.context = (s'.kernel.tasks i).regs ∧ s'.sp = s.sp
  recorded : s'.records =
    ⟨running, e, s.sp, s'.kernel.board.trace, e.result (s.kernel.tasks running), s'.status⟩ :: s.records

theorem dispatch_spec (word : irq = e.irqWord) (ok : (s.dispatch tasksAt running e irq).status ≠ .panic) :
    Handled s running e (s.dispatch tasksAt running e irq) := by
  unfold Sys.dispatch at ok ⊢
  have entry := @callTrap_spec irq ⟨e.user.regs, s.sp, e.user.sp, e.user.pc, e.user.pstate, e.mem⟩
  generalize Cpu.exec ⟨e.user.regs, s.sp, e.user.sp, e.user.pc, e.user.pstate, e.mem⟩ (callTrap irq) = cpu at *
  obtain ⟨x1, sp, frame⟩ := entry
  have frame : PtRegs.load cpu.mem (cpu.x 0) = e.user := frame
  dsimp only at ok sp ⊢
  rw [frame, x1, word] at ok ⊢
  generalize run : trap s.entered e.user e.irqWord e = result at *
  obtain ⟨k', exit⟩ := result
  have checked : entryCheck (s.kernel.tasks s.kernel.current) e.user e.daif ∧ e.kind ≠ .strange := by
    by_contra bad
    have panics := trap_panics (k := s.entered) bad
    rw [run] at panics
    exact ok panics
  have trapped := trap_spec run checked.1 checked.2
  refine ⟨by rw [run], ⟨trapped.checked, trapped.known, trapped.tasks, trapped.outcome⟩, fun i resume => ?_, rfl⟩
  dsimp only at resume ⊢
  subst resume
  refine ⟨resumeFrom_spec.1, ?_⟩
  rw [resumeFrom_spec.2, sp, BitVec.sub_add_cancel]

theorem dispatch_status : (s.dispatch tasksAt running e irq).status = (trap s.entered e.user irq e).2 := by
  unfold Sys.dispatch
  have entry := @callTrap_spec irq ⟨e.user.regs, s.sp, e.user.sp, e.user.pc, e.user.pstate, e.mem⟩
  generalize Cpu.exec ⟨e.user.regs, s.sp, e.user.sp, e.user.pc, e.user.pstate, e.mem⟩ (callTrap irq) = cpu at *
  have frame : PtRegs.load cpu.mem (cpu.x 0) = e.user := entry.2.2
  dsimp only
  rw [frame, entry.1]

/-- The exceptions that do not end in `kernel_panic`. -/
theorem handle_ok (handled : e.exception = .sync ∨ e.exception = .irq)
    (checked : entryCheck (s.kernel.tasks s.kernel.current) e.user e.daif) (known : e.kind ≠ .strange) :
    (s.handle tasksAt running e).status ≠ .panic := by
  have status : (s.handle tasksAt running e).status = (trap s.entered e.user e.irqWord e).2 := by
    unfold Sys.handle
    rcases handled with h | h
    · rw [h, Event.irqWord, h]
      exact dispatch_status
    · rw [h, Event.irqWord, h]
      exact dispatch_status
  rw [status]
  generalize run : trap s.entered e.user e.irqWord e = result
  obtain ⟨k', exit⟩ := result
  have outcome := (trap_spec run checked known).outcome
  intro panics
  obtain rfl : exit = .panic := panics
  split at outcome
  · cases outcome.2
  · cases outcome

theorem handle_spec (ok : (s.handle tasksAt running e).status ≠ .panic) :
    Handled s running e (s.handle tasksAt running e) := by
  unfold Sys.handle at ok ⊢
  cases h : e.exception with
  | sync =>
    rw [h] at ok
    exact dispatch_spec (by rw [Event.irqWord, h]; rfl) ok
  | irq =>
    rw [h] at ok
    exact dispatch_spec (by rw [Event.irqWord, h]; rfl) ok
  | fiq =>
    rw [h] at ok
    exact absurd rfl ok
  | serror =>
    rw [h] at ok
    exact absurd rfl ok

end

/-! ## The invariant -/

/-- The context `start_apps` gives to the task in slot `i`. -/
def initialContext (i : Nat) : PtRegs := ⟨fun _ => 0, appStackTop i, appImage i, 0x340⟩

/-- The context at the exception; `x0` is the result if it was a system call
that returns. -/
def Record.resumption (r : Record n) : PtRegs :=
  match r.result with
  | some v => setX0 r.event.user v
  | none => r.event.user

/-- The context of a task at its own most recent exception. -/
def lastContext : List (Record n) → Fin n → PtRegs
  | [], i => initialContext i
  | r :: records, i => if r.task = i then r.resumption else lastContext records i

/-- The fields `start_apps` sets and nothing changes. -/
structure Slot (i : Nat) (task : TaskStruct) : Prop where
  image : task.image = appImage i
  stackBottom : task.stackBottom = appStackBottom i
  stackTop : task.stackTop = appStackTop i
  size : SizeFits i task.size

/-- A context at EL0 with an aligned stack pointer inside the task's stack. -/
structure TaskStruct.OnStack (task : TaskStruct) (regs : PtRegs) : Prop where
  mode : regs.pstate &&& 0x1f = 0
  above : task.stackBottom ≤ regs.sp
  below : regs.sp ≤ task.stackTop
  aligned : regs.sp &&& 15 = 0

/-- What the status says of the scheduler's variables. -/
def Sys.Settled (sp : Word) (s : Sys n) : Exit n → Prop
  | .resume i => i = s.kernel.current ∧ (s.kernel.tasks i).runnable ∧ s.context = (s.kernel.tasks i).regs ∧ s.sp = sp
  | .done => (∀ i, (s.kernel.tasks i).runnable = false) ∧ s.kernel.board.cntpCtl = 0
  | .panic => False

structure Sys.Inv (sp : Word) (s : Sys n) : Prop where
  slot : ∀ i : Fin n, Slot i (s.kernel.tasks i)
  saved : ∀ i, (s.kernel.tasks i).regs = lastContext s.records i
  onStack : ∀ i, (s.kernel.tasks i).OnStack (s.kernel.tasks i).regs
  entries : ∀ r ∈ s.records, r.sp = sp
  settled : s.Settled sp s.status

section
variable {tasksAt : Fin n → Word} {s s' : Sys n} {running i : Fin n} {e : Event} {sp : Word} {task : TaskStruct}

theorem after_regs : (task.after e).regs =
    match e.result task with
    | some v => setX0 e.user v
    | none => e.user := by
  unfold TaskStruct.after Event.result
  cases e.kind <;> rfl

theorem after_slot {i : Nat} (h : Slot i task) : Slot i (task.after e) := by
  unfold TaskStruct.after
  cases e.kind <;> exact ⟨h.image, h.stackBottom, h.stackTop, h.size⟩

theorem after_runnable (alive : (task.after e).runnable) : task.runnable := by
  unfold TaskStruct.after at alive
  cases h : e.kind <;> simp_all

theorem after_returns (h : e.kind.returns) : (task.after e).runnable = task.runnable := by
  unfold TaskStruct.after
  cases k : e.kind <;> simp_all [Kind.returns]

/-- The stack pointer and the mode of the trapped context pass the check at the
entry, and nothing changes them. -/
theorem after_onStack (checked : entryCheck task e.user e.daif) : (task.after e).OnStack (task.after e).regs := by
  simp only [entryCheck, Bool.and_eq_true, decide_eq_true_eq] at checked
  obtain ⟨⟨⟨⟨mode, -⟩, above⟩, below⟩, aligned⟩ := checked
  unfold TaskStruct.after
  cases e.kind <;> exact ⟨mode, above, below, aligned⟩

theorem and_15_eq_zero {x : Word} (h : x.toNat % 16 = 0) : x &&& 15 = 0 := by
  apply BitVec.eq_of_toNat_eq
  rw [BitVec.toNat_and]
  exact (Nat.and_two_pow_sub_one_eq_mod x.toNat 4).trans h

theorem appImage_toNat (i : Nat) : (appImage i).toNat = (0x41000000 + i * 0x20000) % 2 ^ 32 := by
  unfold appImage
  rw [BitVec.toNat_setWidth, BitVec.toNat_add, BitVec.toNat_mul, BitVec.toNat_ofNat, BitVec.toNat_ofNat,
    BitVec.toNat_ofNat]
  simp only [appFirst, appSlotSize]
  omega

theorem appImage_lt (i : Nat) : (appImage i).toNat < 2 ^ 32 := by
  rw [appImage_toNat]
  exact Nat.mod_lt _ (by decide)

theorem appStackTop_toNat (i : Nat) : (appStackTop i).toNat = (appImage i).toNat + 0x20000 := by
  have lt := appImage_lt i
  rw [appStackTop, BitVec.toNat_add, BitVec.toNat_ofNat]
  simp only [appSlotSize]
  -- the kernel would otherwise unfold the image while it checks the arithmetic
  generalize (appImage i).toNat = image at *
  omega

theorem appStackBottom_toNat (i : Nat) : (appStackBottom i).toNat = (appImage i).toNat + 0x1c000 := by
  have lt := appImage_lt i
  rw [appStackBottom, BitVec.toNat_sub, BitVec.toNat_ofNat, appStackTop_toNat]
  simp only [appStackSize]
  generalize (appImage i).toNat = image at *
  omega

theorem appStackBottom_le (i : Nat) : appStackBottom i ≤ appStackTop i := by
  rw [BitVec.le_def, appStackBottom_toNat, appStackTop_toNat]
  exact Nat.add_le_add_left (by decide) _

theorem appStackTop_aligned (i : Nat) : appStackTop i &&& 15 = 0 := by
  apply and_15_eq_zero
  rw [appStackTop_toNat, appImage_toNat]
  omega

theorem initial_onStack {i : Nat} {size : Word} : (loadedTask i size).OnStack (loadedTask i size).regs where
  mode := (by decide : (0x340 : Word) &&& 0x1f = 0)
  above := appStackBottom_le i
  below := BitVec.le_refl (appStackTop i)
  aligned := appStackTop_aligned i

theorem Sys.start_spec [NeZero n] {k : Kernel n} {cells : Word → Word} {clobbered : Fin 31 → Word} :
    (Sys.start tasksAt k sp cells clobbered).context = (k.tasks 0).regs ∧
    (Sys.start tasksAt k sp cells clobbered).sp = sp := by
  unfold Sys.start
  dsimp only
  rw [enterApp_context, enterApp_sp]
  simp only [Function.update_self, PtRegs.load_store, and_self]

/-- The start satisfies the invariant. -/
theorem Sys.Inv.start [NeZero n] {mem mem' : Bytes.Mem} {board : Board} {starts ends : Fin n → Word}
    {inputs : TimerInputs} {k : Kernel n} {cells : Word → Word} {clobbered : Fin 31 → Word}
    (boot : startApps mem board starts ends inputs = some (k, mem')) :
    (Sys.start tasksAt k sp cells clobbered).Inv sp := by
  obtain ⟨first, loaded⟩ := startApps_spec boot
  have tasks : (Sys.start tasksAt k sp cells clobbered).kernel = k := rfl
  refine ⟨fun i => ?_, fun i => ?_, fun i => ?_, by simp [Sys.start], ?_⟩
  · rw [tasks, (loaded i).1]
    exact ⟨rfl, rfl, rfl, (loaded i).2⟩
  · rw [tasks, (loaded i).1]
    rfl
  · rw [tasks, (loaded i).1]
    exact initial_onStack
  · refine ⟨first.symm, ?_, Sys.start_spec.1, Sys.start_spec.2⟩
    rw [tasks, (loaded 0).1]
    rfl

/-- The task that runs is the current one, with its saved context. -/
theorem Sys.Inv.resumed (h : s.Inv sp) (at_ : s.status = .resume running) : running = s.kernel.current ∧
    (s.kernel.tasks running).runnable ∧ s.context = (s.kernel.tasks running).regs ∧ s.sp = sp := by
  have settled := h.settled
  rwa [at_] at settled

/-- One exception keeps the invariant. -/
theorem Sys.Inv.step (h : s.Inv sp) (at_ : s.status = .resume running) (handled : Handled s running e s') :
    s'.Inv sp := by
  obtain ⟨rfl, alive, -, same⟩ := h.resumed at_
  have trapped := handled.trapped
  have others : ∀ i ≠ s.kernel.current, s'.kernel.tasks i = s.kernel.tasks i := fun i ne => by
    rw [trapped.tasks, Function.update_of_ne ne]
  have this : s'.kernel.tasks s.kernel.current = (s.kernel.tasks s.kernel.current).after e := by
    rw [trapped.tasks, Function.update_self]
  refine ⟨fun i => ?_, fun i => ?_, fun i => ?_, ?_, ?_⟩
  · by_cases here : i = s.kernel.current
    · rw [here, this]
      exact after_slot (h.slot _)
    · rw [others i here]
      exact h.slot i
  · rw [handled.recorded, lastContext]
    by_cases here : s.kernel.current = i
    · rw [if_pos here, ← here, this, after_regs]
      rfl
    · rw [if_neg here, others i (Ne.symm here)]
      exact h.saved i
  · by_cases here : i = s.kernel.current
    · rw [here, this]
      exact after_onStack trapped.checked
    · rw [others i here]
      exact h.onStack i
  · rw [handled.recorded]
    intro r mem
    rcases List.mem_cons.1 mem with rfl | mem
    · exact same
    · exact h.entries r mem
  · have outcome := trapped.outcome
    have resumed := handled.resumed
    generalize s'.status = status at *
    by_cases returns : e.kind.returns
    · rw [if_pos returns] at outcome
      obtain ⟨current, rfl⟩ := outcome
      refine ⟨current.symm, ?_, (resumed _ rfl).1, (resumed _ rfl).2.trans same⟩
      rw [this, after_returns returns]
      exact alive
    · rw [if_neg returns] at outcome
      cases outcome with
      | next run => exact ⟨rfl, (nextRunnable_nearest run).1, (resumed _ rfl).1, (resumed _ rfl).2.trans same⟩
      | idle run same stopped => exact ⟨nextRunnable_none.1 run, stopped⟩

/-- An exception that finds the running task with the context it was resumed with. -/
theorem Sys.Inv.handle_ok (h : s.Inv sp) (at_ : s.status = .resume running) (user : e.user = s.context)
    (handled : e.exception = .sync ∨ e.exception = .irq) (masked : e.daif &&& 0x80 ≠ 0) (known : e.kind ≠ .strange) :
    (s.handle tasksAt running e).status ≠ .panic := by
  obtain ⟨current, -, context, -⟩ := h.resumed at_
  obtain ⟨mode, above, below, aligned⟩ := h.onStack running
  apply MiaowOs.handle_ok handled ?_ known
  rw [← current, user, context]
  simp only [entryCheck, Bool.and_eq_true, decide_eq_true_eq]
  exact ⟨⟨⟨⟨mode, masked⟩, above⟩, below⟩, aligned⟩

/-- Where `schedule` is called, the next task by index goes on if it can. -/
theorem Handled.next (handled : Handled s running e s') (switch : e.kind.returns = false)
    (alive : (s'.kernel.tasks (Cyclic.shift s.kernel.current 1)).runnable) :
    s'.status = .resume (Cyclic.shift s.kernel.current 1) := by
  have outcome := handled.trapped.outcome
  rw [if_neg (by simp [switch])] at outcome
  have choice := nextRunnable_next alive
  generalize s'.status = status at outcome
  cases outcome with
  | next run => rw [Option.some_inj.1 (run.symm.trans choice)]
  | idle run => cases run.symm.trans choice

theorem Runs.inv (run : Runs tasksAt s s') (h : s.Inv sp) : s'.Inv sp := by
  induction run with
  | refl => exact h
  | step run at_ ok ih => exact ih.step at_ (handle_spec ok)

theorem Booted.step [NeZero n] (h : Booted tasksAt sp s) (at_ : s.status = .resume running)
    (ok : (s.handle tasksAt running e).status ≠ .panic) : Booted tasksAt sp (s.handle tasksAt running e) := by
  cases h with
  | mk boot run => exact .mk boot (run.step at_ ok)

theorem Booted.inv [NeZero n] (h : Booted tasksAt sp s) : s.Inv sp := by
  cases h with
  | mk boot run => exact run.inv (.start boot)

end

end MiaowOs
