import MiaowOs.Kernel.TaskSafety

/-!
# The timer over whole runs

Whenever an application runs the timer is enabled with a quantum that fits its
register, so the kernel gets the processor back; in the idle loop it is off.
What an exception writes to the timer and to the interrupt controller depends on
its kind alone, and every interrupt of the timer is completed once.
-/

namespace MiaowOs

variable {n : Nat}

/-- A write to a timer or interrupt-controller register. -/
def Effect.register : Effect → Bool
  | .msr _ _ => true
  | .mmio _ _ => true
  | _ => false

/-- The register writes of a trace. -/
def registers (trace : List Effect) : List Effect := trace.filter Effect.register

/-- The writes of `timer_rearm`. -/
def rearmWrites (quantum : Word) : List Effect := [.msr .cntpTvalEl0 quantum, .msr .cntpCtlEl0 1]

/-- The writes of `schedule`. -/
def scheduleWrites (quantum : Word) : Exit n → List Effect
  | .resume _ => rearmWrites quantum
  | _ => [.msr .cntpCtlEl0 0]

/-- The writes of a trap. -/
def trapWrites (quantum : Word) (kind : Kind) (exit : Exit n) : List Effect :=
  match kind with
  | .tick => rearmWrites quantum ++ [.msr .iccEoir1El1 timerIrq] ++ scheduleWrites quantum exit
  | .fault | .exit => scheduleWrites quantum exit
  | _ => []

/-- No register has been written. -/
structure Board.Quiet (b b' : Board) : Prop where
  quantum : b'.quantum = b.quantum
  cntpCtl : b'.cntpCtl = b.cntpCtl
  registers : registers b'.trace = registers b.trace

section
variable {b b' b'' : Board} {k k' : Kernel n} {e : Event} {exit : Exit n} {regs : PtRegs}

theorem registers_append {l l' : List Effect} : registers (l ++ l') = registers l ++ registers l' :=
  List.filter_append l l'

namespace Board

theorem Quiet.refl : Quiet b b := ⟨rfl, rfl, rfl⟩

theorem Quiet.trans (h : Quiet b b') (h' : Quiet b' b'') : Quiet b b'' :=
  ⟨h'.quantum.trans h.quantum, h'.cntpCtl.trans h.cntpCtl, h'.registers.trans h.registers⟩

theorem Quiet.emit {x : Effect} (other : x.register = false) : Quiet b (b.emit x) := by
  refine ⟨rfl, rfl, ?_⟩
  rw [Board.emit, registers_append, MiaowOs.registers, MiaowOs.registers, List.filter_singleton, other]
  exact List.append_nil _

theorem Quiet.printk {format : String} {args : List Word} : Quiet b (b.printk format args) := .emit rfl

end Board

/-! ## One trap -/

theorem recordTrap_quiet : Board.Quiet k.board (recordTrap k regs e).board := by
  unfold recordTrap
  dsimp only
  split
  · exact .refl
  · exact .emit rfl

theorem uartPuts_quiet {text : List UInt8} : Board.Quiet k.board (uartPuts k text).board := by
  unfold uartPuts
  induction text.takeWhile (· ≠ 0) generalizing k with
  | nil => exact .refl
  | cons c text ih =>
    have first : Board.Quiet k.board (k.emit (.uartPutc c)).board := .emit rfl
    exact first.trans ih

theorem logBytes_quiet {pointer : Word} {count i : Nat} :
    Board.Quiet k.board (logBytes e pointer count i k).board := by
  induction count generalizing i k with
  | zero => exact .refl
  | succ count ih =>
    have load : Board.Quiet k.board (k.emit (.userLoad (pointer + BitVec.ofNat 64 i))).board := .emit rfl
    have put : Board.Quiet (k.emit (.userLoad (pointer + BitVec.ofNat 64 i))).board
        ((k.emit (.userLoad (pointer + BitVec.ofNat 64 i))).emit
          (.uartPutc (e.bytes (pointer + BitVec.ofNat 64 i)))).board := .emit rfl
    exact (load.trans put).trans ih

theorem sysLog_quiet {task : TaskStruct} {pointer length : Word} :
    Board.Quiet k.board (sysLog k e task pointer length).1.board := by
  unfold sysLog
  split
  · exact .refl
  split
  · exact .refl
  split
  · exact .refl
  · exact uartPuts_quiet.trans logBytes_quiet

/-- What `schedule` writes; the timer is on when it resumes a task, else off. -/
theorem schedule_timer (run : schedule k e = (k', exit)) : k'.board.quantum = k.board.quantum ∧
    registers k'.board.trace = registers k.board.trace ++ scheduleWrites k.board.quantum exit ∧
    k'.board.cntpCtl = if exit = .done then 0 else 1 := by
  unfold schedule at run
  split at run
  · obtain ⟨rfl, rfl⟩ := Prod.mk.inj run
    refine ⟨rfl, ?_, rfl⟩
    rw [timerRearm_trace, registers_append]
    rfl
  · rw [if_neg (by simpa using timerStop_disabled e.timerStatus)] at run
    obtain ⟨rfl, rfl⟩ := Prod.mk.inj run
    refine ⟨rfl, ?_, rfl⟩
    simp only [Kernel.printk, Board.printk, Board.emit, timerStop_trace, registers_append, List.append_assoc]
    rfl

/-- What a trap does to the timer. -/
structure TimerAfter (k : Kernel n) (e : Event) (k' : Kernel n) (exit : Exit n) : Prop where
  quantum : k'.board.quantum = k.board.quantum
  writes : registers k'.board.trace = registers k.board.trace ++ trapWrites k.board.quantum e.kind exit
  cntpCtl : k'.board.cntpCtl = if e.kind.returns then k.board.cntpCtl else if exit = .done then 0 else 1

/-- A trap that returns to its task. -/
theorem TimerAfter.quiet (quiet : Board.Quiet k.board k'.board) (returns : e.kind.returns = true) :
    TimerAfter k e k' exit := by
  have silent : trapWrites k.board.quantum e.kind exit = [] := by
    unfold trapWrites
    cases kind : e.kind <;> simp_all [Kind.returns]
  refine ⟨quiet.quantum, ?_, ?_⟩
  · rw [silent, List.append_nil]
    exact quiet.registers
  · rw [if_pos returns]
    exact quiet.cntpCtl

/-- A trap that ends in `schedule`, after some writes. -/
theorem TimerAfter.scheduled {k₁ : Kernel n} (before : List Effect) (run : schedule k₁ e = (k', exit))
    (quantum : k₁.board.quantum = k.board.quantum)
    (writes : registers k₁.board.trace = registers k.board.trace ++ before) (switch : e.kind.returns = false)
    (kind : trapWrites k.board.quantum e.kind exit = before ++ scheduleWrites k.board.quantum exit) :
    TimerAfter k e k' exit := by
  obtain ⟨same, wrote, control⟩ := schedule_timer run
  refine ⟨same.trans quantum, ?_, ?_⟩
  · rw [wrote, writes, quantum, kind, List.append_assoc]
  · rw [switch, control]
    rfl

/-- **What a trap does to the timer and to the interrupt controller.** -/
theorem trap_timer (run : trap k e.user e.irqWord e = (k', exit))
    (checked : entryCheck (k.tasks k.current) e.user e.daif) (known : e.kind ≠ .strange) :
    TimerAfter k e k' exit := by
  have quiet := @recordTrap_quiet n k e e.user
  rw [trap, if_neg (by simpa using checked)] at run
  generalize recordTrap k e.user e = k₁ at quiet run
  dsimp only at run
  by_cases irq : e.exception = .irq
  · rw [Event.irqWord, if_pos irq, if_pos (by decide)] at run
    unfold timerInterrupt at run
    by_cases reserved : 1020 ≤ e.iar ∧ e.iar ≤ 1023
    · have kind : e.kind = .spurious := by rw [Event.kind, if_pos irq, if_pos reserved]
      rw [if_pos reserved] at run
      obtain ⟨rfl, rfl⟩ := Prod.mk.inj run
      exact .quiet quiet (by rw [kind]; rfl)
    · have timer : e.iar = timerIrq := by
        by_contra other
        exact known (by rw [Event.kind, if_pos irq, if_neg reserved, if_neg other])
      have kind : e.kind = .tick := by rw [Event.kind, if_pos irq, if_neg reserved, if_pos timer]
      rw [if_neg reserved, if_neg (by simpa using timer)] at run
      refine .scheduled (rearmWrites k.board.quantum ++ [.msr .iccEoir1El1 timerIrq]) run quiet.quantum ?_
        (by rw [kind]; rfl) (by rw [kind]; rfl)
      rw [← quiet.quantum, ← quiet.registers, timer]
      simp only [Board.emit, timerRearm_trace, registers_append, List.append_assoc]
      rfl
  rw [Event.irqWord, if_neg irq, if_neg (by decide)] at run
  by_cases svc : e.isSvc
  · rw [if_neg (by simpa [Event.isSvc, imp_iff_not_or] using svc)] at run
    by_cases log : e.user.regs 8 = nrLog
    · have kind : e.kind = .log := by rw [Event.kind, if_neg irq, if_neg (not_not.2 svc), if_pos log]
      rw [if_pos log] at run
      obtain ⟨rfl, rfl⟩ := Prod.mk.inj run
      exact .quiet (quiet.trans sysLog_quiet) (by rw [kind]; rfl)
    rw [if_neg log] at run
    by_cases exits : e.user.regs 8 = nrExit
    · have kind : e.kind = .exit := by
        rw [Event.kind, if_neg irq, if_neg (not_not.2 svc), if_neg log, if_pos exits]
      rw [if_pos exits] at run
      have report : Board.Quiet k.board
          (k₁.board.printk "[app %u] EXIT status=%ld\n" [k₁.currentWord, e.user.regs 0]) := quiet.trans .printk
      exact .scheduled [] run report.quantum (report.registers.trans (List.append_nil _).symm)
        (by rw [kind]; rfl) (by rw [kind]; rfl)
    · have kind : e.kind = .unknown := by
        rw [Event.kind, if_neg irq, if_neg (not_not.2 svc), if_neg log, if_neg exits]
      rw [if_neg exits] at run
      obtain ⟨rfl, rfl⟩ := Prod.mk.inj run
      exact .quiet quiet (by rw [kind]; rfl)
  · have kind : e.kind = .fault := by rw [Event.kind, if_neg irq, if_pos svc]
    rw [if_pos (by simpa [Event.isSvc, imp_iff_not_or] using svc)] at run
    have report : Board.Quiet k.board (k₁.board.printk "[app %u] FAULT ESR=%016lx FAR=%016lx ELR=%016lx\n"
        [k₁.currentWord, e.esr, e.far, e.user.pc]) := quiet.trans .printk
    exact .scheduled [] run report.quantum (report.registers.trans (List.append_nil _).symm)
      (by rw [kind]; rfl) (by rw [kind]; rfl)

end

/-! ## Runs -/

/-- The timer and the register writes so far. -/
structure Sys.Timed (quantum : Word) (s : Sys n) : Prop where
  same : s.kernel.board.quantum = quantum
  cntpCtl : s.kernel.board.cntpCtl = if s.status = .done then 0 else 1
  writes : ∀ r ∈ s.records, registers r.effects = trapWrites quantum r.event.kind r.exit

section
variable {tasksAt : Fin n → Word} {s s' : Sys n} {running : Fin n} {e : Event} {sp quantum : Word}

theorem handle_status (ok : (s.handle tasksAt running e).status ≠ .panic) :
    (s.handle tasksAt running e).status = (trap s.entered e.user e.irqWord e).2 := by
  unfold Sys.handle at ok ⊢
  cases h : e.exception with
  | sync =>
    rw [Event.irqWord, h]
    exact dispatch_status
  | irq =>
    rw [Event.irqWord, h]
    exact dispatch_status
  | fiq =>
    rw [h] at ok
    exact absurd rfl ok
  | serror =>
    rw [h] at ok
    exact absurd rfl ok

/-- One exception. -/
theorem Sys.Timed.step (timed : s.Timed quantum) (at_ : s.status = .resume running)
    (ok : (s.handle tasksAt running e).status ≠ .panic) : (s.handle tasksAt running e).Timed quantum := by
  have handled := handle_spec ok
  have status := handle_status ok
  generalize s.handle tasksAt running e = s' at *
  have run : trap s.entered e.user e.irqWord e = (s'.kernel, s'.status) := by rw [handled.kernel, status]
  have after := trap_timer run handled.trapped.checked handled.trapped.known
  have armed := timed.cntpCtl
  rw [at_, if_neg (by simp)] at armed
  have writes : registers s'.kernel.board.trace = trapWrites quantum e.kind s'.status := by
    rw [after.writes, ← timed.same]
    rfl
  refine ⟨after.quantum.trans timed.same, ?_, ?_⟩
  · have outcome := handled.trapped.outcome
    rw [after.cntpCtl]
    by_cases returns : e.kind.returns = true
    · rw [if_pos returns] at outcome ⊢
      rw [outcome.2, if_neg (by simp)]
      exact armed
    · rw [if_neg returns]
  · intro r mem
    rw [handled.recorded] at mem
    rcases List.mem_cons.1 mem with rfl | mem
    · exact writes
    · exact timed.writes r mem

theorem Runs.timed (run : Runs tasksAt s s') (timed : s.Timed quantum) : s'.Timed quantum := by
  induction run with
  | refl => exact timed
  | step run at_ ok ih => exact ih.step at_ ok

theorem timerInit_spec {b b' : Board} {inputs : TimerInputs} (run : timerInit b inputs = some b') :
    b'.quantum ≠ 0 ∧ b'.quantum ≤ 0x7fffffff ∧ b'.cntpCtl = 1 := by
  unfold timerInit at run
  dsimp only at run
  split at run
  · cases run
  · next fits =>
    obtain rfl := Option.some_inj.1 run
    push Not at fits
    exact ⟨fits.1, BitVec.not_lt.1 fits.2, rfl⟩

theorem Booted.timed [NeZero n] (booted : Booted tasksAt sp s) :
    ∃ quantum, quantum ≠ 0 ∧ quantum ≤ 0x7fffffff ∧ s.Timed quantum := by
  cases booted with
  | @mk mem mem' board starts ends inputs k cells clobbered _ boot run =>
    obtain ⟨l, loaded, rest⟩ := Option.bind_eq_some_iff.1 boot
    obtain ⟨board', init, rest⟩ := Option.bind_eq_some_iff.1 rest
    obtain ⟨rfl, -⟩ := Prod.mk.inj (Option.some_inj.1 rest)
    obtain ⟨pos, le, on⟩ := timerInit_spec init
    exact ⟨board'.quantum, pos, le, run.timed ⟨rfl, on, fun r none => nomatch none⟩⟩

/-- How often a trap completes an interrupt. -/
theorem count_eoi (exit : Exit n) (kind : Kind) : (trapWrites quantum kind exit).count (.msr .iccEoir1El1 timerIrq) =
    if kind = .tick then 1 else 0 := by
  have schedules : ∀ v, (scheduleWrites quantum exit).count (.msr .iccEoir1El1 v) = 0 := by
    intro v
    unfold scheduleWrites rearmWrites
    cases exit <;> simp
  cases kind <;> simp [trapWrites, schedules, rearmWrites]

/-- **The timer.** In every run without a panic there is one quantum, which fits
the timer; the timer is on whenever an application runs, and off when all have
ended; an exception writes to the timer and to the interrupt controller what its
kind and its outcome say; and the interrupts of the timer are completed once
each. -/
theorem timer_armed [NeZero n] (booted : Booted tasksAt sp s) :
    ∃ quantum, quantum ≠ 0 ∧ quantum ≤ 0x7fffffff ∧ s.kernel.board.quantum = quantum ∧
      (∀ i, s.status = .resume i → s.kernel.board.cntpCtl = 1) ∧
      (s.status = .done → s.kernel.board.cntpCtl = 0) ∧
      (∀ r ∈ s.records, registers r.effects = trapWrites quantum r.event.kind r.exit) ∧
      (s.records.flatMap fun r => registers r.effects).count (.msr .iccEoir1El1 timerIrq) =
        s.records.countP fun r => r.event.kind = .tick := by
  obtain ⟨quantum, pos, le, timed⟩ := booted.timed
  refine ⟨quantum, pos, le, timed.same, fun i at_ => ?_, fun done => ?_, timed.writes, ?_⟩
  · rw [timed.cntpCtl, at_, if_neg (by simp)]
  · rw [timed.cntpCtl, done, if_pos rfl]
  · have writes := timed.writes
    generalize s.records = records at writes
    induction records with
    | nil => rfl
    | cons r records ih =>
      rw [List.flatMap_cons, List.count_append, ih fun r' mem => writes r' (List.mem_cons_of_mem r mem),
        writes r List.mem_cons_self, count_eoi, List.countP_cons, Nat.add_comm]
      simp

end

/-- The timer interrupts the first of three tasks, then the second one faults: the timer
is armed twice for the interrupt, which is completed, and once for the fault. -/
theorem timer_armed_tick_fault : ∃ (tasksAt : Fin 3 → Word) (s : Sys 3) (quantum : Word),
    Booted tasksAt 0xffffffc0000b0000 s ∧ s.status = .resume 2 ∧ quantum ≠ 0 ∧ s.kernel.board.cntpCtl = 1 ∧
      (s.records.map fun r => (r.event.kind, registers r.effects)) = [(.fault, rearmWrites quantum),
        (.tick, rearmWrites quantum ++ [.msr .iccEoir1El1 timerIrq] ++ rearmWrites quantum)] ∧
      (s.records.flatMap fun r => registers r.effects).count (.msr .iccEoir1El1 timerIrq) = 1 := by
  obtain ⟨s, booted, at_, -, empty, tasks⟩ := exists_start
  generalize (fun i : Fin 3 => 0xffffffc0000a0000 + 320 * BitVec.ofNat 64 i : Fin 3 → Word) = tasksAt at booted
  have alive : ∀ i, (s.kernel.tasks i).runnable := fun i => by
    rw [tasks]
    rfl
  obtain ⟨at₁, alive₁⟩ := @Sys.Inv.tick 3 tasksAt s 0 _ booted.inv at_ alive
  have ok₁ : (s.handle tasksAt 0 s.tick).status ≠ .panic := by simp [at₁]
  have recorded₁ := (handle_spec ok₁).recorded
  have booted₁ := booted.step at_ ok₁
  rw [at₁, empty] at recorded₁
  generalize s.handle tasksAt 0 s.tick = s₁ at *
  have at₂ := @Sys.Inv.undefined 3 tasksAt s₁ _ _ booted₁.inv at₁ alive₁ (by decide)
  have ok₂ : (s₁.handle tasksAt (Cyclic.shift 0 1) s₁.undefined).status ≠ .panic := by simp [at₂]
  have recorded₂ := (handle_spec ok₂).recorded
  have booted₂ := booted₁.step at₁ ok₂
  rw [at₂, recorded₁] at recorded₂
  generalize s₁.handle tasksAt (Cyclic.shift 0 1) s₁.undefined = s₂ at *
  obtain ⟨quantum, positive, -, -, on, -, writes, completed⟩ := timer_armed booted₂
  refine ⟨_, s₂, quantum, booted₂, at₂, positive, on _ at₂, ?_, ?_⟩
  · rw [recorded₂] at writes ⊢
    have fault := writes _ List.mem_cons_self
    have tick := writes _ (List.mem_cons_of_mem _ List.mem_cons_self)
    simp only [List.map_cons, List.map_nil, fault, tick, Sys.undefined_kind, Sys.tick_kind]
    rfl
  · rw [completed, recorded₂]
    simp [Sys.undefined_kind, Sys.tick_kind]

end MiaowOs
