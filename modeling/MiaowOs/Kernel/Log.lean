import MiaowOs.Kernel.TaskSafety
import MiaowOs.Mm.AddressMap

/-!
# The log system call

`sys_log` answers every pointer and length: the task's own image and stack are
printed, byte by byte after the prefix of the task, and nothing else is read.
What it reads is mapped in `user_pg_dir`, so the read does not fault.
-/

namespace MiaowOs

variable {n : Nat}

/-- The range lies in the loaded image or in the stack of the task, in unbounded
arithmetic. -/
def TaskStruct.Loggable (task : TaskStruct) (pointer length : Nat) : Prop :=
  (task.image.toNat ≤ pointer ∧ pointer + length ≤ task.image.toNat + task.size.toNat) ∨
    (task.stackBottom.toNat ≤ pointer ∧ pointer + length ≤ task.stackTop.toNat)

instance (task : TaskStruct) (pointer length : Nat) : Decidable (task.Loggable pointer length) :=
  inferInstanceAs (Decidable (_ ∨ _))

/-- The prefix of a task, then its bytes, each one as it is read. -/
def logEffects (bytes : Word → UInt8) (current : Nat) (pointer : Word) (length : Nat) : List Effect :=
  (taskPrefixText current).map .uartPutc ++
    (List.range length).flatMap fun j =>
      [.userLoad (pointer + BitVec.ofNat 64 j), .uartPutc (bytes (pointer + BitVec.ofNat 64 j))]

/-- EL1 can read through a mapping: the access flag is set. Every value of `AP`
lets it. -/
def ReadableEl1 (attributes : Nat) : Prop := attributes &&& pteAf ≠ 0

section
variable {tasksAt : Fin n → Word} {s : Sys n} {i : Fin n} {e : Event} {k : Kernel n} {task : TaskStruct}
  {start size pointer length : Word}

/-- `contains` is containment, whatever the words. -/
theorem contains_iff : contains start size pointer length = true ↔
    start.toNat ≤ pointer.toNat ∧ pointer.toNat + length.toNat ≤ start.toNat + size.toNat := by
  have hp := pointer.isLt
  have hs := size.isLt
  unfold contains
  simp only [Bool.and_eq_true, decide_eq_true_eq, BitVec.le_def]
  constructor
  · intro both
    obtain ⟨⟨low, inside⟩, fits⟩ := both
    rw [BitVec.toNat_sub_of_le (BitVec.le_def.2 inside), BitVec.toNat_sub_of_le (BitVec.le_def.2 low)] at fits
    rw [BitVec.toNat_sub_of_le (BitVec.le_def.2 low)] at inside
    omega
  · intro both
    obtain ⟨low, fits⟩ := both
    have offset : (pointer - start).toNat = pointer.toNat - start.toNat := BitVec.toNat_sub_of_le (BitVec.le_def.2 low)
    have inside : (pointer - start).toNat ≤ size.toNat := by
      rw [offset]
      omega
    refine ⟨⟨low, inside⟩, ?_⟩
    rw [BitVec.toNat_sub_of_le (BitVec.le_def.2 inside), offset]
    omega

/-- The two calls of `contains` in `sys_log`. -/
theorem Slot.loggable_iff {i : Nat} (slot : Slot i task) :
    (!contains task.image task.size pointer length &&
      !contains task.stackBottom (BitVec.ofNat 64 appStackSize) pointer length) = true ↔
      ¬ task.Loggable pointer.toNat length.toNat := by
  have stack : task.stackTop.toNat = task.stackBottom.toNat + (BitVec.ofNat 64 appStackSize).toNat := by
    have width : (BitVec.ofNat 64 appStackSize).toNat = 0x4000 := by decide
    have top := appStackTop_toNat i
    have bottom := appStackBottom_toNat i
    rw [slot.stackTop, slot.stackBottom, width]
    generalize (appImage i).toNat = image at top bottom
    omega
  unfold TaskStruct.Loggable
  rw [stack, ← contains_iff, ← contains_iff]
  simp

/-- The result of the call. -/
theorem Slot.logResult_eq {i : Nat} (slot : Slot i task) : logResult task pointer length =
    if logLimit < length then -eInval
    else if length = 0 then 0
    else if task.Loggable pointer.toNat length.toNat then length else -eFault := by
  unfold logResult
  by_cases loggable : task.Loggable pointer.toNat length.toNat
  · rw [if_pos loggable, if_neg fun bad => slot.loggable_iff.1 bad loggable]
  · rw [if_neg loggable, if_pos (slot.loggable_iff.2 loggable)]

/-! ## What the call does -/

theorem uartPuts_trace {text : List UInt8} :
    (uartPuts k text).board.trace = k.board.trace ++ (text.takeWhile (· ≠ 0)).map .uartPutc := by
  unfold uartPuts
  induction text.takeWhile (· ≠ 0) generalizing k with
  | nil => simp
  | cons c text ih =>
    rw [List.foldl_cons, ih, List.map_cons]
    simp [Kernel.emit, Board.emit]

theorem logBytes_trace {count j : Nat} : (logBytes e pointer count j k).board.trace =
    k.board.trace ++ (List.range' j count).flatMap fun j =>
      [.userLoad (pointer + BitVec.ofNat 64 j), .uartPutc (e.bytes (pointer + BitVec.ofNat 64 j))] := by
  induction count generalizing j k with
  | zero => simp [logBytes]
  | succ count ih =>
    rw [logBytes, ih, List.range'_succ, List.flatMap_cons]
    simp [Kernel.emit, Board.emit]

/-- The prefix has no terminator inside it, for the tasks there are. -/
theorem taskPrefixText_whole {c : Nat} (lt : c < appCount) :
    (taskPrefixText c).takeWhile (· ≠ 0) = taskPrefixText c := by
  have digit : ∀ c < appCount, (taskPrefixText c).takeWhile (· ≠ 0) = taskPrefixText c := by decide
  exact digit c lt

/-- The output of the call. -/
theorem sysLog_trace {i : Nat} (slot : Slot i task) (lt : k.current < appCount) :
    (sysLog k e task pointer length).1.board.trace = k.board.trace ++
      if length ≤ logLimit ∧ length ≠ 0 ∧ task.Loggable pointer.toNat length.toNat then
        logEffects e.bytes k.current pointer length.toNat else [] := by
  unfold sysLog
  by_cases long : logLimit < length
  · rw [if_pos long, if_neg fun fits => BitVec.not_le.2 long fits.1, List.append_nil]
  rw [if_neg long]
  by_cases empty : length = 0
  · rw [if_pos empty, if_neg fun fits => fits.2.1 empty, List.append_nil]
  rw [if_neg empty]
  by_cases loggable : task.Loggable pointer.toNat length.toNat
  · rw [if_neg fun bad => slot.loggable_iff.1 bad loggable, if_pos ⟨BitVec.not_lt.1 long, empty, loggable⟩,
      logBytes_trace, taskPrefix, uartPuts_trace, taskPrefixText_whole lt, logEffects, List.range_eq_range',
      List.append_assoc]
  · rw [if_pos (slot.loggable_iff.2 loggable), if_neg fun fits => loggable fits.2.2, List.append_nil]

/-- `trap` on a log call. -/
theorem trap_log (checked : entryCheck (k.tasks k.current) e.user e.daif) (sync : e.exception ≠ .irq) (svc : e.isSvc)
    (number : e.user.regs 8 = nrLog) : (trap k e.user e.irqWord e).1.board.trace =
      (sysLog (recordTrap k e.user e) e ((recordTrap k e.user e).tasks (recordTrap k e.user e).current)
        (e.user.regs 0) (e.user.regs 1)).1.board.trace := by
  rw [trap, if_neg (by simpa using checked), Event.irqWord, if_neg sync]
  dsimp only
  rw [if_neg (by decide), if_neg (by simpa [Event.isSvc, imp_iff_not_or] using svc), if_pos number]
  rfl

/-! ## What the call reads -/

/-- The addresses of a loggable range are mapped in `user_pg_dir`. -/
theorem Slot.readable {i j : Nat} (slot : Slot i task) (lt : i < appCount)
    (loggable : task.Loggable pointer.toNat length.toNat) (inside : j < length.toNat) :
    (pointer + BitVec.ofNat 64 j).toNat < 2 ^ 39 ∧ ∃ attributes, ReadableEl1 attributes ∧
      userMap (pointer + BitVec.ofNat 64 j).toNat = some ((pointer + BitVec.ofNat 64 j).toNat, attributes) := by
  have image : task.image.toNat = appFirst + i * appSlotSize := by
    rw [slot.image, appImage_toNat]
    simp only [appFirst, appSlotSize, appCount] at *
    omega
  have bottom : task.stackBottom.toNat = task.image.toNat + 0x1c000 := by
    rw [slot.stackBottom, appStackBottom_toNat, slot.image]
  have top : task.stackTop.toNat = task.image.toNat + 0x20000 := by
    rw [slot.stackTop, appStackTop_toNat, slot.image]
  have size : task.size.toNat ≤ appImageSize := BitVec.le_def.1 slot.size.le
  have word := length.isLt
  unfold TaskStruct.Loggable at loggable
  rw [bottom, top, image] at loggable
  have address : (pointer + BitVec.ofNat 64 j).toNat = pointer.toNat + j := by
    rw [BitVec.toNat_add, BitVec.toNat_ofNat]
    simp only [appFirst, appSlotSize, appCount, appImageSize] at *
    omega
  rw [address]
  generalize pointer.toNat = p at *
  generalize length.toNat = m at *
  refine ⟨by simp only [appFirst, appSlotSize, appCount, appImageSize] at *; omega, ?_⟩
  unfold userMap
  rcases loggable with loggable | loggable
  · have inImage : InImage i (p + j) := by
      unfold InImage
      simp only [appFirst, appSlotSize, appImageSize] at *
      omega
    rw [if_pos ⟨i, lt, inImage⟩]
    exact ⟨_, by unfold ReadableEl1; decide, rfl⟩
  · have inStack : InStack i (p + j) := by
      unfold InStack
      simp only [appFirst, appSlotSize, appStackSize] at *
      omega
    rw [if_neg, if_pos ⟨i, lt, inStack⟩]
    · exact ⟨_, by unfold ReadableEl1; decide, rfl⟩
    · intro found
      obtain ⟨_, _, inImage⟩ := found
      exact not_image_of_stack inStack rfl inImage

theorem firstReport_userLoad {k : Kernel n} {regs : PtRegs} {a : Word} : .userLoad a ∉ firstReport k regs e := by
  unfold firstReport
  split <;> simp

theorem mem_logEffects {bytes : Word → UInt8} {c length : Nat} {pointer a : Word}
    (mem : .userLoad a ∈ logEffects bytes c pointer length) : ∃ j < length, a = pointer + BitVec.ofNat 64 j := by
  unfold logEffects at mem
  rcases List.mem_append.1 mem with mem | mem
  · simp at mem
  · obtain ⟨j, lt, mem⟩ := List.mem_flatMap.1 mem
    exact ⟨j, List.mem_range.1 lt, by simpa using mem⟩

/-- The effects of a log call of the running task. -/
theorem log_trace {sp : Word} (few : n ≤ appCount) (inv : s.Inv sp) (current : i = s.kernel.current)
    (handled : Handled s i e (s.handle tasksAt i e))
    (sync : e.exception = .sync) (svc : e.isSvc) (number : e.user.regs 8 = nrLog) :
    (s.handle tasksAt i e).kernel.board.trace = firstReport s.entered e.user e ++
      if e.user.regs 1 ≤ logLimit ∧ e.user.regs 1 ≠ 0 ∧
          (s.kernel.tasks i).Loggable (e.user.regs 0).toNat (e.user.regs 1).toNat then
        logEffects e.bytes i (e.user.regs 0) (e.user.regs 1).toNat else [] := by
  have slot := inv.slot i
  have same : (recordTrap s.entered e.user e).current = i := recordTrap_spec.2.trans current.symm
  have task : (recordTrap s.entered e.user e).tasks i =
      { s.kernel.tasks i with regs := e.user, observed := true } := by
    rw [recordTrap_spec.1, show s.entered.current = i from current.symm, Function.update_self]
    rfl
  have slot' : Slot i ((recordTrap s.entered e.user e).tasks i) := by
    rw [task]
    exact ⟨slot.image, slot.stackBottom, slot.stackTop, slot.size⟩
  rw [handled.kernel, trap_log (k := s.entered) handled.trapped.checked (by simp [sync]) svc number, same,
    sysLog_trace slot' (by rw [same]; omega), recordTrap_trace, same, task]
  rfl

/-- A log call of no bytes only reports the first trap of a task. -/
theorem log_empty {sp : Word} (few : n ≤ appCount) (inv : s.Inv sp) (current : i = s.kernel.current)
    (handled : Handled s i e (s.handle tasksAt i e)) (sync : e.exception = .sync) (svc : e.isSvc)
    (number : e.user.regs 8 = nrLog) (empty : e.user.regs 1 = 0) : ∃ r,
      (s.handle tasksAt i e).records = r :: s.records ∧ r.effects = firstReport s.entered e.user e := by
  refine ⟨_, handled.recorded, (log_trace few inv current handled sync svc number).trans ?_⟩
  rw [if_neg fun fits => fits.2.1 empty, List.append_nil]

end

section
variable {tasksAt : Fin appCount → Word} {s : Sys appCount} {i : Fin appCount} {e : Event} {sp : Word}
  {l : PgLayout} {symbols : KernelSymbols} {st st' : PgState}

/-- **The log system call.** In every reachable state, `svc #0` with `__NR_log`
and a stack pointer that passes the check at the entry: `trap` reports the first
trap of a task, and the call itself prints the task's prefix and its bytes if the
range is in its image or its stack, and else nothing. What is read is mapped
readable in `user_pg_dir`. The task resumes with the result in `x0`. -/
theorem log_confined (booted : Booted tasksAt sp s) (at_ : s.status = .resume i) (sync : e.exception = .sync)
    (svc : e.isSvc) (number : e.user.regs 8 = nrLog) (checked : entryCheck (s.kernel.tasks i) e.user e.daif)
    (placed : Placed l.root l.pool) (linked : symbols.Linked) (clear : Cleared l st)
    (mapped : mmuInit l symbols st = some st') :
    ∃ result out r, (s.handle tasksAt i e).records = r :: s.records ∧
      r.effects = firstReport s.entered e.user e ++ out ∧
      (logLimit < e.user.regs 1 → result = -eInval ∧ out = []) ∧
      (e.user.regs 1 = 0 → result = 0 ∧ out = []) ∧
      (e.user.regs 1 ≤ logLimit → e.user.regs 1 ≠ 0 →
        (s.kernel.tasks i).Loggable (e.user.regs 0).toNat (e.user.regs 1).toNat →
          result = e.user.regs 1 ∧ out = logEffects e.bytes i (e.user.regs 0) (e.user.regs 1).toNat) ∧
      (e.user.regs 1 ≤ logLimit → e.user.regs 1 ≠ 0 →
        ¬ (s.kernel.tasks i).Loggable (e.user.regs 0).toNat (e.user.regs 1).toNat → result = -eFault ∧ out = []) ∧
      (∀ a, .userLoad a ∈ r.effects → ∃ x attributes,
        translate st'.mem l.userPgDir a.toNat = some (x, attributes) ∧ ReadableEl1 attributes) ∧
      (s.handle tasksAt i e).status = .resume i ∧ (s.handle tasksAt i e).context = setX0 e.user result ∧
      ∀ j ≠ i, (s.handle tasksAt i e).kernel.tasks j = s.kernel.tasks j := by
  have inv := booted.inv
  have settled := inv.resumed at_
  have current := settled.1
  have kind : e.kind = .log := by
    rw [Event.kind, if_neg (by simp [sync]), if_neg (not_not.2 svc), if_pos number]
  have checked' : entryCheck (s.kernel.tasks s.kernel.current) e.user e.daif := by rwa [← current]
  have ok : (s.handle tasksAt i e).status ≠ .panic := handle_ok (.inl sync) checked' (by simp [kind])
  have handled := handle_spec ok
  have outcome := handled.trapped.outcome
  rw [if_pos (by rw [kind]; rfl), ← current] at outcome
  have slot := inv.slot i
  have tasks := handled.trapped.tasks
  rw [← current] at tasks
  have trace := log_trace le_rfl inv current handled sync svc number
  refine ⟨logResult (s.kernel.tasks i) (e.user.regs 0) (e.user.regs 1), _, _, handled.recorded, trace,
    ?_, ?_, ?_, ?_, ?_, outcome.2, ?_, ?_⟩
  · intro long
    rw [slot.logResult_eq, if_pos long, if_neg fun fits => BitVec.not_le.2 long fits.1]
    exact ⟨rfl, rfl⟩
  · intro empty
    rw [slot.logResult_eq, if_neg (by rw [empty]; decide), if_pos empty, if_neg fun fits => fits.2.1 empty]
    exact ⟨rfl, rfl⟩
  · intro short some_ loggable
    rw [slot.logResult_eq, if_neg (BitVec.not_lt.2 short), if_neg some_, if_pos loggable, if_pos ⟨short, some_, loggable⟩]
    exact ⟨rfl, rfl⟩
  · intro short some_ loggable
    rw [slot.logResult_eq, if_neg (BitVec.not_lt.2 short), if_neg some_, if_neg loggable,
      if_neg fun fits => loggable fits.2.2]
    exact ⟨rfl, rfl⟩
  · intro a mem
    obtain ⟨st₀, tables, run, sub, rep⟩ := mmuInit_spec placed linked clear
    have final : _ = st' := Option.some_inj.1 (run.symm.trans mapped)
    have after : AfterInit l symbols st₀ st' tables := ⟨rep, sub, final.symm⟩
    have mem : .userLoad a ∈ (s.handle tasksAt i e).kernel.board.trace := mem
    rw [trace] at mem
    have mem := (List.mem_append.1 mem).resolve_left firstReport_userLoad
    split at mem
    next fits =>
      obtain ⟨j, lt, rfl⟩ := mem_logEffects mem
      obtain ⟨half, attributes, readable, maps⟩ := slot.readable i.isLt fits.2.2 lt
      exact ⟨_, attributes, (after.user placed half).trans maps, readable⟩
    next => cases mem
  · rw [(handled.resumed i outcome.2).1, tasks, Function.update_self, after_regs, Event.result, kind]
  · intro j ne
    rw [tasks, Function.update_of_ne ne]

end

/-- The first task logs `length` bytes from the start of its image. -/
def logExample (length : Word) : Event :=
  { syncExample 0x41020000 0x56000000 with
    user := ⟨fun i => if i = 0 then appImage 0 else if i = 1 then length else 0, 0x41020000, appImage 0, 0x60000340⟩ }

/-- One byte of the image is printed. -/
theorem log_confined_one_byte : ∃ (tasksAt : Fin 3 → Word) (s : Sys 3), Booted tasksAt 0xffffffc0000b0000 s ∧
    s.status = .resume 0 ∧ (s.handle tasksAt 0 (logExample 1)).context = setX0 (logExample 1).user 1 := by
  obtain ⟨s, booted, at_, current, empty, task⟩ := exists_start
  refine ⟨_, s, booted, at_, ?_⟩
  obtain ⟨st', _, run, -⟩ := mmuInit_spec exampleLayout_placed exampleSymbols_linked exampleLayout_cleared
  obtain ⟨result, out, r, -, -, -, -, inside, -, -, -, context, -⟩ :=
    log_confined booted at_ (e := logExample 1) rfl (by decide) (by decide) (by rw [task]; decide)
      exampleLayout_placed exampleSymbols_linked exampleLayout_cleared run
  have loggable : (s.kernel.tasks 0).Loggable ((logExample 1).user.regs 0).toNat ((logExample 1).user.regs 1).toNat := by
    rw [task]
    decide
  rw [context, (inside (by decide) (by decide) loggable).1]
  rfl

/-- The first trap of a task is reported, also when it logs nothing. -/
theorem log_reports_first_trap : ∃ (tasksAt : Fin 3 → Word) (s : Sys 3) (e : Event) (r : Record 3),
    Booted tasksAt 0xffffffc0000b0000 s ∧ s.status = .resume 0 ∧ e.exception = .sync ∧ e.isSvc ∧
      e.user.regs 8 = nrLog ∧ e.user.regs 1 = 0 ∧ entryCheck (s.kernel.tasks 0) e.user e.daif ∧
      (s.handle tasksAt 0 e).records = r :: s.records ∧
      r.effects = [.printk "[app %u] TRAP origin=%016lx handler=%016lx\n" [0, 0, 1]] := by
  obtain ⟨s, booted, at_, current, empty, task⟩ := exists_start
  have checked : entryCheck (s.kernel.tasks 0) (logExample 0).user (logExample 0).daif := by
    rw [task]
    decide
  have ok : (s.handle (fun i => 0xffffffc0000a0000 + 320 * BitVec.ofNat 64 i) 0 (logExample 0)).status ≠ .panic :=
    handle_ok (.inl rfl) (by rwa [current]) (by decide)
  have handled := handle_spec ok
  have report : firstReport s.entered (logExample 0).user (logExample 0) =
      [.printk "[app %u] TRAP origin=%016lx handler=%016lx\n" [0, 0, 1]] := by
    have args : [s.entered.currentWord, (logExample 0).user.pstate &&& 0x1f, (logExample 0).currentEl >>> 2] =
        [0, 0, 1] := by
      rw [Kernel.currentWord, show s.entered.current = 0 from current]
      decide
    rw [firstReport, args, if_neg]
    rw [show s.entered.current = 0 from current, show s.entered.tasks 0 = loadedTask 0 1 from task 0]
    exact Bool.false_ne_true
  obtain ⟨r, recorded, effects⟩ :=
    log_empty le_rfl booted.inv current.symm handled rfl (by decide) (by decide) (by decide)
  rw [report] at effects
  exact ⟨_, s, logExample 0, r, booted, at_, rfl, by decide, by decide, by decide, checked, recorded, effects⟩

end MiaowOs
