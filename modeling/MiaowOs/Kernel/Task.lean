import MiaowOs.Kernel.Timer
import MiaowOs.Memory
import MiaowOs.String

/-!
# Tasks, system calls and the trap handler

`kernel/task.c` and `kernel/task.h` for any number `n` of tasks; the build has
`APP_COUNT`. Task indices are elements of `Fin n`: the code never forms another
one, and an array of `n` tasks in the kernel image keeps `n` far below the
limits of `int` and `unsigned`. `kernel_panic` and the idle loop at the end end
a call with an exit of their own.
-/

namespace MiaowOs
open Bytes

abbrev nrLog : Word := 0
abbrev nrExit : Word := 1
abbrev eFault : Word := 14
abbrev eInval : Word := 22
abbrev eNosys : Word := 38
abbrev logLimit : Word := 256

/-- `struct task_struct`. -/
structure TaskStruct where
  regs : PtRegs
  image : Word
  size : Word
  stackBottom : Word
  stackTop : Word
  runnable : Bool
  observed : Bool
  exitCode : Word

/-- The kernel's own state: the static variables of `task.c` and the board. -/
structure Kernel (n : Nat) where
  tasks : Fin n → TaskStruct
  current : Fin n
  board : Board

/-- How a call of `trap` ends. -/
inductive Exit (n : Nat)
  /-- It returns `&tasks[task].regs`. -/
  | resume (task : Fin n)
  /-- It stays in the idle loop of `schedule`. -/
  | done
  /-- It stays in `kernel_panic`. -/
  | panic
deriving DecidableEq, Repr

/-- An exception from EL0: the state of the application, and what the kernel
reads from system registers, from application memory and from its own stack. -/
structure Event where
  exception : Exception
  user : PtRegs
  esr : Word
  far : Word
  daif : Word
  currentEl : Word
  /-- The interrupt identifier in `ICC_IAR1_EL1`. -/
  iar : Word
  /-- The status bit of the timer. -/
  timerStatus : Bool
  bytes : Word → UInt8
  /-- The doublewords of kernel memory before the entry. -/
  mem : Word → Word
  /-- What the C code leaves in the general registers. -/
  clobbered : Fin 31 → Word

variable {n : Nat}

namespace Kernel

/-- Change the running task. -/
def modify (k : Kernel n) (f : TaskStruct → TaskStruct) : Kernel n :=
  { k with tasks := Function.update k.tasks k.current (f (k.tasks k.current)) }

def emit (k : Kernel n) (e : Effect) : Kernel n := { k with board := k.board.emit e }

def printk (k : Kernel n) (format : String) (args : List Word) : Kernel n :=
  { k with board := k.board.printk format args }

/-- `kernel_panic`. -/
def panic (k : Kernel n) (e : Event) : Kernel n × Exit n :=
  (k.printk "PANIC EL1 ESR=%016lx FAR=%016lx ELR=%016lx\n" [e.esr, e.far, e.user.pc], .panic)

/-- The number of the running task, as `printk` receives it. -/
def currentWord (k : Kernel n) : Word := BitVec.ofNat 64 k.current

end Kernel

/-! ## Scheduling -/

/-- The loop of `next_runnable` from `offset` on, with `fuel` iterations left. -/
def nextRunnableFrom (tasks : Fin n → TaskStruct) (current : Fin n) : Nat → Nat → Option (Fin n)
  | 0, _ => none
  | fuel + 1, offset =>
    let next : Fin n := ⟨(current + offset) % n, Nat.mod_lt _ current.pos⟩
    if (tasks next).runnable then some next else nextRunnableFrom tasks current fuel (offset + 1)

/-- `next_runnable`; `none` stands for -1. -/
def nextRunnable (tasks : Fin n → TaskStruct) (current : Fin n) : Option (Fin n) :=
  nextRunnableFrom tasks current n 1

/-- `schedule`. -/
def schedule (k : Kernel n) (e : Event) : Kernel n × Exit n :=
  match nextRunnable k.tasks k.current with
  | some next => ({ k with current := next, board := timerRearm k.board }, .resume next)
  | none =>
    let k : Kernel n := { k with board := timerStop k.board }
    if k.board.readCntpCtl e.timerStatus &&& 1 ≠ 0 then k.panic e
    else (k.printk "ALL APPS DONE\n" [], .done)

/-! ## System calls -/

/-- `contains`. -/
def contains (start size pointer length : Word) : Bool :=
  start ≤ pointer && pointer - start ≤ size && length ≤ size - (pointer - start)

/-- `uart_puts` on the characters of an array. -/
def uartPuts (k : Kernel n) (text : List UInt8) : Kernel n :=
  (text.takeWhile (· ≠ 0)).foldl (fun k c => k.emit (.uartPutc c)) k

/-- The characters `[app 0] ` with the number of the task written into them. -/
def taskPrefixText (current : Nat) : List UInt8 :=
  [0x5b, 0x61, 0x70, 0x70, 0x20, UInt8.ofNat (0x30 + current), 0x5d, 0x20]

/-- `task_prefix`. -/
def taskPrefix (k : Kernel n) : Kernel n := uartPuts k (taskPrefixText k.current)

/-- The output loop of `sys_log` from byte `i` on. -/
def logBytes (e : Event) (pointer : Word) : Nat → Nat → Kernel n → Kernel n
  | 0, _, k => k
  | count + 1, i, k =>
    let address := pointer + BitVec.ofNat 64 i
    logBytes e pointer count (i + 1) ((k.emit (.userLoad address)).emit (.uartPutc (e.bytes address)))

/-- `sys_log`. -/
def sysLog (k : Kernel n) (e : Event) (task : TaskStruct) (pointer length : Word) : Kernel n × Word :=
  if logLimit < length then (k, -eInval)
  else if length = 0 then (k, 0)
  else if !contains task.image task.size pointer length &&
      !contains task.stackBottom (BitVec.ofNat 64 appStackSize) pointer length then (k, -eFault)
  else (logBytes e pointer length.toNat 0 (taskPrefix k), length)

/-! ## The trap handler -/

/-- The check at the start of `trap`; where it fails the kernel panics. -/
def entryCheck (task : TaskStruct) (regs : PtRegs) (daif : Word) : Bool :=
  regs.pstate &&& 0x1f = 0 && daif &&& 0x80 ≠ 0 && task.stackBottom ≤ regs.sp && regs.sp ≤ task.stackTop &&
    regs.sp &&& 15 = 0

/-- `trap` up to its classification of the exception: copy the context, and
report the first trap of a task. -/
def recordTrap (k : Kernel n) (regs : PtRegs) (e : Event) : Kernel n :=
  let k := k.modify fun task => { task with regs }
  if (k.tasks k.current).observed then k
  else
    let k := k.printk "[app %u] TRAP origin=%016lx handler=%016lx\n"
      [k.currentWord, regs.pstate &&& 0x1f, e.currentEl >>> 2]
    k.modify fun task => { task with observed := true }

/-- The running task stops: by a fault, or by `exit`. -/
def stopCurrent (k : Kernel n) : Kernel n := k.modify fun task => { task with runnable := false }

def setX0 (regs : PtRegs) (v : Word) : PtRegs := { regs with regs := Function.update regs.regs 0 v }

/-- `trap`. -/
def trap (k : Kernel n) (regs : PtRegs) (irq : Word) (e : Event) : Kernel n × Exit n :=
  if !entryCheck (k.tasks k.current) regs e.daif then k.panic e
  else
    let k := recordTrap k regs e
    if irq ≠ 0 then
      match timerInterrupt k.board e.iar with
      | none => k.panic e
      | some (board, false) => ({ k with board }, .resume k.current)
      | some (board, true) => schedule { k with board } e
    else
      let syndrome := e.esr
      if syndrome >>> 26 ≠ 0x15 ∨ syndrome &&& 0xffff ≠ 0 then
        let k := k.printk "[app %u] FAULT ESR=%016lx FAR=%016lx ELR=%016lx\n"
          [k.currentWord, syndrome, e.far, regs.pc]
        schedule (stopCurrent k) e
      else if regs.regs 8 = nrLog then
        let (k, result) := sysLog k e (k.tasks k.current) (regs.regs 0) (regs.regs 1)
        (k.modify fun task => { task with regs := setX0 task.regs result }, .resume k.current)
      else if regs.regs 8 = nrExit then
        let k := k.modify fun task => { task with exitCode := regs.regs 0 }
        let k := k.printk "[app %u] EXIT status=%ld\n" [k.currentWord, regs.regs 0]
        schedule (stopCurrent k) e
      else
        (k.modify fun task => { task with regs := setX0 task.regs (-eNosys) }, .resume k.current)

/-! ## Loading the applications -/

/-- An element of the static array `tasks` before `start_apps`. -/
def zeroTask : TaskStruct where
  regs := ⟨fun _ => 0, 0, 0, 0⟩
  image := 0
  size := 0
  stackBottom := 0
  stackTop := 0
  runnable := false
  observed := false
  exitCode := 0

/-- `APP_FIRST + i * APP_SLOT_SIZE`, an `unsigned` sum. -/
def appImage (i : Nat) : Word :=
  (BitVec.ofNat 32 appFirst + BitVec.ofNat 32 i * BitVec.ofNat 32 appSlotSize).setWidth 64

def appStackTop (i : Nat) : Word := appImage i + BitVec.ofNat 64 appSlotSize

def appStackBottom (i : Nat) : Word := appStackTop i - BitVec.ofNat 64 appStackSize

/-- The copy loop of `start_apps`. -/
def copyLoop (source destination : Nat) : Nat → Nat → Mem → Mem
  | 0, _, mem => mem
  | count + 1, offset, mem =>
    copyLoop source destination count (offset + 1) (put mem (destination + offset) (mem (source + offset)))

/-- The loop that compares the copy with its source. -/
def sameBytes (mem : Mem) (source destination size : Nat) : Bool :=
  (List.range size).all fun offset => mem (destination + offset) == mem (source + offset)

/-- The variables of `start_apps`. -/
structure Loader (n : Nat) where
  tasks : Fin n → TaskStruct
  mem : Mem
  board : Board

/-- One iteration of `start_apps`; `none` stands for `kernel_panic`. -/
def loadApp (starts ends : Fin n → Word) (l : Loader n) (i : Fin n) : Option (Loader n) :=
  let image := appImage i
  let size := ends i - starts i
  let stackTop := appStackTop i
  let stackBottom := appStackBottom i
  if size = 0 ∨ BitVec.ofNat 64 appImageSize < size ∨ stackBottom < image + size then none
  else
    -- the slot's user address is its physical address
    let destination := va image.toNat
    let mem := copyLoop (starts i).toNat destination size.toNat 0 l.mem
    if !sameBytes mem (starts i).toNat destination size.toNat then none
    else
      let mem := memset mem (va stackBottom.toNat) 0 appStackSize
      let regs := { (l.tasks i).regs with pc := image, sp := stackTop, pstate := 0x340 }
      let task := { l.tasks i with image, size, stackTop, stackBottom, regs, runnable := true }
      let board := l.board.printk "LOADED app=%u image=%016lx stack=%016lx copy=OK\n"
        [BitVec.ofNat 64 i, image, stackTop]
      some { tasks := Function.update l.tasks i task, mem, board }

/-- `start_apps` up to `enter_app(&tasks[0].regs)`; `none` stands for
`kernel_panic`. -/
def startApps [NeZero n] (mem : Mem) (board : Board) (starts ends : Fin n → Word) (inputs : TimerInputs) :
    Option (Kernel n × Mem) := do
  let l ← (List.finRange n).foldlM (loadApp starts ends) ⟨fun _ => zeroTask, mem, board⟩
  let board ← timerInit l.board inputs
  return (⟨l.tasks, 0, board⟩, l.mem)

/-- The task `start_apps` sets up in slot `i`. -/
def loadedTask (i : Nat) (size : Word) : TaskStruct where
  regs := ⟨fun _ => 0, appStackTop i, appImage i, 0x340⟩
  image := appImage i
  size := size
  stackBottom := appStackBottom i
  stackTop := appStackTop i
  runnable := true
  observed := false
  exitCode := 0

/-- The image of a task fits below its stack. -/
structure SizeFits (i : Nat) (size : Word) : Prop where
  pos : size ≠ 0
  le : size ≤ BitVec.ofNat 64 appImageSize
  below : appImage i + size ≤ appStackBottom i

section
variable {starts ends : Fin n → Word} {l l' : Loader n} {i : Fin n}

theorem loadApp_spec (zero : l.tasks i = zeroTask) (run : loadApp starts ends l i = some l') :
    l'.tasks = Function.update l.tasks i (loadedTask i (ends i - starts i)) ∧ SizeFits i (ends i - starts i) := by
  unfold loadApp at run
  dsimp only at run
  split at run
  · cases run
  · next fits =>
    split at run
    · cases run
    · obtain rfl := Option.some_inj.1 run
      push Not at fits
      refine ⟨?_, fits.1, BitVec.not_lt.1 fits.2.1, BitVec.not_lt.1 fits.2.2⟩
      rw [zero]
      rfl

/-- The loop over a list of slots without repetition. -/
theorem loadApps_spec {slots : List (Fin n)} (nodup : slots.Nodup) (zero : ∀ i ∈ slots, l.tasks i = zeroTask)
    (run : slots.foldlM (loadApp starts ends) l = some l') :
    ∀ i, (i ∈ slots → l'.tasks i = loadedTask i (ends i - starts i) ∧ SizeFits i (ends i - starts i)) ∧
      (i ∉ slots → l'.tasks i = l.tasks i) := by
  induction slots generalizing l with
  | nil =>
    obtain rfl := Option.some_inj.1 run
    simp
  | cons s slots ih =>
    rw [List.foldlM_cons] at run
    obtain ⟨l₁, step, rest⟩ := Option.bind_eq_some_iff.1 run
    obtain ⟨fresh, nodup⟩ := List.nodup_cons.1 nodup
    obtain ⟨tasks, fits⟩ := loadApp_spec (zero s (by simp)) step
    have untouched : ∀ i ∈ slots, l₁.tasks i = zeroTask := by
      intro i mem
      have ne : i ≠ s := fun eq => fresh (eq ▸ mem)
      rw [tasks, Function.update_of_ne ne]
      exact zero i (by simp [mem])
    have later := ih nodup untouched rest
    intro i
    obtain ⟨inside, outside⟩ := later i
    constructor
    · intro mem
      rcases List.mem_cons.1 mem with rfl | mem
      · rw [outside fresh, tasks, Function.update_self]
        exact ⟨rfl, fits⟩
      · exact inside mem
    · intro out
      rw [List.mem_cons, not_or] at out
      rw [outside out.2, tasks, Function.update_of_ne out.1]

/-- `start_apps` leaves every slot loaded, and enters the first. -/
theorem startApps_spec [NeZero n] {mem mem' : Mem} {board : Board} {inputs : TimerInputs} {k : Kernel n}
    (run : startApps mem board starts ends inputs = some (k, mem')) :
    k.current = 0 ∧ ∀ i, k.tasks i = loadedTask i (ends i - starts i) ∧ SizeFits i (ends i - starts i) := by
  obtain ⟨l, loaded, rest⟩ := Option.bind_eq_some_iff.1 run
  obtain ⟨board', init, rest⟩ := Option.bind_eq_some_iff.1 rest
  obtain ⟨rfl, -⟩ := Prod.mk.inj (Option.some_inj.1 rest)
  refine ⟨rfl, fun i => ?_⟩
  exact (loadApps_spec (List.nodup_finRange n) (fun _ _ => rfl) loaded i).1 (List.mem_finRange i)

end

end MiaowOs
