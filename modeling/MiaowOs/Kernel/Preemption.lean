import MiaowOs.Kernel.Log
import MiaowOs.Lib.Interleave

/-!
# Preemption

Applications under the kernel, with an interrupt between any two of their
instructions. An application is a deterministic program on the EL0 context and
on the bytes of its own slot. `Solo` is what it does with the processor to
itself, every system call answered at once. The computer refines these machines
taking turns: a timer interrupt is no step of any of them, and an application
sees the registers, the memory and the answers it would see alone.
-/

namespace MiaowOs

variable {n : Nat}

/-- The bytes of a slot, by offset. -/
abbrev SlotMem := Fin appSlotSize → UInt8

/-- What an application does next. -/
inductive Turn
  /-- It executes an instruction. -/
  | go (regs : PtRegs) (mem : SlotMem)
  /-- It raises a synchronous exception; the context is the one the exception
  leaves. -/
  | raise (regs : PtRegs) (mem : SlotMem) (esr far : Word)

/-- The code of an application that keeps to its own slot. -/
abbrev Program := PtRegs → SlotMem → Turn

/-- How far an application has come. -/
inductive Fate
  | running
  | exited (code : Word)
  | faulted
deriving DecidableEq

/-- An application that has the processor to itself. -/
structure Solo where
  regs : PtRegs
  mem : SlotMem
  fate : Fate
  output : List Effect

/-- The byte of a slot at an address. -/
def slotByte (i : Nat) (mem : SlotMem) (address : Word) : UInt8 :=
  if h : (address - appImage i).toNat < appSlotSize then mem ⟨(address - appImage i).toNat, h⟩ else 0

/-- What a log call of the task in slot `i` prints. -/
def logSaid (i : Nat) (size : Word) (mem : SlotMem) (pointer length : Word) : List Effect :=
  if length ≤ logLimit ∧ length ≠ 0 ∧ (loadedTask i size).Loggable pointer.toNat length.toNat then
    (taskPrefixText i).map .uartPutc ++
      (List.range length.toNat).map fun j => .uartPutc (slotByte i mem (pointer + BitVec.ofNat 64 j))
  else []

/-- The report of an exit. -/
def exitReport (i code : Word) : Effect := .printk "[app %u] EXIT status=%ld\n" [i, code]

/-- The report of a fault. -/
def faultReport (i esr far pc : Word) : Effect :=
  .printk "[app %u] FAULT ESR=%016lx FAR=%016lx ELR=%016lx\n" [i, esr, far, pc]

/-- The report of a first trap, taken from EL0 to EL1. -/
def trapReport (i : Word) : Effect := .printk "[app %u] TRAP origin=%016lx handler=%016lx\n" [i, 0, 1]

/-- The answer to a synchronous exception. -/
def Solo.answer (i : Nat) (size : Word) (s : Solo) (regs : PtRegs) (mem : SlotMem) (esr far : Word) : Solo :=
  if ¬(esr >>> 26 = 0x15 ∧ esr &&& 0xffff = 0) then
    ⟨regs, mem, .faulted, s.output ++ [faultReport (BitVec.ofNat 64 i) esr far regs.pc]⟩
  else if regs.regs 8 = nrLog then
    ⟨setX0 regs (logResult (loadedTask i size) (regs.regs 0) (regs.regs 1)), mem, .running,
      s.output ++ logSaid i size mem (regs.regs 0) (regs.regs 1)⟩
  else if regs.regs 8 = nrExit then
    ⟨regs, mem, .exited (regs.regs 0), s.output ++ [exitReport (BitVec.ofNat 64 i) (regs.regs 0)]⟩
  else ⟨setX0 regs (-eNosys), mem, .running, s.output⟩

/-- One step of an application alone: an instruction, or an exception with the
answer to it. -/
def Solo.step (program : Program) (i : Nat) (size : Word) (s : Solo) : Solo :=
  match s.fate with
  | .running =>
    match program s.regs s.mem with
    | .go regs mem => { s with regs, mem }
    | .raise regs mem esr far => s.answer i size regs mem esr far
  | _ => s

/-- An application alone, as `start_apps` leaves it. -/
def Solo.start (i : Nat) (image : SlotMem) : Solo := ⟨initialContext i, image, .running, []⟩

/-- An application alone, as a machine. -/
def soloMachine (program : Program) (i : Nat) (size : Word) : Interleave.Machine Solo where
  step := Solo.step program i size
  Halted s := s.fate ≠ .running
  rest s halted := by
    unfold Solo.step
    split
    · next alive => exact absurd alive halted
    · rfl

/-- The processor, the kernel and the slots; `regs` is the context of the
application that runs. -/
structure Computer (n : Nat) where
  sys : Sys n
  regs : PtRegs
  mem : Fin n → SlotMem

/-- The exception shows the context and the slot of the task in slot `i`, and is
handled at EL1. -/
structure Event.Shows (e : Event) (i : Nat) (regs : PtRegs) (mem : SlotMem) : Prop where
  user : e.user = regs
  level : e.currentEl = 4
  bytes : ∀ o : Fin appSlotSize, e.bytes (appImage i + BitVec.ofNat 64 o) = mem o

/-- What happens next on the computer, unless the kernel panics: the turn of an
application, or an interrupt. -/
inductive Computer.Step (programs : Fin n → Program) (tasksAt : Fin n → Word) :
    Option (Fin n) → Computer n → Computer n → Prop
  | go {c : Computer n} {i : Fin n} {regs : PtRegs} {mem : SlotMem} (at_ : c.sys.status = .resume i)
      (turn : programs i c.regs (c.mem i) = .go regs mem) :
      Step programs tasksAt (some i) c { c with regs, mem := Function.update c.mem i mem }
  | exception {c : Computer n} {i : Fin n} {e : Event} {regs : PtRegs} {mem : SlotMem}
      (at_ : c.sys.status = .resume i) (turn : programs i c.regs (c.mem i) = .raise regs mem e.esr e.far)
      (sync : e.exception = .sync) (shows : e.Shows i regs mem) (ok : (c.sys.handle tasksAt i e).status ≠ .panic) :
      Step programs tasksAt (some i) c
        ⟨c.sys.handle tasksAt i e, (c.sys.handle tasksAt i e).context, Function.update c.mem i mem⟩
  | interrupt {c : Computer n} {i : Fin n} {e : Event} (at_ : c.sys.status = .resume i) (irq : e.exception = .irq)
      (shows : e.Shows i c.regs (c.mem i)) (ok : (c.sys.handle tasksAt i e).status ≠ .panic) :
      Step programs tasksAt none c ⟨c.sys.handle tasksAt i e, (c.sys.handle tasksAt i e).context, c.mem⟩

/-- The computer when `start_apps` enters the first application: `images` is
what the slots hold then, `sizes` are the sizes of the images. -/
inductive Computer.Boots [NeZero n] (tasksAt : Fin n → Word) (sp : Word) (sizes : Fin n → Word)
    (images : Fin n → SlotMem) : Computer n → Prop
  | mk {mem mem' : Bytes.Mem} {board : Board} {starts ends : Fin n → Word} {inputs : TimerInputs} {k : Kernel n}
      {cells : Word → Word} {clobbered : Fin 31 → Word}
      (boot : startApps mem board starts ends inputs = some (k, mem')) (size : ∀ i, sizes i = ends i - starts i)
      (loaded : ∀ i o, images i o = mem' (va (appImage i).toNat + o)) :
      Boots tasksAt sp sizes images
        ⟨Sys.start tasksAt k sp cells clobbered, (Sys.start tasksAt k sp cells clobbered).context, images⟩

/-- The states the computer reaches, with the number of turns that each
application has had. -/
inductive Computer.Reached [NeZero n] (programs : Fin n → Program) (tasksAt : Fin n → Word) (sp : Word)
    (sizes : Fin n → Word) (images : Fin n → SlotMem) : (Fin n → ℕ) → Computer n → Prop
  | boots {c : Computer n} (boots : c.Boots tasksAt sp sizes images) : Reached programs tasksAt sp sizes images 0 c
  | turn {c c' : Computer n} {turns : Fin n → ℕ} {i : Fin n}
      (reached : Reached programs tasksAt sp sizes images turns c) (step : Step programs tasksAt (some i) c c') :
      Reached programs tasksAt sp sizes images (Function.update turns i (turns i + 1)) c'
  | interrupt {c c' : Computer n} {turns : Fin n → ℕ}
      (reached : Reached programs tasksAt sp sizes images turns c) (step : Step programs tasksAt none c c') :
      Reached programs tasksAt sp sizes images turns c'

/-! ## What is heard of a trap -/

/-- The effects that speak for an application: its characters, and the reports
about it. -/
def Effect.heard : Effect → Bool
  | .uartPutc _ => true
  | .printk format _ => format != "ALL APPS DONE\n"
  | _ => false

/-- What is heard of a trace. -/
def audible (trace : List Effect) : List Effect := trace.filter Effect.heard

/-- What is heard of a task in the exceptions so far. -/
def heard (i : Fin n) : List (Record n) → List Effect
  | [] => []
  | r :: records => if r.task = i then heard i records ++ audible r.effects else heard i records

/-- The report of a trap that ends a task. -/
def lastReport (i : Word) (e : Event) : List Effect :=
  match e.kind with
  | .fault => [faultReport i e.esr e.far e.user.pc]
  | .exit => [exitReport i (e.user.regs 0)]
  | _ => []

section
variable {k : Kernel n} {e : Event} {regs : PtRegs}

theorem audible_append {l l' : List Effect} : audible (l ++ l') = audible l ++ audible l' := List.filter_append l l'

theorem audible_firstReport : audible (firstReport k regs e) = firstReport k regs e := by
  unfold firstReport
  split
  · rfl
  · rfl

/-- A choice of `schedule` is not heard. -/
theorem schedule_heard : audible (schedule k e).1.board.trace = audible k.board.trace := by
  unfold schedule
  split
  · simp [audible, Effect.heard]
  · rw [if_neg (by simpa using timerStop_disabled e.timerStatus)]
    simp [Kernel.printk, Board.printk, Board.emit, audible, Effect.heard]

theorem heard_printk {format : String} {args : List Word} (said : Effect.heard (.printk format args)) :
    audible (k.printk format args).board.trace = audible k.board.trace ++ [.printk format args] := by
  rw [Kernel.printk, Board.printk, Board.emit, audible_append, audible, audible, List.filter_singleton, said]
  rfl

/-- What is heard of an interrupt: at most the first trap of the task. -/
theorem trap_heard_irq (checked : entryCheck (k.tasks k.current) e.user e.daif) (irq : e.exception = .irq)
    (known : e.kind ≠ .strange) : audible (trap k e.user e.irqWord e).1.board.trace =
      audible k.board.trace ++ firstReport k e.user e := by
  have record := @recordTrap_trace n k e e.user
  rw [trap, if_neg (by simpa using checked), Event.irqWord, if_pos irq]
  generalize recordTrap k e.user e = k₁ at record ⊢
  have before : audible k₁.board.trace = audible k.board.trace ++ firstReport k e.user e := by
    rw [record, audible_append, audible_firstReport]
  dsimp only
  rw [if_pos (by decide)]
  unfold timerInterrupt
  by_cases reserved : 1020 ≤ e.iar ∧ e.iar ≤ 1023
  · rw [if_pos reserved]
    exact before
  · have timer : e.iar = timerIrq := by
      by_contra other
      exact known (by rw [Event.kind, if_pos irq, if_neg reserved, if_neg other])
    rw [if_neg reserved, if_neg (by simpa using timer)]
    dsimp only
    rw [schedule_heard, ← before]
    simp [Board.emit, audible, Effect.heard]

/-- What is heard of an exception that is no log call. -/
theorem trap_heard (checked : entryCheck (k.tasks k.current) e.user e.daif) (known : e.kind ≠ .strange)
    (quiet : e.kind ≠ .log) : audible (trap k e.user e.irqWord e).1.board.trace =
      audible k.board.trace ++ firstReport k e.user e ++ lastReport k.currentWord e := by
  by_cases irq : e.exception = .irq
  · have silent : lastReport k.currentWord e = [] := by
      unfold lastReport
      rw [Event.kind, if_pos irq]
      split_ifs <;> rfl
    rw [trap_heard_irq checked irq known, silent, List.append_nil]
  have record := @recordTrap_trace n k e e.user
  have same := @recordTrap_spec n k e e.user
  rw [trap, if_neg (by simpa using checked), Event.irqWord, if_neg irq]
  generalize recordTrap k e.user e = k₁ at record same ⊢
  have before : audible k₁.board.trace = audible k.board.trace ++ firstReport k e.user e := by
    rw [record, audible_append, audible_firstReport]
  have word : k₁.currentWord = k.currentWord := by rw [Kernel.currentWord, same.2, Kernel.currentWord]
  rw [← before]
  dsimp only
  rw [if_neg (by decide)]
  by_cases svc : e.isSvc
  · rw [if_neg (by simpa [Event.isSvc, imp_iff_not_or] using svc)]
    have number : e.user.regs 8 ≠ nrLog := by
      intro log
      exact quiet (by rw [Event.kind, if_neg irq, if_neg (not_not.2 svc), if_pos log])
    rw [if_neg number]
    by_cases exits : e.user.regs 8 = nrExit
    · have kind : e.kind = .exit := by
        rw [Event.kind, if_neg irq, if_neg (not_not.2 svc), if_neg number, if_pos exits]
      rw [if_pos exits, schedule_heard, lastReport, kind]
      refine (heard_printk rfl).trans ?_
      rw [exitReport, ← word]
      rfl
    · have kind : e.kind = .unknown := by
        rw [Event.kind, if_neg irq, if_neg (not_not.2 svc), if_neg number, if_neg exits]
      rw [if_neg exits, lastReport, kind]
      exact (List.append_nil _).symm
  · have kind : e.kind = .fault := by rw [Event.kind, if_neg irq, if_pos svc]
    rw [if_pos (by simpa [Event.isSvc, imp_iff_not_or] using svc), schedule_heard, lastReport, kind]
    refine (heard_printk rfl).trans ?_
    rw [faultReport, ← word]

end

/-! ## An application to look at -/

/-- An application alone, after some of its steps. -/
def alone (program : Program) (i : Nat) (size : Word) (image : SlotMem) (turns : ℕ) : Solo :=
  (Solo.step program i size)^[turns] (Solo.start i image)

/-- Alone, an application is at EL0 and on its stack wherever an exception can
find it. -/
structure Behaves (program : Program) (i : Nat) (size : Word) (image : SlotMem) : Prop where
  waits : ∀ k, (alone program i size image k).fate = .running →
    (loadedTask i size).OnStack (alone program i size image k).regs
  raises : ∀ k regs mem esr far, (alone program i size image k).fate = .running →
    program (alone program i size image k).regs (alone program i size image k).mem = .raise regs mem esr far →
      (loadedTask i size).OnStack regs

/-- An application that stores a byte at the top of its stack and exits with
status 7. -/
def storeProgram : Program := fun regs mem =>
  if regs.regs 8 = nrExit then .raise regs mem 0x56000000 0
  else .go { regs with regs := fun i => if i = 8 then nrExit else 7 }
    (Function.update mem ⟨appSlotSize - 1, by decide⟩ 0x55)

section
variable {i k : ℕ} {size : Word} {image : SlotMem}

/-- Between its two turns. -/
theorem alone_storeProgram_stored : alone storeProgram i size image 1 =
    ⟨{ initialContext i with regs := fun j => if j = 8 then nrExit else 7 },
      Function.update image ⟨appSlotSize - 1, by decide⟩ 0x55, .running, []⟩ := rfl

theorem alone_storeProgram_exited (twice : 2 ≤ k) : alone storeProgram i size image k =
    ⟨{ initialContext i with regs := fun j => if j = 8 then nrExit else 7 },
      Function.update image ⟨appSlotSize - 1, by decide⟩ 0x55, .exited 7, [exitReport (BitVec.ofNat 64 i) 7]⟩ := by
  have last : (alone storeProgram i size image 2).fate = .exited 7 := rfl
  have halted : (soloMachine storeProgram i size).Halted
      ((soloMachine storeProgram i size).step^[2] (Solo.start i image)) := by
    intro running
    exact absurd (last.symm.trans running) (by decide)
  exact (soloMachine storeProgram i size).iterate_of_le halted twice

theorem storeProgram_behaves : Behaves storeProgram i size image := by
  have first : ∀ k, (alone storeProgram i size image k).fate = .running → k = 0 ∨ k = 1 := by
    intro k running
    by_contra later
    rw [alone_storeProgram_exited (by omega)] at running
    cases running
  obtain ⟨mode, above, below, aligned⟩ := @initial_onStack i size
  have stored : (loadedTask i size).OnStack (alone storeProgram i size image 1).regs := by
    rw [alone_storeProgram_stored]
    exact ⟨mode, above, below, aligned⟩
  refine ⟨fun k running => ?_, fun k regs mem esr far running turn => ?_⟩
  · rcases first k running with rfl | rfl
    · exact ⟨mode, above, below, aligned⟩
    · exact stored
  · rcases first k running with rfl | rfl
    · have goes : storeProgram (initialContext i) image = .raise regs mem esr far := turn
      have unlike : ¬ (initialContext i).regs 8 = nrExit := (by decide : ¬ (0 : Word) = nrExit)
      rw [storeProgram, if_neg unlike] at goes
      cases goes
    · rw [storeProgram, if_pos (by rw [alone_storeProgram_stored]; rfl)] at turn
      obtain ⟨rfl, -, -, -⟩ := Turn.raise.inj turn
      exact stored

end

/-! ## One exception, seen from its task -/

/-- Where the computer has the application of slot `i`: what `s` is alone. -/
structure Computer.Sees (c : Computer n) (sizes : Fin n → Word) (i : Fin n) (s : Solo) : Prop where
  regs : (if c.sys.status = .resume i then c.regs else (c.sys.kernel.tasks i).regs) = s.regs
  mem : c.mem i = s.mem
  size : (c.sys.kernel.tasks i).size = sizes i
  runnable : (c.sys.kernel.tasks i).runnable = true ↔ s.fate = .running
  exitCode : (c.sys.kernel.tasks i).exitCode = match s.fate with
    | .exited code => code
    | _ => 0
  console : heard i c.sys.records =
    (if (c.sys.kernel.tasks i).observed then [trapReport (BitVec.ofNat 64 i)] else []) ++ s.output
  quiet : (c.sys.kernel.tasks i).observed = false → s.output = [] ∧ s.fate = .running

section
variable {i : Nat} {size a : Word} {task : TaskStruct} {pointer length : Word} {e : Event} {regs : PtRegs}
  {mem : SlotMem}

theorem Event.Shows.byte (shows : e.Shows i regs mem) (inside : (a - appImage i).toNat < appSlotSize) :
    e.bytes a = slotByte i mem a := by
  have byte := shows.bytes ⟨_, inside⟩
  rw [BitVec.ofNat_toNat, BitVec.setWidth_eq, BitVec.add_comm, BitVec.sub_add_cancel] at byte
  rw [slotByte, dif_pos inside, byte]

/-- What can be logged lies in the slot. -/
theorem Slot.inside {j : Nat} (slot : Slot i task) (loggable : task.Loggable pointer.toNat length.toNat)
    (lt : j < length.toNat) : (pointer + BitVec.ofNat 64 j - appImage i).toNat < appSlotSize := by
  have image := congrArg BitVec.toNat slot.image
  have bottom : task.stackBottom.toNat = (appImage i).toNat + 0x1c000 := by
    rw [slot.stackBottom, appStackBottom_toNat]
  have top : task.stackTop.toNat = (appImage i).toNat + 0x20000 := by
    rw [slot.stackTop, appStackTop_toNat]
  have size : task.size.toNat ≤ appImageSize := BitVec.le_def.1 slot.size.le
  have low := appImage_lt i
  have word := length.isLt
  unfold TaskStruct.Loggable at loggable
  rw [bottom, top, image] at loggable
  rw [BitVec.toNat_sub, BitVec.toNat_add, BitVec.toNat_ofNat]
  simp only [appImageSize, appSlotSize] at *
  generalize (appImage i).toNat = start at *
  omega

theorem Slot.logResult_loaded (slot : Slot i task) (same : task.size = size) :
    logResult task pointer length = logResult (loadedTask i size) pointer length := by
  unfold logResult
  rw [slot.image, slot.stackBottom, same]
  rfl

theorem Slot.loggable_loaded {p m : Nat} (slot : Slot i task) (same : task.size = size) :
    task.Loggable p m ↔ (loadedTask i size).Loggable p m := by
  unfold TaskStruct.Loggable
  rw [slot.image, slot.stackBottom, slot.stackTop, same]
  rfl

/-- What is heard of a log call is what the slot holds. -/
theorem Slot.audible_log (slot : Slot i task) (same : task.size = size) (shows : e.Shows i regs mem) :
    audible (if length ≤ logLimit ∧ length ≠ 0 ∧ task.Loggable pointer.toNat length.toNat then
      logEffects e.bytes i pointer length.toNat else []) = logSaid i size mem pointer length := by
  by_cases fits : length ≤ logLimit ∧ length ≠ 0 ∧ task.Loggable pointer.toNat length.toNat
  · have loggable := fits.2.2
    rw [if_pos fits, logSaid, if_pos ⟨fits.1, fits.2.1, (slot.loggable_loaded same).1 loggable⟩]
    have putc : ∀ l : List UInt8, audible (l.map .uartPutc) = l.map .uartPutc := by
      intro l
      rw [audible, List.filter_eq_self]
      intro x here
      obtain ⟨c, -, rfl⟩ := List.mem_map.1 here
      rfl
    rw [logEffects, audible_append, putc]
    congr 1
    have bytes : ∀ j ∈ List.range length.toNat,
        audible [.userLoad (pointer + BitVec.ofNat 64 j), .uartPutc (e.bytes (pointer + BitVec.ofNat 64 j))] =
          [.uartPutc (slotByte i mem (pointer + BitVec.ofNat 64 j))] := by
      intro j here
      rw [shows.byte (slot.inside loggable (List.mem_range.1 here))]
      rfl
    refine List.filter_flatMap.trans ((List.flatMap_congr bytes).trans ?_)
    exact List.flatMap_pure_eq_map _ _
  · rw [if_neg fits, logSaid, if_neg fun other =>
      fits ⟨other.1, other.2.1, (slot.loggable_loaded same).2 other.2.2⟩]
    rfl

end

/-- What is heard of an exception, after the report of a first trap. -/
def said (i : Nat) (size : Word) (mem : SlotMem) (e : Event) : List Effect :=
  if e.kind = .log then logSaid i size mem (e.user.regs 0) (e.user.regs 1) else lastReport (BitVec.ofNat 64 i) e

section
variable {tasksAt sizes : Fin n → Word} {c : Computer n} {s' : Sys n} {i j : Fin n} {e : Event} {sp : Word}
  {regs : PtRegs} {mem : SlotMem} {solo : Solo}

/-- The report of a first trap names the task; it comes from EL0. -/
theorem firstReport_eq (current : i = c.sys.kernel.current) (shows : e.Shows i regs mem)
    (checked : entryCheck (c.sys.kernel.tasks i) e.user e.daif) : firstReport c.sys.entered e.user e =
      if (c.sys.kernel.tasks i).observed then [] else [trapReport (BitVec.ofNat 64 i)] := by
  simp only [entryCheck, Bool.and_eq_true, decide_eq_true_eq] at checked
  have origin : e.user.pstate &&& 0x1f = 0 := checked.1.1.1.1
  have same : c.sys.entered.tasks c.sys.entered.current = c.sys.kernel.tasks i := by rw [current]; rfl
  have word : c.sys.entered.currentWord = BitVec.ofNat 64 i := by rw [current]; rfl
  rw [firstReport, same, word, origin, shows.level]
  rfl

/-- **What is heard of an exception.** -/
theorem Handled.audible (few : n ≤ appCount) (inv : c.sys.Inv sp) (at_ : c.sys.status = .resume i)
    (handled : Handled c.sys i e (c.sys.handle tasksAt i e)) (valid : e.exception = .sync ∨ e.exception = .irq)
    (shows : e.Shows i regs mem) (size : (c.sys.kernel.tasks i).size = sizes i) :
    MiaowOs.audible (c.sys.handle tasksAt i e).kernel.board.trace =
      (if (c.sys.kernel.tasks i).observed then [] else [trapReport (BitVec.ofNat 64 i)]) ++
        said i (sizes i) mem e := by
  have settled := inv.resumed at_
  have current := settled.1
  have checked := handled.trapped.checked
  have report := firstReport_eq current shows (by rw [current]; exact checked)
  by_cases log : e.kind = .log
  · have irq : e.exception ≠ .irq := by
      intro irq
      rw [Event.kind, if_pos irq] at log
      split_ifs at log
    have svc : e.isSvc := by
      by_contra fault
      rw [Event.kind, if_neg irq, if_pos fault] at log
      cases log
    have number : e.user.regs 8 = nrLog := by
      by_contra other
      rw [Event.kind, if_neg irq, if_neg (not_not.2 svc), if_neg other] at log
      split_ifs at log
    rw [log_trace few inv current handled (valid.resolve_right irq) svc number, audible_append, audible_firstReport,
      report, (inv.slot i).audible_log size shows, said, if_pos log]
  · rw [handled.kernel, trap_heard (k := c.sys.entered) checked handled.trapped.known log, report, said, if_neg log]
    have word : c.sys.entered.currentWord = BitVec.ofNat 64 i := by rw [current]; rfl
    rw [word]
    rfl

/-- A task that is resumed has its saved context. -/
theorem Handled.context_eq (handled : Handled c.sys i e s') (j : Fin n) :
    (if s'.status = .resume j then s'.context else (s'.kernel.tasks j).regs) = (s'.kernel.tasks j).regs := by
  split
  · next at_ => exact (handled.resumed j at_).1
  · rfl

theorem after_observed {task : TaskStruct} : (task.after e).observed = true := by
  unfold TaskStruct.after
  cases e.kind <;> rfl

theorem after_size {task : TaskStruct} : (task.after e).size = task.size := by
  unfold TaskStruct.after
  cases e.kind <;> rfl

/-- The task that trapped, if `new` is what the trap makes of it. -/
theorem Computer.Sees.handled (new : Solo) (few : n ≤ appCount) (inv : c.sys.Inv sp) (at_ : c.sys.status = .resume i)
    (sees : c.Sees sizes i solo) (handled : Handled c.sys i e (c.sys.handle tasksAt i e))
    (valid : e.exception = .sync ∨ e.exception = .irq) (shows : e.Shows i regs mem)
    (context : ((c.sys.kernel.tasks i).after e).regs = new.regs) (slot : mem = new.mem)
    (runnable : ((c.sys.kernel.tasks i).after e).runnable = true ↔ new.fate = .running)
    (exitCode : ((c.sys.kernel.tasks i).after e).exitCode = match new.fate with
      | .exited code => code
      | _ => 0)
    (output : new.output = solo.output ++ said i (sizes i) mem e) :
    Computer.Sees ⟨c.sys.handle tasksAt i e, (c.sys.handle tasksAt i e).context, Function.update c.mem i mem⟩
      sizes i new := by
  have settled := inv.resumed at_
  have task : (c.sys.handle tasksAt i e).kernel.tasks i = (c.sys.kernel.tasks i).after e := by
    rw [handled.trapped.tasks, settled.1, Function.update_self]
  have sound := handled.audible few inv at_ valid shows sees.size
  have recorded := handled.recorded
  have same := handled.context_eq i
  refine ⟨?_, ?_, ?_, ?_, ?_, ?_, ?_⟩
  · exact (same.trans (by rw [task])).trans context
  · exact (Function.update_self ..).trans slot
  · rw [task, after_size]
    exact sees.size
  · rw [task]
    exact runnable
  · rw [task]
    exact exitCode
  · rw [recorded, heard, if_pos rfl, sound, task, after_observed, if_pos rfl, sees.console, output]
    cases seen : (c.sys.kernel.tasks i).observed with
    | true => simp
    | false => simp [(sees.quiet seen).1]
  · intro unseen
    rw [task, after_observed] at unseen
    cases unseen

/-- The other tasks. -/
theorem Computer.Sees.other (mem : SlotMem) (inv : c.sys.Inv sp) (at_ : c.sys.status = .resume i) (ne : j ≠ i)
    (sees : c.Sees sizes j solo) (handled : Handled c.sys i e (c.sys.handle tasksAt i e)) :
    Computer.Sees ⟨c.sys.handle tasksAt i e, (c.sys.handle tasksAt i e).context, Function.update c.mem i mem⟩
      sizes j solo := by
  have settled := inv.resumed at_
  have task : (c.sys.handle tasksAt i e).kernel.tasks j = c.sys.kernel.tasks j := by
    rw [handled.trapped.tasks, ← settled.1, Function.update_of_ne ne]
  have waits : c.sys.status ≠ .resume j := by
    rw [at_]
    exact fun eq => ne (Exit.resume.inj eq).symm
  have before := sees.regs
  rw [if_neg waits] at before
  refine ⟨?_, ?_, ?_, ?_, ?_, ?_, ?_⟩
  · exact ((handled.context_eq j).trans (by rw [task])).trans before
  · exact (Function.update_of_ne ne ..).trans sees.mem
  · rw [task]
    exact sees.size
  · rw [task]
    exact sees.runnable
  · rw [task]
    exact sees.exitCode
  · rw [handled.recorded, heard, if_neg (fun eq => ne eq.symm), task]
    exact sees.console
  · rw [task]
    exact sees.quiet

/-! ## The steps of the computer -/

/-- A synchronous exception does to the task what the answer to it is alone. -/
theorem Solo.answer_spec (solo : Solo) (mem : SlotMem) {i : Nat} {size : Word} {task : TaskStruct}
    (slot : Slot i task) (same : task.size = size) (alive : task.runnable = true) (code : task.exitCode = 0)
    (sync : e.exception = .sync) :
    (task.after e).regs = (solo.answer i size e.user mem e.esr e.far).regs ∧
    mem = (solo.answer i size e.user mem e.esr e.far).mem ∧
    ((task.after e).runnable = true ↔ (solo.answer i size e.user mem e.esr e.far).fate = .running) ∧
    ((task.after e).exitCode = match (solo.answer i size e.user mem e.esr e.far).fate with
      | .exited code => code
      | _ => 0) ∧
    (solo.answer i size e.user mem e.esr e.far).output = solo.output ++ said i size mem e := by
  have irq : e.exception ≠ .irq := by simp [sync]
  by_cases call : e.esr >>> 26 = 0x15 ∧ e.esr &&& 0xffff = 0
  · have svc : e.isSvc := call
    by_cases log : e.user.regs 8 = nrLog
    · have kind : e.kind = .log := by rw [Event.kind, if_neg irq, if_neg (not_not.2 svc), if_pos log]
      rw [Solo.answer, if_neg (not_not.2 call), if_pos log, said, if_pos kind, TaskStruct.after, kind,
        slot.logResult_loaded same]
      exact ⟨rfl, rfl, by simp [alive], code, rfl⟩
    by_cases exits : e.user.regs 8 = nrExit
    · have kind : e.kind = .exit := by
        rw [Event.kind, if_neg irq, if_neg (not_not.2 svc), if_neg log, if_pos exits]
      rw [Solo.answer, if_neg (not_not.2 call), if_neg log, if_pos exits, said, if_neg (by simp [kind]), lastReport,
        TaskStruct.after, kind]
      exact ⟨rfl, rfl, by simp, rfl, rfl⟩
    · have kind : e.kind = .unknown := by
        rw [Event.kind, if_neg irq, if_neg (not_not.2 svc), if_neg log, if_neg exits]
      rw [Solo.answer, if_neg (not_not.2 call), if_neg log, if_neg exits, said, if_neg (by simp [kind]), lastReport,
        TaskStruct.after, kind]
      exact ⟨rfl, rfl, by simp [alive], code, by simp⟩
  · have fault : ¬ e.isSvc := call
    have kind : e.kind = .fault := by rw [Event.kind, if_neg irq, if_pos fault]
    rw [Solo.answer, if_pos call, said, if_neg (by simp [kind]), lastReport, TaskStruct.after, kind]
    exact ⟨rfl, rfl, by simp, code, rfl⟩

/-- An interrupt is no step of the task that it interrupts. -/
theorem Computer.Sees.interrupted (few : n ≤ appCount) (inv : c.sys.Inv sp) (at_ : c.sys.status = .resume i)
    (sees : c.Sees sizes i solo) (handled : Handled c.sys i e (c.sys.handle tasksAt i e)) (irq : e.exception = .irq)
    (shows : e.Shows i c.regs (c.mem i)) :
    Computer.Sees ⟨c.sys.handle tasksAt i e, (c.sys.handle tasksAt i e).context, c.mem⟩ sizes i solo := by
  have known := handled.trapped.known
  have regs := sees.regs
  rw [if_pos at_] at regs
  have silent : said i (sizes i) (c.mem i) e = [] ∧
      (c.sys.kernel.tasks i).after e = { c.sys.kernel.tasks i with regs := e.user, observed := true } := by
    rw [said, lastReport, TaskStruct.after]
    have kind : e.kind = .spurious ∨ e.kind = .tick := by
      rw [Event.kind, if_pos irq] at known ⊢
      split_ifs at known ⊢ with reserved timer
      · exact .inl rfl
      · exact .inr rfl
      · exact (known rfl).elim
    rcases kind with kind | kind
    · rw [kind]
      exact ⟨rfl, rfl⟩
    · rw [kind]
      exact ⟨rfl, rfl⟩
  have after := sees.handled solo few inv at_ handled (.inr irq) shows
    (by rw [silent.2, ← regs, ← shows.user]) sees.mem (by rw [silent.2]; exact sees.runnable)
    (by rw [silent.2]; exact sees.exitCode) (by rw [silent.1, List.append_nil])
  rwa [Function.update_eq_self] at after

/-- A synchronous exception is answered as if the task were alone. -/
theorem Computer.Sees.answered (few : n ≤ appCount) (inv : c.sys.Inv sp) (at_ : c.sys.status = .resume i)
    (sees : c.Sees sizes i solo) (handled : Handled c.sys i e (c.sys.handle tasksAt i e)) (sync : e.exception = .sync)
    (shows : e.Shows i regs mem) :
    Computer.Sees ⟨c.sys.handle tasksAt i e, (c.sys.handle tasksAt i e).context, Function.update c.mem i mem⟩
      sizes i (solo.answer i (sizes i) regs mem e.esr e.far) := by
  have settled := inv.resumed at_
  have alive := settled.2.1
  have code := sees.exitCode
  rw [sees.runnable.1 alive] at code
  obtain ⟨context, slot, runnable, exitCode, output⟩ :=
    solo.answer_spec mem (inv.slot i) sees.size alive code sync
  rw [shows.user] at context slot runnable exitCode output
  exact sees.handled _ few inv at_ handled (.inl sync) shows context slot runnable exitCode output

/-- An instruction of the running application. -/
theorem Computer.Sees.went (at_ : c.sys.status = .resume i) (sees : c.Sees sizes i solo) :
    Computer.Sees { c with regs, mem := Function.update c.mem i mem } sizes i { solo with regs, mem } := by
  refine ⟨if_pos at_, Function.update_self .., sees.size, sees.runnable, sees.exitCode, sees.console, sees.quiet⟩

/-- An instruction of another application. -/
theorem Computer.Sees.elsewhere (at_ : c.sys.status = .resume i) (ne : j ≠ i) (sees : c.Sees sizes j solo) :
    Computer.Sees { c with regs, mem := Function.update c.mem i mem } sizes j solo := by
  have waits : c.sys.status ≠ .resume j := by
    rw [at_]
    exact fun eq => ne (Exit.resume.inj eq).symm
  have before := sees.regs
  rw [if_neg waits] at before
  exact ⟨(if_neg waits).trans before, (Function.update_of_ne ne ..).trans sees.mem, sees.size, sees.runnable,
    sees.exitCode, sees.console, sees.quiet⟩

end

/-! ## Runs of the computer -/

/-- The applications, each one alone. -/
def soloMachines (programs : Fin n → Program) (sizes : Fin n → Word) (i : Fin n) : Interleave.Machine Solo :=
  soloMachine (programs i) i (sizes i)

section
variable {programs : Fin n → Program} {tasksAt tasksAt' sizes : Fin n → Word} {images : Fin n → SlotMem}
  {c c' : Computer n} {sp sp' : Word} {i j : Fin n} {turns turns' : Fin n → ℕ} {solos : Fin n → Solo}

theorem Computer.Boots.sees [NeZero n] (boots : c.Boots tasksAt sp sizes images) :
    c.sys.Inv sp ∧ ∀ i, c.Sees sizes i (Solo.start i (images i)) := by
  obtain @⟨mem, mem', board, starts, ends, inputs, k, cells, clobbered, boot, size, loaded⟩ := boots
  refine ⟨.start boot, fun i => ?_⟩
  obtain ⟨first, slots⟩ := startApps_spec boot
  have task : (Sys.start tasksAt k sp cells clobbered).kernel.tasks i = loadedTask i (ends i - starts i) :=
    (slots i).1
  refine ⟨?_, rfl, ?_, ?_, ?_, ?_, fun _ => ⟨rfl, rfl⟩⟩
  · split
    · next at_ =>
      obtain rfl : 0 = i := Exit.resume.inj at_
      exact Sys.start_spec.1.trans (congrArg TaskStruct.regs (slots 0).1)
    · exact congrArg TaskStruct.regs task
  · rw [task, size]
    rfl
  · exact iff_of_true (congrArg TaskStruct.runnable task) rfl
  · exact congrArg TaskStruct.exitCode task
  · rw [task]
    rfl

/-- An interrupt is nobody's turn. -/
theorem Computer.Step.stays (few : n ≤ appCount) (inv : c.sys.Inv sp) (sees : ∀ i, c.Sees sizes i (solos i))
    (step : Computer.Step programs tasksAt none c c') : c'.sys.Inv sp ∧ ∀ i, c'.Sees sizes i (solos i) := by
  cases step with
  | @interrupt _ i e at_ irq shows ok =>
    have handled := handle_spec ok
    refine ⟨inv.step at_ handled, fun j => ?_⟩
    by_cases here : j = i
    · subst here
      exact (sees j).interrupted few inv at_ handled irq shows
    · have other := (sees j).other (c.mem i) inv at_ here handled
      rwa [Function.update_eq_self] at other

/-- What a running application does in its turn. -/
theorem Computer.Sees.turn (programs : Fin n → Program) (inv : c.sys.Inv sp) (at_ : c.sys.status = .resume i)
    {s : Solo} (sees : c.Sees sizes i s) :
    s.fate = .running ∧ (soloMachines programs sizes i).step s = match programs i c.regs (c.mem i) with
      | .go regs mem => { s with regs, mem }
      | .raise regs mem esr far => s.answer i (sizes i) regs mem esr far := by
  have settled := inv.resumed at_
  have running := sees.runnable.1 settled.2.1
  have context := sees.regs
  rw [if_pos at_] at context
  rw [context, sees.mem]
  refine ⟨running, ?_⟩
  show Solo.step (programs i) i (sizes i) s = _
  rw [Solo.step, running]

/-- A turn of an application is a step of what it is alone. -/
theorem Computer.Step.moves (few : n ≤ appCount) (inv : c.sys.Inv sp) (sees : ∀ i, c.Sees sizes i (solos i))
    (step : Computer.Step programs tasksAt (some i) c c') :
    c'.sys.Inv sp ∧ (solos i).fate = .running ∧
      ∀ j, c'.Sees sizes j (Function.update solos i ((soloMachines programs sizes i).step (solos i)) j) := by
  cases step with
  | @go _ _ regs mem at_ turn =>
    obtain ⟨running, moved⟩ := (sees i).turn programs inv at_
    rw [turn] at moved
    refine ⟨inv, running, fun j => ?_⟩
    by_cases here : j = i
    · subst here
      rw [Function.update_self, moved]
      exact (sees j).went at_
    · rw [Function.update_of_ne here]
      exact (sees j).elsewhere at_ here
  | @exception _ _ e regs mem at_ turn sync shows ok =>
    obtain ⟨running, moved⟩ := (sees i).turn programs inv at_
    rw [turn] at moved
    have handled := handle_spec ok
    refine ⟨inv.step at_ handled, running, fun j => ?_⟩
    by_cases here : j = i
    · subst here
      rw [Function.update_self, moved]
      exact (sees j).answered few inv at_ handled sync shows
    · rw [Function.update_of_ne here]
      exact (sees j).other mem inv at_ here handled

/-- The computer refines the applications taking turns. -/
theorem Computer.Reached.refines [NeZero n] (few : n ≤ appCount)
    (reached : Computer.Reached programs tasksAt sp sizes images turns c) :
    c.sys.Inv sp ∧ ∃ solos, (∀ i, c.Sees sizes i (solos i)) ∧
      Interleave.Runs (soloMachines programs sizes) (fun i => Solo.start i (images i)) turns solos := by
  induction reached with
  | boots boots =>
    obtain ⟨inv, sees⟩ := boots.sees
    exact ⟨inv, _, sees, .refl⟩
  | @turn c c' turns i reached step ih =>
    obtain ⟨inv, solos, sees, run⟩ := ih
    obtain ⟨inv', running, moves⟩ := step.moves few inv sees
    exact ⟨inv', _, moves, run.turn i fun halted => halted running⟩
  | interrupt reached step ih =>
    obtain ⟨inv, solos, sees, run⟩ := ih
    obtain ⟨inv', stays⟩ := step.stays few inv sees
    exact ⟨inv', _, stays, run⟩

/-! ## Taking a turn -/

/-- The exceptions that can strike the running application `i`: an interrupt of
the timer or a spurious one, or what its next step raises. -/
inductive Computer.Strikes (c : Computer n) (programs : Fin n → Program) (i : Fin n) (e : Event) : Prop
  | interrupt (irq : e.exception = .irq) (shows : e.Shows i c.regs (c.mem i))
      (source : e.iar = timerIrq ∨ 1020 ≤ e.iar ∧ e.iar ≤ 1023)
  | exception {regs : PtRegs} {mem : SlotMem} (sync : e.exception = .sync)
      (turn : programs i c.regs (c.mem i) = .raise regs mem e.esr e.far) (shows : e.Shows i regs mem)

/-- Applications that behave do not make the kernel panic. -/
theorem Computer.Strikes.ok (inv : c.sys.Inv sp) (at_ : c.sys.status = .resume i) {k : ℕ}
    (behaves : Behaves (programs i) i (sizes i) (images i))
    (sees : c.Sees sizes i (alone (programs i) i (sizes i) (images i) k)) {e : Event}
    (strikes : c.Strikes programs i e) (masked : e.daif &&& 0x80 ≠ 0) :
    (c.sys.handle tasksAt i e).status ≠ .panic := by
  have settled := inv.resumed at_
  have running := sees.runnable.1 settled.2.1
  have context := sees.regs
  rw [if_pos at_] at context
  have slot := inv.slot i
  -- both kinds of exception show a context on the stack
  have checked : ∀ regs, e.user = regs → (loadedTask i (sizes i)).OnStack regs →
      entryCheck (c.sys.kernel.tasks c.sys.kernel.current) e.user e.daif := by
    intro regs user onStack
    obtain ⟨mode, above, below, aligned⟩ := onStack
    rw [← settled.1, user]
    simp only [entryCheck, Bool.and_eq_true, decide_eq_true_eq, slot.stackBottom, slot.stackTop]
    exact ⟨⟨⟨⟨mode, masked⟩, above⟩, below⟩, aligned⟩
  cases strikes with
  | interrupt irq shows source =>
    apply handle_ok (.inr irq) (checked _ (shows.user.trans context) (behaves.waits k running))
    rw [Event.kind, if_pos irq]
    rcases source with timer | reserved
    · rw [timer]
      decide
    · rw [if_pos reserved]
      decide
  | exception sync turn shows =>
    rw [context, sees.mem] at turn
    apply handle_ok (.inl sync) (checked _ shows.user (behaves.raises k _ _ _ _ running turn))
    rw [Event.kind, if_neg (by simp [sync])]
    split_ifs <;> decide

theorem slotByte_offset (i : Nat) (mem : SlotMem) (o : Fin appSlotSize) :
    slotByte i mem (appImage i + BitVec.ofNat 64 o) = mem o := by
  have back : (appImage i + BitVec.ofNat 64 o - appImage i).toNat = o := by
    rw [BitVec.add_comm, BitVec.add_sub_cancel, BitVec.toNat_ofNat]
    have := o.isLt
    simp only [appSlotSize] at this
    omega
  unfold slotByte
  rw [dif_pos (by rw [back]; exact o.isLt)]
  congr 1
  exact Fin.ext back

/-- A running application that behaves can take its turn. -/
theorem Computer.exists_turn (tasksAt : Fin n → Word) (inv : c.sys.Inv sp) (at_ : c.sys.status = .resume i) {k : ℕ}
    (behaves : Behaves (programs i) i (sizes i) (images i))
    (sees : c.Sees sizes i (alone (programs i) i (sizes i) (images i) k)) :
    ∃ c', Computer.Step programs tasksAt (some i) c c' := by
  cases turn : programs i c.regs (c.mem i) with
  | go regs mem => exact ⟨_, .go at_ turn⟩
  | raise regs mem esr far =>
    let e : Event := ⟨.sync, regs, esr, far, 0x80, 4, 0, false, slotByte i mem, fun _ => 0, fun _ => 0⟩
    have shows : e.Shows i regs mem := ⟨rfl, rfl, slotByte_offset i mem⟩
    have ok : (c.sys.handle tasksAt i e).status ≠ .panic :=
      Strikes.ok inv at_ behaves sees (.exception rfl turn shows) (by decide : (0x80 : Word) &&& 0x80 ≠ 0)
    exact ⟨_, .exception (e := e) at_ turn rfl shows ok⟩

/-- An interrupt can strike an application that behaves, wherever it runs. -/
theorem Computer.Reached.interrupted [NeZero n] (few : n ≤ appCount)
    (behaves : ∀ i, Behaves (programs i) i (sizes i) (images i))
    (reached : Computer.Reached programs tasksAt sp sizes images turns c) (at_ : c.sys.status = .resume i) (iar : Word)
    (source : iar = timerIrq ∨ 1020 ≤ iar ∧ iar ≤ 1023) :
    ∃ e c', e.exception = .irq ∧ e.iar = iar ∧ Computer.Reached programs tasksAt sp sizes images turns c' ∧
      Handled c.sys i e c'.sys := by
  obtain ⟨inv, solos, sees, run⟩ := reached.refines few
  have here := sees i
  rw [run.alone i] at here
  let e : Event := ⟨.irq, c.regs, 0, 0, 0x80, 4, iar, false, slotByte i (c.mem i), fun _ => 0, fun _ => 0⟩
  have shows : e.Shows i c.regs (c.mem i) := ⟨rfl, rfl, slotByte_offset i (c.mem i)⟩
  have ok : (c.sys.handle tasksAt i e).status ≠ .panic :=
    Strikes.ok inv at_ (behaves i) here (.interrupt rfl shows source) (by decide : (0x80 : Word) &&& 0x80 ≠ 0)
  exact ⟨e, _, rfl, rfl, .interrupt reached (.interrupt (e := e) at_ rfl shows ok), handle_spec ok⟩

/-- A spurious interrupt leaves the processor to the running application. -/
theorem Computer.Reached.spurious [NeZero n] (few : n ≤ appCount)
    (behaves : ∀ i, Behaves (programs i) i (sizes i) (images i))
    (reached : Computer.Reached programs tasksAt sp sizes images turns c) (at_ : c.sys.status = .resume i) :
    ∃ c' r, Computer.Reached programs tasksAt sp sizes images turns c' ∧ c'.sys.status = .resume i ∧
      r.event.kind = .spurious ∧ c'.sys.records = r :: c.sys.records := by
  obtain ⟨inv, -⟩ := reached.refines few
  obtain ⟨e, c', irq, number, reached', handled⟩ := reached.interrupted few behaves at_ 1023 (.inr (by decide))
  have kind : e.kind = .spurious := by rw [Event.kind, if_pos irq, number, if_pos (by decide)]
  have settled := inv.resumed at_
  have outcome := handled.trapped.outcome
  rw [if_pos (by rw [kind]; rfl), ← settled.1] at outcome
  exact ⟨c', _, reached', outcome.2, kind, handled.recorded⟩

/-- The timer gives the processor to the next application, if that has not ended. -/
theorem Computer.Reached.ticked [NeZero n] (few : n ≤ appCount)
    (behaves : ∀ i, Behaves (programs i) i (sizes i) (images i))
    (reached : Computer.Reached programs tasksAt sp sizes images turns c) (at_ : c.sys.status = .resume i)
    (next : j = Cyclic.shift i 1) (alive : (alone (programs j) j (sizes j) (images j) (turns j)).fate = .running) :
    ∃ c' r, Computer.Reached programs tasksAt sp sizes images turns c' ∧ c'.sys.status = .resume j ∧
      r.event.kind = .tick ∧ c'.sys.records = r :: c.sys.records := by
  obtain ⟨inv, -⟩ := reached.refines few
  obtain ⟨e, c', irq, number, reached', handled⟩ := reached.interrupted few behaves at_ timerIrq (.inl rfl)
  have kind : e.kind = .tick := by
    rw [Event.kind, if_pos irq, number, if_neg (by decide), if_pos rfl]
  obtain ⟨-, solos, sees, run⟩ := reached'.refines few
  have runs := (sees j).runnable
  rw [run.alone j] at runs
  have settled := inv.resumed at_
  have status := handled.next (by rw [kind]; rfl) (by rw [← settled.1, ← next]; exact runs.2 alive)
  rw [← settled.1, ← next] at status
  exact ⟨c', _, reached', status, kind, handled.recorded⟩

end

/-! ## Runs to look at -/

section
variable {tasksAt : Fin 3 → Word} {sp : Word} {sizes : Fin 3 → Word} {images : Fin 3 → SlotMem} {c : Computer 3}
  {turns : Fin 3 → ℕ}

/-- The first of three applications can store its byte. -/
theorem Computer.Reached.stored
    (reached : Computer.Reached (fun _ => storeProgram) tasksAt sp sizes images turns c) (first : turns 0 = 0)
    (at_ : c.sys.status = .resume 0) :
    ∃ c', Computer.Reached (fun _ => storeProgram) tasksAt sp sizes images (Function.update turns 0 1) c' ∧
      c'.sys = c.sys := by
  obtain ⟨inv, solos, sees, run⟩ := reached.refines (by decide)
  have here := sees 0
  rw [run.alone 0, first] at here
  have context := here.regs
  rw [if_pos at_] at context
  have turn : storeProgram c.regs (c.mem 0) = .go { c.regs with regs := fun i => if i = 8 then nrExit else 7 }
      (Function.update (c.mem 0) ⟨appSlotSize - 1, by decide⟩ 0x55) := by
    rw [storeProgram, if_neg]
    rw [context]
    exact (by decide : ¬ (0 : Word) = nrExit)
  have step := reached.turn (.go at_ turn)
  rw [first] at step
  exact ⟨_, step, rfl⟩

/-- Then it can exit. -/
theorem Computer.Reached.exited
    (reached : Computer.Reached (fun _ => storeProgram) tasksAt sp sizes images (Function.update 0 0 1) c)
    (at_ : c.sys.status = .resume 0) :
    ∃ c', Computer.Reached (fun _ => storeProgram) tasksAt sp sizes images (Function.update 0 0 2) c' ∧
      c.sys.records ⊆ c'.sys.records := by
  obtain ⟨inv, solos, sees, run⟩ := reached.refines (by decide)
  have here : c.Sees sizes 0 (alone storeProgram 0 (sizes 0) (images 0) 1) := by
    have here := sees 0
    rwa [run.alone 0] at here
  obtain ⟨c', step⟩ := @exists_turn 3 (fun _ => storeProgram) sizes images c sp 0 tasksAt inv at_ 1
    storeProgram_behaves here
  have step' := reached.turn step
  rw [Function.update_idem] at step'
  refine ⟨c', step', ?_⟩
  cases step with
  | go at_ turn => exact fun r mem => mem
  | exception at_ turn sync shows ok =>
    rw [(handle_spec ok).recorded]
    exact fun r mem => List.mem_cons_of_mem _ mem

/-- Three applications that have been entered. -/
theorem exists_boots : ∃ images : Fin 3 → SlotMem, ∀ (tasksAt : Fin 3 → Word) (sp : Word), ∃ c : Computer 3,
    Computer.Reached (fun _ => storeProgram) tasksAt sp (fun _ => 1) images 0 c ∧ c.sys.status = .resume 0 := by
  obtain ⟨⟨k, mem'⟩, boot⟩ := Option.isSome_iff_exists.1 bootExample_isSome
  have sizes : ∀ i : Fin 3, (1 : Word) =
      0xffffffc000090001 + BitVec.ofNat 64 i - (0xffffffc000090000 + BitVec.ofNat 64 i) := by decide
  exact ⟨fun i o => mem' (va (appImage i).toNat + o), fun tasksAt sp =>
    ⟨⟨Sys.start tasksAt k sp (fun _ => 0) fun _ => 0, _, _⟩, .boots (.mk boot sizes fun i o => rfl), rfl⟩⟩

/-- Without interrupts. -/
theorem Computer.Reached.exists_alone
    (reached : Computer.Reached (fun _ => storeProgram) tasksAt sp sizes images 0 c) (at_ : c.sys.status = .resume 0) :
    ∃ c', Computer.Reached (fun _ => storeProgram) tasksAt sp sizes images (Function.update 0 0 2) c' := by
  obtain ⟨c₁, stored, same⟩ := reached.stored rfl at_
  obtain ⟨c₂, exited, -⟩ := stored.exited (same ▸ at_)
  exact ⟨c₂, exited⟩

/-- A spurious interrupt strikes before the first application stores its byte, and
the timer takes the processor around the others before it exits. -/
theorem Computer.Reached.exists_interrupted
    (reached : Computer.Reached (fun _ => storeProgram) tasksAt sp sizes images 0 c) (at_ : c.sys.status = .resume 0) :
    ∃ c', Computer.Reached (fun _ => storeProgram) tasksAt sp sizes images (Function.update 0 0 2) c' ∧
      (∃ r ∈ c'.sys.records, r.event.kind = .spurious) ∧ ∃ r ∈ c'.sys.records, r.event.kind = .tick := by
  have behaves : ∀ i : Fin 3, Behaves storeProgram i (sizes i) (images i) := fun _ => storeProgram_behaves
  obtain ⟨c₁, r₁, spurious, at₁, kind₁, records₁⟩ := reached.spurious (by decide) behaves at_
  obtain ⟨c₂, stored, same⟩ := spurious.stored rfl at₁
  obtain ⟨c₃, r₃, ticked, at₃, kind₃, records₃⟩ := stored.ticked (by decide) behaves (same ▸ at₁) (j := 1) rfl rfl
  obtain ⟨c₄, r₄, ticked', at₄, -, records₄⟩ := ticked.ticked (by decide) behaves at₃ (j := 2) rfl rfl
  obtain ⟨c₅, r₅, ticked'', at₅, -, records₅⟩ := ticked'.ticked (by decide) behaves at₄ (j := 0) rfl rfl
  obtain ⟨c₆, exited, kept⟩ := ticked''.exited at₅
  rw [records₅, records₄, records₃, same, records₁] at kept
  exact ⟨c₆, exited, ⟨r₁, kept (by simp), kind₁⟩, ⟨r₃, kept (by simp), kind₃⟩⟩

theorem Computer.Reached.exited_stopped
    (reached : Computer.Reached (fun _ => storeProgram) tasksAt sp sizes images (Function.update 0 0 2) c) :
    (c.sys.kernel.tasks 0).runnable = false := by
  obtain ⟨inv, solos, sees, run⟩ := reached.refines (by decide)
  have fate : (solos 0).fate = .exited 7 := by
    rw [run.alone 0]
    exact congrArg Solo.fate (alone_storeProgram_exited le_rfl)
  cases alive : (c.sys.kernel.tasks 0).runnable with
  | false => rfl
  | true => exact absurd ((sees 0).runnable.1 alive) (by rw [fate]; decide)

end

section
variable {programs : Fin n → Program} {tasksAt tasksAt' sizes : Fin n → Word} {images : Fin n → SlotMem}
  {c c' : Computer n} {sp sp' : Word} {i : Fin n} {turns turns' : Fin n → ℕ}

/-! ## What an application sees of the others -/

/-- **Preemption is invisible.** Wherever interrupts strike and whatever the
other applications do, an application that has had some number of turns has the
registers, the memory, the output and the fate that it would have after as many
steps alone. -/
theorem Computer.preemption_invisible [NeZero n] (few : n ≤ appCount)
    (reached : Computer.Reached programs tasksAt sp sizes images turns c) (i : Fin n) :
    c.Sees sizes i (alone (programs i) i (sizes i) (images i) (turns i)) := by
  obtain ⟨inv, solos, sees, run⟩ := reached.refines few
  have same := run.alone i
  have here := sees i
  rw [same] at here
  exact here

/-- Interrupted by the timer and by a spurious interrupt, the first application still
stores its byte, exits with its status, and is reported once. -/
theorem Computer.preemption_invisible_interrupted : ∃ (images : Fin 3 → SlotMem) (c : Computer 3),
    Computer.Reached (fun _ => storeProgram) (fun _ => 0) 0xffffffc0000b0000 (fun _ => 1) images
      (Function.update 0 0 2) c ∧
    (∃ r ∈ c.sys.records, r.event.kind = .spurious) ∧ (∃ r ∈ c.sys.records, r.event.kind = .tick) ∧
    (c.sys.kernel.tasks 0).exitCode = 7 ∧ c.mem 0 ⟨appSlotSize - 1, by decide⟩ = 0x55 ∧
    heard 0 c.sys.records = [trapReport 0, exitReport 0 7] := by
  obtain ⟨images, boots⟩ := exists_boots
  obtain ⟨c₀, reached₀, at_⟩ := boots (fun _ => 0) 0xffffffc0000b0000
  obtain ⟨c, reached, spurious, tick⟩ := reached₀.exists_interrupted at_
  have sees := Computer.preemption_invisible (by decide) reached 0
  rw [alone_storeProgram_exited (by decide)] at sees
  have observed : (c.sys.kernel.tasks 0).observed = true := by
    by_contra unseen
    have silent := (sees.quiet (by simpa using unseen)).2
    cases silent
  have console := sees.console
  rw [observed, if_pos rfl] at console
  refine ⟨images, c, reached, spurious, tick, sees.exitCode, ?_, console⟩
  have stored : c.mem 0 = Function.update (images 0) ⟨appSlotSize - 1, by decide⟩ 0x55 := sees.mem
  rw [stored, Function.update_self]

/-- What has become of a task that has ended. -/
theorem Computer.Sees.ended {s : Solo} (inv : c.sys.Inv sp) (sees : c.Sees sizes i s)
    (ended : (c.sys.kernel.tasks i).runnable = false) :
    s.fate ≠ .running ∧ c.sys.kernel.tasks i = { loadedTask i (sizes i) with
      regs := s.regs, runnable := false, observed := true, exitCode := match s.fate with
        | .exited code => code
        | _ => 0 } ∧
      heard i c.sys.records = trapReport (BitVec.ofNat 64 i) :: s.output := by
  have stopped : s.fate ≠ .running := by
    intro running
    rw [sees.runnable.2 running] at ended
    cases ended
  have waits : c.sys.status ≠ .resume i := by
    intro at_
    have settled := inv.resumed at_
    rw [settled.2.1] at ended
    cases ended
  have observed : (c.sys.kernel.tasks i).observed = true := by
    cases seen : (c.sys.kernel.tasks i).observed with
    | true => rfl
    | false => exact absurd (sees.quiet seen).2 stopped
  have regs := sees.regs
  rw [if_neg waits] at regs
  have console := sees.console
  rw [observed] at console
  have size := sees.size
  have code := sees.exitCode
  have slot := inv.slot i
  obtain ⟨image, bottom, top, -⟩ := slot
  refine ⟨stopped, ?_, console⟩
  generalize c.sys.kernel.tasks i = task at *
  obtain ⟨_, _, _, _, _, _, _, _⟩ := task
  dsimp only at regs size code image bottom top ended observed
  subst regs size code image bottom top ended observed
  rfl

/-- **The outcome does not depend on the schedule.** An application that has
ended, in two runs with other interrupts and at other times, has had the same
number of turns, and has left the same task, the same memory and the same
output. -/
theorem Computer.outcome_unique [NeZero n] (few : n ≤ appCount)
    (reached : Computer.Reached programs tasksAt sp sizes images turns c)
    (reached' : Computer.Reached programs tasksAt' sp' sizes images turns' c')
    (ended : (c.sys.kernel.tasks i).runnable = false) (ended' : (c'.sys.kernel.tasks i).runnable = false) :
    turns i = turns' i ∧ c.sys.kernel.tasks i = c'.sys.kernel.tasks i ∧ c.mem i = c'.mem i ∧
      heard i c.sys.records = heard i c'.sys.records := by
  obtain ⟨inv, solos, sees, run⟩ := reached.refines few
  obtain ⟨inv', solos', sees', run'⟩ := reached'.refines few
  obtain ⟨halted, task, output⟩ := (sees i).ended inv ended
  obtain ⟨halted', task', output'⟩ := (sees' i).ended inv' ended'
  have same : solos i = solos' i := run.halted_unique run' halted halted'
  have alone := run.alone i
  have alone' := run'.alone i
  refine ⟨?_, ?_, ?_, ?_⟩
  · apply Nat.le_antisymm
    · apply run.turns_le (i := i)
      rw [← alone']
      exact halted'
    · apply run'.turns_le (i := i)
      rw [← alone]
      exact halted
  · rw [task, task', same]
  · rw [(sees i).mem, (sees' i).mem, same]
  · rw [output, output', same]

/-- A run without interrupts, and one with other kernel stacks that the timer and a
spurious interrupt strike. -/
theorem Computer.outcome_unique_interrupted : ∃ (images : Fin 3 → SlotMem) (c c' : Computer 3),
    Computer.Reached (fun _ => storeProgram) (fun _ => 0) 0xffffffc0000b0000 (fun _ => 1) images
      (Function.update 0 0 2) c ∧
    Computer.Reached (fun _ => storeProgram) (fun _ => 0) 0xffffffc0000c0000 (fun _ => 1) images
      (Function.update 0 0 2) c' ∧
    (∃ r ∈ c'.sys.records, r.event.kind = .spurious) ∧ (∃ r ∈ c'.sys.records, r.event.kind = .tick) ∧
    c.sys.kernel.tasks 0 = c'.sys.kernel.tasks 0 ∧ c.mem 0 = c'.mem 0 ∧ heard 0 c.sys.records = heard 0 c'.sys.records := by
  obtain ⟨images, boots⟩ := exists_boots
  obtain ⟨c₀, reached₀, at_⟩ := boots (fun _ => 0) 0xffffffc0000b0000
  obtain ⟨c, reached⟩ := reached₀.exists_alone at_
  obtain ⟨c₁, reached₁, at₁⟩ := boots (fun _ => 0) 0xffffffc0000c0000
  obtain ⟨c', reached', spurious, tick⟩ := reached₁.exists_interrupted at₁
  have outcome := Computer.outcome_unique (by decide) reached reached' reached.exited_stopped reached'.exited_stopped
  exact ⟨images, c, c', reached, reached', spurious, tick, outcome.2⟩

/-! ## Coming to rest -/

/-- The computer can go on from one state to another. -/
inductive Computer.Leads (programs : Fin n → Program) (tasksAt : Fin n → Word) : Computer n → Computer n → Prop
  | refl {c : Computer n} : Leads programs tasksAt c c
  | step {c c' c'' : Computer n} {turn : Option (Fin n)} (step : Step programs tasksAt turn c c')
      (rest : Leads programs tasksAt c' c'') : Leads programs tasksAt c c''

theorem sum_update_succ (turns : Fin n → ℕ) (i : Fin n) :
    ∑ j, Function.update turns i (turns i + 1) j = ∑ j, turns j + 1 := by
  have rest := Finset.sum_eq_add_sum_sdiff_singleton_of_mem (Finset.mem_univ i) turns
  rw [Finset.sum_update_of_mem (Finset.mem_univ i), rest]
  ring

/-- As long as an application is left, it can take a turn; there are only so many. -/
theorem Computer.Reached.leads [NeZero n] (few : n ≤ appCount) {limit : Fin n → ℕ}
    (behaves : ∀ i, Behaves (programs i) i (sizes i) (images i))
    (halts : ∀ i, (alone (programs i) i (sizes i) (images i) (limit i)).fate ≠ .running) {m : ℕ}
    (reached : Computer.Reached programs tasksAt sp sizes images turns c) (left : ∑ i, limit i ≤ m + ∑ i, turns i) :
    ∃ c', Leads programs tasksAt c c' ∧ c'.sys.status = .done := by
  induction m generalizing c turns with
  | zero =>
    obtain ⟨inv, solos, sees, run⟩ := reached.refines few
    have settled := inv.settled
    cases status : c.sys.status with
    | done => exact ⟨c, .refl, status⟩
    | panic =>
      rw [status] at settled
      exact settled.elim
    | resume i =>
      rw [status] at settled
      have running := (sees i).runnable.1 settled.2.1
      have all : ∀ j ∈ Finset.univ, turns j ≤ limit j := fun j _ => run.turns_le (halts j)
      have equal := (Finset.sum_eq_sum_iff_of_le all).1 (by
        apply Nat.le_antisymm (Finset.sum_le_sum all)
        omega)
      rw [run.alone i, equal i (Finset.mem_univ i)] at running
      exact absurd running (halts i)
  | succ m ih =>
    obtain ⟨inv, solos, sees, run⟩ := reached.refines few
    have settled := inv.settled
    cases status : c.sys.status with
    | done => exact ⟨c, .refl, status⟩
    | panic =>
      rw [status] at settled
      exact settled.elim
    | resume i =>
      have here := sees i
      rw [run.alone i] at here
      obtain ⟨c', step⟩ := exists_turn tasksAt inv status (behaves i) here
      have less : ∑ j, limit j ≤ m + ∑ j, Function.update turns i (turns i + 1) j := by
        rw [sum_update_succ]
        omega
      obtain ⟨c'', rest, done⟩ := ih (reached.turn step) less
      exact ⟨c'', .step step rest, done⟩

/-- **The computer comes to rest.** Applications that behave never make the
kernel panic, whenever they are interrupted, also those that never end. No
schedule gives an application more turns than it has steps alone; and if each of
them ends alone, the computer can go on from every state that is reached until
all have ended. -/
theorem Computer.comes_to_rest [NeZero n] (few : n ≤ appCount)
    (behaves : ∀ i, Behaves (programs i) i (sizes i) (images i))
    (reached : Computer.Reached programs tasksAt sp sizes images turns c) :
    (∀ i e, c.sys.status = .resume i → c.Strikes programs i e → e.daif &&& 0x80 ≠ 0 →
      (c.sys.handle tasksAt i e).status ≠ .panic) ∧
    (∀ i k, (alone (programs i) i (sizes i) (images i) k).fate ≠ .running → turns i ≤ k) ∧
    ((∀ i, ∃ k, (alone (programs i) i (sizes i) (images i) k).fate ≠ .running) →
      ∃ c', Leads programs tasksAt c c' ∧ c'.sys.status = .done) := by
  obtain ⟨inv, solos, sees, run⟩ := reached.refines few
  refine ⟨fun i e at_ strikes masked => ?_, fun i k halted => run.turns_le halted, fun ends => ?_⟩
  · have here := sees i
    rw [run.alone i] at here
    exact strikes.ok inv at_ (behaves i) here masked
  · choose limit halts using ends
    exact reached.leads few behaves halts (Nat.le_add_right (∑ i, limit i) (∑ i, turns i))

/-- After an interrupted run of the first of three applications, all can still end. -/
theorem Computer.comes_to_rest_interrupted : ∃ (images : Fin 3 → SlotMem) (c c' : Computer 3),
    Computer.Reached (fun _ => storeProgram) (fun _ => 0) 0xffffffc0000b0000 (fun _ => 1) images
      (Function.update 0 0 2) c ∧
    (∀ i e, c.sys.status = .resume i → c.Strikes (fun _ => storeProgram) i e → e.daif &&& 0x80 ≠ 0 →
      (c.sys.handle (fun _ => 0) i e).status ≠ .panic) ∧
    Computer.Leads (fun _ => storeProgram) (fun _ => 0) c c' ∧ c'.sys.status = .done := by
  obtain ⟨images, boots⟩ := exists_boots
  obtain ⟨c₀, reached₀, at_⟩ := boots (fun _ => 0) 0xffffffc0000b0000
  obtain ⟨c, reached, -⟩ := reached₀.exists_interrupted at_
  have halts : ∀ i : Fin 3, (alone storeProgram i 1 (images i) 2).fate ≠ .running := by
    intro i
    rw [alone_storeProgram_exited le_rfl]
    intro running
    cases running
  obtain ⟨calm, -, rests⟩ := Computer.comes_to_rest (by decide) (fun _ => storeProgram_behaves) reached
  obtain ⟨c', leads, done⟩ := rests fun i => ⟨2, halts i⟩
  exact ⟨images, c, c', reached, calm, leads, done⟩

end

end MiaowOs
