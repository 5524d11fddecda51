import MiaowOs.Kernel.Context

/-!
# The timer and the interrupt controller

`kernel/timer.c` and the diagnostics of `printk` as effects. A `Board` is what
the kernel can change outside its own memory, with the trace of what it did;
values the kernel reads from a device are arguments.
-/

namespace MiaowOs

/-- The timer and interrupt-controller registers the kernel writes. -/
inductive DeviceReg
  | cntpTvalEl0
  | cntpCtlEl0
  | iccEoir1El1
  | iccSreEl1
  | iccPmrEl1
  | iccBpr1El1
  | iccCtlrEl1
  | iccIgrpen1El1
deriving DecidableEq, Repr

/-- What the kernel does to the outside, in order. -/
inductive Effect
  | printk (format : String) (args : List Word)
  | uartPutc (character : UInt8)
  /-- A byte of application memory is read. -/
  | userLoad (address : Word)
  | msr (register : DeviceReg) (value : Word)
  /-- A store to a device register. -/
  | mmio (address : Word) (value : Word)
deriving DecidableEq, Repr

/-- The timer, and the trace of effects. -/
structure Board where
  quantum : Word
  /-- `CNTP_CTL_EL0` without its status bit. -/
  cntpCtl : Word
  trace : List Effect

namespace Board

def emit (b : Board) (e : Effect) : Board := { b with trace := b.trace ++ [e] }

def printk (b : Board) (format : String) (args : List Word) : Board := b.emit (.printk format args)

/-- `mrs cntp_ctl_el0`: bit 2 is the status of the timer condition. -/
def readCntpCtl (b : Board) (status : Bool) : Word := b.cntpCtl ||| if status then 4 else 0

end Board

abbrev timerIrq : Word := 30

/-- `timer_rearm`. -/
def timerRearm (b : Board) : Board :=
  let b := b.emit (.msr .cntpTvalEl0 b.quantum)
  { b.emit (.msr .cntpCtlEl0 1) with cntpCtl := 1 }

/-- `timer_stop`. -/
def timerStop (b : Board) : Board := { b.emit (.msr .cntpCtlEl0 0) with cntpCtl := 0 }

/-- `timer_interrupt` on the identifier read from `ICC_IAR1_EL1`; `none` stands
for `kernel_panic`. -/
def timerInterrupt (b : Board) (interrupt : Word) : Option (Board × Bool) :=
  if 1020 ≤ interrupt ∧ interrupt ≤ 1023 then some (b, false)
  else if interrupt ≠ timerIrq then none
  else some ((timerRearm b).emit (.msr .iccEoir1El1 interrupt), true)

/-- The device values `timer_init` reads. -/
structure TimerInputs where
  gicdCtlr : Word
  gicrWaker : Word
  gicrIcfgr1 : Word
  iccSre : Word
  cntfrq : Word

def ioAddress (address : Word) : Word := address + 0xffffff8000000000

def gicd : Word := ioAddress 0x08000000
def gicr : Word := ioAddress 0x080a0000
def gicrSgi : Word := ioAddress 0x080b0000

/-- `timer_init`; the loops that wait for a device bit are left out, and `none`
stands for `kernel_panic`. -/
def timerInit (b : Board) (inputs : TimerInputs) : Option Board :=
  let b := b.emit (.mmio gicd 0x10)
  let b := b.emit (.mmio (gicr + 0x14) (inputs.gicrWaker &&& ~~~2))
  let b := b.emit (.mmio (gicrSgi + 0x80) 0x40000000)
  let b := b.emit (.mmio (gicrSgi + 0xc04) (inputs.gicrIcfgr1 &&& ~~~0x20000000))
  let b := b.emit (.mmio (gicrSgi + 0x400 + timerIrq) 0x80)
  let b := b.emit (.mmio (gicrSgi + 0x100) 0x40000000)
  let b := b.emit (.mmio gicd (inputs.gicdCtlr ||| 2))
  let b := b.emit (.msr .iccSreEl1 (inputs.iccSre ||| 1))
  let b := b.emit (.msr .iccPmrEl1 0xff)
  let b := b.emit (.msr .iccBpr1El1 0)
  let b := b.emit (.msr .iccCtlrEl1 0)
  let b := b.emit (.msr .iccIgrpen1El1 1)
  let b := { b with quantum := inputs.cntfrq / 100 }
  if b.quantum = 0 ∨ 0x7fffffff < b.quantum then none
  else some (timerRearm (b.printk "TIMER frequency=%016lx quantum=%016lx\n" [inputs.cntfrq, b.quantum]))

section
variable {b : Board} {interrupt : Word}

@[simp] theorem timerRearm_trace :
    (timerRearm b).trace = b.trace ++ [.msr .cntpTvalEl0 b.quantum, .msr .cntpCtlEl0 1] := by
  simp [timerRearm, Board.emit]

@[simp] theorem timerStop_trace : (timerStop b).trace = b.trace ++ [.msr .cntpCtlEl0 0] := rfl

/-- After `timer_stop` the enable bit reads as 0, whatever the status. -/
theorem timerStop_disabled (status : Bool) : (timerStop b).readCntpCtl status &&& 1 = 0 := by
  have stopped : (timerStop b).cntpCtl = 0 := rfl
  unfold Board.readCntpCtl
  rw [stopped]
  cases status <;> decide

end

end MiaowOs
