import Mathlib

/-!
# Saving and restoring the EL0 context

The exception path of `kernel/vectors.S`, instruction by instruction. Memory is
a map from addresses to doublewords: `SP` is 16-byte aligned and every access
of this code is to a doubleword at a multiple of 8 from a frame, so two
different addresses never overlap. Addresses and registers wrap at `2 ^ 64`.
-/

namespace MiaowOs

/-- A general register or a doubleword of memory. -/
abbrev Word := BitVec 64

abbrev sSp : Word := 248
abbrev sPc : Word := 256
abbrev sPstate : Word := 264
abbrev sFrameSize : Word := 272

/-- There are registers to index. -/
instance neZeroRegs : NeZero 31 := ⟨by decide⟩

/-- `struct pt_regs`. -/
structure PtRegs where
  regs : Fin 31 → Word
  sp : Word
  pc : Word
  pstate : Word
deriving DecidableEq

/-- The structure at an address. -/
def PtRegs.load (mem : Word → Word) (address : Word) : PtRegs where
  regs := fun i => mem (address + BitVec.ofNat 64 (8 * i.val))
  sp := mem (address + sSp)
  pc := mem (address + sPc)
  pstate := mem (address + sPstate)

/-- Write doublewords at offsets from an address, one after the other. -/
def storeAll (mem : Word → Word) (address : Word) (cells : List (Word × Word)) : Word → Word :=
  cells.foldl (fun mem cell a => if a = address + cell.1 then cell.2 else mem a) mem

/-- The fields of the structure with their offsets. -/
def PtRegs.cells (regs : PtRegs) : List (Word × Word) :=
  (List.finRange 31).map (fun i : Fin 31 => (BitVec.ofNat 64 (8 * i.val), regs.regs i)) ++
    [(sSp, regs.sp), (sPc, regs.pc), (sPstate, regs.pstate)]

/-- Memory with the structure at an address. -/
def PtRegs.store (regs : PtRegs) (mem : Word → Word) (address : Word) : Word → Word :=
  storeAll mem address regs.cells

/-- The system registers the exception path names. -/
inductive SysReg
  | spEl0
  | elrEl1
  | spsrEl1
deriving DecidableEq, Repr

/-- The processor at EL1; `sp` is `SP_EL1`. -/
structure Cpu where
  x : Fin 31 → Word
  sp : Word
  spEl0 : Word
  elrEl1 : Word
  spsrEl1 : Word
  mem : Word → Word

namespace Cpu

def setX (cpu : Cpu) (t : Fin 31) (v : Word) : Cpu := { cpu with x := fun i => if i = t then v else cpu.x i }

def setMem (cpu : Cpu) (a : Word) (v : Word) : Cpu := { cpu with mem := fun b => if b = a then v else cpu.mem b }

def sysReg (cpu : Cpu) : SysReg → Word
  | .spEl0 => cpu.spEl0
  | .elrEl1 => cpu.elrEl1
  | .spsrEl1 => cpu.spsrEl1

def setSysReg (cpu : Cpu) (v : Word) : SysReg → Cpu
  | .spEl0 => { cpu with spEl0 := v }
  | .elrEl1 => { cpu with elrEl1 := v }
  | .spsrEl1 => { cpu with spsrEl1 := v }

/-- The EL0 context in the registers, as an exception leaves it to the handler
and as `eret` takes it back. -/
def context (cpu : Cpu) : PtRegs := ⟨cpu.x, cpu.spEl0, cpu.elrEl1, cpu.spsrEl1⟩

end Cpu

/-- The instructions of the exception path. Stores are relative to `SP`, loads
to a general register. -/
inductive Instr
  | subSp (imm : Word)
  | addSp (imm : Word)
  | stp (t t2 : Fin 31) (offset : Word)
  | str (t : Fin 31) (offset : Word)
  | ldp (t t2 base : Fin 31) (offset : Word)
  | ldr (t base : Fin 31) (offset : Word)
  | mrs (t : Fin 31) (r : SysReg)
  | msr (r : SysReg) (t : Fin 31)
  | mov (d s : Fin 31)
  | movSp (d : Fin 31)
  | movImm (d : Fin 31) (imm : Word)

def Cpu.step (cpu : Cpu) : Instr → Cpu
  | .subSp imm => { cpu with sp := cpu.sp - imm }
  | .addSp imm => { cpu with sp := cpu.sp + imm }
  | .stp t t2 offset => (cpu.setMem (cpu.sp + offset) (cpu.x t)).setMem (cpu.sp + (offset + 8)) (cpu.x t2)
  | .str t offset => cpu.setMem (cpu.sp + offset) (cpu.x t)
  | .ldp t t2 base offset =>
    (cpu.setX t (cpu.mem (cpu.x base + offset))).setX t2 (cpu.mem (cpu.x base + (offset + 8)))
  | .ldr t base offset => cpu.setX t (cpu.mem (cpu.x base + offset))
  | .mrs t r => cpu.setX t (cpu.sysReg r)
  | .msr r t => cpu.setSysReg (cpu.x t) r
  | .mov d s => cpu.setX d (cpu.x s)
  | .movSp d => cpu.setX d cpu.sp
  | .movImm d imm => cpu.setX d imm

def Cpu.exec (cpu : Cpu) (code : List Instr) : Cpu := code.foldl Cpu.step cpu

/-- The macro `kernel_entry`. -/
def kernelEntry : List Instr := [
  .subSp sFrameSize,
  .stp 0 1 0,
  .stp 2 3 16,
  .stp 4 5 32,
  .stp 6 7 48,
  .stp 8 9 64,
  .stp 10 11 80,
  .stp 12 13 96,
  .stp 14 15 112,
  .stp 16 17 128,
  .stp 18 19 144,
  .stp 20 21 160,
  .stp 22 23 176,
  .stp 24 25 192,
  .stp 26 27 208,
  .stp 28 29 224,
  .str 30 240,
  .mrs 9 .spEl0,
  .str 9 sSp,
  .mrs 9 .elrEl1,
  .str 9 sPc,
  .mrs 9 .spsrEl1,
  .str 9 sPstate]

/-- `enter_app`, up to its `eret`. -/
def enterApp : List Instr := [
  .mov 30 0,
  .ldr 9 30 sSp,
  .msr .spEl0 9,
  .ldr 9 30 sPc,
  .msr .elrEl1 9,
  .ldr 9 30 sPstate,
  .msr .spsrEl1 9,
  .ldp 0 1 30 0,
  .ldp 2 3 30 16,
  .ldp 4 5 30 32,
  .ldp 6 7 30 48,
  .ldp 8 9 30 64,
  .ldp 10 11 30 80,
  .ldp 12 13 30 96,
  .ldp 14 15 30 112,
  .ldp 16 17 30 128,
  .ldp 18 19 30 144,
  .ldp 20 21 30 160,
  .ldp 22 23 30 176,
  .ldp 24 25 30 192,
  .ldp 26 27 30 208,
  .ldp 28 29 30 224,
  .ldr 30 30 240]

/-- `el0_sync` and `el0_irq` up to the call of `trap`: the kind of the
exception in `x1`, the frame in `x0`. -/
def callTrap (irq : Word) : List Instr := kernelEntry ++ [.movImm 1 irq, .movSp 0]

/-- The kinds of exception a running application can raise. -/
inductive Exception
  | sync
  | irq
  | fiq
  | serror
deriving DecidableEq, Repr

/-- What a slot of the vector table branches to. -/
inductive Vector
  | el0Sync
  | el0Irq
  | unexpectedException
deriving DecidableEq, Repr

/-- The table `vectors`: four slots each for the current EL with `SP_EL0` and
with `SP_EL1`, for EL0 in AArch64 and in AArch32 state. -/
def vectors : List Vector :=
  List.replicate 8 .unexpectedException ++ [.el0Sync, .el0Irq] ++ List.replicate 6 .unexpectedException

/-- The slot of an exception from EL0 in AArch64 state. -/
def Exception.slot : Exception → Nat
  | .sync => 8
  | .irq => 9
  | .fiq => 10
  | .serror => 11

/-! ## What the code does -/

/-- The doublewords a store instruction writes, with their offsets from `SP`. -/
def Instr.cells (x : Fin 31 → Word) : Instr → List (Word × Word)
  | .stp t t2 offset => [(offset, x t), (offset + 8, x t2)]
  | .str t offset => [(offset, x t)]
  | _ => []

def Instr.isStore : Instr → Bool
  | .stp _ _ _ => true
  | .str _ _ => true
  | _ => false

section
variable {cpu : Cpu} {regs : PtRegs} {mem : Word → Word} {address o v : Word} {l : List (Word × Word)}

theorem storeAll_of_ne (ne : ∀ cell ∈ l, cell.1 ≠ o) : storeAll mem address l (address + o) = mem (address + o) := by
  induction l generalizing mem with
  | nil => rfl
  | cons cell l ih =>
    unfold storeAll at *
    rw [List.foldl_cons, ih fun c h => ne c (List.mem_cons_of_mem _ h)]
    have other : address + o ≠ address + cell.1 := fun eq => ne cell (by simp) (add_left_cancel eq).symm
    rw [if_neg other]

/-- Every cell keeps what was written to it when no two cells coincide. -/
theorem storeAll_at (distinct : (l.map Prod.fst).Nodup) (h : (o, v) ∈ l) :
    storeAll mem address l (address + o) = v := by
  induction l generalizing mem with
  | nil => simp at h
  | cons cell l ih =>
    rw [List.map_cons, List.nodup_cons] at distinct
    rcases List.mem_cons.1 h with rfl | h
    · have rest : ∀ cell ∈ l, cell.1 ≠ o := fun cell h eq =>
        distinct.1 (List.mem_map.2 ⟨cell, h, eq⟩)
      exact (storeAll_of_ne rest).trans (if_pos rfl)
    · exact ih distinct.2 h

theorem PtRegs.cells_distinct : (regs.cells.map Prod.fst).Nodup := by
  have offsets : regs.cells.map Prod.fst =
      (List.finRange 31).map (fun i : Fin 31 => BitVec.ofNat 64 (8 * i.val)) ++ [sSp, sPc, sPstate] := by
    simp [PtRegs.cells, Function.comp_def]
  rw [offsets]
  decide

theorem PtRegs.load_store : PtRegs.load (regs.store mem address) address = regs := by
  have read : ∀ o v, (o, v) ∈ regs.cells → regs.store mem address (address + o) = v := fun o v h =>
    storeAll_at PtRegs.cells_distinct h
  unfold PtRegs.load
  rw [read sSp regs.sp (by simp [PtRegs.cells]), read sPc regs.pc (by simp [PtRegs.cells]),
    read sPstate regs.pstate (by simp [PtRegs.cells])]
  congr 1
  funext i
  exact read _ _ (List.mem_append_left _ (List.mem_map.2 ⟨i, List.mem_finRange i, rfl⟩))

/-- A run of store instructions writes their doublewords in turn. -/
theorem exec_stores {code : List Instr} (stores : code.all Instr.isStore) :
    cpu.exec code = { cpu with mem := storeAll cpu.mem cpu.sp (code.flatMap (Instr.cells cpu.x)) } := by
  induction code generalizing cpu with
  | nil => rfl
  | cons i code ih =>
    rw [List.all_cons, Bool.and_eq_true] at stores
    have step : cpu.step i = { cpu with mem := storeAll cpu.mem cpu.sp (i.cells cpu.x) } := by
      cases i <;> first | rfl | simp [Instr.isStore] at stores
    have rest : (cpu.step i).exec code = _ := ih stores.2
    rw [step] at rest
    unfold storeAll at *
    rw [List.flatMap_cons, List.foldl_append, ← rest, ← step]
    rfl

/-- The stores of `kernel_entry` before it reads system registers. -/
def saveGeneral : List Instr := (kernelEntry.drop 1).take 16

theorem saveGeneral_cells (x : Fin 31 → Word) : saveGeneral.flatMap (Instr.cells x) =
    (List.finRange 31).map fun i => (BitVec.ofNat 64 (8 * i.val), x i) := by
  have list : List.finRange 31 = [0, 1, 2, 3, 4, 5, 6, 7, 8, 9, 10, 11, 12, 13, 14, 15, 16, 17, 18, 19, 20, 21, 22,
    23, 24, 25, 26, 27, 28, 29, 30] := by decide
  rw [list]
  rfl

/-- The entry code stores the context cell by cell. -/
theorem kernelEntry_mem : (cpu.exec kernelEntry).mem = cpu.context.store cpu.mem (cpu.sp - sFrameSize) := by
  have code : kernelEntry = .subSp sFrameSize :: (saveGeneral ++ kernelEntry.drop 17) := rfl
  have split : cpu.exec kernelEntry =
      ((cpu.step (.subSp sFrameSize)).exec saveGeneral).exec (kernelEntry.drop 17) := by
    unfold Cpu.exec
    rw [code, List.foldl_cons, List.foldl_append]
    rfl
  have stores : saveGeneral.all Instr.isStore := by decide
  rw [split, exec_stores stores, saveGeneral_cells, PtRegs.store, PtRegs.cells]
  unfold storeAll
  rw [List.foldl_append]
  rfl

theorem kernelEntry_sp : (cpu.exec kernelEntry).sp = cpu.sp - sFrameSize := rfl

/-- **The frame.** `kernel_entry` leaves the whole context in the frame. -/
theorem kernelEntry_frame : PtRegs.load (cpu.exec kernelEntry).mem (cpu.exec kernelEntry).sp = cpu.context := by
  rw [kernelEntry_mem, kernelEntry_sp, PtRegs.load_store]

/-- **The restored context.** `enter_app` takes every register from the
structure `x0` points to. -/
theorem enterApp_context : (cpu.exec enterApp).context = PtRegs.load cpu.mem (cpu.x 0) := by
  have regs : (cpu.exec enterApp).x = (PtRegs.load cpu.mem (cpu.x 0)).regs := by
    funext i
    fin_cases i <;> rfl
  unfold Cpu.context
  rw [regs]
  rfl

theorem enterApp_sp : (cpu.exec enterApp).sp = cpu.sp := rfl

end

end MiaowOs
