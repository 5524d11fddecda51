import MiaowOs.Kernel.Preemption

/-!
# Loading the applications

What `start_apps` does to memory. The payloads are linked into the kernel image,
which ends below the slots; so no copy overwrites a payload, and each slot holds
its payload and an empty stack when the first application is entered. Nothing
but an image that does not fit and a timer that cannot tick makes it panic.
-/

namespace MiaowOs
open Bytes

variable {n : Nat}

/-- The linear-map address of a slot. -/
def slotVa (i : Nat) : Nat := va (appImage i).toNat

/-- A payload inside the kernel image. -/
structure Payload (start stop : Word) : Prop where
  le : start ≤ stop
  below : stop.toNat ≤ va appFirst

/-- The images and the stacks of the slots. -/
def InSlots (starts ends : Fin n → Word) (slots : List (Fin n)) (a : Nat) : Prop :=
  ∃ i ∈ slots, slotVa i ≤ a ∧ a < slotVa i + (ends i - starts i).toNat ∨
    slotVa i + 0x1c000 ≤ a ∧ a < slotVa i + appSlotSize

/-- The payloads are in their slots, the stacks are empty, and nothing else has
changed. -/
structure SlotsLoaded (starts ends : Fin n → Word) (slots : List (Fin n)) (mem mem' : Mem) : Prop where
  image : ∀ i ∈ slots, ∀ o < (ends i - starts i).toNat, mem' (slotVa i + o) = mem ((starts i).toNat + o)
  stack : ∀ i ∈ slots, ∀ o < appStackSize, mem' (slotVa i + 0x1c000 + o) = 0
  frame : ∀ a, ¬ InSlots starts ends slots a → mem' a = mem a

/-- The report of a loaded application. -/
def loadReport (i : Nat) : Effect :=
  .printk "LOADED app=%u image=%016lx stack=%016lx copy=OK\n" [BitVec.ofNat 64 i, appImage i, appStackTop i]

/-! ## One application -/

section
variable {mem : Mem} {source destination count offset : Nat}

/-- The copy of a range that ends below its destination. -/
theorem copyLoop_spec (below : source + (offset + count) ≤ destination) (a : Nat) :
    copyLoop source destination count offset mem a =
      if destination + offset ≤ a ∧ a < destination + (offset + count) then mem (source + (a - destination))
      else mem a := by
  induction count generalizing offset mem with
  | zero =>
    rw [copyLoop, if_neg (by omega)]
  | succ count ih =>
    rw [copyLoop, ih (by omega)]
    by_cases here : a = destination + offset
    · subst here
      rw [if_neg (by omega), put_self, if_pos (by omega), Nat.add_sub_cancel_left]
    · by_cases later : destination + (offset + 1) ≤ a ∧ a < destination + (offset + 1 + count)
      · rw [if_pos later, if_pos (by omega), put_of_ne (by omega)]
      · rw [if_neg later, if_neg (by omega), put_of_ne here]

/-- The comparison finds the copy equal to its source. -/
theorem sameBytes_copyLoop (below : source + count ≤ destination) :
    sameBytes (copyLoop source destination count 0 mem) source destination count = true := by
  unfold sameBytes
  rw [List.all_eq_true]
  intro o inside
  have lt := List.mem_range.1 inside
  rw [copyLoop_spec (by omega), copyLoop_spec (by omega), if_pos (by omega), if_neg (by omega),
    Nat.add_sub_cancel_left]
  exact beq_self_eq_true _

end

theorem slotVa_eq {i : Nat} (lt : i < appCount) : slotVa i = va appFirst + i * appSlotSize := by
  rw [slotVa, appImage_toNat]
  simp only [va, add64, sub64, appFirst, appSlotSize, appCount, physOffset, pageOffset] at *
  omega

theorem va_stackBottom (i : Nat) : va (appStackBottom i).toNat = slotVa i + 0x1c000 := by
  rw [appStackBottom_toNat, slotVa, appImage_toNat]
  simp only [va, add64, sub64, physOffset, pageOffset] at *
  omega

section
variable {starts ends : Fin n → Word} {i : Fin n}

theorem Payload.end_le {start stop : Word} (payload : Payload start stop) :
    start.toNat + (stop - start).toNat ≤ va appFirst := by
  have below := payload.below
  rw [BitVec.toNat_sub_of_le payload.le]
  have le := BitVec.le_def.1 payload.le
  omega

/-- An image that fits ends below the stack of its slot. -/
theorem SizeFits.toNat_le {i : Nat} {size : Word} (fits : SizeFits i size) : size.toNat ≤ appImageSize :=
  BitVec.le_def.1 fits.le

/-- One iteration of `start_apps`, for an image that fits. -/
theorem loadApp_exact (few : n ≤ appCount) (payload : Payload (starts i) (ends i))
    (fits : SizeFits i (ends i - starts i)) (l : Loader n) : ∃ l', loadApp starts ends l i = some l' ∧
      l'.board = l.board.emit (loadReport i) ∧ SlotsLoaded starts ends [i] l.mem l'.mem := by
  have lt : (i : Nat) < appCount := by omega
  have size := fits.toNat_le
  have bound := payload.end_le
  have slot := slotVa_eq lt
  have below : (starts i).toNat + (ends i - starts i).toNat ≤ slotVa i := by omega
  have same := @sameBytes_copyLoop l.mem (starts i).toNat (slotVa i) (ends i - starts i).toNat below
  have filled := memset_spec (copyLoop (starts i).toNat (slotVa i) (ends i - starts i).toNat 0 l.mem)
    (slotVa i + 0x1c000) 0 appStackSize
  have misfit : ¬ (ends i - starts i = 0 ∨ BitVec.ofNat 64 appImageSize < ends i - starts i ∨
      appStackBottom i < appImage i + (ends i - starts i)) := by
    intro bad
    rcases bad with zero | large | high
    · exact fits.pos zero
    · exact BitVec.not_lt.2 fits.le large
    · exact BitVec.not_lt.2 fits.below high
  have run : ∃ tasks, loadApp starts ends l i = some ⟨tasks,
      memset (copyLoop (starts i).toNat (slotVa i) (ends i - starts i).toNat 0 l.mem) (slotVa i + 0x1c000) 0
        appStackSize, l.board.emit (loadReport i)⟩ := by
    apply Exists.intro
    unfold loadApp
    dsimp only
    rw [if_neg misfit, ← slotVa, same, va_stackBottom]
    rfl
  obtain ⟨tasks, run⟩ := run
  refine ⟨_, run, rfl, ?_, ?_, ?_⟩
  · intro j mem o inside
    obtain rfl := List.mem_singleton.1 mem
    simp only [appImageSize] at size
    dsimp only
    rw [filled, if_neg (by omega), copyLoop_spec (by omega), if_pos (by omega), Nat.add_sub_cancel_left]
  · intro j mem o inside
    obtain rfl := List.mem_singleton.1 mem
    dsimp only
    rw [filled, if_pos (by omega)]
    rfl
  · intro a outside
    have out : ¬ (slotVa i ≤ a ∧ a < slotVa i + (ends i - starts i).toNat ∨
        slotVa i + 0x1c000 ≤ a ∧ a < slotVa i + appSlotSize) := fun inside => outside ⟨i, by simp, inside⟩
    simp only [appSlotSize, appStackSize] at *
    rw [filled, if_neg (by omega), copyLoop_spec (by omega), if_neg (by omega)]

/-! ## All of them -/

theorem InSlots.cons {slots : List (Fin n)} {a : Nat} :
    InSlots starts ends (i :: slots) a ↔ InSlots starts ends [i] a ∨ InSlots starts ends slots a := by
  unfold InSlots
  rw [List.exists_mem_cons_iff, List.exists_mem_cons_iff]
  simp

/-- Where an address of a slot is. -/
theorem InSlots.slot {slots : List (Fin n)} {a : Nat} (inside : InSlots starts ends slots a)
    (fits : ∀ i ∈ slots, SizeFits i (ends i - starts i)) :
    ∃ j ∈ slots, slotVa j ≤ a ∧ a < slotVa j + appSlotSize := by
  obtain ⟨j, mem, place⟩ := inside
  have size := (fits j mem).toNat_le
  simp only [appImageSize] at size
  refine ⟨j, mem, ?_⟩
  simp only [appSlotSize] at place ⊢
  omega

/-- An address of one slot is in no other. -/
theorem not_inSlots (few : n ≤ appCount) {slots : List (Fin n)} {a : Nat} (fresh : i ∉ slots)
    (fits : ∀ j ∈ slots, SizeFits j (ends j - starts j)) (low : slotVa i ≤ a) (high : a < slotVa i + appSlotSize) :
    ¬ InSlots starts ends slots a := by
  intro inside
  obtain ⟨j, mem, low', high'⟩ := inside.slot fits
  rw [slotVa_eq (show (i : Nat) < appCount by omega)] at low high
  rw [slotVa_eq (show (j : Nat) < appCount by omega)] at low' high'
  apply fresh
  have same : (j : Nat) = i := by
    simp only [appSlotSize] at *
    generalize va appFirst = base at *
    omega
  rwa [Fin.ext same] at mem

/-- The payloads lie below the slots. -/
theorem Payload.not_inSlots (few : n ≤ appCount) {slots : List (Fin n)} {start stop : Word}
    (payload : Payload start stop) (fits : ∀ j ∈ slots, SizeFits j (ends j - starts j)) {o : Nat}
    (inside : o < (stop - start).toNat) : ¬ InSlots starts ends slots (start.toNat + o) := by
  intro found
  obtain ⟨j, mem, low, high⟩ := found.slot fits
  rw [slotVa_eq (show (j : Nat) < appCount by omega)] at low
  have below := payload.end_le
  generalize va appFirst = base at *
  omega

/-- The loop of `start_apps` over slots without repetition. -/
theorem loadApps_exact (few : n ≤ appCount) {slots : List (Fin n)} (nodup : slots.Nodup)
    (payloads : ∀ i ∈ slots, Payload (starts i) (ends i)) (fits : ∀ i ∈ slots, SizeFits i (ends i - starts i))
    (l : Loader n) : ∃ l', slots.foldlM (loadApp starts ends) l = some l' ∧
      l'.board = { l.board with trace := l.board.trace ++ slots.map fun i => loadReport i } ∧
      SlotsLoaded starts ends slots l.mem l'.mem := by
  induction slots generalizing l with
  | nil =>
    refine ⟨l, rfl, by simp, ?_, ?_, fun a outside => rfl⟩ <;> simp
  | cons i slots ih =>
    obtain ⟨fresh, nodup⟩ := List.nodup_cons.1 nodup
    have fits' : ∀ j ∈ slots, SizeFits j (ends j - starts j) := fun j mem => fits j (List.mem_cons_of_mem i mem)
    obtain ⟨l₁, run, board, first⟩ := loadApp_exact few (payloads i (by simp)) (fits i (by simp)) l
    obtain ⟨l', rest, board', later⟩ := ih nodup (fun j mem => payloads j (List.mem_cons_of_mem i mem)) fits' l₁
    refine ⟨l', ?_, ?_, ?_, ?_, ?_⟩
    · rw [List.foldlM_cons, run]
      exact rest
    · rw [board', board]
      simp [Board.emit]
    · intro j mem o inside
      rcases List.mem_cons.1 mem with rfl | mem
      · -- the slots loaded later do not touch this one
        have size := (fits j (by simp)).toNat_le
        simp only [appImageSize] at size
        rw [later.frame _ (not_inSlots few fresh fits' (Nat.le_add_right _ o) (by simp only [appSlotSize]; omega))]
        exact first.image j (by simp) o inside
      · have source : ¬ InSlots starts ends [i] ((starts j).toNat + o) :=
          (payloads j (List.mem_cons_of_mem i mem)).not_inSlots few (fun k here => fits k (by simp_all)) inside
        rw [later.image j mem o inside]
        exact first.frame _ source
    · intro j mem o inside
      rcases List.mem_cons.1 mem with rfl | mem
      · simp only [appStackSize] at inside
        rw [later.frame _ (not_inSlots few fresh fits' (by omega) (by simp only [appSlotSize]; omega))]
        exact first.stack j (by simp) o inside
      · exact later.stack j mem o inside
    · intro a outside
      rw [InSlots.cons, not_or] at outside
      rw [later.frame a outside.2, first.frame a outside.1]

/-! ## `start_apps` -/

/-- The counter frequencies that give a quantum the timer takes. -/
def QuantumFits (cntfrq : Word) : Prop := cntfrq / 100 ≠ 0 ∧ cntfrq / 100 ≤ 0x7fffffff

instance (cntfrq : Word) : Decidable (QuantumFits cntfrq) := inferInstanceAs (Decidable (_ ∧ _))

theorem timerInit_isSome (board : Board) {inputs : TimerInputs} :
    (timerInit board inputs).isSome = true ↔ QuantumFits inputs.cntfrq := by
  unfold timerInit QuantumFits
  dsimp only
  split
  · next bad =>
    refine iff_of_false (by simp) fun fits => ?_
    rcases bad with zero | large
    · exact fits.1 zero
    · exact BitVec.not_lt.2 fits.2 large
  · next good =>
    push Not at good
    exact iff_of_true rfl ⟨good.1, BitVec.not_lt.1 good.2⟩

/-- When `start_apps` does not panic. -/
theorem startApps_isSome [NeZero n] (few : n ≤ appCount) (payloads : ∀ i, Payload (starts i) (ends i)) (mem : Mem)
    (board : Board) (inputs : TimerInputs) : (startApps mem board starts ends inputs).isSome = true ↔
      (∀ i : Fin n, SizeFits i (ends i - starts i)) ∧ QuantumFits inputs.cntfrq := by
  constructor
  · intro some_
    obtain ⟨⟨k, mem'⟩, run⟩ := Option.isSome_iff_exists.1 some_
    refine ⟨fun i => ((startApps_spec run).2 i).2, ?_⟩
    obtain ⟨l, loaded, rest⟩ := Option.bind_eq_some_iff.1 run
    obtain ⟨board', init, rest⟩ := Option.bind_eq_some_iff.1 rest
    apply (timerInit_isSome l.board).1
    rw [init]
    rfl
  · intro fit
    obtain ⟨fits, quantum⟩ := fit
    obtain ⟨l, run, board', loaded⟩ := loadApps_exact few (List.nodup_finRange n) (fun i _ => payloads i)
      (fun i _ => fits i) ⟨fun _ => zeroTask, mem, board⟩
    obtain ⟨b, init⟩ := Option.isSome_iff_exists.1 ((timerInit_isSome l.board).2 quantum)
    rw [startApps, run]
    dsimp only [bind, Option.bind]
    rw [init]
    rfl

/-- What `start_apps` leaves. -/
theorem startApps_loaded [NeZero n] (few : n ≤ appCount) (payloads : ∀ i, Payload (starts i) (ends i)) {mem mem' : Mem}
    {board : Board} {inputs : TimerInputs} {k : Kernel n}
    (run : startApps mem board starts ends inputs = some (k, mem')) :
    SlotsLoaded starts ends (List.finRange n) mem mem' ∧
      (∀ i, k.tasks i = loadedTask i (ends i - starts i)) ∧ k.current = 0 ∧
      timerInit { board with trace := board.trace ++ (List.finRange n).map fun i => loadReport i } inputs =
        some k.board := by
  obtain ⟨first, slots⟩ := startApps_spec run
  obtain ⟨l, run', board', loaded⟩ := loadApps_exact few (List.nodup_finRange n) (fun i _ => payloads i)
    (fun i _ => (slots i).2) ⟨fun _ => zeroTask, mem, board⟩
  rw [startApps, run'] at run
  have run := (Option.bind_some ..).symm.trans run
  obtain ⟨b, init, rest⟩ := Option.bind_eq_some_iff.1 run
  obtain ⟨rfl, rfl⟩ := Prod.mk.inj (Option.some_inj.1 rest)
  refine ⟨loaded, fun i => (slots i).1, rfl, ?_⟩
  rw [← board']
  exact init

/-- **Loading.** `start_apps` panics exactly when an image does not fit its slot
or the timer frequency gives no quantum. Otherwise every slot holds its payload
and an empty stack, no other byte of memory has changed, every task is ready
with its initial context, and the reports come in the order of the slots, before
the timer is started. -/
theorem startApps_exact [NeZero n] (few : n ≤ appCount) (payloads : ∀ i, Payload (starts i) (ends i)) (mem : Mem)
    (board : Board) (inputs : TimerInputs) :
    ((startApps mem board starts ends inputs).isSome = true ↔
      (∀ i : Fin n, SizeFits i (ends i - starts i)) ∧ QuantumFits inputs.cntfrq) ∧
    ∀ k mem', startApps mem board starts ends inputs = some (k, mem') →
      SlotsLoaded starts ends (List.finRange n) mem mem' ∧
      (∀ i, k.tasks i = loadedTask i (ends i - starts i)) ∧ k.current = 0 ∧
      timerInit { board with trace := board.trace ++ (List.finRange n).map fun i => loadReport i } inputs =
        some k.board :=
  ⟨startApps_isSome few payloads mem board inputs, fun _ _ run => startApps_loaded few payloads run⟩

end

/-- Three payloads of one byte, one after the other in the kernel image. -/
theorem examplePayloads (i : Fin 3) :
    Payload (0xffffffc000090000 + BitVec.ofNat 64 i) (0xffffffc000090001 + BitVec.ofNat 64 i) := by
  constructor
  · revert i
    decide
  · revert i
    decide

theorem exampleSizes (i : Fin 3) :
    SizeFits i (0xffffffc000090001 + BitVec.ofNat 64 i - (0xffffffc000090000 + BitVec.ofNat 64 i)) := by
  constructor
  · revert i
    decide
  · revert i
    decide
  · revert i
    decide

theorem startApps_exact_example : (startApps (fun _ => 0x2a) ⟨0, 0, []⟩
    (fun i : Fin 3 => 0xffffffc000090000 + BitVec.ofNat 64 i) (fun i => 0xffffffc000090001 + BitVec.ofNat 64 i)
    ⟨0, 0, 0, 0, 62500000⟩).isSome = true :=
  (startApps_exact (by decide) examplePayloads _ _ _).1.2 ⟨exampleSizes, by decide⟩

/-! ## The code that runs -/

/-- The slot after a turn. -/
def Turn.mem : Turn → SlotMem
  | .go _ mem => mem
  | .raise _ mem _ _ => mem

/-- The code stores to its stack only; `user_pg_dir` lets EL0 write nothing else
of a slot. -/
def StoresToStack (program : Program) : Prop :=
  ∀ regs mem, ∀ o : Fin appSlotSize, (o : Nat) < appSlotSize - appStackSize → (program regs mem).mem o = mem o

section
variable {programs : Fin n → Program} {tasksAt sizes : Fin n → Word} {images : Fin n → SlotMem}
  {c c' : Computer n} {sp : Word} {turns : Fin n → ℕ}

/-- A step leaves everything below the stacks. -/
theorem Computer.Step.below_stacks {turn : Option (Fin n)} (step : Computer.Step programs tasksAt turn c c')
    (stores : ∀ i, StoresToStack (programs i)) (i : Fin n) (o : Fin appSlotSize)
    (low : (o : Nat) < appSlotSize - appStackSize) : c'.mem i o = c.mem i o := by
  cases step with
  | @go _ j regs mem at_ turn =>
    by_cases here : i = j
    · subst here
      have kept := stores i c.regs (c.mem i) o low
      rw [turn] at kept
      exact (congrFun (Function.update_self ..) o).trans kept
    · exact congrFun (Function.update_of_ne here ..) o
  | @exception _ j e regs mem at_ turn sync shows ok =>
    by_cases here : i = j
    · subst here
      have kept := stores i c.regs (c.mem i) o low
      rw [turn] at kept
      exact (congrFun (Function.update_self ..) o).trans kept
    · exact congrFun (Function.update_of_ne here ..) o
  | interrupt at_ irq shows ok => rfl

/-- In every state that is reached, the slots are as loaded below the stacks. -/
theorem Computer.Reached.below_stacks [NeZero n] (reached : Computer.Reached programs tasksAt sp sizes images turns c)
    (stores : ∀ i, StoresToStack (programs i)) (i : Fin n) (o : Fin appSlotSize)
    (low : (o : Nat) < appSlotSize - appStackSize) : c.mem i o = images i o := by
  induction reached with
  | boots boots =>
    cases boots
    rfl
  | turn reached step ih => rw [step.below_stacks stores i o low, ih]
  | interrupt reached step ih => rw [step.below_stacks stores i o low, ih]

end

section
variable [NeZero n] {starts ends : Fin n → Word} {programs : Fin n → Program} {tasksAt : Fin n → Word}
  {mem mem' : Mem} {board : Board} {inputs : TimerInputs} {k : Kernel n} {c : Computer n} {sp : Word}
  {turns : Fin n → ℕ} {l : PgLayout} {symbols : KernelSymbols} {st st' : PgState}

/-- **The payloads run.** In every run, an address of the image of application
`i` holds the byte of its payload; EL0 executes it there and cannot write it, and
it is the physical address to which the kernel has copied that byte through the
linear map. -/
theorem Computer.payloads_run (few : n ≤ appCount) (payloads : ∀ i, Payload (starts i) (ends i))
    (boot : startApps mem board starts ends inputs = some (k, mem')) (stores : ∀ i, StoresToStack (programs i))
    (reached : Computer.Reached programs tasksAt sp (fun i => ends i - starts i) (fun i o => mem' (slotVa i + o))
      turns c)
    (placed : Placed l.root l.pool) (linked : symbols.Linked) (clear : Cleared l st)
    (mapped : mmuInit l symbols st = some st') (i : Fin n) (o : Fin appSlotSize)
    (inside : (o : Nat) < (ends i - starts i).toNat) :
    c.mem i o = mem ((starts i).toNat + o) ∧ ∃ attributes attributes',
      translate st'.mem l.userPgDir ((appImage i).toNat + o) = some ((appImage i).toNat + o, attributes) ∧
      Executable attributes .el0 ∧ ¬ Writable attributes .el0 ∧
      translate st'.mem l.swapperPgDir (slotVa i + o) = some ((appImage i).toNat + o, attributes') := by
  have lt : (i : Nat) < appCount := by omega
  have fits := ((startApps_spec boot).2 i).2
  have size := fits.toNat_le
  simp only [appImageSize] at size
  obtain ⟨loaded, -⟩ := startApps_loaded few payloads boot
  obtain ⟨st₀, tables, run, sub, rep⟩ := mmuInit_spec placed linked clear
  have final : _ = st' := Option.some_inj.1 (run.symm.trans mapped)
  have after : AfterInit l symbols st₀ st' tables := ⟨rep, sub, final.symm⟩
  have image : (appImage i).toNat = appFirst + i * appSlotSize := by
    rw [appImage_toNat]
    simp only [appFirst, appSlotSize, appCount] at *
    omega
  have slot : slotVa i + o = pageOffset + ((appImage i).toNat + o - physOffset) := by
    rw [slotVa_eq lt, image]
    simp only [va, add64, sub64, appFirst, appSlotSize, appCount, physOffset, pageOffset] at *
    omega
  refine ⟨?_, pageReadonlyExec, linearProt symbols ((appImage i).toNat + o), ?_, by decide, by decide, ?_⟩
  · rw [reached.below_stacks stores i o (by simp only [appSlotSize, appStackSize]; omega)]
    exact loaded.image i (List.mem_finRange i) o inside
  · have here : InImage i ((appImage i).toNat + o) := by
      rw [image]
      unfold InImage
      simp only [appImageSize]
      omega
    have half : (appImage i).toNat + o < 2 ^ 39 := by
      rw [image]
      simp only [appFirst, appSlotSize, appCount] at *
      omega
    rw [after.user placed half, userMap, if_pos ⟨i, lt, here⟩]
  · have ram : pageOffset + ((appImage i).toNat + o - physOffset) < pageOffset + ramSize := by
      rw [image]
      simp only [appFirst, appSlotSize, appCount, physOffset, pageOffset, ramSize] at *
      omega
    have back : physOffset + (pageOffset + ((appImage i).toNat + o - physOffset) - pageOffset) =
        (appImage i).toNat + o := by
      rw [image]
      simp only [appFirst, appSlotSize, physOffset, pageOffset] at *
      omega
    have top : pageOffset + ramSize < 2 ^ 64 := by decide
    have bottom : 2 ^ 64 - 2 ^ 39 ≤ pageOffset := by decide
    rw [slot, after.swapper placed linked (by omega) (by omega), swapperMap,
      if_pos ⟨Nat.le_add_right _ _, ram⟩, back]

end

theorem storeProgram_storesToStack : StoresToStack storeProgram := by
  intro regs mem o low
  unfold storeProgram
  split
  · rfl
  · refine Function.update_of_ne ?_ _ _
    rintro rfl
    exact absurd low (by decide)

/-- After the first application has stored to its stack, its slot still starts with its
payload, which EL0 executes and cannot write. -/
theorem Computer.payloads_run_example : ∃ (images : Fin 3 → SlotMem) (c : Computer 3) (st : PgState) (a a' : Nat),
    Computer.Reached (fun _ => storeProgram) (fun _ => 0) 0xffffffc0000b0000
      (fun i => 0xffffffc000090001 + BitVec.ofNat 64 i - (0xffffffc000090000 + BitVec.ofNat 64 i)) images
      (Function.update 0 0 1) c ∧ mmuInit exampleLayout exampleSymbols ⟨fun _ => 0, 0⟩ = some st ∧
    c.mem 0 ⟨appSlotSize - 1, by decide⟩ = 0x55 ∧ c.mem 0 ⟨0, by decide⟩ = 0x2a ∧
    translate st.mem exampleLayout.userPgDir (appImage (0 : Fin 3)).toNat = some ((appImage (0 : Fin 3)).toNat, a) ∧
    Executable a .el0 ∧ ¬ Writable a .el0 ∧
    translate st.mem exampleLayout.swapperPgDir (slotVa (0 : Fin 3)) = some ((appImage (0 : Fin 3)).toNat, a') := by
  obtain ⟨⟨k, mem'⟩, boot⟩ := Option.isSome_iff_exists.1 bootExample_isSome
  have boots : Computer.Reached (fun _ => storeProgram) (fun _ => 0) 0xffffffc0000b0000
      (fun i : Fin 3 => 0xffffffc000090001 + BitVec.ofNat 64 i - (0xffffffc000090000 + BitVec.ofNat 64 i))
      (fun i o => mem' (slotVa i + o)) 0 ⟨Sys.start _ k _ (fun _ => 0) fun _ => 0, _, _⟩ :=
    .boots (.mk boot (fun _ => rfl) fun _ _ => rfl)
  obtain ⟨c, reached, -⟩ := boots.stored rfl rfl
  obtain ⟨-, solos, sees, turns⟩ := reached.refines (by decide)
  have here := sees 0
  rw [turns.alone 0] at here
  obtain ⟨st', run⟩ : ∃ st', mmuInit exampleLayout exampleSymbols ⟨fun _ => 0, 0⟩ = some st' := by
    obtain ⟨_, _, run, -⟩ := mmuInit_spec exampleLayout_placed exampleSymbols_linked exampleLayout_cleared
    exact ⟨_, run⟩
  obtain ⟨byte, a, a', user, executable, readonly, kernel⟩ := Computer.payloads_run (by decide) examplePayloads boot
    (fun _ => storeProgram_storesToStack) reached exampleLayout_placed exampleSymbols_linked exampleLayout_cleared run
    0 ⟨0, by decide⟩ (by decide)
  rw [Nat.add_zero] at user kernel
  refine ⟨_, c, st', a, a', reached, run, ?_, byte, user, executable, readonly, kernel⟩
  have stored : c.mem 0 = Function.update (fun o : Fin appSlotSize => mem' (slotVa (0 : Fin 3) + o))
      ⟨appSlotSize - 1, by decide⟩ 0x55 := here.mem
  rw [stored, Function.update_self]

end MiaowOs
