import MiaowOs.Apps
import MiaowOs.Kernel.Preemption

/-!
# The programs on the computer

What the machine code of an application has to do with the program it was
compiled from: it computes, makes a log call for each line that the program logs,
and `_start` exits with the status `app_main` returns (`Compiled`). Such an
application is followed line by line while it runs alone, and so it is on the
computer, under every schedule.
-/

namespace MiaowOs

variable {n : Nat}

/-- What a slot holds in a buffer. -/
def bufferAt (i : Nat) (mem : SlotMem) (pointer length : Word) : List UInt8 :=
  (List.range length.toNat).map fun j => slotByte i mem (pointer + BitVec.ofNat 64 j)

/-- From a context on, the code of an application logs these lines, each from its
image or its stack, and exits with `code`. Its stack pointer stays on its stack. -/
inductive Performs (program : Program) (i : Nat) (size : Word) :
    PtRegs → SlotMem → List (List UInt8) → Word → Prop
  | compute {regs regs' : PtRegs} {mem mem' : SlotMem} {lines : List (List UInt8)} {code : Word}
      (waits : (loadedTask i size).OnStack regs) (turn : program regs mem = .go regs' mem')
      (rest : Performs program i size regs' mem' lines code) : Performs program i size regs mem lines code
  | log {regs regs' : PtRegs} {mem mem' : SlotMem} {esr far : Word} {lines : List (List UInt8)} {code : Word}
      (waits : (loadedTask i size).OnStack regs) (turn : program regs mem = .raise regs' mem' esr far)
      (svc : esr >>> 26 = 0x15 ∧ esr &&& 0xffff = 0) (raises : (loadedTask i size).OnStack regs')
      (number : regs'.regs 8 = nrLog)
      (loggable : (loadedTask i size).Loggable (regs'.regs 0).toNat (regs'.regs 1).toNat)
      (rest : Performs program i size (setX0 regs' (logResult (loadedTask i size) (regs'.regs 0) (regs'.regs 1)))
        mem' lines code) :
      Performs program i size regs mem (bufferAt i mem' (regs'.regs 0) (regs'.regs 1) :: lines) code
  | exit {regs regs' : PtRegs} {mem mem' : SlotMem} {esr far : Word}
      (waits : (loadedTask i size).OnStack regs) (turn : program regs mem = .raise regs' mem' esr far)
      (svc : esr >>> 26 = 0x15 ∧ esr &&& 0xffff = 0) (raises : (loadedTask i size).OnStack regs')
      (number : regs'.regs 8 = nrExit) : Performs program i size regs mem [] (regs'.regs 0)

/-- The application in slot `i` is compiled from a program. The status is an `int`:
the upper half of the register that holds it is anything. -/
def Compiled (program : Program) (i : Nat) (size : Word) (image : SlotMem) (main : Option Ran) (code : Word) : Prop :=
  ∃ ran, main = some ran ∧ Performs program i size (initialContext i) image ran.logs code ∧
    code.setWidth 32 = BitVec.ofNat 32 ran.status

/-- The console output of a line. -/
def lineOutput (i : Nat) (line : List UInt8) : List Effect := (taskPrefixText i ++ line).map .uartPutc

/-- The console output of an application that logs these lines and exits. -/
def programOutput (i : Nat) (lines : List (List UInt8)) (code : Word) : List Effect :=
  lines.flatMap (lineOutput i) ++ [exitReport (BitVec.ofNat 64 i) code]

/-! ## Alone -/

section
variable {program : Program} {i k : Nat} {size code : Word} {image mem mem' : SlotMem} {regs regs' : PtRegs}
  {lines : List (List UInt8)} {output : List Effect} {esr far : Word} {s : Solo}

/-- A line of a length that `sys_log` takes is printed. -/
theorem logSaid_buffer {pointer length : Word} (loggable : (loadedTask i size).Loggable pointer.toNat length.toNat)
    (some : 0 < (bufferAt i mem pointer length).length)
    (short : (bufferAt i mem pointer length).length ≤ logLimit.toNat) :
    logSaid i size mem pointer length = lineOutput i (bufferAt i mem pointer length) := by
  have count : (bufferAt i mem pointer length).length = length.toNat := by
    rw [bufferAt, List.length_map, List.length_range]
  rw [count] at some short
  have pos : length ≠ 0 := by
    rintro rfl
    exact Nat.lt_irrefl 0 some
  rw [logSaid, if_pos ⟨BitVec.le_def.2 short, pos, loggable⟩, lineOutput, bufferAt, List.map_append, List.map_map]
  rfl

/-- How far an application has come with its lines. -/
inductive Follows (program : Program) (i : Nat) (size : Word) (lines : List (List UInt8)) (code : Word) (s : Solo) :
    Prop
  | running (told left : List (List UInt8)) (whole : lines = told ++ left) (fate : s.fate = .running)
      (performs : Performs program i size s.regs s.mem left code) (output : s.output = told.flatMap (lineOutput i))
  | exited (fate : s.fate = .exited code) (output : s.output = programOutput i lines code)

theorem Solo.step_go (fate : s.fate = .running) (turn : program s.regs s.mem = .go regs mem) :
    s.step program i size = { s with regs, mem } := by
  rw [Solo.step, fate]
  dsimp only
  rw [turn]

theorem Solo.step_raise (fate : s.fate = .running) (turn : program s.regs s.mem = .raise regs mem esr far)
    (svc : esr >>> 26 = 0x15 ∧ esr &&& 0xffff = 0) : s.step program i size =
      if regs.regs 8 = nrLog then
        ⟨setX0 regs (logResult (loadedTask i size) (regs.regs 0) (regs.regs 1)), mem, .running,
          s.output ++ logSaid i size mem (regs.regs 0) (regs.regs 1)⟩
      else if regs.regs 8 = nrExit then
        ⟨regs, mem, .exited (regs.regs 0), s.output ++ [exitReport (BitVec.ofNat 64 i) (regs.regs 0)]⟩
      else ⟨setX0 regs (-eNosys), mem, .running, s.output⟩ := by
  rw [Solo.step, fate]
  dsimp only
  rw [turn]
  dsimp only
  rw [Solo.answer, if_neg (not_not.2 svc)]

/-- One step follows the lines. -/
theorem Follows.step (fits : ∀ line ∈ lines, 0 < line.length ∧ line.length ≤ logLimit.toNat)
    (follows : Follows program i size lines code s) :
    Follows program i size lines code (s.step program i size) := by
  cases follows with
  | exited fate output =>
    have rest : s.step program i size = s := by rw [Solo.step, fate]
    rw [rest]
    exact .exited fate output
  | running told left whole fate performs output =>
    cases performs with
    | compute waits turn rest =>
      rw [Solo.step_go fate turn]
      exact .running told left whole fate rest output
    | @log _ regs' _ mem' _ _ lines' _ waits turn svc raises number loggable rest =>
      obtain ⟨some, short⟩ := fits (bufferAt i mem' (regs'.regs 0) (regs'.regs 1)) (by rw [whole]; simp)
      rw [Solo.step_raise fate turn svc, if_pos number, logSaid_buffer loggable some short, output]
      refine .running (told ++ [bufferAt i mem' (regs'.regs 0) (regs'.regs 1)]) lines' ?_ rfl rest ?_
      · rw [whole, List.append_assoc]
        rfl
      · rw [List.flatMap_append, List.flatMap_singleton]
    | exit waits turn svc raises number =>
      have other : ¬ nrExit = nrLog := by decide
      rw [Solo.step_raise fate turn svc, number, if_neg other, if_pos rfl, output]
      refine .exited rfl ?_
      rw [programOutput, whole, List.append_nil]

/-- Every step does. -/
theorem Follows.alone (fits : ∀ line ∈ lines, 0 < line.length ∧ line.length ≤ logLimit.toNat)
    (performs : Performs program i size (initialContext i) image lines code) (k : ℕ) :
    Follows program i size lines code (MiaowOs.alone program i size image k) := by
  induction k with
  | zero => exact .running [] lines rfl rfl performs rfl
  | succ k ih =>
    rw [MiaowOs.alone, Function.iterate_succ_apply']
    exact ih.step fits

/-- What has been printed is a beginning of the whole. -/
theorem Follows.printed (follows : Follows program i size lines code s) : s.output <+: programOutput i lines code := by
  cases follows with
  | exited fate output => rw [output]
  | running told left whole fate performs output =>
    rw [output, programOutput, whole, List.flatMap_append, List.append_assoc]
    exact List.prefix_append _ _

theorem Follows.exited_of (follows : Follows program i size lines code s) (ended : s.fate ≠ .running) :
    s.fate = .exited code ∧ s.output = programOutput i lines code := by
  cases follows with
  | exited fate output => exact ⟨fate, output⟩
  | running told left whole fate performs output => exact absurd fate ended

/-- A compiled program keeps to its stack. -/
theorem Performs.behaves (fits : ∀ line ∈ lines, 0 < line.length ∧ line.length ≤ logLimit.toNat)
    (performs : Performs program i size (initialContext i) image lines code) : Behaves program i size image := by
  have left : ∀ k, (alone program i size image k).fate = .running → ∃ left,
      Performs program i size (alone program i size image k).regs (alone program i size image k).mem left code := by
    intro k running
    cases Follows.alone fits performs k with
    | running told left whole fate performs output => exact ⟨left, performs⟩
    | exited fate output => cases running.symm.trans fate
  refine ⟨fun k running => ?_, fun k regs mem esr far running turn => ?_⟩
  · obtain ⟨lines', performs'⟩ := left k running
    cases performs' with
    | compute waits => exact waits
    | log waits => exact waits
    | exit waits => exact waits
  · obtain ⟨lines', performs'⟩ := left k running
    cases performs' with
    | compute waits turn' => cases turn.symm.trans turn'
    | log waits turn' svc raises =>
      obtain ⟨rfl, -, -, -⟩ := Turn.raise.inj (turn.symm.trans turn')
      exact raises
    | exit waits turn' svc raises =>
      obtain ⟨rfl, -, -, -⟩ := Turn.raise.inj (turn.symm.trans turn')
      exact raises

/-- A compiled program ends. -/
theorem Performs.ends (performs : Performs program i size regs mem lines code) (output : List Effect) :
    ∃ k, ((Solo.step program i size)^[k] ⟨regs, mem, .running, output⟩).fate ≠ .running := by
  induction performs generalizing output with
  | compute waits turn rest ih =>
    obtain ⟨k, ended⟩ := ih output
    refine ⟨k + 1, ?_⟩
    rwa [Function.iterate_succ_apply, Solo.step_go rfl turn]
  | log waits turn svc raises number loggable rest ih =>
    obtain ⟨k, ended⟩ := ih (output ++ logSaid i size _ _ _)
    refine ⟨k + 1, ?_⟩
    rwa [Function.iterate_succ_apply, Solo.step_raise rfl turn svc, if_pos number]
  | exit waits turn svc raises number =>
    have other : ¬ nrExit = nrLog := by decide
    refine ⟨1, ?_⟩
    rw [Function.iterate_one, Solo.step_raise rfl turn svc, number, if_neg other, if_pos rfl]
    exact fun running => Fate.noConfusion running

end

/-! ## Code for a program -/

section
variable {i : Nat} {size : Word} {ran : Ran} {regs : PtRegs} {mem : SlotMem} {line : List UInt8}

/-- A line copied to the bottom of the stack. -/
def onStack (mem : SlotMem) (line : List UInt8) : SlotMem := fun o =>
  if 0x1c000 ≤ o.val then line.getD (o.val - 0x1c000) 0 else mem o

/-- The registers of the call that logs it; `x19` counts the lines. -/
def logRegs (i : Nat) (regs : PtRegs) (line : List UInt8) : PtRegs :=
  { regs with regs := fun r => if r = 0 then appStackBottom i else if r = 1 then BitVec.ofNat 64 line.length
      else if r = 8 then nrLog else if r = 19 then regs.regs 19 + 1 else regs.regs r }

/-- The registers of the call that exits. -/
def exitRegs (regs : PtRegs) (status : Nat) : PtRegs :=
  { regs with regs := fun r => if r = 0 then BitVec.ofNat 64 status else if r = 8 then nrExit else regs.regs r }

/-- An application that does nothing but what a program logs and returns. -/
def scribe (i : Nat) (ran : Ran) : Program := fun regs mem =>
  match ran.logs[(regs.regs 19).toNat]? with
  | some line => .raise (logRegs i regs line) (onStack mem line) 0x56000000 0
  | none => .raise (exitRegs regs ran.status) mem 0x56000000 0

theorem slotByte_of {a : Word} {o : Fin appSlotSize} (offset : (a - appImage i).toNat = o) :
    slotByte i mem a = mem o := by
  rw [slotByte, dif_pos (by rw [offset]; exact o.isLt)]
  exact congrArg mem (Fin.ext offset)

theorem bufferAt_onStack (short : line.length ≤ logLimit.toNat) :
    bufferAt i (onStack mem line) (appStackBottom i) (BitVec.ofNat 64 line.length) = line := by
  have limit : logLimit.toNat = 256 := rfl
  have count : (BitVec.ofNat 64 line.length).toNat = line.length := by
    rw [BitVec.toNat_ofNat, Nat.mod_eq_of_lt (by omega)]
  have offset : ∀ j < line.length, (appStackBottom i + BitVec.ofNat 64 j - appImage i).toNat = 0x1c000 + j := by
    intro j lt
    have low := appImage_lt i
    rw [BitVec.toNat_sub, BitVec.toNat_add, BitVec.toNat_ofNat, appStackBottom_toNat]
    generalize (appImage i).toNat = start at *
    omega
  apply List.ext_getElem
  · rw [bufferAt, List.length_map, List.length_range, count]
  · intro j here lt
    simp only [bufferAt, List.getElem_map, List.getElem_range]
    have inside : 0x1c000 + j < appSlotSize := by
      simp only [appSlotSize]
      omega
    rw [@slotByte_of i (onStack mem line) _ ⟨0x1c000 + j, inside⟩ (offset j lt), onStack, if_pos (Nat.le_add_right _ j)]
    dsimp only
    rw [Nat.add_sub_cancel_left, List.getD_eq_getElem _ _ lt]

theorem loggable_onStack (short : line.length ≤ logLimit.toNat) :
    (loadedTask i size).Loggable (appStackBottom i).toNat (BitVec.ofNat 64 line.length).toNat := by
  have limit : logLimit.toNat = 256 := rfl
  have stack : (appStackBottom i).toNat + (BitVec.ofNat 64 line.length).toNat ≤ (appStackTop i).toNat := by
    rw [appStackBottom_toNat, appStackTop_toNat, BitVec.toNat_ofNat, Nat.mod_eq_of_lt (by omega)]
    omega
  exact .inr ⟨Nat.le_refl _, stack⟩

/-- It performs what is left, wherever its counter stands. -/
theorem scribe_performs {told left : List (List UInt8)} (whole : ran.logs = told ++ left)
    (short : ∀ line ∈ ran.logs, line.length ≤ logLimit.toNat) (few : ran.logs.length < 2 ^ 64)
    (counter : regs.regs 19 = BitVec.ofNat 64 told.length) (waits : (loadedTask i size).OnStack regs) :
    Performs (scribe i ran) i size regs mem left (BitVec.ofNat 64 ran.status) := by
  have svc : (0x56000000 : Word) >>> 26 = 0x15 ∧ (0x56000000 : Word) &&& 0xffff = 0 := by decide
  have bound : told.length ≤ ran.logs.length := by
    rw [whole, List.length_append]
    exact Nat.le_add_right _ _
  have index : (regs.regs 19).toNat = told.length := by
    rw [counter, BitVec.toNat_ofNat, Nat.mod_eq_of_lt (by omega)]
  induction left generalizing told regs mem with
  | nil =>
    have turn : scribe i ran regs mem = .raise (exitRegs regs ran.status) mem 0x56000000 0 := by
      unfold scribe
      rw [index, whole, List.append_nil, List.getElem?_eq_none (Nat.le_refl _)]
    exact .exit waits turn svc ⟨waits.mode, waits.above, waits.below, waits.aligned⟩ rfl
  | cons line left ih =>
    have turn : scribe i ran regs mem = .raise (logRegs i regs line) (onStack mem line) 0x56000000 0 := by
      unfold scribe
      rw [index, whole, List.getElem?_append_right (Nat.le_refl _), Nat.sub_self]
      rfl
    have fits := short line (by rw [whole]; simp)
    have longer : (told ++ [line]).length = told.length + 1 := by rw [List.length_append, List.length_singleton]
    have rest : ran.logs = (told ++ [line]) ++ left := by
      rw [whole, List.append_assoc]
      rfl
    have bound' : (told ++ [line]).length ≤ ran.logs.length := by
      have length := congrArg List.length rest
      rw [List.length_append] at length
      omega
    have next : (logRegs i regs line).regs 19 = BitVec.ofNat 64 (told ++ [line]).length := by
      rw [longer, BitVec.ofNat_add, ← counter]
      rfl
    have stays : (loadedTask i size).OnStack (logRegs i regs line) :=
      ⟨waits.mode, waits.above, waits.below, waits.aligned⟩
    have index' : ((logRegs i regs line).regs 19).toNat = (told ++ [line]).length := by
      rw [next, BitVec.toNat_ofNat, Nat.mod_eq_of_lt (by omega)]
    have performs := Performs.log waits turn svc stays rfl (loggable_onStack fits)
      (ih rest next ⟨waits.mode, waits.above, waits.below, waits.aligned⟩ bound' index')
    have buffer := @bufferAt_onStack i mem line fits
    rw [show (logRegs i regs line).regs 0 = appStackBottom i from rfl,
      show (logRegs i regs line).regs 1 = BitVec.ofNat 64 line.length from rfl, buffer] at performs
    exact performs

theorem scribe_compiled {logs : List (List UInt8)} {status : Nat} {main : Option Ran} {image : SlotMem}
    (ends : Ends main logs status) (few : logs.length < 2 ^ 64) :
    Compiled (scribe i ⟨logs, status⟩) i size image main (BitVec.ofNat 64 status) := by
  refine ⟨_, ends.1, ?_, ?_⟩
  · exact @scribe_performs i size ⟨logs, status⟩ _ image [] logs rfl (fun line mem => (ends.2 line mem).2) few rfl initial_onStack
  · rw [BitVec.setWidth_ofNat_of_le (by decide)]

end

/-! ## The programs of the build -/

/-- The programs, by slot: `APP0`, `APP1` and `APP2`. -/
def mains : Fin 3 → Option Ran
  | 0 => sequenceMain
  | 1 => primesMain
  | 2 => checksumMain

/-- What they log. -/
def mainLogs : Fin 3 → List (List UInt8)
  | 0 => programLogs (chars "sequence start\n") (chars "sequence progress=") (chars "sequence result=")
      1 1000000 3000000 4500001500000
  | 1 => programLogs (chars "primes start\n") (chars "primes progress=") (chars "primes result=") 2 25000 100000 9592
  | 2 => programLogs (chars "checksum start\n") (chars "checksum progress=") (chars "checksum result=")
      1 1000000 4000000 510000000

theorem forall_slot {P : Fin 3 → Prop} (first : P 0) (second : P 1) (third : P 2) : ∀ i, P i :=
  Fin.forall_fin_succ.2 ⟨first, Fin.forall_fin_succ.2 ⟨second, Fin.forall_fin_succ.2 ⟨third, fun i => i.elim0⟩⟩⟩

/-- Each logs its lines and returns 0. -/
theorem mains_end : ∀ i, Ends (mains i) (mainLogs i) 0 := by
  have total : 3000000 * (3000000 + 1) / 2 % 2 ^ 64 = 4500001500000 := by norm_num
  have sums := @sequence_ends 1000000 4500001500000 3000000 (by decide) (by decide)
  rw [total, verdict, if_pos rfl] at sums
  have low : lowBytes 4000000 % 2 ^ 32 = 510000000 := by norm_num [lowBytes]
  have bytes := @checksum_ends 1000000 510000000 4000000 (by decide) (by decide)
  rw [low, verdict, if_pos rfl] at bytes
  have counts := @primes_ends 25000 9592 100000 (by decide) (by decide)
  rw [primeCounting_limit, verdict, if_pos rfl] at counts
  apply forall_slot
  · rw [mains, mainLogs, sequenceMain]
    exact sums
  · rw [mains, mainLogs, primesMain]
    exact counts
  · rw [mains, mainLogs, checksumMain]
    exact bytes

theorem programLogs_length {start label result : List UInt8} {first step limit total : Nat} :
    (programLogs start label result first step limit total).length ≤ limit / step + 2 := by
  have fewer := List.length_filter_le (first ≤ ·) ((List.range' 1 (limit / step)).map (· * step))
  rw [List.length_map, List.length_range'] at fewer
  simp only [programLogs, milestones, List.length_append, List.length_map, List.length_singleton]
  omega

theorem mainLogs_few : ∀ i, (mainLogs i).length < 2 ^ 64 := by
  apply forall_slot
  · exact programLogs_length.trans_lt (by decide)
  · exact programLogs_length.trans_lt (by decide)
  · exact programLogs_length.trans_lt (by decide)

/-! ## On the computer -/

section
variable {programs : Fin n → Program} {tasksAt sizes : Fin n → Word} {sp : Word} {images : Fin n → SlotMem}
  {turns : Fin n → ℕ} {c c' : Computer n}

/-- Where the computer can go on to is reached. -/
theorem Computer.Leads.reached [NeZero n] (leads : Leads programs tasksAt c c')
    (reached : Reached programs tasksAt sp sizes images turns c) :
    ∃ turns', Reached programs tasksAt sp sizes images turns' c' := by
  induction leads generalizing turns with
  | refl => exact ⟨turns, reached⟩
  | @step c c₁ c' turn step rest ih =>
    cases turn with
    | none => exact ih (reached.interrupt step)
    | some i => exact ih (reached.turn step)

/-- What is heard of an application that follows its lines. -/
theorem Computer.Sees.printed {i : Fin n} {lines : List (List UInt8)} {code : Word} {s : Solo}
    (sees : c.Sees sizes i s) (follows : Follows (programs i) i (sizes i) lines code s) :
    heard i c.sys.records <+: trapReport (BitVec.ofNat 64 i) :: programOutput i lines code := by
  rw [sees.console]
  cases seen : (c.sys.kernel.tasks i).observed with
  | false =>
    rw [(sees.quiet seen).1]
    exact List.nil_prefix
  | true => exact List.cons_prefix_cons.2 ⟨rfl, follows.printed⟩

/-- **The programs on the computer.** Applications compiled from programs that end never
make the kernel panic, under no schedule. What is heard of each is always a beginning
of its output: the report of its first trap, every line that the program logs, behind
its prefix, and the report of its exit. From every state the computer can come to
rest; and where it does, every output is complete and every status is recorded. -/
theorem Computer.programs_whole [NeZero n] (few : n ≤ appCount) {mains : Fin n → Option Ran}
    {lines : Fin n → List (List UInt8)} {status : Fin n → Nat} {codes : Fin n → Word}
    (ends : ∀ i, Ends (mains i) (lines i) (status i))
    (compiled : ∀ i, Compiled (programs i) i (sizes i) (images i) (mains i) (codes i))
    (reached : Reached programs tasksAt sp sizes images turns c) :
    (∀ i e, c.sys.status = .resume i → c.Strikes programs i e → e.daif &&& 0x80 ≠ 0 →
      (c.sys.handle tasksAt i e).status ≠ .panic) ∧
    (∀ i, heard i c.sys.records <+: trapReport (BitVec.ofNat 64 i) :: programOutput i (lines i) (codes i)) ∧
    (∃ c', Leads programs tasksAt c c' ∧ c'.sys.status = .done) ∧
    ∀ c', Leads programs tasksAt c c' → c'.sys.status = .done → ∀ i,
      heard i c'.sys.records = trapReport (BitVec.ofNat 64 i) :: programOutput i (lines i) (codes i) ∧
      (c'.sys.kernel.tasks i).exitCode = codes i ∧ (codes i).setWidth 32 = BitVec.ofNat 32 (status i) := by
  have performs : ∀ i, Performs (programs i) i (sizes i) (initialContext i) (images i) (lines i) (codes i) ∧
      (codes i).setWidth 32 = BitVec.ofNat 32 (status i) := by
    intro i
    obtain ⟨ran, run, performs, code⟩ := compiled i
    obtain rfl := Option.some_inj.1 (run.symm.trans (ends i).1)
    exact ⟨performs, code⟩
  have follows : ∀ i k, Follows (programs i) i (sizes i) (lines i) (codes i)
      (alone (programs i) i (sizes i) (images i) k) := fun i => Follows.alone (ends i).2 (performs i).1
  have behaves : ∀ i, Behaves (programs i) i (sizes i) (images i) := fun i => (performs i).1.behaves (ends i).2
  have halts : ∀ i, ∃ k, (alone (programs i) i (sizes i) (images i) k).fate ≠ .running := fun i =>
    (performs i).1.ends []
  choose limit halts using halts
  -- what has come of an application alone, wherever the computer is
  have sees : ∀ {c turns}, Reached programs tasksAt sp sizes images turns c → c.sys.Inv sp ∧ ∀ i,
      c.Sees sizes i (alone (programs i) i (sizes i) (images i) (turns i)) := by
    intro c turns reached
    obtain ⟨inv, solos, sees, run⟩ := reached.refines few
    refine ⟨inv, fun i => ?_⟩
    have here := sees i
    rwa [run.alone i] at here
  obtain ⟨inv, here⟩ := sees reached
  refine ⟨fun i e at_ strikes masked => strikes.ok inv at_ (behaves i) (here i) masked,
    fun i => (here i).printed (follows i _), reached.leads few behaves halts (Nat.le_add_right (∑ i, limit i) _), ?_⟩
  intro c' leads done i
  obtain ⟨turns', reached'⟩ := leads.reached reached
  obtain ⟨inv', there⟩ := sees reached'
  have settled := inv'.settled
  rw [done] at settled
  obtain ⟨ended, task, output⟩ := (there i).ended inv' (settled.1 i)
  obtain ⟨fate, printed⟩ := (follows i _).exited_of ended
  refine ⟨by rw [output, printed], ?_, (performs i).2⟩
  rw [(there i).exitCode, fate]

/-- The three programs under the kernel: where the computer comes to rest, the console of
each is complete. -/
theorem Computer.programs_whole_mains : ∃ (programs : Fin 3 → Program) (images : Fin 3 → SlotMem) (c c' : Computer 3),
    Reached programs (fun _ => 0) 0xffffffc0000b0000 (fun _ => 1) images 0 c ∧ Leads programs (fun _ => 0) c c' ∧
      c'.sys.status = .done ∧ ∀ i, heard i c'.sys.records =
        trapReport (BitVec.ofNat 64 i) :: programOutput i (mainLogs i) (BitVec.ofNat 64 0) := by
  obtain ⟨⟨k, mem'⟩, boot⟩ := Option.isSome_iff_exists.1 bootExample_isSome
  have sizes : ∀ i : Fin 3, (1 : Word) =
      0xffffffc000090001 + BitVec.ofNat 64 i - (0xffffffc000090000 + BitVec.ofNat 64 i) := by decide
  have reached : Reached (fun i : Fin 3 => scribe i ⟨mainLogs i, 0⟩) (fun _ => 0) 0xffffffc0000b0000 (fun _ => 1)
      (fun i o => mem' (va (appImage i).toNat + o)) 0 ⟨Sys.start _ k _ (fun _ => 0) fun _ => 0, _, _⟩ :=
    .boots (.mk boot sizes fun _ _ => rfl)
  obtain ⟨-, -, rests, whole⟩ := Computer.programs_whole (by decide) mains_end
    (fun i => scribe_compiled (mains_end i) (mainLogs_few i)) reached
  obtain ⟨c', leads, done⟩ := rests
  exact ⟨_, _, _, c', reached, leads, done, fun i => (whole c' leads done i).1⟩

end

end MiaowOs
