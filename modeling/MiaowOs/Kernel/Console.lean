import MiaowOs.FormatLanguage
import MiaowOs.Kernel.Start

/-!
# The console

Every message of the kernel is sent whole, whatever its arguments and whenever it
is sent, and no format asks for an argument that is not there. The messages are
found in the trace: those of the boot, those of every exception of every run, and
the one of a panic.
-/

namespace MiaowOs
open Bytes

/-- The arguments of a message, as `vsnprintf` takes them. -/
def messageArgs (args : List Word) (i : Nat) : Arg := ⟨args.getD i 0, []⟩

/-- The message reads no arguments but its own, and `printk` sends it whole behind the
time stamp and writes to its buffer only. -/
def SentWhole (format : String) (args : List Word) : Prop :=
  (∀ more : Nat → Arg, (∀ i < args.length, more i = messageArgs args i) →
    formatted (chars format) more = formatted (chars format) (messageArgs args)) ∧
  ∀ buffer ticks frequency mem, 0 < frequency → frequency < 2 ^ 32 → buffer + 256 ≤ 2 ^ 64 → ∃ mem' len,
    printk mem buffer ticks frequency (chars format) (messageArgs args) =
      some (mem', stamp ticks frequency ++ formatted (chars format) (messageArgs args), len) ∧
    Formats mem mem' buffer 256 (stamp ticks frequency ++ formatted (chars format) (messageArgs args)) len

/-- An effect that is a message is sent whole. -/
def Effect.Whole : Effect → Prop
  | .printk format args => SentWhole format args
  | _ => True

/-- The formats of the kernel, read. -/
def kernelFormats : List (List Item) :=
  [plainText (chars "PANIC EL1 ESR=") ++ [addressItem] ++ plainText (chars " FAR=") ++ [addressItem] ++
      plainText (chars " ELR=") ++ [addressItem] ++ plainText (chars "\n"),
    plainText (chars "ALL APPS DONE\n"),
    plainText (chars "[app ") ++ [unsignedItem] ++ plainText (chars "] TRAP origin=") ++ [addressItem] ++
      plainText (chars " handler=") ++ [addressItem] ++ plainText (chars "\n"),
    plainText (chars "[app ") ++ [unsignedItem] ++ plainText (chars "] FAULT ESR=") ++ [addressItem] ++
      plainText (chars " FAR=") ++ [addressItem] ++ plainText (chars " ELR=") ++ [addressItem] ++ plainText (chars "\n"),
    plainText (chars "[app ") ++ [unsignedItem] ++ plainText (chars "] EXIT status=") ++ [signedLongItem] ++
      plainText (chars "\n"),
    plainText (chars "LOADED app=") ++ [unsignedItem] ++ plainText (chars " image=") ++ [addressItem] ++
      plainText (chars " stack=") ++ [addressItem] ++ plainText (chars " copy=OK\n"),
    plainText (chars "TIMER frequency=") ++ [addressItem] ++ plainText (chars " quantum=") ++ [addressItem] ++
      plainText (chars "\n"),
    plainText (chars "BOOT EL=") ++ [unsignedItem] ++ plainText (chars " SCTLR=") ++ [addressItem] ++
      plainText (chars " VBAR=") ++ [addressItem] ++ plainText (chars " SP=") ++ [addressItem] ++
      plainText (chars " DTB=") ++ [addressItem] ++ plainText (chars "\n"),
    plainText (chars "BOOT OK\n"),
    plainText (chars "phy: ") ++ [addressItem] ++ plainText (chars "-") ++ [addressItem] ++ plainText (chars " map: ") ++
      [addressItem] ++ plainText (chars " dtb: ") ++ [addressItem] ++ plainText (chars "\n"),
    plainText (chars "resv: ") ++ [addressItem] ++ plainText (chars "-") ++ [addressItem] ++ plainText (chars "\n"),
    plainText (chars "tot: ") ++ [unsignedLongItem] ++ plainText (chars " pg = ") ++ [unsignedLongItem] ++
      plainText (chars " KiB, free: ") ++ [unsignedLongItem] ++ plainText (chars " pg = ") ++ [unsignedLongItem] ++
      plainText (chars " KiB\n")]

/-- A message is one of the kernel's, with the arguments its format takes. -/
def Effect.Known : Effect → Prop
  | .printk format args => ∃ items ∈ kernelFormats, chars format = spell items ∧ formatArity items = args.length
  | _ => True

/-- Every format of the kernel leaves room for the time stamp. -/
theorem kernelFormats_bounded : ∀ items ∈ kernelFormats, ∃ b ≤ 211, textBound items = some b := by
  have all : kernelFormats.all fun items => (textBound items).any (· ≤ 211) := by decide +kernel
  intro items mem
  have here := List.all_eq_true.1 all items mem
  cases bound : textBound items with
  | none =>
    rw [bound] at here
    cases here
  | some b =>
    rw [bound] at here
    exact ⟨b, of_decide_eq_true here, rfl⟩

theorem Effect.Known.whole {x : Effect} (known : x.Known) : x.Whole := by
  cases x with
  | printk format args =>
    obtain ⟨items, mem, spelled, arity⟩ := known
    obtain ⟨b, small, bound⟩ := kernelFormats_bounded items mem
    show SentWhole format args
    unfold SentWhole
    rw [spelled, ← arity]
    exact ⟨fun more same => formatted_congr same, fun buffer ticks frequency mem pos word fits =>
      printk_whole bound small pos word fits mem⟩
  | uartPutc c => exact trivial
  | userLoad address => exact trivial
  | msr register value => exact trivial
  | mmio address value => exact trivial

/-! ## What is added to a trace -/

/-- The messages added to the trace are known ones. -/
def Board.Speaks (b b' : Board) : Prop := ∃ l, b'.trace = b.trace ++ l ∧ ∀ x ∈ l, x.Known

variable {n : Nat}

section
variable {b b' b'' : Board} {k : Kernel n} {e : Event} {regs : PtRegs} {x : Effect}

namespace Board

theorem Speaks.refl : Speaks b b := ⟨[], (List.append_nil _).symm, fun _ none => absurd none List.not_mem_nil⟩

theorem Speaks.trans (h : Speaks b b') (h' : Speaks b' b'') : Speaks b b'' := by
  obtain ⟨l, trace, known⟩ := h
  obtain ⟨l', trace', known'⟩ := h'
  refine ⟨l ++ l', ?_, fun _ mem => (List.mem_append.1 mem).elim (known _) (known' _)⟩
  rw [trace', trace, List.append_assoc]

theorem Speaks.emit (known : x.Known) : Speaks b (b.emit x) := ⟨[x], rfl, List.forall_mem_singleton.2 known⟩

theorem Speaks.printk {format : String} {args : List Word}
    (known : ∃ items ∈ kernelFormats, chars format = spell items ∧ formatArity items = args.length) :
    Speaks b (b.printk format args) := .emit known

end Board

/-- A message is known by its place among the formats. -/
theorem known_at {format : String} {args : List Word} (place : Fin kernelFormats.length) (count : Nat)
    (spelled : chars format = spell (kernelFormats.get place)) (arity : formatArity (kernelFormats.get place) = count)
    (same : args.length = count) :
    ∃ items ∈ kernelFormats, chars format = spell items ∧ formatArity items = args.length :=
  ⟨_, List.get_mem _ place, spelled, arity.trans same.symm⟩

theorem panic_speaks : Board.Speaks k.board (k.panic e).1.board :=
  .printk (known_at ⟨0, by decide⟩ 3 (by decide +kernel) (by decide +kernel) rfl)

theorem timerRearm_speaks : Board.Speaks b (timerRearm b) := by
  refine ⟨_, timerRearm_trace, fun x mem => ?_⟩
  obtain rfl | rfl := List.mem_pair.1 mem
  · exact trivial
  · exact trivial

theorem timerStop_speaks : Board.Speaks b (timerStop b) :=
  ⟨_, timerStop_trace, List.forall_mem_singleton.2 trivial⟩

theorem timerInterrupt_speaks {interrupt : Word} {switch : Bool} (run : timerInterrupt b interrupt = some (b', switch)) :
    Board.Speaks b b' := by
  unfold timerInterrupt at run
  split at run
  · obtain ⟨rfl, -⟩ := Prod.mk.inj (Option.some_inj.1 run)
    exact .refl
  split at run
  · cases run
  · obtain ⟨rfl, -⟩ := Prod.mk.inj (Option.some_inj.1 run)
    exact timerRearm_speaks.trans (.emit trivial)

/-! ## One exception -/

theorem recordTrap_speaks : Board.Speaks k.board (recordTrap k regs e).board := by
  unfold recordTrap
  dsimp only
  split
  · exact .refl
  · exact .printk (known_at ⟨2, by decide⟩ 3 (by decide +kernel) (by decide +kernel) rfl)

theorem uartPuts_speaks {text : List UInt8} : Board.Speaks k.board (uartPuts k text).board := by
  unfold uartPuts
  induction text.takeWhile (· ≠ 0) generalizing k with
  | nil => exact .refl
  | cons c text ih =>
    have first : Board.Speaks k.board (k.emit (.uartPutc c)).board := .emit trivial
    exact first.trans ih

theorem logBytes_speaks {pointer : Word} {count i : Nat} :
    Board.Speaks k.board (logBytes e pointer count i k).board := by
  induction count generalizing i k with
  | zero => exact .refl
  | succ count ih =>
    have load : Board.Speaks k.board (k.emit (.userLoad (pointer + BitVec.ofNat 64 i))).board := .emit trivial
    have put : Board.Speaks (k.emit (.userLoad (pointer + BitVec.ofNat 64 i))).board
        ((k.emit (.userLoad (pointer + BitVec.ofNat 64 i))).emit
          (.uartPutc (e.bytes (pointer + BitVec.ofNat 64 i)))).board := .emit trivial
    exact (load.trans put).trans ih

theorem sysLog_speaks {task : TaskStruct} {pointer length : Word} :
    Board.Speaks k.board (sysLog k e task pointer length).1.board := by
  unfold sysLog
  split
  · exact .refl
  split
  · exact .refl
  split
  · exact .refl
  · exact uartPuts_speaks.trans logBytes_speaks

theorem schedule_speaks : Board.Speaks k.board (schedule k e).1.board := by
  unfold schedule
  split
  · exact timerRearm_speaks
  · dsimp only
    split
    · exact timerStop_speaks.trans panic_speaks
    · exact timerStop_speaks.trans (.printk (known_at ⟨1, by decide⟩ 0 (by decide +kernel) (by decide +kernel) rfl))

/-- A trap, whatever its outcome. -/
theorem trap_speaks {irq : Word} : Board.Speaks k.board (trap k regs irq e).1.board := by
  unfold trap
  split
  · exact panic_speaks
  have first := @recordTrap_speaks n k e regs
  generalize recordTrap k regs e = k₁ at first
  dsimp only
  split
  · split
    · exact first.trans panic_speaks
    · next board run => exact first.trans (timerInterrupt_speaks run)
    · next board run => exact (first.trans (timerInterrupt_speaks run)).trans schedule_speaks
  split
  · have report : Board.Speaks k₁.board (k₁.board.printk "[app %u] FAULT ESR=%016lx FAR=%016lx ELR=%016lx\n"
        [k₁.currentWord, e.esr, e.far, regs.pc]) :=
      .printk (known_at ⟨3, by decide⟩ 4 (by decide +kernel) (by decide +kernel) rfl)
    exact (first.trans report).trans schedule_speaks
  split
  · exact first.trans sysLog_speaks
  split
  · have report : Board.Speaks k₁.board
        (k₁.board.printk "[app %u] EXIT status=%ld\n" [k₁.currentWord, regs.regs 0]) :=
      .printk (known_at ⟨4, by decide⟩ 2 (by decide +kernel) (by decide +kernel) rfl)
    exact (first.trans report).trans schedule_speaks
  · exact first

end

/-! ## Runs -/

/-- All messages so far are known ones. -/
structure Sys.Spoken (s : Sys n) : Prop where
  trace : ∀ x ∈ s.kernel.board.trace, x.Known
  records : ∀ r ∈ s.records, ∀ x ∈ r.effects, x.Known

section
variable {tasksAt : Fin n → Word} {s s' : Sys n} {running : Fin n} {e : Event} {irq : Word}

theorem Board.Speaks.known {b b' : Board} (speaks : Board.Speaks b b') (known : ∀ x ∈ b.trace, x.Known) :
    ∀ x ∈ b'.trace, x.Known := by
  obtain ⟨l, trace, added⟩ := speaks
  rw [trace]
  exact fun x mem => (List.mem_append.1 mem).elim (known x) (added x)

theorem Sys.Spoken.dispatch (spoken : s.Spoken) : (s.dispatch tasksAt running e irq).Spoken := by
  unfold Sys.dispatch
  dsimp only
  generalize Cpu.exec _ _ = cpu
  have speaks := @trap_speaks n s.entered e (PtRegs.load cpu.mem (cpu.x 0)) (cpu.x 1)
  generalize trap s.entered (PtRegs.load cpu.mem (cpu.x 0)) (cpu.x 1) e = result at speaks
  have known := speaks.known (fun x none => absurd none List.not_mem_nil)
  refine ⟨known, fun r mem => ?_⟩
  rcases List.mem_cons.1 mem with rfl | mem
  · exact known
  · exact spoken.records r mem

/-- One exception, also one that ends in a panic. -/
theorem Sys.Spoken.step (spoken : s.Spoken) : (s.handle tasksAt running e).Spoken := by
  unfold Sys.handle
  split
  · exact spoken.dispatch
  · exact spoken.dispatch
  · have known := (@panic_speaks n s.kernel e).known spoken.trace
    refine ⟨known, fun r mem => ?_⟩
    rcases List.mem_cons.1 mem with rfl | mem
    · exact known
    · exact spoken.records r mem

theorem Runs.spoken (run : Runs tasksAt s s') (spoken : s.Spoken) : s'.Spoken := by
  induction run with
  | refl => exact spoken
  | step run at_ ok ih => exact ih.step

end

/-! ## The boot -/

section
variable {starts ends : Fin n → Word} {l l' : Loader n} {board board' : Board} {inputs : TimerInputs}

theorem loadApp_speaks {i : Fin n} (run : loadApp starts ends l i = some l') : Board.Speaks l.board l'.board := by
  unfold loadApp at run
  dsimp only at run
  split at run
  · cases run
  split at run
  · cases run
  · obtain rfl := Option.some_inj.1 run
    exact .printk (known_at ⟨5, by decide⟩ 3 (by decide +kernel) (by decide +kernel) rfl)

theorem loadApps_speaks {slots : List (Fin n)} (run : slots.foldlM (loadApp starts ends) l = some l') :
    Board.Speaks l.board l'.board := by
  induction slots generalizing l with
  | nil =>
    obtain rfl := Option.some_inj.1 run
    exact .refl
  | cons i slots ih =>
    rw [List.foldlM_cons] at run
    obtain ⟨l₁, step, rest⟩ := Option.bind_eq_some_iff.1 run
    exact (loadApp_speaks step).trans (ih rest)

theorem timerInit_speaks (run : timerInit board inputs = some board') : Board.Speaks board board' := by
  unfold timerInit at run
  dsimp only at run
  split at run
  · cases run
  · obtain rfl := Option.some_inj.1 run
    refine Board.Speaks.trans ?_ timerRearm_speaks
    refine Board.Speaks.trans ?_ (.printk (known_at ⟨6, by decide⟩ 2 (by decide +kernel) (by decide +kernel) rfl))
    have quantum : ∀ q (b : Board), Board.Speaks board b → Board.Speaks board { b with quantum := q } := fun _ _ h => h
    refine quantum _ _ ?_
    iterate 12 refine Board.Speaks.trans ?_ (.emit (by exact trivial))
    exact .refl

theorem startApps_speaks [NeZero n] {mem mem' : Mem} {k : Kernel n}
    (run : startApps mem board starts ends inputs = some (k, mem')) : Board.Speaks board k.board := by
  obtain ⟨l, loaded, rest⟩ := Option.bind_eq_some_iff.1 run
  obtain ⟨board', init, rest⟩ := Option.bind_eq_some_iff.1 rest
  obtain ⟨rfl, -⟩ := Prod.mk.inj (Option.some_inj.1 rest)
  exact (loadApps_speaks loaded).trans (timerInit_speaks init)

theorem bootMessages_speaks {regs : BootRegs} {fdtPointer : Nat} :
    Board.Speaks board (bootMessages regs fdtPointer board) := by
  have first : Board.Speaks board (board.printk "BOOT EL=%u SCTLR=%016lx VBAR=%016lx SP=%016lx DTB=%016lx\n"
      [regs.currentEl >>> 2, regs.sctlr, regs.vbar, regs.stack, BitVec.ofNat 64 (va fdtPointer)]) :=
    .printk (known_at ⟨7, by decide⟩ 5 (by decide +kernel) (by decide +kernel) rfl)
  exact first.trans (.printk (known_at ⟨8, by decide⟩ 0 (by decide +kernel) (by decide +kernel) rfl))

theorem memMessages_speaks {fdtPointer : Nat} {m : MemState} :
    Board.Speaks board (memMessages fdtPointer m board) := by
  have regions : ∀ (l : List Nat) (b : Board), Board.Speaks board b → Board.Speaks board (l.foldl (fun board i =>
      board.printk "resv: %016lx-%016lx\n" [BitVec.ofNat 64 (m.memblock.reserved.regions i).base,
        BitVec.ofNat 64 ((m.memblock.reserved.regions i).base + (m.memblock.reserved.regions i).size)]) b) := by
    intro l
    induction l with
    | nil => exact fun b speaks => speaks
    | cons i l ih =>
      intro b speaks
      exact ih _ (speaks.trans (.printk (known_at ⟨10, by decide⟩ 2 (by decide +kernel) (by decide +kernel) rfl)))
  refine Board.Speaks.trans (regions _ _ ?_)
    (.printk (known_at ⟨11, by decide⟩ 4 (by decide +kernel) (by decide +kernel) rfl))
  exact .printk (known_at ⟨9, by decide⟩ 4 (by decide +kernel) (by decide +kernel) rfl)

/-- All that is printed up to the first application. -/
theorem startKernel_speaks [NeZero n] {kernelEnd fdtPointer : Nat} {mem : Mem} {regs : BootRegs} {m : MemState}
    {k : Kernel n}
    (boot : (startKernel kernelEnd fdtPointer mem regs board starts ends inputs).run = some (some (m, k))) :
    Board.Speaks board k.board := by
  obtain ⟨m₀, mem', apps⟩ := startKernel_stages boot
  exact (bootMessages_speaks.trans memMessages_speaks).trans (startApps_speaks apps)

/-- **The console.** From the messages of `start_kernel` on, every message of a boot that
completes, of every exception of every run, and of the exception that ends it in a panic
has the arguments its format takes, and is sent whole. -/
theorem console_whole [NeZero n] {kernelEnd fdtPointer : Nat} {mem : Mem} {regs : BootRegs} {m : MemState}
    {quantum cntpCtl sp : Word} {k : Kernel n} {tasksAt : Fin n → Word} {cells : Word → Word}
    {clobbered : Fin 31 → Word} {s : Sys n}
    (boot : (startKernel kernelEnd fdtPointer mem regs ⟨quantum, cntpCtl, []⟩ starts ends inputs).run = some (some (m, k)))
    (run : Runs tasksAt (Sys.start tasksAt k sp cells clobbered) s) :
    (∀ x ∈ k.board.trace, x.Known ∧ x.Whole) ∧ (∀ r ∈ s.records, ∀ x ∈ r.effects, x.Known ∧ x.Whole) ∧
      ∀ running e, ∀ r ∈ (s.handle tasksAt running e).records, ∀ x ∈ r.effects, x.Known ∧ x.Whole := by
  have both : ∀ {x : Effect}, x.Known → x.Known ∧ x.Whole := fun known => ⟨known, known.whole⟩
  have booted := (startKernel_speaks boot).known fun x none => absurd none List.not_mem_nil
  have spoken := run.spoken ⟨booted, fun r none => absurd none List.not_mem_nil⟩
  refine ⟨fun x mem => both (booted x mem), fun r here x mem => both (spoken.records r here x mem),
    fun running e r here x mem => ?_⟩
  exact both (spoken.step.records r here x mem)

end

/-- A fast interrupt in the first application: the line of the panic has its three
arguments, and is sent whole. -/
theorem console_whole_panic :
    (∃ items ∈ kernelFormats, chars "PANIC EL1 ESR=%016lx FAR=%016lx ELR=%016lx\n" = spell items ∧
      formatArity items = 3) ∧ SentWhole "PANIC EL1 ESR=%016lx FAR=%016lx ELR=%016lx\n" [0x20, 0, 0x41000000] := by
  obtain ⟨m, k, boot⟩ := exampleBoot
  have start : Runs (fun _ => 0) (Sys.start (fun _ => 0) k 0 (fun _ => 0) (fun _ => 0)) _ := .refl
  obtain ⟨-, -, next⟩ := console_whole boot start
  exact next 0 { syncExample 0 0x20 with exception := .fiq } _ List.mem_cons_self _
    (List.mem_append_right _ (List.mem_singleton_self _))

end MiaowOs
