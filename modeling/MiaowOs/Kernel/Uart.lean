import MiaowOs.Lib.Progress
import MiaowOs.Kernel.Console

/-!
# The serial line

`kernel/uart.c` and the transmitter that it feeds. The transmitter takes characters
out of its FIFO whenever it likes, also between the moment `uart_putc` finds room and
its store; a store to a full FIFO loses the character.
-/

namespace MiaowOs
open Bytes
open Progress (follow Resting follow_invariant resting_of_rounds)

/-- The transmitter. -/
structure Uart where
  fifo : List UInt8
  /-- What has left it. -/
  wire : List UInt8
  /-- What was stored while the FIFO was full. -/
  lost : List UInt8
deriving DecidableEq, Repr

/-- Where `uart_putc` is. -/
inductive PutcAt
  | poll
  | store
deriving DecidableEq, Repr

/-- The transmitter, and the processor with what it has yet to send. -/
structure SerialLine where
  uart : Uart
  pc : PutcAt
  rest : List UInt8
deriving DecidableEq, Repr

/-- Who acts. -/
inductive SerialAgent
  | processor
  | transmitter
deriving DecidableEq, Repr

section
variable (depth : Nat)

/-- The bits of `UARTFR` about the transmitter: it is busy (bit 3), its FIFO is full
(bit 5), or empty (bit 7). -/
def Uart.flagRegister (u : Uart) : Nat :=
  (if depth ≤ u.fifo.length then 1 <<< 5 else 0) ||| if u.fifo = [] then 1 <<< 7 else 1 <<< 3

/-- A store to `UARTDR`. -/
def Uart.store (u : Uart) (character : UInt8) : Uart :=
  if depth ≤ u.fifo.length then { u with lost := u.lost ++ [character] } else { u with fifo := u.fifo ++ [character] }

/-- The oldest character leaves the FIFO. -/
def Uart.transmit (u : Uart) : Uart :=
  match u.fifo with
  | [] => u
  | c :: fifo => { u with fifo, wire := u.wire ++ [c] }

/-- One pass of the loop of `uart_putc`, or its store, after which the caller goes on to
the next character. -/
def uartPutc (s : SerialLine) : SerialLine :=
  match s.rest, s.pc with
  | [], _ => s
  | _ :: _, .poll => if s.uart.flagRegister depth &&& 1 <<< 5 ≠ 0 then s else { s with pc := .store }
  | c :: rest, .store => { uart := s.uart.store depth c, pc := .poll, rest }

def serialStep : SerialAgent → SerialLine → SerialLine
  | .processor, s => uartPutc depth s
  | .transmitter, s => { s with uart := s.uart.transmit }

/-- All characters are on their way, in order: on the wire, in the FIFO, or yet to be
sent; and where `uart_putc` has found room there is room. -/
structure OnTheWay (text : List UInt8) (s : SerialLine) : Prop where
  order : s.uart.wire ++ s.uart.fifo ++ s.rest = text
  fits : s.uart.fifo.length ≤ depth
  room : s.pc = .store → s.rest ≠ [] → s.uart.fifo.length < depth
  lost : s.uart.lost = []

end

section
variable {depth : Nat} {u : Uart} {s : SerialLine} {text : List UInt8}

theorem flagRegister_full : u.flagRegister depth &&& 1 <<< 5 ≠ 0 ↔ depth ≤ u.fifo.length := by
  unfold Uart.flagRegister
  split_ifs with full empty empty
  · exact iff_of_true (by decide) full
  · exact iff_of_true (by decide) full
  · exact iff_of_false (by decide) full
  · exact iff_of_false (by decide) full

theorem uartPutc_full {c : UInt8} {rest : List UInt8} (full : depth ≤ u.fifo.length) :
    uartPutc depth ⟨u, .poll, c :: rest⟩ = ⟨u, .poll, c :: rest⟩ := if_pos (flagRegister_full.2 full)

theorem uartPutc_poll {c : UInt8} {rest : List UInt8} (room : u.fifo.length < depth) :
    uartPutc depth ⟨u, .poll, c :: rest⟩ = ⟨u, .store, c :: rest⟩ :=
  if_neg fun found => Nat.not_le.2 room (flagRegister_full.1 found)

theorem uartPutc_store {c : UInt8} {rest : List UInt8} (room : u.fifo.length < depth) :
    uartPutc depth ⟨u, .store, c :: rest⟩ = ⟨{ u with fifo := u.fifo ++ [c] }, .poll, rest⟩ := by
  show SerialLine.mk (u.store depth c) .poll rest = _
  rw [Uart.store, if_neg (Nat.not_le.2 room)]

/-- The processor, between any two steps of the transmitter. -/
theorem OnTheWay.processor (onWay : OnTheWay depth text s) : OnTheWay depth text (uartPutc depth s) := by
  obtain ⟨u, pc, rest⟩ := s
  cases rest with
  | nil => exact onWay
  | cons c rest =>
    cases pc with
    | poll =>
      rcases Nat.lt_or_ge u.fifo.length depth with room | full
      · rw [uartPutc_poll room]
        exact ⟨onWay.order, onWay.fits, fun _ _ => room, onWay.lost⟩
      · rw [uartPutc_full full]
        exact onWay
    | store =>
      have room : u.fifo.length < depth := onWay.room rfl (List.cons_ne_nil c rest)
      rw [uartPutc_store room]
      refine ⟨?_, ?_, fun stored => (by cases stored), onWay.lost⟩
      · have order : u.wire ++ u.fifo ++ c :: rest = text := onWay.order
        show u.wire ++ (u.fifo ++ [c]) ++ rest = text
        rw [← order, ← List.append_assoc u.wire, List.append_assoc _ [c], List.singleton_append]
      · show (u.fifo ++ [c]).length ≤ depth
        rw [List.length_append]
        exact room

/-- The transmitter only makes room. -/
theorem OnTheWay.transmitter (onWay : OnTheWay depth text s) :
    OnTheWay depth text { s with uart := s.uart.transmit } := by
  obtain ⟨⟨fifo, wire, lost⟩, pc, rest⟩ := s
  cases fifo with
  | nil => exact onWay
  | cons c fifo =>
    have order : wire ++ c :: fifo ++ rest = text := onWay.order
    have fits : fifo.length + 1 ≤ depth := onWay.fits
    refine ⟨?_, Nat.le_of_succ_le fits, fun _ _ => fits, onWay.lost⟩
    show wire ++ [c] ++ fifo ++ rest = text
    rw [← order, List.append_assoc wire, List.singleton_append]

theorem OnTheWay.step {agent : SerialAgent} (onWay : OnTheWay depth text s) :
    OnTheWay depth text (serialStep depth agent s) := by
  cases agent with
  | processor => exact onWay.processor
  | transmitter => exact onWay.transmitter

/-- Steps of the two until all is sent. -/
def SerialLine.rank (s : SerialLine) : Nat :=
  3 * s.rest.length + s.uart.fifo.length + if s.pc = .poll then 1 else 0

theorem serialStep_rank (agent : SerialAgent) (s : SerialLine) :
    serialStep depth agent s = s ∨ (serialStep depth agent s).rank < s.rank := by
  obtain ⟨⟨fifo, wire, lost⟩, pc, rest⟩ := s
  cases agent with
  | transmitter =>
    cases fifo with
    | nil => exact .inl rfl
    | cons c fifo =>
      right
      have fewer : 3 * rest.length + fifo.length < 3 * rest.length + (fifo.length + 1) := Nat.lt_succ_self _
      exact Nat.add_lt_add_right fewer _
  | processor =>
    cases rest with
    | nil => exact .inl rfl
    | cons c rest =>
      cases pc with
      | poll =>
        rcases Nat.lt_or_ge fifo.length depth with room | full
        · refine .inr ?_
          show (uartPutc depth ⟨⟨fifo, wire, lost⟩, .poll, c :: rest⟩).rank < _
          rw [uartPutc_poll room]
          exact Nat.lt_succ_self _
        · exact .inl (uartPutc_full full)
      | store =>
        right
        have stored : (Uart.store depth ⟨fifo, wire, lost⟩ c).fifo.length ≤ fifo.length + 1 := by
          unfold Uart.store
          split
          · exact Nat.le_succ _
          · exact (List.length_append ..).le
        show 3 * rest.length + (Uart.store depth ⟨fifo, wire, lost⟩ c).fifo.length + 1 <
          3 * (rest.length + 1) + fifo.length + 0
        omega

/-- Who waits while something is left does not wait for ever. -/
theorem Resting.sent (deep : 0 < depth) (resting : Resting (serialStep depth) s) : s.uart.fifo = [] ∧ s.rest = [] := by
  obtain ⟨⟨fifo, wire, lost⟩, pc, rest⟩ := s
  have empty : fifo = [] := by
    cases fifo with
    | nil => rfl
    | cons c fifo =>
      have same := congrArg (fun s => s.uart.fifo.length) (resting .transmitter)
      exact absurd same (Nat.ne_of_lt (Nat.lt_succ_self fifo.length))
  refine ⟨empty, ?_⟩
  cases rest with
  | nil => rfl
  | cons c rest =>
    have same := resting .processor
    cases pc with
    | poll =>
      have room : (Uart.mk fifo wire lost).fifo.length < depth := by
        rw [empty]
        exact deep
      cases (uartPutc_poll room).symm.trans same
    | store =>
      have moved := congrArg (fun s => s.rest.length) same
      exact absurd moved (Nat.ne_of_lt (Nat.lt_succ_self rest.length))

/-- **The serial line**: nothing is lost, doubled or moved under any schedule of the
processor and the transmitter, and all is sent after so many rounds of both. -/
theorem serial_line (text : List UInt8) (deep : 0 < depth) (fits : u.fifo.length ≤ depth) (clean : u.lost = []) :
    (∀ schedule, OnTheWay depth (u.wire ++ u.fifo ++ text) (follow (serialStep depth) schedule ⟨u, .poll, text⟩)) ∧
    ∀ rounds : List (List SerialAgent), (∀ round ∈ rounds, ∀ agent, agent ∈ round) →
      3 * text.length + u.fifo.length < rounds.length →
      (follow (serialStep depth) rounds.flatten ⟨u, .poll, text⟩).uart = ⟨[], u.wire ++ u.fifo ++ text, []⟩ := by
  have onWay : ∀ schedule, OnTheWay depth (u.wire ++ u.fifo ++ text)
      (follow (serialStep depth) schedule ⟨u, .poll, text⟩) := fun schedule =>
    follow_invariant (fun _ _ here => here.step) ⟨rfl, fits, fun stored => (by cases stored), clean⟩
  refine ⟨onWay, fun rounds all enough => ?_⟩
  have resting := resting_of_rounds (@serialStep_rank depth) all
    (show (SerialLine.mk u .poll text).rank ≤ rounds.length from enough)
  obtain ⟨order, -, -, lost⟩ := onWay rounds.flatten
  generalize follow (serialStep depth) rounds.flatten ⟨u, .poll, text⟩ = s at resting order lost
  obtain ⟨⟨fifo, wire, gone⟩, pc, rest⟩ := s
  obtain ⟨empty, sent⟩ := Resting.sent deep resting
  dsimp only at empty sent order lost
  rw [empty, sent, List.append_nil, List.append_nil] at order
  rw [empty, order, lost]

end

/-! ## The console of the system -/

/-- What an effect sends when the counter is at `ticks`. -/
def Effect.text (frequency ticks : Nat) : Effect → List UInt8
  | .printk format args => stamp ticks frequency ++ formatted (chars format) (messageArgs args)
  | .uartPutc c => [c]
  | _ => []

/-- What the effects send, each at its own count. -/
def transcript (frequency : Nat) (counted : List (Nat × Effect)) : List UInt8 :=
  counted.flatMap fun x => x.2.text frequency x.1

/-- For a message this is what `printk` gives to `uart_puts`, wherever its buffer lies. -/
def PrintkSends (frequency ticks : Nat) (x : Effect) : Prop :=
  ∀ format args, x = .printk format args → ∀ mem buffer, buffer + 256 ≤ 2 ^ 64 → ∃ mem' len,
    printk mem buffer ticks frequency (chars format) (messageArgs args) = some (mem', x.text frequency ticks, len)

theorem printkSends_of_whole {x : Effect} {frequency ticks : Nat} (whole : x.Whole) (pos : 0 < frequency)
    (word : frequency < 2 ^ 32) : PrintkSends frequency ticks x := by
  rintro format args rfl mem buffer fits
  have sent : SentWhole format args := whole
  obtain ⟨mem', len, run, -⟩ := sent.2 buffer ticks frequency mem pos word fits
  exact ⟨mem', len, run⟩

section
variable {n : Nat} {starts ends : Fin n → Word} {inputs : TimerInputs} {tasksAt : Fin n → Word} {s s' : Sys n}

/-- A run, and possibly one more exception: in a panic it is the last one. -/
def Sys.Upto (tasksAt : Fin n → Word) (s s' : Sys n) : Prop :=
  Runs tasksAt s s' ∨ ∃ s₁ running e, Runs tasksAt s s₁ ∧ s' = s₁.handle tasksAt running e

theorem Sys.Upto.spoken (run : Sys.Upto tasksAt s s') (spoken : s.Spoken) : s'.Spoken := by
  rcases run with run | ⟨s₁, running, e, run, rfl⟩
  · exact run.spoken spoken
  · exact (run.spoken spoken).step

/-- **What the console shows.** Everything the kernel says from `start_kernel` on, in every
run, reaches the wire in the order in which it was said and whole, however fast the
transmitter is and whenever it acts; and all of it is sent after so many rounds of
the processor and the transmitter. -/
theorem console_wire [NeZero n] {kernelEnd fdtPointer : Nat} {mem : Mem} {regs : BootRegs} {m : MemState}
    {quantum cntpCtl sp : Word} {k : Kernel n} {cells : Word → Word} {clobbered : Fin 31 → Word}
    {counted : List (Nat × Effect)} {frequency depth : Nat} {u : Uart}
    (boot : (startKernel kernelEnd fdtPointer mem regs ⟨quantum, cntpCtl, []⟩ starts ends inputs).run = some (some (m, k)))
    (run : Sys.Upto tasksAt (Sys.start tasksAt k sp cells clobbered) s)
    (said : counted.map Prod.snd = k.board.trace ++ s.records.reverse.flatMap Record.effects)
    (pos : 0 < frequency) (word : frequency < 2 ^ 32) (deep : 0 < depth) (fits : u.fifo.length ≤ depth)
    (clean : u.lost = []) :
    (∀ x ∈ counted, PrintkSends frequency x.1 x.2) ∧
    (∀ schedule, OnTheWay depth (u.wire ++ u.fifo ++ transcript frequency counted)
      (follow (serialStep depth) schedule ⟨u, .poll, transcript frequency counted⟩)) ∧
    ∀ rounds : List (List SerialAgent), (∀ round ∈ rounds, ∀ agent, agent ∈ round) →
      3 * (transcript frequency counted).length + u.fifo.length < rounds.length →
      (follow (serialStep depth) rounds.flatten ⟨u, .poll, transcript frequency counted⟩).uart =
        ⟨[], u.wire ++ u.fifo ++ transcript frequency counted, []⟩ := by
  have booted := (startKernel_speaks boot).known fun x none => absurd none List.not_mem_nil
  have spoken := run.spoken ⟨booted, fun r none => absurd none List.not_mem_nil⟩
  refine ⟨fun x mem => ?_, serial_line _ deep fits clean⟩
  have effect : x.2 ∈ k.board.trace ++ s.records.reverse.flatMap Record.effects :=
    said ▸ List.mem_map_of_mem mem
  rcases List.mem_append.1 effect with early | late
  · exact printkSends_of_whole (booted _ early).whole pos word
  · obtain ⟨r, here, effect⟩ := List.mem_flatMap.1 late
    exact printkSends_of_whole (spoken.records r (List.mem_reverse.1 here) _ effect).whole pos word

/-- The messages of a boot, through a FIFO for a single character. -/
theorem console_wire_boot : ∃ m k, (startKernel (va 0x40100000) 0 (fun _ => 0x2a) ⟨4, 0, 0, 0⟩ ⟨0, 0, []⟩
      (fun i : Fin 3 => 0xffffffc000090000 + BitVec.ofNat 64 i) (fun i => 0xffffffc000090001 + BitVec.ofNat 64 i)
      ⟨0, 0, 0, 0, 62500000⟩).run = some (some (m, k)) ∧
    ∀ schedule, (follow (serialStep 1) schedule
      ⟨⟨[], [], []⟩, .poll, transcript 62500000 (k.board.trace.map fun x => (0, x))⟩).uart.lost = [] := by
  obtain ⟨m, k, boot⟩ := exampleBoot
  have said : ((k.board.trace.map fun x => (0, x)).map Prod.snd : List Effect) = k.board.trace := by
    rw [List.map_map]
    exact List.map_id _
  have none : k.board.trace = k.board.trace ++ (Sys.start (fun _ => 0) k 0 (fun _ => 0) (fun _ => 0)).records.reverse.flatMap
      Record.effects := (List.append_nil _).symm
  obtain ⟨-, onWay, -⟩ := console_wire (u := ⟨[], [], []⟩) boot (.inl .refl) (said.trans none)
    (show 0 < 62500000 by decide) (by decide) Nat.zero_lt_one (Nat.zero_le 1) rfl
  exact ⟨m, k, boot, fun schedule => (onWay schedule).lost⟩

end

end MiaowOs
