import MiaowOs.Lib.Sieve
import MiaowOs.FormatLanguage
import MiaowOs.Kernel.Task

/-!
# The applications

The three programs under `apps/`, by what they log and the status they return. A
buffer is the list of the characters written to it so far; a write past its end is
`none`. The arithmetic wraps as the C types do, at `2 ^ 32` and `2 ^ 64`.
-/

namespace MiaowOs

/-! ## `app.h` -/

/-- The loop of `log_text`: the characters before the terminator. -/
def textLength : List UInt8 → Nat
  | [] => 0
  | c :: text => if c = 0 then 0 else textLength text + 1

/-- `log_text`. -/
def logText (text : List UInt8) : List UInt8 := text.take (textLength text)

/-- `buffer[length++] = c`, with room for `size` characters. -/
def push (size : Nat) (buffer : List UInt8) (c : UInt8) : Option (List UInt8) :=
  if buffer.length < size then some (buffer ++ [c]) else none

/-- The loop of `log_value` over the label. -/
def labelLoop : List UInt8 → List UInt8 → Option (List UInt8)
  | [], buffer => some buffer
  | c :: label, buffer =>
    if c ≠ 0 ∧ buffer.length < 74 then do
      let buffer ← push 96 buffer c
      labelLoop label buffer
    else some buffer

/-- The `do` loop of `log_value`, with `fuel` iterations left. -/
def digitsLoop : Nat → Nat → List UInt8 → Option (List UInt8)
  | 0, _, _ => none
  | fuel + 1, value, digits => do
    let digits ← push 20 digits (chr '0' + UInt8.ofNat (value % 10))
    if value / 10 = 0 then return digits else digitsLoop fuel (value / 10) digits

/-- The loop of `log_value` that writes the digits, the last one first. -/
def reverseLoop : List UInt8 → List UInt8 → Option (List UInt8)
  | [], buffer => some buffer
  | c :: digits, buffer => do
    let buffer ← push 96 buffer c
    reverseLoop digits buffer

/-- `log_value`: what it logs. -/
def logValue (label : List UInt8) (value : Nat) : Option (List UInt8) := do
  let buffer ← labelLoop label []
  let digits ← digitsLoop (value + 1) value []
  let buffer ← reverseLoop digits.reverse buffer
  push 96 buffer (chr '\n')

/-! ## What `log_value` writes -/

section
variable {label buffer digits : List UInt8} {c : UInt8} {value fuel : Nat}

theorem push_eq {size : Nat} (lt : buffer.length < size) : push size buffer c = some (buffer ++ [c]) := if_pos lt

theorem logText_cons : logText (c :: label) = if c = 0 then [] else c :: logText label := by
  unfold logText
  by_cases zero : c = 0
  · rw [textLength, if_pos zero, if_pos zero, List.take_zero]
  · rw [textLength, if_neg zero, if_neg zero, List.take_succ_cons]

/-- A label is cut at 74 characters. -/
theorem labelLoop_eq (le : buffer.length ≤ 74) : labelLoop label buffer =
    some (buffer ++ (logText label).take (74 - buffer.length)) := by
  induction label generalizing buffer with
  | nil => simp [labelLoop, logText, textLength]
  | cons c label ih =>
    rw [labelLoop]
    by_cases more : c ≠ 0 ∧ buffer.length < 74
    · obtain ⟨some, room⟩ := more
      obtain ⟨left, eq⟩ := Nat.exists_eq_add_of_lt room
      have next : 74 - buffer.length = (74 - (buffer ++ [c]).length) + 1 := by
        rw [List.length_append, List.length_singleton]
        omega
      rw [if_pos ⟨some, room⟩, push_eq (by omega), next]
      simp only [Option.bind_eq_bind, Option.bind_some]
      rw [ih (by rw [List.length_append, List.length_singleton]; omega), logText_cons, if_neg some,
        List.take_succ_cons, List.append_assoc]
      rfl
    · rw [if_neg more]
      have none : (logText (c :: label)).take (74 - buffer.length) = [] := by
        rcases not_and_or.1 more with zero | full
        · rw [logText_cons, if_pos (not_ne_iff.1 zero), List.take_nil]
        · rw [show 74 - buffer.length = 0 by omega, List.take_zero]
      rw [none, List.append_nil]

theorem reverseLoop_eq (le : buffer.length + digits.length ≤ 96) : reverseLoop digits buffer = some (buffer ++ digits) := by
  induction digits generalizing buffer with
  | nil => rw [reverseLoop, List.append_nil]
  | cons c digits ih =>
    rw [List.length_cons] at le
    rw [reverseLoop, push_eq (by omega)]
    simp only [Option.bind_eq_bind, Option.bind_some]
    rw [ih (by rw [List.length_append, List.length_singleton]; omega), List.append_assoc]
    rfl

/-- The digits of a number, the last one first. -/
theorem decimal_reverse (value : Nat) : (decimal value).reverse =
    (chr '0' + UInt8.ofNat (value % 10)) :: if value / 10 = 0 then [] else (decimal (value / 10)).reverse := by
  have char : ∀ d < 10, smallDigits.getD d 0 = chr '0' + UInt8.ofNat d := by decide
  have last := char (value % 10) (Nat.mod_lt _ (by decide))
  unfold decimal numeral
  rw [← List.map_reverse]
  by_cases zero : value = 0
  · subst zero
    rfl
  · rw [if_neg zero, List.reverse_reverse, show Base.dec.radix = 10 from rfl,
      Nat.digits_def' (by decide) (Nat.pos_of_ne_zero zero), List.map_cons, last]
    by_cases small : value / 10 = 0
    · rw [if_pos small, small]
      rfl
    · rw [if_neg small, if_neg small, ← List.map_reverse, List.reverse_reverse]

theorem digitsLoop_eq (enough : value < fuel) (room : digits.length + (decimal value).length ≤ 20) :
    digitsLoop fuel value digits = some (digits ++ (decimal value).reverse) := by
  induction fuel generalizing value digits with
  | zero => omega
  | succ fuel ih =>
    have split := decimal_reverse value
    have length := congrArg List.length split
    rw [List.length_reverse, List.length_cons] at length
    rw [digitsLoop, push_eq (by omega), split]
    simp only [Option.bind_eq_bind, Option.bind_some]
    by_cases last : value / 10 = 0
    · rw [if_pos last, if_pos last]
      rfl
    · rw [if_neg last, List.length_reverse] at length
      rw [if_neg last, if_neg last, ih (by omega) (by rw [List.length_append, List.length_singleton]; omega),
        List.append_assoc]
      rfl

/-- **`log_value`** never leaves its buffers, and logs the first 74 characters of its
label, the number in decimal, and a newline. -/
theorem logValue_eq (label : List UInt8) (word : value < 2 ^ 64) :
    logValue label value = some ((logText label).take 74 ++ decimal value ++ [chr '\n']) ∧
      ((logText label).take 74 ++ decimal value ++ [chr '\n']).length ≤ 95 := by
  have many : (decimal value).length ≤ 20 := by
    have digits := length_numeral_le (BitVec.ofNat 64 value)
    rw [BitVec.toNat_ofNat, Nat.mod_eq_of_lt word] at digits
    rwa [decimal, List.length_map]
  have cut : ((logText label).take 74).length ≤ 74 := List.length_take_le 74 _
  have text := @labelLoop_eq label [] (by decide)
  rw [List.length_nil, Nat.sub_zero, List.nil_append] at text
  constructor
  · rw [logValue, text]
    simp only [Option.bind_eq_bind, Option.bind_some]
    rw [digitsLoop_eq (Nat.lt_succ_self value) (by rw [List.length_nil]; omega), List.nil_append]
    simp only [Option.bind_some, List.reverse_reverse]
    rw [reverseLoop_eq (by omega)]
    simp only [Option.bind_some]
    exact push_eq (by rw [List.length_append]; omega)
  · rw [List.length_append, List.length_append, List.length_singleton]
    omega

end

/-! ## The programs -/

/-- What a program has logged when `app_main` returns, and the status. -/
structure Ran where
  logs : List (List UInt8)
  status : Nat
deriving DecidableEq, Repr

/-- The progress line of a loop. -/
def progress (label : List UInt8) (step number : Nat) (logs : List (List UInt8)) : Option (List (List UInt8)) :=
  if number % step = 0 then do
    let line ← logValue label number
    return logs ++ [line]
  else some logs

/-- The loop the programs share, with `fuel` iterations left: while `more number`,
add `term number` to the total and log `shown number` as progress. The counter and
the total have `width` bits. -/
def programLoop (width : Nat) (more : Nat → Bool) (term : Nat → Option Nat) (shown : Nat → Nat) (label : List UInt8)
    (step : Nat) : Nat → Nat → Nat → List (List UInt8) → Option (Nat × List (List UInt8))
  | 0, _, _, _ => none
  | fuel + 1, number, total, logs =>
    if more number then do
      let part ← term number
      let logs ← progress label step (shown number) logs
      programLoop width more term shown label step fuel ((number + 1) % 2 ^ width) ((total + part) % 2 ^ width) logs
    else some (total, logs)

/-- The status of a program. -/
def verdict (total expected : Nat) : Nat := if total = expected then 0 else 1

/-- The end of `app_main`: the result line and the status. -/
def finish (label : List UInt8) (expected total : Nat) (logs : List (List UInt8)) : Option Ran := do
  let line ← logValue label total
  return ⟨logs ++ [line], verdict total expected⟩

/-- `app_main` of `sequence.c`, up to its constants. -/
def sequence (limit step expected : Nat) : Option Ran := do
  let (total, logs) ← programLoop 64 (· ≤ limit) some id (chars "sequence progress=") step (limit + 1) 1 0
    [logText (chars "sequence start\n")]
  finish (chars "sequence result=") expected total logs

/-- `app_main` of `sequence.c`. -/
def sequenceMain : Option Ran := sequence 3000000 1000000 4500001500000

/-- `app_main` of `checksum.c`, up to its constants. -/
def checksum (limit step expected : Nat) : Option Ran := do
  let (total, logs) ← programLoop 32 (· < limit) (fun number => some (number &&& 255))
    (fun number => (number + 1) % 2 ^ 32) (chars "checksum progress=") step (limit + 1) 0 0
    [logText (chars "checksum start\n")]
  finish (chars "checksum result=") expected total logs

/-- `app_main` of `checksum.c`. -/
def checksumMain : Option Ran := checksum 4000000 1000000 510000000

/-- The inner loop of `primes.c` from `divisor` on: `prime` after it. -/
def divisorLoop (candidate : Nat) : Nat → Nat → Option Bool
  | 0, _ => none
  | fuel + 1, divisor =>
    if divisor * divisor % 2 ^ 32 ≤ candidate then
      if candidate % divisor = 0 then some false else divisorLoop candidate fuel ((divisor + 1) % 2 ^ 32)
    else some true

/-- `app_main` of `primes.c`, up to its constants. -/
def primes (limit step expected : Nat) : Option Ran := do
  let (total, logs) ← programLoop 32 (· ≤ limit) (fun candidate => (divisorLoop candidate candidate 2).map Bool.toNat)
    id (chars "primes progress=") step (limit + 1) 2 0 [logText (chars "primes start\n")]
  finish (chars "primes result=") expected total logs

/-- `app_main` of `primes.c`. -/
def primesMain : Option Ran := primes 100000 25000 9592

/-! ## What the programs log and return -/

/-- The line `log_value` writes. -/
def valueLine (label : List UInt8) (value : Nat) : List UInt8 :=
  (logText label).take 74 ++ decimal value ++ [chr '\n']

/-- The progress lines of a loop that shows these numbers. -/
def progressLines (label : List UInt8) (step : Nat) (shown : List Nat) : List (List UInt8) :=
  (shown.filter (· % step = 0)).map (valueLine label)

/-- The multiples of `step` from `first` up to `limit`. -/
def milestones (first step limit : Nat) : List Nat :=
  ((List.range' 1 (limit / step)).map (· * step)).filter (first ≤ ·)

/-- The logs of a whole program, whose loop shows the numbers from `first` on. -/
def programLogs (start label result : List UInt8) (first step limit total : Nat) : List (List UInt8) :=
  [logText start] ++ (milestones first step limit).map (valueLine label) ++ [valueLine result total]

/-- A program ends, inside its buffers, with this status: it has logged these lines,
each of a length that `sys_log` takes. -/
def Ends (run : Option Ran) (logs : List (List UInt8)) (status : Nat) : Prop :=
  run = some ⟨logs, status⟩ ∧ ∀ line ∈ logs, 0 < line.length ∧ line.length ≤ logLimit.toNat

section
variable {width first count step fuel total number expected : Nat} {more : Nat → Bool} {term : Nat → Option Nat}
  {shown amount : Nat → Nat} {label : List UInt8} {logs : List (List UInt8)}

theorem progress_eq (word : number < 2 ^ 64) :
    progress label step number logs = some (logs ++ progressLines label step [number]) := by
  unfold progress progressLines
  by_cases due : number % step = 0
  · rw [if_pos due, (logValue_eq label word).1, List.filter_cons_of_pos (by simpa using due)]
    rfl
  · rw [if_neg due, List.filter_cons_of_neg (by simpa using due), List.filter_nil, List.map_nil, List.append_nil]

/-- The loop, where its counter does not wrap. -/
theorem programLoop_eq (word : first + count < 2 ^ width)
    (runs : ∀ i, i ≤ count → (more (first + i) = true ↔ i < count))
    (terms : ∀ i < count, term (first + i) = some (amount (first + i))) (small : ∀ i < count, shown (first + i) < 2 ^ 64)
    (enough : count < fuel) (bits : total < 2 ^ width) :
    programLoop width more term shown label step fuel first total logs =
      some ((total + ∑ i ∈ Finset.range count, amount (first + i)) % 2 ^ width,
        logs ++ progressLines label step ((List.range' first count).map shown)) := by
  induction count generalizing first total logs fuel with
  | zero =>
    obtain ⟨fuel, rfl⟩ := Nat.exists_eq_add_of_lt enough
    have stop : ¬ more first = true := fun on => absurd ((runs 0 le_rfl).1 on) (lt_irrefl 0)
    rw [Nat.zero_add, programLoop, if_neg stop, Finset.range_zero, Finset.sum_empty, Nat.add_zero, Nat.mod_eq_of_lt bits]
    simp [progressLines]
  | succ count ih =>
    obtain ⟨fuel, rfl⟩ : ∃ f, fuel = f + 1 := ⟨fuel - 1, by omega⟩
    have go : more first = true := (runs 0 (Nat.zero_le _)).2 (Nat.succ_pos _)
    have next : (first + 1) % 2 ^ width = first + 1 := Nat.mod_eq_of_lt (by omega)
    have shift : ∀ i, first + 1 + i = first + (i + 1) := fun i => by omega
    rw [programLoop, if_pos go, show term first = some (amount first) from terms 0 (Nat.succ_pos _)]
    simp only [Option.bind_eq_bind, Option.bind_some]
    rw [show progress label step (shown first) logs = _ from progress_eq (small 0 (Nat.succ_pos _))]
    simp only [Option.bind_some]
    rw [next, ih (by omega) (fun i le => by rw [shift, runs (i + 1) (by omega)]; omega)
      (fun i lt => by rw [shift, terms (i + 1) (by omega)]) (fun i lt => by rw [shift]; exact small (i + 1) (by omega))
      (by omega) (Nat.mod_lt _ (Nat.two_pow_pos _)), Nat.mod_add_mod, Finset.sum_range_succ', List.range'_succ]
    simp only [shift, Nat.add_zero, List.map_cons]
    congr 2
    · congr 1
      omega
    · rw [List.append_assoc, progressLines, progressLines, progressLines, ← List.map_append, ← List.filter_append]
      rfl

/-- The multiples of a step. -/
theorem multiples_eq {limit : Nat} (pos : 0 < step) :
    (List.range' 1 limit).filter (· % step = 0) = (List.range' 1 (limit / step)).map (· * step) := by
  induction limit with
  | zero => rw [Nat.zero_div]; rfl
  | succ limit ih =>
    rw [List.range'_1_concat, List.filter_append, ih, Nat.add_comm 1 limit, Nat.succ_div]
    by_cases due : step ∣ limit + 1
    · have last : (limit / step + 1) * step = limit + 1 := by
        obtain ⟨q, eq⟩ := due
        have quotient := @Nat.succ_div limit step
        rw [if_pos ⟨q, eq⟩, eq, Nat.mul_div_cancel_left q pos] at quotient
        rw [← quotient, eq, Nat.mul_comm]
      rw [if_pos due, List.filter_cons_of_pos (by simpa using Nat.mod_eq_zero_of_dvd due), List.range'_1_concat, List.map_append,
        List.map_singleton, Nat.add_comm 1, last]
      rfl
    · rw [if_neg due, List.filter_cons_of_neg (by simpa [Nat.dvd_iff_mod_eq_zero] using due)]
      exact List.append_nil _

/-- The numbers a loop shows as progress. -/
theorem milestones_eq {limit : Nat} (pos : 0 < step) (start : 0 < first) :
    (List.range' first (limit + 1 - first)).filter (· % step = 0) = milestones first step limit := by
  have tail : (List.range' 1 limit).filter (first ≤ ·) = List.range' first (limit + 1 - first) := by
    induction limit with
    | zero => rw [show 0 + 1 - first = 0 by omega]; rfl
    | succ limit ih =>
      rw [List.range'_1_concat, List.filter_append, ih, Nat.add_comm 1 limit]
      by_cases inside : first ≤ limit + 1
      · rw [List.filter_cons_of_pos (by simpa using inside), List.filter_nil,
          show limit + 1 + 1 - first = (limit + 1 - first) + 1 by omega, List.range'_1_concat,
          show first + (limit + 1 - first) = limit + 1 by omega]
      · rw [List.filter_cons_of_neg (by simpa using inside), List.filter_nil, List.append_nil,
          show limit + 1 - first = 0 by omega, show limit + 1 + 1 - first = 0 by omega]
  rw [milestones, ← multiples_eq pos, ← tail, List.filter_filter, List.filter_filter]
  simp only [Bool.and_comm]

theorem valueLine_length (word : number < 2 ^ 64) :
    0 < (valueLine label number).length ∧ (valueLine label number).length ≤ logLimit.toNat := by
  refine ⟨?_, le_trans (logValue_eq label word).2 (by decide)⟩
  rw [valueLine, List.length_append, List.length_singleton]
  exact Nat.succ_pos _

/-- What a program does, from what its loop does. -/
theorem finish_ends {start result : List UInt8} {limit : Nat} (bound : limit < 2 ^ 64) (word : total < 2 ^ 64)
    (some : 0 < (logText start).length) (short : (logText start).length ≤ 256) :
    Ends (finish result expected total ([logText start] ++ (milestones first step limit).map (valueLine label)))
      (programLogs start label result first step limit total) (verdict total expected) := by
  constructor
  · rw [finish, (logValue_eq result word).1]
    rfl
  · intro line mem
    rw [programLogs, List.mem_append, List.mem_append, List.mem_singleton, List.mem_singleton, List.mem_map] at mem
    obtain (rfl | ⟨number, mem, rfl⟩) | rfl := mem
    · exact ⟨some, short⟩
    · obtain ⟨q, inside, rfl⟩ := List.mem_map.1 (List.mem_of_mem_filter mem)
      have le := (List.mem_range'_1.1 inside).2
      have below := Nat.mul_le_mul_right step (show q ≤ limit / step by omega)
      exact valueLine_length (lt_of_le_of_lt (le_trans below (Nat.div_mul_le_self limit step)) bound)
    · exact valueLine_length word

/-- `sequence.c` sums the numbers up to the limit. -/
theorem sequence_ends {limit : Nat} (pos : 0 < step) (word : limit + 1 < 2 ^ 64) :
    Ends (sequence limit step expected)
      (programLogs (chars "sequence start\n") (chars "sequence progress=") (chars "sequence result=") 1 step limit
        (limit * (limit + 1) / 2 % 2 ^ 64)) (verdict (limit * (limit + 1) / 2 % 2 ^ 64) expected) := by
  have gauss : ∑ i ∈ Finset.range limit, (1 + i) = limit * (limit + 1) / 2 := by
    have twice := Finset.sum_range_id_mul_two (limit + 1)
    rw [Finset.sum_range_succ', Nat.add_zero, Nat.add_sub_cancel] at twice
    simp only [Nat.add_comm 1]
    rw [Nat.mul_comm limit]
    omega
  have numbers := @milestones_eq 1 step limit pos Nat.one_pos
  rw [Nat.add_sub_cancel] at numbers
  rw [sequence, @programLoop_eq 64 1 limit step _ 0 _ _ id id _ _ (by omega)
    (fun i le => by rw [decide_eq_true_iff]; omega) (fun i lt => rfl) (fun i lt => by rw [id]; omega) (Nat.lt_succ_self _)
    (by decide), List.map_id, Nat.zero_add, progressLines, numbers]
  simp only [id, gauss, Option.bind_eq_bind, Option.bind_some]
  exact finish_ends (by omega) (Nat.mod_lt _ (by decide)) (by decide) (by decide)

/-- The sum of the low bytes of the numbers below a limit. -/
def lowBytes (limit : Nat) : Nat := limit / 256 * 32640 + (limit % 256) * (limit % 256 - 1) / 2

theorem lowBytes_eq (limit : Nat) : ∑ i ∈ Finset.range limit, (i &&& 255) = lowBytes limit := by
  have low : ∀ i, i &&& 255 = i % 256 := fun i => Nat.and_two_pow_sub_one_eq_mod i 8
  simp only [low, lowBytes]
  have part : ∑ i ∈ Finset.range limit, i % 256 = limit / 256 * 32640 + ∑ i ∈ Finset.range (limit % 256), i := by
    induction limit with
    | zero => rfl
    | succ limit ih =>
      rw [Finset.sum_range_succ, ih]
      by_cases last : limit % 256 = 255
      · rw [show (limit + 1) / 256 = limit / 256 + 1 by omega, show (limit + 1) % 256 = 0 by omega, last,
          show ∑ i ∈ Finset.range 255, i = 32385 by rw [Finset.sum_range_id], Finset.range_zero, Finset.sum_empty]
        omega
      · rw [show (limit + 1) / 256 = limit / 256 by omega, show (limit + 1) % 256 = limit % 256 + 1 by omega,
          Finset.sum_range_succ, Nat.add_assoc]
  rw [part, Finset.sum_range_id]

/-- `checksum.c` sums the low bytes of the numbers below the limit. -/
theorem checksum_ends {limit : Nat} (pos : 0 < step) (word : limit < 2 ^ 32) :
    Ends (checksum limit step expected)
      (programLogs (chars "checksum start\n") (chars "checksum progress=") (chars "checksum result=") 1 step limit
        (lowBytes limit % 2 ^ 32)) (verdict (lowBytes limit % 2 ^ 32) expected) := by
  have shown : (List.range' 0 limit).map (fun number => (number + 1) % 2 ^ 32) = List.range' 1 limit := by
    rw [show List.range' 1 limit = (List.range' 0 limit).map (1 + ·) from (List.map_add_range' 0 limit 1).symm]
    refine List.map_congr_left fun number mem => ?_
    have lt := List.mem_range'_1.1 mem
    rw [Nat.mod_eq_of_lt (by omega), Nat.add_comm]
  have numbers := @milestones_eq 1 step limit pos Nat.one_pos
  rw [Nat.add_sub_cancel] at numbers
  rw [checksum, @programLoop_eq 32 0 limit step _ 0 _ _ (fun number => (number + 1) % 2 ^ 32) (fun number => number &&& 255)
    _ _ (by omega) (fun i le => by rw [decide_eq_true_iff]; omega) (fun i lt => rfl)
    (fun i lt => lt_of_lt_of_le (Nat.mod_lt _ (by decide)) (by decide)) (Nat.lt_succ_self _) (by decide), shown,
    Nat.zero_add, progressLines, numbers]
  simp only [Nat.zero_add, lowBytes_eq, Option.bind_eq_bind, Option.bind_some]
  exact finish_ends (by omega) (lt_of_lt_of_le (Nat.mod_lt _ (by decide)) (by decide)) (by decide) (by decide)

/-- The inner loop of `primes.c` decides primality, while the square of its divisor
stays in 32 bits. -/
theorem divisorLoop_eq {candidate divisor : Nat} (low : 2 ≤ candidate) (small : candidate < 65535 ^ 2) (two : 2 ≤ divisor)
    (passed : ∀ d, 2 ≤ d → d < divisor → ¬ d ∣ candidate) (before : (divisor - 1) * (divisor - 1) ≤ candidate)
    (enough : candidate < divisor + fuel) : divisorLoop candidate fuel divisor = some (decide candidate.Prime) := by
  have bound : divisor - 1 < 65535 := by
    by_contra big
    have square := Nat.mul_le_mul (Nat.le_of_not_lt big) (Nat.le_of_not_lt big)
    omega
  have square := Nat.mul_le_mul (show divisor ≤ 65535 by omega) (show divisor ≤ 65535 by omega)
  induction fuel generalizing divisor with
  | zero =>
    have beyond := Nat.mul_le_mul (show candidate ≤ divisor - 1 by omega) (show 2 ≤ divisor - 1 by omega)
    omega
  | succ fuel ih =>
    rw [divisorLoop, Nat.mod_eq_of_lt (show divisor * divisor < 2 ^ 32 by omega)]
    by_cases inside : divisor * divisor ≤ candidate
    · have below : divisor < candidate := lt_of_lt_of_le (by nlinarith) inside
      rw [if_pos inside]
      by_cases divides : candidate % divisor = 0
      · rw [if_pos divides, decide_eq_false]
        exact Nat.not_prime_of_dvd_of_lt (Nat.dvd_of_mod_eq_zero divides) two below
      · have bound' : divisor < 65535 := by
          by_contra big
          have beyond := Nat.mul_le_mul (Nat.le_of_not_lt big) (Nat.le_of_not_lt big)
          omega
        rw [if_neg divides, Nat.mod_eq_of_lt (by omega)]
        refine ih (by omega) (fun d ge lt => ?_) inside (by omega) (by omega)
          (Nat.mul_le_mul (show divisor + 1 ≤ 65535 by omega) (show divisor + 1 ≤ 65535 by omega))
        rcases Nat.lt_succ_iff_lt_or_eq.1 lt with less | rfl
        · exact passed d ge less
        · exact fun dvd => divides (Nat.mod_eq_zero_of_dvd dvd)
    · rw [if_neg inside, decide_eq_true]
      refine Nat.prime_def_le_sqrt.2 ⟨low, fun d ge root => passed d ge ?_⟩
      by_contra big
      exact inside (le_trans (Nat.mul_le_mul (Nat.le_of_not_lt big) (Nat.le_of_not_lt big)) (Nat.le_sqrt.1 root))

/-- `primes.c` counts the primes up to the limit. -/
theorem primes_ends {limit : Nat} (pos : 0 < step) (small : limit < 65535 ^ 2) :
    Ends (primes limit step expected)
      (programLogs (chars "primes start\n") (chars "primes progress=") (chars "primes result=") 2 step limit
        limit.primeCounting) (verdict limit.primeCounting expected) := by
  have counted : ∀ k, ∑ i ∈ Finset.range k, (decide (2 + i).Prime).toNat = (2 + k).count Nat.Prime := by
    intro k
    induction k with
    | zero => rw [Finset.range_zero, Finset.sum_empty]; decide
    | succ k ih =>
      rw [Finset.sum_range_succ, ih, ← Nat.add_assoc, Nat.count_succ]
      by_cases prime : (2 + k).Prime <;> simp [prime]
  have count : ∑ i ∈ Finset.range (limit - 1), (decide (2 + i).Prime).toNat = limit.primeCounting := by
    rcases Nat.eq_zero_or_pos limit with rfl | pos
    · decide
    · rw [counted, show 2 + (limit - 1) = limit + 1 by omega]
      rfl
  have numbers := @milestones_eq 2 step limit pos Nat.two_pos
  rw [show limit + 1 - 2 = limit - 1 by omega] at numbers
  have few : limit.primeCounting ≤ limit + 1 := Nat.count_le _
  rw [primes, @programLoop_eq 32 2 (limit - 1) step _ 0 _ _ id (fun candidate => (decide candidate.Prime).toNat) _ _
    (by omega) (fun i le => by rw [decide_eq_true_iff]; omega)
    (fun i lt => by
      rw [divisorLoop_eq (by omega) (by omega) le_rfl (fun d ge lt => absurd ge (by omega)) (by omega) (by omega)]
      rfl)
    (fun i lt => by rw [id]; omega) (by omega) (by decide), List.map_id, Nat.zero_add, count, Nat.mod_eq_of_lt (by omega),
    progressLines, numbers]
  simp only [Option.bind_eq_bind, Option.bind_some]
  exact finish_ends (by omega) (by omega) (by decide) (by decide)

/-- The primes that `primes.c` counts. -/
theorem primeCounting_limit : (100000).primeCounting = 9592 := by
  have set : Sieve.ones 14 (Sieve.composites 100000 315 % 2 ^ (100000 + 1)) = 90407 := by decide +kernel
  have split := @Sieve.primeCounting_eq 14 315 100000 (by decide) (by decide) (by decide)
  rw [set] at split
  exact Nat.add_right_cancel (Nat.add_right_cancel (split.trans (show 100000 + 1 = 9592 + 90407 + 2 from rfl)))

/-- **The programs.** `log_value` never writes past its buffers, and logs its line. For
all positive steps and all expected totals, each program ends inside its buffers, with
the closed form of its total: `sequence.c` for every limit whose successor is a 64-bit
number, `checksum.c` for every 32-bit limit, and `primes.c` where the square of the
divisor does not wrap. -/
theorem programs_exact (limit step expected : Nat) :
    (∀ label value, value < 2 ^ 64 → logValue label value = some (valueLine label value) ∧
      (valueLine label value).length ≤ 95) ∧
    (0 < step → limit + 1 < 2 ^ 64 → Ends (sequence limit step expected)
      (programLogs (chars "sequence start\n") (chars "sequence progress=") (chars "sequence result=") 1 step limit
        (limit * (limit + 1) / 2 % 2 ^ 64)) (verdict (limit * (limit + 1) / 2 % 2 ^ 64) expected)) ∧
    (0 < step → limit < 2 ^ 32 → Ends (checksum limit step expected)
      (programLogs (chars "checksum start\n") (chars "checksum progress=") (chars "checksum result=") 1 step limit
        (lowBytes limit % 2 ^ 32)) (verdict (lowBytes limit % 2 ^ 32) expected)) ∧
    (0 < step → limit < 65535 ^ 2 → Ends (primes limit step expected)
      (programLogs (chars "primes start\n") (chars "primes progress=") (chars "primes result=") 2 step limit
        limit.primeCounting) (verdict limit.primeCounting expected)) :=
  ⟨fun label _ word => logValue_eq label word, sequence_ends, checksum_ends, primes_ends⟩

/-- The programs as they are: their totals are the ones they expect. -/
theorem programs_exact_mains :
    Ends sequenceMain (programLogs (chars "sequence start\n") (chars "sequence progress=") (chars "sequence result=")
      1 1000000 3000000 4500001500000) 0 ∧
    Ends checksumMain (programLogs (chars "checksum start\n") (chars "checksum progress=") (chars "checksum result=")
      1 1000000 4000000 510000000) 0 ∧
    Ends primesMain (programLogs (chars "primes start\n") (chars "primes progress=") (chars "primes result=")
      2 25000 100000 9592) 0 := by
  have sums := (programs_exact 3000000 1000000 4500001500000).2.1 (by decide) (by decide)
  have bytes := (programs_exact 4000000 1000000 510000000).2.2.1 (by decide) (by decide)
  have counts := (programs_exact 100000 25000 9592).2.2.2 (by decide) (by decide)
  rw [primeCounting_limit] at counts
  exact ⟨sums, bytes, counts⟩

end

end MiaowOs
