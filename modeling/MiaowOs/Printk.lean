import MiaowOs.Number

/-!
# `lib/printk.c`

`printk` writes its time stamp and then the message behind it, with two calls of
`vsnprintf` that share one buffer, and sends the buffer to the console.
-/

namespace MiaowOs
open Bytes

/-- The characters `uart_puts` sends: those up to the terminator, which stands among the
next `n`. -/
def uartText (mem : Mem) : Nat → Nat → Option (List UInt8)
  | 0, _ => none
  | n + 1, text => if mem text = 0 then some [] else (uartText mem n (text + 1)).map (mem text :: ·)

/-- The format of the time stamp: `"[%5lu.%06lu] "`. -/
def stampFormat : List UInt8 := ['[', '%', '5', 'l', 'u', '.', '%', '0', '6', 'l', 'u', ']', ' '].map chr

def printkSeconds (ticks frequency : Nat) : Nat := ticks / frequency

def printkMicros (ticks frequency : Nat) : Nat := ticks % frequency * 1000000 % 2 ^ 64 / frequency

/-- The arguments of the time stamp. -/
def stampArgs (ticks frequency : Nat) : Nat → Arg
  | 0 => ⟨BitVec.ofNat 64 (printkSeconds ticks frequency), []⟩
  | _ => ⟨BitVec.ofNat 64 (printkMicros ticks frequency), []⟩

/-- An `int` as `size_t`. -/
def sizeOfInt (n : Int) : Nat := (n % 2 ^ 64).toNat

/-- `printk` with its buffer at `buffer`: the memory, what is sent to the
console, and the value it returns. -/
def printk (mem : Mem) (buffer ticks frequency : Nat) (fmt : List UInt8) (args : Nat → Arg) :
    Option (Mem × List UInt8 × Int) := do
  let stamped ← vsnprintf mem buffer 256 stampFormat (stampArgs ticks frequency)
  let length := stamped.2
  let written ← vsnprintf stamped.1 (add64 buffer (sizeOfInt length)) (sub64 256 (sizeOfInt length)) fmt args
  let sent ← uartText written.1 256 buffer
  return (written.1, sent, int32 (length + written.2))

/-- The text of the time stamp. -/
def stamp (ticks frequency : Nat) : List UInt8 := formatted stampFormat (stampArgs ticks frequency)

/-! ## The time stamp -/

section
variable {σ : Type} {emit : σ → Piece → σ} {o : σ} {ticks frequency : Nat}

/-- The microseconds are less than a second. -/
theorem printkMicros_lt (pos : 0 < frequency) (word : frequency < 2 ^ 32) : printkMicros ticks frequency < 1000000 := by
  have low : ticks % frequency < frequency := Nat.mod_lt _ pos
  have small : ticks % frequency * 1000000 < 2 ^ 64 := by omega
  unfold printkMicros
  rw [Nat.mod_eq_of_lt small, Nat.div_lt_iff_lt_mul pos, Nat.mul_comm]
  exact Nat.mul_lt_mul_of_pos_left low (by decide)

/-- What the format of the time stamp does with its arguments. -/
theorem formatLoop_stamp (args : Nat → Arg) : formatLoop emit stampFormat args (stampFormat.length + 1) 0 0 o =
    some (putAll emit [chr ']', chr ' '] (number emit (emit (number emit (emit o (.char (chr '[')))
      (args 0).word .dec 5 (-1) 0) (.char (chr '.'))) (args 1).word .dec 6 (-1) zeroPadFlag)) := rfl

theorem putAll_collect (s : List UInt8) (ps : List Piece) : putAll collect s ps = ps ++ s.map .char := by
  induction s generalizing ps with
  | nil => exact (List.append_nil ps).symm
  | cons c s ih => rw [putAll, ih, collect, List.append_assoc, List.map_cons, List.singleton_append]

/-- A doubleword has at most 20 decimal digits. -/
theorem length_numeral_le (num : BitVec 64) : (numeral .dec num.toNat).length ≤ 20 := by
  unfold numeral
  split
  · decide
  · rw [List.length_reverse]
    apply (Nat.digits_length_le_iff (show 1 < Base.dec.radix by decide) num.toNat).2
    exact num.isLt.trans (by decide)

/-- An unsigned decimal conversion without a prefix. -/
theorem number_unsigned {width : Int} {type : Nat} (num : BitVec 64) (low : 0 ≤ width) (high : width ≤ 20)
    (unsigned : type &&& signFlag = 0) (bare : type &&& specialFlag = 0) :
    ∃ text : List UInt8, text.length ≤ 20 ∧
      ∀ {σ : Type} (emit : σ → Piece → σ) (o : σ), number emit o num .dec width (-1) type = putAll emit text o := by
  have sign : signText num type = [] := if_pos unsigned
  have pre : prefixText .dec type = [] := if_pos bare
  have shown : magnitude num type = num.toNat := if_pos unsigned
  have digits := length_numeral_le num
  have loops : padLoops type ≤ 3 := by
    unfold padLoops
    split_ifs <;> omega
  have body : bodyLength num .dec (-1) type (numeral .dec num.toNat).length ≤ 20 := by
    unfold bodyLength
    rw [sign, pre]
    simp only [List.length_nil]
    omega
  refine ⟨numberText num .dec width (-1) type (numeral .dec num.toNat), ?_, ?_⟩
  · have length := @length_numberText num .dec width (-1) type (numeral .dec num.toNat)
    omega
  · intro σ emit o
    have range : IntRange num .dec width (-1) type := by
      refine ⟨by omega, ?_⟩
      rw [shown]
      omega
    rw [number_eq_putAll range, shown]

/-- The time stamp is plain text that fits in the buffer. -/
theorem stamp_spec (ticks frequency : Nat) :
    Plain stampFormat (stampArgs ticks frequency) ∧ 0 < (stamp ticks frequency).length ∧
      (stamp ticks frequency).length ≤ 44 := by
  obtain ⟨seconds, short, run⟩ := @number_unsigned 5 0 (stampArgs ticks frequency 0).word (by decide) (by decide) rfl rfl
  obtain ⟨micros, short', run'⟩ :=
    @number_unsigned 6 zeroPadFlag (stampArgs ticks frequency 1).word (by decide) (by decide) rfl rfl
  have text : pieces stampFormat (stampArgs ticks frequency) =
      (chr '[' :: seconds ++ chr '.' :: micros ++ [chr ']', chr ' ']).map .char := by
    unfold pieces
    rw [formatLoop_stamp, run, run', Option.getD_some]
    simp [putAll_collect, collect]
  constructor
  · intro p here
    rw [text] at here
    obtain ⟨c, -, rfl⟩ := List.mem_map.1 here
    exact Option.some_ne_none c
  · have chars : stamp ticks frequency = chr '[' :: seconds ++ chr '.' :: micros ++ [chr ']', chr ' '] := by
      unfold stamp formatted
      rw [text, List.filterMap_map]
      exact List.filterMap_some
    rw [chars]
    simp only [List.length_append, List.length_cons, List.length_nil]
    omega

end

/-! ## The buffer -/

section
variable {mem mem₁ mem₂ mem' : Mem} {buf buffer size n ticks frequency : Nat} {fmt text text₁ text₂ : List UInt8}
  {args : Nat → Arg} {len₁ len₂ : Int}

/-- Two texts one behind the other are one text. -/
theorem Formats.append (first : Formats mem mem₁ buf size text₁ len₁) (short : text₁.length < size)
    (second : Formats mem₁ mem₂ (buf + text₁.length) (size - text₁.length) text₂ len₂) :
    Formats mem mem₂ buf size (text₁ ++ text₂) (len₁ + len₂) := by
  have room : 0 < size - text₁.length := by omega
  refine ⟨?_, ?_, ?_, ?_⟩
  · rw [first.returned, second.returned, List.length_append, Nat.cast_add]
  · intro a out
    rw [second.outside a (by omega), first.outside a out]
  · intro some_ i lt
    rw [List.length_append] at lt
    rcases Nat.lt_or_ge i text₁.length with low | high
    · rw [second.outside _ (by omega), first.inside some_ i (by omega), List.getD_append _ _ _ _ low]
    · have here := second.inside room (i - text₁.length) (by omega)
      rw [show buf + text₁.length + (i - text₁.length) = buf + i by omega] at here
      rw [here, List.getD_append_right _ _ _ _ high]
  · intro _
    have last := second.terminated room
    rw [List.length_append, show min (text₁.length + text₂.length) (size - 1) =
      text₁.length + min text₂.length (size - text₁.length - 1) by omega, ← Nat.add_assoc]
    exact last

/-- The console gets the text up to the first zero. -/
theorem uartText_eq {mem : Mem} (chars : ∀ i < text.length, mem (buf + i) = text.getD i 0)
    (ends : mem (buf + text.length) = 0) (room : text.length < n) :
    uartText mem n buf = some (text.takeWhile (· ≠ 0)) := by
  induction text generalizing buf n with
  | nil =>
    obtain ⟨n, rfl⟩ := Nat.exists_eq_succ_of_ne_zero (show n ≠ 0 by omega)
    unfold uartText
    rw [if_pos (by simpa using ends)]
    rfl
  | cons c text ih =>
    rw [List.length_cons] at chars ends room
    obtain ⟨n, rfl⟩ := Nat.exists_eq_succ_of_ne_zero (show n ≠ 0 by omega)
    have first : mem buf = c := by simpa using chars 0 (by omega)
    unfold uartText
    rw [first]
    by_cases zero : c = 0
    · rw [if_pos zero, List.takeWhile_cons_of_neg (by simpa using zero)]
    · have rest : uartText mem n (buf + 1) = some (text.takeWhile (· ≠ 0)) := by
        apply ih
        · intro i lt
          have here := chars (i + 1) (by omega)
          rwa [List.getD_cons_succ, show buf + (i + 1) = buf + 1 + i by omega] at here
        · rwa [show buf + 1 + text.length = buf + (text.length + 1) by omega]
        · omega
      rw [if_neg zero, rest, List.takeWhile_cons_of_pos (by simpa using zero)]
      rfl

theorem Formats.uartText (formats : Formats mem mem' buf n text len₁) (pos : 0 < n) :
    MiaowOs.uartText mem' n buf = some ((text.take (n - 1)).takeWhile (· ≠ 0)) := by
  apply uartText_eq
  · intro i lt
    rw [List.length_take] at lt
    rw [formats.inside pos i (by omega), List.getD_eq_getElem?_getD, List.getD_eq_getElem?_getD,
      List.getElem?_take_of_lt (by omega)]
  · rw [List.length_take, Nat.min_comm]
    exact formats.terminated pos
  · rw [List.length_take]
    omega

/-- What is promised of `printk`: the microseconds are less than a second, it
writes to its buffer only, the buffer holds the first 255 characters of the time
stamp and the message, with a terminator, and they are sent to the console. -/
def PrintkBounded (buffer ticks frequency : Nat) (fmt : List UInt8) (args : Nat → Arg) : Prop :=
  printkMicros ticks frequency < 1000000 ∧
    ∀ mem, ∃ mem' len, printk mem buffer ticks frequency fmt args =
        some (mem', ((stamp ticks frequency ++ formatted fmt args).take 255).takeWhile (· ≠ 0), len) ∧
      Formats mem mem' buffer 256 (stamp ticks frequency ++ formatted fmt args) len

/-- `printk` by its two calls. -/
theorem printk_eq {n : Nat} (stamped : vsnprintf mem buffer 256 stampFormat (stampArgs ticks frequency) = some (mem₁, (n : Int)))
    (room : n ≤ 256) (fits : buffer + n < 2 ^ 64) : printk mem buffer ticks frequency fmt args =
      (vsnprintf mem₁ (buffer + n) (256 - n) fmt args).bind fun written =>
        (uartText written.1 256 buffer).bind fun sent => some (written.1, sent, int32 (n + written.2)) := by
  have size : sizeOfInt n = n := by
    unfold sizeOfInt
    omega
  unfold printk
  rw [stamped]
  simp only [Option.bind_eq_bind, Option.bind_some, size]
  rw [add64_of_lt fits, sub64_of_le room (by decide)]
  rfl

/-- The first call of `printk`. -/
theorem stamp_formats (mem : Mem) (fits : buffer + 256 ≤ 2 ^ 64) : ∃ mem₁,
    vsnprintf mem buffer 256 stampFormat (stampArgs ticks frequency) =
      some (mem₁, ((stamp ticks frequency).length : Int)) ∧
      Formats mem mem₁ buffer 256 (stamp ticks frequency) (stamp ticks frequency).length := by
  obtain ⟨plain, -, short⟩ := stamp_spec ticks frequency
  have bounded : Bounded buffer 256 stampFormat (stampArgs ticks frequency) := by
    apply (vsnprintf_bounded_iff plain (by omega) (by decide) fits _).2
    · constructor
      · intro _
        exact short.trans_lt (by decide)
      · show buffer + (stamp ticks frequency).length < 2 ^ 64
        omega
    · exact short.trans_lt (by decide)
  obtain ⟨mem₁, len, run, formats⟩ := bounded mem
  have returned : len = (stamp ticks frequency).length := formats.returned
  rw [returned] at run formats
  exact ⟨mem₁, run, formats⟩

/-- **When `printk` keeps to its buffer**: if the text, were it not cut off,
would end below the top of the address space. -/
theorem printkBounded_iff (pos : 0 < frequency) (word : frequency < 2 ^ 32) (fits : buffer + 256 ≤ 2 ^ 64)
    (plain : Plain fmt args) (range : (stamp ticks frequency ++ formatted fmt args).length < 2 ^ 31) :
    PrintkBounded buffer ticks frequency fmt args ↔
      buffer + (stamp ticks frequency ++ formatted fmt args).length < 2 ^ 64 := by
  obtain ⟨-, low, short⟩ := stamp_spec ticks frequency
  rw [List.length_append] at range ⊢
  constructor
  · intro bounded
    by_contra wrap
    -- what is written to address 0 does not depend on what stood there
    obtain ⟨mem₀, _, run₀, formats₀⟩ := bounded.2 fun _ => 0
    obtain ⟨mem₁, _, run₁, formats₁⟩ := bounded.2 fun _ => 1
    have kept₀ := formats₀.outside 0 (by omega)
    have kept₁ := formats₁.outside 0 (by omega)
    obtain ⟨mem₀', first₀, -⟩ := @stamp_formats buffer ticks frequency (fun _ => 0) fits
    obtain ⟨mem₁', first₁, -⟩ := @stamp_formats buffer ticks frequency (fun _ => 1) fits
    have ends := @bufferEnd_eq (buffer + (stamp ticks frequency).length) (256 - (stamp ticks frequency).length) (by omega)
      (by omega) (by omega)
    rw [printk_eq first₀ (by omega) (by omega), vsnprintf_eq plain (by omega) ends (by omega), Option.bind_some,
      Option.bind_eq_some_iff] at run₀
    rw [printk_eq first₁ (by omega) (by omega), vsnprintf_eq plain (by omega) ends (by omega), Option.bind_some,
      Option.bind_eq_some_iff] at run₁
    obtain ⟨_, -, same₀⟩ := run₀
    obtain ⟨_, -, same₁⟩ := run₁
    have written₀ := (Prod.mk.inj (Option.some_inj.1 same₀)).1
    have written₁ := (Prod.mk.inj (Option.some_inj.1 same₁)).1
    dsimp only at written₀ written₁
    rw [← written₀] at kept₀
    rw [← written₁, wrap_reaches_zero (by omega) (by omega) (by omega), kept₀] at kept₁
    cases kept₁
  · intro nowrap
    refine ⟨printkMicros_lt pos word, ?_⟩
    intro mem
    obtain ⟨mem₁, first, formats₁⟩ := @stamp_formats buffer ticks frequency mem fits
    have bounded : Bounded (buffer + (stamp ticks frequency).length) (256 - (stamp ticks frequency).length) fmt args := by
      apply (vsnprintf_bounded_iff plain (by omega) (by omega) (by omega) (by omega)).2
      constructor
      · omega
      · omega
    obtain ⟨mem₂, len, second, formats₂⟩ := bounded mem₁
    have formats := formats₁.append (by omega) formats₂
    refine ⟨mem₂, _, ?_, formats⟩
    rw [printk_eq first (by omega) (by omega), second, Option.bind_some, formats.uartText (by decide), formats₂.returned,
      ← Nat.cast_add, int32_of_lt range]
    rfl

end

/-- **Bounded formatting.** `vsnprintf` keeps to its buffer exactly if the buffer
is not at the null address, or the text fits there, and the text ends below the
top of the address space; and `printk` exactly if its text does. -/
theorem formatting_bounded_iff (fmt : List UInt8) (args : Nat → Arg) (plain : Plain fmt args) :
    (∀ buf size, buf < 2 ^ 64 → size < 2 ^ 64 → buf + size ≤ 2 ^ 64 → (formatted fmt args).length < 2 ^ 31 →
      (Bounded buf size fmt args ↔
        (buf = 0 → (formatted fmt args).length < size) ∧ buf + (formatted fmt args).length < 2 ^ 64)) ∧
    ∀ buffer ticks frequency, ticks < 2 ^ 64 → 0 < frequency → frequency < 2 ^ 32 → buffer + 256 ≤ 2 ^ 64 →
      (stamp ticks frequency ++ formatted fmt args).length < 2 ^ 31 →
      (PrintkBounded buffer ticks frequency fmt args ↔
        buffer + (stamp ticks frequency ++ formatted fmt args).length < 2 ^ 64) := by
  constructor
  · intro buf size word word' fits range
    exact vsnprintf_bounded_iff plain word word' fits range
  · intro buffer ticks frequency _ pos word fits range
    exact printkBounded_iff pos word fits plain range

/-- A short message, in a small buffer and through `printk` at tick 0. -/
theorem formatting_bounded_ok :
    Bounded 4096 2 [chr 'o', chr 'k'] (fun _ => ⟨0, []⟩) ∧ PrintkBounded 4096 0 1 [chr 'o', chr 'k'] fun _ => ⟨0, []⟩ := by
  have text : pieces [chr 'o', chr 'k'] (fun _ => ⟨0, []⟩) = [.char (chr 'o'), .char (chr 'k')] := rfl
  have plain : Plain [chr 'o', chr 'k'] (fun _ => ⟨0, []⟩) := by
    intro p here
    rw [text] at here
    rcases List.mem_pair.1 here with rfl | rfl
    · exact Option.some_ne_none _
    · exact Option.some_ne_none _
  have length : (formatted [chr 'o', chr 'k'] fun _ => ⟨0, []⟩).length = 2 := rfl
  have short := (stamp_spec 0 1).2.2
  constructor
  · apply ((formatting_bounded_iff _ _ plain).1 4096 2 (by decide) (by decide) (by decide) (by rw [length]; decide)).2
    rw [length]
    decide
  · have total : (stamp 0 1 ++ formatted [chr 'o', chr 'k'] fun _ => ⟨0, []⟩).length ≤ 46 := by
      rw [List.length_append, length]
      omega
    apply ((formatting_bounded_iff _ _ plain).2 4096 0 1 (by decide) (by decide) (by decide) (by decide) (by omega)).2
    omega

/-- `vsnprintf(NULL, 0, "")` writes a terminator to address 0. -/
theorem vsnprintf_null_writes : Plain [] (fun _ => ⟨0, []⟩) ∧ formatted [] (fun _ => ⟨0, []⟩) = [] ∧
    ¬ Bounded 0 0 [] fun _ => ⟨0, []⟩ := by
  have plain : Plain [] (fun _ => ⟨0, []⟩) := by
    intro p here
    cases here
  exact ⟨plain, rfl, not_bounded_null plain (by decide) (by decide) (Nat.zero_le _)⟩

end MiaowOs
