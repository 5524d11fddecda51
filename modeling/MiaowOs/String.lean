import MiaowOs.Memory
import MiaowOs.Lib.Bytes

/-!
# `lib/string.c`

`memset`, `memcpy` and `memmove` work on whole words while they can and on
single bytes for the rest. The loops run on a bound that their own condition
implies. Pointers are natural numbers: in a range that does not wrap they stay
below `2 ^ 64`, up to the one behind its last byte, which only `memmove` compares.
-/

namespace MiaowOs
open Bytes

/-- `WORD_SIZE`. -/
abbrev wordSize : Nat := 8

/-- The word loop of `memset`, with at most `n` iterations left: the memory,
the next address and the remaining size. -/
def memsetWords (pattern : Nat) : Nat → Mem → Nat → Nat → Mem × Nat × Nat
  | 0, mem, output, size => (mem, output, size)
  | n + 1, mem, output, size =>
    if wordSize ≤ size then memsetWords pattern n (store mem output wordSize pattern) (output + wordSize) (size - wordSize)
    else (mem, output, size)

/-- The byte loop of `memset`. -/
def memsetBytes (byte : UInt8) : Nat → Mem → Nat → Mem
  | 0, mem, _ => mem
  | size + 1, mem, output => memsetBytes byte size (put mem output byte) (output + 1)

/-- `memset`; the pointer it returns is its argument. -/
def memset (mem : Mem) (destination value size : Nat) : Mem :=
  let byte := UInt8.ofNat value
  let pattern := byte.toNat * 0x0101010101010101
  let (mem, output, size) := memsetWords pattern size mem destination size
  memsetBytes byte size mem output

section
variable {mem mem' : Mem} {output output' size size' value a n : Nat} {byte : UInt8}

theorem repeated_byte : ∀ v < 256, ∀ i < wordSize, v * 0x0101010101010101 / 256 ^ i % 256 = v := by
  decide +kernel

/-- Every byte of the word pattern is the byte. -/
theorem pattern_byte {i : Nat} (lt : i < wordSize) :
    UInt8.ofNat (byte.toNat * 0x0101010101010101 / 256 ^ i) = byte := by
  apply UInt8.toNat_inj.1
  rw [UInt8.toNat_ofNat']
  exact repeated_byte byte.toNat byte.toNat_lt i lt

/-- The bytes from `start` to `stop` hold `byte`, all others are as before. -/
def Filled (byte : UInt8) (mem mem' : Mem) (start stop : Nat) : Prop :=
  ∀ a, mem' a = if start ≤ a ∧ a < stop then byte else mem a

theorem memsetWords_spec (run : memsetWords (byte.toNat * 0x0101010101010101) n mem output size = (mem', output', size'))
    (enough : size ≤ n) : output' + size' = output + size ∧ output ≤ output' ∧ Filled byte mem mem' output output' := by
  induction n generalizing mem output size with
  | zero =>
    obtain ⟨rfl, rfl, rfl⟩ : mem = mem' ∧ output = output' ∧ size = size' := by simpa [memsetWords] using run
    exact ⟨rfl, le_rfl, fun a => by rw [if_neg (by omega)]⟩
  | succ n ih =>
    rw [memsetWords] at run
    by_cases more : wordSize ≤ size
    · rw [if_pos more] at run
      simp only [wordSize] at *
      obtain ⟨sum, le, filled⟩ := ih run (by omega)
      refine ⟨by omega, by omega, fun a => ?_⟩
      rw [filled a]
      by_cases later : output + 8 ≤ a ∧ a < output'
      · rw [if_pos later, if_pos (by omega)]
      · rw [if_neg later]
        by_cases here : output ≤ a ∧ a < output + 8
        · obtain ⟨i, rfl⟩ := Nat.exists_eq_add_of_le here.1
          rw [store_at (by omega), pattern_byte (by simp only [wordSize]; omega), if_pos (by omega)]
        · rw [store_of_not_mem (by omega), if_neg (by omega)]
    · rw [if_neg more] at run
      obtain ⟨rfl, rfl, rfl⟩ : mem = mem' ∧ output = output' ∧ size = size' := by simpa using run
      exact ⟨rfl, le_rfl, fun a => by rw [if_neg (by omega)]⟩

theorem memsetBytes_spec : Filled byte mem (memsetBytes byte size mem output) output (output + size) := by
  induction size generalizing mem output with
  | zero => exact fun a => by rw [if_neg (by omega)]; rfl
  | succ size ih =>
    intro a
    rw [memsetBytes, ih a]
    by_cases here : a = output
    · subst here
      rw [if_neg (by omega), put_self, if_pos (by omega)]
    · rw [put_of_ne here]
      by_cases later : output + 1 ≤ a ∧ a < output + 1 + size
      · rw [if_pos later, if_pos (by omega)]
      · rw [if_neg later, if_neg (by omega)]

/-- **`memset`** fills its range with the low byte of the value. -/
theorem memset_spec (mem : Mem) (destination value size : Nat) :
    Filled (UInt8.ofNat value) mem (memset mem destination value size) destination (destination + size) := by
  intro a
  rw [memset]
  generalize run : memsetWords _ size mem destination size = result
  obtain ⟨mem', output', size'⟩ := result
  obtain ⟨sum, le, filled⟩ := memsetWords_spec run le_rfl
  simp only []
  rw [memsetBytes_spec a, filled a]
  by_cases tail : output' ≤ a ∧ a < output' + size'
  · rw [if_pos tail, if_pos (by omega)]
  · rw [if_neg tail]
    by_cases words : destination ≤ a ∧ a < output'
    · rw [if_pos words, if_pos (by omega)]
    · rw [if_neg words, if_neg (by omega)]

end

/-! ## Copying -/

/-- The memory with the addresses that have been read, in order. -/
structure Bus where
  mem : Mem
  reads : List Nat

/-- `*(word_t *)output = *(const word_t *)input`, and the same for a byte. -/
def Bus.copy (b : Bus) (output input width : Nat) : Bus :=
  ⟨store b.mem output width (load b.mem input width), b.reads ++ List.range' input width⟩

/-- The word loop of `memcpy`, with at most `n` iterations left. -/
def memcpyWords : Nat → Bus → Nat → Nat → Nat → Bus × Nat × Nat × Nat
  | 0, b, output, input, size => (b, output, input, size)
  | n + 1, b, output, input, size =>
    if wordSize ≤ size then
      memcpyWords n (b.copy output input wordSize) (output + wordSize) (input + wordSize) (size - wordSize)
    else (b, output, input, size)

/-- The byte loop of `memcpy`. -/
def memcpyBytes : Nat → Bus → Nat → Nat → Bus
  | 0, b, _, _ => b
  | size + 1, b, output, input => memcpyBytes size (b.copy output input 1) (output + 1) (input + 1)

/-- `memcpy`. -/
def memcpy (b : Bus) (destination source size : Nat) : Bus × Nat :=
  let (b, output, input, size) := memcpyWords size b destination source size
  (memcpyBytes size b output input, destination)

/-- The word loop of `memmove`, downwards. -/
def memmoveWords : Nat → Bus → Nat → Nat → Nat → Bus × Nat × Nat × Nat
  | 0, b, output, input, size => (b, output, input, size)
  | n + 1, b, output, input, size =>
    if wordSize ≤ size then
      memmoveWords n (b.copy (output - wordSize) (input - wordSize) wordSize) (output - wordSize) (input - wordSize)
        (size - wordSize)
    else (b, output, input, size)

/-- The byte loop of `memmove`. -/
def memmoveBytes : Nat → Bus → Nat → Nat → Bus
  | 0, b, _, _ => b
  | size + 1, b, output, input => memmoveBytes size (b.copy (output - 1) (input - 1) 1) (output - 1) (input - 1)

/-- `memmove`. -/
def memmove (b : Bus) (destination source size : Nat) : Bus × Nat :=
  if destination = source ∨ size = 0 then (b, destination)
  else if destination < source ∨ add64 source size ≤ destination then memcpy b destination source size
  else
    let (b, output, input, size) := memmoveWords size b (destination + size) (source + size) size
    (memmoveBytes size b output input, destination)

/-- `memset` with the value it returns; it reads nothing. -/
def Bus.memset (b : Bus) (destination : Nat) (value : BitVec 32) (size : Nat) : Bus × Nat :=
  (⟨MiaowOs.memset b.mem destination value.toNat size, b.reads⟩, destination)

/-- The `size` bytes from `input` have been copied to `output`, nothing else has
changed, and nothing but them has been read. -/
structure Copied (b b' : Bus) (output input size : Nat) : Prop where
  bytes : ∀ a, b'.mem a = if output ≤ a ∧ a < output + size then b.mem (input + (a - output)) else b.mem a
  reads : ∃ seen, b'.reads = b.reads ++ seen ∧ ∀ a ∈ seen, input ≤ a ∧ a < input + size

section
variable {b b' : Bus} {output output' input input' size size' width n : Nat}

theorem Copied.none (b : Bus) (output input : Nat) : Copied b b output input 0 :=
  ⟨fun a => by rw [if_neg (by omega)], [], (List.append_nil _).symm, fun _ absurd => by cases absurd⟩

theorem Copied.same (b : Bus) (output size : Nat) : Copied b b output output size := by
  refine ⟨fun a => ?_, [], (List.append_nil _).symm, fun _ absurd => by cases absurd⟩
  split
  · congr 1
    omega
  · rfl

theorem copied_copy (b : Bus) (output input width : Nat) : Copied b (b.copy output input width) output input width := by
  refine ⟨fun a => store_load, List.range' input width, rfl, fun a here => ?_⟩
  rw [List.mem_range'_1] at here
  exact here

/-- A copy upwards: the rest of the source must not lie in what has been
written. -/
theorem Copied.forward (first : Copied b b' output input width) {b'' : Bus}
    (rest : Copied b' b'' (output + width) (input + width) size)
    (safe : output ≤ input ∨ input + width + size ≤ output) : Copied b b'' output input (width + size) := by
  obtain ⟨seen, reads, within⟩ := first.reads
  obtain ⟨seen', reads', within'⟩ := rest.reads
  refine ⟨fun a => ?_, seen ++ seen', by rw [reads', reads, List.append_assoc], fun a here => ?_⟩
  · rw [rest.bytes]
    by_cases later : output + width ≤ a ∧ a < output + width + size
    · rw [if_pos later, first.bytes, if_neg (by omega), if_pos (by omega)]
      congr 1
      omega
    · rw [if_neg later, first.bytes]
      by_cases here : output ≤ a ∧ a < output + width
      · rw [if_pos here, if_pos (by omega)]
      · rw [if_neg here, if_neg (by omega)]
  · rcases List.mem_append.1 here with now | later
    · have := within a now
      omega
    · have := within' a later
      omega

/-- A copy downwards. -/
theorem Copied.backward (first : Copied b b' (output + size) (input + size) width) {b'' : Bus}
    (rest : Copied b' b'' output input size) (safe : input ≤ output) : Copied b b'' output input (size + width) := by
  obtain ⟨seen, reads, within⟩ := first.reads
  obtain ⟨seen', reads', within'⟩ := rest.reads
  refine ⟨fun a => ?_, seen ++ seen', by rw [reads', reads, List.append_assoc], fun a here => ?_⟩
  · rw [rest.bytes]
    by_cases low : output ≤ a ∧ a < output + size
    · rw [if_pos low, first.bytes, if_neg (by omega), if_pos (by omega)]
    · rw [if_neg low, first.bytes]
      by_cases here : output + size ≤ a ∧ a < output + size + width
      · rw [if_pos here, if_pos (by omega)]
        congr 1
        omega
      · rw [if_neg here, if_neg (by omega)]
  · rcases List.mem_append.1 here with now | later
    · have := within a now
      omega
    · have := within' a later
      omega

/-- The word loop of `memcpy` copies the bytes it leaves behind. -/
theorem memcpyWords_spec (run : memcpyWords n b output input size = (b', output', input', size')) (enough : size ≤ n)
    (safe : output ≤ input ∨ input + size ≤ output) : ∃ done, size = done + size' ∧ output' = output + done ∧
      input' = input + done ∧ Copied b b' output input done := by
  induction n generalizing b output input size with
  | zero =>
    obtain ⟨rfl, rfl, rfl, rfl⟩ : b = b' ∧ output = output' ∧ input = input' ∧ size = size' := by
      simpa [memcpyWords] using run
    exact ⟨0, by omega, rfl, rfl, Copied.none b output input⟩
  | succ n ih =>
    rw [memcpyWords] at run
    by_cases more : wordSize ≤ size
    · rw [if_pos more] at run
      simp only [wordSize] at *
      obtain ⟨done, left, out, inp, rest⟩ := ih run (by omega) (by omega)
      exact ⟨8 + done, by omega, by omega, by omega, (copied_copy b output input 8).forward rest (by omega)⟩
    · rw [if_neg more] at run
      obtain ⟨rfl, rfl, rfl, rfl⟩ : b = b' ∧ output = output' ∧ input = input' ∧ size = size' := by simpa using run
      exact ⟨0, by omega, rfl, rfl, Copied.none b output input⟩

theorem memcpyBytes_spec (safe : output ≤ input ∨ input + size ≤ output) :
    Copied b (memcpyBytes size b output input) output input size := by
  induction size generalizing b output input with
  | zero => exact Copied.none b output input
  | succ size ih =>
    have rest : Copied (b.copy output input 1) (memcpyBytes size (b.copy output input 1) (output + 1) (input + 1))
        (output + 1) (input + 1) size := ih (by omega)
    have whole := (copied_copy b output input 1).forward rest (by omega)
    rw [Nat.add_comm 1 size] at whole
    exact whole

/-- `memcpy` copies, if the source lies above the destination or does not reach
up to it. -/
theorem memcpy_spec (safe : output ≤ input ∨ input + size ≤ output) :
    Copied b (memcpy b output input size).1 output input size := by
  unfold memcpy
  generalize run : memcpyWords size b output input size = result
  obtain ⟨b', output', input', size'⟩ := result
  obtain ⟨done, rfl, rfl, rfl, words⟩ := memcpyWords_spec run le_rfl safe
  exact words.forward (memcpyBytes_spec (by omega)) (by omega)

/-- The word loop of `memmove` copies from the end what it leaves behind. -/
theorem memmoveWords_spec (run : memmoveWords n b (output + size) (input + size) size = (b', output', input', size'))
    (enough : size ≤ n) (safe : input ≤ output) : ∃ done, size = size' + done ∧ output' = output + size' ∧
      input' = input + size' ∧ Copied b b' (output + size') (input + size') done := by
  induction n generalizing b size with
  | zero =>
    obtain ⟨rfl, rfl, rfl, rfl⟩ : b = b' ∧ output + size = output' ∧ input + size = input' ∧ size = size' := by
      simpa [memmoveWords] using run
    exact ⟨0, by omega, rfl, rfl, Copied.none b _ _⟩
  | succ n ih =>
    rw [memmoveWords] at run
    by_cases more : wordSize ≤ size
    · rw [if_pos more] at run
      simp only [wordSize] at *
      rw [Nat.add_sub_assoc more, Nat.add_sub_assoc more] at run
      obtain ⟨done, left, out, inp, rest⟩ := ih run (by omega)
      refine ⟨done + 8, by omega, out, inp, ?_⟩
      apply Copied.backward _ rest (by omega)
      rw [show output + size' + done = output + (size - 8) by omega, show input + size' + done = input + (size - 8) by omega]
      exact copied_copy b _ _ 8
    · rw [if_neg more] at run
      obtain ⟨rfl, rfl, rfl, rfl⟩ : b = b' ∧ output + size = output' ∧ input + size = input' ∧ size = size' := by
        simpa using run
      exact ⟨0, by omega, rfl, rfl, Copied.none b _ _⟩

theorem memmoveBytes_spec (safe : input ≤ output) :
    Copied b (memmoveBytes size b (output + size) (input + size)) output input size := by
  induction size generalizing b with
  | zero => exact Copied.none b output input
  | succ size ih => exact (copied_copy b (output + size) (input + size) 1).backward ih safe

/-- **`memmove`** copies, however its ranges overlap. -/
theorem memmove_spec (fits : output + size ≤ 2 ^ 64) (fits' : input + size ≤ 2 ^ 64) :
    Copied b (memmove b output input size).1 output input size := by
  unfold memmove
  by_cases trivial_ : output = input ∨ size = 0
  · rw [if_pos trivial_]
    rcases trivial_ with rfl | rfl
    · exact Copied.same b output size
    · exact Copied.none b output input
  rw [if_neg trivial_]
  by_cases upward : output < input ∨ add64 input size ≤ output
  · rw [if_pos upward]
    apply memcpy_spec
    -- behind a source that ends at the top of the address space no destination has room
    unfold add64 at upward
    omega
  rw [if_neg upward]
  generalize run : memmoveWords size b (output + size) (input + size) size = result
  obtain ⟨b', output', input', size'⟩ := result
  obtain ⟨done, rfl, rfl, rfl, words⟩ := memmoveWords_spec run le_rfl (by omega)
  exact words.backward (memmoveBytes_spec (by omega)) (by omega)

theorem memcpy_returns : (memcpy b output input size).2 = output := rfl

theorem memmove_returns : (memmove b output input size).2 = output := by
  unfold memmove
  split
  · rfl
  · split
    · rfl
    · rfl

end

/-- **The word-wise primitives are the byte-wise ones.** -/
theorem memory_primitives (b : Bus) (destination size : Nat) (fits : destination + size ≤ 2 ^ 64) :
    (∀ source, source + size ≤ 2 ^ 64 →
      Copied b (memmove b destination source size).1 destination source size ∧
        (memmove b destination source size).2 = destination) ∧
    (∀ source, source + size ≤ 2 ^ 64 → destination + size ≤ source ∨ source + size ≤ destination →
      Copied b (memcpy b destination source size).1 destination source size ∧
        (memcpy b destination source size).2 = destination) ∧
    ∀ value : BitVec 32,
      Filled (UInt8.ofNat value.toNat) b.mem (b.memset destination value size).1.mem destination (destination + size) ∧
        (b.memset destination value size).1.reads = b.reads ∧ (b.memset destination value size).2 = destination := by
  refine ⟨?_, ?_, ?_⟩
  · intro source fits'
    exact ⟨memmove_spec fits fits', memmove_returns⟩
  · intro source fits' apart
    exact ⟨memcpy_spec (by omega), memcpy_returns⟩
  · intro value
    exact ⟨memset_spec b.mem destination value.toNat size, rfl, rfl⟩

/-- Eleven bytes, three apart. -/
theorem memory_primitives_overlap : 0x1003 + 11 ≤ 2 ^ 64 ∧
    Copied ⟨fun a => UInt8.ofNat a, []⟩ (memmove ⟨fun a => UInt8.ofNat a, []⟩ 0x1003 0x1000 11).1 0x1003 0x1000 11 :=
  ⟨by decide, ((memory_primitives ⟨fun a => UInt8.ofNat a, []⟩ 0x1003 11 (by decide)).1 0x1000 (by decide)).1⟩

end MiaowOs
