import MiaowOs.Memory
import MiaowOs.Lib.Bytes
import Mathlib

/-!
# `lib/vsprintf.c`

The formatter, for any consumer of its output: every place that writes does so
through `emit`, which in the source is the guarded store
`if (str <= end) *str = c; ++str`. `int` wraps at `2 ^ 32`. The format is read
through `fmtAt`, which has nothing to give past the terminator.
-/

namespace MiaowOs
open Bytes

/-- The value of an `int`. -/
def int32 (x : Int) : Int := x.bmod (2 ^ 32)

/-- A character constant. -/
abbrev chr (c : Char) : UInt8 := UInt8.ofNat c.toNat

abbrev zeroPadFlag : Nat := 1
abbrev signFlag : Nat := 2
abbrev plusFlag : Nat := 4
abbrev spaceFlag : Nat := 8
abbrev leftFlag : Nat := 16
abbrev specialFlag : Nat := 32
abbrev largeFlag : Nat := 64

/-- An argument: its doubleword, and for a pointer to characters what it points
to, up to the terminator. -/
structure Arg where
  word : BitVec 64
  text : List UInt8

/-- `va_arg(args, int)`. -/
def Arg.int (a : Arg) : Int := (a.word.setWidth 32).toInt

/-- The bases `number` is called with; its check for other ones is dead. -/
inductive Base
  | oct
  | dec
  | hex
deriving DecidableEq

def Base.radix : Base → Nat
  | .oct => 8
  | .dec => 10
  | .hex => 16

/-- What the formatter gives out: a character, or for `%n` the order to store
the number of characters so far. -/
inductive Piece
  | char (c : UInt8)
  | count (qualifier : Option UInt8) (arg : Arg)

def smallDigits : List UInt8 :=
  ['0', '1', '2', '3', '4', '5', '6', '7', '8', '9', 'a', 'b', 'c', 'd', 'e', 'f', 'g', 'h', 'i', 'j', 'k', 'l', 'm',
    'n', 'o', 'p', 'q', 'r', 's', 't', 'u', 'v', 'w', 'x', 'y', 'z'].map chr

def largeDigits : List UInt8 :=
  ['0', '1', '2', '3', '4', '5', '6', '7', '8', '9', 'A', 'B', 'C', 'D', 'E', 'F', 'G', 'H', 'I', 'J', 'K', 'L', 'M',
    'N', 'O', 'P', 'Q', 'R', 'S', 'T', 'U', 'V', 'W', 'X', 'Y', 'Z'].map chr

def isDigit (c : UInt8) : Bool := chr '0' ≤ c && c ≤ chr '9'

/-- `strnlen`. -/
def strnlen : List UInt8 → Nat → Nat
  | [], _ => 0
  | c :: s, count => if count = 0 ∨ c = 0 then 0 else strnlen s (count - 1) + 1

/-- The characters of the format; its terminator is the last one. -/
def fmtAt (fmt : List UInt8) (i : Nat) : Option UInt8 := (fmt ++ [0])[i]?

/-! ## Reading a conversion -/

/-- `skip_atoi` from character `i` on, with `fuel` iterations left. -/
def skipAtoi (fmt : List UInt8) : Nat → Nat → Int → Option (Nat × Int)
  | 0, _, _ => none
  | fuel + 1, i, n => do
    let c ← fmtAt fmt i
    if isDigit c then skipAtoi fmt fuel (i + 1) (int32 (n * 10 + c.toNat - (chr '0').toNat)) else return (i, n)

/-- The flag a character stands for. -/
def flagOf (c : UInt8) : Option Nat :=
  if c = chr '-' then some leftFlag
  else if c = chr '+' then some plusFlag
  else if c = chr ' ' then some spaceFlag
  else if c = chr '#' then some specialFlag
  else if c = chr '0' then some zeroPadFlag
  else none

/-- The loop at `repeat`, with `fuel` iterations left: the first character that
is no flag. -/
def flagsLoop (fmt : List UInt8) : Nat → Nat → Nat → Option (Nat × Nat)
  | 0, _, _ => none
  | fuel + 1, i, flags => do
    let c ← fmtAt fmt (i + 1)
    match flagOf c with
    | some flag => flagsLoop fmt fuel (i + 1) (flags ||| flag)
    | none => return (i + 1, flags)

/-- A conversion: the place of its last character, what it says, and the next
argument. -/
structure Conversion where
  pos : Nat
  flags : Nat
  fieldWidth : Int
  precision : Int
  qualifier : Option UInt8
  next : Nat

/-- The field width, from character `i` on. -/
def readWidth (fmt : List UInt8) (args : Nat → Arg) (i k flags : Nat) : Option (Nat × Nat × Nat × Int) := do
  let c ← fmtAt fmt i
  if isDigit c then do
    let (i, width) ← skipAtoi fmt (fmt.length + 1) i 0
    return (i, k, flags, width)
  else if c = chr '*' then
    let width := (args k).int
    if width < 0 then return (i + 1, k + 1, flags ||| leftFlag, int32 (-width)) else return (i + 1, k + 1, flags, width)
  else return (i, k, flags, -1)

/-- The precision. -/
def readPrecision (fmt : List UInt8) (args : Nat → Arg) (i k : Nat) : Option (Nat × Nat × Int) := do
  let c ← fmtAt fmt i
  if c = chr '.' then do
    let i := i + 1
    let c ← fmtAt fmt i
    let (i, k, precision) ←
      if isDigit c then do
        let (i, precision) ← skipAtoi fmt (fmt.length + 1) i 0
        pure (i, k, precision)
      else if c = chr '*' then pure (i + 1, k + 1, (args k).int)
      else pure (i, k, -1)
    return (i, k, if precision < 0 then 0 else precision)
  else return (i, k, -1)

/-- The qualifier. -/
def readQualifier (fmt : List UInt8) (i : Nat) : Option (Nat × Option UInt8) := do
  let c ← fmtAt fmt i
  if c = chr 'h' ∨ c = chr 'l' ∨ c = chr 'L' ∨ c = chr 'Z' then return (i + 1, some c) else return (i, none)

/-- Read the conversion whose `%` is character `i`. -/
def readConversion (fmt : List UInt8) (args : Nat → Arg) (i k : Nat) : Option Conversion := do
  let (i, flags) ← flagsLoop fmt (fmt.length + 1) i 0
  let (i, k, flags, fieldWidth) ← readWidth fmt args i k flags
  let (i, k, precision) ← readPrecision fmt args i k
  let (pos, qualifier) ← readQualifier fmt i
  return ⟨pos, flags, fieldWidth, precision, qualifier, k⟩

/-- The number of an integer conversion. -/
def readNumber (a : Arg) (qualifier : Option UInt8) (flags : Nat) : BitVec 64 :=
  if qualifier = some (chr 'L') ∨ qualifier = some (chr 'l') ∨ qualifier = some (chr 'Z') then a.word
  else if qualifier = some (chr 'h') then
    if flags &&& signFlag ≠ 0 then (a.word.setWidth 16).signExtend 64 else (a.word.setWidth 16).setWidth 64
  else if flags &&& signFlag ≠ 0 then (a.word.setWidth 32).signExtend 64 else (a.word.setWidth 32).setWidth 64

/-! ## Writing it -/

section
variable {σ : Type} (emit : σ → Piece → σ)

/-- Write a character `n` times. -/
def pad (c : UInt8) : Nat → σ → σ
  | 0, o => o
  | n + 1, o => pad c n (emit o (.char c))

/-- `while (len < width--)` writing a character: the width afterwards too. -/
def padWhile (c : UInt8) (len width : Int) (o : σ) : σ × Int :=
  (pad emit c (width - len).toNat o, int32 (min width len - 1))

/-- `while (--width > 0)` writing a space. -/
def padDown (width : Int) (o : σ) : σ × Int :=
  (pad emit (chr ' ') (width - 1).toNat o, int32 (min (width - 1) 0))

/-- Write characters one after the other. -/
def putAll : List UInt8 → σ → σ
  | [], o => o
  | c :: s, o => putAll s (emit o (.char c))

/-- The sign of a number, with the number and the size that are left. -/
def signOf (num : BitVec 64) (size : Int) (type : Nat) : UInt8 × BitVec 64 × Int :=
  if type &&& signFlag = 0 then (0, num, size)
  else if num.toInt < 0 then (chr '-', -num, int32 (size - 1))
  else if type &&& plusFlag ≠ 0 then (chr '+', num, int32 (size - 1))
  else if type &&& spaceFlag ≠ 0 then (chr ' ', num, int32 (size - 1))
  else (0, num, size)

/-- The size that is left beside `0x` or `0`. -/
def specialSize (base : Base) (size : Int) (type : Nat) : Int :=
  if type &&& specialFlag = 0 then size
  else match base with
    | .hex => int32 (size - 2)
    | .oct => int32 (size - 1)
    | .dec => size

/-- The digits of a number, the last one first: `tmp`. -/
def tmpDigits (digits : List UInt8) (num : BitVec 64) (base : Base) : List UInt8 :=
  if num = 0 then [chr '0'] else (Nat.digits base.radix num.toNat).map fun d => digits.getD d 0

/-- The prefix `0x` or `0`. -/
def putSpecial (digits : List UInt8) (base : Base) (type : Nat) (o : σ) : σ :=
  if type &&& specialFlag = 0 then o
  else match base with
    | .oct => emit o (.char (chr '0'))
    | .hex => emit (emit o (.char (chr '0'))) (.char (digits.getD 33 0))
    | .dec => o

/-- `number` up to the prefix: spaces on the left, the sign and the prefix. -/
def putHead (digits : List UInt8) (sign : UInt8) (base : Base) (type : Nat) (size : Int) (o : σ) : σ × Int :=
  let (o, size) := if type &&& (zeroPadFlag + leftFlag) = 0 then padWhile emit (chr ' ') 0 size o else (o, size)
  let o := if sign ≠ 0 then emit o (.char sign) else o
  (putSpecial emit digits base type o, size)

/-- The rest of `number`: the padding `c`, the digits, and spaces on the right. -/
def putTail (tmp : List UInt8) (c : UInt8) (type : Nat) (size precision : Int) (o : σ) : σ :=
  let (o, size) := if type &&& leftFlag = 0 then padWhile emit c 0 size o else (o, size)
  let o := pad emit (chr '0') (precision - tmp.length).toNat o
  let o := putAll emit tmp.reverse o
  (padWhile emit (chr ' ') 0 size o).1

/-- `number`. -/
def number (o : σ) (num : BitVec 64) (base : Base) (size precision : Int) (type : Nat) : σ :=
  let digits := if type &&& largeFlag ≠ 0 then largeDigits else smallDigits
  let type := if type &&& leftFlag ≠ 0 then type &&& 0xfffffffe else type
  let c := if type &&& zeroPadFlag ≠ 0 then chr '0' else chr ' '
  let (sign, num, size) := signOf num size type
  let size := specialSize base size type
  let tmp := tmpDigits digits num base
  let precision := max (tmp.length : Int) precision
  let (o, size) := putHead emit digits sign base type (int32 (size - precision)) o
  putTail emit tmp c type size precision o

/-- The string a `%s` writes. -/
def stringOf (a : Arg) : List UInt8 := if a.word = 0 then ['<', 'N', 'U', 'L', 'L', '>'].map chr else a.text

/-- `%c`. -/
def putChar (o : σ) (v : Conversion) (a : Arg) : σ :=
  let (o, width) := if v.flags &&& leftFlag = 0 then padDown emit v.fieldWidth o else (o, v.fieldWidth)
  let o := emit o (.char (UInt8.ofNat a.word.toNat))
  (padDown emit width o).1

/-- `%s`. -/
def putString (o : σ) (v : Conversion) (a : Arg) : σ :=
  let s := stringOf a
  let len := strnlen s (if v.precision < 0 then uintptrMax else v.precision.toNat)
  let (o, width) :=
    if v.flags &&& leftFlag = 0 then padWhile emit (chr ' ') (int32 len) v.fieldWidth o else (o, v.fieldWidth)
  let o := putAll emit (s.take (int32 len).toNat) o
  (padWhile emit (chr ' ') (int32 len) width o).1

/-- The last switch: what is written, the next argument, and the character
after which the scan goes on. -/
def convert (args : Nat → Arg) (v : Conversion) (c : UInt8) (o : σ) : σ × Nat × Nat :=
  let a := args v.next
  let integer (base : Base) (flags : Nat) : σ × Nat × Nat :=
    (number emit o (readNumber a v.qualifier flags) base v.fieldWidth v.precision flags, v.next + 1, v.pos)
  if c = chr 'c' then (putChar emit o v a, v.next + 1, v.pos)
  else if c = chr 's' then (putString emit o v a, v.next + 1, v.pos)
  else if c = chr 'p' then
    let (width, flags) := if v.fieldWidth = -1 then (16, v.flags ||| zeroPadFlag) else (v.fieldWidth, v.flags)
    (number emit o a.word .hex width v.precision flags, v.next + 1, v.pos)
  else if c = chr 'n' then (emit o (.count v.qualifier a), v.next + 1, v.pos)
  else if c = chr '%' then (emit o (.char (chr '%')), v.next, v.pos)
  else if c = chr 'o' then integer .oct v.flags
  else if c = chr 'X' then integer .hex (v.flags ||| largeFlag)
  else if c = chr 'x' then integer .hex v.flags
  else if c = chr 'd' ∨ c = chr 'i' then integer .dec (v.flags ||| signFlag)
  else if c = chr 'u' then integer .dec v.flags
  else
    let o := emit o (.char (chr '%'))
    -- at the terminator the scan backs up, to meet it again
    if c ≠ 0 then (emit o (.char c), v.next, v.pos) else (o, v.next, v.pos - 1)

/-- The loop of `vsnprintf` from character `i` on, with `fuel` iterations left. -/
def formatLoop (fmt : List UInt8) (args : Nat → Arg) : Nat → Nat → Nat → σ → Option σ
  | 0, _, _, _ => none
  | fuel + 1, i, k, o => do
    let c ← fmtAt fmt i
    if c = 0 then return o
    else if c ≠ chr '%' then formatLoop fmt args fuel (i + 1) k (emit o (.char c))
    else
      let v ← readConversion fmt args i k
      let c ← fmtAt fmt v.pos
      let (o, k, i) := convert emit args v c o
      formatLoop fmt args fuel (i + 1) k o

end

/-- The memory and the next place to write. -/
structure Out where
  mem : Mem
  str : Nat

/-- Write a character unless that is past `end`; store the count for `%n`. -/
def Out.emit (buf limit : Nat) (o : Out) : Piece → Out
  | .char c => ⟨if o.str ≤ limit then put o.mem o.str c else o.mem, add64 o.str 1⟩
  | .count qualifier a =>
    let width := if qualifier = some (chr 'l') ∨ qualifier = some (chr 'Z') then 8 else 4
    { o with mem := store o.mem a.word.toNat width (sub64 o.str buf) }

/-- The terminator, at the end of the text or of the buffer. -/
def Out.terminate (limit size : Nat) (o : Out) : Mem :=
  if o.str ≤ limit then put o.mem o.str 0
  else if 0 < size then put o.mem limit 0
  else o.mem

/-- `end` and `size` at the start of the loop. -/
def bufferEnd (buf size : Nat) : Nat × Nat :=
  let limit := sub64 (add64 buf size) 1
  if limit < sub64 buf 1 then (uintptrMax, add64 (sub64 uintptrMax buf) 1) else (limit, size)

/-- `vsnprintf`, with the value it returns. -/
def vsnprintf (mem : Mem) (buf size : Nat) (fmt : List UInt8) (args : Nat → Arg) : Option (Mem × Int) :=
  let limit := (bufferEnd buf size).1
  let size := (bufferEnd buf size).2
  (formatLoop (Out.emit buf limit) fmt args (fmt.length + 1) 0 0 ⟨mem, buf⟩).map fun o =>
    (o.terminate limit size, int32 (sub64 o.str buf))

end MiaowOs
