import MiaowOs.Printk
import Mathlib

/-!
# Reading numbers: `simple_strtoul` and its kin

The other direction of `lib/vsprintf.c`. A text is read up to its terminator, as the
format of `vsnprintf` is. `*endp` is returned beside the value; a null `endp` drops
it. The two loops differ in how they write the value of a letter, so they are one
loop with this as its parameter.
-/

namespace MiaowOs

/-- `isxdigit`. -/
def isXdigit (c : UInt8) : Bool :=
  isDigit c || (chr 'a' ≤ c && c ≤ chr 'f') || (chr 'A' ≤ c && c ≤ chr 'F')

/-- `islower`. -/
def isLower (c : UInt8) : Bool := chr 'a' ≤ c && c ≤ chr 'z'

/-- `toupper`. -/
def toUpper (c : UInt8) : UInt8 := if isLower c then c - chr 'a' + chr 'A' else c

/-- `value` in the loop of `simple_strtoul`. -/
def strtoulDigit (c : UInt8) : Nat :=
  if isDigit c then c.toNat - (chr '0').toNat else (toUpper c).toNat - (chr 'A').toNat + 10

/-- `value` in the loop of `simple_strtoull`. -/
def strtoullDigit (c : UInt8) : Nat :=
  if isDigit c then c.toNat - (chr '0').toNat
  else (if isLower c then toUpper c else c).toNat - (chr 'A').toNat + 10

/-- The statements before the loop: where the digits start, and the base. -/
def strtoPrefix (s : List UInt8) (cp base : Nat) : Option (Nat × Nat) :=
  if base = 0 then do
    if (← fmtAt s cp) = chr '0' then do
      if (← fmtAt s (cp + 1)) = chr 'x' then do
        if isXdigit (← fmtAt s (cp + 2)) then return (cp + 2, 16) else return (cp + 1, 8)
      else return (cp + 1, 8)
    else return (cp, 10)
  else return (cp, base)

/-- The loop, with `fuel` iterations left. -/
def strtoLoop (digit : UInt8 → Nat) (s : List UInt8) (base : Nat) : Nat → Nat → BitVec 64 → Option (Nat × BitVec 64)
  | 0, _, _ => none
  | fuel + 1, cp, result => do
    let c ← fmtAt s cp
    if isXdigit c && digit c < base then
      strtoLoop digit s base fuel (cp + 1) (result * BitVec.ofNat 64 base + BitVec.ofNat 64 (digit c))
    else return (cp, result)

/-- The body of `simple_strtoul` and of `simple_strtoull`. -/
def strto (digit : UInt8 → Nat) (s : List UInt8) (cp base : Nat) : Option (Nat × BitVec 64) := do
  let (cp, base) ← strtoPrefix s cp base
  strtoLoop digit s base (s.length + 1) cp 0

/-- `simple_strtoul`. -/
def simpleStrtoul : List UInt8 → Nat → Nat → Option (Nat × BitVec 64) := strto strtoulDigit

/-- `simple_strtoull`. -/
def simpleStrtoull : List UInt8 → Nat → Nat → Option (Nat × BitVec 64) := strto strtoullDigit

/-- `simple_strtol`. -/
def simpleStrtol (s : List UInt8) (cp base : Nat) : Option (Nat × BitVec 64) := do
  if (← fmtAt s cp) = chr '-' then do
    let (stop, value) ← simpleStrtoul s (cp + 1) base
    return (stop, -value)
  else simpleStrtoul s cp base

/-- `simple_strtoll`. -/
def simpleStrtoll (s : List UInt8) (cp base : Nat) : Option (Nat × BitVec 64) := do
  if (← fmtAt s cp) = chr '-' then do
    let (stop, value) ← simpleStrtoull s (cp + 1) base
    return (stop, -value)
  else simpleStrtoull s cp base

/-! ## What is read -/

/-- The value of a character as a digit, by the tables that `number` writes with. -/
def digitValue (c : UInt8) : Option Nat := (smallDigits.idxOf? c).or (largeDigits.idxOf? c)

/-- The character is a digit of the base, and a hexadecimal one; in a base above 16 the
other digits are not read. -/
def isDigitOf (base : Nat) (c : UInt8) : Bool := (digitValue c).any (· < min base 16)

/-- The digits that a text begins with. -/
def digitRun (base : Nat) (t : List UInt8) : List Nat := (t.takeWhile (isDigitOf base)).filterMap digitValue

/-- The base of a text, and the characters before its digits. -/
def baseOf (t : List UInt8) (base : Nat) : Nat × Nat :=
  if base ≠ 0 then (0, base)
  else if t.getD 0 0 ≠ chr '0' then (0, 10)
  else if t.getD 1 0 = chr 'x' ∧ isDigitOf 16 (t.getD 2 0) then (2, 16)
  else (1, 8)

/-- The characters and the number that a text begins with. -/
def scan (t : List UInt8) (base : Nat) : Nat × Nat :=
  let (skip, base) := baseOf t base
  let run := digitRun base (t.drop skip)
  (skip + run.length, Nat.ofDigits base run.reverse)

/-- The same with a sign, in two's complement. -/
def scanSigned (t : List UInt8) (base : Nat) : Nat × BitVec 64 :=
  if t.getD 0 0 = chr '-' then ((scan t.tail base).1 + 1, -BitVec.ofNat 64 (scan t.tail base).2)
  else ((scan t base).1, BitVec.ofNat 64 (scan t base).2)

section
variable {s t : List UInt8} {base cp fuel i : Nat}

theorem fmtAt_ahead (le : cp + i ≤ s.length) : fmtAt s (cp + i) = some ((s.drop cp).getD i 0) := by
  rw [List.getD_eq_getElem?_getD, List.getElem?_drop]
  rcases Nat.lt_or_ge (cp + i) s.length with lt | ge
  · rw [fmtAt, List.getElem?_append_left lt, List.getElem?_eq_getElem lt]
    rfl
  · obtain eq : cp + i = s.length := Nat.le_antisymm le ge
    rw [eq]
    simp [fmtAt]

/-- Nothing but the terminator is behind the last character. -/
theorem lt_of_getD_ne (ne : t.getD i 0 ≠ 0) : i < t.length := by
  by_contra ge
  apply ne
  rw [List.getD_eq_getElem?_getD, List.getElem?_eq_none (by omega)]
  rfl

/-- Both loops read a letter alike. -/
theorem strtoullDigit_eq : strtoullDigit = strtoulDigit := by
  funext c
  unfold strtoullDigit strtoulDigit
  by_cases lower : isLower c
  · rw [if_pos lower]
  · rw [if_neg lower, toUpper, if_neg lower]

/-- `isxdigit` knows the digits of the tables up to `f`, and the loops their values. -/
theorem digitValue_cases (c : UInt8) : isXdigit c = true ∧ digitValue c = some (strtoulDigit c) ∧ strtoulDigit c < 16 ∨
    isXdigit c = false ∧ (digitValue c).all (16 ≤ ·) = true := by
  have all : ∀ n < 256, isXdigit (UInt8.ofNat n) = true ∧
      digitValue (UInt8.ofNat n) = some (strtoulDigit (UInt8.ofNat n)) ∧ strtoulDigit (UInt8.ofNat n) < 16 ∨
      isXdigit (UInt8.ofNat n) = false ∧ (digitValue (UInt8.ofNat n)).all (16 ≤ ·) = true := by decide +kernel
  have here := all c.toNat c.toNat_lt
  rwa [UInt8.ofNat_toNat] at here

/-- The condition of the loops holds of the digits of the base. -/
theorem isDigitOf_eq (base : Nat) (c : UInt8) : isDigitOf base c = (isXdigit c && strtoulDigit c < base) := by
  unfold isDigitOf
  rcases digitValue_cases c with ⟨hex, value, small⟩ | ⟨other, large⟩
  · rw [hex, value, Option.any_some, Bool.true_and, decide_eq_decide]
    omega
  · rw [other, Bool.false_and]
    cases value : digitValue c with
    | none => rfl
    | some d =>
      rw [value] at large
      simp only [Option.all_some, decide_eq_true_eq] at large
      simp only [Option.any_some, decide_eq_false_iff_not]
      omega

theorem isDigitOf_hex (c : UInt8) : isDigitOf 16 c = isXdigit c := by
  rw [isDigitOf_eq]
  rcases digitValue_cases c with ⟨hex, -, small⟩ | ⟨other, -⟩
  · rw [hex, decide_eq_true small, Bool.and_true]
  · rw [other, Bool.false_and]

theorem isDigitOf_zero : isDigitOf base 0 = false := by
  rw [isDigitOf_eq, show isXdigit 0 = false by decide, Bool.false_and]

theorem digitRun_cons {c : UInt8} (digit : isDigitOf base c = true) :
    digitRun base (c :: t) = strtoulDigit c :: digitRun base t := by
  rcases digitValue_cases c with ⟨-, value, -⟩ | ⟨other, -⟩
  · rw [digitRun, List.takeWhile_cons_of_pos digit, List.filterMap_cons_some value, digitRun]
  · rw [isDigitOf_eq, other] at digit
    cases digit

theorem digitRun_stop (stop : isDigitOf base (t.getD 0 0) = false) : digitRun base t = [] := by
  cases t with
  | nil => rfl
  | cons c t =>
    rw [digitRun, List.takeWhile_cons_of_neg (by simpa using stop)]
    rfl

/-- The loop reads the digits that are ahead. -/
theorem strtoLoop_spec (le : cp ≤ s.length) (enough : s.length - cp < fuel) (n : Nat) :
    strtoLoop strtoulDigit s base fuel cp (BitVec.ofNat 64 n) =
      let run := digitRun base (s.drop cp)
      some (cp + run.length, BitVec.ofNat 64 (n * base ^ run.length + Nat.ofDigits base run.reverse)) := by
  induction fuel generalizing cp n with
  | zero => omega
  | succ fuel ih =>
    have here := fmtAt_ahead (i := 0) le
    rw [Nat.add_zero] at here
    rw [strtoLoop, here]
    simp only [Option.bind_eq_bind, Option.bind_some]
    generalize first : (s.drop cp).getD 0 0 = c
    by_cases digit : isDigitOf base c = true
    · have lt : cp < s.length := by
        have inside := lt_of_getD_ne (t := s.drop cp) (i := 0) (by
          rw [first]
          rintro rfl
          rw [isDigitOf_zero] at digit
          cases digit)
        rw [List.length_drop] at inside
        omega
      have split : s.drop cp = c :: s.drop (cp + 1) := by
        rw [List.drop_eq_getElem_cons lt] at first ⊢
        rw [← first]
        rfl
      have next : BitVec.ofNat 64 n * BitVec.ofNat 64 base + BitVec.ofNat 64 (strtoulDigit c) =
          BitVec.ofNat 64 (n * base + strtoulDigit c) := by
        rw [BitVec.ofNat_add, BitVec.ofNat_mul]
      have run : digitRun base (s.drop cp) = strtoulDigit c :: digitRun base (s.drop (cp + 1)) := by
        rw [split, digitRun_cons digit]
      rw [isDigitOf_eq] at digit
      have rest := ih (show cp + 1 ≤ s.length from lt) (by omega) (n * base + strtoulDigit c)
      rw [if_pos digit, next, rest, run]
      simp only [List.length_cons, List.reverse_cons, Nat.ofDigits_append, List.length_reverse, Nat.ofDigits_singleton]
      refine congrArg some (Prod.ext (by simp only []; omega) (congrArg (BitVec.ofNat 64) ?_))
      ring
    · have run : digitRun base (s.drop cp) = [] := digitRun_stop (by rw [first]; simpa using digit)
      rw [isDigitOf_eq] at digit
      rw [if_neg digit, run]
      simp

theorem strtoPrefix_spec (base : Nat) (le : cp ≤ s.length) : strtoPrefix s cp base =
    some (cp + (baseOf (s.drop cp) base).1, (baseOf (s.drop cp) base).2) ∧
      cp + (baseOf (s.drop cp) base).1 ≤ s.length := by
  unfold strtoPrefix baseOf
  by_cases given : base = 0
  · have here := fmtAt_ahead (i := 0) le
    rw [Nat.add_zero] at here
    rw [if_pos given, here, if_neg (not_ne_iff.2 given)]
    simp only [Option.bind_eq_bind, Option.bind_some]
    generalize t_def : s.drop cp = t
    have length : t.length = s.length - cp := by rw [← t_def, List.length_drop]
    by_cases zero : t.getD 0 0 = chr '0'
    · have one := lt_of_getD_ne (t := t) (i := 0) (by rw [zero]; decide)
      have here := fmtAt_ahead (show cp + 1 ≤ s.length by omega)
      rw [if_pos zero, here, if_neg (not_ne_iff.2 zero), t_def]
      simp only [Option.bind_some]
      by_cases letter : t.getD 1 0 = chr 'x'
      · have two := lt_of_getD_ne (t := t) (i := 1) (by rw [letter]; decide)
        have here := fmtAt_ahead (show cp + 2 ≤ s.length by omega)
        rw [if_pos letter, here, t_def]
        simp only [Option.bind_some]
        rw [isDigitOf_hex]
        by_cases hex : isXdigit (t.getD 2 0) = true
        · rw [if_pos hex, if_pos ⟨letter, hex⟩]
          have three := lt_of_getD_ne (t := t) (i := 2) (by
            intro absurd
            rw [absurd] at hex
            cases hex)
          exact ⟨rfl, by simp only []; omega⟩
        · rw [if_neg hex, if_neg fun both => hex both.2]
          exact ⟨rfl, by simp only []; omega⟩
      · rw [if_neg letter, if_neg fun both => letter both.1]
        exact ⟨rfl, by simp only []; omega⟩
    · rw [if_neg zero, if_pos zero]
      exact ⟨rfl, le⟩
  · rw [if_neg given, if_pos given]
    exact ⟨rfl, le⟩

theorem strto_spec (base : Nat) (le : cp ≤ s.length) : strto strtoulDigit s cp base =
    some (cp + (scan (s.drop cp) base).1, BitVec.ofNat 64 (scan (s.drop cp) base).2) := by
  obtain ⟨run, inside⟩ := strtoPrefix_spec base le
  have digits : strtoLoop strtoulDigit s (baseOf (s.drop cp) base).2 (s.length + 1)
      (cp + (baseOf (s.drop cp) base).1) (BitVec.ofNat 64 0) = _ := strtoLoop_spec inside (by omega) 0
  rw [strto, run]
  simp only [Option.bind_eq_bind, Option.bind_some]
  rw [show (0 : BitVec 64) = BitVec.ofNat 64 0 from rfl, digits]
  simp only [scan, List.drop_drop, Nat.zero_mul, Nat.zero_add, Nat.add_assoc]

/-- What is read ends at the terminator at the latest. -/
theorem scan_le (base : Nat) (le : cp ≤ s.length) : cp + (scan (s.drop cp) base).1 ≤ s.length := by
  obtain ⟨-, inside⟩ := strtoPrefix_spec base le
  have run : ∀ b t, (digitRun b t).length ≤ t.length := by
    intro b t
    rw [digitRun]
    exact (List.length_filterMap_le _ _).trans (List.takeWhile_prefix _).length_le
  have digits := run (baseOf (s.drop cp) base).2 ((s.drop cp).drop (baseOf (s.drop cp) base).1)
  rw [List.length_drop, List.length_drop] at digits
  simp only [scan]
  omega

theorem scanSigned_le (base : Nat) (le : cp ≤ s.length) : cp + (scanSigned (s.drop cp) base).1 ≤ s.length := by
  unfold scanSigned
  split
  next minus =>
    have one := lt_of_getD_ne (t := s.drop cp) (i := 0) (by rw [minus]; decide)
    rw [List.length_drop] at one
    have rest := scan_le base (show cp + 1 ≤ s.length by omega)
    rw [List.tail_drop]
    simp only []
    omega
  next => exact scan_le base le

theorem strtol_spec (base : Nat) (le : cp ≤ s.length) : simpleStrtol s cp base =
    some (cp + (scanSigned (s.drop cp) base).1, (scanSigned (s.drop cp) base).2) := by
  have here := fmtAt_ahead (i := 0) le
  rw [Nat.add_zero] at here
  rw [simpleStrtol, here]
  simp only [Option.bind_eq_bind, Option.bind_some]
  unfold scanSigned simpleStrtoul
  by_cases minus : (s.drop cp).getD 0 0 = chr '-'
  · have one := lt_of_getD_ne (t := s.drop cp) (i := 0) (by rw [minus]; decide)
    rw [List.length_drop] at one
    rw [if_pos minus, if_pos minus, strto_spec base (show cp + 1 ≤ s.length by omega), List.tail_drop]
    simp only [Option.bind_some]
    refine congrArg some (Prod.ext ?_ rfl)
    simp only []
    omega
  · rw [if_neg minus, if_neg minus, strto_spec base le]

/-- **Reading a number.** From any place of any text, and for any base: each of the
four functions reads on to the end of the longest run of hexadecimal digits below the
base (of the digits of the base, if it is at most 16) and never past the terminator; its
value is that of the digits modulo `2 ^ 64`, in two's complement behind a `-`; and
`simple_strtoull` and `simple_strtoll` read like the other two. -/
theorem strto_exact (s : List UInt8) (cp base : Nat) (le : cp ≤ s.length) :
    simpleStrtoul s cp base =
      some (cp + (scan (s.drop cp) base).1, BitVec.ofNat 64 (scan (s.drop cp) base).2) ∧
    simpleStrtol s cp base = some (cp + (scanSigned (s.drop cp) base).1, (scanSigned (s.drop cp) base).2) ∧
    simpleStrtoull s cp base = simpleStrtoul s cp base ∧ simpleStrtoll s cp base = simpleStrtol s cp base ∧
    cp + (scan (s.drop cp) base).1 ≤ s.length ∧ cp + (scanSigned (s.drop cp) base).1 ≤ s.length := by
  have same : simpleStrtoull = simpleStrtoul := by
    rw [simpleStrtoull, strtoullDigit_eq, simpleStrtoul]
  refine ⟨strto_spec base le, strtol_spec base le, by rw [same], ?_, scan_le base le, scanSigned_le base le⟩
  rw [simpleStrtoll, same, simpleStrtol]

end

theorem strto_exact_hex : simpleStrtol ("at -0x1fz".toList.map chr) 3 0 = some (8, -31) ∧
    simpleStrtoll ("at -0x1fz".toList.map chr) 3 0 = some (8, -31) := by
  obtain ⟨-, signed, -, same, -⟩ := strto_exact ("at -0x1fz".toList.map chr) 3 0 (by decide)
  rw [same, signed]
  decide +kernel

/-! ## Reading what `number` has written -/

/-- The digits of the number that is shown. -/
def shown (num : BitVec 64) (base : Base) (type : Nat) : List Nat := numeral base (magnitude num type)

/-- The blanks that `number` writes before a number … -/
def blanksBefore (num : BitVec 64) (base : Base) (width precision : Int) (type : Nat) : Nat :=
  if type &&& leftFlag = 0 ∧ type &&& zeroPadFlag = 0 then
    (width - bodyLength num base precision type (shown num base type).length).toNat
  else 0

/-- … and behind it. -/
def blanksBehind (num : BitVec 64) (base : Base) (width precision : Int) (type : Nat) : Nat :=
  if type &&& leftFlag ≠ 0 then (width - bodyLength num base precision type (shown num base type).length).toNat else 0

/-- The digits of a number with the zeros before them. -/
def paddedDigits (num : BitVec 64) (base : Base) (width precision : Int) (type : Nat) : List Nat :=
  List.replicate (if type &&& leftFlag = 0 ∧ type &&& zeroPadFlag ≠ 0 then
      (width - bodyLength num base precision type (shown num base type).length).toNat else 0) 0 ++
    List.replicate (precision - (shown num base type).length).toNat 0 ++ shown num base type

section
variable {num : BitVec 64} {base : Base} {width precision : Int} {type b d : Nat} {ds run : List Nat}
  {t rest : List UInt8}

/-- The layout in the parts a reader sees. -/
theorem numberText_eq : numberText num base width precision type (shown num base type) =
    List.replicate (blanksBefore num base width precision type) (chr ' ') ++ (signText num type ++
      (prefixText base type ++ ((paddedDigits num base width precision type).map ((digitTable type).getD · 0) ++
        List.replicate (blanksBehind num base width precision type) (chr ' ')))) := by
  have zero := digitTable_zero type
  simp only [numberText, blanksBefore, blanksBehind, paddedDigits, List.map_append, List.map_replicate, zero, ne_eq,
    not_not, List.append_assoc]

theorem digit_char (type : Nat) (lt : d < 16) : isXdigit ((digitTable type).getD d 0) = true ∧
    strtoulDigit ((digitTable type).getD d 0) = d := by
  have small : ∀ d < 16, isXdigit (smallDigits.getD d 0) = true ∧ strtoulDigit (smallDigits.getD d 0) = d := by decide
  have large : ∀ d < 16, isXdigit (largeDigits.getD d 0) = true ∧ strtoulDigit (largeDigits.getD d 0) = d := by decide
  unfold digitTable
  split
  · exact large d lt
  · exact small d lt

/-- No digit is a letter that has a meaning of its own. -/
theorem digit_char_plain (type : Nat) (lt : d < 16) : (digitTable type).getD d 0 ≠ chr 'x' ∧
    (digitTable type).getD d 0 ≠ chr '-' := by
  have digit := (digit_char type lt).1
  constructor
  · intro absurd
    rw [absurd] at digit
    exact Bool.noConfusion digit
  · intro absurd
    rw [absurd] at digit
    exact Bool.noConfusion digit

/-- The digits of a text are read up to the first other character. -/
theorem digitRun_map (small : b ≤ 16) (digits : ∀ d ∈ run, d < b) (behind : isDigitOf b (rest.getD 0 0) = false) :
    digitRun b (run.map ((digitTable type).getD · 0) ++ rest) = run := by
  induction run with
  | nil => exact digitRun_stop behind
  | cons d run ih =>
    have lt := digits d List.mem_cons_self
    obtain ⟨xdigit, value⟩ := digit_char type (show d < 16 by omega)
    have digit : isDigitOf b ((digitTable type).getD d 0) = true := by
      rw [isDigitOf_eq, xdigit, value]
      simpa using lt
    rw [List.map_cons, List.cons_append, digitRun_cons digit, value, ih fun d here => digits d (List.mem_cons_of_mem _ here)]

theorem ofDigits_zeros (n : Nat) : Nat.ofDigits b (List.replicate n 0 ++ ds).reverse = Nat.ofDigits b ds.reverse := by
  rw [List.reverse_append, List.reverse_replicate, Nat.ofDigits_append_replicate_zero]

theorem paddedDigits_spec : (∀ d ∈ paddedDigits num base width precision type, d < base.radix) ∧
    paddedDigits num base width precision type ≠ [] ∧
    Nat.ofDigits base.radix (paddedDigits num base width precision type).reverse = magnitude num type := by
  have numeral : Numeral base.radix (magnitude num type) (shown num base type) := numeral_spec base (magnitude num type)
  have pos : 0 < base.radix := by cases base <;> decide
  refine ⟨?_, ?_, ?_⟩
  · intro d mem
    simp only [paddedDigits, List.mem_append, List.mem_replicate] at mem
    rcases mem with (⟨-, rfl⟩ | ⟨-, rfl⟩) | mem
    · exact pos
    · exact pos
    · exact numeral.digit d mem
  · intro empty
    simp only [paddedDigits, List.append_eq_nil_iff] at empty
    exact numeral.nonempty empty.2
  · rw [paddedDigits, List.append_assoc, ofDigits_zeros, ofDigits_zeros, numeral.value]

/-- The base a reader is given: that of the number, or 0 where a prefix tells it. -/
def ReadWith (base : Base) (type b : Nat) : Prop := b = base.radix ∨ b = 0 ∧ type &&& specialFlag ≠ 0 ∧ base ≠ .dec

/-- A reader gets past the prefix of a hexadecimal number: it looks for it, and it is
written `0x`. -/
def ReadsPrefix (base : Base) (type b : Nat) : Prop :=
  base = .hex → type &&& specialFlag ≠ 0 → b = 0 ∧ type &&& largeFlag = 0

theorem scan_digits (type : Nat) (ne : b ≠ 0) (small : b ≤ 16) (digits : ∀ d ∈ run, d < b)
    (behind : isDigitOf b (rest.getD 0 0) = false) :
    scan (run.map ((digitTable type).getD · 0) ++ rest) b = (run.length, Nat.ofDigits b run.reverse) := by
  rw [scan, baseOf, if_pos ne]
  simp only [List.drop_zero, digitRun_map small digits behind, Nat.zero_add]

/-- The digits behind a prefix that has been read. -/
theorem scan_body (read : ReadWith base type b) (ready : ReadsPrefix base type b)
    (digits : ∀ d ∈ run, d < base.radix) (nonempty : run ≠ [])
    (behind : isDigitOf base.radix (rest.getD 0 0) = false) :
    scan (prefixText base type ++ (run.map ((digitTable type).getD · 0) ++ rest)) b =
      ((prefixText base type).length + run.length, Nat.ofDigits base.radix run.reverse) := by
  obtain ⟨d, run', split⟩ := List.exists_cons_of_ne_nil nonempty
  by_cases plain : type &&& specialFlag = 0
  · have own : b = base.radix := read.resolve_right fun zero => zero.2.1 plain
    have none : prefixText base type = [] := if_pos plain
    rw [none, List.nil_append, List.length_nil, Nat.zero_add, own]
    exact scan_digits type (by cases base <;> decide) (by cases base <;> decide) digits behind
  unfold prefixText
  rw [if_neg plain]
  cases base with
  | dec =>
    have own : b = Base.dec.radix := read.resolve_right fun zero => zero.2.2 rfl
    rw [List.nil_append, List.length_nil, Nat.zero_add, own]
    exact scan_digits type (by decide) (by decide) digits behind
  | oct =>
    have lt : d < 8 := digits d (by rw [split]; exact List.mem_cons_self)
    rcases read with rfl | ⟨rfl, -⟩
    · -- the prefix is one more zero
      have zero := digitTable_zero type
      have all : ∀ d ∈ 0 :: run, d < Base.oct.radix := by
        intro d mem
        rcases List.mem_cons.1 mem with rfl | mem
        · decide
        · exact digits d mem
      have read := scan_digits type (by decide) (by decide) all behind
      rw [List.map_cons, zero] at read
      refine Eq.trans read (Prod.ext ?_ ?_)
      · simp only [List.length_cons, List.length_nil]
        omega
      · exact @ofDigits_zeros _ run 1
    · have next := (digit_char_plain type (show d < 16 by omega)).1
      have base8 : baseOf ([chr '0'] ++ (run.map ((digitTable type).getD · 0) ++ rest)) 0 = (1, 8) := by
        rw [baseOf, if_neg (by decide), if_neg (by simp), if_neg]
        rw [split]
        exact fun absurd => next absurd.1
      simp only [scan, base8]
      exact congrArg (fun run => (1 + List.length run, Nat.ofDigits 8 run.reverse))
        (digitRun_map (by decide) digits behind)
  | hex =>
    obtain ⟨rfl, small⟩ := ready rfl plain
    have lt : d < 16 := digits d (by rw [split]; exact List.mem_cons_self)
    have first := (digit_char type lt).1
    have base16 : baseOf ([chr '0', chr 'x'] ++ (run.map ((digitTable type).getD · 0) ++ rest)) 0 = (2, 16) := by
      rw [baseOf, if_neg (by decide), if_neg (by simp), if_pos]
      rw [split]
      exact ⟨rfl, (isDigitOf_hex _).trans first⟩
    simp only [small, ne_eq, not_true_eq_false, if_false, scan, base16]
    exact congrArg (fun run => (2 + List.length run, Nat.ofDigits 16 run.reverse))
      (digitRun_map (by decide) digits behind)

/-- A prefix that is not read ends the number at its `0`. -/
theorem scan_stuck (read : ReadWith base type b) (stuck : ¬ ReadsPrefix base type b) (t : List UInt8) :
    base = .hex ∧ (prefixText base type).length = 2 ∧ (scan (prefixText base type ++ t) b).1 = 1 := by
  unfold ReadsPrefix at stuck
  push Not at stuck
  obtain ⟨rfl, special, miss⟩ := stuck
  unfold prefixText
  rw [if_neg special]
  refine ⟨rfl, rfl, ?_⟩
  by_cases large : type &&& largeFlag = 0
  · obtain rfl : b = 16 := read.resolve_right fun zero => miss zero.1 large
    simp only [large, ne_eq, not_true_eq_false, if_false, scan, baseOf]
    rfl
  · rcases read with rfl | ⟨rfl, -⟩
    · simp only [large, ne_eq, not_false_eq_true, if_true, scan, baseOf]
      rfl
    · simp only [large, ne_eq, not_false_eq_true, if_true, scan, baseOf]
      rfl

/-- A text that begins with no number is not read at all. -/
theorem scanSigned_stop {c : UInt8} (plain : isXdigit c = false) (minus : c ≠ chr '-') (b : Nat) (t : List UInt8) :
    (scanSigned (c :: t) b).1 = 0 := by
  have zero : c ≠ chr '0' := by
    rintro rfl
    exact Bool.noConfusion plain
  have none : ∀ base, digitRun base (c :: t) = [] := by
    intro base
    apply digitRun_stop
    rw [List.getD_cons_zero, isDigitOf_eq, plain, Bool.false_and]
  have start : ∃ base, baseOf (c :: t) b = (0, base) := by
    unfold baseOf
    by_cases given : b = 0
    · rw [if_neg (not_ne_iff.2 given), if_pos (by simpa using zero)]
      exact ⟨10, rfl⟩
    · rw [if_pos given]
      exact ⟨b, rfl⟩
  obtain ⟨base, start⟩ := start
  rw [scanSigned, if_neg (by simpa using minus), scan, start]
  simp [none]

/-- The texts a reader reads whole: they start with a digit, or with a `-` and a digit,
and it gets past their prefix. -/
structure Readable (num : BitVec 64) (base : Base) (width precision : Int) (type b : Nat) : Prop where
  flush : blanksBefore num base width precision type = 0
  sign : signText num type = [] ∨ signText num type = [chr '-']
  ready : ReadsPrefix base type b

/-- The value of the sign and the digits of a number is the number. -/
theorem signed_value : (signText num type = [] → BitVec.ofNat 64 (magnitude num type) = num) ∧
    (signText num type = [chr '-'] → -BitVec.ofNat 64 (magnitude num type) = num) := by
  have word := num.isLt
  have signed := BitVec.toInt_eq_toNat_cond num
  unfold signText magnitude
  by_cases unsigned : type &&& signFlag = 0
  · rw [if_pos unsigned, if_pos unsigned]
    refine ⟨fun _ => ?_, fun absurd => (by cases absurd)⟩
    rw [BitVec.ofNat_toNat, BitVec.setWidth_eq]
  rw [if_neg unsigned, if_neg unsigned]
  by_cases negative : num.toInt < 0
  · rw [if_pos negative]
    refine ⟨fun absurd => (by cases absurd), fun _ => ?_⟩
    apply BitVec.eq_of_toNat_eq
    rw [BitVec.toNat_neg, BitVec.toNat_ofNat]
    split at signed <;> omega
  · rw [if_neg negative]
    constructor
    · intro _
      apply BitVec.eq_of_toNat_eq
      rw [BitVec.toNat_ofNat]
      split at signed <;> omega
    · intro other
      split at other
      · exact absurd (List.cons.inj other).1 (by decide)
      · split at other
        · exact absurd (List.cons.inj other).1 (by decide)
        · cases other

/-- What a reader makes of the sign and of what stands behind it. -/
theorem scanSigned_sign {body : List UInt8} (sign : signText num type = [] ∨ signText num type = [chr '-'])
    (plain : body.getD 0 0 ≠ chr '-') : (scanSigned (signText num type ++ body) b).1 =
      (signText num type).length + (scan body b).1 ∧
    ((scan body b).2 = magnitude num type → (scanSigned (signText num type ++ body) b).2 = num) := by
  obtain ⟨positive, negative⟩ := @signed_value num type
  rcases sign with none | minus
  · rw [none, List.nil_append, scanSigned, if_neg plain, List.length_nil, Nat.zero_add]
    exact ⟨rfl, fun value => by rw [value]; exact positive none⟩
  · rw [minus, scanSigned, if_pos (show ([chr '-'] ++ body).getD 0 0 = chr '-' from rfl)]
    exact ⟨Nat.add_comm _ _, fun value => by rw [← negative minus, ← value]; rfl⟩

theorem signText_cases (num : BitVec 64) (type : Nat) : (signText num type = [] ∨ signText num type = [chr '-']) ∨
    ∃ c, signText num type = [c] ∧ isXdigit c = false ∧ c ≠ chr '-' := by
  unfold signText
  split
  · exact .inl (.inl rfl)
  split
  · exact .inl (.inr rfl)
  split
  · exact .inr ⟨chr '+', rfl, by decide, by decide⟩
  split
  · exact .inr ⟨chr ' ', rfl, by decide, by decide⟩
  · exact .inl (.inl rfl)

/-- Neither the prefix nor a digit looks like a sign. -/
theorem body_plain (type : Nat) (digits : ∀ d ∈ run, d < base.radix) (nonempty : run ≠ []) (t : List UInt8) :
    (prefixText base type ++ (run.map ((digitTable type).getD · 0) ++ t)).getD 0 0 ≠ chr '-' := by
  obtain ⟨d, run', rfl⟩ := List.exists_cons_of_ne_nil nonempty
  have lt : d < 16 := (digits d List.mem_cons_self).trans_le (by cases base <;> decide)
  have plain := (digit_char_plain type lt).2
  unfold prefixText
  split
  · exact plain
  · cases base with
    | dec => exact plain
    | oct => exact (by decide : chr '0' ≠ chr '-')
    | hex => exact (by decide : chr '0' ≠ chr '-')

/-- **A reader and a writer.** What `number` writes for any number, base, width,
precision and flags, anywhere in a line, is read back whole and with its value,
exactly when no blank and no `+` stands before it and it has no prefix that the
reader, given the base of the number or 0, does not know. -/
theorem number_reads_back (num : BitVec 64) (base : Base) (width precision : Int) (type b : Nat)
    (range : IntRange num base width precision type) (read : ReadWith base type b) (before rest : List UInt8)
    (behind : isDigitOf base.radix (rest.getD 0 0) = false) :
    ∃ text, number collect [] num base width precision type = text.map .char ∧
      (simpleStrtol (before ++ (text ++ rest)) before.length b =
          some (before.length + (text.length - blanksBehind num base width precision type), num) ↔
        Readable num base width precision type b) := by
  refine ⟨numberText num base width precision type (shown num base type), ?_, ?_⟩
  · rw [number_eq_putAll range, putAll_collect, List.nil_append]
    rfl
  obtain ⟨digits, nonempty, value⟩ := @paddedDigits_spec num base width precision type
  have many := List.length_pos_iff.2 nonempty
  have length : (numberText num base width precision type (shown num base type)).length -
      blanksBehind num base width precision type = blanksBefore num base width precision type +
        ((signText num type).length + ((prefixText base type).length +
          (paddedDigits num base width precision type).length)) := by
    rw [numberText_eq]
    simp only [List.length_append, List.length_replicate, List.length_map]
    omega
  rw [strtol_spec b (by simp), List.drop_left, length, numberText_eq]
  have flush := @Readable.flush num base width precision type b
  have complete := @Readable.mk num base width precision type b
  generalize paddedDigits num base width precision type = run at *
  generalize blanksBefore num base width precision type = lead at *
  simp only [List.append_assoc]
  -- what follows the digits is a blank or the rest of the line
  have stop : isDigitOf base.radix ((List.replicate (blanksBehind num base width precision type) (chr ' ') ++
      rest).getD 0 0) = false := by
    cases blanksBehind num base width precision type with
    | zero => exact behind
    | succ n => exact rfl
  generalize List.replicate (blanksBehind num base width precision type) (chr ' ') ++ rest = t at *
  have plain := body_plain type digits nonempty t
  constructor
  · intro whole
    have here := Nat.add_left_cancel (Prod.mk.inj (Option.some_inj.1 whole)).1
    have noBlank : lead = 0 := by
      cases lead with
      | zero => rfl
      | succ n =>
        have absurd := here.symm.trans (scanSigned_stop (c := chr ' ') (by decide) (by decide) b _)
        omega
    subst noBlank
    rw [List.replicate_zero, List.nil_append] at here
    rcases signText_cases num type with sign | ⟨c, other, notDigit, notMinus⟩
    · have end_ := (@scanSigned_sign num type b _ sign plain).1
      apply complete rfl sign
      by_contra stuck
      obtain ⟨-, two, one⟩ := scan_stuck read stuck (run.map ((digitTable type).getD · 0) ++ t)
      omega
    · rw [other] at here
      have absurd := here.symm.trans (scanSigned_stop notDigit notMinus b _)
      omega
  · intro readable
    obtain rfl := flush readable
    obtain ⟨end_, number⟩ := @scanSigned_sign num type b _ readable.sign plain
    have body := scan_body read readable.ready digits nonempty stop
    rw [List.replicate_zero, List.nil_append, end_, number (by rw [body]; exact value), body, Nat.zero_add]

end

/-- `-42` to the left in six places, between other text. -/
theorem number_reads_back_left : ∃ text,
    number collect [] (-42) .dec 6 (-1) (signFlag ||| leftFlag) = text.map .char ∧
      simpleStrtol ("n=".toList.map chr ++ (text ++ [chr ';'])) 2 10 =
        some (2 + (text.length - blanksBehind (-42) .dec 6 (-1) (signFlag ||| leftFlag)), -42) := by
  have range : IntRange (-42) .dec 6 (-1) (signFlag ||| leftFlag) := by
    have length : (numeral .dec 42).length = 2 := by simp [numeral, Base.radix]
    have shown : magnitude (-42) (signFlag ||| leftFlag) = 42 := by decide
    constructor
    · decide
    · rw [shown, bodyLength, length]
      decide
  obtain ⟨text, writes, reads⟩ := number_reads_back (-42) .dec 6 (-1) (signFlag ||| leftFlag) 10 range (.inl rfl)
    ("n=".toList.map chr) [chr ';'] (by decide)
  exact ⟨text, writes, reads.2 ⟨rfl, .inr rfl, fun hex => by cases hex⟩⟩

end MiaowOs
