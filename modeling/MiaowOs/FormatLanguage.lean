import MiaowOs.Printk

/-!
# The language of formats

A format is a sequence of characters and conversions. `Item` is its abstract
syntax, with a spelling and a meaning; `vsnprintf` reads the spelling of every
format as what it means. From the syntax a length can be computed that no
arguments exceed, so that a message can be known to fit before it is printed.
-/

namespace MiaowOs
open Bytes

/-- A string literal. -/
def chars (text : String) : List UInt8 := text.toList.map chr

/-- The decimal digits of a number, as characters. -/
def decimal (value : Nat) : List UInt8 := (numeral .dec value).map (smallDigits.getD · 0)

/-! ## Syntax -/

inductive Flag
  | left
  | plus
  | space
  | special
  | zeroPad
deriving DecidableEq, Repr

def Flag.char : Flag → UInt8
  | .left => chr '-'
  | .plus => chr '+'
  | .space => chr ' '
  | .special => chr '#'
  | .zeroPad => chr '0'

def Flag.bit : Flag → Nat
  | .left => leftFlag
  | .plus => plusFlag
  | .space => spaceFlag
  | .special => specialFlag
  | .zeroPad => zeroPadFlag

/-- A field width. A literal one does not begin with 0, which is a flag. -/
inductive Width
  | unset
  | literal (n : Nat) (pos : 0 < n) (small : n < 2 ^ 31)
  | star

inductive Precision
  | unset
  /-- A dot alone. -/
  | dot
  | literal (n : Nat) (small : n < 2 ^ 31)
  | star

inductive Qualifier
  | h
  | l
  | L
  | Z
deriving DecidableEq, Repr

def Qualifier.char : Qualifier → UInt8
  | .h => chr 'h'
  | .l => chr 'l'
  | .L => chr 'L'
  | .Z => chr 'Z'

/-- The character is not read as part of what stands before it in a conversion. -/
def Apart (c : UInt8) : Prop :=
  c ≠ 0 ∧ flagOf c = none ∧ isDigit c = false ∧ c ≠ chr '*' ∧ c ≠ chr '.' ∧
    ¬(c = chr 'h' ∨ c = chr 'l' ∨ c = chr 'L' ∨ c = chr 'Z')

instance (c : UInt8) : Decidable (Apart c) := inferInstanceAs (Decidable (_ ∧ _))

/-- A conversion. -/
structure Spec where
  flags : List Flag
  width : Width
  precision : Precision
  qualifier : Option Qualifier
  verb : UInt8
  apart : Apart verb

/-- A part of a format. -/
inductive Item
  | plain (c : UInt8) (text : c ≠ 0 ∧ c ≠ chr '%')
  | spec (s : Spec)

/-! ## Spelling -/

def Width.text : Width → List UInt8
  | .unset => []
  | .literal n _ _ => decimal n
  | .star => [chr '*']

def Precision.text : Precision → List UInt8
  | .unset => []
  | .dot => [chr '.']
  | .literal n _ => chr '.' :: decimal n
  | .star => [chr '.', chr '*']

def qualifierText (q : Option Qualifier) : List UInt8 := (q.map Qualifier.char).toList

/-- A conversion behind its `%`. -/
def Spec.body (s : Spec) : List UInt8 :=
  s.flags.map Flag.char ++ (s.width.text ++ (s.precision.text ++ (qualifierText s.qualifier ++ [s.verb])))

def Item.text : Item → List UInt8
  | .plain c _ => [c]
  | .spec s => chr '%' :: s.body

/-- The spelling of a format. -/
def spell (items : List Item) : List UInt8 := items.flatMap Item.text

/-! ## Meaning -/

/-- The next argument, the flags and the field width. -/
def Width.value (args : Nat → Arg) (k flags : Nat) : Width → Nat × Nat × Int
  | .unset => (k, flags, -1)
  | .literal n _ _ => (k, flags, n)
  | .star =>
    if (args k).int < 0 then (k + 1, flags ||| leftFlag, int32 (-(args k).int)) else (k + 1, flags, (args k).int)

/-- The next argument and the precision. -/
def Precision.value (args : Nat → Arg) (k : Nat) : Precision → Nat × Int
  | .unset => (k, -1)
  | .dot => (k, 0)
  | .literal n _ => (k, n)
  | .star => (k + 1, if (args k).int < 0 then 0 else (args k).int)

def flagBits (flags : List Flag) (bits : Nat) : Nat := flags.foldl (fun bits flag => bits ||| flag.bit) bits

/-- What a conversion says, with the arguments from `k` on. -/
def Spec.conversion (s : Spec) (args : Nat → Arg) (k pos : Nat) : Conversion :=
  let w := s.width.value args k (flagBits s.flags 0)
  let p := s.precision.value args w.1
  ⟨pos, w.2.1, w.2.2, p.2, s.qualifier.map Qualifier.char, p.1⟩

section
variable {σ : Type} (emit : σ → Piece → σ) (args : Nat → Arg)

/-- What an item writes, with the next argument. -/
def Item.write (at_ : σ × Nat) : Item → σ × Nat
  | .plain c _ => (emit at_.1 (.char c), at_.2)
  | .spec s =>
    let r := convert emit args (s.conversion args at_.2 0) s.verb at_.1
    (r.1, r.2.1)

/-- What a format writes, with the next argument. -/
def writeAll (items : List Item) (at_ : σ × Nat) : σ × Nat := items.foldl (Item.write emit args) at_

end

/-! ## Reading a spelling -/

/-- The format holds these characters from `i` on. -/
def Reads (fmt : List UInt8) (i : Nat) (s : List UInt8) : Prop := s <+: (fmt ++ [0]).drop i

section
variable {fmt s t : List UInt8} {args : Nat → Arg} {c : UInt8} {i k flags fuel bits : Nat}

theorem Reads.head (reads : Reads fmt i (c :: s)) : fmtAt fmt i = some c := by
  obtain ⟨rest, eq⟩ := reads
  rw [fmtAt, ← List.head?_drop, ← eq]
  rfl

theorem Reads.right (reads : Reads fmt i (s ++ t)) : Reads fmt (i + s.length) t := by
  obtain ⟨rest, eq⟩ := reads
  refine ⟨rest, ?_⟩
  rw [← List.drop_drop, ← eq, List.append_assoc, List.drop_left]

theorem Reads.left (reads : Reads fmt i (s ++ t)) : Reads fmt i s := (List.prefix_append s t).trans reads

theorem Reads.tail (reads : Reads fmt i (c :: s)) : Reads fmt (i + 1) s := Reads.right (s := [c]) reads

theorem Reads.length_le (reads : Reads fmt i s) : s.length ≤ fmt.length + 1 := by
  have le := List.IsPrefix.length_le reads
  rw [List.length_drop, List.length_append, List.length_singleton] at le
  omega

/-- Digits read from the first one on. -/
def horner (ds : List Nat) (n : Nat) : Nat := ds.foldl (fun n d => d + 10 * n) n

theorem le_horner (ds : List Nat) (n : Nat) : n ≤ horner ds n := by
  induction ds generalizing n with
  | nil => exact le_rfl
  | cons d ds ih => exact le_trans (by omega) (ih (d + 10 * n))

theorem horner_numeral (n : Nat) : horner (numeral .dec n) 0 = n := by
  have value := (numeral_spec .dec n).value
  rw [Nat.ofDigits_eq_foldr, List.foldr_reverse] at value
  exact value

theorem decimalChar_spec {d : Nat} (lt : d < 10) :
    isDigit (smallDigits.getD d 0) = true ∧ (smallDigits.getD d 0).toNat = d + (chr '0').toNat := by
  have all : ∀ d < 10, isDigit (smallDigits.getD d 0) = true ∧ (smallDigits.getD d 0).toNat = d + (chr '0').toNat := by
    decide
  exact all d lt

/-- `skip_atoi` on digits that stay in an `int`. -/
theorem skipAtoi_digits {ds : List Nat} {n : Nat} (digits : ∀ d ∈ ds, d < 10)
    (reads : Reads fmt i (ds.map (smallDigits.getD · 0) ++ c :: s)) (stop : isDigit c = false)
    (small : horner ds n < 2 ^ 31) (enough : ds.length < fuel) :
    skipAtoi fmt fuel i n = some (i + ds.length, (horner ds n : Int)) := by
  induction ds generalizing i n fuel with
  | nil =>
    obtain ⟨fuel, rfl⟩ := Nat.exists_eq_add_of_lt enough
    rw [List.map_nil, List.nil_append] at reads
    rw [List.length_nil, Nat.zero_add, skipAtoi, reads.head]
    simp only [Option.bind_eq_bind, Option.bind_some]
    rw [if_neg (by simp [stop])]
    rfl
  | cons d ds ih =>
    rw [List.length_cons] at enough
    obtain ⟨fuel, rfl⟩ : ∃ f, fuel = f + 1 := ⟨fuel - 1, by omega⟩
    obtain ⟨isd, value⟩ := decimalChar_spec (digits d List.mem_cons_self)
    rw [List.map_cons, List.cons_append] at reads
    have bound : d + 10 * n < 2 ^ 31 := lt_of_le_of_lt (le_horner ds _) small
    have next : int32 ((n : Int) * 10 + (smallDigits.getD d 0).toNat - (chr '0').toNat) = ((d + 10 * n : Nat) : Int) := by
      rw [value, ← int32_of_lt bound]
      congr 1
      push_cast
      ring
    rw [skipAtoi, reads.head]
    simp only [Option.bind_eq_bind, Option.bind_some]
    rw [if_pos isd, next, ih (fun d mem => digits d (List.mem_cons_of_mem _ mem)) reads.tail small (by omega),
      List.length_cons, Nat.add_assoc, Nat.add_comm 1]
    rfl

/-- `skip_atoi` reads a number back. -/
theorem skipAtoi_decimal {n : Nat} (reads : Reads fmt i (decimal n ++ c :: s)) (stop : isDigit c = false)
    (small : n < 2 ^ 31) : skipAtoi fmt (fmt.length + 1) i 0 = some (i + (decimal n).length, (n : Int)) := by
  have room := reads.length_le
  rw [List.length_append, List.length_cons, decimal, List.length_map] at room
  have run := @skipAtoi_digits fmt s c i (fmt.length + 1) (numeral .dec n) 0 (numeral_spec .dec n).digit reads stop
    (by rwa [horner_numeral]) (by omega)
  rw [horner_numeral] at run
  rw [decimal, List.length_map]
  exact run

theorem decimal_head (n : Nat) : ∃ d ds, decimal n = smallDigits.getD d 0 :: ds ∧ d < 10 ∧ (0 < n → 0 < d) := by
  have spec := numeral_spec .dec n
  unfold decimal
  rcases shape : numeral .dec n with - | ⟨d, ds⟩
  · exact absurd shape spec.nonempty
  · refine ⟨d, ds.map (smallDigits.getD · 0), rfl, spec.digit d (by rw [shape]; exact List.mem_cons_self), fun pos => ?_⟩
    rcases Nat.eq_zero_or_pos d with rfl | here
    · have alone := spec.leading (by rw [shape]; rfl)
      have value := spec.value
      rw [alone] at value
      exact absurd value.symm (Nat.pos_iff_ne_zero.1 pos)
    · exact here

/-! ### The parts of a conversion -/

theorem flagOf_char (flag : Flag) : flagOf flag.char = some flag.bit := by cases flag <;> decide

theorem flagsLoop_flags {fs : List Flag} (reads : Reads fmt (i + 1) (fs.map Flag.char ++ c :: s)) (stop : flagOf c = none)
    (enough : fs.length < fuel) : flagsLoop fmt fuel i bits = some (i + 1 + fs.length, flagBits fs bits) := by
  induction fs generalizing i bits fuel with
  | nil =>
    obtain ⟨fuel, rfl⟩ := Nat.exists_eq_add_of_lt enough
    rw [List.map_nil, List.nil_append] at reads
    rw [List.length_nil, Nat.zero_add, flagsLoop, reads.head]
    simp only [Option.bind_eq_bind, Option.bind_some, stop]
    rfl
  | cons flag fs ih =>
    rw [List.length_cons] at enough
    obtain ⟨fuel, rfl⟩ : ∃ f, fuel = f + 1 := ⟨fuel - 1, by omega⟩
    rw [List.map_cons, List.cons_append] at reads
    rw [flagsLoop, reads.head]
    simp only [Option.bind_eq_bind, Option.bind_some, flagOf_char]
    rw [ih reads.tail (by omega), List.length_cons, show i + 1 + 1 + fs.length = i + 1 + (fs.length + 1) by omega]
    rfl

theorem readWidth_width {w : Width} (reads : Reads fmt i (w.text ++ c :: s)) (digit : isDigit c = false)
    (star : c ≠ chr '*') :
    readWidth fmt args i k flags = some (i + w.text.length, w.value args k flags) := by
  unfold readWidth
  cases w with
  | unset =>
    rw [Reads.head reads]
    simp only [Option.bind_eq_bind, Option.bind_some]
    rw [if_neg (by simp [digit]), if_neg star]
    rfl
  | literal n pos small =>
    obtain ⟨d, ds, shape, lt, -⟩ := decimal_head n
    have first : fmtAt fmt i = some (smallDigits.getD d 0) := by
      have here := reads
      rw [Width.text, shape, List.cons_append] at here
      exact here.head
    rw [first]
    simp only [Option.bind_eq_bind, Option.bind_some]
    rw [if_pos (decimalChar_spec lt).1, skipAtoi_decimal reads digit small]
    rfl
  | star =>
    have first : fmtAt fmt i = some (chr '*') := Reads.head (s := c :: s) reads
    rw [first]
    simp only [Option.bind_eq_bind, Option.bind_some]
    rw [if_neg (by decide), if_pos trivial]
    unfold Width.value
    split <;> rfl

theorem readPrecision_precision {p : Precision} (reads : Reads fmt i (p.text ++ c :: s)) (digit : isDigit c = false)
    (star : c ≠ chr '*') (dot : c ≠ chr '.') :
    readPrecision fmt args i k = some (i + p.text.length, p.value args k) := by
  unfold readPrecision
  cases p with
  | unset =>
    rw [Reads.head reads]
    simp only [Option.bind_eq_bind, Option.bind_some]
    rw [if_neg dot]
    rfl
  | dot =>
    have first : fmtAt fmt i = some (chr '.') := Reads.head (s := c :: s) reads
    have second : fmtAt fmt (i + 1) = some c := (Reads.tail (s := c :: s) reads).head
    rw [first]
    simp only [Option.bind_eq_bind, Option.bind_some]
    rw [if_pos trivial, second]
    simp only [Option.bind_some]
    rw [if_neg (by simp [digit]), if_neg star]
    rfl
  | literal n small =>
    have first : fmtAt fmt i = some (chr '.') := Reads.head (s := decimal n ++ c :: s) reads
    have rest : Reads fmt (i + 1) (decimal n ++ c :: s) := Reads.tail (s := decimal n ++ c :: s) reads
    obtain ⟨d, ds, shape, lt, -⟩ := decimal_head n
    have second : fmtAt fmt (i + 1) = some (smallDigits.getD d 0) := by
      have here := rest
      rw [shape, List.cons_append] at here
      exact here.head
    rw [first]
    simp only [Option.bind_eq_bind, Option.bind_some]
    rw [if_pos trivial, second]
    simp only [Option.bind_some]
    rw [if_pos (decimalChar_spec lt).1, skipAtoi_decimal rest digit small]
    simp only [Option.bind_some, Option.pure_def]
    rw [if_neg (by omega), Precision.text, List.length_cons, Nat.add_assoc, Nat.add_comm 1]
    rfl
  | star =>
    have first : fmtAt fmt i = some (chr '.') := Reads.head (s := chr '*' :: c :: s) reads
    have second : fmtAt fmt (i + 1) = some (chr '*') := (Reads.tail (s := chr '*' :: c :: s) reads).head
    rw [first]
    simp only [Option.bind_eq_bind, Option.bind_some]
    rw [if_pos trivial, second]
    simp only [Option.bind_some]
    rw [if_neg (by decide), if_pos trivial]
    rfl

theorem readQualifier_qualifier {q : Option Qualifier} (reads : Reads fmt i (qualifierText q ++ c :: s))
    (stop : ¬(c = chr 'h' ∨ c = chr 'l' ∨ c = chr 'L' ∨ c = chr 'Z')) :
    readQualifier fmt i = some (i + (qualifierText q).length, q.map Qualifier.char) := by
  unfold readQualifier
  rcases q with - | q
  · rw [Reads.head (s := s) reads]
    simp only [Option.bind_eq_bind, Option.bind_some]
    rw [if_neg stop]
    rfl
  · rw [Reads.head (s := c :: s) reads]
    simp only [Option.bind_eq_bind, Option.bind_some]
    rw [if_pos (by cases q <;> decide)]
    rfl

/-! ### A whole conversion -/

/-- What follows the flags is no flag. -/
theorem Spec.after_flags (s : Spec) : ∃ c rest,
    s.width.text ++ (s.precision.text ++ (qualifierText s.qualifier ++ [s.verb])) = c :: rest ∧ flagOf c = none := by
  obtain ⟨-, verb, -⟩ := s.apart
  rcases hw : s.width with - | ⟨n, pos, small⟩ | -
  · rcases hp : s.precision with - | - | - | -
    · rcases hq : s.qualifier with - | q
      · exact ⟨s.verb, [], rfl, verb⟩
      · exact ⟨q.char, [s.verb], rfl, by cases q <;> decide⟩
    · exact ⟨_, _, rfl, by decide⟩
    · exact ⟨_, _, rfl, by decide⟩
    · exact ⟨_, _, rfl, by decide⟩
  · obtain ⟨d, ds, shape, lt, first⟩ := decimal_head n
    have digits : ∀ d < 10, 0 < d → flagOf (smallDigits.getD d 0) = none := by decide
    rw [Width.text, shape, List.cons_append]
    exact ⟨_, _, rfl, digits d lt (first pos)⟩
  · exact ⟨_, _, rfl, by decide⟩

/-- What follows the field width is not read as part of it. -/
theorem Spec.after_width (s : Spec) : ∃ c rest, s.precision.text ++ (qualifierText s.qualifier ++ [s.verb]) = c :: rest ∧
    isDigit c = false ∧ c ≠ chr '*' := by
  obtain ⟨-, -, digit, star, -⟩ := s.apart
  rcases s.precision with - | - | - | -
  · rcases s.qualifier with - | q
    · exact ⟨s.verb, [], rfl, digit, star⟩
    · exact ⟨q.char, [s.verb], rfl, by cases q <;> decide⟩
  · exact ⟨_, _, rfl, by decide⟩
  · exact ⟨_, _, rfl, by decide⟩
  · exact ⟨_, _, rfl, by decide⟩

/-- Nor is what follows the precision. -/
theorem Spec.after_precision (s : Spec) : ∃ c rest, qualifierText s.qualifier ++ [s.verb] = c :: rest ∧
    isDigit c = false ∧ c ≠ chr '*' ∧ c ≠ chr '.' := by
  obtain ⟨-, -, digit, star, dot, -⟩ := s.apart
  rcases s.qualifier with - | q
  · exact ⟨s.verb, [], rfl, digit, star, dot⟩
  · exact ⟨q.char, [s.verb], rfl, by cases q <;> decide⟩

/-- `vsnprintf` reads the spelling of a conversion. -/
theorem readConversion_body {s : Spec} (reads : Reads fmt (i + 1) s.body) :
    readConversion fmt args i k = some (s.conversion args k (i + s.body.length)) ∧
      fmtAt fmt (i + s.body.length) = some s.verb := by
  unfold Spec.body at reads
  have rest := reads.right
  have rest' := rest.right
  have rest'' := rest'.right
  obtain ⟨c, after, shape, stop⟩ := s.after_flags
  obtain ⟨c', after', shape', digit', star'⟩ := s.after_width
  obtain ⟨c'', after'', shape'', digit'', star'', dot''⟩ := s.after_precision
  have room := reads.length_le
  rw [List.length_append, List.length_append, List.length_append, List.length_append, List.length_map,
    List.length_singleton] at room
  rw [shape] at reads
  rw [shape'] at rest
  rw [shape''] at rest'
  rw [List.length_map] at rest rest' rest''
  have length : s.body.length = s.flags.length + (s.width.text.length + (s.precision.text.length +
      ((qualifierText s.qualifier).length + 1))) := by
    simp only [Spec.body, List.length_append, List.length_map, List.length_singleton]
  constructor
  · unfold readConversion
    rw [flagsLoop_flags reads stop (by omega)]
    simp only [Option.bind_eq_bind, Option.bind_some]
    rw [readWidth_width rest digit' star']
    simp only [Option.bind_some]
    rw [readPrecision_precision rest' digit'' star'' dot'']
    simp only [Option.bind_some]
    rw [readQualifier_qualifier rest'' s.apart.2.2.2.2.2, length, Spec.conversion]
    simp only [Option.bind_some, Option.pure_def]
    congr 2
    omega
  · have last := (Reads.right rest'').head
    rw [length, ← last]
    congr 1
    omega

/-- Where a conversion stands does not matter to what it writes. -/
theorem convert_pos_free {σ : Type} {emit : σ → Piece → σ} {v : Conversion} {o : σ} (some : c ≠ 0) :
    convert emit args v c o = ((convert emit args { v with pos := 0 } c o).1,
      (convert emit args { v with pos := 0 } c o).2.1, v.pos) := by
  have pair : ∀ {p : Prop} [Decidable p] {a b a' b' : σ × Nat × Nat}, a = (a'.1, a'.2.1, v.pos) →
      b = (b'.1, b'.2.1, v.pos) →
      (if p then a else b) = ((if p then a' else b').1, (if p then a' else b').2.1, v.pos) := by
    intro p _ a b a' b' left right
    split
    · exact left
    · exact right
  unfold convert
  dsimp only
  iterate 10 refine pair (by rfl) ?_
  rw [if_pos some, if_pos some]

/-! ### A whole format -/

/-- The loop of `vsnprintf` on the spelling of items. -/
theorem formatLoop_items {σ : Type} {emit : σ → Piece → σ} {items : List Item} {o : σ}
    (reads : Reads fmt i (spell items ++ [0])) (enough : items.length < fuel) :
    formatLoop emit fmt args fuel i k o = some (writeAll emit args items (o, k)).1 := by
  induction items generalizing i k o fuel with
  | nil =>
    obtain ⟨fuel, rfl⟩ := Nat.exists_eq_add_of_lt enough
    rw [List.length_nil, Nat.zero_add, formatLoop, Reads.head (s := []) reads]
    simp only [Option.bind_eq_bind, Option.bind_some]
    rfl
  | cons item items ih =>
    rw [List.length_cons] at enough
    obtain ⟨fuel, rfl⟩ : ∃ f, fuel = f + 1 := ⟨fuel - 1, by omega⟩
    have split : spell (item :: items) ++ [0] = item.text ++ (spell items ++ [0]) := by
      rw [spell, List.flatMap_cons, List.append_assoc]
      rfl
    rw [split] at reads
    cases item with
    | plain c text =>
      have first := Reads.head (s := spell items ++ [0]) reads
      rw [formatLoop, first]
      simp only [Option.bind_eq_bind, Option.bind_some]
      rw [if_neg text.1, if_pos text.2, ih (Reads.tail (s := spell items ++ [0]) reads) (by omega)]
      rfl
    | spec s =>
      have first := Reads.head (s := s.body ++ (spell items ++ [0])) reads
      have body := Reads.tail (s := s.body ++ (spell items ++ [0])) reads
      obtain ⟨run, verb⟩ := @readConversion_body fmt args i k s body.left
      have next := body.right
      rw [formatLoop, first]
      simp only [Option.bind_eq_bind, Option.bind_some]
      rw [if_neg (by decide), if_neg (by decide), run]
      simp only [Option.bind_some]
      rw [show (s.conversion args k (i + s.body.length)).pos = i + s.body.length from rfl, verb]
      simp only [Option.bind_some]
      rw [convert_pos_free s.apart.1]
      dsimp only
      rw [show (s.conversion args k (i + s.body.length)).pos = i + s.body.length from rfl,
        show i + s.body.length + 1 = i + 1 + s.body.length by omega, ih next (by omega)]
      rfl

theorem length_le_spell (items : List Item) : items.length ≤ (spell items).length := by
  induction items with
  | nil => exact le_rfl
  | cons item items ih =>
    have one : 1 ≤ item.text.length := by
      cases item with
      | plain c text => exact le_rfl
      | spec s => exact Nat.succ_le_succ (Nat.zero_le _)
    rw [spell, List.flatMap_cons, List.length_append, List.length_cons]
    have rest : items.length ≤ (items.flatMap Item.text).length := ih
    omega

/-- **The scanner**: on the spelling of a format, `vsnprintf` writes what the format
means. -/
theorem formatLoop_spell {σ : Type} (emit : σ → Piece → σ) (items : List Item) (args : Nat → Arg) (o : σ) :
    formatLoop emit (spell items) args ((spell items).length + 1) 0 0 o = some (writeAll emit args items (o, 0)).1 :=
  formatLoop_items (List.prefix_rfl) (Nat.lt_succ_of_le (length_le_spell items))

end

/-! ## How long a text can be -/

/-- The field width, where the format alone tells it. -/
def Width.most : Width → Option Nat
  | .unset => some 0
  | .literal n _ _ => if n ≤ 2 ^ 30 then some n else none
  | .star => none

def Precision.most : Precision → Option Nat
  | .unset => some 0
  | .dot => some 0
  | .literal n _ => if n ≤ 2 ^ 30 then some n else none
  | .star => none

/-- The conversions of integers. -/
def integerVerbs : List UInt8 := ['p', 'o', 'X', 'x', 'd', 'i', 'u'].map chr

/-- No arguments make the conversion longer: a number needs a sign, a prefix, and 22
octal digits at most. -/
def Spec.most (s : Spec) : Option Nat :=
  if s.verb = chr '%' then some 1
  else if s.verb ∈ integerVerbs then do
    let width ← s.width.most
    let precision ← s.precision.most
    return max width (3 + max precision 22)
  else none

def Item.most : Item → Option Nat
  | .plain _ _ => some 1
  | .spec s => s.most

/-- No arguments make the text longer. -/
def textBound : List Item → Option Nat
  | [] => some 0
  | item :: items => do
    let first ← item.most
    let rest ← textBound items
    return first + rest

def Width.arity : Width → Nat
  | .star => 1
  | _ => 0

def Precision.arity : Precision → Nat
  | .star => 1
  | _ => 0

/-- How many arguments a conversion takes. -/
def Spec.arity (s : Spec) : Nat :=
  s.width.arity + s.precision.arity + if s.verb ∈ integerVerbs ++ ['c', 's', 'n'].map chr then 1 else 0

def Item.arity : Item → Nat
  | .plain _ _ => 0
  | .spec s => s.arity

/-- How many arguments a format takes. -/
def formatArity (items : List Item) : Nat := (items.map Item.arity).sum

section
variable {args : Nat → Arg} {k : Nat} {num : BitVec 64} {base : Base} {width precision : Int} {type w p : Nat}

theorem magnitude_lt (num : BitVec 64) (type : Nat) : magnitude num type < 2 ^ 64 := by
  have word := num.isLt
  have low := @BitVec.le_toInt 64 num
  have high := @BitVec.toInt_lt 64 num
  unfold magnitude
  split
  · exact word
  · omega

theorem numeral_length_le {n : Nat} (base : Base) (word : n < 2 ^ 64) : (numeral base n).length ≤ 22 := by
  unfold numeral
  split
  · show 1 ≤ 22
    decide
  · rw [List.length_reverse]
    have big : 1 < base.radix := by cases base <;> decide
    have room : 2 ^ 64 ≤ base.radix ^ 22 := by cases base <;> decide
    exact (Nat.digits_length_le_iff big n).2 (word.trans_le room)

theorem digitTable_ne_zero {d : Nat} (type : Nat) (lt : d < 16) : (digitTable type).getD d 0 ≠ 0 := by
  have small : ∀ d < 16, smallDigits.getD d 0 ≠ 0 := by decide
  have large : ∀ d < 16, largeDigits.getD d 0 ≠ 0 := by decide
  unfold digitTable
  split
  · exact large d lt
  · exact small d lt

theorem numberText_ne_zero {n : Nat} : ∀ c ∈ numberText num base width precision type (numeral base n), c ≠ 0 := by
  have pads : ∀ (n : Nat) (c : UInt8), c ≠ 0 → ∀ d ∈ List.replicate n c, d ≠ 0 := by
    intro n c ne d mem
    rw [List.eq_of_mem_replicate mem]
    exact ne
  have sign : ∀ c ∈ signText num type, c ≠ 0 := by
    unfold signText
    split_ifs
    · exact fun c none => absurd none List.not_mem_nil
    · exact List.forall_mem_singleton.2 (by decide)
    · exact List.forall_mem_singleton.2 (by decide)
    · exact List.forall_mem_singleton.2 (by decide)
    · exact fun c none => absurd none List.not_mem_nil
  have pre : ∀ c ∈ prefixText base type, c ≠ 0 := by
    unfold prefixText
    split
    · exact fun c none => absurd none List.not_mem_nil
    · cases base with
      | oct => exact List.forall_mem_singleton.2 (by decide)
      | dec => exact fun c none => absurd none List.not_mem_nil
      | hex => exact List.forall_mem_cons.2 ⟨by decide, List.forall_mem_singleton.2 (by split_ifs <;> decide)⟩
  have digits : ∀ c ∈ (numeral base n).map ((digitTable type).getD · 0), c ≠ 0 := by
    intro c mem
    obtain ⟨d, here, rfl⟩ := List.mem_map.1 mem
    have radix : base.radix ≤ 16 := by cases base <;> decide
    exact digitTable_ne_zero type (lt_of_lt_of_le ((numeral_spec base n).digit d here) radix)
  intro c mem
  simp only [numberText, List.mem_append] at mem
  obtain (((((left | mem) | mem) | zeros) | zeros) | mem) | right := mem
  · exact pads _ _ (by decide) c left
  · exact sign c mem
  · exact pre c mem
  · exact pads _ _ (by decide) c zeros
  · exact pads _ _ (by decide) c zeros
  · exact digits c mem
  · exact pads _ _ (by decide) c right

/-- A number of bounded width and precision is written as a bounded text. -/
theorem number_text (low : -1 ≤ width) (hw : width ≤ w) (hp : precision ≤ p) (fits : w ≤ 2 ^ 30) (fits' : p ≤ 2 ^ 30) :
    ∃ text : List UInt8, text.length ≤ max w (3 + max p 22) ∧ (∀ c ∈ text, c ≠ 0) ∧
      ∀ {σ : Type} (emit : σ → Piece → σ) (o : σ), number emit o num base width precision type = putAll emit text o := by
  have digits := numeral_length_le base (magnitude_lt num type)
  have sign : (signText num type).length ≤ 1 := by
    unfold signText
    split_ifs <;> decide
  have pre : (prefixText base type).length ≤ 2 := by
    unfold prefixText
    cases base <;> split_ifs <;> simp
  have loops : padLoops type ≤ 3 := by
    unfold padLoops
    split_ifs <;> omega
  have body : bodyLength num base precision type (numeral base (magnitude num type)).length ≤ 3 + max p 22 := by
    unfold bodyLength
    omega
  refine ⟨numberText num base width precision type (numeral base (magnitude num type)), ?_, numberText_ne_zero, ?_⟩
  · have length := @length_numberText num base width precision type (numeral base (magnitude num type))
    omega
  · intro σ emit o
    exact number_eq_putAll ⟨by omega, by omega⟩

theorem Width.value_of_most {wd : Width} {flags : Nat} (most : wd.most = some w) :
    ∃ width, wd.value args k flags = (k, flags, width) ∧ -1 ≤ width ∧ width ≤ w ∧ w ≤ 2 ^ 30 := by
  cases wd with
  | unset =>
    obtain rfl := Option.some_inj.1 most
    exact ⟨-1, rfl, le_rfl, by decide, by decide⟩
  | literal n pos small =>
    rw [Width.most] at most
    split at most
    · next le =>
      obtain rfl := Option.some_inj.1 most
      exact ⟨n, rfl, by omega, le_rfl, le⟩
    · cases most
  | star => cases most

theorem Precision.value_of_most {pr : Precision} (most : pr.most = some p) :
    ∃ precision, pr.value args k = (k, precision) ∧ precision ≤ p ∧ p ≤ 2 ^ 30 := by
  cases pr with
  | unset =>
    obtain rfl := Option.some_inj.1 most
    exact ⟨-1, rfl, by decide, by decide⟩
  | dot =>
    obtain rfl := Option.some_inj.1 most
    exact ⟨0, rfl, by decide, by decide⟩
  | literal n small =>
    rw [Precision.most] at most
    split at most
    · next le =>
      obtain rfl := Option.some_inj.1 most
      exact ⟨n, rfl, le_rfl, le⟩
    · cases most
  | star => cases most

theorem Width.value_next {wd : Width} {flags : Nat} : (wd.value args k flags).1 = k + wd.arity := by
  cases wd with
  | unset => rfl
  | literal n pos small => rfl
  | star =>
    simp only [Width.value, Width.arity]
    split <;> rfl

theorem Precision.value_next {pr : Precision} : (pr.value args k).1 = k + pr.arity := by cases pr <;> rfl

theorem Spec.conversion_next (s : Spec) (pos : Nat) :
    (s.conversion args k pos).next = k + (s.width.arity + s.precision.arity) := by
  rw [Spec.conversion, ← Nat.add_assoc, ← Width.value_next]
  exact Precision.value_next

/-- The conversions of integers are calls of `number`. -/
theorem convert_integer {v : Conversion} {c : UInt8} (integer : c ∈ integerVerbs) : ∃ num base width type,
    (width = v.fieldWidth ∨ v.fieldWidth = -1 ∧ width = 16) ∧
      ∀ {σ : Type} (emit : σ → Piece → σ) (o : σ),
        convert emit args v c o = (number emit o num base width v.precision type, v.next + 1, v.pos) := by
  simp only [integerVerbs, List.map_cons, List.map_nil, List.mem_cons, List.not_mem_nil, or_false] at integer
  obtain rfl | rfl | rfl | rfl | rfl | rfl | rfl := integer
  · by_cases unset : v.fieldWidth = -1
    · refine ⟨(args v.next).word, .hex, 16, v.flags ||| zeroPadFlag, .inr ⟨unset, rfl⟩, fun emit o => ?_⟩
      unfold convert
      dsimp only
      rw [if_neg (by decide), if_neg (by decide), if_pos rfl, if_pos unset]
    · refine ⟨(args v.next).word, .hex, v.fieldWidth, v.flags, .inl rfl, fun emit o => ?_⟩
      unfold convert
      dsimp only
      rw [if_neg (by decide), if_neg (by decide), if_pos rfl, if_neg unset]
  · exact ⟨_, .oct, _, _, .inl rfl, fun emit o => rfl⟩
  · exact ⟨_, .hex, _, _, .inl rfl, fun emit o => rfl⟩
  · exact ⟨_, .hex, _, _, .inl rfl, fun emit o => rfl⟩
  · exact ⟨_, .dec, _, _, .inl rfl, fun emit o => rfl⟩
  · exact ⟨_, .dec, _, _, .inl rfl, fun emit o => rfl⟩
  · exact ⟨_, .dec, _, _, .inl rfl, fun emit o => rfl⟩

/-- The text of a conversion whose length is bounded. -/
theorem Spec.text_of_most {s : Spec} {b : Nat} (most : s.most = some b) : ∃ text : List UInt8, text.length ≤ b ∧
    (∀ c ∈ text, c ≠ 0) ∧ ∀ {σ : Type} (emit : σ → Piece → σ) (o : σ),
      (Item.spec s).write emit args (o, k) = (putAll emit text o, k + s.arity) := by
  have next := @Spec.conversion_next args k s 0
  unfold Spec.most at most
  split at most
  · next percent =>
    obtain rfl := Option.some_inj.1 most
    have arity : s.arity = s.width.arity + s.precision.arity := by
      rw [Spec.arity, percent, if_neg (by decide), Nat.add_zero]
    refine ⟨[chr '%'], le_rfl, List.forall_mem_singleton.2 (by decide), fun emit o => ?_⟩
    rw [Item.write, arity, ← next, percent]
    rfl
  split at most
  · next integer =>
    obtain ⟨w, hw, rest⟩ := Option.bind_eq_some_iff.1 most
    obtain ⟨p, hp, rest⟩ := Option.bind_eq_some_iff.1 rest
    obtain rfl := Option.some_inj.1 rest
    obtain ⟨width, widthEq, low, le, fits⟩ := @Width.value_of_most args k w s.width (flagBits s.flags 0) hw
    obtain ⟨precision, precisionEq, le', fits'⟩ := @Precision.value_of_most args k p s.precision hp
    have field : (s.conversion args k 0).fieldWidth = width ∧ (s.conversion args k 0).precision = precision := by
      rw [Spec.conversion, widthEq, precisionEq]
      exact ⟨rfl, rfl⟩
    obtain ⟨num, base, width', type, which, run⟩ := @convert_integer args (s.conversion args k 0) s.verb integer
    rw [field.1] at which
    have low' : -1 ≤ width' := by omega
    have arity : s.arity = s.width.arity + s.precision.arity + 1 := by
      rw [Spec.arity, if_pos (List.mem_append_left _ integer)]
    have le'' : width' ≤ (max w 16 : Nat) := by omega
    obtain ⟨text, short, nonzero, write⟩ := @number_text num base width' precision type (max w 16) p low' le'' le'
      (by omega) fits'
    refine ⟨text, by omega, nonzero, fun emit o => ?_⟩
    rw [Item.write]
    dsimp only
    rw [run emit o, field.2, write emit o, next, arity, Nat.add_assoc]
  · cases most

theorem Item.text_of_most {item : Item} {b : Nat} (most : item.most = some b) : ∃ text : List UInt8, text.length ≤ b ∧
    (∀ c ∈ text, c ≠ 0) ∧ ∀ {σ : Type} (emit : σ → Piece → σ) (o : σ),
      item.write emit args (o, k) = (putAll emit text o, k + item.arity) := by
  cases item with
  | plain c text =>
    obtain rfl := Option.some_inj.1 most
    exact ⟨[c], le_rfl, List.forall_mem_singleton.2 text.1, fun emit o => rfl⟩
  | spec s => exact Spec.text_of_most most

/-- The text of a format whose length is bounded. -/
theorem writeAll_of_bound {items : List Item} {b : Nat} (bound : textBound items = some b) :
    ∃ text : List UInt8, text.length ≤ b ∧ (∀ c ∈ text, c ≠ 0) ∧ ∀ {σ : Type} (emit : σ → Piece → σ) (o : σ),
      writeAll emit args items (o, k) = (putAll emit text o, k + formatArity items) := by
  induction items generalizing b k with
  | nil => exact ⟨[], Nat.zero_le b, fun c none => absurd none List.not_mem_nil, fun emit o => rfl⟩
  | cons item items ih =>
    obtain ⟨first, most, rest⟩ := Option.bind_eq_some_iff.1 bound
    obtain ⟨second, bound', rest⟩ := Option.bind_eq_some_iff.1 rest
    obtain rfl := Option.some_inj.1 rest
    obtain ⟨text, short, nonzero, write⟩ := @Item.text_of_most args k item first most
    obtain ⟨text', short', nonzero', write'⟩ := @ih (k + item.arity) second bound'
    refine ⟨text ++ text', ?_, ?_, fun emit o => ?_⟩
    · rw [List.length_append]
      omega
    · exact fun c mem => (List.mem_append.1 mem).elim (nonzero c) (nonzero' c)
    · rw [writeAll, List.foldl_cons, write emit o, putAll_append]
      rw [formatArity, List.map_cons, List.sum_cons, ← Nat.add_assoc]
      exact write' emit _

/-- The formatted text of a format whose length is bounded. -/
theorem formatted_of_bound {items : List Item} {b : Nat} (bound : textBound items = some b) :
    Plain (spell items) args ∧ (formatted (spell items) args).length ≤ b ∧ ∀ c ∈ formatted (spell items) args, c ≠ 0 := by
  obtain ⟨text, short, nonzero, write⟩ := @writeAll_of_bound args 0 items b bound
  have out : pieces (spell items) args = text.map .char := by
    rw [pieces, formatLoop_spell, Option.getD_some, write, putAll_collect]
    exact List.nil_append _
  have same : formatted (spell items) args = text := by
    rw [formatted, out, List.filterMap_map]
    exact List.filterMap_some
  refine ⟨?_, ?_, ?_⟩
  · intro p mem
    rw [out] at mem
    obtain ⟨c, -, rfl⟩ := List.mem_map.1 mem
    exact Option.some_ne_none c
  · rwa [same]
  · rwa [same]

/-! ## Which arguments are read -/

theorem Spec.conversion_congr {s : Spec} {args' : Nat → Arg}
    (same : ∀ i, k ≤ i → i < k + (s.width.arity + s.precision.arity) → args i = args' i) :
    s.conversion args k 0 = s.conversion args' k 0 := by
  have width : s.width.value args k (flagBits s.flags 0) = s.width.value args' k (flagBits s.flags 0) := by
    rcases hw : s.width with - | ⟨n, pos, small⟩ | -
    · rfl
    · rfl
    · rw [hw] at same
      simp only [Width.value, same k le_rfl (by simp only [Width.arity]; omega)]
  have next := @Width.value_next args' k s.width (flagBits s.flags 0)
  have precision : s.precision.value args (k + s.width.arity) = s.precision.value args' (k + s.width.arity) := by
    rcases hp : s.precision with - | - | - | -
    · rfl
    · rfl
    · rfl
    · rw [hp] at same
      simp only [Precision.value, same (k + s.width.arity) (by omega) (by simp only [Precision.arity]; omega)]
  unfold Spec.conversion
  dsimp only
  rw [width, next, precision]

theorem convert_congr {σ : Type} {emit : σ → Piece → σ} {args' : Nat → Arg} {v : Conversion} {c : UInt8} {o : σ}
    (same : c ∈ integerVerbs ++ ['c', 's', 'n'].map chr → args v.next = args' v.next) :
    convert emit args v c o = convert emit args' v c o := by
  by_cases reads : c ∈ integerVerbs ++ ['c', 's', 'n'].map chr
  · unfold convert
    rw [same reads]
  · simp only [integerVerbs, List.map_cons, List.map_nil, List.cons_append, List.nil_append, List.mem_cons,
      List.not_mem_nil, or_false, not_or] at reads
    obtain ⟨p, oct, large, hex, dec, int, unsigned, character, string, count⟩ := reads
    unfold convert
    dsimp only
    simp only [if_neg p, if_neg oct, if_neg large, if_neg hex, if_neg (not_or.2 ⟨dec, int⟩), if_neg unsigned,
      if_neg character, if_neg string, if_neg count]

theorem Item.write_congr {σ : Type} {emit : σ → Piece → σ} {args' : Nat → Arg} {item : Item} {o : σ}
    (same : ∀ i, k ≤ i → i < k + item.arity → args i = args' i) :
    item.write emit args (o, k) = item.write emit args' (o, k) := by
  cases item with
  | plain c text => rfl
  | spec s =>
    have arity : (Item.spec s).arity = s.width.arity + s.precision.arity +
      if s.verb ∈ integerVerbs ++ ['c', 's', 'n'].map chr then 1 else 0 := rfl
    rw [arity] at same
    have conversion := @Spec.conversion_congr args k s args' fun i low high => same i low (by omega)
    have next := @Spec.conversion_next args' k s 0
    simp only [Item.write]
    rw [conversion, @convert_congr args σ emit args' (s.conversion args' k 0) s.verb o fun reads => by
      rw [next]
      exact same _ (by omega) (by rw [if_pos reads]; omega)]

/-- The next argument behind an item. -/
theorem Item.write_next {σ : Type} {emit : σ → Piece → σ} {item : Item} {o : σ} :
    (item.write emit args (o, k)).2 = k + item.arity := by
  cases item with
  | plain c text => rfl
  | spec s =>
    have next := @Spec.conversion_next args k s 0
    have step : ∀ v : Conversion, (convert emit args v s.verb o).2.1 =
        v.next + if s.verb ∈ integerVerbs ++ ['c', 's', 'n'].map chr then 1 else 0 := by
      intro v
      by_cases reads : s.verb ∈ integerVerbs ++ ['c', 's', 'n'].map chr
      · rw [if_pos reads]
        simp only [integerVerbs, List.map_cons, List.map_nil, List.cons_append, List.nil_append, List.mem_cons,
          List.not_mem_nil, or_false] at reads
        generalize s.verb = c at reads
        obtain rfl | rfl | rfl | rfl | rfl | rfl | rfl | rfl | rfl | rfl := reads <;> rfl
      · rw [if_neg reads]
        simp only [integerVerbs, List.map_cons, List.map_nil, List.cons_append, List.nil_append, List.mem_cons,
          List.not_mem_nil, or_false, not_or] at reads
        obtain ⟨p, oct, large, hex, dec, int, unsigned, character, string, count⟩ := reads
        unfold convert
        dsimp only
        simp only [if_neg p, if_neg oct, if_neg large, if_neg hex, if_neg (not_or.2 ⟨dec, int⟩), if_neg unsigned,
          if_neg character, if_neg string, if_neg count]
        split_ifs <;> rfl
    rw [Item.write]
    dsimp only
    rw [step, next, Item.arity, Spec.arity]
    omega

/-- A format reads no more arguments than its conversions take. -/
theorem writeAll_congr {σ : Type} {emit : σ → Piece → σ} {args' : Nat → Arg} {items : List Item} {o : σ}
    (same : ∀ i, k ≤ i → i < k + formatArity items → args i = args' i) :
    writeAll emit args items (o, k) = writeAll emit args' items (o, k) := by
  induction items generalizing o k with
  | nil => rw [writeAll, writeAll, List.foldl_nil, List.foldl_nil]
  | cons item items ih =>
    have arity : formatArity (item :: items) = item.arity + formatArity items := List.sum_cons
    rw [arity] at same
    have next := @Item.write_next args' k σ emit item o
    rw [writeAll, writeAll, List.foldl_cons, List.foldl_cons, Item.write_congr fun i low high => same i low (by omega)]
    generalize item.write emit args' (o, k) = at_ at next
    obtain ⟨o', k'⟩ := at_
    dsimp only at next
    exact ih fun i low high => same i (by omega) (by omega)

end

/-! ## `vsnprintf` and `printk` on a format -/

section
variable {args args' : Nat → Arg} {items : List Item}

/-- `vsnprintf` with the format read: what it writes, and its terminator. -/
def writeFormat (mem : Mem) (buf size : Nat) (items : List Item) (args : Nat → Arg) : Mem × Int :=
  let limit := (bufferEnd buf size).1
  let o := (writeAll (Out.emit buf limit) args items (⟨mem, buf⟩, 0)).1
  (o.terminate limit (bufferEnd buf size).2, int32 (sub64 o.str buf))

theorem vsnprintf_spell (mem : Mem) (buf size : Nat) (items : List Item) (args : Nat → Arg) :
    vsnprintf mem buf size (spell items) args = some (writeFormat mem buf size items args) := by
  unfold vsnprintf writeFormat
  dsimp only
  rw [formatLoop_spell]
  rfl

theorem writeAll_start {σ : Type} {emit : σ → Piece → σ} {o : σ} (same : ∀ i < formatArity items, args i = args' i) :
    writeAll emit args items (o, 0) = writeAll emit args' items (o, 0) :=
  writeAll_congr fun i _ high => same i (by omega)

theorem formatted_congr (same : ∀ i < formatArity items, args i = args' i) :
    formatted (spell items) args = formatted (spell items) args' := by
  rw [formatted, formatted, pieces, pieces, formatLoop_spell, formatLoop_spell, writeAll_start same]

/-- **Formats.** `vsnprintf` reads the spelling of a format as what it means, for any
buffer; it reads no more arguments than the conversions take; and no arguments make
the text longer than the bound computed from the format. -/
theorem formats_exact (items : List Item) :
    (∀ mem buf size args, vsnprintf mem buf size (spell items) args = some (writeFormat mem buf size items args)) ∧
    (∀ mem buf size args args', (∀ i < formatArity items, args i = args' i) →
      vsnprintf mem buf size (spell items) args = vsnprintf mem buf size (spell items) args') ∧
    ∀ b args, textBound items = some b → Plain (spell items) args ∧ (formatted (spell items) args).length ≤ b ∧
      ∀ c ∈ formatted (spell items) args, c ≠ 0 := by
  refine ⟨fun mem buf size args => vsnprintf_spell mem buf size items args, fun mem buf size args args' same => ?_,
    fun b args bound => formatted_of_bound bound⟩
  rw [vsnprintf_spell, vsnprintf_spell, writeFormat, writeFormat, writeAll_start same]

/-- The characters of a text as items. -/
def plainText (text : List UInt8) : List Item :=
  text.filterMap fun c => if h : c ≠ 0 ∧ c ≠ chr '%' then some (.plain c h) else none

/-- `%u`. -/
def unsignedItem : Item := .spec ⟨[], .unset, .unset, none, chr 'u', by decide⟩

/-- `%lu`. -/
def unsignedLongItem : Item := .spec ⟨[], .unset, .unset, some .l, chr 'u', by decide⟩

/-- `%ld`. -/
def signedLongItem : Item := .spec ⟨[], .unset, .unset, some .l, chr 'd', by decide⟩

/-- `%016lx`. -/
def addressItem : Item :=
  .spec ⟨[.zeroPad], .literal 16 (by decide) (by decide), .unset, some .l, chr 'x', by decide⟩

/-- A message with a number and an address is at most 54 characters long. -/
theorem formats_exact_address : ∀ args,
    (formatted (spell ([unsignedItem] ++ plainText (chars " at ") ++ [addressItem])) args).length ≤ 54 ∧
    vsnprintf (fun _ => 0) 4096 64 (spell ([unsignedItem] ++ plainText (chars " at ") ++ [addressItem])) args =
      vsnprintf (fun _ => 0) 4096 64 (spell ([unsignedItem] ++ plainText (chars " at ") ++ [addressItem]))
        (fun i => if i < 2 then args i else ⟨0, []⟩) := by
  intro args
  obtain ⟨-, reads, bound⟩ := formats_exact ([unsignedItem] ++ plainText (chars " at ") ++ [addressItem])
  have most : textBound ([unsignedItem] ++ plainText (chars " at ") ++ [addressItem]) = some 54 := by decide
  have arity : formatArity ([unsignedItem] ++ plainText (chars " at ") ++ [addressItem]) = 2 := by decide
  refine ⟨(bound 54 args most).2.1, reads _ _ _ _ _ fun i lt => ?_⟩
  rw [if_pos (by rwa [arity] at lt)]

/-- The format of the time stamp, read. -/
def stampItems : List Item :=
  plainText (chars "[") ++ [.spec ⟨[], .literal 5 (by decide) (by decide), .unset, some .l, chr 'u', by decide⟩] ++
    plainText (chars ".") ++
    [.spec ⟨[.zeroPad], .literal 6 (by decide) (by decide), .unset, some .l, chr 'u', by decide⟩] ++ plainText (chars "] ")

theorem takeWhile_ne_zero {text : List UInt8} (nonzero : ∀ c ∈ text, c ≠ 0) : text.takeWhile (· ≠ 0) = text :=
  List.takeWhile_eq_self_iff.2 fun c mem => by simpa using nonzero c mem

/-- `printk` sends a message whole if its bound leaves room for the time stamp. -/
theorem printk_whole {b buffer ticks frequency : Nat} (bound : textBound items = some b) (small : b ≤ 211)
    (pos : 0 < frequency) (word : frequency < 2 ^ 32) (fits : buffer + 256 ≤ 2 ^ 64) (mem : Mem) : ∃ mem' len,
      printk mem buffer ticks frequency (spell items) args =
        some (mem', stamp ticks frequency ++ formatted (spell items) args, len) ∧
      Formats mem mem' buffer 256 (stamp ticks frequency ++ formatted (spell items) args) len := by
  obtain ⟨plain, short, nonzero⟩ := @formatted_of_bound args items b bound
  obtain ⟨-, -, stampShort⟩ := stamp_spec ticks frequency
  have stampChars : ∀ c ∈ stamp ticks frequency, c ≠ 0 := by
    have spelled : stampFormat = spell stampItems := by decide
    rw [stamp, spelled]
    exact (@formatted_of_bound (stampArgs ticks frequency) stampItems 54 (by decide)).2.2
  have length : (stamp ticks frequency ++ formatted (spell items) args).length ≤ 255 := by
    rw [List.length_append]
    omega
  have bounded := (printkBounded_iff pos word fits plain (lt_of_le_of_lt length (by decide))).2 (by omega)
  obtain ⟨mem', len, run, formats⟩ := bounded.2 mem
  rw [List.take_of_length_le length, takeWhile_ne_zero fun c here =>
    (List.mem_append.1 here).elim (stampChars c) (nonzero c)] at run
  exact ⟨mem', len, run, formats⟩

end

end MiaowOs
