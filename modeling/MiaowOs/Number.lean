import MiaowOs.Formatting

/-!
# What `number` writes

The text of an integer conversion, written down without the counter that the
three padding loops of `number` share, and the proof that `number` writes it to
every consumer. The counter is decremented once more by each loop that finds
nothing to do, so it has to stay `padLoops` above the least `int`.
-/

namespace MiaowOs

/-- `|sign|`: what stands before a signed number. -/
def signText (num : BitVec 64) (type : Nat) : List UInt8 :=
  if type &&& signFlag = 0 then []
  else if num.toInt < 0 then [chr '-']
  else if type &&& plusFlag ≠ 0 then [chr '+']
  else if type &&& spaceFlag ≠ 0 then [chr ' ']
  else []

/-- The digits `number` chooses from. -/
def digitTable (type : Nat) : List UInt8 := if type &&& largeFlag ≠ 0 then largeDigits else smallDigits

/-- The base prefix. -/
def prefixText (base : Base) (type : Nat) : List UInt8 :=
  if type &&& specialFlag = 0 then []
  else match base with
    | .hex => [chr '0', if type &&& largeFlag ≠ 0 then chr 'X' else chr 'x']
    | .oct => [chr '0']
    | .dec => []

/-- The number that is shown: unsigned, or the absolute value of a signed one. -/
def magnitude (num : BitVec 64) (type : Nat) : Nat :=
  if type &&& signFlag = 0 then num.toNat else num.toInt.natAbs

/-- The digits of `n` to a base, the first one first, with no leading zero. -/
structure Numeral (radix n : Nat) (ds : List Nat) : Prop where
  digit : ∀ d ∈ ds, d < radix
  nonempty : ds ≠ []
  leading : ds.head? = some 0 → ds = [0]
  value : Nat.ofDigits radix ds.reverse = n

/-- The numeral of `n`. -/
def numeral (base : Base) (n : Nat) : List Nat := if n = 0 then [0] else (Nat.digits base.radix n).reverse

/-- How many padding loops run. -/
def padLoops (type : Nat) : Nat :=
  if type &&& leftFlag ≠ 0 then 1 else if type &&& zeroPadFlag ≠ 0 then 2 else 3

/-- The characters that are not padding: sign, prefix and digits with the zeros
of the precision. -/
def bodyLength (num : BitVec 64) (base : Base) (precision : Int) (type digits : Nat) : Int :=
  (signText num type).length + (prefixText base type).length + max precision digits

/-- The arguments for which no `int` of `number` overflows. -/
def IntRange (num : BitVec 64) (base : Base) (width precision : Int) (type : Nat) : Prop :=
  width < 2 ^ 31 ∧
    -2 ^ 31 + (padLoops type : Int) ≤
      width - bodyLength num base precision type (numeral base (magnitude num type)).length

/-- The layout of an integer conversion with the digits `ds`. -/
def numberText (num : BitVec 64) (base : Base) (width precision : Int) (type : Nat) (ds : List Nat) : List UInt8 :=
  let gap := (width - bodyLength num base precision type ds.length).toNat
  let left := type &&& leftFlag ≠ 0
  let zeros := type &&& zeroPadFlag ≠ 0
  List.replicate (if ¬ left ∧ ¬ zeros then gap else 0) (chr ' ') ++ signText num type ++ prefixText base type ++
    List.replicate (if ¬ left ∧ zeros then gap else 0) (chr '0') ++
    List.replicate (precision - ds.length).toNat (chr '0') ++ ds.map ((digitTable type).getD · 0) ++
    List.replicate (if left then gap else 0) (chr ' ')

section
variable {σ : Type} {emit : σ → Piece → σ} {o : σ} {num : BitVec 64} {base : Base} {width precision : Int} {type : Nat}

theorem putAll_append (s t : List UInt8) (o : σ) : putAll emit (s ++ t) o = putAll emit t (putAll emit s o) := by
  induction s generalizing o with
  | nil => rfl
  | cons c s ih => exact ih (emit o (.char c))

theorem pad_eq (c : UInt8) (n : Nat) (o : σ) : pad emit c n o = putAll emit (List.replicate n c) o := by
  induction n generalizing o with
  | zero => rfl
  | succ n ih => exact ih (emit o (.char c))

/-! ## The digits -/

theorem numeral_spec (base : Base) (n : Nat) : Numeral base.radix n (numeral base n) := by
  unfold numeral
  have big : 1 < base.radix := by cases base <;> decide
  rcases Nat.eq_zero_or_pos n with rfl | pos
  · refine ⟨?_, by simp, fun _ => rfl, by simp⟩
    intro d here
    obtain rfl : d = 0 := by simpa using here
    omega
  · have ne : n ≠ 0 := by omega
    have nil : Nat.digits base.radix n ≠ [] := Nat.digits_ne_nil_iff_ne_zero.2 ne
    rw [if_neg ne]
    refine ⟨?_, by simpa using nil, ?_, ?_⟩
    · intro d here
      exact Nat.digits_lt_base big (List.mem_reverse.1 here)
    · intro zero
      rw [List.head?_reverse, List.getLast?_eq_some_getLast nil] at zero
      exact absurd (Option.some_inj.1 zero) (Nat.getLast_digit_ne_zero base.radix ne)
    · rw [List.reverse_reverse, Nat.ofDigits_digits]

/-- `tmp` backwards is the numeral. -/
theorem tmpDigits_reverse (digits : List UInt8) (zero : digits.getD 0 0 = chr '0') (num : BitVec 64) (base : Base) :
    (tmpDigits digits num base).reverse = (numeral base num.toNat).map (digits.getD · 0) := by
  unfold tmpDigits numeral
  by_cases null : num = 0
  · have null' : num.toNat = 0 := by rw [null]; rfl
    rw [if_pos null, if_pos null', List.map_singleton, zero]
    rfl
  · have ne : num.toNat ≠ 0 := by
      intro h
      exact null (BitVec.eq_of_toNat_eq (by simpa using h))
    rw [if_neg null, if_neg ne, List.map_reverse]

theorem digitTable_zero (type : Nat) : (digitTable type).getD 0 0 = chr '0' := by
  unfold digitTable
  split <;> rfl

theorem digitTable_letter (type : Nat) :
    (digitTable type).getD 33 0 = if type &&& largeFlag ≠ 0 then chr 'X' else chr 'x' := by
  unfold digitTable
  split <;> rfl

/-! ## The flags -/

/-- `type` after `LEFT` has cleared `ZEROPAD`. -/
def paddedType (type : Nat) : Nat := if type &&& leftFlag ≠ 0 then type &&& 0xfffffffe else type

theorem paddedType_and {flag : Nat} (other : 0xfffffffe &&& flag = flag) (type : Nat) :
    paddedType type &&& flag = type &&& flag := by
  unfold paddedType
  split
  · rw [Nat.and_assoc, other]
  · rfl

theorem paddedType_zeroPad (type : Nat) :
    paddedType type &&& zeroPadFlag = if type &&& leftFlag ≠ 0 then 0 else type &&& zeroPadFlag := by
  unfold paddedType
  split
  · rw [Nat.and_assoc, show 0xfffffffe &&& zeroPadFlag = 0 from rfl, Nat.and_zero]
  · rfl

theorem and_pads (type : Nat) :
    type &&& (zeroPadFlag + leftFlag) = 0 ↔ type &&& zeroPadFlag = 0 ∧ type &&& leftFlag = 0 := by
  rw [show zeroPadFlag + leftFlag = zeroPadFlag ||| leftFlag from rfl, Nat.and_or_distrib_left, Nat.or_eq_zero_iff]

theorem digitTable_padded (type : Nat) : digitTable (paddedType type) = digitTable type := by
  unfold digitTable
  rw [paddedType_and rfl]

theorem signText_padded (num : BitVec 64) (type : Nat) : signText num (paddedType type) = signText num type := by
  unfold signText
  rw [paddedType_and rfl, paddedType_and rfl, paddedType_and rfl]

theorem prefixText_padded (base : Base) (type : Nat) : prefixText base (paddedType type) = prefixText base type := by
  unfold prefixText
  rw [paddedType_and rfl, paddedType_and rfl]

theorem magnitude_padded (num : BitVec 64) (type : Nat) : magnitude num (paddedType type) = magnitude num type := by
  unfold magnitude
  rw [paddedType_and rfl]

/-! ## The parts of `number` -/

theorem int32_of_range {x : Int} (low : -2 ^ 31 ≤ x) (high : x < 2 ^ 31) : int32 x = x := by
  unfold int32
  apply Int.bmod_eq_of_le <;> omega

theorem int32_sub (n : Nat) (low : -2 ^ 31 + (n : Int) ≤ width) (high : width < 2 ^ 31) :
    int32 (width - n) = width - n :=
  int32_of_range (by omega) (by omega)

/-- A padding loop, by what it writes and the counter it leaves. -/
theorem padWhile_eq (c : UInt8) (width : Int) (o : σ) (low : -2 ^ 31 + 1 ≤ width) (high : width < 2 ^ 31) :
    padWhile emit c 0 width o = (putAll emit (List.replicate width.toNat c) o, min width 0 - 1) := by
  unfold padWhile
  rw [Int.sub_zero, pad_eq, int32_of_range (by omega) (by omega)]

theorem signOf_spec (num : BitVec 64) (type : Nat) (low : -2 ^ 31 + (signText num type).length ≤ width)
    (high : width < 2 ^ 31) : ∃ sign num', signOf num width type = (sign, num', width - (signText num type).length) ∧
      num'.toNat = magnitude num type ∧ signText num type = if sign ≠ 0 then [sign] else [] := by
  unfold signOf magnitude
  unfold signText at low ⊢
  by_cases unsigned : type &&& signFlag = 0
  · rw [if_pos unsigned, if_pos unsigned, if_pos unsigned]
    exact ⟨0, num, by simp, rfl, rfl⟩
  simp only [if_neg unsigned] at low ⊢
  by_cases negative : num.toInt < 0
  · simp only [if_pos negative] at low ⊢
    refine ⟨chr '-', -num, ?_, ?_, rfl⟩
    · have left : int32 (width - 1) = width - 1 := int32_sub 1 low high
      rw [left]
      rfl
    · have := num.isLt
      rw [BitVec.toInt_eq_toNat_cond] at negative ⊢
      rw [BitVec.toNat_neg]
      split at negative
      · omega
      · rw [if_neg (by assumption)]
        omega
  simp only [if_neg negative] at low ⊢
  have shown : num.toNat = num.toInt.natAbs := by
    rw [BitVec.toInt_eq_toNat_cond] at negative ⊢
    have := num.isLt
    split at negative
    · rw [if_pos (by assumption)]
      omega
    · omega
  by_cases plus : type &&& plusFlag ≠ 0
  · simp only [if_pos plus] at low ⊢
    refine ⟨chr '+', num, ?_, shown, rfl⟩
    have left : int32 (width - 1) = width - 1 := int32_sub 1 low high
    rw [left]
    rfl
  simp only [if_neg plus] at low ⊢
  by_cases space : type &&& spaceFlag ≠ 0
  · simp only [if_pos space] at low ⊢
    refine ⟨chr ' ', num, ?_, shown, rfl⟩
    have left : int32 (width - 1) = width - 1 := int32_sub 1 low high
    rw [left]
    rfl
  · simp only [if_neg space]
    exact ⟨0, num, by simp, shown, rfl⟩

theorem specialSize_eq (base : Base) (type : Nat) (low : -2 ^ 31 + (prefixText base type).length ≤ width)
    (high : width < 2 ^ 31) : specialSize base width type = width - (prefixText base type).length := by
  unfold specialSize
  unfold prefixText at low ⊢
  by_cases special : type &&& specialFlag = 0
  · simp [if_pos special]
  simp only [if_neg special] at low ⊢
  cases base with
  | oct => exact int32_sub 1 low high
  | dec => simp
  | hex => exact int32_sub 2 low high

theorem putSpecial_eq (base : Base) (type : Nat) (o : σ) :
    putSpecial emit (digitTable type) base type o = putAll emit (prefixText base type) o := by
  unfold putSpecial prefixText
  split
  · rfl
  · cases base with
    | oct => rfl
    | dec => rfl
    | hex =>
      rw [digitTable_letter]
      rfl

/-- The left half of `number`. -/
theorem putHead_eq (sign : UInt8) (base : Base) (type : Nat) (size : Int) (o : σ) (low : -2 ^ 31 + 1 ≤ size)
    (high : size < 2 ^ 31) : putHead emit (digitTable type) sign base type size o =
      (putAll emit (List.replicate (if type &&& (zeroPadFlag + leftFlag) = 0 then size.toNat else 0) (chr ' ') ++
          (if sign ≠ 0 then [sign] else []) ++ prefixText base type) o,
        if type &&& (zeroPadFlag + leftFlag) = 0 then min size 0 - 1 else size) := by
  have signed : ∀ o : σ, (if sign ≠ 0 then emit o (.char sign) else o) =
      putAll emit (if sign ≠ 0 then [sign] else []) o := by
    intro o
    split <;> rfl
  unfold putHead
  rw [padWhile_eq _ _ _ low high]
  by_cases spaces : type &&& (zeroPadFlag + leftFlag) = 0
  · simp only [if_pos spaces, signed, putSpecial_eq, putAll_append]
  · simp only [if_neg spaces, signed, putSpecial_eq, putAll_append, List.replicate_zero, putAll]

/-- The right half of `number`. -/
theorem putTail_eq (tmp : List UInt8) (c : UInt8) (type : Nat) (size precision : Int) (o : σ)
    (low : -2 ^ 31 + (if type &&& leftFlag = 0 then 2 else 1) ≤ size) (high : size < 2 ^ 31) :
    putTail emit tmp c type size precision o =
      putAll emit (List.replicate (if type &&& leftFlag = 0 then size.toNat else 0) c ++
        List.replicate (precision - tmp.length).toNat (chr '0') ++ tmp.reverse ++
        List.replicate (if type &&& leftFlag = 0 then 0 else size.toNat) (chr ' ')) o := by
  unfold putTail
  by_cases right : type &&& leftFlag = 0
  · simp only [if_pos right] at low ⊢
    rw [padWhile_eq _ _ _ (by omega) high]
    dsimp only
    rw [padWhile_eq _ _ _ (by omega) (by omega)]
    have done : (min size 0 - 1).toNat = 0 := by omega
    simp only [pad_eq, putAll_append, done, List.replicate_zero, putAll]
  · simp only [if_neg right] at low ⊢
    rw [padWhile_eq _ _ _ low high]
    simp only [pad_eq, putAll_append, List.replicate_zero, putAll]

/-- `number` without its local names. -/
theorem number_eq {sign : UInt8} {num' : BitVec 64} {size : Int}
    (signed : signOf num width (paddedType type) = (sign, num', size)) :
    number emit o num base width precision type =
      let tmp := tmpDigits (digitTable type) num' base
      let precision := max (tmp.length : Int) precision
      let head := putHead emit (digitTable type) sign base (paddedType type)
        (int32 (specialSize base size (paddedType type) - precision)) o
      putTail emit tmp (if paddedType type &&& zeroPadFlag ≠ 0 then chr '0' else chr ' ') (paddedType type) head.2
        precision head.1 := by
  have padded : (if type &&& leftFlag ≠ 0 then type &&& 0xfffffffe else type) = paddedType type := rfl
  unfold number digitTable
  simp only [padded, signed]

/-- How long the layout is. -/
theorem length_numberText (ds : List Nat) : ((numberText num base width precision type ds).length : Int) =
    max width (bodyLength num base precision type ds.length) := by
  have body : bodyLength num base precision type ds.length =
      (signText num type).length + (prefixText base type).length + (precision - ds.length).toNat + ds.length := by
    unfold bodyLength
    omega
  simp only [numberText, List.length_append, List.length_replicate, List.length_map, Nat.cast_add]
  generalize bodyLength num base precision type ds.length = total at body
  split_ifs <;> omega

/-- **`number` writes the layout**, to every consumer. -/
theorem number_eq_putAll (range : IntRange num base width precision type) :
    number emit o num base width precision type =
      putAll emit (numberText num base width precision type (numeral base (magnitude num type))) o := by
  obtain ⟨high, low⟩ := range
  unfold bodyLength at low
  obtain ⟨sign, num', signed, shown, text⟩ := @signOf_spec width num (paddedType type)
    (by rw [signText_padded]; omega) high
  rw [signText_padded] at signed text
  rw [magnitude_padded] at shown
  have tmp := tmpDigits_reverse (digitTable type) (digitTable_zero type) num' base
  rw [shown] at tmp
  have count : (tmpDigits (digitTable type) num' base).length = (numeral base (magnitude num type)).length := by
    rw [← List.length_reverse, tmp, List.length_map]
  have special := @specialSize_eq (width - (signText num type).length) base (paddedType type)
    (by rw [prefixText_padded]; omega) (by omega)
  rw [prefixText_padded] at special
  rw [number_eq signed]
  dsimp only
  rw [special, count]
  generalize numeral base (magnitude num type) = ds at *
  have gap : width - (signText num type).length - (prefixText base type).length - max (ds.length : Int) precision =
      width - bodyLength num base precision type ds.length := by
    unfold bodyLength
    omega
  have loops : 1 ≤ padLoops type := by
    unfold padLoops
    split_ifs <;> omega
  have side : paddedType type &&& leftFlag = type &&& leftFlag := paddedType_and rfl type
  have fill := paddedType_zeroPad type
  have pads := and_pads (paddedType type)
  rw [int32_of_range (by omega) (by omega), gap, ← digitTable_padded, putHead_eq _ _ _ _ _ (by omega) (by omega), ← text,
    prefixText_padded, digitTable_padded]
  dsimp only
  have zeros : (max (ds.length : Int) precision - ds.length).toNat = (precision - ds.length).toNat := by omega
  unfold numberText
  dsimp only
  generalize width - bodyLength num base precision type ds.length = size at *
  by_cases left : type &&& leftFlag ≠ 0
  · -- only the loop on the right writes
    rw [if_pos left] at fill
    have spaces : ¬ paddedType type &&& (zeroPadFlag + leftFlag) = 0 := fun none => left (side ▸ (pads.1 none).2)
    have right : ¬ paddedType type &&& leftFlag = 0 := side ▸ left
    rw [if_neg spaces, if_neg spaces, putTail_eq _ _ _ _ _ _ (by rw [if_neg right]; omega) (by omega), ← putAll_append,
      if_neg right, if_neg right, tmp, count, zeros,
      if_neg fun h => h fill, if_neg fun h => h.1 left, if_neg fun h => h.1 left, if_pos left]
    simp only [List.replicate_zero, List.nil_append, List.append_nil, List.append_assoc]
  rw [if_neg left] at fill
  have right : paddedType type &&& leftFlag = 0 := by simpa [side] using left
  have twoLoops : 2 ≤ padLoops type := by
    unfold padLoops
    rw [if_neg left]
    split_ifs <;> omega
  by_cases padded : type &&& zeroPadFlag ≠ 0
  · -- only the loop in the middle writes, zeros
    have spaces : ¬ paddedType type &&& (zeroPadFlag + leftFlag) = 0 := fun none => padded (fill ▸ (pads.1 none).1)
    have zero : paddedType type &&& zeroPadFlag ≠ 0 := fill ▸ padded
    rw [if_neg spaces, if_neg spaces, putTail_eq _ _ _ _ _ _ (by rw [if_pos right]; omega) (by omega), ← putAll_append,
      if_pos right, if_pos right, if_pos zero, tmp, count, zeros, if_neg fun h => h.2 padded, if_pos ⟨left, padded⟩,
      if_neg left]
    simp only [List.replicate_zero, List.nil_append, List.append_nil, List.append_assoc]
  · -- only the loop on the left writes
    have zero : ¬ paddedType type &&& zeroPadFlag ≠ 0 := fill ▸ padded
    have spaces : paddedType type &&& (zeroPadFlag + leftFlag) = 0 := pads.2 ⟨not_not.1 zero, right⟩
    have threeLoops : 3 ≤ padLoops type := by
      unfold padLoops
      rw [if_neg left, if_neg padded]
    rw [if_pos spaces, if_pos spaces, putTail_eq _ _ _ _ _ _ (by rw [if_pos right]; omega) (by omega), ← putAll_append,
      if_pos right, if_pos right, if_neg zero, tmp, count, zeros, show (min size 0 - 1).toNat = 0 by omega,
      if_pos ⟨left, padded⟩, if_neg fun h => padded h.2, if_neg left]
    simp only [List.replicate_zero, List.nil_append, List.append_nil, List.append_assoc]

/-- **Integer rendering is exact**: the layout, its length, and what its digits
denote. -/
theorem number_exact (emit : σ → Piece → σ) (o : σ) (num : BitVec 64) (base : Base) (width precision : Int) (type : Nat)
    (range : IntRange num base width precision type) : ∃ ds, Numeral base.radix (magnitude num type) ds ∧
      number emit o num base width precision type = putAll emit (numberText num base width precision type ds) o ∧
      ((numberText num base width precision type ds).length : Int) =
        max width (bodyLength num base precision type ds.length) :=
  ⟨numeral base (magnitude num type), numeral_spec base (magnitude num type), number_eq_putAll range,
    length_numberText (numeral base (magnitude num type))⟩

end

/-- The most negative value, with a sign and zeros to a width of 24. -/
theorem number_exact_least : IntRange (BitVec.intMin 64) .dec 24 (-1) (signFlag ||| zeroPadFlag) ∧
    ∃ ds, Numeral 10 (2 ^ 63) ds ∧
      number collect [] (BitVec.intMin 64) .dec 24 (-1) (signFlag ||| zeroPadFlag) =
        putAll collect (numberText (BitVec.intMin 64) .dec 24 (-1) (signFlag ||| zeroPadFlag) ds) [] ∧
      ((numberText (BitVec.intMin 64) .dec 24 (-1) (signFlag ||| zeroPadFlag) ds).length : Int) =
        max 24 (bodyLength (BitVec.intMin 64) .dec (-1) (signFlag ||| zeroPadFlag) ds.length) := by
  have range : IntRange (BitVec.intMin 64) .dec 24 (-1) (signFlag ||| zeroPadFlag) := by
    unfold IntRange bodyLength
    decide +kernel
  have shown : magnitude (BitVec.intMin 64) (signFlag ||| zeroPadFlag) = 2 ^ 63 := by decide +kernel
  have exact := number_exact collect [] _ _ _ _ _ range
  rw [shown] at exact
  exact ⟨range, exact⟩

end MiaowOs
