import MiaowOs.Vsprintf

/-!
# What the formatter writes

The formatter treats all consumers alike: a map between two consumers that
respects `emit` commutes with every function of the formatter. So what it gives
to any consumer is one list of pieces, which depends on the format and the
arguments only; and it gives it without reading the format past its terminator.
-/

namespace MiaowOs
open Bytes

section
variable {σ τ : Type} {emit : σ → Piece → σ} {emit' : τ → Piece → τ} {h : σ → τ}

/-- A map between consumers that respects what they are given. -/
def Respects (emit : σ → Piece → σ) (emit' : τ → Piece → τ) (h : σ → τ) : Prop :=
  ∀ o p, h (emit o p) = emit' (h o) p

theorem Respects.pad (r : Respects emit emit' h) (c : UInt8) (n : Nat) (o : σ) :
    h (pad emit c n o) = MiaowOs.pad emit' c n (h o) := by
  induction n generalizing o with
  | zero => rfl
  | succ n ih => rw [MiaowOs.pad, MiaowOs.pad, ih, r]

theorem Respects.putAll (r : Respects emit emit' h) (s : List UInt8) (o : σ) :
    h (putAll emit s o) = MiaowOs.putAll emit' s (h o) := by
  induction s generalizing o with
  | nil => rfl
  | cons c s ih => rw [MiaowOs.putAll, MiaowOs.putAll, ih, r]

theorem Respects.padWhile (r : Respects emit emit' h) (c : UInt8) (len width : Int) (o : σ) :
    padWhile emit' c len width (h o) = (h (padWhile emit c len width o).1, (padWhile emit c len width o).2) := by
  simp only [MiaowOs.padWhile, r.pad]

theorem Respects.padDown (r : Respects emit emit' h) (width : Int) (o : σ) :
    padDown emit' width (h o) = (h (padDown emit width o).1, (padDown emit width o).2) := by
  simp only [MiaowOs.padDown, r.pad]

theorem Respects.putSpecial (r : Respects emit emit' h) (digits : List UInt8) (base : Base) (type : Nat) (o : σ) :
    h (putSpecial emit digits base type o) = MiaowOs.putSpecial emit' digits base type (h o) := by
  unfold MiaowOs.putSpecial
  split
  · rfl
  · cases base with
    | oct => exact r _ _
    | dec => rfl
    | hex => rw [r, r]

theorem map_ite {ρ : Type} {p : Prop} [Decidable p] {a b : σ × ρ} {a' b' : τ × ρ} (ha : a' = (h a.1, a.2))
    (hb : b' = (h b.1, b.2)) : (if p then a' else b') = (h (if p then a else b).1, (if p then a else b).2) := by
  split
  · exact ha
  · exact hb

/-- A padding loop that runs under a condition. -/
theorem Respects.padIf (r : Respects emit emit' h) (p : Prop) [Decidable p] (c : UInt8) (len width : Int) (o : σ) :
    (if p then MiaowOs.padWhile emit' c len width (h o) else (h o, width)) =
      (h (if p then MiaowOs.padWhile emit c len width o else (o, width)).1,
        (if p then MiaowOs.padWhile emit c len width o else (o, width)).2) :=
  map_ite (r.padWhile c len width o) rfl

theorem Respects.putHead (r : Respects emit emit' h) (digits : List UInt8) (sign : UInt8) (base : Base) (type : Nat)
    (size : Int) (o : σ) : putHead emit' digits sign base type size (h o) =
      (h (putHead emit digits sign base type size o).1, (putHead emit digits sign base type size o).2) := by
  unfold MiaowOs.putHead
  rw [r.padIf]
  generalize (if type &&& (zeroPadFlag + leftFlag) = 0 then MiaowOs.padWhile emit (chr ' ') 0 size o else (o, size)) = q
  by_cases signed : sign ≠ 0
  · simp only [if_pos signed, r.putSpecial]
    rw [r]
  · simp only [if_neg signed, r.putSpecial]

theorem Respects.putTail (r : Respects emit emit' h) (tmp : List UInt8) (c : UInt8) (type : Nat) (size precision : Int)
    (o : σ) : h (putTail emit tmp c type size precision o) = MiaowOs.putTail emit' tmp c type size precision (h o) := by
  unfold MiaowOs.putTail
  rw [r.padIf]
  generalize (if type &&& leftFlag = 0 then MiaowOs.padWhile emit c 0 size o else (o, size)) = q
  simp only [← r.pad, ← r.putAll, r.padWhile]

theorem Respects.number (r : Respects emit emit' h) (o : σ) (num : BitVec 64) (base : Base) (size precision : Int)
    (type : Nat) : h (number emit o num base size precision type) =
      MiaowOs.number emit' (h o) num base size precision type := by
  unfold MiaowOs.number
  simp only [r.putHead, r.putTail]

theorem Respects.putChar (r : Respects emit emit' h) (o : σ) (v : Conversion) (a : Arg) :
    h (putChar emit o v a) = MiaowOs.putChar emit' (h o) v a := by
  unfold MiaowOs.putChar
  by_cases right : v.flags &&& leftFlag = 0
  · simp only [if_pos right, r.padDown]
    rw [← r, r.padDown]
  · simp only [if_neg right]
    rw [← r, r.padDown]

theorem Respects.putString (r : Respects emit emit' h) (o : σ) (v : Conversion) (a : Arg) :
    h (putString emit o v a) = MiaowOs.putString emit' (h o) v a := by
  unfold MiaowOs.putString
  dsimp only
  rw [r.padIf]
  simp only [← r.putAll, r.padWhile]

theorem Respects.convert (r : Respects emit emit' h) (args : Nat → Arg) (v : Conversion) (c : UInt8) (o : σ) :
    convert emit' args v c (h o) = (h (convert emit args v c o).1, (convert emit args v c o).2) := by
  unfold MiaowOs.convert
  dsimp only
  apply map_ite (by rw [r.putChar])
  apply map_ite (by rw [r.putString])
  apply map_ite (by rw [r.number])
  apply map_ite (by rw [← r])
  apply map_ite (by rw [← r])
  apply map_ite (by rw [r.number])
  apply map_ite (by rw [r.number])
  apply map_ite (by rw [r.number])
  apply map_ite (by rw [r.number])
  apply map_ite (by rw [r.number])
  exact map_ite (by rw [← r, ← r]) (by rw [← r])

/-- **One text for all consumers.** -/
theorem Respects.formatLoop (r : Respects emit emit' h) (fmt : List UInt8) (args : Nat → Arg) (fuel i k : Nat) (o : σ) :
    (formatLoop emit fmt args fuel i k o).map h = MiaowOs.formatLoop emit' fmt args fuel i k (h o) := by
  induction fuel generalizing i k o with
  | zero => rfl
  | succ fuel ih =>
    unfold MiaowOs.formatLoop
    cases fmtAt fmt i with
    | none => rfl
    | some c =>
      simp only [Option.bind_eq_bind, Option.bind_some]
      by_cases last : c = 0
      · rw [if_pos last, if_pos last]
        rfl
      rw [if_neg last, if_neg last]
      by_cases plain : c ≠ chr '%'
      · rw [if_pos plain, if_pos plain, ih, r]
      rw [if_neg plain, if_neg plain]
      cases readConversion fmt args i k with
      | none => rfl
      | some v =>
        simp only [Option.bind_some]
        cases fmtAt fmt v.pos with
        | none => rfl
        | some c => simp only [Option.bind_some, r.convert, ih]

end

/-! ## The scan ends -/

section
variable {fmt : List UInt8} {args : Nat → Arg} {i k fuel : Nat}

theorem fmtAt_of_le (le : i ≤ fmt.length) : ∃ c, fmtAt fmt i = some c ∧ (c ≠ 0 → i < fmt.length) := by
  rcases Nat.lt_or_ge i fmt.length with lt | ge
  · exact ⟨fmt[i], by rw [fmtAt, List.getElem?_append_left lt, List.getElem?_eq_getElem lt], fun _ => lt⟩
  · obtain rfl : i = fmt.length := Nat.le_antisymm le ge
    exact ⟨0, by simp [fmtAt], fun absurd => (absurd rfl).elim⟩

theorem skipAtoi_spec {n : Int} (le : i ≤ fmt.length) (enough : fmt.length - i < fuel) :
    ∃ j m, skipAtoi fmt fuel i n = some (j, m) ∧ i ≤ j ∧ j ≤ fmt.length := by
  induction fuel generalizing i n with
  | zero => omega
  | succ fuel ih =>
    obtain ⟨c, here, inside⟩ := fmtAt_of_le le
    unfold skipAtoi
    rw [here]
    simp only [Option.bind_eq_bind, Option.bind_some]
    by_cases digit : isDigit c
    · rw [if_pos digit]
      have lt : i < fmt.length := inside (by rintro rfl; exact absurd digit (by decide))
      obtain ⟨j, m, run, low, high⟩ := ih (n := int32 (n * 10 + c.toNat - (chr '0').toNat)) lt (by omega)
      exact ⟨j, m, run, by omega, high⟩
    · rw [if_neg digit]
      exact ⟨i, n, rfl, le_rfl, le⟩

theorem flagsLoop_spec (flags : Nat) (lt : i < fmt.length) (enough : fmt.length - i < fuel) :
    ∃ j flags', flagsLoop fmt fuel i flags = some (j, flags') ∧ i < j ∧ j ≤ fmt.length := by
  induction fuel generalizing i flags with
  | zero => omega
  | succ fuel ih =>
    obtain ⟨c, here, inside⟩ := fmtAt_of_le (show i + 1 ≤ fmt.length from lt)
    unfold flagsLoop
    rw [here]
    simp only [Option.bind_eq_bind, Option.bind_some]
    cases flag : flagOf c with
    | some f =>
      have lt' : i + 1 < fmt.length := inside (by rintro rfl; cases flag)
      obtain ⟨j, flags', run, low, high⟩ : ∃ j flags', flagsLoop fmt fuel (i + 1) (flags ||| f) = some (j, flags') ∧
          i + 1 < j ∧ j ≤ fmt.length := ih _ lt' (by omega)
      exact ⟨j, flags', run, by omega, high⟩
    | none => exact ⟨i + 1, flags, rfl, Nat.lt_succ_self i, lt⟩

theorem readWidth_spec (args : Nat → Arg) (k flags : Nat) (le : i ≤ fmt.length) :
    ∃ j k' flags' width, readWidth fmt args i k flags = some (j, k', flags', width) ∧ i ≤ j ∧ j ≤ fmt.length := by
  obtain ⟨c, here, inside⟩ := fmtAt_of_le le
  unfold readWidth
  rw [here]
  simp only [Option.bind_eq_bind, Option.bind_some]
  by_cases digit : isDigit c
  · obtain ⟨j, m, run, low, high⟩ := skipAtoi_spec (n := 0) le (show fmt.length - i < fmt.length + 1 by omega)
    rw [if_pos digit, run]
    exact ⟨j, k, flags, m, rfl, low, high⟩
  rw [if_neg digit]
  by_cases star : c = chr '*'
  · have lt : i < fmt.length := inside (by rw [star]; decide)
    rw [if_pos star]
    split
    · exact ⟨i + 1, k + 1, _, _, rfl, Nat.le_succ i, lt⟩
    · exact ⟨i + 1, k + 1, _, _, rfl, Nat.le_succ i, lt⟩
  · rw [if_neg star]
    exact ⟨i, k, flags, -1, rfl, le_rfl, le⟩

theorem readPrecision_spec (args : Nat → Arg) (k : Nat) (le : i ≤ fmt.length) :
    ∃ j k' precision, readPrecision fmt args i k = some (j, k', precision) ∧ i ≤ j ∧ j ≤ fmt.length := by
  obtain ⟨c, here, inside⟩ := fmtAt_of_le le
  unfold readPrecision
  rw [here]
  simp only [Option.bind_eq_bind, Option.bind_some]
  by_cases dot : c = chr '.'
  · have lt : i < fmt.length := inside (by rw [dot]; decide)
    obtain ⟨c', here', inside'⟩ := fmtAt_of_le (show i + 1 ≤ fmt.length from lt)
    rw [if_pos dot, here', Option.bind_some]
    by_cases digit : isDigit c'
    · obtain ⟨j, m, run, low, high⟩ :=
        skipAtoi_spec (n := 0) (show i + 1 ≤ fmt.length from lt) (show fmt.length - (i + 1) < fmt.length + 1 by omega)
      rw [if_pos digit, run]
      exact ⟨j, k, _, rfl, by omega, high⟩
    rw [if_neg digit]
    by_cases star : c' = chr '*'
    · have lt' : i + 1 < fmt.length := inside' (by rw [star]; decide)
      rw [if_pos star]
      exact ⟨i + 1 + 1, k + 1, _, rfl, by omega, lt'⟩
    · rw [if_neg star]
      exact ⟨i + 1, k, _, rfl, Nat.le_succ i, lt⟩
  · rw [if_neg dot]
    exact ⟨i, k, -1, rfl, le_rfl, le⟩

theorem readQualifier_spec (le : i ≤ fmt.length) :
    ∃ j qualifier, readQualifier fmt i = some (j, qualifier) ∧ i ≤ j ∧ j ≤ fmt.length := by
  obtain ⟨c, here, inside⟩ := fmtAt_of_le le
  unfold readQualifier
  rw [here]
  simp only [Option.bind_eq_bind, Option.bind_some]
  by_cases qualified : c = chr 'h' ∨ c = chr 'l' ∨ c = chr 'L' ∨ c = chr 'Z'
  · rw [if_pos qualified]
    have lt : i < fmt.length := inside (by rintro rfl; exact absurd qualified (by decide))
    exact ⟨i + 1, some c, rfl, Nat.le_succ i, lt⟩
  · rw [if_neg qualified]
    exact ⟨i, none, rfl, le_rfl, le⟩

/-- A conversion is read up to a character that the format has. -/
theorem readConversion_spec (args : Nat → Arg) (k : Nat) (lt : i < fmt.length) :
    ∃ v, readConversion fmt args i k = some v ∧ i < v.pos ∧ v.pos ≤ fmt.length := by
  obtain ⟨i₁, flags, run₁, low₁, high₁⟩ := flagsLoop_spec 0 lt (show fmt.length - i < fmt.length + 1 by omega)
  obtain ⟨i₂, k₂, flags₂, width, run₂, low₂, high₂⟩ := readWidth_spec args k flags high₁
  obtain ⟨i₃, k₃, precision, run₃, low₃, high₃⟩ := readPrecision_spec args k₂ high₂
  obtain ⟨pos, qualifier, run₄, low₄, high₄⟩ := readQualifier_spec high₃
  unfold readConversion
  simp only [run₁, run₂, run₃, run₄, Option.bind_eq_bind, Option.bind_some]
  exact ⟨_, rfl, by simp only; omega, high₄⟩

variable {σ : Type} {emit : σ → Piece → σ} {o : σ}

/-- The scan goes on after the conversion, or meets the terminator again. -/
theorem convert_pos (v : Conversion) (c : UInt8) (o : σ) : v.pos ≤ (convert emit args v c o).2.2 + 1 ∧
    (convert emit args v c o).2.2 ≤ v.pos ∧ (c = 0 → (convert emit args v c o).2.2 = v.pos - 1) := by
  by_cases last : c = 0
  · subst last
    have run : (convert emit args v 0 o).2.2 = v.pos - 1 := rfl
    rw [run]
    exact ⟨by omega, by omega, fun _ => rfl⟩
  · have run : (convert emit args v c o).2.2 = v.pos := by
      unfold convert
      dsimp only
      rw [if_pos last]
      split_ifs <;> rfl
    rw [run]
    exact ⟨by omega, le_rfl, fun zero => absurd zero last⟩

/-- **The scan ends**, and never reads past the terminator. -/
theorem formatLoop_isSome (le : i ≤ fmt.length) (enough : fmt.length - i < fuel) :
    (formatLoop emit fmt args fuel i k o).isSome := by
  induction fuel generalizing i k o with
  | zero => omega
  | succ fuel ih =>
    obtain ⟨c, here, inside⟩ := fmtAt_of_le le
    unfold formatLoop
    rw [here]
    simp only [Option.bind_eq_bind, Option.bind_some]
    by_cases last : c = 0
    · rw [if_pos last]
      rfl
    have lt := inside last
    rw [if_neg last]
    by_cases plain : c ≠ chr '%'
    · rw [if_pos plain]
      exact ih lt (by omega)
    rw [if_neg plain]
    obtain ⟨v, run, low, high⟩ := readConversion_spec args k lt
    obtain ⟨c', here', inside'⟩ := fmtAt_of_le high
    have pos := @convert_pos args σ emit v c' o
    rw [run, Option.bind_some, here', Option.bind_some]
    generalize convert emit args v c' o = q at pos
    obtain ⟨o', k', i'⟩ := q
    obtain ⟨after, before, backs⟩ := pos
    dsimp only at after before backs ⊢
    apply ih
    · by_cases final : c' = 0
      · have := backs final
        omega
      · have := inside' final
        omega
    · omega

end

/-! ## The text -/

/-- The consumer that keeps everything. -/
def collect (ps : List Piece) (p : Piece) : List Piece := ps ++ [p]

/-- All pieces of the output, in order. -/
def pieces (fmt : List UInt8) (args : Nat → Arg) : List Piece :=
  (formatLoop collect fmt args (fmt.length + 1) 0 0 []).getD []

def Piece.char? : Piece → Option UInt8
  | .char c => some c
  | .count _ _ => none

/-- The untruncated output. -/
def formatted (fmt : List UInt8) (args : Nat → Arg) : List UInt8 := (pieces fmt args).filterMap Piece.char?

/-- The format has no conversion `%n`. -/
def Plain (fmt : List UInt8) (args : Nat → Arg) : Prop := ∀ p ∈ pieces fmt args, p.char? ≠ none

section
variable {σ : Type} {emit : σ → Piece → σ} {o : σ} {fmt : List UInt8} {args : Nat → Arg}

/-- What any consumer is given. -/
theorem formatLoop_eq : formatLoop emit fmt args (fmt.length + 1) 0 0 o = some ((pieces fmt args).foldl emit o) := by
  have r : Respects collect emit fun ps => ps.foldl emit o := by
    intro ps p
    show (ps ++ [p]).foldl emit o = _
    rw [List.foldl_append, List.foldl_cons, List.foldl_nil]
  have run : (formatLoop collect fmt args (fmt.length + 1) 0 0 []).map (fun ps => ps.foldl emit o) =
      formatLoop emit fmt args (fmt.length + 1) 0 0 o := r.formatLoop fmt args (fmt.length + 1) 0 0 []
  have ends : (formatLoop collect fmt args (fmt.length + 1) 0 0 []).isSome :=
    formatLoop_isSome (Nat.zero_le _) (by omega)
  obtain ⟨ps, found⟩ := Option.isSome_iff_exists.1 ends
  rw [← run, pieces, found]
  rfl

theorem Plain.pieces_eq (plain : Plain fmt args) : pieces fmt args = (formatted fmt args).map .char := by
  unfold formatted
  unfold Plain at plain
  generalize pieces fmt args = ps at plain
  induction ps with
  | nil => rfl
  | cons p ps ih =>
    have rest := ih fun q mem => plain q (List.mem_cons_of_mem p mem)
    cases p with
    | char c => simp [Piece.char?, ← rest]
    | count q a => exact absurd rfl (plain _ List.mem_cons_self)

end

/-! ## The buffer -/

section
variable {buf limit : Nat} {o o' : Out} {cs : List UInt8} {a : Nat}

/-- Write characters to the buffer. -/
def Out.write (limit : Nat) (o : Out) (cs : List UInt8) : Out := (cs.map Piece.char).foldl (Out.emit 0 limit) o

theorem foldl_emit : (cs.map Piece.char).foldl (Out.emit buf limit) o = o.write limit cs := by
  unfold Out.write
  induction cs generalizing o with
  | nil => rw [List.map_nil, List.foldl_nil, List.foldl_nil]
  | cons c cs ih => exact ih

theorem Out.write_cons {c : UInt8} : o.write limit (c :: cs) = (o.emit 0 limit (.char c)).write limit cs := rfl

theorem Out.write_str (word : o.str < 2 ^ 64) : (o.write limit cs).str = (o.str + cs.length) % 2 ^ 64 := by
  induction cs generalizing o with
  | nil => exact (Nat.mod_eq_of_lt word).symm
  | cons c cs ih =>
    have next : (o.emit 0 limit (.char c)).str = (o.str + 1) % 2 ^ 64 := rfl
    rw [Out.write_cons, ih (by rw [next]; exact Nat.mod_lt _ (by decide)), next, List.length_cons]
    omega

/-- Without a wrap, the text stands in the buffer up to `limit`. -/
theorem Out.write_mem (fits : o.str + cs.length < 2 ^ 64) : (o.write limit cs).mem a =
    if o.str ≤ a ∧ a < o.str + cs.length ∧ a ≤ limit then cs.getD (a - o.str) 0 else o.mem a := by
  induction cs generalizing o with
  | nil => rw [if_neg (by simp; omega)]; rfl
  | cons c cs ih =>
    rw [List.length_cons] at fits ⊢
    have next : (o.emit 0 limit (.char c)).str = o.str + 1 := add64_of_lt (by omega)
    have stored : (o.emit 0 limit (.char c)).mem a = if o.str = a ∧ a ≤ limit then c else o.mem a := by
      show (if o.str ≤ limit then put o.mem o.str c else o.mem) a = _
      by_cases low : o.str ≤ limit
      · rw [if_pos low]
        by_cases here : o.str = a
        · rw [if_pos ⟨here, here ▸ low⟩, here, put_self]
        · rw [if_neg fun both => here both.1, put_of_ne (Ne.symm here)]
      · rw [if_neg low, if_neg (by omega)]
    rw [Out.write_cons, ih (by omega), next, stored]
    by_cases inside : o.str + 1 ≤ a ∧ a < o.str + 1 + cs.length ∧ a ≤ limit
    · have index : a - o.str = a - (o.str + 1) + 1 := by omega
      rw [if_pos inside, if_pos (by omega), index, List.getD_cons_succ]
    · rw [if_neg inside]
      by_cases here : o.str = a ∧ a ≤ limit
      · rw [if_pos here, if_pos (by omega), here.1, Nat.sub_self, List.getD_cons_zero]
      · rw [if_neg here, if_neg (by omega)]

/-- What stands at an address depends on that address alone. -/
theorem Out.write_congr (str : o.str = o'.str) (same : o.mem a = o'.mem a) :
    (o.write limit cs).mem a = (o'.write limit cs).mem a := by
  induction cs generalizing o o' with
  | nil => exact same
  | cons c cs ih =>
    apply ih
    · exact congrArg (add64 · 1) str
    · show (if o.str ≤ limit then put o.mem o.str c else o.mem) a =
        (if o'.str ≤ limit then put o'.mem o'.str c else o'.mem) a
      rw [str]
      split
      · simp only [put, same]
      · exact same

/-- Where a character is written, what stood there does not matter. -/
theorem Out.write_covers {i : Nat} (word : o.str < 2 ^ 64) (str : o.str = o'.str) (lt : i < cs.length)
    (here : (o.str + i) % 2 ^ 64 = a) (low : a ≤ limit) : (o.write limit cs).mem a = (o'.write limit cs).mem a := by
  induction cs generalizing o o' i with
  | nil => cases lt
  | cons c cs ih =>
    have next : (o.emit 0 limit (.char c)).str = (o.str + 1) % 2 ^ 64 := rfl
    cases i with
    | zero =>
      rw [Nat.add_zero, Nat.mod_eq_of_lt word] at here
      rw [Out.write_cons, Out.write_cons]
      apply Out.write_congr
      · exact congrArg (add64 · 1) str
      · show (if o.str ≤ limit then put o.mem o.str c else o.mem) a =
          (if o'.str ≤ limit then put o'.mem o'.str c else o'.mem) a
        rw [← str, here, if_pos low, if_pos low, put_self, put_self]
    | succ i =>
      apply ih (i := i)
      · rw [next]
        exact Nat.mod_lt _ (by decide)
      · exact congrArg (add64 · 1) str
      · exact Nat.lt_of_succ_lt_succ lt
      · rw [next]
        omega

end

/-! ## `vsnprintf` -/

/-- What `vsnprintf` promises of a buffer: the length of the text is returned,
nothing outside the buffer changes, and a buffer that is not empty holds as much
of the text as fits, with a terminator. -/
structure Formats (mem mem' : Mem) (buf size : Nat) (text : List UInt8) (len : Int) : Prop where
  returned : len = text.length
  outside : ∀ a, ¬ (buf ≤ a ∧ a < buf + size) → mem' a = mem a
  inside : 0 < size → ∀ i < min text.length (size - 1), mem' (buf + i) = text.getD i 0
  terminated : 0 < size → mem' (buf + min text.length (size - 1)) = 0

/-- `vsnprintf` keeps its promise, whatever stands in memory. -/
def Bounded (buf size : Nat) (fmt : List UInt8) (args : Nat → Arg) : Prop :=
  ∀ mem, ∃ mem' len, vsnprintf mem buf size fmt args = some (mem', len) ∧
    Formats mem mem' buf size (formatted fmt args) len

section
variable {mem mem' : Mem} {buf size limit : Nat} {fmt text : List UInt8} {args : Nat → Arg} {o o' : Out}

theorem int32_of_lt {n : Nat} (lt : n < 2 ^ 31) : int32 n = n := by
  unfold int32
  apply Int.bmod_eq_of_le <;> omega

theorem length_returned {n : Nat} (lt : n < 2 ^ 31) :
    int32 (sub64 ((buf + n) % 2 ^ 64) buf) = n := by
  have diff : sub64 ((buf + n) % 2 ^ 64) buf = n := by
    unfold sub64
    omega
  rw [diff, int32_of_lt lt]

/-- A call, by the end of its buffer. -/
theorem vsnprintf_eq {size' : Nat} (plain : Plain fmt args) (word : buf < 2 ^ 64) (ends : bufferEnd buf size = (limit, size'))
    (range : (formatted fmt args).length < 2 ^ 31) : vsnprintf mem buf size fmt args =
      some (((⟨mem, buf⟩ : Out).write limit (formatted fmt args)).terminate limit size',
        ((formatted fmt args).length : Int)) := by
  have str : ((⟨mem, buf⟩ : Out).write limit (formatted fmt args)).str = (buf + (formatted fmt args).length) % 2 ^ 64 :=
    Out.write_str word
  have len := @length_returned buf (formatted fmt args).length range
  have run : formatLoop (Out.emit buf limit) fmt args (fmt.length + 1) 0 0 ⟨mem, buf⟩ =
      some ((⟨mem, buf⟩ : Out).write limit (formatted fmt args)) := by
    rw [formatLoop_eq, plain.pieces_eq, foldl_emit]
  rw [vsnprintf, ends, run, Option.map_some, str, len]

/-- The end of a buffer that is not at the null address. -/
theorem bufferEnd_eq (low : 0 < buf) (word : buf < 2 ^ 64) (fits : buf + size ≤ 2 ^ 64) :
    bufferEnd buf size = (buf + size - 1, size) := by
  have last : sub64 (add64 buf size) 1 = buf + size - 1 := by
    unfold sub64 add64
    omega
  have before : sub64 buf 1 = buf - 1 := sub64_of_le low word
  unfold bufferEnd
  rw [last, before]
  exact if_neg (by omega)

/-- At the null address the buffer has no end. -/
theorem bufferEnd_null (word : size < 2 ^ 64) : bufferEnd 0 size = (uintptrMax, 0) := by
  have top : sub64 0 1 = uintptrMax := by decide
  have wraps : add64 (sub64 uintptrMax 0) 1 = 0 := by decide
  unfold bufferEnd
  rw [top, wraps]
  cases size with
  | zero => exact if_neg (by decide)
  | succ n =>
    have last : sub64 (add64 0 (n + 1)) 1 = n := by
      unfold sub64 add64
      omega
    rw [last]
    exact if_pos (by simp only [uintptrMax]; omega)

/-- A text that does not wrap, in a buffer whose end is known. -/
theorem formats_write (low : 0 < buf) (nowrap : buf + text.length < 2 ^ 64) :
    Formats mem (((⟨mem, buf⟩ : Out).write (buf + size - 1) text).terminate (buf + size - 1) size) buf size text
      text.length := by
  have str : ((⟨mem, buf⟩ : Out).write (buf + size - 1) text).str = buf + text.length := by
    rw [Out.write_str (by show buf < 2 ^ 64; omega)]
    exact Nat.mod_eq_of_lt nowrap
  have written := fun a => @Out.write_mem (buf + size - 1) ⟨mem, buf⟩ text a nowrap
  generalize (⟨mem, buf⟩ : Out).write (buf + size - 1) text = o at str written
  dsimp only at written
  unfold Out.terminate
  rw [str]
  refine ⟨rfl, ?_, ?_, ?_⟩
  · intro a out
    have kept : o.mem a = mem a := by
      rw [written, if_neg (by omega)]
    split
    · rw [put_of_ne (by omega), kept]
    · split
      · rw [put_of_ne (by omega), kept]
      · exact kept
  · intro some_ i lt
    have here : o.mem (buf + i) = text.getD i 0 := by
      rw [written, if_pos (by omega), Nat.add_sub_cancel_left]
    split
    · rw [put_of_ne (by omega), here]
    · rw [put_of_ne (by omega), here]
  · intro some_
    split
    · have short : min text.length (size - 1) = text.length := by omega
      rw [short, put_self]
    · have long : buf + min text.length (size - 1) = buf + size - 1 := by omega
      rw [long, put_self]

/-- A text that fits at the null address. -/
theorem formats_write_null (short : text.length < size) (word : size < 2 ^ 64) :
    Formats mem (((⟨mem, 0⟩ : Out).write uintptrMax text).terminate uintptrMax 0) 0 size text text.length := by
  have nowrap : 0 + text.length < 2 ^ 64 := by omega
  have str : ((⟨mem, 0⟩ : Out).write uintptrMax text).str = text.length := by
    rw [Out.write_str (show 0 < 2 ^ 64 by decide)]
    exact Nat.mod_eq_of_lt nowrap |>.trans (Nat.zero_add _)
  have written := fun a => @Out.write_mem uintptrMax ⟨mem, 0⟩ text a nowrap
  generalize (⟨mem, 0⟩ : Out).write uintptrMax text = o at str written
  have whole : min text.length (size - 1) = text.length := by omega
  simp only [uintptrMax] at written ⊢
  unfold Out.terminate
  rw [str, if_pos (by omega)]
  refine ⟨rfl, ?_, ?_, ?_⟩
  · intro a out
    rw [put_of_ne (by omega), written, if_neg (by omega)]
  · intro _ i lt
    rw [put_of_ne (by omega), written, if_pos (by omega), Nat.zero_add, Nat.sub_zero]
  · intro _
    rw [whole, Nat.zero_add, put_self]

theorem terminate_congr {a : Nat} (str : o.str = o'.str) (same : o.mem a = o'.mem a) :
    o.terminate limit size a = o'.terminate limit size a := by
  unfold Out.terminate
  rw [str]
  split
  · simp only [put, same]
  · split
    · simp only [put, same]
    · exact same

/-- A text that goes past the top of the address space reaches address 0. -/
theorem wrap_reaches_zero {m m' : Mem} (low : 0 < buf) (word : buf < 2 ^ 64) (wrap : 2 ^ 64 ≤ buf + text.length) :
    ((⟨m, buf⟩ : Out).write limit text).terminate limit size 0 =
      ((⟨m', buf⟩ : Out).write limit text).terminate limit size 0 := by
  have str : ((⟨m, buf⟩ : Out).write limit text).str = ((⟨m', buf⟩ : Out).write limit text).str := by
    rw [Out.write_str word, Out.write_str word]
  rcases Nat.lt_or_ge (2 ^ 64 - buf) text.length with inside | last
  · apply terminate_congr str
    exact Out.write_covers word rfl inside (by show (buf + (2 ^ 64 - buf)) % 2 ^ 64 = 0; omega) (Nat.zero_le _)
  · have zero : ((⟨m', buf⟩ : Out).write limit text).str = 0 := by
      rw [Out.write_str word]
      show (buf + text.length) % 2 ^ 64 = 0
      omega
    unfold Out.terminate
    rw [str, zero, if_pos (Nat.zero_le _), if_pos (Nat.zero_le _), put_self, put_self]

/-- At the null address the terminator of a text that is too long stands behind
the buffer. -/
theorem not_bounded_null (plain : Plain fmt args) (word : size < 2 ^ 64) (range : (formatted fmt args).length < 2 ^ 31)
    (long : size ≤ (formatted fmt args).length) : ¬ Bounded 0 size fmt args := by
  intro bounded
  obtain ⟨mem', len, run, formats⟩ := bounded fun _ => 1
  rw [vsnprintf_eq plain (by decide) (bufferEnd_null word) range] at run
  have written := (Prod.mk.inj (Option.some_inj.1 run)).1
  have kept := formats.outside (formatted fmt args).length (by omega)
  have str : ((⟨fun _ => 1, 0⟩ : Out).write uintptrMax (formatted fmt args)).str = (formatted fmt args).length := by
    rw [Out.write_str (show 0 < 2 ^ 64 by decide)]
    exact (Nat.mod_eq_of_lt (show 0 + (formatted fmt args).length < 2 ^ 64 by omega)).trans (Nat.zero_add _)
  rw [← written, Out.terminate, str, if_pos (by simp only [uintptrMax]; omega), put_self] at kept
  cases kept

/-- Past the top of the address space, what is written to address 0 does not
depend on what stood there. -/
theorem not_bounded_wrap (plain : Plain fmt args) (low : 0 < buf) (word : buf < 2 ^ 64) (fits : buf + size ≤ 2 ^ 64)
    (range : (formatted fmt args).length < 2 ^ 31) (wrap : 2 ^ 64 ≤ buf + (formatted fmt args).length) :
    ¬ Bounded buf size fmt args := by
  intro bounded
  obtain ⟨mem₀, _, run₀, formats₀⟩ := bounded fun _ => 0
  obtain ⟨mem₁, _, run₁, formats₁⟩ := bounded fun _ => 1
  rw [vsnprintf_eq plain word (bufferEnd_eq low word fits) range] at run₀ run₁
  have written₀ := (Prod.mk.inj (Option.some_inj.1 run₀)).1
  have written₁ := (Prod.mk.inj (Option.some_inj.1 run₁)).1
  have kept₀ := formats₀.outside 0 (by omega)
  have kept₁ := formats₁.outside 0 (by omega)
  rw [← written₀] at kept₀
  rw [← written₁, wrap_reaches_zero low word wrap, kept₀] at kept₁
  cases kept₁

/-- **When `vsnprintf` keeps to its buffer**: if the buffer is not at the null
address, or the text fits there; and the text ends below the top of the address
space. -/
theorem vsnprintf_bounded_iff (plain : Plain fmt args) (word : buf < 2 ^ 64) (word' : size < 2 ^ 64) (fits : buf + size ≤ 2 ^ 64)
    (range : (formatted fmt args).length < 2 ^ 31) : Bounded buf size fmt args ↔
      (buf = 0 → (formatted fmt args).length < size) ∧ buf + (formatted fmt args).length < 2 ^ 64 := by
  constructor
  · intro bounded
    rcases Nat.eq_zero_or_pos buf with rfl | low
    · refine ⟨fun _ => ?_, by omega⟩
      by_contra long
      exact not_bounded_null plain word' range (Nat.le_of_not_lt long) bounded
    · refine ⟨by omega, ?_⟩
      by_contra wrap
      exact not_bounded_wrap plain low word fits range (Nat.le_of_not_lt wrap) bounded
  · intro holds mem
    obtain ⟨null, nowrap⟩ := holds
    rcases Nat.eq_zero_or_pos buf with rfl | low
    · exact ⟨_, _, vsnprintf_eq plain word (bufferEnd_null word') range, formats_write_null (null rfl) word'⟩
    · exact ⟨_, _, vsnprintf_eq plain word (bufferEnd_eq low word fits) range, formats_write low nowrap⟩

end

end MiaowOs
