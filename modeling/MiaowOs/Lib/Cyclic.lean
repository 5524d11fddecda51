import Mathlib

/-!
# Cyclic order

The elements of `Fin n` on a circle. `dist c j` is the number of places from
`c` forward to `j`, a whole turn from `c` to itself. A chooser that always
takes the nearest element with a property passes over no element for more than
`n` choices, and takes the elements of a fixed set in turn.
-/

namespace Cyclic

variable {n : Nat}

/-- The element `k` places after `c`. -/
def shift (c : Fin n) (k : Nat) : Fin n := ⟨(c + k) % n, Nat.mod_lt _ c.pos⟩

/-- The number of places from `c` forward to `j`, between 1 and `n`. -/
def dist (c j : Fin n) : Nat := if c.val < j.val then j - c else j + n - c

/-- `j` has the property `p`, and is the nearest such element after `c`. -/
def Nearest (p : Fin n → Bool) (c j : Fin n) : Prop := p j ∧ ∀ i, p i → dist c j ≤ dist c i

section
variable {p : Fin n → Bool} {c i j k : Fin n}

theorem dist_pos : 0 < dist c j := by
  unfold dist
  split <;> omega

theorem dist_le : dist c j ≤ n := by
  unfold dist
  split <;> omega

theorem shift_dist : shift c (dist c j) = j := by
  apply Fin.ext
  unfold shift dist
  dsimp only
  split
  · rw [Nat.mod_eq_of_lt (by omega)]
    omega
  · rw [show c.val + (j.val + n - c.val) = j.val + n by omega, Nat.add_mod_right, Nat.mod_eq_of_lt j.isLt]

theorem dist_shift {m : Nat} (pos : 0 < m) (le : m ≤ n) : dist c (shift c m) = m := by
  have lt := c.isLt
  have val : (shift c m).val = (c + m) % n := rfl
  unfold dist
  rcases Nat.lt_or_ge (c + m) n with inside | beyond
  · rw [val, Nat.mod_eq_of_lt inside, if_pos (by omega)]
    omega
  · rw [val, Nat.mod_eq_sub_mod beyond, Nat.mod_eq_of_lt (by omega), if_neg (by omega)]
    omega

theorem dist_inj (eq : dist c i = dist c j) : i = j := by
  rw [← @shift_dist n c i, eq, shift_dist]

theorem Nearest.unique (hi : Nearest p c i) (hj : Nearest p c j) : i = j :=
  dist_inj (Nat.le_antisymm (hi.2 j hj.1) (hj.2 i hi.1))

/-- A choice of another element brings `j` nearer. -/
theorem Nearest.closer (h : Nearest p c i) (hj : p j) (ne : i ≠ j) : dist i j < dist c j := by
  have le := h.2 j hj
  have lt : dist c i < dist c j := Nat.lt_of_le_of_ne le fun eq => ne (dist_inj eq)
  unfold dist at *
  split at lt <;> split at lt <;> split <;> omega

/-- **No starvation.** In a chain of choices longer than the distance to `j`,
one falls on `j` when `j` can be chosen each time, whatever happens to the
other elements. -/
theorem mem_of_chain {l : List (Fin n)} (chain : (c :: l).IsChain fun a b => ∃ p, Nearest p a b ∧ p j)
    (long : dist c j ≤ l.length) : j ∈ l := by
  induction l generalizing c with
  | nil => exact absurd long (Nat.not_le.2 dist_pos)
  | cons b l ih =>
    obtain ⟨⟨p, nearest, able⟩, rest⟩ := List.isChain_cons_cons.1 chain
    by_cases here : b = j
    · simp [here]
    · have step := nearest.closer able here
      rw [List.length_cons] at long
      exact List.mem_cons_of_mem _ (ih rest (by omega))

end

/-! ## Turns -/

/-- The elements with the property, in index order. -/
def order (p : Fin n → Bool) : List (Fin n) := (List.finRange n).filter p

section
variable {p : Fin n → Bool} {c i j : Fin n}

theorem mem_order : i ∈ order p ↔ p i := by simp [order]

theorem order_lt : (order p).Pairwise (· < ·) := by
  unfold order
  exact (List.pairwise_lt_finRange n).filter _

theorem order_le {a b : Nat} (hi : (order p)[a]? = some i) (hj : (order p)[b]? = some j) (le : a ≤ b) :
    i ≤ j := by
  obtain ⟨ha, rfl⟩ := List.getElem?_eq_some_iff.1 hi
  obtain ⟨hb, rfl⟩ := List.getElem?_eq_some_iff.1 hj
  rcases Nat.lt_or_eq_of_le le with lt | rfl
  · exact (List.pairwise_iff_getElem.1 order_lt a b ha hb lt).le
  · exact le_rfl

/-- The nearest element after the `k`-th in index order is the next one, or the
first one after the last. -/
theorem nearest_order {k : Nat} (hc : (order p)[k]? = some c)
    (hj : (order p)[(k + 1) % (order p).length]? = some j) : Nearest p c j := by
  have hk : k < (order p).length := (List.getElem?_eq_some_iff.1 hc).1
  refine ⟨mem_order.1 (List.mem_of_getElem? hj), fun i able => ?_⟩
  obtain ⟨l, hl⟩ := List.mem_iff_getElem?.1 (mem_order.2 able)
  have hl' : l < (order p).length := (List.getElem?_eq_some_iff.1 hl).1
  rcases Nat.lt_or_ge (k + 1) (order p).length with inside | last
  · rw [Nat.mod_eq_of_lt inside] at hj
    have after : c < j := by
      obtain ⟨_, rfl⟩ := List.getElem?_eq_some_iff.1 hc
      obtain ⟨_, rfl⟩ := List.getElem?_eq_some_iff.1 hj
      exact List.pairwise_iff_getElem.1 order_lt k (k + 1) hk inside (Nat.lt_succ_self k)
    rcases Nat.lt_or_ge k l with above | below
    · have le : j ≤ i := order_le hj hl above
      unfold dist
      rw [if_pos (by omega), if_pos (by omega)]
      omega
    · have le : i ≤ c := order_le hl hc below
      unfold dist
      rw [if_pos (by omega), if_neg (by omega)]
      omega
  · rw [show k + 1 = (order p).length by omega, Nat.mod_self] at hj
    have le : i ≤ c := order_le hl hc (by omega)
    have low : j ≤ i := order_le hj hl (Nat.zero_le l)
    unfold dist
    rw [if_neg (by omega), if_neg (by omega)]
    omega

/-- **Turns.** With the set fixed, a chain of choices runs through its elements
in index order, again and again. -/
theorem chain_in_order {l : List (Fin n)} {k : Nat} (hc : (order p)[k]? = some c)
    (chain : (c :: l).IsChain (Nearest p)) :
    ∀ a < (c :: l).length, (c :: l)[a]? = (order p)[(k + a) % (order p).length]? := by
  have lt : k < (order p).length := (List.getElem?_eq_some_iff.1 hc).1
  induction l generalizing c k with
  | nil =>
    intro a ha
    obtain rfl : a = 0 := by simpa using ha
    rw [Nat.add_zero, Nat.mod_eq_of_lt lt, hc]
    rfl
  | cons b l ih =>
    intro a ha
    obtain ⟨nearest, rest⟩ := List.isChain_cons_cons.1 chain
    have next := Nat.mod_lt (k + 1) (Nat.zero_lt_of_lt lt)
    have hb : (order p)[(k + 1) % (order p).length]? = some b := by
      rw [List.getElem?_eq_getElem next, (nearest_order hc (List.getElem?_eq_getElem next)).unique nearest]
    cases a with
    | zero =>
      rw [Nat.add_zero, Nat.mod_eq_of_lt lt, hc]
      rfl
    | succ a =>
      rw [List.getElem?_cons_succ, ih hb rest next a (by simpa using ha), Nat.mod_add_mod, Nat.add_assoc,
        Nat.add_comm 1 a]

/-- As many successive choices as there are elements take each of them once. -/
theorem chain_perm {l : List (Fin n)} {k : Nat} (length : l.length = (order p).length)
    (turns : ∀ a < l.length, l[a]? = (order p)[(k + a) % (order p).length]?) : l.Perm (order p) := by
  have rotated : l = (order p).rotate k := by
    apply List.ext_getElem?
    intro a
    rcases Nat.lt_or_ge a l.length with lt | ge
    · rw [List.getElem?_rotate (length ▸ lt), turns a lt, Nat.add_comm]
    · rw [List.getElem?_eq_none ge, List.getElem?_eq_none (by rw [List.length_rotate]; omega)]
  rw [rotated]
  exact List.rotate_perm _ _

end

end Cyclic
