import Mathlib.Data.List.Nodup

/-!
# Null-terminated chains

`Chain next null a l` says that `next` leads from `a` through the nodes of `l`
to `null`. The chain reads `next` of its own nodes only (`Chain.congr`), so a node
goes on its front when it alone is written (`Chain.push`), and its first node comes
off when nothing is written (`Chain.cases`).
-/

namespace Chains

/-- From `a`, the links `next` lead through `l` to `null`. -/
inductive Chain {α : Type} (next : α → α) (null : α) : α → List α → Prop
  | nil : Chain next null null []
  | cons {a : α} {l : List α} (ne : a ≠ null) (rest : Chain next null (next a) l) : Chain next null a (a :: l)

section
variable {α : Type} {next next' : α → α} {null a b : α} {l l' : List α}

/-- The links of other nodes do not matter. -/
theorem Chain.congr (h : Chain next null a l) (agree : ∀ x ∈ l, next' x = next x) : Chain next' null a l := by
  induction h with
  | nil => exact .nil
  | cons ne rest ih =>
    refine .cons ne ?_
    rw [agree _ List.mem_cons_self]
    exact ih fun x mem => agree x (List.mem_cons_of_mem _ mem)

/-- A chain starts with its first node, or is empty and starts with null. -/
theorem Chain.cases (h : Chain next null a l) :
    a = null ∧ l = [] ∨ a ≠ null ∧ ∃ rest, l = a :: rest ∧ Chain next null (next a) rest := by
  cases h with
  | nil => exact .inl ⟨rfl, rfl⟩
  | cons ne rest => exact .inr ⟨ne, _, rfl, rest⟩

theorem Chain.null_iff (h : Chain next null a l) : a = null ↔ l = [] := by
  cases h with
  | nil => simp
  | cons ne rest => simp [ne]

/-- A node that is linked to the start of a chain goes on its front. -/
theorem Chain.push (h : Chain next null a l) (ne : b ≠ null) (link : next' b = a)
    (agree : ∀ x ∈ l, next' x = next x) : Chain next' null b (b :: l) := by
  refine .cons ne ?_
  rw [link]
  exact h.congr agree

/-- The links determine the chain. -/
theorem Chain.unique (h : Chain next null a l) (h' : Chain next null a l') : l = l' := by
  induction h generalizing l' with
  | nil => exact ((h'.null_iff).1 rfl).symm
  | cons ne rest ih =>
    cases h' with
    | nil => exact (ne rfl).elim
    | cons ne' rest' => rw [ih rest']

/-- A list whose nodes are linked one to the next, and the last to null, is a
chain. -/
theorem Chain.of_links : ∀ {a : α} {l : List α}, (∀ x ∈ a :: l, x ≠ null) → List.IsChain (fun x y => next x = y) (a :: l) →
    next ((a :: l).getLast (List.cons_ne_nil a l)) = null → Chain next null a (a :: l)
  | a, [], ne, _, last => .cons (ne a List.mem_cons_self) (by rw [show next a = null from last]; exact .nil)
  | a, b :: l, ne, links, last => by
    obtain ⟨link, rest⟩ := List.isChain_cons_cons.1 links
    refine .cons (ne a List.mem_cons_self) ?_
    rw [link]
    exact Chain.of_links (fun x mem => ne x (List.mem_cons_of_mem _ mem)) rest last

end

end Chains
