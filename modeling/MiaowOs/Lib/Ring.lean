import Mathlib.Data.List.Basic
import Mathlib.Data.List.Chain
import Mathlib.Data.List.Nodup
import Mathlib.Logic.Function.Basic

/-!
# Rings of two-way links

A heap gives every node a pair of nullable links. `Linked m l` says that the
consecutive nodes of `l` are linked both ways; a circular list with header `h`
and members `qs` is `Ring m h qs := Linked m (h :: qs ++ [h])`. The edits of an
intrusive list are local in this view: `Ring.link` puts a node behind the
header, `Ring.unlink` takes one out, and `Ring.congr` moves a ring to any heap
that agrees on its nodes. Nothing here depends on what a node is.
-/

namespace TwoWay

/-- The link pair of a node; `none` is the null pointer. -/
structure Link (α : Type) where
  next : Option α
  prev : Option α
  deriving DecidableEq, Repr

/-- A heap of link pairs, one per node. -/
abbrev Heap (α : Type) := α → Link α

/-- `x` is followed by `y`, and `y` preceded by `x`. -/
def Next {α : Type} (m : Heap α) (x y : α) : Prop := (m x).next = some y ∧ (m y).prev = some x

/-- Consecutive nodes are linked both ways. -/
def Linked {α : Type} (m : Heap α) (l : List α) : Prop := l.IsChain (Next m)

/-- The circular list of header `h` with members `qs`, in `next` order; no
node occurs twice. -/
structure Ring {α : Type} (m : Heap α) (h : α) (qs : List α) : Prop where
  linked : Linked m (h :: (qs ++ [h]))
  nodup : (h :: qs).Nodup

section
variable {α : Type} {m m' : Heap α}

theorem linked_cons_cons {x y : α} {l : List α} :
    Linked m (x :: y :: l) ↔ Next m x y ∧ Linked m (y :: l) :=
  List.isChain_cons_cons

/-- A chain reads `next` of every node but the last and `prev` of every node
but the first. -/
theorem Linked.transport : ∀ {l : List α}, Linked m l →
    (∀ x ∈ l.dropLast, (m' x).next = (m x).next) → (∀ y ∈ l.tail, (m' y).prev = (m y).prev) →
    Linked m' l
  | [], _, _, _ => .nil
  | [x], _, _, _ => .singleton x
  | x :: y :: l, h, hn, hp => by
    obtain ⟨hxy, rest⟩ := linked_cons_cons.1 h
    refine linked_cons_cons.2 ⟨⟨?_, ?_⟩, rest.transport ?_ ?_⟩
    · rw [hn x (by simp)]; exact hxy.1
    · rw [hp y (by simp)]; exact hxy.2
    · intro z hz
      exact hn z (by rw [List.dropLast_cons_cons]; exact List.mem_cons_of_mem _ hz)
    · intro z hz
      exact hp z (by simpa using List.mem_cons_of_mem y hz)

/-- A chain through a node is the chain up to it and the chain from it. -/
theorem linked_append {x : α} {l₂ : List α} : ∀ l₁ : List α,
    Linked m (l₁ ++ x :: l₂) ↔ Linked m (l₁ ++ [x]) ∧ Linked m (x :: l₂)
  | [] => by simp [Linked]
  | [a] => by
    simp only [List.cons_append, List.nil_append, linked_cons_cons]
    exact ⟨fun h => ⟨⟨h.1, .singleton x⟩, h.2⟩, fun h => ⟨h.1.1, h.2⟩⟩
  | a :: b :: l₁ => by
    have ih : Linked m (b :: l₁ ++ x :: l₂) ↔ _ := linked_append (b :: l₁)
    simp only [List.cons_append] at ih ⊢
    rw [linked_cons_cons, linked_cons_cons, ih, and_assoc]

/-- Every list that continues to the header starts with some node. -/
theorem exists_head (qs : List α) (h : α) : ∃ y rest, qs ++ [h] = y :: rest := by
  cases qs with
  | nil => exact ⟨h, [], rfl⟩
  | cons q qs => exact ⟨q, qs ++ [h], rfl⟩

/-- Every list that starts at the header ends with some node. -/
theorem exists_last (h : α) (qs : List α) : ∃ front x, h :: qs = front ++ [x] :=
  ⟨(h :: qs).dropLast, (h :: qs).getLast (by simp), (List.dropLast_append_getLast (by simp)).symm⟩

/-- A ring survives on any heap that agrees on its nodes. -/
theorem Ring.congr {h : α} {qs : List α} (r : Ring m h qs) (agree : ∀ x ∈ h :: qs, m' x = m x) :
    Ring m' h qs := by
  refine ⟨r.linked.transport (fun x hx => ?_) (fun y hy => ?_), r.nodup⟩
  · have : x ∈ h :: (qs ++ [h]) := List.dropLast_subset _ hx
    rw [agree x (by simp at this ⊢; tauto)]
  · rw [agree y (by simp at hy ⊢; tauto)]

/-- The empty ring: its header points at itself both ways. -/
theorem Ring.nil {h : α} (hn : (m h).next = some h) (hp : (m h).prev = some h) : Ring m h [] :=
  ⟨linked_cons_cons.2 ⟨⟨hn, hp⟩, .singleton h⟩, by simp⟩

/-- The header's `next` is the first member, or the header itself. -/
theorem Ring.next_head {h : α} {qs : List α} (r : Ring m h qs) :
    (m h).next = some (qs.headD h) := by
  obtain ⟨y, rest, e⟩ := exists_head qs h
  have hl := r.linked
  rw [e] at hl
  rw [(linked_cons_cons.1 hl).1.1]
  cases qs <;> simp_all

/-- Two rings of one header have the same members: `next` determines them. -/
theorem Linked.unique {h : α} : ∀ {x : α} {qs ps : List α}, h ∉ qs → h ∉ ps →
    Linked m (x :: (qs ++ [h])) → Linked m (x :: (ps ++ [h])) → qs = ps
  | x, [], [], _, _, _, _ => rfl
  | x, [], p :: ps, _, hp, a, b => by
    have := (linked_cons_cons.1 a).1.1.symm.trans (linked_cons_cons.1 b).1.1
    simp only [Option.some.injEq] at this
    exact absurd (by simp [this]) hp
  | x, q :: qs, [], hq, _, a, b => by
    have := (linked_cons_cons.1 a).1.1.symm.trans (linked_cons_cons.1 b).1.1
    simp only [Option.some.injEq] at this
    exact absurd (by simp [this]) hq
  | x, q :: qs, p :: ps, hq, hp, a, b => by
    have same := (linked_cons_cons.1 a).1.1.symm.trans (linked_cons_cons.1 b).1.1
    simp only [Option.some.injEq] at same
    subst same
    rw [List.mem_cons, not_or] at hq hp
    rw [Linked.unique hq.2 hp.2 (linked_cons_cons.1 a).2 (linked_cons_cons.1 b).2]

theorem Ring.unique {h : α} {qs ps : List α} (r : Ring m h qs) (s : Ring m h ps) : qs = ps :=
  Linked.unique (List.nodup_cons.1 r.nodup).1 (List.nodup_cons.1 s.nodup).1 r.linked s.linked

/-- **Link a node in** behind the header `h`: only `h`, the new node `e` and
the old first node `y` change. -/
theorem Ring.link {h e y : α} {qs : List α} (r : Ring m h qs) (fresh : e ∉ h :: qs)
    (first : (m h).next = some y)
    (h1 : (m' h).next = some e) (h2 : (m' e).prev = some h) (h3 : (m' e).next = some y)
    (h4 : (m' y).prev = some e)
    (keepNext : ∀ x, x ≠ h → x ≠ e → (m' x).next = (m x).next)
    (keepPrev : ∀ x, x ≠ y → x ≠ e → (m' x).prev = (m x).prev) : Ring m' h (e :: qs) := by
  have nodup := r.nodup
  refine ⟨?_, by simp only [List.mem_cons, not_or, List.nodup_cons] at *; tauto⟩
  obtain ⟨y', rest, hs⟩ := exists_head qs h
  have hl := r.linked
  rw [hs] at hl
  obtain ⟨hy, hrest⟩ := linked_cons_cons.1 hl
  rw [hy.1, Option.some.injEq] at first
  subst first
  simp only [List.cons_append, hs]
  refine linked_cons_cons.2 ⟨⟨h1, h2⟩, linked_cons_cons.2 ⟨⟨h3, h4⟩, hrest.transport ?_ ?_⟩⟩
  · intro x hx
    -- the sources of the old links behind the header are the members
    have hx' : x ∈ qs := by rw [← hs] at hx; simpa using hx
    refine keepNext x ?_ ?_
    · rintro rfl; exact (List.nodup_cons.1 nodup).1 hx'
    · rintro rfl; exact fresh (List.mem_cons_of_mem _ hx')
  · intro x hx
    -- their targets come after the old first node
    cases qs with
    | nil => simp at hs; simp [hs] at hx
    | cons q qs =>
      obtain ⟨rfl, rfl⟩ := List.cons.inj hs
      replace hx : x ∈ qs ∨ x = h := by simpa using (show x ∈ qs ++ [h] from hx)
      simp only [List.nodup_cons, List.mem_cons, not_or] at nodup fresh
      refine keepPrev x ?_ ?_
      · rintro rfl
        rcases hx with hx | hx
        · exact nodup.2.1 hx
        · exact nodup.1.1 hx.symm
      · rintro rfl
        rcases hx with hx | hx
        · exact fresh.2.2 hx
        · exact fresh.1 hx

/-- The neighbours of a member. -/
theorem Ring.neighbours {h e : α} {as bs : List α} (r : Ring m h (as ++ e :: bs)) :
    ∃ x y, x ∈ h :: as ∧ y ∈ h :: bs ∧ (m e).prev = some x ∧ (m e).next = some y := by
  obtain ⟨front, x, hf⟩ := exists_last h as
  obtain ⟨y, rest, hb⟩ := exists_head bs h
  have hl := r.linked
  have shape : h :: (as ++ e :: bs ++ [h]) = front ++ x :: e :: y :: rest := by
    rw [List.append_assoc, List.cons_append, ← List.cons_append, hf, hb]; simp
  rw [shape, linked_append] at hl
  obtain ⟨hxe, hl⟩ := linked_cons_cons.1 hl.2
  obtain ⟨hey, -⟩ := linked_cons_cons.1 hl
  refine ⟨x, y, by rw [hf]; simp, ?_, hxe.2, hey.1⟩
  have : y ∈ bs ++ [h] := by rw [hb]; simp
  simp at this ⊢; tauto

/-- **Unlink a member** `e`: its neighbours `x` and `y` are linked to each
other and `e` is left alone. -/
theorem Ring.unlink {h e x y : α} {as bs : List α} (r : Ring m h (as ++ e :: bs))
    (before : (m e).prev = some x) (after : (m e).next = some y)
    (h1 : (m' x).next = some y) (h2 : (m' y).prev = some x)
    (keepNext : ∀ z, z ≠ x → z ≠ e → (m' z).next = (m z).next)
    (keepPrev : ∀ z, z ≠ y → z ≠ e → (m' z).prev = (m z).prev) : Ring m' h (as ++ bs) := by
  have nodup := r.nodup
  have sub : (h :: (as ++ bs)).Nodup := by
    refine List.Nodup.sublist ?_ nodup
    exact List.Sublist.cons_cons _ (List.Sublist.append_left (List.sublist_cons_self e bs) as)
  refine ⟨?_, sub⟩
  obtain ⟨front, x', hf⟩ := exists_last h as
  obtain ⟨y', rest, hb⟩ := exists_head bs h
  have hl := r.linked
  have shape : h :: (as ++ e :: bs ++ [h]) = front ++ x' :: e :: y' :: rest := by
    rw [List.append_assoc, List.cons_append, ← List.cons_append, hf, hb]; simp
  rw [shape, linked_append] at hl
  obtain ⟨hfront, hl⟩ := hl
  obtain ⟨hxe, hl⟩ := linked_cons_cons.1 hl
  obtain ⟨hey, hback⟩ := linked_cons_cons.1 hl
  rw [hxe.2, Option.some.injEq] at before
  rw [hey.1, Option.some.injEq] at after
  subst before after
  have shape' : h :: (as ++ bs ++ [h]) = front ++ x' :: y' :: rest := by
    rw [List.append_assoc, ← List.cons_append, hf, hb]; simp
  have split : (front ++ [x']).Nodup ∧ (y' :: rest).Nodup ∧ e ∉ front ++ [x'] ∧ e ∉ y' :: rest ∧
      (∀ z ∈ (front ++ [x']).tail, z ∉ y' :: rest) ∧ ∀ z ∈ (y' :: rest).dropLast, z ∉ front ++ [x'] := by
    rw [← hf, ← hb]
    simp only [List.nodup_cons, List.nodup_append, List.mem_append, List.mem_cons, not_or] at nodup
    obtain ⟨⟨hha, hhe, hhb⟩, na, ⟨neb, nb⟩, dis⟩ := nodup
    refine ⟨List.nodup_cons.2 ⟨hha, na⟩, ?_, ?_, ?_, ?_, ?_⟩
    · refine List.nodup_append.2 ⟨nb, by simp, ?_⟩
      intro a ha b hb' eq
      simp only [List.mem_singleton] at hb'
      subst hb' eq
      exact hhb ha
    · simp only [List.mem_cons, not_or]
      exact ⟨fun q => hhe q.symm, fun q => dis e q e (.inl rfl) rfl⟩
    · simp only [List.mem_append, List.mem_singleton, not_or]
      exact ⟨neb, fun q => hhe q.symm⟩
    · intro z hz
      simp only [List.tail_cons, List.mem_append, List.mem_singleton, not_or] at hz ⊢
      exact ⟨fun q => dis z hz z (.inr q) rfl, by rintro rfl; exact hha hz⟩
    · intro z hz
      simp only [List.dropLast_concat, List.mem_cons, not_or] at hz ⊢
      exact ⟨by rintro rfl; exact hhb hz, fun q => dis z q z (.inr hz) rfl⟩
  obtain ⟨nf, nb, ef, eb, apart, apart'⟩ := split
  rw [shape', linked_append]
  refine ⟨hfront.transport ?_ ?_, linked_cons_cons.2 ⟨⟨h1, h2⟩, hback.transport ?_ ?_⟩⟩
  · intro z hz
    refine keepNext z ?_ (fun q => ef (q ▸ List.dropLast_subset _ hz))
    rintro rfl
    simp only [List.dropLast_concat] at hz
    exact (List.nodup_append.1 nf).2.2 z hz z (by simp) rfl
  · intro z hz
    exact keepPrev z (fun q => apart z hz (by simp [q])) (fun q => ef (q ▸ List.mem_of_mem_tail hz))
  · intro z hz
    refine keepNext z ?_ (fun q => eb (q ▸ List.dropLast_subset _ hz))
    rintro rfl
    exact apart' z hz (by simp)
  · intro z hz
    refine keepPrev z ?_ (fun q => eb (q ▸ List.mem_of_mem_tail hz))
    rintro rfl
    exact (List.nodup_cons.1 nb).1 hz

/-- The heap with the directions of its links exchanged. -/
def mirror (m : Heap α) : Heap α := fun x => ⟨(m x).prev, (m x).next⟩

/-- A ring read backwards. -/
theorem Ring.mirror {h : α} {qs : List α} (r : Ring m h qs) : Ring (TwoWay.mirror m) h qs.reverse := by
  refine ⟨?_, ?_⟩
  · have back : h :: (qs.reverse ++ [h]) = (h :: (qs ++ [h])).reverse := by simp
    rw [Linked, back, List.isChain_reverse]
    exact List.IsChain.imp (fun x y next => ⟨next.2, next.1⟩) r.linked
  · have nodup := r.nodup
    rw [List.nodup_cons] at nodup ⊢
    exact ⟨fun mem => nodup.1 (List.mem_reverse.1 mem), List.nodup_reverse.2 nodup.2⟩

/-- The header's `prev` is the last member, or the header itself. -/
theorem Ring.prev_head {h : α} {qs : List α} (r : Ring m h qs) : (m h).prev = some (qs.reverse.headD h) :=
  r.mirror.next_head

end

end TwoWay
