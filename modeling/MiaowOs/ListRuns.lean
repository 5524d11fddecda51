import MiaowOs.ListHead

/-!
# Runs of list operations

Any number of lists in one heap of links. The abstract state gives each header its
list; `ListOp.spec` says what an operation of `list.h` is for there. A run of the
operations keeps every list a ring of its own, apart from the others
(`ListRuns.represents`), so what is read from a header is read off the abstract list.
-/

namespace MiaowOs
open TwoWay

variable {α : Type}

/-- The headers, each with the entries of its list. -/
abbrev Lists (α : Type) := α → Option (List α)

/-- A call of `list.h` that changes links. -/
inductive ListOp (α : Type)
  | init (list : α)
  | add (entry head : α)
  | addTail (entry head : α)
  | del (entry : α)
deriving Repr

/-- What the code does. -/
def ListOp.exec [DecidableEq α] : ListOp α → Heap α → Heap α
  | init list, m => initListHead m list
  | add entry head, m => listAdd m entry head
  | addTail entry head, m => listAddTail m entry head
  | del entry, m => listDel m entry

/-- The links it follows. -/
def ListOp.follows : ListOp α → Heap α → List (Option α)
  | init _, _ => []
  | add _ head, m => [(m head).next]
  | addTail _ head, m => [(m head).prev]
  | del entry, m => [(m entry).prev, (m entry).next]

/-- The nodes it names. -/
def ListOp.nodes : ListOp α → List α
  | init list => [list]
  | add entry head => [entry, head]
  | addTail entry head => [entry, head]
  | del entry => [entry]

/-- What it is for. -/
def ListOp.spec [DecidableEq α] : ListOp α → Lists α → Lists α
  | init list, lists => Function.update lists list (some [])
  | add entry head, lists => Function.update lists head ((lists head).map (entry :: ·))
  | addTail entry head, lists => Function.update lists head ((lists head).map (· ++ [entry]))
  | del entry, lists => fun head => (lists head).map (·.erase entry)

/-- A node of another list than that of `head`. -/
def Elsewhere (lists : Lists α) (head node : α) : Prop :=
  ∃ other entries, other ≠ head ∧ lists other = some entries ∧ node ∈ other :: entries

/-- A node of no list. -/
def Unlisted (lists : Lists α) (node : α) : Prop := ∀ head entries, lists head = some entries → node ∉ head :: entries

/-- When it may be called: a header may be initialised again, and gives up its entries. -/
def ListOp.Allowed : ListOp α → Lists α → Prop
  | init list, lists => ¬ Elsewhere lists list list
  | add entry head, lists => (lists head).isSome ∧ Unlisted lists entry
  | addTail entry head, lists => (lists head).isSome ∧ Unlisted lists entry
  | del entry, lists => ∃ head entries, lists head = some entries ∧ entry ∈ entries

/-- The heap holds every list as a ring, and no node is on two. -/
structure Represents (m : Heap α) (lists : Lists α) : Prop where
  ring : ∀ {head entries}, lists head = some entries → Ring m head entries
  apart : ∀ {head entries}, lists head = some entries → ∀ x ∈ head :: entries, ¬ Elsewhere lists head x

/-- Calls one after the other, each where it is allowed. -/
inductive ListRuns [DecidableEq α] (m₀ : Heap α) : List (ListOp α) → Heap α → Lists α → Prop
  | refl : ListRuns m₀ [] m₀ fun _ => none
  | step {ops : List (ListOp α)} {m : Heap α} {lists : Lists α} {op : ListOp α} (run : ListRuns m₀ ops m lists)
      (allowed : op.Allowed lists) : ListRuns m₀ (ops ++ [op]) (op.exec m) (op.spec lists)

section
variable {m m' m₀ : Heap α} {lists : Lists α} {op : ListOp α} {ops : List (ListOp α)} {head entry x : α}
  {entries : List α}

theorem Unlisted.not_elsewhere (off : Unlisted lists x) : ¬ Elsewhere lists head x := by
  rintro ⟨other, entries, -, there, mem⟩
  exact off other entries there mem

/-- No link that a call follows is null. -/
theorem Represents.follows (represents : Represents m lists) (allowed : op.Allowed lists) : none ∉ op.follows m := by
  cases op with
  | init list => exact List.not_mem_nil
  | add entry head =>
    obtain ⟨entries, holds⟩ := Option.isSome_iff_exists.1 allowed.1
    rw [ListOp.follows, (represents.ring holds).next_head]
    simp
  | addTail entry head =>
    obtain ⟨entries, holds⟩ := Option.isSome_iff_exists.1 allowed.1
    rw [ListOp.follows, (represents.ring holds).prev_head]
    simp
  | del entry =>
    obtain ⟨head, entries, holds, mem⟩ := allowed
    obtain ⟨as, bs, rfl⟩ := List.append_of_mem mem
    obtain ⟨x, y, -, -, before, after⟩ := (represents.ring holds).neighbours
    rw [ListOp.follows, before, after]
    simp

variable [DecidableEq α]

/-- One list changes, on nodes that are on no other, and nothing else does. -/
theorem Represents.edit (represents : Represents m lists) (ring : Ring m' head entries)
    (own : ∀ x ∈ head :: entries, ¬ Elsewhere lists head x) (frame : ∀ x, Elsewhere lists head x → m' x = m x) :
    Represents m' (Function.update lists head (some entries)) := by
  constructor
  · intro h qs holds
    by_cases here : h = head
    · subst here
      rw [Function.update_self] at holds
      obtain rfl := Option.some_inj.1 holds
      exact ring
    · rw [Function.update_of_ne here] at holds
      exact (represents.ring holds).congr fun x mem => frame x ⟨h, qs, here, holds, mem⟩
  · rintro h qs holds x mem ⟨other, ps, ne, there, mem'⟩
    by_cases here : h = head
    · subst here
      rw [Function.update_self] at holds
      obtain rfl := Option.some_inj.1 holds
      rw [Function.update_of_ne ne] at there
      exact own x mem ⟨other, ps, ne, there, mem'⟩
    · rw [Function.update_of_ne here] at holds
      by_cases at_ : other = head
      · subst at_
        rw [Function.update_self] at there
        obtain rfl := Option.some_inj.1 there
        exact own x mem' ⟨h, qs, here, holds, mem⟩
      · rw [Function.update_of_ne at_] at there
        exact represents.apart holds x mem ⟨other, ps, ne, there, mem'⟩

/-- An entry joins a list. -/
theorem Represents.insert {qs : List α} (represents : Represents m lists) (holds : lists head = some entries)
    (free : Unlisted lists entry) (ring : Ring m' head qs) (members : ∀ x ∈ qs, x = entry ∨ x ∈ entries)
    (frame : ∀ x, x ∉ head :: entries → x ≠ entry → m' x = m x) :
    Represents m' (Function.update lists head (some qs)) := by
  have off : ¬ Elsewhere lists head entry := free.not_elsewhere
  refine represents.edit ring (fun x mem => ?_) fun x there => frame x ?_ ?_
  · rcases List.mem_cons.1 mem with rfl | mem
    · exact represents.apart holds _ (List.mem_cons_self ..)
    · rcases members x mem with rfl | mem
      · exact off
      · exact represents.apart holds x (List.mem_cons_of_mem _ mem)
  · exact fun mem => represents.apart holds x mem there
  · rintro rfl
    exact off there

/-- The list of an entry is the only one that a deletion changes. -/
theorem Represents.spec_del (represents : Represents m lists) (holds : lists head = some entries)
    (mem : entry ∈ entries) :
    (ListOp.del entry).spec lists = Function.update lists head (some (entries.erase entry)) := by
  funext h
  by_cases here : h = head
  · subst here
    rw [Function.update_self]
    dsimp only [ListOp.spec]
    rw [holds, Option.map_some]
  · rw [Function.update_of_ne here]
    dsimp only [ListOp.spec]
    cases there : lists h with
    | none => rfl
    | some qs =>
      have out : entry ∉ qs := fun mem' => represents.apart holds entry (List.mem_cons_of_mem _ mem)
        ⟨h, qs, here, there, List.mem_cons_of_mem _ mem'⟩
      rw [Option.map_some, List.erase_of_not_mem out]

/-- One call keeps the lists. -/
theorem Represents.step (represents : Represents m lists) (allowed : op.Allowed lists) :
    Represents (op.exec m) (op.spec lists) := by
  cases op with
  | init list =>
    refine represents.edit (initListHead_ring m list) (fun x mem => ?_) fun x there => initListHead_frame ?_
    · rw [List.mem_singleton.1 mem]
      exact allowed
    · rintro rfl
      exact allowed there
  | add entry head =>
    obtain ⟨entries, holds⟩ := Option.isSome_iff_exists.1 allowed.1
    have ring := represents.ring holds
    rw [ListOp.spec, holds, Option.map_some]
    exact represents.insert holds allowed.2 (listAdd_ring ring (allowed.2 head entries holds))
      (fun x mem => List.mem_cons.1 mem) fun x out ne => listAdd_frame ring out ne
  | addTail entry head =>
    obtain ⟨entries, holds⟩ := Option.isSome_iff_exists.1 allowed.1
    have ring := represents.ring holds
    rw [ListOp.spec, holds, Option.map_some]
    refine represents.insert holds allowed.2 (listAddTail_ring ring (allowed.2 head entries holds)) (fun x mem => ?_)
      fun x out ne => listAddTail_frame ring out ne
    rcases List.mem_append.1 mem with mem | mem
    · exact .inr mem
    · exact .inl (List.mem_singleton.1 mem)
  | del entry =>
    obtain ⟨head, entries, holds, mem⟩ := allowed
    have ring := represents.ring holds
    rw [represents.spec_del holds mem]
    refine represents.edit (listDel_ring ring mem) (fun x mem' => represents.apart holds x ?_) fun x there =>
      listDel_frame ring mem fun mem' => represents.apart holds x mem' there
    rcases List.mem_cons.1 mem' with rfl | mem'
    · exact List.mem_cons_self ..
    · exact List.mem_cons_of_mem _ (List.mem_of_mem_erase mem')

/-- So does a run. -/
theorem ListRuns.represents (run : ListRuns m₀ ops m lists) : Represents m lists := by
  induction run with
  | refl =>
    constructor
    · intro head entries holds
      cases holds
    · intro head entries holds
      cases holds
  | step run allowed ih => exact ih.step allowed

/-- A call leaves the nodes alone that are on no list and that it does not name. -/
theorem Represents.untouched (represents : Represents m lists) (allowed : op.Allowed lists) (off : Unlisted lists x)
    (unnamed : x ∉ op.nodes) : op.exec m x = m x := by
  cases op with
  | init list => exact initListHead_frame fun eq => unnamed (List.mem_singleton.2 eq)
  | add entry head =>
    obtain ⟨entries, holds⟩ := Option.isSome_iff_exists.1 allowed.1
    exact listAdd_frame (represents.ring holds) (off head entries holds) fun eq => unnamed (by simp [ListOp.nodes, eq])
  | addTail entry head =>
    obtain ⟨entries, holds⟩ := Option.isSome_iff_exists.1 allowed.1
    exact listAddTail_frame (represents.ring holds) (off head entries holds) fun eq =>
      unnamed (by simp [ListOp.nodes, eq])
  | del entry =>
    obtain ⟨head, entries, holds, mem⟩ := allowed
    exact listDel_frame (represents.ring holds) mem (off head entries holds)

/-- Only nodes that a call names come on a list. -/
theorem Represents.listed (represents : Represents m lists) (allowed : op.Allowed lists) (off : Unlisted lists x)
    (unnamed : x ∉ op.nodes) : Unlisted (op.spec lists) x := by
  have edit : ∀ {h : α} {qs : List α}, x ∉ h :: qs → Unlisted (Function.update lists h (some qs)) x := by
    intro h qs out h' ps holds
    by_cases here : h' = h
    · subst here
      rw [Function.update_self] at holds
      obtain rfl := Option.some_inj.1 holds
      exact out
    · rw [Function.update_of_ne here] at holds
      exact off h' ps holds
  cases op with
  | init list => exact edit (by simpa [ListOp.nodes] using unnamed)
  | add entry head =>
    obtain ⟨entries, holds⟩ := Option.isSome_iff_exists.1 allowed.1
    have out := off head entries holds
    rw [ListOp.spec, holds, Option.map_some]
    refine edit ?_
    simp only [ListOp.nodes, List.mem_cons, List.not_mem_nil, or_false, not_or] at unnamed out ⊢
    exact ⟨unnamed.2, unnamed.1, out.2⟩
  | addTail entry head =>
    obtain ⟨entries, holds⟩ := Option.isSome_iff_exists.1 allowed.1
    have out := off head entries holds
    rw [ListOp.spec, holds, Option.map_some]
    refine edit ?_
    simp only [ListOp.nodes, List.mem_cons, List.mem_append, List.not_mem_nil, or_false, not_or] at unnamed out ⊢
    exact ⟨unnamed.2, out.2, unnamed.1⟩
  | del entry =>
    obtain ⟨head, entries, holds, mem⟩ := allowed
    rw [represents.spec_del holds mem]
    refine edit fun here => off head entries holds ?_
    rcases List.mem_cons.1 here with rfl | here
    · exact List.mem_cons_self ..
    · exact List.mem_cons_of_mem _ (List.mem_of_mem_erase here)

/-- A node that no call has named is as it was. -/
theorem ListRuns.unnamed (run : ListRuns m₀ ops m lists) (unnamed : ∀ op ∈ ops, x ∉ op.nodes) :
    Unlisted lists x ∧ m x = m₀ x := by
  induction run with
  | refl =>
    refine ⟨fun h qs holds => ?_, rfl⟩
    cases holds
  | @step ops m lists op run allowed ih =>
    obtain ⟨off, same⟩ := ih fun op' mem => unnamed op' (List.mem_append_left _ mem)
    have here := unnamed op (List.mem_append_right _ (List.mem_singleton_self op))
    exact ⟨run.represents.listed allowed off here, (run.represents.untouched allowed off here).trans same⟩

/-- **`list.h` implements lists.** After any calls, on any number of lists and from any
links: `list_empty` and `list_first_entry` read the abstract list of a header, and
`list_for_each_entry` visits it in order and ends; the next call follows no null link;
a deleted entry has null links; and no node is changed that no call has named. -/
theorem lists_exact (run : ListRuns m₀ ops m lists) :
    (∀ head entries, lists head = some entries → (listEmpty m head = true ↔ entries = []) ∧
      (m head).next = some (entries.headD head) ∧ ∀ fuel, entries.length < fuel →
        listForEach m head fuel = some entries) ∧
    (∀ op : ListOp α, op.Allowed lists → none ∉ op.follows m) ∧
    (∀ entry : α, (ListOp.del entry).Allowed lists → (ListOp.del entry).exec m entry = ⟨none, none⟩) ∧
    ∀ x, (∀ op ∈ ops, x ∉ op.nodes) → m x = m₀ x := by
  have represents := run.represents
  refine ⟨fun head entries holds => ?_, fun op allowed => represents.follows allowed, fun entry allowed => ?_,
    fun x unnamed => (run.unnamed unnamed).2⟩
  · have ring := represents.ring holds
    exact ⟨listEmpty_iff ring, ring.next_head, fun fuel enough => listForEach_eq ring enough⟩
  · obtain ⟨head, entries, holds, mem⟩ := allowed
    exact listDel_entry (represents.ring holds) mem

/-- Two lists, one of which has lost an entry. -/
theorem lists_exact_two : ∃ m : Heap Nat, listForEach m 0 3 = some [2] ∧ listForEach m 10 3 = some [4, 3] := by
  have start : ListRuns (fun _ => ⟨none, none⟩ : Heap Nat) [] _ _ := .refl
  have first := start.step (show (ListOp.init 0).Allowed _ from
    (start.unnamed (by simp)).1.not_elsewhere)
  have second := first.step (show (ListOp.init 10).Allowed _ from
    (first.unnamed (by simp [ListOp.nodes])).1.not_elsewhere)
  have add := second.step (show (ListOp.add 1 0).Allowed _ from ⟨rfl, (second.unnamed (by simp [ListOp.nodes])).1⟩)
  have tail := add.step (show (ListOp.addTail 2 0).Allowed _ from ⟨rfl, (add.unnamed (by simp [ListOp.nodes])).1⟩)
  have other := tail.step (show (ListOp.add 3 10).Allowed _ from ⟨rfl, (tail.unnamed (by simp [ListOp.nodes])).1⟩)
  have front := other.step (show (ListOp.add 4 10).Allowed _ from ⟨rfl, (other.unnamed (by simp [ListOp.nodes])).1⟩)
  have del := front.step (show (ListOp.del 1).Allowed _ from ⟨0, [1, 2], rfl, by decide⟩)
  have lists := (lists_exact del).1
  exact ⟨_, (lists 0 [2] rfl).2.2 3 (by decide), (lists 10 [4, 3] rfl).2.2 3 (by decide)⟩

end

end MiaowOs
