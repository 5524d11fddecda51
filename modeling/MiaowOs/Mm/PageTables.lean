import MiaowOs.Mm.Mmu
import Mathlib

/-!
# What the page tables represent

A set of roots `ι` and the tables of the pool form one tree of tables per root.
`tables` lists what the tables of the pool are for, in the order in which they
were taken; `leaf r p` is the descriptor of page `p` of root `r`. `Rep` says
that memory holds exactly this; the walk reads `leaf`, and
`create_pgd_mapping` overwrites it page by page.
-/

namespace MiaowOs

/-- What a table of the pool is for: the table of a 1 GiB region of a root, or
that of one of its 2 MiB regions. -/
inductive Table (ι : Type)
  | mid (r : ι) (i : Nat)
  | low (r : ι) (i j : Nat)
deriving DecidableEq

/-- A page of descriptors: a root, or a table of the pool by its number. -/
inductive Frame (ι : Type)
  | root (r : ι)
  | table (k : Nat)
deriving DecidableEq

/-- The number of a virtual page in its half of the address space. -/
def vpn (addr : Nat) : Nat := addr / pageSize % 2 ^ 27

section
variable {ι : Type} [DecidableEq ι] (root : ι → Nat) (pool : Pool)

/-- Roots and pool lie on distinct pages below `2 ^ 48`, and `early_pgtables_used`,
an `unsigned`, can count the tables of the pool. -/
structure Placed : Prop where
  rootAligned : ∀ r, pageSize ∣ root r
  rootBelow : ∀ r, root r < 2 ^ 48
  rootDistinct : ∀ r r', root r = root r' → r = r'
  poolAligned : pageSize ∣ pool.base
  poolBelow : pool.base + pageSize * pool.count ≤ 2 ^ 48
  apart : ∀ r, root r < pool.base ∨ pool.base + pageSize * pool.count ≤ root r
  countWord : pool.count < 2 ^ 32

def Frame.base : Frame ι → Nat
  | .root r => root r
  | .table k => pool.base + pageSize * k

def Frame.Valid : Frame ι → Prop
  | .root _ => True
  | .table k => k < pool.count

/-- The address of entry `i` of a page of descriptors. -/
def Frame.cell (f : Frame ι) (i : Nat) : Nat := f.base root pool + 8 * i

/-- The address of a table that has been taken. -/
def tableAt (tables : List (Table ι)) (t : Table ι) : Nat := pool.base + pageSize * tables.idxOf t

/-- The entry that refers to a table, 0 if there is none. -/
def tableEntry (tables : List (Table ι)) (t : Table ι) : Nat :=
  if t ∈ tables then tableAt pool tables t ||| pmdTypeTable else 0

/-- The entries of a page of descriptors. -/
def content (tables : List (Table ι)) (leaf : ι → Nat → Nat) : Frame ι → Nat → Nat
  | .root r, i => tableEntry pool tables (.mid r i)
  | .table k, i =>
    match tables[k]? with
    | some (.mid r a) => tableEntry pool tables (.low r a i)
    | some (.low r a b) => leaf r ((a * 512 + b) * 512 + i)
    | none => 0

/-- Where the entry of a table stands. -/
def Table.parent (tables : List (Table ι)) : Table ι → Frame ι × Nat
  | .mid r i => (.root r, i)
  | .low r i j => (.table (tables.idxOf (.mid r i)), j)

/-- A table of a root can be taken: the table above it is there. -/
def Table.Rooted (tables : List (Table ι)) : Table ι → Prop
  | .mid _ _ => True
  | .low r i _ => .mid r i ∈ tables

def Table.slot : Table ι → Nat
  | .mid _ i => i
  | .low _ _ j => j

/-- Memory holds the tables and their leaves. -/
structure Rep (st : PgState) (tables : List (Table ι)) (leaf : ι → Nat → Nat) : Prop where
  nodup : tables.Nodup
  used : st.used = tables.length
  fits : tables.length ≤ pool.count
  rooted : ∀ r i j, .low r i j ∈ tables → .mid r i ∈ tables
  slots : ∀ t ∈ tables, t.slot < 512
  bare : ∀ r i j, .low r i j ∉ tables → j < 512 → ∀ k < 512, leaf r ((i * 512 + j) * 512 + k) = 0
  cells : ∀ f : Frame ι, f.Valid pool → ∀ i < 512, st.mem (f.cell root pool i) = content pool tables leaf f i

variable {root pool} {st st' : PgState} {tables : List (Table ι)} {leaf : ι → Nat → Nat} {f g : Frame ι} {t : Table ι}
  {r : ι} {i j k v : Nat}

/-! ## Cells -/

omit [DecidableEq ι] in
theorem Placed.base_dvd (h : Placed root pool) : pageSize ∣ f.base root pool := by
  cases f with
  | root r => exact h.rootAligned r
  | table k => exact Nat.dvd_add h.poolAligned (Nat.dvd_mul_right _ _)

theorem Placed.base_inj (h : Placed root pool) (hf : f.Valid pool) (hg : g.Valid pool)
    (eq : f.base root pool = g.base root pool) : f = g := by
  have inside : ∀ k, k < pool.count → pool.base ≤ pool.base + pageSize * k ∧
      pool.base + pageSize * k < pool.base + pageSize * pool.count := fun k lt =>
    ⟨Nat.le_add_right _ _, Nat.add_lt_add_left (Nat.mul_lt_mul_of_pos_left lt (by decide)) _⟩
  cases f with
  | root r =>
    cases g with
    | root r' => rw [h.rootDistinct r r' eq]
    | table k =>
      have := inside k hg
      have := h.apart r
      simp only [Frame.base] at eq
      omega
  | table k =>
    cases g with
    | root r =>
      have := inside k hf
      have := h.apart r
      simp only [Frame.base] at eq
      omega
    | table k' =>
      simp only [Frame.base] at eq
      rw [Nat.eq_of_mul_eq_mul_left (by decide : 0 < pageSize) (Nat.add_left_cancel eq)]

/-- Entries at different places do not coincide. -/
theorem Placed.cell_inj (h : Placed root pool) (hf : f.Valid pool) (hg : g.Valid pool) (hi : i < 512) (hj : j < 512)
    (eq : f.cell root pool i = g.cell root pool j) : f = g ∧ i = j := by
  obtain ⟨a, ha⟩ : pageSize ∣ f.base root pool := h.base_dvd
  obtain ⟨b, hb⟩ : pageSize ∣ g.base root pool := h.base_dvd
  simp only [Frame.cell, pageSize] at *
  have same : a = b := by omega
  exact ⟨h.base_inj hf hg (by rw [ha, hb, same]), by omega⟩

/-- Writing one entry changes that entry alone. -/
theorem Placed.store_cell (h : Placed root pool) (hf : f.Valid pool) (hg : g.Valid pool) (hi : i < 512) (hj : j < 512) :
    (st.store (g.cell root pool j) v).mem (f.cell root pool i) =
      if f = g ∧ i = j then v else st.mem (f.cell root pool i) := by
  by_cases same : f = g ∧ i = j
  · obtain ⟨rfl, rfl⟩ := same
    simp [PgState.store]
  · rw [if_neg same]
    exact if_neg fun eq => same (h.cell_inj hf hg hi hj eq)

/-! ## Taking a table -/

theorem tableEntry_append_of_ne {t' : Table ι} (ne : t' ≠ t) :
    tableEntry pool (tables ++ [t]) t' = tableEntry pool tables t' := by
  unfold tableEntry tableAt
  by_cases mem : t' ∈ tables
  · rw [if_pos mem, if_pos (List.mem_append_left _ mem), List.idxOf_append_of_mem mem]
  · rw [if_neg mem, if_neg (by simp [mem, ne])]

theorem tableEntry_append_self (fresh : t ∉ tables) :
    tableEntry pool (tables ++ [t]) t = pool.base + pageSize * tables.length ||| pmdTypeTable := by
  unfold tableEntry tableAt
  rw [if_pos (by simp), List.idxOf_append_of_notMem fresh]
  simp

/-- The entry of a table that lies in another table. -/
theorem Table.parent_table {k : Nat} (rooted : t.Rooted tables) (eq : ((.table k, i) : Frame ι × Nat) = t.parent tables) :
    ∃ r a, t = .low r a i ∧ tables[k]? = some (.mid r a) := by
  cases t with
  | mid r a => simp [Table.parent] at eq
  | low r a b =>
    simp only [Table.parent, Prod.mk.injEq, Frame.table.injEq] at eq
    obtain ⟨rfl, rfl⟩ := eq
    refine ⟨r, a, rfl, ?_⟩
    rw [List.getElem?_eq_getElem (List.idxOf_lt_length_iff.2 rooted), List.getElem_idxOf]

/-- The entries after a table has been taken: only its own entry is new. -/
theorem Rep.content_append (rep : Rep root pool st tables leaf) (fresh : t ∉ tables) (rooted : t.Rooted tables)
    (slot : t.slot < 512) (lt : i < 512) :
    content pool (tables ++ [t]) leaf f i =
      if (f, i) = t.parent tables then tableEntry pool (tables ++ [t]) t else content pool tables leaf f i := by
  cases f with
  | root r =>
    by_cases same : t = .mid r i
    · subst same
      simp [content, Table.parent]
    · have other : ((.root r, i) : Frame ι × Nat) ≠ t.parent tables := by
        cases t with
        | mid r' i' => simp only [Table.parent, Table.mid.injEq] at same ⊢; grind
        | low r' i' j' => simp [Table.parent]
      rw [if_neg other, content, content, tableEntry_append_of_ne (Ne.symm same)]
  | table k =>
    rcases Nat.lt_trichotomy k tables.length with old | rfl | beyond
    · have here : (tables ++ [t])[k]? = tables[k]? := List.getElem?_append_left old
      cases found : tables[k]? with
      | none => exact absurd found (by simp [old])
      | some t' =>
        cases t' with
        | mid r a =>
          by_cases same : t = .low r a i
          · have there : k = tables.idxOf (.mid r a) := by
              obtain ⟨lt, at_⟩ := List.getElem?_eq_some_iff.1 found
              rw [← at_]
              exact (rep.nodup.idxOf_getElem k lt).symm
            subst same
            rw [if_pos (by rw [Table.parent, ← there]), content, here, found]
          · have other : ((.table k, i) : Frame ι × Nat) ≠ t.parent tables := by
              intro eq
              obtain ⟨r', a', low, at_⟩ := Table.parent_table rooted eq
              rw [found] at at_
              cases at_
              exact same low
            rw [if_neg other, content, content, here, found]
            exact tableEntry_append_of_ne (Ne.symm same)
        | low r a b =>
          have other : ((.table k, i) : Frame ι × Nat) ≠ t.parent tables := by
            intro eq
            obtain ⟨r', a', -, at_⟩ := Table.parent_table rooted eq
            rw [found] at at_
            cases at_
          rw [if_neg other, content, content, here, found]
    · -- the new table is empty
      have none : tables[tables.length]? = none := List.getElem?_eq_none le_rfl
      have other : ((.table tables.length, i) : Frame ι × Nat) ≠ t.parent tables := by
        intro eq
        obtain ⟨r, a, -, at_⟩ := Table.parent_table rooted eq
        rw [none] at at_
        cases at_
      rw [if_neg other, content, content, List.getElem?_concat_length, none]
      cases t with
      | mid r a =>
        have absent : Table.low r a i ∉ tables ++ [.mid r a] := by
          intro mem
          rcases List.mem_append.1 mem with mem | mem
          · exact fresh (rep.rooted r a i mem)
          · simp at mem
        exact if_neg absent
      | low r a b => exact rep.bare r a b fresh slot i lt
    · have none : tables[k]? = none := List.getElem?_eq_none beyond.le
      have other : ((.table k, i) : Frame ι × Nat) ≠ t.parent tables := by
        intro eq
        obtain ⟨r, a, -, at_⟩ := Table.parent_table rooted eq
        rw [none] at at_
        cases at_
      rw [if_neg other, content, content, List.getElem?_eq_none (by simpa using beyond), none]

/-- The tables after `t` has been asked for. -/
def Table.take (tables : List (Table ι)) (t : Table ι) : List (Table ι) :=
  if t ∈ tables then tables else tables ++ [t]

/-- The address of the entry of a table. -/
def Table.entryAt (root : ι → Nat) (pool : Pool) (tables : List (Table ι)) (t : Table ι) : Nat :=
  (t.parent tables).1.cell root pool (t.parent tables).2

theorem mem_take_iff {t' : Table ι} : t' ∈ t.take tables ↔ t' ∈ tables ∨ t' = t := by
  unfold Table.take
  split
  · next here =>
    constructor
    · exact Or.inl
    · rintro (mem | rfl)
      · exact mem
      · exact here
  · simp

theorem mem_take : t ∈ t.take tables := mem_take_iff.2 (.inr rfl)

theorem subset_take : tables ⊆ t.take tables := fun _ mem => mem_take_iff.2 (.inl mem)

theorem Rep.parent_valid (rep : Rep root pool st tables leaf) (rooted : t.Rooted tables) :
    (t.parent tables).1.Valid pool := by
  cases t with
  | mid r i => trivial
  | low r i j => exact (List.idxOf_lt_length_iff.2 rooted).trans_le rep.fits

theorem content_parent (rooted : t.Rooted tables) :
    content pool tables leaf (t.parent tables).1 (t.parent tables).2 = tableEntry pool tables t := by
  cases t with
  | mid r i => rfl
  | low r i j =>
    have here : tables[tables.idxOf (.mid r i)]? = some (.mid r i) := by
      rw [List.getElem?_eq_getElem (List.idxOf_lt_length_iff.2 rooted), List.getElem_idxOf]
    simp only [Table.parent, content, here]

theorem parent_slot : (t.parent tables).2 = t.slot := by cases t <;> rfl

theorem Rep.entry (rep : Rep root pool st tables leaf) (rooted : t.Rooted tables) (slot : t.slot < 512) :
    st.mem (t.entryAt root pool tables) = tableEntry pool tables t := by
  rw [Table.entryAt, rep.cells _ (rep.parent_valid rooted) _ (by rw [parent_slot]; exact slot), content_parent rooted]

/-- Taking a new table. -/
theorem Rep.append (h : Placed root pool) (rep : Rep root pool st tables leaf) (fresh : t ∉ tables)
    (rooted : t.Rooted tables) (slot : t.slot < 512) (room : tables.length < pool.count) :
    Rep root pool ({ st with used := add32 st.used 1 }.store (t.entryAt root pool tables)
      (pool.base + pageSize * st.used ||| pmdTypeTable)) (tables ++ [t]) leaf where
  nodup := by
    rw [List.nodup_append]
    exact ⟨rep.nodup, List.nodup_singleton t, fun a ha b hb eq => fresh (List.mem_singleton.1 hb ▸ eq ▸ ha)⟩
  used := by
    have word := h.countWord
    have used := rep.used
    simp only [PgState.store, List.length_append, List.length_singleton]
    rw [add32_of_lt (by omega), used]
  fits := by simpa using room
  rooted := by
    intro r i j mem
    rcases List.mem_append.1 mem with mem | mem
    · exact List.mem_append_left _ (rep.rooted r i j mem)
    · rw [← List.mem_singleton.1 mem] at rooted
      exact List.mem_append_left _ rooted
  slots := by
    intro t' mem
    rcases List.mem_append.1 mem with mem | mem
    · exact rep.slots t' mem
    · rw [List.mem_singleton.1 mem]
      exact slot
  bare := fun r i j out => rep.bare r i j fun mem => out (List.mem_append_left _ mem)
  cells := by
    intro f valid i lt
    rw [rep.content_append fresh rooted slot lt, tableEntry_append_self fresh, ← rep.used,
      Table.entryAt, h.store_cell valid (rep.parent_valid rooted) lt (by rw [parent_slot]; exact slot),
      ← rep.cells f valid i lt]
    simp only [Prod.ext_iff]

/-- **One level of the walk**: the table is there afterwards. -/
theorem ensureTable_spec (h : Placed root pool) (rep : Rep root pool st tables leaf) (rooted : t.Rooted tables)
    (slot : t.slot < 512) (room : t ∈ tables ∨ tables.length < pool.count) : ∃ st',
      ensureTable pool st (t.entryAt root pool tables) = some st' ∧ Rep root pool st' (t.take tables) leaf := by
  have entry := rep.entry rooted slot
  unfold tableEntry at entry
  by_cases mem : t ∈ tables
  · have nonzero : tableAt pool tables t ||| pmdTypeTable ≠ 0 := fun zero => by
      have := (Nat.or_eq_zero_iff.1 zero).2
      simp at this
    rw [if_pos mem] at entry
    rw [ensureTable, entry, if_neg nonzero, Table.take, if_pos mem]
    exact ⟨st, rfl, rep⟩
  · have space : tables.length < pool.count := room.resolve_left mem
    rw [if_neg mem] at entry
    rw [ensureTable, entry, if_pos rfl, earlyPgtableAlloc, if_pos (rep.used ▸ space), Table.take, if_neg mem]
    exact ⟨_, rfl, rep.append h mem rooted slot space⟩

/-! ## The walk -/

/-- Masking keeps the address of a page. -/
theorem and_mask {x : Nat} (aligned : pageSize ∣ x) (below : x < 2 ^ 48) : x &&& pteAddrMask = x := by
  obtain ⟨q, rfl⟩ := aligned
  apply Nat.eq_of_testBit_eq
  intro b
  have mask : pteAddrMask = 2 ^ 12 * (2 ^ 36 - 1) := by decide
  rw [Nat.testBit_and, mask, show pageSize * q = 2 ^ 12 * q from rfl, Nat.testBit_two_pow_mul, Nat.testBit_two_pow_mul,
    Nat.testBit_two_pow_sub_one]
  have small : q < 2 ^ 36 := by
    simp only [pageSize] at below
    omega
  by_cases low : 12 ≤ b
  · by_cases high : b - 12 < 36
    · simp [low, high]
    · have zero : q.testBit (b - 12) = false :=
        Nat.testBit_lt_two_pow (small.trans_le (Nat.pow_le_pow_right (by decide) (by omega)))
      simp [zero]
  · simp [low]

/-- The address and the attributes of a descriptor do not mix. -/
theorem or_and_mask {x p : Nat} (aligned : pageSize ∣ x) (below : x < 2 ^ 48) (apart : p &&& pteAddrMask = 0) :
    (x ||| p) &&& pteAddrMask = x := by
  rw [Nat.and_or_distrib_right, and_mask aligned below, apart, Nat.or_zero]

theorem Placed.tableAt_spec (h : Placed root pool) (rep : Rep root pool st tables leaf) (mem : t ∈ tables) :
    pageSize ∣ tableAt pool tables t ∧ tableAt pool tables t < 2 ^ 48 := by
  have lt := (List.idxOf_lt_length_iff.2 mem).trans_le rep.fits
  have below := h.poolBelow
  refine ⟨Nat.dvd_add h.poolAligned (Nat.dvd_mul_right _ _), lt_of_lt_of_le ?_ below⟩
  exact Nat.add_lt_add_left (Nat.mul_lt_mul_of_pos_left lt (by decide)) _

/-- The entry of a table leads to it. -/
theorem Rep.follow (h : Placed root pool) (rep : Rep root pool st tables leaf) (mem : t ∈ tables)
    (rooted : t.Rooted tables) (slot : t.slot < 512) :
    st.mem (t.entryAt root pool tables) &&& pteAddrMask = tableAt pool tables t := by
  obtain ⟨aligned, below⟩ := h.tableAt_spec rep mem
  rw [rep.entry rooted slot, tableEntry, if_pos mem]
  exact or_and_mask aligned below (by decide)

theorem pgdIndex_eq (addr : Nat) : pgdIndex addr = vpn addr / 2 ^ 18 := by
  rw [pgdIndex, vpn, Nat.shiftRight_eq_div_pow]
  have mask : addr / 2 ^ 30 &&& (ptrsPerTable - 1) = addr / 2 ^ 30 % 2 ^ 9 := Nat.and_two_pow_sub_one_eq_mod _ 9
  rw [mask]
  simp only [pageSize]
  omega

theorem pmdIndex_eq (addr : Nat) : pmdIndex addr = vpn addr / 512 % 512 := by
  rw [pmdIndex, vpn, Nat.shiftRight_eq_div_pow]
  have mask : addr / 2 ^ 21 &&& (ptrsPerTable - 1) = addr / 2 ^ 21 % 2 ^ 9 := Nat.and_two_pow_sub_one_eq_mod _ 9
  rw [mask]
  simp only [pageSize]
  omega

theorem pteIndex_eq (addr : Nat) : pteIndex addr = vpn addr % 512 := by
  rw [pteIndex, vpn, Nat.shiftRight_eq_div_pow]
  have mask : addr / 2 ^ 12 &&& (ptrsPerTable - 1) = addr / 2 ^ 12 % 2 ^ 9 := Nat.and_two_pow_sub_one_eq_mod _ 9
  rw [mask]
  simp only [pageSize]
  omega

/-- The tables on the way to a page. -/
def midOf (r : ι) (p : Nat) : Table ι := .mid r (p / 2 ^ 18)
def lowOf (r : ι) (p : Nat) : Table ι := .low r (p / 2 ^ 18) (p / 512 % 512)

/-- The tables after the walk to a page. -/
def walked (tables : List (Table ι)) (r : ι) (p : Nat) : List (Table ι) :=
  (lowOf r p).take ((midOf r p).take tables)

theorem mem_walked_iff {p : Nat} : t ∈ walked tables r p ↔ t ∈ tables ∨ t = midOf r p ∨ t = lowOf r p := by
  unfold walked
  rw [mem_take_iff, mem_take_iff, or_assoc]

/-- A walk takes no table outside `allowed`. -/
theorem take_subset {allowed : List (Table ι)} (sub : tables ⊆ allowed) (mem : t ∈ allowed) :
    t.take tables ⊆ allowed := by
  intro t' taken
  rcases mem_take_iff.1 taken with old | rfl
  · exact sub old
  · exact mem

/-- Tables that are taken once each from a list that fits find room. -/
theorem room_of_subset {allowed : List (Table ι)} (nodup : tables.Nodup) (sub : tables ⊆ allowed) (mem : t ∈ allowed)
    (enough : allowed.length ≤ pool.count) : t ∈ tables ∨ tables.length < pool.count := by
  by_cases here : t ∈ tables
  · exact .inl here
  · have longer : (t :: tables).length ≤ allowed.length :=
      ((List.nodup_cons.2 ⟨here, nodup⟩).subperm (List.cons_subset.2 ⟨mem, sub⟩)).length_le
    exact .inr (lt_of_lt_of_le (Nat.lt_of_lt_of_le (Nat.lt_succ_self _) longer) enough)

/-- Taking tables does not move the entries of the others. -/
theorem entryAt_take (t' : Table ι) (rooted : t.Rooted tables) :
    t.entryAt root pool (t'.take tables) = t.entryAt root pool tables := by
  unfold Table.take
  split
  · rfl
  · cases t with
    | mid r i => rfl
    | low r i j =>
      have same : (tables ++ [t']).idxOf (.mid r i) = tables.idxOf (.mid r i) := List.idxOf_append_of_mem rooted
      simp only [Table.entryAt, Table.parent, same]

/-- **`walk_to_pte`** leads to the entry of the page in its last table. -/
theorem walkToPte_spec {allowed : List (Table ι)} {addr : Nat} (h : Placed root pool)
    (rep : Rep root pool st tables leaf) (sub : tables ⊆ allowed) (mid : midOf r (vpn addr) ∈ allowed)
    (low : lowOf r (vpn addr) ∈ allowed) (enough : allowed.length ≤ pool.count) : ∃ st',
      walkToPte pool st (root r) addr =
        some (st', tableAt pool (walked tables r (vpn addr)) (lowOf r (vpn addr)) + 8 * (vpn addr % 512)) ∧
      Rep root pool st' (walked tables r (vpn addr)) leaf := by
  have small : vpn addr < 2 ^ 27 := Nat.mod_lt _ (by decide)
  have slot : (midOf r (vpn addr)).slot < 512 := by simp only [midOf, Table.slot]; omega
  have slot' : (lowOf r (vpn addr)).slot < 512 := by simp only [lowOf, Table.slot]; omega
  have free : (midOf r (vpn addr)).Rooted tables := trivial
  have free' : (midOf r (vpn addr)).Rooted ((midOf r (vpn addr)).take tables) := trivial
  have pgdp : root r + 8 * pgdIndex addr = (midOf r (vpn addr)).entryAt root pool tables := by
    rw [pgdIndex_eq]
    rfl
  obtain ⟨st₁, run, rep₁⟩ := ensureTable_spec h rep free slot (room_of_subset rep.nodup sub mid enough)
  have there : (lowOf r (vpn addr)).Rooted ((midOf r (vpn addr)).take tables) :=
    (mem_take : midOf r (vpn addr) ∈ _)
  have pmdp : (st₁.mem (root r + 8 * pgdIndex addr) &&& pteAddrMask) + 8 * pmdIndex addr =
      (lowOf r (vpn addr)).entryAt root pool ((midOf r (vpn addr)).take tables) := by
    rw [pgdp, ← entryAt_take (midOf r (vpn addr)) free, rep₁.follow h mem_take free' slot, pmdIndex_eq]
    rfl
  obtain ⟨st₂, run', rep₂⟩ := ensureTable_spec h rep₁ there slot'
    (room_of_subset rep₁.nodup (take_subset sub mid) low enough)
  have there' : (lowOf r (vpn addr)).Rooted (walked tables r (vpn addr)) := subset_take there
  have last : (st₂.mem ((lowOf r (vpn addr)).entryAt root pool ((midOf r (vpn addr)).take tables)) &&& pteAddrMask) +
      8 * pteIndex addr = tableAt pool (walked tables r (vpn addr)) (lowOf r (vpn addr)) + 8 * (vpn addr % 512) := by
    rw [← entryAt_take (lowOf r (vpn addr)) there, pteIndex_eq]
    congr 1
    exact rep₂.follow h mem_take there' slot'
  refine ⟨st₂, ?_, rep₂⟩
  unfold walkToPte
  rw [← pgdp] at run
  rw [← pmdp] at run' last
  simp only [run, Option.bind_eq_bind, Option.bind_some, run', last]
  rfl

/-! ## Mapping pages -/

/-- The leaves after the pages from `V` on have been mapped, `N` of them. -/
def mapped (leaf : ι → Nat → Nat) (r : ι) (V N phys prot : Nat) : ι → Nat → Nat := fun r' p =>
  if r' = r ∧ V ≤ p ∧ p < V + N then phys + pageSize * (p - V) ||| prot else leaf r' p

/-- Writing the entry of a page whose tables are there. -/
theorem Rep.store_leaf {p : Nat} (h : Placed root pool) (rep : Rep root pool st tables leaf)
    (mem : lowOf r p ∈ tables) :
    Rep root pool (st.store (tableAt pool tables (lowOf r p) + 8 * (p % 512)) v) tables
      (fun r' q => if r' = r ∧ q = p then v else leaf r' q) where
  nodup := rep.nodup
  used := rep.used
  fits := rep.fits
  rooted := rep.rooted
  slots := rep.slots
  bare := by
    intro r' i j out hj k hk
    rw [if_neg, rep.bare r' i j out hj k hk]
    rintro ⟨rfl, eq⟩
    apply out
    have hi : p / 2 ^ 18 = i := by omega
    have hj' : p / 512 % 512 = j := by omega
    rwa [lowOf, hi, hj'] at mem
  cells := by
    intro f valid i lt
    have index := List.idxOf_lt_length_iff.2 mem
    have target : (Frame.table (tables.idxOf (lowOf r p)) : Frame ι).Valid pool := index.trans_le rep.fits
    refine Eq.trans (h.store_cell valid target lt (Nat.mod_lt p (by decide : 0 < 512))) ?_
    rw [rep.cells f valid i lt]
    cases f with
    | root r' => simp [content]
    | table k =>
      have here : tables[tables.idxOf (lowOf r p)]? = some (.low r (p / 2 ^ 18) (p / 512 % 512)) := by
        rw [List.getElem?_eq_getElem index, List.getElem_idxOf]
        rfl
      by_cases same : k = tables.idxOf (lowOf r p)
      · subst same
        simp only [content, here, true_and]
        by_cases eq : i = p % 512
        · rw [if_pos eq, if_pos (by omega)]
        · rw [if_neg eq, if_neg (by omega)]
      · rw [if_neg (by simp [same])]
        cases found : tables[k]? with
        | none => simp only [content, found]
        | some t' =>
          cases t' with
          | mid r' a => simp only [content, found]
          | low r' a b =>
            obtain ⟨lt', eq⟩ := List.getElem?_eq_some_iff.1 found
            have slot : b < 512 := rep.slots (.low r' a b) (eq ▸ List.getElem_mem lt')
            simp only [content, found]
            rw [if_neg]
            rintro ⟨rfl, page⟩
            apply same
            have there : Table.low r' a b = lowOf r' p := by
              rw [lowOf, ← page]
              congr 1 <;> omega
            rw [← there, ← eq]
            exact (rep.nodup.idxOf_getElem k lt').symm

/-- The leaves after the `N` pages from `V` on have been given the values `v`. -/
def overwritten (leaf : ι → Nat → Nat) (r : ι) (V N : Nat) (v : Nat → Nat) : ι → Nat → Nat := fun r' p =>
  if r' = r ∧ V ≤ p ∧ p < V + N then v (p - V) else leaf r' p

theorem overwritten_succ (leaf : ι → Nat → Nat) (r : ι) (V n : Nat) (v : Nat → Nat) :
    (fun r' q => if r' = r ∧ q = V + n then v n else overwritten leaf r V n v r' q) =
      overwritten leaf r V (n + 1) v := by
  funext r' q
  unfold overwritten
  by_cases here : r' = r
  · simp only [here, true_and]
    by_cases last : q = V + n
    · rw [if_pos last, if_pos (by omega), last, Nat.add_sub_cancel_left]
    · rw [if_neg last]
      by_cases inside : V ≤ q ∧ q < V + n
      · rw [if_pos inside, if_pos (by omega)]
      · rw [if_neg inside, if_neg (by omega)]
  · simp [here]

theorem overwritten_zero (leaf : ι → Nat → Nat) (r : ι) (V : Nat) (v : Nat → Nat) :
    overwritten leaf r V 0 v = leaf := by
  funext r' q
  exact if_neg fun inside => by omega

/-- Where the physical addresses do not wrap, the pages are mapped. -/
theorem overwritten_eq_mapped {V N phys prot : Nat} (fits : phys + pageSize * N ≤ 2 ^ 64) :
    overwritten leaf r V N (fun k => add64 phys (pageSize * k) ||| prot) = mapped leaf r V N phys prot := by
  funext r' q
  unfold overwritten mapped
  by_cases inside : r' = r ∧ V ≤ q ∧ q < V + N
  · have below : pageSize * (q - V) < pageSize * N := Nat.mul_lt_mul_of_pos_left (by omega) (by decide)
    have offset : add64 phys (pageSize * (q - V)) = phys + pageSize * (q - V) := add64_of_lt (by omega)
    rw [if_pos inside, if_pos inside, ← offset]
  · rw [if_neg inside, if_neg inside]

theorem vpn_add {virt n : Nat} (aligned : pageSize ∣ virt) (half : vpn virt + n < 2 ^ 27) :
    vpn (virt + pageSize * n) = vpn virt + n := by
  obtain ⟨q, rfl⟩ := aligned
  simp only [vpn, pageSize] at *
  omega

/-- The loop writes the descriptor of one page after another, and takes the
tables on the way to them. -/
theorem mapLoop_spec {allowed : List (Table ι)} {virt N : Nat} (phys prot : Nat) (h : Placed root pool)
    (aligned : pageSize ∣ virt) (fits : virt + pageSize * N ≤ 2 ^ 64) (half : vpn virt + N ≤ 2 ^ 27)
    (enough : allowed.length ≤ pool.count)
    (tablesFor : ∀ p, vpn virt ≤ p → p < vpn virt + N → midOf r p ∈ allowed ∧ lowOf r p ∈ allowed)
    (fuel n : Nat) (le : n ≤ N) (fuelled : N - n < fuel) (sub : tables ⊆ allowed)
    (rep : Rep root pool st tables (overwritten leaf r (vpn virt) n fun k => add64 phys (pageSize * k) ||| prot)) :
    ∃ st' tables', mapLoop pool (root r) phys virt (pageSize * N) prot fuel (pageSize * n) st = some st' ∧
      (∀ t, t ∈ tables' ↔
        t ∈ tables ∨ ∃ p, vpn virt + n ≤ p ∧ p < vpn virt + N ∧ (t = midOf r p ∨ t = lowOf r p)) ∧
      Rep root pool st' tables' (overwritten leaf r (vpn virt) N fun k => add64 phys (pageSize * k) ||| prot) := by
  induction fuel generalizing n st tables with
  | zero => omega
  | succ fuel ih =>
    unfold mapLoop
    rcases Nat.lt_or_ge n N with more | done
    · have page : vpn (virt + pageSize * n) = vpn virt + n := vpn_add aligned (by omega)
      have last : pageSize * n + pageSize ≤ pageSize * N := Nat.mul_le_mul_left pageSize more
      have small : pageSize * N ≤ 2 ^ 39 := by
        simp only [pageSize]
        omega
      have wide : 0 < pageSize := by decide
      have offset : add64 virt (pageSize * n) = virt + pageSize * n := add64_of_lt (by omega)
      have next : add64 (pageSize * n) pageSize = pageSize * (n + 1) := by
        rw [Nat.mul_succ]
        exact add64_of_lt (by omega)
      obtain ⟨mid, low⟩ := tablesFor (vpn virt + n) (by omega) (by omega)
      rw [← page] at mid low
      obtain ⟨st₁, run, rep₁⟩ := walkToPte_spec h rep sub mid low enough
      have rep₂ := rep₁.store_leaf (v := add64 phys (pageSize * n) ||| prot) h mem_take
      have sub' : walked tables r (vpn virt + n) ⊆ allowed := by
        rw [← page]
        exact take_subset (take_subset sub mid) low
      rw [page, overwritten_succ leaf r _ n fun k => add64 phys (pageSize * k) ||| prot] at rep₂
      obtain ⟨st', tables', run', takes, rep'⟩ := ih (n + 1) more (by omega) sub' rep₂
      refine ⟨st', tables', ?_, ?_, rep'⟩
      · rw [if_pos (Nat.mul_lt_mul_of_pos_left more wide), offset, next, run]
        simp only [Option.bind_eq_bind, Option.bind_some, page]
        exact run'
      · intro t
        rw [takes t, mem_walked_iff, or_assoc]
        apply or_congr_right
        constructor
        · rintro (first | ⟨p, low, high, which⟩)
          · exact ⟨vpn virt + n, le_rfl, by omega, first⟩
          · exact ⟨p, by omega, high, which⟩
        · rintro ⟨p, low, high, which⟩
          rcases Nat.eq_or_lt_of_le low with rfl | later
          · exact .inl which
          · exact .inr ⟨p, later, high, which⟩
    · obtain rfl : n = N := by omega
      rw [if_neg (lt_irrefl _)]
      refine ⟨st, tables, rfl, fun t => ?_, rep⟩
      constructor
      · exact Or.inl
      · rintro (mem | ⟨p, low, high, -⟩)
        · exact mem
        · omega

/-- **`create_pgd_mapping`** overwrites the descriptors of its pages and no
others, and takes the tables that these need. -/
theorem createPgdMapping_takes {allowed : List (Table ι)} {virt N : Nat} (phys prot : Nat) (h : Placed root pool)
    (aligned : pageSize ∣ virt) (fits : virt + pageSize * N ≤ 2 ^ 64) (half : vpn virt + N ≤ 2 ^ 27)
    (enough : allowed.length ≤ pool.count)
    (tablesFor : ∀ p, vpn virt ≤ p → p < vpn virt + N → midOf r p ∈ allowed ∧ lowOf r p ∈ allowed)
    (sub : tables ⊆ allowed) (rep : Rep root pool st tables leaf) :
    ∃ st' tables', createPgdMapping pool st (root r) phys virt (pageSize * N) prot = some st' ∧
      (∀ t, t ∈ tables' ↔ t ∈ tables ∨ ∃ p, vpn virt ≤ p ∧ p < vpn virt + N ∧ (t = midOf r p ∨ t = lowOf r p)) ∧
      Rep root pool st' tables' (overwritten leaf r (vpn virt) N fun k => add64 phys (pageSize * k) ||| prot) := by
  have pages : pageSize * N / pageSize = N := Nat.mul_div_cancel_left N (by decide)
  rw [← overwritten_zero leaf r (vpn virt) fun k => add64 phys (pageSize * k) ||| prot] at rep
  rw [createPgdMapping, pages]
  exact mapLoop_spec phys prot h aligned fits half enough tablesFor (N + 2) 0 (Nat.zero_le N) (by omega) sub rep

/-- The pages of a region: `N` pages from `virt` on, mapped to those from
`phys` on. -/
structure Region (phys virt N : Nat) : Prop where
  virtAligned : pageSize ∣ virt
  virtFits : virt + pageSize * N ≤ 2 ^ 64
  physFits : phys + pageSize * N ≤ 2 ^ 64
  half : vpn virt + N ≤ 2 ^ 27

/-- The same for a region, with the tables that may be taken. -/
theorem createPgdMapping_spec {allowed : List (Table ι)} {phys virt N : Nat} (prot : Nat) (h : Placed root pool)
    (region : Region phys virt N) (enough : allowed.length ≤ pool.count)
    (tablesFor : ∀ p, vpn virt ≤ p → p < vpn virt + N → midOf r p ∈ allowed ∧ lowOf r p ∈ allowed)
    (sub : tables ⊆ allowed) (rep : Rep root pool st tables leaf) : ∃ st' tables',
      createPgdMapping pool st (root r) phys virt (pageSize * N) prot = some st' ∧ tables' ⊆ allowed ∧
      Rep root pool st' tables' (mapped leaf r (vpn virt) N phys prot) := by
  obtain ⟨st', tables', run, takes, rep'⟩ := createPgdMapping_takes phys prot h region.virtAligned region.virtFits
    region.half enough tablesFor sub rep
  rw [overwritten_eq_mapped region.physFits] at rep'
  refine ⟨st', tables', run, ?_, rep'⟩
  intro t mem
  rcases (takes t).1 mem with old | ⟨p, low, high, rfl | rfl⟩
  · exact sub old
  · exact (tablesFor p low high).1
  · exact (tablesFor p low high).2

/-! ## The hardware's walk -/

/-- What the hardware makes of a page descriptor. -/
def decode (descriptor addr : Nat) : Option (Nat × Nat) :=
  if descriptor &&& 3 = pteTypePage then
    some ((descriptor &&& pteAddrMask) + addr % pageSize, descriptor &&& not64 pteAddrMask)
  else none

/-- A protection leaves the address bits alone and makes a page descriptor. -/
def IsProt (prot : Nat) : Prop :=
  prot &&& pteAddrMask = 0 ∧ prot &&& 3 = pteTypePage ∧ prot &&& not64 pteAddrMask = prot

instance (prot : Nat) : Decidable (IsProt prot) := inferInstanceAs (Decidable (_ ∧ _ ∧ _))

theorem decode_zero (addr : Nat) : decode 0 addr = none := by simp [decode]

theorem and_of_aligned {x m : Nat} (aligned : pageSize ∣ x) (below : x < 2 ^ 48) (apart : pteAddrMask &&& m = 0) :
    x &&& m = 0 := by
  rw [← and_mask aligned below, Nat.and_assoc, apart, Nat.and_zero]

/-- The descriptor of a page decodes to its address and its protection. -/
theorem decode_page {x prot addr : Nat} (aligned : pageSize ∣ x) (below : x < 2 ^ 48) (isProt : IsProt prot) :
    decode (x ||| prot) addr = some (x + addr % pageSize, prot) := by
  obtain ⟨clear, type, whole⟩ := isProt
  have kind : (x ||| prot) &&& 3 = pteTypePage := by
    rw [Nat.and_or_distrib_right, type, and_of_aligned aligned below (by decide), Nat.zero_or]
  have attributes : (x ||| prot) &&& not64 pteAddrMask = prot := by
    rw [Nat.and_or_distrib_right, whole, and_of_aligned aligned below (by decide), Nat.zero_or]
  rw [decode, if_pos kind, attributes, or_and_mask aligned below clear]

/-- Memory holds the tables of the pool, whatever the roots hold. -/
def HoldsPool (root : ι → Nat) (pool : Pool) (mem : Nat → Nat) (tables : List (Table ι)) (leaf : ι → Nat → Nat) : Prop :=
  ∀ k < pool.count, ∀ i < 512, mem ((Frame.table k : Frame ι).cell root pool i) = content pool tables leaf (.table k) i

theorem nextTable_of_zero {mem : Nat → Nat} {table index : Nat} (zero : mem (table + 8 * index) = 0) :
    nextTable mem table index = none := by
  simp [nextTable, zero]

theorem nextTable_of_entry {mem : Nat → Nat} {table index x : Nat} (entry : mem (table + 8 * index) = x ||| pmdTypeTable)
    (aligned : pageSize ∣ x) (below : x < 2 ^ 48) : nextTable mem table index = some x := by
  have kind : (x ||| pmdTypeTable) &&& 3 = pmdTypeTable := by
    rw [Nat.and_or_distrib_right, and_of_aligned aligned below (by decide)]
    rfl
  simp only [nextTable, entry, kind, if_true]
  rw [or_and_mask aligned below (by decide)]

theorem HoldsPool.entry {mem : Nat → Nat} {a : Nat} (holds : HoldsPool root pool mem tables leaf)
    (fits : tables.length ≤ pool.count) (there : Table.mid r a ∈ tables) (lt : i < 512) :
    mem (tableAt pool tables (.mid r a) + 8 * i) = tableEntry pool tables (.low r a i) := by
  have index := (List.idxOf_lt_length_iff.2 there).trans_le fits
  exact (holds _ index i lt).trans (content_parent (t := .low r a i) there)

theorem HoldsPool.page {mem : Nat → Nat} {a b : Nat} (holds : HoldsPool root pool mem tables leaf)
    (fits : tables.length ≤ pool.count) (there : Table.low r a b ∈ tables) (lt : i < 512) :
    mem (tableAt pool tables (.low r a b) + 8 * i) = leaf r ((a * 512 + b) * 512 + i) := by
  have index := List.idxOf_lt_length_iff.2 there
  have here : tables[tables.idxOf (.low r a b)]? = some (.low r a b) := by
    rw [List.getElem?_eq_getElem index, List.getElem_idxOf]
  refine (holds _ (index.trans_le fits) i lt).trans ?_
  simp only [content, here]

/-- The last descriptor of a walk. -/
def walkTo (mem : Nat → Nat) (base addr : Nat) : Option Nat := do
  let pmd ← nextTable mem base (pgdIndex addr)
  let pte ← nextTable mem pmd (pmdIndex addr)
  return mem (pte + 8 * pteIndex addr)

theorem translate_eq (mem : Nat → Nat) (base addr : Nat) :
    translate mem base addr = (walkTo mem base addr).bind fun descriptor => decode descriptor addr := by
  unfold translate walkTo
  cases nextTable mem base (pgdIndex addr) with
  | none => rfl
  | some pmd =>
    simp only [Option.bind_eq_bind, Option.bind_some]
    cases nextTable mem pmd (pmdIndex addr) with
    | none => rfl
    | some pte => rfl

/-- **A walk reaches the leaf**: from a root whose entry refers to the table of a
1 GiB region, it ends at the leaf, or early where the leaf is empty. -/
theorem walkTo_spec {mem : Nat → Nat} {base addr a : Nat} (h : Placed root pool) (rep : Rep root pool st tables leaf)
    (holds : HoldsPool root pool mem tables leaf)
    (entry : mem (base + 8 * pgdIndex addr) = tableEntry pool tables (.mid r a)) :
    (walkTo mem base addr).getD 0 = leaf r (a * 2 ^ 18 + vpn addr % 2 ^ 18) := by
  have slot : pmdIndex addr < 512 := by rw [pmdIndex_eq]; omega
  have slot' : pteIndex addr < 512 := by rw [pteIndex_eq]; omega
  have page : a * 2 ^ 18 + vpn addr % 2 ^ 18 = (a * 512 + pmdIndex addr) * 512 + pteIndex addr := by
    rw [pmdIndex_eq, pteIndex_eq]
    omega
  rw [page]
  unfold walkTo
  by_cases low : Table.low r a (pmdIndex addr) ∈ tables
  · have mid : Table.mid r a ∈ tables := rep.rooted r a (pmdIndex addr) low
    obtain ⟨aligned, below⟩ := h.tableAt_spec rep mid
    obtain ⟨aligned', below'⟩ := h.tableAt_spec rep low
    have entry' := holds.entry rep.fits mid slot
    rw [tableEntry, if_pos mid] at entry
    rw [tableEntry, if_pos low] at entry'
    rw [nextTable_of_entry entry aligned below]
    simp only [Option.bind_eq_bind, Option.bind_some]
    rw [nextTable_of_entry entry' aligned' below', Option.bind_some, holds.page rep.fits low slot']
    rfl
  · rw [rep.bare r a (pmdIndex addr) low slot (pteIndex addr) slot']
    by_cases mid : Table.mid r a ∈ tables
    · obtain ⟨aligned, below⟩ := h.tableAt_spec rep mid
      have entry' := holds.entry rep.fits mid slot
      rw [tableEntry, if_pos mid] at entry
      rw [tableEntry, if_neg low] at entry'
      rw [nextTable_of_entry entry aligned below]
      simp only [Option.bind_eq_bind, Option.bind_some]
      rw [nextTable_of_zero entry', Option.bind_none]
      rfl
    · rw [tableEntry, if_neg mid] at entry
      rw [nextTable_of_zero entry]
      rfl

/-- **The walk of the hardware** makes of the leaf what it decodes to. -/
theorem translate_spec {mem : Nat → Nat} {base addr a : Nat} (h : Placed root pool) (rep : Rep root pool st tables leaf)
    (holds : HoldsPool root pool mem tables leaf)
    (entry : mem (base + 8 * pgdIndex addr) = tableEntry pool tables (.mid r a)) :
    translate mem base addr = decode (leaf r (a * 2 ^ 18 + vpn addr % 2 ^ 18)) addr := by
  rw [translate_eq, ← walkTo_spec h rep holds entry]
  cases walkTo mem base addr with
  | none => exact (decode_zero addr).symm
  | some descriptor => rfl

end

end MiaowOs
