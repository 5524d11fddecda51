import MiaowOs.Mm.MemblockRemove
import MiaowOs.Mm.MemblockWalk

/-!
# Histories of the early memory map

A history is a sequence of the public calls of `memblock.c` on the zeroed
`memblock`. Every call keeps both arrays canonical, so a history never leaves
the arrays and never meets a list that is not sorted, separated and summed up.
-/

namespace MiaowOs
open Spans

namespace Memblock

/-- A call of the public interface. -/
inductive Call
  | add (base size : Nat)
  | reserve (base size : Nat)
  | physFree (base size : Nat)
  | physAlloc (size align : Nat)
deriving DecidableEq, Repr

/-- Added and reserved ranges do not wrap, alignments are 0 or powers of two,
and every argument is a machine word. -/
def Call.Admissible : Call → Prop
  | .add base size => base + size ≤ uintptrMax
  | .reserve base size => base + size ≤ uintptrMax
  | .physFree base size => base ≤ uintptrMax ∧ size ≤ uintptrMax
  | .physAlloc size align => size ≤ uintptrMax ∧ align ≤ uintptrMax ∧ (align = 0 ∨ ∃ k, align = 2 ^ k)

/-- The memory map after a call, whatever the call returns. -/
def Call.exec (memblock : Memblock) : Call → Option Memblock
  | .add base size => Prod.fst <$> memblockAdd memblock base size
  | .reserve base size => Prod.fst <$> memblockReserve memblock base size
  | .physFree base size => Prod.fst <$> memblockPhysFree memblock base size
  | .physAlloc size align => Prod.fst <$> memblockPhysAlloc memblock size align

/-- The memory map after a sequence of calls; `none` when one of them left a
region array. -/
def run (memblock : Memblock) : List Call → Option Memblock
  | [] => some memblock
  | call :: calls => do
    let memblock ← call.exec memblock
    memblock.run calls

end Memblock

/-- A region array as its users rely on it. -/
structure MemblockType.WellFormed (type : MemblockType) : Prop where
  cnt_le : type.cnt ≤ initMemblockRegions
  nonempty : ∀ i < type.cnt, 0 < (type.regions i).size
  no_wrap : ∀ i < type.cnt, (type.regions i).base + (type.regions i).size ≤ uintptrMax
  separated : ∀ i, i + 1 < type.cnt →
    (type.regions i).base + (type.regions i).size < (type.regions (i + 1)).base
  total : type.totalSize = ((List.range type.cnt).map fun i => (type.regions i).size).sum

section
variable {type : MemblockType} {l memory reserved : List MemblockRegion} {memblock : Memblock} {x N : Nat}

/-- Regions that do not overlap fit between their bounds. -/
theorem sizes_le (h : RegionsOrdered l) (low : ∀ r ∈ l, x ≤ r.base) (high : ∀ r ∈ l, r.limit ≤ N) (le : x ≤ N) :
    x + sizes l ≤ N := by
  induction l generalizing x with
  | nil => simpa [sizes] using le
  | cons r l ih =>
    obtain ⟨-, first, rest⟩ := ordered_cons.1 h
    have above := ih rest first (fun s mem => high s (by simp [mem])) (high r (by simp))
    have := low r (by simp)
    simp only [sizes_cons, MemblockRegion.limit] at above ⊢
    omega

theorem Canonical.wellFormed (h : Canonical type l) : type.WellFormed := by
  have slot : ∀ i (lt : i < l.length), type.regions i = l[i] := fun i lt => by
    have := h.regions i lt
    rw [List.getElem?_eq_getElem lt, Option.some_inj] at this
    exact this.symm
  have member : ∀ i < type.cnt, type.regions i ∈ l := fun i lt => by
    rw [h.cnt] at lt
    rw [slot i lt]
    exact List.getElem_mem lt
  refine ⟨h.cnt_le, fun i lt => ?_, fun i lt => h.bounded _ (member i lt), fun i lt => ?_, ?_⟩
  · have := h.apart.nonempty _ (member i lt)
    simp only [MemblockRegion.limit] at this
    omega
  · rw [h.cnt] at lt
    rw [slot i (by omega), slot (i + 1) lt]
    exact List.pairwise_iff_getElem.1 h.apart.apart i (i + 1) (by omega) lt (by omega)
  · have bound : 0 + sizes l ≤ uintptrMax :=
      sizes_le h.apart.ordered (fun _ _ => Nat.zero_le _) h.bounded (Nat.zero_le _)
    rw [h.total, Nat.mod_eq_of_lt (Nat.lt_of_le_of_lt (by simpa using bound) (by decide)), sizes, ← h.list_eq]
    simp [MemblockType.list, Function.comp_def]

/-- The addresses of an array are those of its list. -/
theorem MemblockType.mem_addresses : x ∈ type.addresses ↔ ∃ r ∈ type.list, r.base ≤ x ∧ x < r.limit := by
  constructor
  · rintro ⟨i, lt, inside⟩
    exact ⟨type.regions i, List.mem_map_of_mem (List.mem_range.2 lt), inside⟩
  · rintro ⟨r, mem, inside⟩
    obtain ⟨i, lt, rfl⟩ := List.mem_map.1 mem
    exact ⟨i, List.mem_range.1 lt, inside⟩

/-- Two region arrays hold the same list. -/
structure MemblockType.Same (type type' : MemblockType) : Prop where
  cnt : type.cnt = type'.cnt
  totalSize : type.totalSize = type'.totalSize
  regions : ∀ i < type.cnt, type.regions i = type'.regions i

/-- A canonical array is determined by the addresses it denotes. -/
theorem Canonical.same {type' : MemblockType} {l' : List MemblockRegion} (h : Canonical type l)
    (h' : Canonical type' l') (eq : type.addresses = type'.addresses) : type.Same type' := by
  rw [h.addresses_eq, h'.addresses_eq] at eq
  have faithful : ∀ r r' : MemblockRegion, r.base = r'.base → r.limit = r'.limit → r = r' := fun r r' hb hl => by
    cases r
    cases r'
    simp only [MemblockRegion.limit, MemblockRegion.mk.injEq] at *
    omega
  obtain rfl := h.apart.ext faithful h'.apart eq
  refine ⟨h.cnt.trans h'.cnt.symm, h.total.trans h'.total.symm, fun i lt => ?_⟩
  rw [h.cnt] at lt
  exact Option.some_inj.1 ((h.regions i lt).symm.trans (h'.regions i lt))

theorem Mapped.zero : Mapped .zero [] [] where
  memory := ⟨⟨rfl, by decide, by simp, rfl⟩, .nil, by simp⟩
  reserved := ⟨⟨rfl, by decide, by simp, rfl⟩, .nil, by simp⟩

namespace Memblock

/-- One call keeps both arrays canonical. -/
theorem Call.exec_mapped {call : Call} (h : Mapped memblock memory reserved) (ok : call.Admissible) :
    ∃ memblock' memory' reserved', call.exec memblock = some memblock' ∧ Mapped memblock' memory' reserved' := by
  cases call with
  | add base size =>
    rcases memblockAdd_spec h ok with ⟨memblock', memory', run, mapped, -⟩ | run
    · exact ⟨memblock', memory', reserved, by rw [exec, run]; rfl, mapped⟩
    · exact ⟨memblock, memory, reserved, by rw [exec, run]; rfl, h⟩
  | reserve base size =>
    rcases memblockReserve_spec h ok with ⟨memblock', reserved', run, mapped, -⟩ | run
    · exact ⟨memblock', memory, reserved', by rw [exec, run]; rfl, mapped⟩
    · exact ⟨memblock, memory, reserved, by rw [exec, run]; rfl, h⟩
  | physFree base size =>
    rcases memblockRemoveRange_spec size h.reserved (Nat.lt_of_le_of_lt ok.1 (by decide)) with
      ⟨type', reserved', run, canonical, -⟩ | ⟨run, -⟩
    · exact ⟨{ memblock with reserved := type' }, memory, reserved',
        by rw [exec, memblockPhysFree, bind_of_some run]; rfl, h.memory, canonical⟩
    · exact ⟨memblock, memory, reserved, by rw [exec, memblockPhysFree, bind_of_some run]; rfl, h⟩
  | physAlloc size align =>
    obtain ⟨memblock', address, run, ⟨rfl, -⟩ | ⟨reserved', mapped, -⟩⟩ :=
      memblockPhysAlloc_spec size align h
    · exact ⟨memblock', memory, reserved, by rw [exec, run]; rfl, h⟩
    · exact ⟨memblock', memory, reserved', by rw [exec, run]; rfl, mapped⟩

theorem run_mapped {calls : List Call} (h : Mapped memblock memory reserved) (ok : ∀ call ∈ calls, call.Admissible) :
    ∃ memblock' memory' reserved', memblock.run calls = some memblock' ∧ Mapped memblock' memory' reserved' := by
  induction calls generalizing memblock memory reserved with
  | nil => exact ⟨memblock, memory, reserved, rfl, h⟩
  | cons call calls ih =>
    obtain ⟨memblock', memory', reserved', step, mapped⟩ := Call.exec_mapped h (ok call (by simp))
    rw [run, bind_of_some step]
    exact ih mapped fun c mem => ok c (by simp [mem])

/-- **Representation invariant.** Every history of admissible calls finishes
inside both arrays, with both arrays well formed; a history up to any of its
calls is a history, so this holds after each call. -/
theorem run_wellFormed (calls : List Call) (ok : ∀ call ∈ calls, call.Admissible) :
    ∃ memblock, Memblock.zero.run calls = some memblock ∧
      memblock.memory.WellFormed ∧ memblock.reserved.WellFormed := by
  obtain ⟨memblock, memory, reserved, history, mapped⟩ := run_mapped Mapped.zero ok
  exact ⟨memblock, history, mapped.memory.wellFormed, mapped.reserved.wellFormed⟩

/-- Reserving across two regions, cutting the result and allocating from it. -/
theorem run_wellFormed_mixed :
    ∃ memblock, Memblock.zero.run [.add 0x40000000 0x8000000, .reserve 0x40000000 0x2000, .reserve 0x40004000 0x1000,
        .reserve 0x40001000 0x5000, .physFree 0x40003000 (2 ^ 64 - 1), .physAlloc 0x180000 8] = some memblock ∧
      memblock.memory.WellFormed ∧ memblock.reserved.WellFormed := by
  apply run_wellFormed
  simp only [List.forall_mem_cons, Call.Admissible]
  exact ⟨by decide, by decide, by decide, by decide, by decide, ⟨by decide, by decide, .inr ⟨3, rfl⟩⟩, by simp⟩

/-! ## Canonical form -/

theorem memblockPhysFree_inv {m m' : Memblock} {base size : Nat} (h : Canonical m.reserved reserved)
    (hb : base < 2 ^ 64) (run : memblockPhysFree m base size = some (m', 0)) : ∃ reserved',
      m'.memory = m.memory ∧ Canonical m'.reserved reserved' ∧
      ∀ x, x ∈ addresses reserved' ↔ x ∈ addresses reserved ∧ ¬(base ≤ x ∧ x < min (base + size) uintptrMax) := by
  rcases memblockRemoveRange_spec size h hb with ⟨type', reserved', run', canonical, covers⟩ | ⟨run', -⟩
  · rw [memblockPhysFree, bind_of_some run'] at run
    obtain ⟨rfl, -⟩ := Prod.mk.inj (Option.some_inj.1 run)
    exact ⟨reserved', rfl, canonical, covers⟩
  · rw [memblockPhysFree, bind_of_some run'] at run
    exact absurd (Prod.mk.inj (Option.some_inj.1 run)).2 (by decide)

theorem memblockReserve_inv {m m' : Memblock} {base size : Nat} (h : Mapped m memory reserved)
    (le : base + size ≤ uintptrMax) (run : memblockReserve m base size = some (m', 0)) : ∃ reserved',
      m'.memory = m.memory ∧ Canonical m'.reserved reserved' ∧
      ∀ x, x ∈ addresses reserved' ↔ x ∈ addresses reserved ∨ base ≤ x ∧ x < base + size := by
  rcases memblockAddRange_spec h.reserved le with ⟨type', reserved', run', canonical, covers⟩ | ⟨run', -⟩
  · rw [memblockReserve, bind_of_some run'] at run
    obtain ⟨rfl, -⟩ := Prod.mk.inj (Option.some_inj.1 run)
    exact ⟨reserved', rfl, canonical, covers⟩
  · rw [memblockReserve, bind_of_some run'] at run
    exact absurd (Prod.mk.inj (Option.some_inj.1 run)).2 (by decide)

/-- **Canonical form.** Two histories whose reserved (or memory) arrays denote
the same addresses leave the same list, whatever the order and the overlaps of
their calls; reserving a range that meets no reserved region and releasing it
again restores the reserved list. -/
theorem run_canonical {calls calls' : List Call} {m m' : Memblock} (ok : ∀ call ∈ calls, call.Admissible)
    (ok' : ∀ call ∈ calls', call.Admissible) (history : Memblock.zero.run calls = some m)
    (history' : Memblock.zero.run calls' = some m') :
    (m.reserved.addresses = m'.reserved.addresses → m.reserved.Same m'.reserved) ∧
    (m.memory.addresses = m'.memory.addresses → m.memory.Same m'.memory) ∧
    ∀ base size, base + size ≤ uintptrMax → Disjoint (Set.Ico base (base + size)) m.reserved.addresses →
      ∀ m₁ m₂, memblockReserve m base size = some (m₁, 0) → memblockPhysFree m₁ base size = some (m₂, 0) →
        m.reserved.Same m₂.reserved ∧ m₂.memory = m.memory := by
  obtain ⟨n, memory, reserved, run, mapped⟩ := run_mapped Mapped.zero ok
  obtain rfl := Option.some_inj.1 (run.symm.trans history)
  obtain ⟨n', memory', reserved', run', mapped'⟩ := run_mapped Mapped.zero ok'
  obtain rfl := Option.some_inj.1 (run'.symm.trans history')
  refine ⟨mapped.reserved.same mapped'.reserved, mapped.memory.same mapped'.memory, ?_⟩
  intro base size le disjoint m₁ m₂ reserve free
  obtain ⟨reserved₁, memory₁, canonical₁, covers₁⟩ := memblockReserve_inv mapped le reserve
  obtain ⟨reserved₂, memory₂, canonical₂, covers₂⟩ :=
    memblockPhysFree_inv canonical₁ (Nat.lt_of_le_of_lt (Nat.le_trans (Nat.le_add_right _ _) le) (by decide)) free
  refine ⟨mapped.reserved.same canonical₂ ?_, memory₂.trans memory₁⟩
  rw [mapped.reserved.addresses_eq] at disjoint ⊢
  rw [canonical₂.addresses_eq]
  ext x
  rw [covers₂ x, covers₁ x, min_eq_left le]
  constructor
  · exact fun mem => ⟨.inl mem, fun range => Set.disjoint_left.1 disjoint range mem⟩
  · exact fun ⟨mem, out⟩ => mem.resolve_right out

/-- A range merged with its neighbours on both sides and released again. -/
theorem run_canonical_between_neighbours :
    ∃ m m₁ m₂ : Memblock, Memblock.zero.run [.reserve 0x3000 0x1000, .reserve 0x1000 0x1000] = some m ∧
      memblockReserve m 0x2000 0x1000 = some (m₁, 0) ∧ memblockPhysFree m₁ 0x2000 0x1000 = some (m₂, 0) ∧
      m.reserved.Same m₂.reserved := by
  have ok : ∀ call ∈ [Call.reserve 0x3000 0x1000, .reserve 0x1000 0x1000], call.Admissible := by
    simp only [List.forall_mem_cons, Call.Admissible]
    exact ⟨by decide, by decide, by simp⟩
  obtain ⟨m, history⟩ := Option.isSome_iff_exists.1
    (show (Memblock.zero.run [.reserve 0x3000 0x1000, .reserve 0x1000 0x1000]).isSome by decide +kernel)
  have first : ((Memblock.zero.run [.reserve 0x3000 0x1000, .reserve 0x1000 0x1000]).bind
      fun m => memblockReserve m 0x2000 0x1000).map Prod.snd = some 0 := by decide +kernel
  have second : (((Memblock.zero.run [.reserve 0x3000 0x1000, .reserve 0x1000 0x1000]).bind
      fun m => memblockReserve m 0x2000 0x1000).bind
      fun r => memblockPhysFree r.1 0x2000 0x1000).map Prod.snd = some 0 := by decide +kernel
  rw [history, Option.bind_some] at first second
  obtain ⟨⟨m₁, status⟩, reserve, rfl⟩ := Option.map_eq_some_iff.1 first
  rw [reserve, Option.bind_some] at second
  obtain ⟨⟨m₂, status⟩, free, rfl⟩ := Option.map_eq_some_iff.1 second
  have apart : Disjoint (Set.Ico 0x2000 (0x2000 + 0x1000)) m.reserved.addresses := by
    have list : (Memblock.zero.run [.reserve 0x3000 0x1000, .reserve 0x1000 0x1000]).map (·.reserved.list) =
        some [⟨0x1000, 0x1000⟩, ⟨0x3000, 0x1000⟩] := by decide +kernel
    rw [history, Option.map_some, Option.some_inj] at list
    rw [Set.disjoint_left]
    rintro x ⟨le, lt⟩ ⟨i, lt', inside⟩
    have mem : m.reserved.regions i ∈ m.reserved.list := List.mem_map_of_mem (List.mem_range.2 lt')
    rw [list] at mem
    simp only [List.mem_cons, List.not_mem_nil, or_false] at mem
    rcases mem with eq | eq <;> rw [eq] at inside <;> simp only at inside <;> omega
  exact ⟨m, m₁, m₂, history, reserve, free,
    ((run_canonical ok ok history history).2.2 0x2000 0x1000 (by decide) apart m₁ m₂ reserve free).1⟩

end Memblock

end

end MiaowOs
