import MiaowOs.Lib.Ring

/-!
# `include/miaow/list.h`

The intrusive circular list over a heap of link pairs. A null link is never
followed on a well-formed list; the stores through one are dropped here. Each
operation has one rule on rings (`listAdd_ring`, `listDel_ring`) and one frame
rule (`listAdd_frame`, `listDel_frame`): only the nodes of the edited ring
change. `list_add_tail` is `list_add` on the mirrored ring.
-/

namespace MiaowOs
open TwoWay

section
variable {α : Type} [DecidableEq α]

/-- `node->next = v`. -/
def setNext (m : Heap α) (node : α) (v : Option α) : Heap α :=
  fun x => if x = node then { m node with next := v } else m x

/-- `node->prev = v`. -/
def setPrev (m : Heap α) (node : α) (v : Option α) : Heap α :=
  fun x => if x = node then { m node with prev := v } else m x

/-- `INIT_LIST_HEAD`. -/
def initListHead (m : Heap α) (list : α) : Heap α :=
  setPrev (setNext m list (some list)) list (some list)

/-- `__list_add`. -/
def listAddBetween (m : Heap α) (entry prev next : α) : Heap α :=
  let m := setPrev m next (some entry)
  let m := setNext m entry (some next)
  let m := setPrev m entry (some prev)
  setNext m prev (some entry)

/-- `list_add`. -/
def listAdd (m : Heap α) (entry head : α) : Heap α :=
  match (m head).next with
  | some next => listAddBetween m entry head next
  | none => m

/-- `list_add_tail`. -/
def listAddTail (m : Heap α) (entry head : α) : Heap α :=
  match (m head).prev with
  | some prev => listAddBetween m entry prev head
  | none => m

/-- `list_del`. -/
def listDel (m : Heap α) (entry : α) : Heap α :=
  match (m entry).prev, (m entry).next with
  | some prev, some next =>
    let m := setNext m prev (some next)
    let m := setPrev m next (some prev)
    let m := setNext m entry none
    setPrev m entry none
  | _, _ => m

/-- `list_empty`. -/
def listEmpty (m : Heap α) (head : α) : Bool := (m head).next == some head

/-- `list_for_each_entry` from `position` on, with `fuel` iterations left: the entries
it visits. A null link is `none`. -/
def listForEachFrom (m : Heap α) (head : α) : Nat → Option α → Option (List α)
  | 0, _ => none
  | _, none => none
  | fuel + 1, some position =>
    if position = head then some [] else (listForEachFrom m head fuel (m position).next).map (position :: ·)

/-- `list_for_each_entry` with a body that leaves the list alone. -/
def listForEach (m : Heap α) (head : α) (fuel : Nat) : Option (List α) := listForEachFrom m head fuel (m head).next

@[simp] theorem setNext_next (m : Heap α) (a x : α) (v : Option α) :
    (setNext m a v x).next = if x = a then v else (m x).next := by
  unfold setNext; split <;> simp_all

@[simp] theorem setNext_prev (m : Heap α) (a x : α) (v : Option α) : (setNext m a v x).prev = (m x).prev := by
  unfold setNext; split <;> simp_all

@[simp] theorem setPrev_prev (m : Heap α) (a x : α) (v : Option α) :
    (setPrev m a v x).prev = if x = a then v else (m x).prev := by
  unfold setPrev; split <;> simp_all

@[simp] theorem setPrev_next (m : Heap α) (a x : α) (v : Option α) : (setPrev m a v x).next = (m x).next := by
  unfold setPrev; split <;> simp_all

theorem setNext_of_ne {m : Heap α} {a x : α} {v : Option α} (h : x ≠ a) : setNext m a v x = m x := by
  simp [setNext, h]

theorem setPrev_of_ne {m : Heap α} {a x : α} {v : Option α} (h : x ≠ a) : setPrev m a v x = m x := by
  simp [setPrev, h]

variable {m : Heap α} {h e : α} {qs : List α}

theorem initListHead_ring (m : Heap α) (h : α) : Ring (initListHead m h) h [] := by
  apply Ring.nil <;> simp [initListHead]

theorem initListHead_frame {x : α} (ne : x ≠ h) : initListHead m h x = m x := by
  simp [initListHead, setPrev_of_ne ne, setNext_of_ne ne]

theorem listEmpty_iff (r : Ring m h qs) : listEmpty m h = true ↔ qs = [] := by
  have nodup := r.nodup
  simp only [listEmpty, r.next_head, beq_iff_eq, Option.some.injEq]
  cases qs with
  | nil => simp
  | cons q qs =>
    simp only [List.nodup_cons, List.mem_cons, not_or] at nodup
    simp only [List.headD_cons, reduceCtorEq, iff_false]
    exact fun eq => nodup.1.1 eq.symm

/-- `list_add` puts a new entry at the front of the ring. -/
theorem listAdd_ring (r : Ring m h qs) (fresh : e ∉ h :: qs) : Ring (listAdd m e h) h (e :: qs) := by
  have first := r.next_head
  have hy : qs.headD h ∈ h :: qs := by cases qs <;> simp
  generalize qs.headD h = y at first hy
  have hyne : y ≠ e := fun q => fresh (q ▸ hy)
  have hhne : h ≠ e := fun q => fresh (by simp [q])
  have value : listAdd m e h = listAddBetween m e h y := by simp only [listAdd, first]
  rw [value]
  apply r.link fresh first
  · simp [listAddBetween]
  · simp [listAddBetween]
  · simp [listAddBetween, hhne.symm]
  · simp [listAddBetween, hyne]
  · intro x h1 h2; simp [listAddBetween, h1, h2]
  · intro x h1 h2; simp [listAddBetween, h1, h2]

/-- `list_add` changes only nodes of the ring and the entry. -/
theorem listAdd_frame (r : Ring m h qs) {x : α} (out : x ∉ h :: qs) (ne : x ≠ e) :
    listAdd m e h x = m x := by
  have hy : qs.headD h ∈ h :: qs := by cases qs <;> simp
  have h1 : x ≠ h := fun q => out (by simp [q])
  have h2 : x ≠ qs.headD h := fun q => out (q ▸ hy)
  simp only [listAdd, r.next_head, listAddBetween]
  rw [setNext_of_ne h1, setPrev_of_ne ne, setNext_of_ne ne, setPrev_of_ne h2]

/-- `list_add_tail` puts a new entry at the end: in the mirrored ring, at the front. -/
theorem listAddTail_ring (r : Ring m h qs) (fresh : e ∉ h :: qs) : Ring (listAddTail m e h) h (qs ++ [e]) := by
  have last := r.prev_head
  have hy : qs.reverse.headD h ∈ h :: qs.reverse := by cases qs.reverse <;> simp
  have mirrored := r.mirror
  have fresh' : e ∉ h :: qs.reverse := by simpa using fresh
  generalize qs.reverse.headD h = y at last hy
  have hyne : y ≠ e := fun q => fresh' (q ▸ hy)
  have hhne : h ≠ e := fun q => fresh (by simp [q])
  have value : listAddTail m e h = listAddBetween m e y h := by simp only [listAddTail, last]
  have added : Ring (mirror (listAddTail m e h)) h (e :: qs.reverse) := by
    rw [value]
    apply mirrored.link fresh' last
    · simp [mirror, listAddBetween, hhne]
    · simp [mirror, listAddBetween, hyne.symm]
    · simp [mirror, listAddBetween]
    · simp [mirror, listAddBetween]
    · intro x h1 h2; simp [mirror, listAddBetween, h1, h2]
    · intro x h1 h2; simp [mirror, listAddBetween, h1, h2]
  have back := added.mirror
  rwa [List.reverse_cons, List.reverse_reverse] at back

/-- `list_add_tail` changes only nodes of the ring and the entry. -/
theorem listAddTail_frame (r : Ring m h qs) {x : α} (out : x ∉ h :: qs) (ne : x ≠ e) :
    listAddTail m e h x = m x := by
  have hy : qs.reverse.headD h ∈ h :: qs := by
    cases rev : qs.reverse with
    | nil => simp
    | cons y ys => exact List.mem_cons_of_mem h (List.mem_reverse.1 (by rw [rev]; simp))
  have h1 : x ≠ h := fun q => out (by simp [q])
  have h2 : x ≠ qs.reverse.headD h := fun q => out (q ▸ hy)
  simp only [listAddTail, r.prev_head, listAddBetween]
  rw [setNext_of_ne h2, setPrev_of_ne ne, setNext_of_ne ne, setPrev_of_ne h1]

/-- `list_del` takes an entry out of its ring. -/
theorem listDel_ring (r : Ring m h qs) (mem : e ∈ qs) : Ring (listDel m e) h (qs.erase e) := by
  obtain ⟨as, bs, rfl⟩ := List.append_of_mem mem
  have nodup := (List.nodup_cons.1 r.nodup).2
  have notin : e ∉ as := fun q => (List.nodup_append.1 nodup).2.2 e q e (by simp) rfl
  rw [List.erase_append_right _ notin, List.erase_cons_head]
  obtain ⟨x, y, hx, hy, before, after⟩ := r.neighbours
  have whole := r.nodup
  simp only [List.nodup_cons, List.nodup_append, List.mem_append, List.mem_cons, not_or] at whole
  obtain ⟨⟨-, hhe, -⟩, -, ⟨eb, -⟩, -⟩ := whole
  have hxe : x ≠ e := by
    rintro rfl
    rcases List.mem_cons.1 hx with q | q
    · exact hhe q.symm
    · exact notin q
  have hye : y ≠ e := by
    rintro rfl
    rcases List.mem_cons.1 hy with q | q
    · exact hhe q.symm
    · exact eb q
  apply r.unlink before after
  · simp [listDel, before, after, hxe]
  · simp [listDel, before, after, hye]
  · intro z h1 h2; simp [listDel, before, after, h1, h2]
  · intro z h1 h2; simp [listDel, before, after, h1, h2]

/-- `list_del` changes only nodes of the ring. -/
theorem listDel_frame (r : Ring m h qs) (mem : e ∈ qs) {x : α} (out : x ∉ h :: qs) : listDel m e x = m x := by
  obtain ⟨as, bs, rfl⟩ := List.append_of_mem mem
  obtain ⟨y, z, hy, hz, before, after⟩ := r.neighbours
  have h1 : x ≠ y := by
    rintro rfl
    simp only [List.mem_cons, List.mem_append] at out hy
    tauto
  have h2 : x ≠ z := by
    rintro rfl
    simp only [List.mem_cons, List.mem_append] at out hz
    tauto
  have h3 : x ≠ e := by rintro rfl; exact out (by simp)
  simp only [listDel, before, after]
  rw [setPrev_of_ne h3, setNext_of_ne h3, setPrev_of_ne h2, setNext_of_ne h1]

/-- The links of a deleted entry are null. -/
theorem listDel_entry (r : Ring m h qs) (mem : e ∈ qs) : listDel m e e = ⟨none, none⟩ := by
  obtain ⟨as, bs, rfl⟩ := List.append_of_mem mem
  obtain ⟨x, y, -, -, before, after⟩ := r.neighbours
  simp only [listDel, before, after]
  simp [setPrev, setNext]

/-- The loop visits what is left of the ring. -/
theorem listForEachFrom_eq {x : α} {fuel : Nat} (linked : Linked m (x :: (qs ++ [h]))) (out : h ∉ qs)
    (enough : qs.length < fuel) : listForEachFrom m h fuel (m x).next = some qs := by
  induction qs generalizing x fuel with
  | nil =>
    obtain ⟨fuel, rfl⟩ : ∃ f, fuel = f + 1 := Nat.exists_eq_succ_of_ne_zero (Nat.ne_of_gt enough)
    obtain ⟨next, -⟩ := linked_cons_cons.1 linked
    rw [next.1, listForEachFrom, if_pos rfl]
  | cons q qs ih =>
    obtain ⟨next, rest⟩ := linked_cons_cons.1 linked
    rw [List.mem_cons, not_or] at out
    rw [List.length_cons] at enough
    obtain ⟨fuel, rfl⟩ : ∃ f, fuel = f + 1 := ⟨fuel - 1, by omega⟩
    rw [next.1, listForEachFrom, if_neg (Ne.symm out.1), ih rest out.2 (by omega)]
    rfl

/-- `list_for_each_entry` visits the members of a ring, in order. -/
theorem listForEach_eq (r : Ring m h qs) {fuel : Nat} (enough : qs.length < fuel) : listForEach m h fuel = some qs :=
  listForEachFrom_eq r.linked (List.nodup_cons.1 r.nodup).1 enough

end

end MiaowOs
