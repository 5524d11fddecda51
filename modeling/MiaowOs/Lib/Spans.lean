import Mathlib.Data.List.Basic
import Mathlib.Order.MinMax
import Mathlib.Order.Interval.Set.Basic
import Mathlib.Data.List.Perm.Basic
import Mathlib.Tactic.Order

/-!
# Sorted lists of half-open intervals

A list of items with two end points `lo` and `hi` in a linear order denotes
the union of the intervals `[lo, hi)`. `Ordered` lists are sorted and do not
overlap; in `Separated` lists neighbours do not touch either. `coalesce` joins
touching neighbours in a window of the list, and `diff` walks one separated
list past another and reports what is left of it.
-/

namespace Spans

section
variable {ι α : Type*} [LinearOrder α] (lo hi : ι → α)

/-- The points of the intervals of `l`. -/
def cover (l : List ι) : Set α := {x | ∃ s ∈ l, lo s ≤ x ∧ x < hi s}

/-- Non-empty intervals in increasing order, possibly touching. -/
structure Ordered (l : List ι) : Prop where
  nonempty : ∀ s ∈ l, lo s < hi s
  below : l.Pairwise fun a b => hi a ≤ lo b

/-- Non-empty intervals in increasing order with a gap between neighbours. -/
structure Separated (l : List ι) : Prop where
  nonempty : ∀ s ∈ l, lo s < hi s
  apart : l.Pairwise fun a b => hi a < lo b

variable {lo hi} {l l' : List ι} {a b s : ι} {x y : α}

theorem mem_cover : x ∈ cover lo hi l ↔ ∃ s ∈ l, lo s ≤ x ∧ x < hi s := Iff.rfl

@[simp] theorem mem_cover_nil : x ∈ cover lo hi [] ↔ False := by simp [mem_cover]

@[simp] theorem mem_cover_cons : x ∈ cover lo hi (s :: l) ↔ lo s ≤ x ∧ x < hi s ∨ x ∈ cover lo hi l := by
  simp [mem_cover]

@[simp] theorem mem_cover_append :
    x ∈ cover lo hi (l ++ l') ↔ x ∈ cover lo hi l ∨ x ∈ cover lo hi l' := by
  simp [mem_cover, or_and_right, exists_or]

theorem Separated.ordered (h : Separated lo hi l) : Ordered lo hi l :=
  ⟨h.nonempty, h.apart.imp fun lt => lt.le⟩

theorem Separated.nil : Separated lo hi ([] : List ι) := ⟨by simp, .nil⟩

theorem separated_cons : Separated lo hi (s :: l) ↔
    lo s < hi s ∧ (∀ t ∈ l, hi s < lo t) ∧ Separated lo hi l := by
  constructor
  · intro h
    obtain ⟨first, rest⟩ := List.pairwise_cons.1 h.apart
    exact ⟨h.nonempty s (by simp), first, fun t mem => h.nonempty t (by simp [mem]), rest⟩
  · intro ⟨ne, first, rest⟩
    exact ⟨by simpa [ne] using rest.nonempty, List.pairwise_cons.2 ⟨first, rest.apart⟩⟩

theorem separated_append : Separated lo hi (l ++ l') ↔
    Separated lo hi l ∧ Separated lo hi l' ∧ ∀ a ∈ l, ∀ b ∈ l', hi a < lo b := by
  constructor
  · intro h
    obtain ⟨left, right, across⟩ := List.pairwise_append.1 h.apart
    exact ⟨⟨fun s mem => h.nonempty s (by simp [mem]), left⟩,
      ⟨fun s mem => h.nonempty s (by simp [mem]), right⟩, across⟩
  · intro ⟨left, right, across⟩
    refine ⟨fun s mem => ?_, List.pairwise_append.2 ⟨left.apart, right.apart, across⟩⟩
    exact (List.mem_append.1 mem).elim (left.nonempty s) (right.nonempty s)

theorem ordered_cons : Ordered lo hi (s :: l) ↔
    lo s < hi s ∧ (∀ t ∈ l, hi s ≤ lo t) ∧ Ordered lo hi l := by
  constructor
  · intro h
    obtain ⟨first, rest⟩ := List.pairwise_cons.1 h.below
    exact ⟨h.nonempty s (by simp), first, fun t mem => h.nonempty t (by simp [mem]), rest⟩
  · intro ⟨ne, first, rest⟩
    exact ⟨by simpa [ne] using rest.nonempty, List.pairwise_cons.2 ⟨first, rest.below⟩⟩

/-- The first interval starts before all others. -/
theorem Ordered.head_le (h : Ordered lo hi (s :: l)) : ∀ t ∈ s :: l, lo s ≤ lo t := by
  obtain ⟨ne, first, -⟩ := ordered_cons.1 h
  intro t mem
  rcases List.mem_cons.1 mem with rfl | mem
  · exact le_rfl
  · exact ne.le.trans (first t mem)

theorem ordered_append : Ordered lo hi (l ++ l') ↔
    Ordered lo hi l ∧ Ordered lo hi l' ∧ ∀ a ∈ l, ∀ b ∈ l', hi a ≤ lo b := by
  constructor
  · intro h
    obtain ⟨left, right, across⟩ := List.pairwise_append.1 h.below
    exact ⟨⟨fun s mem => h.nonempty s (by simp [mem]), left⟩,
      ⟨fun s mem => h.nonempty s (by simp [mem]), right⟩, across⟩
  · intro ⟨left, right, across⟩
    refine ⟨fun s mem => ?_, List.pairwise_append.2 ⟨left.below, right.below, across⟩⟩
    exact (List.mem_append.1 mem).elim (left.nonempty s) (right.nonempty s)

/-- The end of an interval of a separated list is not covered. -/
theorem Separated.hi_not_mem (h : Separated lo hi l) (mem : s ∈ l) : hi s ∉ cover lo hi l := by
  induction l with
  | nil => simp at mem
  | cons t l ih =>
    obtain ⟨ne, first, rest⟩ := separated_cons.1 h
    intro covered
    rcases List.mem_cons.1 mem with rfl | mem
    · rcases mem_cover_cons.1 covered with ⟨-, lt⟩ | ⟨u, hu, le, -⟩
      · exact lt.false
      · exact (le.trans_lt (first u hu)).false
    · rcases mem_cover_cons.1 covered with ⟨-, lt⟩ | covered
      · exact ((first s mem).trans (rest.nonempty s mem) |>.trans lt).false
      · exact ih rest mem covered

/-- An interval of covered points lies inside one interval of a separated list. -/
theorem Separated.within_one (h : Separated lo hi l) (lt : x < y)
    (covered : ∀ z, x ≤ z → z < y → z ∈ cover lo hi l) : ∃ s ∈ l, lo s ≤ x ∧ y ≤ hi s := by
  obtain ⟨s, mem, le, lt'⟩ := covered x le_rfl lt
  refine ⟨s, mem, le, le_of_not_gt fun short => ?_⟩
  exact h.hi_not_mem mem (covered (hi s) lt'.le short)

/-- `[x, y)` is non-empty, inside `X`, and in no larger interval inside `X`. -/
def MaximalIn (X : Set α) (x y : α) : Prop :=
  x < y ∧ Set.Ico x y ⊆ X ∧ ∀ c d, c ≤ x → y ≤ d → Set.Ico c d ⊆ X → c = x ∧ d = y

/-- Two intervals of a separated list that share a point are one. -/
theorem Separated.eq_of_mem (h : Separated lo hi l) {t : ι} (hs : s ∈ l) (ht : t ∈ l) (in_s : lo s ≤ x ∧ x < hi s)
    (in_t : lo t ≤ x ∧ x < hi t) : s = t := by
  induction l with
  | nil => simp at hs
  | cons u l ih =>
    obtain ⟨-, first, rest⟩ := separated_cons.1 h
    rcases List.mem_cons.1 hs with rfl | hs' <;> rcases List.mem_cons.1 ht with rfl | ht'
    · rfl
    · have := first t ht'
      order
    · have := first s hs'
      order
    · exact ih rest hs' ht'

/-- The intervals of a separated list are the maximal ones of its points. -/
theorem Separated.maximal_iff (h : Separated lo hi l) :
    MaximalIn (cover lo hi l) x y ↔ ∃ s ∈ l, lo s = x ∧ hi s = y := by
  constructor
  · intro ⟨lt, inside, largest⟩
    obtain ⟨s, mem, le, ge⟩ := h.within_one lt fun z le lt => inside ⟨le, lt⟩
    exact ⟨s, mem, largest (lo s) (hi s) le ge fun z hz => ⟨s, mem, hz⟩⟩
  · rintro ⟨s, mem, rfl, rfl⟩
    have ne := h.nonempty s mem
    refine ⟨ne, fun z hz => ⟨s, mem, hz⟩, fun c d le ge inside => ?_⟩
    obtain ⟨t, mem', le', ge'⟩ := h.within_one (lt_of_le_of_lt le (ne.trans_le ge)) fun z le lt => inside ⟨le, lt⟩
    obtain rfl := h.eq_of_mem mem mem' ⟨le_rfl, ne⟩ ⟨le'.trans le, ne.trans_le (ge.trans ge')⟩
    exact ⟨le_antisymm le le', le_antisymm ge' ge⟩

/-- **Canonical form**: separated lists with the same points are the same list. -/
theorem Separated.ext (faithful : ∀ s t : ι, lo s = lo t → hi s = hi t → s = t) (h : Separated lo hi l)
    (h' : Separated lo hi l') (same : cover lo hi l = cover lo hi l') : l = l' := by
  have sub : ∀ {l l' : List ι}, Separated lo hi l → Separated lo hi l' → cover lo hi l = cover lo hi l' →
      ∀ s ∈ l, s ∈ l' := fun h h' same s mem => by
    obtain ⟨t, mem', eq, eq'⟩ := h'.maximal_iff.1 (same ▸ h.maximal_iff.2 ⟨s, mem, rfl, rfl⟩)
    exact faithful t s eq eq' ▸ mem'
  have distinct : ∀ {l : List ι}, Separated lo hi l → l.Nodup := fun h =>
    (List.Pairwise.and_mem.1 h.apart).imp fun ⟨hs, _, lt⟩ eq => by
      subst eq
      exact (lt.trans (h.nonempty _ hs)).false
  have perm : l.Perm l' := (List.perm_ext_iff_of_nodup (distinct h) (distinct h')).2
    fun s => ⟨sub h h' same s, sub h' h same.symm s⟩
  refine perm.eq_of_pairwise (fun s t hs ht lt gt => ?_) h.apart h'.apart
  have := h.nonempty s hs
  have := h'.nonempty t ht
  order

/-- A separated list starts an interval only where every other list with the same
points does. -/
theorem Separated.lo_mem {κ : Type*} {lo' hi' : κ → α} {ps : List κ} (h : Separated lo hi l)
    (same : cover lo hi l = cover lo' hi' ps) (mem : s ∈ l) : lo s ∈ ps.map lo' := by
  have ne := h.nonempty s mem
  have start : lo s ∈ cover lo' hi' ps := same ▸ ⟨s, mem, le_rfl, ne⟩
  obtain ⟨p, memP, le, lt⟩ := start
  obtain ⟨t, memT, le', ge⟩ := h.within_one (le.trans_lt lt) fun z low high => same ▸ ⟨p, memP, low, high⟩
  obtain rfl := h.eq_of_mem mem memT ⟨le_rfl, ne⟩ ⟨le'.trans le, lt.trans_le ge⟩
  exact List.mem_map.2 ⟨p, memP, le_antisymm le le'⟩

/-- A separated list is no longer than any other list with the same points. -/
theorem Separated.length_le {κ : Type*} {lo' hi' : κ → α} {ps : List κ} (h : Separated lo hi l)
    (same : cover lo hi l = cover lo' hi' ps) : l.length ≤ ps.length := by
  have distinct : (l.map lo).Nodup := by
    apply List.pairwise_map.2
    exact h.apart.imp_of_mem fun memA _ lt => ((h.nonempty _ memA).trans lt).ne
  have sub : l.map lo ⊆ ps.map lo' := by
    intro x mem
    obtain ⟨s, here, rfl⟩ := List.mem_map.1 mem
    exact h.lo_mem same here
  simpa using (List.subperm_of_subset distinct sub).length_le

/-! ## Joining touching neighbours -/

section Coalesce
variable (lo hi) (join : ι → ι → ι)

/-- Look at `n` pairs of neighbours from the front and join those that touch. -/
def coalesce : Nat → List ι → List ι
  | 0, l => l
  | _ + 1, [] => []
  | _ + 1, [a] => [a]
  | n + 1, a :: b :: l =>
    if hi a = lo b then coalesce n (join a b :: l) else a :: coalesce n (b :: l)

variable {lo hi} {join} {n : Nat}
  (lo_join : ∀ a b, hi a = lo b → lo (join a b) = lo a)
  (hi_join : ∀ a b, hi a = lo b → hi (join a b) = hi b)

include lo_join hi_join

theorem Ordered.joined (h : Ordered lo hi (a :: b :: l)) (touch : hi a = lo b) :
    Ordered lo hi (join a b :: l) := by
  obtain ⟨ha, -, rest⟩ := ordered_cons.1 h
  obtain ⟨hb, second, tail⟩ := ordered_cons.1 rest
  refine ordered_cons.2 ⟨?_, ?_, tail⟩
  · rw [lo_join a b touch, hi_join a b touch]
    exact ha.trans (touch ▸ hb)
  · simpa [hi_join a b touch] using second

theorem cover_coalesce (h : Ordered lo hi l) : cover lo hi (coalesce lo hi join n l) = cover lo hi l := by
  induction n, l using coalesce.induct lo hi join with
  | case1 l => rfl
  | case2 n => rfl
  | case3 n a => rfl
  | case4 n a b l touch ih =>
    have ha : lo a < hi a := h.nonempty a (by simp)
    have hb : hi a < hi b := touch ▸ h.nonempty b (by simp)
    rw [coalesce, if_pos touch, ih (h.joined lo_join hi_join touch)]
    ext x
    simp only [mem_cover_cons, lo_join a b touch, hi_join a b touch, ← or_assoc]
    refine or_congr_left ⟨fun ⟨le, lt⟩ => ?_, ?_⟩
    · exact (lt_or_ge x (hi a)).imp (fun lt' => ⟨le, lt'⟩) fun ge => ⟨touch ▸ ge, lt⟩
    · rintro (⟨le, lt⟩ | ⟨le, lt⟩)
      · exact ⟨le, lt.trans hb⟩
      · exact ⟨(ha.le.trans touch.le).trans le, lt⟩
  | case5 n a b l apart ih =>
    rw [coalesce, if_neg apart]
    ext x
    rw [mem_cover_cons, mem_cover_cons, ih (ordered_cons.1 h).2.2]

omit hi_join in
/-- What a lower bound of the list bounds, it bounds after joining. -/
theorem coalesce_lower (bound : ∀ s ∈ l, x < lo s) : ∀ s ∈ coalesce lo hi join n l, x < lo s := by
  induction n, l using coalesce.induct lo hi join with
  | case1 l => exact bound
  | case2 n => exact bound
  | case3 n a => exact bound
  | case4 n a b l touch ih =>
    rw [coalesce, if_pos touch]
    apply ih
    simp only [List.mem_cons, forall_eq_or_imp, lo_join a b touch] at bound ⊢
    exact ⟨bound.1, bound.2.2⟩
  | case5 n a b l apart ih =>
    rw [coalesce, if_neg apart]
    simp only [List.mem_cons, forall_eq_or_imp] at bound ⊢
    exact ⟨bound.1, ih (by simpa using bound.2)⟩

/-- When the pairs after the first `n` are apart, joining the first `n` pairs
leaves a separated list. -/
theorem coalesce_separated (h : Ordered lo hi l) (rest : Separated lo hi (l.drop n)) :
    Separated lo hi (coalesce lo hi join n l) := by
  induction n, l using coalesce.induct lo hi join with
  | case1 l => exact rest
  | case2 n => exact .nil
  | case3 n a => exact ⟨h.nonempty, by simp [coalesce]⟩
  | case4 n a b l touch ih =>
    have joined := h.joined lo_join hi_join touch
    rw [coalesce, if_pos touch]
    refine ih joined ?_
    cases n with
    | zero =>
      obtain ⟨-, sep, rest⟩ := separated_cons.1 rest
      exact separated_cons.2 ⟨(ordered_cons.1 joined).1, by simpa [hi_join a b touch] using sep, rest⟩
    | succ n => exact rest
  | case5 n a b l apart ih =>
    obtain ⟨ha, first, tail⟩ := ordered_cons.1 h
    obtain ⟨hb, second, -⟩ := ordered_cons.1 tail
    rw [coalesce, if_neg apart]
    refine separated_cons.2 ⟨ha, ?_, ih tail rest⟩
    have gap : hi a < lo b := lt_of_le_of_ne (first b (by simp)) apart
    apply coalesce_lower lo_join
    intro s mem
    rcases List.mem_cons.1 mem with rfl | mem
    · exact gap
    · exact gap.trans (hb.trans_le (second s mem))

end Coalesce

/-! ## Difference of two separated lists -/

section Diff
variable (lo hi) (top : α)

/-- What the intervals `ms` leave outside the intervals `rs`, from `gap` on:
`gap` is the end of the interval before `rs`, and `top` bounds everything. -/
def diff : List ι → α → List ι → List (α × α)
  | [], _, _ => []
  | m :: ms, gap, [] => if hi m ≤ gap then diff ms gap [] else (max (lo m) gap, min (hi m) top) :: diff ms gap []
  | m :: ms, gap, r :: rs =>
    if hi m ≤ gap then diff ms gap (r :: rs)
    else if lo m < lo r then
      if hi m ≤ lo r then (max (lo m) gap, min (hi m) (lo r)) :: diff ms gap (r :: rs)
      else (max (lo m) gap, min (hi m) (lo r)) :: diff (m :: ms) (hi r) rs
    else diff (m :: ms) (hi r) rs
termination_by ms _ rs => ms.length + rs.length

variable {lo hi top} {ms rs : List ι} {m r : ι} {gap : α}

/-- Every report uses up an interval of one of the two lists. -/
theorem diff_length : (diff lo hi top ms gap rs).length ≤ ms.length + rs.length := by
  induction ms, gap, rs using diff.induct lo hi with
  | case1 gap rs => simp [diff]
  | case2 m ms gap le ih => rw [diff, if_pos le]; simp only [List.length_cons] at *; omega
  | case3 m ms gap gt ih => rw [diff, if_neg gt]; simp only [List.length_cons] at *; omega
  | case4 m ms gap r rs le ih => rw [diff, if_pos le]; simp only [List.length_cons] at *; omega
  | case5 m ms gap r rs gt first le ih =>
    rw [diff, if_neg gt, if_pos first, if_pos le]; simp only [List.length_cons] at *; omega
  | case6 m ms gap r rs gt first short ih =>
    rw [diff, if_neg gt, if_pos first, if_neg short]; simp only [List.length_cons] at *; omega
  | case7 m ms gap r rs gt first ih =>
    rw [diff, if_neg gt, if_neg first]; simp only [List.length_cons] at *; omega

/-- No interval of a list sorted from `y` on holds a point below `y`. -/
theorem not_mem_of_lt (bound : ∀ s ∈ l, y ≤ lo s) (lt : x < y) : x ∉ cover lo hi l := by
  rintro ⟨s, mem, le, -⟩
  exact (lt.trans_le ((bound s mem).trans le)).false

/-- Nor does a separated list below its first interval, … -/
theorem Separated.not_mem_before (h : Separated lo hi (s :: l)) (lt : x < lo s) : x ∉ cover lo hi (s :: l) :=
  not_mem_of_lt h.ordered.head_le lt

/-- … nor its rest below the end of the first. -/
theorem Separated.not_mem_rest (h : Separated lo hi (s :: l)) (lt : x < hi s) : x ∉ cover lo hi l := by
  obtain ⟨-, apart, -⟩ := separated_cons.1 h
  exact not_mem_of_lt (fun t mem => (apart t mem).le) lt

/-- **The walk is exact**: it reports the points of `ms` from `gap` on that are
outside `rs`. -/
theorem mem_cover_diff (hm : Separated lo hi ms) (hr : Separated lo hi rs) (bound : ∀ m ∈ ms, hi m ≤ top)
    (below : ∀ r ∈ rs, gap ≤ lo r) : x ∈ cover Prod.fst Prod.snd (diff lo hi top ms gap rs) ↔
      x ∈ cover lo hi ms ∧ gap ≤ x ∧ x ∉ cover lo hi rs := by
  -- the cases are the branches of the walk; each interval is compared with the gap before `rs`
  induction ms, gap, rs using diff.induct lo hi with
  | case1 gap rs => simp [diff]
  | case2 m ms gap le ih =>
    obtain ⟨-, -, hm'⟩ := separated_cons.1 hm
    rw [diff, if_pos le, ih hm' hr (fun m mem => bound m (by simp [mem])) below, mem_cover_cons]
    simp only [mem_cover_nil, not_false_eq_true, and_true]
    refine ⟨fun ⟨mem, ge⟩ => ⟨.inr mem, ge⟩, fun ⟨mem, ge⟩ => ⟨mem.resolve_left fun ⟨_, lt⟩ => ?_, ge⟩⟩
    order
  | case3 m ms gap gt ih =>
    obtain ⟨-, -, hm'⟩ := separated_cons.1 hm
    have hi_le : hi m ≤ top := bound m (by simp)
    rw [diff, if_neg gt, mem_cover_cons, ih hm' hr (fun m mem => bound m (by simp [mem])) below, mem_cover_cons]
    simp only [mem_cover_nil, not_false_eq_true, and_true, max_le_iff, min_eq_left hi_le]
    constructor
    · rintro (⟨⟨le, ge⟩, lt⟩ | ⟨mem, ge⟩)
      · exact ⟨.inl ⟨le, lt⟩, ge⟩
      · exact ⟨.inr mem, ge⟩
    · rintro ⟨⟨le, lt⟩ | mem, ge⟩
      · exact .inl ⟨⟨le, ge⟩, lt⟩
      · exact .inr ⟨mem, ge⟩
  | case4 m ms gap r rs le ih =>
    obtain ⟨-, -, hm'⟩ := separated_cons.1 hm
    rw [diff, if_pos le, ih hm' hr (fun m mem => bound m (by simp [mem])) below, mem_cover_cons (s := m)]
    refine ⟨fun ⟨mem, ge, out⟩ => ⟨.inr mem, ge, out⟩, fun ⟨mem, ge, out⟩ => ⟨?_, ge, out⟩⟩
    exact mem.resolve_left fun ⟨_, lt⟩ => by order
  | case5 m ms gap r rs gt first le ih =>
    obtain ⟨-, -, hm'⟩ := separated_cons.1 hm
    have out : x < hi m → x ∉ cover lo hi (r :: rs) := fun lt => hr.not_mem_before (lt.trans_le le)
    rw [diff, if_neg gt, if_pos first, if_pos le, mem_cover_cons,
      ih hm' hr (fun m mem => bound m (by simp [mem])) below, mem_cover_cons (s := m), max_le_iff, min_eq_left le]
    constructor
    · rintro (⟨⟨le', ge⟩, lt⟩ | ⟨mem, ge, out⟩)
      · exact ⟨.inl ⟨le', lt⟩, ge, out lt⟩
      · exact ⟨.inr mem, ge, out⟩
    · rintro ⟨⟨le', lt⟩ | mem, ge, out⟩
      · exact .inl ⟨⟨le', ge⟩, lt⟩
      · exact .inr ⟨mem, ge, out⟩
  | case6 m ms gap r rs gt first short ih =>
    obtain ⟨hr', apart', rest⟩ := separated_cons.1 hr
    have ge := below r (by simp)
    rw [diff, if_neg gt, if_pos first, if_neg short, mem_cover_cons,
      ih hm rest bound fun s mem => (apart' s mem).le, max_le_iff, min_eq_right (not_le.1 short).le]
    constructor
    · rintro (⟨⟨le', ge'⟩, lt⟩ | ⟨mem, ge', out⟩)
      · exact ⟨mem_cover_cons.2 (.inl ⟨le', by order⟩), ge', hr.not_mem_before lt⟩
      · refine ⟨mem, by order, fun mem' => ?_⟩
        exact (mem_cover_cons.1 mem').elim (fun ⟨_, lt⟩ => by order) out
    · rintro ⟨mem, ge', out⟩
      rw [mem_cover_cons, not_or, not_and, not_lt] at out
      rcases lt_or_ge x (lo r) with lt | ge''
      · refine .inl ⟨⟨?_, ge'⟩, lt⟩
        exact ((mem_cover_cons.1 mem).resolve_right (hm.not_mem_rest (lt.trans (not_le.1 short)))).1
      · exact .inr ⟨mem, out.1 ge'', out.2⟩
  | case7 m ms gap r rs gt first ih =>
    obtain ⟨hr', apart', rest⟩ := separated_cons.1 hr
    have ge := below r (by simp)
    rw [diff, if_neg gt, if_neg first, ih hm rest bound fun s mem => (apart' s mem).le]
    constructor
    · rintro ⟨mem, ge', out⟩
      refine ⟨mem, by order, fun mem' => ?_⟩
      exact (mem_cover_cons.1 mem').elim (fun ⟨_, lt⟩ => by order) out
    · rintro ⟨mem, ge', out⟩
      rw [mem_cover_cons, not_or, not_and, not_lt] at out
      exact ⟨mem, out.1 (le_of_not_gt fun lt => hm.not_mem_before (lt.trans_le (not_lt.1 first)) mem), out.2⟩

/-- Every reported range is non-empty; `fresh` rules out a gap that starts on
the next interval of `rs` while an interval of `ms` reaches into it from below. -/
theorem diff_nonempty (hm : Separated lo hi ms) (hr : Separated lo hi rs) (bound : ∀ m ∈ ms, hi m ≤ top)
    (fresh : ∀ m ∈ ms, ∀ r ∈ rs, gap ≤ lo m ∨ gap < lo r) :
    ∀ p ∈ diff lo hi top ms gap rs, p.1 < p.2 := by
  induction ms, gap, rs using diff.induct lo hi with
  | case1 gap rs => simp [diff]
  | case2 m ms gap le ih =>
    rw [diff, if_pos le]
    exact ih (separated_cons.1 hm).2.2 hr (fun m mem => bound m (by simp [mem])) (by simp)
  | case3 m ms gap gt ih =>
    obtain ⟨ne, -, hm'⟩ := separated_cons.1 hm
    have hi_le : hi m ≤ top := bound m (by simp)
    rw [diff, if_neg gt, List.forall_mem_cons]
    refine ⟨?_, ih hm' hr (fun m mem => bound m (by simp [mem])) (by simp)⟩
    simp only [min_eq_left hi_le, max_lt_iff]
    exact ⟨ne, not_le.1 gt⟩
  | case4 m ms gap r rs le ih =>
    rw [diff, if_pos le]
    exact ih (separated_cons.1 hm).2.2 hr (fun m mem => bound m (by simp [mem]))
      fun m mem => fresh m (by simp [mem])
  | case5 m ms gap r rs gt first le ih =>
    obtain ⟨ne, -, hm'⟩ := separated_cons.1 hm
    rw [diff, if_neg gt, if_pos first, if_pos le, List.forall_mem_cons]
    refine ⟨?_, ih hm' hr (fun m mem => bound m (by simp [mem])) fun m mem => fresh m (by simp [mem])⟩
    simp only [min_eq_left le, max_lt_iff]
    exact ⟨ne, not_le.1 gt⟩
  | case6 m ms gap r rs gt first short ih =>
    obtain ⟨-, apart', rest⟩ := separated_cons.1 hr
    rw [diff, if_neg gt, if_pos first, if_neg short, List.forall_mem_cons]
    refine ⟨?_, ih hm rest bound fun m _ s mem => .inr (apart' s mem)⟩
    simp only [min_eq_right (not_le.1 short).le, max_lt_iff]
    exact ⟨first, (fresh m (by simp) r (by simp)).elim (fun le => le.trans_lt first) id⟩
  | case7 m ms gap r rs gt first ih =>
    obtain ⟨-, apart', rest⟩ := separated_cons.1 hr
    rw [diff, if_neg gt, if_neg first]
    exact ih hm rest bound fun m _ s mem => .inr (apart' s mem)

/-- The reported ranges are in order and never touch. -/
theorem diff_separated (hm : Separated lo hi ms) (hr : Separated lo hi rs) (bound : ∀ m ∈ ms, hi m ≤ top)
    (below : ∀ r ∈ rs, gap ≤ lo r) (fresh : ∀ m ∈ ms, ∀ r ∈ rs, gap ≤ lo m ∨ gap < lo r) :
    Separated Prod.fst Prod.snd (diff lo hi top ms gap rs) := by
  refine ⟨diff_nonempty hm hr bound fresh, ?_⟩
  -- a later range starts at a point of a later interval of `ms`, or past an interval of `rs`
  have starts : ∀ {ms gap rs}, Separated lo hi ms → Separated lo hi rs → (∀ m ∈ ms, hi m ≤ top) →
      (∀ r ∈ rs, gap ≤ lo r) → (∀ m ∈ ms, ∀ r ∈ rs, gap ≤ lo m ∨ gap < lo r) →
      ∀ p ∈ diff lo hi top ms gap rs, p.1 ∈ cover lo hi ms ∧ gap ≤ p.1 :=
    fun hm hr bound below fresh p mem => by
      have ⟨inside, ge, _⟩ := (mem_cover_diff hm hr bound below).1
        ⟨p, mem, le_rfl, diff_nonempty hm hr bound fresh p mem⟩
      exact ⟨inside, ge⟩
  induction ms, gap, rs using diff.induct lo hi with
  | case1 gap rs => simp [diff]
  | case2 m ms gap le ih =>
    rw [diff, if_pos le]
    exact ih (separated_cons.1 hm).2.2 hr (fun m mem => bound m (by simp [mem])) below (by simp)
  | case3 m ms gap gt ih =>
    obtain ⟨ne, apart, hm'⟩ := separated_cons.1 hm
    have hi_le : hi m ≤ top := bound m (by simp)
    have bound' : ∀ m ∈ ms, hi m ≤ top := fun m mem => bound m (by simp [mem])
    rw [diff, if_neg gt, List.pairwise_cons]
    refine ⟨fun p mem => ?_, ih hm' hr bound' below (by simp)⟩
    obtain ⟨⟨s, hs, le, -⟩, -⟩ := starts hm' hr bound' below (by simp) p mem
    exact (min_le_left _ _).trans_lt ((apart s hs).trans_le le)
  | case4 m ms gap r rs le ih =>
    rw [diff, if_pos le]
    exact ih (separated_cons.1 hm).2.2 hr (fun m mem => bound m (by simp [mem])) below
      fun m mem => fresh m (by simp [mem])
  | case5 m ms gap r rs gt first le ih =>
    obtain ⟨ne, apart, hm'⟩ := separated_cons.1 hm
    have bound' : ∀ m ∈ ms, hi m ≤ top := fun m mem => bound m (by simp [mem])
    have fresh' : ∀ m ∈ ms, ∀ r' ∈ r :: rs, gap ≤ lo m ∨ gap < lo r' := fun m mem => fresh m (by simp [mem])
    rw [diff, if_neg gt, if_pos first, if_pos le, List.pairwise_cons]
    refine ⟨fun p mem => ?_, ih hm' hr bound' below fresh'⟩
    obtain ⟨⟨s, hs, le, -⟩, -⟩ := starts hm' hr bound' below fresh' p mem
    exact (min_le_left _ _).trans_lt ((apart s hs).trans_le le)
  | case6 m ms gap r rs gt first short ih =>
    obtain ⟨hr', apart', rest⟩ := separated_cons.1 hr
    have below' : ∀ s ∈ rs, hi r ≤ lo s := fun s mem => (apart' s mem).le
    have fresh' : ∀ t ∈ m :: ms, ∀ s ∈ rs, hi r ≤ lo t ∨ hi r < lo s := fun t _ s mem => .inr (apart' s mem)
    rw [diff, if_neg gt, if_pos first, if_neg short, List.pairwise_cons]
    refine ⟨fun p mem => ?_, ih hm rest bound below' fresh'⟩
    exact (min_le_right _ _).trans_lt (hr'.trans_le (starts hm rest bound below' fresh' p mem).2)
  | case7 m ms gap r rs gt first ih =>
    obtain ⟨-, apart', rest⟩ := separated_cons.1 hr
    rw [diff, if_neg gt, if_neg first]
    exact ih hm rest bound (fun s mem => (apart' s mem).le) fun m _ s mem => .inr (apart' s mem)

end Diff

end

end Spans
