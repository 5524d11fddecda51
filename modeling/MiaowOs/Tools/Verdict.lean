import MiaowOs.Tools.Gate
import Mathlib.Computability.Language

/-!
# The verdict of the gate

What a register and the links of a suite have to be, said without the checks: the
functions that read them accept exactly these, and return what they say. From this
follows when `check` exits with 0, whatever it finds and whatever is raised on the way.
-/

namespace MiaowOs
namespace Check
open Computability

/-! ## Registers -/

/-- The words of one character. -/
def oneOf (p : Char → Bool) : Language Char := {l | ∃ c, p c = true ∧ l = [c]}

/-- `REQ-[A-Z][A-Z0-9]*-[0-9]{3}`. -/
def requirementIds : Language Char :=
  {['R', 'E', 'Q', '-']} * (oneOf isUpper * ((oneOf fun c => isUpper c || isDigit c)∗ * ({['-']} * oneOf isDigit ^ 3)))

/-- Not only white space. -/
def Nonblank (s : String) : Prop := ∃ c ∈ s.toList, isSpace c = false

/-- `==` of dictionaries: the order of the entries does not matter. -/
def SameDict {α : Type} (a b : Dict α) : Prop := ∀ key, a.lookup key = b.lookup key

def Status.name : Status → String
  | .planned => "planned"
  | .implemented => "implemented"
  | .retired => "retired"

/-- The row of a requirement. -/
def rowOf (entry : String × Requirement) : Dict PyValue :=
  [("id", .str entry.1), ("title", .str entry.2.title), ("statement", .str entry.2.statement),
    ("status", .str entry.2.status.name), ("acceptance", .list (entry.2.acceptance.map .str))]

def registerOf (rows : List PyValue) : Dict PyValue := [("schema_version", .int 1), ("requirements", .list rows)]

/-- The value is the row of the requirement. -/
def IsRow (value : PyValue) (entry : String × Requirement) : Prop :=
  ∃ entries, value = .dict entries ∧ SameDict entries (rowOf entry)

structure WellFormed (entry : String × Requirement) : Prop where
  id : entry.1.toList ∈ requirementIds
  title : Nonblank entry.2.title
  statement : Nonblank entry.2.statement
  acceptance : entry.2.acceptance ≠ []
  texts : ∀ text ∈ entry.2.acceptance, Nonblank text

/-- The data are a register of these requirements. -/
structure IsRegister (data : PyValue) (requirements : Dict Requirement) : Prop where
  rows : ∃ entries rows, data = .dict entries ∧ SameDict entries (registerOf rows) ∧ List.Forall₂ IsRow rows requirements
  wellFormed : ∀ entry ∈ requirements, WellFormed entry
  distinct : (requirements.map Prod.fst).Nodup
  some_ : requirements ≠ []

/-! ## What the checks of a row mean -/

theorem isNumber_iff {l : List Char} :
    isNumber l = true ↔ ∃ a b c, l = ['-', a, b, c] ∧ isDigit a = true ∧ isDigit b = true ∧ isDigit c = true := by
  constructor
  · intro number
    unfold isNumber at number
    split at number
    · next a b c =>
      rw [Bool.and_eq_true, Bool.and_eq_true] at number
      exact ⟨a, b, c, rfl, number.1.1, number.1.2, number.2⟩
    · cases number
  · rintro ⟨a, b, c, rfl, ha, hb, hc⟩
    show (isDigit a && isDigit b && isDigit c) = true
    rw [ha, hb, hc]
    rfl

/-- `-[0-9]{3}`, as a language. -/
theorem mem_number_iff {l : List Char} : l ∈ ({['-']} * oneOf isDigit ^ 3 : Language Char) ↔ isNumber l = true := by
  have digits : ∀ l : List Char, l ∈ oneOf isDigit ^ 3 ↔
      ∃ a b c, l = [a, b, c] ∧ isDigit a = true ∧ isDigit b = true ∧ isDigit c = true := by
    intro l
    rw [pow_succ, pow_two, Language.mem_mul]
    simp only [Language.mem_mul]
    constructor
    · rintro ⟨_, ⟨_, ⟨a, ha, rfl⟩, _, ⟨b, hb, rfl⟩, rfl⟩, _, ⟨c, hc, rfl⟩, rfl⟩
      exact ⟨a, b, c, rfl, ha, hb, hc⟩
    · rintro ⟨a, b, c, rfl, ha, hb, hc⟩
      exact ⟨[a, b], ⟨[a], ⟨a, ha, rfl⟩, [b], ⟨b, hb, rfl⟩, rfl⟩, [c], ⟨c, hc, rfl⟩, rfl⟩
  rw [Language.mem_mul, isNumber_iff]
  constructor
  · rintro ⟨_, rfl, rest, mem, rfl⟩
    obtain ⟨a, b, c, rfl, ha, hb, hc⟩ := (digits rest).1 mem
    exact ⟨a, b, c, rfl, ha, hb, hc⟩
  · rintro ⟨a, b, c, rfl, ha, hb, hc⟩
    exact ⟨['-'], rfl, [a, b, c], (digits _).2 ⟨a, b, c, rfl, ha, hb, hc⟩, rfl⟩

/-- Repeated characters of a class. -/
theorem mem_kstar_oneOf {p : Char → Bool} {l : List Char} : l ∈ (oneOf p)∗ ↔ ∀ c ∈ l, p c = true := by
  rw [Language.mem_kstar]
  constructor
  · rintro ⟨L, rfl, words⟩ c mem
    obtain ⟨word, here, mem⟩ := List.mem_flatten.1 mem
    obtain ⟨d, holds, rfl⟩ := words word here
    obtain rfl := List.mem_singleton.1 mem
    exact holds
  · intro all
    refine ⟨l.map fun c => [c], ?_, fun word mem => ?_⟩
    · induction l with
      | nil => rfl
      | cons c l ih =>
        rw [List.map_cons, List.flatten_cons, ← ih fun d mem => all d (List.mem_cons_of_mem _ mem)]
        rfl
    · obtain ⟨c, inside, rfl⟩ := List.mem_map.1 mem
      exact ⟨c, all c inside, rfl⟩

/-- The longest run of capitals and digits ends at the hyphen. -/
theorem mem_area_iff {l : List Char} :
    l ∈ ((oneOf fun c => isUpper c || isDigit c)∗ * ({['-']} * oneOf isDigit ^ 3) : Language Char) ↔
      isNumber (l.dropWhile fun c => isUpper c || isDigit c) = true := by
  rw [Language.mem_mul]
  constructor
  · rintro ⟨area, inside, number, mem, rfl⟩
    have isNum := mem_number_iff.1 mem
    rw [List.dropWhile_append_of_pos (mem_kstar_oneOf.1 inside)]
    obtain ⟨a, b, c, rfl, -, -, -⟩ := isNumber_iff.1 isNum
    exact isNum
  · intro isNum
    refine ⟨l.takeWhile fun c => isUpper c || isDigit c, mem_kstar_oneOf.2 fun c mem => ?_, _, mem_number_iff.2 isNum, ?_⟩
    · exact List.all_eq_true.1 List.all_takeWhile c mem
    · exact List.takeWhile_append_dropWhile

/-- `REQUIREMENT_ID.fullmatch` matches the pattern. -/
theorem isRequirementId_iff {s : String} : isRequirementId s = true ↔ s.toList ∈ requirementIds := by
  unfold requirementIds isRequirementId
  rw [Language.mem_mul]
  generalize s.toList = l
  constructor
  · intro matched
    split at matched
    · next c rest =>
      rw [Bool.and_eq_true] at matched
      refine ⟨_, rfl, c :: rest, Language.mem_mul.2 ⟨[c], ⟨c, matched.1, rfl⟩, rest, ?_, rfl⟩, rfl⟩
      exact mem_area_iff.2 matched.2
    · cases matched
  · rintro ⟨_, rfl, _, tail, rfl⟩
    obtain ⟨_, ⟨c, upper, rfl⟩, rest, area, rfl⟩ := Language.mem_mul.1 tail
    show (isUpper c && isNumber (rest.dropWhile fun c => isUpper c || isDigit c)) = true
    rw [upper, mem_area_iff.1 area]
    rfl

theorem nonblank_iff {s : String} : nonblank (.str s) = true ↔ Nonblank s := by
  show (s.toList.any fun c => !isSpace c) = true ↔ Nonblank s
  simp only [List.any_eq_true, Bool.not_eq_true', Nonblank]

theorem nonblank_str {value : PyValue} (holds : nonblank value = true) : ∃ s, value = .str s ∧ Nonblank s := by
  cases value with
  | str s => exact ⟨s, rfl, nonblank_iff.1 holds⟩
  | _ => cases holds

theorem requirementId_iff {value : PyValue} {identifier : String} :
    requirementId value = some identifier ↔ value = .str identifier ∧ identifier.toList ∈ requirementIds := by
  cases value with
  | str s =>
    show (if isRequirementId s then some s else none) = some identifier ↔ _
    rw [PyValue.str.injEq, ← isRequirementId_iff]
    constructor
    · intro found
      split at found
      · next matched =>
        obtain rfl := Option.some_inj.1 found
        exact ⟨rfl, matched⟩
      · cases found
    · rintro ⟨rfl, matched⟩
      exact if_pos matched
  | _ => exact iff_of_false (fun found => by cases found) fun both => by cases both.1

theorem status_iff {value : PyValue} {status : Status} :
    Status.ofValue value = some status ↔ value = .str status.name := by
  constructor
  · intro found
    unfold Status.ofValue at found
    split at found
    · obtain rfl := Option.some_inj.1 found
      rfl
    · obtain rfl := Option.some_inj.1 found
      rfl
    · obtain rfl := Option.some_inj.1 found
      rfl
    · cases found
  · rintro rfl
    cases status <;> rfl

/-- Values that are all nonblank are the strings of their texts. -/
theorem map_text {values : List PyValue} (all : ∀ value ∈ values, nonblank value = true) :
    values = (values.map PyValue.text).map .str ∧ ∀ text ∈ values.map PyValue.text, Nonblank text := by
  induction values with
  | nil => exact ⟨rfl, fun _ none => absurd none List.not_mem_nil⟩
  | cons value values ih =>
    obtain ⟨s, rfl, holds⟩ := nonblank_str (all value List.mem_cons_self)
    obtain ⟨same, texts⟩ := ih fun v mem => all v (List.mem_cons_of_mem _ mem)
    refine ⟨?_, List.forall_mem_cons.2 ⟨holds, texts⟩⟩
    rw [List.map_cons, List.map_cons, ← same]
    rfl

theorem acceptance_iff {value : PyValue} {texts : List String} : acceptanceOf value = some texts ↔
    value = .list (texts.map .str) ∧ texts ≠ [] ∧ ∀ text ∈ texts, Nonblank text := by
  constructor
  · intro found
    unfold acceptanceOf at found
    split at found
    · next item items =>
      split at found
      · next all =>
        obtain rfl := Option.some_inj.1 found
        obtain ⟨same, holds⟩ := map_text (List.all_eq_true.1 all)
        exact ⟨congrArg PyValue.list same, List.cons_ne_nil _ _, holds⟩
      · cases found
    · cases found
  · rintro ⟨rfl, some_, holds⟩
    obtain ⟨text, rest, rfl⟩ := List.exists_cons_of_ne_nil some_
    have all : ((text :: rest).map PyValue.str).all nonblank = true := by
      rw [List.all_map, List.all_eq_true]
      exact fun s mem => nonblank_iff.2 (holds s mem)
    have back : ((text :: rest).map PyValue.str).map PyValue.text = text :: rest := by
      rw [List.map_map]
      exact List.map_id _
    exact (if_pos all).trans (congrArg some back)

/-! ## Dictionaries -/

theorem hasFields_iff {entries : Dict PyValue} {fields : List String} :
    hasFields entries fields = true ↔ ∀ key, key ∈ entries.map Prod.fst ↔ key ∈ fields := by
  unfold hasFields
  simp only [Bool.and_eq_true, List.all_eq_true, decide_eq_true_eq]
  constructor
  · intro both key
    refine ⟨fun mem => ?_, both.2 key⟩
    obtain ⟨entry, here, rfl⟩ := List.mem_map.1 mem
    exact both.1 entry here
  · intro same
    exact ⟨fun entry mem => (same entry.1).1 (List.mem_map_of_mem mem), fun field mem => (same field).2 mem⟩

theorem lookup_isSome_iff_mem {α : Type} {entries : Dict α} {key : String} :
    (entries.lookup key).isSome = true ↔ key ∈ entries.map Prod.fst := by
  rw [List.lookup_isSome_iff, List.mem_map]
  simp only [beq_iff_eq]
  constructor
  · rintro ⟨entry, mem, rfl⟩
    exact ⟨entry, mem, rfl⟩
  · rintro ⟨entry, mem, rfl⟩
    exact ⟨entry, mem, rfl⟩

theorem lookup_of_mem {α : Type} {dict : Dict α} {entry : String × α} (nodup : (dict.map Prod.fst).Nodup)
    (mem : entry ∈ dict) : dict.lookup entry.1 = some entry.2 := by
  induction dict with
  | nil => cases mem
  | cons first dict ih =>
    obtain ⟨fresh, nodup⟩ := List.nodup_cons.1 nodup
    rcases List.mem_cons.1 mem with rfl | mem
    · exact List.lookup_cons_self
    · have other : ¬ entry.1 = first.1 := fun same => fresh (same ▸ List.mem_map_of_mem mem)
      rw [List.lookup_cons, beq_eq_false_iff_ne.2 other]
      exact ih nodup mem

/-- A dictionary is checked by its fields, then by the value of each. -/
theorem sameDict_iff {entries dict : Dict PyValue} (nodup : (dict.map Prod.fst).Nodup) : SameDict entries dict ↔
    hasFields entries (dict.map Prod.fst) = true ∧ ∀ entry ∈ dict, PyValue.get entries entry.1 = entry.2 := by
  rw [hasFields_iff]
  constructor
  · intro same
    refine ⟨fun key => ?_, fun entry mem => ?_⟩
    · rw [← lookup_isSome_iff_mem, same key, lookup_isSome_iff_mem]
    · rw [PyValue.get, same, lookup_of_mem nodup mem]
      rfl
  · rintro ⟨keys, values⟩ key
    by_cases known : key ∈ dict.map Prod.fst
    · obtain ⟨entry, mem, rfl⟩ := List.mem_map.1 known
      obtain ⟨value, found⟩ := Option.isSome_iff_exists.1 (lookup_isSome_iff_mem.2 ((keys entry.1).2 known))
      have same := values entry mem
      rw [PyValue.get, found] at same
      rw [lookup_of_mem nodup mem, found]
      exact congrArg some same
    · have unknown := mt (keys key).1 known
      rw [← lookup_isSome_iff_mem, Option.not_isSome_iff_eq_none] at known unknown
      rw [known, unknown]

/-! ## What is accepted -/

section
variable {repr : PyValue → String} {requirements requirements' : Dict Requirement} {entry : String × Requirement}
  {links links' : Links} {suite : List Item}

theorem isRow_iff {entries : Dict PyValue} : IsRow (.dict entries) entry ↔
    hasFields entries ["id", "title", "statement", "status", "acceptance"] = true ∧
      PyValue.get entries "id" = .str entry.1 ∧ PyValue.get entries "title" = .str entry.2.title ∧
      PyValue.get entries "statement" = .str entry.2.statement ∧
      PyValue.get entries "status" = .str entry.2.status.name ∧
      PyValue.get entries "acceptance" = .list (entry.2.acceptance.map .str) := by
  have keys : ((rowOf entry).map Prod.fst).Nodup := by
    show ["id", "title", "statement", "status", "acceptance"].Nodup
    decide
  have same : IsRow (.dict entries) entry ↔ SameDict entries (rowOf entry) := by
    constructor
    · rintro ⟨entries', eq, same⟩
      cases eq
      exact same
    · exact fun same => ⟨entries, rfl, same⟩
  rw [same, sameDict_iff keys]
  simp only [rowOf, List.forall_mem_cons, List.not_mem_nil, false_imp_iff, implies_true, and_true, List.map_cons,
    List.map_nil]

/-- **One row**: the body of the loop accepts the rows of well-formed requirements with
new identifiers. -/
theorem validateRow_iff {value : PyValue} : validateRow repr requirements value = .ok entry ↔
    IsRow value entry ∧ WellFormed entry ∧ entry.1 ∉ requirements.map Prod.fst := by
  obtain ⟨identifier, title, statement, status, acceptance⟩ := entry
  constructor
  · intro run
    have fresh := validateRow_fresh run
    unfold validateRow at run
    split at run
    · next row =>
      dsimp only at run
      split at run
      · next fields =>
        split at run
        · next found =>
          split at run
          · cases run
          split at run
          · next texts =>
            split at run
            · next state =>
              split at run
              · next items =>
                cases run
                rw [Bool.and_eq_true] at texts
                obtain ⟨t, isTitle, titled⟩ := nonblank_str texts.1
                obtain ⟨s, isStatement, stated⟩ := nonblank_str texts.2
                obtain ⟨isId, matched⟩ := requirementId_iff.1 found
                obtain ⟨isList, some_, all⟩ := acceptance_iff.1 items
                rw [isTitle, isStatement]
                exact ⟨isRow_iff.2 ⟨fields, isId, isTitle, isStatement, status_iff.1 state, isList⟩,
                  ⟨matched, titled, stated, some_, all⟩, fresh⟩
              · cases run
            · cases run
          · cases run
        · cases run
      · cases run
    · cases run
  · rintro ⟨⟨entries, rfl, same⟩, wellFormed, fresh⟩
    obtain ⟨fields, isId, isTitle, isStatement, isStatus, isList⟩ := isRow_iff.1 ⟨entries, rfl, same⟩
    dsimp only at isId isTitle isStatement isStatus isList
    have texts : (nonblank (.str title) && nonblank (.str statement)) = true := by
      rw [nonblank_iff.2 wellFormed.title, nonblank_iff.2 wellFormed.statement]
      rfl
    have found := requirementId_iff.2 ⟨rfl, wellFormed.id⟩
    have items := acceptance_iff.2 ⟨rfl, wellFormed.acceptance, wellFormed.texts⟩
    dsimp only at fresh found items
    unfold validateRow
    dsimp only
    rw [isId, isTitle, isStatement, isStatus, isList, fields, found, items, status_iff.2 rfl, texts]
    simp only [if_pos, if_neg fresh]
    rfl

/-- A dictionary that grows by one entry after the other. -/
theorem append_cons {α : Type} {dict : Dict α} {entry : String × α} {rest : Dict α} :
    (dict ++ [entry]) ++ rest = dict ++ entry :: rest := by
  rw [List.append_assoc, List.singleton_append]

theorem fresh_of_nodup {α : Type} {dict : Dict α} {entry : String × α} {rest : Dict α}
    (nodup : ((dict ++ entry :: rest).map Prod.fst).Nodup) : entry.1 ∉ dict.map Prod.fst := by
  rw [List.map_append, List.nodup_append] at nodup
  exact fun known => nodup.2.2 _ known _ (List.mem_map_of_mem List.mem_cons_self) rfl

/-- All rows, one after the other. -/
theorem validateRows_iff {values : List PyValue} (nodup : (requirements.map Prod.fst).Nodup) :
    validateRows repr values requirements = .ok requirements' ↔
      ∃ rows, requirements' = requirements ++ rows ∧ List.Forall₂ IsRow values rows ∧
        (∀ entry ∈ rows, WellFormed entry) ∧ ((requirements ++ rows).map Prod.fst).Nodup := by
  induction values generalizing requirements with
  | nil =>
    constructor
    · intro run
      obtain rfl := Except.ok.inj run
      refine ⟨[], (List.append_nil _).symm, .nil, fun _ none => absurd none List.not_mem_nil, ?_⟩
      rwa [List.append_nil]
    · rintro ⟨rows, rfl, written, -, -⟩
      obtain rfl := List.forall₂_nil_left_iff.1 written
      rw [List.append_nil]
      rfl
  | cons value values ih =>
    constructor
    · intro run
      obtain ⟨entry, first, rest⟩ := ok_of_bind run
      obtain ⟨isRow, wellFormed, fresh⟩ := validateRow_iff.1 first
      obtain ⟨rows, rfl, written, all, distinct⟩ := (ih (nodup_keys_append nodup fresh)).1 rest
      exact ⟨entry :: rows, append_cons, .cons isRow written, List.forall_mem_cons.2 ⟨wellFormed, all⟩,
        by rwa [← append_cons]⟩
    · rintro ⟨rows, rfl, written, all, distinct⟩
      obtain ⟨entry, rows', isRow, later, rfl⟩ := List.forall₂_cons_left_iff.1 written
      obtain ⟨wellFormed, all⟩ := List.forall_mem_cons.1 all
      have fresh := fresh_of_nodup distinct
      have rest := (ih (nodup_keys_append nodup fresh)).2
        ⟨rows', append_cons.symm, later, all, by rwa [append_cons]⟩
      show (validateRow repr requirements value >>= _) = _
      rw [validateRow_iff.2 ⟨isRow, wellFormed, fresh⟩]
      exact rest

theorem isVersionOne_iff {value : PyValue} : isVersionOne value = true ↔ value = .int 1 := by
  cases value with
  | int k =>
    rw [PyValue.int.injEq]
    exact beq_iff_eq
  | _ => exact iff_of_false (fun holds => by cases holds) fun same => by cases same

/-- The entries of a register. -/
theorem registerOf_iff {entries : Dict PyValue} {rows : List PyValue} : SameDict entries (registerOf rows) ↔
    hasFields entries ["schema_version", "requirements"] = true ∧ PyValue.get entries "schema_version" = .int 1 ∧
      PyValue.get entries "requirements" = .list rows := by
  have keys : ((registerOf rows).map Prod.fst).Nodup := by
    show ["schema_version", "requirements"].Nodup
    decide
  rw [sameDict_iff keys]
  simp only [registerOf, List.forall_mem_cons, List.not_mem_nil, false_imp_iff, implies_true, and_true, List.map_cons,
    List.map_nil]

/-- **`validate_register` accepts the registers**, and returns their requirements. -/
theorem validateRegister_iff {data : PyValue} :
    validateRegister repr data = .ok requirements ↔ IsRegister data requirements := by
  have start : (([] : Dict Requirement).map Prod.fst).Nodup := List.nodup_nil
  constructor
  · intro run
    unfold validateRegister at run
    split at run
    · next entries =>
      dsimp only at run
      split at run
      · next fields =>
        split at run
        · next version =>
          split at run
          · next row rows isList =>
            obtain ⟨requirements', rfl, written, all, distinct⟩ := (validateRows_iff start).1 run
            refine ⟨⟨entries, row :: rows, rfl, ?_, written⟩, all, distinct, fun none => ?_⟩
            · exact registerOf_iff.2 ⟨fields, isVersionOne_iff.1 version, isList⟩
            · rw [none] at written
              cases written
          · cases run
        · cases run
      · cases run
    · cases run
  · rintro ⟨⟨entries, rows, rfl, same, written⟩, all, distinct, some_⟩
    obtain ⟨fields, version, isList⟩ := registerOf_iff.1 same
    have run := (@validateRows_iff repr [] requirements rows start).2 ⟨requirements, rfl, written, all, distinct⟩
    cases written with
    | nil => exact absurd rfl some_
    | @cons row entry rows requirements isRow written =>
      unfold validateRegister
      dsimp only
      rw [version, isList, fields]
      exact run

/-! ## Links -/

/-- The link of a test. -/
structure IsLink (requirements : Dict Requirement) (test : TestCase) (link : String × List String) : Prop where
  id : link.1 = test.id
  references : test.requirementIds = .tuple (link.2.map .str)
  some_ : link.2 ≠ []
  distinct : link.2.Nodup
  known : ∀ reference ∈ link.2, ∃ row, requirements.lookup reference = some row ∧ row.status ≠ .retired

/-- The links of a suite. -/
structure AreLinks (requirements : Dict Requirement) (suite : List Item) (links : Links) : Prop where
  tests : List.Forall₂ (IsLink requirements) (testCases suite) links
  distinct : (links.map Prod.fst).Nodup
  some_ : links ≠ []
  covered : ∀ entry ∈ requirements, entry.2.status = .implemented → ∃ link ∈ links, entry.1 ∈ link.2

theorem validateReferences_iff {identifier : String} {values : List PyValue} {references : List String} :
    validateReferences repr requirements identifier values = .ok references ↔
      values = references.map .str ∧
        ∀ reference ∈ references, ∃ row, requirements.lookup reference = some row ∧ row.status ≠ .retired := by
  induction values generalizing references with
  | nil =>
    constructor
    · intro run
      obtain rfl := Except.ok.inj run
      exact ⟨rfl, fun _ none => absurd none List.not_mem_nil⟩
    · rintro ⟨same, -⟩
      obtain rfl := List.map_eq_nil_iff.1 same.symm
      rfl
  | cons value values ih =>
    constructor
    · intro run
      unfold validateReferences at run
      split at run
      · next eq => cases eq
      · next reference rest eq =>
        obtain ⟨rfl, rfl⟩ := List.cons.inj eq
        dsimp only at run
        split at run
        · next row found =>
          split at run
          · cases run
          · next current =>
            obtain ⟨references', later, run⟩ := ok_of_bind run
            obtain rfl := Except.ok.inj run
            obtain ⟨rfl, known⟩ := ih.1 later
            exact ⟨rfl, List.forall_mem_cons.2 ⟨⟨row, found, current⟩, known⟩⟩
        · cases run
      · cases run
    · rintro ⟨same, known⟩
      obtain ⟨reference, references', rfl, rfl, rfl⟩ := List.map_eq_cons_iff.1 same.symm
      obtain ⟨⟨row, found, current⟩, known⟩ := List.forall_mem_cons.1 known
      unfold validateReferences
      dsimp only
      rw [found, ih.2 ⟨rfl, known⟩]
      exact if_neg current

/-- All tests, one after the other. -/
theorem linkTests_iff {tests : List TestCase} (nodup : (links.map Prod.fst).Nodup) :
    linkTests repr requirements tests links = .ok links' ↔
      ∃ new, links' = links ++ new ∧ List.Forall₂ (IsLink requirements) tests new ∧
        ((links ++ new).map Prod.fst).Nodup := by
  induction tests generalizing links with
  | nil =>
    constructor
    · intro run
      obtain rfl := Except.ok.inj run
      refine ⟨[], (List.append_nil _).symm, .nil, ?_⟩
      rwa [List.append_nil]
    · rintro ⟨new, rfl, linked, -⟩
      obtain rfl := List.forall₂_nil_left_iff.1 linked
      rw [List.append_nil]
      rfl
  | cons test tests ih =>
    constructor
    · intro run
      unfold linkTests at run
      dsimp only at run
      split at run
      · cases run
      · next fresh =>
        split at run
        · next values found =>
          obtain ⟨references, checked, run⟩ := ok_of_bind run
          split at run
          · next distinct =>
            obtain ⟨same, known⟩ := validateReferences_iff.1 checked
            obtain ⟨new, rfl, linked, keys⟩ := (ih (nodup_keys_append nodup fresh)).1 run
            have isLink : IsLink requirements test (test.id, references) := by
              unfold referencesOf at found
              split at found
              · next first rest isTuple =>
                obtain rfl := Option.some_inj.1 found
                refine ⟨rfl, isTuple.trans (congrArg PyValue.tuple same), fun none => ?_, distinct, known⟩
                rw [show references = [] from none] at same
                cases same
              · cases found
            exact ⟨(test.id, references) :: new, append_cons, .cons isLink linked, by rwa [← append_cons]⟩
          · cases run
        · cases run
    · rintro ⟨new, rfl, linked, keys⟩
      obtain ⟨link, new', isLink, later, rfl⟩ := List.forall₂_cons_left_iff.1 linked
      have fresh := fresh_of_nodup keys
      have rest := (ih (nodup_keys_append nodup fresh)).2 ⟨new', append_cons.symm, later, by rwa [append_cons]⟩
      obtain ⟨identifier, references⟩ := link
      obtain ⟨rfl, isTuple, some_, distinct, known⟩ := isLink
      have found : referencesOf test.requirementIds = some (references.map .str) := by
        rw [isTuple]
        obtain ⟨reference, references', rfl⟩ := List.exists_cons_of_ne_nil some_
        rfl
      unfold linkTests
      dsimp only
      rw [if_neg fresh, found]
      dsimp only
      rw [validateReferences_iff.2 ⟨rfl, known⟩]
      exact (if_pos distinct).trans rest

theorem missingLinks_iff : missingLinks requirements links = [] ↔
    ∀ entry ∈ requirements, entry.2.status = .implemented → ∃ link ∈ links, entry.1 ∈ link.2 := by
  unfold missingLinks
  rw [List.map_eq_nil_iff, List.filter_eq_nil_iff]
  simp only [decide_eq_true_eq, not_and, not_not, List.mem_flatMap]

/-- **`validate_links` accepts the suites that are linked**, and returns their links. -/
theorem validateLinks_iff : validateLinks repr requirements suite = .ok links ↔ AreLinks requirements suite links := by
  have start : (([] : Links).map Prod.fst).Nodup := List.nodup_nil
  constructor
  · intro run
    unfold validateLinks at run
    obtain ⟨links', linked, run⟩ := ok_of_bind run
    dsimp only at run
    split at run
    · cases run
    · next some_ =>
      split at run
      · next complete =>
        obtain rfl := Except.ok.inj run
        obtain ⟨new, rfl, tests, distinct⟩ := (linkTests_iff start).1 linked
        exact ⟨tests, distinct, fun none => some_ (List.isEmpty_iff.2 none),
          missingLinks_iff.1 (List.isEmpty_iff.1 complete)⟩
      · cases run
  · rintro ⟨tests, distinct, some_, covered⟩
    have linked := (@linkTests_iff repr requirements [] links _ start).2 ⟨links, rfl, tests, distinct⟩
    unfold validateLinks
    rw [linked]
    show (if links.isEmpty = true then _ else _) = _
    rw [if_neg fun none => some_ (List.isEmpty_iff.1 none)]
    exact if_pos (List.isEmpty_iff.2 (missingLinks_iff.2 covered))

end

/-! ## `check` -/

/-- An exception: the name of its class, and its `str`. -/
structure Raised where
  type : String
  text : String

/-- What `check` finds: the register as `tomllib` reads it, the suite and the errors of
its discovery, the calls that the run of the suite makes, and the exception that ends
the run, if one does. -/
structure Found where
  register : Except Raised PyValue
  discovery : Except Raised (List Item × List String)
  events : List Event
  interrupt : Option Raised

def valueError (text : String) : Raised := ⟨"ValueError", text⟩

def RequirementOutcome.name : RequirementOutcome → String
  | .pending => "pending"
  | .retired => "retired"
  | .failed => "failed"
  | .passed => "passed"
  | .incomplete => "incomplete"

section
variable (repr : PyValue → String) (found : Found)

/-- `load_requirements`. -/
def loadRequirements : Except Raised (Dict Requirement) := do
  let data ← found.register
  (validateRegister repr data).mapError valueError

/-- The rest of the `try` block: the suite is discovered and run. -/
def discoverAndExecute (requirements : Dict Requirement) : Except Raised Report := do
  let (suite, errors) ← found.discovery
  unless errors.isEmpty do
    throw (valueError ("Test discovery failed:\n" ++ "\n".intercalate errors))
  let report ← (execute repr requirements suite found.events).mapError valueError
  match found.interrupt with
  | some e => throw e
  | none => return report

/-- The report after an exception. -/
def raisedReport (requirements : Dict Requirement) (e : Raised) : Report where
  passed := false
  errors := [e.type ++ ": " ++ e.text]
  tests := []
  requirements := summarize requirements []

/-- The report of `check`. -/
def checkReport : Report :=
  match loadRequirements repr found with
  | .error e => raisedReport [] e
  | .ok requirements =>
    match discoverAndExecute repr found requirements with
    | .error e => raisedReport requirements e
    | .ok report => report

end

/-- What is printed for a requirement. -/
def requirementLine (entry : String × Summary) : String :=
  entry.1 ++ ": " ++ entry.2.outcome.name ++ " (" ++ toString entry.2.tests.length ++ " tests)"

/-- The lines on the standard output; `path` is where the report is written. -/
def outputLines (path : String) (report : Report) : List String :=
  report.requirements.map requirementLine ++
    [(if report.passed then "PASS" else "FAIL") ++ ": " ++ toString report.tests.length ++ " tests; " ++ path]

/-- The texts on the standard error. -/
def errorLines (report : Report) : List String :=
  report.errors ++ report.tests.flatMap fun entry =>
    if entry.2.outcome ≠ .passed then (entry.1 ++ ": " ++ entry.2.outcome.name) :: entry.2.diagnostics else []

/-- The value of `check`, which is the exit status, and what it writes. -/
structure Verdict where
  status : Nat
  report : Report
  output : List String
  errors : List String

/-- `check`. -/
def check (repr : PyValue → String) (path : String) (found : Found) : Verdict :=
  let report := checkReport repr found
  { status := if report.passed then 0 else 1, report, output := outputLines path report, errors := errorLines report }

section
variable {repr : PyValue → String} {found : Found} {requirements : Dict Requirement} {links : Links} {suite : List Item}
  {report : Report} {id : String}

/-- Register and suite are as they have to be, and nothing is raised. -/
structure InOrder (found : Found) (requirements : Dict Requirement) (suite : List Item) (links : Links) : Prop where
  register : ∃ data, found.register = .ok data ∧ IsRegister data requirements
  discovery : found.discovery = .ok (suite, [])
  linked : AreLinks requirements suite links
  quiet : found.interrupt = none

theorem mapError_ok {ε ε' α : Type} {f : ε → ε'} {x : Except ε α} {a : α} : x.mapError f = .ok a ↔ x = .ok a := by
  cases x with
  | error e => exact iff_of_false (fun eq => by cases eq) fun eq => by cases eq
  | ok b =>
    show Except.ok b = Except.ok a ↔ _
    rw [Except.ok.injEq, Except.ok.injEq]

theorem loadRequirements_iff : loadRequirements repr found = .ok requirements ↔
    ∃ data, found.register = .ok data ∧ IsRegister data requirements := by
  constructor
  · intro run
    obtain ⟨data, read, run⟩ := ok_of_bind run
    exact ⟨data, read, validateRegister_iff.1 (mapError_ok.1 run)⟩
  · rintro ⟨data, read, isRegister⟩
    unfold loadRequirements
    rw [read]
    exact mapError_ok.2 (validateRegister_iff.2 isRegister)

theorem discoverAndExecute_iff : discoverAndExecute repr found requirements = .ok report ↔
    ∃ suite, found.discovery = .ok (suite, []) ∧ execute repr requirements suite found.events = .ok report ∧
      found.interrupt = none := by
  constructor
  · intro run
    obtain ⟨⟨suite, errors⟩, discovered, run⟩ := ok_of_bind run
    dsimp only at run
    split at run
    · next none =>
      obtain rfl := List.isEmpty_iff.1 none
      obtain ⟨report', executed, run⟩ := ok_of_bind run
      split at run
      · cases run
      · next quiet =>
        obtain rfl := Except.ok.inj run
        exact ⟨suite, discovered, mapError_ok.1 executed, quiet⟩
    · cases run
  · rintro ⟨suite, discovered, executed, quiet⟩
    unfold discoverAndExecute
    rw [discovered]
    show ((execute repr requirements suite found.events).mapError valueError >>= _) = _
    rw [executed, quiet]
    rfl

/-- Either all is in order, and the report is that of `execute`, or something is raised. -/
theorem checkReport_cases (repr : PyValue → String) (found : Found) :
    (∃ requirements suite links, InOrder found requirements suite links ∧
      execute repr requirements suite found.events = .ok (checkReport repr found)) ∨
    (∀ requirements suite links, ¬ InOrder found requirements suite links) ∧
      ∃ requirements e, checkReport repr found = raisedReport requirements e := by
  unfold checkReport
  cases loaded : loadRequirements repr found with
  | error e =>
    refine .inr ⟨fun requirements suite links inOrder => ?_, [], e, rfl⟩
    cases loaded.symm.trans (loadRequirements_iff.2 inOrder.register)
  | ok requirements =>
    obtain ⟨data, read, isRegister⟩ := loadRequirements_iff.1 loaded
    dsimp only
    cases ran : discoverAndExecute repr found requirements with
    | error e =>
      refine .inr ⟨fun requirements' suite links inOrder => ?_, requirements, e, rfl⟩
      have same := loaded.symm.trans (loadRequirements_iff.2 inOrder.register)
      obtain rfl := Except.ok.inj same
      obtain ⟨report, executed⟩ := execute_ok (validateLinks_iff.2 inOrder.linked) found.events
      cases ran.symm.trans (discoverAndExecute_iff.2 ⟨suite, inOrder.discovery, executed, inOrder.quiet⟩)
    | ok report =>
      obtain ⟨suite, discovered, executed, quiet⟩ := discoverAndExecute_iff.1 ran
      obtain ⟨links, linked, -⟩ := ok_of_bind executed
      have inOrder : InOrder found requirements suite links :=
        ⟨⟨data, read, isRegister⟩, discovered, validateLinks_iff.1 linked, quiet⟩
      exact .inl ⟨requirements, suite, links, inOrder, executed⟩

/-- What is found determines what it says. -/
theorem InOrder.unique {requirements' : Dict Requirement} {suite' : List Item} {links' : Links}
    (inOrder : InOrder found requirements suite links) (inOrder' : InOrder found requirements' suite' links') :
    requirements = requirements' ∧ suite = suite' ∧ links = links' := by
  -- any `repr` does: it occurs in texts only
  obtain rfl := Except.ok.inj ((loadRequirements_iff.2 inOrder.register).symm.trans
    ((@loadRequirements_iff (fun _ => "") _ _).2 inOrder'.register))
  obtain ⟨rfl, -⟩ := Prod.mk.inj (Except.ok.inj (inOrder.discovery.symm.trans inOrder'.discovery))
  obtain rfl := Except.ok.inj ((validateLinks_iff.2 inOrder.linked).symm.trans
    ((@validateLinks_iff (fun _ => "") _ _ _).2 inOrder'.linked))
  exact ⟨rfl, rfl, rfl⟩

theorem InOrder.gateReport (inOrder : InOrder found requirements suite links)
    (executed : execute repr requirements suite found.events = .ok report) :
    GateReport requirements suite links found.events report := by
  obtain ⟨data, -, isRegister⟩ := inOrder.register
  exact Check.gateReport isRegister.distinct (validateLinks_iff.2 inOrder.linked) executed

theorem GateReport.lookup_of_outcome {events : List Event} {outcome : RequirementOutcome}
    (told : GateReport requirements suite links events report) (here : report.outcome id = some outcome) :
    ∃ row, requirements.lookup id = some row := by
  obtain ⟨summary, found, -⟩ := Option.map_eq_some_iff.1 here
  have known := lookup_isSome_iff_mem.1 (Option.isSome_of_eq_some found)
  rw [told.ids] at known
  exact Option.isSome_iff_exists.1 (lookup_isSome_iff_mem.2 known)

/-- After an exception no requirement has passed. -/
theorem raisedReport_outcome {e : Raised} : (raisedReport requirements e).outcome id ≠ some .passed := by
  show ((summarize requirements []).lookup id).map Summary.outcome ≠ _
  unfold summarize
  rw [lookup_map, Option.map_map]
  cases requirements.lookup id with
  | none => exact fun eq => by cases eq
  | some row =>
    intro passed
    exact (summaryOutcome_passed.1 (Option.some_inj.1 passed)).2.1 rfl

theorem errorLines_nil : errorLines report = [] ↔
    report.errors = [] ∧ ∀ entry ∈ report.tests, entry.2.outcome = .passed := by
  unfold errorLines
  rw [List.append_eq_nil_iff, List.flatMap_eq_nil_iff]
  refine and_congr_right fun _ => forall₂_congr fun entry _ => ?_
  split
  · next failed => exact iff_of_false (List.cons_ne_nil _ _) failed
  · next passed => exact iff_of_true rfl (not_not.1 passed)

/-- **The verdict of `check`**, whatever it finds: it exits with 0 exactly if there is a
register in order, a suite in order, and success and nothing else of each linked test;
it reports a requirement as passed exactly if this holds of the tests of the
requirement; and it writes nothing to the standard error exactly if it exits with 0. -/
theorem check_exact (repr : PyValue → String) (path : String) (found : Found) :
    ((check repr path found).status = 0 ↔ ∃ requirements suite links, InOrder found requirements suite links ∧
      Attributed links found.events ∧ ∀ link ∈ links, OnlySuccess found.events link.1) ∧
    (∀ id, (check repr path found).report.outcome id = some .passed ↔
      ∃ requirements suite links row, InOrder found requirements suite links ∧ Attributed links found.events ∧
        requirements.lookup id = some row ∧ row.status = .implemented ∧
        ∀ link ∈ links, id ∈ link.2 → OnlySuccess found.events link.1) ∧
    ((check repr path found).errors = [] ↔ (check repr path found).status = 0) := by
  show (_ ↔ _) ∧ (∀ id, (checkReport repr found).outcome id = _ ↔ _) ∧ (errorLines (checkReport repr found) = [] ↔ _)
  rcases checkReport_cases repr found with ⟨requirements, suite, links, inOrder, executed⟩ | ⟨never, _, e, raised⟩
  · have told := inOrder.gateReport executed
    have exit : (check repr path found).status = 0 ↔ (checkReport repr found).passed = true := by
      show (if (checkReport repr found).passed = true then 0 else 1) = 0 ↔ _
      split
      · next passed => exact iff_of_true rfl passed
      · next failed => exact iff_of_false (fun eq => by cases eq) failed
    refine ⟨?_, fun id => ?_, ?_⟩
    · rw [exit, told.passed]
      constructor
      · exact fun all => ⟨requirements, suite, links, inOrder, all⟩
      · rintro ⟨requirements', suite', links', inOrder', all⟩
        obtain ⟨rfl, rfl, rfl⟩ := inOrder.unique inOrder'
        exact all
    · constructor
      · intro passed
        obtain ⟨row, here⟩ := told.lookup_of_outcome passed
        obtain ⟨implemented, attributed, only⟩ := (told.requirement id row here).1 passed
        exact ⟨requirements, suite, links, row, inOrder, attributed, here, implemented, only⟩
      · rintro ⟨requirements', suite', links', row, inOrder', attributed, here, implemented, only⟩
        obtain ⟨rfl, rfl, rfl⟩ := inOrder.unique inOrder'
        exact (told.requirement id row here).2 ⟨implemented, attributed, only⟩
    · obtain ⟨-, -, passed, -⟩ := execute_spec (validateLinks_iff.2 inOrder.linked) executed
      rw [exit, passed, errorLines_nil, Bool.and_eq_true, List.isEmpty_iff, List.all_eq_true]
      simp only [decide_eq_true_eq]
  · have failed : ¬ (check repr path found).status = 0 := by
      show ¬ (if (checkReport repr found).passed = true then 0 else 1) = 0
      rw [raised]
      exact Nat.one_ne_zero
    refine ⟨iff_of_false failed ?_, fun id => ?_, iff_of_false ?_ failed⟩
    · rintro ⟨requirements, suite, links, inOrder, -⟩
      exact never _ _ _ inOrder
    · rw [raised]
      refine iff_of_false raisedReport_outcome ?_
      rintro ⟨requirements, suite, links, row, inOrder, -⟩
      exact never _ _ _ inOrder
    · rw [raised, errorLines_nil]
      exact fun none => List.cons_ne_nil _ _ none.1

end

end Check
end MiaowOs
