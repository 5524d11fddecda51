import MiaowOs.Tools.Check
import Mathlib.Data.List.Nodup

/-!
# What the gate lets through

A run of the tests reaches each record on its own (`TestRecord.receive`), and what
is kept there is the outcome of the highest priority. So the order of the calls of
`unittest` shows in the texts only: whether a requirement has passed depends on
which calls were made, and one that was not made or that belongs to no test keeps
a requirement from passing.
-/

namespace MiaowOs
namespace Check
open Highest

/-! ## One call -/

def Event.test : Event → Test
  | .success test => test
  | .failure test _ => test
  | .error test _ => test
  | .skip test _ => test
  | .expectedFailure test _ => test
  | .unexpectedSuccess test => test
  | .subTest test _ _ => test

/-- The test that the call is about. -/
def Event.identifier (e : Event) : String := e.test.identifier

/-- The outcome that the call reports: none for a subtest without an error. -/
def Event.outcome : Event → Option Outcome
  | .success _ => some .passed
  | .failure _ _ => some .failed
  | .error _ _ => some .error
  | .skip _ _ => some .skipped
  | .expectedFailure _ _ => some .expectedFailure
  | .unexpectedSuccess _ => some .unexpectedSuccess
  | .subTest _ _ raised => raised.map fun raised => if raised.isFailure then .failed else .error

def Event.diagnostic : Event → String
  | .success _ => ""
  | .failure _ text => text
  | .error _ text => text
  | .skip test reason => test.id ++ ": " ++ reason
  | .expectedFailure _ text => text
  | .unexpectedSuccess _ => "Expected failure unexpectedly passed"
  | .subTest _ subtest raised => subtest ++ "\n" ++ (raised.map SubTestError.text).getD ""

/-- The call reports a result; for a subtest only an error is one. -/
def Event.IsResult (e : Event) : Prop := ∀ test subtest, e ≠ .subTest test subtest none

/-- The call is one of `addSuccess`. -/
def Event.IsSuccess (e : Event) : Prop := ∃ test, e = .success test

/-- What a call does to the record of the test `id`. -/
def TestRecord.receive (id : String) (record : TestRecord) (e : Event) : TestRecord :=
  match e.outcome with
  | some outcome => if e.identifier = id then record.add outcome e.diagnostic else record
  | none => record

/-- The outcome that a call reports about the test `id`. -/
def outcomeFor (id : String) (e : Event) : Option Outcome := if e.identifier = id then e.outcome else none

section
variable {e : Event} {result : TraceResult} {record : TestRecord} {id : String} {o : Outcome}

theorem isResult_iff : e.IsResult ↔ e.outcome ≠ none := by
  unfold Event.IsResult
  cases e with
  | subTest test subtest raised => cases raised <;> simp [Event.outcome]
  | _ => simp [Event.outcome]

/-- An error of a subtest is a failure or an error of its test. -/
theorem outcome_subTest (test : Test) (subtest : String) (raised : SubTestError) :
    (Event.subTest test subtest (some raised)).outcome = some .failed ∨
      (Event.subTest test subtest (some raised)).outcome = some .error := by
  cases kind : raised.isFailure with
  | true => exact .inl (by simp [Event.outcome, kind])
  | false => exact .inr (by simp [Event.outcome, kind])

theorem isSuccess_iff : e.IsSuccess ↔ e.outcome = some .passed := by
  unfold Event.IsSuccess
  cases e with
  | subTest test subtest raised =>
    cases raised with
    | none => simp [Event.outcome]
    | some raised =>
      obtain outcome | outcome := outcome_subTest test subtest raised
      · simp [outcome]
      · simp [outcome]
  | _ => simp [Event.outcome]

/-- No call reports that a test has not run. -/
theorem outcome_ne_notRun : e.outcome ≠ some .notRun := by
  cases e with
  | subTest test subtest raised =>
    cases raised with
    | none => simp [Event.outcome]
    | some raised =>
      obtain outcome | outcome := outcome_subTest test subtest raised
      · simp [outcome]
      · simp [outcome]
  | _ => simp [Event.outcome]

theorem deliver_none (silent : e.outcome = none) : result.deliver e = result := by
  cases e with
  | subTest test subtest raised =>
    cases raised with
    | none => rfl
    | some raised => cases silent
  | _ => cases silent

theorem deliver_some (reports : e.outcome = some o) : result.deliver e = result.record e.test o e.diagnostic := by
  cases e with
  | subTest test subtest raised =>
    cases raised with
    | none => cases reports
    | some raised =>
      obtain rfl := Option.some_inj.1 reports
      rfl
  | _ =>
    obtain rfl := Option.some_inj.1 reports
    rfl

/-- **A call reaches one record**, that of its test. -/
theorem deliver_records : (result.deliver e).records =
    result.records.map fun entry => (entry.1, entry.2.receive entry.1 e) := by
  cases reports : e.outcome with
  | none =>
    have same : (fun entry : String × TestRecord => (entry.1, entry.2.receive entry.1 e)) = id := by
      funext entry
      simp [TestRecord.receive, reports]
    rw [deliver_none reports, same, List.map_id]
  | some o =>
    rw [deliver_some reports]
    unfold TraceResult.record
    by_cases known : e.test.identifier ∈ result.records.map Prod.fst
    · rw [if_neg (not_not.2 known)]
      apply List.map_congr_left
      intro entry _
      by_cases here : e.identifier = entry.1
      · have here' : entry.1 = e.test.identifier := here.symm
        simp [TestRecord.receive, reports, here, here']
      · have there : ¬ entry.1 = e.test.identifier := fun eq => here eq.symm
        simp [TestRecord.receive, reports, here, there]
    · rw [if_pos known]
      have same : ∀ entry ∈ result.records, (entry.1, entry.2.receive entry.1 e) = entry := by
        intro entry mem
        have other : e.identifier ≠ entry.1 := fun eq => known (List.mem_map.2 ⟨entry, mem, eq.symm⟩)
        simp [TestRecord.receive, reports, other]
      rw [List.map_congr_left same, List.map_id']

theorem deliver_keys : (result.deliver e).records.map Prod.fst = result.records.map Prod.fst := by
  rw [deliver_records, List.map_map]
  rfl

/-- A call is an issue if it reports a result of no known test. -/
theorem deliver_issues : (result.deliver e).issues = [] ↔
    result.issues = [] ∧ (e.IsResult → e.identifier ∈ result.records.map Prod.fst) := by
  rw [isResult_iff]
  cases reports : e.outcome with
  | none => simp [deliver_none reports]
  | some o =>
    rw [deliver_some reports]
    unfold TraceResult.record
    by_cases known : e.test.identifier ∈ result.records.map Prod.fst
    · rw [if_neg (not_not.2 known)]
      simp only [ne_eq, reduceCtorEq, not_false_eq_true, forall_const]
      exact ⟨fun none => ⟨none, known⟩, And.left⟩
    · rw [if_pos known]
      simp only [ne_eq, reduceCtorEq, not_false_eq_true, forall_const]
      constructor
      · intro none
        exact absurd none (by simp)
      · intro both
        exact absurd both.2 known

/-- The record of a test keeps the outcome of the highest priority. -/
theorem receive_outcome : (record.receive id e).outcome =
    (outcomeFor id e).toList.foldl (keep Outcome.priority) record.outcome := by
  unfold TestRecord.receive outcomeFor
  cases e.outcome with
  | none => rw [ite_self]; rfl
  | some o =>
    dsimp only
    split
    · rfl
    · rfl

theorem receive_requirements : (record.receive id e).requirements = record.requirements := by
  unfold TestRecord.receive
  cases e.outcome with
  | none => rfl
  | some o =>
    dsimp only
    split <;> rfl

end

/-! ## A run -/

/-- The outcomes that the calls report about the test `id`. -/
def outcomesFor (id : String) (events : List Event) : List Outcome := events.filterMap (outcomeFor id)

/-- The outcome that the record of the test `id` ends with. -/
def finalOutcome (id : String) (events : List Event) : Outcome :=
  (outcomesFor id events).foldl (keep Outcome.priority) .notRun

/-- What the calls make of the record of a link. -/
def finalRecord (events : List Event) (link : String × List String) : TestRecord :=
  events.foldl (TestRecord.receive link.1) { requirements := link.2, outcome := .notRun, diagnostics := [] }

/-- `TraceResult` after the calls. -/
def resultOf (links : Links) (events : List Event) : TraceResult := events.foldl TraceResult.deliver (.init links)

/-- All results are about tests that are linked. -/
def Attributed (links : Links) (events : List Event) : Prop :=
  ∀ e ∈ events, e.IsResult → e.identifier ∈ links.map Prod.fst

/-- The test `id` has succeeded, and no call reports anything else about it. -/
def OnlySuccess (events : List Event) (id : String) : Prop :=
  (∃ e ∈ events, e.identifier = id ∧ e.IsSuccess) ∧
    ∀ e ∈ events, e.identifier = id → e.IsResult → e.IsSuccess

section
variable {events events' : List Event} {result : TraceResult} {record : TestRecord} {id : String} {o : Outcome}
  {links : Links}

theorem run_records : (events.foldl TraceResult.deliver result).records =
    result.records.map fun entry => (entry.1, events.foldl (TestRecord.receive entry.1) entry.2) := by
  induction events generalizing result with
  | nil => exact (List.map_id' _).symm
  | cons e events ih =>
    rw [List.foldl_cons, ih, deliver_records, List.map_map]
    rfl

theorem run_issues : (events.foldl TraceResult.deliver result).issues = [] ↔
    result.issues = [] ∧ ∀ e ∈ events, e.IsResult → e.identifier ∈ result.records.map Prod.fst := by
  induction events generalizing result with
  | nil => simp
  | cons e events ih =>
    rw [List.foldl_cons, ih, deliver_issues, deliver_keys, List.forall_mem_cons, and_assoc]

theorem foldl_receive_outcome : (events.foldl (TestRecord.receive id) record).outcome =
    (outcomesFor id events).foldl (keep Outcome.priority) record.outcome := by
  induction events generalizing record with
  | nil => rfl
  | cons e events ih =>
    rw [List.foldl_cons, ih, receive_outcome]
    unfold outcomesFor
    rw [List.filterMap_cons]
    cases outcomeFor id e with
    | none => rfl
    | some o => rfl

theorem foldl_receive_requirements :
    (events.foldl (TestRecord.receive id) record).requirements = record.requirements := by
  induction events generalizing record with
  | nil => rfl
  | cons e events ih => rw [List.foldl_cons, ih, receive_requirements]

/-- **The records after a run** are those of the links. -/
theorem resultOf_records :
    (resultOf links events).records = links.map fun link => (link.1, finalRecord events link) := by
  unfold resultOf
  rw [run_records, TraceResult.init, List.map_map]
  rfl

theorem finalRecord_outcome {link : String × List String} :
    (finalRecord events link).outcome = finalOutcome link.1 events := foldl_receive_outcome

theorem finalRecord_requirements {link : String × List String} :
    (finalRecord events link).requirements = link.2 := foldl_receive_requirements

theorem resultOf_issues : (resultOf links events).issues = [] ↔ Attributed links events := by
  have keys : (TraceResult.init links).records.map Prod.fst = links.map Prod.fst := by
    simp [TraceResult.init]
  unfold resultOf Attributed
  rw [run_issues, keys]
  exact and_iff_right rfl

theorem mem_outcomesFor : o ∈ outcomesFor id events ↔ ∃ e ∈ events, e.identifier = id ∧ e.outcome = some o := by
  unfold outcomesFor outcomeFor
  rw [List.mem_filterMap]
  apply exists_congr
  intro e
  split
  · next here => simp [here]
  · next there => simp [there]

/-! ## Priorities -/

theorem Outcome.passed_iff : o = .passed ↔ 0 < o.priority ∧ o.priority ≤ 1 := by
  cases o <;> decide

/-- **A record ends as passed** if success, and nothing else, was reported. -/
theorem finalOutcome_passed : finalOutcome id events = .passed ↔ OnlySuccess events id := by
  unfold finalOutcome
  rw [Outcome.passed_iff, lt_rank_foldl, rank_foldl_le]
  constructor
  · rintro ⟨some_, -, all⟩
    have only : ∀ e ∈ events, e.identifier = id → e.IsResult → e.IsSuccess := by
      intro e mem here reports
      obtain ⟨o, outcome⟩ := Option.ne_none_iff_exists'.1 (isResult_iff.1 reports)
      have low := all o (mem_outcomesFor.2 ⟨e, mem, here, outcome⟩)
      have high : o ≠ .notRun := fun eq => outcome_ne_notRun (eq ▸ outcome)
      rw [isSuccess_iff, outcome, Option.some_inj, Outcome.passed_iff]
      refine ⟨?_, low⟩
      cases o <;> first | exact absurd rfl high | decide
    refine ⟨?_, only⟩
    rcases some_ with none | ⟨o, mem, -⟩
    · exact absurd none (by decide)
    · obtain ⟨e, mem, here, outcome⟩ := mem_outcomesFor.1 mem
      exact ⟨e, mem, here, only e mem here (isResult_iff.2 (by simp [outcome]))⟩
  · rintro ⟨⟨e, mem, here, success⟩, only⟩
    refine ⟨.inr ⟨.passed, mem_outcomesFor.2 ⟨e, mem, here, isSuccess_iff.1 success⟩, by decide⟩, by decide, ?_⟩
    intro o reported
    obtain ⟨e', mem', here', outcome⟩ := mem_outcomesFor.1 reported
    have passed := isSuccess_iff.1 (only e' mem' here' (isResult_iff.2 (by simp [outcome])))
    obtain rfl := Option.some_inj.1 (outcome.symm.trans passed)
    decide

/-- A requirement has passed if it is implemented and its tests have. -/
theorem summaryOutcome_passed {status : Status} {outcomes : List Outcome} :
    summaryOutcome status outcomes = .passed ↔
      status = .implemented ∧ outcomes ≠ [] ∧ ∀ o ∈ outcomes, o = .passed := by
  unfold summaryOutcome
  by_cases implemented : status = .implemented
  · rw [if_neg (not_not.2 implemented)]
    by_cases failed : (outcomes.any fun value => value ∈ [Outcome.failed, .error, .unexpectedSuccess]) = true
    · rw [if_pos failed]
      obtain ⟨o, mem, bad⟩ := List.any_eq_true.1 failed
      simp only [reduceCtorEq, false_iff]
      rintro ⟨-, -, all⟩
      rw [all o mem] at bad
      exact absurd bad (by decide)
    · rw [if_neg failed]
      cases outcomes with
      | nil => simp
      | cons o outcomes =>
        simp only [List.isEmpty_cons, Bool.not_false, Bool.true_and, List.all_eq_true, decide_eq_true_eq, implemented,
          ne_eq, reduceCtorEq, not_false_eq_true, true_and]
        split
        · next all => exact iff_of_true rfl all
        · next some_ => simpa using some_
  · rw [if_pos implemented]
    simp only [implemented, false_and, iff_false]
    split
    · exact fun eq => by cases eq
    · exact fun eq => by cases eq

end

/-! ## What is accepted -/

/-- A computation that goes through has gone through its first step. -/
theorem ok_of_bind {ε α β : Type} {x : Except ε α} {f : α → Except ε β} {b : β} (run : (x >>= f) = .ok b) :
    ∃ a, x = .ok a ∧ f a = .ok b := by
  cases x with
  | error e => cases run
  | ok a => exact ⟨a, rfl, run⟩

/-- A new key keeps the keys distinct. -/
theorem nodup_keys_append {α : Type} {l : Dict α} {entry : String × α} (nodup : (l.map Prod.fst).Nodup)
    (fresh : entry.1 ∉ l.map Prod.fst) : ((l ++ [entry]).map Prod.fst).Nodup := by
  rw [List.map_append, List.nodup_append]
  refine ⟨nodup, List.nodup_singleton _, ?_⟩
  intro a known b new eq
  obtain rfl := List.mem_singleton.1 new
  exact fresh (eq ▸ known)

section
variable {repr : PyValue → String} {requirements requirements' : Dict Requirement} {links links' : Links}
  {suite : List Item}

theorem validateRow_fresh {row : PyValue} {entry : String × Requirement}
    (run : validateRow repr requirements row = .ok entry) : entry.1 ∉ requirements.map Prod.fst := by
  unfold validateRow at run
  split at run
  · next row =>
    dsimp only at run
    split at run
    · split at run
      · next identifier _ =>
        split at run
        · cases run
        · next fresh =>
          split at run
          · split at run
            · split at run
              · cases run
                exact fresh
              · cases run
            · cases run
          · cases run
      · cases run
    · cases run
  · cases run

/-- Every test is linked, in the order of the suite. -/
theorem linkTests_keys {tests : List TestCase} (run : linkTests repr requirements tests links = .ok links') :
    links'.map Prod.fst = links.map Prod.fst ++ tests.map TestCase.id := by
  induction tests generalizing links with
  | nil =>
    cases run
    simp
  | cons test tests ih =>
    unfold linkTests at run
    dsimp only at run
    split at run
    · cases run
    · split at run
      · obtain ⟨references, -, run⟩ := ok_of_bind run
        split at run
        · rw [ih run]
          simp
        · cases run
      · cases run

/-- The identifiers of an accepted suite are distinct. -/
theorem linkTests_nodup {tests : List TestCase} (nodup : (links.map Prod.fst).Nodup)
    (run : linkTests repr requirements tests links = .ok links') : (links'.map Prod.fst).Nodup := by
  induction tests generalizing links with
  | nil =>
    cases run
    exact nodup
  | cons test tests ih =>
    unfold linkTests at run
    dsimp only at run
    split at run
    · cases run
    · next fresh =>
      split at run
      · obtain ⟨references, -, run⟩ := ok_of_bind run
        split at run
        · exact ih (nodup_keys_append nodup fresh) run
        · cases run
      · cases run

/-- Accepted links cover the suite, and every implemented requirement. -/
theorem validateLinks_spec (run : validateLinks repr requirements suite = .ok links) :
    links.map Prod.fst = (testCases suite).map TestCase.id ∧ (links.map Prod.fst).Nodup ∧
      missingLinks requirements links = [] := by
  unfold validateLinks at run
  obtain ⟨links', linked, run⟩ := ok_of_bind run
  dsimp only at run
  split at run
  · cases run
  · split at run
    · next complete =>
      cases run
      refine ⟨linkTests_keys linked, ?_, List.isEmpty_iff.1 complete⟩
      apply linkTests_nodup _ linked
      exact List.nodup_nil
    · cases run

theorem exists_link {identifier : String} {row : Requirement} (none : missingLinks requirements links = [])
    (mem : (identifier, row) ∈ requirements) (implemented : row.status = .implemented) :
    ∃ link ∈ links, identifier ∈ link.2 := by
  by_contra uncovered
  have missing : identifier ∈ missingLinks requirements links := by
    unfold missingLinks
    apply List.mem_map.2
    refine ⟨(identifier, row), List.mem_filter.2 ⟨mem, ?_⟩, rfl⟩
    rw [decide_eq_true_iff]
    refine ⟨implemented, ?_⟩
    intro covered
    obtain ⟨link, here, there⟩ := List.mem_flatMap.1 covered
    exact uncovered ⟨link, here, there⟩
  rw [none] at missing
  cases missing

end

/-! ## The report -/

/-- What `summarize` says of a requirement after the calls. -/
def summaryOf (links : Links) (events : List Event) (row : String × Requirement) : Summary where
  status := row.2.status
  outcome := summaryOutcome row.2.status
    ((links.filter fun link => row.1 ∈ link.2).map fun link => finalOutcome link.1 events)
  tests := (links.filter fun link => row.1 ∈ link.2).map Prod.fst

/-- What the report says of it. -/
def reported (links : Links) (events : List Event) (row : String × Requirement) : Summary :=
  if (resultOf links events).issues.isEmpty then summaryOf links events row
  else (summaryOf links events row).downgrade

/-- The outcome of the requirement `id` in the report. -/
def Report.outcome (report : Report) (id : String) : Option RequirementOutcome :=
  (report.requirements.lookup id).map Summary.outcome

section
variable {repr : PyValue → String} {requirements : Dict Requirement} {links : Links} {suite : List Item}
  {events events' : List Event} {report report' : Report} {row : String × Requirement} {id : String}

theorem summarize_run :
    summarize requirements (resultOf links events).records =
      requirements.map fun row => (row.1, summaryOf links events row) := by
  unfold summarize
  apply List.map_congr_left
  intro row _
  have linked : ((resultOf links events).records.filter fun record => row.1 ∈ record.2.requirements) =
      (links.filter fun link => row.1 ∈ link.2).map fun link => (link.1, finalRecord events link) := by
    rw [resultOf_records, List.filter_map]
    congr 2
    funext link
    simp only [Function.comp_apply, finalRecord_requirements]
  have outcomes : ∀ l : Links,
      (l.map fun link => (link.1, finalRecord events link)).map (fun record => record.2.outcome) =
        l.map fun link => finalOutcome link.1 events := by
    intro l
    rw [List.map_map]
    apply List.map_congr_left
    intro link _
    exact finalRecord_outcome
  have names : ∀ l : Links, (l.map fun link => (link.1, finalRecord events link)).map Prod.fst = l.map Prod.fst := by
    intro l
    rw [List.map_map]
    rfl
  dsimp only
  rw [linked, outcomes, names]
  rfl

/-- **The report after the calls.** -/
theorem execute_spec (linked : validateLinks repr requirements suite = .ok links)
    (run : execute repr requirements suite events = .ok report) :
    report.errors = (resultOf links events).issues ∧
    report.tests = links.map (fun link => (link.1, finalRecord events link)) ∧
    report.passed = (report.errors.isEmpty && report.tests.all fun record => record.2.outcome = .passed) ∧
    report.requirements = requirements.map fun row => (row.1, reported links events row) := by
  unfold execute at run
  obtain ⟨links', linked', run⟩ := ok_of_bind run
  obtain rfl := Except.ok.inj (linked.symm.trans linked')
  obtain rfl := Except.ok.inj run
  refine ⟨rfl, resultOf_records, rfl, ?_⟩
  change (if (resultOf links events).issues.isEmpty then summarize requirements (resultOf links events).records else
    (summarize requirements (resultOf links events).records).map fun entry => (entry.1, entry.2.downgrade)) = _
  rw [summarize_run]
  unfold reported
  split
  · rfl
  · rw [List.map_map]
    rfl

theorem execute_ok (linked : validateLinks repr requirements suite = .ok links) (events : List Event) :
    ∃ report, execute repr requirements suite events = .ok report := by
  unfold execute
  rw [linked]
  exact ⟨_, rfl⟩

/-! ## The order of the calls -/

theorem downgrade_passed {summary : Summary} : summary.downgrade.outcome ≠ .passed := by
  unfold Summary.downgrade
  split
  · exact fun eq => by cases eq
  · next other => exact other

/-- **A requirement passes** if it is implemented, every result belongs to a test
and all its tests have succeeded. -/
theorem reported_passed : (reported links events row).outcome = .passed ↔
    row.2.status = .implemented ∧ Attributed links events ∧ (∃ link ∈ links, row.1 ∈ link.2) ∧
      ∀ link ∈ links, row.1 ∈ link.2 → OnlySuccess events link.1 := by
  have summary : (summaryOf links events row).outcome = .passed ↔
      row.2.status = .implemented ∧ (∃ link ∈ links, row.1 ∈ link.2) ∧
        ∀ link ∈ links, row.1 ∈ link.2 → OnlySuccess events link.1 := by
    unfold summaryOf
    simp only [summaryOutcome_passed, ne_eq, List.map_eq_nil_iff, List.filter_eq_nil_iff, decide_eq_true_eq, not_forall,
      not_not, exists_prop, List.forall_mem_map, List.mem_filter, and_imp, finalOutcome_passed]
  unfold reported
  rw [← resultOf_issues, ← List.isEmpty_iff]
  split
  · next none => rw [summary, and_iff_right none]
  · next issues =>
    apply iff_of_false downgrade_passed
    intro all
    exact issues all.2.1

theorem lookup_map {α β : Type} {l : Dict α} {f : String × α → β} :
    (l.map fun row => (row.1, f row)).lookup id = (l.lookup id).map fun value => f (id, value) := by
  induction l with
  | nil => rfl
  | cons row l ih =>
    rw [List.map_cons, List.lookup_cons, List.lookup_cons]
    cases here : id == row.1 with
    | true =>
      obtain rfl := eq_of_beq here
      rfl
    | false => exact ih

theorem mem_of_lookup {α : Type} {l : Dict α} {value : α} (found : l.lookup id = some value) : (id, value) ∈ l := by
  obtain ⟨before, after, rfl, -⟩ := List.lookup_eq_some_iff.1 found
  simp

/-- What the report of a run says. -/
structure GateReport (requirements : Dict Requirement) (suite : List Item) (links : Links) (events : List Event)
    (report : Report) : Prop where
  /-- Every requirement has one outcome. -/
  ids : report.requirements.map Prod.fst = requirements.map Prod.fst
  ids_nodup : (report.requirements.map Prod.fst).Nodup
  /-- Every test of the suite has one record. -/
  tests : report.tests.map Prod.fst = (testCases suite).map TestCase.id
  tests_nodup : (report.tests.map Prod.fst).Nodup
  /-- A requirement has passed exactly if it is implemented, every result is about
  a linked test and each of its own tests has succeeded. -/
  requirement : ∀ id row, requirements.lookup id = some row →
    (report.outcome id = some .passed ↔
      row.status = .implemented ∧ Attributed links events ∧ ∀ link ∈ links, id ∈ link.2 → OnlySuccess events link.1)
  /-- The run has passed exactly if every result is about a linked test and each
  test has succeeded. -/
  passed : report.passed = true ↔ Attributed links events ∧ ∀ link ∈ links, OnlySuccess events link.1
  complete : report.passed = true →
    ∀ id row, requirements.lookup id = some row → row.status = .implemented → report.outcome id = some .passed

/-- The report tells what the calls were. -/
theorem gateReport (nodup : (requirements.map Prod.fst).Nodup)
    (linked : validateLinks repr requirements suite = .ok links)
    (run : execute repr requirements suite events = .ok report) :
    GateReport requirements suite links events report := by
  obtain ⟨errors, tests, passed, summaries⟩ := execute_spec linked run
  obtain ⟨keys, links_nodup, none⟩ := validateLinks_spec linked
  have ids : report.requirements.map Prod.fst = requirements.map Prod.fst := by
    rw [summaries, List.map_map]
    rfl
  have test_ids : report.tests.map Prod.fst = links.map Prod.fst := by
    rw [tests, List.map_map]
    rfl
  have requirement : ∀ id row, requirements.lookup id = some row →
      (report.outcome id = some .passed ↔
        row.status = .implemented ∧ Attributed links events ∧
          ∀ link ∈ links, id ∈ link.2 → OnlySuccess events link.1) := by
    intro id row found
    unfold Report.outcome
    rw [summaries, lookup_map, found, Option.map_some, Option.map_some, Option.some_inj, reported_passed]
    apply and_congr_right
    intro implemented
    apply and_congr_right
    intro _
    exact and_iff_right (exists_link none (mem_of_lookup found) implemented)
  have all_passed : report.passed = true ↔ Attributed links events ∧ ∀ link ∈ links, OnlySuccess events link.1 := by
    rw [passed, errors, tests, Bool.and_eq_true, List.isEmpty_iff, resultOf_issues, List.all_map, List.all_eq_true]
    simp only [Function.comp_apply, decide_eq_true_eq, finalRecord_outcome, finalOutcome_passed]
  refine ⟨ids, ids ▸ nodup, test_ids.trans keys, test_ids ▸ links_nodup, requirement, all_passed, ?_⟩
  intro all id row found implemented
  obtain ⟨attributed, only⟩ := all_passed.1 all
  rw [requirement id row found]
  exact ⟨implemented, attributed, fun link mem _ => only link mem⟩

end

end Check
end MiaowOs
