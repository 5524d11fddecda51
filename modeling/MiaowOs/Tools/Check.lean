import MiaowOs.Lib.Highest

/-!
# The verification gate

The functions of `tools/check.py` that decide whether the requirements are met:
the register is read (`validate_register`), its requirements are linked to the
tests (`validate_links`), a run of the tests is recorded (`TraceResult`) and the
records are summed up (`summarize`, `execute`). A dictionary is the list of its
entries in the order of their insertion. A `ValueError` is its text; `repr` is
Python's `repr`, which occurs in such texts only. `unittest` is present as the
sequence of its calls of the `add*` methods.
-/

namespace MiaowOs
namespace Check

/-- A Python value, as `tomllib` and the attributes of a test method deliver them. -/
inductive PyValue
  | none
  | bool (b : Bool)
  | int (n : Int)
  | str (s : String)
  | list (items : List PyValue)
  | tuple (items : List PyValue)
  | dict (entries : List (String × PyValue))
  | object (name : String)

/-- A dictionary with its keys in insertion order. -/
abbrev Dict (α : Type) := List (String × α)

/-- `str.isspace` for one character: what `str.strip` removes. -/
def isSpace (c : Char) : Bool :=
  let n := c.toNat
  (0x09 ≤ n && n ≤ 0x0d) || (0x1c ≤ n && n ≤ 0x20) || n == 0x85 || n == 0xa0 || n == 0x1680 ||
    (0x2000 ≤ n && n ≤ 0x200a) || n == 0x2028 || n == 0x2029 || n == 0x202f || n == 0x205f || n == 0x3000

/-- `nonblank`. -/
def nonblank : PyValue → Bool
  | .str s => s.toList.any fun c => !isSpace c
  | _ => false

/-- `[A-Z]`. -/
def isUpper (c : Char) : Bool := 'A' ≤ c && c ≤ 'Z'

/-- `[0-9]`. -/
def isDigit (c : Char) : Bool := '0' ≤ c && c ≤ '9'

/-- `-[0-9]{3}`, up to the end. -/
def isNumber : List Char → Bool
  | ['-', a, b, c] => isDigit a && isDigit b && isDigit c
  | _ => false

/-- `REQUIREMENT_ID.fullmatch`. -/
def isRequirementId (s : String) : Bool :=
  match s.toList with
  | 'R' :: 'E' :: 'Q' :: '-' :: c :: rest => isUpper c && isNumber (rest.dropWhile fun c => isUpper c || isDigit c)
  | _ => false

inductive Status
  | planned
  | implemented
  | retired
deriving DecidableEq, Repr

/-- `row["status"]`, if it is one of the three. -/
def Status.ofValue : PyValue → Option Status
  | .str "planned" => some .planned
  | .str "implemented" => some .implemented
  | .str "retired" => some .retired
  | _ => Option.none

/-- A row of the register. -/
structure Requirement where
  title : String
  statement : String
  status : Status
  acceptance : List String
deriving DecidableEq, Repr

/-- `data[key]`. -/
def PyValue.get (entries : Dict PyValue) (key : String) : PyValue := (entries.lookup key).getD .none

/-- The text of a string. -/
def PyValue.text : PyValue → String
  | .str s => s
  | _ => ""

/-- `set(entries) == fields`. -/
def hasFields (entries : Dict PyValue) (fields : List String) : Bool :=
  (entries.all fun entry => entry.1 ∈ fields) && fields.all fun field => field ∈ entries.map Prod.fst

/-- The items of a nonempty list of nonblank strings. -/
def acceptanceOf : PyValue → Option (List String)
  | .list (item :: items) => if (item :: items).all nonblank then some ((item :: items).map PyValue.text) else Option.none
  | _ => Option.none

/-- The identifier of a row, if it is well formed. -/
def requirementId : PyValue → Option String
  | .str identifier => if isRequirementId identifier then some identifier else Option.none
  | _ => Option.none

section
variable (repr : PyValue → String)

/-- The body of the loop of `validate_register`. -/
def validateRow (requirements : Dict Requirement) : PyValue → Except String (String × Requirement)
  | .dict row => do
    unless hasFields row ["id", "title", "statement", "status", "acceptance"] do
      throw "Each requirement must contain exactly: acceptance, id, statement, status, title"
    let some identifier := requirementId (PyValue.get row "id")
      | throw ("Invalid requirement ID: " ++ repr (PyValue.get row "id"))
    if identifier ∈ requirements.map Prod.fst then throw ("Duplicate requirement ID: " ++ identifier)
    unless nonblank (PyValue.get row "title") && nonblank (PyValue.get row "statement") do
      throw (identifier ++ ": title and statement must be nonblank strings")
    let some status := Status.ofValue (PyValue.get row "status")
      | throw (identifier ++ ": invalid status")
    let some acceptance := acceptanceOf (PyValue.get row "acceptance")
      | throw (identifier ++ ": acceptance must be a nonempty list of nonblank strings")
    return (identifier,
      { title := (PyValue.get row "title").text, statement := (PyValue.get row "statement").text, status, acceptance })
  | _ => throw "Each requirement must contain exactly: acceptance, id, statement, status, title"

/-- The loop of `validate_register`. -/
def validateRows : List PyValue → Dict Requirement → Except String (Dict Requirement)
  | [], requirements => return requirements
  | row :: rows, requirements => do
    let entry ← validateRow repr requirements row
    validateRows rows (requirements ++ [entry])

/-- `schema_version` is the integer 1; `True` is no integer here. -/
def isVersionOne : PyValue → Bool
  | .int n => n == 1
  | _ => false

/-- `validate_register`. -/
def validateRegister : PyValue → Except String (Dict Requirement)
  | .dict data => do
    unless hasFields data ["schema_version", "requirements"] do
      throw "Register must contain only schema_version and requirements"
    unless isVersionOne (PyValue.get data "schema_version") do
      throw "Unsupported schema_version; expected integer 1"
    match PyValue.get data "requirements" with
    | .list (row :: rows) => validateRows repr (row :: rows) []
    | _ => throw "Requirement register must be a nonempty list"
  | _ => throw "Register must contain only schema_version and requirements"

end

/-! ## Tests and their links -/

/-- A test case: its `id()`, and the attribute `requirement_ids` of its method,
`()` if it has none. -/
structure TestCase where
  id : String
  requirementIds : PyValue

/-- What a suite holds. -/
inductive Item
  | test (test : TestCase)
  | suite (items : List Item)

mutual

/-- The body of the loop of `test_cases`. -/
def itemCases : Item → List TestCase
  | .test test => [test]
  | .suite items => testCases items

/-- `test_cases`. -/
def testCases : List Item → List TestCase
  | [] => []
  | item :: suite => itemCases item ++ testCases suite

end

/-- The requirements that each test is linked to. -/
abbrev Links := Dict (List String)

section
variable (repr : PyValue → String) (requirements : Dict Requirement)

/-- The loop of `validate_links` over the references of a test. -/
def validateReferences (identifier : String) : List PyValue → Except String (List String)
  | [] => return []
  | .str reference :: rest => do
    let some row := requirements.lookup reference
      | throw (identifier ++ ": unknown requirement " ++ repr (.str reference))
    if row.status = .retired then throw (identifier ++ ": links to retired requirement " ++ reference)
    let references ← validateReferences identifier rest
    return reference :: references
  | reference :: _ => throw (identifier ++ ": unknown requirement " ++ repr reference)

/-- The references of a test: a nonempty tuple. -/
def referencesOf : PyValue → Option (List PyValue)
  | .tuple (reference :: rest) => some (reference :: rest)
  | _ => Option.none

/-- The loop of `validate_links` over the tests. -/
def linkTests : List TestCase → Links → Except String Links
  | [], links => return links
  | test :: tests, links => do
    if test.id ∈ links.map Prod.fst then throw ("Duplicate test ID: " ++ test.id)
    let some references := referencesOf test.requirementIds
      | throw (test.id ++ ": missing requirement links")
    let references ← validateReferences repr requirements test.id references
    unless references.Nodup do throw (test.id ++ ": duplicate requirement links")
    linkTests tests (links ++ [(test.id, references)])

/-- The implemented requirements that no test is linked to. -/
def missingLinks (links : Links) : List String :=
  let covered := links.flatMap Prod.snd
  (requirements.filter fun entry => entry.2.status = .implemented ∧ entry.1 ∉ covered).map Prod.fst

/-- `validate_links`. -/
def validateLinks (suite : List Item) : Except String Links := do
  let links ← linkTests repr requirements (testCases suite) []
  if links.isEmpty then throw "No tests discovered"
  unless (missingLinks requirements links).isEmpty do
    throw ("Implemented requirements without tests: " ++ ", ".intercalate (missingLinks requirements links))
  return links

end

/-! ## Recording the results -/

inductive Outcome
  | notRun
  | passed
  | skipped
  | expectedFailure
  | unexpectedSuccess
  | failed
  | error
deriving DecidableEq, Repr

def Outcome.name : Outcome → String
  | .notRun => "not_run"
  | .passed => "passed"
  | .skipped => "skipped"
  | .expectedFailure => "expected_failure"
  | .unexpectedSuccess => "unexpected_success"
  | .failed => "failed"
  | .error => "error"

/-- The table `priority` of `record`. -/
def Outcome.priority : Outcome → Nat
  | .notRun => 0
  | .passed => 1
  | .skipped => 2
  | .expectedFailure => 2
  | .unexpectedSuccess => 3
  | .failed => 3
  | .error => 4

structure TestRecord where
  requirements : List String
  outcome : Outcome
  diagnostics : List String
deriving DecidableEq, Repr

structure TraceResult where
  records : Dict TestRecord
  issues : List String
deriving DecidableEq, Repr

/-- What `unittest` hands over as a test: its `id()`, and that of `test_case` if
it is a subtest. -/
structure Test where
  id : String
  testCase : Option String
deriving DecidableEq, Repr

/-- `getattr(test, "test_case", test).id()`. -/
def Test.identifier (test : Test) : String := test.testCase.getD test.id

/-- `TraceResult.__init__`. -/
def TraceResult.init (links : Links) : TraceResult where
  records := links.map fun link => (link.1, { requirements := link.2, outcome := .notRun, diagnostics := [] })
  issues := []

/-- The end of `record`, for a test that is known. -/
def TestRecord.add (record : TestRecord) (outcome : Outcome) (diagnostic : String) : TestRecord :=
  { record with
    outcome := if outcome.priority > record.outcome.priority then outcome else record.outcome
    diagnostics := if diagnostic = "" then record.diagnostics else record.diagnostics ++ [diagnostic] }

/-- `record`; no diagnostic is the empty one. -/
def TraceResult.record (result : TraceResult) (test : Test) (outcome : Outcome) (diagnostic : String) : TraceResult :=
  if test.identifier ∉ result.records.map Prod.fst then
    { result with issues := result.issues ++ [test.identifier ++ ": " ++ outcome.name ++ "\n" ++ diagnostic] }
  else
    { result with records := result.records.map fun entry =>
        if entry.1 = test.identifier then (entry.1, entry.2.add outcome diagnostic) else entry }

/-! The texts are those of `_exc_info_to_string`. -/

def TraceResult.addSuccess (result : TraceResult) (test : Test) : TraceResult :=
  result.record test .passed ""

def TraceResult.addFailure (result : TraceResult) (test : Test) (text : String) : TraceResult :=
  result.record test .failed text

def TraceResult.addError (result : TraceResult) (test : Test) (text : String) : TraceResult :=
  result.record test .error text

def TraceResult.addSkip (result : TraceResult) (test : Test) (reason : String) : TraceResult :=
  result.record test .skipped (test.id ++ ": " ++ reason)

def TraceResult.addExpectedFailure (result : TraceResult) (test : Test) (text : String) : TraceResult :=
  result.record test .expectedFailure text

def TraceResult.addUnexpectedSuccess (result : TraceResult) (test : Test) : TraceResult :=
  result.record test .unexpectedSuccess "Expected failure unexpectedly passed"

/-- An exception of a subtest. -/
structure SubTestError where
  /-- `issubclass(error[0], test.failureException)`. -/
  isFailure : Bool
  text : String
deriving DecidableEq, Repr

def TraceResult.addSubTest (result : TraceResult) (test : Test) (subtest : String) (error : Option SubTestError) :
    TraceResult :=
  match error with
  | Option.none => result
  | some error =>
    result.record test (if error.isFailure then .failed else .error) (subtest ++ "\n" ++ error.text)

/-- A call that `unittest` makes. -/
inductive Event
  | success (test : Test)
  | failure (test : Test) (text : String)
  | error (test : Test) (text : String)
  | skip (test : Test) (reason : String)
  | expectedFailure (test : Test) (text : String)
  | unexpectedSuccess (test : Test)
  | subTest (test : Test) (subtest : String) (error : Option SubTestError)
deriving DecidableEq, Repr

def TraceResult.deliver (result : TraceResult) : Event → TraceResult
  | .success test => result.addSuccess test
  | .failure test text => result.addFailure test text
  | .error test text => result.addError test text
  | .skip test reason => result.addSkip test reason
  | .expectedFailure test text => result.addExpectedFailure test text
  | .unexpectedSuccess test => result.addUnexpectedSuccess test
  | .subTest test subtest error => result.addSubTest test subtest error

/-! ## Summing up -/

inductive RequirementOutcome
  | pending
  | retired
  | failed
  | passed
  | incomplete
deriving DecidableEq, Repr

structure Summary where
  status : Status
  outcome : RequirementOutcome
  tests : List String
deriving DecidableEq, Repr

/-- The outcome of a requirement, from those of its tests. -/
def summaryOutcome (status : Status) (outcomes : List Outcome) : RequirementOutcome :=
  if status ≠ .implemented then
    if status = .planned then .pending else .retired
  else if outcomes.any fun value => value ∈ [.failed, .error, .unexpectedSuccess] then .failed
  else if !outcomes.isEmpty && outcomes.all fun value => value = .passed then .passed
  else .incomplete

/-- `summarize`. -/
def summarize (requirements : Dict Requirement) (records : Dict TestRecord) : Dict Summary :=
  requirements.map fun row =>
    let linked := records.filter fun record => row.1 ∈ record.2.requirements
    (row.1, { status := row.2.status
              outcome := summaryOutcome row.2.status (linked.map fun record => record.2.outcome)
              tests := linked.map Prod.fst })

/-- The report of `execute`. -/
structure Report where
  passed : Bool
  errors : List String
  tests : Dict TestRecord
  requirements : Dict Summary
deriving DecidableEq, Repr

/-- Issues that belong to no test take back what has passed. -/
def Summary.downgrade (summary : Summary) : Summary :=
  if summary.outcome = .passed then { summary with outcome := .incomplete } else summary

/-- `execute`, where the run of the suite makes the calls `events`. -/
def execute (repr : PyValue → String) (requirements : Dict Requirement) (suite : List Item) (events : List Event) :
    Except String Report := do
  let links ← validateLinks repr requirements suite
  let result := events.foldl TraceResult.deliver (.init links)
  let summaries := summarize requirements result.records
  return {
    passed := result.issues.isEmpty && result.records.all fun record => record.2.outcome = .passed
    errors := result.issues
    tests := result.records
    requirements :=
      if result.issues.isEmpty then summaries else summaries.map fun entry => (entry.1, entry.2.downgrade) }

end Check
end MiaowOs
