import Orchestrator.Types

/-!
# Workflow definitions

The document type of `internal/workflowdsl/dsl.go` with its validation:
defaults, structural checks and the search for a dependency cycle.
-/

namespace Orchestrator

/-- One node of the graph as authored. -/
structure StepSpec where
  name : String
  type : String
  dependsOn : List String
  input : Option RawMessage
  maxAttempts : ℤ
  initialBackoffMS : ℤ
  backoffMultiplier : ℚ
  maxBackoffMS : ℤ
  timeoutSeconds : ℤ
  deriving Repr, Inhabited

/-- A workflow document. -/
structure Definition where
  name : String
  version : ℤ
  steps : List StepSpec
  deriving Repr, Inhabited

/-- A row of `workflow_definitions`. The graph is the value that its JSON text
denotes. -/
structure WorkflowDefinition where
  id : UUID
  name : String
  version : ℤ
  dag : Definition
  createdAt : Time
  deriving Repr, Inhabited

/-- `unicode.IsSpace`. -/
def isSpace (c : Char) : Bool :=
  let n := c.toNat
  (9 ≤ n && n ≤ 13) || n == 32 || n == 0x85 || n == 0xA0 || n == 0x1680 ||
    (0x2000 ≤ n && n ≤ 0x200A) || n == 0x2028 || n == 0x2029 || n == 0x202F || n == 0x205F ||
    n == 0x3000

/-- `strings.TrimSpace` leaves nothing of the string. -/
def blank (s : String) : Bool := s.toList.all isSpace

/-- The first problem that `Validate` finds. -/
inductive ValidationError
  | nameRequired
  | noSteps (workflow : String)
  | stepUnnamed (index : ℕ)
  | duplicateStep (step : String)
  | stepUntyped (step : String)
  | unknownDependency (step dependency : String)
  | selfDependency (step : String)
  | noRoot (workflow : String)
  | cycle (step : String)
  /-- The cycle search ran out of fuel. -/
  | searchAborted
  deriving DecidableEq, Repr, Inhabited

/-- The defaults of unset retry, timeout and input fields. -/
def StepSpec.withDefaults (s : StepSpec) : StepSpec :=
  { s with
    maxAttempts := if s.maxAttempts ≤ 0 then 1 else s.maxAttempts
    initialBackoffMS := if s.initialBackoffMS ≤ 0 then 1000 else s.initialBackoffMS
    backoffMultiplier := if s.backoffMultiplier ≤ 0 then 2 else s.backoffMultiplier
    maxBackoffMS := if s.maxBackoffMS ≤ 0 then 60000 else s.maxBackoffMS
    timeoutSeconds := if s.timeoutSeconds ≤ 0 then 30 else s.timeoutSeconds
    input := match s.input with
      | none | some (.invalid "") => some .emptyObject
      | some m => some m }

/-- The first loop of `Validate`: names, types and defaults. `seen` holds the
names of the earlier steps. -/
def validateSteps (seen : List String) (index : ℕ) :
    List StepSpec → Except ValidationError (List StepSpec)
  | [] => .ok []
  | s :: rest =>
    if blank s.name then .error (.stepUnnamed index)
    else if s.name ∈ seen then .error (.duplicateStep s.name)
    else if blank s.type then .error (.stepUntyped s.name)
    else do
      let rest ← validateSteps (s.name :: seen) (index + 1) rest
      .ok (s.withDefaults :: rest)

/-- The dependency checks of one step in the second loop of `Validate`. -/
def validateDependencies (seen : List String) (step : String) :
    List String → Except ValidationError Unit
  | [] => .ok ()
  | dep :: rest =>
    if dep ∉ seen then .error (.unknownDependency step dep)
    else if dep = step then .error (.selfDependency step)
    else validateDependencies seen step rest

/-- The colours of the depth-first search. -/
inductive Color
  | white | gray | black
  deriving DecidableEq, Repr, Inhabited

/-- `byName[name].DependsOn`: the last step of a name counts, and an undeclared
name has no dependencies. -/
def dependenciesOf (steps : List StepSpec) (name : String) : List String :=
  ((steps.reverse.find? (fun s => s.name = name)).map (·.dependsOn)).getD []

/-- The loop of `visit` over the dependencies of a node. The first component is
the value returned from inside the loop, if any. -/
def visitDependencies
    (visit : String → (String → Color) → Option (String × (String → Color))) :
    List String → (String → Color) → Option (Option String × (String → Color))
  | [], color => some (none, color)
  | dep :: rest, color =>
    match color dep with
    | .white => do
      let (r, color) ← visit dep color
      if r ≠ "" then some (some r, color) else visitDependencies visit rest color
    | .gray => some (some dep, color)
    | .black => visitDependencies visit rest color

/-- `visit` of `findCycle`, with the recursion bounded by fuel. -/
def visit (deps : String → List String) :
    ℕ → String → (String → Color) → Option (String × (String → Color))
  | 0, _, _ => none
  | fuel + 1, name, color => do
    let (r, color) ← visitDependencies (visit deps fuel) (deps name)
      (Function.update color name .gray)
    match r with
    | some r => some (r, color)
    | none => some ("", Function.update color name .black)

/-- The outer loop of `findCycle`. -/
def visitSteps (deps : String → List String) (fuel : ℕ) :
    List StepSpec → (String → Color) → Option String
  | [], _ => some ""
  | s :: rest, color =>
    if color s.name = .white then do
      let (r, color) ← visit deps fuel s.name color
      if r ≠ "" then some r else visitSteps deps fuel rest color
    else visitSteps deps fuel rest color

/-- `findCycle` names a step on a dependency cycle, or answers `""`. The nodes
on the search stack are distinct, and all but the last are declared steps, so
the fuel is enough. -/
def findCycle (steps : List StepSpec) : Option String :=
  visitSteps (dependenciesOf steps) (steps.length + 1) steps (fun _ => .white)

/-- The default of an unset version. -/
def versionOrDefault (version : ℤ) : ℤ := if version ≤ 0 then 1 else version

/-- `Validate` checks a document and fills in its defaults. -/
def Definition.validate (d : Definition) : Except ValidationError Definition :=
  if blank d.name then .error .nameRequired
  else if d.steps = [] then .error (.noSteps d.name)
  else do
    let steps ← validateSteps [] 0 d.steps
    steps.forM (fun s => validateDependencies (steps.map (·.name)) s.name s.dependsOn)
    if steps.all (fun s => !s.dependsOn.isEmpty) then .error (.noRoot d.name)
    else
      match findCycle steps with
      | none => .error .searchAborted
      | some "" =>
        .ok { d with version := versionOrDefault d.version, steps := steps }
      | some step => .error (.cycle step)

/-- `ToNewSteps` converts a validated document into step rows to create. -/
def Definition.toNewSteps (d : Definition) : List NewStep :=
  d.steps.map (fun s =>
    { stepName := s.name
      taskType := s.type
      dependsOn := s.dependsOn
      input := s.input
      maxAttempts := s.maxAttempts
      initialBackoffMS := s.initialBackoffMS
      backoffMultiplier := s.backoffMultiplier
      maxBackoffMS := s.maxBackoffMS
      timeoutSeconds := s.timeoutSeconds })

/-- `ToJSON` renders the document. It fails when an input is no document. -/
def Definition.toJSON (d : Definition) : Option Definition :=
  if d.steps.all (fun s => s.input.all (fun m => decide m.IsValid)) then some d else none

end Orchestrator
