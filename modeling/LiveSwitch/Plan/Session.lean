import LiveSwitch.Plan.Text
import LiveSwitch.Program.Mutation

/-!
# Carrying out a plan

A session edits a candidate program by the commands of one plan.  It remembers which nodes
and register arrays the plan has inserted, so that a reference resolves only to an object
of the origin it claims: `old_` to one that was there before, `new_` to one that the plan
has inserted.  The plan ends at the first command that fails, with the candidate as this
command leaves it.

## Main definitions

* `Session` — the state of a plan.
* `Session.mutation` — the mutation that a command stands for.
* `Session.apply`, `Session.left` — what a command makes of the session when it goes through,
  and when it fails.
* `Session.applyLine` — carries out the command of a line.
* `Session.run` — carries out a plan up to its first failing line.
-/

namespace LiveSwitch

/-- The state of a plan. -/
structure Session where
  /-- The program under change. -/
  candidate : Program
  store : Store
  /-- The program that definitions of new objects come from. -/
  donor : Program
  /-- The pipelines and names of the nodes that the plan has inserted. -/
  newNodes : List (String × String) := []
  /-- The names of the register arrays that the plan has inserted. -/
  newArrays : List String := []
  /-- The number of commands carried out. -/
  applied : Nat := 0

namespace Session

/-- The name in a reference, provided that the object is of the origin it claims. -/
def checkOrigin (inserted : Bool) (kind : ObjectKind) : ObjectRef → Except ReconfigError String
  | .old name => if inserted then .error (.notFound kind name) else .ok name
  | .new name => if inserted then .ok name else .error (.notFound kind name)

/-- The name of a node that a reference means. -/
def node (s : Session) (pipeline : String) (r : ObjectRef) : Except ReconfigError String :=
  checkOrigin (s.newNodes.contains (pipeline, r.name)) .node r

/-- The name of the target of an edge. -/
def edge (s : Session) (pipeline : String) :
    Option ObjectRef → Except ReconfigError (Option String)
  | none => .ok none
  | some r => (s.node pipeline r).map some

/-- The name of a register array that a reference means. -/
def array (s : Session) (r : ObjectRef) : Except ReconfigError String :=
  checkOrigin (s.newArrays.contains r.name) .registerArray r

/-- Remembers a node as inserted. -/
def noteNode (s : Session) (pipeline name : String) : Session :=
  { s with newNodes := (pipeline, name) :: s.newNodes }

/-- Forgets a deleted node. -/
def forgetNode (s : Session) (pipeline name : String) : Session :=
  { s with newNodes := s.newNodes.filter (· != (pipeline, name)) }

/-- What a command makes of the names that the plan has inserted. -/
def note (s : Session) : Command → Session
  | .insertConditional pipeline name | .insertFlex pipeline name _ _
  | .insertTable pipeline name => s.noteNode pipeline name
  | .deleteConditional pipeline node | .deleteTable pipeline node =>
    s.forgetNode pipeline node.name
  | .insertArray name _ _ => { s with newArrays := name :: s.newArrays }
  | .deleteArray array => { s with newArrays := s.newArrays.filter (· != array.name) }
  | .changeConditional .. | .changeTable .. | .resizeArray .. | .rewidenArray .. | .rehash _ => s

/-- The mutation that a command stands for, once its references are found to be of the origins
that they claim. -/
def mutation (s : Session) : Command → Except ReconfigError Mutation
  | .insertConditional pipeline name =>
    return .insertConditional pipeline name
      ((s.donor.pipeline? pipeline).bind (·.conditional? name))
  | .insertFlex pipeline name falseNext trueNext => do
    let falseNext ← s.edge pipeline falseNext
    let trueNext ← s.edge pipeline trueNext
    return .insertFlex pipeline name falseNext trueNext
  | .changeConditional pipeline node branch target => do
    let name ← s.node pipeline node
    let target ← s.edge pipeline target
    return .setConditionalNext pipeline name branch target
  | .deleteConditional pipeline node => do
    return .deleteConditional pipeline (← s.node pipeline node)
  | .insertTable pipeline name => return .insertTable s.donor pipeline name
  | .changeTable pipeline node slot target => do
    let name ← s.node pipeline node
    let target ← s.edge pipeline target
    return .setTableNext pipeline name slot target
  | .deleteTable pipeline node => do
    return .deleteTable pipeline (← s.node pipeline node)
  | .insertArray name size bitwidth => return .insertArray name size bitwidth
  | .resizeArray array size => do return .resizeArray (← s.array array) size
  | .rewidenArray array bitwidth => do return .rewidenArray (← s.array array) bitwidth
  | .deleteArray array => do return .deleteArray (← s.array array)
  | .rehash r => do
    let target ← s.array r.target
    let recording ← s.array r.recording
    let lastPos ← s.array r.lastPos
    let counting ← s.array r.counting
    let reset ← s.array r.reset
    return .rehashArray
      { target, recording, lastPos, counting, countingHash := r.countingHash,
        targetHashes := r.targetHashes, reset }

/-- The effect of a command, its count aside. -/
def perform (s : Session) (c : Command) : Except ReconfigError Session := do
  let m ← s.mutation c
  let (candidate, store) ← m.attempt s.candidate s.store
  return { s with candidate, store }.note c

/-- Carries out a command and counts it. -/
def apply (s : Session) (c : Command) : Except ReconfigError Session := do
  let s ← s.perform c
  return { s with applied := s.applied + 1 }

/-- What a command that fails leaves behind: its mutation may have come some way. -/
def left (s : Session) (c : Command) : Session :=
  match s.mutation c with
  | .ok m =>
    let (candidate, store) := m.inPlace.after (s.candidate, s.store)
    { s with candidate, store }
  | .error _ => s

/-- Carries out the command of a line. -/
def applyLine (s : Session) (line : String) : Except ReconfigError Session := do
  s.apply (← Command.parse line)

/-- What the command of a line leaves behind when it fails. -/
def leftBy (s : Session) (line : String) : Session :=
  match Command.parse line with
  | .ok c => s.left c
  | .error _ => s

/-- What a line of a plan does: nothing if it is blank or a comment. -/
def step (s : Session) : Option String → Except ReconfigError Session
  | none => .error .readPlan
  | some line =>
    match commandLine? line with
    | none => .ok s
    | some command => s.applyLine command

/-- What a line of a plan leaves behind when it fails. -/
def leftAt (s : Session) (line : Option String) : Session :=
  match line.bind commandLine? with
  | some command => s.leftBy command
  | none => s

/-- Carries out lines up to the first one that fails; the session is what that line leaves
behind, together with the reason. -/
def run (s : Session) : List (Option String) → Session × Option ReconfigError
  | [] => (s, none)
  | line :: lines =>
    match s.step line with
    | .ok s => s.run lines
    | .error e => (s.leftAt line, some e)

end Session

end LiveSwitch
