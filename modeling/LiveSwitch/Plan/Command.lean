import LiveSwitch.Hash.Algorithm
import LiveSwitch.Pipeline.Node
import LiveSwitch.ReconfigError
import LiveSwitch.Register.Rehash
import LiveSwitch.Text.Blank

/-!
# Plan commands

A plan is a list of commands, one a line.  A command names the objects it edits: an object
that was there before the plan as `old_`, an object that the plan itself has inserted as
`new_`.  Where a node may follow, `null` stands for none.

A line is checked in a fixed order: verb and kind, number of tokens, fixed words and
numbers, then the references from left to right, then the names of hash algorithms.

## Main definitions

* `ObjectRef` — a reference to an old or a new object.
* `Command` — the commands, with `kind`.
* `Command.parse` — the command of a line.
-/

namespace LiveSwitch

/-- A reference to an object. -/
inductive ObjectRef where
  /-- An object that was there before the plan. -/
  | old (name : String)
  /-- An object that the plan has inserted. -/
  | new (name : String)
  deriving DecidableEq, Repr, Inhabited

namespace ObjectRef

/-- The name of the object. -/
def name : ObjectRef → String
  | old n | new n => n

/-- The token of a reference. -/
def text : ObjectRef → String
  | old n => "old_" ++ n
  | new n => "new_" ++ n

end ObjectRef

/-- A rehash of a filter. -/
structure RehashCommand where
  target : ObjectRef
  recording : ObjectRef
  lastPos : ObjectRef
  counting : ObjectRef
  countingHash : HashAlgorithm
  targetHashes : HashTriple
  reset : ObjectRef
  deriving DecidableEq, Repr, Inhabited

/-- A command of a plan.  The target of an edge is a node, or none. -/
inductive Command where
  | insertConditional (pipeline name : String)
  | insertFlex (pipeline name : String) (falseNext trueNext : Option ObjectRef)
  | changeConditional (pipeline : String) (node : ObjectRef) (branch : Branch)
      (target : Option ObjectRef)
  | deleteConditional (pipeline : String) (node : ObjectRef)
  | insertTable (pipeline name : String)
  | changeTable (pipeline : String) (node : ObjectRef) (slot : TableSlot)
      (target : Option ObjectRef)
  | deleteTable (pipeline : String) (node : ObjectRef)
  | insertArray (name : String) (size bitwidth : Nat)
  | resizeArray (array : ObjectRef) (size : Nat)
  | rewidenArray (array : ObjectRef) (bitwidth : Nat)
  | deleteArray (array : ObjectRef)
  | rehash (r : RehashCommand)
  deriving DecidableEq, Repr, Inhabited

namespace Command

/-- The kind of object that a command edits. -/
def kind : Command → ObjectKind
  | insertConditional .. | changeConditional .. | deleteConditional .. => .conditional
  | insertFlex .. => .flex
  | insertTable .. | changeTable .. | deleteTable .. => .table
  | insertArray .. | resizeArray .. | rewidenArray .. | deleteArray .. | rehash _ =>
    .registerArray

/-! ### Tokens -/

/-- The rest of a token after `head`. -/
def after? (head token : String) : Option String :=
  if head.toList.isPrefixOf token.toList then
    some (String.ofList (token.toList.drop head.length))
  else none

/-- The reference of a token. -/
def reference (token : String) : Except ReconfigError ObjectRef :=
  match after? "old_" token, after? "new_" token with
  | some name, _ => .ok (.old name)
  | none, some name => .ok (.new name)
  | none, none => .error (.missingPrefix token "old_ or new_")

/-- The target of an edge. -/
def edgeTarget (token : String) : Except ReconfigError (Option ObjectRef) :=
  if token = "null" then .ok none else (reference token).map some

/-- The name of an object to be inserted. -/
def newName (token : String) : Except ReconfigError String :=
  match after? "new_" token with
  | some name => .ok name
  | none => .error (.missingPrefix token "new_")

/-- The hash algorithm of a token. -/
def hashName (token : String) : Except ReconfigError HashAlgorithm :=
  match HashAlgorithm.ofName? token with
  | some h => .ok h
  | none => .error (.invalidHash token)

/-- The branch of a token. -/
def branchName (line token : String) : Except ReconfigError Branch :=
  match Branch.ofText? token with
  | some b => .ok b
  | none => .error (.invalidCommand line (.unknownBranch token))

/-- The number of cells that a token gives. -/
def sizeOf (line token : String) : Except ReconfigError Nat :=
  match (Text.decimalBelow? UInt64.size token).filter Register.validSize with
  | some n => .ok n
  | none => .error (.invalidCommand line (.badSize token))

/-- The number of bits that a token gives. -/
def bitwidthOf (line token : String) : Except ReconfigError Nat :=
  match (Text.decimalBelow? UInt32.size token).filter Register.validBitwidth with
  | some n => .ok n
  | none => .error (.invalidCommand line (.badBitwidth token))

/-- Checks that a fixed word stands at its position. -/
def checkFlag (line flag : String) (position : Nat) (token : String) :
    Except ReconfigError Unit :=
  if token = flag then .ok ()
  else .error (.invalidCommand line (.missingFlag flag position token))

/-! ### Lines -/

/-- The flag ahead of the three arrays that a rehash reads. -/
def accordingTo : String := "--according-to"

/-- The flag ahead of the hash that finds a value's counter. -/
def countingHashFlag : String := "--hash-function-for-counting"

/-- The flag ahead of the hashes that find a value's marks. -/
def targetHashFlag : String := "--hash-function-for-target"

/-- The flag ahead of the array that a rehash clears. -/
def resetFlag : String := "--reset"

/-- The command of a verb, a kind and the tokens that follow them. -/
def ofTokens (line verb kind : String) (args : List String) : Except ReconfigError Command :=
  let wrongArity (expected : Nat) : Except ReconfigError Command :=
    .error (.invalidCommand line (.arity expected (args.length + 2)))
  match verb, kind with
  | "insert", "cond" =>
    match args with
    | [pipeline, name] => do return insertConditional pipeline (← newName name)
    | _ => wrongArity 4
  | "insert", "flex" =>
    match args with
    | [pipeline, name, falseNext, trueNext] => do
      return insertFlex pipeline (← newName name) (← edgeTarget falseNext)
        (← edgeTarget trueNext)
    | _ => wrongArity 6
  | "change", "cond" | "change", "flex" =>
    match args with
    | [pipeline, node, branch, target] => do
      let branch ← branchName line branch
      return changeConditional pipeline (← reference node) branch (← edgeTarget target)
    | _ => wrongArity 6
  | "delete", "cond" | "delete", "flex" =>
    match args with
    | [pipeline, node] => do return deleteConditional pipeline (← reference node)
    | _ => wrongArity 4
  | "insert", "tabl" =>
    match args with
    | [pipeline, name] => do return insertTable pipeline (← newName name)
    | _ => wrongArity 4
  | "change", "tabl" =>
    match args with
    | [pipeline, node, slot, target] => do
      return changeTable pipeline (← reference node) (.ofText slot) (← edgeTarget target)
    | _ => wrongArity 6
  | "delete", "tabl" =>
    match args with
    | [pipeline, node] => do return deleteTable pipeline (← reference node)
    | _ => wrongArity 4
  | "insert", "register_array" =>
    match args with
    | [name, size, bitwidth] => do
      let size ← sizeOf line size
      let bitwidth ← bitwidthOf line bitwidth
      return insertArray (← newName name) size bitwidth
    | _ => wrongArity 5
  | "change", "register_array_size" =>
    match args with
    | [array, size] => do
      let size ← sizeOf line size
      return resizeArray (← reference array) size
    | _ => wrongArity 4
  | "change", "register_array_bitwidth" =>
    match args with
    | [array, bitwidth] => do
      let bitwidth ← bitwidthOf line bitwidth
      return rewidenArray (← reference array) bitwidth
    | _ => wrongArity 4
  | "delete", "register_array" =>
    match args with
    | [array] => do return deleteArray (← reference array)
    | _ => wrongArity 3
  | "rehash", "register_array" =>
    match args with
    | [target, f₁, recording, lastPos, counting, f₂, countingHash, f₃, h₁, h₂, h₃, f₄,
        reset] => do
      checkFlag line accordingTo 3 f₁
      checkFlag line countingHashFlag 7 f₂
      checkFlag line targetHashFlag 9 f₃
      checkFlag line resetFlag 13 f₄
      let target ← reference target
      let recording ← reference recording
      let lastPos ← reference lastPos
      let counting ← reference counting
      let reset ← reference reset
      let countingHash ← hashName countingHash
      let targetHashes : HashTriple := ⟨← hashName h₁, ← hashName h₂, ← hashName h₃⟩
      return rehash
        { target, recording, lastPos, counting, countingHash, targetHashes, reset }
    | _ => wrongArity 15
  | "rehash", kind => .error (.unsupportedTarget kind)
  | _, _ => .error (.invalidCommand line .unknownVerb)

/-- The tokens of a line. -/
def tokens (line : String) : List String := (Text.words line.toList).map String.ofList

/-- The command of a line. -/
def parse (line : String) : Except ReconfigError Command :=
  match tokens line with
  | verb :: kind :: args => ofTokens line verb kind args
  | _ => .error (.invalidCommand line .tooShort)

end Command

end LiveSwitch
