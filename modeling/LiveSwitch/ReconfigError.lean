import LiveSwitch.LoadError
import LiveSwitch.ResultCode

/-!
# Why a reconfiguration is refused

## Main definitions

* `CommandFault` — what is wrong with the shape of a command.
* `ReconfigError` — what is wrong with a reconfiguration, with its text
  `ReconfigError.message` and its result code `ReconfigError.code`.
-/

namespace LiveSwitch

/-- What is wrong with the shape of a command. -/
inductive CommandFault where
  /-- Less than a verb and a kind. -/
  | tooShort
  | unknownVerb
  | arity (expected found : Nat)
  | unknownBranch (token : String)
  | badSize (token : String)
  | badBitwidth (token : String)
  | missingFlag (flag : String) (position : Nat) (found : String)
  deriving DecidableEq, Repr

/-- The text of a fault. -/
def CommandFault.message : CommandFault → String
  | tooShort => "expected a verb and an object kind"
  | unknownVerb => "unknown verb or object kind"
  | arity expected found => s!"expected {expected} tokens, found {found}"
  | unknownBranch token => s!"unknown edge '{token}'"
  | badSize token => s!"size '{token}' outside 1..={Register.maxSize}"
  | badBitwidth token => s!"bitwidth '{token}' outside 1..={Register.maxBitwidth}"
  | missingFlag flag position found =>
    s!"expected '{flag}' at position {position}, found '{found}'"

/-- What is wrong with a reconfiguration. -/
inductive ReconfigError where
  /-- The document with the new definitions cannot be opened. -/
  | openDocument
  | openPlan
  /-- A line of the plan is not text. -/
  | readPlan
  /-- The document with the new definitions is refused. -/
  | init (error : LoadError)
  | invalidCommand (line : String) (fault : CommandFault)
  /-- A reference does not say whether it is old or new. -/
  | missingPrefix (token : String) (expected : String)
  | duplicate (kind : ObjectKind) (name : String)
  | notFound (kind : ObjectKind) (name : String)
  | unsupportedTarget (kind : String)
  | invalidHash (name : String)
  | unknownContext (index : Nat)
  deriving DecidableEq, Repr

namespace ReconfigError

/-- The text of an error. -/
def message : ReconfigError → String
  | openDocument => "Failed to open configuration file"
  | openPlan => "Failed to open plan file"
  | readPlan => "Failed to read plan"
  | init e => s!"Failed to load new configuration: {e.message}"
  | invalidCommand line fault => s!"Invalid command '{line}': {fault.message}"
  | missingPrefix token expected => s!"Token '{token}' must carry prefix {expected}"
  | duplicate kind name => s!"{kind.text} '{name}' already exists"
  | notFound kind name => s!"{kind.text} '{name}' not found"
  | unsupportedTarget kind => s!"Unsupported rehash target '{kind}'"
  | invalidHash name => s!"Invalid hash function name '{name}'"
  | unknownContext index => s!"Unknown context {index}"

/-- The result code of an error. -/
def code : ReconfigError → ResultCode
  | openDocument => .openDocumentFail
  | openPlan | readPlan => .openPlanFail
  | init _ => .initFail
  | invalidCommand _ _ => .invalidCommandError
  | missingPrefix _ _ => .prefixError
  | duplicate _ _ => .duplicateError
  | notFound _ _ | unknownContext _ => .unfoundIdError
  | unsupportedTarget _ => .unsupportedTargetError
  | invalidHash _ => .invalidHashNameError

/-- No error has the code of success. -/
theorem code_ne_success (e : ReconfigError) : e.code ≠ .success := by
  cases e <;> exact nofun

/-- The result code of an outcome. -/
def codeOf {α : Type} : Except ReconfigError α → ResultCode
  | .ok _ => .success
  | .error e => e.code

end ReconfigError

end LiveSwitch
