/-!
# Result codes

A reconfiguration answers with one of ten codes.  Their numbers are part of the control
interface; the command line exits with them.

## Main definitions

* `ResultCode` — the codes, with `number` and `text`.
* `ResultCode.isInputFailure` — the codes for failures of the document or the plan as files.
-/

namespace LiveSwitch

/-- The outcome of one reconfiguration. -/
inductive ResultCode where
  | success
  | prefixError
  | duplicateError
  | unfoundIdError
  | initFail
  | openDocumentFail
  | openPlanFail
  | invalidCommandError
  | unsupportedTargetError
  | invalidHashNameError
  deriving DecidableEq, Repr, Inhabited

namespace ResultCode

/-- The codes in the order of their numbers. -/
def all : List ResultCode :=
  [success, prefixError, duplicateError, unfoundIdError, initFail, openDocumentFail,
    openPlanFail, invalidCommandError, unsupportedTargetError, invalidHashNameError]

/-- The number of a code. -/
def number : ResultCode → Nat
  | success => 0
  | prefixError => 1
  | duplicateError => 2
  | unfoundIdError => 3
  | initFail => 4
  | openDocumentFail => 5
  | openPlanFail => 6
  | invalidCommandError => 7
  | unsupportedTargetError => 8
  | invalidHashNameError => 9

/-- The name of a code. -/
def text : ResultCode → String
  | success => "SUCCESS"
  | prefixError => "PREFIX_ERROR"
  | duplicateError => "DUP_CHECK_ERROR"
  | unfoundIdError => "UNFOUND_ID_ERROR"
  | initFail => "P4OBJECTS_INIT_FAIL"
  | openDocumentFail => "OPEN_JSON_FILE_FAIL"
  | openPlanFail => "OPEN_PLAN_FILE_FAIL"
  | invalidCommandError => "INVALID_COMMAND_ERROR"
  | unsupportedTargetError => "UNSUPPORTED_TARGET_ERROR"
  | invalidHashNameError => "INVALID_HASH_FUNCTION_NAME_ERROR"

/-- Whether the reconfiguration succeeded. -/
def isSuccess : ResultCode → Bool
  | success => true
  | _ => false

/-- Whether the failure lies in the inputs: a document that cannot be opened or is refused, or a
plan that cannot be opened or read. -/
def isInputFailure : ResultCode → Bool
  | initFail | openDocumentFail | openPlanFail => true
  | _ => false

/-- The codes are listed by their numbers. -/
theorem map_number_all : all.map number = List.range 10 := rfl

end ResultCode

end LiveSwitch
