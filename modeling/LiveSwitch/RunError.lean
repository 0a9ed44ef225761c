/-!
# Failures while a packet is processed

## Main definitions

* `IndexError` — an index beyond the cells of a register array.
* `RunError` — what can go wrong while a packet is processed, with its text
  `RunError.message`.
* `maxSteps` — the most nodes a packet visits in one pipeline.
-/

namespace LiveSwitch

/-- The most nodes a packet visits in one pipeline.  A plan may wire cycles. -/
def maxSteps : Nat := 4096

/-- An index beyond the cells of a register array. -/
structure IndexError where
  array : String
  index : Nat
  size : Nat
  deriving DecidableEq, Repr

/-- The text of an index error. -/
def IndexError.message (e : IndexError) : String :=
  s!"Index {e.index} out of range for register array '{e.array}' of size {e.size}"

/-- What can go wrong while a packet is processed. -/
inductive RunError where
  /-- An edge leads to a node that was deleted; `source` is the node it starts from. -/
  | danglingEdge (pipeline : String) (source : String)
  | tooManySteps (pipeline : String)
  | divisionByZero
  | missingActionData (index : Nat)
  | unknownRegister (name : String)
  | unknownCalculation (name : String)
  | unknownAction (id : Int)
  | index (error : IndexError)
  deriving DecidableEq, Repr

/-- The text of a failure. -/
def RunError.message : RunError → String
  | danglingEdge pipeline source =>
    s!"Pipeline '{pipeline}': edge from '{source}' points at a deleted node"
  | tooManySteps pipeline => s!"Pipeline '{pipeline}' exceeded {maxSteps} steps"
  | divisionByZero => "Division by zero"
  | missingActionData i => s!"Missing action data at index {i}"
  | unknownRegister name => s!"Unknown register array '{name}'"
  | unknownCalculation name => s!"Unknown calculation '{name}'"
  | unknownAction id => s!"Unknown action id {id}"
  | index e => e.message

end LiveSwitch
