import LiveSwitch.FileContent
import LiveSwitch.Plan.Command

/-!
# Plan texts

A plan is written line by line.  The functions that add a command write its tokens as they
are given, so the caller chooses whether a name is old or new.

## Main definitions

* `PlanText` — the lines of a plan, with a function for each command.
* `PlanText.text` — the whole text, each line ended by a line feed.
* `PlanText.command` — adds a command that was parsed or made up as a value.
* `planLines` — the lines of the bytes of a plan.
* `commandLine?` — what of a line is a command, if it is neither blank nor a comment.
-/

namespace LiveSwitch

/-- The lines of a plan. -/
structure PlanText where
  lines : List String := []
  deriving DecidableEq, Repr, Inhabited

namespace PlanText

/-- Adds a line as it is. -/
def line (p : PlanText) (s : String) : PlanText := ⟨p.lines ++ [s]⟩

/-- Adds a line of tokens. -/
def tokens (p : PlanText) (ts : List String) : PlanText := p.line (" ".intercalate ts)

/-- Adds a comment. -/
def comment (p : PlanText) (s : String) : PlanText := p.line ("# " ++ s)

/-- Adds an empty line. -/
def blank (p : PlanText) : PlanText := p.line ""

/-- Inserts a conditional. -/
def insertConditional (p : PlanText) (pipeline node : String) : PlanText :=
  p.tokens ["insert", "cond", pipeline, node]

/-- Inserts a flex node. -/
def insertFlex (p : PlanText) (pipeline node falseNext trueNext : String) : PlanText :=
  p.tokens ["insert", "flex", pipeline, node, falseNext, trueNext]

/-- Sets an edge of a conditional. -/
def changeConditional (p : PlanText) (pipeline node branch target : String) : PlanText :=
  p.tokens ["change", "cond", pipeline, node, branch, target]

/-- Sets an edge of a flex node. -/
def changeFlex (p : PlanText) (pipeline node branch target : String) : PlanText :=
  p.tokens ["change", "flex", pipeline, node, branch, target]

/-- Deletes a conditional. -/
def deleteConditional (p : PlanText) (pipeline node : String) : PlanText :=
  p.tokens ["delete", "cond", pipeline, node]

/-- Deletes a flex node. -/
def deleteFlex (p : PlanText) (pipeline node : String) : PlanText :=
  p.tokens ["delete", "flex", pipeline, node]

/-- Inserts a table. -/
def insertTable (p : PlanText) (pipeline table : String) : PlanText :=
  p.tokens ["insert", "tabl", pipeline, table]

/-- Sets an edge of a table. -/
def changeTable (p : PlanText) (pipeline table slot target : String) : PlanText :=
  p.tokens ["change", "tabl", pipeline, table, slot, target]

/-- Deletes a table. -/
def deleteTable (p : PlanText) (pipeline table : String) : PlanText :=
  p.tokens ["delete", "tabl", pipeline, table]

/-- Inserts a register array. -/
def insertArray (p : PlanText) (name : String) (size bitwidth : Nat) : PlanText :=
  p.tokens ["insert", "register_array", name, toString size, toString bitwidth]

/-- Gives a register array another number of cells. -/
def resizeArray (p : PlanText) (name : String) (size : Nat) : PlanText :=
  p.tokens ["change", "register_array_size", name, toString size]

/-- Gives the cells of a register array another width. -/
def rewidenArray (p : PlanText) (name : String) (bitwidth : Nat) : PlanText :=
  p.tokens ["change", "register_array_bitwidth", name, toString bitwidth]

/-- Deletes a register array. -/
def deleteArray (p : PlanText) (name : String) : PlanText :=
  p.tokens ["delete", "register_array", name]

/-- Rehashes a filter. -/
def rehash (p : PlanText) (target recording lastPos counting countingHash h₁ h₂ h₃ reset : String) :
    PlanText :=
  p.tokens ["rehash", "register_array", target, Command.accordingTo, recording, lastPos,
    counting, Command.countingHashFlag, countingHash, Command.targetHashFlag, h₁, h₂, h₃,
    Command.resetFlag, reset]

/-- The token of an edge target. -/
def edgeToken : Option ObjectRef → String
  | some r => r.text
  | none => "null"

/-- Adds a command. -/
def command (p : PlanText) : Command → PlanText
  | .insertConditional pipeline name => p.insertConditional pipeline (ObjectRef.new name).text
  | .insertFlex pipeline name falseNext trueNext =>
    p.insertFlex pipeline (ObjectRef.new name).text (edgeToken falseNext) (edgeToken trueNext)
  | .changeConditional pipeline node branch target =>
    p.changeConditional pipeline node.text branch.text (edgeToken target)
  | .deleteConditional pipeline node => p.deleteConditional pipeline node.text
  | .insertTable pipeline name => p.insertTable pipeline (ObjectRef.new name).text
  | .changeTable pipeline node slot target =>
    p.changeTable pipeline node.text slot.text (edgeToken target)
  | .deleteTable pipeline node => p.deleteTable pipeline node.text
  | .insertArray name size bitwidth => p.insertArray (ObjectRef.new name).text size bitwidth
  | .resizeArray array size => p.resizeArray array.text size
  | .rewidenArray array bitwidth => p.rewidenArray array.text bitwidth
  | .deleteArray array => p.deleteArray array.text
  | .rehash r =>
    p.rehash r.target.text r.recording.text r.lastPos.text r.counting.text
      r.countingHash.name r.targetHashes.first.name r.targetHashes.second.name
      r.targetHashes.third.name r.reset.text

/-- The number of lines. -/
def size (p : PlanText) : Nat := p.lines.length

/-- Whether there is no line. -/
def isEmpty (p : PlanText) : Bool := p.lines.isEmpty

/-- The whole text, each line ended by a line feed. -/
def text (p : PlanText) : String := "\n".intercalate p.lines ++ "\n"

end PlanText

/-! ### Reading a plan -/

/-- The lines of bytes: the runs between line feeds, the last one only if it holds
something. -/
def splitLines : List UInt8 → List (List UInt8)
  | [] => []
  | b :: bs =>
    if b = 10 then [] :: splitLines bs
    else match splitLines bs with
      | [] => [[b]]
      | l :: ls => (b :: l) :: ls

/-- The text of a line, if its bytes are UTF-8. -/
def lineText? (bytes : List UInt8) : Option String :=
  String.fromUTF8? ⟨bytes.toArray⟩

/-- The lines of a plan; a line that is not text is `none`. -/
def planLines (bytes : ByteArray) : List (Option String) :=
  (splitLines bytes.data.toList).map lineText?

/-- The lines of the file of a plan; what cannot be read has one line that is not text. -/
def FileContent.planLines : FileContent → List (Option String)
  | .bytes content => LiveSwitch.planLines content
  | .missing | .blocked | .unreadable => [none]

/-- The command on a line without the blanks around it; blank lines and lines that start
with `#` hold none. -/
def commandLine? (line : String) : Option String :=
  match Text.trim line.toList with
  | [] => none
  | '#' :: _ => none
  | cs => some (String.ofList cs)

end LiveSwitch
