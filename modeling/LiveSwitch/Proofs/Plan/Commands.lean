import LiveSwitch.Proofs.Plan.Edits

/-!
# The commands of a plan

The command lines of a plan are those that are neither blank nor comments.  A plan that succeeds
has read a command from each of them, and has carried these commands out one after the other and
counted them.

## Main definitions

* `commandLines`, `commandsOf` — the command lines of a plan and their commands.

## Main results

* `Session.run_success` — a plan that succeeds carries out its commands.
* `Session.applied_foldlM` — a session counts the commands that it carries out.
-/

namespace LiveSwitch

/-- The lines that hold commands, without the blanks around them. -/
def commandLines (lines : List (Option String)) : List String :=
  lines.filterMap (·.bind commandLine?)

/-- The commands that can be read from some lines. -/
def commandsOf (lines : List (Option String)) : List Command :=
  (commandLines lines).filterMap fun line => (Command.parse line).toOption

/-- The number of command lines of a plan. -/
def FileContent.commandCount (plan : FileContent) : Nat := (commandLines plan.planLines).length

/-- The commands of a plan. -/
def FileContent.commands (plan : FileContent) : List Command := commandsOf plan.planLines

theorem commandLines_cons {line : String} {command? : Option String}
    (h : commandLine? line = command?) (lines : List (Option String)) :
    commandLines (some line :: lines) = command?.toList ++ commandLines lines := by
  subst h
  rw [commandLines, List.filterMap_cons, Option.bind_some, commandLines]
  cases commandLine? line <;> rfl

namespace Session

variable {s s' : Session}

/-- A plan that succeeds has read a command from each of its command lines and has carried these
commands out. -/
theorem run_success {lines : List (Option String)} (h : s.run lines = (s', none)) :
    (commandLines lines).length = (commandsOf lines).length ∧
      (commandsOf lines).foldlM apply s = .ok s' := by
  induction lines generalizing s with
  | nil =>
    cases h
    exact ⟨rfl, rfl⟩
  | cons line lines ih =>
    rw [run] at h
    split at h
    case h_2 => cases h
    case h_1 t ht =>
      -- a line that is passed over is no command line, any other one has a command
      obtain ⟨hlength, hrun⟩ := ih h
      cases line with
      | none => cases ht
      | some line =>
        rw [step] at ht
        split at ht
        case h_1 hblank =>
          cases ht
          rw [commandsOf, commandLines_cons hblank]
          exact ⟨hlength, hrun⟩
        case h_2 command hcommand =>
          obtain ⟨c, hc, ht⟩ := bind_eq_ok.mp ht
          have hcommands : commandsOf (some line :: lines) = c :: commandsOf lines := by
            rw [commandsOf, commandLines_cons hcommand]
            simp [commandsOf, hc, Except.toOption]
          rw [hcommands, commandLines_cons hcommand]
          exact ⟨congrArg Nat.succ hlength, foldlM_cons_eq_ok.mpr ⟨t, ht, hrun⟩⟩

/-- The effect of a command does not count it. -/
theorem applied_perform {c : Command} (h : s.perform c = .ok s') : s'.applied = s.applied := by
  obtain ⟨-, x, -, rfl⟩ := perform_eq_ok.mp h
  exact applied_note _ c

theorem applied_apply {c : Command} (h : s.apply c = .ok s') : s'.applied = s.applied + 1 := by
  obtain ⟨t, ht, h⟩ := bind_eq_ok.mp h
  rw [← pure_eq_ok.mp h, ← applied_perform ht]

/-- A session counts the commands that it carries out, and keeps its donor. -/
theorem applied_foldlM {cs : List Command} (h : cs.foldlM apply s = .ok s') :
    s'.applied = s.applied + cs.length ∧ s'.donor = s.donor := by
  induction cs generalizing s with
  | nil =>
    rw [foldlM_nil_eq_ok] at h
    subst h
    exact ⟨rfl, rfl⟩
  | cons c cs ih =>
    obtain ⟨t, ht, h⟩ := foldlM_cons_eq_ok.mp h
    obtain ⟨happlied, hdonor⟩ := ih h
    refine ⟨?_, hdonor.trans (apply_ok ht).2⟩
    rw [happlied, applied_apply ht, List.length_cons]
    omega

end Session

end LiveSwitch
