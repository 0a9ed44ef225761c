import LiveSwitch.Proofs.Plan.Commands
import LiveSwitch.Proofs.Plan.Grammar

/-!
# How plans end

A plan ends at its first line that fails, with what this line leaves of the session that the lines
ahead of it have made.  Its command lines count for their tokens only: a command line is told from a
blank line or a comment by its tokens, it is read by them, and so is the code of its refusal.  Blank
lines, comments, indentation, line ends and the kind of the blanks between tokens make no
difference.

## Main definitions

* `lineTokens?`, `tokenLines` — the tokens of a line that holds a command, and those of a plan.
* `Session.Carries` — lines can be read and their commands are carried out.
* `Session.FailsAt` — a line cannot be read or its command is refused.
* `Session.applyPlan` — the result of a plan.

## Main results

* `map_tokens_commandLine?` — which lines hold commands, by their tokens.
* `Command.mapError_code_parse` — a command and the code of a refusal depend on the tokens.
* `Session.run_ok_iff`, `Session.run_error_iff` — how a plan ends.
* `Session.run_congr`, `Session.applyPlan_congr` — plans with the same tokens end in the same way.
-/

namespace LiveSwitch

open ReconfigError (codeOf)

/-! ### The tokens of a line -/

/-- The tokens of a line that holds a command: there is one, and the first one is no comment. -/
def lineTokens? (line : String) : Option (List String) :=
  match Command.tokens line with
  | [] => none
  | t :: ts => if t.toList.head? = some '#' then none else some (t :: ts)

/-- The tokens of the lines that hold commands. -/
def tokenLines (lines : List (Option String)) : List (List String) :=
  lines.filterMap (·.bind lineTokens?)

/-- Whether a line holds a command depends on its tokens, and trimming leaves them. -/
theorem map_tokens_commandLine? (line : String) :
    (commandLine? line).map Command.tokens = lineTokens? line := by
  rw [commandLine?, lineTokens?, Command.tokens]
  obtain ⟨htrim, hwords⟩ | ⟨c, rest, w, ws, htrim, hwords⟩ := Text.trim_cases line.toList
  · rw [htrim, hwords]
    rfl
  · have htokens : Command.tokens (String.ofList (c :: rest)) =
        ((c :: w) :: ws).map String.ofList := by
      rw [Command.tokens, String.toList_ofList, ← htrim, Text.words_trim, hwords]
    rw [htrim, hwords, List.map_cons]
    dsimp only
    rw [String.toList_ofList, List.head?_cons]
    by_cases hc : c = '#'
    · subst hc
      rfl
    · rw [if_neg fun heq => hc (Option.some.inj heq)]
      split
      case h_1 heq => cases heq
      case h_2 heq =>
        cases heq
        exact absurd rfl hc
      case h_3 => rw [Option.map_some, htokens, List.map_cons]

theorem map_tokens_commandLines (lines : List (Option String)) :
    (commandLines lines).map Command.tokens = tokenLines lines := by
  rw [commandLines, tokenLines, List.map_filterMap]
  refine congrArg (lines.filterMap ·) (funext fun line? => ?_)
  cases line? with
  | none => rfl
  | some line => exact map_tokens_commandLine? line

/-! ### Commands of a line -/

/-- Computations that are checked in the same stages have the same code. -/
theorem Graded.codeOf_congr {α β : Type} {x : Except ReconfigError α} {y : Except ReconfigError β}
    {S P H : Prop} (hx : Graded x S P H) (hy : Graded y S P H) : codeOf x = codeOf y := by
  by_cases hS : S
  · by_cases hP : P
    · by_cases hH : H
      · rw [hx.accepted hS hP hH, hy.accepted hS hP hH]
      · rw [hx.unhashed hS hP hH, hy.unhashed hS hP hH]
    · rw [hx.unprefixed hS hP, hy.unprefixed hS hP]
  · rw [hx.misshapen hS, hy.misshapen hS]

namespace Command

theorem codeOf_parse {line line' : String} (h : tokens line = tokens line') :
    codeOf (parse line) = codeOf (parse line') := by
  by_cases hforeign : ForeignRehash (tokens line)
  · obtain ⟨kind, args, heq, hkind⟩ := hforeign
    rw [parse, parse, ← h, heq]
    dsimp only
    rw [ofTokens_foreign hkind, ofTokens_foreign hkind]
  · have hforeign' : ¬ForeignRehash (tokens line') := h ▸ hforeign
    have hgraded := graded_parse hforeign'
    rw [← h] at hgraded
    exact (graded_parse hforeign).codeOf_congr hgraded

/-- The command of a line, and the code if there is none, depend on the tokens alone. -/
theorem mapError_code_parse {line line' : String} (h : tokens line = tokens line') :
    (parse line).mapError ReconfigError.code = (parse line').mapError ReconfigError.code := by
  have hcode := codeOf_parse h
  cases hc : parse line with
  | ok c =>
    have hc' : parse line' = .ok c := parse_eq_ok_iff.mpr (h ▸ parse_eq_ok_iff.mp hc)
    rw [hc']
  | error e =>
    rw [hc] at hcode
    cases hc' : parse line' with
    | ok c' =>
      rw [hc'] at hcode
      exact absurd hcode e.code_ne_success
    | error e' =>
      rw [hc'] at hcode
      exact congrArg Except.error hcode

end Command

/-! ### How a plan ends -/

namespace Session

variable {s s' : Session} {lines lines' : List (Option String)}

/-- What a command line makes of a session, and the code if it is refused, depend on its tokens
alone. -/
theorem mapError_code_applyLine (s : Session) {line line' : String}
    (h : Command.tokens line = Command.tokens line') :
    (s.applyLine line).mapError ReconfigError.code =
      (s.applyLine line').mapError ReconfigError.code := by
  have hparse := Command.mapError_code_parse h
  rw [applyLine, applyLine]
  cases hc : Command.parse line <;> cases hc' : Command.parse line' <;> rw [hc, hc'] at hparse
  case error.error e e' => exact congrArg Except.error (Except.error.inj hparse)
  case ok.ok c c' => rw [Except.ok.inj hparse]
  all_goals cases hparse

/-- So does what it leaves of the session then. -/
theorem leftBy_congr (s : Session) {line line' : String}
    (h : Command.tokens line = Command.tokens line') : s.leftBy line = s.leftBy line' := by
  have hparse := Command.mapError_code_parse h
  rw [leftBy, leftBy]
  cases hc : Command.parse line with
  | error e =>
    cases hc' : Command.parse line' with
    | error e' => rfl
    | ok c' =>
      rw [hc, hc'] at hparse
      cases hparse
  | ok c =>
    cases hc' : Command.parse line' with
    | error e' =>
      rw [hc, hc'] at hparse
      cases hparse
    | ok c' =>
      rw [hc, hc'] at hparse
      rw [Except.ok.inj hparse]

/-- A line fails: it cannot be read, or its command is refused. -/
inductive FailsAt (s : Session) : Option String → ReconfigError → Prop where
  | unreadable : FailsAt s none .readPlan
  | refused {line command : String} {e : ReconfigError}
    (hcommand : commandLine? line = some command) (h : s.applyLine command = .error e) :
    FailsAt s (some line) e

/-- Lines can be read, and the session carries out their command lines one after the other. -/
def Carries (s : Session) (lines : List (Option String)) (s' : Session) : Prop :=
  none ∉ lines ∧ (commandLines lines).foldlM applyLine s = .ok s'

theorem step_eq_error {line : Option String} {e : ReconfigError} :
    s.step line = .error e ↔ s.FailsAt line e := by
  constructor
  · intro h
    cases line with
    | none =>
      cases h
      exact .unreadable
    | some line =>
      rw [step] at h
      split at h
      case h_1 => cases h
      case h_2 hcommand => exact .refused hcommand h
  · rintro (_ | ⟨hcommand, h⟩)
    · rfl
    · rw [step, hcommand]
      exact h

theorem carries_nil : s.Carries [] s' ↔ s = s' := by
  rw [Carries, commandLines, List.filterMap_nil, foldlM_nil_eq_ok]
  exact and_iff_right List.not_mem_nil

theorem carries_cons {line : Option String} :
    s.Carries (line :: lines) s' ↔ ∃ t, s.step line = .ok t ∧ t.Carries lines s' := by
  cases line with
  | none =>
    constructor
    · rintro ⟨hread, -⟩
      exact absurd List.mem_cons_self hread
    · rintro ⟨t, ht, -⟩
      cases ht
  | some line =>
    have hnone : none ∉ some line :: lines ↔ none ∉ lines := by simp
    rw [Carries, hnone, step]
    cases hcommand : commandLine? line with
    | none =>
      -- a line that is passed over leaves the session
      rw [commandLines_cons hcommand]
      constructor
      · intro h
        exact ⟨s, rfl, h⟩
      · rintro ⟨t, ht, h⟩
        cases ht
        exact h
    | some command =>
      rw [commandLines_cons hcommand]
      dsimp only [Option.toList, List.cons_append, List.nil_append]
      rw [foldlM_cons_eq_ok]
      constructor
      · rintro ⟨hread, t, ht, h⟩
        exact ⟨t, ht, hread, h⟩
      · rintro ⟨t, ht, hread, h⟩
        exact ⟨hread, t, ht, h⟩

/-- A plan goes through when all of its lines can be read and its command lines are carried out. -/
theorem run_ok_iff : s.run lines = (s', none) ↔ s.Carries lines s' := by
  induction lines generalizing s with
  | nil => rw [run, carries_nil, Prod.mk.injEq, and_iff_left rfl]
  | cons line lines ih =>
    rw [run, carries_cons]
    cases s.step line with
    | ok t => simp [ih]
    | error e => simp

/-- A plan ends with what the first line that fails leaves; the lines ahead of it are carried
out. -/
theorem run_error_iff {e : ReconfigError} :
    s.run lines = (s', some e) ↔
      ∃ before line after t, lines = before ++ line :: after ∧ s.Carries before t ∧
        t.FailsAt line e ∧ s' = t.leftAt line := by
  induction lines generalizing s with
  | nil => simp [run]
  | cons line lines ih =>
    rw [run]
    constructor
    · intro h
      cases hstep : s.step line with
      | ok t =>
        rw [hstep] at h
        obtain ⟨before, failing, after, u, rfl, hbefore, hfails⟩ := ih.mp h
        exact ⟨line :: before, failing, after, u, rfl, carries_cons.mpr ⟨t, hstep, hbefore⟩,
          hfails⟩
      | error e' =>
        rw [hstep] at h
        cases h
        exact ⟨[], line, lines, s, rfl, carries_nil.mpr rfl, step_eq_error.mp hstep, rfl⟩
    · rintro ⟨before, failing, after, u, heq, hbefore, hfails⟩
      cases before with
      | nil =>
        cases heq
        rw [carries_nil] at hbefore
        obtain ⟨hfails, rfl⟩ := hfails
        subst hbefore
        rw [step_eq_error.mpr hfails]
      | cons first before =>
        cases heq
        obtain ⟨t, ht, hbefore⟩ := carries_cons.mp hbefore
        rw [ht]
        exact ih.mpr ⟨before, failing, after, u, rfl, hbefore, hfails⟩

theorem Carries.applied (h : s.Carries lines s') :
    s'.applied = s.applied + (commandLines lines).length := by
  obtain ⟨hlength, hfold⟩ := run_success (run_ok_iff.mpr h)
  rw [hlength]
  exact (applied_foldlM hfold).1

/-! ### Plans with the same tokens -/

/-- Carries out command lines up to the first one that is refused. -/
def runCommands (s : Session) : List String → Session × Option ReconfigError
  | [] => (s, none)
  | command :: commands =>
    match s.applyLine command with
    | .ok s => s.runCommands commands
    | .error e => (s.leftBy command, some e)

theorem run_eq_runCommands (hread : none ∉ lines) :
    s.run lines = s.runCommands (commandLines lines) := by
  induction lines generalizing s with
  | nil => rfl
  | cons line lines ih =>
    rw [List.mem_cons, not_or] at hread
    cases line with
    | none => exact absurd rfl hread.1
    | some line =>
      rw [run, step]
      cases hcommand : commandLine? line with
      | none =>
        rw [commandLines_cons hcommand]
        exact ih hread.2
      | some command =>
        rw [commandLines_cons hcommand]
        dsimp only [Option.toList, List.cons_append, List.nil_append]
        rw [runCommands]
        cases s.applyLine command with
        | ok t => exact ih hread.2
        | error e =>
          rw [leftAt, Option.bind_some, hcommand]

theorem runCommands_congr {commands commands' : List String}
    (h : commands.map Command.tokens = commands'.map Command.tokens) :
    (s.runCommands commands).1 = (s.runCommands commands').1 ∧
      (s.runCommands commands).2.map ReconfigError.code =
        (s.runCommands commands').2.map ReconfigError.code := by
  induction commands generalizing s commands' with
  | nil =>
    rw [List.map_nil, eq_comm, List.map_eq_nil_iff] at h
    rw [h]
    exact ⟨rfl, rfl⟩
  | cons command commands ih =>
    cases commands' with
    | nil => cases h
    | cons command' commands' =>
      rw [List.map_cons, List.map_cons, List.cons.injEq] at h
      have hline := s.mapError_code_applyLine h.1
      rw [runCommands, runCommands]
      cases ht : s.applyLine command <;> cases ht' : s.applyLine command' <;> rw [ht, ht'] at hline
      case error.error e e' =>
        exact ⟨s.leftBy_congr h.1, congrArg some (Except.error.inj hline)⟩
      case ok.ok t t' =>
        cases hline
        exact ih h.2
      all_goals cases hline

/-- Plans that can be read and whose command lines have the same tokens end in the same session,
and with the same code. -/
theorem run_congr (hread : none ∉ lines) (hread' : none ∉ lines')
    (h : tokenLines lines = tokenLines lines') :
    (s.run lines).1 = (s.run lines').1 ∧
      (s.run lines).2.map ReconfigError.code = (s.run lines').2.map ReconfigError.code := by
  rw [run_eq_runCommands hread, run_eq_runCommands hread']
  refine runCommands_congr ?_
  rw [map_tokens_commandLines, map_tokens_commandLines, h]

/-- What follows the line that fails is not looked at. -/
theorem run_append_of_error {e : ReconfigError} (h : s.run lines = (s', some e))
    (rest : List (Option String)) : s.run (lines ++ rest) = (s', some e) := by
  obtain ⟨before, line, after, t, rfl, hbefore, hfails⟩ := run_error_iff.mp h
  refine run_error_iff.mpr ⟨before, line, after ++ rest, t, ?_, hbefore, hfails⟩
  rw [List.append_assoc, List.cons_append]

/-! ### The result of a plan -/

/-- The result of a plan: the number of commands, or why it was refused. -/
def applyPlan (s : Session) (plan : ByteArray) : Session × Except ReconfigError Nat :=
  match s.run (planLines plan) with
  | (s, none) => (s, .ok s.applied)
  | (s, some e) => (s, .error e)

theorem applyPlan_eq_ok {plan : ByteArray} {n : Nat} :
    s.applyPlan plan = (s', .ok n) ↔ s.run (planLines plan) = (s', none) ∧ s'.applied = n := by
  rw [applyPlan]
  split <;> simp_all

theorem applyPlan_eq_error {plan : ByteArray} {e : ReconfigError} :
    s.applyPlan plan = (s', .error e) ↔ s.run (planLines plan) = (s', some e) := by
  rw [applyPlan]
  split <;> simp_all

theorem codeOf_applyPlan (s : Session) (plan : ByteArray) : codeOf (s.applyPlan plan).2 =
    ((s.run (planLines plan)).2.map ReconfigError.code).getD .success := by
  rw [applyPlan]
  split <;> simp_all [codeOf]

theorem fst_applyPlan (s : Session) (plan : ByteArray) :
    (s.applyPlan plan).1 = (s.run (planLines plan)).1 := by
  rw [applyPlan]
  split <;> simp_all

theorem applyPlan_congr {plan plan' : ByteArray} {read rest read' rest' : List (Option String)}
    (hplan : planLines plan = read ++ rest) (hplan' : planLines plan' = read' ++ rest')
    (hread : none ∉ read) (hread' : none ∉ read') (htokens : tokenLines read = tokenLines read')
    (hend : (∃ s' e, s.run read = (s', some e)) ∨ rest = [] ∧ rest' = []) :
    codeOf (s.applyPlan plan).2 = codeOf (s.applyPlan plan').2 ∧
      (s.applyPlan plan).1 = (s.applyPlan plan').1 := by
  obtain ⟨hsession, hcode⟩ := run_congr (s := s) hread hread' htokens
  have hruns : s.run (planLines plan) = s.run read ∧ s.run (planLines plan') = s.run read' := by
    rw [hplan, hplan']
    rcases hend with ⟨t, e, hfails⟩ | ⟨rfl, rfl⟩
    · obtain ⟨e', hfails'⟩ : ∃ e', s.run read' = (t, some e') := by
        rw [hfails] at hsession hcode
        obtain ⟨e', he', -⟩ := Option.map_eq_some_iff.mp hcode.symm
        exact ⟨e', Prod.ext hsession.symm he'⟩
      rw [run_append_of_error hfails, run_append_of_error hfails', hfails, hfails']
      exact ⟨rfl, rfl⟩
    · rw [List.append_nil, List.append_nil]
      exact ⟨rfl, rfl⟩
  rw [codeOf_applyPlan, codeOf_applyPlan, fst_applyPlan, fst_applyPlan, hruns.1, hruns.2, hcode]
  exact ⟨rfl, hsession⟩

end Session

end LiveSwitch
