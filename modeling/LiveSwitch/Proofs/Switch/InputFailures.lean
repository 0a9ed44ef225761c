import LiveSwitch.Proofs.Plan.Outcomes
import LiveSwitch.Proofs.Plan.Refusals
import LiveSwitch.Switch.Basic

/-!
# Failures of the inputs

Three codes stand for failures of the inputs: a document or a plan that cannot be opened, and a
document that is refused.  A plan is read line by line while its commands are carried out, and a
line that is not text has the code of a plan that cannot be opened.  So these codes do not say that
nothing was carried out: that is so just if no command line stands ahead of such a line.

## Main definitions

* `Session.StopsUnreadable` — a plan comes to a line that is not text, after some commands.
* `Switch.InputFailure` — how a reconfiguration fails for its inputs.

## Main results

* `Session.failsWith_applyLine` — no command line is refused with the code of an input failure.
* `Session.isInputFailure_iff`, `Switch.isInputFailure_iff` — which plans and which
  reconfigurations end with such a code.
* `Switch.input_failures_decided` — the same, with what was carried out by then.
-/

namespace LiveSwitch

open ReconfigError (codeOf)

/-! ### Codes of refused lines -/

/-- What is checked in stages is refused with the codes of these stages. -/
theorem Graded.not_inputFailure {α : Type} {x : Except ReconfigError α} {S P H : Prop}
    (h : Graded x S P H) : (codeOf x).isInputFailure = false := by
  by_cases hS : S
  · by_cases hP : P
    · by_cases hH : H
      · rw [h.accepted hS hP hH]
        rfl
      · rw [h.unhashed hS hP hH]
        rfl
    · rw [h.unprefixed hS hP]
      rfl
  · rw [h.misshapen hS]
    rfl

theorem Command.failsWith_parse (line : String) :
    FailsWith (·.isInputFailure = false) (parse line) := by
  have hcode : (codeOf (parse line)).isInputFailure = false := by
    by_cases hforeign : ForeignRehash (tokens line)
    · obtain ⟨kind, args, heq, hkind⟩ := hforeign
      rw [parse, heq]
      exact congrArg (ResultCode.isInputFailure <| codeOf ·) (ofTokens_foreign hkind)
    · exact (graded_parse hforeign).not_inputFailure
  intro e he
  rw [he] at hcode
  exact hcode

theorem ResultCode.OfEdit.not_inputFailure {code : ResultCode} (h : code.OfEdit) :
    code.isInputFailure = false := by
  obtain rfl | rfl := h <;> rfl

namespace Session

variable {s s' : Session} {lines : List (Option String)} {plan : ByteArray} {n : Nat}

/-- No command line is refused with the code of an input failure. -/
theorem failsWith_applyLine (s : Session) (line : String) :
    FailsWith (·.isInputFailure = false) (s.applyLine line) :=
  .bind (Command.failsWith_parse line) fun c =>
    (s.failsWith_apply c).mono fun _ => ResultCode.OfEdit.not_inputFailure

/-- Where a plan ends, the code of an input failure says that the line is not text. -/
theorem FailsAt.isInputFailure_iff {line : Option String} {e : ReconfigError}
    (h : s.FailsAt line e) : e.code.isInputFailure ↔ line = none := by
  cases h with
  | unreadable => exact iff_of_true rfl rfl
  | refused hcommand he =>
    rw [s.failsWith_applyLine _ e he]
    exact iff_of_false Bool.false_ne_true nofun

/-! ### Plans -/

/-- A plan comes to a line that is not text when its session has carried out the `n` command lines
ahead of it. -/
def StopsUnreadable (s : Session) (lines : List (Option String)) (s' : Session) (n : Nat) : Prop :=
  ∃ before after, lines = before ++ none :: after ∧ s.Carries before s' ∧
    (commandLines before).length = n

namespace StopsUnreadable

theorem run (h : s.StopsUnreadable lines s' n) : s.run lines = (s', some .readPlan) := by
  obtain ⟨before, after, hlines, hbefore, -⟩ := h
  exact run_error_iff.mpr ⟨before, none, after, s', hlines, hbefore, .unreadable, rfl⟩

theorem applied (h : s.StopsUnreadable lines s' n) : s'.applied = s.applied + n := by
  obtain ⟨before, after, -, hbefore, rfl⟩ := h
  exact hbefore.applied

/-- Blank lines and comments ahead of the line change nothing. -/
theorem eq_of_zero (h : s.StopsUnreadable lines s' 0) : s' = s := by
  obtain ⟨before, after, -, ⟨-, hfold⟩, hnone⟩ := h
  rw [List.eq_nil_of_length_eq_zero hnone] at hfold
  exact (Except.ok.inj hfold).symm

end StopsUnreadable

theorem run_inputFailure_iff :
    (∃ e, s.run lines = (s', some e) ∧ e.code.isInputFailure) ↔
      ∃ n, s.StopsUnreadable lines s' n := by
  constructor
  · rintro ⟨e, hrun, he⟩
    obtain ⟨before, line, after, t, hlines, hbefore, hfails, rfl⟩ := run_error_iff.mp hrun
    obtain rfl := hfails.isInputFailure_iff.mp he
    exact ⟨_, before, after, hlines, hbefore, rfl⟩
  · rintro ⟨n, h⟩
    exact ⟨.readPlan, h.run, rfl⟩

/-- A plan has the code of an input failure just if it comes to a line that is not text. -/
theorem isInputFailure_iff : (codeOf (s.applyPlan plan).2).isInputFailure ↔
    ∃ s' n, s.StopsUnreadable (planLines plan) s' n := by
  rcases hresult : s.applyPlan plan with ⟨t, r⟩
  cases r with
  | ok n =>
    obtain ⟨hrun, -⟩ := applyPlan_eq_ok.mp hresult
    refine iff_of_false Bool.false_ne_true ?_
    rintro ⟨s', n, h⟩
    rw [h.run] at hrun
    cases hrun
  | error e =>
    have hrun := applyPlan_eq_error.mp hresult
    constructor
    · intro he
      exact ⟨t, run_inputFailure_iff.mp ⟨e, hrun, he⟩⟩
    · rintro ⟨s', n, h⟩
      rw [h.run] at hrun
      cases hrun
      rfl

/-- A plan with a register array ahead of a line that is not text: the code is that of a plan that
cannot be opened, and the array is there. -/
theorem unreadable_line_after_command :
    let start : Session := { candidate := {}, store := {}, donor := {} }
    let plan := "insert register_array new_k 1 1\n".toUTF8 ++ ⟨#[0xFF, 10]⟩
    codeOf (start.applyPlan plan).2 = .openPlanFail ∧
      ResultCode.openPlanFail.isInputFailure ∧
      (start.applyPlan plan).1.applied = 1 ∧
      ((start.applyPlan plan).1.candidate.array? "k").isSome := by
  decide +kernel

end Session

/-! ### Reconfigurations -/

/-- A file can be opened, though perhaps not read. -/
def FileContent.Opens : FileContent → Prop
  | .missing | .blocked => False
  | .unreadable | .bytes _ => True

namespace Switch

variable {w : Switch} {cxt : Nat} {document plan : FileContent} {n : Nat} {s : Store}

/-- How a reconfiguration fails for its inputs, with the number of commands that were carried out
and the store that they left. -/
inductive InputFailure (w : Switch) (cxt : Nat) (document plan : FileContent) :
    Nat → Store → Prop where
  | document (hdocument : ¬document.Opens) : InputFailure w cxt document plan 0 w.store
  | plan (hdocument : document.Opens) (hplan : ¬plan.Opens) :
    InputFailure w cxt document plan 0 w.store
  | donor {c : Context} {e : LoadError} (hdocument : document.Opens) (hplan : plan.Opens)
    (hc : w.contexts[cxt]? = some c) (hdonor : Program.ofFile {} document = .error e) :
    InputFailure w cxt document plan 0 w.store
  | line {c : Context} {donor : Program} {s₀ : Store} {s' : Session} {n : Nat}
    (hdocument : document.Opens) (hplan : plan.Opens) (hc : w.contexts[cxt]? = some c)
    (hdonor : Program.ofFile {} document = .ok (donor, s₀))
    (hline : Session.StopsUnreadable { candidate := c.active.program, store := w.store, donor }
      plan.planLines s' n) :
    InputFailure w cxt document plan n s'.store

theorem attempt_of_opens (hdocument : document.Opens) (hplan : plan.Opens) :
    w.attempt cxt document plan = w.reconfigure cxt document plan := by
  unfold attempt
  split
  case h_1 | h_2 => exact hdocument.elim
  case h_3 | h_4 => exact hplan.elim
  case h_5 => rfl

/-- A reconfiguration that fails for its inputs leaves the contexts, and the store as its commands
have left it. -/
theorem InputFailure.attempt_eq (h : w.InputFailure cxt document plan n s) :
    ∃ e : ReconfigError, w.attempt cxt document plan = ({ w with store := s }, .error e) ∧
      e.code.isInputFailure := by
  cases h with
  | document hdocument =>
    refine ⟨.openDocument, ?_, rfl⟩
    cases document with
    | missing | blocked => rfl
    | unreadable | bytes => exact absurd trivial hdocument
  | plan hdocument hplan =>
    refine ⟨.openPlan, ?_, rfl⟩
    cases plan with
    | missing | blocked =>
      cases document with
      | missing | blocked => exact hdocument.elim
      | unreadable | bytes => rfl
    | unreadable | bytes => exact absurd trivial hplan
  | @donor c e hdocument hplan hc hdonor =>
    refine ⟨.init e, ?_, rfl⟩
    rw [attempt_of_opens hdocument hplan, reconfigure, hc]
    simp only [hdonor]
  | line hdocument hplan hc hdonor hline =>
    refine ⟨.readPlan, ?_, rfl⟩
    rw [attempt_of_opens hdocument hplan, reconfigure, hc]
    simp only [hdonor, hline.run]

/-- A reconfiguration has the code of an input failure just if it fails for its inputs. -/
theorem isInputFailure_iff : (w.applyPlan cxt document plan).1.isInputFailure ↔
    ∃ n s, w.InputFailure cxt document plan n s := by
  show (codeOf (w.attempt cxt document plan).2).isInputFailure ↔ _
  constructor
  · intro h
    -- in the order in which the inputs are looked at
    by_cases hdocument : document.Opens
    case neg => exact ⟨0, w.store, .document hdocument⟩
    by_cases hplan : plan.Opens
    case neg => exact ⟨0, w.store, .plan hdocument hplan⟩
    rw [attempt_of_opens hdocument hplan, reconfigure] at h
    split at h
    case h_1 => cases h
    case h_2 c hc =>
      split at h
      case h_1 e hdonor => exact ⟨0, w.store, .donor hdocument hplan hc hdonor⟩
      case h_2 donor s₀ hdonor =>
        dsimp only at h
        split at h
        case h_1 s' e hrun =>
          obtain ⟨n, hline⟩ := Session.run_inputFailure_iff.mp ⟨e, hrun, h⟩
          exact ⟨n, s'.store, .line hdocument hplan hc hdonor hline⟩
        case h_2 => cases h
  · rintro ⟨n, s, h⟩
    obtain ⟨e, heq, he⟩ := h.attempt_eq
    rw [heq]
    exact he

theorem InputFailure.store_eq (h : w.InputFailure cxt document plan 0 s) : s = w.store := by
  cases h with
  | document | plan | donor => rfl
  | line _ _ _ _ hline => rw [hline.eq_of_zero]

theorem active_record (w : Switch) (cxt k : Nat) (f : Stats → Stats) :
    (w.modifyStats cxt f).active k = w.active k := by
  unfold active context modifyStats
  dsimp only
  rw [List.getElem?_modify]
  by_cases hk : cxt = k
  · cases hc : w.contexts[k]? with
    | none => rfl
    | some c => simp [hk, Except.map]
  · simp [hk]

/-- Failures of the inputs are decided.  A plan has the code of one just if it comes to a line that
is not text: then its session has carried out the commands ahead of that line, and is untouched if
there are none.  A reconfiguration has such a code just if the document or the plan cannot be
opened, the document is refused, or the plan comes to such a line: every context keeps its
generation, and the store is as the commands ahead of the line have left it. -/
theorem input_failures_decided (start : Session) (bytes : ByteArray) (w : Switch) (cxt : Nat)
    (document plan : FileContent) :
    ((codeOf (start.applyPlan bytes).2).isInputFailure ↔
      ∃ s' n, start.StopsUnreadable (planLines bytes) s' n) ∧
    (∀ s' n, start.StopsUnreadable (planLines bytes) s' n →
      start.applyPlan bytes = (s', .error .readPlan) ∧ s'.applied = start.applied + n ∧
        (n = 0 → s' = start)) ∧
    ((w.applyPlan cxt document plan).1.isInputFailure ↔
      ∃ n s, w.InputFailure cxt document plan n s) ∧
    ∀ n s, w.InputFailure cxt document plan n s →
      (w.applyPlan cxt document plan).2.store = s ∧ (n = 0 → s = w.store) ∧
        ∀ k, (w.applyPlan cxt document plan).2.active k = w.active k := by
  refine ⟨Session.isInputFailure_iff, fun s' n h => ?_, isInputFailure_iff, fun n s h => ?_⟩
  · refine ⟨Session.applyPlan_eq_error.mpr h.run, h.applied, ?_⟩
    rintro rfl
    exact h.eq_of_zero
  · obtain ⟨e, heq, -⟩ := h.attempt_eq
    rw [applyPlan, heq]
    refine ⟨rfl, ?_, fun k => active_record _ cxt k _⟩
    rintro rfl
    exact h.store_eq

/-- A comment ahead of a line that is not text, and a plan that is missing. -/
theorem input_failures_without_commands :
    let start : Session := { candidate := {}, store := {}, donor := {} }
    let bytes := "# grow\n".toUTF8 ++ ⟨#[0xFF, 10]⟩
    let w := Switch.create 1
    start.applyPlan bytes = (start, .error .readPlan) ∧
      (w.applyPlan 0 (.ofText "") .missing).1.isInputFailure ∧
      (w.applyPlan 0 (.ofText "") .missing).2.active 0 = w.active 0 := by
  intro start bytes w
  obtain ⟨-, hengine, hswitch, hkeeps⟩ :=
    input_failures_decided start bytes w 0 (.ofText "") .missing
  have hlines : planLines bytes = [some "# grow", none] := by decide +kernel
  have hstops : start.StopsUnreadable (planLines bytes) start 0 :=
    ⟨[some "# grow"], [], hlines, ⟨by decide, rfl⟩, rfl⟩
  have hfails : w.InputFailure 0 (.ofText "") .missing 0 w.store := .plan trivial id
  exact ⟨(hengine _ _ hstops).1, hswitch.mpr ⟨_, _, hfails⟩, (hkeeps _ _ hfails).2.2 0⟩

end Switch

end LiveSwitch
