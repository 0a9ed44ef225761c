import LiveSwitch.Proofs.Plan.Lines
import LiveSwitch.Proofs.Plan.Outcomes
import LiveSwitch.Proofs.Switch.Mutations

/-!
# Plans in place

A plan edits its candidate in place, command by command.  A command checks its references before
its edit makes the first change, and the edit takes place as a whole or is refused, so the plan in
place does what the plan does as a whole.  A refused command leaves the candidate as the commands
ahead of it have made it, unless part of its edit is left, which needs ids that have come round.

## Main definitions

* `Engine` — changes of a session in place, with `Engine.apply` for a command, `Engine.line` for a
  line and `Engine.plan` for a plan.
* `Engine.EndsAs` — a computation does what an attempt makes of the session, or is refused with it.

## Main results

* `Engine.endsAs_apply` — a command takes place as a whole or is refused.
* `Engine.run_plan` — a plan in place does what the plan does as a whole.
* `Session.outcome_decided` — the outcome of a plan.
* `Session.refused_line_leaves_action` — a line that is refused and leaves an action behind.
-/

namespace LiveSwitch

open ReconfigError (codeOf)

/-! ### Plans in place -/

/-- Changes of a session in place.  What was changed by the time of a refusal stays changed. -/
abbrev Engine := EStateM ReconfigError Session

namespace Engine

/-- Checks a reference. -/
def check (r : Reference) : Engine Unit := do
  match (← get).check r with
  | .ok () => return
  | .error e => throw e

/-- Changes the candidate and the store of its arrays. -/
def mutate (m : Mutation) : Engine Unit := fun s =>
  match m.inPlace.run (s.candidate, s.store) with
  | .ok _ x => .ok () { s with candidate := x.1, store := x.2 }
  | .error e x => .error e { s with candidate := x.1, store := x.2 }

/-- Carries out a command and counts it. -/
def apply (c : Command) : Engine Unit := do
  c.references.forM check
  mutate (c.edit.mutation (← get).donor)
  modify (·.note c)
  modify fun s => { s with applied := s.applied + 1 }

/-- Carries out the command of a line, if it has one. -/
def line : Option String → Engine Unit
  | none => throw .readPlan
  | some line =>
    match commandLine? line with
    | none => return
    | some command =>
      match Command.parse command with
      | .ok c => apply c
      | .error e => throw e

/-- Carries out a plan and gives the number of commands. -/
def plan (bytes : ByteArray) : Engine Nat := do
  (planLines bytes).forM line
  return (← get).applied

variable {s : Session}

/-- A computation does what an attempt makes of the session, or is refused as the attempt is and
leaves a session behind. -/
def EndsAs (x : Engine Unit) (s : Session) (attempt : Except ReconfigError Session)
    (left : Session) : Prop :=
  x.run s = match attempt with
    | .ok s' => .ok () s'
    | .error e => .error e left

theorem endsAs_check (r : Reference) :
    EndsAs (check r) s ((s.check r).map fun _ => s) s := by
  unfold EndsAs check
  rw [EStateM.run_bind, EStateM.run_get]
  dsimp only
  cases s.check r <;> rfl

theorem endsAs_checks (rs : List Reference) :
    EndsAs (rs.forM check) s ((rs.forM s.check).map fun _ => s) s := by
  induction rs with
  | nil => rfl
  | cons r rs ih =>
    unfold EndsAs at ih ⊢
    simp only [List.forM_eq_forM] at ih ⊢
    rw [List.forM_cons, List.forM_cons, EStateM.run_bind, endsAs_check]
    cases s.check r with
    | ok => exact ih
    | error e => rfl

/-- A mutation takes place as a whole, or it leaves what it leaves of the candidate. -/
theorem endsAs_mutate (hs : s.candidate.Built) (m : Mutation) :
    EndsAs (mutate m) s
      ((m.attempt s.candidate s.store).map fun x => { s with candidate := x.1, store := x.2 })
      { s with
        candidate := (m.inPlace.after (s.candidate, s.store)).1
        store := (m.inPlace.after (s.candidate, s.store)).2 } := by
  have hrun : (mutate m).run s = match m.inPlace.run (s.candidate, s.store) with
      | .ok _ x => .ok () { s with candidate := x.1, store := x.2 }
      | .error e x => .error e { s with candidate := x.1, store := x.2 } := rfl
  have hends := m.ends_inPlace hs.consistent s.store
  unfold EndsAs
  rw [hrun, Mutating.after]
  cases hattempt : m.attempt s.candidate s.store with
  | ok x =>
    rw [(Mutation.run_eq_ok_iff hs.consistent).mpr hattempt]
    rfl
  | error e =>
    rw [hattempt] at hends
    obtain ⟨g', hrefused, -⟩ := hends
    rw [hrefused]
    rfl

/-- A command in place does what the command does as a whole. -/
theorem endsAs_apply (hs : s.candidate.Built) (c : Command) :
    EndsAs (apply c) s (s.apply c) (s.left c) := by
  unfold EndsAs apply
  rw [Session.apply, Session.perform, Session.left, Session.mutation_eq, EStateM.run_bind,
    endsAs_checks]
  cases c.references.forM s.check with
  | error e => rfl
  | ok =>
    have hm := endsAs_mutate hs (c.edit.mutation s.donor)
    unfold EndsAs at hm
    show EStateM.run (mutate (c.edit.mutation s.donor) >>= _) s = _
    rw [EStateM.run_bind, hm]
    simp only [ok_bind, pure_bind]
    cases (c.edit.mutation s.donor).attempt s.candidate s.store with
    | ok x => rfl
    | error e => rfl

/-- A line in place does what the line does as a whole. -/
theorem endsAs_line (hs : s.candidate.Built) (line? : Option String) :
    EndsAs (line line?) s (s.step line?) (s.leftAt line?) := by
  cases line? with
  | none => rfl
  | some text =>
    rw [line, Session.step, Session.leftAt, Option.bind_some]
    cases commandLine? text with
    | none => rfl
    | some command =>
      dsimp only
      rw [Session.applyLine, Session.leftBy]
      cases Command.parse command with
      | ok c => exact endsAs_apply hs c
      | error e => rfl

theorem run_forM_line (hs : s.candidate.Built) (lines : List (Option String)) :
    (lines.forM line).run s = match s.run lines with
      | (s', none) => .ok () s'
      | (s', some e) => .error e s' := by
  induction lines generalizing s with
  | nil => rfl
  | cons line? lines ih =>
    rw [List.forM_eq_forM] at ih ⊢
    rw [List.forM_cons, EStateM.run_bind, endsAs_line hs, Session.run]
    cases hstep : s.step line? with
    | error e => rfl
    | ok t =>
      have ht : t.candidate.Built := by
        rcases Session.step_ok hstep with rfl | ⟨e, -, hrun, -⟩
        · exact hs
        · exact hs.edit hrun
      exact ih ht

/-- A plan in place does what the plan does as a whole. -/
theorem run_plan (hs : s.candidate.Built) (bytes : ByteArray) :
    (plan bytes).run s = match s.applyPlan bytes with
      | (s', .ok n) => .ok n s'
      | (s', .error e) => .error e s' := by
  unfold plan
  rw [EStateM.run_bind, run_forM_line hs, Session.applyPlan]
  obtain ⟨s', e?⟩ := s.run (planLines bytes)
  cases e? with
  | none => rfl
  | some e => rfl

end Engine

/-! ### The outcome of a plan -/

namespace Session

/-- A line leaves no part of its edit as long as ids have not come round. -/
theorem FailsPartWay.not_left {s : Session} {line : Option String} {e : ReconfigError}
    {g' : Program} (h : s.FailsPartWay line e g') (hstrays : s.candidate.arrays.strays = [])
    (hahead : s.candidate.calculations.Ahead)
    (hmax : ∀ c ∈ g'.calculations.objects, idOf c < maxId) : False := by
  obtain ⟨-, -, -, hpart⟩ := h
  exact Mutation.not_leavesPart hstrays hahead hmax hpart

/-- The outcome of a plan is decided by its command lines up to the first one that fails.  A plan
goes through just if all of its lines can be read and its command lines are carried out, and gives
their number.  Otherwise it is refused as its first failing line is, in what this line leaves of the
session that the lines ahead of it make: all of it but the candidate, and this one, too, unless part
of the edit of the line is left, which is never so as long as ids have not come round.  Of two plans
that can be read and have the same tokens so far, what the first one ends with the other one ends
with, too.  Carrying out the plan in place makes no difference. -/
theorem outcome_decided (g donor : Program) (store : Store) (plan : ByteArray) :
    let start : Session := { candidate := g, store, donor }
    (∀ n s', start.applyPlan plan = (s', .ok n) ↔
      start.Carries (planLines plan) s' ∧ n = (commandLines (planLines plan)).length) ∧
    (∀ e s', start.applyPlan plan = (s', .error e) ↔
      ∃ before line after t, planLines plan = before ++ line :: after ∧
        start.Carries before t ∧ t.FailsAt line e ∧ s' = t.leftAt line) ∧
    (∀ before line t e, start.Carries before t → t.FailsAt line e →
      ∃ g', t.leftAt line = { t with candidate := g' } ∧
        t.applied = (commandLines before).length ∧
        (g' = t.candidate ∨ t.FailsPartWay line e g') ∧
        (t.candidate.arrays.strays = [] → t.candidate.calculations.Ahead →
          (∀ c ∈ g'.calculations.objects, idOf c < maxId) → g' = t.candidate)) ∧
    (∀ plan' read rest read' rest', planLines plan = read ++ rest →
      planLines plan' = read' ++ rest' → none ∉ read → none ∉ read' →
      tokenLines read = tokenLines read' →
      (∃ s' e, start.run read = (s', some e)) ∨ rest = [] ∧ rest' = [] →
        codeOf (start.applyPlan plan).2 = codeOf (start.applyPlan plan').2 ∧
          (start.applyPlan plan).1 = (start.applyPlan plan').1) ∧
    (g.Built → (Engine.plan plan).run start = match start.applyPlan plan with
      | (s', .ok n) => .ok n s'
      | (s', .error e) => .error e s') := by
  intro start
  have happlied : ∀ {lines s'}, start.Carries lines s' →
      s'.applied = (commandLines lines).length := by
    intro lines s' h
    rw [h.applied]
    exact Nat.zero_add _
  refine ⟨fun n s' => ?_, fun e s' => ?_, fun before line t e hbefore hfails => ?_,
    fun plan' read rest read' rest' => applyPlan_congr, fun hg => Engine.run_plan hg plan⟩
  · rw [applyPlan_eq_ok, run_ok_iff]
    constructor
    · rintro ⟨h, rfl⟩
      exact ⟨h, happlied h⟩
    · rintro ⟨h, rfl⟩
      exact ⟨h, happlied h⟩
  · rw [applyPlan_eq_error, run_error_iff]
  · obtain ⟨g', hleft, hpart⟩ := leftAt_of_error (step_eq_error.mpr hfails)
    refine ⟨g', hleft, happlied hbefore, hpart, fun hstrays hahead hmax => ?_⟩
    exact hpart.resolve_right fun h => h.not_left hstrays hahead hmax

/-- A plan that grows a program, with a comment, blank lines and more after its failing line, and
the same one with other blanks and line ends. -/
theorem outcome_decided_bogus_line :
    let start : Session := { candidate := Program.defaultProgram 0, store := {}, donor := {} }
    let plan := PlanText.text ⟨["# grow", "", "  insert register_array new_R 8 8  ", "bogus line",
      "insert register_array new_S 8 8"]⟩
    let plan' := PlanText.text
      ⟨["insert\u2003register_array\tnew_R 8 8\r", "bogus\u00a0line"]⟩
    codeOf (start.applyPlan plan.toUTF8).2 = codeOf (start.applyPlan plan'.toUTF8).2 ∧
      (start.applyPlan plan.toUTF8).1 = (start.applyPlan plan'.toUTF8).1 ∧
      ∃ s', (Engine.plan plan.toUTF8).run start =
        .error (.invalidCommand "bogus line" .unknownVerb) s' ∧ s'.applied = 1 := by
  intro start plan plan'
  have hload : Program.ofDocument {} (Program.defaultDocument 0) =
      .ok (Program.defaultProgram 0, {}) := rfl
  have hplan : planLines plan.toUTF8 =
      ["# grow", "", "  insert register_array new_R 8 8  ", "bogus line"].map some ++
        [some "insert register_array new_S 8 8"] :=
    PlanText.planLines_text (by decide) (by decide)
  have hplan' : planLines plan'.toUTF8 =
      ["insert\u2003register_array\tnew_R 8 8\r", "bogus\u00a0line"].map some ++ [] :=
    PlanText.planLines_text (by decide) (by decide)
  obtain ⟨s', hrun, happlied⟩ : ∃ s', start.run
      (["# grow", "", "  insert register_array new_R 8 8  ", "bogus line"].map some) =
        (s', some (.invalidCommand "bogus line" .unknownVerb)) ∧ s'.applied = 1 := ⟨_, rfl, rfl⟩
  obtain ⟨-, -, -, hcongr, hengine⟩ := outcome_decided (Program.defaultProgram 0) {} {} plan.toUTF8
  obtain ⟨hcode, hsession⟩ := hcongr plan'.toUTF8 _ _ _ _ hplan hplan' (by decide) (by decide)
    (by decide +kernel) (Or.inl ⟨_, _, hrun⟩)
  refine ⟨hcode, hsession, s', ?_, happlied⟩
  rw [hengine (.load hload), applyPlan_eq_error.mpr (hplan ▸ run_append_of_error hrun _)]

/-- The first line of a plan is refused, as a calculation gets stuck, and leaves the copy of an
action behind. -/
theorem refused_line_leaves_action : ∃ g donor e s',
    Program.ofDocument {} Mutation.exhaustedDocument = .ok (g, {}) ∧
    Program.ofDocument {} Mutation.hashingDocument = .ok (donor, {}) ∧
    ({ candidate := g, store := {}, donor } : Session).applyPlan
      (PlanText.text ⟨["insert tabl p new_t"]⟩).toUTF8 = (s', .error e) ∧
    s'.applied = 0 ∧ g.actions.actions = [] ∧
    s'.candidate.actions.actions.map Action.name = ["idle"] := by
  obtain ⟨g, s, hg, hfacts⟩ := Mutation.exists_of_any (v := Mutation.exhaustedDocument)
    (P := fun x => x.2 = {} ∧ x.1.actions.actions = [] ∧
      (Program.ofDocument {} Mutation.hashingDocument).toOption.any fun y => y.2 = {} &&
        let ended := ({ candidate := x.1, store := {}, donor := y.1 } : Session).run
          [some "insert tabl p new_t"]
        ended.2.isSome && (ended.1.applied == 0 &&
          ended.1.candidate.actions.actions.map Action.name == ["idle"])) (by decide +kernel)
  obtain ⟨rfl, hnone, hfacts⟩ := of_decide_eq_true hfacts
  obtain ⟨donor, s', hdonor, hfacts⟩ := Mutation.exists_of_any hfacts
  obtain ⟨hs', hended⟩ := Bool.and_eq_true_iff.mp hfacts
  obtain rfl := of_decide_eq_true hs'
  obtain ⟨herror, hleft⟩ := Bool.and_eq_true_iff.mp hended
  obtain ⟨happlied, hnames⟩ := Bool.and_eq_true_iff.mp hleft
  obtain ⟨e, he⟩ := Option.isSome_iff_exists.mp herror
  have hplan : planLines (PlanText.text ⟨["insert tabl p new_t"]⟩).toUTF8 =
      [some "insert tabl p new_t"] := 
    PlanText.planLines_text (p := ⟨["insert tabl p new_t"]⟩) (by decide) (by decide)
  refine ⟨g, donor, e, _, hg, hdonor, applyPlan_eq_error.mpr (Prod.ext rfl ?_),
    ?_, hnone, ?_⟩
  · rw [hplan]
    exact he
  · rw [hplan]
    exact beq_iff_eq.mp happlied
  · rw [hplan]
    exact beq_iff_eq.mp hnames

end Session

end LiveSwitch
