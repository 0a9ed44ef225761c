import LiveSwitch.Proofs.Program.InPlace

/-!
# What a failing line leaves

A plan ends at its first line that fails.  A line that cannot be read, has no command or refers to
objects of the wrong origin changes nothing.  One whose mutation is refused leaves the storages as
they were, and the candidate unless part of the mutation is left of it.

## Main definitions

* `Session.FailsPartWay` — a line fails and leaves part of its mutation.

## Main results

* `Session.leftAt_of_error` — what a failing line leaves of a session.
* `Session.run_failed` — where a plan that fails has come to.
-/

namespace LiveSwitch

namespace Session

variable {s s' : Session} {e : ReconfigError}

/-- The command of a line stands for a mutation that is refused with an error, and part of the
mutation is left of the candidate. -/
inductive FailsPartWay (s : Session) : Option String → ReconfigError → Program → Prop where
  | line {text command : String} {c : Command} {m : Mutation} {e : ReconfigError} {g' : Program}
    (hcommand : commandLine? text = some command) (hparse : Command.parse command = .ok c)
    (hmutation : s.mutation c = .ok m) (hpart : m.LeavesPart s.candidate e g') :
    FailsPartWay s (some text) e g'

theorem leftBy_of_error {text command : String} (hcommand : commandLine? text = some command)
    (h : s.applyLine command = .error e) : ∃ g', s.leftBy command = { s with candidate := g' } ∧
      (g' = s.candidate ∨ s.FailsPartWay (some text) e g') := by
  rw [applyLine] at h
  cases hparse : Command.parse command with
  | error e' => exact ⟨s.candidate, by rw [leftBy, hparse], Or.inl rfl⟩
  | ok c =>
    have hleft : s.leftBy command = s.left c := by rw [leftBy, hparse]
    rw [hparse, ok_bind, apply, perform] at h
    rw [hleft, left]
    cases hmutation : s.mutation c with
    | error e' => exact ⟨s.candidate, rfl, Or.inl rfl⟩
    | ok m =>
      rw [hmutation, ok_bind] at h
      have hattempt : m.attempt s.candidate s.store = .error e := by
        cases hm : m.attempt s.candidate s.store with
        | ok x =>
          rw [hm] at h
          cases h
        | error e' =>
          rw [hm] at h
          cases h
          rfl
      obtain ⟨g', hafter, hpart⟩ := m.after_of_error s.candidate hattempt
      refine ⟨g', ?_, hpart.imp_right (.line hcommand hparse hmutation)⟩
      dsimp only
      rw [hafter]

/-- A failing line leaves all of a session but the candidate, and that one unless part of its
mutation is left. -/
theorem leftAt_of_error {line : Option String} (h : s.step line = .error e) :
    ∃ g', s.leftAt line = { s with candidate := g' } ∧
      (g' = s.candidate ∨ s.FailsPartWay line e g') := by
  cases line with
  | none => exact ⟨s.candidate, rfl, Or.inl rfl⟩
  | some text =>
    rw [step] at h
    cases hcommand : commandLine? text with
    | none =>
      rw [hcommand] at h
      cases h
    | some command =>
      rw [hcommand] at h
      rw [leftAt, Option.bind_some, hcommand]
      exact leftBy_of_error hcommand h

/-- A plan that fails has carried out edits, up to a line that fails. -/
theorem run_failed {lines : List (Option String)} (h : s.run lines = (s', some e)) :
    ∃ (t : Session) (l : List Edit) (line : Option String), (∀ e ∈ l, e.Valid) ∧
      l.foldlM (Edit.run s.donor) (s.candidate, s.store) = .ok (t.candidate, t.store) ∧
      t.donor = s.donor ∧ s'.store = t.store ∧
      (s'.candidate = t.candidate ∨ t.FailsPartWay line e s'.candidate) := by
  obtain ⟨t, l, hvalid, hl, hdonor, hend⟩ := run_edits h
  rcases hend with ⟨hnone, -⟩ | ⟨line, e', hstep, he, rfl⟩
  · cases hnone
  · cases he
    obtain ⟨g', heq, hleft⟩ := leftAt_of_error hstep
    rw [heq]
    exact ⟨t, l, line, hvalid, hl, hdonor, rfl, hleft⟩

end Session

end LiveSwitch
