import LiveSwitch.Proofs.Plan.Commands
import LiveSwitch.Proofs.Switch.Reconfigure

/-!
# Plans that succeed

A plan that succeeds has carried out the commands of its file on the program that its context
ran, and the program that came out of it is committed and published.

## Main results

* `Switch.applyPlan_success` — what a plan that succeeds does.
-/

namespace LiveSwitch.Switch

variable {w w' : Switch} {cxt : Nat}

/-- A plan that can be carried out does so in the context that it is addressed to. -/
theorem attempt_eq_ok {document plan : FileContent} {n : Nat}
    (h : (w.attempt cxt document plan).2 = .ok n) :
    ∃ (c : Context) (donor : Program) (s₀ : Store) (s : Session), w.contexts[cxt]? = some c ∧
      Program.ofFile {} document = .ok (donor, s₀) ∧
      Session.run { candidate := c.active.program, store := w.store, donor } plan.planLines =
        (s, none) := by
  have hreconfigure : (w.reconfigure cxt document plan).2 = .ok n := by
    unfold attempt at h
    split at h
    case h_5 => exact h
    all_goals cases h
  rw [reconfigure] at hreconfigure
  split at hreconfigure
  case h_1 => cases hreconfigure
  case h_2 c hc =>
    split at hreconfigure
    case h_1 => cases hreconfigure
    case h_2 donor s₀ hdonor =>
      dsimp only at hreconfigure
      split at hreconfigure
      case h_1 => cases hreconfigure
      case h_2 s hrun => exact ⟨c, donor, s₀, s, hc, hdonor, hrun⟩

/-- A plan that succeeds has carried out the commands of its file, one for each command line. -/
theorem applyPlan_success {document plan : FileContent}
    (h : w.applyPlan cxt document plan = (.success, w')) :
    ∃ (c : Context) (donor : Program) (s₀ : Store) (s : Session), w.contexts[cxt]? = some c ∧
      Program.ofFile {} document = .ok (donor, s₀) ∧
      plan.commands.foldlM Session.apply
        { candidate := c.active.program, store := w.store, donor } = .ok s ∧
      w' = { contexts := w.contexts.modify cxt
               (Context.publish (s.candidate.commitArrays s.store).1 plan.commandCount)
             store := (s.candidate.commitArrays s.store).2 } := by
  have hcode : ReconfigError.codeOf (w.attempt cxt document plan).2 = .success :=
    congrArg Prod.fst h
  cases hattempt : (w.attempt cxt document plan).2 with
  | error e =>
    rw [hattempt] at hcode
    exact absurd hcode e.code_ne_success
  | ok n =>
    obtain ⟨c, donor, s₀, s, hc, hdonor, hrun⟩ := attempt_eq_ok hattempt
    obtain ⟨hlength, hcommands⟩ := Session.run_success hrun
    refine ⟨c, donor, s₀, s, hc, hdonor, hcommands, ?_⟩
    have happlied : s.applied = plan.commandCount := by
      rw [(Session.applied_foldlM hcommands).1, FileContent.commandCount, hlength, Nat.zero_add]
    rw [applyPlan_eq hc hdonor hrun, happlied] at h
    exact (congrArg Prod.snd h).symm

end LiveSwitch.Switch
