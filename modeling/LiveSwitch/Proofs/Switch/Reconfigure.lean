import LiveSwitch.Proofs.Plan.Failures
import LiveSwitch.Proofs.Program.Arrays
import LiveSwitch.Switch.Basic

/-!
# What a plan does to a switch

A plan either fails, and then it has counted a failure in its context and added storages at
most, or it succeeds, and then its context runs the next generation, to which the edits of the
plan led from the generation before, and whose arrays were then committed.

## Main definitions

* `Context.failed`, `Context.publish` — a context after a plan that failed and after one that
  succeeded.
* `Program.PlanLeads` — a plan leads from one program to another.

## Main results

* `Switch.init_eq`, `Switch.applyPlan_eq` — a load and a plan that succeed.
* `Switch.applyPlan_cases` — the two outcomes of a plan.
-/

namespace LiveSwitch

open RegisterArray

/-- The context after a plan that failed. -/
def Context.failed (code : ResultCode) (c : Context) : Context :=
  { c with stats := { c.stats with
      plansFailed := c.stats.plansFailed + 1
      lastResult? := some code } }

/-- The context after a plan that gave a program and carried out some commands. -/
def Context.publish (program : Program) (commands : Nat) (c : Context) : Context :=
  { active := { number := c.active.number + 1, program }
    stats := { c.stats with
      plansApplied := c.stats.plansApplied + 1
      commandsApplied := c.stats.commandsApplied + commands
      lastResult? := some .success } }

/-- The edits of a plan lead from one program and store to another, with the program of a
document as their donor. -/
def Program.PlanLeads (document : FileContent) (x y : Program × Store) : Prop :=
  ∃ (donor : Program) (s : Store) (l : List Edit), Program.ofFile {} document = .ok (donor, s) ∧
    (∀ e ∈ l, e.Valid) ∧ l.foldlM (Edit.run donor) x = .ok y

theorem Program.PlanLeads.grows {document : FileContent} {g g' : Program} {s s' : Store}
    (h : Program.PlanLeads document (g, s) (g', s')) (hs : Bounded g.arrays.objects s) :
    Grows g.arrays.objects s g'.arrays.objects s' := by
  obtain ⟨donor, _, l, -, -, hl⟩ := h
  exact Edit.grows_foldlM hs hl

namespace Switch

variable {w : Switch} {cxt : Nat}

/-- The arrays of the active program of a context. -/
def activeArrays (w : Switch) (cxt : Nat) : List RegisterArray :=
  ((w.contexts[cxt]?).map fun c => c.active.program.arrays.objects).getD []

theorem activeArrays_eq {c : Context} (h : w.contexts[cxt]? = some c) :
    w.activeArrays cxt = c.active.program.arrays.objects := by
  rw [activeArrays, h, Option.map_some, Option.getD_some]

theorem activeArrays_modify_of_ne {l : List Context} {f : Context → Context} {s s' : Store}
    {i : Nat} (h : i ≠ cxt) :
    (Switch.mk (l.modify cxt f) s).activeArrays i = (Switch.mk l s').activeArrays i := by
  simp only [activeArrays, List.getElem?_modify_ne f l (Ne.symm h)]

theorem activeArrays_modify_self {l : List Context} {f : Context → Context} {s : Store}
    {c : Context} (h : l[cxt]? = some c) :
    (Switch.mk (l.modify cxt f) s).activeArrays cxt = (f c).active.program.arrays.objects := by
  simp only [activeArrays, List.getElem?_modify_eq, h, Option.map_eq_map, Option.map_some,
    Option.getD_some]

/-- A change of contexts that keeps their arrays. -/
theorem activeArrays_modify {l : List Context} (f : Context → Context) {s s' : Store}
    (hf : ∀ c, l[cxt]? = some c →
      (f c).active.program.arrays = c.active.program.arrays) (i : Nat) :
    (Switch.mk (l.modify cxt f) s).activeArrays i = (Switch.mk l s').activeArrays i := by
  by_cases hi : i = cxt
  · subst hi
    cases hc : l[i]? with
    | none =>
      simp only [activeArrays, List.getElem?_modify_eq, hc, Option.map_eq_map, Option.map_none]
    | some c =>
      rw [activeArrays_modify_self hc, hf c hc, activeArrays]
      simp only [hc, Option.map_some, Option.getD_some]
  · exact activeArrays_modify_of_ne hi

/-- A plan that fails leaves the arrays of every context as they are. -/
theorem activeArrays_failed (w : Switch) (cxt : Nat) (code : ResultCode) (s : Store) (i : Nat) :
    (Switch.mk (w.contexts.modify cxt (Context.failed code)) s).activeArrays i =
      w.activeArrays i :=
  activeArrays_modify (Context.failed code) (fun _ _ => rfl) i

/-! ### A context at work -/

theorem modify_congr {l : List Context} {i : Nat} {c : Context} (h : l[i]? = some c)
    {f f' : Context → Context} (hf : f c = f' c) : l.modify i f = l.modify i f' := by
  refine List.ext_getElem? fun j => ?_
  by_cases hj : i = j
  · subst hj
    rw [List.getElem?_modify_eq, List.getElem?_modify_eq, h]
    exact congrArg some hf
  · rw [List.getElem?_modify_ne _ _ hj, List.getElem?_modify_ne _ _ hj]

variable {c : Context}

theorem active_eq (hc : w.contexts[cxt]? = some c) : w.active cxt = .ok c.active := by
  rw [active, context, hc]
  rfl

theorem registerSnapshot_eq (hc : w.contexts[cxt]? = some c) {name : String} {a : RegisterArray}
    (ha : c.active.program.array? name = some a) :
    w.registerSnapshot cxt name = .ok (a.snapshot w.store) := by
  have harray : w.array cxt name = .ok a := by
    rw [array, active_eq hc, ok_bind, ha]
    rfl
  rw [registerSnapshot, harray]
  rfl

/-- A document that can be loaded is loaded as the next generation. -/
theorem init_eq (hc : w.contexts[cxt]? = some c) {document : FileContent} {g : Program} {s : Store}
    (h : Program.ofFile w.store document = .ok (g, s)) :
    w.init cxt document = .ok (c.active.number + 1,
      { w with store := s }.setActive cxt { number := c.active.number + 1, program := g }) := by
  rw [init, h, context, hc]
  rfl

/-- A plan that can be carried out succeeds. -/
theorem applyPlan_eq (hc : w.contexts[cxt]? = some c) {document plan : FileContent}
    {donor : Program} {s₀ : Store} (hdonor : Program.ofFile {} document = .ok (donor, s₀))
    {s : Session} (hrun : Session.run
      { candidate := c.active.program, store := w.store, donor } plan.planLines = (s, none)) :
    w.applyPlan cxt document plan = (.success,
      { contexts := w.contexts.modify cxt
          (Context.publish (s.candidate.commitArrays s.store).1 s.applied)
        store := (s.candidate.commitArrays s.store).2 }) := by
  have hattempt : w.attempt cxt document plan = w.reconfigure cxt document plan := by
    unfold attempt
    split
    case h_5 => rfl
    all_goals first | cases hdonor | cases hrun
  rw [applyPlan, hattempt, reconfigure, hc]
  simp only [hdonor, hrun]
  show (ResultCode.success, Switch.mk ((w.contexts.modify cxt _).modify cxt _) _) = _
  rw [List.modify_modify_eq]
  congr 2
  exact modify_congr hc rfl

/-! ### The two outcomes of a plan -/

/-- A plan ends in an error over storages that were only added to, or it leads from the active
program to one that is committed. -/
theorem reconfigure_cases (hw : Bounded (w.activeArrays cxt) w.store)
    (document plan : FileContent) :
    (∃ s e, w.store.Extends s ∧
      w.reconfigure cxt document plan = ({ w with store := s }, .error e)) ∨
    ∃ (c : Context) (program : Program) (s : Store) (commands : Nat), w.contexts[cxt]? = some c ∧
      Program.PlanLeads document (c.active.program, w.store) (program, s) ∧
      w.reconfigure cxt document plan =
        ({ w with store := (program.commitArrays s).2 }.setActive cxt
          { number := c.active.number + 1, program := (program.commitArrays s).1 },
          .ok commands) := by
  rw [reconfigure]
  split
  case h_1 => exact Or.inl ⟨w.store, _, Store.Extends.refl _, rfl⟩
  case h_2 c hc =>
    rw [activeArrays_eq hc] at hw
    split
    case h_1 => exact Or.inl ⟨w.store, _, Store.Extends.refl _, rfl⟩
    case h_2 donor s₀ hdonor =>
      dsimp only
      split
      case h_1 s e hrun =>
        -- the lines ahead of the failing one have only added storages, and that one adds none
        obtain ⟨t, l, _, hvalid, hl, -, hstore, -⟩ := Session.run_failed hrun
        have hgrows : Grows _ _ t.candidate.arrays.objects t.store := Edit.grows_foldlM hw hl
        exact Or.inl ⟨s.store, e, hstore ▸ hgrows.store, rfl⟩
      case h_2 s hrun =>
        obtain ⟨t, l, hvalid, hl, -, ⟨-, rfl⟩ | ⟨_, _, -, he, -⟩⟩ := Session.run_edits hrun
        · exact Or.inr ⟨c, s.candidate, s.store, s.applied, hc,
            ⟨donor, s₀, l, hdonor, hvalid, hl⟩, rfl⟩
        · cases he

theorem attempt_cases (hw : Bounded (w.activeArrays cxt) w.store)
    (document plan : FileContent) :
    (∃ s e, w.store.Extends s ∧
      w.attempt cxt document plan = ({ w with store := s }, .error e)) ∨
    ∃ (c : Context) (program : Program) (s : Store) (commands : Nat), w.contexts[cxt]? = some c ∧
      Program.PlanLeads document (c.active.program, w.store) (program, s) ∧
      w.attempt cxt document plan =
        ({ w with store := (program.commitArrays s).2 }.setActive cxt
          { number := c.active.number + 1, program := (program.commitArrays s).1 },
          .ok commands) := by
  unfold attempt
  split
  case h_5 => exact reconfigure_cases hw document plan
  all_goals exact Or.inl ⟨w.store, _, Store.Extends.refl _, rfl⟩

/-- The two outcomes of a plan. -/
theorem applyPlan_cases (hw : Bounded (w.activeArrays cxt) w.store)
    (document plan : FileContent) :
    (∃ s code, code ≠ .success ∧ w.store.Extends s ∧
      w.applyPlan cxt document plan =
        (code, { contexts := w.contexts.modify cxt (Context.failed code), store := s })) ∨
    ∃ (c : Context) (program : Program) (s : Store) (commands : Nat), w.contexts[cxt]? = some c ∧
      Program.PlanLeads document (c.active.program, w.store) (program, s) ∧
      w.applyPlan cxt document plan =
        (.success,
          { contexts :=
              w.contexts.modify cxt (Context.publish (program.commitArrays s).1 commands)
            store := (program.commitArrays s).2 }) := by
  rw [applyPlan]
  rcases attempt_cases hw document plan with ⟨s, e, hs, heq⟩ | ⟨c, program, s, n, hc, hleads, heq⟩
  · rw [heq]
    exact Or.inl ⟨s, e.code, e.code_ne_success, hs, rfl⟩
  · rw [heq]
    refine Or.inr ⟨c, program, s, n, hc, hleads, ?_⟩
    show (ResultCode.success, Switch.mk ((w.contexts.modify cxt _).modify cxt _) _) = _
    rw [List.modify_modify_eq]
    congr 2
    exact modify_congr hc rfl

end Switch

end LiveSwitch
