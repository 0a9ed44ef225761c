import LiveSwitch.Program.Edit
import LiveSwitch.Proofs.ObjectMap
import LiveSwitch.Proofs.Outcome
import LiveSwitch.Proofs.Pipeline.Ports

/-!
# What the edits of a program do

Each edit is opened once: when it succeeds, it found what it names, and the program it gives
is written out.

## Main definitions

* `Program.portOf?` — the port that a slot of a table means.

## Main results

* `Pipeline.edgeTo_eq_ok` — the edge to a name.
* `Program.insertConditional_ok`, `insertFlex_ok`, `setConditionalNext_ok`,
  `deleteConditional_ok` — edits of conditionals.
* `Program.copied_adoptActions`, `adoptActions_ok` — copies of actions and of the calculations
  that they use.
* `Program.insertTable_ok`, `setTableNext_ok`, `deleteTable_ok` — edits of tables.
* `Program.insertArray_ok`, `resizeArray_ok`, `rewidenArray_ok`, `deleteArray_ok`,
  `rehashArray_ok` — edits of register arrays.
-/

namespace LiveSwitch

/-! ### Nodes of a pipeline -/

namespace Pipeline

/-- The edge to a name is the reference of the node of that name. -/
theorem edgeTo_eq_ok {p : Pipeline} {target? : Option String} {e : Edge} :
    p.edgeTo target? = .ok e ↔ e = target?.bind p.find? ∧ (e = none → target? = none) := by
  cases target? with
  | none => simp [edgeTo, eq_comm]
  | some t =>
    rw [edgeTo, Option.bind_some]
    cases p.find? t with
    | none => simp
    | some r => simp +contextual [eq_comm]

theorem adopt_ok {p p' : Pipeline} {kind : ObjectKind} {n : Node} (h : p.adopt kind n = .ok p') :
    ∃ r, p.insertNode n = .ok (r, p') := by
  rw [adopt] at h
  split at h
  case h_1 r q heq => exact ⟨r, by rw [heq, Except.ok.inj h]⟩
  case h_2 => cases h

end Pipeline

namespace Program

variable {g g' donor : Program} {s s' : Store} {pipeline name : String}

theorem existingPipeline_eq_ok {p : Pipeline} :
    g.existingPipeline name = .ok p ↔ g.pipeline? name = some p := by
  unfold existingPipeline
  cases g.pipeline? name with
  | none => simp
  | some q => simp

theorem existingArray_eq_ok {a : RegisterArray} :
    g.existingArray name = .ok a ↔ g.array? name = some a := by
  unfold existingArray
  cases g.array? name with
  | none => simp
  | some b => simp

theorem existingActions_eq_ok {ids : List Int} {as : List Action} :
    g.existingActions ids = .ok as ↔
      List.Forall₂ (fun id a => g.action? id = some a) ids as := by
  rw [existingActions, mapM_eq_ok]
  refine iff_of_eq (congrArg (List.Forall₂ · ids as) (funext₂ fun id a => propext ?_))
  cases g.action? id with
  | none => simp
  | some b => simp

/-! ### Edits of conditionals -/

theorem insertConditional_ok {d? : Option Conditional}
    (h : g.insertConditional pipeline name d? = .ok g') :
    ∃ p d r p', g.pipeline? pipeline = some p ∧ d? = some d ∧
      p.insertNode (.conditional (d.instantiate name g.conditionalIds.next)) = .ok (r, p') ∧
      g' = { g.setPipeline pipeline p' with conditionalIds := g.conditionalIds.bump } := by
  rw [insertConditional] at h
  simp only [bind_eq_ok, guard_eq_ok] at h
  obtain ⟨p, hp, -, h⟩ := h
  split at h
  case h_1 => cases h
  case h_2 d =>
    obtain ⟨p', hp', h⟩ := bind_eq_ok.mp h
    obtain ⟨r, hr⟩ := Pipeline.adopt_ok hp'
    exact ⟨p, d, r, p', existingPipeline_eq_ok.mp hp, rfl, hr, (pure_eq_ok.mp h).symm⟩

theorem insertFlex_ok {false? true? : Option String}
    (h : g.insertFlex pipeline name false? true? = .ok g') :
    ∃ p falseNext trueNext r p', g.pipeline? pipeline = some p ∧
      p.edgeTo false? = .ok falseNext ∧ p.edgeTo true? = .ok trueNext ∧
      p.insertNode (.conditional
        { identity := { name, id := g.conditionalIds.next }, condition? := none, trueNext,
          falseNext, flex := true }) = .ok (r, p') ∧
      g' = { g.setPipeline pipeline p' with conditionalIds := g.conditionalIds.bump } := by
  rw [insertFlex] at h
  simp only [bind_eq_ok, guard_eq_ok, pure_eq_ok] at h
  obtain ⟨p, hp, -, falseNext, hf, trueNext, ht, p', hp', h⟩ := h
  obtain ⟨r, hr⟩ := Pipeline.adopt_ok hp'
  exact ⟨p, falseNext, trueNext, r, p', existingPipeline_eq_ok.mp hp, hf, ht, hr, h.symm⟩

theorem setConditionalNext_ok {branch : Branch} {target? : Option String}
    (h : g.setConditionalNext pipeline name branch target? = .ok g') :
    ∃ p e c, g.pipeline? pipeline = some p ∧ p.edgeTo target? = .ok e ∧
      p.conditional? name = some c ∧
      g' = g.setPipeline pipeline (p.modifyNode name (Node.setEdge (.branch branch) e)) := by
  rw [setConditionalNext] at h
  simp only [bind_eq_ok, guard_eq_ok, pure_eq_ok, Bool.not_eq_true, Option.isNone_eq_false_iff,
    Option.isSome_iff_exists] at h
  obtain ⟨p, hp, e, he, ⟨c, hc⟩, h⟩ := h
  rw [Pipeline.modifyConditional, Node.mapConditional_setNext] at h
  exact ⟨p, e, c, existingPipeline_eq_ok.mp hp, he, hc, h.symm⟩

theorem deleteConditional_ok (h : g.deleteConditional pipeline name = .ok g') :
    ∃ p c, g.pipeline? pipeline = some p ∧ p.conditional? name = some c ∧
      g' = g.setPipeline pipeline (p.removeNode name) := by
  rw [deleteConditional] at h
  simp only [bind_eq_ok, guard_eq_ok, pure_eq_ok, Bool.not_eq_true, Option.isNone_eq_false_iff,
    Option.isSome_iff_exists] at h
  obtain ⟨p, hp, ⟨c, hc⟩, h⟩ := h
  exact ⟨p, c, existingPipeline_eq_ok.mp hp, hc, h.symm⟩

/-! ### Copies from a donor -/

/-- A calculation is there, or the donor has none, or it is copied. -/
theorem adoptCalculation_ok (h : adoptCalculation donor g name = .ok g') :
    g' = g ∧ (g.calculations.contains name = true ∨ donor.calculation? name = none) ∨
    ∃ c calculations, g.calculations.contains name = false ∧ donor.calculation? name = some c ∧
      g.calculations.insert (c.withId g.calculations.nextId) = .ok calculations ∧
      g' = { g with calculations } := by
  rw [adoptCalculation] at h
  split at h
  case isTrue hname =>
    cases h
    exact Or.inl ⟨rfl, Or.inl hname⟩
  case isFalse hname =>
    split at h
    case h_1 hnone =>
      cases h
      exact Or.inl ⟨rfl, Or.inr hnone⟩
    case h_2 c hc =>
      split at h
      case h_1 calculations hins =>
        cases h
        exact Or.inr ⟨c, calculations, Bool.not_eq_true _ ▸ hname, hc, hins, rfl⟩
      case h_2 => cases h

theorem adoptCalculations_ok {names : List String}
    (h : names.foldlM (adoptCalculation donor) g = .ok g') :
    ∃ calculations, g' = { g with calculations } := by
  refine foldlM_induction (P := fun x => ∃ calculations, x = { g with calculations }) ?_
    ⟨g.calculations, rfl⟩ h
  rintro name - _ x ⟨calculations, rfl⟩ hx
  obtain ⟨rfl, -⟩ | ⟨c, calculations', -, -, -, rfl⟩ := adoptCalculation_ok hx
  · exact ⟨calculations, rfl⟩
  · exact ⟨calculations', rfl⟩

/-- A copy of an action is the copy alone, and the calculations that it uses. -/
theorem adoptAction_ok {a : Action} (h : adoptAction donor g a = .ok g') :
    ∃ calculations,
      a.calculations.foldlM (adoptCalculation donor) g = .ok { g with calculations } ∧
      g' = { g with actions := g.actions.insertCopy a, calculations } := by
  obtain ⟨x, hx, hg⟩ := bind_eq_ok.mp h
  obtain ⟨calculations, rfl⟩ := adoptCalculations_ok hx
  exact ⟨calculations, hx, (pure_eq_ok.mp hg).symm⟩

/-- The first action is copied under the next free id, and then the others. -/
theorem adoptActions_cons_ok {a : Action} {as : List Action} {ids : List Int}
    (h : adoptActions donor g (a :: as) = .ok (g', ids)) :
    ∃ g₁ ids', adoptAction donor g a = .ok g₁ ∧ adoptActions donor g₁ as = .ok (g', ids') ∧
      ids = g.actions.nextId :: ids' := by
  rw [adoptActions] at h
  simp only [bind_eq_ok, pure_eq_ok] at h
  obtain ⟨g₁, hfirst, ⟨g₂, ids'⟩, hrest, heq⟩ := h
  cases heq
  exact ⟨g₁, ids', hfirst, hrest, rfl⟩

/-- A program comes from another one by copies of calculations of a donor and of actions. -/
inductive Copied (donor g : Program) : Program → Prop
  | refl : Copied donor g g
  | calculation {g' g'' : Program} {name : String} (h : Copied donor g g')
    (hcopy : adoptCalculation donor g' name = .ok g'') : Copied donor g g''
  | action {g' : Program} (h : Copied donor g g') (a : Action) :
    Copied donor g { g' with actions := g'.actions.insertCopy a }

namespace Copied

theorem trans {g'' : Program} (h : Copied donor g g') (h' : Copied donor g' g'') :
    Copied donor g g'' := by
  induction h' with
  | refl => exact h
  | calculation _ hcopy ih => exact ih.calculation hcopy
  | action _ a ih => exact ih.action a

/-- Copies change actions and calculations only. -/
theorem frame (h : Copied donor g g') :
    ∃ actions calculations, g' = { g with actions, calculations } := by
  induction h with
  | refl => exact ⟨g.actions, g.calculations, rfl⟩
  | calculation _ hcopy ih =>
    obtain ⟨actions, calculations, rfl⟩ := ih
    obtain ⟨rfl, -⟩ | ⟨c, calculations', -, -, -, rfl⟩ := adoptCalculation_ok hcopy
    · exact ⟨actions, calculations, rfl⟩
    · exact ⟨actions, calculations', rfl⟩
  | action _ a ih =>
    obtain ⟨actions, calculations, rfl⟩ := ih
    exact ⟨actions.insertCopy a, calculations, rfl⟩

/-- Copies keep the calculations consistent. -/
theorem consistent (h : Copied donor g g') (hg : g.calculations.Consistent) :
    g'.calculations.Consistent := by
  induction h with
  | refl => exact hg
  | calculation _ hcopy ih =>
    obtain ⟨rfl, -⟩ | ⟨c, calculations, -, -, hins, rfl⟩ := adoptCalculation_ok hcopy
    · exact ih
    · exact ih.insert hins
  | action _ _ ih => exact ih

/-- The counter of calculations stays ahead, up to the largest id. -/
theorem ahead (h : Copied donor g g') (hg : g.calculations.Ahead)
    (hmax : ∀ c ∈ g'.calculations.objects, idOf c < maxId) : g'.calculations.Ahead := by
  induction h with
  | refl => exact hg
  | calculation _ hcopy ih =>
    obtain ⟨rfl, -⟩ | ⟨c, calculations, -, -, hins, rfl⟩ := adoptCalculation_ok hcopy
    · exact ih hmax
    · have hplaced := hins
      obtain ⟨-, -, rfl⟩ := ObjectMap.insert_eq_ok.mp hplaced
      have hold := ih fun c hc => hmax c (ObjectMap.mem_place.mpr (Or.inr hc))
      exact hold.insert hins (hmax _ (ObjectMap.mem_place.mpr (Or.inl rfl)))
  | action _ _ ih => exact ih hmax

/-- Copies make no name of a calculation stray. -/
theorem strays (h : Copied donor g g') : g'.calculations.strays = g.calculations.strays := by
  induction h with
  | refl => rfl
  | calculation _ hcopy ih =>
    obtain ⟨rfl, -⟩ | ⟨c, calculations, -, -, hins, rfl⟩ := adoptCalculation_ok hcopy
    · exact ih
    · obtain ⟨-, -, rfl⟩ := ObjectMap.insert_eq_ok.mp hins
      exact ih
  | action _ _ ih => exact ih

end Copied

theorem copied_adoptAction {a : Action} (h : adoptAction donor g a = .ok g') :
    Copied donor g g' := by
  obtain ⟨calculations, hfold, rfl⟩ := adoptAction_ok h
  exact (foldlM_induction (P := Copied donor g) (fun _ _ _ _ hx hstep => hx.calculation hstep)
    .refl hfold).action a

theorem copied_adoptActions {as : List Action} {ids : List Int}
    (h : adoptActions donor g as = .ok (g', ids)) : Copied donor g g' := by
  induction as generalizing g ids with
  | nil =>
    cases h
    exact .refl
  | cons a as ih =>
    obtain ⟨g₁, ids', hfirst, hrest, -⟩ := adoptActions_cons_ok h
    exact (copied_adoptAction hfirst).trans (ih hrest)

/-- Copies of actions change actions and calculations only. -/
theorem adoptActions_ok {as : List Action} {ids : List Int}
    (h : adoptActions donor g as = .ok (g', ids)) :
    ∃ actions calculations, g' = { g with actions, calculations } :=
  (copied_adoptActions h).frame

/-! ### Edits of tables -/

theorem insertTable_ok (h : g.insertTable donor pipeline name = .ok g') :
    ∃ p t actions g₁ ids r p', g.pipeline? pipeline = some p ∧
      (donor.pipeline? pipeline).bind (·.table? name) = some t ∧
      donor.existingActions t.actionIds = .ok actions ∧
      adoptActions donor g actions = .ok (g₁, ids) ∧
      p.insertNode (.table (t.instantiate name g₁.tableIds.next ids)) = .ok (r, p') ∧
      g' = { g₁.setPipeline pipeline p' with tableIds := g₁.tableIds.bump } := by
  rw [insertTable] at h
  simp only [bind_eq_ok, guard_eq_ok] at h
  obtain ⟨p, hp, -, h⟩ := h
  split at h
  case h_1 => cases h
  case h_2 t ht =>
    simp only [bind_eq_ok, pure_eq_ok] at h
    obtain ⟨actions, hactions, ⟨g₁, ids⟩, hadopt, p', hp', h⟩ := h
    obtain ⟨r, hr⟩ := Pipeline.adopt_ok hp'
    exact ⟨p, t, actions, g₁, ids, r, p', existingPipeline_eq_ok.mp hp, ht, hactions, hadopt, hr,
      h.symm⟩

/-- The port that a slot of a table means. -/
def portOf? (g : Program) (t : Table) : TableSlot → Option Port
  | .baseDefault => some .base
  | .hit => some .hit
  | .miss => some .miss
  | .action action => (g.actionNamed? t.actionIds action).map .action

theorem setTableNext_ok {slot : TableSlot} {target? : Option String}
    (h : g.setTableNext pipeline name slot target? = .ok g') :
    ∃ p e t q, g.pipeline? pipeline = some p ∧ p.edgeTo target? = .ok e ∧
      p.table? name = some t ∧ g.portOf? t slot = some q ∧ (Node.table t).takes q = true ∧
      g' = g.setPipeline pipeline (p.modifyNode name (Node.setEdge q e)) := by
  rw [setTableNext] at h
  simp only [bind_eq_ok] at h
  obtain ⟨p, hp, e, he, h⟩ := h
  rw [existingPipeline_eq_ok] at hp
  split at h
  case h_1 => cases h
  case h_2 t ht =>
    cases slot with
    | baseDefault =>
      dsimp only at h
      rw [pure_bind, pure_eq_ok, Pipeline.modifyTable, Node.mapTable_baseNext] at h
      exact ⟨p, e, t, .base, hp, he, ht, rfl, rfl, h.symm⟩
    | hit =>
      dsimp only at h
      rw [pure_bind, pure_eq_ok, Pipeline.modifyTable, Node.mapTable_hitNext] at h
      exact ⟨p, e, t, .hit, hp, he, ht, rfl, rfl, h.symm⟩
    | miss =>
      dsimp only at h
      rw [pure_bind, pure_eq_ok, Pipeline.modifyTable, Node.mapTable_missNext] at h
      exact ⟨p, e, t, .miss, hp, he, ht, rfl, rfl, h.symm⟩
    | action action =>
      dsimp only at h
      split at h
      case h_1 id hid =>
        rw [pure_bind, pure_eq_ok, Pipeline.modifyTable, Node.mapTable_setActionNext] at h
        exact ⟨p, e, t, .action id, hp, he, ht, by simp [portOf?, hid], rfl, h.symm⟩
      case h_2 => cases h

theorem deleteTable_ok (h : g.deleteTable pipeline name = .ok g') :
    ∃ p t, g.pipeline? pipeline = some p ∧ p.table? name = some t ∧
      g' = g.setPipeline pipeline (p.removeNode name) := by
  rw [deleteTable] at h
  simp only [bind_eq_ok, guard_eq_ok, pure_eq_ok, Bool.not_eq_true, Option.isNone_eq_false_iff,
    Option.isSome_iff_exists] at h
  obtain ⟨p, hp, ⟨t, ht⟩, h⟩ := h
  exact ⟨p, t, existingPipeline_eq_ok.mp hp, ht, h.symm⟩

/-! ### Edits of register arrays -/

theorem insertArray_ok {size bitwidth : Nat}
    (h : g.insertArray s name size bitwidth = .ok (g', s')) :
    ∃ arrays, g.arrays.insertNew name
        (fun id => (RegisterArray.zeros { name, id } size bitwidth [] s).1) = .ok arrays ∧
      g' = { g with arrays } ∧ s' = s.add (.zeros size bitwidth) := by
  rw [insertArray] at h
  split at h
  case h_1 arrays harrays =>
    cases h
    exact ⟨arrays, harrays, rfl, rfl⟩
  case h_2 => cases h

theorem resizeArray_ok {size : Nat} (h : g.resizeArray name size = .ok g') :
    ∃ a, g.array? name = some a ∧ g' = g.setArray name (a.resized size) := by
  rw [resizeArray] at h
  obtain ⟨a, ha, h⟩ := bind_eq_ok.mp h
  exact ⟨a, existingArray_eq_ok.mp ha, (pure_eq_ok.mp h).symm⟩

theorem resizeArray_eq {a : RegisterArray} (ha : g.array? name = some a) (size : Nat) :
    g.resizeArray name size = .ok (g.setArray name (a.resized size)) := by
  rw [resizeArray, existingArray_eq_ok.mpr ha]
  rfl

theorem rewidenArray_ok {bitwidth : Nat} (h : g.rewidenArray name bitwidth = .ok g') :
    ∃ a, g.array? name = some a ∧ g' = g.setArray name (a.rewidened bitwidth) := by
  rw [rewidenArray] at h
  obtain ⟨a, ha, h⟩ := bind_eq_ok.mp h
  exact ⟨a, existingArray_eq_ok.mp ha, (pure_eq_ok.mp h).symm⟩

theorem deleteArray_ok (h : g.deleteArray name = .ok g') :
    ∃ a, g.array? name = some a ∧ g' = { g with arrays := g.arrays.remove name } := by
  rw [deleteArray] at h
  obtain ⟨a, ha, h⟩ := bind_eq_ok.mp h
  exact ⟨a, existingArray_eq_ok.mp ha, (pure_eq_ok.mp h).symm⟩

/-- A rehash puts two new arrays over new storages in the place of the target and of the
reset array. -/
theorem rehashArray_ok {r : RehashSpec} (h : g.rehashArray s r = .ok (g', s')) :
    ∃ target reset inputs, g.array? r.target = some target ∧ g.array? r.reset = some reset ∧
      g' = (g.setArray r.target (target.rehashed inputs s).1).setArray r.reset
        (reset.cleared (target.rehashed inputs s).2).1 ∧
      s' = (reset.cleared (target.rehashed inputs s).2).2 := by
  rw [rehashArray] at h
  simp only [bind_eq_ok, existingArray_eq_ok, pure_eq_ok, Prod.mk.injEq] at h
  obtain ⟨target, ht, recording, -, lastPos, -, counting, -, reset, hr, hg, hs⟩ := h
  exact ⟨target, reset, _, ht, hr, hg.symm, hs.symm⟩

/-- A rehash succeeds when all of its arrays are there. -/
theorem rehashArray_eq {r : RehashSpec} {target recording lastPos counting reset : RegisterArray}
    (ht : g.array? r.target = some target) (hrecording : g.array? r.recording = some recording)
    (hlastPos : g.array? r.lastPos = some lastPos) (hcounting : g.array? r.counting = some counting)
    (hreset : g.array? r.reset = some reset) :
    let rehashed := target.rehashed
      { recording, lastPos, counting, countingHash := r.countingHash,
        targetHashes := r.targetHashes } s
    let cleared := reset.cleared rehashed.2
    g.rehashArray s r =
      .ok ((g.setArray r.target rehashed.1).setArray r.reset cleared.1, cleared.2) := by
  rw [rehashArray, existingArray_eq_ok.mpr ht, existingArray_eq_ok.mpr hrecording,
    existingArray_eq_ok.mpr hlastPos, existingArray_eq_ok.mpr hcounting,
    existingArray_eq_ok.mpr hreset]
  rfl

end Program

end LiveSwitch
