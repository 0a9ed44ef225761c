import LiveSwitch.Proofs.Program.Names

/-!
# Why commands are refused

A command that inserts something may be refused because the name is taken.  Otherwise commands are
refused for one reason only: their references, or the objects that they mean, are not found.

## Main definitions

* `FailsWith` — a computation that is refused only with codes of a kind.
* `FailsUnfound` — a computation that is refused only because something is not found.
* `ResultCode.OfEdit` — the codes of edits that are refused.

## Main results

* `Session.failsWith_apply` — commands are refused with these codes.
* `Session.failsUnfound_apply` — commands that insert nothing are refused in this way only.
-/

namespace LiveSwitch

/-- A computation is refused only with codes of a kind. -/
def FailsWith {α : Type} (kind : ResultCode → Prop) (x : Except ReconfigError α) : Prop :=
  ∀ e, x = .error e → kind e.code

namespace FailsWith

variable {α β : Type} {kind kind' : ResultCode → Prop}

theorem ok (a : α) : FailsWith kind (.ok a) := nofun

theorem error {e : ReconfigError} (h : kind e.code) :
    FailsWith kind (.error e : Except ReconfigError α) := by
  intro e' he
  cases he
  exact h

theorem mono {x : Except ReconfigError α} (hx : FailsWith kind x)
    (h : ∀ code, kind code → kind' code) : FailsWith kind' x :=
  fun e he => h e.code (hx e he)

theorem bind {x : Except ReconfigError α} {f : α → Except ReconfigError β} (hx : FailsWith kind x)
    (hf : ∀ a, FailsWith kind (f a)) : FailsWith kind (x >>= f) := by
  cases x with
  | ok a => exact hf a
  | error e => exact fun e' he' => hx e' (by cases he'; rfl)

theorem guard {c : Prop} [Decidable c] {e : ReconfigError} {f : PUnit → Except ReconfigError α}
    (he : kind e.code) (hf : FailsWith kind (f ⟨⟩)) :
    FailsWith kind (if c then throw e >>= f else f ⟨⟩) := by
  by_cases hc : c
  · rw [if_pos hc]
    exact error he
  · rw [if_neg hc]
    exact hf

theorem forM {f : α → Except ReconfigError Unit} {l : List α}
    (hf : ∀ a, FailsWith kind (f a)) : FailsWith kind (l.forM f) := by
  induction l with
  | nil => exact ok ()
  | cons a l ih => exact bind (hf a) fun _ => ih

theorem mapM {f : α → Except ReconfigError β} {l : List α}
    (hf : ∀ a, FailsWith kind (f a)) : FailsWith kind (l.mapM f) := by
  induction l with
  | nil => exact ok []
  | cons a l ih =>
    rw [List.mapM_cons]
    exact bind (hf a) fun b => bind ih fun bs => ok _

theorem foldlM {f : β → α → Except ReconfigError β} {l : List α}
    (hf : ∀ b a, FailsWith kind (f b a)) (b : β) : FailsWith kind (l.foldlM f b) := by
  induction l generalizing b with
  | nil => exact ok b
  | cons a l ih =>
    rw [List.foldlM_cons]
    exact bind (hf b a) ih

end FailsWith

/-- A computation is refused only because something is not found. -/
def FailsUnfound {α : Type} (x : Except ReconfigError α) : Prop :=
  ∀ e, x = .error e → e.code = .unfoundIdError

namespace FailsUnfound

variable {α β : Type}

theorem iff_failsWith {x : Except ReconfigError α} :
    FailsUnfound x ↔ FailsWith (· = .unfoundIdError) x :=
  Iff.rfl

theorem ok (a : α) : FailsUnfound (.ok a) := nofun

theorem notFound (kind : ObjectKind) (name : String) :
    FailsUnfound (.error (.notFound kind name) : Except ReconfigError α) :=
  iff_failsWith.mpr (.error rfl)

theorem bind {x : Except ReconfigError α} {f : α → Except ReconfigError β} (hx : FailsUnfound x)
    (hf : ∀ a, FailsUnfound (f a)) : FailsUnfound (x >>= f) :=
  iff_failsWith.mpr (.bind hx hf)

theorem forM {f : α → Except ReconfigError Unit} {l : List α}
    (hf : ∀ a, FailsUnfound (f a)) : FailsUnfound (l.forM f) :=
  iff_failsWith.mpr (.forM hf)

end FailsUnfound

open FailsUnfound

theorem Pipeline.failsUnfound_edgeTo (p : Pipeline) (target? : Option String) :
    FailsUnfound (p.edgeTo target?) := by
  unfold edgeTo
  split
  · exact ok _
  · split
    · exact ok _
    · exact notFound _ _

namespace Program

theorem failsUnfound_existingPipeline (g : Program) (name : String) :
    FailsUnfound (g.existingPipeline name) := by
  unfold existingPipeline
  split
  · exact ok _
  · exact notFound _ _

theorem failsUnfound_existingArray (g : Program) (name : String) :
    FailsUnfound (g.existingArray name) := by
  unfold existingArray
  split
  · exact ok _
  · exact notFound _ _

theorem failsUnfound_setConditionalNext (g : Program) (pipeline name : String) (branch : Branch)
    (target? : Option String) :
    FailsUnfound (g.setConditionalNext pipeline name branch target?) := by
  refine bind (g.failsUnfound_existingPipeline pipeline) fun p =>
    bind (p.failsUnfound_edgeTo target?) fun _ => ?_
  split
  · exact notFound _ _
  · exact ok _

theorem failsUnfound_deleteConditional (g : Program) (pipeline name : String) :
    FailsUnfound (g.deleteConditional pipeline name) := by
  refine bind (g.failsUnfound_existingPipeline pipeline) fun p => ?_
  split
  · exact notFound _ _
  · exact ok _

theorem failsUnfound_setTableNext (g : Program) (pipeline name : String) (slot : TableSlot)
    (target? : Option String) : FailsUnfound (g.setTableNext pipeline name slot target?) := by
  refine bind (g.failsUnfound_existingPipeline pipeline) fun p =>
    bind (p.failsUnfound_edgeTo target?) fun _ => ?_
  split
  · exact notFound _ _
  · cases slot with
    | baseDefault | hit | miss => exact ok _
    | action action =>
      dsimp only
      split
      · exact ok _
      · exact notFound _ _

theorem failsUnfound_deleteTable (g : Program) (pipeline name : String) :
    FailsUnfound (g.deleteTable pipeline name) := by
  refine bind (g.failsUnfound_existingPipeline pipeline) fun p => ?_
  split
  · exact notFound _ _
  · exact ok _

theorem failsUnfound_rehashArray (g : Program) (s : Store) (r : RehashSpec) :
    FailsUnfound (g.rehashArray s r) := by
  have harray (name : String) := g.failsUnfound_existingArray name
  exact bind (harray r.target) fun _ => bind (harray r.recording) fun _ =>
    bind (harray r.lastPos) fun _ => bind (harray r.counting) fun _ =>
    bind (harray r.reset) fun _ => ok _

end Program

/-- An edit that inserts nothing is refused only because something is not found. -/
theorem Edit.failsUnfound_run {donor : Program} {x : Program × Store} {e : Edit}
    (he : e.inserts? = none) : FailsUnfound (e.run donor x) := by
  obtain ⟨g, s⟩ := x
  cases e with
  | insertConditional | insertFlex | insertTable | insertArray => cases he
  | setConditionalNext pipeline name branch target? =>
    exact bind (g.failsUnfound_setConditionalNext pipeline name branch target?) fun _ => ok _
  | deleteConditional pipeline name =>
    exact bind (g.failsUnfound_deleteConditional pipeline name) fun _ => ok _
  | setTableNext pipeline name slot target? =>
    exact bind (g.failsUnfound_setTableNext pipeline name slot target?) fun _ => ok _
  | deleteTable pipeline name =>
    exact bind (g.failsUnfound_deleteTable pipeline name) fun _ => ok _
  | resizeArray name | rewidenArray name | deleteArray name =>
    exact bind (bind (g.failsUnfound_existingArray name) fun _ => ok _) fun _ => ok _
  | rehashArray r => exact g.failsUnfound_rehashArray s r

/-! ### Edits that insert something -/

/-- The codes of edits that are refused: a name is taken, or something is not found. -/
def ResultCode.OfEdit (code : ResultCode) : Prop :=
  code = .duplicateError ∨ code = .unfoundIdError

theorem FailsUnfound.ofEdit {α : Type} {x : Except ReconfigError α} (hx : FailsUnfound x) :
    FailsWith ResultCode.OfEdit x :=
  (iff_failsWith.mp hx).mono fun _ => Or.inr

theorem FailsWith.duplicate {α : Type} (kind : ObjectKind) (name : String) :
    FailsWith ResultCode.OfEdit (.error (.duplicate kind name) : Except ReconfigError α) :=
  .error (Or.inl rfl)

theorem Pipeline.failsWith_adopt (p : Pipeline) (kind : ObjectKind) (n : Node) :
    FailsWith ResultCode.OfEdit (p.adopt kind n) := by
  unfold adopt
  split
  · exact .ok _
  · exact .duplicate _ _

namespace Program

theorem failsUnfound_existingActions (g : Program) (ids : List Int) :
    FailsUnfound (g.existingActions ids) := by
  refine iff_failsWith.mpr (.mapM fun id => ?_)
  split
  · exact .ok _
  · exact notFound _ _

theorem failsWith_insertConditional (g : Program) (pipeline name : String)
    (definition? : Option Conditional) :
    FailsWith ResultCode.OfEdit (g.insertConditional pipeline name definition?) := by
  refine .bind (g.failsUnfound_existingPipeline pipeline).ofEdit fun p =>
    .guard (Or.inl rfl) ?_
  cases definition? with
  | none => exact (notFound _ _).ofEdit
  | some d => exact .bind (p.failsWith_adopt _ _) fun _ => .ok _

theorem failsWith_insertFlex (g : Program) (pipeline name : String)
    (falseNext? trueNext? : Option String) :
    FailsWith ResultCode.OfEdit (g.insertFlex pipeline name falseNext? trueNext?) := by
  exact .bind (g.failsUnfound_existingPipeline pipeline).ofEdit fun p =>
    .guard (Or.inl rfl) <|
    .bind (p.failsUnfound_edgeTo falseNext?).ofEdit fun _ =>
    .bind (p.failsUnfound_edgeTo trueNext?).ofEdit fun _ =>
    .bind (p.failsWith_adopt _ _) fun _ => .ok _

theorem failsWith_adoptCalculation (donor g : Program) (name : String) :
    FailsWith ResultCode.OfEdit (adoptCalculation donor g name) := by
  unfold adoptCalculation
  split
  · exact .ok _
  · split
    · exact .ok _
    · split
      · exact .ok _
      · exact .duplicate _ _

theorem failsWith_adoptActions (donor g : Program) (as : List Action) :
    FailsWith ResultCode.OfEdit (adoptActions donor g as) := by
  induction as generalizing g with
  | nil => exact .ok _
  | cons a as ih =>
    refine .bind (.bind (.foldlM (failsWith_adoptCalculation donor) g) fun _ => .ok _) fun g' => ?_
    exact .bind (ih g') fun _ => .ok _

theorem failsWith_insertTable (g donor : Program) (pipeline name : String) :
    FailsWith ResultCode.OfEdit (g.insertTable donor pipeline name) := by
  refine .bind (g.failsUnfound_existingPipeline pipeline).ofEdit fun p =>
    .guard (Or.inl rfl) ?_
  split
  · exact (notFound _ _).ofEdit
  · exact .bind (donor.failsUnfound_existingActions _).ofEdit fun as =>
      .bind (failsWith_adoptActions donor g as) fun _ =>
        .bind (p.failsWith_adopt _ _) fun _ => .ok _

theorem failsWith_insertArray (g : Program) (s : Store) (name : String) (size bitwidth : Nat) :
    FailsWith ResultCode.OfEdit (g.insertArray s name size bitwidth) := by
  unfold insertArray
  dsimp only
  split
  · exact .ok _
  · exact .duplicate _ _

end Program

/-- An edit is refused only because a name is taken or something is not found. -/
theorem Edit.failsWith_run (donor : Program) (x : Program × Store) (e : Edit) :
    FailsWith ResultCode.OfEdit (e.run donor x) := by
  cases hinserts : e.inserts? with
  | none => exact (failsUnfound_run hinserts).ofEdit
  | some subject =>
    obtain ⟨g, s⟩ := x
    cases e with
    | insertConditional pipeline name =>
      exact .bind (g.failsWith_insertConditional pipeline name _) fun _ => .ok _
    | insertFlex pipeline name falseNext? trueNext? =>
      exact .bind (g.failsWith_insertFlex pipeline name falseNext? trueNext?) fun _ => .ok _
    | insertTable pipeline name =>
      exact .bind (g.failsWith_insertTable donor pipeline name) fun _ => .ok _
    | insertArray name size bitwidth => exact g.failsWith_insertArray s name size bitwidth
    | _ => cases hinserts

/-! ### Commands -/

namespace Session

variable {s : Session} {c : Command}

theorem failsUnfound_check (s : Session) (r : Reference) : FailsUnfound (s.check r) := by
  unfold check
  split
  · exact ok _
  · exact notFound _ _

/-- A command that inserts nothing is refused only because something is not found. -/
theorem failsUnfound_apply (hc : c.inserts? = none) : FailsUnfound (s.apply c) := by
  have hchecks : FailsUnfound (c.references.forM s.check) :=
    FailsUnfound.forM s.failsUnfound_check
  have hperform : FailsUnfound (s.perform c) := by
    rw [perform_eq]
    exact bind hchecks fun _ => bind (Edit.failsUnfound_run hc) fun _ => ok _
  exact bind hperform fun _ => ok _

/-- A command is refused only because a name is taken or something is not found. -/
theorem failsWith_apply (s : Session) (c : Command) :
    FailsWith ResultCode.OfEdit (s.apply c) := by
  have hchecks : FailsUnfound (c.references.forM s.check) :=
    FailsUnfound.forM s.failsUnfound_check
  have hperform : FailsWith ResultCode.OfEdit (s.perform c) := by
    rw [perform_eq]
    exact .bind hchecks.ofEdit fun _ => .bind (Edit.failsWith_run _ _ _) fun _ => .ok _
  exact .bind hperform fun _ => .ok _

end Session

end LiveSwitch
