import LiveSwitch.Program.Mutation
import LiveSwitch.Proofs.Plan.Layouts

/-!
# Edits in place and as a whole

A mutation changes a program bit by bit, and a refusal leaves behind whatever the program has
become by then.  It goes through when its edit does as a whole, and makes the same of a program;
it is refused when its edit is, for the same reason.  With two exceptions a refusal leaves
everything as it was: once the first change is made, no later line can be refused.  For a rehash
this rests on an array staying where it is when another one is replaced.  A table is the first
exception: a calculation that is copied along gets the next free id, which is in use once the
counter has gone round, and then the copies before it stay.  The second is an array whose name
leads nowhere: the name is given up before that is noticed.

## Main definitions

* `Mutating.TakesPlace` — a computation takes place as a whole or changes nothing.
* `Mutating.RefusedFirst` — a computation is refused before its first change.
* `Program.Stuck` — a calculation that is to be copied finds its id in use.
* `Mutation.LeavesPart` — what is left of a refused mutation.

## Main results

* `Mutating.takesPlace_look`, `takesPlace_guard` — lines that come before the first change.
* `Program.InPlace.endsAs_mapM_copyAction` — the copies from a donor.
* `Program.InPlace.endsAs_insertTable` and its like — one theorem for each edit.
* `Mutation.ends_inPlace` — every mutation ends as its edit does.
* `Mutation.run_eq_ok_iff` — a mutation goes through exactly when its edit does.
* `Mutation.after_of_error` — what a refused mutation leaves of any program.
-/

namespace LiveSwitch

variable {g donor : Program} {s : Store}

/-! ### Computations that take place as a whole -/

namespace Mutating

variable {α β : Type} {state : Program × Store}

/-- A computation does what an attempt makes of the state, as `made` says, or it is refused as
the attempt is, and leaves the state as it was. -/
def TakesPlace (x : Mutating Unit) (state : Program × Store) (attempt : Except ReconfigError β)
    (made : β → Program × Store) : Prop :=
  x.run state = match attempt with
    | .ok b => .ok () (made b)
    | .error e => .error e state

variable {x : Mutating Unit} {attempt : Except ReconfigError β} {made : β → Program × Store}

theorem run_look (f : Program → Except ReconfigError α) (g : Program) (s : Store) :
    (look f).run (g, s) = match f g with
      | .ok a => .ok a (g, s)
      | .error e => .error e (g, s) := by
  show EStateM.run (match f g with | .ok a => pure a | .error e => throw e : Mutating α) (g, s) = _
  cases f g with
  | ok a => rfl
  | error e => rfl

theorem run_look_bind {f : Program → Except ReconfigError α} {a : α} (h : f g = .ok a)
    (k : α → Mutating β) : (look f >>= k).run (g, s) = (k a).run (g, s) := by
  rw [EStateM.run_bind, run_look, h]

theorem run_peek_bind (f : Program → α) (k : α → Mutating β) :
    (peek f >>= k).run (g, s) = (k (f g)).run (g, s) := rfl

theorem run_allocate_bind (f : Store → α × Store) (k : α → Mutating β) :
    (allocate f >>= k).run (g, s) = (k (f s).1).run (g, (f s).2) := rfl

/-- A part of the program that is looked at in front. -/
theorem takesPlace_peek {f : Program → α} {k : α → Mutating Unit}
    (hk : TakesPlace (k (f g)) (g, s) attempt made) :
    TakesPlace (peek f >>= k) (g, s) attempt made :=
  hk

/-- A computation is refused whenever an attempt is, for the same reason, and leaves the state as it
was then. -/
def RefusedFirst (x : Mutating Unit) (state : Program × Store) (attempt : Except ReconfigError β) :
    Prop :=
  ∀ e, attempt = .error e → x.run state = .error e state

theorem refusedFirst_look {f : Program → Except ReconfigError α} {k : α → Mutating Unit}
    {h : α → Except ReconfigError β} (hk : ∀ a, RefusedFirst (k a) (g, s) (h a)) :
    RefusedFirst (look f >>= k) (g, s) (f g >>= h) := by
  intro e he
  rw [EStateM.run_bind, run_look]
  cases hf : f g with
  | ok a =>
    rw [hf] at he
    exact hk a e he
  | error e' =>
    rw [hf] at he
    cases he
    rfl

/-- A look-up in front: it may be refused, since nothing is changed so far. -/
theorem takesPlace_look {f : Program → Except ReconfigError α} {k : α → Mutating Unit}
    {h : α → Except ReconfigError β}
    (hk : ∀ a, f g = .ok a → TakesPlace (k a) (g, s) (h a) made) :
    TakesPlace (look f >>= k) (g, s) (f g >>= h) made := by
  unfold TakesPlace
  rw [EStateM.run_bind, run_look]
  cases hf : f g with
  | ok a => exact hk a hf
  | error e => rfl

/-- A guard in front. -/
theorem takesPlace_guard {c : Prop} [Decidable c] {e : ReconfigError} {k : PUnit → Mutating Unit}
    {h : PUnit → Except ReconfigError β} (hk : ¬c → TakesPlace (k ⟨⟩) state (h ⟨⟩) made) :
    TakesPlace (if c then throw e >>= k else k ⟨⟩) state (if c then throw e >>= h else h ⟨⟩)
      made := by
  by_cases hc : c
  · rw [if_pos hc, if_pos hc]
    rfl
  · rw [if_neg hc, if_neg hc]
    exact hk hc

/-- An attempt whose result is looked at in another way. -/
theorem TakesPlace.map {γ : Type} (h : TakesPlace x state attempt made) {f : β → γ}
    {made' : γ → Program × Store} (hmade : ∀ b, made' (f b) = made b) :
    TakesPlace x state (attempt.map f) made' := by
  unfold TakesPlace at h ⊢
  rw [h]
  cases attempt with
  | ok b => exact congrArg (EStateM.Result.ok ()) (hmade b).symm
  | error e => rfl

/-- A computation ends as an attempt does: with what this makes of the program, or refused for the
same reason, with a program of which `left` holds.  The store stays. -/
def EndsAs (x : Mutating α) (state : Program × Store) (attempt : Except ReconfigError β)
    (made : β → Program × α) (left : ReconfigError → Program → Prop) : Prop :=
  match attempt with
  | .ok b => x.run state = .ok (made b).2 ((made b).1, state.2)
  | .error e => ∃ g, x.run state = .error e (g, state.2) ∧ left e g

theorem EndsAs.mono {x : Mutating α} {attempt : Except ReconfigError β} {made : β → Program × α}
    {left left' : ReconfigError → Program → Prop} (h : EndsAs x state attempt made left)
    (hleft : ∀ e g, attempt = .error e → left e g → left' e g) :
    EndsAs x state attempt made left' := by
  unfold EndsAs at h ⊢
  cases attempt with
  | ok b => exact h
  | error e =>
    obtain ⟨g, hrun, hg⟩ := h
    exact ⟨g, hrun, hleft e g rfl hg⟩

theorem endsAs_look (f : Program → Except ReconfigError α) (g : Program) (s : Store) :
    EndsAs (look f) (g, s) (f g) (g, ·) fun _ g' => g' = g := by
  unfold EndsAs
  rw [run_look]
  cases f g with
  | ok a => rfl
  | error e => exact ⟨g, rfl, rfl⟩

/-- A guard in front of a computation. -/
theorem endsAs_guard {c : Prop} [Decidable c] {e : ReconfigError} {k : PUnit → Mutating α}
    {h : PUnit → Except ReconfigError β} {made : β → Program × α}
    {left : ReconfigError → Program → Prop} (hleft : left e state.1)
    (hk : ¬c → EndsAs (k ⟨⟩) state (h ⟨⟩) made left) :
    EndsAs (if c then throw e >>= k else k ⟨⟩) state (if c then throw e >>= h else h ⟨⟩) made
      left := by
  by_cases hc : c
  · rw [if_pos hc, if_pos hc]
    exact ⟨state.1, rfl, hleft⟩
  · rw [if_neg hc, if_neg hc]
    exact hk hc

/-- One computation after another ends as the attempts do, one after the other. -/
theorem EndsAs.bind {α' β' : Type} {x : Mutating α} {attempt : Except ReconfigError β}
    {made : β → Program × α} {left : ReconfigError → Program → Prop} {k : α → Mutating α'}
    {h : β → Except ReconfigError β'} {made' : β' → Program × α'}
    (hx : EndsAs x state attempt made left)
    (hk : ∀ b, attempt = .ok b →
      EndsAs (k (made b).2) ((made b).1, state.2) (h b) made' left) :
    EndsAs (x >>= k) state (attempt >>= h) made' left := by
  unfold EndsAs at hx
  cases attempt with
  | ok b =>
    have hb := hk b rfl
    unfold EndsAs at hb ⊢
    rw [EStateM.run_bind, hx]
    exact hb
  | error e =>
    obtain ⟨g, hrun, hg⟩ := hx
    refine ⟨g, ?_, hg⟩
    rw [EStateM.run_bind, hrun]

end Mutating

open Mutating

/-! ### Nodes -/

/-- A node goes in when its name is free. -/
theorem Pipeline.adopt_eq_ok {p : Pipeline} {n : Node} (h : p.find? n.name = none)
    (kind : ObjectKind) : ∃ p', p.adopt kind n = .ok p' := by
  unfold adopt insertNode
  rw [h, Option.isSome_none, if_neg Bool.false_ne_true]
  cases p.free with
  | nil => exact ⟨_, rfl⟩
  | cons i free => exact ⟨_, rfl⟩

namespace Program.InPlace

variable {pipeline name : String} {p : Pipeline}

theorem addConditional_takesPlace (kind : ObjectKind) (c : Conditional) :
    TakesPlace (addConditional kind pipeline p c) (g, s)
      (do
        let p ← p.adopt kind (.conditional c)
        return { g.setPipeline pipeline p with conditionalIds := g.conditionalIds.bump })
      (·, s) :=
  takesPlace_look fun _ _ => rfl

theorem insertConditional_takesPlace (definition? : Option Conditional) :
    TakesPlace (insertConditional pipeline name definition?) (g, s)
      (g.insertConditional pipeline name definition?) (·, s) := by
  refine takesPlace_peek (takesPlace_look fun p _ => takesPlace_guard fun _ => ?_)
  cases definition? with
  | none => rfl
  | some d => exact addConditional_takesPlace .conditional _

theorem insertFlex_takesPlace (falseNext? trueNext? : Option String) :
    TakesPlace (insertFlex pipeline name falseNext? trueNext?) (g, s)
      (g.insertFlex pipeline name falseNext? trueNext?) (·, s) := by
  refine takesPlace_peek (takesPlace_look fun p _ => takesPlace_guard fun _ => ?_)
  refine takesPlace_look (f := fun _ => p.edgeTo falseNext?) fun falseNext _ => ?_
  refine takesPlace_look (f := fun _ => p.edgeTo trueNext?) fun trueNext _ => ?_
  exact addConditional_takesPlace .flex _

theorem setConditionalNext_takesPlace (branch : Branch) (target? : Option String) :
    TakesPlace (setConditionalNext pipeline name branch target?) (g, s)
      (g.setConditionalNext pipeline name branch target?) (·, s) := by
  refine takesPlace_look fun p _ => ?_
  refine takesPlace_look (f := fun _ => p.edgeTo target?) fun e _ => ?_
  exact takesPlace_guard fun _ => rfl

theorem deleteConditional_takesPlace :
    TakesPlace (deleteConditional pipeline name) (g, s) (g.deleteConditional pipeline name)
      (·, s) :=
  takesPlace_look fun _ _ => takesPlace_guard fun _ => rfl

theorem setTableNext_takesPlace (slot : TableSlot) (target? : Option String) :
    TakesPlace (setTableNext pipeline name slot target?) (g, s)
      (g.setTableNext pipeline name slot target?) (·, s) := by
  refine takesPlace_look fun p _ => ?_
  refine takesPlace_look (f := fun _ => p.edgeTo target?) fun e _ => ?_
  cases p.table? name with
  | none => rfl
  | some t =>
    cases slot with
    | baseDefault => rfl
    | hit => rfl
    | miss => rfl
    | action action =>
      refine takesPlace_peek ?_
      dsimp only
      cases g.actionNamed? t.actionIds action with
      | none => rfl
      | some id => rfl

theorem deleteTable_takesPlace :
    TakesPlace (deleteTable pipeline name) (g, s) (g.deleteTable pipeline name) (·, s) :=
  takesPlace_look fun _ _ => takesPlace_guard fun _ => rfl

/-! ### Copies from a donor -/

end InPlace

/-- The next calculation to be copied from a donor finds its id in use. -/
def Stuck (donor g : Program) (e : ReconfigError) : Prop :=
  ∃ name, e = .duplicate .calculation name ∧ g.calculations.contains name = false ∧
    (donor.calculation? name).isSome ∧
    (g.calculations.getById? g.calculations.nextId).isSome

theorem stuck_of_adoptCalculation {name : String} {e : ReconfigError}
    (h : adoptCalculation donor g name = .error e) : Stuck donor g e := by
  rw [adoptCalculation] at h
  split at h
  case isTrue => cases h
  case isFalse hname =>
    rw [Bool.not_eq_true] at hname
    split at h
    case h_1 => cases h
    case h_2 c hc =>
      refine ⟨name, ?_, hname, Option.isSome_of_eq_some hc, ?_⟩
      · split at h
        · cases h
        · exact (Except.error.inj h).symm
      · -- the name is free, so it is the id for which the copy is refused
        have hcname : nameOf (c.withId g.calculations.nextId) = name :=
          (ObjectMap.mem_of_get? hc).2
        rw [Option.isSome_iff_ne_none]
        intro hid
        have hins := ObjectMap.insert_eq_ok.mpr
          ⟨hcname.symm ▸ hname, hid, rfl⟩
        rw [hins] at h
        cases h

namespace InPlace

theorem endsAs_copyCalculation (donor g : Program) (s : Store) (name : String) :
    EndsAs (copyCalculation donor name) (g, s) (adoptCalculation donor g name) (·, ())
      fun e g' => g' = g ∧ Stuck donor g' e := by
  have hrun : (copyCalculation donor name).run (g, s) =
      match adoptCalculation donor g name with
      | .ok g' => .ok () (g', s)
      | .error e => .error e (g, s) := by
    rw [copyCalculation, run_peek_bind, adoptCalculation]
    cases g.calculations.contains name with
    | true => rfl
    | false =>
      rw [if_neg Bool.false_ne_true, if_neg Bool.false_ne_true]
      cases donor.calculation? name with
      | none => rfl
      | some c =>
        dsimp only
        cases g.calculations.insert (c.withId g.calculations.nextId) with
        | ok calculations => rfl
        | error e => rfl
  unfold EndsAs
  rw [hrun]
  cases h : adoptCalculation donor g name with
  | ok g' => rfl
  | error e => exact ⟨g, rfl, rfl, stuck_of_adoptCalculation h⟩

theorem endsAs_forM_copyCalculation (donor g : Program) (s : Store) (names : List String) :
    EndsAs (names.forM (copyCalculation donor)) (g, s)
      (names.foldlM (adoptCalculation donor) g) (·, ())
      fun e g' => Copied donor g g' ∧ Stuck donor g' e := by
  induction names generalizing g with
  | nil => rfl
  | cons name names ih =>
    rw [List.foldlM_cons]
    refine ((endsAs_copyCalculation donor g s name).mono ?_).bind fun g' hg' => ?_
    · rintro e g' - ⟨rfl, hstuck⟩
      exact ⟨.refl, hstuck⟩
    · have hcopied : Copied donor g g' := Copied.refl.calculation hg'
      exact (ih g').mono fun e g'' _ h => ⟨hcopied.trans h.1, h.2⟩

/-- The id of a copy is the next free one from before its calculations were copied. -/
theorem endsAs_copyAction (donor g : Program) (s : Store) (a : Action) :
    EndsAs (copyAction donor a) (g, s) (adoptAction donor g a) (·, g.actions.nextId)
      fun e g' => Copied donor g g' ∧ Stuck donor g' e := by
  refine (endsAs_forM_copyCalculation donor g s a.calculations).bind fun g' hg' => ?_
  obtain ⟨calculations, rfl⟩ := adoptCalculations_ok hg'
  rfl

theorem endsAs_mapM_copyAction (donor g : Program) (s : Store) (as : List Action) :
    EndsAs (as.mapM (copyAction donor)) (g, s) (adoptActions donor g as) id
      fun e g' => Copied donor g g' ∧ Stuck donor g' e := by
  induction as generalizing g with
  | nil => rfl
  | cons a as ih =>
    rw [List.mapM_cons, adoptActions]
    refine (endsAs_copyAction donor g s a).bind fun g' hg' => ?_
    have hcopied := copied_adoptAction hg'
    refine ((ih g').mono fun e g'' _ h => ⟨hcopied.trans h.1, h.2⟩).bind fun b _ => ?_
    rfl

/-- A table: once the copies are made nothing is refused, for the pipeline is still there then and
the name of the table still free. -/
theorem endsAs_insertTable (donor g : Program) (s : Store) (pipeline name : String) :
    EndsAs (insertTable donor pipeline name) (g, s) (g.insertTable donor pipeline name) (·, ())
      fun e g' => g' = g ∨ Copied donor g g' ∧ Stuck donor g' e := by
  refine ((endsAs_look (·.existingPipeline pipeline) g s).mono fun _ _ _ => Or.inl).bind
    fun p hp => endsAs_guard (Or.inl rfl) fun hfree => ?_
  cases (donor.pipeline? pipeline).bind (·.table? name) with
  | none => exact ⟨g, rfl, Or.inl rfl⟩
  | some definition =>
    refine ((endsAs_look (fun _ => donor.existingActions definition.actionIds) g s).mono
      fun _ _ _ => Or.inl).bind fun actions _ => ?_
    refine ((endsAs_mapM_copyAction donor g s actions).mono fun _ _ _ => Or.inr).bind
      fun copied hcopied => ?_
    obtain ⟨g', ids⟩ := copied
    obtain ⟨actions', calculations', rfl⟩ := adoptActions_ok hcopied
    have hfind : p.find? name = none := by
      rwa [Bool.not_eq_true, Option.isSome_eq_false_iff, Option.isNone_iff_eq_none] at hfree
    obtain ⟨p', hp'⟩ := Pipeline.adopt_eq_ok
      (n := .table (definition.instantiate name g.tableIds.next ids)) hfind .table
    have hpipeline : existingPipeline
        { g with actions := actions', calculations := calculations', tableIds := g.tableIds.bump }
        pipeline = .ok p := hp
    dsimp only [id]
    rw [hp']
    show EStateM.run (look (·.existingPipeline pipeline) >>= fun p => look (fun _ => p.adopt .table
      (.table (definition.instantiate name g.tableIds.next ids))) >>= fun p =>
        change (·.setPipeline pipeline p)) _ = _
    rw [run_look_bind hpipeline, run_look_bind (f := fun _ => p.adopt .table
      (.table (definition.instantiate name g.tableIds.next ids))) hp']
    rfl

/-! ### Register arrays -/

theorem run_replaceArray {b : RegisterArray} (hb : g.array? name = some b) (a : RegisterArray) :
    (replaceArray name a).run (g, s) = .ok () (g.setArray name a, s) := by
  rw [replaceArray, EStateM.run_bind, run_look, existingArray_eq_ok.mpr hb]
  rfl

theorem insertArray_takesPlace (size bitwidth : Nat) :
    TakesPlace (insertArray name size bitwidth) (g, s) (g.insertArray s name size bitwidth) id := by
  refine takesPlace_peek ?_
  unfold TakesPlace Program.insertArray
  dsimp only
  rw [ObjectMap.insertNew]
  cases hcontains : g.arrays.contains name with
  | true => rfl
  | false =>
    rw [if_neg Bool.false_ne_true, run_peek_bind, run_allocate_bind, run_look_bind]
    · rfl
    · rw [ObjectMap.insertNew, hcontains]
      rfl

theorem resizeArray_takesPlace (size : Nat) :
    TakesPlace (resizeArray name size) (g, s) (g.resizeArray name size) (·, s) :=
  takesPlace_look fun _ ha => run_replaceArray (existingArray_eq_ok.mp ha) _

theorem rewidenArray_takesPlace (bitwidth : Nat) :
    TakesPlace (rewidenArray name bitwidth) (g, s) (g.rewidenArray name bitwidth) (·, s) :=
  takesPlace_look fun _ ha => run_replaceArray (existingArray_eq_ok.mp ha) _

/-- The name is given up, and only then a name is refused that leads nowhere. -/
theorem endsAs_deleteArray (g : Program) (s : Store) (name : String) :
    EndsAs (deleteArray name) (g, s) (g.deleteArray name) (·, ()) fun e g' =>
      e = .notFound .registerArray name ∧ g.array? name = none ∧
        g' = { g with arrays := g.arrays.remove name } := by
  have hrun : (deleteArray name).run (g, s) =
      if (g.array? name).isNone then
        .error (.notFound .registerArray name) ({ g with arrays := g.arrays.remove name }, s)
      else .ok () ({ g with arrays := g.arrays.remove name }, s) := by
    rw [deleteArray, run_peek_bind, EStateM.run_bind]
    show EStateM.run (if (g.array? name).isNone then throw _ else pure ()) _ = _
    split <;> rfl
  unfold EndsAs
  rw [hrun, Program.deleteArray, existingArray]
  cases g.array? name with
  | none => exact ⟨_, rfl, rfl, rfl, rfl⟩
  | some a => rfl

/-- A rehash: the reset array is still there after the target was replaced, be it the same. -/
theorem rehashArray_takesPlace (hg : g.arrays.Consistent) (r : RehashSpec) :
    TakesPlace (rehashArray r) (g, s) (g.rehashArray s r) id := by
  refine takesPlace_look fun target ht => takesPlace_look fun recording hrecording => ?_
  refine takesPlace_look fun lastPos hlastPos => takesPlace_look fun counting hcounting => ?_
  refine takesPlace_look fun reset hreset => ?_
  rw [existingArray_eq_ok] at ht hreset
  unfold TakesPlace
  dsimp only
  rw [run_allocate_bind, run_allocate_bind, EStateM.run_bind, run_replaceArray ht]
  dsimp only
  generalize hrehashed : target.rehashed _ s = rehashed
  have hidentity : rehashed.1.identity = target.identity := by rw [← hrehashed]; rfl
  obtain ⟨b, hb, -⟩ := exists_reset hg ht hreset hidentity
  rw [run_replaceArray hb]
  rfl

/-- Whatever a rehash is refused for is noticed before its first change. -/
theorem rehashArray_refused (g : Program) (s : Store) (r : RehashSpec) :
    RefusedFirst (rehashArray r) (g, s) (g.rehashArray s r) := by
  refine refusedFirst_look fun target => refusedFirst_look fun recording => ?_
  refine refusedFirst_look fun lastPos => refusedFirst_look fun counting => ?_
  exact refusedFirst_look fun reset => nofun

end Program.InPlace

/-! ### Mutations -/

namespace Mutation

/-- What is left of a mutation that was refused with an error, where it is not the program as it
was: copies that were made for a table before one got stuck, or all but the name of an array that
leads nowhere. -/
def LeavesPart (g : Program) (m : Mutation) (e : ReconfigError) (g' : Program) : Prop :=
  match m with
  | insertTable donor _ _ => Program.Copied donor g g' ∧ Program.Stuck donor g' e
  | deleteArray name => e = .notFound .registerArray name ∧ g.array? name = none ∧
      g.arrays.contains name = true ∧ g' = { g with arrays := g.arrays.remove name }
  | _ => False

open Program.InPlace

/-- A computation makes of a program and its store what an attempt makes of them, or it is refused
for the same reason and leaves the store and a program of which `left` holds. -/
def Ends (x : Mutating Unit) (g : Program) (s : Store) (left : ReconfigError → Program → Prop) :
    Except ReconfigError (Program × Store) → Prop
  | .ok state => x.run (g, s) = .ok () state
  | .error e => ∃ g', x.run (g, s) = .error e (g', s) ∧ left e g'

theorem ends_of_takesPlace {x : Mutating Unit} {attempt : Except ReconfigError (Program × Store)}
    {left : ReconfigError → Program → Prop} (h : TakesPlace x (g, s) attempt id) :
    Ends x g s (fun e g' => g' = g ∨ left e g') attempt := by
  unfold TakesPlace at h
  cases attempt with
  | ok state => exact h
  | error e => exact ⟨g, h, Or.inl rfl⟩

/-- Every mutation but a rehash ends as its edit does, whatever the program is. -/
theorem ends_of_ne_rehash (g : Program) (s : Store) {m : Mutation} (hm : ∀ r, m ≠ .rehashArray r) :
    Ends m.inPlace g s (fun e g' => g' = g ∨ m.LeavesPart g e g') (m.attempt g s) := by
  cases m with
  | insertConditional _ _ definition? =>
    exact ends_of_takesPlace ((insertConditional_takesPlace definition?).map fun _ => rfl)
  | insertFlex _ _ falseNext? trueNext? =>
    exact ends_of_takesPlace ((insertFlex_takesPlace falseNext? trueNext?).map fun _ => rfl)
  | setConditionalNext _ _ branch target? =>
    exact ends_of_takesPlace ((setConditionalNext_takesPlace branch target?).map fun _ => rfl)
  | deleteConditional =>
    exact ends_of_takesPlace (deleteConditional_takesPlace.map fun _ => rfl)
  | insertTable donor pipeline name =>
    have h := endsAs_insertTable donor g s pipeline name
    unfold EndsAs at h
    show Ends _ g s _ ((g.insertTable donor pipeline name).map (·, s))
    cases hattempt : g.insertTable donor pipeline name with
    | ok g' =>
      rw [hattempt] at h
      exact h
    | error e =>
      rw [hattempt] at h
      exact h
  | setTableNext _ _ slot target? =>
    exact ends_of_takesPlace ((setTableNext_takesPlace slot target?).map fun _ => rfl)
  | deleteTable => exact ends_of_takesPlace (deleteTable_takesPlace.map fun _ => rfl)
  | insertArray _ size bitwidth => exact ends_of_takesPlace (insertArray_takesPlace size bitwidth)
  | resizeArray _ size => exact ends_of_takesPlace ((resizeArray_takesPlace size).map fun _ => rfl)
  | rewidenArray _ bitwidth =>
    exact ends_of_takesPlace ((rewidenArray_takesPlace bitwidth).map fun _ => rfl)
  | deleteArray name =>
    have h := endsAs_deleteArray g s name
    unfold EndsAs at h
    show Ends _ g s _ ((g.deleteArray name).map (·, s))
    cases hattempt : g.deleteArray name with
    | ok g' =>
      rw [hattempt] at h
      exact h
    | error e =>
      rw [hattempt] at h
      obtain ⟨g', hrun, he, hnone, rfl⟩ := h
      refine ⟨_, hrun, ?_⟩
      by_cases hname : g.arrays.contains name = true
      · exact Or.inr ⟨he, hnone, hname, rfl⟩
      · rw [Bool.not_eq_true] at hname
        rw [ObjectMap.remove_of_not_contains hname]
        exact Or.inl rfl
  | rehashArray r => exact absurd rfl (hm r)

/-- Every mutation ends as its edit does.  What is left of a refused one is the program as it was,
unless part of the mutation is. -/
theorem ends_inPlace (hg : g.arrays.Consistent) (m : Mutation) (s : Store) :
    Ends m.inPlace g s (fun e g' => g' = g ∨ m.LeavesPart g e g') (m.attempt g s) := by
  by_cases hm : ∃ r, m = .rehashArray r
  · obtain ⟨r, rfl⟩ := hm
    exact ends_of_takesPlace (rehashArray_takesPlace hg r)
  · exact ends_of_ne_rehash g s fun r hr => hm ⟨r, hr⟩

/-- A mutation goes through exactly when its edit does. -/
theorem run_eq_ok_iff (hg : g.arrays.Consistent) {m : Mutation} {state : Program × Store} :
    m.inPlace.run (g, s) = .ok () state ↔ m.attempt g s = .ok state := by
  have hends := ends_inPlace hg m s
  cases hattempt : m.attempt g s with
  | ok made =>
    rw [hattempt] at hends
    have hrun : m.inPlace.run (g, s) = .ok () made := hends
    rw [hrun, Except.ok.injEq]
    exact ⟨fun h => by injection h, fun h => by rw [h]⟩
  | error e =>
    rw [hattempt] at hends
    obtain ⟨g', hrun, -⟩ := hends
    rw [hrun]
    exact ⟨nofun, nofun⟩

/-- A refused mutation leaves the store, and the program unless part of the mutation is left. -/
theorem after_of_error (g : Program) {m : Mutation} {e : ReconfigError}
    (h : m.attempt g s = .error e) : ∃ g', m.inPlace.after (g, s) = (g', s) ∧
      (g' = g ∨ m.LeavesPart g e g') := by
  have hends : Ends m.inPlace g s (fun e g' => g' = g ∨ m.LeavesPart g e g') (m.attempt g s) := by
    by_cases hm : ∃ r, m = .rehashArray r
    · obtain ⟨r, rfl⟩ := hm
      rw [h]
      exact ⟨g, rehashArray_refused g s r e h, Or.inl rfl⟩
    · exact ends_of_ne_rehash g s fun r hr => hm ⟨r, hr⟩
  rw [h] at hends
  obtain ⟨g', hrun, hleft⟩ := hends
  refine ⟨g', ?_, hleft⟩
  rw [after, hrun]

end Mutation

end LiveSwitch
