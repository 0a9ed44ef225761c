import LiveSwitch.Program.Run
import LiveSwitch.Proofs.Outcome
import LiveSwitch.Proofs.Register.Storage

/-!
# What packets change

A packet on its way through a program changes itself and the cells of registers, and it does
so whether it fails in the end or not.  What it keeps is proved bottom up: from the primitives
over actions and nodes to the walk through all pipelines.

## Main definitions

* `Exec.Keeps` — a computation keeps a property of the machine, and its failures are of a
  kind.
* `RunError.OfPrimitive`, `RunError.Inner` — the failures of primitives and of nodes.
* `Program.Stable` — a property of the storages that writes through arrays of a program keep.

## Main results

* `Node.keeps_visit` — a node keeps what writes keep, and its failures are inner ones.
* `Program.keeps_process` — a packet keeps what writes keep.
* `Program.stable_alike` — so it adds and removes no storage and changes the shape of none.
-/

namespace LiveSwitch

/-- The failures of primitives. -/
def RunError.OfPrimitive : RunError → Prop
  | danglingEdge .. | tooManySteps _ | unknownAction _ => False
  | _ => True

/-- The failures of nodes: anything but a dangling edge or too many steps. -/
def RunError.Inner : RunError → Prop
  | danglingEdge .. | tooManySteps _ => False
  | _ => True

theorem RunError.OfPrimitive.inner {e : RunError} (h : e.OfPrimitive) : e.Inner := by
  cases e with
  | danglingEdge | tooManySteps | unknownAction => cases h
  | _ => trivial

namespace Exec

variable {α β : Type} {P : Machine → Prop} {E : RunError → Prop}

/-- The computation keeps a property of the machine, and its failures are of a kind. -/
def Keeps (P : Machine → Prop) (E : RunError → Prop) (x : Exec α) : Prop :=
  ∀ m, P m → match x.run m with
    | .ok _ m' => P m'
    | .error e m' => E e ∧ P m'

namespace Keeps

theorem mono {E' : RunError → Prop} {x : Exec α} (hx : Keeps P E x) (hE : ∀ e, E e → E' e) :
    Keeps P E' x := by
  intro m hm
  have hx' := hx m hm
  split at hx'
  · exact hx'
  · exact ⟨hE _ hx'.1, hx'.2⟩

theorem pure (a : α) : Keeps P E (Pure.pure a : Exec α) := fun _ hm => hm

theorem bind {x : Exec α} {f : α → Exec β} (hx : Keeps P E x) (hf : ∀ a, Keeps P E (f a)) :
    Keeps P E (x >>= f) := by
  intro m hm
  have hx' := hx m hm
  show match EStateM.bind x f m with
    | .ok _ m' => P m'
    | .error e m' => E e ∧ P m'
  rw [EStateM.bind]
  rw [EStateM.run] at hx'
  split at hx'
  case h_1 a m' heq =>
    rw [heq]
    exact hf a m' hx'
  case h_2 e m' heq =>
    rw [heq]
    exact hx'

theorem throw {e : RunError} (he : E e) : Keeps P E (MonadExcept.throw e : Exec α) :=
  fun _ hm => ⟨he, hm⟩

theorem lift {x : Except RunError α} (hx : ∀ e, x = .error e → E e) : Keeps P E (lift x) := by
  cases x with
  | ok a => exact pure a
  | error e => exact throw (hx e rfl)

theorem orFail {e : RunError} (he : E e) (x? : Option α) : Keeps P E (orFail e x?) := by
  cases x? with
  | some a => exact pure a
  | none => exact throw he

theorem orFail_bind {e : RunError} (he : E e) {x? : Option α} {f : α → Exec β}
    (hf : ∀ a, x? = some a → Keeps P E (f a)) : Keeps P E (Exec.orFail e x? >>= f) := by
  cases x? with
  | some a => exact hf a rfl
  | none => exact fun _ hm => ⟨he, hm⟩

theorem get_bind {f : Machine → Exec α} (hf : ∀ m, P m → Keeps P E (f m)) :
    Keeps P E (get >>= f) :=
  fun m hm => hf m hm m hm

theorem lift_bind {x : Except RunError α} {f : α → Exec β} (hx : ∀ e, x = .error e → E e)
    (hf : ∀ a, x = .ok a → Keeps P E (f a)) : Keeps P E (Exec.lift x >>= f) := by
  cases x with
  | ok a => exact hf a rfl
  | error e => exact fun _ hm => ⟨hx e rfl, hm⟩

theorem set {m : Machine} (hm : P m) : Keeps P E (MonadStateOf.set m : Exec PUnit) :=
  fun _ _ => hm

theorem modify {f : Machine → Machine} (hf : ∀ m, P m → P (f m)) :
    Keeps P E (modify f : Exec Unit) :=
  hf

theorem forM {f : α → Exec PUnit} (hf : ∀ a, Keeps P E (f a)) (l : List α) :
    Keeps P E (l.forM f) := by
  induction l with
  | nil => exact pure _
  | cons a l ih => exact bind (hf a) fun _ => ih

theorem mapM {f : α → Exec β} (hf : ∀ a, Keeps P E (f a)) (l : List α) :
    Keeps P E (l.mapM f) := by
  induction l with
  | nil => exact pure _
  | cons a l ih =>
    rw [List.mapM_cons]
    exact bind (hf a) fun b => bind ih fun bs => pure _

end Keeps

end Exec

open Exec

/-! ### Expressions -/

theorem BinaryOp.ofPrimitive_apply {op : BinaryOp} {l r : UInt64} {e : RunError}
    (h : op.apply l r = .error e) : e.OfPrimitive := by
  cases op with
  | mod =>
    rw [apply] at h
    split at h
    · cases h
      trivial
    · cases h
  | _ => cases h

theorem Expr.ofPrimitive_eval {p : Packet} {data : List UInt64} {e : Expr} {err : RunError}
    (h : e.eval p data = .error err) : err.OfPrimitive := by
  induction e generalizing err with
  | field | const | header => cases h
  | data i =>
    rw [eval] at h
    split at h
    · cases h
    · cases h
      trivial
  | unary op e ih =>
    rw [eval] at h
    cases he : e.eval p data with
    | ok v => rw [he] at h; cases h
    | error e' => rw [he] at h; cases h; exact ih he
  | binary op l r ihl ihr =>
    rw [eval] at h
    cases hl : l.eval p data with
    | error e' => rw [hl] at h; cases h; exact ihl hl
    | ok v =>
      cases hr : r.eval p data with
      | error e' => rw [hl, hr] at h; cases h; exact ihr hr
      | ok w => rw [hl, hr] at h; exact BinaryOp.ofPrimitive_apply h

theorem Conditional.ofPrimitive_evaluate (c : Conditional) {p : Packet} {e : RunError}
    (h : c.evaluate p = .error e) : e.OfPrimitive := by
  rw [evaluate] at h
  split at h
  case h_1 condition _ =>
    cases hv : condition.expr.eval p [] with
    | error e' =>
      rw [Expr.test, hv] at h
      cases h
      exact Expr.ofPrimitive_eval hv
    | ok v =>
      rw [Expr.test, hv] at h
      cases h
  case h_2 => cases h

/-! ### Steps of a walk -/

namespace Pipeline

variable {g : Program} {p : Pipeline} {r : NodeRef} {n : Node}

theorem walk_dangling (h : p.resolve? r = none) (fuel : Nat) (source : String) :
    p.walk g fuel source (some r) = throw (.danglingEdge p.name source) :=
  walk.eq_2 g p source r fuel h

theorem walk_zero (h : p.resolve? r = some n) (source : String) :
    p.walk g 0 source (some r) = throw (.tooManySteps p.name) :=
  walk.eq_3 g p source r n h

theorem walk_succ (h : p.resolve? r = some n) (fuel : Nat) (source : String) :
    p.walk g (fuel + 1) source (some r) = (do
      let x ← n.visit g
      return x.1 :: (← p.walk g fuel n.name x.2)) :=
  walk.eq_4 g p source r n fuel h

end Pipeline

/-! ### What writes keep -/

namespace Program

/-- Every write through an array of the program keeps a property of the storages. -/
def Stable (g : Program) (P : Store → Prop) : Prop :=
  ∀ {name : String} {a : RegisterArray} {s s' : Store} {i : Nat} {v : UInt64},
    g.array? name = some a → a.write s i v = .ok s' → P s → P s'

/-- A write keeps the shapes of all storages, and their cells fit if they did before. -/
theorem stable_alike (g : Program) (s₀ : Store) : g.Stable s₀.Alike :=
  fun _ h hs => hs.trans (RegisterArray.alike_write h)

theorem stable_true (g : Program) : g.Stable fun _ => True := fun _ _ _ => trivial

end Program

/-! ### From primitives to the walk -/

section

variable {P : Store → Prop} {g : Program}

theorem Expr.keeps_run (data : List UInt64) (e : Expr) :
    Keeps (P ·.store) RunError.OfPrimitive (e.run data) :=
  Keeps.get_bind fun _ _ => Keeps.lift fun _ h => ofPrimitive_eval h

theorem Program.keeps_writeField (g : Program) (field : String) (v : UInt64) :
    Keeps (P ·.store) RunError.OfPrimitive (g.writeField field v) :=
  Keeps.modify fun _ hm => hm

theorem ofPrimitive_of_mapError_index {α : Type} {x : Except IndexError α} {e : RunError}
    (h : x.mapError RunError.index = .error e) : e.OfPrimitive := by
  cases x with
  | ok a => cases h
  | error e => cases h; trivial

theorem Primitive.keeps_run (hP : g.Stable P) (data : List UInt64)
    (p : Primitive) : Keeps (P ·.store) RunError.OfPrimitive (p.run g data) := by
  cases p with
  | assign target value =>
    exact Keeps.bind (value.keeps_run data) fun v => g.keeps_writeField target v
  | add target value | subtract target value =>
    refine Keeps.get_bind fun m _ => ?_
    exact Keeps.bind (value.keeps_run data) fun v => g.keeps_writeField target _
  | registerRead target array index =>
    refine Keeps.bind (Keeps.orFail trivial _) fun a => ?_
    refine Keeps.bind (index.keeps_run data) fun i => ?_
    refine Keeps.get_bind fun m _ => ?_
    exact Keeps.bind (Keeps.lift fun _ h => ofPrimitive_of_mapError_index h) fun v =>
      g.keeps_writeField target v
  | registerWrite array index value =>
    refine Keeps.orFail_bind trivial fun a ha => ?_
    refine Keeps.bind (index.keeps_run data) fun i => ?_
    refine Keeps.bind (value.keeps_run data) fun v => ?_
    refine Keeps.get_bind fun m hm => ?_
    refine Keeps.lift_bind (fun _ h => ofPrimitive_of_mapError_index h) fun s hs => Keeps.set ?_
    exact hP ha (mapError_eq_ok.mp hs) hm
  | hashOffset target base calculation size =>
    refine Keeps.bind (Keeps.orFail trivial _) fun c => ?_
    refine Keeps.bind (base.keeps_run data) fun base => ?_
    refine Keeps.bind (size.keeps_run data) fun size => ?_
    split
    · exact Keeps.bind (Keeps.throw trivial) fun _ =>
        Keeps.get_bind fun m _ => g.keeps_writeField target _
    · exact Keeps.get_bind fun m _ => g.keeps_writeField target _
  | drop => exact Keeps.modify fun _ hm => hm
  | skip => exact Keeps.pure _

theorem Action.keeps_run (hP : g.Stable P) (data : List UInt64) (a : Action) :
    Keeps (P ·.store) RunError.OfPrimitive (a.run g data) :=
  Keeps.forM (fun p => p.keeps_run hP data) a.primitives

theorem Program.keeps_runAction (hP : g.Stable P) (id : Int)
    (data : List UInt64) : Keeps (P ·.store) RunError.Inner (g.runAction id data) :=
  Keeps.bind (Keeps.orFail trivial _) fun a =>
    (a.keeps_run hP data).mono fun _ he => he.inner

theorem Table.keeps_run (hP : g.Stable P) (t : Table) :
    Keeps (P ·.store) RunError.Inner (t.run g) := by
  refine Keeps.get_bind fun m _ => ?_
  split
  case h_1 e _ =>
    exact Keeps.bind (Program.keeps_runAction hP e.actionId e.data) fun _ => Keeps.pure _
  case h_2 =>
    split
    case h_1 d _ =>
      exact Keeps.bind (Program.keeps_runAction hP d.actionId d.data) fun _ => Keeps.pure _
    case h_2 => exact Keeps.pure _

/-- A node keeps what writes keep, and its failures are neither dangling edges nor too many
steps. -/
theorem Node.keeps_visit (hP : g.Stable P) (node : Node) :
    Keeps (P ·.store) RunError.Inner (node.visit g) := by
  cases node with
  | conditional c =>
    refine Keeps.get_bind fun m _ => ?_
    exact Keeps.bind (Keeps.lift fun _ h => (c.ofPrimitive_evaluate h).inner) fun b => Keeps.pure _
  | table t => exact Keeps.bind (t.keeps_run hP) fun _ => Keeps.pure _

theorem Pipeline.keeps_walk (hP : g.Stable P) (p : Pipeline) (fuel : Nat)
    (source : String) (e : Edge) :
    Keeps (P ·.store) (fun _ => True) (p.walk g fuel source e) := by
  induction fuel generalizing source e with
  | zero =>
    cases e with
    | none => exact Keeps.pure _
    | some r =>
      cases hr : p.resolve? r with
      | none =>
        rw [walk_dangling hr]
        exact Keeps.throw trivial
      | some node =>
        rw [walk_zero hr]
        exact Keeps.throw trivial
  | succ fuel ih =>
    cases e with
    | none => exact Keeps.pure _
    | some r =>
      cases hr : p.resolve? r with
      | none =>
        rw [walk_dangling hr]
        exact Keeps.throw trivial
      | some node =>
        rw [walk_succ hr]
        refine Keeps.bind ((node.keeps_visit hP).mono fun _ _ => trivial) fun x => ?_
        exact Keeps.bind (ih node.name x.2) fun _ => Keeps.pure _

/-- A packet keeps what writes keep. -/
theorem Program.keeps_process (hP : g.Stable P) :
    Keeps (P ·.store) (fun _ => True) g.process :=
  Keeps.bind (Keeps.mapM (fun p => p.keeps_walk hP maxSteps _ _) _) fun _ => Keeps.pure _

end

end LiveSwitch
