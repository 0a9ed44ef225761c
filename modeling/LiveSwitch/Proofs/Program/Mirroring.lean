import LiveSwitch.Proofs.Program.Arrays
import LiveSwitch.Proofs.Program.Walks

/-!
# Programs that run packets alike

Two programs may keep their nodes in other slots and their cells in other storages and still do
the same to every packet.  They do when they mirror each other: their actions and calculations
are the same, arrays of one name have one shape, and nodes of one name do the same and lead on to
nodes of one name.

A packet that runs through both goes through related machines: the packet is the same, and arrays
of one name lie over the same cells.  That is proved bottom up, like what packets keep.

## Main definitions

* `Exec.Agrees` — two computations lead from related machines to related machines, with related
  values or the same failure.
* `RegisterArray.Mirrors`, `Node.Mirrors`, `Pipeline.Mirrors`, `Program.Mirrors` — the parts of
  two programs do the same.
* `Program.SameCells` — arrays of one name lie over the same cells.
* `Program.feed` — what becomes of packets that are sent through a program.
* `Program.cells?` — what the array of a name shows.

## Main results

* `Node.Mirrors.agrees_visit`, `Pipeline.Mirrors.agrees_walk` — one step, and a whole walk.
* `Program.Mirrors.feed` — mirroring programs do the same to every sequence of packets.
-/

namespace LiveSwitch

/-! ### Computations in step -/

namespace Exec

variable {α α' β β' : Type} {R : Machine → Machine → Prop} {A : α → α' → Prop} {B : β → β' → Prop}

/-- Two results are in step: related values or the same failure, over related machines. -/
def ResultsAgree (R : Machine → Machine → Prop) (A : α → α' → Prop) :
    EStateM.Result RunError Machine α → EStateM.Result RunError Machine α' → Prop
  | .ok a m, .ok a' m' => A a a' ∧ R m m'
  | .error e m, .error e' m' => e = e' ∧ R m m'
  | _, _ => False

/-- Two computations lead from related machines to results that are in step. -/
def Agrees (R : Machine → Machine → Prop) (A : α → α' → Prop) (x : Exec α) (y : Exec α') : Prop :=
  ∀ m m', R m m' → ResultsAgree R A (x.run m) (y.run m')

namespace Agrees

theorem pure {a : α} {a' : α'} (h : A a a') : Agrees R A (Pure.pure a) (Pure.pure a') :=
  fun _ _ hm => ⟨h, hm⟩

theorem throw (e : RunError) : Agrees R A (MonadExcept.throw e) (MonadExcept.throw e) :=
  fun _ _ hm => ⟨rfl, hm⟩

theorem bind {x : Exec α} {y : Exec α'} {f : α → Exec β} {f' : α' → Exec β'}
    (hx : Agrees R A x y) (hf : ∀ a a', A a a' → Agrees R B (f a) (f' a')) :
    Agrees R B (x >>= f) (y >>= f') := by
  intro m m' hm
  have hx' := hx m m' hm
  show ResultsAgree R B (EStateM.bind x f m) (EStateM.bind y f' m')
  rw [EStateM.bind, EStateM.bind]
  rw [EStateM.run, EStateM.run] at hx'
  cases hxm : x m with
  | ok a m₁ =>
    cases hym : y m' with
    | ok a' m₁' =>
      rw [hxm, hym] at hx'
      exact hf a a' hx'.1 m₁ m₁' hx'.2
    | error => rw [hxm, hym] at hx'; cases hx'
  | error e m₁ =>
    cases hym : y m' with
    | ok => rw [hxm, hym] at hx'; cases hx'
    | error e' m₁' => rw [hxm, hym] at hx'; exact hx'

theorem get_bind {f : Machine → Exec α} {f' : Machine → Exec α'}
    (hf : ∀ m m', R m m' → Agrees R A (f m) (f' m')) : Agrees R A (get >>= f) (get >>= f') :=
  fun m m' hm => hf m m' hm m m' hm

theorem lift (x : Except RunError α) : Agrees R Eq (Exec.lift x) (Exec.lift x) := by
  cases x with
  | ok a => exact pure rfl
  | error e => exact throw e

theorem orFail (e : RunError) {x? : Option α} {y? : Option α'} (h : Option.Rel A x? y?) :
    Agrees R A (Exec.orFail e x?) (Exec.orFail e y?) := by
  cases h with
  | some h => exact pure h
  | none => exact throw e

theorem orFail_self (e : RunError) (x? : Option α) :
    Agrees R Eq (Exec.orFail e x?) (Exec.orFail e x?) := by
  cases x? with
  | some a => exact pure rfl
  | none => exact throw e

theorem modify {f : Machine → Machine} (hf : ∀ m m', R m m' → R (f m) (f m')) :
    Agrees R Eq (modify f : Exec Unit) (modify f) :=
  fun m m' hm => ⟨rfl, hf m m' hm⟩

theorem set {m m' : Machine} (hm : R m m') :
    Agrees R Eq (MonadStateOf.set m : Exec PUnit) (MonadStateOf.set m') :=
  fun _ _ _ => ⟨rfl, hm⟩

theorem forM {f f' : β → Exec PUnit} (hf : ∀ a, Agrees R Eq (f a) (f' a)) (l : List β) :
    Agrees R Eq (l.forM f) (l.forM f') := by
  induction l with
  | nil => exact pure rfl
  | cons a l ih => exact bind (hf a) fun _ _ _ => ih

theorem mapM {f : α → Exec β} {f' : α' → Exec β} {l : List α} {l' : List α'}
    (hf : ∀ a a', A a a' → Agrees R Eq (f a) (f' a')) (h : List.Forall₂ A l l') :
    Agrees R Eq (l.mapM f) (l'.mapM f') := by
  induction h with
  | nil => exact pure rfl
  | cons ha _ ih =>
    rw [List.mapM_cons, List.mapM_cons]
    refine bind (hf _ _ ha) ?_
    rintro b _ rfl
    refine bind ih ?_
    rintro bs _ rfl
    exact pure rfl

end Agrees

end Exec

open Exec

/-! ### Arrays and their cells -/

namespace RegisterArray

/-- Two arrays have one name and one shape. -/
structure Mirrors (a a' : RegisterArray) : Prop where
  name : a.name = a'.name
  size : a.size = a'.size
  bitwidth : a.bitwidth = a'.bitwidth
  pending : a.pending = a'.pending

namespace Mirrors

variable {a a' : RegisterArray} {s s' : Store}

theorem view (h : a.Mirrors a') (st : Storage) (i : Nat) : a.view st i = a'.view st i := by
  rw [RegisterArray.view, RegisterArray.view, h.pending, h.bitwidth]

theorem snapshot (h : a.Mirrors a') (hcells : s.get a.storage = s'.get a'.storage) :
    a.snapshot s = a'.snapshot s' := by
  rw [RegisterArray.snapshot, RegisterArray.snapshot, h.size, hcells]
  exact List.map_congr_left fun i _ => h.view _ i

theorem read (h : a.Mirrors a') (hcells : s.get a.storage = s'.get a'.storage) (i : Nat) :
    a.read s i = a'.read s' i := by
  rw [RegisterArray.read, RegisterArray.read, h.size, h.name, hcells, h.view]

/-- A write through one array sets what a write through the other sets, or both fail. -/
theorem write (h : a.Mirrors a') (hcells : s.get a.storage = s'.get a'.storage) (i : Nat)
    (v : UInt64) :
    (∃ st, a.write s i v = .ok (s.set a.storage st) ∧
      a'.write s' i v = .ok (s'.set a'.storage st)) ∨
    ∃ e, a.write s i v = .error e ∧ a'.write s' i v = .error e := by
  have hsize : a.writeSize (s.get a.storage) = a'.writeSize (s'.get a'.storage) := by
    rw [writeSize, writeSize, h.size, hcells]
  have hwidth : a.writeWidth (s.get a.storage) = a'.writeWidth (s'.get a'.storage) := by
    rw [writeWidth, writeWidth, h.bitwidth, hcells]
  rw [RegisterArray.write, RegisterArray.write, hsize, hwidth, h.name, hcells]
  by_cases hi : i < a'.writeSize (s'.get a'.storage)
  · exact Or.inl ⟨_, if_pos hi, if_pos hi⟩
  · exact Or.inr ⟨_, if_neg hi, if_neg hi⟩

end Mirrors

end RegisterArray

/-! ### Nodes and pipelines -/

namespace Pipeline

/-- Two edges lead to nodes of one name, or end the pipeline, or refer to no node any more. -/
def EdgesMirror (p p' : Pipeline) : Edge → Edge → Prop :=
  Option.Rel fun r r' => (p.resolve? r).map Node.name = (p'.resolve? r').map Node.name

end Pipeline

/-- Two conditionals have one name and one condition and lead to nodes of one name. -/
structure Conditional.Mirrors (p p' : Pipeline) (c c' : Conditional) : Prop where
  name : c.identity.name = c'.identity.name
  condition : c.condition?.map Condition.expr = c'.condition?.map Condition.expr
  next : ∀ b, p.EdgesMirror p' (c.next b) (c'.next b)

/-- Two tables have one name, find the same for every packet and lead to nodes of one name. -/
structure Table.Mirrors (p p' : Pipeline) (t t' : Table) : Prop where
  name : t.name = t'.name
  keyFields : t.keyFields = t'.keyFields
  entries : t.entries = t'.entries
  default : t.default? = t'.default?
  afterHit : ∀ id, p.EdgesMirror p' (t.afterHit id) (t'.afterHit id)
  afterMiss : p.EdgesMirror p' t.afterMiss t'.afterMiss

/-- Two nodes of one kind do the same. -/
def Node.Mirrors (p p' : Pipeline) : Node → Node → Prop
  | conditional c, conditional c' => c.Mirrors p p' c'
  | table t, table t' => t.Mirrors p p' t'
  | _, _ => False

/-- Two pipelines have one name and start at nodes of one name, and so do nodes of one name. -/
structure Pipeline.Mirrors (p p' : Pipeline) : Prop where
  name : p.name = p'.name
  init : p.EdgesMirror p' p.init p'.init
  nodes : ∀ n ∈ p.nodes, ∀ n' ∈ p'.nodes, n.name = n'.name → n.Mirrors p p' n'

namespace Program

/-- Two programs do the same, in storages of their own; a name that leads to an array is the
name of that array. -/
structure Mirrors (g g' : Program) : Prop where
  strays : g.arrays.strays = []
  strays' : g'.arrays.strays = []
  layout : g.layout = g'.layout
  action : ∀ id, g.action? id = g'.action? id
  calculation : ∀ name, g.calculation? name = g'.calculation? name
  array : ∀ name, Option.Rel RegisterArray.Mirrors (g.array? name) (g'.array? name)
  apart : RegisterArray.ApartByName g.arrays.objects
  apart' : RegisterArray.ApartByName g'.arrays.objects
  pipelines : List.Forall₂ Pipeline.Mirrors g.pipelines.objects g'.pipelines.objects

/-- Arrays of one name lie over the same cells. -/
def SameCells (g g' : Program) (s s' : Store) : Prop :=
  ∀ name a a', g.array? name = some a → g'.array? name = some a' →
    a.storage < s.size ∧ a'.storage < s'.size ∧ s.get a.storage = s'.get a'.storage

/-- The machines of two programs that run the same packet. -/
def MachinesMirror (g g' : Program) (m m' : Machine) : Prop :=
  m.packet = m'.packet ∧ g.SameCells g' m.store m'.store

/-- What the array of a name shows. -/
def cells? (g : Program) (s : Store) (name : String) : Option (List UInt64) :=
  (g.array? name).map (·.snapshot s)

/-- What becomes of packets that are sent through a program one after the other: the path or the
failure of each, and the packet as it comes out.  The store goes from one to the next. -/
def feed (g : Program) : Store → List Packet →
    List (Except RunError (List Step) × Packet) × Store
  | s, [] => ([], s)
  | s, p :: ps =>
    match g.process.run ⟨p, s⟩ with
    | .ok steps m =>
      let (outcomes, s) := feed g m.store ps
      ((.ok steps, m.packet) :: outcomes, s)
    | .error e m =>
      let (outcomes, s) := feed g m.store ps
      ((.error e, m.packet) :: outcomes, s)

end Program

section

variable {g g' : Program} {p p' : Pipeline}

/-! ### Writes -/

/-- A name stands for arrays of one shape in both programs, or for none in either. -/
theorem Program.Mirrors.array_cases (h : g.Mirrors g') (name : String) :
    Option.Rel (fun a a' => g.array? name = some a ∧ g'.array? name = some a' ∧ a.Mirrors a')
      (g.array? name) (g'.array? name) := by
  have hrel := h.array name
  revert hrel
  generalize g.array? name = a?
  generalize g'.array? name = a'?
  rintro (hmirrors | _)
  · exact .some ⟨rfl, rfl, hmirrors⟩
  · exact .none

/-- The same change of the cells of one name keeps the cells the same. -/
theorem Program.Mirrors.sameCells_set (h : g.Mirrors g') {s s' : Store}
    (hs : g.SameCells g' s s') {name : String} {a a' : RegisterArray}
    (ha : g.array? name = some a) (ha' : g'.array? name = some a') (st : Storage) :
    g.SameCells g' (s.set a.storage st) (s'.set a'.storage st) := by
  intro other b b' hb hb'
  obtain ⟨hlt, hlt', hcells⟩ := hs other b b' hb hb'
  obtain ⟨halt, halt', -⟩ := hs name a a' ha ha'
  rw [Store.size_set, Store.size_set]
  refine ⟨hlt, hlt', ?_⟩
  by_cases heq : other = name
  · subst heq
    rw [ha, Option.some.injEq] at hb
    rw [ha', Option.some.injEq] at hb'
    rw [← hb, ← hb', Store.get_set_self halt, Store.get_set_self halt']
  · -- arrays of another name lie in other storages
    have hne : b.storage ≠ a.storage := by
      intro hst
      rw [← nameOf_array? h.strays hb, ← nameOf_array? h.strays ha] at heq
      exact heq (h.apart b (mem_of_array? hb) a (mem_of_array? ha) hst)
    have hne' : b'.storage ≠ a'.storage := by
      intro hst
      rw [← nameOf_array? h.strays' hb', ← nameOf_array? h.strays' ha'] at heq
      exact heq (h.apart' b' (mem_of_array? hb') a' (mem_of_array? ha') hst)
    rw [Store.get_set_of_ne hne, Store.get_set_of_ne hne', hcells]

/-! ### From primitives to the walk -/

theorem Expr.agrees_run (data : List UInt64) (e : Expr) :
    Agrees (g.MachinesMirror g') Eq (e.run data) (e.run data) := by
  refine Agrees.get_bind fun m m' hm => ?_
  rw [hm.1]
  exact Agrees.lift _

theorem Program.Mirrors.agrees_writeField (h : g.Mirrors g') (field : String) (v : UInt64) :
    Agrees (g.MachinesMirror g') Eq (g.writeField field v) (g'.writeField field v) := by
  rw [writeField, writeField, h.layout]
  exact Agrees.modify fun m m' hm => ⟨by rw [hm.1], hm.2⟩

/-- What is written is the same when what is computed is. -/
theorem Program.Mirrors.agrees_bind_writeField (h : g.Mirrors g') (field : String)
    {x y : Exec UInt64} (hx : Agrees (g.MachinesMirror g') Eq x y) (f : UInt64 → UInt64) :
    Agrees (g.MachinesMirror g') Eq (x >>= fun v => g.writeField field (f v))
      (y >>= fun v => g'.writeField field (f v)) := by
  refine Agrees.bind hx ?_
  rintro v _ rfl
  exact h.agrees_writeField field (f v)

theorem Program.Mirrors.agrees_read (h : g.Mirrors g') {target array : String}
    {a a' : RegisterArray} (ha : g.array? array = some a) (ha' : g'.array? array = some a')
    (hmirrors : a.Mirrors a') (index : UInt64) : Agrees (g.MachinesMirror g') Eq
      (do
        let m ← get
        g.writeField target (← lift ((a.read m.store index.toNat).mapError .index)))
      (do
        let m ← get
        g'.writeField target (← lift ((a'.read m.store index.toNat).mapError .index))) := by
  refine Agrees.get_bind fun m m' hm => ?_
  rw [hmirrors.read (hm.2 array a a' ha ha').2.2]
  exact h.agrees_bind_writeField target (Agrees.lift _) id

theorem Program.Mirrors.agrees_write (h : g.Mirrors g') {array : String}
    {a a' : RegisterArray} (ha : g.array? array = some a) (ha' : g'.array? array = some a')
    (hmirrors : a.Mirrors a') (index v : UInt64) : Agrees (g.MachinesMirror g') Eq
      (do
        let m ← get
        let store ← lift ((a.write m.store index.toNat v).mapError .index)
        set { m with store })
      (do
        let m ← get
        let store ← lift ((a'.write m.store index.toNat v).mapError .index)
        set { m with store }) := by
  refine Agrees.get_bind fun m m' hm => ?_
  have hcells := (hm.2 array a a' ha ha').2.2
  rcases hmirrors.write hcells index.toNat v with ⟨st, hw, hw'⟩ | ⟨e, hw, hw'⟩
  · rw [hw, hw']
    exact Agrees.set ⟨hm.1, h.sameCells_set hm.2 ha ha' st⟩
  · rw [hw, hw']
    exact Agrees.throw _

theorem Primitive.agrees_run (h : g.Mirrors g') (data : List UInt64) (q : Primitive) :
    Agrees (g.MachinesMirror g') Eq (q.run g data) (q.run g' data) := by
  have hvalue : ∀ e : Expr, Agrees (g.MachinesMirror g') Eq (e.run data) (e.run data) :=
    fun e => e.agrees_run data
  cases q with
  | assign target value => exact h.agrees_bind_writeField target (hvalue value) id
  | add target value =>
    refine Agrees.get_bind fun m m' hm => ?_
    rw [hm.1]
    exact h.agrees_bind_writeField target (hvalue value) (m'.packet.field target + ·)
  | subtract target value =>
    refine Agrees.get_bind fun m m' hm => ?_
    rw [hm.1]
    exact h.agrees_bind_writeField target (hvalue value) (m'.packet.field target - ·)
  | registerRead target array index =>
    refine Agrees.bind (Agrees.orFail _ (h.array_cases array)) ?_
    rintro a a' ⟨ha, ha', hmirrors⟩
    refine Agrees.bind (hvalue index) ?_
    rintro i _ rfl
    exact h.agrees_read ha ha' hmirrors i
  | registerWrite array index value =>
    refine Agrees.bind (Agrees.orFail _ (h.array_cases array)) ?_
    rintro a a' ⟨ha, ha', hmirrors⟩
    refine Agrees.bind (hvalue index) ?_
    rintro i _ rfl
    refine Agrees.bind (hvalue value) ?_
    rintro v _ rfl
    exact h.agrees_write ha ha' hmirrors i v
  | hashOffset target base calculation size =>
    rw [Primitive.run, Primitive.run, h.calculation]
    refine Agrees.bind (Agrees.orFail_self _ _) ?_
    rintro c _ rfl
    refine Agrees.bind (hvalue base) ?_
    rintro base _ rfl
    refine Agrees.bind (hvalue size) ?_
    rintro size _ rfl
    have hrest : Agrees (g.MachinesMirror g') Eq
        (do g.writeField target (base + c.compute (← get).packet % size))
        (do g'.writeField target (base + c.compute (← get).packet % size)) := by
      refine Agrees.get_bind fun m m' hm => ?_
      rw [hm.1]
      exact h.agrees_writeField target _
    split
    · exact Agrees.bind (A := Eq) (Agrees.throw _) fun _ _ _ => hrest
    · exact hrest
  | drop => exact Agrees.modify fun m m' hm => ⟨by rw [hm.1], hm.2⟩
  | skip => exact Agrees.pure rfl

theorem Program.Mirrors.agrees_runAction (h : g.Mirrors g') (id : Int) (data : List UInt64) :
    Agrees (g.MachinesMirror g') Eq (g.runAction id data) (g'.runAction id data) := by
  rw [runAction, runAction, h.action]
  refine Agrees.bind (Agrees.orFail_self _ _) ?_
  rintro a _ rfl
  exact Agrees.forM (fun q => q.agrees_run h data) a.primitives

/-- What a node gives: its step, and an edge to nodes of one name. -/
def Pipeline.StepsMirror (p p' : Pipeline) {α : Type} (x y : α × Edge) : Prop :=
  x.1 = y.1 ∧ p.EdgesMirror p' x.2 y.2

theorem Table.Mirrors.agrees_run {t t' : Table} (h : g.Mirrors g') (ht : t.Mirrors p p' t') :
    Agrees (g.MachinesMirror g') (p.StepsMirror p') (t.run g) (t'.run g') := by
  refine Agrees.get_bind fun m m' hm => ?_
  have hentry : t.entry? (t.keyOf m.packet) = t'.entry? (t'.keyOf m'.packet) := by
    unfold entry? keyOf
    rw [ht.entries, ht.keyFields, hm.1]
  rw [hentry, ht.default]
  split
  case h_1 e _ =>
    exact Agrees.bind (h.agrees_runAction e.actionId e.data) fun _ _ _ =>
      Agrees.pure ⟨rfl, ht.afterHit e.actionId⟩
  case h_2 =>
    split
    case h_1 d _ =>
      exact Agrees.bind (h.agrees_runAction d.actionId d.data) fun _ _ _ =>
        Agrees.pure ⟨rfl, ht.afterMiss⟩
    case h_2 => exact Agrees.pure ⟨rfl, ht.afterMiss⟩

theorem Conditional.Mirrors.evaluate {c c' : Conditional} (hc : c.Mirrors p p' c')
    (packet : Packet) : c.evaluate packet = c'.evaluate packet := by
  have hcondition := hc.condition
  rw [Conditional.evaluate, Conditional.evaluate]
  cases hd : c.condition? with
  | none =>
    rw [hd, Option.map_none, eq_comm, Option.map_eq_none_iff] at hcondition
    rw [hcondition]
  | some d =>
    rw [hd, Option.map_some, eq_comm, Option.map_eq_some_iff] at hcondition
    obtain ⟨d', hd', heq⟩ := hcondition
    rw [hd']
    dsimp only
    rw [heq]

/-- Nodes that mirror each other do the same. -/
theorem Node.Mirrors.agrees_visit {n n' : Node} (h : g.Mirrors g') (hn : n.Mirrors p p' n') :
    Agrees (g.MachinesMirror g') (p.StepsMirror p') (n.visit g) (n'.visit g') := by
  cases n with
  | conditional c =>
    cases n' with
    | table => exact hn.elim
    | conditional c' =>
      refine Agrees.get_bind fun m m' hm => ?_
      rw [hm.1, Conditional.Mirrors.evaluate hn]
      refine Agrees.bind (Agrees.lift _) ?_
      rintro b _ rfl
      exact Agrees.pure ⟨congrArg (Step.conditional · b) (Conditional.Mirrors.name hn),
        Conditional.Mirrors.next hn b⟩
  | table t =>
    cases n' with
    | conditional => exact hn.elim
    | table t' =>
      refine Agrees.bind (Table.Mirrors.agrees_run h hn) ?_
      rintro ⟨hit, next⟩ ⟨_, next'⟩ ⟨rfl, hnext⟩
      exact Agrees.pure ⟨congrArg (Step.table · hit) (Table.Mirrors.name hn), hnext⟩

namespace Pipeline

theorem EdgesMirror.cases {e e' : Edge} (h : p.EdgesMirror p' e e') :
    (e = none ∧ e' = none) ∨
      (∃ r r', e = some r ∧ e' = some r' ∧ p.resolve? r = none ∧ p'.resolve? r' = none) ∨
      ∃ r r' n n', e = some r ∧ e' = some r' ∧ p.resolve? r = some n ∧ p'.resolve? r' = some n' ∧
        n.name = n'.name := by
  cases h with
  | none => exact Or.inl ⟨rfl, rfl⟩
  | @some r r' hname =>
    cases hr : p.resolve? r with
    | none =>
      rw [hr, Option.map_none, eq_comm, Option.map_eq_none_iff] at hname
      exact Or.inr (Or.inl ⟨r, r', rfl, rfl, hr, hname⟩)
    | some n =>
      rw [hr, Option.map_some, eq_comm, Option.map_eq_some_iff] at hname
      obtain ⟨n', hr', hsame⟩ := hname
      exact Or.inr (Or.inr ⟨r, r', n, n', rfl, rfl, hr, hr', hsame.symm⟩)

/-- Walks over nodes that mirror each other do the same, and so do walks that end. -/
theorem Mirrors.agrees_walk (h : g.Mirrors g') (hp : p.Mirrors p') (fuel : Nat) (source : String)
    {e e' : Edge} (he : p.EdgesMirror p' e e') :
    Agrees (g.MachinesMirror g') Eq (p.walk g fuel source e) (p'.walk g' fuel source e') := by
  induction fuel generalizing source e e' with
  | zero =>
    rcases he.cases with ⟨rfl, rfl⟩ | ⟨r, r', rfl, rfl, hr, hr'⟩ |
      ⟨r, r', n, n', rfl, rfl, hr, hr', -⟩
    · exact Agrees.pure rfl
    · rw [walk_dangling hr, walk_dangling hr', hp.name]
      exact Agrees.throw _
    · rw [walk_zero hr, walk_zero hr', hp.name]
      exact Agrees.throw _
  | succ fuel ih =>
    rcases he.cases with ⟨rfl, rfl⟩ | ⟨r, r', rfl, rfl, hr, hr'⟩ |
      ⟨r, r', n, n', rfl, rfl, hr, hr', hsame⟩
    · exact Agrees.pure rfl
    · rw [walk_dangling hr, walk_dangling hr', hp.name]
      exact Agrees.throw _
    · -- the visit leads both walks on to nodes of one name
      have hn := hp.nodes n (mem_nodes_of_resolve? hr) n' (mem_nodes_of_resolve? hr') hsame
      rw [walk_succ hr, walk_succ hr', ← hsame]
      refine Agrees.bind (hn.agrees_visit h) ?_
      rintro ⟨step, next⟩ ⟨_, next'⟩ ⟨rfl, hnext⟩
      refine Agrees.bind (ih n.name hnext) ?_
      rintro steps _ rfl
      exact Agrees.pure rfl

end Pipeline

namespace Program

/-- Programs that mirror each other do the same to a packet. -/
theorem Mirrors.agrees_process (h : g.Mirrors g') :
    Agrees (g.MachinesMirror g') Eq g.process g'.process := by
  refine Agrees.bind (Agrees.mapM (fun p p' hp => ?_) h.pipelines) ?_
  · exact Pipeline.Mirrors.agrees_walk h hp maxSteps "init_table" hp.init
  · rintro steps _ rfl
    exact Agrees.pure rfl

/-- Programs that mirror each other, over the same cells, do the same to every sequence of packets:
the path or the failure of each packet and the packet itself, and the cells in the end. -/
theorem Mirrors.feed (h : g.Mirrors g') {s s' : Store} (hs : g.SameCells g' s s')
    (packets : List Packet) : (g.feed s packets).1 = (g'.feed s' packets).1 ∧
      g.SameCells g' (g.feed s packets).2 (g'.feed s' packets).2 := by
  induction packets generalizing s s' with
  | nil => exact ⟨rfl, hs⟩
  | cons packet packets ih =>
    have hrun := h.agrees_process ⟨packet, s⟩ ⟨packet, s'⟩ ⟨rfl, hs⟩
    rw [Program.feed, Program.feed]
    cases hg : g.process.run ⟨packet, s⟩ with
    | ok steps m =>
      cases hg' : g'.process.run ⟨packet, s'⟩ with
      | error => rw [hg, hg'] at hrun; cases hrun
      | ok steps' m' =>
        rw [hg, hg'] at hrun
        obtain ⟨rfl, hpacket, hcells⟩ := hrun
        obtain ⟨hrest, hend⟩ := ih hcells
        exact ⟨congrArg₂ List.cons (by rw [hpacket]) hrest, hend⟩
    | error e m =>
      cases hg' : g'.process.run ⟨packet, s'⟩ with
      | ok => rw [hg, hg'] at hrun; cases hrun
      | error e' m' =>
        rw [hg, hg'] at hrun
        obtain ⟨rfl, hpacket, hcells⟩ := hrun
        obtain ⟨hrest, hend⟩ := ih hcells
        exact ⟨congrArg₂ List.cons (by rw [hpacket]) hrest, hend⟩

/-- Over the same cells, arrays of one name show the same. -/
theorem Mirrors.cells?_eq (h : g.Mirrors g') {s s' : Store} (hs : g.SameCells g' s s')
    (name : String) : g.cells? s name = g'.cells? s' name := by
  rw [cells?, cells?]
  have hcases := h.array_cases name
  have hcells := hs name
  revert hcases hcells
  generalize g.array? name = a?
  generalize g'.array? name = a'?
  rintro (⟨-, -, hmirrors⟩ | _) hcells
  · exact congrArg some (hmirrors.snapshot (hcells _ _ rfl rfl).2.2)
  · rfl

end Program

end

end LiveSwitch
