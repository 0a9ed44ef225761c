import LiveSwitch.Program.Basic

/-!
# Running packets

A packet walks through the pipelines of a program in the order of their ids.  At a
conditional it follows the edge of the condition's truth value; at a table the action of
the entry found, or of the default entry, runs on it before it moves on.  What a packet
and the register cells went through before a failure stays.

## Main definitions

* `Machine`, `Exec` — the state that a packet works on and computations over it.
* `Primitive.run`, `Action.run` — the effect of actions.
* `Node.visit` — one step of a walk.
* `Pipeline.walk`, `Pipeline.run` — the walk through one pipeline.
* `Program.process` — the walk through all pipelines.
-/

namespace LiveSwitch

/-- What a packet works on: itself and the register cells. -/
structure Machine where
  packet : Packet
  store : Store
  deriving DecidableEq, Repr, Inhabited

/-- A computation that may fail and keeps what it did before it failed. -/
abbrev Exec := EStateM RunError Machine

namespace Exec

/-- A value that may be a failure. -/
def lift {α : Type} : Except RunError α → Exec α
  | .ok a => pure a
  | .error e => throw e

/-- A look-up that has to find something. -/
def orFail {α : Type} (e : RunError) : Option α → Exec α
  | some a => pure a
  | none => throw e

end Exec

/-- The value of an expression for the packet as it is. -/
def Expr.run (data : List UInt64) (e : Expr) : Exec UInt64 := do
  Exec.lift (e.eval (← get).packet data)

/-- Sets a field of the packet to as many bits of a value as the field has. -/
def Program.writeField (g : Program) (field : String) (v : UInt64) : Exec Unit :=
  modify fun m => { m with packet := m.packet.setField field (v &&& g.layout.mask field) }

/-- The effect of a primitive. -/
def Primitive.run (g : Program) (data : List UInt64) : Primitive → Exec Unit
  | assign target value => do
    g.writeField target (← value.run data)
  | add target value => do
    let old := (← get).packet.field target
    g.writeField target (old + (← value.run data))
  | subtract target value => do
    let old := (← get).packet.field target
    g.writeField target (old - (← value.run data))
  | registerRead target array index => do
    let a ← Exec.orFail (.unknownRegister array) (g.array? array)
    let i ← index.run data
    let m ← get
    g.writeField target (← Exec.lift ((a.read m.store i.toNat).mapError .index))
  | registerWrite array index value => do
    let a ← Exec.orFail (.unknownRegister array) (g.array? array)
    let i ← index.run data
    let v ← value.run data
    let m ← get
    let store ← Exec.lift ((a.write m.store i.toNat v).mapError .index)
    set { m with store }
  | hashOffset target base calculation size => do
    let c ← Exec.orFail (.unknownCalculation calculation) (g.calculation? calculation)
    let base ← base.run data
    let size ← size.run data
    if size = 0 then throw .divisionByZero
    g.writeField target (base + c.compute (← get).packet % size)
  | drop => modify fun m => { m with packet := m.packet.markToDrop }
  | skip => pure ()

/-- The effect of an action with its data. -/
def Action.run (g : Program) (data : List UInt64) (a : Action) : Exec Unit :=
  a.primitives.forM (Primitive.run g data)

/-- The effect of the action of an id. -/
def Program.runAction (g : Program) (id : Int) (data : List UInt64) : Exec Unit := do
  (← Exec.orFail (.unknownAction id) (g.action? id)).run g data

/-- A node that a packet visited. -/
inductive Step where
  | conditional (name : String) (branch : Branch)
  | table (name : String) (hit : Bool)
  deriving DecidableEq, Repr, Inhabited

/-- The effect of a table: whether the packet's key was found, and the edge to follow. -/
def Table.run (g : Program) (t : Table) : Exec (Bool × Edge) := do
  match t.entry? (t.keyOf (← get).packet) with
  | some e =>
    g.runAction e.actionId e.data
    return (true, t.afterHit e.actionId)
  | none =>
    if let some d := t.default? then g.runAction d.actionId d.data
    return (false, t.afterMiss)

/-- The effect of a node: what it did and the edge to follow. -/
def Node.visit (g : Program) : Node → Exec (Step × Edge)
  | conditional c => do
    let b ← Exec.lift (c.evaluate (← get).packet)
    return (.conditional c.identity.name b, c.next b)
  | table t => do
    let (hit, next) ← t.run g
    return (.table t.name hit, next)

namespace Pipeline

/-- Walks along an edge that starts at `source`, over at most `fuel` nodes. -/
def walk (g : Program) (p : Pipeline) : Nat → String → Edge → Exec (List Step)
  | _, _, none => pure []
  | fuel, source, some r =>
    match p.resolve? r, fuel with
    | none, _ => throw (.danglingEdge p.name source)
    | some _, 0 => throw (.tooManySteps p.name)
    | some n, fuel + 1 => do
      let (step, next) ← n.visit g
      return step :: (← walk g p fuel n.name next)

/-- Walks through a pipeline. -/
def run (g : Program) (p : Pipeline) : Exec (List Step) :=
  p.walk g maxSteps "init_table" p.init

end Pipeline

/-- Walks through all pipelines in the order of their ids. -/
def Program.process (g : Program) : Exec (List Step) := do
  return (← g.pipelines.objects.mapM (Pipeline.run g)).flatten

end LiveSwitch
