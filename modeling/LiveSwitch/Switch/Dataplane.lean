import LiveSwitch.Switch.Basic

/-!
# The dataplane

A dataplane feeds packets to the workers of one context.  Packets of one port go to one
worker and keep their order; each packet runs through the generation that is active when
its turn comes.

## Main definitions

* `Dataplane` — the workers of a context and their counters.
* `Dataplane.start`, `Dataplane.process`, `Dataplane.processAll` — its operations.
-/

namespace LiveSwitch

/-- The workers of a context and what they counted. -/
structure Dataplane where
  context : Nat
  workers : Nat
  processed : Nat := 0
  dropped : Nat := 0
  errors : Nat := 0
  deriving DecidableEq, Repr, Inhabited

namespace Dataplane

/-- Starts the workers, at least one, of a context that exists. -/
def start (w : Switch) (cxt workers : Nat) : Except SwitchError Dataplane := do
  let _ ← w.active cxt
  return { context := cxt, workers := max workers 1 }

/-- The worker that takes the packets of a port. -/
def workerOf (d : Dataplane) (port : UInt16) : Nat := port.toNat % d.workers

/-- Counts an outcome. -/
def record (d : Dataplane) (o : Outcome) : Dataplane :=
  { d with
    processed := d.processed + 1
    dropped := d.dropped + (if o.packet.dropped then 1 else 0)
    errors := d.errors + (if o.failure?.isSome then 1 else 0) }

/-- Runs a packet; one whose context is gone only counts as an error. -/
def process (d : Dataplane) (w : Switch) (p : Packet) :
    Dataplane × Switch × Option Outcome :=
  match w.process d.context p with
  | .ok (o, w) => (d.record o, w, some o)
  | .error _ => ({ d with errors := d.errors + 1 }, w, none)

/-- Runs packets one after another. -/
def processAll (d : Dataplane) (w : Switch) :
    List Packet → Dataplane × Switch × List Outcome
  | [] => (d, w, [])
  | p :: ps =>
    let (d, w, o?) := d.process w p
    let (d, w, os) := processAll d w ps
    (d, w, o?.toList ++ os)

end Dataplane

end LiveSwitch
