import LiveSwitch.Pipeline.Basic

/-!
# Ports

The edges of a node stand at its ports: a conditional has one for each truth value, a table
one for its base edge, one for each of its actions and, where hits or misses have edges of
their own, one for these.  Every edit of an edge sets the edge at one port of one node.

## Main definitions

* `Port` — the ports of nodes.
* `Node.edgeAt?`, `Node.setEdge` — the edge at a port, and its change.
* `Table.hitPort`, `Table.missPort` — the ports that a packet leaves a table by.

## Main results

* `Node.edgeAt?_setEdge` — the port that was set shows the new edge, the others what they
  showed.
-/

namespace LiveSwitch

/-- A place of a node where an edge stands. -/
inductive Port where
  | branch (b : Branch)
  | action (id : Int)
  | hit
  | miss
  | base
  deriving DecidableEq, Repr

namespace Node

/-- The edge at a port; what is not a port of the node shows nothing. -/
def edgeAt? : Node → Port → Option Edge
  | conditional c, .branch b => some (c.next b)
  | table t, .action id => t.nextOf? id
  | table t, .hit => t.hitNext?
  | table t, .miss => t.missNext?
  | table t, .base => some t.baseNext
  | _, _ => none

/-- Whether a port is one that a node of this kind may have. -/
def takes : Node → Port → Bool
  | conditional _, .branch _ => true
  | table _, .branch _ => false
  | table _, _ => true
  | conditional _, _ => false

/-- Sets the edge at a port. -/
def setEdge (q : Port) (e : Edge) (n : Node) : Node :=
  match n, q with
  | conditional c, .branch b => conditional (c.setNext b e)
  | table t, .action id => table (t.setActionNext id e)
  | table t, .hit => table { t with hitNext? := some e }
  | table t, .miss => table { t with missNext? := some e }
  | table t, .base => table { t with baseNext := e }
  | n, _ => n

@[simp] theorem identity_setEdge (q : Port) (e : Edge) (n : Node) :
    (n.setEdge q e).identity = n.identity := by
  cases n with
  | conditional c => cases q with
    | branch b => cases b <;> rfl
    | action | hit | miss | base => rfl
  | table t => cases q <;> rfl

@[simp] theorem name_setEdge (q : Port) (e : Edge) (n : Node) :
    (n.setEdge q e).name = n.name := by
  rw [name, identity_setEdge, name]

theorem takes_of_edgeAt? {n : Node} {q : Port} {e : Edge} (h : n.edgeAt? q = some e) :
    n.takes q = true := by
  cases n <;> cases q <;> first | rfl | cases h

theorem setEdge_of_not_takes {n : Node} {q : Port} (h : n.takes q = false) (e : Edge) :
    n.setEdge q e = n := by
  cases n <;> cases q <;> first | rfl | cases h

/-- The port that was set shows the new edge, the others what they showed. -/
theorem edgeAt?_setEdge {n : Node} {q : Port} (hq : n.takes q = true) (e : Edge) (q' : Port) :
    (n.setEdge q e).edgeAt? q' = if q' = q then some e else n.edgeAt? q' := by
  cases n with
  | conditional c =>
    cases q with
    | branch b =>
      cases q' with
      | branch b' => cases b <;> cases b' <;> rfl
      | action | hit | miss | base => rfl
    | action | hit | miss | base => cases hq
  | table t =>
    cases q with
    | branch b => cases hq
    | action id =>
      cases q' with
      | action id' =>
        have h := Assoc.lookup_insert id e t.nextByAction id'
        simpa [setEdge, edgeAt?, Table.nextOf?, Table.setActionNext] using h
      | branch | hit | miss | base => rfl
    | hit => cases q' <;> rfl
    | miss => cases q' <;> rfl
    | base => cases q' <;> rfl

/-! ### Edits as changes at a port -/

theorem mapConditional_setNext (b : Branch) (e : Edge) :
    mapConditional (·.setNext b e) = setEdge (.branch b) e := by
  funext n
  cases n <;> rfl

theorem mapTable_baseNext (e : Edge) :
    mapTable (fun t => { t with baseNext := e }) = setEdge .base e := by
  funext n
  cases n <;> rfl

theorem mapTable_hitNext (e : Edge) :
    mapTable (fun t => { t with hitNext? := some e }) = setEdge .hit e := by
  funext n
  cases n <;> rfl

theorem mapTable_missNext (e : Edge) :
    mapTable (fun t => { t with missNext? := some e }) = setEdge .miss e := by
  funext n
  cases n <;> rfl

theorem mapTable_setActionNext (id : Int) (e : Edge) :
    mapTable (·.setActionNext id e) = setEdge (.action id) e := by
  funext n
  cases n <;> rfl

end Node

/-! ### The ports that a packet leaves by -/

namespace Table

/-- The port whose edge a packet follows after a hit. -/
def hitPort (t : Table) (actionId : Int) : Port :=
  if t.hitNext?.isSome then .hit
  else if (t.nextOf? actionId).isSome then .action actionId
  else .base

/-- The port whose edge a packet follows after a miss. -/
def missPort (t : Table) : Port := if t.missNext?.isSome then .miss else .base

theorem edgeAt?_hitPort (t : Table) (actionId : Int) :
    (Node.table t).edgeAt? (t.hitPort actionId) = some (t.afterHit actionId) := by
  unfold hitPort afterHit
  cases hhit : t.hitNext? with
  | some e => exact hhit
  | none =>
    cases hnext : t.nextOf? actionId with
    | some e => exact hnext
    | none => rfl

theorem edgeAt?_missPort (t : Table) :
    (Node.table t).edgeAt? t.missPort = some t.afterMiss := by
  unfold missPort afterMiss
  cases hmiss : t.missNext? with
  | some e => exact hmiss
  | none => rfl

end Table

end LiveSwitch
