import LiveSwitch.Proofs.Document.Fields
import LiveSwitch.Proofs.Program.Sound

/-!
# Objects and the counters of their ids

Every kind of objects has a counter, conditionals and flex nodes one in common.  The next id is
what follows the last one, and after the largest id the smallest one follows.

## Main definitions

* `Program.holdings`, `Program.idsInUse` — the objects that have their ids from the counter of a
  kind, and these ids.
* `Program.BelowMax` — no id is the largest one, after which the counters come round.
* `Program.Numbered` — different objects of a kind have different ids, below the counter.
* `Program.InRange` — ids and counters are integers of 32 bits.
* `IdCounter.Leads` — a counter gets from one id to another one.
-/

namespace LiveSwitch

namespace IdCounter

/-! ### What follows -/

/-- From one id a counter gets to another one.  That is not a smaller one, as long as the counter
does not come round. -/
structure Leads (low : Prop) (id id' : Int) : Prop where
  le : low → id ≤ id'
  valid : Identity.validId id → Identity.validId id'

variable {low low' : Prop} {id id' id'' : Int}

theorem Leads.refl (low : Prop) (id : Int) : Leads low id id := ⟨fun _ => Int.le_refl _, fun h => h⟩

theorem Leads.trans (h : Leads low id id') (h' : Leads low id' id'') : Leads low id id'' :=
  ⟨fun hlow => Int.le_trans (h.le hlow) (h'.le hlow), fun hid => h'.valid (h.valid hid)⟩

theorem Leads.imp (h : Leads low id id') (hlow : low' → low) : Leads low' id id' :=
  ⟨fun h' => h.le (hlow h'), h.valid⟩

theorem valid_following (h : Identity.validId id) : Identity.validId (following id) := by
  unfold Identity.validId at h ⊢
  unfold following maxId minId
  split <;> omega

theorem leads_following (h : low → id < maxId) : Leads low id (following id) :=
  ⟨fun hlow => Int.le_of_lt (following_of_lt (h hlow) ▸ Int.lt_succ id), valid_following⟩

theorem valid_observe {c : IdCounter} (hc : Identity.validId c.next) (hid : Identity.validId id) :
    Identity.validId (c.observe id).next := by
  unfold observe
  split
  · exact valid_following hid
  · exact hc

end IdCounter

namespace Program

/-! ### Objects with an id -/

/-- The tables of all pipelines, or the conditionals and flex nodes, each with the name of its
pipeline. -/
def nodeHoldings (g : Program) (table : Bool) : List (Option String × Identity) :=
  g.pipelines.objects.flatMap fun p =>
    (p.nodes.filter fun n => n.table?.isSome == table).map fun n => (some p.name, n.identity)

/-- The objects that have their ids from the counter of a kind, nodes with the name of their
pipeline. -/
def holdings (g : Program) : ObjectKind → List (Option String × Identity)
  | .pipeline => g.pipelines.objects.map fun p => (none, p.identity)
  | .node | .conditional | .flex => g.nodeHoldings false
  | .table => g.nodeHoldings true
  | .action => g.actions.actions.map fun a => (none, a.identity)
  | .registerArray => g.arrays.objects.map fun a => (none, a.identity)
  | .calculation => g.calculations.objects.map fun c => (none, c.identity)

/-- The ids in use that are from the counter of a kind. -/
def idsInUse (g : Program) (kind : ObjectKind) : List Int :=
  (g.holdings kind).map fun x => x.2.id

/-- No object has the largest id, after which the smallest one follows. -/
def BelowMax (g : Program) : Prop := ∀ kind, ∀ id ∈ g.idsInUse kind, id < maxId

instance (g : Program) : Decidable g.BelowMax :=
  decidable_of_iff (∀ kind ∈ ObjectKind.all, ∀ id ∈ g.idsInUse kind, id < maxId)
    ⟨fun h kind => h kind (by cases kind <;> decide), fun h kind _ => h kind⟩

/-- Different objects of a kind have different ids, which lie below the next one. -/
structure Numbered (g : Program) : Prop where
  unique : ∀ kind, (g.idsInUse kind).Nodup
  below : ∀ kind, ∀ id ∈ g.idsInUse kind, id < g.nextId kind

/-- All ids are integers of 32 bits, those in use and the next ones. -/
structure InRange (g : Program) : Prop where
  ids : ∀ kind, ∀ id ∈ g.idsInUse kind, Identity.validId id
  next : ∀ kind, Identity.validId (g.nextId kind)

variable {g : Program} {id : Int}

theorem mem_nodeHoldings {table : Bool} {x : Option String × Identity} :
    x ∈ g.nodeHoldings table ↔ ∃ P, x.1 = some P ∧ g.HasNode P (x.2, table) := by
  simp only [nodeHoldings, List.mem_flatMap, List.mem_map, List.mem_filter, beq_iff_eq]
  constructor
  · rintro ⟨p, hp, n, ⟨hn, htable⟩, rfl⟩
    exact ⟨p.name, rfl, p, hp, rfl, n, hn, Prod.ext rfl htable⟩
  · rintro ⟨P, hx, p, hp, rfl, n, hn, htag⟩
    exact ⟨p, hp, n, ⟨hn, congrArg Prod.snd htag⟩, Prod.ext hx.symm (congrArg Prod.fst htag)⟩

theorem mem_nodeIds {table : Bool} : id ∈ (g.nodeHoldings table).map (fun x => x.2.id) ↔
    ∃ P i, g.HasNode P (i, table) ∧ i.id = id := by
  simp only [List.mem_map, mem_nodeHoldings]
  constructor
  · rintro ⟨x, ⟨P, -, hx⟩, rfl⟩
    exact ⟨P, x.2, hx, rfl⟩
  · rintro ⟨P, i, hi, rfl⟩
    exact ⟨(some P, i), ⟨P, rfl, hi⟩, rfl⟩

theorem idsInUse_pipeline (g : Program) : g.idsInUse .pipeline = g.pipelines.objects.map idOf :=
  List.map_map

theorem idsInUse_action (g : Program) : g.idsInUse .action = g.actions.actions.map idOf :=
  List.map_map

theorem idsInUse_registerArray (g : Program) :
    g.idsInUse .registerArray = g.arrays.objects.map idOf :=
  List.map_map

theorem idsInUse_calculation (g : Program) :
    g.idsInUse .calculation = g.calculations.objects.map idOf :=
  List.map_map

end Program

end LiveSwitch
