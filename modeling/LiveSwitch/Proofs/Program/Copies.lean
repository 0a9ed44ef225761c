import LiveSwitch.Proofs.Program.Carried
import LiveSwitch.Proofs.Program.Holdings

/-!
# Copies of a donor's table

A table that is inserted brings copies along: of its actions, under the next ids, and of the
calculations that these use, where no calculation of that name is there.  The actions of the donor
are copied one after the other, also those that its table lists more than once, so what one copy
does to the actions and to the calculations is put together over the list.

The next ids go on from the smallest id after the largest one.  Then a copy may take the id of an
action that was there, or of a copy from before.  Where the counter has room for all copies, their
ids are consecutive and new.

## Main definitions

* `ActionTable.nextIds` — the next ids of the actions.
* `ActionTable.HasRoom` — the next ids are free, and the largest one does not come among them.
* `Program.CopiesActions`, `Program.CopiesCalculations` — what copies do to the actions and to the
  calculations of a program.
* `Table.CopyOf` — a table by the definition of another one.
* `Pipeline.GainsNode` — a pipeline with one more node.
* `Program.GainsTable` — a program with a table of a donor.
* `Program.CopiesAnew` — the actions of a table are copied to new ids, one after the other.

## Main results

* `IdCounter.iterate_following_eq` — where the counter is after some ids.
* `ActionTable.HasRoom.nextIds_eq`, `ActionTable.HasRoom.get?_eq_none` — with room for them, the
  next ids are consecutive and free.
* `Program.copiesActions_adoptActions`, `copiesCalculations_adoptActions` — the copies of a list of
  actions.
* `Program.gainsTable_insertTable` — a table that is inserted is a copy of the donor's, and nothing
  else changes.
* `Program.GainsTable.copiesAnew_iff` — the actions of the table are copied to new ids exactly if
  there is room for them.
* `Program.GainsTable.default` — the default entry of the copy runs the copy of the action that
  the default entry of the donor's table runs.
-/

namespace LiveSwitch

open Program

/-! ### Actions -/

/-- The next ids of the actions, one after the other. -/
def ActionTable.nextIds (t : ActionTable) (count : Nat) : List Int :=
  (List.range count).map fun k => IdCounter.following^[k] t.nextId

/-- There are so many ids from the next one on, up to the largest one, and all of them are free. -/
structure ActionTable.HasRoom (t : ActionTable) (count : Nat) : Prop where
  room : t.nextId + count ≤ maxId + 1
  free : ∀ k < count, t.get? (t.nextId + k) = none

namespace IdCounter

variable {id : Int} {k : Nat}

/-- Up to the largest id, counting is addition. -/
theorem iterate_following (h : id + k ≤ maxId) : following^[k] id = id + k := by
  induction k with
  | zero => exact (Int.add_zero id).symm
  | succ k ih =>
    rw [Function.iterate_succ_apply', ih (by omega), following_of_lt (by omega)]
    omega

/-- Beyond it, counting is addition modulo the number of all ids. -/
theorem iterate_following_eq (h : Identity.validId id) (k : Nat) :
    following^[k] id = (id - minId + k) % (2 ^ 32 : Nat) + minId := by
  unfold Identity.validId at h
  unfold minId
  induction k with
  | zero =>
    show id = _
    omega
  | succ k ih =>
    rw [Function.iterate_succ_apply', ih, following]
    unfold minId maxId
    split <;> omega

end IdCounter

namespace ActionTable

variable {t t' : ActionTable} {count : Nat}

/-- The first of the next ids, and those after it. -/
theorem nextIds_succ (h : t'.nextId = IdCounter.following t.nextId) (count : Nat) :
    t.nextIds (count + 1) = t.nextId :: t'.nextIds count := by
  rw [nextIds, List.range_succ_eq_map, List.map_cons, List.map_map, nextIds, h]
  rfl

theorem length_nextIds (t : ActionTable) (count : Nat) : (t.nextIds count).length = count := by
  rw [nextIds, List.length_map, List.length_range]

/-- The next ids are different as long as they are not more than there are ids. -/
theorem nodup_nextIds (h : Identity.validId t.nextId) (hcount : count ≤ 2 ^ 32) :
    (t.nextIds count).Nodup := by
  refine List.nodup_range.map_on fun i hi j hj hij => ?_
  rw [IdCounter.iterate_following_eq h, IdCounter.iterate_following_eq h] at hij
  have := List.mem_range.mp hi
  have := List.mem_range.mp hj
  omega

theorem hasRoom_of_ahead (hahead : ∀ a ∈ t.actions, idOf a < t.nextId)
    (hroom : t.nextId + count ≤ maxId + 1) : t.HasRoom count := by
  refine ⟨hroom, fun k _ => List.find?_eq_none.mpr fun a ha heq => ?_⟩
  have hlt : a.identity.id < t.nextId := hahead a ha
  rw [beq_iff_eq] at heq
  omega

namespace HasRoom

/-- The next ids are consecutive. -/
theorem nextIds_eq (h : t.HasRoom count) :
    t.nextIds count = (List.range count).map fun k : Nat => t.nextId + k := by
  refine List.map_congr_left fun k hk => IdCounter.iterate_following ?_
  have := List.mem_range.mp hk
  have := h.room
  omega

theorem nodup (h : t.HasRoom count) : (t.nextIds count).Nodup := by
  rw [h.nextIds_eq]
  refine List.nodup_range.map fun i j hij => ?_
  have hij' : t.nextId + (i : Int) = t.nextId + j := hij
  omega

/-- The next ids are free. -/
theorem get?_eq_none (h : t.HasRoom count) {id : Int} (hid : id ∈ t.nextIds count) :
    t.get? id = none := by
  rw [h.nextIds_eq, List.mem_map] at hid
  obtain ⟨k, hk, rfl⟩ := hid
  exact h.free k (List.mem_range.mp hk)

end HasRoom

end ActionTable

namespace Program

variable {g g' g'' donor : Program}

/-- A program has copies of some actions, under the next ids, and its other actions as they
were.  If none of the ids comes round to another one, each of the copies is there. -/
structure CopiesActions (as : List Action) (g g' : Program) : Prop where
  copies : (g.actions.nextIds as.length).Nodup →
    List.Forall₂ (fun id a => g'.action? id = some (a.withId id)) (g.actions.nextIds as.length) as
  copied : ∀ id ∈ g.actions.nextIds as.length, ∃ a ∈ as, g'.action? id = some (a.withId id)
  others : ∀ id ∉ g.actions.nextIds as.length, g'.action? id = g.action? id
  next : g'.actions.nextId = IdCounter.following^[as.length] g.actions.nextId

theorem copiesActions_adoptActions {as : List Action} {ids : List Int}
    (h : adoptActions donor g as = .ok (g', ids)) :
    ids = g.actions.nextIds as.length ∧ CopiesActions as g g' := by
  induction as generalizing g ids with
  | nil =>
    cases h
    exact ⟨rfl, fun _ => .nil, List.forall_mem_nil _, fun _ _ => rfl, rfl⟩
  | cons a as ih =>
    obtain ⟨g₁, ids', hfirst, hrest, rfl⟩ := adoptActions_cons_ok h
    obtain ⟨calculations, -, rfl⟩ := adoptAction_ok hfirst
    obtain ⟨rfl, hcopies⟩ := ih hrest
    have hget (id : Int) : (g.actions.insertCopy a).get? id =
        if id = g.actions.nextId then some (a.withId id) else g.action? id :=
      g.actions.get?_insertCopy a id
    have hids : g.actions.nextIds (as.length + 1) =
        g.actions.nextId :: (g.actions.insertCopy a).nextIds as.length :=
      ActionTable.nextIds_succ rfl as.length
    refine ⟨hids.symm, ?_⟩
    constructor
    case copies =>
      intro hnodup
      rw [List.length_cons, hids] at hnodup ⊢
      obtain ⟨hnot, hnodup⟩ := List.nodup_cons.mp hnodup
      refine .cons ?_ (hcopies.copies hnodup)
      exact (hcopies.others _ hnot).trans ((hget _).trans (if_pos rfl))
    case copied =>
      intro id hid
      by_cases hlater : id ∈ (g.actions.insertCopy a).nextIds as.length
      · obtain ⟨b, hb, hcopy⟩ := hcopies.copied id hlater
        exact ⟨b, List.mem_cons_of_mem a hb, hcopy⟩
      · -- no later copy has the id of this one
        rw [List.length_cons, hids] at hid
        have hfirst : id = g.actions.nextId := (List.mem_cons.mp hid).resolve_right hlater
        refine ⟨a, List.mem_cons_self, ?_⟩
        exact (hcopies.others id hlater).trans ((hget id).trans (if_pos hfirst))
    case others =>
      intro id hid
      rw [List.length_cons, hids, List.mem_cons, not_or] at hid
      exact (hcopies.others id hid.2).trans ((hget id).trans (if_neg hid.1))
    case next =>
      exact hcopies.next

/-! ### Calculations -/

/-- A program has copies of the donor's calculations of some names, under ids that were free, but
keeps the calculations that it had. -/
structure CopiesCalculations (donor : Program) (names : List String) (g g' : Program) : Prop where
  kept : ∀ key c, g.calculation? key = some c → g'.calculation? key = some c
  copied : ∀ key ∈ names, g.calculation? key = none → ∀ c, donor.calculation? key = some c →
    ∃ id, (∀ d ∈ g.calculations.objects, idOf d ≠ id) ∧ g'.calculation? key = some (c.withId id)
  others : ∀ key, g.calculation? key = none → key ∉ names ∨ donor.calculation? key = none →
    g'.calculation? key = none
  objects : ∀ c ∈ g.calculations.objects, c ∈ g'.calculations.objects
  strays : g'.calculations.strays = g.calculations.strays

namespace CopiesCalculations

theorem refl (donor g : Program) : CopiesCalculations donor [] g g where
  kept _ _ h := h
  copied _ h := absurd h List.not_mem_nil
  others _ h _ := h
  objects _ h := h
  strays := rfl

/-- Of two copies under one name the first one stays. -/
theorem trans {names names' : List String} (h : CopiesCalculations donor names g g')
    (h' : CopiesCalculations donor names' g' g'') :
    CopiesCalculations donor (names ++ names') g g'' where
  kept key c hc := h'.kept key c (h.kept key c hc)
  copied key hkey hfree c hc := by
    by_cases hmem : key ∈ names
    · obtain ⟨id, hid, hcopy⟩ := h.copied key hmem hfree c hc
      exact ⟨id, hid, h'.kept key _ hcopy⟩
    · have hkey' := (List.mem_append.mp hkey).resolve_left hmem
      obtain ⟨id, hid, hcopy⟩ := h'.copied key hkey' (h.others key hfree (Or.inl hmem)) c hc
      exact ⟨id, fun d hd => hid d (h.objects d hd), hcopy⟩
  others key hfree hnone := by
    rw [List.mem_append, not_or] at hnone
    have hfirst := h.others key hfree (hnone.imp_left And.left)
    exact h'.others key hfirst (hnone.imp_left And.right)
  objects c hc := h'.objects c (h.objects c hc)
  strays := h'.strays.trans h.strays

end CopiesCalculations

theorem copiesCalculations_adoptCalculation (hg : g.calculations.strays = [])
    {name : String} (h : adoptCalculation donor g name = .ok g') :
    CopiesCalculations donor [name] g g' := by
  obtain ⟨rfl, hnone⟩ | ⟨d, calculations, -, hd, hins, rfl⟩ := adoptCalculation_ok h
  · refine ⟨fun _ _ h => h, fun key hkey hfree c hc => ?_, fun _ h _ => h, fun _ h => h, rfl⟩
    rw [List.mem_singleton.mp hkey] at hfree hc
    rcases hnone with htaken | hnone
    · -- the name is taken by a calculation, as no name is stray
      rw [ObjectMap.contains_eq_isSome hg, ObjectMap.lookup?_eq_get? hg] at htaken
      have hsome : (g'.calculation? name).isSome = true := htaken
      rw [hfree] at hsome
      cases hsome
    · rw [hnone] at hc
      cases hc
  · have hname : nameOf (d.withId g.calculations.nextId) = name := (ObjectMap.mem_of_get? hd).2
    have hget (key : String) := ObjectMap.get?_insert hins key
    rw [hname] at hget
    obtain ⟨-, hfree, heq⟩ := ObjectMap.insert_eq_ok.mp hins
    constructor
    case kept => exact fun key c hc => ObjectMap.get?_of_insert hins hc
    case copied =>
      intro key hkey _ c hc
      rw [List.mem_singleton.mp hkey, hd, Option.some.injEq] at hc
      refine ⟨g.calculations.nextId, ObjectMap.getById?_eq_none_iff.mp hfree, ?_⟩
      rw [calculation?, hget, if_pos (List.mem_singleton.mp hkey), hc]
    case others =>
      intro key hkey hnone
      rw [List.mem_singleton] at hnone
      have hne : key ≠ name := by
        rintro rfl
        exact hnone.elim (fun h => h rfl) fun h => Option.some_ne_none d (hd.symm.trans h)
      rw [calculation?, hget, if_neg hne]
      exact hkey
    case objects =>
      intro c hc
      rw [heq]
      exact ObjectMap.mem_place.mpr (Or.inr hc)
    case strays => rw [heq]

theorem copiesCalculations_adoptCalculations {names : List String}
    (hg : g.calculations.strays = []) (h : names.foldlM (adoptCalculation donor) g = .ok g') :
    CopiesCalculations donor names g g' := by
  induction names generalizing g with
  | nil =>
    cases h
    exact .refl donor _
  | cons name names ih =>
    obtain ⟨g₁, hfirst, hrest⟩ := foldlM_cons_eq_ok.mp h
    have hcopies := copiesCalculations_adoptCalculation hg hfirst
    exact hcopies.trans (ih (hcopies.strays.trans hg) hrest)

theorem copiesCalculations_adoptActions {as : List Action} {ids : List Int}
    (hg : g.calculations.strays = []) (h : adoptActions donor g as = .ok (g', ids)) :
    CopiesCalculations donor (as.flatMap Action.calculations) g g' := by
  induction as generalizing g ids with
  | nil =>
    cases h
    exact .refl donor _
  | cons a as ih =>
    obtain ⟨g₁, ids', hfirst, hrest, -⟩ := adoptActions_cons_ok h
    obtain ⟨calculations, hfold, rfl⟩ := adoptAction_ok hfirst
    have hfirst : CopiesCalculations donor a.calculations g
        { g with actions := g.actions.insertCopy a, calculations } :=
      have h := copiesCalculations_adoptCalculations hg hfold
      ⟨h.kept, h.copied, h.others, h.objects, h.strays⟩
    exact hfirst.trans (ih (hfirst.strays.trans hg) hrest)

end Program

/-! ### The table -/

/-- A table by the definition of another one, as it is at first: under a name, an id and action
ids of its own, without entries, all edges null, and those for hits and misses only there if the
definition has them. -/
structure Table.CopyOf (definition : Table) (name : String) (id : Int) (ids : List Int)
    (t : Table) : Prop where
  identity : t.identity = { name, id, source? := definition.identity.source? }
  matchType : t.matchType = definition.matchType
  keyFields : t.keyFields = definition.keyFields
  keyJson : t.keyJson = definition.keyJson
  actionIds : t.actionIds = ids
  next : ∀ id, t.nextOf? id = if id ∈ ids then some none else none
  hit : t.hitNext? = definition.hitNext?.map fun _ => none
  miss : t.missNext? = definition.missNext?.map fun _ => none
  base : t.baseNext = none
  default : t.default? = definition.default?.map fun d =>
    { d with actionId := renumber definition.actionIds ids d.actionId }
  entries : t.entries = []
  extra : t.extra = definition.extra

theorem Table.copyOf_instantiate (t : Table) (name : String) (id : Int) (ids : List Int) :
    t.CopyOf name id ids (t.instantiate name id ids) where
  identity := rfl
  matchType := rfl
  keyFields := rfl
  keyJson := rfl
  actionIds := rfl
  next := t.nextOf?_instantiate name id ids
  hit := rfl
  miss := rfl
  base := rfl
  default := rfl
  entries := rfl
  extra := rfl

/-! ### Its pipeline -/

/-- A pipeline has one more node, and else it is as it was: references lead where they led. -/
structure Pipeline.GainsNode (p : Pipeline) (n : Node) (p' : Pipeline) : Prop where
  identity : p'.identity = p.identity
  init : p'.init = p.init
  extra : p'.extra = p.extra
  free : p.node? n.name = none
  node : ∀ name, p'.node? name = if name = n.name then some n else p.node? name
  resolve : ∃ r, p'.find? n.name = some r ∧ p.resolve? r = none ∧
    ∀ r', p'.resolve? r' = if r' = r then some n else p.resolve? r'

theorem Pipeline.Follows.gainsNode {p p' : Pipeline} {w : Wiring} {seat : Nat → Seat}
    (h : p.Follows w seat) {n : Node} {r : NodeRef} (hins : p.insertNode n = .ok (r, p')) :
    p.GainsNode n p' := by
  obtain ⟨hname, hempty, -, -, -, hfind, -, hinit⟩ := insertNode_ok h.slots hins
  refine ⟨identity_insertNode hins, hinit, extra_insertNode hins, ?_,
    h.indexed.node?_insertNode hins, r, ?_, ?_, resolve?_insertNode h.slots hins⟩
  · rw [node?, hname, Option.bind_none]
  · rw [hfind, if_pos rfl]
  · rw [resolve?_eq, hempty, ite_self]

/-! ### The program -/

namespace Program

variable {g g' donor : Program} {pipeline name : String}

/-- A program gains a table of the donor: `d` is its definition, `as` are the actions of the
definition, in its order and as often as it lists them, and `t` is the table. -/
structure GainsTable (donor : Program) (pipeline name : String) (d : Table) (as : List Action)
    (t : Table) (g g' : Program) : Prop where
  definition : (donor.pipeline? pipeline).bind (·.table? name) = some d
  listed : List.Forall₂ (fun id a => donor.action? id = some a) d.actionIds as
  table : d.CopyOf name g.tableIds.next (g.actions.nextIds as.length) t
  actions : CopiesActions as g g'
  calculations : CopiesCalculations donor (as.flatMap Action.calculations) g g'
  node : ∀ P N, g'.node? P N = if P = pipeline ∧ N = name then some (.table t) else g.node? P N
  /-- One pipeline has changed and three counters have moved on, and that is all. -/
  frame : ∃ p p', g.pipeline? pipeline = some p ∧ p.GainsNode (.table t) p' ∧
    g' = { g.setPipeline pipeline p' with
      actions := g'.actions, calculations := g'.calculations, tableIds := g.tableIds.bump }

theorem gainsTable_insertTable {log : Log} (h : g.Follows log)
    (hstrays : g.calculations.strays = []) (hrun : g.insertTable donor pipeline name = .ok g') :
    ∃ d as t, GainsTable donor pipeline name d as t g g' := by
  obtain ⟨p, d, as, g₁, ids, r, p', hp, hd, has, hadopt, hins, hg'⟩ := insertTable_ok hrun
  obtain ⟨rfl, hactions⟩ := copiesActions_adoptActions hadopt
  have hcalculations := copiesCalculations_adoptActions hstrays hadopt
  obtain ⟨actions, calculations, rfl⟩ := adoptActions_ok hadopt
  obtain ⟨seat, hseat⟩ := h.get hp
  have hgains : p.GainsNode
      (.table (d.instantiate name g.tableIds.next (g.actions.nextIds as.length))) p' :=
    hseat.gainsNode hins
  have hpipelines : g'.pipelines = (g.setPipeline pipeline p').pipelines := by rw [hg']; rfl
  have hnode := node?_setPipeline hp hgains.identity hpipelines
  subst hg'
  refine ⟨d, as, d.instantiate name g.tableIds.next (g.actions.nextIds as.length), ?_⟩
  constructor
  case definition => exact hd
  case listed => exact existingActions_eq_ok.mp has
  case table => exact d.copyOf_instantiate name _ _
  case actions => exact ⟨hactions.copies, hactions.copied, hactions.others, hactions.next⟩
  case calculations =>
    exact ⟨hcalculations.kept, hcalculations.copied, hcalculations.others, hcalculations.objects,
      hcalculations.strays⟩
  case frame => exact ⟨p, p', hp, hgains, rfl⟩
  case node =>
    intro P N
    rw [hnode]
    by_cases hP : P = pipeline
    · rw [if_pos hP, hgains.node, hP, node?_eq hp]
      exact if_congr (and_iff_right rfl).symm rfl rfl
    · rw [if_neg hP, if_neg fun h => hP h.1]

/-- The actions of a donor's table are copied to ids that are new, one after the other. -/
structure CopiesAnew (donor : Program) (old new : List Int) (g g' : Program) : Prop where
  consecutive : new = (List.range old.length).map fun k : Nat => g.actions.nextId + k
  distinct : new.Nodup
  free : ∀ id ∈ new, g.action? id = none
  copied : List.Forall₂ (fun id id' => ∃ a, donor.action? id = some a ∧
    g'.action? id' = some (a.withId id')) old new
  kept : ∀ id a, g.action? id = some a → g'.action? id = some a

namespace GainsTable

variable {d t : Table} {as : List Action}

theorem length_eq (h : GainsTable donor pipeline name d as t g g') :
    d.actionIds.length = t.actionIds.length := by
  rw [h.listed.length_eq, h.table.actionIds, ActionTable.length_nextIds]

/-- The actions of the new table are copies of the donor's, one by one, if none of their ids comes
round. -/
theorem copied (h : GainsTable donor pipeline name d as t g g') (hnodup : t.actionIds.Nodup) :
    List.Forall₂ (fun old new => ∃ a, donor.action? old = some a ∧
      g'.action? new = some (a.withId new)) d.actionIds t.actionIds := by
  rw [h.table.actionIds] at hnodup ⊢
  have hlisted := h.listed
  have hcopies := h.actions.copies hnodup
  generalize d.actionIds = old at hlisted
  generalize g.actions.nextIds as.length = new at hcopies
  clear h hnodup
  induction hlisted generalizing new with
  | nil =>
    cases hcopies
    exact .nil
  | cons ha _ ih =>
    cases hcopies with
    | cons hcopy hcopies => exact .cons ⟨_, ha, hcopy⟩ (ih _ hcopies)

theorem actionIds_eq (h : GainsTable donor pipeline name d as t g g') :
    t.actionIds = g.actions.nextIds d.actionIds.length := by
  rw [h.table.actionIds, h.listed.length_eq]

theorem nodup_actionIds (h : GainsTable donor pipeline name d as t g g')
    (hvalid : Identity.validId g.actions.nextId) (hlength : d.actionIds.length ≤ 2 ^ 32) :
    t.actionIds.Nodup :=
  h.actionIds_eq ▸ ActionTable.nodup_nextIds hvalid hlength

/-- The actions are copied to new ids exactly if there is room for them. -/
theorem copiesAnew_iff (h : GainsTable donor pipeline name d as t g g')
    (hvalid : Identity.validId g.actions.nextId) :
    CopiesAnew donor d.actionIds t.actionIds g g' ↔ g.actions.HasRoom d.actionIds.length := by
  have hids := h.actionIds_eq
  constructor
  · intro hnew
    have hmem (k : Nat) (hk : k < d.actionIds.length) : g.actions.nextId + k ∈ t.actionIds := by
      rw [hnew.consecutive]
      exact List.mem_map.mpr ⟨k, List.mem_range.mpr hk, rfl⟩
    refine ⟨?_, fun k hk => hnew.free _ (hmem k hk)⟩
    unfold Identity.validId at hvalid
    cases hlength : d.actionIds.length with
    | zero =>
      unfold maxId
      omega
    | succ count =>
      -- the last id is among the next ones, which are all of 32 bits
      have hlast := hmem count (by omega)
      rw [hids, ActionTable.nextIds, List.mem_map] at hlast
      obtain ⟨k, -, hk⟩ := hlast
      rw [IdCounter.iterate_following_eq hvalid] at hk
      unfold minId at hk
      unfold maxId
      omega
  · intro hroom
    have hnodup : t.actionIds.Nodup := hids ▸ hroom.nodup
    have hfree (id : Int) (hid : id ∈ t.actionIds) : g.action? id = none :=
      hroom.get?_eq_none (hids ▸ hid)
    refine ⟨hids.trans hroom.nextIds_eq, hnodup, hfree, h.copied hnodup, fun id a ha => ?_⟩
    have hnot : id ∉ t.actionIds := fun hid => by
      rw [hfree id hid] at ha
      cases ha
    exact (h.actions.others id (h.table.actionIds ▸ hnot)).trans ha

/-- A miss in the new table runs the copy of the action that it runs in the donor's. -/
theorem default (h : GainsTable donor pipeline name d as t g g') {e : DefaultEntry}
    (he : d.default? = some e) (hid : e.actionId ∈ d.actionIds) :
    ∃ id, t.default? = some { e with actionId := id } ∧ id ∈ t.actionIds ∧
      (t.actionIds.Nodup → ∃ a, donor.action? e.actionId = some a ∧
        g'.action? id = some (a.withId id)) := by
  obtain hpair | ⟨-, hnot⟩ := Table.renumber_cases h.length_eq e.actionId
  · refine ⟨_, ?_, (List.of_mem_zip hpair).2, fun hnodup => ?_⟩
    · rw [h.table.default, he, h.table.actionIds]
      rfl
    · exact List.forall₂_zip (h.copied hnodup) hpair
  · exact absurd hid hnot

/-- The default entry keeps the id of an action that the donor's table does not list. -/
theorem default_of_not_mem (h : GainsTable donor pipeline name d as t g g') {e : DefaultEntry}
    (he : d.default? = some e) (hid : e.actionId ∉ d.actionIds) : t.default? = some e := by
  obtain hpair | ⟨hsame, -⟩ := Table.renumber_cases h.length_eq e.actionId
  · exact absurd (List.of_mem_zip hpair).1 hid
  · rw [h.table.default, he, ← h.table.actionIds, Option.map_some, hsame]

/-- Under any other id there is what was there. -/
theorem action?_eq (h : GainsTable donor pipeline name d as t g g') {id : Int}
    (hid : id ∉ t.actionIds) : g'.action? id = g.action? id :=
  h.actions.others id (h.table.actionIds ▸ hid)

/-- Under each id of the new table there is a copy of an action that the donor's table lists. -/
theorem exists_copied (h : GainsTable donor pipeline name d as t g g') {id : Int}
    (hid : id ∈ t.actionIds) : ∃ old a, old ∈ d.actionIds ∧ donor.action? old = some a ∧
      g'.action? id = some (a.withId id) := by
  obtain ⟨a, ha, hcopy⟩ := h.actions.copied id (h.table.actionIds ▸ hid)
  obtain ⟨old, hold, hlisted⟩ := exists_of_forall₂ h.listed ha
  exact ⟨old, a, hold, hlisted, hcopy⟩

end GainsTable

end Program

end LiveSwitch
