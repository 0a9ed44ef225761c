import LiveSwitch.Proofs.Document.Loaded
import LiveSwitch.Proofs.Document.Verbatim
import LiveSwitch.Proofs.Program.Carried

/-!
# What a program retains of a document

A loaded program has an object for every record of its document, and the object has what the
document says beyond the fields that mean something here.  A program that goes on in another one
hands this on, nodes and arrays aside that are gone.  So the document of the later program keeps
what the document had that was read.

## Main definitions

* `Node.Restates`, `Node.Keeps` — a node says again what another one says, and under the same id.
* `Records.ReadFrom` — the records of a document.
* `Program.Retains` — a program has the objects of some records.

## Main results

* `Program.retains_ofDocument` — a loaded program retains all its records.
* `Program.Retains.carries` — so does a program in which it goes on.
* `Program.Retains.documentKept` — the document of such a program keeps the one that was read.
-/

namespace LiveSwitch

open Json

/-! ### Nodes -/

/-- A table says again what another one says besides id, match type, actions, data and edges. -/
structure Table.Restates (t t' : Table) : Prop where
  name : t'.identity.name = t.identity.name
  source : t'.identity.source? = t.identity.source?
  key : t'.keyJson = t.keyJson
  default : ∀ d ∈ t.default?, ∃ d' ∈ t'.default?, d'.extra = d.extra
  extra : t'.extra = t.extra

/-- A conditional says again what another one says besides id and edges. -/
structure Conditional.Restates (c c' : Conditional) : Prop where
  name : c'.identity.name = c.identity.name
  source : c'.identity.source? = c.identity.source?
  condition : c'.condition? = c.condition?
  extra : c'.extra = c.extra

theorem Table.Restates.trans {t t' t'' : Table} (h : t.Restates t') (h' : t'.Restates t'') :
    t.Restates t'' where
  name := h'.name.trans h.name
  source := h'.source.trans h.source
  key := h'.key.trans h.key
  default d hd := by
    obtain ⟨d', hd', hextra⟩ := h.default d hd
    obtain ⟨d'', hd'', hextra'⟩ := h'.default d' hd'
    exact ⟨d'', hd'', hextra'.trans hextra⟩
  extra := h'.extra.trans h.extra

theorem Conditional.Restates.trans {c c' c'' : Conditional} (h : c.Restates c')
    (h' : c'.Restates c'') : c.Restates c'' :=
  ⟨h'.name.trans h.name, h'.source.trans h.source, h'.condition.trans h.condition,
    h'.extra.trans h.extra⟩

namespace Node

/-- A node says again what another one of its kind says. -/
inductive Restates : Node → Node → Prop
  | table {t t' : Table} (h : t.Restates t') : Restates (.table t) (.table t')
  | conditional {c c' : Conditional} (h : c.Restates c') :
    Restates (.conditional c) (.conditional c')

/-- A node says again what another one says, and has its id. -/
structure Keeps (n n' : Node) : Prop where
  restates : n.Restates n'
  id : n'.identity.id = n.identity.id

variable {n n' n'' : Node}

theorem Restates.trans (h : n.Restates n') (h' : n'.Restates n'') : n.Restates n'' := by
  cases h with
  | table h => cases h' with
    | table h' => exact .table (h.trans h')
  | conditional h => cases h' with
    | conditional h' => exact .conditional (h.trans h')

theorem Keeps.trans (h : n.Keeps n') (h' : n'.Keeps n'') : n.Keeps n'' :=
  ⟨h.restates.trans h'.restates, h'.id.trans h.id⟩

/-- Edges do not matter. -/
theorem SameBody.keeps (h : n.SameBody n') : n.Keeps n' := by
  have hidentity : n'.identity = n.identity := by
    rw [← identity_unlinked n', ← identity_unlinked n]
    exact congrArg Node.identity h
  refine ⟨?_, congrArg Identity.id hidentity⟩
  have hname := congrArg Identity.name hidentity
  have hsource := congrArg Identity.source? hidentity
  cases n with
  | table t => cases n' with
    | conditional c' => cases h
    | table t' =>
      have heq : t'.unlinked = t.unlinked := Node.table.inj h
      have hdefault : t'.default? = t.default? := (congrArg Table.default? heq :)
      exact .table ⟨hname, hsource, (congrArg Table.keyJson heq :),
        fun d hd => ⟨d, hdefault ▸ hd, rfl⟩, (congrArg Table.extra heq :)⟩
  | conditional c => cases n' with
    | table t' => cases h
    | conditional c' =>
      have heq : c'.unlinked = c.unlinked := Node.conditional.inj h
      exact .conditional ⟨hname, hsource, (congrArg Conditional.condition? heq :),
        (congrArg Conditional.extra heq :)⟩

theorem Keeps.refl (n : Node) : n.Keeps n := (SameBody.refl n).keeps

end Node

/-! ### Programs -/

/-- The records that are read from the fields of a document. -/
structure Records.ReadFrom (r : Records) (root : Object) : Prop where
  arrays : Loader.recordsOf root "register_arrays" ArrayRecord.decode = .ok r.arrays
  calculations : Loader.recordsOf root "calculations" CalculationRecord.decode = .ok r.calculations
  actions : Loader.recordsOf root "actions" ActionRecord.decode = .ok r.actions
  pipelines : Loader.recordsOf root "pipelines" PipelineRecord.decode = .ok r.pipelines
  extra : r.extra = root.without Program.sectionKeys

namespace Program

variable {gone gone' : Subject → Prop} {g g' : Program}

/-- A program has the register array of a record, unless its name has gone astray. -/
def RetainsArray (g : Program) (r : ArrayRecord) : Prop :=
  ¬g.Stray (.array r.identity.name) →
  ∃ a, g.array? r.identity.name = some a ∧ a.identity = r.identity ∧ a.extra = r.extra

/-- A program has the calculation of a record. -/
def RetainsCalculation (g : Program) (r : CalculationRecord) : Prop :=
  ∃ c, g.calculation? r.identity.name = some c ∧ c.toRecord = r

/-- A program has the action of a record, as long as none has the largest id. -/
def RetainsAction (g : Program) (r : ActionRecord) : Prop :=
  g.actions.BelowMax → ∃ a, g.action? r.identity.id = some a ∧ a.toRecord = r

/-- A program has the pipeline of a record, with its nodes, those aside that are gone. -/
structure RetainsPipeline (gone : Subject → Prop) (g : Program) (r : PipelineRecord) : Prop where
  self : ∃ p, g.pipeline? r.identity.name = some p ∧ p.identity = r.identity ∧ p.extra = r.extra
  table : ∀ t ∈ r.tables, ¬gone (.node r.identity.name t.identity.name) → ∃ t' n,
    Table.ofRecord t = .ok t' ∧ g.node? r.identity.name t.identity.name = some n ∧
      (Node.table t').Keeps n
  conditional : ∀ c ∈ r.conditionals, ¬gone (.node r.identity.name c.identity.name) → ∃ c' n,
    Loader.conditionalOf c = .ok c' ∧ g.node? r.identity.name c.identity.name = some n ∧
      (Node.conditional c').Keeps n

/-- A program has the objects of all records, those aside that are gone, arrays unless their names
have gone astray, and actions as long as none has the largest id. -/
structure Retains (gone : Subject → Prop) (r : Records) (g : Program) : Prop where
  extra : g.extra = r.extra
  array : ∀ a ∈ r.arrays, ¬gone (.array a.identity.name) → g.RetainsArray a
  calculation : ∀ c ∈ r.calculations, g.RetainsCalculation c
  action : ∀ a ∈ r.actions, g.RetainsAction a
  pipeline : ∀ p ∈ r.pipelines, g.RetainsPipeline gone p

namespace Carries

variable (h : Carries Node.Keeps gone g g')
include h

theorem retainsArray {r : ArrayRecord} (hr : g.RetainsArray r)
    (hgone : ¬gone (.array r.identity.name)) : g'.RetainsArray r := by
  intro hstray
  obtain ⟨hstray', hkept⟩ := h.array _ hgone hstray
  obtain ⟨a, ha, hidentity, hextra⟩ := hr hstray'
  obtain ⟨a', ha', hidentity', hextra'⟩ := hkept a ha
  exact ⟨a', ha', hidentity'.trans hidentity, hextra'.trans hextra⟩

theorem retainsCalculation {r : CalculationRecord} (hr : g.RetainsCalculation r) :
    g'.RetainsCalculation r := by
  obtain ⟨c, hc, hrecord⟩ := hr
  exact ⟨c, h.calculation _ c hc, hrecord⟩

theorem retainsAction {r : ActionRecord} (hr : g.RetainsAction r) : g'.RetainsAction r := by
  intro hmax
  obtain ⟨hmax', hkept⟩ := h.action hmax
  obtain ⟨a, ha, hrecord⟩ := hr hmax'
  exact ⟨a, hkept _ a ha, hrecord⟩

theorem retainsPipeline {r : PipelineRecord} (hr : g.RetainsPipeline gone r) :
    g'.RetainsPipeline gone r where
  self := by
    obtain ⟨p, hp, hidentity, hextra⟩ := hr.self
    obtain ⟨p', hp', hidentity', hextra'⟩ := h.pipeline _ p hp
    exact ⟨p', hp', hidentity'.trans hidentity, hextra'.trans hextra⟩
  table t ht hgone := by
    obtain ⟨t', n, ht', hn, hkeeps⟩ := hr.table t ht hgone
    obtain ⟨n', hn', hkeeps'⟩ := h.node _ _ n hgone hn
    exact ⟨t', n', ht', hn', hkeeps.trans hkeeps'⟩
  conditional c hc hgone := by
    obtain ⟨c', n, hc', hn, hkeeps⟩ := hr.conditional c hc hgone
    obtain ⟨n', hn', hkeeps'⟩ := h.node _ _ n hgone hn
    exact ⟨c', n', hc', hn', hkeeps.trans hkeeps'⟩

end Carries

namespace Retains

variable {r : Records}

theorem mono (h : g.Retains gone r) (hgone : ∀ x, gone x → gone' x) : g.Retains gone' r where
  extra := h.extra
  array a ha hkept := h.array a ha fun hg => hkept (hgone _ hg)
  calculation := h.calculation
  action := h.action
  pipeline p hp :=
    ⟨(h.pipeline p hp).self, fun t ht hkept => (h.pipeline p hp).table t ht fun hg =>
      hkept (hgone _ hg), fun c hc hkept => (h.pipeline p hp).conditional c hc fun hg =>
      hkept (hgone _ hg)⟩

/-- A program that goes on hands on what it retains. -/
theorem carries (h : g.Retains gone r) (hcarries : Carries Node.Keeps gone g g') :
    g'.Retains gone r where
  extra := hcarries.extra.trans h.extra
  array a ha hgone := hcarries.retainsArray (h.array a ha hgone) hgone
  calculation c hc := hcarries.retainsCalculation (h.calculation c hc)
  action a ha := hcarries.retainsAction (h.action a ha)
  pipeline p hp := hcarries.retainsPipeline (h.pipeline p hp)

end Retains

end Program

/-! ### Loading -/

namespace Loader

open Program

variable {l l' : Loader}

/-- The nodes of a pipeline are those of its record, and edges are all that was set since. -/
theorem sameBody_linkNodes {g : Program} {r : PipelineRecord} {p p₁ p₂ : Pipeline}
    {ns : List Node} (h₁ : r.tables.foldlM (linkTable g) p = .ok p₁)
    (h₂ : r.conditionals.foldlM linkConditional p₁ = .ok p₂) (hp : p.Packed ns)
    (houtline : ns.map Node.outline =
      r.tables.map TableRecord.outline ++ r.conditionals.map ConditionalRecord.outline) :
    ∀ n ∈ ns, ∃ n', p₂.node? n.name = some n' ∧ n.SameBody n' := by
  -- a node is told by its name, which no edge changes
  have hself : ∀ n ∈ ns, ∀ m ∈ ns, m.name = n.name → m.SameBody n := by
    intro n hn m hm hname
    rw [List.inj_on_of_nodup_map hp.names hm hn hname]
    exact .refl n
  have hlinks : KeptByLinks g fun n => ∀ m ∈ ns, m.name = n.name → m.SameBody n := by
    intro n q e hn _ m hm hname
    rw [Node.name_setEdge] at hname
    exact (hn m hm hname).trans (Node.unlinked_setEdge q e n)
  obtain ⟨ns', hp₂, hout, hns'⟩ := keeps_linkNodes hlinks h₁ h₂ hp hself houtline
  intro n hn
  have hmem : n.outline ∈ ns'.map Node.outline := hout ▸ List.mem_map_of_mem hn
  obtain ⟨n', hn', heq⟩ := List.mem_map.mp hmem
  have hname : n'.name = n.name :=
    congrArg (fun x : (Identity × Bool) × List Int => x.1.1.name) heq
  exact ⟨n', hname ▸ hp₂.node? hn', hns' n' hn' n hn hname.symm⟩

/-- A pipeline that is added has the identity, the unknown fields and the nodes of its record. -/
theorem exists_pipeline_of_addPipeline {r : PipelineRecord} (h : l.addPipeline r = .ok l') :
    ∃ p, l.program.pipelines.insert p = .ok l'.program.pipelines ∧ p.identity = r.identity ∧
      p.extra = r.extra ∧
      (∀ t ∈ r.tables, ∃ t' n, Table.ofRecord t = .ok t' ∧
        p.node? t.identity.name = some n ∧ (Node.table t').SameBody n) ∧
      ∀ c ∈ r.conditionals, ∃ c' n, conditionalOf c = .ok c' ∧
        p.node? c.identity.name = some n ∧ (Node.conditional c').SameBody n := by
  obtain ⟨l₁, p₁, l₂, p₂, p₃, p₄, init, pipelines, h₁, h₂, h₃, h₄, -, hins, rfl⟩ :=
    addPipeline_eq_ok.mp h
  obtain ⟨-, hprogram, hidentity, hextra⟩ := addNodes_keep h₁ h₂
  obtain ⟨hidentity', hextra'⟩ := linkNodes_keep h₃ h₄
  obtain ⟨ts, hp₁, hts⟩ := packed_addTables h₁ (.empty r.identity r.extra)
  obtain ⟨cs, hp₂, hcs⟩ := packed_addConditionals h₂ hp₁
  rw [List.nil_append] at hp₂
  have hnodes := sameBody_linkNodes h₃ h₄ hp₂ (outline_ofRecords hts hcs)
  rw [hprogram] at hins
  refine ⟨{ p₄ with init }, hins, hidentity'.trans hidentity, hextra'.trans hextra,
    fun t ht => ?_, fun c hc => ?_⟩
  · obtain ⟨t', ht', hr⟩ := exists_of_forall₂ hts.flip ht
    obtain ⟨n, hn, hbody⟩ := hnodes _ (List.mem_append_left _ (List.mem_map_of_mem ht'))
    refine ⟨t', n, hr, ?_, hbody⟩
    rwa [show (Node.table t').name = t.identity.name from
      congrArg Identity.name (Table.identity_ofRecord hr)] at hn
  · obtain ⟨c', hc', hr⟩ := exists_of_forall₂ hcs.flip hc
    obtain ⟨n, hn, hbody⟩ := hnodes _ (List.mem_append_right _ (List.mem_map_of_mem hc'))
    refine ⟨c', n, hr, ?_, hbody⟩
    obtain ⟨_, -, -, rfl⟩ := conditionalOf_eq_ok.mp hr
    exact hn

/-- A record that is added leaves what was added before. -/
theorem Adds.carries (h : l.Adds l') :
    Carries Node.Keeps (fun _ => False) l.program l'.program := by
  have hrefl : Carries Node.Keeps (fun _ => False) l.program l.program := .refl Node.Keeps.refl _
  cases h with
  | array _ h =>
    obtain ⟨arrays, -, -, hins, rfl⟩ := addArray_eq_ok.mp h
    have hstrays : arrays.strays = l.program.arrays.strays := by
      obtain ⟨-, -, rfl⟩ := ObjectMap.insert_eq_ok.mp hins
      rfl
    refine { hrefl with array := fun N _ hstray => ?_ }
    rw [not_stray_array, hstrays] at hstray
    refine ⟨not_stray_array.mpr hstray, fun a ha => ⟨a, ?_, rfl, rfl⟩⟩
    rw [array?, ObjectMap.lookup?_of_not_stray hstray] at ha
    rw [array?, ObjectMap.lookup?_of_not_stray (hstrays ▸ hstray)]
    exact ObjectMap.get?_of_insert hins ha
  | calculation _ h =>
    obtain ⟨_, calculations, -, hins, rfl⟩ := addCalculation_eq_ok.mp h
    exact { hrefl with calculation := fun N c hc => ObjectMap.get?_of_insert hins hc }
  | action _ h =>
    obtain ⟨b, actions, -, hins, rfl⟩ := addAction_eq_ok.mp h
    obtain ⟨hnone, rfl⟩ := ActionTable.insert_eq_ok.mp hins
    refine { hrefl with action := fun hmax => ⟨fun a ha => ?_, fun id a ha => ?_⟩ }
    · exact hmax a (ObjectMap.mem_place.mpr (Or.inr ha))
    -- an id that is taken is refused, so the action that joins has another one
    have hne : b.identity.id ≠ id := by
      rintro rfl
      rw [Program.action?, hnone] at ha
      cases ha
    exact (ObjectMap.find?_place_of_false (f := fun c : Action => c.identity.id == id)
      (beq_eq_false_iff_ne.mpr hne) _).trans ha
  | pipeline _ h =>
    obtain ⟨p, hins, -⟩ := exists_pipeline_of_addPipeline h
    obtain ⟨-, hprogram⟩ := addPipeline_keep h
    have hget : ∀ P q, l.program.pipeline? P = some q → l'.program.pipeline? P = some q :=
      fun P q hq => ObjectMap.get?_of_insert hins hq
    -- only the pipelines are other ones, and those that were there are found as before
    refine ⟨by rw [hprogram], fun P q hq => ⟨q, hget P q hq, rfl, rfl⟩,
      fun P N n _ hn => ⟨n, ?_, .refl n⟩, fun N _ hstray => ?_, fun hmax => ?_, fun N c hc => ?_⟩
    · obtain ⟨q, hq, hnode⟩ := Option.bind_eq_some_iff.mp hn
      exact Option.bind_eq_some_iff.mpr ⟨q, hget P q hq, hnode⟩
    · rw [hprogram] at hstray ⊢
      exact ⟨hstray, fun a ha => ⟨a, ha, rfl, rfl⟩⟩
    · rw [hprogram] at hmax ⊢
      exact ⟨hmax, fun _ _ ha => ha⟩
    · rw [hprogram]
      exact hc

theorem carries_of_adds (h : Relation.ReflTransGen Adds l l') :
    Carries Node.Keeps (fun _ => False) l.program l'.program := by
  induction h with
  | refl => exact .refl Node.Keeps.refl _
  | tail _ hstep ih => exact (ih.trans hstep.carries .trans).mono (fun _ _ => id) (by simp)

/-! ### The objects of the records -/

theorem retainsArray_addArray {r : ArrayRecord} (h : l.addArray r = .ok l') :
    l'.program.RetainsArray r := by
  obtain ⟨arrays, -, -, hins, rfl⟩ := addArray_eq_ok.mp h
  intro hstray
  have hget := (ObjectMap.get?_insert hins _).trans (if_pos rfl)
  exact ⟨_, (ObjectMap.lookup?_of_not_stray (not_stray_array.mp hstray)).trans hget, rfl, rfl⟩

theorem retainsCalculation_addCalculation {r : CalculationRecord}
    (h : l.addCalculation r = .ok l') : l'.program.RetainsCalculation r := by
  obtain ⟨c, calculations, hc, hins, rfl⟩ := addCalculation_eq_ok.mp h
  obtain ⟨algorithm, inputs, halgorithm, -, rfl⟩ := Calculation.ofRecord_eq_ok.mp hc
  have hname : algorithm.name = r.algorithm := by
    rw [HashAlgorithm.ofName?] at halgorithm
    simpa using List.find?_some halgorithm
  refine ⟨_, (ObjectMap.get?_insert hins _).trans (if_pos rfl), ?_⟩
  rw [Calculation.toRecord, hname]

theorem retainsAction_addAction {r : ActionRecord} (h : l.addAction r = .ok l') :
    l'.program.RetainsAction r := by
  obtain ⟨a, actions, ha, hins, rfl⟩ := addAction_eq_ok.mp h
  obtain ⟨primitives, -, rfl⟩ := Action.ofRecord_eq_ok.mp ha
  obtain ⟨hnone, rfl⟩ := ActionTable.insert_eq_ok.mp hins
  exact fun _ => ⟨_, ObjectMap.find?_place_of_true
    (f := fun b : Action => b.identity.id == r.identity.id)
    (beq_self_eq_true r.identity.id) hnone, rfl⟩

theorem retainsPipeline_addPipeline {r : PipelineRecord} (h : l.addPipeline r = .ok l') :
    l'.program.RetainsPipeline (fun _ => False) r := by
  obtain ⟨p, hins, hidentity, hextra, htables, hconditionals⟩ := exists_pipeline_of_addPipeline h
  have hp : l'.program.pipeline? r.identity.name = some p := by
    refine (ObjectMap.get?_insert hins _).trans (if_pos ?_)
    exact (congrArg Identity.name hidentity).symm
  refine ⟨⟨p, hp, hidentity, hextra⟩, fun t ht _ => ?_, fun c hc _ => ?_⟩
  · obtain ⟨t', n, ht', hn, hbody⟩ := htables t ht
    exact ⟨t', n, ht', (node?_eq hp _).trans hn, hbody.keeps⟩
  · obtain ⟨c', n, hc', hn, hbody⟩ := hconditionals c hc
    exact ⟨c', n, hc', (node?_eq hp _).trans hn, hbody.keeps⟩

/-- All records of a section have their objects, and keep them. -/
theorem retains_foldlM {α : Type} {root : Object} {key : String} {d : Decoder α}
    {records : List α} {add : Loader → α → Except LoadError Loader} {R : Program → α → Prop}
    (hadds : ∀ {v r l l'}, d v = some r → add l r = .ok l' → Adds l l')
    (hadd : ∀ {r l l'}, add l r = .ok l' → R l'.program r)
    (hcarries : ∀ {g g' r}, Carries Node.Keeps (fun _ => False) g g' → R g r → R g' r)
    (hrecords : recordsOf root key d = .ok records) (h : records.foldlM add l = .ok l')
    {g : Program} (hg : Carries Node.Keeps (fun _ => False) l'.program g) :
    ∀ r ∈ records, R g r := by
  have hall : ∀ r ∈ records, R l'.program r := by
    refine foldlM_forall (P := fun r l => R l.program r) (fun r hr l l' hstep => ?_) h
    obtain ⟨v, hv⟩ := exists_of_recordsOf hrecords hr
    -- a record has its object when it is added, and each later record leaves it
    exact ⟨hadd hstep, fun b hb => hcarries (hadds hv hstep).carries hb⟩
  exact fun r hr => hcarries hg (hall r hr)

end Loader

open Loader in
/-- A loaded program has the objects of all records of its document. -/
theorem Program.retains_ofDocument {s s' : Store} {v : Value} {g : Program}
    (h : ofDocument s v = .ok (g, s')) : ∃ root records, v.fields? = some root ∧
      Records.ReadFrom records root ∧ g.Retains (fun _ => False) records := by
  obtain ⟨root, layout, arrays, calculations, actions, pipelines, l₁, l₂, l₃, l₄, hroot, -, ha, hc,
    hact, hp, h₁, h₂, h₃, h₄, rfl, -⟩ := ofDocument_eq_ok.mp h
  -- the objects of a section stay while those of the later sections are added
  have hcalculations := adds_foldlM .calculation hc h₂
  have hactions := adds_foldlM .action hact h₃
  have hpipelines := adds_foldlM .pipeline hp h₄
  have harray := retains_foldlM .array retainsArray_addArray
    (fun hcarries hr => hcarries.retainsArray hr id) ha h₁
    (carries_of_adds ((hcalculations.trans hactions).trans hpipelines))
  have hcalculation := retains_foldlM .calculation retainsCalculation_addCalculation
    (fun hcarries hr => hcarries.retainsCalculation hr) hc h₂
    (carries_of_adds (hactions.trans hpipelines))
  have haction := retains_foldlM .action retainsAction_addAction
    (fun hcarries hr => hcarries.retainsAction hr) hact h₃ (carries_of_adds hpipelines)
  have hpipeline := retains_foldlM .pipeline retainsPipeline_addPipeline
    (fun hcarries hr => hcarries.retainsPipeline hr) hp h₄ (carries_of_adds .refl)
  refine ⟨root, ⟨arrays, calculations, actions, pipelines, root.without sectionKeys⟩, hroot,
    ⟨ha, hc, hact, hp, rfl⟩, rfl, fun a ha _ => harray a ha, hcalculation, haction, fun p hp => ?_⟩
  exact ⟨(hpipeline p hp).self, (hpipeline p hp).table, (hpipeline p hp).conditional⟩

/-! ### Documents -/

namespace Json.Decode

/-- Every item that was listed is read. -/
theorem exists_of_mem {α : Type} {d : Decoder α} {items : List Value} {l : List α}
    (h : listOf d (.array items) = some l) {v : Value} (hv : v ∈ items) :
    ∃ a ∈ l, d v = some a := by
  replace h : items.mapM d = some l := h
  exact exists_of_forall₂ (mapM_some h).flip hv

theorem exists_of_mem_entries {α : Type} {d : Decoder α} {o entry : Object} {key : String}
    {l : List α} (h : withDefault o key (listOf d) [] = some l) (hentry : entry ∈ o.entries key) :
    ∃ a ∈ l, d (.object entry) = some a := by
  obtain ⟨items, hget, hmem⟩ := Object.mem_entries.mp hentry
  rw [withDefault, hget] at h
  exact exists_of_mem h hmem

end Json.Decode

theorem Loader.exists_of_mem_entries {α : Type} {d : Decoder α} {root entry : Object}
    {key : String} {records : List α} (h : recordsOf root key d = .ok records)
    (hentry : entry ∈ root.entries key) : ∃ r ∈ records, d (.object entry) = some r := by
  obtain ⟨items, hget, hmem⟩ := Object.mem_entries.mp hentry
  rw [recordsOf, hget] at h
  dsimp only at h
  split at h
  case h_1 heq =>
    cases h
    exact Decode.exists_of_mem heq hmem
  case h_2 => cases h

/-- What a document says of a table, the table of its record says again. -/
theorem Table.Restates.tableKept {o : Object} {r : TableRecord} {t t' : Table}
    {verbatim : List String} (h : t.Restates t') (hr : TableRecord.decode (.object o) = some r)
    (ht : Table.ofRecord r = .ok t)
    (hverbatim : ∀ key ∈ verbatim, key = "name" ∨ key = "id" ∧ t'.identity.id = t.identity.id)
    (p : Pipeline) (actions : ActionTable) :
    o.TableKept verbatim (t'.toRecord p actions).toObject := by
  obtain ⟨keyFields, default?, -, hdefault, rfl⟩ := ofRecord_eq_ok.mp ht
  refine TableRecord.tableKept hr h.name h.source h.key (fun d hd => ?_) h.extra hverbatim
  -- the default entry of the table has the unknown fields of the one of the record
  have hrel := option_mapM_eq_ok.mp hdefault
  rw [show r.default? = some d from hd] at hrel
  cases hrel with
  | some hd' =>
    obtain ⟨data, -, rfl⟩ := DefaultEntry.ofRecord_eq_ok.mp hd'
    obtain ⟨d', hd', hextra⟩ := h.default _ rfl
    refine ⟨d'.toRecord, ?_, hextra⟩
    exact Option.map_eq_some_iff.mpr ⟨d', hd', rfl⟩

theorem Conditional.Restates.conditionalKept {o : Object} {r : ConditionalRecord}
    {c c' : Conditional} {verbatim : List String} (h : c.Restates c')
    (hr : ConditionalRecord.decode (.object o) = some r) (hc : Loader.conditionalOf r = .ok c)
    (hverbatim : ∀ key ∈ verbatim, key = "name" ∨ key = "id" ∧ c'.identity.id = c.identity.id)
    (p : Pipeline) : o.ConditionalKept verbatim (c'.toRecord p).toObject := by
  obtain ⟨condition?, hcondition, -, rfl⟩ := Loader.conditionalOf_eq_ok.mp hc
  refine ConditionalRecord.conditionalKept hr h.name h.source ?_ h.extra hverbatim
  show c'.condition?.map Condition.json = r.expression?
  rw [h.condition]
  have hrel := option_mapM_eq_ok.mp hcondition
  revert hrel
  cases r.expression? with
  | none =>
    rintro ⟨⟩
    rfl
  | some v =>
    rintro ⟨hd⟩
    exact congrArg some (Condition.decode_eq_ok.mp hd).2

/-! ### Entries of a written document -/

namespace Pipeline

variable {p : Pipeline}

theorem mem_entries_tables {t : Table} (h : .table t ∈ p.nodes) (actions : ActionTable) :
    (t.toRecord p actions).toObject ∈ (p.toRecord actions).toObject.entries "tables" := by
  have hget : (p.toRecord actions).toObject.get? "tables" =
      some (.array ((p.tables.map (Table.toRecord p actions)).map (·.encode))) :=
    PipelineRecord.get?_toObject (by simp [PipelineRecord.fields, toRecord])
  refine Object.mem_entries.mpr ⟨_, hget, ?_⟩
  exact List.mem_map_of_mem (List.mem_map_of_mem (mem_tables.mpr h))

theorem mem_entries_conditionals {c : Conditional} (h : .conditional c ∈ p.nodes)
    (actions : ActionTable) :
    (c.toRecord p).toObject ∈ (p.toRecord actions).toObject.entries "conditionals" := by
  have hget : (p.toRecord actions).toObject.get? "conditionals" =
      some (.array ((p.conditionals.map (Conditional.toRecord p)).map (·.encode))) :=
    PipelineRecord.get?_toObject (by simp [PipelineRecord.fields, toRecord])
  refine Object.mem_entries.mpr ⟨_, hget, ?_⟩
  exact List.mem_map_of_mem (List.mem_map_of_mem (mem_conditionals.mpr h))

end Pipeline

namespace Program

variable {g : Program}

theorem mem_entries_pipelines {P : String} {p : Pipeline} (h : g.pipeline? P = some p) :
    (p.toRecord g.actions).toObject ∈ g.root.entries "pipelines" :=
  Object.mem_entries.mpr
    ⟨_, get?_pipelines g, List.mem_map_of_mem (ObjectMap.mem_of_get? h).1⟩

theorem RetainsArray.keptIn {o : Object} {r : ArrayRecord} (h : g.RetainsArray r)
    (hstray : ¬g.Stray (.array r.identity.name)) (hr : ArrayRecord.decode (.object o) = some r) :
    ∃ o' ∈ g.root.entries "register_arrays", o.KeptIn ArrayRecord.keys ["name", "id"] o' := by
  obtain ⟨a, ha, hidentity, hextra⟩ := h hstray
  refine ⟨a.toRecord.toObject, Object.mem_entries.mpr ⟨_, get?_arrays g, ?_⟩,
    ArrayRecord.keptIn hr hidentity hextra⟩
  exact List.mem_map_of_mem (mem_of_array? ha)

theorem RetainsCalculation.keptIn {o : Object} {r : CalculationRecord}
    (h : g.RetainsCalculation r) (hr : CalculationRecord.decode (.object o) = some r) :
    ∃ o' ∈ g.root.entries "calculations",
      o.KeptIn CalculationRecord.keys ["name", "id", "input"] o' := by
  obtain ⟨c, hc, rfl⟩ := h
  refine ⟨c.toRecord.toObject, Object.mem_entries.mpr ⟨_, get?_calculations g, ?_⟩,
    CalculationRecord.keptIn hr⟩
  exact List.mem_map_of_mem (ObjectMap.mem_of_get? hc).1

theorem RetainsAction.keptIn {o : Object} {r : ActionRecord} (h : g.RetainsAction r)
    (hmax : g.actions.BelowMax) (hr : ActionRecord.decode (.object o) = some r) :
    ∃ o' ∈ g.root.entries "actions",
      o.KeptIn ActionRecord.keys ["name", "id", "primitives"] o' := by
  obtain ⟨a, ha, rfl⟩ := h hmax
  refine ⟨a.toRecord.toObject, Object.mem_entries.mpr ⟨_, get?_actions g, ?_⟩,
    ActionRecord.keptIn hr⟩
  exact List.mem_map_of_mem (List.mem_of_find?_eq_some ha)

/-- What a pipeline has inside is found again where its document lists it. -/
theorem RetainsPipeline.keptIn {gone : Subject → Prop} {o : Object} {r : PipelineRecord}
    (h : g.RetainsPipeline gone r) (hr : PipelineRecord.decode (.object o) = some r) :
    ∃ o' ∈ g.root.entries "pipelines", o.KeptIn PipelineRecord.keys ["name", "id"] o' ∧
      ∀ P, o.get? "name" = some (.string P) → o.NodesKept (fun N => gone (.node P N)) o' := by
  obtain ⟨p, hp, hidentity, hextra⟩ := h.self
  refine ⟨(p.toRecord g.actions).toObject, mem_entries_pipelines hp,
    PipelineRecord.keptIn hr hidentity hextra, fun P hP => ?_⟩
  obtain ⟨_, ⟨rfl⟩, hi, htables, hconditionals, -⟩ := PipelineRecord.decode_eq_some hr
  obtain rfl : r.identity.name = P := Identity.name_eq_of_decode hi hP
  constructor
  case table =>
    intro entry hentry N hN hgone
    obtain ⟨t, ht, hdecode⟩ := Decode.exists_of_mem_entries htables hentry
    obtain ⟨_, ⟨rfl⟩, hit, -⟩ := TableRecord.decode_eq_some hdecode
    obtain rfl : t.identity.name = N := Identity.name_eq_of_decode hit hN
    obtain ⟨t', n, ht', hn, hkeeps⟩ := h.table t ht hgone
    obtain ⟨hrestates, hid⟩ := hkeeps
    cases hrestates with
    | table hrestates =>
      rw [node?_eq hp] at hn
      refine ⟨_, Pipeline.mem_entries_tables (Pipeline.mem_nodes_of_node? hn) g.actions,
        hrestates.tableKept hdecode ht' ?_ p g.actions⟩
      intro key hkey
      exact (List.mem_pair.mp hkey).imp_right fun heq => ⟨heq, hid⟩
  case conditional =>
    intro entry hentry N hN hgone
    obtain ⟨c, hc, hdecode⟩ := Decode.exists_of_mem_entries hconditionals hentry
    obtain ⟨_, ⟨rfl⟩, hic, -⟩ := ConditionalRecord.decode_eq_some hdecode
    obtain rfl : c.identity.name = N := Identity.name_eq_of_decode hic hN
    obtain ⟨c', n, hc', hn, hkeeps⟩ := h.conditional c hc hgone
    obtain ⟨hrestates, hid⟩ := hkeeps
    cases hrestates with
    | conditional hrestates =>
      rw [node?_eq hp] at hn
      refine ⟨_, Pipeline.mem_entries_conditionals (Pipeline.mem_nodes_of_node? hn) g.actions,
        hrestates.conditionalKept hdecode hc' ?_ p⟩
      intro key hkey
      exact (List.mem_pair.mp hkey).imp_right fun heq => ⟨heq, hid⟩

/-- The document of a program keeps the document whose objects the program has, arrays aside whose
names have gone astray. -/
theorem Retains.documentKept {gone : Subject → Prop} {r : Records} {root : Object}
    (h : g.Retains gone r) (hr : r.ReadFrom root) :
    root.DocumentKept g.actions.BelowMax (fun x => gone x ∨ g.Stray x) g.root where
  sections key hkey := by
    rw [get?_root_of_not_mem hkey, h.extra, hr.extra, Object.get?_without hkey]
  array o ho N hN hgone := by
    obtain ⟨a, ha, hdecode⟩ := Loader.exists_of_mem_entries hr.arrays ho
    obtain ⟨_, ⟨rfl⟩, hi, -⟩ := ArrayRecord.decode_eq_some hdecode
    obtain rfl : a.identity.name = N := Identity.name_eq_of_decode hi hN
    obtain ⟨hkept, hstray⟩ := not_or.mp hgone
    exact (h.array a ha hkept).keptIn hstray hdecode
  calculation o ho := by
    obtain ⟨c, hc, hdecode⟩ := Loader.exists_of_mem_entries hr.calculations ho
    exact (h.calculation c hc).keptIn hdecode
  action hmax o ho := by
    obtain ⟨a, ha, hdecode⟩ := Loader.exists_of_mem_entries hr.actions ho
    exact (h.action a ha).keptIn hmax hdecode
  pipeline o ho := by
    obtain ⟨p, hp, hdecode⟩ := Loader.exists_of_mem_entries hr.pipelines ho
    exact ((h.mono fun _ => Or.inl).pipeline p hp).keptIn hdecode

/-! ### One node -/

section

variable {P N : String} {o : Object}

theorem lists_of_pipeline? {p : Pipeline} (hp : g.pipeline? P = some p) {key : String}
    (ho : o ∈ (p.toRecord g.actions).toObject.entries key) : g.root.Lists P key o := by
  refine ⟨_, mem_entries_pipelines hp, ?_, ho⟩
  have hname : ("name", Value.string p.identity.name) ∈
      p.identity.encode ++ (p.toRecord g.actions).fields := by simp [Identity.encode]
  rw [← (ObjectMap.mem_of_get? hp).2]
  exact Record.get?_fields PipelineRecord.nodup_keys (PipelineRecord.keys_fields _) hname

/-- The document of a program lists a table that says again what an entry says. -/
theorem exists_lists_table {r : TableRecord} {t t' : Table}
    (hr : TableRecord.decode (.object o) = some r) (ht : Table.ofRecord r = .ok t)
    (hn : g.node? P N = some (.table t')) (h : t.Restates t') :
    ∃ o', g.root.Lists P "tables" o' ∧ o.TableKept ["name"] o' := by
  obtain ⟨p, hp, hnode⟩ := Option.bind_eq_some_iff.mp hn
  refine ⟨_, lists_of_pipeline? hp (Pipeline.mem_entries_tables
    (Pipeline.mem_nodes_of_node? hnode) g.actions), h.tableKept hr ht ?_ p g.actions⟩
  exact fun key hkey => Or.inl (List.mem_singleton.mp hkey)

theorem exists_lists_conditional {r : ConditionalRecord} {c c' : Conditional}
    (hr : ConditionalRecord.decode (.object o) = some r) (hc : Loader.conditionalOf r = .ok c)
    (hn : g.node? P N = some (.conditional c')) (h : c.Restates c') :
    ∃ o', g.root.Lists P "conditionals" o' ∧ o.ConditionalKept ["name"] o' := by
  obtain ⟨p, hp, hnode⟩ := Option.bind_eq_some_iff.mp hn
  refine ⟨_, lists_of_pipeline? hp (Pipeline.mem_entries_conditionals
    (Pipeline.mem_nodes_of_node? hnode) g.actions), h.conditionalKept hr hc ?_ p⟩
  exact fun key hkey => Or.inl (List.mem_singleton.mp hkey)

variable {records : Records} {root : Object}

/-- An entry that a pipeline of a document lists is listed by the entry that the record of the
pipeline was read from. -/
theorem exists_pipeline_record (hr : records.ReadFrom root) {key : String}
    (ho : root.Lists P key o) : ∃ p ∈ records.pipelines, ∃ entry : Object,
      PipelineRecord.decode (.object entry) = some p ∧ p.identity.name = P ∧
        o ∈ entry.entries key := by
  obtain ⟨entry, hentry, hP, ho⟩ := ho
  obtain ⟨p, hp, hdecode⟩ := Loader.exists_of_mem_entries hr.pipelines hentry
  obtain ⟨_, ⟨rfl⟩, hi, -⟩ := PipelineRecord.decode_eq_some hdecode
  exact ⟨p, hp, entry, hdecode, Identity.name_eq_of_decode hi hP, ho⟩

/-- The table of a loaded program says what the entry of its name says. -/
theorem Retains.exists_record_table (h : g.Retains (fun _ => False) records)
    (hr : records.ReadFrom root) (ho : root.Lists P "tables" o)
    (hN : o.get? "name" = some (.string N)) {t' : Table} (ht' : g.node? P N = some (.table t')) :
    ∃ r t, TableRecord.decode (.object o) = some r ∧ Table.ofRecord r = .ok t ∧
      t.Restates t' := by
  obtain ⟨p, hp, entry, hdecode, rfl, hentry⟩ := exists_pipeline_record hr ho
  obtain ⟨_, ⟨rfl⟩, -, htables, -⟩ := PipelineRecord.decode_eq_some hdecode
  obtain ⟨r, hmem, hdecode'⟩ := Decode.exists_of_mem_entries htables hentry
  obtain ⟨_, ⟨rfl⟩, hi, -⟩ := TableRecord.decode_eq_some hdecode'
  obtain rfl : r.identity.name = N := Identity.name_eq_of_decode hi hN
  obtain ⟨t, n, ht, hn, hkeeps⟩ := (h.pipeline p hp).table r hmem id
  rw [ht', Option.some.injEq] at hn
  subst hn
  cases hkeeps.restates with
  | table hrestates => exact ⟨r, t, hdecode', ht, hrestates⟩

theorem Retains.exists_record_conditional (h : g.Retains (fun _ => False) records)
    (hr : records.ReadFrom root) (ho : root.Lists P "conditionals" o)
    (hN : o.get? "name" = some (.string N)) {c' : Conditional}
    (hc' : g.node? P N = some (.conditional c')) :
    ∃ r c, ConditionalRecord.decode (.object o) = some r ∧ Loader.conditionalOf r = .ok c ∧
      c.Restates c' := by
  obtain ⟨p, hp, entry, hdecode, rfl, hentry⟩ := exists_pipeline_record hr ho
  obtain ⟨_, ⟨rfl⟩, -, -, hconditionals, -⟩ := PipelineRecord.decode_eq_some hdecode
  obtain ⟨r, hmem, hdecode'⟩ := Decode.exists_of_mem_entries hconditionals hentry
  obtain ⟨_, ⟨rfl⟩, hi, -⟩ := ConditionalRecord.decode_eq_some hdecode'
  obtain rfl : r.identity.name = N := Identity.name_eq_of_decode hi hN
  obtain ⟨c, n, hc, hn, hkeeps⟩ := (h.pipeline p hp).conditional r hmem id
  rw [hc', Option.some.injEq] at hn
  subst hn
  cases hkeeps.restates with
  | conditional hrestates => exact ⟨r, c, hdecode', hc, hrestates⟩

end

end Program

end LiveSwitch
