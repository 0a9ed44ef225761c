import LiveSwitch.Proofs.Document.Determined
import LiveSwitch.Proofs.Document.Shuffled

/-!
# The order of entries does not matter

A loader takes the entries of a section one after the other, so a document that lists them in
another order makes it take other steps.  Any two of these steps may be exchanged: loaders that
differ in the storages of arrays, the slots of nodes and the counters only are led to such loaders
again.  As these do not show in the document of a program, and a loaded program is determined by its
document, the order of the entries shows nowhere, but in the counters once they have come round.

## Main definitions

* `Loader.Alike` — loaders that differ in storages, slots and counters only.
* `Loader.Exchanges` — an addition whose steps may be exchanged.

## Main results

* `Loader.exchanges_addArray`, `exchanges_addCalculation`, `exchanges_addAction`,
  `exchanges_addPipeline` — the additions of a loader.
* `Program.order_irrelevant` — documents that list the same entries are loaded alike.
* `Program.order_changes_next_id` — a next id that depends on the order.
-/

namespace LiveSwitch

open Json

namespace ActionTable

variable {t t' t₁ t₂ : ActionTable} {a b : Action}

/-- Only the actions of a table decide about one more. -/
theorem insert_congr (h : t'.actions = t.actions) (ha : t.insert a = .ok t₁) :
    ∃ t₁', t'.insert a = .ok t₁' ∧ t₁'.actions = t₁.actions := by
  obtain ⟨hnone, rfl⟩ := insert_eq_ok.mp ha
  refine ⟨_, insert_eq_ok.mpr ⟨?_, rfl⟩, congrArg (ObjectMap.place a) h⟩
  rwa [get?, h]

/-- Actions may be inserted in any order. -/
theorem insert_comm (ha : t.insert a = .ok t₁) (hb : t₁.insert b = .ok t₂) :
    ∃ t₁' t₂', t.insert b = .ok t₁' ∧ t₁'.insert a = .ok t₂' ∧ t₂'.actions = t₂.actions := by
  obtain ⟨hnone, rfl⟩ := insert_eq_ok.mp ha
  obtain ⟨hnone', rfl⟩ := insert_eq_ok.mp hb
  have hfree : ∀ {u : ActionTable} {id : Int}, u.get? id = none ↔ ∀ c ∈ u.actions, idOf c ≠ id := by
    intro u id
    simp [get?, List.find?_eq_none, idOf, Named.identity]
  rw [hfree] at hnone hnone'
  have hab : idOf a ≠ idOf b := hnone' a (ObjectMap.mem_place.mpr (Or.inl rfl))
  refine ⟨_, _, insert_eq_ok.mpr ⟨hfree.mpr fun c hc => ?_, rfl⟩,
    insert_eq_ok.mpr ⟨hfree.mpr fun c hc => ?_, rfl⟩, ?_⟩
  · exact hnone' c (ObjectMap.mem_place.mpr (Or.inr hc))
  · rcases ObjectMap.mem_place.mp hc with rfl | hc
    · exact hab.symm
    · exact hnone c hc
  · exact ObjectMap.place_comm hab t.actions

end ActionTable

/-- Records show the actions of a program and not their counter. -/
theorem Pipeline.toRecord_congr {t t' : ActionTable} (h : t'.actions = t.actions) (p : Pipeline) :
    p.toRecord t' = p.toRecord t := by
  obtain ⟨actions, ids⟩ := t
  obtain ⟨actions', ids'⟩ := t'
  cases h
  rfl

/-- Arrays that differ in their contents only. -/
def RegisterArray.Alike (a a' : RegisterArray) : Prop := a'.toRecord = a.toRecord

theorem RegisterArray.Alike.refl (a : RegisterArray) : a.Alike a := rfl

namespace Loader

variable {l l' m : Loader}

/-! ### Loaders that are alike -/

/-- Loaders that differ in the storages of arrays, in the slots of nodes and in counters only. -/
structure Alike (l l' : Loader) : Prop where
  layout : l'.program.layout = l.program.layout
  calculations : l.program.calculations.Like Eq l'.program.calculations
  actions : l'.program.actions.actions = l.program.actions.actions
  arrays : l.program.arrays.Like RegisterArray.Alike l'.program.arrays
  pipelines : l.program.pipelines.Like (fun p p' => ∃ σ, p.Reslotted σ p') l'.program.pipelines
  tableIds : ∀ id, id ∈ l'.tableIds ↔ id ∈ l.tableIds
  conditionalIds : ∀ id, id ∈ l'.conditionalIds ↔ id ∈ l.conditionalIds

namespace Alike

theorem refl (l : Loader) : l.Alike l where
  layout := rfl
  calculations := .refl (fun _ => rfl) _
  actions := rfl
  arrays := .refl RegisterArray.Alike.refl _
  pipelines := .refl (fun p => ⟨_, .refl p⟩) _
  tableIds _ := Iff.rfl
  conditionalIds _ := Iff.rfl

theorem trans (h : l.Alike l') (h' : l'.Alike m) : l.Alike m where
  layout := h'.layout.trans h.layout
  calculations := h.calculations.trans (fun hab hbc => hab.trans hbc) h'.calculations
  actions := h'.actions.trans h.actions
  arrays := h.arrays.trans (fun hab hbc => hbc.trans hab) h'.arrays
  pipelines := h.pipelines.trans (fun ⟨_, hσ⟩ ⟨_, hτ⟩ => ⟨_, hσ.trans hτ⟩) h'.pipelines
  tableIds id := (h'.tableIds id).trans (h.tableIds id)
  conditionalIds id := (h'.conditionalIds id).trans (h.conditionalIds id)

end Alike

/-- An addition leads from loaders that are alike to loaders that are alike, by records that are
related; and any two additions may be exchanged. -/
structure Exchanges {α : Type} (add : Loader → α → Except LoadError Loader) (B : α → α → Prop) :
    Prop where
  refl : ∀ r, B r r
  step : ∀ {l l' m : Loader} {r r' : α}, l.Alike l' → B r r' → add l r = .ok m →
    ∃ m', add l' r' = .ok m' ∧ m.Alike m'
  swap : ∀ {l m u : Loader} {a b : α}, add l a = .ok m → add m b = .ok u →
    ∃ m' u', add l b = .ok m' ∧ add m' a = .ok u' ∧ u.Alike u'

/-- Records may be added in any order. -/
theorem Exchanges.foldlM {α : Type} {add : Loader → α → Except LoadError Loader}
    {B : α → α → Prop} (hadd : Exchanges add B) {records records' : List α}
    (hrecords : LiveSwitch.Shuffled B records records') (h : l.Alike l')
    (hl : records.foldlM add l = .ok m) : ∃ m', records'.foldlM add l' = .ok m' ∧ m.Alike m' := by
  obtain ⟨mid, hperm, hrel⟩ := hrecords
  obtain ⟨u, hu, hmu⟩ := foldlM_perm (f := add) (R := Alike) (S := fun _ _ => True)
    (fun _ => trivial) (fun _ => .refl _) Alike.trans
    (fun hs hstep => hadd.step hs (hadd.refl _) hstep) (fun _ _ => hadd.swap) hperm
    (List.pairwise_of_forall fun _ _ => trivial) (.refl l) hl
  obtain ⟨m', hm', hum'⟩ := foldlM_forall₂ hadd.step hrel h hu
  exact ⟨m', hm', hmu.trans hum'⟩

/-! ### The additions -/

/-- A new array is the same in any store, but for its storage. -/
theorem alike_zeros (r : ArrayRecord) (s s' : Store) :
    (RegisterArray.zeros r.identity r.size r.bitwidth r.extra s).1.Alike
      (RegisterArray.zeros r.identity r.size r.bitwidth r.extra s').1 := rfl

theorem exchanges_addArray : Exchanges addArray Eq where
  refl _ := rfl
  step {l l' m r _} h hr hadd := by
    subst hr
    obtain ⟨arrays, hsize, hwidth, hins, rfl⟩ := addArray_eq_ok.mp hadd
    obtain ⟨arrays', hins', hlike⟩ := h.arrays.insert (fun hab => congrArg ArrayRecord.identity hab)
      (alike_zeros r l.store l'.store) hins
    exact ⟨_, addArray_eq_ok.mpr ⟨arrays', hsize, hwidth, hins', rfl⟩, { h with arrays := hlike }⟩
  swap {l m u a b} ha hb := by
    obtain ⟨arrays₁, hsize, hwidth, hins₁, rfl⟩ := addArray_eq_ok.mp ha
    obtain ⟨arrays₂, hsize', hwidth', hins₂, rfl⟩ := addArray_eq_ok.mp hb
    -- the arrays change places with their storages, then each takes the storage of the other
    obtain ⟨arrays₃, arrays₄, hins₃, hins₄, hswapped⟩ := ObjectMap.insert_comm hins₁ hins₂
    obtain ⟨arrays₅, hins₅, hlike⟩ := (Alike.refl l).arrays.insert
      (fun hab => congrArg ArrayRecord.identity hab) (alike_zeros b _ l.store) hins₃
    obtain ⟨arrays₆, hins₆, hlike'⟩ := hlike.insert
      (fun hab => congrArg ArrayRecord.identity hab)
      (alike_zeros a _ (l.store.add (.zeros b.size b.bitwidth))) hins₄
    exact ⟨_, _, addArray_eq_ok.mpr ⟨_, hsize', hwidth', hins₅, rfl⟩,
      addArray_eq_ok.mpr ⟨_, hsize, hwidth, hins₆, rfl⟩,
      { Alike.refl { l with program := { l.program with arrays := arrays₂ } } with
        arrays := (hswapped.mono fun hab => hab ▸ .refl _).trans (fun hab hbc => hbc.trans hab)
          hlike' }⟩

theorem exchanges_addCalculation : Exchanges addCalculation Eq where
  refl _ := rfl
  step h hr hadd := by
    subst hr
    obtain ⟨c, calculations, hc, hins, rfl⟩ := addCalculation_eq_ok.mp hadd
    rw [← h.layout] at hc
    obtain ⟨calculations', hins', hlike⟩ :=
      h.calculations.insert (fun hab => congrArg Calculation.identity hab.symm) rfl hins
    exact ⟨_, addCalculation_eq_ok.mpr ⟨c, calculations', hc, hins', rfl⟩,
      { h with calculations := hlike }⟩
  swap {l m u a b} ha hb := by
    obtain ⟨c, calculations₁, hc, hins₁, rfl⟩ := addCalculation_eq_ok.mp ha
    obtain ⟨d, calculations₂, hd, hins₂, rfl⟩ := addCalculation_eq_ok.mp hb
    obtain ⟨calculations₃, calculations₄, hins₃, hins₄, hswapped⟩ :=
      ObjectMap.insert_comm hins₁ hins₂
    exact ⟨_, _, addCalculation_eq_ok.mpr ⟨d, _, hd, hins₃, rfl⟩,
      addCalculation_eq_ok.mpr ⟨c, _, hc, hins₄, rfl⟩,
      { Alike.refl { l with program := { l.program with calculations := calculations₂ } } with
        calculations := hswapped }⟩

theorem exchanges_addAction : Exchanges addAction Eq where
  refl _ := rfl
  step h hr hadd := by
    subst hr
    obtain ⟨a, actions, ha, hins, rfl⟩ := addAction_eq_ok.mp hadd
    obtain ⟨actions', hins', hactions⟩ := ActionTable.insert_congr h.actions hins
    exact ⟨_, addAction_eq_ok.mpr ⟨a, actions', ha, hins', rfl⟩, { h with actions := hactions }⟩
  swap {l m u a b} ha hb := by
    obtain ⟨c, actions₁, hc, hins₁, rfl⟩ := addAction_eq_ok.mp ha
    obtain ⟨d, actions₂, hd, hins₂, rfl⟩ := addAction_eq_ok.mp hb
    obtain ⟨actions₃, actions₄, hins₃, hins₄, hactions⟩ := ActionTable.insert_comm hins₁ hins₂
    exact ⟨_, _, addAction_eq_ok.mpr ⟨d, _, hd, hins₃, rfl⟩,
      addAction_eq_ok.mpr ⟨c, _, hc, hins₄, rfl⟩,
      { Alike.refl { l with program := { l.program with actions := actions₂ } } with
        actions := hactions }⟩

/-- A pipeline of the same nodes joins in any order of these. -/
theorem Alike.join (h : l.Alike l') {r r' : PipelineRecord} (hr : r.Shuffled r')
    {pipelines pipelines' : ObjectMap Pipeline}
    (hlike : pipelines.Like (fun p p' => ∃ σ, p.Reslotted σ p') pipelines') :
    (l.join r pipelines).Alike (l'.join r' pipelines') where
  layout := h.layout
  calculations := h.calculations
  actions := h.actions
  arrays := h.arrays
  pipelines := hlike
  tableIds id := by
    show id ∈ List.reverse _ ++ l'.tableIds ↔ id ∈ List.reverse _ ++ l.tableIds
    rw [List.mem_append, List.mem_append, List.mem_reverse, List.mem_reverse, h.tableIds,
      (hr.tables.map _).mem_iff]
  conditionalIds id := by
    show id ∈ List.reverse _ ++ l'.conditionalIds ↔ id ∈ List.reverse _ ++ l.conditionalIds
    rw [List.mem_append, List.mem_append, List.mem_reverse, List.mem_reverse, h.conditionalIds,
      (hr.conditionals.map _).mem_iff]

/-- Two pipelines join in any order. -/
theorem alike_join_join (l : Loader) (a b : PipelineRecord)
    (before before' : ObjectMap Pipeline) {pipelines pipelines' : ObjectMap Pipeline}
    (h : pipelines.Like Eq pipelines') :
    ((l.join a before).join b pipelines).Alike ((l.join b before').join a pipelines') :=
  { Alike.refl { l with program := { l.program with pipelines } } with
    pipelines := h.mono fun hab => hab ▸ ⟨_, .refl _⟩
    tableIds := fun id => by
      show id ∈ _ ++ (_ ++ l.tableIds) ↔ id ∈ _ ++ (_ ++ l.tableIds)
      rw [List.mem_append, List.mem_append, List.mem_append, List.mem_append, or_left_comm]
    conditionalIds := fun id => by
      show id ∈ _ ++ (_ ++ l.conditionalIds) ↔ id ∈ _ ++ (_ ++ l.conditionalIds)
      rw [List.mem_append, List.mem_append, List.mem_append, List.mem_append, or_left_comm] }

theorem exchanges_addPipeline : Exchanges addPipeline PipelineRecord.Shuffled where
  refl r := ⟨rfl, rfl, rfl, .refl _, .refl _⟩
  step {l l' m r r'} h hr hadd := by
    obtain ⟨p, pipelines, hp, hnew, hnew', hins, rfl⟩ := addPipeline_iff.mp hadd
    rw [assemble_congr h.actions.symm] at hp
    -- the ids of the nodes are new in any order, and the order of the nodes shows in slots only
    obtain ⟨p', hp', hσ⟩ := assemble_shuffled hr hp
    obtain ⟨pipelines', hins', hlike⟩ :=
      h.pipelines.insert (fun ⟨_, hσ⟩ => hσ.identity) hσ hins
    exact ⟨_, addPipeline_iff.mpr ⟨p', pipelines', hp', hnew.perm h.tableIds (hr.tables.map _),
      hnew'.perm h.conditionalIds (hr.conditionals.map _), hins', rfl⟩, h.join hr hlike⟩
  swap {l m u a b} ha hb := by
    obtain ⟨p, before, hp, hnew, hnew', hins, rfl⟩ := addPipeline_iff.mp ha
    obtain ⟨q, pipelines, hq, hnew₁, hnew₁', hins', rfl⟩ := addPipeline_iff.mp hb
    obtain ⟨before', pipelines', hins₂, hins₂', hswapped⟩ := ObjectMap.insert_comm hins hins'
    obtain ⟨hnew₂, hnew₃⟩ := hnew.swap hnew₁
    obtain ⟨hnew₂', hnew₃'⟩ := hnew'.swap hnew₁'
    exact ⟨_, _, addPipeline_iff.mpr ⟨q, before', hq, hnew₂, hnew₂', hins₂, rfl⟩,
      addPipeline_iff.mpr ⟨p, pipelines', hp, hnew₃, hnew₃', hins₂', rfl⟩,
      alike_join_join l a b before before' hswapped⟩

/-- Programs whose loaders were alike have the same records. -/
theorem Alike.records (h : l.Alike l') {extra : Object}
    (hl : Program.Sound { l.program with extra })
    (hids : UniqueIds (Program.HasNode { l.program with extra }))
    (hl' : Program.Sound { l'.program with extra })
    (hids' : UniqueIds (Program.HasNode { l'.program with extra })) :
    Program.records { l'.program with extra } = Program.records { l.program with extra } := by
  have harrays : l'.program.arrays.objects.map RegisterArray.toRecord =
      l.program.arrays.objects.map RegisterArray.toRecord :=
    map_eq_map_of_forall₂ h.arrays.objects fun _ _ hab => hab
  have hcalculations : l'.program.calculations.objects = l.program.calculations.objects :=
    (List.forall₂_eq_eq_eq ▸ h.calculations.objects).symm
  have hpipelines : l'.program.pipelines.objects.map (Pipeline.toRecord l'.program.actions) =
      l.program.pipelines.objects.map (Pipeline.toRecord l.program.actions) := by
    have hboth := (List.forall₂_and_left _ _).mpr ⟨fun q hq => hq, h.pipelines.objects.flip⟩
    have hboth' := (List.forall₂_and_left _ _).mpr ⟨fun q hq => hq, hboth.flip⟩
    refine map_eq_map_of_forall₂ hboth' ?_
    rintro p p' ⟨hp, hp', σ, hσ⟩
    rw [Pipeline.toRecord_congr h.actions]
    exact hσ.toRecord _ (hσ.tables (hl.pairwise_tables hids hp) (hl'.pairwise_tables hids' hp'))
      (hσ.conditionals (hl.pairwise_conditionals hids hp) (hl'.pairwise_conditionals hids' hp'))
  simp only [Program.records, h.actions, hcalculations, harrays, hpipelines]

end Loader

namespace Program

/-! ### Documents -/

theorem SectionShuffled.refl (key : String) (v : Value) : SectionShuffled key v v := by
  unfold SectionShuffled
  split_ifs
  · exact .refl v
  · exact .refl v
  · rfl

theorem eq_of_sectionShuffled {key : String} (hkey : key ∉ sectionKeys) {v v' : Value}
    (h : SectionShuffled key v v') : v = v' := by
  rw [SectionShuffled, if_neg, if_neg] at h
  · exact h
  · rintro rfl
    exact hkey (by decide)
  · intro hmem
    exact hkey (List.mem_append_left ["pipelines"] hmem)

open Loader in
/-- A document that lists the entries of another one is loaded into a program with the same
records. -/
theorem ofDocument_shuffled {v v' : Value} (h : DocumentShuffled v v') {s₀ s : Store} {g : Program}
    (hv : ofDocument s₀ v = .ok (g, s)) (s₀' : Store) :
    ∃ g' s', ofDocument s₀' v' = .ok (g', s') ∧ g'.records = g.records := by
  have hsound := sound_ofDocument hv
  have hids := (nodeIds_ofDocument hv).1
  obtain ⟨root, layout, arrays, calculations, actions, pipelines, l₁, l₂, l₃, l₄, hroot, hlayout,
    ha, hc, hact, hp, h₁, h₂, h₃, h₄, rfl, rfl⟩ := ofDocument_eq_ok.mp hv
  obtain ⟨root', hroot', hfields⟩ := h.exists_fields SectionShuffled.refl hroot
  have hget : ∀ {key}, key ∉ sectionKeys → root.get? key = root'.get? key :=
    fun hkey => Object.get?_eq hfields (eq_of_sectionShuffled hkey)
  have hextra : root.without sectionKeys = root'.without sectionKeys :=
    Object.without_eq hfields fun hkey => eq_of_sectionShuffled hkey
  rw [hget (by decide), hget (by decide)] at hlayout
  -- each section has the same records in another order
  have hread : ∀ {α : Type} {d : Decoder α} (v v' r), v = v' → d v = some r →
      ∃ r', d v' = some r' ∧ r = r' := fun _ _ r heq hr => ⟨r, heq ▸ hr, rfl⟩
  obtain ⟨arrays', ha', harrays⟩ := recordsOf_shuffled hread (fun _ => rfl)
    (Object.rel_get? hfields "register_arrays") ha
  obtain ⟨calculations', hc', hcalculations⟩ := recordsOf_shuffled hread (fun _ => rfl)
    (Object.rel_get? hfields "calculations") hc
  obtain ⟨actions', hact', hactions⟩ := recordsOf_shuffled hread (fun _ => rfl)
    (Object.rel_get? hfields "actions") hact
  obtain ⟨pipelines', hp', hpipelines⟩ := recordsOf_shuffled
    (fun _ _ _ hA hr => PipelineRecord.decode_shuffled hA hr) exchanges_addPipeline.refl
    (Object.rel_get? hfields "pipelines") hp
  -- so each fold leads to a loader like that of the other document
  have hstart :
      Alike { program := { layout }, store := s₀ } { program := { layout }, store := s₀' } :=
    { Alike.refl { program := { layout }, store := s₀ } with }
  obtain ⟨m₁, hm₁, halike₁⟩ := exchanges_addArray.foldlM harrays hstart h₁
  obtain ⟨m₂, hm₂, halike₂⟩ := exchanges_addCalculation.foldlM hcalculations halike₁ h₂
  obtain ⟨m₃, hm₃, halike₃⟩ := exchanges_addAction.foldlM hactions halike₂ h₃
  obtain ⟨m₄, hm₄, halike₄⟩ := exchanges_addPipeline.foldlM hpipelines halike₃ h₄
  have hload : ofDocument s₀' v' =
      .ok ({ m₄.program with extra := root'.without sectionKeys }, m₄.store) :=
    ofDocument_eq_ok.mpr ⟨root', layout, arrays', calculations', actions', pipelines', m₁, m₂, m₃,
      m₄, hroot', hlayout, ha', hc', hact', hp', hm₁, hm₂, hm₃, hm₄, rfl, rfl⟩
  have hsound' := sound_ofDocument hload
  have hids' := (nodeIds_ofDocument hload).1
  rw [← hextra] at hsound' hids' hload
  exact ⟨_, _, hload, halike₄.records hsound hids hsound' hids'⟩

theorem DocumentShuffled.symm {v v' : Value} (h : DocumentShuffled v v') :
    DocumentShuffled v' v := by
  have hentry : ∀ {w w'},
      PipelineRecord.EntryShuffled w w' → PipelineRecord.EntryShuffled w' w := by
    refine Value.FieldsRelated.symm fun {key w w'} hw => ?_
    unfold PipelineRecord.FieldShuffled at hw ⊢
    split_ifs at hw ⊢
    · exact hw.symm Eq.symm
    · exact hw.symm
  refine Value.FieldsRelated.symm (fun {key w w'} hw => ?_) h
  unfold SectionShuffled at hw ⊢
  split_ifs at hw ⊢
  · exact hw.symm Eq.symm
  · exact hw.symm hentry
  · exact hw.symm

/-- The order in which a document lists its entries does not matter: documents that list the same
register arrays, calculations, actions and pipelines, and in each pipeline the same tables and
conditionals, are both accepted or both refused, over whatever stores; and then the programs are
written as the same document, give the same next id to each kind of which no object has the largest
id, and do the same to every sequence of packets: each packet takes the same path or fails the same
way and comes out the same, and the arrays show the same in the end. -/
theorem order_irrelevant {v v' : Value} (h : DocumentShuffled v v') (s₀ s₀' : Store) :
    ((∃ x, ofDocument s₀ v = .ok x) ↔ ∃ x, ofDocument s₀' v' = .ok x) ∧
      ∀ g s g' s', ofDocument s₀ v = .ok (g, s) → ofDocument s₀' v' = .ok (g', s') →
        g'.document = g.document ∧
        (∀ kind, (∀ id ∈ g.idsInUse kind, id < maxId) → g'.nextId kind = g.nextId kind) ∧
        ∀ packets, (g'.feed s' packets).1 = (g.feed s packets).1 ∧
          ∀ name, g'.cells? (g'.feed s' packets).2 name = g.cells? (g.feed s packets).2 name := by
  refine ⟨⟨?_, ?_⟩, fun g s g' s' hv hv' => ?_⟩
  · rintro ⟨⟨g, s⟩, hv⟩
    obtain ⟨g', s', hv', -⟩ := ofDocument_shuffled h hv s₀'
    exact ⟨_, hv'⟩
  · rintro ⟨⟨g, s⟩, hv⟩
    obtain ⟨g', s', hv', -⟩ := ofDocument_shuffled h.symm hv s₀
    exact ⟨_, hv'⟩
  · obtain ⟨g₁, s₁, hload, hrecords⟩ := ofDocument_shuffled h hv s₀'
    rw [hv'] at hload
    cases hload
    have hloaded := loaded_ofDocument hv
    have hloaded' := loaded_ofDocument hv'
    have hmirrors := hloaded'.mirrors hloaded (ofDocument_fresh hv') (ofDocument_fresh hv) hrecords
    have hcells := hmirrors.sameCells (ofDocument_fresh hv') (ofDocument_fresh hv)
    refine ⟨?_, fun kind hmax => (hloaded.nextId_eq hloaded' hrecords.symm hmax).symm,
      fun packets => ?_⟩
    · rw [document_eq, document_eq, hrecords]
    · obtain ⟨houtcomes, hend⟩ := hmirrors.feed hcells packets
      exact ⟨houtcomes, hmirrors.cells?_eq hend⟩

/-- The entry of an array of one cell. -/
def listedArray (name : String) (id : Int) : Value :=
  .object [("bitwidth", .ofNat 8), ("id", .ofInt id), ("name", .string name), ("size", .ofNat 1)]

/-- The entry of a table that runs the action with the id 0. -/
def listedTable (name : String) (id : Int) (next? : Option String) : Value :=
  .object [("action_ids", .array [.ofInt 0]), ("base_default_next", nameOrNull next?),
    ("default_entry", PipelineBuilder.defaultEntry 0), ("id", .ofInt id), ("name", .string name)]

/-- The entry of a pipeline that starts at the table `b`. -/
def listedPipeline (tables : List Value) : Value :=
  .object [("id", .ofInt 0), ("init_table", .string "b"), ("name", .string "p"),
    ("tables", .array tables)]

/-- A document that lists arrays and the tables of its pipeline in given orders; its action writes
to the array `hits`. -/
def listing (arrays tables : List Value) : Value :=
  let write := Operand.primitive "register_write"
    [Operand.array "hits", Operand.constant 0, Operand.constant 7]
  .object [("actions", .array [.object [("id", .ofInt 0), ("name", .string "tally"),
      ("primitives", .array [write])]]),
    ("header_types", .array []), ("headers", .array []),
    ("pipelines", .array [listedPipeline tables]), ("register_arrays", .array arrays)]

theorem documentShuffled_listing {arrays arrays' tables tables' : List Value}
    (harrays : arrays.Perm arrays') (htables : tables.Perm tables') :
    DocumentShuffled (listing arrays tables) (listing arrays' tables') := by
  have hpipeline : PipelineRecord.EntryShuffled (listedPipeline tables) (listedPipeline tables') :=
    .object (.cons ⟨rfl, rfl⟩ (.cons ⟨rfl, rfl⟩ (.cons ⟨rfl, rfl⟩
      (.cons ⟨rfl, Value.ItemsShuffled.array (.of_perm htables)⟩ .nil))))
  exact .object (.cons ⟨rfl, .refl _ _⟩ (.cons ⟨rfl, .refl _ _⟩ (.cons ⟨rfl, .refl _ _⟩
    (.cons ⟨rfl, Value.ItemsShuffled.array ⟨_, .refl _, .cons hpipeline .nil⟩⟩
      (.cons ⟨rfl, Value.ItemsShuffled.array (.of_perm harrays)⟩ .nil)))))

/-- Arrays and tables in the other order get other storages and slots, and all else is the
same. -/
theorem reversed_order_irrelevant :
    let hits := listedArray "hits" 0
    let misses := listedArray "misses" 1
    let a := listedTable "a" 0 none
    let b := listedTable "b" 1 (some "a")
    ∃ g s g' s', ofDocument {} (listing [hits, misses] [a, b]) = .ok (g, s) ∧
      ofDocument {} (listing [misses, hits] [b, a]) = .ok (g', s') ∧
      g.nodes.map Node.name = ["a", "b"] ∧ g'.nodes.map Node.name = ["b", "a"] ∧
      g'.document = g.document ∧ (∀ kind, g'.nextId kind = g.nextId kind) ∧
      (g'.feed s' [{}]).1.map (fun x => (x.1.toOption, x.2)) =
        [(some [.table "b" false, .table "a" false], {})] ∧
      g'.cells? (g'.feed s' [{}]).2 "hits" = some [7] := by
  intro hits misses a b
  have hnodes : ((ofDocument {} (listing [hits, misses] [a, b])).toOption.map fun x =>
      (x.1.nodes.map Node.name, decide x.1.BelowMax)) = some (["a", "b"], true) := by
    decide +kernel
  have hnodes' : ((ofDocument {} (listing [misses, hits] [b, a])).toOption.map fun x =>
      x.1.nodes.map Node.name) = some ["b", "a"] := by decide +kernel
  have hrun : ((ofDocument {} (listing [hits, misses] [a, b])).toOption.map fun x =>
      ((x.1.feed x.2 [{}]).1.map (fun x => (x.1.toOption, x.2)),
        x.1.cells? (x.1.feed x.2 [{}]).2 "hits")) =
      some ([(some [.table "b" false, .table "a" false], {})], some [7]) := by decide +kernel
  obtain ⟨haccepted, hsame⟩ := order_irrelevant
    (documentShuffled_listing (.swap misses hits []) (.swap b a [])) {} {}
  cases h : ofDocument {} (listing [hits, misses] [a, b]) with
  | error e => rw [h] at hnodes; cases hnodes
  | ok x =>
    obtain ⟨g, s⟩ := x
    obtain ⟨⟨g', s'⟩, h'⟩ := haccepted.mp ⟨_, h⟩
    rw [h, Except.toOption, Option.map_some, Option.some.injEq] at hnodes hrun
    obtain ⟨hnodes, hbelow⟩ := Prod.mk.inj hnodes
    have hmax := of_decide_eq_true hbelow
    rw [h', Except.toOption, Option.map_some, Option.some.injEq] at hnodes'
    obtain ⟨houtcomes, hcells⟩ := Prod.mk.inj hrun
    obtain ⟨hdocument, hids, hfeed⟩ := hsame g s g' s' h h'
    obtain ⟨houtcomes', hcells'⟩ := hfeed [{}]
    exact ⟨g, s, g', s', rfl, h', hnodes, hnodes', hdocument,
      fun kind => hids kind (hmax kind),
      by rw [houtcomes', houtcomes], by rw [hcells', hcells]⟩

/-- The counter follows the largest id when that is listed last, and a smaller id listed after it
when not. -/
theorem order_changes_next_id :
    let hits := listedArray "hits" maxId
    let misses := listedArray "misses" 5
    let b := listedTable "b" 0 none
    DocumentShuffled (listing [hits, misses] [b]) (listing [misses, hits] [b]) ∧
    ∃ g s g' s', ofDocument {} (listing [hits, misses] [b]) = .ok (g, s) ∧
      ofDocument {} (listing [misses, hits] [b]) = .ok (g', s') ∧
      g.nextId .registerArray = 6 ∧ g'.nextId .registerArray = minId := by
  intro hits misses b
  have hnext : (ofDocument {} (listing [hits, misses] [b])).toOption.any (fun x =>
      x.1.nextId .registerArray == 6) = true := by decide +kernel
  have hnext' : (ofDocument {} (listing [misses, hits] [b])).toOption.any (fun x =>
      x.1.nextId .registerArray == minId) = true := by decide +kernel
  obtain ⟨⟨g, s⟩, hg, hnext⟩ := exists_of_any_toOption hnext
  obtain ⟨⟨g', s'⟩, hg', hnext'⟩ := exists_of_any_toOption hnext'
  exact ⟨documentShuffled_listing (.swap misses hits []) (.refl _), g, s, g', s', hg, hg',
    beq_iff_eq.mp hnext, beq_iff_eq.mp hnext'⟩

end Program

end LiveSwitch
