import LiveSwitch.Proofs.Program.Sound
import LiveSwitch.Proofs.Register.Rehash

/-!
# Edits keep programs sound

A new conditional or table takes its definition from a sound donor, and with a table come its
actions and the calculations that they use, all under new ids.  Register arrays get sizes and
widths that lines of a plan can give.

## Main results

* `Program.Sound.adoptActions` — copies of the actions of a sound donor.
* `Edit.sound_run` — every edit keeps a program sound.
-/

namespace LiveSwitch

namespace ActionTable

theorem isSome_get?_iff {t : ActionTable} {id : Int} :
    (t.get? id).isSome ↔ ∃ a ∈ t.actions, idOf a = id := by
  rw [get?, List.find?_isSome]
  simp only [beq_iff_eq]
  rfl

/-- A copy of an action is added, and an action that has its id leaves. -/
theorem mem_insertCopy {t : ActionTable} {a b : Action} : b ∈ (t.insertCopy a).actions ↔
    b = a.withId t.ids.next ∨ b ∈ t.actions ∧ idOf b ≠ t.ids.next := by
  rw [insertCopy, ObjectMap.mem_place, List.mem_filter, bne_iff_ne]

/-- If no action has the largest id after a copy, none had it before, and the copy does not. -/
theorem lt_of_insertCopy {t : ActionTable} {a : Action}
    (h : (t.insertCopy a).BelowMax) : t.ids.next < maxId ∧ t.BelowMax := by
  have hnext : t.ids.next < maxId := h _ (mem_insertCopy.mpr (Or.inl rfl))
  refine ⟨hnext, fun b hb => ?_⟩
  by_cases hid : idOf b = t.ids.next
  · rw [hid]
    exact hnext
  · exact h b (mem_insertCopy.mpr (Or.inr ⟨hb, hid⟩))

theorem Counted.insertCopy {t : ActionTable} (h : t.Counted) (a : Action) :
    (t.insertCopy a).Counted := by
  intro hmax b hb
  obtain ⟨hnext, hold⟩ := lt_of_insertCopy hmax
  have hbump : (t.insertCopy a).ids.next = t.ids.next + 1 := IdCounter.following_of_lt hnext
  rw [hbump]
  rcases mem_insertCopy.mp hb with rfl | ⟨hb, -⟩
  · exact Int.lt_succ _
  · exact Int.lt_trans (h hold b hb) (Int.lt_succ _)

/-- A copy is found under the id that was the next one, and the other actions as before. -/
theorem get?_insertCopy (t : ActionTable) (a : Action) (id : Int) :
    (t.insertCopy a).get? id = if id = t.nextId then some (a.withId id) else t.get? id := by
  let hasId (b : Action) : Bool := b.identity.id == id
  show (ObjectMap.place (a.withId t.nextId) (t.actions.filter fun b => idOf b != t.nextId)).find?
    hasId = _
  split
  case isTrue hid =>
    subst hid
    have hnew : hasId (a.withId t.nextId) = true := beq_self_eq_true t.nextId
    refine ObjectMap.find?_place_of_true hnew ?_
    refine List.find?_eq_none.mpr fun b hb heq => ?_
    exact bne_iff_ne.mp (List.mem_filter.mp hb).2 (beq_iff_eq.mp heq)
  case isFalse hid =>
    have hnew : hasId (a.withId t.nextId) = false := beq_eq_false_iff_ne.mpr (Ne.symm hid)
    rw [ObjectMap.find?_place_of_false hnew, List.find?_filter]
    refine List.find?_congr fun b _ => ?_
    -- an action that leaves has the next id, which is not looked for
    show decide ((idOf b != t.nextId) = true ∧ hasId b = true) = hasId b
    by_cases hb : idOf b = t.nextId
    · have hne : hasId b = false := beq_eq_false_iff_ne.mpr fun heq => hid (heq.symm.trans hb)
      simp [hne]
    · simp [hb]

/-- An id that is in use stays so. -/
theorem isSome_get?_insertCopy {t : ActionTable} {a : Action} {id : Int} :
    ((t.insertCopy a).get? id).isSome ↔ id = t.ids.next ∨ (t.get? id).isSome := by
  rw [isSome_get?_iff, isSome_get?_iff]
  simp only [mem_insertCopy]
  constructor
  · rintro ⟨b, rfl | ⟨hb, -⟩, rfl⟩
    · exact Or.inl rfl
    · exact Or.inr ⟨b, hb, rfl⟩
  · intro hid
    by_cases hnext : id = t.ids.next
    · exact ⟨a.withId t.ids.next, Or.inl rfl, hnext.symm⟩
    · obtain ⟨b, hb, rfl⟩ := hid.resolve_left hnext
      exact ⟨b, Or.inr ⟨hb, hnext⟩, rfl⟩

end ActionTable

namespace Program.Sound

variable {g g' donor : Program}

/-! ### Copies from a donor -/

theorem adoptCalculation (h : g.Sound) (hd : donor.Sound) {name : String}
    (hrun : adoptCalculation donor g name = .ok g') : g'.Sound := by
  obtain ⟨rfl, -⟩ | ⟨c, calculations, -, hc, hins, rfl⟩ := adoptCalculation_ok hrun
  · exact h
  have hmem := (ObjectMap.mem_of_get? hc).1
  have hconsistent := h.calculationsConsistent.insert hins
  obtain ⟨-, -, rfl⟩ := ObjectMap.insert_eq_ok.mp hins
  obtain ⟨log, hlog⟩ := h.graphs
  refine { h with
    calculationsConsistent := hconsistent
    calculations := fun b hb => ?_
    graphs := ⟨log, hlog.congr rfl⟩ }
  rcases ObjectMap.mem_place.mp hb with rfl | hb
  · exact (hd.calculations c hmem).withId _
  · exact h.calculations b hb

theorem insertCopy (h : g.Sound) {a : Action} (ha : a.Sound) :
    Sound { g with actions := g.actions.insertCopy a } := by
  have hfilter : ((g.actions.actions.filter fun b => idOf b != g.actions.ids.next).map
      idOf).Pairwise (· < ·) := h.actionIds.sublist (List.filter_sublist.map _)
  have hids : ∀ b ∈ g.actions.actions.filter fun b => idOf b != g.actions.ids.next,
      idOf b ≠ idOf (a.withId g.actions.ids.next) :=
    fun b hb => bne_iff_ne.mp (List.mem_filter.mp hb).2
  obtain ⟨log, hlog⟩ := h.graphs
  refine { h with
    actionIds := ObjectMap.pairwise_place hfilter hids
    actionsCounted := h.actionsCounted.insertCopy a
    actions := fun b hb => ?_
    pipelines := fun p hp => (h.pipelines p hp).mono fun id hid =>
      ActionTable.isSome_get?_insertCopy.mpr (Or.inr hid)
    graphs := ⟨log, hlog.congr rfl⟩ }
  rcases ActionTable.mem_insertCopy.mp hb with rfl | ⟨hb, -⟩
  · exact ha.withId _
  · exact h.actions b hb

/-- The copies of the actions of a sound donor are there, each under its id. -/
theorem adoptActions (h : g.Sound) (hd : donor.Sound) {as : List Action} {ids : List Int}
    (has : ∀ a ∈ as, a ∈ donor.actions.actions)
    (hrun : adoptActions donor g as = .ok (g', ids)) :
    g'.Sound ∧ ids.length = as.length ∧ (∀ id ∈ ids, (g'.actions.get? id).isSome) ∧
      ∀ id, (g.actions.get? id).isSome → (g'.actions.get? id).isSome := by
  induction as generalizing g ids with
  | nil =>
    cases hrun
    exact ⟨h, rfl, List.forall_mem_nil _, fun _ hid => hid⟩
  | cons a as ih =>
    obtain ⟨g₁, ids', hfirst, hrest, rfl⟩ := adoptActions_cons_ok hrun
    -- the calculations of an action come before it
    obtain ⟨calculations, hfold, rfl⟩ := adoptAction_ok hfirst
    have hcopied : Sound { g with calculations } :=
      foldlM_induction (fun _ _ _ _ hx hstep => hx.adoptCalculation hd hstep) h hfold
    have ha : a.Sound := hd.actions a (has a List.mem_cons_self)
    obtain ⟨hall, hlength, hids, hkeep⟩ :=
      ih (hcopied.insertCopy ha) (fun b hb => has b (List.mem_cons_of_mem a hb)) hrest
    refine ⟨hall, congrArg (· + 1) hlength, ?_, fun id hid => ?_⟩
    · intro id hid
      rcases List.mem_cons.mp hid with rfl | hid
      · exact hkeep _ (ActionTable.isSome_get?_insertCopy.mpr (Or.inl rfl))
      · exact hids id hid
    · exact hkeep id (ActionTable.isSome_get?_insertCopy.mpr (Or.inr hid))

theorem mem_of_existingActions {ids : List Int} {as : List Action}
    (h : donor.existingActions ids = .ok as) :
    ids.length = as.length ∧ ∀ a ∈ as, a ∈ donor.actions.actions := by
  have hall := existingActions_eq_ok.mp h
  refine ⟨hall.length_eq, fun a ha => ?_⟩
  clear h
  induction hall with
  | nil => cases ha
  | cons hid _ ih =>
    rcases List.mem_cons.mp ha with rfl | ha
    · exact List.mem_of_find?_eq_some hid
    · exact ih ha

end Program.Sound

/-! ### Register arrays -/

namespace RegisterArray.Sound

variable {a : RegisterArray}

theorem zeros {identity : Identity} {size bitwidth : Nat} {extra : Json.Object} (s : Store)
    (hrecord : Record.Encodable ArrayRecord.keys identity extra)
    (hsize : Register.validSize size) (hbitwidth : Register.validBitwidth bitwidth) :
    (RegisterArray.zeros identity size bitwidth extra s).1.Sound := by
  refine ⟨hrecord, ?_, hbitwidth⟩
  show Register.validSize (Storage.zeros size bitwidth).cells.size = true
  rw [Storage.size_cells_zeros]
  exact hsize

theorem resized (h : a.Sound) {size : Nat} (hsize : Register.validSize size) :
    (a.resized size).Sound :=
  ⟨h.record, hsize, h.bitwidth⟩

theorem rewidened (h : a.Sound) {bitwidth : Nat} (hbitwidth : Register.validBitwidth bitwidth) :
    (a.rewidened bitwidth).Sound :=
  ⟨h.record, h.size, hbitwidth⟩

theorem rehashed (h : a.Sound) (r : RehashInputs) (s : Store) : (a.rehashed r s).1.Sound := by
  rw [rehashed_eq]
  exact ⟨h.record, h.size, h.bitwidth⟩

theorem cleared (h : a.Sound) (s : Store) : (a.cleared s).1.Sound :=
  zeros s h.record h.size h.bitwidth

end RegisterArray.Sound

/-! ### All edits -/

namespace Edit

open Program

variable {g g' donor : Program} {s s' : Store} {e : Edit} {pipeline name : String}

/-- The node that an edit changes is the one it found. -/
theorem sound_setEdge (h : g.Sound) {p : Pipeline} (hp : g.pipeline? pipeline = some p) {q : Port}
    {edge : Edge} (hsound : ∀ n, p.node? name = some n → n.Sound g.actions →
      (n.setEdge q edge).Sound g.actions) {log : Log}
    (hfollows : (g.setPipeline pipeline (p.modifyNode name (Node.setEdge q edge))).Follows log) :
    (g.setPipeline pipeline (p.modifyNode name (Node.setEdge q edge))).Sound := by
  obtain ⟨glog, hglog⟩ := h.graphs
  obtain ⟨seat, hseat⟩ := hglog.get hp
  have hnodes := (h.pipelines p (ObjectMap.mem_of_get? hp).1).nodes
  refine h.setPipeline hp (Pipeline.identity_modifyNode ..) (Pipeline.extra_modifyNode ..) ?_
    hfollows
  intro m hm
  obtain ⟨n, hn, rfl⟩ := hseat.indexed.mem_nodes_modifyNode hm
  split
  case isTrue heq =>
    have hnode : p.node? name = some n := heq ▸ hseat.indexed.node?_of_mem hn
    exact hsound n hnode (hnodes n hn)
  case isFalse => exact hnodes n hn

theorem sound_removeNode (h : g.Sound) {p : Pipeline} (hp : g.pipeline? pipeline = some p)
    {n : Node} (hn : p.node? name = some n) {log : Log}
    (hfollows : (g.setPipeline pipeline (p.removeNode name)).Follows log) :
    (g.setPipeline pipeline (p.removeNode name)).Sound := by
  obtain ⟨glog, hglog⟩ := h.graphs
  obtain ⟨seat, hseat⟩ := hglog.get hp
  obtain ⟨r, hr⟩ := find?_of_node? hn
  refine h.setPipeline hp (Pipeline.identity_removeNode _) (Pipeline.extra_removeNode _) ?_ hfollows
  intro m hm
  exact (h.pipelines p (ObjectMap.mem_of_get? hp).1).nodes m
    ((hseat.indexed.mem_nodes_removeNode_iff name).mp hm).1

/-- The definition that a donor gives for a node. -/
theorem sound_definition (hd : donor.Sound) {p : Pipeline} (hp : donor.pipeline? pipeline = some p)
    {n : Node} (hn : p.node? name = some n) : n.Sound donor.actions := by
  obtain ⟨r, -, hr⟩ := Option.bind_eq_some_iff.mp hn
  have hmem := Pipeline.mem_nodes_of_resolve? hr
  exact (hd.pipelines p (ObjectMap.mem_of_get? hp).1).nodes n hmem

theorem sound_insertConditional (h : g.Sound) (hd : donor.Sound) {log : Log}
    (hrun : g.insertConditional pipeline name
      ((donor.pipeline? pipeline).bind (·.conditional? name)) = .ok g')
    (hfollows : g'.Follows log) : g'.Sound := by
  obtain ⟨p, d, r, p', hp, hdef, hins, rfl⟩ := insertConditional_ok hrun
  obtain ⟨q, hq, hd'⟩ := Option.bind_eq_some_iff.mp hdef
  obtain ⟨n, hn, hd'⟩ := Option.bind_eq_some_iff.mp hd'
  have hsound := sound_definition hd hq hn
  cases n with
  | table t => cases hd'
  | conditional c =>
    cases hd'
    have hc : Node.Sound g.actions (.conditional (d.instantiate name g.conditionalIds.next)) :=
      Conditional.Sound.instantiate hsound name _
    exact h.insertNode hp hins hc rfl hfollows

theorem sound_insertFlex (h : g.Sound) {false? true? : Option String} {log : Log}
    (hrun : g.insertFlex pipeline name false? true? = .ok g') (hfollows : g'.Follows log) :
    g'.Sound := by
  obtain ⟨p, falseNext, trueNext, r, p', hp, -, -, hins, rfl⟩ := insertFlex_ok hrun
  have hrecord : Record.Encodable ConditionalRecord.keys ⟨name, g.conditionalIds.next, none⟩ [] :=
    ⟨nofun, Json.Object.free_nil _⟩
  have hflex : Node.Sound g.actions (.conditional
      { identity := { name, id := g.conditionalIds.next }, condition? := none, trueNext,
        falseNext, flex := true }) := ⟨hrecord, nofun⟩
  exact h.insertNode hp hins hflex rfl hfollows

theorem sound_insertTable (h : g.Sound) (hd : donor.Sound) {log : Log}
    (hrun : g.insertTable donor pipeline name = .ok g') (hfollows : g'.Follows log) :
    g'.Sound := by
  obtain ⟨p, t, actions, g₁, ids, r, p', hp, hdef, hactions, hadopt, hins, rfl⟩ :=
    insertTable_ok hrun
  obtain ⟨q, hq, ht⟩ := Option.bind_eq_some_iff.mp hdef
  have htable : t.Sound donor.actions := sound_definition hd hq (Pipeline.node?_of_table? ht)
  obtain ⟨hlength, hmem⟩ := Sound.mem_of_existingActions hactions
  obtain ⟨hsound, hlength', hids, -⟩ := h.adoptActions hd hmem hadopt
  obtain ⟨_, _, rfl⟩ := adoptActions_ok hadopt
  exact hsound.insertNode hp hins (htable.instantiate _ _ (hlength.trans hlength'.symm) hids) rfl
    hfollows

theorem sound_setTableNext (h : g.Sound) {slot : TableSlot} {target? : Option String} {log : Log}
    (hset : g.setTableNext pipeline name slot target? = .ok g') (hfollows : g'.Follows log) :
    g'.Sound := by
  obtain ⟨p, edge, t, q, hp, -, ht, hq, -, rfl⟩ := setTableNext_ok hset
  refine sound_setEdge h hp (fun n hn hsound => ?_) hfollows
  rw [Pipeline.node?_of_table? ht, Option.some.injEq] at hn
  subst hn
  refine Table.Sound.setEdge hsound edge ?_
  rintro id rfl
  -- the action of an edge was found among those of the table
  cases slot with
  | baseDefault | hit | miss => cases hq
  | action action =>
    obtain ⟨i, hi, heq⟩ := Option.map_eq_some_iff.mp hq
    cases heq
    exact List.mem_of_find?_eq_some hi

theorem sound_setArray (hg : ∀ a ∈ g.arrays.objects, a.Sound) {a : RegisterArray} (ha : a.Sound) :
    ∀ b ∈ (g.setArray name a).arrays.objects, b.Sound := by
  intro b hb
  rcases mem_of_mem_setArray hb with rfl | hb
  · exact ha
  · exact hg b hb

theorem sound_array? (hg : ∀ a ∈ g.arrays.objects, a.Sound) {a : RegisterArray}
    (ha : g.array? name = some a) : a.Sound :=
  hg a (mem_of_array? ha)

/-- Edits keep the register arrays sound. -/
theorem sound_arrays (hg : ∀ a ∈ g.arrays.objects, a.Sound) (he : e.Valid)
    (hrun : e.run donor (g, s) = .ok (g', s')) : ∀ a ∈ g'.arrays.objects, a.Sound := by
  by_cases hnodes : e.onNodes = true
  · rw [(arrays_of_onNodes hnodes hrun).1]
    exact hg
  cases e with
  | insertArray name size bitwidth =>
    obtain ⟨arrays, harrays, rfl, -⟩ := insertArray_ok hrun
    intro a ha
    rcases (ObjectMap.mem_insertNew harrays).mp ha with rfl | ⟨ha, -⟩
    · exact RegisterArray.Sound.zeros s ⟨nofun, Json.Object.free_nil _⟩ he.1 he.2
    · exact hg a ha
  | resizeArray name size =>
    obtain ⟨hg₁, rfl⟩ := pair_eq_ok.mp hrun
    obtain ⟨b, hb, rfl⟩ := resizeArray_ok hg₁
    exact sound_setArray hg ((sound_array? hg hb).resized he)
  | rewidenArray name width =>
    obtain ⟨hg₁, rfl⟩ := pair_eq_ok.mp hrun
    obtain ⟨b, hb, rfl⟩ := rewidenArray_ok hg₁
    exact sound_setArray hg ((sound_array? hg hb).rewidened he)
  | deleteArray name =>
    obtain ⟨hg₁, rfl⟩ := pair_eq_ok.mp hrun
    obtain ⟨b, hb, rfl⟩ := deleteArray_ok hg₁
    exact fun a ha => hg a (ObjectMap.mem_of_mem_remove ha)
  | rehashArray r =>
    obtain ⟨target, reset, inputs, ht, hr, rfl, -⟩ := rehashArray_ok hrun
    have htarget := (sound_array? hg ht).rehashed inputs s
    exact sound_setArray (sound_setArray hg htarget) ((sound_array? hg hr).cleared _)
  | _ => exact absurd rfl hnodes

/-- Every edit keeps a program sound, if its donor is. -/
theorem sound_run (h : g.Sound) (hd : donor.Sound) (he : e.Valid)
    (hrun : e.run donor (g, s) = .ok (g', s')) : g'.Sound := by
  obtain ⟨log, hlog⟩ := h.graphs
  have hfollows := hlog.edit hrun
  have hconsistent := consistent_run h.arraysConsistent hrun
  have harrays := sound_arrays h.arrays he hrun
  by_cases hnodes : e.onNodes = false
  · obtain ⟨hframe, -⟩ := frame_of_not_onNodes hnodes hrun
    rw [hframe] at hfollows ⊢
    exact { h with arraysConsistent := hconsistent, arrays := harrays, graphs := ⟨_, hfollows⟩ }
  cases e with
  | insertConditional pipeline name =>
    obtain ⟨hg, rfl⟩ := pair_eq_ok.mp hrun
    exact sound_insertConditional h hd hg hfollows
  | insertFlex pipeline name false? true? =>
    obtain ⟨hg, rfl⟩ := pair_eq_ok.mp hrun
    exact sound_insertFlex h hg hfollows
  | setConditionalNext pipeline name branch target? =>
    obtain ⟨hg, rfl⟩ := pair_eq_ok.mp hrun
    obtain ⟨p, edge, c, hp, -, hc, rfl⟩ := setConditionalNext_ok hg
    refine sound_setEdge h hp (fun n hn hsound => ?_) hfollows
    obtain ⟨m, hm, hc⟩ := Option.bind_eq_some_iff.mp hc
    rw [hn, Option.some.injEq] at hm
    subst hm
    cases n with
    | table t => cases hc
    | conditional c => exact Conditional.Sound.setEdge hsound _ edge
  | deleteConditional pipeline name =>
    obtain ⟨hg, rfl⟩ := pair_eq_ok.mp hrun
    obtain ⟨p, c, hp, hc, rfl⟩ := deleteConditional_ok hg
    obtain ⟨n, hn, -⟩ := Option.bind_eq_some_iff.mp hc
    exact sound_removeNode h hp hn hfollows
  | insertTable pipeline name =>
    obtain ⟨hg, rfl⟩ := pair_eq_ok.mp hrun
    exact sound_insertTable h hd hg hfollows
  | setTableNext pipeline name slot target? =>
    obtain ⟨hg, rfl⟩ := pair_eq_ok.mp hrun
    exact sound_setTableNext h hg hfollows
  | deleteTable pipeline name =>
    obtain ⟨hg, rfl⟩ := pair_eq_ok.mp hrun
    obtain ⟨p, t, hp, ht, rfl⟩ := deleteTable_ok hg
    exact sound_removeNode h hp (Pipeline.node?_of_table? ht) hfollows
  | _ => exact absurd rfl hnodes

/-- The edits of a plan keep a program sound. -/
theorem sound_foldlM (h : g.Sound) (hd : donor.Sound) {l : List Edit} (hl : ∀ e ∈ l, e.Valid)
    (hrun : l.foldlM (Edit.run donor) (g, s) = .ok (g', s')) : g'.Sound := by
  refine foldlM_induction (P := fun x => x.1.Sound) ?_ h hrun
  rintro e he ⟨g, s⟩ ⟨g', s'⟩ hg hstep
  exact sound_run hg hd (hl e he) hstep

end Edit

namespace Program

/-- A commit keeps a program sound. -/
theorem Sound.commitArrays {g : Program} (h : g.Sound) (s : Store) :
    (g.commitArrays s).1.Sound := by
  have harrays : ∀ (l : List RegisterArray) (s : Store), (∀ a ∈ l, a.Sound) →
      ∀ a ∈ (commitAll l s).1, a.Sound := by
    intro l
    induction l with
    | nil => exact fun _ _ => nofun
    | cons b l ih =>
      intro s hl a ha
      have hb := hl b List.mem_cons_self
      have hcommit : (commitArray b s).1.Sound := by
        unfold commitArray
        split
        · exact ⟨hb.record, hb.size, hb.bitwidth⟩
        · exact hb
      rcases List.mem_cons.mp ha with rfl | ha
      · exact hcommit
      · exact ih _ (fun c hc => hl c (List.mem_cons_of_mem b hc)) a ha
  obtain ⟨log, hlog⟩ := h.graphs
  exact { h with
    arraysConsistent := consistent_commitArrays h.arraysConsistent s
    arrays := harrays _ s h.arrays
    graphs := ⟨log, hlog.congr rfl⟩ }

end Program

end LiveSwitch
