import LiveSwitch.Proofs.Program.Ids

/-!
# Documents of generations, loaded again

Whatever plans did to a program, its document can be loaded again and is then written in the
same way, with three exceptions.  A conditional without a condition that was copied from a flex
node is no flex node any more.  A calculation that was copied along with an action may hash
fields that are not declared.  And once the ids have come round, two nodes may have one id.

## Main results

* `Program.Reached.sound` — every program that is reached is sound.
* `Program.reloads_iff` — the document of such a program can be loaded again just when the
  program is reloadable, and then the document of the loaded program is the same.
-/

namespace LiveSwitch

namespace Table

variable {t t' : Table}

theorem mem_of_checkAction {id : Int} (h : t.checkAction id = .ok ()) : id ∈ t.actionIds := by
  rw [checkAction] at h
  split at h
  case isTrue hmem => exact List.contains_iff_mem.mp hmem
  case isFalse => cases h

/-- A table stays sound when its entries change. -/
theorem EntryChange.sound {actions : ActionTable} (h : t.EntryChange t') (ht : t.Sound actions) :
    t'.Sound actions := by
  cases h with
  | add key e h =>
    simp only [addEntry, bind_eq_ok, pure_eq_ok] at h
    obtain ⟨_, -, _, haction, rfl⟩ := h
    refine ⟨ht.record, ht.key, ht.actions, ht.next, ?_, ht.default⟩
    intro x hx
    rcases List.mem_cons.mp hx with rfl | hx
    · exact mem_of_checkAction haction
    · exact ht.entries x (List.mem_filter.mp hx).1
  | delete key h =>
    simp only [deleteEntry, bind_eq_ok] at h
    obtain ⟨_, -, h⟩ := h
    split at h
    · cases h
      exact ⟨ht.record, ht.key, ht.actions, ht.next,
        fun x hx => ht.entries x (List.mem_filter.mp hx).1, ht.default⟩
    · cases h
  | setDefault e h =>
    simp only [Table.setDefault, bind_eq_ok, pure_eq_ok] at h
    obtain ⟨_, haction, rfl⟩ := h
    refine ⟨ht.record, ht.key, ht.actions, ht.next, ht.entries, ?_⟩
    rintro d hd
    cases hd
    refine ⟨?_, Or.inr (mem_of_checkAction haction)⟩
    cases hdefault : t.default? with
    | none => exact Json.Object.free_nil _
    | some d => exact (ht.default d hdefault).1

end Table

namespace Program

variable {g : Program}

theorem sound_start : ({} : Program).Sound :=
  { (Loader.holds_start {} {} (P := "")).objects with
    layout := rfl
    extra := Json.Object.free_nil _
    graphs := ⟨[], nofun⟩ }

/-- Every program that is reached is sound. -/
theorem Reached.sound (h : g.Reached) : g.Sound := by
  induction h with
  | start => exact sound_start
  | load h => exact sound_ofDocument h
  | plan _ hdonor hl hrun ih =>
    have hsound := Edit.sound_foldlM ih (sound_ofDocument hdonor) hl hrun
    exact hsound.commitArrays _
  | @entry g pipeline table p t t' h hp ht hchange ih =>
    obtain ⟨log, hlog⟩ := (h.entry hp ht hchange).traced
    obtain ⟨hmem, -⟩ := ObjectMap.mem_of_get? hp
    obtain ⟨glog, hglog⟩ := ih.graphs
    obtain ⟨seat, hseat⟩ := hglog p hmem
    refine ih.setPipeline hp (Pipeline.identity_modifyNode _ _) (Pipeline.extra_modifyNode _ _)
      (fun m hm => ?_) hlog.follows
    obtain ⟨n, hn, rfl⟩ := hseat.indexed.mem_nodes_modifyNode hm
    have hsound := (ih.pipelines p hmem).nodes n hn
    split
    case isFalse => exact hsound
    case isTrue hname =>
      have hnode := hseat.indexed.node?_of_mem hn
      rw [hname, Pipeline.node?_of_table? ht, Option.some.injEq] at hnode
      subst hnode
      exact hchange.sound hsound

/-- The document of a program can be loaded again, into a program with that document, just when
nodes of a kind have ids of their own, the inputs of its calculations are declared, and every
conditional has a condition or is a flex node. -/
theorem reloads_iff (h : g.Reached) (s : Store) :
    (∃ g' s', ofDocument s g.document = .ok (g', s') ∧ g'.document = g.document) ↔
      g.Reloadable := by
  constructor
  · rintro ⟨g', s', hload, -⟩
    exact reloadable_of_ofDocument h.sound hload
  · exact fun hr => ofDocument_document h.sound h.inRange.validIds hr s

/-! ### Flex nodes, inserted and copied -/

/-- A document of a pipeline without nodes. -/
def hollowDocument : Json.Value :=
  .object [("pipelines", .array [.object [("id", .ofNat 0), ("name", .string "p")]])]

/-- A document of a pipeline that starts at its only node, a flex node. -/
def gateDocument : Json.Value :=
  .object [("pipelines", .array [.object
    [("conditionals", .array [.object
        [("flex", .bool true), ("id", .ofNat 0), ("name", .string "a")]]),
      ("id", .ofNat 0), ("init_table", .string "a"), ("name", .string "p")]])]

/-- A pipeline without nodes. -/
def hollow : Pipeline := { identity := ⟨"p", 0, none⟩ }

/-- A pipeline with one node, which has no condition. -/
def gate (flex : Bool) (generation : UInt32) (id : Int) (init : Edge) : Pipeline :=
  { identity := ⟨"p", 0, none⟩
    init
    slots := [⟨generation, some (.conditional
      { identity := ⟨"a", id, none⟩, condition? := none, flex })⟩]
    byName := [("a", ⟨0, generation⟩)] }

/-- The program of one pipeline. -/
def ofPipeline (p : Pipeline) (conditionals : Int) : Program :=
  { pipelines := { objects := [p], ids := ⟨1⟩ }, conditionalIds := ⟨conditionals⟩ }

/-- A flex node is deleted and inserted again: the edge to the deleted node is written as null,
and the document can be loaded. -/
theorem reinserted_flex_reloads :
    (ofPipeline (gate true 1 1 (some ⟨0, 0⟩)) 2).Reached ∧
      ∃ g' s', ofDocument {} (ofPipeline (gate true 1 1 (some ⟨0, 0⟩)) 2).document = .ok (g', s') ∧
        g'.document = (ofPipeline (gate true 1 1 (some ⟨0, 0⟩)) 2).document := by
  have hload : ofDocument {} gateDocument =
      .ok (ofPipeline (gate true 0 0 (some ⟨0, 0⟩)) 1, {}) := rfl
  have hrun : [Edit.deleteConditional "p" "a", .insertFlex "p" "a" none none].foldlM
      (Edit.run (ofPipeline (gate true 0 0 (some ⟨0, 0⟩)) 1))
      (ofPipeline (gate true 0 0 (some ⟨0, 0⟩)) 1, ({} : Store)) =
        .ok (ofPipeline (gate true 1 1 (some ⟨0, 0⟩)) 2, {}) := rfl
  have hreached : (ofPipeline (gate true 1 1 (some ⟨0, 0⟩)) 2).Reached :=
    (Reached.load hload).plan hload (by simp [Edit.Valid]) hrun
  refine ⟨hreached, (reloads_iff hreached {}).mpr ⟨⟨?_⟩, nofun, ?_⟩⟩
  · rintro P Q x y ⟨p, hp, rfl, n, hn, rfl⟩ ⟨q, hq, rfl, m, hm, rfl⟩ - -
    rw [List.mem_singleton.mp hp] at hn ⊢
    rw [List.mem_singleton.mp hq] at hm ⊢
    rw [List.mem_singleton.mp hn, List.mem_singleton.mp hm]
    exact ⟨rfl, rfl⟩
  · intro p hp c hc _
    rw [List.mem_singleton.mp hp, Pipeline.mem_conditionals] at hc
    cases List.mem_singleton.mp hc
    rfl

/-- A flex node is copied from a donor as a conditional without a condition: the document cannot
be loaded. -/
theorem copied_flex_not_reloaded :
    (ofPipeline (gate false 0 0 none) 1).Reached ∧ ∀ s g' s',
      ofDocument s (ofPipeline (gate false 0 0 none) 1).document ≠ .ok (g', s') := by
  have hload : ofDocument {} hollowDocument = .ok (ofPipeline hollow 0, {}) := rfl
  have hdonor : ofDocument {} gateDocument =
      .ok (ofPipeline (gate true 0 0 (some ⟨0, 0⟩)) 1, {}) := rfl
  have hrun : [Edit.insertConditional "p" "a"].foldlM
      (Edit.run (ofPipeline (gate true 0 0 (some ⟨0, 0⟩)) 1)) (ofPipeline hollow 0, ({} : Store)) =
        .ok (ofPipeline (gate false 0 0 none) 1, {}) := rfl
  have hreached : (ofPipeline (gate false 0 0 none) 1).Reached :=
    (Reached.load hload).plan hdonor (by simp [Edit.Valid]) hrun
  refine ⟨hreached, fun s g' s' hreload => ?_⟩
  have hreloadable := reloadable_of_ofDocument hreached.sound hreload
  have hflex := hreloadable.conditions (gate false 0 0 none) List.mem_cons_self
    { identity := ⟨"a", 0, none⟩, condition? := none, flex := false }
    (Pipeline.mem_conditionals.mpr List.mem_cons_self) rfl
  cases hflex

end Program

end LiveSwitch
