import LiveSwitch.Proofs.Document.Retained
import LiveSwitch.Proofs.Json.Reading
import LiveSwitch.Proofs.Switch.Ids
import LiveSwitch.Proofs.Switch.Tables

/-!
# Data without a meaning here

A document may say more than what has a meaning here.  Whatever plans and table operations do to a
program since it was loaded, its document goes on to say that, the entries of nodes and arrays
aside that a plan has deleted; and what a plan inserts brings along what the donor's document says
of it.

## Main definitions

* `History.Deletes` — what the plans of a context delete over some events.
* `Command.Copies` — a document has what the donor's document says of an inserted node.

## Main results

* `History.carries_after` — the program of a context goes on over events.
* `History.unmodeled_kept` — so its document keeps the data without a meaning.
* `History.replaced_array_loses_note` — an array that an insertion has replaced.
-/

namespace LiveSwitch

open Json Program

/-! ### Operations on a table -/

/-- A table whose entries change says again what it said before. -/
theorem Table.EntryChange.keeps {t t' : Table} (h : t.EntryChange t') :
    (Node.table t).Keeps (.table t') := by
  cases h with
  | add key e h =>
    simp only [addEntry, bind_eq_ok, pure_eq_ok] at h
    obtain ⟨_, -, _, -, rfl⟩ := h
    exact ⟨.table ⟨rfl, rfl, rfl, fun d hd => ⟨d, hd, rfl⟩, rfl⟩, rfl⟩
  | delete key h =>
    simp only [deleteEntry, bind_eq_ok] at h
    obtain ⟨_, -, h⟩ := h
    split at h
    · cases h
      exact ⟨.table ⟨rfl, rfl, rfl, fun d hd => ⟨d, hd, rfl⟩, rfl⟩, rfl⟩
    · cases h
  | setDefault e h =>
    simp only [Table.setDefault, bind_eq_ok, pure_eq_ok] at h
    obtain ⟨_, -, rfl⟩ := h
    refine ⟨.table ⟨rfl, rfl, rfl, fun d hd => ⟨_, rfl, ?_⟩, rfl⟩, rfl⟩
    rw [show t.default? = some d from hd]
    rfl

/-- A program goes on when one of its tables changes. -/
theorem Program.ChangesTable.carries {g g' : Program} {P T : String} {R : Table → Table → Prop}
    {gone : Subject → Prop} (h : g.ChangesTable P T R g')
    (hR : ∀ t t', R t t' → (Node.table t).Keeps (.table t')) :
    Carries Node.Keeps gone g g' := by
  refine ⟨by rw [h.frame], fun Q q hq => ?_, fun Q N n _ hn => ?_,
    fun N _ hstray => ⟨?_, fun a ha => ⟨a, ?_, rfl, rfl⟩⟩, fun hmax => ⟨?_, fun id a ha => ?_⟩,
    fun N c hc => ?_⟩
  · by_cases hQ : Q = P
    · obtain ⟨p, p', hp, hp', hslots⟩ := h.pipeline
      subst hQ
      rw [hp, Option.some.injEq] at hq
      subst hq
      exact ⟨p', hp', by rw [hslots], by rw [hslots]⟩
    · exact ⟨q, (h.pipelines Q hQ).trans hq, rfl, rfl⟩
  · by_cases hQ : Q = P
    · subst hQ
      by_cases hN : N = T
      · obtain ⟨t, t', ht, ht', hr⟩ := h.table
        subst hN
        rw [ht, Option.some.injEq] at hn
        subst hn
        exact ⟨_, ht', hR t t' hr⟩
      · exact ⟨n, (h.nodes N hN).trans hn, .refl n⟩
    · refine ⟨n, ?_, .refl n⟩
      rw [node?, h.pipelines Q hQ]
      exact hn
  · rwa [h.frame] at hstray
  · rw [h.frame]
    exact ha
  · rwa [h.frame] at hmax
  · rw [h.frame]
    exact ha
  · rw [h.frame]
    exact hc

/-! ### Nodes that a donor defines -/

/-- A copy says again what it was copied from. -/
theorem Table.restates_instantiate (t : Table) (id : Int) (actionIds : List Int) :
    t.Restates (t.instantiate t.identity.name id actionIds) where
  name := rfl
  source := rfl
  key := rfl
  default d hd := ⟨_, Option.map_eq_some_iff.mpr ⟨d, hd, rfl⟩, rfl⟩
  extra := rfl

theorem Conditional.restates_instantiate (c : Conditional) (id : Int) :
    c.Restates (c.instantiate c.identity.name id) :=
  ⟨rfl, rfl, rfl, rfl⟩

/-- A document has what the document of a donor says of the node that a command inserts. -/
def Command.Copies (donor root : Object) : Command → Prop
  | .insertTable P N => ∀ o, donor.Lists P "tables" o → o.get? "name" = some (.string N) →
    ∃ o', root.Lists P "tables" o' ∧ o.TableKept ["name"] o'
  | .insertConditional P N => ∀ o, donor.Lists P "conditionals" o →
    o.get? "name" = some (.string N) →
    ∃ o', root.Lists P "conditionals" o' ∧ o.ConditionalKept ["name"] o'
  | _ => True

/-- What a command brings from a loaded donor and what says it again is in the document. -/
theorem Command.copies_of_brings {c : Command} {donor g : Program} {records : Records}
    {root : Object} (hdonor : donor.Retains (fun _ => False) records)
    (hroot : records.ReadFrom root)
    (h : ∀ P N, c.inserts? = some (.node P N) →
      ∃ m n, c.edit.Brings donor m ∧ g.node? P N = some n ∧ m.Restates n) :
    c.Copies root g.root := by
  cases c with
  | insertTable P N =>
    intro o ho hN
    obtain ⟨_, n, ⟨d, id, ids, hd, rfl⟩, hn, hrestates⟩ := h P N rfl
    obtain ⟨p, hp, ht⟩ := Option.bind_eq_some_iff.mp hd
    -- the donor's table says what its entry says, and the copy says it again
    obtain ⟨r, t, hr, hrt, ht'⟩ := hdonor.exists_record_table hroot ho hN
      ((node?_eq hp N).trans (Pipeline.node?_of_table? ht))
    obtain ⟨_, ⟨rfl⟩, hi, -⟩ := TableRecord.decode_eq_some hr
    have hname : d.identity.name = N := by
      rw [ht'.name, Table.identity_ofRecord hrt]
      exact Identity.name_eq_of_decode hi hN
    subst hname
    cases hrestates with
    | table hcopy =>
      exact exists_lists_table hr hrt hn ((ht'.trans (d.restates_instantiate id ids)).trans hcopy)
  | insertConditional P N =>
    intro o ho hN
    obtain ⟨_, n, ⟨d, id, hd, rfl⟩, hn, hrestates⟩ := h P N rfl
    obtain ⟨p, hp, hc⟩ := Option.bind_eq_some_iff.mp hd
    obtain ⟨r, c, hr, hrc, hc'⟩ := hdonor.exists_record_conditional hroot ho hN
      ((node?_eq hp N).trans (Pipeline.node?_of_conditional? hc))
    obtain ⟨_, ⟨rfl⟩, hi, -⟩ := ConditionalRecord.decode_eq_some hr
    have hname : d.identity.name = N := by
      obtain ⟨_, -, -, rfl⟩ := Loader.conditionalOf_eq_ok.mp hrc
      rw [hc'.name]
      exact Identity.name_eq_of_decode hi hN
    subst hname
    cases hrestates with
    | conditional hcopy =>
      exact exists_lists_conditional hr hrc hn ((hc'.trans (d.restates_instantiate id)).trans hcopy)
  | _ => trivial

/-! ### Events -/

/-- What an event deletes from the program of a context: what the commands of a plan delete, if the
plan succeeds. -/
def Event.Deletes (h : History) (cxt : Nat) (x : Subject) : Event → Prop
  | .plan i document file => i = cxt ∧
    (h.switch.applyPlan cxt document file).1 = .success ∧ Session.Deletes file.commands x
  | _ => False

namespace History

/-- What some events delete from the program of a context. -/
def Deletes (h : History) (cxt : Nat) (events : List Event) (x : Subject) : Prop :=
  ∃ past e later, events = past ++ e :: later ∧ e.Deletes (h.after past) cxt x

variable {h : History} {cxt : Nat} {c : Context}

theorem deletes_cons {e : Event} {events : List Event} {x : Subject}
    (hx : e.Deletes h cxt x ∨ (h.apply e).Deletes cxt events x) :
    h.Deletes cxt (e :: events) x := by
  rcases hx with hx | ⟨past, e', later, rfl, hx⟩
  · exact ⟨[], e, events, rfl, hx⟩
  · exact ⟨e :: past, e', later, rfl, hx⟩

/-- A plan that succeeds carries its program on. -/
theorem carries_plan (ht : h.AllReached) (hc : h.switch.contexts[cxt]? = some c)
    {document plan : FileContent} {w : Switch} {c' : Context}
    (happly : h.switch.applyPlan cxt document plan = (.success, w))
    (hc' : w.contexts[cxt]? = some c') :
    Carries Node.Keeps (Session.Deletes plan.commands) c.active.program c'.active.program := by
  obtain ⟨d, start, s, hd, hd', hstart, hwired, hrun⟩ := ht.exists_session happly
  obtain rfl := Option.some.inj (hd.symm.trans hc)
  obtain rfl := Option.some.inj (hd'.symm.trans hc')
  have hcommands := Session.carries_foldlM hwired hrun
  rw [hstart] at hcommands
  have hcommit : Carries Eq (Session.Deletes plan.commands) s.candidate _ :=
    carries_commitArrays s.candidate s.store
  have hkeeps := (hcommands.mono (fun _ _ => Node.SameBody.keeps) fun _ => id).trans
    (hcommit.mono (fun n _ hn => hn ▸ .refl n) fun _ => id) .trans
  exact hkeeps.mono (fun _ _ => id) (by simp)

/-- An event that does not load a document into a context carries its program on. -/
theorem carries_apply (hs : h.Separate) (ht : h.AllReached) {e : Event}
    (he : e.loads cxt = false) (hc : h.switch.contexts[cxt]? = some c) :
    ∃ c', (h.apply e).switch.contexts[cxt]? = some c' ∧
      Carries Node.Keeps (fun x => e.Deletes h cxt x) c.active.program c'.active.program := by
  obtain ⟨c', hc', hmoves⟩ := moves_apply hs he hc
  refine ⟨c', hc', ?_⟩
  generalize c'.active.program = g' at hmoves ⊢
  cases hmoves with
  | stays => exact .refl Node.Keeps.refl _
  | entry hp htable hchange =>
    obtain ⟨log, hlog⟩ := (ht.active hc).traced
    have hchanges := hlog.follows.changesTable (R := fun t t' => (Node.table t).Keeps (.table t'))
      hp htable hchange.keeps
    exact hchanges.carries fun _ _ => id
  | plan he happly hd =>
    subst he
    refine (carries_plan ht hc happly hd).mono (fun _ _ => id) fun x hx => ?_
    exact ⟨rfl, congrArg Prod.fst happly, hx⟩

/-- Over events without a load of the context, its program goes on. -/
theorem carries_after (hs : h.Separate) (ht : h.AllReached) {events : List Event}
    (hloads : ∀ e ∈ events, e.loads cxt = false) (hc : h.switch.contexts[cxt]? = some c) :
    ∃ c', (h.after events).switch.contexts[cxt]? = some c' ∧
      Carries Node.Keeps (h.Deletes cxt events) c.active.program c'.active.program := by
  rw [History.after]
  induction events generalizing h c with
  | nil => exact ⟨c, hc, .refl Node.Keeps.refl _⟩
  | cons e events ih =>
    obtain ⟨c₁, hc₁, hcarries₁⟩ := carries_apply hs ht (hloads e List.mem_cons_self) hc
    obtain ⟨c₂, hc₂, hcarries₂⟩ := ih (separate_apply hs e) (allReached_apply hs ht e)
      (fun e he => hloads e (List.mem_cons_of_mem _ he)) hc₁
    refine ⟨c₂, hc₂, ?_⟩
    exact (hcarries₁.trans hcarries₂ .trans).mono (fun _ _ => id) fun _ => deletes_cons

/-- What none of some events deletes, whatever happened before it, stays. -/
theorem not_deletes_of_forall {events : List Event} {x : Subject}
    (hevents : ∀ e ∈ events, ∀ h : History, ¬e.Deletes h cxt x) : ¬h.Deletes cxt events x := by
  rintro ⟨past, e, later, rfl, hdeletes⟩
  exact hevents e (List.mem_append_right past List.mem_cons_self) _ hdeletes

/-- A plan of one command deletes at most what the command deletes. -/
theorem not_deletes_plan {document plan : FileContent} {command : Command}
    (hcommands : plan.commands = [command]) {x : Subject} (hx : command.deletes? ≠ some x) (i : Nat)
    (h : History) : ¬(Event.plan i document plan).Deletes h cxt x := by
  rintro ⟨-, -, command', hmem, hdeletes⟩
  rw [hcommands] at hmem
  exact hx (List.mem_singleton.mp hmem ▸ hdeletes)

theorem not_deletes_nil (x : Subject) : ¬h.Deletes cxt [] x := by
  rintro ⟨past, e, later, heq, -⟩
  exact List.append_ne_nil_of_right_ne_nil past (List.cons_ne_nil e later) heq.symm

/-- The context that a document was loaded into has a program that retains what was read. -/
theorem exists_retains_load {content : ByteArray} {root : Object}
    (hroot : Value.ofBytes? content = some (.object root)) {number : Nat} {w : Switch}
    (hload : h.switch.init cxt (.bytes content) = .ok (number, w)) :
    ∃ c records, (h.apply (.load cxt (.bytes content))).switch.contexts[cxt]? = some c ∧
      c.active.program.Retains (fun _ => False) records ∧ records.ReadFrom root := by
  have happly : h.apply (.load cxt (.bytes content)) = h.publish cxt w := by
    rw [apply, hload]
  obtain ⟨d, g, s, hd, hfile, rfl⟩ := Switch.init_ok hload
  have hdocument : ofDocument h.switch.store (.object root) = .ok (g, s) := by
    rwa [ofFile, ofBytes, hroot] at hfile
  obtain ⟨_, records, ⟨rfl⟩, hread, hretains⟩ := retains_ofDocument hdocument
  refine ⟨{ d with active := ⟨d.active.number + 1, g⟩ }, records, ?_, hretains, hread⟩
  rw [happly, publish, Switch.setActive, List.getElem?_modify_eq, hd]
  rfl

/-- What was loaded from a document is kept in the document of a later program. -/
theorem documentKept_after (hs : h.Separate) (ht : h.AllReached) {events : List Event}
    (hloads : ∀ e ∈ events, e.loads cxt = false) (hc : h.switch.contexts[cxt]? = some c)
    {records : Records} {root : Object}
    (hretains : c.active.program.Retains (fun _ => False) records)
    (hroot : records.ReadFrom root) : ∃ c', (h.after events).switch.contexts[cxt]? = some c' ∧
      root.DocumentKept c'.active.program.actions.BelowMax
        (fun x => h.Deletes cxt events x ∨ c'.active.program.Stray x) c'.active.program.root := by
  obtain ⟨c', hc', hcarries⟩ := carries_after hs ht hloads hc
  exact ⟨c', hc', ((hretains.mono fun _ => False.elim).carries hcarries).documentKept hroot⟩

/-- What a plan that succeeds inserts is in the document of a later program as the donor's document
has it. -/
theorem copies_after (hs : h.Separate) (ht : h.AllReached) {later : List Event}
    (hloads : ∀ e ∈ later, e.loads cxt = false) {content : ByteArray} {root : Object}
    (hroot : Value.ofBytes? content = some (.object root)) {plan : FileContent}
    (hsuccess : (h.switch.applyPlan cxt (.bytes content) plan).1 = .success)
    (hc : ((h.apply (.plan cxt (.bytes content) plan)).after later).switch.contexts[cxt]? = some c)
    {cs cs' : List Command} {command : Command} (hcommands : plan.commands = cs ++ command :: cs')
    (hkept : ∀ x, command.inserts? = some x → ¬Session.Deletes cs' x ∧
      ¬(h.apply (.plan cxt (.bytes content) plan)).Deletes cxt later x) :
    command.Copies root c.active.program.root := by
  have hs' := separate_apply hs (.plan cxt (.bytes content) plan)
  have ht' := allReached_apply hs ht (.plan cxt (.bytes content) plan)
  generalize happly : h.switch.applyPlan cxt (.bytes content) plan = x at hsuccess
  obtain ⟨code, w⟩ := x
  obtain rfl : code = .success := hsuccess
  obtain ⟨d, donor, s₀, s, hd, hdonor, hrun, rfl⟩ := Switch.applyPlan_success happly
  have hdonor' : ofDocument {} (.object root) = .ok (donor, s₀) := by
    rwa [ofFile, ofBytes, hroot] at hdonor
  obtain ⟨_, records, ⟨rfl⟩, hread, hretains⟩ := retains_ofDocument hdonor'
  -- the program that the plan has published goes on to the later one
  rw [apply_plan_success happly] at hs' ht' hc hkept
  obtain ⟨c', hc', hcarries⟩ := carries_after (c := d.publish _ _) hs' ht' hloads
    (by rw [publish, List.getElem?_modify_eq, hd]; rfl)
  rw [hc, Option.some.injEq] at hc'
  subst hc'
  refine Command.copies_of_brings hretains hread fun P N hinserts => ?_
  obtain ⟨hplan, hlater⟩ := hkept _ hinserts
  rw [hcommands] at hrun
  -- the node stays to the end of the plan, and from there over the later events
  obtain ⟨m, n, hbrings, hn, hbody⟩ := Session.exists_brought
    ((ht.active hd).wired h.switch.store donor) hrun hinserts hplan
  obtain ⟨n', hn', hkeeps⟩ := hcarries.node P N n hlater hn
  exact ⟨m, n', hbrings, hn', (hbody.keeps.trans hkeeps).restates⟩

/-- Whatever has happened before a document is loaded into a context, and whatever happens after
it but for another load:

* the document of the context has every top-level entry of the loaded one, the four sections aside,
  and an entry for each one of theirs, with the same values under all keys without a meaning, also
  in default entries, and with the same table keys, primitives, expressions and inputs of
  calculations; nodes and arrays that plans have deleted aside, arrays that have lost their id to
  another one, and the actions as soon as one of them has the largest id;
* of a conditional or table that a plan has inserted and none has deleted since, the document has
  what the donor's document says under such keys, and the same place in the source text. -/
theorem unmodeled_kept (n : Nat) (before after : List Event) (cxt : Nat) {content : ByteArray}
    {root : Object} (hroot : Value.ofBytes? content = some (.object root)) {number : Nat}
    {w : Switch}
    (hload : ((start n).after before).switch.init cxt (.bytes content) = .ok (number, w))
    (hafter : ∀ e ∈ after, e.loads cxt = false) :
    let h := (start n).after (before ++ [.load cxt (.bytes content)])
    ∃ c root', (h.after after).switch.contexts[cxt]? = some c ∧
      c.active.program.document = .object root' ∧
      root.DocumentKept c.active.program.actions.BelowMax
        (fun x => h.Deletes cxt after x ∨ c.active.program.Stray x) root' ∧
      ∀ past later donor donorRoot plan, after = past ++ .plan cxt (.bytes donor) plan :: later →
        Value.ofBytes? donor = some (.object donorRoot) →
        ((h.after past).switch.applyPlan cxt (.bytes donor) plan).1 = .success →
        ∀ cs command cs', plan.commands = cs ++ command :: cs' →
          (∀ x, command.inserts? = some x → ¬Session.Deletes cs' x ∧
            ¬(h.after (past ++ [.plan cxt (.bytes donor) plan])).Deletes cxt later x) →
          command.Copies donorRoot root' := by
  intro h
  have hseparate : ∀ events, (h.after events).Separate := by
    intro events
    rw [← after_append]
    exact separate_after n _
  have hreached : ∀ events, (h.after events).AllReached := by
    intro events g hg
    rw [← after_append] at hg
    exact reached_after n _ hg
  obtain ⟨c₀, records, hc₀, hretains, hread⟩ := exists_retains_load hroot hload
  have hstart : (h.after []).switch.contexts[cxt]? = some c₀ := by
    rw [show h.after [] = (start n).after (before ++ [.load cxt (.bytes content)]) from rfl,
      after_append]
    exact hc₀
  obtain ⟨c, hc, hkept⟩ :=
    documentKept_after (hseparate []) (hreached []) hafter hstart hretains hread
  refine ⟨c, c.active.program.root, hc, rfl, hkept, ?_⟩
  rintro past later donor donorRoot plan rfl hdonor hsuccess cs command cs' hcommands hinserted
  rw [after_append] at hc hinserted
  have hlater : ∀ e ∈ later, e.loads cxt = false := fun e he =>
    hafter e (List.mem_append_right past (List.mem_cons_of_mem _ he))
  exact copies_after (hseparate past) (hreached past) hlater hdonor hsuccess hc hcommands hinserted

/-- A document with notes on itself, on a table and on the default entry of the table. -/
def notedDocument : String :=
  "\x7b\"actions\":[\x7b\"id\":4,\"name\":\"x\"\x7d],\"note\":1,\"pipelines\":[" ++
    "\x7b\"id\":0,\"name\":\"p\",\"tables\":[\x7b\"action_ids\":[4],\"default_entry\":" ++
    "\x7b\"action_id\":4,\"note\":2\x7d,\"id\":0,\"name\":\"a\",\"note\":3\x7d]\x7d]\x7d"

/-- A document with a note on another table. -/
def notedDonor : String :=
  "\x7b\"pipelines\":[\x7b\"id\":0,\"name\":\"p\",\"tables\":[" ++
    "\x7b\"id\":0,\"name\":\"b\",\"note\":4,\"source_info\":\x7b\"line\":7\x7d\x7d]\x7d]\x7d"

/-- The entry of the table of the document. -/
def notedTable : Object :=
  [("action_ids", .array [.ofInt 4]),
    ("default_entry", .object [("action_id", .ofInt 4), ("note", .ofInt 2)]),
    ("id", .ofInt 0), ("name", .string "a"), ("note", .ofInt 3)]

/-- The entry of the table of the donor's document. -/
def donatedTable : Object :=
  [("id", .ofInt 0), ("name", .string "b"), ("note", .ofInt 4),
    ("source_info", .object [("line", .ofInt 7)])]

/-- The entry of a pipeline with one table. -/
def pipelineOf (table : Object) : Object :=
  [("id", .ofInt 0), ("name", .string "p"), ("tables", .array [.object table])]

/-- What the document is read as. -/
def notedRoot : Object :=
  [("actions", .array [.object [("id", .ofInt 4), ("name", .string "x")]]), ("note", .ofInt 1),
    ("pipelines", .array [.object (pipelineOf notedTable)])]

/-- What the donor's document is read as. -/
def donatedRoot : Object := [("pipelines", .array [.object (pipelineOf donatedTable)])]

/-- A plan that inserts the table of the donor. -/
def notedPlan : FileContent := .ofText "insert tabl p new_b\n"

/-- Another default entry is set, and a plan is carried out. -/
def notedEvents : List Event :=
  [.setDefault 0 "p" "a" "x" [], .plan 0 (.bytes notedDonor.toUTF8) notedPlan]

theorem pipelineOf_mem_entries {root table : Object}
    (h : root.get? "pipelines" = some (.array [.object (pipelineOf table)])) :
    pipelineOf table ∈ root.entries "pipelines" :=
  Object.mem_entries.mpr ⟨_, h, List.mem_cons_self⟩

theorem mem_entries_pipelineOf (table : Object) : table ∈ (pipelineOf table).entries "tables" :=
  Object.mem_entries.mpr ⟨_, rfl, List.mem_cons_self⟩

/-- The table of the document is not deleted. -/
theorem not_deletes_notedEvents (hcommands : notedPlan.commands = [.insertTable "p" "b"])
    (h : History) : ¬h.Deletes 0 notedEvents (.node "p" "a") := by
  refine not_deletes_of_forall fun e he => ?_
  rcases List.mem_pair.mp he with rfl | rfl
  · exact fun _ => id
  · exact not_deletes_plan hcommands (by decide) 0

/-- The notes of a document and of a donor's document stay. -/
theorem notes_kept : ∃ (c : Context) (root' : Object),
    ((start 1).after (.load 0 (.bytes notedDocument.toUTF8) :: notedEvents)).switch.contexts[0]? =
      some c ∧
    c.active.program.document = .object root' ∧ root'.get? "note" = some (.ofInt 1) ∧
    (∃ p ∈ root'.entries "pipelines", ∃ a ∈ p.entries "tables", a.get? "note" = some (.ofInt 3) ∧
      ∃ d : Object, a.get? "default_entry" = some (.object d) ∧
        d.get? "note" = some (.ofInt 2)) ∧
    ∃ b, root'.Lists "p" "tables" b ∧ b.get? "name" = some (.string "b") ∧
      b.get? "note" = some (.ofInt 4) ∧
      (b.get? "source_info").bind SourceInfo.decode = some ⟨"", 7, 0, ""⟩ := by
  have hroot : Value.ofBytes? notedDocument.toUTF8 = some (.object notedRoot) := by
    rw [show notedDocument = (Value.object notedRoot).compact by decide +kernel]
    exact Value.ofBytes?_compact (Value.plain_of_isPlain (by decide +kernel))
  have hdonor : Value.ofBytes? notedDonor.toUTF8 = some (.object donatedRoot) := by
    rw [show notedDonor = (Value.object donatedRoot).compact by decide +kernel]
    exact Value.ofBytes?_compact (Value.plain_of_isPlain (by decide +kernel))
  have hcommands : notedPlan.commands = [.insertTable "p" "b"] := by decide +kernel
  have haccepted : (((start 1).after []).switch.init 0 (.bytes notedDocument.toUTF8)).isOk := by
    rw [Switch.init, Program.ofFile, Program.ofBytes, hroot]
    decide +kernel
  have hsuccess : ((((start 1).after ([] ++ [.load 0 (.bytes notedDocument.toUTF8)])).after
      [.setDefault 0 "p" "a" "x" []]).switch.applyPlan 0 (.bytes notedDonor.toUTF8)
        notedPlan).1 = .success := by
    decide +kernel
  cases hload : ((start 1).after []).switch.init 0 (.bytes notedDocument.toUTF8) with
  | error e => rw [hload] at haccepted; cases haccepted
  | ok x =>
    obtain ⟨c, root', hc, hdocument, hkept, hcopies⟩ :=
      unmodeled_kept 1 [] notedEvents 0 hroot hload (by decide)
    have hgone := not_deletes_notedEvents hcommands
      ((start 1).after ([] ++ [.load 0 (.bytes notedDocument.toUTF8)]))
    obtain ⟨p, hp, -, hnodes⟩ := hkept.pipeline _ (pipelineOf_mem_entries rfl)
    obtain ⟨a, ha, htable⟩ :=
      (hnodes "p" rfl).table notedTable (mem_entries_pipelineOf _) "a" rfl (not_or.mpr ⟨hgone, id⟩)
    obtain ⟨d, hd, hnote⟩ := htable.default _ rfl
    obtain ⟨b, hb, hcopy⟩ := hcopies [.setDefault 0 "p" "a" "x" []] [] notedDonor.toUTF8 _ notedPlan
      rfl hdonor hsuccess [] (.insertTable "p" "b") [] hcommands
      (fun x _ => ⟨Session.not_deletes_nil x, not_deletes_nil x⟩) donatedTable
      ⟨_, pipelineOf_mem_entries rfl, rfl, mem_entries_pipelineOf _⟩ rfl
    rw [← after_append, List.nil_append, List.singleton_append] at hc
    refine ⟨c, root', hc, hdocument, (hkept.sections "note" (by decide)).trans rfl,
      ⟨p, hp, a, ha, (htable.fields.unknown "note" (by decide)).trans rfl, d, hd,
        (hnote "note" (by decide)).trans rfl⟩, b, hb, hcopy.fields.verbatim "name" (by simp) _ rfl,
      (hcopy.fields.unknown "note" (by decide)).trans rfl, hcopy.fields.source.trans ?_⟩
    decide +kernel

/-- A document of an array with the smallest id, and a note, and one with the largest id. -/
def outermostDocument : String :=
  "\x7b\"register_arrays\":[" ++
    "\x7b\"bitwidth\":8,\"id\":-2147483648,\"name\":\"x\",\"note\":1,\"size\":1\x7d," ++
    "\x7b\"bitwidth\":8,\"id\":2147483647,\"name\":\"y\",\"size\":1\x7d]\x7d"

/-- The entry of the first array. -/
def outermostArray : Object :=
  [("bitwidth", .ofInt 8), ("id", .ofInt minId), ("name", .string "x"), ("note", .ofInt 1),
    ("size", .ofInt 1)]

/-- What the document is read as. -/
def outermostRoot : Object :=
  [("register_arrays", .array [.object outermostArray, .object
    [("bitwidth", .ofInt 8), ("id", .ofInt maxId), ("name", .string "y"), ("size", .ofInt 1)]])]

/-- A plan that inserts a third array. -/
def thirdArrayEvent : Event :=
  .plan 0 (.bytes "\x7b\x7d".toUTF8) (.ofText "insert register_array new_z 1 8\n")

/-- The third array takes the id of the first one, which leaves the document with its note, though
no plan has deleted it. -/
theorem replaced_array_loses_note : ∃ (c : Context) (root' : Object),
    Value.ofBytes? outermostDocument.toUTF8 = some (.object outermostRoot) ∧
      outermostArray ∈ outermostRoot.entries "register_arrays" ∧
      outermostArray.get? "note" = some (.ofInt 1) ∧
      ¬((start 1).after [.load 0 (.bytes outermostDocument.toUTF8)]).Deletes 0 [thirdArrayEvent]
        (.array "x") ∧
      ((start 1).after [.load 0 (.bytes outermostDocument.toUTF8),
        thirdArrayEvent]).switch.contexts[0]? = some c ∧
      c.active.program.document = .object root' ∧
      (root'.entries "register_arrays").map (·.get? "name") =
        [some (.string "z"), some (.string "y")] ∧
      ∀ a ∈ root'.entries "register_arrays", a.get? "note" = none := by
  have hroot : Value.ofBytes? outermostDocument.toUTF8 = some (.object outermostRoot) := by
    rw [show outermostDocument = (Value.object outermostRoot).compact by decide +kernel]
    exact Value.ofBytes?_compact (Value.plain_of_isPlain (by decide +kernel))
  have hentry : outermostArray ∈ outermostRoot.entries "register_arrays" :=
    Object.mem_entries.mpr ⟨_, rfl, List.mem_cons_self⟩
  have hcommands : (FileContent.ofText "insert register_array new_z 1 8\n").commands =
      [.insertArray "z" 1 8] := by decide +kernel
  have hkept (h : History) : ¬h.Deletes 0 [thirdArrayEvent] (.array "x") :=
    not_deletes_of_forall (List.forall_mem_singleton.mpr (not_deletes_plan hcommands (by decide) 0))
  have hentries : ((start 1).after [.load 0 (.bytes outermostDocument.toUTF8),
      thirdArrayEvent]).switch.contexts[0]?.any (fun c =>
        (c.active.program.root.entries "register_arrays").map (·.get? "name") =
          [some (.string "z"), some (.string "y")] ∧
        ∀ a ∈ c.active.program.root.entries "register_arrays", a.get? "note" = none) = true := by
    decide +kernel
  obtain ⟨c, hc, hentries⟩ := (Option.any_eq_true ..).mp hentries
  obtain ⟨hnames, hnotes⟩ := of_decide_eq_true hentries
  exact ⟨c, _, hroot, hentry, rfl, hkept _, hc, rfl, hnames, hnotes⟩

end History

end LiveSwitch
