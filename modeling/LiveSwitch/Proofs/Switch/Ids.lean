import LiveSwitch.Proofs.Switch.Plans
import LiveSwitch.Proofs.Switch.Reloading

/-!
# Ids over the generations of a context

Between two loads of a context its generations come from one another by plans and table
operations.  As long as no object has the largest id, neither in a generation nor in a candidate of
a plan, the counters only move on over all of them, so what a plan inserts has an id that no object
of its kind had in any generation before.

## Main definitions

* `Session.candidates`, `Switch.candidates` — what a plan makes of its program on the way.
* `History.since` — the programs that a context came by since its last load.
* `History.Moves` — what becomes of the program of a context without a load.

## Main results

* `History.ordered_after` — generations are ordered.
* `History.countsOn_after` — a later generation counts on from an earlier one.
* `History.ids_never_reused` — ids are unique in each generation, and a new object has an id
  that no earlier generation has in use.
-/

namespace LiveSwitch

/-! ### Programs on the way -/

/-- The candidates of a session, as commands are carried out up to the first one that fails. -/
def Session.candidates (s : Session) : List Command → List Program
  | [] => [s.candidate]
  | c :: commands =>
    s.candidate :: match s.apply c with
      | .ok s' => s'.candidates commands
      | .error _ => []

/-- The candidates of a plan that is addressed to a context. -/
def Switch.candidates (w : Switch) (cxt : Nat) (document plan : FileContent) : List Program :=
  match w.contexts[cxt]?, Program.ofFile {} document with
  | some c, .ok (donor, _) =>
    Session.candidates { candidate := c.active.program, store := w.store, donor } plan.commands
  | _, _ => []

/-- Whether an event loads a document into a context. -/
def Event.loads (cxt : Nat) : Event → Bool
  | .load cxt' _ => cxt' == cxt
  | _ => false

namespace History

/-- The program that a context runs. -/
def running (h : History) (cxt : Nat) : List Program :=
  (h.switch.contexts[cxt]?).toList.map fun c => c.active.program

/-- The programs that a context comes by in an event: the candidates of a plan, and the program that
it runs afterwards. -/
def comesBy (h : History) (cxt : Nat) (e : Event) : List Program :=
  (match e with
    | .plan cxt' document plan =>
      if cxt' = cxt then h.switch.candidates cxt document plan else []
    | _ => []) ++ (h.apply e).running cxt

/-- Whether an event loads a document into a context with success. -/
def restarts (h : History) (cxt : Nat) : Event → Bool
  | .load cxt' document => cxt' == cxt && (h.switch.init cxt document).toOption.isSome
  | _ => false

/-- An event adds to the programs that a context came by, or starts anew with a load. -/
def witness (cxt : Nat) (x : History × List Program) (e : Event) : History × List Program :=
  (x.1.apply e, (if x.1.restarts cxt e then [] else x.2) ++ x.1.comesBy cxt e)

/-- The programs that a context came by since its last load, after some events. -/
def since (h : History) (cxt : Nat) (events : List Event) : List Program :=
  (events.foldl (witness cxt) (h, h.running cxt)).2

variable {h : History} {cxt : Nat} {c : Context}

theorem after_append (h : History) (l l' : List Event) :
    h.after (l ++ l') = (h.after l).after l' :=
  List.foldl_append

theorem fst_foldl_witness (h : History) (cxt : Nat) (programs : List Program)
    (events : List Event) :
    (events.foldl (witness cxt) (h, programs)).1 = h.after events := by
  induction events generalizing h programs with
  | nil => rfl
  | cons e events ih => exact ih (h.apply e) _

theorem since_concat (h : History) (cxt : Nat) (events : List Event) (e : Event) :
    h.since cxt (events ++ [e]) =
      (if (h.after events).restarts cxt e then [] else h.since cxt events) ++
        (h.after events).comesBy cxt e := by
  rw [since, List.foldl_append, List.foldl_cons, List.foldl_nil, witness, fst_foldl_witness]
  rfl

/-- Only a load starts anew. -/
theorem restarts_of_not_loads {e : Event} (he : e.loads cxt = false) :
    h.restarts cxt e = false := by
  cases e with
  | load i document =>
    rw [restarts, show (i == cxt) = false from he, Bool.false_and]
  | _ => rfl

end History

/-! ### Commands -/

namespace Session

variable {s s' t : Session} {commands : List Command}

theorem mem_candidates_append (h : commands.foldlM apply s = .ok t) (l : List Command)
    {g : Program} : g ∈ s.candidates (commands ++ l) ↔
      g ∈ s.candidates commands ∨ g ∈ t.candidates l := by
  induction commands generalizing s with
  | nil =>
    cases foldlM_nil_eq_ok.mp h
    refine (or_iff_right_of_imp fun hg => ?_).symm
    rw [List.mem_singleton.mp hg]
    cases l <;> exact List.mem_cons_self
  | cons c commands ih =>
    obtain ⟨s₁, hstep, h⟩ := foldlM_cons_eq_ok.mp h
    rw [List.cons_append, candidates, candidates, hstep, List.mem_cons, List.mem_cons, ih h,
      or_assoc]

/-- Commands count on and keep programs ordered, as long as no object has the largest id on the
way. -/
theorem countsOn_foldlM (h : commands.foldlM apply s = .ok s')
    (hmax : ∀ g ∈ s.candidates commands, g.BelowMax) {log : Log}
    (hlog : s.candidate.Traced log) :
    Program.CountsOn True s.candidate s'.candidate ∧ s'.candidate.BelowMax ∧
      (s.candidate.Ordered → s'.candidate.Ordered) ∧ ∃ log, s'.candidate.Traced log := by
  induction commands generalizing s log with
  | nil =>
    cases foldlM_nil_eq_ok.mp h
    exact ⟨.refl _ _, hmax _ List.mem_cons_self, fun ho => ho, log, hlog⟩
  | cons c commands ih =>
    obtain ⟨s₁, hstep, h⟩ := foldlM_cons_eq_ok.mp h
    have hedit := (apply_ok hstep).1
    have hmax₁ : ∀ g ∈ s₁.candidates commands, g.BelowMax := by
      intro g hg
      refine hmax g ?_
      rw [candidates, hstep]
      exact List.mem_cons_of_mem _ hg
    have hhead : s₁.candidate.BelowMax :=
      hmax₁ _ (by cases commands <;> exact List.mem_cons_self)
    obtain ⟨hcounts, hlast, hordered, hlog'⟩ := ih h hmax₁ (hlog.edit hedit)
    have hcounts₁ := Edit.countsOn_run hlog.follows hedit
    refine ⟨(hcounts₁.imp fun _ => hhead).trans hcounts, hlast, fun ho => ?_, hlog'⟩
    exact hordered (Edit.ordered_run ho hhead hlog.follows hedit)

end Session

/-! ### Events -/

namespace History

variable {h : History} {cxt : Nat} {c : Context}

/-- What becomes of the program of a context by an event that loads nothing into the context: it
stays as it is, the entries of a table change, or a plan succeeds. -/
inductive Moves (h : History) (cxt : Nat) (e : Event) (g : Program) : Program → Prop
  | stays : Moves h cxt e g g
  | entry {pipeline table : String} {p : Pipeline} {t t' : Table}
    (hp : g.pipeline? pipeline = some p) (ht : p.table? table = some t)
    (hchange : t.EntryChange t') :
    Moves h cxt e g (g.setPipeline pipeline (p.modifyTable table fun _ => t'))
  | plan {document plan : FileContent} {w : Switch} {c : Context}
    (he : e = .plan cxt document plan)
    (happly : h.switch.applyPlan cxt document plan = (.success, w))
    (hc : w.contexts[cxt]? = some c) : Moves h cxt e g c.active.program

/-- One context changes, and if it is the one in question, its program moves. -/
theorem moves_modify {l : List Context} {e : Event} (hc : l[cxt]? = some c) (i : Nat)
    {f : Context → Context}
    (hf : i = cxt → h.Moves cxt e c.active.program (f c).active.program) :
    ∃ c', (l.modify i f)[cxt]? = some c' ∧
      h.Moves cxt e c.active.program c'.active.program := by
  by_cases hi : i = cxt
  · refine ⟨f c, ?_, hf hi⟩
    rw [hi, List.getElem?_modify_eq, hc]
    rfl
  · exact ⟨c, by rw [List.getElem?_modify_ne _ _ hi, hc], .stays⟩

theorem moves_editTable {e : Event} (hc : h.switch.contexts[cxt]? = some c) {i : Nat}
    {pipeline table : String} {edit : Program → Table → Except SwitchError Table}
    (hedit : ∀ g t t', edit g t = .ok t' → t.EntryChange t') :
    ∃ c', (h.update (h.switch.editTable i pipeline table edit)).switch.contexts[cxt]? = some c' ∧
      h.Moves cxt e c.active.program c'.active.program := by
  cases hx : h.switch.editTable i pipeline table edit with
  | error e => exact ⟨c, hc, .stays⟩
  | ok w =>
    obtain ⟨d, p, t, t', hd, hp, htable, ht', rfl⟩ := Switch.editTable_ok hx
    refine moves_modify hc i fun hi => ?_
    subst hi
    rw [hc, Option.some.injEq] at hd
    subst hd
    exact .entry hp htable (hedit _ t t' ht')

theorem moves_plan (hs : h.Separate) (hc : h.switch.contexts[cxt]? = some c) (i : Nat)
    (document plan : FileContent) :
    ∃ c', (h.apply (.plan i document plan)).switch.contexts[cxt]? = some c' ∧
      h.Moves cxt (.plan i document plan) c.active.program c'.active.program := by
  rcases Switch.applyPlan_cases (hs.active i) document plan with
    ⟨s, code, hcode, -, heq⟩ | ⟨d, program, s, n, -, -, heq⟩
  · rw [apply_plan_failed hcode heq]
    exact moves_modify hc i fun _ => .stays
  · rw [apply_plan_success heq]
    refine moves_modify hc i fun hi => ?_
    subst hi
    refine .plan rfl heq ?_
    rw [List.getElem?_modify_eq, hc]
    rfl

/-- What an event that does not load a document into a context makes of its program. -/
theorem moves_apply (hs : h.Separate) {e : Event} (he : e.loads cxt = false)
    (hc : h.switch.contexts[cxt]? = some c) :
    ∃ c', (h.apply e).switch.contexts[cxt]? = some c' ∧
      h.Moves cxt e c.active.program c'.active.program := by
  by_cases haccess : e.isAccess = true
  · obtain ⟨store, -, heq⟩ := h.apply_access haccess
    rw [heq]
    exact ⟨c, hc, .stays⟩
  cases e with
  | load i document =>
    rcases h.apply_load_cases i document with heq | ⟨d, program, s, -, -, heq⟩
    · rw [heq]
      exact ⟨c, hc, .stays⟩
    · rw [heq]
      exact moves_modify hc i fun hi => absurd hi (by simpa [Event.loads] using he)
  | plan i document plan => exact moves_plan hs hc i document plan
  | addEntry i pipeline table key action data =>
    refine moves_editTable hc fun g t t' hedit => ?_
    simp only [bind_eq_ok, mapError_eq_ok] at hedit
    obtain ⟨_, -, hadd⟩ := hedit
    exact .add key _ hadd
  | deleteEntry i pipeline table key =>
    exact moves_editTable hc fun g t t' hedit => .delete key (mapError_eq_ok.mp hedit)
  | setDefault i pipeline table action data =>
    refine moves_editTable hc fun g t t' hedit => ?_
    simp only [bind_eq_ok, mapError_eq_ok] at hedit
    obtain ⟨_, -, hset⟩ := hedit
    exact .setDefault _ hset
  | _ => exact absurd rfl haccess

/-- A switch keeps its contexts. -/
theorem length_contexts_apply (hs : h.Separate) (e : Event) :
    (h.apply e).switch.contexts.length = h.switch.contexts.length := by
  by_cases haccess : e.isAccess = true
  · obtain ⟨store, -, heq⟩ := h.apply_access haccess
    rw [heq]
    rfl
  have htable : ∀ {i : Nat} {pipeline table : String}
      {edit : Program → Table → Except SwitchError Table},
      (h.update (h.switch.editTable i pipeline table edit)).switch.contexts.length =
        h.switch.contexts.length := by
    intro i pipeline table edit
    cases hx : h.switch.editTable i pipeline table edit with
    | error e => rfl
    | ok w =>
      obtain ⟨d, p, t, t', -, -, -, -, rfl⟩ := Switch.editTable_ok hx
      exact List.length_modify ..
  cases e with
  | load i document =>
    rcases h.apply_load_cases i document with heq | ⟨d, program, s, -, -, heq⟩
    · rw [heq]
    · rw [heq]
      exact List.length_modify ..
  | plan i document plan =>
    rcases Switch.applyPlan_cases (hs.active i) document plan with
      ⟨s, code, hcode, -, heq⟩ | ⟨d, program, s, k, -, -, heq⟩
    · rw [apply_plan_failed hcode heq]
      exact List.length_modify ..
    · rw [apply_plan_success heq]
      exact List.length_modify ..
  | addEntry => exact htable
  | deleteEntry => exact htable
  | setDefault => exact htable
  | _ => exact absurd rfl haccess

/-- What becomes of a program without a load counts on and stays ordered, as long as no object has
the largest id on the way. -/
theorem Moves.countsOn {e : Event} {g : Program} (hmoves : h.Moves cxt e c.active.program g)
    (hc : h.switch.contexts[cxt]? = some c) (ht : h.AllReached) (hmax : g.BelowMax)
    (hcandidates : ∀ document plan, e = .plan cxt document plan →
      ∀ g ∈ h.switch.candidates cxt document plan, g.BelowMax) :
    Program.CountsOn True c.active.program g ∧ (c.active.program.Ordered → g.Ordered) := by
  obtain ⟨log, hlog⟩ := (ht.active hc).traced
  cases hmoves with
  | stays => exact ⟨.refl _ _, fun ho => ho⟩
  | entry hp htable hchange =>
    have hcounts := Program.countsOn_entry True hlog.follows hp htable hchange
    exact ⟨hcounts, fun ho => hcounts.ordered trivial hmax ho fun _ _ hx =>
      Program.hasNode_of_entry hlog.follows hp htable hchange hx⟩
  | @plan document plan w d he happly hd =>
    obtain ⟨c', donor, s₀, s, hc', hdonor, hcommands, rfl⟩ := Switch.applyPlan_success happly
    rw [hc, Option.some.injEq] at hc'
    subst hc'
    have heq : h.switch.candidates cxt document plan = Session.candidates
        { candidate := c.active.program, store := h.switch.store, donor } plan.commands := by
      rw [Switch.candidates, hc, hdonor]
    have hbelow := hcandidates document plan he
    rw [heq] at hbelow
    obtain ⟨hcounts, -, hordered, -⟩ := Session.countsOn_foldlM hcommands hbelow hlog
    rw [List.getElem?_modify_eq, hc, Option.map_eq_map, Option.map_some, Option.some.injEq] at hd
    subst hd
    have hcommit := Program.countsOn_commitArrays True s.candidate s.store
    exact ⟨hcounts.trans hcommit, fun ho =>
      hcommit.ordered trivial hmax (hordered ho) fun _ _ hx => hx⟩

/-- An event without a load adds what the context comes by, and its program counts on. -/
theorem countsOn_apply (hs : h.Separate) (ht : h.AllReached) {e : Event}
    (he : e.loads cxt = false) (hmax : ∀ g ∈ h.comesBy cxt e, g.BelowMax)
    (hc : h.switch.contexts[cxt]? = some c) :
    ∃ c', (h.apply e).switch.contexts[cxt]? = some c' ∧
      Program.CountsOn True c.active.program c'.active.program ∧
      (c.active.program.Ordered → c'.active.program.Ordered) := by
  obtain ⟨c', hc', hmoves⟩ := moves_apply hs he hc
  refine ⟨c', hc', hmoves.countsOn hc ht (hmax _ ?_) fun document plan heq g hg => hmax g ?_⟩
  · refine List.mem_append_right _ ?_
    rw [running, hc']
    exact List.mem_singleton.mpr rfl
  · subst heq
    refine List.mem_append_left _ ?_
    show g ∈ if cxt = cxt then _ else _
    rwa [if_pos rfl]

/-- Over events without a load of the context, its program counts on. -/
theorem countsOn_after (n : Nat) (past future : List Event)
    (hloads : ∀ e ∈ future, e.loads cxt = false)
    (hmax : ∀ g ∈ (start n).since cxt (past ++ future), g.BelowMax)
    (hc : ((start n).after past).switch.contexts[cxt]? = some c) :
    ∃ c', ((start n).after (past ++ future)).switch.contexts[cxt]? = some c' ∧
      Program.CountsOn True c.active.program c'.active.program := by
  induction future using List.reverseRecOn with
  | nil => exact ⟨c, by rwa [List.append_nil], .refl _ _⟩
  | append_singleton future e ih =>
    have he : e.loads cxt = false := hloads e (List.mem_append_right _ List.mem_cons_self)
    rw [← List.append_assoc, since_concat, restarts_of_not_loads he,
      if_neg Bool.false_ne_true] at hmax
    rw [List.forall_mem_append] at hmax
    obtain ⟨c₁, hc₁, hcounts₁⟩ := ih (fun e he => hloads e (List.mem_append_left _ he)) hmax.1
    obtain ⟨c₂, hc₂, hcounts₂, -⟩ := countsOn_apply (separate_after n _)
      (fun g => reached_after n _) he hmax.2 hc₁
    refine ⟨c₂, ?_, hcounts₁.trans hcounts₂⟩
    rw [← List.append_assoc, after_append]
    exact hc₂

/-- What a context came by earlier, it came by since its last load, if there was no load. -/
theorem since_subset (n : Nat) (past future : List Event)
    (hloads : ∀ e ∈ future, e.loads cxt = false) {g : Program}
    (hg : g ∈ (start n).since cxt past) : g ∈ (start n).since cxt (past ++ future) := by
  induction future using List.reverseRecOn with
  | nil => rwa [List.append_nil]
  | append_singleton future e ih =>
    rw [← List.append_assoc, since_concat,
      restarts_of_not_loads (hloads e (List.mem_append_right _ List.mem_cons_self)),
      if_neg Bool.false_ne_true]
    exact List.mem_append_left _ (ih fun e he => hloads e (List.mem_append_left _ he))

/-- A load makes a program that is ordered, up to the largest id, or it fails. -/
theorem ordered_load {document : FileContent}
    (hmax : ∀ g ∈ h.comesBy cxt (.load cxt document), g.BelowMax)
    (hc : (h.apply (.load cxt document)).switch.contexts[cxt]? = some c) :
    (h.restarts cxt (.load cxt document) = false ∧ h.apply (.load cxt document) = h) ∨
      c.active.program.Ordered := by
  cases hload : h.switch.init cxt document with
  | error e =>
    left
    rw [restarts, apply, hload]
    exact ⟨Bool.and_false _, rfl⟩
  | ok x =>
    right
    obtain ⟨d, program, s, hd, hfile, hw⟩ := Switch.init_ok hload
    obtain ⟨v, hdocument⟩ := Program.ofFile_ok hfile
    have hrunning : c.active.program ∈ h.comesBy cxt (.load cxt document) := by
      refine List.mem_append_right _ ?_
      rw [running, hc]
      exact List.mem_singleton.mpr rfl
    have hbelow := hmax _ hrunning
    have hprogram : c.active.program = program := by
      rw [apply, hload] at hc
      have hc' : x.2.contexts[cxt]? = some c := hc
      rw [hw, Switch.setActive, List.getElem?_modify_eq, hd, Option.map_eq_map, Option.map_some,
        Option.some.injEq] at hc'
      rw [← hc']
    rw [hprogram] at hbelow ⊢
    exact Program.ordered_ofDocument hdocument hbelow

/-- The program of a context is ordered, as long as it came by none with the largest id since its
last load. -/
theorem ordered_after (n : Nat) (events : List Event)
    (hmax : ∀ g ∈ (start n).since cxt events, g.BelowMax)
    (hc : ((start n).after events).switch.contexts[cxt]? = some c) : c.active.program.Ordered := by
  induction events using List.reverseRecOn generalizing c with
  | nil =>
    have hstart : c = {} := List.eq_of_mem_replicate (List.mem_of_getElem? hc)
    rw [hstart]
    exact Program.ordered_start
  | append_singleton events e ih =>
    rw [since_concat, List.forall_mem_append] at hmax
    rw [after_append] at hc
    have hc' : (((start n).after events).apply e).switch.contexts[cxt]? = some c := hc
    have hcxt : cxt < ((start n).after events).switch.contexts.length := by
      rw [← length_contexts_apply (separate_after n _) e]
      exact (List.getElem?_eq_some_iff.mp hc').1
    obtain ⟨c₀, hc₀⟩ : ∃ c₀, ((start n).after events).switch.contexts[cxt]? = some c₀ :=
      ⟨_, List.getElem?_eq_getElem hcxt⟩
    by_cases he : e.loads cxt = true
    · cases e with
      | load i document =>
        obtain rfl : i = cxt := beq_iff_eq.mp he
        rcases ordered_load hmax.2 hc' with ⟨hfails, hsame⟩ | ho
        · rw [hfails, if_neg Bool.false_ne_true] at hmax
          rw [hsame] at hc'
          exact ih hmax.1 hc'
        · exact ho
      | _ => cases he
    · rw [Bool.not_eq_true] at he
      rw [restarts_of_not_loads he, if_neg Bool.false_ne_true] at hmax
      obtain ⟨c₁, hc₁, -, hordered⟩ := countsOn_apply (separate_after n _)
        (fun g => reached_after n _) he hmax.2 hc₀
      rw [hc', Option.some.injEq] at hc₁
      subst hc₁
      exact hordered (ih hmax.1 hc₀)

/-- Between two loads of a context, the ids of each of its generations are unique and below the
next one, and the next id never goes back from a generation to a later one.  An object that the
next event brings, and one that a command of a plan brings, has an id that no object of its kind
had in any generation since the load.  All that holds as long as no object has the largest id. -/
theorem ids_never_reused (n : Nat) (before past future : List Event) (cxt : Nat)
    (hloads : ∀ e ∈ past ++ future, e.loads cxt = false)
    (hmax : ∀ g ∈ (start n).since cxt (before ++ past ++ future), g.BelowMax) {c c' : Context}
    (hc : ((start n).after (before ++ past)).switch.contexts[cxt]? = some c)
    (hc' : ((start n).after (before ++ past ++ future)).switch.contexts[cxt]? = some c') :
    c'.active.program.Numbered ∧
    (∀ kind, c.active.program.nextId kind ≤ c'.active.program.nextId kind) ∧
    (∀ e c'', e.loads cxt = false →
      (∀ g ∈ (start n).since cxt (before ++ past ++ future ++ [e]), g.BelowMax) →
      ((start n).after (before ++ past ++ future ++ [e])).switch.contexts[cxt]? = some c'' →
      ∀ kind, ∀ x ∈ c''.active.program.holdings kind, x ∉ c'.active.program.holdings kind →
        x.2.id ∉ c.active.program.idsInUse kind) ∧
    ∀ (store : Store) (donor : Program) (commands : List Command) (command : Command)
        (s s' : Session),
      (∀ g ∈ Session.candidates { candidate := c'.active.program, store, donor }
        (commands ++ [command]), g.BelowMax) →
      commands.foldlM Session.apply { candidate := c'.active.program, store, donor } = .ok s →
      s.apply command = .ok s' →
      ∀ kind, ∀ x ∈ s'.candidate.holdings kind, x ∉ s.candidate.holdings kind →
        x.2.id ∉ c.active.program.idsInUse kind := by
  have hall : ∀ events, ((start n).after events).AllReached := fun events g => reached_after n _
  obtain ⟨d, hd, hcounts⟩ := countsOn_after n (before ++ past) future
    (fun e he => hloads e (List.mem_append_right _ he)) hmax hc
  rw [hc', Option.some.injEq] at hd
  subst hd
  have hreached : c'.active.program.Reached := (hall _).active hc'
  have hordered := ordered_after n _ hmax hc'
  -- the earlier generation came by no larger ids than the later one
  have hearlier : c.active.program.Ordered :=
    ordered_after n _ (fun g hg => hmax g (since_subset n (before ++ past) future
      (fun e he => hloads e (List.mem_append_right _ he)) hg)) hc
  have hnew : ∀ {g g' : Program} {kind x}, Program.CountsOn True c'.active.program g →
      Program.CountsOn True g g' → x ∈ g'.holdings kind → x ∉ g.holdings kind →
      x.2.id ∉ c.active.program.idsInUse kind := by
    intro g g' kind x hg hg' hx hold hmem
    have hid := hg'.next_le_of_fresh trivial hx hold
    have hnext := ((hcounts.trans hg).next kind).le trivial
    have hlt := hearlier.below kind _ hmem
    omega
  refine ⟨hreached.sound.numbered hordered, fun kind => (hcounts.next kind).le trivial, ?_, ?_⟩
  · intro e c'' he hmax' hc'' kind x hx hold
    obtain ⟨d, hd, hcounts'⟩ := countsOn_after n (before ++ past ++ future) [e]
      (fun e' he' => List.mem_singleton.mp he' ▸ he) hmax' hc'
    rw [hc'', Option.some.injEq] at hd
    subst hd
    exact hnew (.refl _ _) hcounts' hx hold
  · intro store donor commands command s s' hmax' hs hs' kind x hx hold
    obtain ⟨log, hlog⟩ := hreached.traced
    have hsplit := fun g => Session.mem_candidates_append (g := g) hs [command]
    obtain ⟨hcounts', -, -, log', hlog'⟩ := Session.countsOn_foldlM hs
      (fun g hg => hmax' g ((hsplit g).mpr (Or.inl hg))) hlog
    obtain ⟨hlast, -, -, -⟩ := Session.countsOn_foldlM (foldlM_cons_eq_ok.mpr ⟨s', hs', rfl⟩)
      (fun g hg => hmax' g ((hsplit g).mpr (Or.inr hg))) hlog'
    exact hnew hcounts' hlast hx hold

/-- A document with an array whose id is negative. -/
def arrayDocument : FileContent :=
  .ofText ("\x7b\"register_arrays\":[" ++
    "\x7b\"name\":\"a\",\"id\":-3,\"size\":2,\"bitwidth\":8\x7d]\x7d")

/-- A plan that deletes the array and inserts one of its name. -/
def replacingPlan : FileContent :=
  .ofText "delete register_array old_a\ninsert register_array new_a 2 8\n"

/-- The array that takes the place of another has another id. -/
theorem replaced_array_has_new_id :
    ∃ c c', ((start 1).after [.load 0 arrayDocument]).switch.contexts[0]? = some c ∧
      ((start 1).after [.load 0 arrayDocument, .plan 0 arrayDocument replacingPlan]
        ).switch.contexts[0]? = some c' ∧
      c.active.program.idsInUse .registerArray = [-3] ∧
      c'.active.program.idsInUse .registerArray = [0] ∧ c'.active.program.Numbered ∧
      ∀ kind, c.active.program.nextId kind ≤ c'.active.program.nextId kind := by
  have hload : (((start 1).after [.load 0 arrayDocument]).switch.contexts[0]?.map fun c =>
      c.active.program.idsInUse .registerArray) = some [-3] := by decide +kernel
  have hplan : (((start 1).after [.load 0 arrayDocument, .plan 0 arrayDocument replacingPlan]
      ).switch.contexts[0]?.map fun c => c.active.program.idsInUse .registerArray) =
      some [0] := by decide +kernel
  obtain ⟨c, hc, hids⟩ := Option.map_eq_some_iff.mp hload
  obtain ⟨c', hc', hids'⟩ := Option.map_eq_some_iff.mp hplan
  have hmax : ∀ g ∈ (start 1).since 0 [.load 0 arrayDocument, .plan 0 arrayDocument replacingPlan],
      g.BelowMax := by decide +kernel
  have hall := ids_never_reused 1 [.load 0 arrayDocument] []
    [.plan 0 arrayDocument replacingPlan] 0 (by decide) hmax hc hc'
  exact ⟨c, c', hc, hc', hids, hids', hall.1, hall.2.1⟩

end History

end LiveSwitch
