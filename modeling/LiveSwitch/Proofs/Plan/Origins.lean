import LiveSwitch.Document.Load
import LiveSwitch.Proofs.Plan.Layouts
import LiveSwitch.Proofs.Plan.Refusals

/-!
# Where the objects of a plan come from

A reference claims that its object was there before the plan, or that the plan has inserted it.
Beside its candidate a session keeps the names that the plan has inserted.  Each command changes
both in step, so the session accepts a reference just when its claim is true: an object that was
there at the start and was not deleted since is old, and one that was inserted and not deleted
since is new.  Only for an array that has lost its id to a new one is this not so: its name stays,
and leads to the new array, or to none once that is deleted.

## Main definitions

* `Program.Kept`, `Command.Added`, `Reference.Resolves` — what a reference claims.
* `Session.ChangesNotes` — what a command makes of the names that a session keeps.
* `Session.Sourced` — the invariant.

## Main results

* `Session.Sourced.apply` — a command keeps the invariant.
* `Session.Sourced.reaches_iff` — a reference can be reached just when its claim is true.
* `Session.references_resolve` — references resolve by origin.
* `Session.stray_name_deletes_new_array` — a name that has gone astray.
-/

namespace LiveSwitch

/-! ### What references claim -/

namespace Subject

/-- The reference to an object as one that was there before the plan. -/
def old : Subject → Reference
  | node pipeline name => .node pipeline (.old name)
  | array name => .array (.old name)

/-- The reference to an object as one that the plan has inserted. -/
def new : Subject → Reference
  | node pipeline name => .node pipeline (.new name)
  | array name => .array (.new name)

end Subject

namespace Command

/-- The plan has inserted an object and has not deleted it since. -/
def Added (cs : List Command) (x : Subject) : Prop :=
  ∃ before c after, cs = before ++ c :: after ∧ c.inserts? = some x ∧
    ∀ d ∈ after, d.deletes? ≠ some x

end Command

/-- An object was there at the start of the plan, and the plan has not deleted it since. -/
def Program.Kept (g : Program) (cs : List Command) (x : Subject) : Prop :=
  g.Has x ∧ ∀ c ∈ cs, c.deletes? ≠ some x

open Command in
/-- What a reference claims is true after some commands of a plan that started with a
program. -/
def Reference.Resolves (g : Program) (cs : List Command) : Reference → Prop
  | node pipeline (.old name) => g.Kept cs (.node pipeline name)
  | node pipeline (.new name) => Added cs (.node pipeline name)
  | array (.old name) => g.Kept cs (.array name)
  | array (.new name) => Added cs (.array name)

open Command in
theorem Reference.resolves_iff (g : Program) (cs : List Command) (r : Reference) :
    r.Resolves g cs ↔ if r.isNew then Added cs r.subject else g.Kept cs r.subject := by
  rcases r with ⟨pipeline, name | name⟩ | ⟨name | name⟩ <;> exact Iff.rfl

namespace Command

variable {cs : List Command} {c : Command} {x : Subject}

/-- The objects of the references of a command are those that its edit mentions. -/
theorem map_subject_references (c : Command) :
    c.references.map Reference.subject = c.edit.subjects := by
  cases c with
  | insertFlex pipeline name falseNext trueNext => cases falseNext <;> cases trueNext <;> rfl
  | changeConditional pipeline node branch target => cases target <;> rfl
  | changeTable pipeline node slot target => cases target <;> rfl
  | _ => rfl

theorem added_append_singleton : Added (cs ++ [c]) x ↔
    c.inserts? = some x ∨ Added cs x ∧ c.deletes? ≠ some x := by
  constructor
  · rintro ⟨before, i, after, heq, hi, hafter⟩
    rcases List.eq_nil_or_concat' after with rfl | ⟨after, d, rfl⟩
    · obtain ⟨-, rfl⟩ := List.append_singleton_inj.mp heq
      exact Or.inl hi
    · rw [← List.cons_append, ← List.append_assoc] at heq
      obtain ⟨rfl, rfl⟩ := List.append_singleton_inj.mp heq
      rw [List.forall_mem_append, List.forall_mem_singleton] at hafter
      exact Or.inr ⟨⟨before, i, after, rfl, hi, hafter.1⟩, hafter.2⟩
  · rintro (hc | ⟨⟨before, i, after, rfl, hi, hafter⟩, hc⟩)
    · exact ⟨cs, c, [], rfl, hc, List.forall_mem_nil _⟩
    · refine ⟨before, i, after ++ [c], by simp, hi, ?_⟩
      rw [List.forall_mem_append, List.forall_mem_singleton]
      exact ⟨hafter, hc⟩

/-- An object that was deleted and not inserted again is not added. -/
theorem not_added {before after : List Command} (hc : c.deletes? = some x)
    (hafter : ∀ d ∈ after, d.inserts? ≠ some x) : ¬Added (before ++ c :: after) x := by
  induction after using List.reverseRecOn with
  | nil =>
    rw [added_append_singleton]
    rintro (hinserts | ⟨-, hdeletes⟩)
    · rw [deletes?, Edit.deletes?_of_inserts? hinserts] at hc
      cases hc
    · exact hdeletes hc
  | append_singleton after d ih =>
    rw [List.forall_mem_append, List.forall_mem_singleton] at hafter
    rw [← List.cons_append, ← List.append_assoc, added_append_singleton]
    rintro (hinserts | ⟨hadded, -⟩)
    · exact hafter.2 hinserts
    · exact ih hafter.1 hadded

end Command

open Command in
theorem Subject.resolves_new {g : Program} {cs : List Command} {x : Subject} :
    x.new.Resolves g cs ↔ Added cs x := by
  cases x <;> exact Iff.rfl

/-! ### The names that a session keeps -/

namespace Session

open Command

variable {s s' : Session} {c : Command} {g : Program} {cs : List Command}

/-- From one session to the next an object is noted, or one is forgotten. -/
def ChangesNotes (s : Session) (inserts? deletes? : Option Subject) (s' : Session) : Prop :=
  ∀ x, s'.Notes x ↔ inserts? = some x ∨ s.Notes x ∧ deletes? ≠ some x

theorem changesNotes_same (hnodes : s'.newNodes = s.newNodes)
    (harrays : s'.newArrays = s.newArrays) :
    s.ChangesNotes none none s' := by
  intro x
  cases x with
  | node pipeline name => simp [Notes, hnodes]
  | array name => simp [Notes, harrays]

theorem changesNotes_noteNode (s : Session) (pipeline name : String) :
    s.ChangesNotes (some (.node pipeline name)) none (s.noteNode pipeline name) := by
  intro x
  cases x with
  | node P n => simp [noteNode, Notes, eq_comm (a := P), eq_comm (a := n)]
  | array n => simp [noteNode, Notes]

theorem changesNotes_forgetNode (s : Session) (pipeline name : String) :
    s.ChangesNotes none (some (.node pipeline name)) (s.forgetNode pipeline name) := by
  intro x
  cases x with
  | node P n => simp [forgetNode, Notes, eq_comm (a := P), eq_comm (a := n)]
  | array n => simp [forgetNode, Notes]

theorem changesNotes_noteArray {name : String} (hnodes : s'.newNodes = s.newNodes)
    (harrays : s'.newArrays = name :: s.newArrays) :
    s.ChangesNotes (some (.array name)) none s' := by
  intro x
  cases x with
  | node P n => simp [Notes, hnodes]
  | array n => simp [Notes, harrays, eq_comm (a := n)]

theorem changesNotes_forgetArray {name : String} (hnodes : s'.newNodes = s.newNodes)
    (harrays : s'.newArrays = s.newArrays.filter (· != name)) :
    s.ChangesNotes none (some (.array name)) s' := by
  intro x
  cases x with
  | node P n => simp [Notes, hnodes]
  | array n => simp [Notes, harrays, eq_comm (a := n)]

/-- A command notes what it inserts, and forgets what it deletes. -/
theorem changesNotes_note (s : Session) (c : Command) :
    s.ChangesNotes c.inserts? c.deletes? (s.note c) := by
  cases c with
  | insertConditional pipeline name | insertFlex pipeline name | insertTable pipeline name =>
    exact changesNotes_noteNode s pipeline name
  | deleteConditional pipeline node | deleteTable pipeline node =>
    exact changesNotes_forgetNode s pipeline node.name
  | insertArray => exact changesNotes_noteArray rfl rfl
  | deleteArray => exact changesNotes_forgetArray rfl rfl
  | changeConditional | changeTable | resizeArray | rewidenArray | rehash =>
    exact changesNotes_same rfl rfl

theorem changesNotes_of_perform (h : s.perform c = .ok s') :
    s.ChangesNotes c.inserts? c.deletes? s' := by
  obtain ⟨-, x, -, rfl⟩ := perform_eq_ok.mp h
  exact changesNotes_note { s with candidate := x.1, store := x.2 } c

/-! ### The invariant -/

/-- The names that are taken are those that were kept and those that were added, and the session
has noted the latter.  A name that was astray and was kept still is. -/
structure Sourced (s : Session) (g : Program) (cs : List Command) : Prop where
  consistent : s.candidate.arrays.Consistent
  takes : ∀ x, s.candidate.Takes x ↔ g.Takes x ∧ (∀ c ∈ cs, c.deletes? ≠ some x) ∨ Added cs x
  notes : ∀ x, s.Notes x ↔ Added cs x
  apart : ∀ x, g.Takes x → (∀ c ∈ cs, c.deletes? ≠ some x) → ¬Added cs x
  stray : ∀ x, g.Stray x → (∀ c ∈ cs, c.deletes? ≠ some x) → s.candidate.Stray x

theorem sourced_start {g : Program} (hg : g.arrays.Consistent) (donor : Program) (store : Store) :
    ({ candidate := g, store, donor } : Session).Sourced g [] := by
  have hnone : ∀ x, ¬Added [] x := by
    rintro x ⟨before, c, after, heq, -⟩
    exact List.append_ne_nil_of_right_ne_nil before (List.cons_ne_nil c after) heq.symm
  refine ⟨hg, fun x => ?_, fun x => ?_, fun x _ _ => hnone x, fun x hx _ => hx⟩
  · rw [or_iff_left (hnone x)]
    exact (and_iff_left (List.forall_mem_nil _)).symm
  · refine iff_of_false ?_ (hnone x)
    cases x <;> exact List.not_mem_nil

/-- A command keeps the invariant. -/
theorem Sourced.apply (hs : s.Sourced g cs) (h : s.apply c = .ok s') :
    s'.Sourced g (cs ++ [c]) := by
  obtain ⟨t, ht, h⟩ := bind_eq_ok.mp h
  cases h
  obtain ⟨hrun, -⟩ := perform_ok ht
  have hnames := Edit.changesNames_run hs.consistent hrun
  have hnoted := changesNotes_of_perform ht
  refine ⟨Edit.consistent_run hs.consistent hrun, fun x => ?_, fun x => ?_, fun x => ?_,
    fun x => ?_⟩
  · show t.candidate.Takes x ↔ _
    rw [hnames.takes, hs.takes, List.forall_mem_append, List.forall_mem_singleton,
      added_append_singleton, or_and_right, or_left_comm, and_assoc]
    exact Iff.rfl
  · show t.Notes x ↔ _
    rw [hnoted x, hs.notes, added_append_singleton]
  · rw [List.forall_mem_append, List.forall_mem_singleton, added_append_singleton]
    rintro hx ⟨hkept, -⟩ (hinserts | ⟨hadded, -⟩)
    · -- what is inserted was not there before
      exact hnames.free x hinserts ((hs.takes x).mpr (Or.inl ⟨hx, hkept⟩))
    · exact hs.apart x hx hkept hadded
  · rw [List.forall_mem_append, List.forall_mem_singleton]
    rintro hx ⟨hkept, hc⟩
    exact Edit.stray_run hrun (hs.stray x hx hkept) hc

theorem Sourced.foldlM {l : List Command} (hs : s.Sourced g cs)
    (h : l.foldlM Session.apply s = .ok s') : s'.Sourced g (cs ++ l) := by
  induction l generalizing s cs with
  | nil =>
    rw [foldlM_nil_eq_ok] at h
    rw [List.append_nil]
    exact h ▸ hs
  | cons c l ih =>
    obtain ⟨t, ht, h⟩ := foldlM_cons_eq_ok.mp h
    have ht' := ih (hs.apply ht) h
    rwa [List.append_assoc] at ht'

/-- A name that is not astray was not at the start either, if it was kept. -/
theorem Sourced.kept_iff (hs : s.Sourced g cs) {x : Subject} (hx : ¬s.candidate.Stray x) :
    g.Kept cs x ↔ g.Takes x ∧ ∀ c ∈ cs, c.deletes? ≠ some x := by
  rw [Program.Kept, and_congr_left_iff]
  exact fun hkept => (Program.takes_iff_has fun hstray => hx (hs.stray x hstray hkept)).symm

/-- An object that is there and was noted just if a reference claims it: the claim is true. -/
theorem Sourced.resolves_iff (hs : s.Sourced g cs) {r : Reference}
    (hr : ¬s.candidate.Stray r.subject) :
    r.Resolves g cs ↔ s.Accepts r ∧ s.candidate.Has r.subject := by
  rw [Reference.resolves_iff, Accepts, ← Program.takes_iff_has hr, hs.takes, hs.notes,
    hs.kept_iff hr]
  have hapart := hs.apart r.subject
  split
  case isTrue hnew =>
    simp only [hnew, iff_true]
    exact ⟨fun hadded => ⟨hadded, Or.inr hadded⟩, And.left⟩
  case isFalse hold =>
    simp only [hold, Bool.false_eq_true, iff_false]
    constructor
    · exact fun hkept => ⟨hapart hkept.1 hkept.2, Or.inl hkept⟩
    · exact fun ⟨hadded, hor⟩ => hor.resolve_right hadded

/-- A command that succeeds finds an object under each of its references, and none of these claims
what is false, unless the name is astray. -/
theorem has_of_apply (h : s.apply c = .ok s') :
    ∀ r ∈ c.references, s.Accepts r ∧ s.candidate.Has r.subject := by
  obtain ⟨t, ht, -⟩ := bind_eq_ok.mp h
  have hhas := Edit.has_of_run (perform_ok ht).1
  rw [← map_subject_references, List.forall_mem_map] at hhas
  obtain ⟨haccepts, -⟩ := perform_eq_ok.mp ht
  exact fun r hr => ⟨haccepts r hr, hhas r hr⟩

/-! ### What can be reached -/

/-- Some command with a reference succeeds. -/
def Reaches (s : Session) (r : Reference) : Prop :=
  ∃ c s', r ∈ Command.references c ∧ s.apply c = .ok s'

theorem reaches_of_run {r : Reference} {x : Program × Store} (hr : r ∈ c.references)
    (haccepts : ∀ r ∈ c.references, s.Accepts r)
    (hrun : c.edit.run s.donor (s.candidate, s.store) = .ok x) : s.Reaches r := by
  have hperform := perform_eq_ok.mpr ⟨haccepts, x, hrun, rfl⟩
  exact ⟨c, _, hr, bind_eq_ok.mpr ⟨_, hperform, rfl⟩⟩

/-- An object that is there can be reached by a reference that is accepted: an array by resizing
it, a node as the target of a new flex node. -/
theorem reaches_of_accepts {r : Reference} (haccepts : s.Accepts r)
    (hhas : s.candidate.Has r.subject) : s.Reaches r := by
  cases r with
  | array r =>
    obtain ⟨a, ha⟩ := Option.isSome_iff_exists.mp hhas
    -- any size will do
    have hresize : s.candidate.resizeArray r.name 1 =
        .ok (s.candidate.setArray r.name (a.resized 1)) :=
      bind_eq_ok.mpr ⟨a, Program.existingArray_eq_ok.mpr ha, rfl⟩
    exact reaches_of_run (c := .resizeArray r 1) (List.mem_singleton_self _)
      (List.forall_mem_singleton.mpr haccepts) (pair_eq_ok.mpr ⟨hresize, rfl⟩)
  | node pipeline r =>
    obtain ⟨ref, href⟩ := Option.isSome_iff_exists.mp hhas
    obtain ⟨p, hp, hr⟩ := Option.bind_eq_some_iff.mp href
    obtain ⟨name, hname⟩ := p.exists_free
    obtain ⟨g, hg⟩ := Program.exists_insertFlex hp hname hr
    exact reaches_of_run (c := .insertFlex pipeline name none (some r))
      (List.mem_singleton_self _) (List.forall_mem_singleton.mpr haccepts)
      (pair_eq_ok.mpr ⟨hg, rfl⟩)

theorem reaches_iff {r : Reference} : s.Reaches r ↔ s.Accepts r ∧ s.candidate.Has r.subject :=
  ⟨fun ⟨_, _, hr, h⟩ => has_of_apply h r hr,
    fun ⟨haccepts, hhas⟩ => reaches_of_accepts haccepts hhas⟩

theorem Sourced.reaches_iff {g : Program} {cs : List Command} (hs : s.Sourced g cs) {r : Reference}
    (hr : ¬s.candidate.Stray r.subject) : s.Reaches r ↔ r.Resolves g cs :=
  Session.reaches_iff.trans (hs.resolves_iff hr).symm

/-- What was added cannot be reached as old. -/
theorem Sourced.not_reaches_old {g : Program} {cs : List Command} (hs : s.Sourced g cs)
    {x : Subject} (hx : Added cs x) : ¬s.Reaches x.old := by
  rw [Session.reaches_iff]
  rintro ⟨haccepts, -⟩
  have hnotes : s.Notes x := (hs.notes x).mpr hx
  cases x <;> exact Bool.false_ne_true (haccepts.mp hnotes)

/-- A name that is free can be reached as neither. -/
theorem not_reaches_of_free {x : Subject} (hx : ¬s.candidate.Takes x) :
    ¬s.Reaches x.new ∧ ¬s.Reaches x.old := by
  rw [Session.reaches_iff, Session.reaches_iff]
  have hhas : ¬s.candidate.Has x := fun h => hx (Program.takes_of_has h)
  cases x <;> exact ⟨fun h => hhas h.2, fun h => hhas h.2⟩

open Command in
/-- References resolve by origin, but for names that have gone astray.  After any commands of a
plan, a command succeeds only if its references to old objects mean ones that were there at the
start and were not deleted since, and its references to new ones mean ones that the plan has
inserted and has not deleted since.  A name that is inserted, after a deletion or not, is reached
as new only, and one that is deleted and not inserted again is not reached.  Unless it inserts
something, a command with any other reference is refused because something is not found.  A name
that has gone astray is the name of an array whose id a new array has got, and it may be reached
although its object is gone, and not be reached although the plan has added it. -/
theorem references_resolve {g donor : Program} {store : Store} {cs : List Command} {s : Session}
    (hg : g.arrays.Consistent)
    (h : cs.foldlM Session.apply { candidate := g, store, donor } = .ok s) :
    (∀ c s', s.apply c = .ok s' → ∀ r ∈ c.references, ¬s.candidate.Stray r.subject →
      r.Resolves g cs) ∧
    (∀ r, ¬s.candidate.Stray r.subject → (s.Reaches r ↔ r.Resolves g cs)) ∧
    (∀ x, Added cs x → (¬s.candidate.Stray x → s.Reaches x.new) ∧ ¬s.Reaches x.old) ∧
    (∀ before c after x, cs = before ++ c :: after → c.deletes? = some x →
      (∀ d ∈ after, d.inserts? ≠ some x) → ¬s.Reaches x.new ∧ ¬s.Reaches x.old) ∧
    ∀ c, c.inserts? = none →
      (∃ r ∈ c.references, ¬s.candidate.Stray r.subject ∧ ¬r.Resolves g cs) →
        ∃ e, s.apply c = .error e ∧ e.code = .unfoundIdError := by
  have hs : s.Sourced g cs := (sourced_start hg donor store).foldlM h
  have hresolves : ∀ c s', s.apply c = .ok s' → ∀ r ∈ c.references,
      ¬s.candidate.Stray r.subject → r.Resolves g cs :=
    fun c s' hc r hr hstray => (hs.resolves_iff hstray).mpr (has_of_apply hc r hr)
  refine ⟨hresolves, fun r => hs.reaches_iff, ?_, ?_, ?_⟩
  · refine fun x hx => ⟨fun hstray => ?_, hs.not_reaches_old hx⟩
    have hsubject : x.new.subject = x := by cases x <;> rfl
    rw [hs.reaches_iff (hsubject.symm ▸ hstray), Subject.resolves_new]
    exact hx
  · intro before c after x hcs hc hafter
    refine not_reaches_of_free ?_
    rw [hs.takes, hcs]
    rintro (⟨-, hkept⟩ | hadded)
    · exact hkept c (by simp) hc
    · exact not_added hc hafter hadded
  · rintro c hc ⟨r, hr, hstray, hfalse⟩
    cases happly : s.apply c with
    | ok s' => exact absurd (hresolves c s' happly r hr hstray) hfalse
    | error e => exact ⟨e, rfl, failsUnfound_apply hc e happly⟩

/-- A program whose only pipeline has one node, a flex node. -/
def gated : Program :=
  { pipelines := {
      objects := [{
        identity := ⟨"p", 0, none⟩
        slots := [⟨0, some (.conditional
          { identity := ⟨"a", 0, none⟩, condition? := none, flex := true })⟩]
        byName := [("a", ⟨0, 0⟩)] }]
      ids := ⟨1⟩ }
    conditionalIds := ⟨1⟩ }

/-- A node is deleted and inserted again: it can be reached as new, and to delete it as old is
refused. -/
theorem reinserted_node_is_new :
    ∃ s, [Command.deleteConditional "p" (.old "a"), .insertFlex "p" "a" none none].foldlM
        Session.apply { candidate := gated, store := {}, donor := {} } = .ok s ∧
      s.Reaches (.node "p" (.new "a")) ∧
      ∃ e, s.apply (.deleteConditional "p" (.old "a")) = .error e ∧ e.code = .unfoundIdError := by
  have hrun : ∃ s, [Command.deleteConditional "p" (.old "a"), .insertFlex "p" "a" none none].foldlM
      Session.apply { candidate := gated, store := {}, donor := {} } = .ok s := ⟨_, rfl⟩
  obtain ⟨s, hs⟩ := hrun
  obtain ⟨-, hreaches, -, -, hrefused⟩ := references_resolve ObjectMap.Consistent.empty hs
  refine ⟨s, hs, ?_, ?_⟩
  · rw [hreaches (.node "p" (.new "a")) not_false]
    exact ⟨[.deleteConditional "p" (.old "a")], _, [], rfl, rfl, List.forall_mem_nil _⟩
  · refine hrefused _ rfl ⟨_, List.mem_singleton_self _, not_false, ?_⟩
    exact fun hkept => hkept.2 _ List.mem_cons_self rfl

/-- A document of three register arrays, one of which has the smallest id and one the largest. -/
def roundaboutDocument : Json.Value :=
  let array (name : String) (id : Int) : Json.Value :=
    .object [("bitwidth", .ofNat 1), ("id", .ofInt id), ("name", .string name), ("size", .ofNat 1)]
  .object [("register_arrays", .array [array "w" 5, array "x" minId, array "y" maxId])]

/-- A plan that deletes an array and inserts it again, and then deletes another one. -/
def roundaboutCommands : List Command :=
  [.deleteArray (.old "w"), .insertArray "w" 1 1, .deleteArray (.old "x")]

/-- The array that is inserted again gets the id of the other one, whose name goes astray.  To
delete that name deletes the new array, which then cannot be reached although the plan has inserted
it and has not deleted it. -/
theorem stray_name_deletes_new_array : ∃ g store s,
    Program.ofDocument {} roundaboutDocument = .ok (g, store) ∧
      roundaboutCommands.foldlM Session.apply { candidate := g, store, donor := {} } = .ok s ∧
      Command.Added roundaboutCommands (.array "w") ∧ ¬s.Reaches (.array (.new "w")) := by
  have hrun : ∃ g store s, Program.ofDocument {} roundaboutDocument = .ok (g, store) ∧
      roundaboutCommands.foldlM Session.apply { candidate := g, store, donor := {} } = .ok s ∧
      s.candidate.array? "w" = none := ⟨_, _, _, rfl, rfl, rfl⟩
  obtain ⟨g, store, s, hload, hs, hnone⟩ := hrun
  have hadded : Command.Added roundaboutCommands (.array "w") :=
    ⟨[.deleteArray (.old "w")], _, [.deleteArray (.old "x")], rfl, rfl, by simp [Command.deletes?,
      Command.edit, Edit.deletes?, ObjectRef.name]⟩
  refine ⟨g, store, s, hload, hs, hadded, fun hreaches => ?_⟩
  obtain ⟨-, hhas⟩ := reaches_iff.mp hreaches
  have hsome : (s.candidate.array? "w").isSome = true := hhas
  rw [hnone] at hsome
  cases hsome

end Session

end LiveSwitch
