import LiveSwitch.Proofs.Plan.Layouts
import LiveSwitch.Switch.Basic

/-!
# Writes between the steps of a plan

A plan takes time: between its commands, its commit and the moment its program is published,
writes go on through every generation that was published so far.  A timeline is one context
seen at that grain.  Its invariant says how the arrays of all generations and of the candidate
share storages, and that the arrays of the program that was committed last show just what
their storages hold.

## Main definitions

* `Publication`, `Phase`, `Timeline` — a context in the middle of a plan.
* `Timeline.Event`, `Timeline.step`, `Timeline.after` — what happens, one step at a time.
* `Timeline.Sound` — the invariant.

## Main results

* `Timeline.after_reconfigure` — the plans of a switch are timelines.
* `Timeline.sound_start`, `sound_step`, `sound_after` — the invariant holds in every timeline.
* `Timeline.Sound.strays_history` — no name of an array was ever stray if none is at the end.
-/

namespace LiveSwitch

open RegisterArray

/-- A program that was committed, with the edits of the plan that made it. -/
structure Publication where
  program : Program
  edits : List Edit := []

namespace Publication

/-- No edit of the plan put another array, or none, in the place of a name. -/
def Keeps (p : Publication) (x : String) : Prop := ∀ e ∈ p.edits, e.replaces x = false

/-- The steps that the plan gave the array of a name. -/
def migrations (p : Publication) (x : String) : List Migration := Edit.migrations x p.edits

end Publication

/-- How far the plan of a context has come. -/
inductive Phase where
  | idle
  | editing (session : Session) (edits : List Edit)
  /-- The layouts are committed, but the program is not yet active. -/
  | committed (next : Publication)

namespace Phase

/-- The program that is committed and not yet active. -/
def next? : Phase → Option Publication
  | committed next => some next
  | _ => none

/-- The program under change. -/
def candidate? : Phase → Option Program
  | editing s _ => some s.candidate
  | _ => none

end Phase

/-- A context with all that it published, the first in front. -/
structure Timeline where
  store : Store
  published : List Publication
  phase : Phase := .idle

namespace Timeline

/-- What happens to a context.  Writes and resets go through a published generation. -/
inductive Event where
  | write (k : Nat) (array : String) (i : Nat) (v : UInt64)
  | reset (k : Nat) (array : String)
  | start (donor : Program)
  | command (c : Command)
  | abandon
  | commit
  | publish

/-- The context after its first document was loaded. -/
def start (g : Program) (s : Store) : Timeline := { store := s, published := [{ program := g }] }

/-- A register array of a published generation. -/
def array? (T : Timeline) (k : Nat) (x : String) : Option RegisterArray :=
  T.published[k]?.bind (·.program.array? x)

/-- The program that packets run through. -/
def active? (T : Timeline) : Option Program := T.published.getLast?.map (·.program)

/-- All programs that were committed so far, in turn. -/
def history (T : Timeline) : List Publication := T.published ++ T.phase.next?.toList

/-- All programs that have to do with the storages. -/
def programs (T : Timeline) : List Program :=
  T.history.map (·.program) ++ T.phase.candidate?.toList

/-- The context after one more step; a step that is not due changes nothing. -/
def step (T : Timeline) : Event → Timeline
  | .write k x i v =>
    match T.array? k x with
    | some a =>
      match a.write T.store i v with
      | .ok store => { T with store }
      | .error _ => T
    | none => T
  | .reset k x =>
    match T.array? k x with
    | some a => { T with store := a.reset T.store }
    | none => T
  | .start donor =>
    match T.phase, T.active? with
    | .idle, some g => { T with phase := .editing { candidate := g, store := T.store, donor } [] }
    | _, _ => T
  | .command c =>
    match T.phase with
    | .editing s l =>
      match { s with store := T.store }.apply c with
      | .ok s => { T with store := s.store, phase := .editing s (l ++ [c.edit]) }
      | .error _ => { T with phase := .idle }
    | _ => T
  | .abandon =>
    match T.phase with
    | .editing _ _ => { T with phase := .idle }
    | _ => T
  | .commit =>
    match T.phase with
    | .editing s l =>
      let (program, store) := s.candidate.commitArrays T.store
      { T with store, phase := .committed { program, edits := l } }
    | _ => T
  | .publish =>
    match T.phase with
    | .committed next => { T with published := T.published ++ [next], phase := .idle }
    | _ => T

/-- The context after steps in turn. -/
def after (T : Timeline) (events : List Event) : Timeline := events.foldl step T

/-! ### Plans without interruption -/

theorem after_append (T : Timeline) (events events' : List Event) :
    T.after (events ++ events') = (T.after events).after events' :=
  List.foldl_append

/-- The lines of a plan are commands, one step each. -/
theorem after_commands {T : Timeline} {s s' : Session} {l : List Edit}
    {lines : List (Option String)} (hphase : T.phase = .editing s l)
    (hstore : s.store = T.store) (h : s.run lines = (s', none)) :
    ∃ events l', T.after events = Timeline.mk s'.store T.published (.editing s' l') := by
  induction lines generalizing T s l with
  | nil =>
    cases h
    refine ⟨[], l, ?_⟩
    rw [hstore, ← hphase]
    rfl
  | cons line lines ih =>
    rw [Session.run] at h
    split at h
    case h_2 => cases h
    case h_1 t ht =>
      cases line with
      | none => cases ht
      | some line =>
        rw [Session.step] at ht
        split at ht
        -- a line that is no command takes no step
        case h_1 =>
          cases ht
          exact ih hphase hstore h
        case h_2 command _ =>
          obtain ⟨c, -, happly⟩ := bind_eq_ok.mp ht
          have hstep : T.step (.command c) =
              Timeline.mk t.store T.published (.editing t (l ++ [c.edit])) := by
            rw [step, hphase, ← hstore]
            dsimp only
            rw [happly]
          obtain ⟨events, l', hevents⟩ := ih (T := T.step (.command c)) (l := l ++ [c.edit])
            (by rw [hstep]) (by rw [hstep]) h
          rw [hstep] at hevents
          exact ⟨.command c :: events, l', by rw [← hevents, ← hstep]; rfl⟩

/-- A plan that a switch carries out is a timeline in which nothing comes between its
steps. -/
theorem after_reconfigure {T : Timeline} {w w' : Switch} {cxt n : Nat}
    {document plan : FileContent} (h : w.reconfigure cxt document plan = (w', .ok n))
    (hphase : T.phase = .idle) (hstore : T.store = w.store)
    (hactive : T.active? = w.contexts[cxt]?.map (·.active.program)) :
    ∃ events, (T.after events).phase = .idle ∧ (T.after events).store = w'.store ∧
      (T.after events).active? = w'.contexts[cxt]?.map (·.active.program) := by
  rw [Switch.reconfigure] at h
  split at h
  case h_1 => cases h
  case h_2 c hc =>
    split at h
    case h_1 => cases h
    case h_2 donor _ _ =>
      dsimp only at h
      split at h
      case h_1 => cases h
      case h_2 s hrun =>
        cases h
        rw [hc, Option.map_some] at hactive
        rw [← hstore] at hrun
        have hstart : T.step (.start donor) = Timeline.mk T.store T.published
            (.editing { candidate := c.active.program, store := T.store, donor } []) := by
          rw [step, hphase, hactive]
        obtain ⟨events, l, hevents⟩ := after_commands (T := T.step (.start donor))
          (by rw [hstart]) (by rw [hstart]) hrun
        rw [hstart] at hevents
        have hafter : T.after (.start donor :: (events ++ [.commit, .publish])) =
            (Timeline.mk s.store T.published (.editing s l)).after [.commit, .publish] := by
          rw [← hevents, ← hstart, ← after_append]
          rfl
        refine ⟨.start donor :: (events ++ [.commit, .publish]), ?_, ?_, ?_⟩
        · rw [hafter]
          rfl
        · rw [hafter]
          rfl
        · rw [hafter, Switch.setActive, List.getElem?_modify_eq, hc]
          exact congrArg (Option.map _) List.getLast?_concat

/-! ### The invariant -/

/-- The candidate of a plan: an array that no edit replaced is the active one, laid out
anew, as long as no name of an array is stray. -/
structure Candidate (T : Timeline) (s : Session) (l : List Edit) : Prop where
  consistent : s.candidate.arrays.Consistent
  showing : Showing s.candidate.arrays.objects T.store
  kept : s.candidate.arrays.strays = [] → ∀ p, T.published.getLast? = some p →
    p.program.arrays.strays = [] ∧ ∀ x, (∀ e ∈ l, e.replaces x = false) →
      ∀ a, p.program.array? x = some a →
        s.candidate.array? x = some (a.relayout (Edit.migrations x l))

/-- Arrays share storages by name only; an array that a plan did not replace lies where it
lay, as long as no name is stray; and what was committed last shows just what its storages hold. -/
structure Sound (T : Timeline) : Prop where
  latest : ∃ p, T.history.getLast? = some p ∧ p.program.arrays.Consistent ∧
    ∀ a ∈ p.program.arrays.objects, a.Settled (T.store.get a.storage)
  bounded : ∀ g ∈ T.programs, Bounded g.arrays.objects T.store
  apart : ∀ g ∈ T.programs, ∀ g' ∈ T.programs, ∀ a ∈ g.arrays.objects,
    ∀ b ∈ g'.arrays.objects, a.storage = b.storage → nameOf a = nameOf b
  linked : ∀ j p q, T.history[j]? = some p → T.history[j + 1]? = some q →
    q.program.arrays.strays = [] → p.program.arrays.strays = [] ∧
      ∀ x, q.Keeps x → ∀ a, p.program.array? x = some a →
        ∃ b, q.program.array? x = some b ∧ b.storage = a.storage
  candidate : ∀ s l, T.phase = .editing s l → T.Candidate s l

theorem sound_start {s s' : Store} {v : Json.Value} {g : Program}
    (h : Program.ofDocument s v = .ok (g, s')) : (start g s').Sound := by
  have hfresh := Program.ofDocument_fresh h
  refine ⟨⟨_, rfl, hfresh.consistent, hfresh.settled⟩, ?_, ?_, ?_, ?_⟩
  · intro g' hg'
    rw [List.mem_singleton.mp (show g' ∈ [g] from hg')]
    exact hfresh.grows.bounded
  · intro g₁ hg₁ g₂ hg₂ a ha b hb heq
    rw [List.mem_singleton.mp (show g₁ ∈ [g] from hg₁)] at ha
    rw [List.mem_singleton.mp (show g₂ ∈ [g] from hg₂)] at hb
    refine hfresh.grows.apart a ha b hb heq ?_
    exact (hfresh.grows.origin a ha).resolve_left (by simp)
  · intro j p q _ hq
    cases hq
  · intro _ _ hphase
    cases hphase

/-! ### One step -/

variable {T : Timeline}

theorem Sound.withStore (hT : T.Sound) {store : Store} (h : T.store.Alike store) :
    ({ T with store } : Timeline).Sound where
  latest := by
    obtain ⟨p, hp, hconsistent, hsettled⟩ := hT.latest
    exact ⟨p, hp, hconsistent, fun a ha => (hsettled a ha).alike (h.get a.storage)⟩
  bounded g hg a ha := by
    show a.storage < store.size
    rw [h.size]
    exact hT.bounded g hg a ha
  apart := hT.apart
  linked := hT.linked
  candidate s l hphase := by
    obtain ⟨hconsistent, hshowing, hkept⟩ := hT.candidate s l hphase
    exact ⟨hconsistent, fun a ha hp => (hshowing a ha hp).alike (h.get a.storage), hkept⟩

theorem history_of_next?_eq_none (h : T.phase.next? = none) : T.history = T.published := by
  rw [history, h]
  exact List.append_nil _

theorem mem_programs {g : Program} :
    g ∈ T.programs ↔ (∃ p ∈ T.history, p.program = g) ∨ T.phase.candidate? = some g := by
  rw [programs, List.mem_append, List.mem_map, Option.mem_toList]

/-- The same programs, at most, over the same storages, with another phase. -/
theorem Sound.withPhase (hT : T.Sound) {published : List Publication} {phase : Phase}
    (hhistory : (Timeline.mk T.store published phase).history = T.history)
    (hprograms : ∀ g, phase.candidate? = some g → g ∈ T.programs)
    (hcandidate : ∀ s l, phase = .editing s l →
      (Timeline.mk T.store published phase).Candidate s l) :
    (Timeline.mk T.store published phase).Sound := by
  have hmem : ∀ g ∈ (Timeline.mk T.store published phase).programs, g ∈ T.programs := by
    intro g hg
    rw [mem_programs, hhistory] at hg
    rcases hg with hg | hg
    · exact mem_programs.mpr (Or.inl hg)
    · exact hprograms g hg
  refine ⟨by rw [hhistory]; exact hT.latest, fun g hg => hT.bounded g (hmem g hg),
    fun g hg g' hg' => hT.apart g (hmem g hg) g' (hmem g' hg'), ?_, hcandidate⟩
  rw [hhistory]
  exact hT.linked

/-- A plan that ends without a commit. -/
theorem Sound.drop (hT : T.Sound) {s : Session} {l : List Edit} (h : T.phase = .editing s l) :
    (Timeline.mk T.store T.published .idle).Sound := by
  refine hT.withPhase ?_ (fun _ hg => by cases hg) (fun _ _ hphase => by cases hphase)
  rw [history_of_next?_eq_none rfl, history_of_next?_eq_none (by rw [h]; rfl)]

theorem Sound.begin (hT : T.Sound) (hphase : T.phase = .idle) {g donor : Program}
    (hg : T.active? = some g) :
    (Timeline.mk T.store T.published
      (.editing { candidate := g, store := T.store, donor } [])).Sound := by
  obtain ⟨p, hp, rfl⟩ := Option.map_eq_some_iff.mp hg
  have hhistory : T.history = T.published := history_of_next?_eq_none (by rw [hphase]; rfl)
  refine hT.withPhase ((history_of_next?_eq_none rfl).trans hhistory.symm) ?_ ?_
  · intro g' hg'
    rw [← Option.some.inj hg']
    refine mem_programs.mpr (Or.inl ⟨p, ?_, rfl⟩)
    rw [hhistory]
    exact List.mem_of_getLast? hp
  · intro s l heq
    cases heq
    obtain ⟨p', hp', hconsistent, hsettled⟩ := hT.latest
    rw [hhistory, hp, Option.some.injEq] at hp'
    subst hp'
    refine ⟨hconsistent, fun a ha _ => hsettled a ha, fun hstrays q hq => ?_⟩
    have hq : T.published.getLast? = some q := hq
    rw [hp, Option.some.injEq] at hq
    rw [← hq]
    exact ⟨hstrays, fun x _ a ha => ha⟩

/-- An array of a grown program shares its storage by name only. -/
theorem Sound.apart_of_grows (hT : T.Sound) {g : Program} (hg : g ∈ T.programs)
    {l : List RegisterArray} {store : Store} (h : Grows g.arrays.objects T.store l store)
    {a : RegisterArray} (ha : a ∈ l) {g' : Program} (hg' : g' ∈ T.programs) {b : RegisterArray}
    (hb : b ∈ g'.arrays.objects) (heq : a.storage = b.storage) : nameOf a = nameOf b := by
  rcases h.origin a ha with ⟨a', ha', hst, hname⟩ | hle
  · rw [← hname]
    exact hT.apart g hg g' hg' a' ha' b hb (hst.trans heq)
  · have := hT.bounded g' hg' b hb
    omega

theorem Sound.command (hT : T.Sound) {s s' : Session} {l : List Edit} {c : Command}
    (hphase : T.phase = .editing s l) (h : { s with store := T.store }.apply c = .ok s') :
    (Timeline.mk s'.store T.published (.editing s' (l ++ [c.edit]))).Sound := by
  have hrun : c.edit.run s.donor (s.candidate, T.store) = .ok (s'.candidate, s'.store) :=
    (Session.apply_ok h).1
  obtain ⟨hconsistent, hshowing, hkept⟩ := hT.candidate s l hphase
  have hmem : s.candidate ∈ T.programs := mem_programs.mpr (Or.inr (by rw [hphase]; rfl))
  have hgrows := Edit.grows (hT.bounded _ hmem) hrun
  have hhistory : (Timeline.mk s'.store T.published (.editing s' (l ++ [c.edit]))).history =
      T.history := by
    rw [history_of_next?_eq_none rfl, history_of_next?_eq_none (by rw [hphase]; rfl)]
  have hprograms : ∀ g ∈ (Timeline.mk s'.store T.published
      (.editing s' (l ++ [c.edit]))).programs,
      (g ∈ T.programs) ∨ g = s'.candidate := by
    intro g hg
    rw [mem_programs, hhistory] at hg
    rcases hg with hg | hg
    · exact Or.inl (mem_programs.mpr (Or.inl hg))
    · exact Or.inr (Option.some.inj hg).symm
  -- the edit adds storages and leaves those of before alone
  refine ⟨?_, ?_, ?_, ?_, ?_⟩
  · obtain ⟨p, hp, hpconsistent, hsettled⟩ := hT.latest
    refine ⟨p, hhistory ▸ hp, hpconsistent, fun a ha => ?_⟩
    have hp' : p.program ∈ T.programs :=
      mem_programs.mpr (Or.inl ⟨p, List.mem_of_getLast? hp, rfl⟩)
    show a.Settled (s'.store.get a.storage)
    rw [hgrows.store.get_eq a.storage (hT.bounded _ hp' a ha)]
    exact hsettled a ha
  · intro g hg a ha
    rcases hprograms g hg with hg | rfl
    · exact Nat.lt_of_lt_of_le (hT.bounded g hg a ha) hgrows.store.size_le
    · exact hgrows.bounded a ha
  · intro g hg g' hg' a ha b hb heq
    -- both are programs of before, or one is the new candidate, or both are
    rcases hprograms g hg with hg | rfl
    · rcases hprograms g' hg' with hg' | rfl
      · exact hT.apart g hg g' hg' a ha b hb heq
      · exact (hT.apart_of_grows hmem hgrows hb hg ha heq.symm).symm
    · rcases hprograms g' hg' with hg' | rfl
      · exact hT.apart_of_grows hmem hgrows ha hg' hb heq
      · rcases hgrows.origin b hb with ⟨b', hb', hst, hname⟩ | hle
        · rw [← hname]
          exact hT.apart_of_grows hmem hgrows ha hmem hb' (heq.trans hst.symm)
        · exact hgrows.apart a ha b hb heq (heq ▸ hle)
  · rw [hhistory]
    exact hT.linked
  · intro s₁ l₁ heq
    cases heq
    refine ⟨Edit.consistent_run hconsistent hrun,
      Edit.showing_run (hT.bounded _ hmem) hshowing hrun, fun hstrays p hp => ?_⟩
    obtain ⟨hstrays', hbefore⟩ := hkept (Edit.strays_run hrun hstrays) p hp
    refine ⟨hstrays', fun x hx a ha => ?_⟩
    rw [List.forall_mem_append] at hx
    have hbefore := hbefore x hx.1 a ha
    have hafter := Edit.array?_run hrun hstrays (hx.2 _ List.mem_cons_self) hbefore
    rw [hafter, ← relayout_append, Edit.migrations_append, Edit.migrations_singleton]

theorem Sound.commit (hT : T.Sound) {s : Session} {l : List Edit}
    (hphase : T.phase = .editing s l) :
    (Timeline.mk (s.candidate.commitArrays T.store).2 T.published
      (.committed { program := (s.candidate.commitArrays T.store).1, edits := l })).Sound := by
  obtain ⟨hconsistent, hshowing, hkept⟩ := hT.candidate s l hphase
  have hmem : s.candidate ∈ T.programs := mem_programs.mpr (Or.inr (by rw [hphase]; rfl))
  have hhistory : T.history = T.published := history_of_next?_eq_none (by rw [hphase]; rfl)
  have hnodup := Program.nodup_storage hconsistent (hT.apart _ hmem _ hmem)
  -- every program is an old one or has the arrays of the candidate, without their steps
  have hprograms : ∀ g ∈ (Timeline.mk (s.candidate.commitArrays T.store).2 T.published
      (.committed { program := (s.candidate.commitArrays T.store).1, edits := l })).programs,
      ∃ g' ∈ T.programs, ∀ a ∈ g.arrays.objects,
        ∃ b ∈ g'.arrays.objects, b.storage = a.storage ∧ nameOf b = nameOf a := by
    intro g hg
    rw [mem_programs] at hg
    rcases hg with ⟨p, hp, rfl⟩ | hg
    · rcases List.mem_append.mp hp with hp | hp
      · have hp' : p.program ∈ T.programs :=
          mem_programs.mpr (Or.inl ⟨p, hhistory.symm ▸ hp, rfl⟩)
        exact ⟨_, hp', fun a ha => ⟨a, ha, rfl, rfl⟩⟩
      · rw [List.mem_singleton.mp hp]
        refine ⟨_, hmem, fun a ha => ?_⟩
        rw [Program.objects_commitArrays] at ha
        obtain ⟨b, hb, rfl⟩ := List.mem_map.mp ha
        exact ⟨b, hb, rfl, rfl⟩
    · cases hg
  refine ⟨⟨_, List.getLast?_concat, Program.consistent_commitArrays hconsistent T.store,
    Program.settled_commitAll hnodup (hT.bounded _ hmem) hshowing⟩, ?_, ?_, ?_, ?_⟩
  · intro g hg a ha
    obtain ⟨g', hg', h⟩ := hprograms g hg
    obtain ⟨b, hb, hst, -⟩ := h a ha
    show a.storage < (s.candidate.commitArrays T.store).2.size
    rw [Program.size_commitArrays, ← hst]
    exact hT.bounded g' hg' b hb
  · intro g₁ hg₁ g₂ hg₂ a₁ ha₁ a₂ ha₂ heq
    obtain ⟨g₁', hg₁', h₁⟩ := hprograms g₁ hg₁
    obtain ⟨g₂', hg₂', h₂⟩ := hprograms g₂ hg₂
    obtain ⟨b₁, hb₁, hst₁, hname₁⟩ := h₁ a₁ ha₁
    obtain ⟨b₂, hb₂, hst₂, hname₂⟩ := h₂ a₂ ha₂
    rw [← hname₁, ← hname₂]
    exact hT.apart g₁' hg₁' g₂' hg₂' b₁ hb₁ b₂ hb₂ (by rw [hst₁, hst₂, heq])
  · intro j p q hp hq hstrays
    have hp : (T.published ++ [_])[j]? = some p := hp
    have hq : (T.published ++ [_])[j + 1]? = some q := hq
    by_cases hj : j + 1 < T.published.length
    · rw [List.getElem?_append_left (by omega), ← hhistory] at hp
      rw [List.getElem?_append_left hj, ← hhistory] at hq
      exact hT.linked j p q hp hq hstrays
    · have hle : j + 1 ≤ T.published.length := by
        have := (List.getElem?_eq_some_iff.mp hq).1
        rw [List.length_append, List.length_singleton] at this
        omega
      have hj : j + 1 = T.published.length := by omega
      rw [hj, List.getElem?_concat_length, Option.some.injEq] at hq
      rw [List.getElem?_append_left (by omega)] at hp
      have hlast : T.published.getLast? = some p := by
        rw [List.getLast?_eq_getElem?, ← hp]
        congr 1
        omega
      subst hq
      obtain ⟨hstrays', hlaid⟩ := hkept hstrays p hlast
      refine ⟨hstrays', fun x hx a ha =>
        ⟨(a.relayout (Edit.migrations x l)).settled, ?_, storage_relayout a _⟩⟩
      rw [Program.array?_commitArrays, hlaid x hx a ha, Option.map_some]
  · intro _ _ heq
    cases heq

theorem Sound.publish (hT : T.Sound) {next : Publication} (hphase : T.phase = .committed next) :
    (Timeline.mk T.store (T.published ++ [next]) .idle).Sound := by
  refine hT.withPhase ?_ (fun _ hg => by cases hg) (fun _ _ hphase => by cases hphase)
  rw [history_of_next?_eq_none rfl, history, hphase]
  rfl

/-- Every step keeps the invariant. -/
theorem sound_step (hT : T.Sound) (e : Event) : (T.step e).Sound := by
  cases e with
  | write k x i v =>
    rw [step]
    split
    case h_1 a _ =>
      split
      case h_1 store hwrite => exact hT.withStore (alike_write hwrite)
      case h_2 => exact hT
    case h_2 => exact hT
  | reset k x =>
    rw [step]
    split
    case h_1 a _ => exact hT.withStore (alike_reset a T.store)
    case h_2 => exact hT
  | start donor =>
    rw [step]
    split
    case h_1 g hphase hg => exact hT.begin hphase hg
    case h_2 => exact hT
  | command c =>
    rw [step]
    split
    case h_1 s l hphase =>
      split
      case h_1 s' happly => exact hT.command hphase happly
      case h_2 => exact hT.drop hphase
    case h_2 => exact hT
  | abandon =>
    rw [step]
    split
    case h_1 s l hphase => exact hT.drop hphase
    case h_2 => exact hT
  | commit =>
    rw [step]
    split
    case h_1 s l hphase => exact hT.commit hphase
    case h_2 => exact hT
  | publish =>
    rw [step]
    split
    case h_1 next hphase => exact hT.publish hphase
    case h_2 => exact hT

/-- Names that were stray once stay so: if none is in the program committed last, none has been
before. -/
theorem Sound.strays_history (hT : T.Sound)
    (hlast : ∀ p, T.history.getLast? = some p → p.program.arrays.strays = []) :
    ∀ p ∈ T.history, p.program.arrays.strays = [] := by
  have hback : ∀ d j p, T.history[j]? = some p → j + d + 1 = T.history.length →
      p.program.arrays.strays = [] := by
    intro d
    induction d with
    | zero =>
      intro j p hp hj
      refine hlast p ?_
      rw [List.getLast?_eq_getElem?, ← hj, ← hp]
      rfl
    | succ d ih =>
      intro j p hp hj
      have hlt : j + 1 < T.history.length := by omega
      have hnext := ih (j + 1) _ (List.getElem?_eq_getElem hlt) (by omega)
      exact (hT.linked j p _ hp (List.getElem?_eq_getElem hlt) hnext).1
  intro p hp
  obtain ⟨j, hj, heq⟩ := List.mem_iff_getElem.mp hp
  exact hback (T.history.length - 1 - j) j p (heq ▸ List.getElem?_eq_getElem hj) (by omega)

theorem sound_after (hT : T.Sound) (events : List Event) : (T.after events).Sound := by
  induction events generalizing T with
  | nil => exact hT
  | cons e events ih => exact ih (sound_step hT e)

end Timeline

end LiveSwitch
