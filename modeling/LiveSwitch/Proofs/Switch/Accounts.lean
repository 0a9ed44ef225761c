import Mathlib.Algebra.GroupWithZero.Nat
import LiveSwitch.Proofs.Switch.History
import LiveSwitch.Proofs.Switch.Plans

/-!
# Numbers and statistics of contexts

A context counts its generations and what became of its plans.  These counts agree with the calls
that were addressed to it, in whatever order they came and however they ended.  Whatever is
addressed to one context leaves the others alone: their generations, their statistics and the
cells of their registers.

## Main definitions

* `History.addressee?` — the context that an event is addressed to.
* `Call`, `History.calls` — the loads and plans that a context was called with, and their results.
* `Context.Accounts` — what calls make of the numbers of a context.

## Main results

* `History.Separate.contexts_apply`, `History.Separate.get_apply` — the frame of an event.
* `History.Separate.accounts_after` — a context accounts for all its calls.
* `History.contexts_account` — both of them, in every history.
-/

namespace LiveSwitch

namespace History

variable {h : History} {e : Event} {j : Nat}

/-! ### What is addressed to one context -/

/-- The context that an event is addressed to: the one that it names, or the one that ran the
generation that it goes through. -/
def addressee? (h : History) : Event → Option Nat
  | .load cxt _ | .plan cxt _ _ | .packet cxt _ | .write cxt _ _ _ | .reset cxt _
  | .addEntry cxt _ _ _ _ _ | .deleteEntry cxt _ _ _ | .setDefault cxt _ _ _ _ => some cxt
  | .retiredPacket k _ | .retiredWrite k _ _ _ | .retiredReset k _ => h.retired[k]?.map Prod.fst

/-- An access goes through a generation of the context that it is addressed to. -/
theorem holds_of_access? {g : Generation} {x : Access} (h₀ : h.access? e = some (g, x)) :
    ∃ cxt, h.addressee? e = some cxt ∧ ∀ a ∈ g.program.arrays.objects, h.Holds cxt a := by
  have hactive : ∀ {cxt : Nat} {y : Access},
      h.switch.contexts[cxt]?.map (fun c => (c.active, y)) = some (g, x) →
      ∀ a ∈ g.program.arrays.objects, h.Holds cxt a := by
    intro cxt y hy a ha
    obtain ⟨c, hc, heq⟩ := Option.map_eq_some_iff.mp hy
    obtain ⟨rfl, -⟩ := Prod.mk.inj heq
    exact Or.inl (Switch.activeArrays_eq hc ▸ ha)
  have hretired : ∀ {k : Nat} {y : Access}, h.retired[k]?.map (fun x => (x.2, y)) = some (g, x) →
      ∃ cxt, h.retired[k]?.map Prod.fst = some cxt ∧
        ∀ a ∈ g.program.arrays.objects, h.Holds cxt a := by
    intro k y hy
    obtain ⟨⟨cxt, g'⟩, hk, heq⟩ := Option.map_eq_some_iff.mp hy
    obtain ⟨rfl, -⟩ := Prod.mk.inj heq
    exact ⟨cxt, by rw [hk]; rfl, fun a ha => Or.inr ⟨g', List.mem_of_getElem? hk, ha⟩⟩
  cases e with
  | load | plan | addEntry | deleteEntry | setDefault => cases h₀
  | packet cxt p => exact ⟨cxt, rfl, hactive h₀⟩
  | write cxt array i v => exact ⟨cxt, rfl, hactive h₀⟩
  | reset cxt array => exact ⟨cxt, rfl, hactive h₀⟩
  | retiredPacket k p => exact hretired h₀
  | retiredWrite k array i v => exact hretired h₀
  | retiredReset k array => exact hretired h₀

/-- What is left of one context after an event: its generation, its statistics, and the cells of
every array that it reaches through a generation of now or before. -/
structure Untouched (h h' : History) (j : Nat) : Prop where
  context : h'.switch.contexts[j]? = h.switch.contexts[j]?
  cells : ∀ a, h.Holds j a → h'.switch.store.get a.storage = h.switch.store.get a.storage

namespace Untouched

variable {h' : History}

theorem array_eq (h₀ : h.Untouched h' j) (name : String) :
    h'.switch.array j name = h.switch.array j name := by
  rw [Switch.array_eq, Switch.array_eq, h₀.context]

/-- The arrays of the context show the same cells. -/
theorem get_eq (h₀ : h.Untouched h' j) {name : String} {a : RegisterArray}
    (ha : h.switch.array j name = .ok a) :
    h'.switch.store.get a.storage = h.switch.store.get a.storage := by
  rw [Switch.array_eq] at ha
  split at ha
  case h_1 => cases ha
  case h_2 c hc =>
    split at ha
    case h_1 => cases ha
    case h_2 b hb =>
      cases ha
      exact h₀.cells _ (Or.inl (Switch.activeArrays_eq hc ▸ (Program.mem_of_array? hb)))

theorem registerSnapshot_eq (h₀ : h.Untouched h' j) (name : String) :
    h'.switch.registerSnapshot j name = h.switch.registerSnapshot j name := by
  rw [Switch.registerSnapshot, Switch.registerSnapshot, h₀.array_eq]
  cases ha : h.switch.array j name with
  | error e => rfl
  | ok a =>
    show Except.ok (a.snapshot _) = Except.ok (a.snapshot _)
    rw [RegisterArray.snapshot, RegisterArray.snapshot, h₀.get_eq ha]

theorem readRegister_eq (h₀ : h.Untouched h' j) (name : String) (i : Nat) :
    h'.switch.readRegister j name i = h.switch.readRegister j name i := by
  rw [Switch.readRegister, Switch.readRegister, h₀.array_eq]
  cases ha : h.switch.array j name with
  | error e => rfl
  | ok a =>
    show (a.read _ i).mapError _ = (a.read _ i).mapError _
    rw [RegisterArray.read, RegisterArray.read, h₀.get_eq ha]

end Untouched

theorem Separate.untouched_load (hs : h.Separate) {cxt : Nat} (document : FileContent)
    (hj : j ≠ cxt) : h.Untouched (h.apply (.load cxt document)) j := by
  rcases h.apply_load_cases cxt document with heq | ⟨c, program, s, -, hfile, heq⟩
  · rw [heq]
    exact ⟨rfl, fun _ _ => rfl⟩
  · rw [heq]
    obtain ⟨v, hdocument⟩ := Program.ofFile_ok hfile
    have hgrows := (Program.ofDocument_fresh hdocument).grows
    exact ⟨List.getElem?_modify_ne _ _ hj.symm,
      fun a ha => hgrows.store.get_eq a.storage (hs.bounded j a ha)⟩

theorem Separate.untouched_plan (hs : h.Separate) {cxt : Nat} (document plan : FileContent)
    (hj : j ≠ cxt) : h.Untouched (h.apply (.plan cxt document plan)) j := by
  rcases Switch.applyPlan_cases (hs.active cxt) document plan with
    ⟨s, code, hcode, hext, heq⟩ | ⟨c, program, s, n, hc, hleads, heq⟩
  · rw [apply_plan_failed hcode heq]
    exact ⟨List.getElem?_modify_ne _ _ hj.symm,
      fun a ha => hext.get_eq a.storage (hs.bounded j a ha)⟩
  · rw [apply_plan_success heq]
    exact ⟨List.getElem?_modify_ne _ _ hj.symm, fun a ha => hs.get_commitArrays hc hleads ha hj⟩

theorem untouched_editTable {cxt : Nat} {pipeline table : String}
    {edit : Program → Table → Except SwitchError Table} (hj : j ≠ cxt) :
    h.Untouched (h.update (h.switch.editTable cxt pipeline table edit)) j := by
  cases hw : h.switch.editTable cxt pipeline table edit with
  | error e => exact ⟨rfl, fun _ _ => rfl⟩
  | ok w =>
    obtain ⟨_, _, _, _, -, -, -, -, rfl⟩ := Switch.editTable_ok hw
    exact ⟨List.getElem?_modify_ne _ _ hj.symm, fun _ _ => rfl⟩

/-- An event that is not addressed to a context leaves nothing of it changed. -/
theorem Separate.untouched (hs : h.Separate) (he : h.addressee? e ≠ some j) :
    h.Untouched (h.apply e) j := by
  by_cases haccess : e.isAccess = true
  · rw [h.apply_eq_accessed haccess]
    refine ⟨rfl, fun a ha => ?_⟩
    show (h.accessed e).get a.storage = _
    rw [accessed]
    cases hx : h.access? e with
    | none => rfl
    | some x =>
      obtain ⟨cxt, hcxt, hholds⟩ := holds_of_access? hx
      -- the arrays that the access reaches are those of another context
      refine Generation.get_access (fun b hb hst => he ?_) _ _
      rw [hcxt, hs.apart cxt j b a (hholds b hb) ha hst]
  have hne {cxt : Nat} (h₀ : some cxt ≠ some j) : j ≠ cxt := fun hj => h₀ (congrArg some hj.symm)
  cases e with
  | load cxt document => exact hs.untouched_load document (hne he)
  | plan cxt document plan => exact hs.untouched_plan document plan (hne he)
  | addEntry | deleteEntry | setDefault => exact untouched_editTable (hne he)
  | _ => exact absurd rfl haccess

/-! ### The calls of a context -/

end History

/-- A load or a plan that a context was called with, and what came of it: whether the document was
loaded, or the code of the plan and how many command lines it had. -/
inductive Call where
  | load (loaded : Bool)
  | plan (code : ResultCode) (commandLines : Nat)
  deriving DecidableEq

namespace Call

/-- The code of a plan. -/
def code? : Call → Option ResultCode
  | load _ => none
  | plan code _ => some code

/-- The command lines of a plan that succeeded. -/
def commands : Call → Nat
  | plan .success commandLines => commandLines
  | _ => 0

end Call

/-- What calls make of the numbers of a context. -/
structure Context.Accounts (calls : List Call) (c c' : Context) : Prop where
  number : c'.active.number = c.active.number + calls.count (.load true) +
    (calls.filterMap Call.code?).count .success
  plansApplied : c'.stats.plansApplied =
    c.stats.plansApplied + (calls.filterMap Call.code?).count .success
  plansFailed : c'.stats.plansFailed =
    c.stats.plansFailed + (calls.filterMap Call.code?).countP (· ≠ .success)
  commandsApplied : c'.stats.commandsApplied =
    c.stats.commandsApplied + (calls.map Call.commands).sum
  lastResult : c'.stats.lastResult? =
    (calls.filterMap Call.code?).getLast?.or c.stats.lastResult?

namespace Context.Accounts

variable {c c' c'' : Context} {calls calls' : List Call}

/-- A context that was not called keeps its numbers. -/
theorem nil (hnumber : c'.active.number = c.active.number) (hstats : c'.stats = c.stats) :
    Accounts [] c c' := by
  constructor <;> simp [hnumber, hstats]

theorem trans (h : Accounts calls c c') (h' : Accounts calls' c' c'') :
    Accounts (calls ++ calls') c c'' where
  number := by
    rw [h'.number, h.number, List.count_append, List.filterMap_append, List.count_append]
    omega
  plansApplied := by
    rw [h'.plansApplied, h.plansApplied, List.filterMap_append, List.count_append, Nat.add_assoc]
  plansFailed := by
    rw [h'.plansFailed, h.plansFailed, List.filterMap_append, List.countP_append, Nat.add_assoc]
  commandsApplied := by
    rw [h'.commandsApplied, h.commandsApplied, List.map_append, List.sum_append, Nat.add_assoc]
  lastResult := by
    rw [h'.lastResult, h.lastResult, List.filterMap_append, List.getLast?_append, Option.or_assoc]

theorem refused : Accounts [.load false] c c := by
  constructor <;> simp [List.filterMap_cons, Call.code?, Call.commands]

theorem loaded (program : Program) : Accounts [.load true] c
    { c with active := { number := c.active.number + 1, program } } := by
  constructor <;> simp [List.filterMap_cons, Call.code?, Call.commands]

theorem failed {code : ResultCode} (hcode : code ≠ .success) (lines : Nat) :
    Accounts [.plan code lines] c (c.failed code) := by
  constructor
  case commandsApplied => cases code <;> first | rfl | exact absurd rfl hcode
  all_goals simp [Context.failed, Call.code?, hcode]

theorem publish (program : Program) (lines : Nat) :
    Accounts [.plan .success lines] c (c.publish program lines) := by
  constructor <;> simp [Context.publish, Call.code?, Call.commands]

end Context.Accounts

/-- The events that call a context with a plan. -/
def Event.isPlanOf (cxt : Nat) : Event → Bool
  | plan i _ _ => i = cxt
  | _ => false

namespace History

variable {h : History} {cxt : Nat}

/-- The call of a context that an event is, if it is one. -/
def call? (h : History) (cxt : Nat) : Event → Option Call
  | .load i document =>
    if i = cxt then some (.load (h.switch.init i document).toOption.isSome) else none
  | .plan i document plan =>
    if i = cxt then some (.plan (h.switch.applyPlan i document plan).1 plan.commandCount) else none
  | _ => none

/-- The calls of a context while events happen, in turn. -/
def calls (cxt : Nat) : History → List Event → List Call
  | _, [] => []
  | h, e :: events => (h.call? cxt e).toList ++ calls cxt (h.apply e) events

theorem accounts_editTable {i : Nat} {pipeline table : String} {c : Context}
    {edit : Program → Table → Except SwitchError Table} (hc : h.switch.contexts[cxt]? = some c) :
    ∃ c', (h.update (h.switch.editTable i pipeline table edit)).switch.contexts[cxt]? = some c' ∧
      Context.Accounts [] c c' := by
  cases hw : h.switch.editTable i pipeline table edit with
  | error e => exact ⟨c, hc, .nil rfl rfl⟩
  | ok w =>
    obtain ⟨c₀, p, t, t', hc₀, -, -, -, rfl⟩ := Switch.editTable_ok hw
    generalize c₀.active.program.setPipeline pipeline (p.modifyTable table fun _ => t') = program
    rcases eq_or_ne i cxt with rfl | hne
    · obtain rfl := Option.some.inj (hc₀.symm.trans hc)
      refine ⟨{ c₀ with active := { c₀.active with program } }, ?_, .nil rfl rfl⟩
      show (h.switch.contexts.modify i _)[i]? = _
      rw [List.getElem?_modify_eq, hc]
      rfl
    · exact ⟨c, (List.getElem?_modify_ne _ _ hne).trans hc, .nil rfl rfl⟩

theorem Separate.accounts_load {c : Context} (hs : h.Separate) (i : Nat) (document : FileContent)
    (hc : h.switch.contexts[cxt]? = some c) :
    ∃ c', (h.apply (.load i document)).switch.contexts[cxt]? = some c' ∧
      Context.Accounts (h.call? cxt (.load i document)).toList c c' := by
  rw [call?]
  split
  case isFalse hne =>
    exact ⟨c, (hs.untouched_load document (Ne.symm hne)).context.trans hc, .nil rfl rfl⟩
  case isTrue heq =>
    subst heq
    rw [apply]
    cases hfile : Program.ofFile h.switch.store document with
    | error e =>
      have hrefused : h.switch.init i document = .error (.load e) := by
        rw [Switch.init, hfile]
        rfl
      rw [hrefused]
      exact ⟨c, hc, .refused⟩
    | ok x =>
      obtain ⟨program, store⟩ := x
      rw [Switch.init_eq hc hfile]
      refine ⟨{ c with active := { number := c.active.number + 1, program } }, ?_, .loaded program⟩
      show (h.switch.contexts.modify i _)[i]? = _
      rw [List.getElem?_modify_eq, hc]
      rfl

theorem Separate.accounts_plan {c : Context} (hs : h.Separate) (i : Nat)
    (document plan : FileContent) (hc : h.switch.contexts[cxt]? = some c) :
    ∃ c', (h.apply (.plan i document plan)).switch.contexts[cxt]? = some c' ∧
      Context.Accounts (h.call? cxt (.plan i document plan)).toList c c' := by
  rw [call?]
  split
  case isFalse hne =>
    exact ⟨c, (hs.untouched_plan document plan (Ne.symm hne)).context.trans hc, .nil rfl rfl⟩
  case isTrue heq =>
    subst heq
    have hmodify (f : Context → Context) (s : Store) :
        (Switch.mk (h.switch.contexts.modify i f) s).contexts[i]? = some (f c) := by
      rw [List.getElem?_modify_eq, hc]
      rfl
    -- a plan that fails publishes nothing, and it is counted with its code
    rcases Switch.applyPlan_cases (hs.active i) document plan with
      ⟨s, code, hcode, -, heq⟩ | ⟨_, _, _, _, -, -, heq⟩
    · rw [apply_plan_failed hcode heq, heq]
      exact ⟨c.failed code, hmodify _ s, .failed hcode _⟩
    · obtain ⟨_, _, _, s, -, -, -, hw⟩ := Switch.applyPlan_success heq
      rw [hw] at heq
      rw [apply_plan_success heq, heq]
      exact ⟨_, hmodify _ _, .publish _ _⟩

/-- A context accounts for what an event is to it. -/
theorem Separate.accounts_apply {c : Context} (hs : h.Separate) (e : Event)
    (hc : h.switch.contexts[cxt]? = some c) :
    ∃ c', (h.apply e).switch.contexts[cxt]? = some c' ∧
      Context.Accounts (h.call? cxt e).toList c c' := by
  by_cases haccess : e.isAccess = true
  · rw [h.apply_eq_accessed haccess]
    refine ⟨c, hc, ?_⟩
    cases e with
    | load | plan | addEntry | deleteEntry | setDefault => cases haccess
    | _ => exact .nil rfl rfl
  cases e with
  | load i document => exact hs.accounts_load i document hc
  | plan i document plan => exact hs.accounts_plan i document plan hc
  | addEntry | deleteEntry | setDefault => exact accounts_editTable hc
  | _ => exact absurd rfl haccess

/-- A context accounts for all its calls. -/
theorem Separate.accounts_after {c : Context} (hs : h.Separate) (events : List Event)
    (hc : h.switch.contexts[cxt]? = some c) :
    ∃ c', (h.after events).switch.contexts[cxt]? = some c' ∧
      Context.Accounts (calls cxt h events) c c' := by
  induction events generalizing h c with
  | nil => exact ⟨c, hc, .nil rfl rfl⟩
  | cons e events ih =>
    obtain ⟨c', hc', haccounts⟩ := hs.accounts_apply e hc
    obtain ⟨c'', hc'', haccounts'⟩ := ih (separate_apply hs e) hc'
    exact ⟨c'', hc'', haccounts.trans haccounts'⟩

theorem length_codes (cxt : Nat) (h : History) (events : List Event) :
    ((calls cxt h events).filterMap Call.code?).length = events.countP (Event.isPlanOf cxt) := by
  induction events generalizing h with
  | nil => rfl
  | cons e events ih =>
    rw [calls, List.filterMap_append, List.length_append, ih, List.countP_cons, Nat.add_comm]
    congr 1
    cases e with
    | load i document =>
      rw [call?]
      split <;> rfl
    | plan i document plan =>
      rw [call?, Event.isPlanOf]
      split
      case isTrue heq => simp [heq, Call.code?]
      case isFalse hne => simp [hne]
    | _ => rfl

/-- After any events, each context of a switch accounts for its calls: its generation has the
number of the loads that succeeded and of the plans that it applied; it applied or failed as many
plans as it was called with; it applied the command lines of the plans that succeeded; and its
last result is the code of the latest plan.  Whatever happens next leaves the contexts that it is
not addressed to as they are, with all their registers. -/
theorem contexts_account (n : Nat) (events : List Event) :
    let h := (start n).after events
    (∀ cxt, cxt < n → ∃ c, h.switch.contexts[cxt]? = some c ∧
      c.active.number =
        (calls cxt (start n) events).count (.load true) + c.stats.plansApplied ∧
      c.stats.plansApplied =
        ((calls cxt (start n) events).filterMap Call.code?).count .success ∧
      c.stats.plansApplied + c.stats.plansFailed = events.countP (Event.isPlanOf cxt) ∧
      c.stats.commandsApplied = ((calls cxt (start n) events).map Call.commands).sum ∧
      c.stats.lastResult? = ((calls cxt (start n) events).filterMap Call.code?).getLast?) ∧
    ∀ e j, h.addressee? e ≠ some j →
      h.Untouched (h.apply e) j ∧ ∀ name,
        (h.apply e).switch.registerSnapshot j name = h.switch.registerSnapshot j name ∧
        ∀ i, (h.apply e).switch.readRegister j name i = h.switch.readRegister j name i := by
  intro h
  refine ⟨fun cxt hcxt => ?_, fun e j he => ?_⟩
  · have hstart : (start n).switch.contexts[cxt]? = some ({} : Context) :=
      List.getElem?_replicate.trans (if_pos hcxt)
    obtain ⟨c, hc, hacc⟩ := (separate_start n).accounts_after events hstart
    have hcodes := length_codes cxt (start n) events
    refine ⟨c, hc, ?_, ?_, ?_, ?_, ?_⟩
    · rw [hacc.number, hacc.plansApplied, Nat.zero_add, Nat.zero_add]
    · rw [hacc.plansApplied, Nat.zero_add]
    -- every code is success or not, so the two counts add up to the number of codes
    · rw [hacc.plansApplied, hacc.plansFailed, Nat.zero_add, Nat.zero_add, ← hcodes, List.count,
        List.length_eq_countP_add_countP (· == ResultCode.success)]
      simp
    · rw [hacc.commandsApplied, Nat.zero_add]
    · rw [hacc.lastResult, Option.or_none]
  · have huntouched := (separate_after n events).untouched he
    exact ⟨huntouched, fun name =>
      ⟨huntouched.registerSnapshot_eq name, huntouched.readRegister_eq name⟩⟩

/-- A load and a plan that succeed, a plan without a document, and calls of another context. -/
def mixedEvents : List Event :=
  let document := .ofText "\x7b\x7d"
  let plan := .ofText "# one array\n\ninsert register_array new_a 2 8\n"
  [.load 0 document, .plan 0 document plan, .plan 0 .missing plan, .load 1 .missing,
    .plan 2 document plan, .write 1 "a" 0 7]

/-- The first context has counted its calls, and a write through the second one leaves it alone. -/
theorem first_context_accounts : ∃ c,
    ((start 2).after mixedEvents).switch.contexts[0]? = some c ∧
    c.active.number = 2 ∧ c.stats = ⟨1, 1, 1, some .openDocumentFail⟩ ∧
    ((start 2).after mixedEvents).Untouched
      (((start 2).after mixedEvents).apply (.write 1 "a" 0 7)) 0 := by
  have hcalls : calls 0 (start 2) mixedEvents =
      [.load true, .plan .success 1, .plan .openDocumentFail 1] := by decide +kernel
  obtain ⟨haccounts, hframe⟩ := contexts_account 2 mixedEvents
  obtain ⟨c, hc, hnumber, happlied, hplans, hcommands, hlast⟩ := haccounts 0 (by decide)
  rw [hcalls] at hnumber happlied hcommands hlast
  have happlied' : c.stats.plansApplied = 1 := happlied
  have hplans' : c.stats.plansApplied + c.stats.plansFailed = 2 := hplans
  refine ⟨c, hc, ?_, ?_, (hframe _ 0 (by decide)).1⟩
  · rw [hnumber, happlied']
    rfl
  · have hfailed : c.stats.plansFailed = 1 := by omega
    show Stats.mk c.stats.plansApplied _ _ _ = _
    rw [happlied', hfailed, hcommands, hlast]
    rfl

end History

end LiveSwitch
