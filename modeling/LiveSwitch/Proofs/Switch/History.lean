import LiveSwitch.Proofs.Program.Packets
import LiveSwitch.Proofs.Switch.Reconfigure

/-!
# Histories of a switch

A generation that was replaced may still be held: packets on their way and register accesses
go on through it, over the same store.  A history is a switch together with its retired
generations, and events are all that can happen to it.  In every history the arrays of one
context lie apart from those of the others.

## Main definitions

* `History`, `History.start` — a switch and the generations that it ran.
* `Event`, `History.apply`, `History.after` — what can happen, in any order.
* `Event.isAccess` — the events that only access cells.
* `Access`, `Generation.access` — what can be done with a generation that is held.
* `History.Holds` — the arrays that a context reaches through some generation.
* `History.Separate` — the invariant.

## Main results

* `History.apply_load_cases`, `History.apply_plan_failed`, `History.apply_plan_success` — what a
  load and a plan can do.
* `History.apply_eq_accessed` — packets and register accesses change cells only.
* `History.separate_after` — the invariant holds in every history.
-/

namespace LiveSwitch

open RegisterArray

/-- A switch and the generations that its contexts ran before, the latest first. -/
structure History where
  switch : Switch
  retired : List (Nat × Generation) := []

/-- What can happen to a switch.  Packets and register accesses may also go through a
generation that was retired. -/
inductive Event where
  | load (cxt : Nat) (document : FileContent)
  | plan (cxt : Nat) (document plan : FileContent)
  | packet (cxt : Nat) (p : Packet)
  | write (cxt : Nat) (array : String) (i : Nat) (v : UInt64)
  | reset (cxt : Nat) (array : String)
  | addEntry (cxt : Nat) (pipeline table : String) (key : List UInt64) (action : String)
      (data : List UInt64)
  | deleteEntry (cxt : Nat) (pipeline table : String) (key : List UInt64)
  | setDefault (cxt : Nat) (pipeline table action : String) (data : List UInt64)
  | retiredPacket (k : Nat) (p : Packet)
  | retiredWrite (k : Nat) (array : String) (i : Nat) (v : UInt64)
  | retiredReset (k : Nat) (array : String)

/-- The events that only change cells: packets, writes and resets. -/
def Event.isAccess : Event → Bool
  | packet .. | write .. | reset .. | retiredPacket .. | retiredWrite .. | retiredReset .. => true
  | load .. | plan .. | addEntry .. | deleteEntry .. | setDefault .. => false

theorem Switch.context_ok {w : Switch} {cxt : Nat} {c : Context}
    (h : w.context cxt = .ok c) : w.contexts[cxt]? = some c := by
  rw [context] at h
  split at h
  case h_1 hc => exact hc.trans (congrArg some (Except.ok.inj h))
  case h_2 => cases h

theorem Switch.active_ok {w : Switch} {cxt : Nat} {g : Generation} (h : w.active cxt = .ok g) :
    ∃ c, w.contexts[cxt]? = some c ∧ c.active = g := by
  obtain ⟨c, hc, hg⟩ := map_eq_ok.mp h
  exact ⟨c, context_ok hc, hg⟩

theorem Switch.array_eq (w : Switch) (cxt : Nat) (name : String) :
    w.array cxt name = match w.contexts[cxt]? with
      | none => .error (.unknownContext cxt)
      | some c =>
        match c.active.program.array? name with
        | none => .error (.notFound .registerArray name)
        | some a => .ok a := by
  cases hc : w.contexts[cxt]? with
  | none =>
    rw [array, active, context, hc]
    rfl
  | some c =>
    rw [array, active_eq hc, ok_bind]
    dsimp only
    cases c.active.program.array? name <;> rfl

/-- A load that succeeds puts the program of the document in place, with the next number. -/
theorem Switch.init_ok {w w' : Switch} {cxt number : Nat} {document : FileContent}
    (h : w.init cxt document = .ok (number, w')) :
    ∃ c program s, w.contexts[cxt]? = some c ∧
      Program.ofFile w.store document = .ok (program, s) ∧
      w' = { w with store := s }.setActive cxt { number := c.active.number + 1, program } := by
  simp only [init, bind_eq_ok, mapError_eq_ok, pure_eq_ok] at h
  obtain ⟨⟨program, s⟩, hfile, c, hc, heq⟩ := h
  exact ⟨c, program, s, context_ok hc, hfile, (Prod.mk.inj heq).2.symm⟩

/-- An edit of a table puts the changed table in its place. -/
theorem Switch.editTable_ok {w w' : Switch} {cxt : Nat} {pipeline table : String}
    {edit : Program → Table → Except SwitchError Table}
    (h : w.editTable cxt pipeline table edit = .ok w') :
    ∃ (c : Context) (p : Pipeline) (t t' : Table), w.contexts[cxt]? = some c ∧
      c.active.program.pipeline? pipeline = some p ∧ p.table? table = some t ∧
      edit c.active.program t = .ok t' ∧
      w' = w.setActive cxt { c.active with
        program := c.active.program.setPipeline pipeline (p.modifyTable table fun _ => t') } := by
  rw [editTable] at h
  obtain ⟨g, hg, h⟩ := bind_eq_ok.mp h
  obtain ⟨c, hc, rfl⟩ := active_ok hg
  split at h
  case h_1 => cases h
  case h_2 p hp =>
    split at h
    case h_1 => cases h
    case h_2 t ht =>
      obtain ⟨t', ht', h⟩ := bind_eq_ok.mp h
      cases h
      exact ⟨c, p, t, t', hc, hp, ht, ht', rfl⟩

namespace History

/-- The history of a switch with `n` contexts that nothing has happened to. -/
def start (n : Nat) : History := { switch := Switch.create n }

/-- The history after an operation of its switch; one that is refused changes nothing. -/
def update (h : History) (w : Except SwitchError Switch) : History :=
  match w with
  | .ok switch => { h with switch }
  | .error _ => h

/-- The history after a context got another generation. -/
def publish (h : History) (cxt : Nat) (switch : Switch) : History :=
  { switch
    retired := (h.switch.contexts[cxt]?.map fun c => (cxt, c.active)).toList ++ h.retired }

/-- The history after something happened to the store. -/
def withStore (h : History) (store : Store) : History :=
  { h with switch := { h.switch with store } }

/-- The history after an event. -/
def apply (h : History) : Event → History
  | .load cxt document =>
    match h.switch.init cxt document with
    | .ok (_, w) => h.publish cxt w
    | .error _ => h
  | .plan cxt document plan =>
    match h.switch.applyPlan cxt document plan with
    | (.success, w) => h.publish cxt w
    | (_, w) => { h with switch := w }
  | .packet cxt p => h.update ((h.switch.process cxt p).map Prod.snd)
  | .write cxt array i v => h.update (h.switch.writeRegister cxt array i v)
  | .reset cxt array => h.update (h.switch.resetRegister cxt array)
  | .addEntry cxt pipeline table key action data =>
    h.update (h.switch.addEntry cxt pipeline table key action data)
  | .deleteEntry cxt pipeline table key =>
    h.update (h.switch.deleteEntry cxt pipeline table key)
  | .setDefault cxt pipeline table action data =>
    h.update (h.switch.setDefault cxt pipeline table action data)
  | .retiredPacket k p =>
    match h.retired[k]? with
    | some (_, g) => h.withStore (g.process p h.switch.store).2
    | none => h
  | .retiredWrite k array i v =>
    match h.retired[k]?.bind fun x => x.2.program.array? array with
    | some a =>
      match a.write h.switch.store i v with
      | .ok store => h.withStore store
      | .error _ => h
    | none => h
  | .retiredReset k array =>
    match h.retired[k]?.bind fun x => x.2.program.array? array with
    | some a => h.withStore (a.reset h.switch.store)
    | none => h

/-- The history after events in turn. -/
def after (h : History) (events : List Event) : History := events.foldl apply h

/-! ### Loads and plans -/

/-- A load that is refused changes nothing, and another one publishes the program of its
document. -/
theorem apply_load_cases (h : History) (cxt : Nat) (document : FileContent) :
    h.apply (.load cxt document) = h ∨
    ∃ c program s, h.switch.contexts[cxt]? = some c ∧
      Program.ofFile h.switch.store document = .ok (program, s) ∧
      h.apply (.load cxt document) = h.publish cxt
        ({ h.switch with store := s }.setActive cxt
          { number := c.active.number + 1, program }) := by
  rw [apply]
  split
  case h_1 number w hw =>
    obtain ⟨c, program, s, hc, hfile, rfl⟩ := Switch.init_ok hw
    exact Or.inr ⟨c, program, s, hc, hfile, rfl⟩
  case h_2 => exact Or.inl rfl

section

variable {h : History} {cxt : Nat} {document plan : FileContent} {w : Switch}

/-- A plan that fails retires nothing. -/
theorem apply_plan_failed {code : ResultCode} (hcode : code ≠ .success)
    (heq : h.switch.applyPlan cxt document plan = (code, w)) :
    h.apply (.plan cxt document plan) = { h with switch := w } := by
  rw [apply, heq]
  split
  case h_1 heq' => exact absurd (congrArg Prod.fst heq') hcode
  case h_2 heq' =>
    cases heq'
    rfl

/-- A plan that succeeds retires the generation that the context ran. -/
theorem apply_plan_success (heq : h.switch.applyPlan cxt document plan = (.success, w)) :
    h.apply (.plan cxt document plan) = h.publish cxt w := by
  rw [apply, heq]

end

end History

/-! ### Accesses through a generation -/

/-- What can be done with a generation that is held: a packet runs through it, or cells of its
arrays are set. -/
inductive Access where
  | packet (p : Packet)
  | write (array : String) (i : Nat) (v : UInt64)
  | reset (array : String)

namespace Generation

/-- The store after an access; one that is refused changes nothing. -/
def access (g : Generation) (s : Store) : Access → Store
  | .packet p => (g.process p s).2
  | .write array i v =>
    match g.program.array? array with
    | some a => (a.write s i v).toOption.getD s
    | none => s
  | .reset array =>
    match g.program.array? array with
    | some a => a.reset s
    | none => s

variable {g : Generation}

/-- A packet that a generation processes keeps what writes keep. -/
theorem keeps_process {P : Store → Prop} (hP : g.program.Stable P) (p : Packet) {s : Store}
    (hs : P s) : P (g.process p s).2 := by
  have hkeeps := Program.keeps_process hP ⟨p, s⟩ hs
  rw [process]
  split at hkeeps
  case h_1 heq =>
    rw [heq]
    exact hkeeps
  case h_2 heq =>
    rw [heq]
    exact hkeeps.2

/-- An access keeps what writes and resets keep. -/
theorem keeps_access {P : Store → Prop} (hP : g.program.Stable P)
    (hreset : ∀ {name a s}, g.program.array? name = some a → P s → P (a.reset s)) {s : Store}
    (hs : P s) (x : Access) : P (g.access s x) := by
  cases x with
  | packet p => exact keeps_process hP p hs
  | write array i v =>
    rw [access]
    split
    case h_1 a ha =>
      cases hw : a.write s i v with
      | ok s' => exact hP ha hw hs
      | error e => exact hs
    case h_2 => exact hs
  | reset array =>
    rw [access]
    split
    case h_1 a ha => exact hreset ha hs
    case h_2 => exact hs

/-- An access through any generation keeps the shapes of storages, and cells fitting. -/
theorem alike_access (g : Generation) (s : Store) (x : Access) : s.Alike (g.access s x) :=
  keeps_access (g.program.stable_alike s) (fun _ hs => hs.trans (alike_reset _ _))
    (Store.Alike.refl s) x

/-- An access only reaches the storages of the arrays of its generation. -/
theorem get_access {m : Nat} (hg : ∀ a ∈ g.program.arrays.objects, a.storage ≠ m) (s : Store)
    (x : Access) : (g.access s x).get m = s.get m := by
  have hne : ∀ {name a}, g.program.array? name = some a → m ≠ a.storage :=
    fun ha => (hg _ (Program.mem_of_array? ha)).symm
  have hstable : g.program.Stable fun s' => s'.get m = s.get m := by
    intro name a s₁ s₂ i v ha h hs
    show s₂.get m = s.get m
    rw [(write_eq_ok.mp h).2, Store.get_set_of_ne (hne ha), hs]
  exact keeps_access hstable (fun ha hs => (Store.get_set_of_ne (hne ha)).trans hs) rfl x

end Generation

namespace History

/-! ### Events that only change cells -/

/-- The generation that an event goes through, and what it does there. -/
def access? (h : History) : Event → Option (Generation × Access)
  | .packet cxt p => h.switch.contexts[cxt]?.map fun c => (c.active, .packet p)
  | .write cxt array i v => h.switch.contexts[cxt]?.map fun c => (c.active, .write array i v)
  | .reset cxt array => h.switch.contexts[cxt]?.map fun c => (c.active, .reset array)
  | .retiredPacket k p => h.retired[k]?.map fun x => (x.2, .packet p)
  | .retiredWrite k array i v => h.retired[k]?.map fun x => (x.2, .write array i v)
  | .retiredReset k array => h.retired[k]?.map fun x => (x.2, .reset array)
  | .load .. | .plan .. | .addEntry .. | .deleteEntry .. | .setDefault .. => none

/-- The store after an event that only changes cells. -/
def accessed (h : History) (e : Event) : Store :=
  (h.access? e).elim h.switch.store fun x => x.1.access h.switch.store x.2

/-- Packets, writes and resets are accesses through the generation that they name. -/
theorem apply_eq_accessed (h : History) {e : Event} (he : e.isAccess = true) :
    h.apply e = h.withStore (h.accessed e) := by
  cases e with
  | load | plan | addEntry | deleteEntry | setDefault => cases he
  | packet cxt p =>
    rw [apply, accessed, access?, Switch.process, Switch.active, Switch.context]
    cases h.switch.contexts[cxt]? <;> rfl
  | write cxt array i v =>
    rw [apply, accessed, access?, Switch.writeRegister, Switch.array_eq]
    cases h.switch.contexts[cxt]? with
    | none => rfl
    | some c =>
      rw [Option.map_some, Option.elim_some, Generation.access]
      dsimp only
      cases c.active.program.array? array with
      | none => rfl
      | some a =>
        show h.update (do let store ← (a.write h.switch.store i v).mapError .register; _) = _
        dsimp only
        cases a.write h.switch.store i v <;> rfl
  | reset cxt array =>
    rw [apply, accessed, access?, Switch.resetRegister, Switch.array_eq]
    cases h.switch.contexts[cxt]? with
    | none => rfl
    | some c =>
      rw [Option.map_some, Option.elim_some, Generation.access]
      dsimp only
      cases c.active.program.array? array <;> rfl
  | retiredPacket k p =>
    rw [apply, accessed, access?]
    cases h.retired[k]? <;> rfl
  | retiredWrite k array i v =>
    rw [apply, accessed, access?]
    cases h.retired[k]? with
    | none => rfl
    | some x =>
      rw [Option.bind_some, Option.map_some, Option.elim_some, Generation.access]
      cases x.2.program.array? array with
      | none => rfl
      | some a =>
        dsimp only
        cases a.write h.switch.store i v <;> rfl
  | retiredReset k array =>
    rw [apply, accessed, access?]
    cases h.retired[k]? with
    | none => rfl
    | some x =>
      rw [Option.bind_some, Option.map_some, Option.elim_some, Generation.access]
      cases x.2.program.array? array <;> rfl

/-- Packets, writes and resets change cells only, through whatever generation. -/
theorem apply_access (h : History) {e : Event} (he : e.isAccess = true) :
    ∃ store, h.switch.store.Alike store ∧ h.apply e = h.withStore store := by
  refine ⟨h.accessed e, ?_, h.apply_eq_accessed he⟩
  rw [accessed]
  cases h.access? e with
  | none => exact Store.Alike.refl _
  | some x => exact x.1.alike_access _ x.2

/-- A context reaches an array through the generation that it runs or through one that it
ran. -/
def Holds (h : History) (cxt : Nat) (a : RegisterArray) : Prop :=
  a ∈ h.switch.activeArrays cxt ∨
    ∃ g, (cxt, g) ∈ h.retired ∧ a ∈ g.program.arrays.objects

/-- The arrays lie in storages that are there, and those of different contexts lie apart. -/
structure Separate (h : History) : Prop where
  bounded : ∀ cxt a, h.Holds cxt a → a.storage < h.switch.store.size
  apart : ∀ cxt cxt' a b, h.Holds cxt a → h.Holds cxt' b → a.storage = b.storage → cxt = cxt'

theorem Separate.active {h : History} (hs : h.Separate) (cxt : Nat) :
    Bounded (h.switch.activeArrays cxt) h.switch.store :=
  fun a ha => hs.bounded cxt a (Or.inl ha)

/-! ### One event -/

/-- Every array lies where an array of its context lay, or, for one context, in a storage
that was added. -/
theorem Separate.step {h h' : History} (hs : h.Separate) (new : Nat)
    (hsize : h.switch.store.size ≤ h'.switch.store.size)
    (hh : ∀ cxt a, h'.Holds cxt a → (∃ b, h.Holds cxt b ∧ b.storage = a.storage) ∨
      cxt = new ∧ h.switch.store.size ≤ a.storage ∧ a.storage < h'.switch.store.size) :
    h'.Separate where
  bounded cxt a ha := by
    rcases hh cxt a ha with ⟨b, hb, hst⟩ | ⟨-, -, hlt⟩
    · exact Nat.lt_of_lt_of_le (hst ▸ hs.bounded cxt b hb) hsize
    · exact hlt
  apart cxt cxt' a b ha hb heq := by
    rcases hh cxt a ha with ⟨a', ha', hst⟩ | ⟨rfl, hle, -⟩
    · rcases hh cxt' b hb with ⟨b', hb', hst'⟩ | ⟨-, hle, -⟩
      · exact hs.apart cxt cxt' a' b' ha' hb' (by rw [hst, hst', heq])
      · have := hs.bounded cxt a' ha'
        omega
    · rcases hh cxt' b hb with ⟨b', hb', hst'⟩ | ⟨rfl, -, -⟩
      · have := hs.bounded cxt' b' hb'
        omega
      · rfl

/-- Nothing happened but to cells, tables and statistics. -/
theorem Separate.of_holds {h h' : History} (hs : h.Separate)
    (hsize : h.switch.store.size ≤ h'.switch.store.size)
    (hh : ∀ cxt a, h'.Holds cxt a → h.Holds cxt a) : h'.Separate :=
  hs.step 0 hsize fun cxt a ha => Or.inl ⟨a, hh cxt a ha, rfl⟩

theorem Separate.withStore {h : History} (hs : h.Separate) {store : Store}
    (hsize : store.size = h.switch.store.size) : (h.withStore store).Separate :=
  hs.of_holds (Nat.le_of_eq hsize.symm) fun _ _ ha => ha

/-- A context got a generation whose arrays lie where its own lay, or in added storages. -/
theorem Separate.publish {h : History} (hs : h.Separate) {cxt : Nat} {w : Switch}
    (hsize : h.switch.store.size ≤ w.store.size)
    (hl : ∀ a ∈ w.activeArrays cxt,
      (∃ b ∈ h.switch.activeArrays cxt, b.storage = a.storage) ∨
        h.switch.store.size ≤ a.storage ∧ a.storage < w.store.size)
    (hother : ∀ i, i ≠ cxt → w.activeArrays i = h.switch.activeArrays i) :
    (h.publish cxt w).Separate := by
  refine hs.step cxt hsize fun i a ha => ?_
  rcases ha with ha | ⟨g, hg, ha⟩
  · by_cases hi : i = cxt
    · subst hi
      rcases hl a ha with ⟨b, hb, hst⟩ | hnew
      · exact Or.inl ⟨b, Or.inl hb, hst⟩
      · exact Or.inr ⟨rfl, hnew⟩
    · exact Or.inl ⟨a, Or.inl (hother i hi ▸ ha), rfl⟩
  · rw [History.publish, List.mem_append, Option.mem_toList,
      Option.map_eq_some_iff] at hg
    rcases hg with ⟨c, hc, heq⟩ | hg
    · cases heq
      exact Or.inl ⟨a, Or.inl (Switch.activeArrays_eq hc ▸ ha), rfl⟩
    · exact Or.inl ⟨a, Or.inr ⟨g, hg, ha⟩, rfl⟩

variable {h : History}

/-- The commit of a plan only reaches storages of its own context and ones that are new. -/
theorem Separate.get_commitArrays (hs : h.Separate) {cxt i : Nat} {c : Context}
    {document : FileContent} {program : Program} {s : Store} {a : RegisterArray}
    (hc : h.switch.contexts[cxt]? = some c)
    (hleads : Program.PlanLeads document (c.active.program, h.switch.store) (program, s))
    (ha : h.Holds i a) (hi : i ≠ cxt) :
    (program.commitArrays s).2.get a.storage = h.switch.store.get a.storage := by
  have hlt := hs.bounded i a ha
  have hgrows := hleads.grows (Switch.activeArrays_eq hc ▸ hs.active cxt)
  rw [← hgrows.store.get_eq a.storage hlt]
  refine Program.get_commitAll fun b hb heq => ?_
  rcases hgrows.origin b hb with ⟨b', hb', hst, -⟩ | hle
  · rw [← Switch.activeArrays_eq hc] at hb'
    exact hi (hs.apart i cxt a b' ha (Or.inl hb') (hst.trans heq).symm)
  · omega

theorem separate_load (hs : h.Separate) (cxt : Nat) (document : FileContent) :
    (h.apply (.load cxt document)).Separate := by
  rcases h.apply_load_cases cxt document with heq | ⟨c, program, s, hc, hfile, heq⟩
  · rw [heq]
    exact hs
  · rw [heq]
    obtain ⟨v, hdocument⟩ := Program.ofFile_ok hfile
    have hgrows := (Program.ofDocument_fresh hdocument).grows
    refine hs.publish hgrows.store.size_le ?_ fun i hi => Switch.activeArrays_modify_of_ne hi
    intro a ha
    rw [Switch.setActive, Switch.activeArrays_modify_self hc] at ha
    exact Or.inr ⟨(hgrows.origin a ha).resolve_left (by simp), hgrows.bounded a ha⟩

theorem separate_plan (hs : h.Separate) (cxt : Nat) (document plan : FileContent) :
    (h.apply (.plan cxt document plan)).Separate := by
  rcases Switch.applyPlan_cases (hs.active cxt) document plan with
    ⟨s, code, hcode, hext, heq⟩ | ⟨c, program, s, n, hc, hleads, heq⟩
  · rw [apply_plan_failed hcode heq]
    have harrays := h.switch.activeArrays_failed cxt code s
    exact hs.of_holds hext.size_le fun i a ha => ha.imp_left fun ha => harrays i ▸ ha
  · rw [apply_plan_success heq]
    have hgrows := hleads.grows (Switch.activeArrays_eq hc ▸ hs.active cxt)
    have hsize : (program.commitArrays s).2.size = s.size := program.size_commitArrays s
    refine hs.publish (hsize ▸ hgrows.store.size_le) ?_ fun i hi =>
      Switch.activeArrays_modify_of_ne hi
    intro a ha
    rw [Switch.activeArrays_modify_self hc, Context.publish, Program.objects_commitArrays] at ha
    obtain ⟨b, hb, rfl⟩ := List.mem_map.mp ha
    -- an array of the plan lies where one of the context lay, or in a storage of its own
    rcases hgrows.origin b hb with ⟨b', hb', hst, -⟩ | hle
    · exact Or.inl ⟨b', Switch.activeArrays_eq hc ▸ hb', hst⟩
    · exact Or.inr ⟨hle, hsize ▸ hgrows.bounded b hb⟩

/-- An operation that keeps the number of storages and the arrays of every context. -/
theorem separate_update (hs : h.Separate) {x : Except SwitchError Switch}
    (hx : ∀ w, x = .ok w → w.store.size = h.switch.store.size ∧
      ∀ i, w.activeArrays i = h.switch.activeArrays i) : (h.update x).Separate := by
  cases x with
  | ok w =>
    obtain ⟨hsize, harrays⟩ := hx w rfl
    exact hs.of_holds (Nat.le_of_eq hsize.symm) fun i a ha =>
      ha.imp_left fun ha => harrays i ▸ ha
  | error e => exact hs

theorem editTable_frame {w w' : Switch} {cxt : Nat} {pipeline table : String}
    {edit : Program → Table → Except SwitchError Table}
    (hw : w.editTable cxt pipeline table edit = .ok w') :
    w'.store.size = w.store.size ∧ ∀ i, w'.activeArrays i = w.activeArrays i := by
  obtain ⟨c, p, t, t', hc, -, -, -, rfl⟩ := Switch.editTable_ok hw
  refine ⟨rfl, fun i => Switch.activeArrays_modify _ (fun c' hc' => ?_) i⟩
  rw [hc, Option.some.injEq] at hc'
  rw [← hc']
  rfl

/-- Every event keeps the invariant. -/
theorem separate_apply (hs : h.Separate) (e : Event) : (h.apply e).Separate := by
  by_cases he : e.isAccess = true
  · obtain ⟨store, hstore, heq⟩ := h.apply_access he
    rw [heq]
    exact hs.withStore hstore.size
  cases e with
  | load cxt document => exact separate_load hs cxt document
  | plan cxt document plan => exact separate_plan hs cxt document plan
  | addEntry | deleteEntry | setDefault =>
    exact separate_update hs fun w hw => editTable_frame hw
  | _ => exact absurd rfl he

theorem separate_start (n : Nat) : (start n).Separate := by
  have hnone : ∀ cxt a, ¬(start n).Holds cxt a := by
    rintro cxt a (ha | ⟨g, hg, -⟩)
    · rw [start, Switch.create, Switch.activeArrays, List.getElem?_replicate] at ha
      split at ha <;> cases ha
    · cases hg
  exact ⟨fun cxt a ha => absurd ha (hnone cxt a), fun cxt _ a _ ha => absurd ha (hnone cxt a)⟩

theorem Separate.after (hs : h.Separate) (events : List Event) : (h.after events).Separate := by
  rw [History.after]
  induction events generalizing h with
  | nil => exact hs
  | cons e events ih => exact ih (separate_apply hs e)

/-- The invariant holds in every history. -/
theorem separate_after (n : Nat) (events : List Event) : ((start n).after events).Separate :=
  (separate_start n).after events

end History

end LiveSwitch
