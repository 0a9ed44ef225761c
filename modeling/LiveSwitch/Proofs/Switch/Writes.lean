import LiveSwitch.Proofs.Switch.Timeline

/-!
# No acknowledged write is lost

A write that succeeded is seen by every later reader, cut to the widths that its cell was
given since, as long as nobody wrote the cell again and no plan did away with it.  It may go
through any generation, the plan of the day may have come as far as it likes, and other
writes may fall between any two of its steps.  All this is as long as no array has lost its id to
another one: then its name leads to the other array, and the write is gone.

## Main definitions

* `Timeline.Touches`, `Timeline.Untouched` — the steps that write a cell or reset its array.
* `Timeline.widthsSince` — the widths that plans gave an array.

## Main results

* `Timeline.read_after_write` — what a reader sees.
* `Timeline.replaced_array_loses_write` — a write that is gone, as an insertion has replaced its
  array.
-/

namespace LiveSwitch

open RegisterArray

namespace Timeline

/-- A step writes a cell of an array, or resets the array. -/
def Touches (T : Timeline) (x : String) (i : Nat) : Event → Prop
  | .write k y j v => y = x ∧ j = i ∧ ∃ a s, T.array? k y = some a ∧ a.write T.store j v = .ok s
  | .reset k y => y = x ∧ ∃ a, T.array? k y = some a
  | _ => False

/-- None of some steps writes a cell of an array or resets the array. -/
def Untouched (x : String) (i : Nat) : Timeline → List Event → Prop
  | _, [] => True
  | T, e :: events => ¬T.Touches x i e ∧ Untouched x i (T.step e) events

/-- The widths that the plans gave an array, apart from the first `n` programs. -/
def widthsSince (T : Timeline) (n : Nat) (x : String) : List Nat :=
  (T.history.drop n).flatMap fun p => (p.migrations x).filterMap Migration.width?

/-- The array `x` of program `k` lies in storage `n`. -/
def Anchored (T : Timeline) (k : Nat) (x : String) (n : Nat) : Prop :=
  ∃ p a, T.history[k]? = some p ∧ p.program.array? x = some a ∧ a.storage = n

/-- Cell `i` of storage `n` holds a value, cut to the widths of the programs from `m` on,
unless a plan after program `k` did away with the array or, from `m` on, with the cell, or an array
has lost its id. -/
def Keeps (k m : Nat) (x : String) (i n : Nat) (c : UInt64) (T : Timeline) : Prop :=
  (∀ p ∈ T.history, p.program.arrays.strays = []) →
  (∀ p ∈ T.history.drop (k + 1), p.Keeps x) →
  (∀ p ∈ T.history.drop m, ∀ size, Migration.resize size ∈ p.migrations x → i < size) →
  i < (T.store.get n).cells.size ∧ (T.store.get n).cell i = cut c (T.widthsSince m x)

variable {T T' : Timeline} {k m n i : Nat} {x : String} {c : UInt64}

/-! ### Where the array lies -/

theorem Anchored.lt (h : T.Anchored k x n) : k < T.history.length := by
  obtain ⟨p, -, hp, -⟩ := h
  exact (List.getElem?_eq_some_iff.mp hp).1

/-- An array that no plan replaced lies where it lay. -/
theorem Sound.storage_eq (hT : T.Sound) (hstrays : ∀ p ∈ T.history, p.program.arrays.strays = [])
    (hanchor : T.Anchored k x n)
    (hkeep : ∀ p ∈ T.history.drop (k + 1), p.Keeps x) {d : Nat} {q : Publication}
    (hq : T.history[k + d]? = some q) :
    ∃ b, q.program.array? x = some b ∧ b.storage = n := by
  induction d generalizing q with
  | zero =>
    obtain ⟨p, a, hp, ha, hst⟩ := hanchor
    rw [Nat.add_zero, hp, Option.some.injEq] at hq
    exact ⟨a, hq ▸ ha, hst⟩
  | succ d ih =>
    have hlt := (List.getElem?_eq_some_iff.mp hq).1
    obtain ⟨b, hb, hst⟩ := ih (List.getElem?_eq_getElem (show k + d < T.history.length by omega))
    have hmem : q ∈ T.history.drop (k + 1) := by
      refine List.mem_of_getElem? (i := d) ?_
      rw [List.getElem?_drop, ← hq]
      congr 1
      omega
    have hlinked := hT.linked (k + d) _ q (List.getElem?_eq_getElem (by omega)) hq
      (hstrays q (List.mem_of_mem_drop hmem))
    obtain ⟨b', hb', hst'⟩ := hlinked.2 x (hkeep q hmem) b hb
    exact ⟨b', hb', hst'.trans hst⟩

theorem Sound.storage_latest (hT : T.Sound)
    (hstrays : ∀ p ∈ T.history, p.program.arrays.strays = []) (hanchor : T.Anchored k x n)
    (hkeep : ∀ p ∈ T.history.drop (k + 1), p.Keeps x) {q : Publication}
    (hq : T.history.getLast? = some q) : ∃ b, q.program.array? x = some b ∧ b.storage = n := by
  have hlt := hanchor.lt
  rw [List.getLast?_eq_getElem?] at hq
  refine hT.storage_eq hstrays hanchor hkeep (d := T.history.length - 1 - k) ?_
  rw [← hq]
  congr 1
  omega

/-- Only arrays of the name lie in the storage. -/
theorem Sound.name_of_anchored (hT : T.Sound)
    (hstrays : ∀ p ∈ T.history, p.program.arrays.strays = []) (hanchor : T.Anchored k x n)
    {g : Program} (hg : g ∈ T.programs) {a : RegisterArray} (ha : a ∈ g.arrays.objects) (hst : a.storage = n) :
    nameOf a = x := by
  obtain ⟨p, b, hp, hb, hbst⟩ := hanchor
  have hp' : p ∈ T.history := List.mem_of_getElem? hp
  rw [← Program.nameOf_array? (hstrays p hp') hb]
  exact hT.apart g hg p.program (mem_programs.mpr (Or.inl ⟨p, hp', rfl⟩)) a ha b
    (Program.mem_of_array? hb) (hst.trans hbst.symm)

theorem Sound.anchored_lt (hT : T.Sound) (hanchor : T.Anchored k x n) : n < T.store.size := by
  obtain ⟨p, b, hp, hb, hbst⟩ := hanchor
  have hp' : p.program ∈ T.programs :=
    mem_programs.mpr (Or.inl ⟨p, List.mem_of_getElem? hp, rfl⟩)
  exact hbst ▸ hT.bounded p.program hp' b (Program.mem_of_array? hb)

/-- The arrays of published generations belong to the programs of the timeline. -/
theorem mem_programs_of_array? (hstrays : ∀ p ∈ T.history, p.program.arrays.strays = [])
    {a : RegisterArray} (h : T.array? k x = some a) :
    ∃ g ∈ T.programs, a ∈ g.arrays.objects ∧ nameOf a = x := by
  obtain ⟨p, hp, ha⟩ := Option.bind_eq_some_iff.mp h
  have hp' : p ∈ T.history := List.mem_append_left _ (List.mem_of_getElem? hp)
  exact ⟨p.program, mem_programs.mpr (Or.inl ⟨p, hp', rfl⟩), Program.mem_of_array? ha,
    Program.nameOf_array? (hstrays p hp') ha⟩

/-! ### One step -/

theorem Keeps.of_eq (h : Keeps k m x i n c T) (hhistory : T'.history = T.history)
    (hget : T'.store.get n = T.store.get n) : Keeps k m x i n c T' := by
  intro hstrays hkeep hsize
  rw [hhistory] at hstrays hkeep hsize
  rw [hget, widthsSince, hhistory]
  exact h hstrays hkeep hsize

/-- Only a commit adds to the history. -/
theorem history_step_of_ne (T : Timeline) {e : Event} (he : e ≠ .commit) :
    (T.step e).history = T.history := by
  cases e with
  | write k x i v =>
    rw [step]
    split
    · split <;> rfl
    · rfl
  | reset k x =>
    rw [step]
    split <;> rfl
  | start donor =>
    rw [step]
    split
    case h_1 g hphase hg =>
      rw [history_of_next?_eq_none rfl, history_of_next?_eq_none (by rw [hphase]; rfl)]
    case h_2 => rfl
  | command cmd =>
    rw [step]
    split
    case h_1 s l hphase =>
      have hhistory : T.history = T.published := history_of_next?_eq_none (by rw [hphase]; rfl)
      split <;> rw [history_of_next?_eq_none rfl, hhistory]
    case h_2 => rfl
  | abandon =>
    rw [step]
    split
    case h_1 s l hphase =>
      rw [history_of_next?_eq_none rfl, history_of_next?_eq_none (by rw [hphase]; rfl)]
    case h_2 => rfl
  | commit => exact absurd rfl he
  | publish =>
    rw [step]
    split
    case h_1 next hphase =>
      rw [history_of_next?_eq_none rfl, history, hphase]
      rfl
    case h_2 => rfl

/-- The history only grows. -/
theorem history_step (T : Timeline) (e : Event) :
    ∃ l, (T.step e).history = T.history ++ l := by
  by_cases he : e = .commit
  · subst he
    rw [step]
    split
    case h_1 s l hphase =>
      have hhistory : T.history = T.published := history_of_next?_eq_none (by rw [hphase]; rfl)
      exact ⟨_, by rw [hhistory]; rfl⟩
    case h_2 => exact ⟨[], (List.append_nil _).symm⟩
  · exact ⟨[], by rw [T.history_step_of_ne he, List.append_nil]⟩

theorem Anchored.step (h : T.Anchored k x n) (e : Event) : (T.step e).Anchored k x n := by
  obtain ⟨p, a, hp, ha, hst⟩ := h
  obtain ⟨l, hl⟩ := history_step T e
  refine ⟨p, a, ?_, ha, hst⟩
  rw [hl, List.getElem?_append_left (List.getElem?_eq_some_iff.mp hp).1, hp]

/-- A plan that ends without a commit. -/
theorem Keeps.drop (h : Keeps k m x i n c T) {s : Session} {l : List Edit}
    (hphase : T.phase = .editing s l) :
    Keeps k m x i n c (Timeline.mk T.store T.published .idle) := by
  refine h.of_eq ?_ rfl
  rw [history_of_next?_eq_none rfl, history_of_next?_eq_none (by rw [hphase]; rfl)]

theorem Keeps.write (hT : T.Sound) (hanchor : T.Anchored k x n) (h : Keeps k m x i n c T)
    {k' j : Nat} {y : String} {v : UInt64} (hquiet : ¬T.Touches x i (.write k' y j v))
    {a : RegisterArray} (ha : T.array? k' y = some a) {store : Store}
    (hwrite : a.write T.store j v = .ok store) : Keeps k m x i n c { T with store } := by
  obtain ⟨-, hstore⟩ := write_eq_ok.mp hwrite
  -- a write through an array over the same storage is one to another cell
  by_cases hst : a.storage = n
  · intro hstrays hkeep hsize
    obtain ⟨g, hg, hmem, hname⟩ := mem_programs_of_array? hstrays ha
    have hxy : y = x := hname.symm.trans (hT.name_of_anchored hstrays hanchor hg hmem hst)
    have hij : i ≠ j := fun hij => hquiet ⟨hxy, hij.symm, a, store, ha, hwrite⟩
    obtain ⟨hlt, hcell⟩ := h hstrays hkeep hsize
    have hget : store.get n = (T.store.get n).setCell j
        (v &&& widthMask (min a.bitwidth (T.store.get n).bitwidth)) := by
      rw [hstore, hst, Store.get_set_self (hT.anchored_lt hanchor)]
    refine ⟨?_, ?_⟩
    · show i < (store.get n).cells.size
      rw [hget, Storage.size_cells_setCell]
      exact hlt
    · show (store.get n).cell i = _
      rw [hget, Storage.cell_setCell, if_neg fun e => hij e.1]
      exact hcell
  · refine h.of_eq rfl ?_
    rw [hstore]
    exact Store.get_set_of_ne (Ne.symm hst)

theorem Keeps.reset (hT : T.Sound) (hanchor : T.Anchored k x n) (h : Keeps k m x i n c T)
    {k' : Nat} {y : String} (hquiet : ¬T.Touches x i (.reset k' y)) {a : RegisterArray}
    (ha : T.array? k' y = some a) : Keeps k m x i n c { T with store := a.reset T.store } := by
  intro hstrays hkeep hsize
  obtain ⟨g, hg, hmem, hname⟩ := mem_programs_of_array? hstrays ha
  have hst : a.storage ≠ n := by
    intro hst
    have hxy : y = x := hname.symm.trans (hT.name_of_anchored hstrays hanchor hg hmem hst)
    exact hquiet ⟨hxy, a, ha⟩
  exact h.of_eq rfl (Store.get_set_of_ne (Ne.symm hst)) hstrays hkeep hsize

theorem Keeps.command (hT : T.Sound) (hanchor : T.Anchored k x n) (h : Keeps k m x i n c T)
    {s s' : Session} {l : List Edit} {cmd : Command} (hphase : T.phase = .editing s l)
    (happly : { s with store := T.store }.apply cmd = .ok s') :
    Keeps k m x i n c (Timeline.mk s'.store T.published (.editing s' (l ++ [cmd.edit]))) := by
  have hmem : s.candidate ∈ T.programs := mem_programs.mpr (Or.inr (by rw [hphase]; rfl))
  have hgrows := Edit.grows (hT.bounded _ hmem) (Session.apply_ok happly).1
  refine h.of_eq ?_ (hgrows.store.get_eq n (hT.anchored_lt hanchor))
  rw [history_of_next?_eq_none rfl, history_of_next?_eq_none (by rw [hphase]; rfl)]

/-- One more program was committed. -/
theorem widthsSince_append {p : Publication} (hhistory : T'.history = T.history ++ [p])
    (hm : m ≤ T.history.length) (x : String) :
    T'.widthsSince m x =
      T.widthsSince m x ++ (p.migrations x).filterMap Migration.width? := by
  rw [widthsSince, hhistory, List.drop_append_of_le_length hm, List.flatMap_append,
    List.flatMap_singleton, ← widthsSince]

theorem Keeps.commit (hT : T.Sound) (hanchor : T.Anchored k x n) (h : Keeps k m x i n c T)
    (hm : m ≤ T.history.length) {s : Session} {l : List Edit} (hphase : T.phase = .editing s l) :
    Keeps k m x i n c (Timeline.mk (s.candidate.commitArrays T.store).2 T.published
      (.committed { program := (s.candidate.commitArrays T.store).1, edits := l })) := by
  have hpublished : T.history = T.published := history_of_next?_eq_none (by rw [hphase]; rfl)
  have hhistory : (Timeline.mk (s.candidate.commitArrays T.store).2 T.published
      (.committed { program := (s.candidate.commitArrays T.store).1, edits := l })).history =
      T.history ++ [{ program := (s.candidate.commitArrays T.store).1, edits := l }] := by
    rw [hpublished]
    rfl
  intro hstrays hkeep hsize
  rw [hhistory, List.forall_mem_append, List.forall_mem_singleton] at hstrays
  rw [hhistory, List.drop_append_of_le_length hanchor.lt, List.forall_mem_append,
    List.forall_mem_singleton] at hkeep
  rw [hhistory, List.drop_append_of_le_length hm, List.forall_mem_append,
    List.forall_mem_singleton] at hsize
  obtain ⟨hlt, hcell⟩ := h hstrays.1 hkeep.1 hsize.1
  -- the array of the candidate is the one committed last, laid out anew over the storage
  obtain ⟨p, hp, -, hsettled⟩ := hT.latest
  obtain ⟨b, hb, hst⟩ := hT.storage_latest hstrays.1 hanchor hkeep.1 hp
  obtain ⟨hconsistent, -, hkept⟩ := hT.candidate s l hphase
  have hb' := hsettled b (Program.mem_of_array? hb)
  have ha := (hkept hstrays.2 p (hpublished ▸ hp)).2 x hkeep.2 b hb
  rw [hst] at hb'
  have hmem : s.candidate ∈ T.programs := mem_programs.mpr (Or.inr (by rw [hphase]; rfl))
  have hget := Program.get_commitAll_of_mem
    (Program.nodup_storage hconsistent (hT.apart _ hmem _ hmem)) (hT.bounded _ hmem)
    (Program.mem_of_array? ha)
  rw [storage_relayout, hst] at hget
  have hsteps : ∀ size, Migration.resize size ∈ Edit.migrations x l → i < size := hsize.2
  have hview := view_relayout hb' hsteps
  rw [widthsSince_append hhistory hm, cut_append, ← hcell]
  show i < ((Program.commitAll s.candidate.arrays.objects T.store).2.get n).cells.size ∧
    ((Program.commitAll s.candidate.arrays.objects T.store).2.get n).cell i =
      cut ((T.store.get n).cell i) ((Edit.migrations x l).filterMap Migration.width?)
  rw [← hview, hget]
  have hi : i < (b.relayout (Edit.migrations x l)).size :=
    lt_size_relayout (hb'.size ▸ hlt) hsteps
  split
  case isTrue =>
    rw [size_cells_migrate, cell_migrate, if_pos hi]
    exact ⟨hi, rfl⟩
  case isFalse hpending =>
    have hnil : Edit.migrations x l = [] := by
      simpa [isPending, pending_relayout, hb'.pending] using hpending
    rw [hnil, relayout_nil, hb'.view]
    exact ⟨hlt, rfl⟩

/-- A step that does not touch the cell keeps its value. -/
theorem Keeps.step (hT : T.Sound) (hanchor : T.Anchored k x n) (h : Keeps k m x i n c T)
    (hm : m ≤ T.history.length) {e : Event} (hquiet : ¬T.Touches x i e) :
    Keeps k m x i n c (T.step e) := by
  cases e with
  | write k' y j v =>
    rw [Timeline.step]
    split
    case h_1 a ha =>
      split
      case h_1 store hwrite => exact h.write hT hanchor hquiet ha hwrite
      case h_2 => exact h
    case h_2 => exact h
  | reset k' y =>
    rw [Timeline.step]
    split
    case h_1 a ha => exact h.reset hT hanchor hquiet ha
    case h_2 => exact h
  | command cmd =>
    rw [Timeline.step]
    split
    case h_1 s l hphase =>
      split
      case h_1 s' happly => exact h.command hT hanchor hphase happly
      case h_2 => exact h.drop hphase
    case h_2 => exact h
  | abandon =>
    rw [Timeline.step]
    split
    case h_1 s l hphase => exact h.drop hphase
    case h_2 => exact h
  | commit =>
    rw [Timeline.step]
    split
    case h_1 s l hphase => exact h.commit hT hanchor hm hphase
    case h_2 => exact h
  | start | publish =>
    -- neither the history nor a cell changes
    refine h.of_eq (T.history_step_of_ne (by intro he; cases he)) ?_
    rw [Timeline.step]
    split <;> rfl

/-! ### Any number of steps -/

theorem Keeps.after (hT : T.Sound) (hanchor : T.Anchored k x n) (h : Keeps k m x i n c T)
    (hm : m ≤ T.history.length) {events : List Event} (hquiet : Untouched x i T events) :
    (T.after events).Sound ∧ (T.after events).Anchored k x n ∧
      Keeps k m x i n c (T.after events) := by
  induction events generalizing T with
  | nil => exact ⟨hT, hanchor, h⟩
  | cons e events ih =>
    obtain ⟨l, hl⟩ := history_step T e
    refine ih (sound_step hT e) (hanchor.step e) (h.step hT hanchor hm hquiet.1) ?_ hquiet.2
    rw [hl, List.length_append]
    omega

/-- What can become of a context after its first document was loaded. -/
def Reachable (T : Timeline) : Prop :=
  ∃ s v g s' events, Program.ofDocument s v = .ok (g, s') ∧ T = (start g s').after events

theorem Reachable.sound (h : T.Reachable) : T.Sound := by
  obtain ⟨s, v, g, s', events, hload, rfl⟩ := h
  exact sound_after (sound_start hload) events

/-- A write of `v` to cell `i` of the array `x` of generation `k` succeeds, and whatever
follows touches the cell no more, does away neither with the array nor with the cell, lets no
array lose its id to another one, and ends with no plan between its commit and its publication.
Then a reader of the active
generation sees `v`, cut to the width of the array written through, to the width of its
storage at the time, and to all widths that the plans committed since have given. -/
theorem read_after_write (hT : T.Reachable) {k i : Nat} {x : String} {v : UInt64}
    {a : RegisterArray} {s : Store} (ha : T.array? k x = some a)
    (hwrite : a.write T.store i v = .ok s) {events : List Event} {T' : Timeline}
    (hT' : T' = (T.step (.write k x i v)).after events) (hphase : T'.phase.next? = none)
    (hquiet : Untouched x i (T.step (.write k x i v)) events)
    (hstrays : ∀ g, T'.active? = some g → g.arrays.strays = [])
    (hkeep : ∀ p ∈ T'.published.drop (k + 1), p.Keeps x)
    (hsize : ∀ p ∈ T'.published.drop T.history.length, ∀ size,
      Migration.resize size ∈ p.migrations x → i < size) :
    ∃ g b, T'.active? = some g ∧ g.array? x = some b ∧
      b.read T'.store i = .ok (v &&& widthMask ((T'.widthsSince T.history.length x).foldl min
        (min a.bitwidth (T.store.get a.storage).bitwidth))) := by
  have hsound := hT.sound
  have hstep : T.step (.write k x i v) = { T with store := s } := by
    rw [step, ha]
    dsimp only
    rw [hwrite]
  have hanchor : T.Anchored k x a.storage := by
    obtain ⟨p, hp, hpa⟩ := Option.bind_eq_some_iff.mp ha
    refine ⟨p, a, ?_, hpa, rfl⟩
    rw [history, List.getElem?_append_left (List.getElem?_eq_some_iff.mp hp).1, hp]
  obtain ⟨⟨-, hi⟩, hs⟩ := write_eq_ok.mp hwrite
  have hget : s.get a.storage = (T.store.get a.storage).setCell i
      (v &&& widthMask (min a.bitwidth (T.store.get a.storage).bitwidth)) := by
    rw [hs, Store.get_set_self (hsound.anchored_lt hanchor)]
  have hkeeps : Keeps k T.history.length x i a.storage
      (v &&& widthMask (min a.bitwidth (T.store.get a.storage).bitwidth))
      { T with store := s } := by
    intro _ _ _
    have hnone : ({ T with store := s } : Timeline).widthsSince T.history.length x = [] := by
      have hhistory : ({ T with store := s } : Timeline).history = T.history := rfl
      rw [widthsSince, hhistory, List.drop_length]
      rfl
    rw [hnone]
    show i < (s.get a.storage).cells.size ∧ (s.get a.storage).cell i = _
    rw [hget, Storage.size_cells_setCell, Storage.cell_setCell, if_pos ⟨rfl, hi⟩]
    exact ⟨hi, rfl⟩
  rw [hstep] at hT' hquiet
  obtain ⟨hsound', hanchor', hkeeps'⟩ := hkeeps.after (hsound.withStore (alike_write hwrite))
    hanchor (Nat.le_refl _) hquiet
  rw [← hT'] at hsound' hanchor' hkeeps'
  have hpublished := history_of_next?_eq_none hphase
  rw [← hpublished] at hkeep hsize
  have hstrays' := hsound'.strays_history fun p hp =>
    hstrays p.program (by rw [active?, ← hpublished, hp, Option.map_some])
  obtain ⟨hlt, hcell⟩ := hkeeps' hstrays' hkeep hsize
  obtain ⟨p, hp, -, hsettled⟩ := hsound'.latest
  obtain ⟨b, hb, hst⟩ := hsound'.storage_latest hstrays' hanchor' hkeep hp
  have hb' := hsettled b (Program.mem_of_array? hb)
  rw [hpublished] at hp
  refine ⟨p.program, b, by rw [active?, hp, Option.map_some], hb, ?_⟩
  have hlt' : i < b.size := hb'.size ▸ (hst ▸ hlt)
  rw [hb'.read hlt', hst, hcell, cut_widthMask]

/-! ### A plan that narrows an array, and one that replaces it -/

/-- A document of one array of four cells of eight bits. -/
def sampleDocument : Json.Value :=
  .object [("register_arrays", .array [.object
    [("bitwidth", .ofNat 8), ("id", .ofNat 0), ("name", .string "x"), ("size", .ofNat 4)]])]

/-- Its array. -/
def sampleArray : RegisterArray :=
  { identity := ⟨"x", 0, none⟩, size := 4, bitwidth := 8, storage := 0 }

/-- Its program. -/
def sampleProgram : Program := { arrays := { objects := [sampleArray], ids := ⟨1⟩ } }

/-- A context that runs it. -/
def sample : Timeline := start sampleProgram ⟨[.zeros 4 8]⟩

/-- A plan that narrows the array to four bits.  Other cells are written before its commit,
and after it through the old generation. -/
def narrowing : List Event :=
  [.start {}, .command (.rewidenArray (.old "x") 4), .write 0 "x" 1 7, .commit,
    .write 0 "x" 0 9, .publish]

/-- Nine bits written into a cell of eight are seen as the four that are left. -/
theorem read_after_narrowing :
    ∃ g b, ((sample.step (.write 0 "x" 2 0x1ff)).after narrowing).active? = some g ∧
      g.array? "x" = some b ∧
      b.read ((sample.step (.write 0 "x" 2 0x1ff)).after narrowing).store 2 = .ok 0xf := by
  have hload : Program.ofDocument {} sampleDocument = .ok (sampleProgram, ⟨[.zeros 4 8]⟩) := rfl
  have hsample : sample.Reachable := ⟨_, _, _, _, [], hload, rfl⟩
  have ha : sample.array? 0 "x" = some sampleArray := rfl
  have hwrite : sampleArray.write sample.store 2 0x1ff = .ok ⟨[⟨8, #[0, 0, 0xff, 0]⟩]⟩ := by decide
  have hquiet : Untouched "x" 2 (sample.step (.write 0 "x" 2 0x1ff)) narrowing := by
    simp [Untouched, narrowing, Touches]
  refine read_after_write hsample ha hwrite rfl rfl hquiet ?_ ?_ ?_
  · rintro g hg
    cases hg
    rfl
  · intro p hp
    rw [List.mem_singleton.mp hp]
    exact List.forall_mem_singleton.mpr rfl
  · intro p hp size hsize
    rw [List.mem_singleton.mp hp] at hsize
    cases List.mem_singleton.mp hsize

/-- A document of an array with the smallest id and one with the largest id. -/
def outermostDocument : Json.Value :=
  .object [("register_arrays", .array [.object
    [("bitwidth", .ofNat 8), ("id", .ofInt minId), ("name", .string "x"), ("size", .ofNat 1)],
    .object [("bitwidth", .ofNat 8), ("id", .ofInt maxId), ("name", .string "y"),
      ("size", .ofNat 1)]])]

/-- A plan that inserts a third array. -/
def inserting : List Event := [.start {}, .command (.insertArray "z" 1 8), .commit, .publish]

/-- The third array takes the id of the first one, and the name of that one leads to it.  What was
written into the first one is gone, though the plan names another array only. -/
theorem replaced_array_loses_write :
    ∃ (T T' : Timeline) (a b : RegisterArray) (s : Store) (g : Program), T.Reachable ∧
      T.array? 0 "x" = some a ∧ a.write T.store 0 7 = .ok s ∧
      Untouched "x" 0 (T.step (.write 0 "x" 0 7)) inserting ∧
      T' = (T.step (.write 0 "x" 0 7)).after inserting ∧ T'.phase.next? = none ∧
      (∀ p ∈ T'.published.drop 1, p.Keeps "x" ∧ p.migrations "x" = []) ∧
      T'.active? = some g ∧ g.array? "x" = some b ∧ b.read T'.store 0 = .ok 0 := by
  refine ⟨start _ _, _, _, _, _, _, ⟨{}, outermostDocument, _, _, [], rfl, rfl⟩, rfl, rfl, ?_, rfl,
    rfl, ?_, rfl, rfl, rfl⟩
  · simp [Untouched, inserting, Touches]
  · intro p hp
    rw [List.mem_singleton.mp hp]
    exact ⟨List.forall_mem_singleton.mpr rfl, rfl⟩

end Timeline

end LiveSwitch
