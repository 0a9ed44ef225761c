import LiveSwitch.Proofs.Switch.Reloading

/-!
# Programs under change

A plan starts from the program that a context runs and edits a copy of it, line by line.  In the
meantime the switch goes on: packets and writes change cells, and other contexts add storages and
commit layouts of their own.  A draft is such a copy, after any number of lines.

## Main definitions

* `Program.Draft` — the programs under change beside an active one, each with the store.

## Main results

* `Program.Draft.sound` — a draft is sound, as every generation is.
* `Program.Draft.bounded` — its arrays lie in storages that are there, and so do those of the
  active program.
* `Session.draft_run` — the candidate of a plan is a draft, as far as its lines go through.
-/

namespace LiveSwitch

/-- The programs under change beside the active program of a context, each with the store: the
active one at first, and what edits make of it, with donors from documents.  Meanwhile anything
may happen to the storages but that one goes. -/
inductive Program.Draft (active : Program) : Program → Store → Prop
  | start {n cxt : Nat} {events : List Event} {c : Context}
    (hc : ((History.start n).after events).switch.contexts[cxt]? = some c)
    (hactive : c.active.program = active) :
    Draft active active ((History.start n).after events).switch.store
  | edit {g g' donor : Program} {s s' s₁ s₂ : Store} {v : Json.Value} {e : Edit}
    (h : Draft active g s) (hdonor : ofDocument s₁ v = .ok (donor, s₂)) (he : e.Valid)
    (hrun : e.run donor (g, s) = .ok (g', s')) : Draft active g' s'
  | meanwhile {g : Program} {s s' : Store} (h : Draft active g s) (hs : s.size ≤ s'.size) :
    Draft active g s'

namespace Program.Draft

variable {active g : Program} {s : Store}

/-- A draft is sound, as every generation is. -/
theorem sound (h : Draft active g s) : g.Sound := by
  induction h with
  | @start n cxt events c hc hactive =>
    refine Reached.sound (hactive ▸ History.reached_after n events ?_)
    exact Or.inl ⟨c, List.mem_of_getElem? hc, rfl⟩
  | edit _ hdonor he hrun ih => exact Edit.sound_run ih (sound_ofDocument hdonor) he hrun
  | meanwhile _ _ ih => exact ih

/-- The arrays of a draft lie in storages that are there, and so do those of the active
program. -/
theorem bounded (h : Draft active g s) :
    RegisterArray.Bounded g.arrays.objects s ∧
      RegisterArray.Bounded active.arrays.objects s := by
  induction h with
  | @start n cxt events c hc hactive =>
    have hbounded := (History.separate_after n events).active cxt
    rw [Switch.activeArrays_eq hc, hactive] at hbounded
    exact ⟨hbounded, hbounded⟩
  | edit _ _ _ hrun ih =>
    have hgrows := Edit.grows ih.1 hrun
    exact ⟨hgrows.bounded, fun a ha => Nat.lt_of_lt_of_le (ih.2 a ha) hgrows.store.size_le⟩
  | meanwhile _ hs ih =>
    exact ⟨fun a ha => Nat.lt_of_lt_of_le (ih.1 a ha) hs,
      fun a ha => Nat.lt_of_lt_of_le (ih.2 a ha) hs⟩

end Program.Draft

/-- The candidate of a plan is a draft, as far as its lines go through. -/
theorem Session.draft_run {active : Program} {r r' : Session} {s₁ s₂ : Store} {v : Json.Value}
    {lines : List (Option String)} (h : active.Draft r.candidate r.store)
    (hdonor : Program.ofDocument s₁ v = .ok (r.donor, s₂)) (hrun : r.run lines = (r', none)) :
    active.Draft r'.candidate r'.store := by
  obtain ⟨t, edits, hvalid, hedits, -, ⟨-, rfl⟩ | ⟨_, _, -, he, -⟩⟩ := Session.run_edits hrun
  swap
  · cases he
  refine foldlM_induction (P := fun x : Program × Store => active.Draft x.1 x.2) ?_ h hedits
  rintro e he ⟨g, s⟩ ⟨g', s'⟩ hg hstep
  exact hg.edit hdonor (hvalid e he) hstep

end LiveSwitch
