import LiveSwitch.Proofs.Program.Rehash
import LiveSwitch.Proofs.Switch.Drafts

/-!
# Rehashes of drafts

Whatever the lines of a plan did before, a rehash of arrays that are there succeeds and computes
what it is meant to.  It reads every array as the draft has it, through pending changes of size
and width, and the five arrays may be any, one of them in several places.  The active program goes
on with its own cells.

## Main results

* `Program.Draft.rehash_computes` — what a rehash of a draft makes of it.
-/

namespace LiveSwitch.Program.Draft

variable {active g : Program} {s : Store} {r : RehashSpec}
  {target recording lastPos counting reset : RegisterArray}

/-- A rehash of a draft succeeds when its arrays are there.  The target keeps its name, id and
shape, and holds a one where a recorded value marks it and zeros elsewhere; the reset array keeps
its name, id and shape and holds zeros, also if it is the target.  All other arrays stay as they
are, the cells that they show included, and the storages of the active program are untouched. -/
theorem rehash_computes (h : Draft active g s) (htarget : g.array? r.target = some target)
    (hrecording : g.array? r.recording = some recording)
    (hlastPos : g.array? r.lastPos = some lastPos)
    (hcounting : g.array? r.counting = some counting) (hreset : g.array? r.reset = some reset) :
    ∃ g' s' target' reset', g.rehashArray s r = .ok (g', s') ∧
      g'.array? r.target = some target' ∧ g'.array? r.reset = some reset' ∧
      target'.StandsFor target ∧ reset'.StandsFor reset ∧
      (target ≠ reset → ∀ j < target.size,
        (r.Marks s target recording lastPos counting j → target'.read s' j = .ok 1) ∧
        (¬r.Marks s target recording lastPos counting j → target'.read s' j = .ok 0)) ∧
      (∀ j < reset.size, reset'.read s' j = .ok 0) ∧
      (∀ x, g.array? x ≠ some target → g.array? x ≠ some reset → g'.array? x = g.array? x) ∧
      (∀ x a, g.array? x = some a → ∀ j, a.read s' j = a.read s j) ∧
      g' = { g with arrays := { g.arrays with objects := g'.arrays.objects } } ∧
      ∀ a ∈ active.arrays.objects, s'.get a.storage = s.get a.storage := by
  obtain ⟨hbounded, hactive⟩ := h.bounded
  have hconsistent := h.sound.arraysConsistent
  have hsound := h.sound.arrays
  have hwidth := (hsound _ (mem_of_array? htarget)).bitwidth
  have hposition := (hsound _ (mem_of_array? hlastPos)).size
  have hcounters := (hsound _ (mem_of_array? hcounting)).size
  rw [Register.validBitwidth, Bool.and_eq_true, decide_eq_true_eq] at hwidth
  obtain ⟨g', s', target', reset', hrun, htarget', hreset', hstands, hstands', hmarks, hzeros,
    hother, hframe, hextends⟩ := rehashArray_spec hconsistent htarget hrecording hlastPos hcounting
      hreset hwidth.1 (Register.validSize_iff.mp hposition).1 (Register.validSize_iff.mp hcounters).1
  refine ⟨g', s', target', reset', hrun, htarget', hreset', hstands, hstands', hmarks, hzeros,
    hother, fun x a ha j => ?_, hframe, fun a ha => hextends.get_eq _ (hactive a ha)⟩
  exact RegisterArray.read_congr (hextends.get_eq _ (hbounded a (mem_of_array? ha))) j

/-! ### A shortened log -/

/-- A document with a filter, a log and a position. -/
def logDocument : FileContent :=
  .ofText ("\x7b\"register_arrays\":[" ++
    "\x7b\"name\":\"t\",\"id\":0,\"size\":4,\"bitwidth\":8\x7d," ++
    "\x7b\"name\":\"log\",\"id\":1,\"size\":3,\"bitwidth\":8\x7d," ++
    "\x7b\"name\":\"pos\",\"id\":2,\"size\":1,\"bitwidth\":8\x7d]\x7d")

/-- Two values in the log, one of which is counted, and a position beyond its end. -/
def logEvents : List Event :=
  [.load 0 logDocument, .write 0 "log" 0 5, .write 0 "log" 1 6, .write 0 "t" 1 1,
    .write 0 "pos" 0 9]

/-- A rehash of the filter that counts by the filter itself and clears the log. -/
def logRehash : RehashSpec :=
  { target := "t", recording := "log", lastPos := "pos", counting := "t",
    countingHash := .identity, targetHashes := ⟨.identity, .csum16, .identity⟩, reset := "log" }

/-- An array of eight bits. -/
def byteArray (name : String) (id : Nat) (size : Nat) : RegisterArray :=
  { identity := ⟨name, id, none⟩, size, bitwidth := 8, storage := id }

/-- The log is cut to its two values, which is pending when the rehash comes: the value that is
counted marks its cell, and the log is cleared in the new size. -/
theorem cut_log_rehashed : ∃ active g s g' s' target' reset', Draft active g s ∧
    g.rehashArray s logRehash = .ok (g', s') ∧ g'.array? "t" = some target' ∧
    g'.array? "log" = some reset' ∧ target'.read s' 1 = .ok 1 ∧ reset'.size = 2 ∧
    reset'.read s' 1 = .ok 0 := by
  have hswitch : (((History.start 1).after logEvents).switch.store,
      ((History.start 1).after logEvents).switch.contexts[0]?.map fun c =>
        (c.active.program.arrays.objects, c.active.program.arrays.strays)) =
        (⟨[⟨8, #[0, 1, 0, 0]⟩, ⟨8, #[5, 6, 0]⟩, ⟨8, #[9]⟩]⟩,
          some ([byteArray "t" 0 4, byteArray "log" 1 3, byteArray "pos" 2 1], [])) := by
    decide +kernel
  rw [Prod.mk.injEq] at hswitch
  obtain ⟨hstore, hcontext⟩ := hswitch
  obtain ⟨c, hc, hfound⟩ := Option.map_eq_some_iff.mp hcontext
  obtain ⟨harrays, hstrays⟩ := Prod.mk.inj hfound
  have hstart := Draft.start hc rfl
  rw [hstore] at hstart
  have hlog : c.active.program.array? "log" = some (byteArray "log" 1 3) := by
    rw [array?, ObjectMap.lookup?_eq_get? hstrays, ObjectMap.get?, harrays]
    rfl
  have hdonor : ofDocument {} (.object []) = .ok ({}, {}) := rfl
  have hdraft := hstart.edit (e := .resizeArray "log" 2) hdonor rfl
    (pair_eq_ok.mpr ⟨resizeArray_eq hlog 2, rfl⟩)
  generalize hcut : (byteArray "log" 1 3).resized 2 = cut at hdraft
  have hobjects : (c.active.program.setArray "log" cut).arrays.objects =
      [byteArray "t" 0 4, cut, byteArray "pos" 2 1] := by
    rw [setArray_eq hlog]
    show (c.active.program.arrays.objects.map _) = _
    rw [harrays, ← hcut]
    rfl
  have hleading : (c.active.program.setArray "log" cut).arrays.strays = [] := by
    rw [setArray_eq hlog]
    exact hstrays
  generalize c.active.program.setArray "log" cut = g at hdraft hobjects hleading
  subst hcut
  have hfound (x : String) : g.array? x = [byteArray "t" 0 4, (byteArray "log" 1 3).resized 2,
      byteArray "pos" 2 1].find? (nameOf · == x) := by
    rw [array?, ObjectMap.lookup?_eq_get? hleading, ObjectMap.get?, hobjects]
  obtain ⟨g', s', target', reset', hrun, htarget, hreset, -, hstands, hmarks, hzeros, -⟩ :=
    rehash_computes (r := logRehash) hdraft (hfound "t") (hfound "log") (hfound "pos") (hfound "t")
      (hfound "log")
  refine ⟨_, g, _, g', s', target', reset', hdraft, hrun, htarget, hreset, ?_, hstands.size,
    hzeros 1 (by decide)⟩
  refine (hmarks (by decide) 1 (by decide)).1 ⟨0, 5, 9, 1, rfl, by decide, rfl, rfl, by decide,
    .identity, List.mem_cons_self, by decide⟩

end LiveSwitch.Program.Draft
