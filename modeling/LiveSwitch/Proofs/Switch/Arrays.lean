import LiveSwitch.Proofs.Plan.Layouts
import LiveSwitch.Proofs.Switch.Reloading

/-!
# The register arrays of a switch

Between events every array of every active generation shows just the cells of its storage, and
no two of them share a storage.  Plans lay arrays out anew and put others in their place, and
the commit brings the storages into the new layouts.  Whatever runs through generations that are
still held, with the sizes and widths of before, only changes cells: a storage keeps its shape,
and its cells keep fitting its width.

## Main definitions

* `RegisterArray.WellFormed` — an array in agreement with its storage, within the limits.
* `Chronicle` — a history with every generation that was ever published.
* `Switch.ArraysSettled`, `History.InOrder` — the invariant.

## Main results

* `History.InOrder.apply` — every event keeps the invariant.
* `Chronicle.arrays_wellFormed` — arrays of active generations are well formed and apart, and
  reads and writes reach just their cells.
-/

namespace LiveSwitch

open RegisterArray

/-! ### One array -/

/-- A register array in agreement with its storage: nothing is pending, size and width are
within their limits and those of the storage, and every cell fits. -/
structure RegisterArray.WellFormed (a : RegisterArray) (st : Storage) : Prop where
  pending : a.pending = []
  size : 1 ≤ a.size ∧ a.size ≤ 1 <<< 24
  bitwidth : 1 ≤ a.bitwidth ∧ a.bitwidth ≤ 64
  cells : st.cells.size = a.size
  width : st.bitwidth = a.bitwidth
  fits : ∀ v ∈ st.cells, v.toNat ≤ 1 <<< a.bitwidth - 1

/-- Within its limits, an array that shows just its storage is well formed. -/
theorem RegisterArray.Settled.wellFormed {a : RegisterArray} {st : Storage} (h : a.Settled st)
    (ha : a.Sound) : a.WellFormed st := by
  have hsize : 0 < a.size ∧ a.size ≤ Register.maxSize := by
    simpa [Register.validSize] using ha.size
  have hbitwidth : 0 < a.bitwidth ∧ a.bitwidth ≤ Register.maxBitwidth := by
    simpa [Register.validBitwidth] using ha.bitwidth
  have hmin : min st.bitwidth 64 = a.bitwidth := by
    rw [h.bitwidth]
    exact Nat.min_eq_left hbitwidth.2
  exact ⟨h.pending, hsize, hbitwidth, h.size, h.bitwidth, fun v hv => hmin ▸ h.fits.toNat_le hv⟩

/-! ### The invariant -/

/-- The arrays of every active generation show just their storages, and lie apart. -/
structure Switch.ArraysSettled (w : Switch) : Prop where
  settled : ∀ cxt, ∀ a ∈ w.activeArrays cxt, a.Settled (w.store.get a.storage)
  apart : ∀ cxt, ApartByName (w.activeArrays cxt)

namespace Switch.ArraysSettled

variable {w w' : Switch}

/-- Nothing happened but to cells, tables and statistics. -/
theorem congr (hw : w.ArraysSettled) (hstore : w.store.Alike w'.store)
    (harrays : ∀ cxt, w'.activeArrays cxt = w.activeArrays cxt) : w'.ArraysSettled where
  settled cxt a ha := (hw.settled cxt a (harrays cxt ▸ ha)).alike (hstore.get a.storage)
  apart cxt := harrays cxt ▸ hw.apart cxt

/-- One context got other arrays; the storages of the others are as they were. -/
theorem modify (hw : w.ArraysSettled) (cxt : Nat)
    (hother : ∀ i, i ≠ cxt → w'.activeArrays i = w.activeArrays i ∧
      ∀ a ∈ w.activeArrays i, w'.store.get a.storage = w.store.get a.storage)
    (hsettled : ∀ a ∈ w'.activeArrays cxt, a.Settled (w'.store.get a.storage))
    (hapart : ApartByName (w'.activeArrays cxt)) : w'.ArraysSettled where
  settled i a ha := by
    by_cases hi : i = cxt
    · subst hi
      exact hsettled a ha
    · obtain ⟨harrays, hstore⟩ := hother i hi
      rw [harrays] at ha
      rw [hstore a ha]
      exact hw.settled i a ha
  apart i := by
    by_cases hi : i = cxt
    · subst hi
      exact hapart
    · exact (hother i hi).1 ▸ hw.apart i

end Switch.ArraysSettled

namespace History

/-- Arrays of contexts lie apart, programs came from documents and plans, and arrays show just
their storages. -/
structure InOrder (h : History) : Prop where
  separate : h.Separate
  reached : h.AllReached
  arrays : h.switch.ArraysSettled

variable {h : History}

theorem InOrder.withStore (hh : h.InOrder) {store : Store} (hs : h.switch.store.Alike store) :
    (h.withStore store).InOrder where
  separate := hh.separate.withStore hs.size
  reached := hh.reached
  arrays := hh.arrays.congr hs fun _ => rfl

theorem arraysSettled_load (hh : h.InOrder) (cxt : Nat) (document : FileContent) :
    (h.apply (.load cxt document)).switch.ArraysSettled := by
  rcases h.apply_load_cases cxt document with heq | ⟨c, program, store, hc, hfile, heq⟩
  · rw [heq]
    exact hh.arrays
  · rw [heq]
    obtain ⟨v, hdocument⟩ := Program.ofFile_ok hfile
    have hfresh := Program.ofDocument_fresh hdocument
    have harrays := Switch.activeArrays_modify_self (s := store)
      (f := fun c' => { c' with active := { number := c.active.number + 1, program } }) hc
    -- the storages of a document are new ones
    refine hh.arrays.modify cxt (fun i hi => ⟨Switch.activeArrays_modify_of_ne hi, ?_⟩) ?_ ?_
    · intro a ha
      exact hfresh.grows.store.get_eq a.storage (hh.separate.active i a ha)
    · intro a ha
      exact hfresh.settled a (harrays ▸ ha)
    · show ApartByName (Switch.activeArrays ⟨h.switch.contexts.modify cxt _, store⟩ cxt)
      rw [harrays]
      have hnone : ∀ a : RegisterArray, a ∉ ([] : List RegisterArray) := fun _ => List.not_mem_nil
      exact hfresh.grows.apartByName (fun a ha => absurd ha (hnone a))
        fun a ha => absurd ha (hnone a)

theorem arraysSettled_plan (hh : h.InOrder) (cxt : Nat) (document plan : FileContent) :
    (h.apply (.plan cxt document plan)).switch.ArraysSettled := by
  have hbounded := hh.separate.active
  rcases Switch.applyPlan_cases (hbounded cxt) document plan with
    ⟨s, code, hcode, hext, heq⟩ | ⟨c, program, s, n, hc, hleads, heq⟩
  · rw [apply_plan_failed hcode heq]
    have harrays := h.switch.activeArrays_failed cxt code s
    have hstore : ∀ i, ∀ a ∈ h.switch.activeArrays i,
        s.get a.storage = h.switch.store.get a.storage :=
      fun i a ha => hext.get_eq a.storage (hbounded i a ha)
    refine ⟨fun i a ha => ?_, fun i => (harrays i).symm ▸ hh.arrays.apart i⟩
    rw [harrays] at ha
    exact (hstore i a ha).symm ▸ hh.arrays.settled i a ha
  · rw [apply_plan_success heq]
    have hactive := Switch.activeArrays_eq hc
    have hgrows := hleads.grows (hactive ▸ hbounded cxt)
    have hshowing : Showing c.active.program.arrays.objects h.switch.store :=
      fun a ha _ => hh.arrays.settled cxt a (hactive ▸ ha)
    have hconsistent := (hh.reached.active hc).sound.arraysConsistent
    obtain ⟨donor, _, l, -, -, hl⟩ := id hleads
    obtain ⟨hconsistent', hshowing'⟩ :=
      Edit.showing_foldlM hconsistent (hactive ▸ hbounded cxt) hshowing hl
    have hapart : ApartByName program.arrays.objects :=
      hgrows.apartByName (hactive ▸ hbounded cxt) (hactive ▸ hh.arrays.apart cxt)
    have harrays := Switch.activeArrays_modify_self (s := (program.commitArrays s).2)
      (f := Context.publish (program.commitArrays s).1 n) hc
    refine hh.arrays.modify cxt (fun i hi => ⟨Switch.activeArrays_modify_of_ne hi, ?_⟩) ?_ ?_
    · intro a ha
      exact hh.separate.get_commitArrays hc hleads (Or.inl ha) hi
    · intro a ha
      have ha' : a ∈ (program.commitArrays s).1.arrays.objects := harrays ▸ ha
      exact Program.settled_commitAll (Program.nodup_storage hconsistent' hapart) hgrows.bounded
        hshowing' a ha'
    · show ApartByName (Switch.activeArrays ⟨h.switch.contexts.modify cxt _, _⟩ cxt)
      rw [harrays, Context.publish, Program.objects_commitArrays]
      intro a ha b hb
      obtain ⟨a₀, ha₀, rfl⟩ := List.mem_map.mp ha
      obtain ⟨b₀, hb₀, rfl⟩ := List.mem_map.mp hb
      exact hapart a₀ ha₀ b₀ hb₀

theorem arraysSettled_editTable (hh : h.InOrder) {cxt : Nat} {pipeline table : String}
    {edit : Program → Table → Except SwitchError Table} :
    (h.update (h.switch.editTable cxt pipeline table edit)).switch.ArraysSettled := by
  cases hw : h.switch.editTable cxt pipeline table edit with
  | error e => exact hh.arrays
  | ok w =>
    have harrays := (editTable_frame hw).2
    obtain ⟨_, _, _, _, -, -, -, -, rfl⟩ := Switch.editTable_ok hw
    exact hh.arrays.congr (Store.Alike.refl _) harrays

theorem arraysSettled_apply (hh : h.InOrder) (e : Event) :
    (h.apply e).switch.ArraysSettled := by
  by_cases he : e.isAccess = true
  · obtain ⟨store, hstore, heq⟩ := h.apply_access he
    rw [heq]
    exact (hh.withStore hstore).arrays
  cases e with
  | load cxt document => exact arraysSettled_load hh cxt document
  | plan cxt document plan => exact arraysSettled_plan hh cxt document plan
  | addEntry | deleteEntry | setDefault => exact arraysSettled_editTable hh
  | _ => exact absurd rfl he

/-- Every event keeps the invariant. -/
theorem InOrder.apply (hh : h.InOrder) (e : Event) : (h.apply e).InOrder where
  separate := separate_apply hh.separate e
  reached := allReached_apply hh.separate hh.reached e
  arrays := arraysSettled_apply hh e

theorem inOrder_start (n : Nat) : (start n).InOrder where
  separate := separate_start n
  reached _ hg := reached_after n [] hg
  arrays := by
    have hnone : ∀ cxt, (start n).switch.activeArrays cxt = [] := by
      intro cxt
      rw [start, Switch.create, Switch.activeArrays, List.getElem?_replicate]
      split <;> rfl
    refine ⟨fun cxt a ha => ?_, fun cxt a ha => ?_⟩
    · rw [hnone] at ha
      cases ha
    · rw [hnone] at ha
      cases ha

end History

/-! ### Register accesses of a switch -/

namespace Switch

variable {w w' : Switch} {cxt : Nat} {name : String} {a : RegisterArray}

theorem mem_activeArrays : a ∈ w.activeArrays cxt ↔
    ∃ c, w.contexts[cxt]? = some c ∧ a ∈ c.active.program.arrays.objects := by
  rw [activeArrays]
  cases w.contexts[cxt]? <;> simp

theorem array_eq_ok : w.array cxt name = .ok a ↔
    ∃ c, w.contexts[cxt]? = some c ∧ c.active.program.array? name = some a := by
  constructor
  · intro h
    obtain ⟨g, hg, h⟩ := bind_eq_ok.mp h
    obtain ⟨c, hc, rfl⟩ := active_ok hg
    split at h
    case h_1 b hb =>
      rw [pure_eq_ok] at h
      exact ⟨c, hc, h ▸ hb⟩
    case h_2 => cases h
  · rintro ⟨c, hc, ha⟩
    rw [array, active_eq hc, ok_bind, ha]
    rfl

/-- An array that a name leads to is one of the context. -/
theorem mem_of_array (h : w.array cxt name = .ok a) : a ∈ w.activeArrays cxt := by
  obtain ⟨c, hc, ha⟩ := array_eq_ok.mp h
  exact activeArrays_eq hc ▸ Program.mem_of_array? ha

theorem readRegister_eq (h : w.array cxt name = .ok a) (i : Nat) :
    w.readRegister cxt name i = (a.read w.store i).mapError .register := by
  rw [readRegister, h]
  rfl

theorem writeRegister_eq (h : w.array cxt name = .ok a) (i : Nat) (v : UInt64) :
    w.writeRegister cxt name i v =
      ((a.write w.store i v).mapError .register).map fun store => { w with store } := by
  rw [writeRegister, h]
  rfl

theorem exists_readRegister_iff (h : w.array cxt name = .ok a) (i : Nat) :
    (∃ v, w.readRegister cxt name i = .ok v) ↔ i < a.size := by
  rw [readRegister_eq h, RegisterArray.read]
  split
  case isTrue hi => exact ⟨fun _ => hi, fun _ => ⟨_, rfl⟩⟩
  case isFalse hi =>
    refine iff_of_false ?_ hi
    rintro ⟨v, hv⟩
    cases hv

theorem writeRegister_eq_ok (h : w.array cxt name = .ok a) {i : Nat} {v : UInt64} :
    w.writeRegister cxt name i v = .ok w' ↔
      ∃ s, a.write w.store i v = .ok s ∧ { w with store := s } = w' := by
  rw [writeRegister_eq h, map_eq_ok]
  simp only [mapError_eq_ok]

theorem exists_writeRegister_iff (h : w.array cxt name = .ok a)
    (ha : a.Settled (w.store.get a.storage)) (i : Nat) (v : UInt64) :
    (∃ w', w.writeRegister cxt name i v = .ok w') ↔ i < a.size := by
  rw [← ha.exists_write_iff (v := v)]
  constructor
  · rintro ⟨w', hw'⟩
    obtain ⟨s, hs, -⟩ := (writeRegister_eq_ok h).mp hw'
    exact ⟨s, hs⟩
  · rintro ⟨s, hs⟩
    exact ⟨_, (writeRegister_eq_ok h).mpr ⟨s, hs, rfl⟩⟩

/-- A read after a write gives the value that was written, cut to the width of the array, and any
other read gives what it gave before, a refusal included. -/
theorem ArraysSettled.read_of_write (hw : w.ArraysSettled)
    (hapart : ∀ {i j a b}, a ∈ w.activeArrays i → b ∈ w.activeArrays j →
      a.storage = b.storage → i = j ∧ a = b)
    (ha : w.array cxt name = .ok a) {i : Nat} {v : UInt64}
    (h : w.writeRegister cxt name i v = .ok w') (cxt' : Nat) (name' : String) (j : Nat) :
    w'.readRegister cxt' name' j =
      if cxt' = cxt ∧ w.array cxt' name' = .ok a ∧ j = i then .ok (v &&& widthMask a.bitwidth)
      else w.readRegister cxt' name' j := by
  obtain ⟨s, hs, rfl⟩ := (writeRegister_eq_ok ha).mp h
  have hmem := mem_of_array ha
  -- the arrays are those of before, and so is a refusal of their names
  have harray : Switch.array { w with store := s } cxt' name' = w.array cxt' name' := rfl
  cases hb : w.array cxt' name' with
  | error e =>
    rw [if_neg (by rintro ⟨-, ⟨⟩, -⟩), readRegister, readRegister, harray, hb]
    rfl
  | ok b =>
    have hmem' := mem_of_array hb
    have hread := (hw.settled cxt a hmem).read_of_write (hw.settled cxt' b hmem') hs j
    have hsame : b.storage = a.storage ↔
        cxt' = cxt ∧ (Except.ok b : Except SwitchError RegisterArray) = .ok a := by
      rw [Except.ok.injEq]
      constructor
      · exact hapart hmem' hmem
      · rintro ⟨-, rfl⟩
        rfl
    rw [readRegister_eq (harray.trans hb), readRegister_eq hb, hread]
    simp only [hsame, and_assoc]
    split <;> rfl

end Switch

/-! ### All generations that were published -/

/-- The generations that the contexts of a switch run. -/
def Switch.generations (w : Switch) : List Generation := w.contexts.map (·.active)

/-- A history together with every generation that was ever published, those that gave way to
ones with other table entries included. -/
structure Chronicle where
  history : History
  published : List Generation

namespace Chronicle

/-- What can happen: an event of the history, or an access through a generation that was
published at some time. -/
inductive Event where
  | event (e : LiveSwitch.Event)
  | held (k : Nat) (x : Access)

/-- The chronicle of a switch with `n` contexts that nothing has happened to. -/
def start (n : Nat) : Chronicle :=
  { history := .start n, published := (Switch.create n).generations }

/-- The chronicle after an event. -/
def apply (c : Chronicle) : Event → Chronicle
  | .event e =>
    { history := c.history.apply e
      published := (c.history.apply e).switch.generations ++ c.published }
  | .held k x =>
    match c.published[k]? with
    | some g => { c with history := c.history.withStore (g.access c.history.switch.store x) }
    | none => c

/-- The chronicle after events in turn. -/
def after (c : Chronicle) (events : List Event) : Chronicle := events.foldl apply c

variable {c : Chronicle}

theorem inOrder_apply (hc : c.history.InOrder) (e : Event) : (c.apply e).history.InOrder := by
  cases e with
  | event e => exact hc.apply e
  | held k x =>
    rw [apply]
    split
    case h_1 g _ => exact hc.withStore (g.alike_access _ x)
    case h_2 => exact hc

theorem inOrder_after (hc : c.history.InOrder) (events : List Event) :
    (c.after events).history.InOrder := by
  rw [after]
  induction events generalizing c with
  | nil => exact hc
  | cons e events ih => exact ih (inOrder_apply hc e)

/-- After any events, the arrays of all active generations are well formed and lie in storages of
their own, each under its name.  Through any name that leads to an array, reads and writes of a cell
succeed just when it is there, and a write changes that cell and what is read of it only, through
whatever name.  Two names lead to one array only if one of them is stray. -/
theorem arrays_wellFormed (n : Nat) (events : List Event) :
    let w := ((start n).after events).history.switch
    (∀ cxt, ∀ a ∈ w.activeArrays cxt, a.WellFormed (w.store.get a.storage)) ∧
    (∀ cxt cxt', ∀ a ∈ w.activeArrays cxt, ∀ b ∈ w.activeArrays cxt',
      (cxt, a.name) ≠ (cxt', b.name) → a.storage ≠ b.storage) ∧
    (∀ cxt, ∀ a ∈ w.activeArrays cxt, w.array cxt a.name = .ok a) ∧
    (∀ cxt c name a, w.contexts[cxt]? = some c → c.active.program.arrays.strays.lookup name = none →
      w.array cxt name = .ok a → a.name = name) ∧
    ∀ cxt name a, w.array cxt name = .ok a → a ∈ w.activeArrays cxt ∧ ∀ i,
      ((∃ v, w.readRegister cxt name i = .ok v) ↔ i < a.size) ∧
      ∀ v, ((∃ w', w.writeRegister cxt name i v = .ok w') ↔ i < a.size) ∧
        ∀ w', w.writeRegister cxt name i v = .ok w' →
          (∀ m j, (m, j) ≠ (a.storage, i) → (w'.store.get m).cell j = (w.store.get m).cell j) ∧
          ∀ cxt' name' j, w'.readRegister cxt' name' j =
            if cxt' = cxt ∧ w.array cxt' name' = .ok a ∧ j = i
            then .ok (v &&& widthMask a.bitwidth) else w.readRegister cxt' name' j := by
  intro w
  have hw : History.InOrder _ := inOrder_after (c := start n) (History.inOrder_start n) events
  have hcontext : ∀ {cxt a}, a ∈ w.activeArrays cxt → ∃ c, w.contexts[cxt]? = some c ∧
      a ∈ c.active.program.arrays.objects ∧ c.active.program.Sound := by
    intro cxt a ha
    obtain ⟨c, hc, hmem⟩ := Switch.mem_activeArrays.mp ha
    exact ⟨c, hc, hmem, (hw.reached.active hc).sound⟩
  -- arrays of one name are one array, so arrays of one storage are
  have hapart : ∀ {i j a b}, a ∈ w.activeArrays i → b ∈ w.activeArrays j →
      a.storage = b.storage → i = j ∧ a = b := by
    intro i j a b ha hb hst
    obtain rfl : i = j := hw.separate.apart _ _ _ _ (Or.inl ha) (Or.inl hb) hst
    obtain ⟨c, hc, ha', hsound⟩ := hcontext ha
    have hb' : b ∈ c.active.program.arrays.objects := Switch.activeArrays_eq hc ▸ hb
    exact ⟨rfl, ObjectMap.eq_of_name_eq hsound.arraysConsistent.names ha' hb'
      (hw.arrays.apart i a ha b hb hst)⟩
  refine ⟨fun cxt a ha => ?_, ?_, fun cxt a ha => ?_, ?_, ?_⟩
  · obtain ⟨c, -, hmem, hsound⟩ := hcontext ha
    exact (hw.arrays.settled cxt a ha).wellFormed (hsound.arrays a hmem)
  · intro cxt cxt' a ha b hb hne hst
    obtain ⟨rfl, rfl⟩ := hapart ha hb hst
    exact hne rfl
  · obtain ⟨c, hc, hmem, hsound⟩ := hcontext ha
    exact Switch.array_eq_ok.mpr ⟨c, hc, hsound.arraysConsistent.lookup?_of_mem hmem⟩
  · intro cxt c name a hc hstray ha
    obtain ⟨d, hd, ha⟩ := Switch.array_eq_ok.mp ha
    rw [hc, Option.some.injEq] at hd
    subst hd
    have hget : c.active.program.arrays.get? name = some a := by
      rwa [Program.array?, ObjectMap.lookup?, hstray] at ha
    exact (ObjectMap.mem_of_get? hget).2
  · intro cxt name a harray
    have ha := Switch.mem_of_array harray
    have hsettled := hw.arrays.settled cxt a ha
    refine ⟨ha, fun i => ⟨Switch.exists_readRegister_iff harray i, fun v =>
      ⟨Switch.exists_writeRegister_iff harray hsettled i v, fun w' hw' => ⟨?_, ?_⟩⟩⟩⟩
    · intro m j hne
      obtain ⟨s, hs, rfl⟩ := (Switch.writeRegister_eq_ok harray).mp hw'
      exact cell_of_write_of_ne hs hne
    · exact hw.arrays.read_of_write hapart harray hw'

/-- A document with an array of the smallest id and one of the largest id. -/
def outermostArrays : FileContent :=
  .ofText ("\x7b\"register_arrays\":[" ++
    "\x7b\"name\":\"x\",\"id\":-2147483648,\"size\":1,\"bitwidth\":8\x7d," ++
    "\x7b\"name\":\"y\",\"id\":2147483647,\"size\":1,\"bitwidth\":8\x7d]\x7d")

/-- A plan that inserts an array. -/
def thirdArrayPlan : FileContent := .ofText "insert register_array new_z 1 8\n"

/-- A new array takes the id of the first one, and the two names share one storage. -/
theorem names_share_storage :
    let w := ((start 1).after [.event (.load 0 outermostArrays),
      .event (.plan 0 outermostArrays thirdArrayPlan)]).history.switch
    ∃ a b, w.array 0 "x" = .ok a ∧ w.array 0 "z" = .ok b ∧ a.storage = b.storage := by
  intro w
  have hstorages : (w.array 0 "x").toOption.map (·.storage) = some 2 ∧
      (w.array 0 "z").toOption.map (·.storage) = some 2 := by decide +kernel
  obtain ⟨a, ha, hstorage⟩ := Option.map_eq_some_iff.mp hstorages.1
  obtain ⟨b, hb, hstorage'⟩ := Option.map_eq_some_iff.mp hstorages.2
  exact ⟨a, b, toOption_eq_some.mp ha, toOption_eq_some.mp hb, hstorage.trans hstorage'.symm⟩

end Chronicle

end LiveSwitch
