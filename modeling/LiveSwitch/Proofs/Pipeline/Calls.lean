import LiveSwitch.Pipeline.InPlace
import LiveSwitch.Proofs.Pipeline.Coherent

/-!
# Calls that change the slots of a pipeline

A caller inserts, deletes and edits nodes in any order, goes on after refusals, and uses names
again.  Whatever it does, as long as its edits keep names, every change in place comes to its end
and does what the change as a whole does, and the names, the slots and the free slots agree.

## Main definitions

* `InPlace.Call`, `InPlace.afterAll` — the calls, and the pipeline that they lead to.

## Main results

* `InPlace.run_insert`, `InPlace.run_remove`, `InPlace.run_edit` — the changes in place are the
  changes as a whole.
* `Coherent.apply`, `InPlace.coherent_afterAll` — one call, and calls one after the other, keep
  the agreement.
* `InPlace.slots_stay_coherent` — the agreement, which nodes are refused, and what a deletion
  gives.
-/

namespace LiveSwitch.Pipeline

variable {p p' : Pipeline} {n m : Node} {r : NodeRef} {name : String}

/-- A node is refused for its name. -/
theorem insertNode_eq_error {e : DuplicateError} :
    p.insertNode n = .error e ↔ (p.find? n.name).isSome ∧ e = .name n.name := by
  unfold insertNode
  split
  case isTrue hname => simp [hname, eq_comm]
  case isFalse hname => split <;> simp [hname]

/-- Without a free slot a node gets a new one. -/
theorem insertNode_of_nil (hname : p.find? n.name = none) (hfree : p.free = []) :
    p.insertNode n = .ok (⟨p.slots.length, 0⟩, { p with
      slots := p.slots ++ [{ node? := some n }]
      byName := (n.name, ⟨p.slots.length, 0⟩) :: p.byName }) := by
  rw [insertNode, hname, hfree]
  rfl

/-- A node gets the slot freed last, in the generation that the slot is in. -/
theorem insertNode_of_cons (hname : p.find? n.name = none) {i : Nat} {free : List Nat}
    (hfree : p.free = i :: free) {s : Slot} (hs : p.slots[i]? = some s) :
    p.insertNode n = .ok (⟨i, s.generation⟩, { p with
      slots := p.slots.modify i fun s => { s with node? := some n }
      free
      byName := (n.name, ⟨i, s.generation⟩) :: p.byName }) := by
  rw [insertNode, hname, hfree]
  dsimp only
  rw [hs]
  rfl

namespace InPlace

/-! ### Changes in place and as a whole -/

theorem run_fillSlot {i : Nat} {s : Slot} (hs : p.slots[i]? = some s) (n : Node) :
    (fillSlot i n).run p = .ok ⟨i, s.generation⟩
      { p with slots := p.slots.modify i fun s => { s with node? := some n } } := by
  rw [fillSlot, EStateM.run_bind, EStateM.run_get]
  dsimp only
  rw [hs]
  rfl

theorem run_place (p : Pipeline) (n : Node) : (place n).run p =
    (match p.free.head? with
      | some i => fillSlot i n
      | none => addSlot n).run { p with free := p.free.tail } :=
  rfl

theorem run_place_of_nil (hfree : p.free = []) (n : Node) : (place n).run p =
    .ok ⟨p.slots.length, 0⟩ { p with slots := p.slots ++ [{ node? := some n }] } := by
  have hhead : p.free.head? = none := by rw [hfree, List.head?_nil]
  have htail : p.free.tail = p.free := by rw [hfree, List.tail_nil]
  rw [run_place, hhead, htail]
  rfl

theorem run_place_of_cons {i : Nat} {free : List Nat} (hfree : p.free = i :: free) {s : Slot}
    (hs : p.slots[i]? = some s) (n : Node) : (place n).run p = .ok ⟨i, s.generation⟩
      { p with slots := p.slots.modify i fun s => { s with node? := some n }, free } := by
  rw [run_place, hfree]
  exact run_fillSlot (p := { p with free }) hs n

/-- A node whose name is free is placed, and then its name is entered. -/
theorem run_insert_of_place (hname : p.find? n.name = none) (hplace : (place n).run p = .ok r p')
    (hbyName : p'.byName = p.byName) :
    (insert n).run p = .ok r { p' with byName := (n.name, r) :: p.byName } := by
  -- the name is not there, so that nothing is replaced
  have hset : Assoc.set n.name r p'.byName = (n.name, r) :: p.byName := by
    rw [Assoc.set, hbyName, Assoc.erase_eq_self hname]
  rw [insert, EStateM.run_bind, EStateM.run_get]
  dsimp only
  rw [hname]
  show EStateM.run (place n >>= fun r => do
    enterName n.name r
    return r) p = _
  rw [EStateM.run_bind, hplace]
  show EStateM.Result.ok r { p' with byName := Assoc.set n.name r p'.byName } = _
  rw [hset]

theorem run_insert (h : p.Coherent) (n : Node) : (insert n).run p =
    match p.insertNode n with
    | .ok (r, p') => .ok r p'
    | .error e => .error (.duplicate e) p := by
  cases hname : p.find? n.name with
  | some r =>
    have hsome : (p.find? n.name).isSome := hname ▸ rfl
    rw [insertNode_eq_error.mpr ⟨hsome, rfl⟩, insert, EStateM.run_bind, EStateM.run_get]
    dsimp only
    rw [if_pos hsome]
    rfl
  | none =>
    cases hfree : p.free with
    | nil =>
      rw [insertNode_of_nil hname hfree]
      exact run_insert_of_place hname (run_place_of_nil hfree n) rfl
    | cons i free =>
      -- a free slot is there, so that the insertion does not stop halfway
      have hi : i < p.slots.length := h.freeSlots.lt i (hfree ▸ List.mem_cons_self)
      have hs := List.getElem?_eq_getElem hi
      rw [insertNode_of_cons hname hfree hs]
      exact run_insert_of_place hname (run_place_of_cons hfree hs n) rfl

/-- A slot that is there is left by its node, which is given. -/
theorem run_leave {i : Nat} {s : Slot} (hs : p.slots[i]? = some s) :
    EStateM.run (do
      nextGeneration i
      listFree i
      takeNode i) p = .ok s.node? { p with
        slots := p.slots.modify i fun s => ⟨s.generation + 1, none⟩
        free := i :: p.free } := by
  show EStateM.Result.ok ((p.slots.modify i _)[i]?.bind Slot.node?) { p with
    slots := (p.slots.modify i _).modify i _
    free := i :: p.free } = _
  rw [List.modify_modify_eq, getElem?_modify_slot, if_pos rfl, hs]
  rfl

theorem run_remove (h : p.Coherent) (name : String) :
    (remove name).run p = .ok (p.node? name) (p.removeNode name) := by
  have htake : (takeName name).run p =
      .ok (p.find? name) { p with byName := Assoc.erase name p.byName } := rfl
  rw [remove, EStateM.run_bind, htake]
  dsimp only
  cases hr : p.find? name with
  | none =>
    rw [Assoc.erase_eq_self hr, removeNode_of_none hr, node?, hr]
    rfl
  | some r =>
    -- the slot of a name is there, so that the deletion does not stop after the name
    obtain ⟨s, n, hs, hgen, hn, -⟩ := (h.found name r).mp hr
    have hlt : r.slot < p.slots.length := (List.getElem?_eq_some_iff.mp hs).1
    have hnode : p.node? name = s.node? := by
      rw [node?, hr, Option.bind_some, resolve?, hs]
      exact if_pos hgen
    rw [removeNode_of_find? hr, hnode]
    dsimp only
    rw [EStateM.run_bind, EStateM.run_get]
    dsimp only
    rw [if_neg (Nat.not_le.mpr hlt)]
    exact run_leave (p := { p with byName := Assoc.erase name p.byName }) hs

theorem run_edit (h : p.Coherent) (name : String) (f : Node → Node) :
    (edit name f).run p = .ok ((p.node? name).map f) (p.modifyNode name f) := by
  rw [edit, EStateM.run_bind, EStateM.run_get]
  dsimp only
  cases hr : p.find? name with
  | none =>
    rw [modifyNode_of_none f hr, node?, hr]
    rfl
  | some r =>
    obtain ⟨s, n, hs, hgen, hn, -⟩ := (h.found name r).mp hr
    have hresolve : p.resolve? r = some n := by
      rw [resolve?, hs]
      exact (if_pos hgen).trans hn
    -- the slot is in the generation of the reference, and the node in it is the one to change
    have hslots : (p.slots.modify r.slot fun s => { s with node? := some (f n) }) =
        p.slots.modify r.slot fun s =>
          if s.generation = r.generation then { s with node? := s.node?.map f } else s := by
      refine List.ext_getElem? fun i => ?_
      rw [getElem?_modify_slot, getElem?_modify_slot]
      split
      case isTrue hi => simp [hi, hs, hgen, hn]
      case isFalse => rfl
    rw [node?, modifyNode, hr]
    dsimp only
    rw [Option.bind_some, hresolve, ← hslots]
    rfl

/-! ### Calls -/

/-- The calls that change the nodes of a pipeline.  An edit keeps the name of its node. -/
inductive Call where
  | insert (n : Node)
  | remove (name : String)
  | edit (name : String) (f : Node → Node) (hf : ∀ n, n.name = name → (f n).name = name)

/-- What a change leaves behind, finished or refused. -/
def left {α : Type} (x : Seating α) (p : Pipeline) : Pipeline :=
  match x.run p with
  | .ok _ p' => p'
  | .error _ p' => p'

/-- The pipeline after a call, which may have been refused. -/
def Call.apply (p : Pipeline) : Call → Pipeline
  | .insert n => left (InPlace.insert n) p
  | .remove name => left (InPlace.remove name) p
  | .edit name f _ => left (InPlace.edit name f) p

/-- The pipeline that calls lead to. -/
def afterAll (p : Pipeline) (calls : List Call) : Pipeline := calls.foldl Call.apply p

/-- A call does in place what it does as a whole, and a refused one changes nothing. -/
theorem Call.apply_eq (h : p.Coherent) (c : Call) : c.apply p =
    match c with
    | .insert n =>
      match p.insertNode n with
      | .ok (_, p') => p'
      | .error _ => p
    | .remove name => p.removeNode name
    | .edit name f _ => p.modifyNode name f := by
  cases c with
  | insert n =>
    rw [Call.apply, left, run_insert h]
    dsimp only
    cases p.insertNode n <;> rfl
  | remove name => rw [Call.apply, left, run_remove h]
  | edit name f => rw [Call.apply, left, run_edit h]

end InPlace

open InPlace (Call)

/-- A call keeps the agreement. -/
theorem Coherent.apply (h : p.Coherent) (c : Call) : (c.apply p).Coherent := by
  rw [Call.apply_eq h]
  cases c with
  | insert n =>
    dsimp only
    split
    case h_1 hins => exact h.insertNode hins
    case h_2 => exact h
  | remove name => exact h.removeNode name
  | edit name f hf => exact h.modifyNode hf

namespace InPlace

theorem coherent_afterAll (h : p.Coherent) (calls : List Call) : (afterAll p calls).Coherent := by
  induction calls generalizing p with
  | nil => exact h
  | cons c calls ih => exact ih (h.apply c)

/-! ### What a caller sees -/

/-- A node is refused just for a name that is in use, and then nothing changes. -/
theorem insert_refused_iff (h : p.Coherent) {e : SeatingError} :
    (insert n).run p = .error e p' ↔
      (∃ m ∈ p.nodes, m.name = n.name) ∧ e = .duplicate (.name n.name) ∧ p' = p := by
  rw [run_insert h, ← h.indexed.isSome_find?_iff]
  cases hins : p.insertNode n with
  | ok q =>
    refine iff_of_false nofun fun ⟨hname, _⟩ => ?_
    rw [insertNode_eq_error.mpr ⟨hname, rfl⟩] at hins
    cases hins
  | error d =>
    obtain ⟨hname, rfl⟩ := insertNode_eq_error.mp hins
    constructor
    · rintro ⟨⟩
      exact ⟨hname, rfl, rfl⟩
    · rintro ⟨-, rfl, rfl⟩
      rfl

theorem insert_eq_ok (h : p.Coherent) :
    (insert n).run p = .ok r p' ↔ p.insertNode n = .ok (r, p') := by
  rw [run_insert h]
  cases p.insertNode n with
  | ok q => simp [Prod.ext_iff]
  | error e => simp

/-- Whatever nodes are inserted, deleted and edited, the names, the slots and the free slots of a
pipeline agree: a name leads to a slot exactly when the slot is there, is in the generation of the
reference and holds a node of that name, and each empty slot is listed as free once, and no other
slot.  There are as many names as nodes.  A node is refused just for a name that is in use, and
then nothing changes; a node that is not refused is the one of its name from then on.  A deletion
gives the node of the name, if there is one, and takes it away.  Every change in place is the
change as a whole. -/
theorem slots_stay_coherent (identity : Identity) (init : Edge) (extra : Json.Object)
    (calls : List Call) :
    let p := afterAll { identity, init, extra } calls
    p.Coherent ∧
    p.nodeCount = p.nodes.length ∧ (p.byName.map Prod.fst).Perm (p.nodes.map Node.name) ∧
    (∀ n, (∃ e p', (insert n).run p = .error e p') ↔ ∃ m ∈ p.nodes, m.name = n.name) ∧
    (∀ n e p', (insert n).run p = .error e p' → e = .duplicate (.name n.name) ∧ p' = p) ∧
    (∀ n r p', (insert n).run p = .ok r p' → p.insertNode n = .ok (r, p') ∧
      p'.resolve? r = some n ∧ ∀ key, p'.node? key = if key = n.name then some n else p.node? key) ∧
    (∀ name, ∃ removed?, (remove name).run p = .ok removed? (p.removeNode name) ∧
      (∀ n, removed? = some n ↔ n ∈ p.nodes ∧ n.name = name) ∧
      ∀ key, (p.removeNode name).node? key = if key = name then none else p.node? key) ∧
    ∀ name f, (edit name f).run p = .ok ((p.node? name).map f) (p.modifyNode name f) := by
  intro p
  have h : p.Coherent := coherent_afterAll (.empty identity init extra) calls
  refine ⟨h, h.nodeCount_eq, h.perm_names, fun n => ?_, fun n e p' hrun => ?_,
    fun n r p' hrun => ?_, fun name => ?_, run_edit h⟩
  · simp [insert_refused_iff h]
  · exact ((insert_refused_iff h).mp hrun).2
  · have hins := (insert_eq_ok h).mp hrun
    exact ⟨hins, (resolve?_insertNode h.freeSlots hins r).trans (if_pos rfl),
      h.indexed.node?_insertNode hins⟩
  · exact ⟨p.node? name, run_remove h name, fun n => h.indexed.node?_eq_some_iff,
      h.indexed.node?_removeNode name⟩

/-- A slot is freed and taken over, a name is used again after a refusal, and a node is replaced by
another of its name.  Of the two slots one is free in the end, and the name of the node in the
other is still refused. -/
theorem slots_stay_coherent_reused_slot :
    let gate (name : String) (id : Int) : Node :=
      .conditional { identity := { name, id }, condition? := some .always }
    let calls : List Call :=
      [.insert (gate "a" 0), .insert (gate "b" 1), .insert (gate "a" 2), .remove "a", .remove "a",
        .insert (gate "c" 3), .edit "b" (fun _ => gate "b" 4) (fun _ _ => rfl), .remove "b"]
    let p := afterAll { identity := { name := "g", id := 0 } } calls
    p.Coherent ∧ p.find? "c" = some ⟨0, 1⟩ ∧ p.free = [1] ∧ p.nodes = [gate "c" 3] ∧
      (∃ e p', (insert (gate "c" 5)).run p = .error e p' ∧
        e = .duplicate (.name "c") ∧ p' = p) ∧
      (remove "c").run p = .ok (some (gate "c" 3)) (p.removeNode "c") ∧
      (p.removeNode "c").node? "c" = none := by
  intro gate calls p
  obtain ⟨hcoherent, -, -, hrefused, hkept, -, hremove, -⟩ :=
    slots_stay_coherent { name := "g", id := 0 } none [] calls
  have hnodes : p.nodes = [gate "c" 3] := by decide +kernel
  have hmem : gate "c" 3 ∈ p.nodes := hnodes ▸ List.mem_singleton_self _
  obtain ⟨e, p', hrun⟩ := (hrefused (gate "c" 5)).mpr ⟨gate "c" 3, hmem, rfl⟩
  obtain ⟨removed?, hrun', hremoved, hfind⟩ := hremove "c"
  rw [(hremoved (gate "c" 3)).mpr ⟨hmem, rfl⟩] at hrun'
  exact ⟨hcoherent, by decide +kernel, by decide +kernel, hnodes,
    ⟨e, p', hrun, hkept _ e p' hrun⟩, hrun', (hfind "c").trans (if_pos rfl)⟩

end InPlace

end LiveSwitch.Pipeline
