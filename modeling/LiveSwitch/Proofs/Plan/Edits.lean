import LiveSwitch.Proofs.Plan.References

/-!
# Plans as lists of edits

A command of a plan is an edit in which the references are resolved to names: it checks its
references, carries out the edit, and notes what it has inserted or deleted.  A plan that gets to
some line has carried out a list of edits, so whatever all edits preserve holds of the candidate
of every plan, up to a line that fails.

## Main definitions

* `Edit`, `Edit.run` — the twelve edits, by name.
* `Edit.mutation` — the mutation that carries out an edit.
* `Edit.Valid` — the sizes and widths that the lines of a plan can give.
* `Command.edit` — the edit of a command.

## Main results

* `Session.mutation_eq` — a command stands for its edit once its references are checked.
* `Session.perform_eq` — a command checks its references and then carries out its edit.
* `Session.perform_eq_ok` — a command goes through when it is accepted and its edit does.
* `Session.run_edits` — a plan carries out a list of edits, and then it is through or a line of it
  fails.
-/

namespace LiveSwitch

/-! ### The edits as one type -/

/-- An edit of a program.  Definitions of new nodes come from a donor. -/
inductive Edit where
  | insertConditional (pipeline name : String)
  | insertFlex (pipeline name : String) (falseNext? trueNext? : Option String)
  | setConditionalNext (pipeline name : String) (branch : Branch) (target? : Option String)
  | deleteConditional (pipeline name : String)
  | insertTable (pipeline name : String)
  | setTableNext (pipeline name : String) (slot : TableSlot) (target? : Option String)
  | deleteTable (pipeline name : String)
  | insertArray (name : String) (size bitwidth : Nat)
  | resizeArray (name : String) (size : Nat)
  | rewidenArray (name : String) (bitwidth : Nat)
  | deleteArray (name : String)
  | rehashArray (r : Program.RehashSpec)
  deriving DecidableEq, Repr

namespace Edit

/-- Carries out an edit on a program and the store of its arrays. -/
def run (donor : Program) : Program × Store → Edit → Except ReconfigError (Program × Store)
  | (g, s), insertConditional pipeline name => do
    let definition? := (donor.pipeline? pipeline).bind (·.conditional? name)
    return (← g.insertConditional pipeline name definition?, s)
  | (g, s), insertFlex pipeline name falseNext? trueNext? => do
    return (← g.insertFlex pipeline name falseNext? trueNext?, s)
  | (g, s), setConditionalNext pipeline name branch target? => do
    return (← g.setConditionalNext pipeline name branch target?, s)
  | (g, s), deleteConditional pipeline name => do
    return (← g.deleteConditional pipeline name, s)
  | (g, s), insertTable pipeline name => do return (← g.insertTable donor pipeline name, s)
  | (g, s), setTableNext pipeline name slot target? => do
    return (← g.setTableNext pipeline name slot target?, s)
  | (g, s), deleteTable pipeline name => do return (← g.deleteTable pipeline name, s)
  | (g, s), insertArray name size bitwidth => g.insertArray s name size bitwidth
  | (g, s), resizeArray name size => do return (← g.resizeArray name size, s)
  | (g, s), rewidenArray name bitwidth => do return (← g.rewidenArray name bitwidth, s)
  | (g, s), deleteArray name => do return (← g.deleteArray name, s)
  | (g, s), rehashArray r => g.rehashArray s r

/-- The mutation that carries out an edit: the definition of a conditional comes from the donor. -/
def mutation (donor : Program) : Edit → Mutation
  | insertConditional pipeline name =>
    .insertConditional pipeline name ((donor.pipeline? pipeline).bind (·.conditional? name))
  | insertFlex pipeline name falseNext? trueNext? =>
    .insertFlex pipeline name falseNext? trueNext?
  | setConditionalNext pipeline name branch target? =>
    .setConditionalNext pipeline name branch target?
  | deleteConditional pipeline name => .deleteConditional pipeline name
  | insertTable pipeline name => .insertTable donor pipeline name
  | setTableNext pipeline name slot target? => .setTableNext pipeline name slot target?
  | deleteTable pipeline name => .deleteTable pipeline name
  | insertArray name size bitwidth => .insertArray name size bitwidth
  | resizeArray name size => .resizeArray name size
  | rewidenArray name bitwidth => .rewidenArray name bitwidth
  | deleteArray name => .deleteArray name
  | rehashArray r => .rehashArray r

theorem run_eq_attempt (donor g : Program) (s : Store) (e : Edit) :
    e.run donor (g, s) = (e.mutation donor).attempt g s := by
  cases e <;> rfl

/-- The sizes and widths of an edit are ones that a line of a plan can give. -/
def Valid : Edit → Prop
  | insertArray _ size bitwidth => Register.validSize size ∧ Register.validBitwidth bitwidth
  | resizeArray _ size => Register.validSize size
  | rewidenArray _ bitwidth => Register.validBitwidth bitwidth
  | _ => True

/-- The edits that leave the register arrays as they are. -/
def onNodes : Edit → Bool
  | insertArray .. | resizeArray .. | rewidenArray .. | deleteArray .. | rehashArray _ => false
  | _ => true

end Edit

/-- The edit of a command, its references resolved to names. -/
def Command.edit : Command → Edit
  | insertConditional pipeline name => .insertConditional pipeline name
  | insertFlex pipeline name falseNext trueNext =>
    .insertFlex pipeline name (falseNext.map (·.name)) (trueNext.map (·.name))
  | changeConditional pipeline node branch target =>
    .setConditionalNext pipeline node.name branch (target.map (·.name))
  | deleteConditional pipeline node => .deleteConditional pipeline node.name
  | insertTable pipeline name => .insertTable pipeline name
  | changeTable pipeline node slot target =>
    .setTableNext pipeline node.name slot (target.map (·.name))
  | deleteTable pipeline node => .deleteTable pipeline node.name
  | insertArray name size bitwidth => .insertArray name size bitwidth
  | resizeArray array size => .resizeArray array.name size
  | rewidenArray array bitwidth => .rewidenArray array.name bitwidth
  | deleteArray array => .deleteArray array.name
  | rehash r => .rehashArray
    { target := r.target.name, recording := r.recording.name, lastPos := r.lastPos.name,
      counting := r.counting.name, countingHash := r.countingHash,
      targetHashes := r.targetHashes, reset := r.reset.name }

/-! ### Lines -/

namespace Command

theorem sizeOf_valid {line token : String} {n : Nat} (h : sizeOf line token = .ok n) :
    Register.validSize n = true := by
  rw [sizeOf] at h
  split at h
  case h_1 m hm =>
    cases h
    exact (Option.filter_eq_some_iff.mp hm).2
  case h_2 => cases h

theorem bitwidthOf_valid {line token : String} {n : Nat} (h : bitwidthOf line token = .ok n) :
    Register.validBitwidth n = true := by
  rw [bitwidthOf] at h
  split at h
  case h_1 m hm =>
    cases h
    exact (Option.filter_eq_some_iff.mp hm).2
  case h_2 => cases h

theorem edit_valid_of_ofTokens {line verb kind : String} {args : List String} {c : Command}
    (h : ofTokens line verb kind args = .ok c) : c.edit.Valid := by
  unfold ofTokens at h
  dsimp only at h
  -- one goal for each verb and kind whose tokens have the right number
  split at h <;> try split at h
  any_goals cases h
  all_goals simp only [bind_eq_ok, pure_eq_ok] at h
  · obtain ⟨_, -, rfl⟩ := h
    trivial
  · obtain ⟨_, -, _, -, _, -, rfl⟩ := h
    trivial
  · obtain ⟨_, -, _, -, _, -, rfl⟩ := h
    trivial
  · obtain ⟨_, -, _, -, _, -, rfl⟩ := h
    trivial
  · obtain ⟨_, -, rfl⟩ := h
    trivial
  · obtain ⟨_, -, rfl⟩ := h
    trivial
  · obtain ⟨_, -, rfl⟩ := h
    trivial
  · obtain ⟨_, -, _, -, rfl⟩ := h
    trivial
  · obtain ⟨_, -, rfl⟩ := h
    trivial
  · obtain ⟨size, hsize, bitwidth, hbitwidth, _, -, rfl⟩ := h
    exact ⟨sizeOf_valid hsize, bitwidthOf_valid hbitwidth⟩
  · obtain ⟨size, hsize, _, -, rfl⟩ := h
    exact sizeOf_valid hsize
  · obtain ⟨bitwidth, hbitwidth, _, -, rfl⟩ := h
    exact bitwidthOf_valid hbitwidth
  · obtain ⟨_, -, rfl⟩ := h
    trivial
  · obtain ⟨_, -, _, -, _, -, _, -, _, -, _, -, _, -, _, -, _, -, _, -, _, -, _, -, _, -, rfl⟩ := h
    trivial

/-- A line gives only sizes and widths within the limits. -/
theorem edit_valid_of_parse {line : String} {c : Command} (h : parse line = .ok c) :
    c.edit.Valid := by
  rw [parse] at h
  split at h
  case h_2 => cases h
  case h_1 verb kind args _ =>
    exact edit_valid_of_ofTokens h

end Command

/-! ### Sessions -/

namespace Session

variable {s s' : Session}

@[simp]
theorem candidate_note (s : Session) (c : Command) : (s.note c).candidate = s.candidate := by
  cases c <;> rfl

@[simp]
theorem store_note (s : Session) (c : Command) : (s.note c).store = s.store := by
  cases c <;> rfl

@[simp]
theorem donor_note (s : Session) (c : Command) : (s.note c).donor = s.donor := by
  cases c <;> rfl

@[simp]
theorem applied_note (s : Session) (c : Command) : (s.note c).applied = s.applied := by
  cases c <;> rfl

/-- A command stands for the mutation of its edit, once its references are checked from left to
right. -/
theorem mutation_eq (s : Session) (c : Command) :
    s.mutation c = do
      c.references.forM s.check
      return c.edit.mutation s.donor := by
  -- with every look-up written as a check and a name, only the laws of the monad are left
  cases c <;>
    simp only [mutation, node_eq, edge_eq, array_eq, Command.references, Command.edit,
      Edit.mutation, List.map_append, List.map_cons, List.map_nil, List.forM_eq_forM,
      List.forM_append, List.forM_cons, List.forM_nil, bind_assoc, pure_bind, ok_bind]

/-- A command checks its references, then carries out its edit, and then notes what it has inserted
or deleted. -/
theorem perform_eq (s : Session) (c : Command) :
    s.perform c = do
      c.references.forM s.check
      let (candidate, store) ← c.edit.run s.donor (s.candidate, s.store)
      return { s with candidate, store }.note c := by
  rw [perform, mutation_eq, bind_assoc, Edit.run_eq_attempt]
  simp only [pure_bind]

/-- A command goes through when its references are accepted and its edit goes through. -/
theorem perform_eq_ok {c : Command} : s.perform c = .ok s' ↔
    (∀ r ∈ c.references, s.Accepts r) ∧
      ∃ x, c.edit.run s.donor (s.candidate, s.store) = .ok x ∧
        { s with candidate := x.1, store := x.2 }.note c = s' := by
  rw [perform_eq, bind_eq_ok, ← checks_eq_ok]
  simp only [bind_eq_ok, pure_eq_ok]
  constructor
  · rintro ⟨⟨⟩, hchecks, hrun⟩
    exact ⟨hchecks, hrun⟩
  · rintro ⟨hchecks, hrun⟩
    exact ⟨(), hchecks, hrun⟩

/-- A command carries out its edit; the donor stays. -/
theorem perform_ok {c : Command} (h : s.perform c = .ok s') :
    c.edit.run s.donor (s.candidate, s.store) = .ok (s'.candidate, s'.store) ∧
      s'.donor = s.donor := by
  obtain ⟨-, x, hrun, rfl⟩ := perform_eq_ok.mp h
  rw [candidate_note, store_note, donor_note]
  exact ⟨hrun, rfl⟩

theorem apply_ok {c : Command} (h : s.apply c = .ok s') :
    c.edit.run s.donor (s.candidate, s.store) = .ok (s'.candidate, s'.store) ∧
      s'.donor = s.donor := by
  obtain ⟨t, ht, h⟩ := bind_eq_ok.mp h
  have hedit := perform_ok ht
  cases h
  exact hedit

/-- A line does nothing or carries out an edit. -/
theorem step_ok {line : Option String} (h : s.step line = .ok s') :
    s' = s ∨ ∃ e : Edit, e.Valid ∧
      e.run s.donor (s.candidate, s.store) = .ok (s'.candidate, s'.store) ∧
      s'.donor = s.donor := by
  cases line with
  | none => cases h
  | some line =>
    rw [step] at h
    split at h
    case h_1 =>
      cases h
      exact Or.inl rfl
    case h_2 command _ =>
      obtain ⟨c, hc, h⟩ := bind_eq_ok.mp h
      exact Or.inr ⟨c.edit, Command.edit_valid_of_parse hc, apply_ok h⟩

/-- A plan carries out edits.  Then it is through, or a line fails and leaves the session as it
leaves it. -/
theorem run_edits {lines : List (Option String)} {e? : Option ReconfigError}
    (h : s.run lines = (s', e?)) :
    ∃ (t : Session) (l : List Edit), (∀ e ∈ l, e.Valid) ∧
      l.foldlM (Edit.run s.donor) (s.candidate, s.store) = .ok (t.candidate, t.store) ∧
      t.donor = s.donor ∧
      (e? = none ∧ s' = t ∨
        ∃ line e, t.step line = .error e ∧ e? = some e ∧ s' = t.leftAt line) := by
  induction lines generalizing s with
  | nil =>
    cases h
    exact ⟨_, [], by simp, rfl, rfl, Or.inl ⟨rfl, rfl⟩⟩
  | cons line lines ih =>
    rw [run] at h
    split at h
    case h_2 e he =>
      cases h
      exact ⟨_, [], by simp, rfl, rfl, Or.inr ⟨line, e, he, rfl, rfl⟩⟩
    case h_1 u hu =>
      obtain ⟨t, l, hvalid, hl, hdonor, hend⟩ := ih h
      rcases step_ok hu with rfl | ⟨e, he, hrun, hu⟩
      · exact ⟨t, l, hvalid, hl, hdonor, hend⟩
      · refine ⟨t, e :: l, by simpa using ⟨he, hvalid⟩, ?_, hdonor.trans hu, hend⟩
        rw [foldlM_cons_eq_ok]
        exact ⟨_, hrun, hu ▸ hl⟩

/-! ### Arrays that were there before -/

/-- A reference to an array that was there before is accepted when the plan has inserted none. -/
theorem accepts_old (hnew : s.newArrays = []) (name : String) :
    s.Accepts (.array (.old name)) := by
  show name ∈ s.newArrays ↔ _
  rw [hnew]
  exact iff_of_false List.not_mem_nil Bool.false_ne_true

/-- A change of size of an array that was there before the plan. -/
theorem apply_resizeArray (hnew : s.newArrays = []) {name : String} {size : Nat} {g : Program}
    (h : s.candidate.resizeArray name size = .ok g) :
    s.apply (.resizeArray (.old name) size) =
      .ok { s with candidate := g, applied := s.applied + 1 } := by
  refine bind_eq_ok.mpr ⟨{ s with candidate := g },
    perform_eq_ok.mpr ⟨?_, (g, s.store), ?_, rfl⟩, rfl⟩
  · intro r hr
    rw [List.mem_singleton.mp hr]
    exact accepts_old hnew name
  · exact bind_eq_ok.mpr ⟨g, h, rfl⟩

/-- A rehash of arrays that were there before the plan. -/
theorem apply_rehash (hnew : s.newArrays = []) {r : Program.RehashSpec} {g : Program} {st : Store}
    (h : s.candidate.rehashArray s.store r = .ok (g, st)) :
    s.apply (.rehash ⟨.old r.target, .old r.recording, .old r.lastPos, .old r.counting,
      r.countingHash, r.targetHashes, .old r.reset⟩) =
      .ok { s with candidate := g, store := st, applied := s.applied + 1 } := by
  refine bind_eq_ok.mpr ⟨{ s with candidate := g, store := st },
    perform_eq_ok.mpr ⟨?_, (g, st), h, rfl⟩, rfl⟩
  have hold : ∀ x ∈ [ObjectRef.old r.target, .old r.recording, .old r.lastPos, .old r.counting,
      .old r.reset], s.Accepts (.array x) := by
    simp only [List.forall_mem_cons]
    exact ⟨accepts_old hnew _, accepts_old hnew _, accepts_old hnew _, accepts_old hnew _,
      accepts_old hnew _, nofun⟩
  intro x hx
  obtain ⟨y, hy, rfl⟩ := List.mem_map.mp hx
  exact hold y hy

end Session

end LiveSwitch
