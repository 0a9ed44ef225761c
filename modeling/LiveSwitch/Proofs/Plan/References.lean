import LiveSwitch.Plan.Session
import LiveSwitch.Proofs.Outcome

/-!
# References

A reference claims that its object was there before the plan, or that the plan has inserted it.
A session accepts a reference when the claim agrees with the names that it keeps.  Wherever a
command looks up the name in a reference, it makes this check and then takes the name as it
stands.

## Main definitions

* `Subject` — a node of a pipeline or a register array, by name.
* `Reference`, `Command.references` — the references of a command.
* `Session.Notes`, `Session.Accepts` — the names that a session keeps, and the claims that agree
  with them.
* `Session.check` — the check of a reference.

## Main results

* `Session.node_eq`, `Session.array_eq`, `Session.edge_eq` — a look-up is a check and a name.
* `Session.checks_eq_ok` — the checks go through when all references are accepted.
-/

namespace LiveSwitch

/-- An object that a plan can refer to, by name. -/
inductive Subject where
  | node (pipeline name : String)
  | array (name : String)
  deriving DecidableEq, Repr

/-- Whether a reference claims that the plan has inserted its object. -/
def ObjectRef.isNew : ObjectRef → Bool
  | old _ => false
  | new _ => true

/-- A reference where it stands: to a node of a pipeline or to a register array. -/
inductive Reference where
  | node (pipeline : String) (r : ObjectRef)
  | array (r : ObjectRef)
  deriving DecidableEq, Repr

namespace Reference

/-- The object of the name of a reference. -/
def subject : Reference → Subject
  | node pipeline r => .node pipeline r.name
  | array r => .array r.name

/-- Whether a reference claims that the plan has inserted its object. -/
def isNew : Reference → Bool
  | node _ r => r.isNew
  | array r => r.isNew

/-- The kind that a refusal of a reference gives. -/
def kind : Reference → ObjectKind
  | node _ _ => .node
  | array _ => .registerArray

/-- The name of the object. -/
def name : Reference → String
  | node _ r | array r => r.name

end Reference

/-- The references of a command, from left to right. -/
def Command.references : Command → List Reference
  | insertConditional _ _ | insertTable _ _ | insertArray _ _ _ => []
  | insertFlex pipeline _ falseNext trueNext =>
    (falseNext.toList ++ trueNext.toList).map (.node pipeline)
  | changeConditional pipeline node _ target => (node :: target.toList).map (.node pipeline)
  | deleteConditional pipeline node => [.node pipeline node]
  | changeTable pipeline node _ target => (node :: target.toList).map (.node pipeline)
  | deleteTable pipeline node => [.node pipeline node]
  | resizeArray array _ => [.array array]
  | rewidenArray array _ => [.array array]
  | deleteArray array => [.array array]
  | rehash r => [r.target, r.recording, r.lastPos, r.counting, r.reset].map .array

namespace Session

variable {s : Session}

/-! ### The check of a reference -/

/-- A session has noted an object as inserted. -/
def Notes (s : Session) : Subject → Prop
  | .node pipeline name => (pipeline, name) ∈ s.newNodes
  | .array name => name ∈ s.newArrays

instance (s : Session) : (x : Subject) → Decidable (s.Notes x)
  | .node pipeline name => inferInstanceAs (Decidable ((pipeline, name) ∈ s.newNodes))
  | .array name => inferInstanceAs (Decidable (name ∈ s.newArrays))

/-- The origin that a reference claims is the one that the session has noted. -/
def Accepts (s : Session) (r : Reference) : Prop := s.Notes r.subject ↔ r.isNew

instance (s : Session) (r : Reference) : Decidable (s.Accepts r) :=
  inferInstanceAs (Decidable (_ ↔ _))

/-- The check of a reference against the names that the plan has inserted. -/
def check (s : Session) (r : Reference) : Except ReconfigError Unit :=
  if s.Accepts r then .ok () else .error (.notFound r.kind r.name)

theorem check_eq_ok {r : Reference} : s.check r = .ok () ↔ s.Accepts r := by
  rw [check]
  split <;> simp_all

/-- The checks of references go through when all of them are accepted. -/
theorem checks_eq_ok {rs : List Reference} :
    rs.forM s.check = .ok () ↔ ∀ r ∈ rs, s.Accepts r := by
  rw [forM_eq_ok]
  exact forall₂_congr fun r _ => check_eq_ok

/-! ### Look-ups -/

theorem checkOrigin_eq_check {inserted : Bool} {r : ObjectRef} {x : Reference}
    (hname : x.name = r.name) (h : inserted = r.isNew ↔ s.Accepts x) :
    checkOrigin inserted x.kind r = s.check x >>= fun _ => .ok r.name := by
  have horigin : checkOrigin inserted x.kind r =
      if inserted = r.isNew then .ok r.name else .error (.notFound x.kind r.name) := by
    cases r <;> cases inserted <;> rfl
  rw [horigin, check, hname]
  by_cases haccepts : s.Accepts x
  · rw [if_pos haccepts, if_pos (h.mpr haccepts)]
    rfl
  · rw [if_neg haccepts, if_neg (h.not.mpr haccepts)]
    rfl

theorem node_eq (s : Session) (pipeline : String) (r : ObjectRef) :
    s.node pipeline r = s.check (.node pipeline r) >>= fun _ => .ok r.name := by
  refine checkOrigin_eq_check (x := .node pipeline r) rfl ?_
  rw [Bool.eq_iff_iff, List.contains_iff_mem]
  exact Iff.rfl

theorem array_eq (s : Session) (r : ObjectRef) :
    s.array r = s.check (.array r) >>= fun _ => .ok r.name := by
  refine checkOrigin_eq_check (x := .array r) rfl ?_
  rw [Bool.eq_iff_iff, List.contains_iff_mem]
  exact Iff.rfl

theorem edge_eq (s : Session) (pipeline : String) (r? : Option ObjectRef) :
    s.edge pipeline r? =
      (r?.toList.map (Reference.node pipeline)).forM s.check >>= fun _ =>
        .ok (r?.map (·.name)) := by
  cases r? with
  | none => rfl
  | some r =>
    rw [edge, node_eq]
    show _ = (s.check (.node pipeline r) >>= fun _ => pure ()) >>= _
    cases s.check (.node pipeline r) <;> rfl

end Session

end LiveSwitch
