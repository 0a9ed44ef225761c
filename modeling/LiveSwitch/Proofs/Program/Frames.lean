import LiveSwitch.Proofs.Program.Paths

/-!
# What packets keep of themselves

A packet changes only in the fields that are targets of primitives, and a value that is set fits the
field.  So the declared fields hold no more than their widths allow, the port and the headers stay,
the mark to drop is not taken back, and only targets of actions that were run on the packet read
otherwise than before.  This is proved bottom up for what a computation leaves behind, be it
finished or failed.

## Main definitions

* `Packet.Within` — the declared fields of a packet fit their widths.
* `Packet.Framed` — what a packet keeps when only some fields are set.
* `Exec.after`, `Exec.Frames` — what a computation leaves behind, and that it is framed.
* `Node.Executes`, `Pipeline.Executes`, `Program.Executes` — an action is run on a packet.

## Main results

* `Primitive.frames_run`, `Action.frames_run`, `Node.frames_visit`, `Pipeline.frames_walk` — the
  steps of a packet.
* `Program.process_keeps_frame` — what a packet keeps on its way through a program.
-/

namespace LiveSwitch

/-! ### Framed packets -/

/-- No declared field of a packet holds more than the mask of its width. -/
def Packet.Within (l : Layout) (p : Packet) : Prop :=
  ∀ field width, l.width? field = some width → p.field field ≤ widthMask width

/-- A packet keeps its port and its headers, is not unmarked, is changed only in fields of a kind,
and its declared fields fit if they did before. -/
structure Packet.Framed (l : Layout) (kind : String → Prop) (old new : Packet) : Prop where
  within : old.Within l → new.Within l
  port : new.port = old.port
  validHeaders : new.validHeaders = old.validHeaders
  dropped : old.dropped = true → new.dropped = true
  changed : ∀ field, new.field field ≠ old.field field → kind field

namespace Packet.Framed

variable {l : Layout} {kind kind' : String → Prop} {p q r : Packet}

theorem refl (p : Packet) : Framed l kind p p := ⟨id, rfl, rfl, id, fun _ h => absurd rfl h⟩

theorem mono (h : Framed l kind p q) (hkind : ∀ f, kind f → kind' f) : Framed l kind' p q :=
  { h with changed := fun field hne => hkind field (h.changed field hne) }

theorem trans (h : Framed l kind p q) (h' : Framed l kind q r) : Framed l kind p r where
  within := h'.within ∘ h.within
  port := h'.port.trans h.port
  validHeaders := h'.validHeaders.trans h.validHeaders
  dropped := h'.dropped ∘ h.dropped
  changed field hne := by
    by_cases hq : q.field field = p.field field
    · exact h'.changed field (hq ▸ hne)
    · exact h.changed field hq

theorem markToDrop (p : Packet) : Framed l kind p p.markToDrop :=
  ⟨id, rfl, rfl, fun _ => rfl, fun _ h => absurd rfl h⟩

/-- A masked value fits a declared field. -/
theorem setField (p : Packet) (field : String) (v : UInt64) :
    Framed l (· = field) p (p.setField field (v &&& l.mask field)) where
  within hp other width hwidth := by
    rw [field_setField]
    split
    case isTrue heq =>
      subst heq
      rw [Layout.mask, hwidth, Option.getD_some, UInt64.le_iff_toNat_le, UInt64.toNat_and]
      exact Nat.and_le_right
    case isFalse => exact hp other width hwidth
  port := rfl
  validHeaders := rfl
  dropped := id
  changed other hne := by
    by_contra hother
    rw [field_setField, if_neg hother] at hne
    exact hne rfl

end Packet.Framed

/-! ### Computations -/

namespace Exec

variable {α β : Type} {l : Layout} {kind kind' : String → Prop} {m : Machine}

/-- What a computation leaves behind, finished or failed. -/
def after (x : Exec α) (m : Machine) : Machine :=
  match x.run m with
  | .ok _ m' => m'
  | .error _ m' => m'

/-- The packet that a computation leaves behind is framed. -/
def Frames (l : Layout) (kind : String → Prop) (x : Exec α) (m : Machine) : Prop :=
  m.packet.Framed l kind (after x m).packet

namespace Frames

theorem mono {x : Exec α} (h : Frames l kind x m) (hkind : ∀ f, kind f → kind' f) :
    Frames l kind' x m :=
  Packet.Framed.mono h hkind

theorem of_reads {x : Exec α} (hx : Reads x) : Frames l kind x m := by
  rw [Frames, after]
  obtain ⟨a, ha⟩ | ⟨e, he⟩ := hx m
  · rw [ha]
    exact .refl m.packet
  · rw [he]
    exact .refl m.packet

theorem bind {x : Exec α} {f : α → Exec β} (hx : Frames l kind x m)
    (hf : ∀ a m₁, x.run m = .ok a m₁ → Frames l kind (f a) m₁) : Frames l kind (x >>= f) m := by
  rw [Frames, after] at hx ⊢
  rw [EStateM.run_bind]
  cases hrun : x.run m with
  | ok a m₁ =>
    rw [hrun] at hx
    exact hx.trans (hf a m₁ hrun)
  | error e m₁ =>
    rw [hrun] at hx
    exact hx

/-- A computation that only looks at the machine, ahead of another one. -/
theorem reads_bind {x : Exec α} {f : α → Exec β} (hx : Reads x)
    (hf : ∀ a, Frames l kind (f a) m) : Frames l kind (x >>= f) m := by
  refine bind (of_reads hx) fun a m₁ hrun => ?_
  obtain ⟨a', ha'⟩ | ⟨e, he⟩ := hx m
  · rw [ha'] at hrun
    cases hrun
    exact hf a
  · rw [he] at hrun
    cases hrun

theorem get_bind {f : Machine → Exec α} (hf : Frames l kind (f m) m) :
    Frames l kind (get >>= f) m :=
  hf

theorem forM {f : α → Exec PUnit} {items : List α}
    (hf : ∀ a ∈ items, ∀ m, Frames l kind (f a) m) (m : Machine) :
    Frames l kind (items.forM f) m := by
  simp only [List.forM_eq_forM]
  induction items generalizing m with
  | nil => exact of_reads (.pure _)
  | cons a items ih =>
    rw [List.forM_cons]
    refine bind (hf a List.mem_cons_self m) fun _ m₁ _ => ?_
    exact ih (fun b hb => hf b (List.mem_cons_of_mem a hb)) m₁

theorem mapM {f : α → Exec β} {items : List α} (hf : ∀ before a after bs m₁,
      items = before ++ a :: after → (before.mapM f).run m = .ok bs m₁ → Frames l kind (f a) m₁) :
    Frames l kind (items.mapM f) m := by
  induction items generalizing m with
  | nil =>
    rw [List.mapM_nil]
    exact of_reads (.pure _)
  | cons a items ih =>
    rw [List.mapM_cons]
    have ha : Frames l kind (f a) m := hf [] a items [] m rfl (by rw [List.mapM_nil]; rfl)
    refine bind ha fun b m₁ hb => bind (ih ?_) fun _ _ _ => of_reads (.pure _)
    intro before a' after bs m₂ hitems hbs
    refine hf (a :: before) a' after (b :: bs) m₂ (congrArg (a :: ·) hitems) ?_
    rw [List.mapM_cons]
    exact Exec.bind_eq_ok.mpr ⟨b, m₁, hb, Exec.bind_eq_ok.mpr ⟨bs, m₂, hbs, rfl⟩⟩

end Frames

end Exec

open Exec

variable {g : Program}

/-! ### From primitives to the walk -/

theorem Program.frames_writeField (g : Program) (field : String) (v : UInt64) (m : Machine) :
    Frames g.layout (some field = some ·) (g.writeField field v) m :=
  (Packet.Framed.setField m.packet field v).mono fun _ h => congrArg some h.symm

/-- A primitive sets its target at most. -/
theorem Primitive.frames_run (data : List UInt64) (q : Primitive) (m : Machine) :
    Frames g.layout (q.target? = some ·) (q.run g data) m := by
  cases q with
  | assign target value =>
    exact .reads_bind (value.reads_run data) fun v => g.frames_writeField target v m
  | add target value | subtract target value =>
    exact .get_bind (.reads_bind (value.reads_run data) fun v => g.frames_writeField target _ m)
  | registerRead target array index =>
    refine .reads_bind (.orFail _ _) fun a => .reads_bind (index.reads_run data) fun i => ?_
    exact .get_bind (.reads_bind (.lift _) fun v => g.frames_writeField target v m)
  | registerWrite array index value =>
    refine .reads_bind (.orFail _ _) fun a => .reads_bind (index.reads_run data) fun i => ?_
    refine .reads_bind (value.reads_run data) fun v => .get_bind (.reads_bind (.lift _) fun s => ?_)
    exact .refl m.packet
  | hashOffset target base calculation size =>
    refine .reads_bind (.orFail _ _) fun c => .reads_bind (base.reads_run data) fun base => ?_
    refine .reads_bind (size.reads_run data) fun size => ?_
    split
    · exact .reads_bind (.throw _) fun _ => .get_bind (g.frames_writeField target _ m)
    · exact .get_bind (g.frames_writeField target _ m)
  | drop => exact Packet.Framed.markToDrop m.packet
  | skip => exact .of_reads (.pure _)

/-- A field is the target of a primitive of an action. -/
def Action.Sets (a : Action) (field : String) : Prop :=
  ∃ q ∈ a.primitives, q.target? = some field

/-- An action sets the targets of its primitives at most. -/
theorem Action.frames_run (data : List UInt64) (a : Action) (m : Machine) :
    Frames g.layout a.Sets (a.run g data) m :=
  .forM (fun q hq m => (q.frames_run data m).mono fun _ hf => ⟨q, hq, hf⟩) m

/-- A table runs an action on a packet, that of the entry found or else of its default entry. -/
inductive Node.Executes (g : Program) : Node → Machine → Action → Prop where
  | hit {t : Table} {entry : TableEntry} {m : Machine} {a : Action}
    (h : t.entry? (t.keyOf m.packet) = some entry) (ha : g.action? entry.actionId = some a) :
    Executes g (.table t) m a
  | default {t : Table} {d : DefaultEntry} {m : Machine} {a : Action}
    (h : t.entry? (t.keyOf m.packet) = none) (hd : t.default? = some d)
    (ha : g.action? d.actionId = some a) : Executes g (.table t) m a

theorem Program.frames_runAction {kind : String → Prop} {id : Int} {data : List UInt64}
    {m : Machine} (h : ∀ a, g.action? id = some a → ∀ f, a.Sets f → kind f) :
    Frames g.layout kind (g.runAction id data) m := by
  rw [runAction]
  cases ha : g.action? id with
  | none => exact .of_reads (.throw _)
  | some a => exact (a.frames_run data m).mono (h a ha)

/-- A node sets the targets of the action that it runs at most. -/
theorem Node.frames_visit (n : Node) (m : Machine) :
    Frames g.layout (fun f => ∃ a, n.Executes g m a ∧ a.Sets f) (n.visit g) m := by
  cases n with
  | conditional c => exact .get_bind (.reads_bind (.lift _) fun b => .of_reads (.pure _))
  | table t =>
    refine .bind (.get_bind ?_) fun _ _ _ => .of_reads (.pure _)
    split
    case h_1 entry hentry =>
      refine .bind (Program.frames_runAction fun a ha f hf => ?_) fun _ _ _ => .of_reads (.pure _)
      exact ⟨a, .hit hentry ha, hf⟩
    case h_2 hentry =>
      split
      case h_1 d hd =>
        refine .bind (Program.frames_runAction fun a ha f hf => ?_) fun _ _ _ => .of_reads (.pure _)
        exact ⟨a, .default hentry hd ha, hf⟩
      case h_2 => exact .of_reads (.pure _)

namespace Pipeline

variable {p : Pipeline}

/-- An action is run on a packet on its path along an edge, at one of the first `limit` nodes. -/
def Executes (g : Program) (p : Pipeline) (limit : Nat) (e : Edge) (m : Machine) (a : Action) :
    Prop :=
  ∃ steps r n m₁, Path g p e m steps (some r) m₁ ∧ steps.length < limit ∧
    p.resolve? r = some n ∧ n.Executes g m₁ a

theorem Executes.visit {limit : Nat} {r : NodeRef} {n : Node} {m m₁ : Machine} {step : Step}
    {next : Edge} {a : Action} (hnode : p.resolve? r = some n) (hpass : n.Passes g m step next m₁)
    (h : p.Executes g limit next m₁ a) : p.Executes g (limit + 1) (some r) m a := by
  obtain ⟨steps, r', n', m₂, hpath, hlength, hr', ha⟩ := h
  exact ⟨step :: steps, r', n', m₂, .visit hnode hpass hpath, Nat.succ_lt_succ hlength, hr', ha⟩

/-- A walk sets the targets of the actions that it runs at most. -/
theorem frames_walk (limit : Nat) (source : String) (e : Edge) (m : Machine) :
    Frames g.layout (fun f => ∃ a, p.Executes g limit e m a ∧ a.Sets f)
      (p.walk g limit source e) m := by
  cases e with
  | none =>
    rw [walk.eq_1]
    exact .of_reads (.pure _)
  | some r =>
    cases hr : p.resolve? r with
    | none =>
      rw [walk_dangling hr]
      exact .of_reads (.throw _)
    | some n =>
      cases limit with
      | zero =>
        rw [walk_zero hr]
        exact .of_reads (.throw _)
      | succ limit =>
        rw [walk_succ hr]
        -- the rest of the walk has one node less to go
        refine .bind ((n.frames_visit m).mono ?_) fun x m₁ hvisit =>
          .bind ((frames_walk limit n.name x.2 m₁).mono ?_) fun _ _ _ => .of_reads (.pure _)
        · rintro f ⟨a, ha, hf⟩
          exact ⟨a, ⟨[], r, n, m, .here _ m, Nat.succ_pos limit, hr, ha⟩, hf⟩
        · rintro f ⟨a, ha, hf⟩
          exact ⟨a, ha.visit hr (Node.visit_eq_ok.mp hvisit), hf⟩

end Pipeline

namespace Program

/-- An action is run on a packet on its way through a program: the packet gets to a pipeline, and
there to a node that runs the action. -/
def Executes (g : Program) (m : Machine) (a : Action) : Prop :=
  ∃ p m₁, g.Enters m p m₁ ∧ p.Executes g maxSteps p.init m₁ a

theorem frames_process (g : Program) (m : Machine) :
    Frames g.layout (fun f => ∃ a, g.Executes m a ∧ a.Sets f) g.process m := by
  refine .bind (.mapM ?_) fun _ _ _ => .of_reads (.pure _)
  intro before p after bs m₁ hobjects hbefore
  refine (Pipeline.frames_walk maxSteps "init_table" p.init m₁).mono ?_
  rintro f ⟨a, ha, hf⟩
  exact ⟨a, ⟨p, m₁, ⟨before, after, bs, hobjects, hbefore⟩, ha⟩, hf⟩

/-- Whether a packet gets through a program or fails on the way: its declared fields fit their
widths if they did before, its port and its headers are the same, it is still marked if it was, and
each field that reads otherwise is the target of a primitive of an action that was run on it. -/
theorem process_keeps_frame (g : Program) (m : Machine) (hm : m.packet.Within g.layout) :
    (after g.process m).packet.Within g.layout ∧
      (after g.process m).packet.port = m.packet.port ∧
      (after g.process m).packet.validHeaders = m.packet.validHeaders ∧
      (m.packet.dropped = true → (after g.process m).packet.dropped = true) ∧
      ∀ field, (after g.process m).packet.field field ≠ m.packet.field field →
        ∃ a, g.Executes m a ∧ ∃ q ∈ a.primitives, q.target? = some field := by
  have h := g.frames_process m
  exact ⟨h.within hm, h.port, h.validHeaders, h.dropped, h.changed⟩

/-- A program that sets a field of four bits to a greater value, marks the packet to be dropped and
then reads a register that is not there. -/
def clamping : Program :=
  { pipelines :=
      { objects := [
          { identity := ⟨"p", 0, none⟩
            init := some ⟨0, 0⟩
            slots := [⟨0, some (.table
              { identity := ⟨"t", 0, none⟩, matchType := "exact", keyFields := [], keyJson := []
                actionIds := [0], default? := some { actionId := 0, data := [] } })⟩]
            byName := [("t", ⟨0, 0⟩)] }]
        ids := ⟨1⟩ }
    actions :=
      { actions := [
          { identity := ⟨"clamp", 0, none⟩, parameters := []
            primitives := [.assign "h.a" (.const 0x1F), .drop, .registerRead "h.a" "r" (.const 0)]
            primitivesJson := [], extra := [] }]
        ids := ⟨1⟩ }
    tableIds := ⟨1⟩
    layout := ⟨[("h.a", 4)]⟩ }

/-- A packet that fails there keeps what fits. -/
theorem process_keeps_frame_clamping :
    let m : Machine := ⟨{ fields := [("h.a", 3)], port := 7 }, {}⟩
    clamping.process.run m = .error (.unknownRegister "r")
        ⟨{ fields := [("h.a", 15)], port := 7, dropped := true }, {}⟩ ∧
      m.packet.Within clamping.layout ∧ (after clamping.process m).packet.Within clamping.layout ∧
      ∃ a, clamping.Executes m a ∧ ∃ q ∈ a.primitives, q.target? = some "h.a" := by
  intro m
  have hm : m.packet.Within clamping.layout := by
    intro field width h
    by_cases hfield : field = "h.a"
    · subst hfield
      cases h
      decide
    · rw [Layout.width?, clamping, List.lookup_cons, beq_false_of_ne hfield] at h
      cases h
  obtain ⟨hwithin, -, -, -, hchanged⟩ := process_keeps_frame clamping m hm
  exact ⟨rfl, hm, hwithin, hchanged "h.a" (by decide)⟩

end Program

end LiveSwitch
