import LiveSwitch.Proofs.ObjectMap
import LiveSwitch.Proofs.Program.Walks

/-!
# The effects of primitives

The registers of a program are a table of values, as long as each array is settled and no two
share a storage.  What a list of primitives does is then said as a contract: from a packet and a
table it leads to another packet and another table, wherever the cells are stored.

## Main definitions

* `Cells`, `Program.Shows` — the values of all register cells.
* `Program.Block` — the contract of a list of primitives.

## Main results

* `Program.Shows.read`, `Program.Shows.write` — reading and writing a cell.
* `Program.Block.registerRead` and the like — the contract of one primitive and those after it.
-/

namespace LiveSwitch

open Exec

variable {g : Program} {data : List UInt64} {p : Packet} {s : Store}

/-- A field keeps as many bits of a value as it has. -/
def Program.cutField (g : Program) (field : String) (v : UInt64) : UInt64 :=
  v &&& g.layout.mask field

theorem Expr.run_eq {e : Expr} {v : UInt64} (h : e.eval p data = .ok v) :
    (e.run data).run ⟨p, s⟩ = .ok v ⟨p, s⟩ := by
  show (Exec.lift (e.eval p data)).run ⟨p, s⟩ = _
  rw [h]
  rfl

namespace Primitive

variable {target array calculation : String} {index value base size : Expr} {a : RegisterArray}
  {i v w : UInt64}

theorem run_assign (hv : value.eval p data = .ok v) :
    ((assign target value).run g data).run ⟨p, s⟩ =
      .ok () ⟨p.setField target (g.cutField target v), s⟩ :=
  Exec.bind_eq_ok.mpr ⟨_, _, Expr.run_eq hv, rfl⟩

theorem run_add (hv : value.eval p data = .ok v) : ((add target value).run g data).run ⟨p, s⟩ =
    .ok () ⟨p.setField target (g.cutField target (p.field target + v)), s⟩ :=
  Exec.bind_eq_ok.mpr ⟨_, _, rfl, Exec.bind_eq_ok.mpr ⟨_, _, Expr.run_eq hv, rfl⟩⟩

theorem run_registerRead (ha : g.array? array = some a) (hi : index.eval p data = .ok i)
    (hread : a.read s i.toNat = .ok v) : ((registerRead target array index).run g data).run ⟨p, s⟩ =
      .ok () ⟨p.setField target (g.cutField target v), s⟩ := by
  rw [run, ha]
  refine Exec.bind_eq_ok.mpr ⟨_, _, rfl, Exec.bind_eq_ok.mpr ⟨_, _, Expr.run_eq hi, ?_⟩⟩
  rw [Exec.run_get_bind, hread]
  rfl

theorem run_registerWrite {s' : Store} (ha : g.array? array = some a)
    (hi : index.eval p data = .ok i) (hv : value.eval p data = .ok v)
    (hwrite : a.write s i.toNat v = .ok s') :
    ((registerWrite array index value).run g data).run ⟨p, s⟩ = .ok () ⟨p, s'⟩ := by
  rw [run, ha]
  refine Exec.bind_eq_ok.mpr ⟨_, _, rfl, Exec.bind_eq_ok.mpr ⟨_, _, Expr.run_eq hi,
    Exec.bind_eq_ok.mpr ⟨_, _, Expr.run_eq hv, ?_⟩⟩⟩
  rw [Exec.run_get_bind, hwrite]
  rfl

theorem run_registerWrite_error {e : IndexError} (ha : g.array? array = some a)
    (hi : index.eval p data = .ok i) (hv : value.eval p data = .ok v)
    (hwrite : a.write s i.toNat v = .error e) :
    ((registerWrite array index value).run g data).run ⟨p, s⟩ = .error (.index e) ⟨p, s⟩ := by
  rw [run, ha]
  refine Exec.bind_eq_error.mpr (.inr ⟨_, _, rfl, Exec.bind_eq_error.mpr (.inr
    ⟨_, _, Expr.run_eq hi, Exec.bind_eq_error.mpr (.inr ⟨_, _, Expr.run_eq hv, ?_⟩)⟩)⟩)
  rw [Exec.run_get_bind, hwrite]
  rfl

theorem run_hashOffset {c : Calculation} (hc : g.calculation? calculation = some c)
    (hbase : base.eval p data = .ok v) (hsize : size.eval p data = .ok w) (hw : w ≠ 0) :
    ((hashOffset target base calculation size).run g data).run ⟨p, s⟩ =
      .ok () ⟨p.setField target (g.cutField target (v + c.compute p % w)), s⟩ := by
  rw [run, hc]
  refine Exec.bind_eq_ok.mpr ⟨_, _, rfl, Exec.bind_eq_ok.mpr ⟨_, _, Expr.run_eq hbase,
    Exec.bind_eq_ok.mpr ⟨_, _, Expr.run_eq hsize, ?_⟩⟩⟩
  rw [if_neg hw]
  rfl

end Primitive

/-! ### Registers as a table -/

/-- The values of register cells, by the names of their arrays. -/
abbrev Cells := String → Nat → UInt64

/-- The table with another value of one cell. -/
def Cells.set (v : Cells) (name : String) (j : Nat) (x : UInt64) : Cells := fun name' j' =>
  if name' = name ∧ j' = j then x else v name' j'

namespace Cells

variable {v : Cells} {name name' : String}

theorem set_of_ne (h : name' ≠ name) (j : Nat) (x : UInt64) : v.set name j x name' = v name' :=
  funext fun _ => if_neg fun hn => h hn.1

theorem set_self (v : Cells) (name : String) (j : Nat) (x : UInt64) (j' : Nat) :
    v.set name j x name j' = if j' = j then x else v name j' := by
  simp [set]

theorem foldl_set_of_ne (h : name' ≠ name) (l : List Nat) (x : UInt64) :
    l.foldl (fun v k => v.set name k x) v name' = v name' := by
  induction l generalizing v with
  | nil => rfl
  | cons k l ih => rw [List.foldl_cons, ih, set_of_ne h]

theorem foldl_set_self (v : Cells) (name : String) (l : List Nat) (x : UInt64) (j : Nat) :
    l.foldl (fun v k => v.set name k x) v name j = if j ∈ l then x else v name j := by
  induction l generalizing v with
  | nil => simp
  | cons k l ih =>
    rw [List.foldl_cons, ih, set_self]
    by_cases hk : j = k <;> simp [hk]

end Cells

namespace Program

variable {v : Cells} {name : String} {a : RegisterArray}

/-- Every register array has a name and a storage of its own, and is what its name leads to. -/
structure Apart (g : Program) : Prop where
  names : g.arrays.names.Nodup
  strays : g.arrays.strays = []
  storages : (g.arrays.objects.map RegisterArray.storage).Nodup

/-- The arrays of a program show the values of a table. -/
structure Shows (g : Program) (s : Store) (v : Cells) : Prop where
  settled : ∀ a ∈ g.arrays.objects, a.Settled (s.get a.storage)
  cell : ∀ a ∈ g.arrays.objects, ∀ j, j < a.size → (s.get a.storage).cell j = v (nameOf a) j

theorem Apart.mem_of_array? (hg : g.Apart) (ha : g.array? name = some a) :
    a ∈ g.arrays.objects ∧ nameOf a = name :=
  ObjectMap.mem_of_get? (ObjectMap.lookup?_eq_get? hg.strays name ▸ ha)

theorem Shows.read (h : g.Shows s v) (hg : g.Apart) (ha : g.array? name = some a) {j : Nat}
    (hj : j < a.size) : a.read s j = .ok (v name j) := by
  obtain ⟨hmem, rfl⟩ := hg.mem_of_array? ha
  rw [(h.settled a hmem).read hj, h.cell a hmem j hj]

theorem Shows.write (h : g.Shows s v) (hg : g.Apart) (ha : g.array? name = some a) {j : Nat}
    (hj : j < a.size) (x : UInt64) : ∃ s', a.write s j x = .ok s' ∧
      g.Shows s' (v.set name j (x &&& widthMask a.bitwidth)) := by
  obtain ⟨hmem, rfl⟩ := hg.mem_of_array? ha
  obtain ⟨s', hs'⟩ := ((h.settled a hmem).exists_write_iff (v := x)).mpr hj
  have halike := RegisterArray.alike_write hs'
  refine ⟨s', hs', fun b hb => (h.settled b hb).alike (halike.get b.storage), fun b hb k hk => ?_⟩
  have hsettled := (h.settled b hb).alike (halike.get b.storage)
  have hread := (h.settled a hmem).read_of_write (h.settled b hb) hs' k
  rw [hsettled.read hk, (h.settled b hb).read hk, h.cell b hb k hk] at hread
  have hiff : b.storage = a.storage ∧ k = j ↔ nameOf b = nameOf a ∧ k = j := by
    refine and_congr_left fun _ => ⟨fun heq => ?_, fun heq => ?_⟩
    · rw [List.inj_on_of_nodup_map hg.storages hb hmem heq]
    · rw [ObjectMap.eq_of_name_eq hg.names hb hmem heq]
  rw [if_congr hiff rfl rfl] at hread
  by_cases hcell : nameOf b = nameOf a ∧ k = j
  · rw [if_pos hcell] at hread
    rw [Cells.set, if_pos hcell]
    exact Except.ok.inj hread
  · rw [if_neg hcell] at hread
    rw [Cells.set, if_neg hcell]
    exact Except.ok.inj hread

/-! ### Contracts -/

/-- A list of primitives makes one packet and table out of another. -/
def Block (g : Program) (ps : List Primitive) (p : Packet) (v : Cells) (p' : Packet)
    (v' : Cells) : Prop :=
  ∀ s, g.Shows s v → ∃ s', (ps.forM (Primitive.run g [])).run ⟨p, s⟩ = .ok () ⟨p', s'⟩ ∧
    g.Shows s' v'

namespace Block

variable {ps ps' : List Primitive} {p' p'' : Packet} {v' v'' : Cells} {target calculation : String}
  {index value base size : Expr} {i w x y : UInt64} {j : Nat}

theorem nil : g.Block [] p v p v := fun s h => ⟨s, rfl, h⟩

theorem append (h : g.Block ps p v p' v') (h' : g.Block ps' p' v' p'' v'') :
    g.Block (ps ++ ps') p v p'' v'' := by
  intro s hs
  obtain ⟨s', hrun, hs'⟩ := h s hs
  obtain ⟨s'', hrun', hs''⟩ := h' s' hs'
  have hforM : (ps ++ ps').forM (Primitive.run g []) =
      (do ps.forM (Primitive.run g []); ps'.forM (Primitive.run g [])) := List.forM_append
  exact ⟨s'', hforM ▸ Exec.bind_eq_ok.mpr ⟨_, _, hrun, hrun'⟩, hs''⟩

theorem cons {q : Primitive} (h : g.Block [q] p v p' v') (h' : g.Block ps p' v' p'' v'') :
    g.Block (q :: ps) p v p'' v'' := append h h'

/-- A primitive that only sets a field. -/
theorem of_run {q : Primitive}
    (h : ∀ s, g.Shows s v → (q.run g []).run ⟨p, s⟩ = .ok () ⟨p', s⟩) :
    g.Block [q] p v p' v :=
  fun s hs => ⟨s, Exec.bind_eq_ok.mpr ⟨_, _, h s hs, rfl⟩, hs⟩

theorem add (hx : value.eval p [] = .ok x) (hy : g.cutField target (p.field target + x) = y)
    (h : g.Block ps (p.setField target y) v p' v') : g.Block (.add target value :: ps) p v p' v' :=
  cons (of_run fun _ _ => hy ▸ Primitive.run_add hx) h

theorem registerRead (hg : g.Apart) (ha : g.array? name = some a) (hi : index.eval p [] = .ok i)
    (hj : i.toNat = j) (hlt : j < a.size) (hy : g.cutField target (v name j) = y)
    (h : g.Block ps (p.setField target y) v p' v') :
    g.Block (.registerRead target name index :: ps) p v p' v' := by
  subst hj hy
  exact cons (of_run fun _ hs => Primitive.run_registerRead ha hi (hs.read hg ha hlt)) h

theorem registerWrite (hg : g.Apart) (ha : g.array? name = some a) (hi : index.eval p [] = .ok i)
    (hx : value.eval p [] = .ok x) (hj : i.toNat = j) (hlt : j < a.size)
    (hy : x &&& widthMask a.bitwidth = y) (h : g.Block ps p (v.set name j y) p' v') :
    g.Block (.registerWrite name index value :: ps) p v p' v' := by
  subst hj hy
  refine cons (fun s hs => ?_) h
  obtain ⟨s', hwrite, hs'⟩ := hs.write hg ha hlt x
  exact ⟨s', Exec.bind_eq_ok.mpr ⟨_, _, Primitive.run_registerWrite ha hi hx hwrite, rfl⟩, hs'⟩

theorem hashOffset {c : Calculation} (hc : g.calculation? calculation = some c)
    (hbase : base.eval p [] = .ok x) (hsize : size.eval p [] = .ok w) (hw : w ≠ 0)
    (hy : g.cutField target (x + c.compute p % w) = y)
    (h : g.Block ps (p.setField target y) v p' v') :
    g.Block (.hashOffset target base calculation size :: ps) p v p' v' :=
  cons (of_run fun _ _ => hy ▸ Primitive.run_hashOffset hc hbase hsize hw) h

end Block

end Program

end LiveSwitch
