import LiveSwitch.Proofs.Plan.Commands
import LiveSwitch.Proofs.Program.Carried

/-!
# The nodes of a plan

A plan carries its program on: what none of its commands deletes is there afterwards, nodes as
they were but for their edges.  A node that is there when a plan has carried out its commands was
either there before the plan, and no command has deleted it, or it was inserted by a command.  In
both cases it is what it was then, but for its edges.

## Main definitions

* `Session.Deletes` — what the commands of a plan delete.

## Main results

* `Session.carries_foldlM` — the commands of a plan carry the candidate on.
* `Session.node?_origin` — where the nodes of a plan come from.
* `Session.exists_brought` — what becomes of a node that a command inserts.
-/

namespace LiveSwitch.Session

open Program

variable {s s' : Session} {cs : List Command} {P N : String} {n : Node}

/-- The candidate of a session agrees with some log, its arrays have names and ids of their own,
and its counter of actions is ahead as long as it has not come round. -/
structure Wired (s : Session) : Prop where
  follows : ∃ log, s.candidate.Follows log
  arrays : s.candidate.arrays.Consistent
  counted : s.candidate.actions.Counted

/-- A command of a plan deletes an object of the name. -/
def Deletes (cs : List Command) (x : Subject) : Prop := ∃ c ∈ cs, c.deletes? = some x

theorem not_deletes_nil (x : Subject) : ¬Deletes [] x := by
  rintro ⟨c, hc, -⟩
  exact List.not_mem_nil hc

theorem Wired.apply {c : Command} (hs : s.Wired) (h : s.apply c = .ok s') :
    s'.Wired ∧
      s.candidate.NodesAfter c.inserts? c.deletes? (c.edit.Brings s.donor) s'.candidate := by
  obtain ⟨⟨log, hlog⟩, harrays, hcounted⟩ := hs
  obtain ⟨hrun, -⟩ := apply_ok h
  exact ⟨⟨⟨_, hlog.edit hrun⟩, Edit.consistent_run harrays hrun, Edit.counted_run hcounted hrun⟩,
    Edit.nodesAfter_run hlog hrun⟩

theorem Wired.foldlM (hs : s.Wired) (hrun : cs.foldlM Session.apply s = .ok s') : s'.Wired :=
  foldlM_induction (P := Wired) (fun _ _ _ _ ht hstep => (ht.apply hstep).1) hs hrun

/-- The commands of a plan carry the candidate on. -/
theorem carries_foldlM (hs : s.Wired) (hrun : cs.foldlM apply s = .ok s') :
    Carries Node.SameBody (Deletes cs) s.candidate s'.candidate := by
  refine (foldlM_induction (P := fun t : Session => t.Wired ∧
    Carries Node.SameBody (Deletes cs) s.candidate t.candidate) ?_
    ⟨hs, .refl Node.SameBody.refl _⟩ hrun).2
  rintro c hc t t' ⟨hwired, hcarries⟩ hstep
  obtain ⟨log, hlog⟩ := hwired.follows
  obtain ⟨hedit, -⟩ := apply_ok hstep
  have hnext := hcarries.trans (Edit.carries_run hlog hwired.arrays hwired.counted hedit) .trans
  refine ⟨(hwired.apply hstep).1, hnext.mono (fun _ _ => id) ?_⟩
  rintro x (hx | hx)
  · exact hx
  · exact ⟨c, hc, hx⟩

/-- A node of a plan was there before, and no command has inserted or deleted it since, or a
command has inserted it.  It is what it was then, but for its edges. -/
theorem node?_origin (hs : s.Wired) (hrun : cs.foldlM apply s = .ok s')
    (hn : s'.candidate.node? P N = some n) :
    (∃ m, s.candidate.node? P N = some m ∧ m.SameBody n ∧
      ∀ c ∈ cs, c.inserts? ≠ some (.node P N) ∧ c.deletes? ≠ some (.node P N)) ∨
    ∃ c ∈ cs, c.inserts? = some (.node P N) ∧
      ∃ m, c.edit.Brings s.donor m ∧ m.SameBody n := by
  induction cs using List.reverseRecOn generalizing s' n with
  | nil =>
    rw [foldlM_nil_eq_ok] at hrun
    subst hrun
    exact Or.inl ⟨n, hn, rfl, List.forall_mem_nil _⟩
  | append_singleton cs c ih =>
    simp only [List.foldlM_append, bind_eq_ok, foldlM_cons_eq_ok, foldlM_nil_eq_ok] at hrun
    obtain ⟨t, ht, _, hstep, rfl⟩ := hrun
    obtain ⟨-, hafter⟩ := (hs.foldlM ht).apply hstep
    have hdonor : t.donor = s.donor := (applied_foldlM ht).2
    -- the last command brought the node, or it took it away, or it left it but for its edges
    by_cases hinserts : c.inserts? = some (.node P N)
    · obtain ⟨m, hm, hbrings⟩ := hafter.brought P N hinserts
      rw [hn, Option.some.injEq] at hm
      subst hm
      exact Or.inr ⟨c, List.mem_append_right cs List.mem_cons_self, hinserts, n,
        hdonor ▸ hbrings, rfl⟩
    by_cases hdeletes : c.deletes? = some (.node P N)
    · rw [hafter.gone P N hdeletes] at hn
      cases hn
    · have hkept := hafter.kept P N hinserts hdeletes
      rw [hn, Option.map_some, eq_comm, Option.map_eq_some_iff] at hkept
      obtain ⟨m, hm, hmn⟩ := hkept
      have hbody : m.SameBody n := hmn.symm
      rcases ih ht hm with ⟨m₀, hm₀, hbody₀, hkept⟩ | ⟨d, hd, hdins, m₀, hm₀, hbody₀⟩
      · refine Or.inl ⟨m₀, hm₀, hbody₀.trans hbody, fun d hd => ?_⟩
        rcases List.mem_append.mp hd with hd | hd
        · exact hkept d hd
        · rw [List.mem_singleton.mp hd]
          exact ⟨hinserts, hdeletes⟩
      · exact Or.inr ⟨d, List.mem_append_left [c] hd, hdins, m₀, hm₀, hbody₀.trans hbody⟩

/-- A node that a command inserts and that no later one deletes is what the command has brought,
but for its edges. -/
theorem exists_brought (hs : s.Wired) {c : Command} {cs' : List Command}
    (hrun : (cs ++ c :: cs').foldlM apply s = .ok s') (hinserts : c.inserts? = some (.node P N))
    (hkept : ¬Deletes cs' (.node P N)) :
    ∃ m n, c.edit.Brings s.donor m ∧ s'.candidate.node? P N = some n ∧ m.SameBody n := by
  simp only [List.foldlM_append, bind_eq_ok, foldlM_cons_eq_ok] at hrun
  obtain ⟨t, ht, u, hu, hrest⟩ := hrun
  obtain ⟨hwired, hafter⟩ := (hs.foldlM ht).apply hu
  obtain ⟨m, hm, hbrings⟩ := hafter.brought P N hinserts
  obtain ⟨n, hn, hbody⟩ := (carries_foldlM hwired hrest).node P N m hkept hm
  have hdonor : t.donor = s.donor := (applied_foldlM ht).2
  exact ⟨m, n, hdonor ▸ hbrings, hn, hbody⟩

end LiveSwitch.Session
