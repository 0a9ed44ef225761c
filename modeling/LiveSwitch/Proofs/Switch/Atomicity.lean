import LiveSwitch.Proofs.Switch.History

/-!
# Plans are atomic

A plan that fails, at whatever line and for whatever reason, leaves every context and every
register storage as they were, but for the count of failures in its own context.  A plan that
succeeds publishes one generation in its context; what the other contexts run and hold, in
generations of now and before, stays as it was.

## Main results

* `History.applyPlan_atomic` — the two outcomes, in every history.
-/

namespace LiveSwitch

namespace History

/-- A plan takes place as a whole or, its count aside, not at all. -/
theorem applyPlan_atomic (n : Nat) (events : List Event) (cxt : Nat)
    (document plan : FileContent) :
    let h := (start n).after events
    let code := (h.switch.applyPlan cxt document plan).1
    let w := (h.switch.applyPlan cxt document plan).2
    (∀ i a, h.Holds i a → a.storage < h.switch.store.size) ∧
    (code ≠ .success →
      w.contexts = h.switch.contexts.modify cxt (Context.failed code) ∧
      ∀ m, m < h.switch.store.size → w.store.get m = h.switch.store.get m) ∧
    (code = .success →
      (∃ program commands,
        cxt < h.switch.contexts.length ∧
        w.contexts = h.switch.contexts.modify cxt (Context.publish program commands)) ∧
      ∀ i a, i ≠ cxt → h.Holds i a → w.store.get a.storage = h.switch.store.get a.storage) := by
  intro h code w
  have hs : h.Separate := separate_after n events
  refine ⟨hs.bounded, ?_, ?_⟩
  · intro hcode
    rcases Switch.applyPlan_cases (hs.active cxt) document plan with
      ⟨s, code', -, hext, heq⟩ | ⟨c, program, s, commands, -, -, heq⟩
    · have hw : w = ⟨h.switch.contexts.modify cxt (Context.failed code'), s⟩ :=
        congrArg Prod.snd heq
      have hcode' : code = code' := congrArg Prod.fst heq
      rw [hw, hcode']
      exact ⟨rfl, hext.get_eq⟩
    · exact absurd (congrArg Prod.fst heq) hcode
  · intro hcode
    rcases Switch.applyPlan_cases (hs.active cxt) document plan with
      ⟨s, code', hcode', -, heq⟩ | ⟨c, program, s, commands, hc, hleads, heq⟩
    · exact absurd ((congrArg Prod.fst heq).symm.trans hcode) hcode'
    · have hw : w = ⟨h.switch.contexts.modify cxt
          (Context.publish (program.commitArrays s).1 commands), (program.commitArrays s).2⟩ :=
        congrArg Prod.snd heq
      rw [hw]
      refine ⟨⟨_, commands, (List.getElem?_eq_some_iff.mp hc).1, rfl⟩, ?_⟩
      exact fun i a hi ha => hs.get_commitArrays hc hleads ha hi

end History

end LiveSwitch
