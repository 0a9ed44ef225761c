import LiveSwitch.Proofs.ObjectMap
import LiveSwitch.Proofs.Outcome

/-!
# Steps that may be exchanged

The objects of a document are added one after the other, and the order in which it lists them
does not matter.  That is a matter of two steps: when any two of them may be exchanged, up to a
relation of states that every step respects, all of them may be taken in any order.  The counters
are left aside: where an object has the largest id, they depend on the order.

## Main definitions

* `ObjectMap.Like` — two maps hold related objects in one order, their counters aside.

## Main results

* `foldlM_forall₂` — related steps lead from related states to related states.
* `foldlM_perm` — steps that may be exchanged may be taken in any order.
* `ObjectMap.insert_comm`, `ObjectMap.Like.insert` — objects may be inserted in any order, and
  related objects alike.
-/

namespace LiveSwitch

/-! ### Folds -/

section

variable {ε ε' α α' σ σ' : Type}

/-- Steps that lead from related states to related states. -/
theorem foldlM_forall₂ {f : σ → α → Except ε σ} {f' : σ' → α' → Except ε' σ'}
    {R : σ → σ' → Prop} {A : α → α' → Prop}
    (hstep : ∀ {s s' t a a'}, R s s' → A a a' → f s a = .ok t → ∃ t', f' s' a' = .ok t' ∧ R t t')
    {l : List α} {l' : List α'} (hl : l.Forall₂ A l') {s t : σ} {s' : σ'} (hs : R s s')
    (h : l.foldlM f s = .ok t) : ∃ t', l'.foldlM f' s' = .ok t' ∧ R t t' := by
  induction hl generalizing s s' with
  | nil => exact ⟨s', rfl, foldlM_nil_eq_ok.mp h ▸ hs⟩
  | cons ha _ ih =>
    obtain ⟨u, hu, h⟩ := foldlM_cons_eq_ok.mp h
    obtain ⟨u', hu', hR⟩ := hstep hs ha hu
    obtain ⟨t', ht', hR'⟩ := ih hR h
    exact ⟨t', foldlM_cons_eq_ok.mpr ⟨u', hu', ht'⟩, hR'⟩

/-- When any two steps of a fold may be exchanged, it may take them in any order. -/
theorem foldlM_perm {f : σ → α → Except ε σ} {R : σ → σ → Prop} {S : α → α → Prop}
    (hsymm : ∀ {a b}, S a b → S b a) (hrefl : ∀ {s t}, R s t → R s s)
    (htrans : ∀ {s t u}, R s t → R t u → R s u)
    (hstep : ∀ {s s' t a}, R s s' → f s a = .ok t → ∃ t', f s' a = .ok t' ∧ R t t')
    (hswap : ∀ {s t u a b}, R s s → S a b → f s a = .ok t → f t b = .ok u →
      ∃ t' u', f s b = .ok t' ∧ f t' a = .ok u' ∧ R u u')
    {l l' : List α} (hl : l.Perm l') (hS : l.Pairwise S) {s s' t : σ} (hs : R s s')
    (h : l.foldlM f s = .ok t) : ∃ t', l'.foldlM f s' = .ok t' ∧ R t t' := by
  -- the same steps from related states
  have hrest : ∀ {l : List α} {s s' t : σ}, R s s' → l.foldlM f s = .ok t →
      ∃ t', l.foldlM f s' = .ok t' ∧ R t t' := by
    intro l s s' t hs h
    refine foldlM_forall₂ (A := Eq) (fun hs ha hf => ?_) (List.forall₂_refl l) hs h
    exact ha ▸ hstep hs hf
  induction hl generalizing s s' t with
  | nil => exact ⟨s', rfl, foldlM_nil_eq_ok.mp h ▸ hs⟩
  | cons a _ ih =>
    obtain ⟨u, hu, h⟩ := foldlM_cons_eq_ok.mp h
    obtain ⟨u', hu', hR⟩ := hstep hs hu
    obtain ⟨t', ht', hR'⟩ := ih (List.pairwise_cons.mp hS).2 hR h
    exact ⟨t', foldlM_cons_eq_ok.mpr ⟨u', hu', ht'⟩, hR'⟩
  | swap a b l =>
    obtain ⟨u, hu, h⟩ := foldlM_cons_eq_ok.mp h
    obtain ⟨v, hv, h⟩ := foldlM_cons_eq_ok.mp h
    -- the exchange starts from one state, so the steps are taken from the other state after it
    have hab := (List.pairwise_cons.mp hS).1 a List.mem_cons_self
    obtain ⟨u₁, v₁, hu₁, hv₁, hR₁⟩ := hswap (hrefl hs) hab hu hv
    obtain ⟨u₂, hu₂, hR₂⟩ := hstep hs hu₁
    obtain ⟨v₂, hv₂, hR₃⟩ := hstep hR₂ hv₁
    obtain ⟨t', ht', hR'⟩ := hrest (htrans hR₁ hR₃) h
    exact ⟨t', foldlM_cons_eq_ok.mpr ⟨u₂, hu₂, foldlM_cons_eq_ok.mpr ⟨v₂, hv₂, ht'⟩⟩, hR'⟩
  | trans hl₁ _ ih₁ ih₂ =>
    obtain ⟨t₁, ht₁, hR₁⟩ := ih₁ hS (hrefl hs) h
    obtain ⟨t₂, ht₂, hR₂⟩ := ih₂ (hl₁.pairwise hS hsymm) hs ht₁
    exact ⟨t₂, ht₂, htrans hR₁ hR₂⟩

end

/-! ### Inserting objects -/

namespace ObjectMap

variable {α : Type} [Named α] {m m' m₁ m₂ : ObjectMap α} {a b : α}

/-- Objects under different ids may be placed in any order. -/
theorem place_comm (h : idOf a ≠ idOf b) (l : List α) :
    place a (place b l) = place b (place a l) := by
  induction l with
  | nil => grind [place]
  | cons c l ih => grind [place]

/-- Two maps hold related objects in one order, their counters aside. -/
structure Like (R : α → α → Prop) (m m' : ObjectMap α) : Prop where
  objects : m.objects.Forall₂ R m'.objects
  strays : m'.strays = m.strays

namespace Like

variable {R : α → α → Prop}

omit [Named α] in
theorem refl (hR : ∀ a, R a a) (m : ObjectMap α) : m.Like R m :=
  ⟨List.forall₂_same.mpr fun a _ => hR a, rfl⟩

omit [Named α] in
theorem trans (hR : ∀ {a b c}, R a b → R b c → R a c)
    {m'' : ObjectMap α} (h : m.Like R m') (h' : m'.Like R m'') : m.Like R m'' where
  objects := by
    have hobjects := h.objects
    have hobjects' := h'.objects
    revert hobjects hobjects'
    generalize m.objects = l
    generalize m'.objects = l'
    generalize m''.objects = l''
    intro hl hl'
    induction hl generalizing l'' with
    | nil =>
      cases hl'
      exact .nil
    | cons hab _ ih =>
      cases hl' with
      | cons hbc hl' => exact .cons (hR hab hbc) (ih _ hl')
  strays := h'.strays.trans h.strays

omit [Named α] in
theorem mono {R' : α → α → Prop} (h : m.Like R m') (hR : ∀ {a b}, R a b → R' a b) :
    m.Like R' m' :=
  ⟨h.objects.imp fun _ _ => hR, h.strays⟩

/-- Related objects are inserted alike. -/
theorem insert (hR : ∀ {a b}, R a b → Named.identity b = Named.identity a) (h : m.Like R m')
    (hab : R a b) (hins : m.insert a = .ok m₁) : ∃ m₁', m'.insert b = .ok m₁' ∧ m₁.Like R m₁' := by
  have hname : ∀ {c d : α}, R c d → nameOf d = nameOf c :=
    fun hcd => congrArg Identity.name (hR hcd)
  have hid : ∀ {c d : α}, R c d → idOf d = idOf c := fun hcd => congrArg Identity.id (hR hcd)
  obtain ⟨hfree, hfreeId, rfl⟩ := insert_eq_ok.mp hins
  rw [contains_eq_false, get?_eq_none_iff] at hfree
  rw [getById?_eq_none_iff] at hfreeId
  refine ⟨_, insert_eq_ok.mpr ⟨contains_eq_false.mpr ⟨?_, get?_eq_none_iff.mpr fun d hd => ?_⟩,
    getById?_eq_none_iff.mpr fun d hd => ?_, rfl⟩, ⟨?_, h.strays⟩⟩
  · rw [h.strays, hname hab]
    exact hfree.1
  · obtain ⟨c, hc, hcd⟩ := exists_of_forall₂ h.objects hd
    rw [hname hcd, hname hab]
    exact hfree.2 c hc
  · obtain ⟨c, hc, hcd⟩ := exists_of_forall₂ h.objects hd
    rw [hid hcd, hid hab]
    exact hfreeId c hc
  -- both objects come before the first one with a greater id, which is at one place in both
  · show (place a m.objects).Forall₂ R (place b m'.objects)
    have hobjects := h.objects
    revert hobjects
    generalize m.objects = l
    generalize m'.objects = l'
    intro hl
    induction hl with
    | nil => exact .cons hab .nil
    | @cons c d l l' hcd hl ih =>
      rw [place, place, hid hab, hid hcd]
      split
      · exact .cons hab (.cons hcd hl)
      · exact .cons hcd ih

end Like

/-- Objects may be inserted in any order. -/
theorem insert_comm (ha : m.insert a = .ok m₁) (hb : m₁.insert b = .ok m₂) :
    ∃ m₁' m₂', m.insert b = .ok m₁' ∧ m₁'.insert a = .ok m₂' ∧ m₂.Like Eq m₂' := by
  obtain ⟨haname, haid, rfl⟩ := insert_eq_ok.mp ha
  obtain ⟨hbname, hbid, rfl⟩ := insert_eq_ok.mp hb
  rw [contains_eq_false, get?_eq_none_iff] at haname hbname
  rw [getById?_eq_none_iff] at haid hbid
  have hmem : ∀ c ∈ m.objects, c ∈ place a m.objects := fun c hc => mem_place.mpr (Or.inr hc)
  have hab : idOf a ≠ idOf b := hbid a (mem_place.mpr (Or.inl rfl))
  have hname : nameOf a ≠ nameOf b := hbname.2 a (mem_place.mpr (Or.inl rfl))
  refine ⟨_, _, insert_eq_ok.mpr ⟨contains_eq_false.mpr ⟨hbname.1,
    get?_eq_none_iff.mpr fun c hc => hbname.2 c (hmem c hc)⟩,
    getById?_eq_none_iff.mpr fun c hc => hbid c (hmem c hc), rfl⟩,
    insert_eq_ok.mpr ⟨contains_eq_false.mpr ⟨haname.1, get?_eq_none_iff.mpr fun c hc => ?_⟩,
      getById?_eq_none_iff.mpr fun c hc => ?_, rfl⟩, ⟨?_, rfl⟩⟩
  · rcases mem_place.mp hc with rfl | hc
    · exact hname.symm
    · exact haname.2 c hc
  · rcases mem_place.mp hc with rfl | hc
    · exact hab.symm
    · exact haid c hc
  · show List.Forall₂ Eq (place b (place a m.objects)) (place a (place b m.objects))
    rw [place_comm hab]
    exact List.forall₂_same.mpr fun _ _ => rfl

end ObjectMap

end LiveSwitch
