import LiveSwitch.ObjectMap
import Mathlib.Data.List.Forall2

/-!
# Opening successful computations

Edits, loaders and commands are `do` blocks over `Except`.  A proof about one of them
starts from the fact that the block succeeded and wants what each of its lines produced;
the lemmas below take a successful block apart, one line at a time.

## Main results

* `bind_eq_ok` — a block succeeds when its first line and then the rest do.
* `guard_eq_ok`, `unless_eq_ok` — a block behind a guard succeeds when the guard does not
  fire.
* `foldlM_induction`, `foldlM_forall` — what every step of a successful fold preserves or makes,
  the fold preserves or makes.
* `forM_eq_ok` — checks go through when each of them does.
* `mapM_eq_ok`, `option_mapM_eq_ok` — a list is read when each of its items is, in order.
-/

namespace LiveSwitch

variable {ε α β σ : Type}

/-! ### One line of a block -/

theorem bind_eq_ok {x : Except ε α} {f : α → Except ε β} {b : β} :
    x >>= f = .ok b ↔ ∃ a, x = .ok a ∧ f a = .ok b := by
  cases x with
  | error e => simp [bind, Except.bind]
  | ok a => simp [bind, Except.bind]

theorem ok_bind (a : α) (f : α → Except ε β) : Except.ok a >>= f = f a := rfl

theorem pure_eq_ok {a b : α} : (pure a : Except ε α) = .ok b ↔ a = b := by
  simp [pure, Except.pure]

theorem guard_eq_ok {c : Prop} [Decidable c] {e : ε} {f : PUnit → Except ε β} {b : β} :
    (if c then throw e >>= f else f ⟨⟩) = .ok b ↔ ¬c ∧ f ⟨⟩ = .ok b := by
  by_cases h : c
  · simp [h, bind, Except.bind, throw, throwThe, MonadExceptOf.throw]
  · simp [h]

theorem unless_eq_ok {c : Prop} [Decidable c] {e : ε} {f : PUnit → Except ε β} {b : β} :
    (if c then f ⟨⟩ else throw e >>= f) = .ok b ↔ c ∧ f ⟨⟩ = .ok b := by
  by_cases h : c
  · simp [h]
  · simp [h, bind, Except.bind, throw, throwThe, MonadExceptOf.throw]

theorem mapError_eq_ok {ε' : Type} {x : Except ε α} {f : ε → ε'} {a : α} :
    x.mapError f = .ok a ↔ x = .ok a := by
  cases x <;> simp [Except.mapError]

theorem map_eq_ok {x : Except ε α} {f : α → β} {b : β} :
    x.map f = .ok b ↔ ∃ a, x = .ok a ∧ f a = b := by
  cases x <;> simp [Except.map]

/-- A computation that succeeds with a property. -/
theorem exists_of_any_toOption {x : Except ε α} {P : α → Bool} (h : x.toOption.any P = true) :
    ∃ a, x = .ok a ∧ P a = true := by
  cases x with
  | ok a => exact ⟨a, rfl, h⟩
  | error e => cases h

theorem toOption_eq_some {x : Except ε α} {a : α} : x.toOption = some a ↔ x = .ok a := by
  cases x <;> simp [Except.toOption]

/-- A result beside a value that is passed along. -/
theorem pair_eq_ok {x : Except ε α} {a : α} {b c : β} :
    (do return (← x, b)) = Except.ok (a, c) ↔ x = .ok a ∧ b = c := by
  cases x <;> simp [bind, Except.bind, pure, Except.pure]

/-! ### Folds and traversals -/

theorem foldlM_nil_eq_ok {f : σ → α → Except ε σ} {s t : σ} :
    [].foldlM f s = .ok t ↔ s = t := by
  rw [List.foldlM_nil, pure_eq_ok]

theorem foldlM_cons_eq_ok {f : σ → α → Except ε σ} {a : α} {l : List α} {s t : σ} :
    (a :: l).foldlM f s = .ok t ↔ ∃ u, f s a = .ok u ∧ l.foldlM f u = .ok t := by
  rw [List.foldlM_cons, bind_eq_ok]

/-- What every step of a fold preserves, a successful fold preserves. -/
theorem foldlM_induction {f : σ → α → Except ε σ} {P : σ → Prop} {l : List α}
    (hstep : ∀ a ∈ l, ∀ s t, P s → f s a = .ok t → P t) {s t : σ} (hs : P s)
    (h : l.foldlM f s = .ok t) : P t := by
  induction l generalizing s with
  | nil =>
    rw [foldlM_nil_eq_ok] at h
    exact h ▸ hs
  | cons a l ih =>
    obtain ⟨u, hu, h⟩ := foldlM_cons_eq_ok.mp h
    have hu' : P u := hstep a List.mem_cons_self s u hs hu
    exact ih (fun b hb => hstep b (List.mem_cons_of_mem a hb)) hu' h

/-- What every step of a fold makes of its item and later steps preserve, a successful fold makes
of all items. -/
theorem foldlM_forall {f : σ → α → Except ε σ} {P : α → σ → Prop} {l : List α}
    (hstep : ∀ a ∈ l, ∀ s t, f s a = .ok t → P a t ∧ ∀ b, P b s → P b t) {s t : σ}
    (h : l.foldlM f s = .ok t) : ∀ a ∈ l, P a t := by
  induction l generalizing s with
  | nil => exact List.forall_mem_nil _
  | cons a l ih =>
    obtain ⟨u, hu, h⟩ := foldlM_cons_eq_ok.mp h
    obtain ⟨ha, -⟩ := hstep a List.mem_cons_self s u hu
    have hrest := fun b hb => hstep b (List.mem_cons_of_mem a hb)
    have hkept : P a t :=
      foldlM_induction (P := P a) (fun b hb s t hs ht => (hrest b hb s t ht).2 a hs) ha h
    exact List.forall_mem_cons.mpr ⟨hkept, ih hrest h⟩

/-- A fold goes through when each step does, whatever was folded before it. -/
theorem foldlM_progress {f : σ → α → Except ε σ} (P : List α → σ → Prop) {l : List α} {s : σ}
    (hs : P [] s) (hstep : ∀ done a rest s, l = done ++ a :: rest → P done s →
      ∃ t, f s a = .ok t ∧ P (done ++ [a]) t) : ∃ t, l.foldlM f s = .ok t ∧ P l t := by
  have hrest : ∀ rest done s, l = done ++ rest → P done s →
      ∃ t, rest.foldlM f s = .ok t ∧ P l t := by
    intro rest
    induction rest with
    | nil =>
      intro done s hl hP
      rw [List.append_nil] at hl
      exact ⟨s, rfl, hl ▸ hP⟩
    | cons a rest ih =>
      intro done s hl hP
      obtain ⟨u, hu, hPu⟩ := hstep done a rest s hl hP
      obtain ⟨t, ht, hPt⟩ := ih (done ++ [a]) u (by rw [hl, List.append_cons]) hPu
      exact ⟨t, foldlM_cons_eq_ok.mpr ⟨u, hu, ht⟩, hPt⟩
  exact hrest l [] s rfl hs

/-- Every step of a successful fold is successful. -/
theorem exists_step_of_foldlM {f : σ → α → Except ε σ} {P : σ → Prop} {l : List α} {s t : σ}
    (h : l.foldlM f s = .ok t) (hs : P s) (hstep : ∀ s t a, P s → f s a = .ok t → P t) :
    ∀ a ∈ l, ∃ s t, P s ∧ f s a = .ok t := by
  induction l generalizing s with
  | nil => exact nofun
  | cons b l ih =>
    obtain ⟨u, hu, h⟩ := foldlM_cons_eq_ok.mp h
    rw [List.forall_mem_cons]
    exact ⟨⟨s, u, hs, hu⟩, ih h (hstep s u b hs hu)⟩

/-- Checks go through when each of them does. -/
theorem forM_eq_ok {f : α → Except ε Unit} {l : List α} :
    l.forM f = .ok () ↔ ∀ a ∈ l, f a = .ok () := by
  induction l with
  | nil => exact iff_of_true rfl (List.forall_mem_nil _)
  | cons a l ih =>
    rw [List.forM_eq_forM] at ih ⊢
    rw [List.forM_cons, bind_eq_ok, List.forall_mem_cons, ih]
    constructor
    · rintro ⟨⟨⟩, h⟩
      exact h
    · exact fun h => ⟨(), h⟩

theorem mapM_nil_eq_ok {f : α → Except ε β} {m : List β} :
    [].mapM f = .ok m ↔ m = [] := by
  rw [List.mapM_nil, pure_eq_ok, eq_comm]

theorem mapM_cons_eq_ok {f : α → Except ε β} {a : α} {l : List α} {m : List β} :
    (a :: l).mapM f = .ok m ↔ ∃ b bs, f a = .ok b ∧ l.mapM f = .ok bs ∧ m = b :: bs := by
  rw [List.mapM_cons]
  simp only [bind_eq_ok, pure_eq_ok]
  constructor
  · rintro ⟨b, hb, bs, hbs, rfl⟩
    exact ⟨b, bs, hb, hbs, rfl⟩
  · rintro ⟨b, bs, hb, hbs, rfl⟩
    exact ⟨b, hb, bs, hbs, rfl⟩

/-- A list is read when each of its items is, in order. -/
theorem mapM_eq_ok {f : α → Except ε β} {l : List α} {m : List β} :
    l.mapM f = .ok m ↔ List.Forall₂ (fun a b => f a = .ok b) l m := by
  induction l generalizing m with
  | nil => rw [mapM_nil_eq_ok, List.forall₂_nil_left_iff]
  | cons a l ih =>
    rw [mapM_cons_eq_ok, List.forall₂_cons_left_iff]
    simp only [ih]

/-- What may be absent is read when it is absent or can be read. -/
theorem option_mapM_eq_ok {f : α → Except ε β} {a? : Option α} {b? : Option β} :
    a?.mapM f = .ok b? ↔ Option.Rel (fun a b => f a = .ok b) a? b? := by
  cases a? with
  | none =>
    rw [Option.mapM_none, pure_eq_ok]
    cases b? with
    | none => exact ⟨fun _ => Option.Rel.none, fun _ => rfl⟩
    | some b => exact ⟨nofun, nofun⟩
  | some a =>
    rw [Option.mapM_some]
    cases b? with
    | none => cases f a <;> exact ⟨nofun, nofun⟩
    | some b =>
      constructor
      · intro h
        cases ha : f a with
        | error e => rw [ha] at h; cases h
        | ok b' => rw [ha] at h; cases h; exact Option.Rel.some ha
      · rintro ⟨h⟩
        rw [h]
        rfl

/-- Two lists have the same images, when what is related has. -/
theorem map_eq_map_of_forall₂ {γ : Type} {R : α → β → Prop} {f : α → γ} {g : β → γ} {l : List α}
    {m : List β} (h : l.Forall₂ R m) (hR : ∀ a b, R a b → g b = f a) : m.map g = l.map f := by
  induction h with
  | nil => rfl
  | cons hab _ ih => rw [List.map_cons, List.map_cons, hR _ _ hab, ih]

/-- Lists with the same images are related, when what has the same image is. -/
theorem forall₂_of_map_eq {γ : Type} {R : α → β → Prop} {f : α → γ} {g : β → γ} {l : List α}
    {m : List β} (h : l.map f = m.map g) (hR : ∀ a ∈ l, ∀ b ∈ m, f a = g b → R a b) :
    l.Forall₂ R m := by
  induction l generalizing m with
  | nil =>
    rw [List.map_nil, eq_comm, List.map_eq_nil_iff] at h
    exact h ▸ .nil
  | cons a l ih =>
    cases m with
    | nil => cases h
    | cons b m =>
      rw [List.map_cons, List.map_cons, List.cons.injEq] at h
      refine .cons (hR a List.mem_cons_self b List.mem_cons_self h.1) (ih h.2 ?_)
      exact fun a' ha' b' hb' => hR a' (List.mem_cons_of_mem a ha') b' (List.mem_cons_of_mem b hb')

/-- The first ones of two related lists are related, when the tests agree on what is related. -/
theorem rel_find? {R : α → β → Prop} {f : α → Bool} {g : β → Bool} {l : List α} {m : List β}
    (h : l.Forall₂ R m) (hR : ∀ a b, R a b → f a = g b) :
    Option.Rel R (l.find? f) (m.find? g) := by
  induction h with
  | nil => exact .none
  | @cons a b l m hab _ ih =>
    rw [List.find?_cons, List.find?_cons, hR a b hab]
    split
    · exact .some hab
    · exact ih

theorem rel_getD {R : α → β → Prop} {a? : Option α} {b? : Option β} (h : Option.Rel R a? b?) {a : α}
    {b : β} (hab : R a b) : R (a?.getD a) (b?.getD b) := by
  cases h with
  | some h => exact h
  | none => exact hab

theorem exists_of_forall₂ {R : α → β → Prop} {l : List α} {m : List β} (h : l.Forall₂ R m) {b : β}
    (hb : b ∈ m) : ∃ a ∈ l, R a b := by
  induction h with
  | nil => cases hb
  | @cons a b' l m hab _ ih =>
    rcases List.mem_cons.mp hb with rfl | hb
    · exact ⟨a, List.mem_cons_self, hab⟩
    · obtain ⟨a', ha', hR⟩ := ih hb
      exact ⟨a', List.mem_cons_of_mem a ha', hR⟩

end LiveSwitch
