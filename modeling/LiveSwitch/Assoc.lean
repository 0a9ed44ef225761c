/-!
# Association lists

Small maps are lists of pairs in which every key occurs once.  Where the order of a map
shows, the list is kept in the order of its keys; elsewhere a new pair goes to the front.

## Main definitions

* `Assoc.set`, `Assoc.erase` — changes of a map whose order does not show.
* `Assoc.insert` — the change of a map in the order of its keys.

## Main results

* `Assoc.lookup_set`, `Assoc.lookup_erase`, `Assoc.lookup_insert` — what a look-up finds
  after each change.
* `Assoc.mem_keys_iff`, `Assoc.nodup_set`, `Assoc.nodup_erase` — the keys, each of which occurs
  once.
-/

namespace LiveSwitch.Assoc

variable {κ α : Type} [BEq κ]

/-- The map without a key. -/
def erase (key : κ) (l : List (κ × α)) : List (κ × α) := l.filter fun f => f.1 != key

/-- Sets the value of a key, at the front. -/
def set (key : κ) (value : α) (l : List (κ × α)) : List (κ × α) :=
  (key, value) :: erase key l

/-- Sets the value of a key in a map in the order of its keys. -/
def insert [LT κ] [DecidableLT κ] (key : κ) (value : α) : List (κ × α) → List (κ × α)
  | [] => [(key, value)]
  | (k, v) :: rest =>
    if key == k then (key, value) :: rest
    else if key < k then (key, value) :: (k, v) :: rest
    else (k, v) :: insert key value rest

variable [LawfulBEq κ] [DecidableEq κ]

/-- A look-up in a list with one more pair ahead. -/
theorem lookup_cons_eq (k : κ) (v : α) (l : List (κ × α)) (key : κ) :
    ((k, v) :: l).lookup key = if key = k then some v else l.lookup key := by
  by_cases h : key = k
  · simp [h]
  · simp [List.lookup_cons, h, beq_eq_false_iff_ne.2 h]

/-- A look-up finds nothing under a key that was taken out, and otherwise what it found
before. -/
theorem lookup_erase (k : κ) (l : List (κ × α)) (key : κ) :
    (erase k l).lookup key = if key = k then none else l.lookup key := by
  induction l with
  | nil => simp [erase]
  | cons f l ih =>
    obtain ⟨k', v'⟩ := f
    have hcons : erase k ((k', v') :: l) =
        if k' = k then erase k l else (k', v') :: erase k l := by
      by_cases h : k' = k <;> simp [erase, h]
    rw [hcons]
    split <;> rename_i h
    · subst h
      rw [ih, lookup_cons_eq]
      by_cases h' : key = k' <;> simp [h']
    · rw [lookup_cons_eq, lookup_cons_eq, ih]
      by_cases h' : key = k'
      · subst h'
        simp [h]
      · simp [h']

/-- A look-up finds the value just set under its key, and otherwise what it found
before. -/
theorem lookup_set (k : κ) (v : α) (l : List (κ × α)) (key : κ) :
    (set k v l).lookup key = if key = k then some v else l.lookup key := by
  rw [set, lookup_cons_eq, lookup_erase]
  split <;> rfl

/-- A look-up finds the value just inserted under its key, and otherwise what it found
before. -/
theorem lookup_insert [LT κ] [DecidableLT κ] (k : κ) (v : α) (l : List (κ × α)) (key : κ) :
    (insert k v l).lookup key = if key = k then some v else l.lookup key := by
  induction l with
  | nil => simp [insert, lookup_cons_eq]
  | cons f l ih =>
    obtain ⟨k', v'⟩ := f
    simp only [insert, beq_iff_eq]
    split
    · subst_vars
      rw [lookup_cons_eq, lookup_cons_eq]
      split <;> rfl
    · split
      · rw [lookup_cons_eq]
      · rename_i hne _
        rw [lookup_cons_eq, lookup_cons_eq, ih]
        by_cases h : key = k'
        · subst h
          simp [Ne.symm hne]
        · simp [h]

/-! ### Keys -/

theorem mem_keys_iff {l : List (κ × α)} {key : κ} :
    key ∈ l.map Prod.fst ↔ (l.lookup key).isSome := by
  induction l with
  | nil => exact iff_of_false List.not_mem_nil Bool.false_ne_true
  | cons f l ih =>
    rw [List.map_cons, List.mem_cons, lookup_cons_eq, ih]
    by_cases h : key = f.1
    · simp [h]
    · simp [h]

omit [LawfulBEq κ] [DecidableEq κ] in
theorem nodup_erase {l : List (κ × α)} (h : (l.map Prod.fst).Nodup) (key : κ) :
    ((erase key l).map Prod.fst).Nodup :=
  h.sublist (List.filter_sublist.map Prod.fst)

omit [DecidableEq κ] in
theorem nodup_set {l : List (κ × α)} (h : (l.map Prod.fst).Nodup) (key : κ) (value : α) :
    ((set key value l).map Prod.fst).Nodup := by
  rw [set, List.map_cons, List.nodup_cons]
  refine ⟨fun hmem => ?_, nodup_erase h key⟩
  obtain ⟨f, hf, hkey⟩ := List.mem_map.mp hmem
  exact bne_iff_ne.mp (List.mem_filter.mp hf).2 hkey

/-- A key that is not there need not be taken out. -/
theorem erase_eq_self {l : List (κ × α)} {key : κ} (h : l.lookup key = none) :
    erase key l = l := by
  refine List.filter_eq_self.mpr fun f hf => bne_iff_ne.mpr ?_
  rintro rfl
  have hmem : f.1 ∈ l.map Prod.fst := List.mem_map_of_mem hf
  rw [mem_keys_iff, h] at hmem
  cases hmem

end LiveSwitch.Assoc
