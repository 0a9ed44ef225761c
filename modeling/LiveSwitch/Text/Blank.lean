/-!
# Blank characters and words

A line of a plan is cut into words at blank characters.  The blank characters are
those with the Unicode property `White_Space`, so a tab, a no-break space or an
ideographic space separates two words just as a plain space does.

## Main definitions

* `isBlank` — the property `White_Space`.
* `trim` — a text without its leading and trailing blanks.
* `words` — the maximal runs of non-blank characters, in order.

## Main results

* `words_eq_nil_iff` — a text has no word exactly when it is blank throughout.
* `not_isBlank_of_mem_words` — no word holds a blank.
-/

namespace LiveSwitch.Text

/-- The characters with the Unicode property `White_Space`. -/
def isBlank (c : Char) : Bool :=
  let n := c.toNat
  (0x09 ≤ n && n ≤ 0x0D) || n == 0x20 || n == 0x85 || n == 0xA0 || n == 0x1680 ||
    (0x2000 ≤ n && n ≤ 0x200A) || n == 0x2028 || n == 0x2029 || n == 0x202F ||
    n == 0x205F || n == 0x3000

/-- The text without its leading blanks. -/
def trimLeft (cs : List Char) : List Char := cs.dropWhile isBlank

/-- The text without its leading and trailing blanks. -/
def trim (cs : List Char) : List Char := (trimLeft (trimLeft cs).reverse).reverse

/-- The word a text starts with, empty if it starts with a blank, and the words after
it. -/
def splitWords : List Char → List Char × List (List Char)
  | [] => ([], [])
  | c :: cs =>
    let (w, ws) := splitWords cs
    if isBlank c then ([], if w.isEmpty then ws else w :: ws) else (c :: w, ws)

/-- The words of a text: its maximal runs of non-blank characters, in order. -/
def words (cs : List Char) : List (List Char) :=
  let (w, ws) := splitWords cs
  if w.isEmpty then ws else w :: ws

/-! ### What the words are -/

@[simp] theorem words_nil : words [] = [] := rfl

/-- A blank ahead of a text adds no word. -/
@[simp] theorem words_cons_blank {c : Char} (h : isBlank c = true) (cs : List Char) :
    words (c :: cs) = words cs := by
  simp [words, splitWords, h]

/-- The words after the first one are not empty. -/
theorem ne_nil_of_mem_splitWords (cs : List Char) :
    ∀ w ∈ (splitWords cs).2, w ≠ [] := by
  induction cs with
  | nil => simp [splitWords]
  | cons c cs ih =>
    simp only [splitWords]
    split
    · split
      · exact ih
      · intro w hw
        rcases List.mem_cons.1 hw with rfl | hw
        · simp_all
        · exact ih w hw
    · exact ih

/-- No word is empty. -/
theorem ne_nil_of_mem_words {cs w : List Char} (h : w ∈ words cs) : w ≠ [] := by
  simp only [words] at h
  split at h
  · exact ne_nil_of_mem_splitWords cs w h
  · rcases List.mem_cons.1 h with rfl | h
    · simp_all
    · exact ne_nil_of_mem_splitWords cs w h

/-- Neither the leading word nor a later one holds a blank. -/
theorem not_isBlank_of_mem_splitWords (cs : List Char) :
    (∀ c ∈ (splitWords cs).1, isBlank c = false) ∧
      ∀ w ∈ (splitWords cs).2, ∀ c ∈ w, isBlank c = false := by
  induction cs with
  | nil => simp [splitWords]
  | cons c cs ih =>
    obtain ⟨h₁, h₂⟩ := ih
    simp only [splitWords]
    split
    · refine ⟨by simp, ?_⟩
      split
      · exact h₂
      · intro w hw
        rcases List.mem_cons.1 hw with rfl | hw
        · exact h₁
        · exact h₂ w hw
    · refine ⟨?_, h₂⟩
      intro d hd
      rcases List.mem_cons.1 hd with rfl | hd
      · simp_all
      · exact h₁ d hd

/-- No word holds a blank. -/
theorem not_isBlank_of_mem_words {cs w : List Char} (h : w ∈ words cs) :
    ∀ c ∈ w, isBlank c = false := by
  obtain ⟨h₁, h₂⟩ := not_isBlank_of_mem_splitWords cs
  simp only [words] at h
  split at h
  · exact h₂ w h
  · rcases List.mem_cons.1 h with rfl | h
    · exact h₁
    · exact h₂ w h

/-- A text has no word exactly when it is blank throughout. -/
theorem words_eq_nil_iff (cs : List Char) : words cs = [] ↔ ∀ c ∈ cs, isBlank c = true := by
  induction cs with
  | nil => simp
  | cons c cs ih =>
    by_cases h : isBlank c = true
    · simp [h, ih]
    · simp [words, splitWords, h]

end LiveSwitch.Text
