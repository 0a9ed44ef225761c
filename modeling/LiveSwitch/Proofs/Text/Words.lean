import LiveSwitch.Text.Blank
import Mathlib.Data.List.Basic
import Mathlib.Data.List.TakeWhile

/-!
# Words read back

Words with a blank between them are cut into the same words, and nothing is trimmed off them.

## Main definitions

* `Text.IsWord` — a text that is one word.
* `Text.joined` — words with a space between them.
* `Text.Layout` — a text that consists of words and of blanks around them.

## Main results

* `Text.words_joined`, `Text.trim_joined` — cutting and trimming.
* `Text.trim_of_blank`, `Text.exists_trim_cons` — trimming what is not made of words.
* `Text.words_trim`, `Text.trim_cases` — trimming leaves the words, and the first character of a
  trimmed text is that of its first word.
* `Text.words_eq_iff_layout` — a text has the words that it is a layout of.
-/

namespace LiveSwitch.Text

/-- A text that is one word: it is not empty and holds no blank. -/
def IsWord (w : List Char) : Prop := w ≠ [] ∧ ∀ c ∈ w, isBlank c = false

-- the characters of a word are tested, not all characters
instance (w : List Char) : Decidable (IsWord w) :=
  haveI : Decidable (∀ c ∈ w, isBlank c = false) := List.decidableBAll _ w
  instDecidableAnd

/-- Words with a space between them. -/
def joined : List (List Char) → List Char
  | [] => []
  | [w] => w
  | w :: v :: ws => w ++ ' ' :: joined (v :: ws)

theorem splitWords_append {w : List Char} (h : ∀ c ∈ w, isBlank c = false) (cs : List Char) :
    splitWords (w ++ cs) = (w ++ (splitWords cs).1, (splitWords cs).2) := by
  induction w with
  | nil => rfl
  | cons c w ih =>
    have hc := h c List.mem_cons_self
    rw [List.cons_append, splitWords, ih fun d hd => h d (List.mem_cons_of_mem _ hd)]
    simp [hc]

theorem words_append_blank {w : List Char} (h : IsWord w) {c : Char} (hc : isBlank c = true)
    (cs : List Char) : words (w ++ c :: cs) = w :: words cs := by
  obtain ⟨hne, hw⟩ := h
  rw [words, splitWords_append hw, splitWords]
  simp [hc, hne, words]

theorem words_of_isWord {w : List Char} (h : IsWord w) : words w = [w] := by
  obtain ⟨hne, hw⟩ := h
  have hsplit := splitWords_append hw []
  rw [List.append_nil] at hsplit
  rw [words, hsplit]
  simp [splitWords, hne]

/-- Words with a space between them are cut into the same words. -/
theorem words_joined {ws : List (List Char)} (h : ∀ w ∈ ws, IsWord w) : words (joined ws) = ws := by
  induction ws with
  | nil => rfl
  | cons w ws ih =>
    have hw := h w List.mem_cons_self
    cases ws with
    | nil => exact words_of_isWord hw
    | cons v ws =>
      rw [joined, words_append_blank hw rfl, ih fun u hu => h u (List.mem_cons_of_mem _ hu)]

theorem trimLeft_cons {c : Char} (h : isBlank c = false) (cs : List Char) :
    trimLeft (c :: cs) = c :: cs := by
  rw [trimLeft, List.dropWhile_cons, h]
  rfl

theorem trimLeft_of_head {cs : List Char} (h : ∀ c ∈ cs.head?, isBlank c = false) :
    trimLeft cs = cs := by
  cases cs with
  | nil => rfl
  | cons c cs => exact trimLeft_cons (h c rfl) cs

theorem head?_joined {ws : List (List Char)} (h : ∀ w ∈ ws, IsWord w) :
    ∀ c ∈ (joined ws).head?, isBlank c = false := by
  have hhead : ∀ w : List Char, IsWord w → ∀ cs, ∀ c ∈ (w ++ cs).head?, isBlank c = false := by
    rintro w ⟨hne, hw⟩ cs c hc
    rw [List.head?_append_of_ne_nil _ hne] at hc
    exact hw c (List.mem_of_mem_head? hc)
  match ws with
  | [] => nofun
  | [w] =>
    have hw := hhead w (h w List.mem_cons_self) []
    rwa [List.append_nil] at hw
  | w :: v :: ws => exact hhead w (h w List.mem_cons_self) _

theorem getLast?_joined {ws : List (List Char)} (h : ∀ w ∈ ws, IsWord w) :
    ∀ c ∈ (joined ws).getLast?, isBlank c = false := by
  induction ws with
  | nil => nofun
  | cons w ws ih =>
    cases ws with
    | nil =>
      intro c hc
      exact (h w List.mem_cons_self).2 c (List.mem_of_mem_getLast? hc)
    | cons v ws =>
      have hv := h v (List.mem_cons_of_mem _ List.mem_cons_self)
      have hne : joined (v :: ws) ≠ [] := by
        cases ws with
        | nil => exact hv.1
        | cons u us =>
          intro hnil
          exact hv.1 (List.append_eq_nil_iff.mp hnil).1
      have hne' : ' ' :: joined (v :: ws) ≠ [] := List.cons_ne_nil _ _
      intro c hc
      rw [joined, List.getLast?_append_of_ne_nil _ hne',
        ← List.singleton_append, List.getLast?_append_of_ne_nil _ hne] at hc
      exact ih (fun u hu => h u (List.mem_cons_of_mem _ hu)) c hc

/-- Words with a space between them have no blank at either end. -/
theorem trim_joined {ws : List (List Char)} (h : ∀ w ∈ ws, IsWord w) :
    trim (joined ws) = joined ws := by
  have hlast : ∀ c ∈ (joined ws).reverse.head?, isBlank c = false := by
    rw [List.head?_reverse]
    exact getLast?_joined h
  rw [trim, trimLeft_of_head (head?_joined h), trimLeft_of_head hlast, List.reverse_reverse]

/-- A text of blanks is trimmed away. -/
theorem trim_of_blank {cs : List Char} (h : ∀ c ∈ cs, isBlank c = true) : trim cs = [] := by
  have hnil : trimLeft cs = [] := List.dropWhile_eq_nil_iff.mpr h
  rw [trim, hnil]
  rfl

/-- What starts with a character that is no blank still does when it is trimmed. -/
theorem exists_trim_cons {c : Char} (h : isBlank c = false) (cs : List Char) :
    ∃ rest, trim (c :: cs) = c :: rest := by
  have hlast : [c].dropWhile isBlank = [c] := trimLeft_cons h []
  rw [trim, trimLeft_cons h, trimLeft, List.reverse_cons, List.dropWhile_append, hlast]
  split
  · exact ⟨[], rfl⟩
  · exact ⟨_, List.reverse_append⟩

/-- The only blanks between words are the spaces that were put there. -/
theorem mem_joined {ws : List (List Char)} (h : ∀ w ∈ ws, IsWord w) {c : Char}
    (hc : c ∈ joined ws) : c = ' ' ∨ isBlank c = false := by
  induction ws with
  | nil => cases hc
  | cons w ws ih =>
    have hw := (h w List.mem_cons_self).2
    cases ws with
    | nil => exact Or.inr (hw c hc)
    | cons v vs =>
      rcases List.mem_append.mp hc with hc | hc
      · exact Or.inr (hw c hc)
      · rcases List.mem_cons.mp hc with rfl | hc
        · exact Or.inl rfl
        · exact ih (fun u hu => h u (List.mem_cons_of_mem _ hu)) hc

/-! ### The words of a trimmed text -/

/-- Blanks behind a text add no word. -/
theorem words_append_blanks {blanks : List Char} (h : ∀ c ∈ blanks, isBlank c = true)
    (cs : List Char) : words (cs ++ blanks) = words cs := by
  have hblanks : splitWords blanks = ([], []) := by
    induction blanks with
    | nil => rfl
    | cons c blanks ih =>
      have hc := h c List.mem_cons_self
      rw [splitWords, ih fun d hd => h d (List.mem_cons_of_mem _ hd)]
      simp [hc]
  have hsplit : splitWords (cs ++ blanks) = splitWords cs := by
    induction cs with
    | nil => exact hblanks
    | cons c cs ih => rw [List.cons_append, splitWords, splitWords, ih]
  rw [words, words, hsplit]

/-- Blanks ahead of a text add no word. -/
theorem words_blanks_append {blanks : List Char} (h : ∀ c ∈ blanks, isBlank c = true)
    (cs : List Char) : words (blanks ++ cs) = words cs := by
  induction blanks with
  | nil => rfl
  | cons c blanks ih =>
    rw [List.cons_append, words_cons_blank (h c List.mem_cons_self)]
    exact ih fun d hd => h d (List.mem_cons_of_mem _ hd)

theorem words_trimLeft (cs : List Char) : words (trimLeft cs) = words cs := by
  have hcs : words (cs.takeWhile isBlank ++ trimLeft cs) = words (trimLeft cs) :=
    words_blanks_append (fun _ => List.mem_takeWhile_imp) _
  rw [trimLeft, List.takeWhile_append_dropWhile] at hcs
  exact hcs.symm

/-- Trimming a text leaves its words. -/
theorem words_trim (cs : List Char) : words (trim cs) = words cs := by
  have hback : trimLeft cs =
      trim cs ++ ((trimLeft cs).reverse.takeWhile isBlank).reverse := by
    rw [trim, ← List.reverse_append, trimLeft.eq_1 (trimLeft cs).reverse,
      List.takeWhile_append_dropWhile, List.reverse_reverse]
  have hwords : words (trimLeft cs) = words (trim cs) := by
    rw [hback]
    refine words_append_blanks (fun c hc => ?_) _
    exact List.mem_takeWhile_imp (List.mem_reverse.mp hc)
  rw [← hwords, words_trimLeft]

theorem exists_words_cons {c : Char} (h : isBlank c = false) (cs : List Char) :
    ∃ w ws, words (c :: cs) = (c :: w) :: ws := by
  refine ⟨(splitWords cs).1, (splitWords cs).2, ?_⟩
  simp [words, splitWords, h]

/-- A text is trimmed away if it has no word, and otherwise starts with its first word once it is
trimmed. -/
theorem trim_cases (cs : List Char) :
    trim cs = [] ∧ words cs = [] ∨
      ∃ c rest w ws, trim cs = c :: rest ∧ words cs = (c :: w) :: ws := by
  rw [← words_trimLeft]
  cases hleft : trimLeft cs with
  | nil =>
    left
    rw [trim, hleft]
    exact ⟨rfl, rfl⟩
  | cons c rest =>
    right
    have hc : isBlank c = false := by
      have hhead := List.head?_dropWhile_not isBlank cs
      rw [← trimLeft, hleft] at hhead
      exact hhead
    obtain ⟨rest', hrest⟩ := exists_trim_cons hc rest
    obtain ⟨w, ws, hw⟩ := exists_words_cons hc rest
    rw [trim, trimLeft_cons hc] at hrest
    refine ⟨c, rest', w, ws, ?_, hw⟩
    rw [trim, hleft, hrest]

/-! ### Words and the blanks around them -/

/-- A text consists of words, with blanks of any kind ahead of and behind them and at least one
blank between two of them. -/
inductive Layout : List (List Char) → List Char → Prop where
  | blanks {cs : List Char} (h : ∀ c ∈ cs, isBlank c = true) : Layout [] cs
  | word {lead w rest : List Char} {ws : List (List Char)} (hlead : ∀ c ∈ lead, isBlank c = true)
    (hw : IsWord w) (hsep : ∀ c ∈ rest.head?, isBlank c = true) (h : Layout ws rest) :
    Layout (w :: ws) (lead ++ (w ++ rest))

theorem Layout.cons_blank {ws : List (List Char)} {cs : List Char} (h : Layout ws cs) {c : Char}
    (hc : isBlank c = true) : Layout ws (c :: cs) := by
  cases h with
  | blanks h => exact .blanks (List.forall_mem_cons.mpr ⟨hc, h⟩)
  | word hlead hw hsep h => exact .word (List.forall_mem_cons.mpr ⟨hc, hlead⟩) hw hsep h

theorem Layout.words_eq {ws : List (List Char)} {cs : List Char} (h : Layout ws cs) :
    words cs = ws := by
  induction h with
  | blanks h => exact (words_eq_nil_iff _).mpr h
  | @word lead w rest ws hlead hw hsep _ ih =>
    rw [words_blanks_append hlead]
    cases rest with
    | nil => rw [List.append_nil, words_of_isWord hw, ← ih, words_nil]
    | cons c rest =>
      have hc := hsep c rfl
      rw [words_append_blank hw hc, ← ih, words_cons_blank hc]

/-- A run of characters that are no blanks is a word, unless it is empty. -/
theorem Layout.prepend {w rest : List Char} {ws : List (List Char)}
    (hw : ∀ c ∈ w, isBlank c = false) (hsep : ∀ c ∈ rest.head?, isBlank c = true)
    (h : Layout ws rest) : Layout (if w.isEmpty then ws else w :: ws) (w ++ rest) := by
  cases w with
  | nil => exact h
  | cons c w => exact .word (List.forall_mem_nil _) ⟨List.cons_ne_nil c w, hw⟩ hsep h

/-- Behind the leading word of a text comes a layout of the other words. -/
theorem exists_layout_splitWords (cs : List Char) :
    ∃ rest, cs = (splitWords cs).1 ++ rest ∧ (∀ c ∈ rest.head?, isBlank c = true) ∧
      Layout (splitWords cs).2 rest := by
  induction cs with
  | nil => exact ⟨[], rfl, nofun, .blanks nofun⟩
  | cons c cs ih =>
    obtain ⟨rest, hcs, hsep, hrest⟩ := ih
    have hword := (not_isBlank_of_mem_splitWords cs).1
    rw [splitWords]
    dsimp only
    cases hc : isBlank c with
    | false =>
      rw [if_neg Bool.false_ne_true]
      exact ⟨rest, congrArg (c :: ·) hcs, hsep, hrest⟩
    | true =>
      rw [if_pos rfl]
      have hlayout := hrest.prepend hword hsep
      rw [← hcs] at hlayout
      exact ⟨c :: cs, rfl, fun d hd => Option.some.inj hd ▸ hc, hlayout.cons_blank hc⟩

/-- A text has just the words that it consists of. -/
theorem words_eq_iff_layout {ws : List (List Char)} {cs : List Char} :
    words cs = ws ↔ Layout ws cs := by
  refine ⟨?_, Layout.words_eq⟩
  rintro rfl
  obtain ⟨rest, hcs, hsep, hrest⟩ := exists_layout_splitWords cs
  have hlayout := hrest.prepend (not_isBlank_of_mem_splitWords cs).1 hsep
  rw [← hcs] at hlayout
  exact hlayout

end LiveSwitch.Text
