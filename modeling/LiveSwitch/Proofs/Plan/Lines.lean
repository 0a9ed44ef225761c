import LiveSwitch.Plan.Session
import LiveSwitch.Proofs.Json.Reading
import LiveSwitch.Proofs.Outcome
import LiveSwitch.Proofs.Register.Storage
import LiveSwitch.Proofs.Text.Constants
import LiveSwitch.Proofs.Text.Words

/-!
# Plan texts read back

The bytes of a plan text are cut into the lines it was written from, and a line of tokens is cut
into its tokens.

## Main definitions

* `Command.Writes` — tokens that write a command.

## Main results

* `PlanText.planLines_text` — the lines of a plan text.
* `Command.tokens_intercalate`, `commandLine?_intercalate` — the tokens of a line.
-/

namespace LiveSwitch

/-! ### Lines -/

theorem splitLines_append {bs : List UInt8} (h : 10 ∉ bs) (rest : List UInt8) :
    splitLines (bs ++ 10 :: rest) = bs :: splitLines rest := by
  induction bs with
  | nil => rw [List.nil_append, splitLines, if_pos rfl]
  | cons b bs ih =>
    have hb : b ≠ 10 := fun heq => h (heq ▸ List.mem_cons_self)
    rw [List.cons_append, splitLines, if_neg hb, ih fun hmem => h (List.mem_cons_of_mem _ hmem)]

/-- The bytes of a text. -/
def utf8 (cs : List Char) : List UInt8 := cs.flatMap String.utf8EncodeChar

theorem toList_toUTF8 (s : String) : s.toUTF8.data.toList = utf8 s.toList := by
  rw [String.toUTF8_eq_toByteArray, ← String.utf8Encode_toList, List.utf8Encode,
    List.data_toByteArray, utf8]

/-- No byte of a longer character looks like a line feed. -/
theorem newline_of_mem_utf8EncodeChar {c : Char} (h : 10 ∈ String.utf8EncodeChar c) : c = '\n' := by
  have hne : ∀ m : Nat, 128 ≤ m → m < 256 → (10 : UInt8) ≠ UInt8.ofNat m := by
    intro m hm hm' heq
    have hval := congrArg UInt8.toNat heq
    rw [UInt8.toNat_ofNat'] at hval
    have hten : (10 : UInt8).toNat = 10 := rfl
    omega
  unfold String.utf8EncodeChar at h
  dsimp only at h
  split at h
  case isTrue hle =>
    have hval := congrArg UInt8.toNat (List.mem_singleton.mp h)
    rw [UInt8.toNat_ofNat'] at hval
    have hten : (10 : UInt8).toNat = 10 := rfl
    have hcode : c.toNat = '\n'.toNat := by
      show c.val.toNat = 10
      omega
    exact Char.toNat_inj.mp hcode
  case isFalse =>
    -- every byte of a longer character is at least 128
    exfalso
    split at h
    · simp only [List.mem_cons, List.not_mem_nil, or_false] at h
      rcases h with h | h <;> exact hne _ (by omega) (by omega) h
    split at h
    · simp only [List.mem_cons, List.not_mem_nil, or_false] at h
      rcases h with h | h | h <;> exact hne _ (by omega) (by omega) h
    · simp only [List.mem_cons, List.not_mem_nil, or_false] at h
      rcases h with h | h | h | h <;> exact hne _ (by omega) (by omega) h

theorem newline_not_mem_utf8 {cs : List Char} (h : '\n' ∉ cs) : 10 ∉ utf8 cs := by
  intro hmem
  obtain ⟨c, hc, hten⟩ := List.mem_flatMap.mp hmem
  exact h (newline_of_mem_utf8EncodeChar hten ▸ hc)

theorem lineText?_utf8 (s : String) : lineText? (utf8 s.toList) = some s := by
  rw [← toList_toUTF8, lineText?]
  exact Json.Value.fromUTF8?_toUTF8 s

namespace PlanText

theorem toList_text {lines : List String} (h : lines ≠ []) :
    (text ⟨lines⟩).toList = lines.flatMap fun l => l.toList ++ ['\n'] := by
  have hend : "\n".toList = ['\n'] := rfl
  rw [text, String.toList_append, hend]
  induction lines with
  | nil => exact absurd rfl h
  | cons l ls ih =>
    cases ls with
    | nil =>
      rw [String.intercalate_singleton, List.flatMap_singleton]
    | cons k ks =>
      rw [String.intercalate_cons_cons, String.toList_append, String.toList_append, hend,
        List.append_assoc, ih (List.cons_ne_nil _ _)]
      rfl

/-- A plan text is cut into its lines. -/
theorem planLines_text {p : PlanText} (hne : p.lines ≠ []) (h : ∀ l ∈ p.lines, '\n' ∉ l.toList) :
    (FileContent.ofText p.text).planLines = p.lines.map some := by
  obtain ⟨lines⟩ := p
  have hsplit : ∀ ls : List String, (∀ l ∈ ls, '\n' ∉ l.toList) →
      splitLines (utf8 (ls.flatMap fun l => l.toList ++ ['\n'])) =
        ls.map fun l => utf8 l.toList := by
    intro ls
    induction ls with
    | nil => intro _; rfl
    | cons l ls ih =>
      intro hls
      have hbytes : utf8 ((l :: ls).flatMap fun l => l.toList ++ ['\n']) =
          utf8 l.toList ++ 10 :: utf8 (ls.flatMap fun l => l.toList ++ ['\n']) := by
        rw [List.flatMap_cons, List.append_assoc, utf8, List.flatMap_append]
        rfl
      rw [hbytes, splitLines_append (newline_not_mem_utf8 (hls l List.mem_cons_self)),
        ih fun k hk => hls k (List.mem_cons_of_mem _ hk)]
      rfl
  rw [FileContent.ofText, FileContent.planLines, LiveSwitch.planLines, toList_toUTF8,
    toList_text hne, hsplit lines h, List.map_map]
  exact List.map_congr_left fun l _ => lineText?_utf8 l

end PlanText

/-! ### Tokens -/

theorem toList_intercalate_space (ts : List String) :
    (" ".intercalate ts).toList = Text.joined (ts.map String.toList) := by
  have hspace : " ".toList = [' '] := rfl
  induction ts with
  | nil => rfl
  | cons t ts ih =>
    cases ts with
    | nil => rw [String.intercalate_singleton]; rfl
    | cons u us =>
      rw [String.intercalate_cons_cons, String.toList_append, String.toList_append, hspace, ih,
        List.append_assoc]
      rfl

theorem isWord_map {ts : List String} (h : ∀ t ∈ ts, Text.IsWord t.toList) :
    ∀ w ∈ ts.map String.toList, Text.IsWord w := by
  intro w hw
  obtain ⟨t, ht, rfl⟩ := List.mem_map.mp hw
  exact h t ht

/-- Tokens with a space between them are cut into the same tokens. -/
theorem Command.tokens_intercalate {ts : List String} (h : ∀ t ∈ ts, Text.IsWord t.toList) :
    tokens (" ".intercalate ts) = ts := by
  rw [tokens, toList_intercalate_space, Text.words_joined (isWord_map h), List.map_map]
  exact (List.map_congr_left fun t _ => String.ofList_toList).trans (List.map_id ts)

/-- A line of tokens is a command, unless it starts like a comment. -/
theorem commandLine?_intercalate {t : String} {ts : List String}
    (h : ∀ u ∈ t :: ts, Text.IsWord u.toList) (hcomment : t.toList.head? ≠ some '#') :
    commandLine? (" ".intercalate (t :: ts)) = some (" ".intercalate (t :: ts)) := by
  obtain ⟨c, cs, hc⟩ := List.exists_cons_of_ne_nil (h t List.mem_cons_self).1
  obtain ⟨rest, hline⟩ : ∃ rest, (" ".intercalate (t :: ts)).toList = c :: rest := by
    rw [toList_intercalate_space, List.map_cons, hc]
    cases ts with
    | nil => exact ⟨cs, rfl⟩
    | cons u us => exact ⟨_, rfl⟩
  have htrim : Text.trim (" ".intercalate (t :: ts)).toList = c :: rest := by
    rw [toList_intercalate_space, Text.trim_joined (isWord_map h), ← toList_intercalate_space,
      hline]
  have hne : c ≠ '#' := by
    rintro rfl
    exact hcomment (by rw [hc]; rfl)
  unfold commandLine?
  rw [htrim]
  split
  case h_1 heq => cases heq
  case h_2 heq => exact absurd (List.cons.inj heq).1 hne
  case h_3 => rw [← hline, String.ofList_toList]

namespace Command

theorem after?_append (head s : String) : after? head (head ++ s) = some s := by
  have hprefix : head.toList.isPrefixOf (head ++ s).toList = true := by
    rw [String.toList_append]
    exact List.isPrefixOf_iff_prefix.mpr (List.prefix_append _ _)
  rw [after?, if_pos hprefix, String.toList_append, ← String.length_toList, List.drop_left,
    String.ofList_toList]

theorem reference_old (name : String) : reference ("old_" ++ name) = .ok (.old name) := by
  rw [reference, after?_append]

theorem isWord_append {s t : String} (hs : Text.IsWord s.toList)
    (ht : ∀ c ∈ t.toList, Text.isBlank c = false) : Text.IsWord (s ++ t).toList := by
  rw [String.toList_append]
  refine ⟨fun hnil => hs.1 (List.append_eq_nil_iff.mp hnil).1, fun c hc => ?_⟩
  rcases List.mem_append.mp hc with hc | hc
  · exact hs.2 c hc
  · exact ht c hc

theorem isWord_toString (n : Nat) : Text.IsWord (toString n).toList := by
  have hlist : (toString n).toList = Nat.toDigits 10 n := String.toList_ofList
  rw [hlist]
  refine ⟨Nat.toDigits_ne_nil, fun c hc => ?_⟩
  have hdigit := Nat.isDigit_of_mem_toDigits (by decide) (by decide) hc
  rw [Char.isDigit, Bool.and_eq_true, decide_eq_true_eq, decide_eq_true_eq] at hdigit
  have hlow : 48 ≤ c.toNat := UInt32.le_iff_toNat_le.mp hdigit.1
  have hhigh : c.toNat ≤ 57 := UInt32.le_iff_toNat_le.mp hdigit.2
  simp [Text.isBlank]
  omega

theorem isWord_name (a : HashAlgorithm) : Text.IsWord a.name.toList := by
  cases a <;> decide

theorem hashName_name (a : HashAlgorithm) : hashName a.name = .ok a := by
  rw [hashName, HashAlgorithm.ofName?_name]

/-- Tokens that write a command. -/
structure Writes (ts : List String) (c : Command) : Prop where
  words : ∀ t ∈ ts, Text.IsWord t.toList
  verb : ∃ t ∈ ts.head?, t.toList.head? ≠ some '#'
  parse : Command.parse (" ".intercalate ts) = .ok c

/-- A line that writes a command is no comment. -/
theorem Writes.commandLine?_eq {ts : List String} {c : Command} (h : Writes ts c) :
    commandLine? (" ".intercalate ts) = some (" ".intercalate ts) := by
  obtain ⟨t, ht, hcomment⟩ := h.verb
  cases ts with
  | nil => cases ht
  | cons u us =>
    cases ht
    exact commandLine?_intercalate h.words hcomment

theorem Writes.newline_not_mem {ts : List String} {c : Command} (h : Writes ts c) :
    '\n' ∉ (" ".intercalate ts).toList := by
  rw [toList_intercalate_space]
  intro hmem
  rcases Text.mem_joined (isWord_map h.words) hmem with heq | hblank
  · exact absurd heq (by decide)
  · exact absurd hblank (by decide)

end Command

end LiveSwitch
