import LiveSwitch.Proofs.Plan.Lines
import LiveSwitch.Proofs.Text.Numerals

/-!
# The grammar of commands

A command is a verb, a kind and the tokens that these two ask for.  The checks of a line come in
stages: first the shape of every token, then the prefixes of the references, then the names of the
hash algorithms.  The first stage that a line does not pass decides the result code.

## Main definitions

* `Command.Part`, `Command.parts` — what stands after a verb and a kind.
* `Graded` — a computation that checks in stages.
* `Command.Spelled` — the tokens of a command.
* `Command.Misshapen`, `Command.ForeignRehash`, `Command.Unprefixed`, `Command.Unhashed` — the lines
  that fail a stage.

## Main results

* `Command.graded_ofTokens` — the stages of a line.
* `Command.parse_eq_ok_iff` — a line is read as the command that its tokens spell.
* `Command.parse_classified` — the result code of every line.
-/

namespace LiveSwitch

open ReconfigError

namespace Command

/-! ### Parts -/

/-- What stands at one place of a command. -/
inductive Part where
  /-- Any token: the name of a pipeline or the slot of a table. -/
  | any
  | flag (word : String)
  | branch
  | size
  | bitwidth
  /-- The name of an object to be inserted. -/
  | newName
  | reference
  /-- The target of an edge. -/
  | target
  | hash
  deriving DecidableEq, Repr

namespace Part

/-- A token has the shape of a part. -/
def Shaped : Part → String → Prop
  | flag word, token => token = word
  | branch, token => token = "true_next" ∨ token = "false_next"
  | size, token => ∃ n, Text.IsNumeral 10 token.toList n ∧ 1 ≤ n ∧ n ≤ Register.maxSize
  | bitwidth, token => ∃ n, Text.IsNumeral 10 token.toList n ∧ 1 ≤ n ∧ n ≤ Register.maxBitwidth
  | any, _ | newName, _ | reference, _ | target, _ | hash, _ => True

/-- A token has the prefix that a part requires. -/
def Prefixed : Part → String → Prop
  | newName, token => ∃ name, token = "new_" ++ name
  | reference, token => ∃ name, token = "old_" ++ name ∨ token = "new_" ++ name
  | target, token => token = "null" ∨ ∃ name, token = "old_" ++ name ∨ token = "new_" ++ name
  | any, _ | flag _, _ | branch, _ | size, _ | bitwidth, _ | hash, _ => True

/-- A token names a hash algorithm where a part requires one. -/
def Hashed : Part → String → Prop
  | hash, token => ∃ h : HashAlgorithm, token = h.name
  | _, _ => True

end Part

/-- What stands after a verb and a kind. -/
def parts : String → String → Option (List Part)
  | "insert", "cond" => some [.any, .newName]
  | "insert", "flex" => some [.any, .newName, .target, .target]
  | "change", "cond" | "change", "flex" => some [.any, .reference, .branch, .target]
  | "delete", "cond" | "delete", "flex" => some [.any, .reference]
  | "insert", "tabl" => some [.any, .newName]
  | "change", "tabl" => some [.any, .reference, .any, .target]
  | "delete", "tabl" => some [.any, .reference]
  | "insert", "register_array" => some [.newName, .size, .bitwidth]
  | "change", "register_array_size" => some [.reference, .size]
  | "change", "register_array_bitwidth" => some [.reference, .bitwidth]
  | "delete", "register_array" => some [.reference]
  | "rehash", "register_array" => some [.reference, .flag accordingTo, .reference, .reference,
      .reference, .flag countingHashFlag, .hash, .flag targetHashFlag, .hash, .hash, .hash,
      .flag resetFlag, .reference]
  | _, _ => none

end Command

/-! ### Checks in stages -/

theorem exists_ok_iff_codeOf {α : Type} (x : Except ReconfigError α) :
    (∃ a, x = .ok a) ↔ codeOf x = .success := by
  cases x with
  | error e => exact ⟨nofun, fun h => absurd h e.code_ne_success⟩
  | ok a => exact ⟨fun _ => rfl, fun _ => ⟨a, rfl⟩⟩

/-- A computation checks the shape first, then the prefixes, then the hash algorithms. -/
structure Graded {α : Type} (x : Except ReconfigError α) (shaped prefixed hashed : Prop) :
    Prop where
  misshapen : ¬shaped → codeOf x = .invalidCommandError
  unprefixed : shaped → ¬prefixed → codeOf x = .prefixError
  unhashed : shaped → prefixed → ¬hashed → codeOf x = .invalidHashNameError
  accepted : shaped → prefixed → hashed → codeOf x = .success

namespace Graded

variable {α β : Type} {x : Except ReconfigError α} {f : α → Except ReconfigError β}
  {S S' P P' H H' : Prop}

theorem congr (hx : Graded x S P H) (hS : S ↔ S') (hP : P ↔ P') (hH : H ↔ H') :
    Graded x S' P' H' := by
  rwa [← propext hS, ← propext hP, ← propext hH]

theorem pure (a : α) : Graded (.ok a) True True True :=
  ⟨fun h => absurd trivial h, fun _ h => absurd trivial h, fun _ _ h => absurd trivial h,
    fun _ _ _ => rfl⟩

/-- A shape that is wrong decides. -/
theorem refused (h : codeOf x = .invalidCommandError) (hS : ¬S) : Graded x S P H :=
  ⟨fun _ => h, fun hS' => absurd hS' hS, fun hS' => absurd hS' hS, fun hS' => absurd hS' hS⟩

/-- The shape of a token is checked ahead of everything else. -/
theorem bind_shaped (hx : Graded x S True True) (hf : ∀ a, Graded (f a) S' P H) :
    Graded (x >>= f) (S ∧ S') P H := by
  cases x with
  | error e =>
    have hS : ¬S := fun hS => e.code_ne_success (hx.accepted hS trivial trivial)
    exact refused (hx.misshapen hS) fun h => hS h.1
  | ok a =>
    have hS : S := by
      by_contra hS
      cases hx.misshapen hS
    rw [ok_bind, eq_true hS, true_and]
    exact hf a

/-- The prefix of a token is checked when there are no more shapes to check. -/
theorem bind_prefixed (hx : Graded x True P True) (hf : ∀ a, Graded (f a) True P' H) :
    Graded (x >>= f) True (P ∧ P') H := by
  cases x with
  | error e =>
    have hP : ¬P := fun hP => e.code_ne_success (hx.accepted trivial hP trivial)
    have hcode : codeOf (Except.error e >>= f) = .prefixError := hx.unprefixed trivial hP
    exact ⟨fun h => absurd trivial h, fun _ _ => hcode, fun _ h => absurd h.1 hP,
      fun _ h => absurd h.1 hP⟩
  | ok a =>
    have hP : P := by
      by_contra hP
      cases hx.unprefixed trivial hP
    rw [ok_bind, eq_true hP, true_and]
    exact hf a

/-- The names of hash algorithms are checked last. -/
theorem bind_hashed (hx : Graded x True True H) (hf : ∀ a, Graded (f a) True True H') :
    Graded (x >>= f) True True (H ∧ H') := by
  cases x with
  | error e =>
    have hH : ¬H := fun hH => e.code_ne_success (hx.accepted trivial trivial hH)
    have hcode : codeOf (Except.error e >>= f) = .invalidHashNameError :=
      hx.unhashed trivial trivial hH
    exact ⟨fun h => absurd trivial h, fun _ h => absurd trivial h, fun _ _ _ => hcode,
      fun _ _ h => absurd h.1 hH⟩
  | ok a =>
    have hH : H := by
      by_contra hH
      cases hx.unhashed trivial trivial hH
    rw [ok_bind, eq_true hH, true_and]
    exact hf a

/-- A check of the shape alone. -/
theorem of_shaped (hok : (∃ a, x = .ok a) ↔ S)
    (herror : ∀ e, x = .error e → e.code = .invalidCommandError) : Graded x S True True := by
  cases x with
  | error e => exact refused (herror e rfl) fun hS => nomatch hok.mpr hS
  | ok a => exact (pure a).congr (by simpa using hok) .rfl .rfl

/-- A check of a prefix alone. -/
theorem of_prefixed (hok : (∃ a, x = .ok a) ↔ P)
    (herror : ∀ e, x = .error e → e.code = .prefixError) : Graded x True P True := by
  cases x with
  | error e =>
    have hP : ¬P := fun hP => nomatch hok.mpr hP
    exact ⟨fun h => absurd trivial h, fun _ _ => herror e rfl, fun _ h => absurd h hP,
      fun _ h => absurd h hP⟩
  | ok a => exact (pure a).congr .rfl (by simpa using hok) .rfl

/-- A check of a hash algorithm alone. -/
theorem of_hashed (hok : (∃ a, x = .ok a) ↔ H)
    (herror : ∀ e, x = .error e → e.code = .invalidHashNameError) : Graded x True True H := by
  cases x with
  | error e =>
    have hH : ¬H := fun hH => nomatch hok.mpr hH
    exact ⟨fun h => absurd trivial h, fun _ h => absurd trivial h, fun _ _ _ => herror e rfl,
      fun _ _ h => absurd h hH⟩
  | ok a => exact (pure a).congr .rfl .rfl (by simpa using hok)

end Graded

/-! ### Tokens -/

namespace TableSlot

/-- A slot that is named after an action is not one of the three that have names of their own. -/
def Proper : TableSlot → Prop
  | action name => name ≠ "base_default_next" ∧ name ≠ hitKey ∧ name ≠ missKey
  | baseDefault | hit | miss => True

/-- A slot is read from its own text. -/
theorem ofText_eq_iff {token : String} {slot : TableSlot} :
    ofText token = slot ↔ token = slot.text ∧ slot.Proper := by
  constructor
  · rintro rfl
    unfold ofText
    split
    · exact ⟨‹_›, trivial⟩
    split
    · exact ⟨‹_›, trivial⟩
    split
    · exact ⟨‹_›, trivial⟩
    · exact ⟨rfl, ‹_›, ‹_›, ‹_›⟩
  · rintro ⟨rfl, hproper⟩
    cases slot with
    | action name =>
      obtain ⟨hbase, hhit, hmiss⟩ := hproper
      rw [text, ofText, if_neg hbase, if_neg hhit, if_neg hmiss]
    | baseDefault | hit | miss => rfl

end TableSlot

namespace Command

theorem after?_eq_some_iff {head token name : String} :
    after? head token = some name ↔ token = head ++ name := by
  constructor
  · intro h
    rw [after?] at h
    split at h
    case isTrue hprefixed =>
      obtain ⟨rest, hrest⟩ := List.isPrefixOf_iff_prefix.mp hprefixed
      cases h
      apply String.toList_inj.mp
      rw [String.toList_append, String.toList_ofList, ← hrest, ← String.length_toList,
        List.drop_left]
    case isFalse => cases h
  · rintro rfl
    exact after?_append head name

theorem newName_eq_ok {token name : String} :
    newName token = .ok name ↔ token = "new_" ++ name := by
  rw [← after?_eq_some_iff, newName]
  split <;> rename_i h <;> rw [h] <;> simp

/-- No token has both prefixes. -/
theorem old_ne_new (m n : String) : "old_" ++ m ≠ "new_" ++ n := by
  intro h
  have hhead := congrArg (fun s : String => s.toList.head?) h
  rw [String.toList_append, String.toList_append] at hhead
  cases hhead

theorem null_ne_text (r : ObjectRef) : "null" ≠ r.text := by
  intro h
  have hlist := congrArg String.toList h
  cases r with
  | old name =>
    rw [ObjectRef.text, String.toList_append] at hlist
    cases hlist
  | new name =>
    rw [ObjectRef.text, String.toList_append] at hlist
    cases hlist

theorem reference_eq_ok {token : String} {r : ObjectRef} :
    reference token = .ok r ↔ token = r.text := by
  constructor
  · intro h
    unfold reference at h
    split at h
    case h_1 hold =>
      cases h
      exact after?_eq_some_iff.mp hold
    case h_2 hnew =>
      cases h
      exact after?_eq_some_iff.mp hnew
    case h_3 => cases h
  · rintro rfl
    cases r with
    | old name => exact reference_old name
    | new name =>
      have hnone : after? "old_" ("new_" ++ name) = none := by
        rw [Option.eq_none_iff_forall_ne_some]
        exact fun m hm => old_ne_new m name (after?_eq_some_iff.mp hm).symm
      rw [ObjectRef.text, reference, hnone, after?_append]

theorem edgeTarget_eq_ok {token : String} {target? : Option ObjectRef} :
    edgeTarget token = .ok target? ↔ token = PlanText.edgeToken target? := by
  unfold edgeTarget
  split
  case isTrue hnull =>
    subst hnull
    cases target? with
    | none => exact ⟨fun _ => rfl, fun _ => rfl⟩
    | some r => exact ⟨nofun, fun h => absurd h (null_ne_text r)⟩
  case isFalse hnull =>
    simp only [map_eq_ok, reference_eq_ok]
    cases target? with
    | none => exact ⟨nofun, fun h => absurd h hnull⟩
    | some r => exact ⟨fun ⟨_, h, heq⟩ => Option.some.inj heq ▸ h, fun h => ⟨r, h, rfl⟩⟩

theorem hashName_eq_ok {token : String} {h : HashAlgorithm} :
    hashName token = .ok h ↔ token = h.name := by
  constructor
  · intro heq
    unfold hashName at heq
    split at heq
    case h_1 a hfind =>
      cases heq
      rw [HashAlgorithm.ofName?] at hfind
      have hname := List.find?_some hfind
      exact (beq_iff_eq.mp hname).symm
    case h_2 => cases heq
  · rintro rfl
    exact hashName_name h

theorem branchName_eq_ok {line token : String} {b : Branch} :
    branchName line token = .ok b ↔ token = b.text := by
  constructor
  · intro h
    unfold branchName at h
    split at h
    case h_1 a hname =>
      cases h
      unfold Branch.ofText? at hname
      split at hname <;> cases hname <;> rfl
    case h_2 => cases h
  · rintro rfl
    rw [branchName, Branch.ofText?_text]

theorem sizeOf_eq_ok {line token : String} {n : Nat} :
    sizeOf line token = .ok n ↔ Text.IsNumeral 10 token.toList n ∧ Register.validSize n := by
  have hread : (Text.decimalBelow? UInt64.size token).filter Register.validSize = some n ↔
      Text.IsNumeral 10 token.toList n ∧ Register.validSize n := by
    rw [Option.filter_eq_some_iff, Text.decimalBelow?, Option.filter_eq_some_iff,
      Text.numeral?_eq_some_iff (by decide), decide_eq_true_eq]
    exact ⟨fun h => ⟨h.1.1, h.2⟩, fun h => ⟨⟨h.1, Register.lt_of_validSize h.2⟩, h.2⟩⟩
  rw [← hread, sizeOf]
  split <;> rename_i h <;> rw [h] <;> simp

theorem bitwidthOf_eq_ok {line token : String} {n : Nat} :
    bitwidthOf line token = .ok n ↔
      Text.IsNumeral 10 token.toList n ∧ Register.validBitwidth n := by
  have hread : (Text.decimalBelow? UInt32.size token).filter Register.validBitwidth = some n ↔
      Text.IsNumeral 10 token.toList n ∧ Register.validBitwidth n := by
    rw [Option.filter_eq_some_iff, Text.decimalBelow?, Option.filter_eq_some_iff,
      Text.numeral?_eq_some_iff (by decide), decide_eq_true_eq]
    exact ⟨fun h => ⟨h.1.1, h.2⟩, fun h => ⟨⟨h.1, Register.lt_of_validBitwidth h.2⟩, h.2⟩⟩
  rw [← hread, bitwidthOf]
  split <;> rename_i h <;> rw [h] <;> simp

theorem checkFlag_eq_ok {line flag token : String} {position : Nat} {u : Unit} :
    checkFlag line flag position token = .ok u ↔ token = flag := by
  unfold checkFlag
  split <;> simp [*]

variable (line token : String)

theorem graded_newName :
    Graded (newName token) True (Part.newName.Prefixed token) True := by
  refine .of_prefixed (exists_congr fun _ => newName_eq_ok) fun e h => ?_
  unfold newName at h
  split at h <;> cases h
  rfl

theorem graded_reference :
    Graded (reference token) True (Part.reference.Prefixed token) True := by
  refine .of_prefixed ⟨?_, ?_⟩ fun e h => ?_
  · rintro ⟨r, h⟩
    rw [reference_eq_ok] at h
    cases r with
    | old name => exact ⟨name, Or.inl h⟩
    | new name => exact ⟨name, Or.inr h⟩
  · rintro ⟨name, h | h⟩
    · exact ⟨.old name, reference_eq_ok.mpr h⟩
    · exact ⟨.new name, reference_eq_ok.mpr h⟩
  · unfold reference at h
    split at h <;> cases h
    rfl

theorem graded_edgeTarget :
    Graded (edgeTarget token) True (Part.target.Prefixed token) True := by
  unfold edgeTarget
  split
  case isTrue hnull => exact (Graded.pure none).congr .rfl (iff_of_true trivial (Or.inl hnull)) .rfl
  case isFalse hnull =>
    have hiff : Part.reference.Prefixed token ↔ Part.target.Prefixed token :=
      ⟨Or.inr, fun h => h.resolve_left hnull⟩
    refine Graded.congr ?_ .rfl hiff .rfl
    obtain ⟨hshape, hprefixed, hhash, hok⟩ := graded_reference token
    cases hr : reference token with
    | error e =>
      rw [hr] at hshape hprefixed hhash hok
      exact ⟨hshape, hprefixed, hhash, hok⟩
    | ok r =>
      rw [hr] at hshape hprefixed hhash hok
      exact ⟨hshape, hprefixed, hhash, hok⟩

theorem graded_hashName :
    Graded (hashName token) True True (Part.hash.Hashed token) := by
  refine .of_hashed (exists_congr fun _ => hashName_eq_ok) fun e h => ?_
  unfold hashName at h
  split at h <;> cases h
  rfl

theorem graded_branchName :
    Graded (branchName line token) (Part.branch.Shaped token) True True := by
  refine .of_shaped ⟨?_, ?_⟩ fun e h => ?_
  · rintro ⟨b, h⟩
    rw [branchName_eq_ok] at h
    cases b with
    | onTrue => exact Or.inl h
    | onFalse => exact Or.inr h
  · rintro (h | h)
    · exact ⟨.onTrue, branchName_eq_ok.mpr h⟩
    · exact ⟨.onFalse, branchName_eq_ok.mpr h⟩
  · unfold branchName at h
    split at h <;> cases h
    rfl

theorem graded_sizeOf : Graded (sizeOf line token) (Part.size.Shaped token) True True := by
  refine .of_shaped (exists_congr fun n => ?_) fun e h => ?_
  · rw [sizeOf_eq_ok, Register.validSize_iff]
    rfl
  · unfold sizeOf at h
    split at h <;> cases h
    rfl

theorem graded_bitwidthOf :
    Graded (bitwidthOf line token) (Part.bitwidth.Shaped token) True True := by
  refine .of_shaped (exists_congr fun n => ?_) fun e h => ?_
  · rw [bitwidthOf_eq_ok, Register.validBitwidth_iff]
    rfl
  · unfold bitwidthOf at h
    split at h <;> cases h
    rfl

theorem graded_checkFlag (flag : String) (position : Nat) :
    Graded (checkFlag line flag position token) ((Part.flag flag).Shaped token) True True := by
  refine .of_shaped ⟨fun ⟨_, h⟩ => checkFlag_eq_ok.mp h, fun h => ⟨(), checkFlag_eq_ok.mpr h⟩⟩
    fun e h => ?_
  unfold checkFlag at h
  split at h <;> cases h
  rfl

/-! ### Lines -/

variable {line} {verb kind : String} {ps : List Part} {args : List String}

/-- A wrong number of tokens decides. -/
theorem codeOf_of_length_ne (hps : parts verb kind = some ps) (hlength : ps.length ≠ args.length) :
    codeOf (ofTokens line verb kind args) = .invalidCommandError := by
  unfold ofTokens
  split
  -- the last two branches have no parts
  case h_15 | h_16 => unfold parts at hps; split at hps <;> grind
  all_goals
    cases hps
    split
    · exact absurd rfl hlength
    · rfl

/-- The stages of a command with the right number of tokens. -/
theorem graded_ofTokens (hps : parts verb kind = some ps) (hlength : ps.length = args.length) :
    Graded (ofTokens line verb kind args) (ps.Forall₂ Part.Shaped args)
      (ps.Forall₂ Part.Prefixed args) (ps.Forall₂ Part.Hashed args) := by
  unfold parts at hps
  split at hps <;> cases hps
  case h_1 | h_7 =>
    match args, hlength with
    | [_, name], _ =>
      refine Graded.congr (.bind_prefixed (graded_newName name) fun _ => .pure _) ?_ ?_ ?_ <;>
        simp [Part.Shaped, Part.Prefixed, Part.Hashed]
  case h_2 =>
    match args, hlength with
    | [_, name, falseNext, trueNext], _ =>
      refine Graded.congr (.bind_prefixed (graded_newName name) fun _ =>
        .bind_prefixed (graded_edgeTarget falseNext) fun _ =>
        .bind_prefixed (graded_edgeTarget trueNext) fun _ => .pure _) ?_ ?_ ?_ <;>
        simp [Part.Shaped, Part.Prefixed, Part.Hashed]
  case h_3 | h_4 =>
    match args, hlength with
    | [_, node, branch, target], _ =>
      refine Graded.congr (.bind_shaped (graded_branchName line branch) fun _ =>
        .bind_prefixed (graded_reference node) fun _ =>
        .bind_prefixed (graded_edgeTarget target) fun _ => .pure _) ?_ ?_ ?_ <;>
        simp [Part.Shaped, Part.Prefixed, Part.Hashed]
  case h_5 | h_6 | h_9 =>
    match args, hlength with
    | [_, node], _ =>
      refine Graded.congr (.bind_prefixed (graded_reference node) fun _ => .pure _) ?_ ?_ ?_ <;>
        simp [Part.Shaped, Part.Prefixed, Part.Hashed]
  case h_8 =>
    match args, hlength with
    | [_, node, _, target], _ =>
      refine Graded.congr (.bind_prefixed (graded_reference node) fun _ =>
        .bind_prefixed (graded_edgeTarget target) fun _ => .pure _) ?_ ?_ ?_ <;>
        simp [Part.Shaped, Part.Prefixed, Part.Hashed]
  case h_10 =>
    match args, hlength with
    | [name, size, bitwidth], _ =>
      refine Graded.congr (.bind_shaped (graded_sizeOf line size) fun _ =>
        .bind_shaped (graded_bitwidthOf line bitwidth) fun _ =>
        .bind_prefixed (graded_newName name) fun _ => .pure _) ?_ ?_ ?_ <;>
        simp [Part.Shaped, Part.Prefixed, Part.Hashed]
  case h_11 =>
    match args, hlength with
    | [array, size], _ =>
      refine Graded.congr (.bind_shaped (graded_sizeOf line size) fun _ =>
        .bind_prefixed (graded_reference array) fun _ => .pure _) ?_ ?_ ?_ <;>
        simp [Part.Shaped, Part.Prefixed, Part.Hashed]
  case h_12 =>
    match args, hlength with
    | [array, bitwidth], _ =>
      refine Graded.congr (.bind_shaped (graded_bitwidthOf line bitwidth) fun _ =>
        .bind_prefixed (graded_reference array) fun _ => .pure _) ?_ ?_ ?_ <;>
        simp [Part.Shaped, Part.Prefixed, Part.Hashed]
  case h_13 =>
    match args, hlength with
    | [array], _ =>
      refine Graded.congr (.bind_prefixed (graded_reference array) fun _ => .pure _) ?_ ?_ ?_ <;>
        simp [Part.Shaped, Part.Prefixed, Part.Hashed]
  case h_14 =>
    match args, hlength with
    | [target, f₁, recording, lastPos, counting, f₂, countingHash, f₃, h₁, h₂, h₃, f₄, reset], _ =>
      refine Graded.congr (.bind_shaped (graded_checkFlag line f₁ accordingTo 3) fun _ =>
        .bind_shaped (graded_checkFlag line f₂ countingHashFlag 7) fun _ =>
        .bind_shaped (graded_checkFlag line f₃ targetHashFlag 9) fun _ =>
        .bind_shaped (graded_checkFlag line f₄ resetFlag 13) fun _ =>
        .bind_prefixed (graded_reference target) fun _ =>
        .bind_prefixed (graded_reference recording) fun _ =>
        .bind_prefixed (graded_reference lastPos) fun _ =>
        .bind_prefixed (graded_reference counting) fun _ =>
        .bind_prefixed (graded_reference reset) fun _ =>
        .bind_hashed (graded_hashName countingHash) fun _ =>
        .bind_hashed (graded_hashName h₁) fun _ => .bind_hashed (graded_hashName h₂) fun _ =>
        .bind_hashed (graded_hashName h₃) fun _ =>
        .pure _) ?_ ?_ ?_ <;>
        simp [Part.Shaped, Part.Prefixed, Part.Hashed]

/-- Tokens spell a command: each field of the command stands in its place, behind its prefix. -/
inductive Spelled : List String → Command → Prop where
  | insertConditional (pipeline name : String) :
    Spelled ["insert", "cond", pipeline, "new_" ++ name] (.insertConditional pipeline name)
  | insertFlex (pipeline name : String) (falseNext trueNext : Option ObjectRef) :
    Spelled ["insert", "flex", pipeline, "new_" ++ name, PlanText.edgeToken falseNext,
      PlanText.edgeToken trueNext] (.insertFlex pipeline name falseNext trueNext)
  | changeConditional {kind : String} (hkind : kind = "cond" ∨ kind = "flex") (pipeline : String)
      (node : ObjectRef) (branch : Branch) (target : Option ObjectRef) :
    Spelled ["change", kind, pipeline, node.text, branch.text, PlanText.edgeToken target]
      (.changeConditional pipeline node branch target)
  | deleteConditional {kind : String} (hkind : kind = "cond" ∨ kind = "flex") (pipeline : String)
      (node : ObjectRef) :
    Spelled ["delete", kind, pipeline, node.text] (.deleteConditional pipeline node)
  | insertTable (pipeline name : String) :
    Spelled ["insert", "tabl", pipeline, "new_" ++ name] (.insertTable pipeline name)
  | changeTable (pipeline : String) (node : ObjectRef) {slot : TableSlot} (hslot : slot.Proper)
      (target : Option ObjectRef) :
    Spelled ["change", "tabl", pipeline, node.text, slot.text, PlanText.edgeToken target]
      (.changeTable pipeline node slot target)
  | deleteTable (pipeline : String) (node : ObjectRef) :
    Spelled ["delete", "tabl", pipeline, node.text] (.deleteTable pipeline node)
  | insertArray (name : String) {size bitwidth : String} {m n : Nat}
      (hsize : Text.IsNumeral 10 size.toList m) (hm : Register.validSize m)
      (hbitwidth : Text.IsNumeral 10 bitwidth.toList n) (hn : Register.validBitwidth n) :
    Spelled ["insert", "register_array", "new_" ++ name, size, bitwidth] (.insertArray name m n)
  | resizeArray (array : ObjectRef) {size : String} {m : Nat}
      (hsize : Text.IsNumeral 10 size.toList m) (hm : Register.validSize m) :
    Spelled ["change", "register_array_size", array.text, size] (.resizeArray array m)
  | rewidenArray (array : ObjectRef) {bitwidth : String} {n : Nat}
      (hbitwidth : Text.IsNumeral 10 bitwidth.toList n) (hn : Register.validBitwidth n) :
    Spelled ["change", "register_array_bitwidth", array.text, bitwidth] (.rewidenArray array n)
  | deleteArray (array : ObjectRef) :
    Spelled ["delete", "register_array", array.text] (.deleteArray array)
  | rehash (r : RehashCommand) :
    Spelled ["rehash", "register_array", r.target.text, accordingTo, r.recording.text,
      r.lastPos.text, r.counting.text, countingHashFlag, r.countingHash.name, targetHashFlag,
      r.targetHashes.first.name, r.targetHashes.second.name, r.targetHashes.third.name, resetFlag,
      r.reset.text] (.rehash r)

/-- What tokens spell is read from them. -/
theorem ofTokens_of_spelled {c : Command} (h : Spelled (verb :: kind :: args) c) :
    ofTokens line verb kind args = .ok c := by
  have hnew : ∀ name, newName ("new_" ++ name) = .ok name := fun _ => newName_eq_ok.mpr rfl
  have href : ∀ r : ObjectRef, reference r.text = .ok r := fun _ => reference_eq_ok.mpr rfl
  have hedge : ∀ t, edgeTarget (PlanText.edgeToken t) = .ok t := fun _ => edgeTarget_eq_ok.mpr rfl
  cases h with
  | insertConditional | insertFlex | insertTable | deleteTable | deleteArray =>
    simp only [ofTokens, hnew, hedge, href]
    rfl
  | changeConditional hkind pipeline node branch target =>
    have hbranch : branchName line branch.text = .ok branch := branchName_eq_ok.mpr rfl
    rcases hkind with rfl | rfl <;>
    · simp only [ofTokens, hbranch, href, hedge]
      rfl
  | deleteConditional hkind =>
    rcases hkind with rfl | rfl <;>
    · simp only [ofTokens, href]
      rfl
  | changeTable pipeline node hslot target =>
    simp only [ofTokens, href, hedge, TableSlot.ofText_eq_iff.mpr ⟨rfl, hslot⟩]
    rfl
  | insertArray name hsize hm hbitwidth hn =>
    simp only [ofTokens, hnew, sizeOf_eq_ok.mpr ⟨hsize, hm⟩, bitwidthOf_eq_ok.mpr ⟨hbitwidth, hn⟩]
    rfl
  | resizeArray array hsize hm =>
    simp only [ofTokens, href, sizeOf_eq_ok.mpr ⟨hsize, hm⟩]
    rfl
  | rewidenArray array hbitwidth hn =>
    simp only [ofTokens, href, bitwidthOf_eq_ok.mpr ⟨hbitwidth, hn⟩]
    rfl
  | rehash r =>
    simp only [ofTokens, checkFlag, if_true, href, hashName_name]
    rfl

/-- Tokens that a command is read from spell it. -/
theorem spelled_of_ofTokens {c : Command} (h : ofTokens line verb kind args = .ok c) :
    Spelled (verb :: kind :: args) c := by
  unfold ofTokens at h
  split at h
  case h_15 | h_16 => cases h
  -- a wrong number of tokens is refused, and a right one fixes every token
  all_goals
    split at h
    case h_2 => cases h
  all_goals
    simp only [bind_eq_ok, pure_eq_ok, newName_eq_ok, reference_eq_ok, edgeTarget_eq_ok,
      branchName_eq_ok, sizeOf_eq_ok, bitwidthOf_eq_ok, hashName_eq_ok, checkFlag_eq_ok] at h
  -- one goal for each verb and kind
  · obtain ⟨name, rfl, rfl⟩ := h
    exact .insertConditional _ name
  · obtain ⟨name, rfl, falseNext, rfl, trueNext, rfl, rfl⟩ := h
    exact .insertFlex _ name falseNext trueNext
  · obtain ⟨branch, rfl, node, rfl, target, rfl, rfl⟩ := h
    exact .changeConditional (Or.inl rfl) _ node branch target
  · obtain ⟨branch, rfl, node, rfl, target, rfl, rfl⟩ := h
    exact .changeConditional (Or.inr rfl) _ node branch target
  · obtain ⟨node, rfl, rfl⟩ := h
    exact .deleteConditional (Or.inl rfl) _ node
  · obtain ⟨node, rfl, rfl⟩ := h
    exact .deleteConditional (Or.inr rfl) _ node
  · obtain ⟨name, rfl, rfl⟩ := h
    exact .insertTable _ name
  · rename_i pipeline _ slot _
    obtain ⟨node, rfl, target, rfl, rfl⟩ := h
    obtain ⟨htext, hproper⟩ := TableSlot.ofText_eq_iff.mp (rfl : TableSlot.ofText slot = _)
    have hspelled := Spelled.changeTable pipeline node hproper target
    rwa [← htext] at hspelled
  · obtain ⟨node, rfl, rfl⟩ := h
    exact .deleteTable _ node
  · obtain ⟨m, ⟨hsize, hm⟩, n, ⟨hbitwidth, hn⟩, name, rfl, rfl⟩ := h
    exact .insertArray name hsize hm hbitwidth hn
  · obtain ⟨m, ⟨hsize, hm⟩, array, rfl, rfl⟩ := h
    exact .resizeArray array hsize hm
  · obtain ⟨n, ⟨hbitwidth, hn⟩, array, rfl, rfl⟩ := h
    exact .rewidenArray array hbitwidth hn
  · obtain ⟨array, rfl, rfl⟩ := h
    exact .deleteArray array
  · obtain ⟨_, rfl, _, rfl, _, rfl, _, rfl, target, rfl, recording, rfl, lastPos, rfl, counting,
      rfl, reset, rfl, hash, rfl, h₁, rfl, h₂, rfl, h₃, rfl, rfl⟩ := h
    exact .rehash ⟨target, recording, lastPos, counting, hash, ⟨h₁, h₂, h₃⟩, reset⟩

/-- A line is read as the command that its tokens spell. -/
theorem parse_eq_ok_iff {line : String} {c : Command} :
    parse line = .ok c ↔ Spelled (tokens line) c := by
  unfold parse
  split
  case h_1 heq =>
    rw [heq]
    exact ⟨spelled_of_ofTokens, ofTokens_of_spelled⟩
  case h_2 hshort =>
    refine ⟨nofun, fun h => ?_⟩
    obtain ⟨verb, kind, args, heq⟩ : ∃ verb kind args, tokens line = verb :: kind :: args := by
      generalize tokens line = ts at h
      cases h <;> exact ⟨_, _, _, rfl⟩
    exact absurd heq (hshort verb kind args)

/-! ### Classes of lines -/

/-- A token stands where a command has a part. -/
def Places (ts : List String) (part : Part) (token : String) : Prop :=
  ∃ verb kind args ps, ts = verb :: kind :: args ∧ parts verb kind = some ps ∧
    (part, token) ∈ ps.zip args

/-- Tokens have the shape of no command: there are too few of them, no command has their verb and
kind, or one of them is wrong where a command has a fixed word, a branch, a size or a bitwidth. -/
inductive Misshapen : List String → Prop where
  | short {ts : List String} (h : ts.length < 2) : Misshapen ts
  | unknown {verb kind : String} {args : List String} (hverb : verb ≠ "rehash")
      (h : parts verb kind = none) : Misshapen (verb :: kind :: args)
  | count {verb kind : String} {args : List String} {ps : List Part}
      (hps : parts verb kind = some ps) (h : ps.length ≠ args.length) :
    Misshapen (verb :: kind :: args)
  | token {ts : List String} {part : Part} {token : String} (h : Places ts part token)
      (hshaped : ¬part.Shaped token) : Misshapen ts

/-- Tokens ask for a rehash of something other than a register array. -/
def ForeignRehash (ts : List String) : Prop :=
  ∃ kind args, ts = "rehash" :: kind :: args ∧ kind ≠ "register_array"

/-- A reference, the name of something new or the target of an edge lacks its prefix. -/
def Unprefixed (ts : List String) : Prop :=
  ∃ part token, Places ts part token ∧ ¬part.Prefixed token

/-- Where a hash algorithm is asked for, there is no name of one. -/
def Unhashed (ts : List String) : Prop :=
  ∃ part token, Places ts part token ∧ ¬part.Hashed token

theorem parts_rehash_eq_none_iff : parts "rehash" kind = none ↔ kind ≠ "register_array" := by
  unfold parts
  split <;> grind

theorem places_iff (hps : parts verb kind = some ps) {part : Part} {token : String} :
    Places (verb :: kind :: args) part token ↔ (part, token) ∈ ps.zip args := by
  constructor
  · rintro ⟨_, _, _, ps', heq, hps', hmem⟩
    cases heq
    rw [hps, Option.some.injEq] at hps'
    exact hps' ▸ hmem
  · exact fun hmem => ⟨verb, kind, args, ps, rfl, hps, hmem⟩

/-- All tokens of a command are as they should be when none of them is not. -/
theorem forall₂_iff_places (hps : parts verb kind = some ps) (hlength : ps.length = args.length)
    (R : Part → String → Prop) : ps.Forall₂ R args ↔
      ¬∃ part token, Places (verb :: kind :: args) part token ∧ ¬R part token := by
  simp only [List.forall₂_iff_zip, hlength, true_and, places_iff hps, not_exists, not_and, not_not]

/-- A verb and a kind that no command has decide, a rehash aside. -/
theorem codeOf_of_parts_eq_none (hverb : verb ≠ "rehash") (hps : parts verb kind = none) :
    codeOf (ofTokens line verb kind args) = .invalidCommandError := by
  unfold ofTokens
  split
  case h_16 => rfl
  case h_14 | h_15 => exact absurd rfl hverb
  all_goals cases hps

theorem ofTokens_foreign (hkind : kind ≠ "register_array") :
    ofTokens line "rehash" kind args = .error (.unsupportedTarget kind) := by
  unfold ofTokens
  split <;> first | rfl | contradiction

/-- The shape of a foreign rehash is not looked at. -/
theorem ForeignRehash.not_misshapen {ts : List String} (h : ForeignRehash ts) : ¬Misshapen ts := by
  obtain ⟨kind, args, rfl, hkind⟩ := h
  have hnone := parts_rehash_eq_none_iff.mpr hkind
  intro h
  cases h with
  | short h => simp only [List.length_cons] at h; omega
  | unknown hverb => exact hverb rfl
  | count hps => rw [hnone] at hps; cases hps
  | token h =>
    obtain ⟨_, _, _, _, heq, hps, -⟩ := h
    cases heq
    rw [hnone] at hps
    cases hps

/-- The stages of a line. -/
theorem graded_parse {line : String} (hforeign : ¬ForeignRehash (tokens line)) :
    Graded (parse line) (¬Misshapen (tokens line)) (¬Unprefixed (tokens line))
      (¬Unhashed (tokens line)) := by
  unfold parse
  split
  case h_2 hshort =>
    refine .refused rfl (not_not_intro (.short ?_))
    match tokens line, hshort with
    | [], _ | [_], _ => simp
    | verb :: kind :: args, hshort => exact absurd rfl (hshort verb kind args)
  case h_1 verb kind args heq =>
    rw [heq] at hforeign ⊢
    cases hps : parts verb kind with
    | none =>
      have hverb : verb ≠ "rehash" := by
        rintro rfl
        exact hforeign ⟨kind, args, rfl, parts_rehash_eq_none_iff.mp hps⟩
      exact .refused (codeOf_of_parts_eq_none hverb hps) (not_not_intro (.unknown hverb hps))
    | some ps =>
      by_cases hlength : ps.length = args.length
      · refine (graded_ofTokens hps hlength).congr ?_ ?_ ?_
        · rw [forall₂_iff_places hps hlength, not_iff_not]
          constructor
          · rintro ⟨_, _, hplaces, hshaped⟩
            exact .token hplaces hshaped
          · intro h
            cases h with
            | short h => simp only [List.length_cons] at h; omega
            | unknown _ hnone => rw [hps] at hnone; cases hnone
            | count hps' h =>
              rw [hps] at hps'
              cases hps'
              exact absurd hlength h
            | token hplaces hshaped => exact ⟨_, _, hplaces, hshaped⟩
        · exact forall₂_iff_places hps hlength _
        · exact forall₂_iff_places hps hlength _
      · exact .refused (codeOf_of_length_ne hps hlength) (not_not_intro (.count hps hlength))

/-- Every line is classified by its tokens: first by their shape, then by the prefixes of the
references, then by the names of hash algorithms; and a line in order is read as the command that
its tokens spell. -/
theorem parse_classified (line : String) :
    (codeOf (parse line) = .invalidCommandError ↔ Misshapen (tokens line)) ∧
    (codeOf (parse line) = .unsupportedTargetError ↔ ForeignRehash (tokens line)) ∧
    (codeOf (parse line) = .prefixError ↔
      ¬Misshapen (tokens line) ∧ ¬ForeignRehash (tokens line) ∧ Unprefixed (tokens line)) ∧
    (codeOf (parse line) = .invalidHashNameError ↔
      ¬Misshapen (tokens line) ∧ ¬ForeignRehash (tokens line) ∧ ¬Unprefixed (tokens line) ∧
        Unhashed (tokens line)) ∧
    ((∃ c, parse line = .ok c) ↔
      ¬Misshapen (tokens line) ∧ ¬ForeignRehash (tokens line) ∧ ¬Unprefixed (tokens line) ∧
        ¬Unhashed (tokens line)) ∧
    ∀ c, parse line = .ok c ↔ Spelled (tokens line) c := by
  rw [exists_ok_iff_codeOf]
  simp only [parse_eq_ok_iff, implies_true, and_true]
  by_cases hforeign : ForeignRehash (tokens line)
  · have hcode : codeOf (parse line) = .unsupportedTargetError := by
      obtain ⟨kind, args, heq, hkind⟩ := hforeign
      rw [parse, heq]
      exact congrArg codeOf (ofTokens_foreign hkind)
    simp only [hcode, hforeign, hforeign.not_misshapen]
    simp
  · obtain ⟨hshape, hprefixed, hhash, haccept⟩ := graded_parse hforeign
    generalize codeOf (parse line) = code at *
    -- the stages exclude each other
    by_cases hS : Misshapen (tokens line)
    · simp [hshape (not_not_intro hS), hS, hforeign]
    by_cases hP : Unprefixed (tokens line)
    · simp [hprefixed hS (not_not_intro hP), hS, hP, hforeign]
    by_cases hH : Unhashed (tokens line)
    · simp [hhash hS hP (not_not_intro hH), hS, hP, hH, hforeign]
    · simp [haccept hS hP hH, hS, hP, hH, hforeign]

end Command

end LiveSwitch
