import LiveSwitch.Proofs.Plan.Commands
import LiveSwitch.Proofs.Plan.Grammar

/-!
# Plans read back as they were written

A plan is written line by line, and each command is written as the tokens that spell it.  Reading
the text gives the commands again, in order, whatever comments and blank lines stand between them.

## Main definitions

* `Command.spelling` — the tokens that a command is written as.
* `Command.Writable` — the commands whose fields can stand in a line.
* `PlanText.Entry` — what can be added to a plan.

## Main results

* `Command.Writable.writes` — the tokens of a command write it.
* `PlanText.commands_of_text` — a plan that was written is read as its commands.
* `Session.run_written` — and carries them out.
-/

namespace LiveSwitch

/-- A text that does not break a line of tokens. -/
def Unbroken (s : String) : Prop := ∀ c ∈ s.toList, Text.isBlank c = false

namespace Command

/-! ### Spellings -/

/-- The tokens that a command is written as. -/
def spelling : Command → List String
  | insertConditional pipeline name => ["insert", "cond", pipeline, (ObjectRef.new name).text]
  | insertFlex pipeline name falseNext trueNext =>
    ["insert", "flex", pipeline, (ObjectRef.new name).text, PlanText.edgeToken falseNext,
      PlanText.edgeToken trueNext]
  | changeConditional pipeline node branch target =>
    ["change", "cond", pipeline, node.text, branch.text, PlanText.edgeToken target]
  | deleteConditional pipeline node => ["delete", "cond", pipeline, node.text]
  | insertTable pipeline name => ["insert", "tabl", pipeline, (ObjectRef.new name).text]
  | changeTable pipeline node slot target =>
    ["change", "tabl", pipeline, node.text, slot.text, PlanText.edgeToken target]
  | deleteTable pipeline node => ["delete", "tabl", pipeline, node.text]
  | insertArray name size bitwidth =>
    ["insert", "register_array", (ObjectRef.new name).text, toString size, toString bitwidth]
  | resizeArray array size => ["change", "register_array_size", array.text, toString size]
  | rewidenArray array bitwidth =>
    ["change", "register_array_bitwidth", array.text, toString bitwidth]
  | deleteArray array => ["delete", "register_array", array.text]
  | rehash r =>
    ["rehash", "register_array", r.target.text, accordingTo, r.recording.text, r.lastPos.text,
      r.counting.text, countingHashFlag, r.countingHash.name, targetHashFlag,
      r.targetHashes.first.name, r.targetHashes.second.name, r.targetHashes.third.name, resetFlag,
      r.reset.text]

/-- A command is written as its spelling. -/
theorem command_eq_tokens (p : PlanText) (c : Command) : p.command c = p.tokens c.spelling := by
  cases c <;> rfl

/-- The fields of a command can stand in a line: no name is broken, pipelines and slots are not
empty and slots have no name of another slot, and sizes and bitwidths are within their limits. -/
def Writable : Command → Prop
  | insertConditional pipeline name | insertTable pipeline name =>
    Text.IsWord pipeline.toList ∧ Unbroken name
  | insertFlex pipeline name falseNext trueNext =>
    Text.IsWord pipeline.toList ∧ Unbroken name ∧ (∀ r ∈ falseNext, Unbroken r.name) ∧
      ∀ r ∈ trueNext, Unbroken r.name
  | changeConditional pipeline node _ target =>
    Text.IsWord pipeline.toList ∧ Unbroken node.name ∧ ∀ r ∈ target, Unbroken r.name
  | deleteConditional pipeline node | deleteTable pipeline node =>
    Text.IsWord pipeline.toList ∧ Unbroken node.name
  | changeTable pipeline node slot target =>
    Text.IsWord pipeline.toList ∧ Unbroken node.name ∧ Text.IsWord slot.text.toList ∧
      slot.Proper ∧ ∀ r ∈ target, Unbroken r.name
  | insertArray name size bitwidth =>
    Unbroken name ∧ Register.validSize size ∧ Register.validBitwidth bitwidth
  | resizeArray array size => Unbroken array.name ∧ Register.validSize size
  | rewidenArray array bitwidth => Unbroken array.name ∧ Register.validBitwidth bitwidth
  | deleteArray array => Unbroken array.name
  | rehash r => ∀ a ∈ [r.target, r.recording, r.lastPos, r.counting, r.reset], Unbroken a.name

theorem isWord_text {r : ObjectRef} (h : Unbroken r.name) : Text.IsWord r.text.toList := by
  cases r with
  | old name => exact isWord_append (by decide) h
  | new name => exact isWord_append (by decide) h

theorem isWord_edgeToken {target? : Option ObjectRef} (h : ∀ r ∈ target?, Unbroken r.name) :
    Text.IsWord (PlanText.edgeToken target?).toList := by
  cases target? with
  | none => decide
  | some r => exact isWord_text (h r rfl)

theorem isWord_branch (b : Branch) : Text.IsWord b.text.toList := by
  cases b <;> decide

theorem isNumeral_toString (n : Nat) : Text.IsNumeral 10 (toString n).toList n := by
  have hlist : (toString n).toList = Nat.toDigits 10 n := String.toList_ofList
  rw [← Text.numeral?_eq_some_iff (by decide), hlist]
  exact Text.numeral?_toDigits (by decide : 1 < 10) (by decide) n

variable {c : Command}

/-- The spelling of a command spells it. -/
theorem Writable.spelled (h : c.Writable) : Spelled c.spelling c := by
  cases c with
  | insertConditional pipeline name => exact .insertConditional pipeline name
  | insertFlex pipeline name falseNext trueNext =>
    exact .insertFlex pipeline name falseNext trueNext
  | changeConditional pipeline node branch target =>
    exact .changeConditional (Or.inl rfl) pipeline node branch target
  | deleteConditional pipeline node => exact .deleteConditional (Or.inl rfl) pipeline node
  | insertTable pipeline name => exact .insertTable pipeline name
  | changeTable pipeline node slot target => exact .changeTable pipeline node h.2.2.2.1 target
  | deleteTable pipeline node => exact .deleteTable pipeline node
  | insertArray name size bitwidth =>
    exact .insertArray name (isNumeral_toString size) h.2.1 (isNumeral_toString bitwidth) h.2.2
  | resizeArray array size => exact .resizeArray array (isNumeral_toString size) h.2
  | rewidenArray array bitwidth => exact .rewidenArray array (isNumeral_toString bitwidth) h.2
  | deleteArray array => exact .deleteArray array
  | rehash r => exact .rehash r

/-- The spelling of a command is made of words. -/
theorem Writable.isWord (h : c.Writable) : ∀ t ∈ c.spelling, Text.IsWord t.toList := by
  cases c with
  | insertConditional pipeline name | insertTable pipeline name =>
    obtain ⟨hpipeline, hname⟩ := h
    have hname' : Unbroken (ObjectRef.new name).name := hname
    simp only [spelling, List.forall_mem_cons, hpipeline, isWord_text hname', true_and]
    exact ⟨by decide, by decide, nofun⟩
  | insertFlex pipeline name falseNext trueNext =>
    obtain ⟨hpipeline, hname, hfalse, htrue⟩ := h
    have hname' : Unbroken (ObjectRef.new name).name := hname
    simp only [spelling, List.forall_mem_cons, hpipeline, isWord_text hname',
      isWord_edgeToken hfalse, isWord_edgeToken htrue, true_and]
    exact ⟨by decide, by decide, nofun⟩
  | changeConditional pipeline node branch target =>
    obtain ⟨hpipeline, hnode, htarget⟩ := h
    simp only [spelling, List.forall_mem_cons, hpipeline, isWord_text hnode, isWord_branch,
      isWord_edgeToken htarget, true_and]
    exact ⟨by decide, by decide, nofun⟩
  | deleteConditional pipeline node | deleteTable pipeline node =>
    obtain ⟨hpipeline, hnode⟩ := h
    simp only [spelling, List.forall_mem_cons, hpipeline, isWord_text hnode, true_and]
    exact ⟨by decide, by decide, nofun⟩
  | changeTable pipeline node slot target =>
    obtain ⟨hpipeline, hnode, hslot, -, htarget⟩ := h
    simp only [spelling, List.forall_mem_cons, hpipeline, isWord_text hnode, hslot,
      isWord_edgeToken htarget, true_and]
    exact ⟨by decide, by decide, nofun⟩
  | insertArray name size bitwidth =>
    have hname : Unbroken (ObjectRef.new name).name := h.1
    simp only [spelling, List.forall_mem_cons, isWord_text hname, isWord_toString, true_and]
    exact ⟨by decide, by decide, nofun⟩
  | resizeArray array n | rewidenArray array n =>
    simp only [spelling, List.forall_mem_cons, isWord_text h.1, isWord_toString, true_and]
    exact ⟨by decide, by decide, nofun⟩
  | deleteArray array =>
    have harray : Unbroken array.name := h
    simp only [spelling, List.forall_mem_cons, isWord_text harray, true_and]
    exact ⟨by decide, by decide, nofun⟩
  | rehash r =>
    have hrefs : ∀ a ∈ [r.target, r.recording, r.lastPos, r.counting, r.reset],
        Text.IsWord a.text.toList := fun a ha => isWord_text (h a ha)
    simp only [List.forall_mem_cons] at hrefs
    obtain ⟨htarget, hrecording, hlastPos, hcounting, hreset, -⟩ := hrefs
    simp only [spelling, List.forall_mem_cons, htarget, hrecording, hlastPos, hcounting, hreset,
      isWord_name, true_and]
    exact ⟨by decide, by decide, by decide, by decide, by decide, by decide, nofun⟩

/-- Words that spell a command write it. -/
theorem Spelled.writes {ts : List String} (h : Spelled ts c)
    (hwords : ∀ t ∈ ts, Text.IsWord t.toList) : Writes ts c := by
  refine ⟨hwords, ?_, ?_⟩
  · cases h <;> exact ⟨_, rfl, by decide⟩
  · rw [parse_eq_ok_iff, tokens_intercalate hwords]
    exact h

/-- The spelling of a command writes it. -/
theorem Writable.writes (h : c.Writable) : Writes c.spelling c := h.spelled.writes h.isWord

/-- A change of a conditional can be spelled as one of a flex node. -/
theorem Writable.writes_changeFlex {pipeline : String} {node : ObjectRef} {branch : Branch}
    {target : Option ObjectRef} (h : (changeConditional pipeline node branch target).Writable) :
    Writes ["change", "flex", pipeline, node.text, branch.text, PlanText.edgeToken target]
      (.changeConditional pipeline node branch target) := by
  refine (Spelled.changeConditional (Or.inr rfl) pipeline node branch target).writes ?_
  have hwords := h.isWord
  simp only [spelling, List.forall_mem_cons] at hwords ⊢
  exact ⟨hwords.1, by decide, hwords.2.2⟩

/-- A deletion of a conditional can be spelled as one of a flex node. -/
theorem Writable.writes_deleteFlex {pipeline : String} {node : ObjectRef}
    (h : (deleteConditional pipeline node).Writable) :
    Writes ["delete", "flex", pipeline, node.text] (.deleteConditional pipeline node) := by
  refine (Spelled.deleteConditional (Or.inr rfl) pipeline node).writes ?_
  have hwords := h.isWord
  simp only [spelling, List.forall_mem_cons] at hwords ⊢
  exact ⟨hwords.1, by decide, hwords.2.2⟩

end Command

/-! ### Plans -/

namespace PlanText

/-- What can be added to a plan.  A change or a deletion of a conditional is also written as one
of a flex node. -/
inductive Entry where
  | command (c : Command)
  | changeFlex (pipeline : String) (node : ObjectRef) (branch : Branch) (target : Option ObjectRef)
  | deleteFlex (pipeline : String) (node : ObjectRef)
  | blank
  /-- A line of blanks. -/
  | spaces (s : String)
  | comment (s : String)
  deriving DecidableEq, Repr

namespace Entry

/-- Adds an entry to a plan. -/
def write (p : PlanText) : Entry → PlanText
  | command c => p.command c
  | changeFlex pipeline node branch target =>
    p.changeFlex pipeline node.text branch.text (edgeToken target)
  | deleteFlex pipeline node => p.deleteFlex pipeline node.text
  | blank => p.blank
  | spaces s => p.line s
  | comment s => p.comment s

/-- The command that an entry stands for. -/
def command? : Entry → Option Command
  | command c => some c
  | changeFlex pipeline node branch target => some (.changeConditional pipeline node branch target)
  | deleteFlex pipeline node => some (.deleteConditional pipeline node)
  | blank | spaces _ | comment _ => none

/-- An entry takes one line: its command can be written, or it is blank or a comment of one
line. -/
def Writable : Entry → Prop
  | spaces s => (∀ c ∈ s.toList, Text.isBlank c = true) ∧ '\n' ∉ s.toList
  | comment s => '\n' ∉ s.toList
  | e => ∀ c ∈ e.command?, c.Writable

/-- The line of an entry. -/
def text : Entry → String
  | command c => " ".intercalate c.spelling
  | changeFlex pipeline node branch target =>
    " ".intercalate ["change", "flex", pipeline, node.text, branch.text, edgeToken target]
  | deleteFlex pipeline node => " ".intercalate ["delete", "flex", pipeline, node.text]
  | blank => ""
  | spaces s => s
  | comment s => "# " ++ s

theorem write_eq_line (p : PlanText) (e : Entry) : e.write p = p.line e.text := by
  cases e with
  | command c => exact Command.command_eq_tokens p c
  | changeFlex | deleteFlex | blank | spaces | comment => rfl

/-- The line of an entry is passed over, or its command is read from it. -/
theorem rel_parse {e : Entry} (h : e.Writable) :
    Option.Rel (fun l c => Command.parse l = .ok c) (commandLine? e.text) e.command? := by
  have hwrites : ∀ {ts c}, Command.Writes ts c →
      Option.Rel (fun l c => Command.parse l = .ok c) (commandLine? (" ".intercalate ts))
        (some c) := by
    intro ts c hts
    rw [hts.commandLine?_eq]
    exact .some hts.parse
  cases e with
  | command c => exact hwrites (h c rfl).writes
  | changeFlex =>
    rw [text, command?]
    exact hwrites (Command.Writable.writes_changeFlex (h _ rfl))
  | deleteFlex =>
    rw [text, command?]
    exact hwrites (Command.Writable.writes_deleteFlex (h _ rfl))
  | blank => exact .none
  | spaces s =>
    rw [text, commandLine?, Text.trim_of_blank h.1]
    exact .none
  | comment s =>
    have hsharp : ("# " ++ s).toList = '#' :: ' ' :: s.toList := String.toList_append
    have hclear : Text.isBlank '#' = false := by decide
    obtain ⟨rest, htrim⟩ := Text.exists_trim_cons hclear (' ' :: s.toList)
    rw [text, commandLine?, hsharp, htrim]
    exact .none

theorem newline_not_mem_text {e : Entry} (h : e.Writable) : '\n' ∉ e.text.toList := by
  cases e with
  | command c => exact (h c rfl).writes.newline_not_mem
  | changeFlex => exact (Command.Writable.writes_changeFlex (h _ rfl)).newline_not_mem
  | deleteFlex => exact (Command.Writable.writes_deleteFlex (h _ rfl)).newline_not_mem
  | blank => exact List.not_mem_nil
  | spaces s => exact h.2
  | comment s =>
    rw [text, String.toList_append, List.mem_append, not_or]
    exact ⟨by decide, h⟩

end Entry

/-- The plan that some entries are added to, one after the other. -/
def addAll (p : PlanText) (entries : List Entry) : PlanText :=
  entries.foldl (fun p e => e.write p) p

theorem addAll_eq (p : PlanText) (entries : List Entry) :
    p.addAll entries = ⟨p.lines ++ entries.map Entry.text⟩ := by
  induction entries generalizing p with
  | nil => rw [addAll, List.foldl_nil, List.map_nil, List.append_nil]
  | cons e entries ih =>
    have hstep : p.addAll (e :: entries) = (p.line e.text).addAll entries := by
      rw [← Entry.write_eq_line]
      rfl
    rw [hstep, ih, PlanText.line, List.map_cons, List.append_assoc, List.singleton_append]

variable {entries : List Entry}

/-- The text of a plan is cut into the lines of its entries. -/
theorem planLines_addAll (hne : entries ≠ []) (h : ∀ e ∈ entries, e.Writable) :
    (FileContent.ofText (addAll {} entries).text).planLines =
      entries.map fun e => some e.text := by
  rw [addAll_eq, List.nil_append, planLines_text (by simpa using hne), List.map_map]
  · rfl
  · intro l hl
    obtain ⟨e, he, rfl⟩ := List.mem_map.mp hl
    exact Entry.newline_not_mem_text (h e he)

/-- A plan without entries has the text of one with an empty line. -/
theorem text_addAll_nil : (addAll {} []).text = (addAll {} [.blank]).text := rfl

/-- The commands of some entries are read from their lines. -/
theorem mapM_parse_entries (h : ∀ e ∈ entries, e.Writable) :
    (commandLines (entries.map fun e => some e.text)).mapM Command.parse =
      .ok (entries.filterMap Entry.command?) := by
  rw [mapM_eq_ok]
  induction entries with
  | nil => exact .nil
  | cons e entries ih =>
    obtain ⟨he, h⟩ := List.forall_mem_cons.mp h
    rw [List.map_cons, commandLines_cons rfl, List.filterMap_cons]
    generalize hl : commandLine? e.text = l?, hc : e.command? = c?
    have hrel := Entry.rel_parse he
    rw [hl, hc] at hrel
    cases hrel with
    | none => exact ih h
    | some hparse => exact .cons hparse (ih h)

/-- A plan that was written is read as its commands, in order, and every line of it is text. -/
theorem commands_of_text (h : ∀ e ∈ entries, e.Writable) :
    none ∉ (FileContent.ofText (addAll {} entries).text).planLines ∧
      (commandLines (FileContent.ofText (addAll {} entries).text).planLines).mapM Command.parse =
        .ok (entries.filterMap Entry.command?) := by
  have hread : ∀ entries : List Entry, entries ≠ [] → (∀ e ∈ entries, e.Writable) →
      none ∉ (FileContent.ofText (addAll {} entries).text).planLines ∧
        (commandLines (FileContent.ofText (addAll {} entries).text).planLines).mapM
          Command.parse = .ok (entries.filterMap Entry.command?) := by
    intro entries hne h
    rw [planLines_addAll hne h]
    exact ⟨by simp, mapM_parse_entries h⟩
  cases entries with
  | nil =>
    rw [text_addAll_nil]
    exact hread [.blank] (List.cons_ne_nil _ _) (by simp [Entry.Writable, Entry.command?])
  | cons e entries => exact hread (e :: entries) (List.cons_ne_nil _ _) h

/-- Two commands between a comment and blank lines; the array of the second one has an empty
name. -/
theorem commands_of_commented_text :
    (commandLines (FileContent.ofText (addAll {} [.comment "a detour",
        .command (.insertFlex "p" "a" none (some (.old "b"))), .blank, .spaces " \t",
        .changeFlex "p" (.new "a") .onTrue none, .command (.insertArray "" 16777216 64)]).text
      ).planLines).mapM Command.parse =
      .ok [.insertFlex "p" "a" none (some (.old "b")),
        .changeConditional "p" (.new "a") .onTrue none, .insertArray "" 16777216 64] := by
  refine (commands_of_text ?_).2
  have hflex : (Command.insertFlex "p" "a" none (some (.old "b"))).Writable := by
    refine ⟨by decide, (by decide : Text.IsWord "a".toList).2, by simp, ?_⟩
    rintro _ ⟨⟩
    exact (by decide : Text.IsWord "b".toList).2
  have hchange : (Command.changeConditional "p" (.new "a") .onTrue none).Writable :=
    ⟨by decide, (by decide : Text.IsWord "a".toList).2, by simp⟩
  have harray : (Command.insertArray "" 16777216 64).Writable := ⟨nofun, by decide, by decide⟩
  have hentry : ∀ {c : Command}, c.Writable → ∀ d ∈ some c, d.Writable :=
    fun h _ heq => Option.some.inj heq ▸ h
  have hspaces : (Entry.spaces " \t").Writable := ⟨List.all_eq_true.mp (by decide), by decide⟩
  simp only [List.forall_mem_cons]
  exact ⟨(by decide : '\n' ∉ "a detour".toList), hentry hflex, (fun _ h => by cases h), hspaces,
    hentry hchange, hentry harray, List.forall_mem_nil _⟩

end PlanText

/-- A plan that was written carries out its commands. -/
theorem Session.run_written {entries : List PlanText.Entry} (hne : entries ≠ [])
    (h : ∀ e ∈ entries, e.Writable) {s s' : Session}
    (hrun : (entries.filterMap PlanText.Entry.command?).foldlM Session.apply s = .ok s') :
    s.run (FileContent.ofText (PlanText.addAll {} entries).text).planLines = (s', none) := by
  rw [PlanText.planLines_addAll hne h]
  clear hne
  induction entries generalizing s with
  | nil => rw [foldlM_nil_eq_ok.mp hrun]; rfl
  | cons e entries ih =>
    obtain ⟨he, h⟩ := List.forall_mem_cons.mp h
    rw [List.filterMap_cons] at hrun
    rw [List.map_cons, run, step]
    generalize hl : commandLine? e.text = l?, hc : e.command? = c? at hrun ⊢
    have hrel := PlanText.Entry.rel_parse he
    rw [hl, hc] at hrel
    cases hrel with
    | none => exact ih h hrun
    | some hparse =>
      obtain ⟨s₁, hs₁, hrest⟩ := foldlM_cons_eq_ok.mp hrun
      dsimp only
      rw [applyLine, hparse, ok_bind, hs₁]
      exact ih h hrest

end LiveSwitch
