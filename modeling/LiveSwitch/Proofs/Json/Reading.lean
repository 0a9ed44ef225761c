import LiveSwitch.Proofs.Json.Objects
import LiveSwitch.Proofs.Json.Scalars

/-!
# Compact texts read back

The reader gives back the value whose compact text it reads.  That holds for every value that a
document can hold exactly: its integers fit in 64 bits, the fields of its objects are in the
order of their keys, and it does not nest too deep.

## Main definitions

* `Value.Plain d` — the values that are read back, nested at most `d` levels deep.
* `Reader.Reads` — the reader gives a value from its text, wherever that stands.

## Main results

* `Reader.value_compact` — the value at the front of a text.
* `Value.ofText?_compact`, `Value.ofBytes?_compact` — whole documents.
-/

namespace LiveSwitch.Json

/-! ### Values -/

/-- A value nested at most `d` levels deep that a text gives exactly. -/
inductive Value.Plain : Nat → Value → Prop where
  | null {d : Nat} : Plain d .null
  | bool {d : Nat} (b : Bool) : Plain d (.bool b)
  | integer {d : Nat} {n : Int} (h : Reader.FitsWord n) : Plain d (.number (.integer n))
  | string {d : Nat} (s : String) : Plain d (.string s)
  | array {d : Nat} {items : List Value} (h : ∀ v ∈ items, Plain d v) : Plain (d + 1) (.array items)
  | object {d : Nat} {fields : Object} (hsorted : fields.Sorted)
      (h : ∀ f ∈ fields, Plain d f.2) : Plain (d + 1) (.object fields)

/-- The check whether a value is plain. -/
def Value.isPlain : Nat → Value → Bool
  | _, .null | _, .bool _ | _, .string _ => true
  | _, .number (.integer n) => decide (Reader.FitsWord n)
  | _, .number (.real _) => false
  | 0, .array _ | 0, .object _ => false
  | d + 1, .array items => items.all (isPlain d)
  | d + 1, .object fields => decide (Object.Sorted fields) && fields.all fun f => isPlain d f.2

theorem Value.plain_of_isPlain : ∀ {d : Nat} {v : Value}, v.isPlain d = true → v.Plain d
  | _, .null, _ => .null
  | _, .bool b, _ => .bool b
  | _, .string s, _ => .string s
  | _, .number (.integer _), h => .integer (of_decide_eq_true (by rwa [isPlain] at h))
  | _, .number (.real _), h => by simp [isPlain] at h
  | d + 1, .array _, h => .array fun v hv => plain_of_isPlain (List.all_eq_true.mp h v hv)
  | d + 1, .object _, h =>
    have h := (Bool.and_eq_true ..).mp h
    .object (of_decide_eq_true h.1) fun f hf => plain_of_isPlain (List.all_eq_true.mp h.2 f hf)

theorem Value.isPlain_iff {d : Nat} {v : Value} : v.isPlain d = true ↔ v.Plain d := by
  refine ⟨plain_of_isPlain, fun h => ?_⟩
  induction h with
  | null | bool _ | string _ => simp [isPlain]
  | integer h => simpa [isPlain] using h
  | array _ ih => exact List.all_eq_true.mpr ih
  | object hsorted _ ih =>
    exact (Bool.and_eq_true ..).mpr ⟨decide_eq_true hsorted, List.all_eq_true.mpr ih⟩

instance {d : Nat} {v : Value} : Decidable (v.Plain d) := decidable_of_iff _ Value.isPlain_iff

namespace Reader

/-- The reader gives `v` from its text, at a depth and with fuel that are enough for it. -/
def Reads (d : Nat) (v : Value) : Prop := ∀ (fuel depth : Nat) (rest : List Char),
  depth + d ≤ maxDepth → 2 * v.compact.toList.length ≤ fuel → Ends rest →
    value fuel depth (v.compact.toList ++ rest) = some (v, rest)

/-- A text that starts a value: no space and no closing bracket. -/
def Starts (cs : List Char) : Prop := ∃ c cs', cs = c :: cs' ∧ isSpace c = false ∧ c ≠ ']'

theorem Starts.append {cs : List Char} (h : Starts cs) (rest : List Char) :
    Starts (cs ++ rest) := by
  obtain ⟨c, cs, rfl, hc⟩ := h
  exact ⟨c, cs ++ rest, rfl, hc⟩

/-- The texts of items with commas between them. -/
def itemsText (vs : List Value) : List Char := (",".intercalate (Value.compactItems vs)).toList

theorem itemsText_cons (v w : Value) (vs : List Value) :
    itemsText (v :: w :: vs) = v.compact.toList ++ ',' :: itemsText (w :: vs) := by
  have hcomma : ",".toList = [','] := rfl
  rw [itemsText, Value.compactItems, Value.compactItems, String.intercalate_cons_cons,
    String.toList_append, String.toList_append, hcomma, List.append_assoc]
  rfl

theorem toList_compact_array (vs : List Value) :
    (Value.array vs).compact.toList = '[' :: (itemsText vs ++ [']']) := by
  have hopen : "[".toList = ['['] := rfl
  have hclose : "]".toList = [']'] := rfl
  rw [Value.compact, String.toList_append, String.toList_append, hopen, hclose]
  rfl

theorem starts_itemsText {v : Value} (h : Starts v.compact.toList) (vs : List Value) :
    Starts (itemsText (v :: vs)) := by
  cases vs with
  | nil =>
    rw [itemsText, Value.compactItems, Value.compactItems, String.intercalate_singleton]
    exact h
  | cons w ws =>
    rw [itemsText_cons]
    exact h.append _

/-- Items are read one after the other, up to the closing bracket. -/
theorem items_compact {d depth : Nat} (hdepth : depth + d ≤ maxDepth) {v : Value}
    {vs : List Value} (h : ∀ w ∈ v :: vs, Reads d w) {fuel : Nat}
    (hfuel : 2 * (itemsText (v :: vs)).length < fuel) (acc : List Value) (rest : List Char) :
    items fuel depth acc (itemsText (v :: vs) ++ ']' :: rest) =
      some (acc.reverse ++ v :: vs, rest) := by
  induction vs generalizing v fuel acc with
  | nil =>
    obtain ⟨fuel, rfl⟩ : ∃ n, fuel = n + 1 := ⟨fuel - 1, by omega⟩
    have htext : itemsText [v] = v.compact.toList := by
      rw [itemsText, Value.compactItems, Value.compactItems, String.intercalate_singleton]
    rw [htext] at hfuel ⊢
    have hread := h v List.mem_cons_self fuel depth (']' :: rest) hdepth (by omega)
      (by simp [Ends])
    rw [items, hread]
    simp [skipSpace, isSpace]
  | cons w vs ih =>
    obtain ⟨fuel, rfl⟩ : ∃ n, fuel = n + 1 := ⟨fuel - 1, by omega⟩
    rw [itemsText_cons] at hfuel ⊢
    rw [List.length_append, List.length_cons] at hfuel
    have hread := h v List.mem_cons_self fuel depth (',' :: (itemsText (w :: vs) ++ ']' :: rest))
      hdepth (by omega) (by simp [Ends])
    have hrest : 2 * (itemsText (w :: vs)).length < fuel := by omega
    have hnext := ih (fun u hu => h u (List.mem_cons_of_mem _ hu)) hrest (v :: acc)
    rw [List.append_assoc, List.cons_append, items, hread]
    simp [skipSpace, isSpace, hnext]

/-- The texts of fields with commas between them. -/
def fieldsText (fs : Object) : List Char := (",".intercalate (Value.compactFields fs)).toList

theorem toList_compactField (k : String) (v : Value) : (Value.compactField (k, v)).toList =
    '"' :: (escapedText k ++ '"' :: ':' :: v.compact.toList) := by
  have hcolon : ":".toList = [':'] := rfl
  rw [Value.compactField, String.toList_append, String.toList_append, toList_quoted, hcolon]
  simp

theorem toList_compact_object (fs : Object) :
    (Value.object fs).compact.toList = '\x7b' :: (fieldsText fs ++ ['\x7d']) := by
  have hopen : "\x7b".toList = ['\x7b'] := rfl
  have hclose : "\x7d".toList = ['\x7d'] := rfl
  rw [Value.compact, String.toList_append, String.toList_append, hopen, hclose]
  rfl

/-- What the characters after a field make of the fields that were read. -/
def afterField (fuel depth : Nat) (acc : Object) : List Char → Option (Object × List Char)
  | ',' :: rest => fields fuel depth acc rest
  | '\x7d' :: rest => some (acc, rest)
  | _ => none

/-- A field is read, and what follows its value decides what comes next. -/
theorem fields_field {d depth fuel : Nat} (hdepth : depth + d ≤ maxDepth) {k : String} {v : Value}
    (h : Reads d v) (hfuel : 2 * v.compact.toList.length ≤ fuel) (acc : Object) {c : Char}
    {rest : List Char} (hc : Ends (c :: rest)) :
    fields (fuel + 1) depth acc ((Value.compactField (k, v)).toList ++ c :: rest) =
      afterField fuel depth (Object.insert k v acc) (skipSpace (c :: rest)) := by
  have hkey := stringBody_escapedText k (':' :: (v.compact.toList ++ c :: rest))
  have hread := h fuel depth (c :: rest) hdepth hfuel hc
  rw [toList_compactField, List.cons_append, List.append_assoc, List.cons_append, List.cons_append,
    fields]
  have hquote : ∀ cs, skipSpace ('"' :: cs) = '"' :: cs := fun cs => rfl
  have hcolon : ∀ cs, skipSpace (':' :: cs) = ':' :: cs := fun cs => rfl
  simp only [hquote, hkey, hcolon, hread, Option.bind_eq_bind, Option.bind_some]
  rfl

theorem fieldsText_cons (f g : String × Value) (fs : Object) :
    fieldsText (f :: g :: fs) = (Value.compactField f).toList ++ ',' :: fieldsText (g :: fs) := by
  have hcomma : ",".toList = [','] := rfl
  rw [fieldsText, Value.compactFields, Value.compactFields, String.intercalate_cons_cons,
    String.toList_append, String.toList_append, hcomma, List.append_assoc]
  rfl

theorem exists_fieldsText_eq (f : String × Value) (fs : Object) :
    ∃ cs, fieldsText (f :: fs) = '"' :: cs := by
  cases fs with
  | nil =>
    rw [fieldsText, Value.compactFields, Value.compactFields, String.intercalate_singleton,
      toList_compactField]
    exact ⟨_, rfl⟩
  | cons g gs =>
    rw [fieldsText_cons, toList_compactField]
    exact ⟨_, rfl⟩

/-- Fields are read one after the other, up to the closing brace, and put into an object. -/
theorem fields_compact {d depth : Nat} (hdepth : depth + d ≤ maxDepth) {f : String × Value}
    {fs : Object} (h : ∀ g ∈ f :: fs, Reads d g.2) {fuel : Nat}
    (hfuel : 2 * (fieldsText (f :: fs)).length < fuel) (acc : Object) (rest : List Char) :
    fields fuel depth acc (fieldsText (f :: fs) ++ '\x7d' :: rest) =
      some (acc.insertAll (f :: fs), rest) := by
  induction fs generalizing f fuel acc with
  | nil =>
    obtain ⟨fuel, rfl⟩ : ∃ n, fuel = n + 1 := ⟨fuel - 1, by omega⟩
    obtain ⟨k, v⟩ := f
    have hv : Reads d v := h (k, v) List.mem_cons_self
    have htext : fieldsText [(k, v)] = (Value.compactField (k, v)).toList := by
      rw [fieldsText, Value.compactFields, Value.compactFields, String.intercalate_singleton]
    rw [htext] at hfuel ⊢
    have hlength := congrArg List.length (toList_compactField k v)
    simp only [List.length_cons, List.length_append] at hlength
    rw [fields_field hdepth hv (by omega) acc (by simp [Ends])]
    rfl
  | cons g fs ih =>
    obtain ⟨fuel, rfl⟩ : ∃ n, fuel = n + 1 := ⟨fuel - 1, by omega⟩
    obtain ⟨k, v⟩ := f
    have hv : Reads d v := h (k, v) List.mem_cons_self
    rw [fieldsText_cons] at hfuel ⊢
    rw [List.length_append, List.length_cons] at hfuel
    have hlength := congrArg List.length (toList_compactField k v)
    simp only [List.length_cons, List.length_append] at hlength
    have hrest : 2 * (fieldsText (g :: fs)).length < fuel := by omega
    have hnext := ih (fun u hu => h u (List.mem_cons_of_mem _ hu)) hrest (Object.insert k v acc)
    rw [List.append_assoc, List.cons_append,
      fields_field hdepth hv (by omega) acc (by simp [Ends])]
    exact hnext

theorem word?_append (w : String) (cs : List Char) : word? w (w.toList ++ cs) = some cs := by
  have hdrop : (w.toList ++ cs).drop w.length = cs := by
    rw [← String.length_toList, List.drop_left]
  rw [word?, if_pos (List.isPrefixOf_iff_prefix.mpr (List.prefix_append _ _)), hdrop]

theorem ne_of_number {c d : Char} (hc : c = '-' ∨ c.isDigit = true) (hd : d ≠ '-')
    (hdigit : d.isDigit = false) : c ≠ d := by
  rintro rfl
  rcases hc with rfl | hc
  · exact hd rfl
  · rw [hdigit] at hc
    cases hc

/-- Nothing but a number starts with a sign or a digit. -/
theorem value_of_number {fuel depth : Nat} {c : Char} {cs : List Char}
    (hc : c = '-' ∨ c.isDigit = true) : value (fuel + 1) depth (c :: cs) =
      (number (c :: cs)).map fun x => (.number x.1, x.2) := by
  have hne : ∀ d : Char, d ≠ '-' → d.isDigit = false → c ≠ d := fun _ => ne_of_number hc
  have hskip : skipSpace (c :: cs) = c :: cs := by
    have hspace : isSpace c = false := by
      simp [isSpace, hne ' ' (by decide) rfl, hne '\n' (by decide) rfl, hne '\t' (by decide) rfl,
        hne '\r' (by decide) rfl]
    rw [skipSpace, List.dropWhile_cons, hspace]
    rfl
  rw [value, hskip]
  split
  case h_1 heq => exact absurd (List.cons.inj heq).1 (hne _ (by decide) rfl)
  case h_2 heq => exact absurd (List.cons.inj heq).1 (hne _ (by decide) rfl)
  case h_3 heq => exact absurd (List.cons.inj heq).1 (hne _ (by decide) rfl)
  case h_4 heq => exact absurd (List.cons.inj heq).1 (hne _ (by decide) rfl)
  case h_5 heq => exact absurd (List.cons.inj heq).1 (hne _ (by decide) rfl)
  case h_6 heq => exact absurd (List.cons.inj heq).1 (hne _ (by decide) rfl)
  case h_7 => rfl

/-- The text of an integer starts with its sign or its first digit. -/
theorem text_integer (n : Int) : ∃ c cs, (Number.text (.integer n)).toList = c :: cs ∧
    (c = '-' ∨ c.isDigit = true) := by
  cases n with
  | ofNat n =>
    have hlist : (Number.text (.integer (.ofNat n))).toList = Nat.toDigits 10 n :=
      String.toList_ofList
    obtain ⟨c, cs, hcs⟩ := List.exists_cons_of_ne_nil (Nat.toDigits_ne_nil (b := 10) (n := n))
    have hc : c ∈ Nat.toDigits 10 n := hcs ▸ List.mem_cons_self
    rw [hlist]
    exact ⟨c, cs, hcs, Or.inr (Nat.isDigit_of_mem_toDigits (by decide) (by decide) hc)⟩
  | negSucc m =>
    have hlist : (Number.text (.integer (.negSucc m))).toList =
        '-' :: (Nat.repr (m + 1)).toList := by
      show ("-" ++ Nat.repr (m + 1)).toList = _
      rw [String.toList_append]
      rfl
    rw [hlist]
    exact ⟨'-', _, rfl, Or.inl rfl⟩

theorem starts_compact {d : Nat} {v : Value} (h : v.Plain d) : Starts v.compact.toList := by
  cases h with
  | null => exact ⟨'n', "ull".toList, rfl, rfl, by decide⟩
  | bool b =>
    cases b with
    | false => exact ⟨'f', "alse".toList, rfl, rfl, by decide⟩
    | true => exact ⟨'t', "rue".toList, rfl, rfl, by decide⟩
  | @integer _ n _ =>
    obtain ⟨c, cs, hcs, hc⟩ := text_integer n
    rw [Value.compact, hcs]
    refine ⟨c, cs, rfl, ?_⟩
    have hne : ∀ d : Char, d ≠ '-' → d.isDigit = false → c ≠ d := fun _ => ne_of_number hc
    simp [isSpace, hne ' ' (by decide) rfl, hne '\n' (by decide) rfl, hne '\t' (by decide) rfl,
      hne '\r' (by decide) rfl, hne ']' (by decide) rfl]
  | string s => exact ⟨'"', _, toList_quoted s, rfl, by decide⟩
  | array _ => exact ⟨'[', _, toList_compact_array _, rfl, by decide⟩
  | object _ _ => exact ⟨'\x7b', _, toList_compact_object _, rfl, by decide⟩

theorem reads_integer {d : Nat} {n : Int} (h : FitsWord n) : Reads d (.number (.integer n)) := by
  intro fuel depth rest _ hfuel hrest
  have hread := number_text h hrest
  obtain ⟨c, cs, hcs, hc⟩ := text_integer n
  rw [Value.compact, hcs] at hfuel ⊢
  rw [hcs] at hread
  obtain ⟨fuel, rfl⟩ : ∃ k, fuel = k + 1 := ⟨fuel - 1, by rw [List.length_cons] at hfuel; omega⟩
  rw [List.cons_append, value_of_number hc, ← List.cons_append, hread]
  rfl

theorem reads_of_word {d : Nat} {v : Value} (c : Char) (w : String)
    (htext : v.compact.toList = c :: w.toList) (hvalue : ∀ fuel depth cs,
      value (fuel + 1) depth (c :: cs) = (word? w cs).map fun rest => (v, rest)) : Reads d v := by
  intro fuel depth rest _ hfuel _
  rw [htext] at hfuel ⊢
  obtain ⟨fuel, rfl⟩ : ∃ k, fuel = k + 1 := ⟨fuel - 1, by rw [List.length_cons] at hfuel; omega⟩
  rw [List.cons_append, hvalue, word?_append]
  rfl

theorem reads_null {d : Nat} : Reads d .null :=
  reads_of_word 'n' "ull" rfl fun _ _ _ => by rw [value]; rfl

theorem reads_bool {d : Nat} (b : Bool) : Reads d (.bool b) := by
  cases b with
  | false => exact reads_of_word 'f' "alse" rfl fun _ _ _ => by rw [value]; rfl
  | true => exact reads_of_word 't' "rue" rfl fun _ _ _ => by rw [value]; rfl

theorem reads_string {d : Nat} (s : String) : Reads d (.string s) := by
  intro fuel depth rest _ hfuel _
  have htext : (Value.string s).compact.toList = '"' :: (escapedText s ++ ['"']) := toList_quoted s
  rw [htext] at hfuel ⊢
  obtain ⟨fuel, rfl⟩ : ∃ k, fuel = k + 1 := ⟨fuel - 1, by rw [List.length_cons] at hfuel; omega⟩
  have hread := stringBody_escapedText s rest
  rw [List.cons_append, List.append_assoc, value]
  show (stringBody [] (escapedText s ++ '"' :: rest)).map _ = _
  rw [hread]
  rfl

theorem reads_array {d : Nat} {vs : List Value} (h : ∀ v ∈ vs, Reads d v)
    (hstarts : ∀ v ∈ vs, Starts v.compact.toList) : Reads (d + 1) (.array vs) := by
  intro fuel depth rest hdepth hfuel _
  rw [toList_compact_array] at hfuel ⊢
  rw [List.length_cons, List.length_append, List.length_singleton] at hfuel
  obtain ⟨fuel, rfl⟩ : ∃ k, fuel = k + 1 := ⟨fuel - 1, by omega⟩
  have hlt : ¬maxDepth ≤ depth := by omega
  rw [List.cons_append, List.append_assoc, value]
  cases vs with
  | nil =>
    show (if maxDepth ≤ depth then none else _) = _
    rw [if_neg hlt]
    rfl
  | cons v vs =>
    have hdeeper : depth + 1 + d ≤ maxDepth := by omega
    have hitems : 2 * (itemsText (v :: vs)).length < fuel := by omega
    have hread := items_compact hdeeper h hitems [] rest
    obtain ⟨c, cs, hcs, hspace, hbracket⟩ :=
      (starts_itemsText (hstarts v List.mem_cons_self) vs).append (']' :: rest)
    show (if maxDepth ≤ depth then none else _) = _
    rw [if_neg hlt, List.singleton_append]
    rw [hcs] at hread ⊢
    have hskip : skipSpace (c :: cs) = c :: cs := by
      rw [skipSpace, List.dropWhile_cons, hspace]
      rfl
    rw [hskip]
    split
    case h_1 heq => exact absurd (List.cons.inj heq).1 hbracket
    case h_2 =>
      rw [hread]
      rfl

theorem reads_object {d : Nat} {fs : Object} (hsorted : fs.Sorted) (h : ∀ f ∈ fs, Reads d f.2) :
    Reads (d + 1) (.object fs) := by
  intro fuel depth rest hdepth hfuel _
  rw [toList_compact_object] at hfuel ⊢
  rw [List.length_cons, List.length_append, List.length_singleton] at hfuel
  obtain ⟨fuel, rfl⟩ : ∃ k, fuel = k + 1 := ⟨fuel - 1, by omega⟩
  have hlt : ¬maxDepth ≤ depth := by omega
  rw [List.cons_append, List.append_assoc, value]
  cases fs with
  | nil =>
    show (if maxDepth ≤ depth then none else _) = _
    rw [if_neg hlt]
    rfl
  | cons f fs =>
    have hdeeper : depth + 1 + d ≤ maxDepth := by omega
    have hfields : 2 * (fieldsText (f :: fs)).length < fuel := by omega
    have hread := fields_compact hdeeper h hfields [] rest
    have hall : Object.insertAll [] (f :: fs) = f :: fs :=
      Object.ofList_eq_of_mem_iff hsorted fun _ => Iff.rfl
    obtain ⟨cs, hcs⟩ := exists_fieldsText_eq f fs
    show (if maxDepth ≤ depth then none else _) = _
    rw [if_neg hlt, List.singleton_append]
    rw [hall, hcs] at hread
    rw [hcs]
    show (fields fuel (depth + 1) [] ('"' :: (cs ++ '\x7d' :: rest))).map _ = _
    rw [← List.cons_append, hread]
    rfl

/-- Every plain value is read from its text. -/
theorem value_compact {d : Nat} {v : Value} (h : v.Plain d) : Reads d v := by
  induction h with
  | null => exact reads_null
  | bool b => exact reads_bool b
  | integer hn => exact reads_integer hn
  | string s => exact reads_string s
  | array hitems ih => exact reads_array ih fun v hv => starts_compact (hitems v hv)
  | object hsorted _ ih => exact reads_object hsorted ih

end Reader

/-! ### Documents -/

namespace Value

open Reader

/-- A document that holds nothing but its compact text is read. -/
theorem ofText?_compact {v : Value} (h : v.Plain maxDepth) : ofText? v.compact = some v := by
  have hread := value_compact h (2 * v.compact.toList.length + 2) 0 [] (by omega) (by omega) nofun
  rw [List.append_nil] at hread
  rw [ofText?]
  simp only [hread, Option.bind_eq_bind, Option.bind_some]
  rfl

theorem fromUTF8?_toUTF8 (s : String) : String.fromUTF8? s.toUTF8 = some s := by
  rw [String.fromUTF8?, String.toUTF8_eq_toByteArray, dif_pos s.isValidUTF8]
  rfl

/-- The bytes of a compact text are read. -/
theorem ofBytes?_compact {v : Value} (h : v.Plain maxDepth) :
    ofBytes? v.compact.toUTF8 = some v := by
  rw [ofBytes?, fromUTF8?_toUTF8, Option.bind_some, ofText?_compact h]

end Value

end LiveSwitch.Json
