import Mathlib.Data.List.DropRight
import Mathlib.Tactic.SplitIfs
import SchemaWeave.Json.Printer
import SchemaWeave.Json.Reader

/-!
# Texts that are read as a value

`Reads cs j` says that the reader takes `cs` for the value `j`, whatever follows. There is one lemma for each form
of a value (`reads_string`, `ReadsItems.array`, `ReadsMembers.object`), and the texts that are written for a value, over
several lines or without blanks, are read as it (`parse_pretty`, `parse_compact`). Numbers are left out: no value here has
any (`Json.isNumberless`).
-/

namespace SchemaWeave.Json

open Text

mutual

/-- The number of arrays and objects within each other. -/
def nesting : Json → Nat
  | array items => nestingItems items + 1
  | object members => nestingMembers members + 1
  | null | bool _ | number _ | string _ => 0

def nestingItems : List Json → Nat
  | [] => 0
  | item :: items => max item.nesting (nestingItems items)

def nestingMembers : List (String × Json) → Nat
  | [] => 0
  | (_, value) :: members => max value.nesting (nestingMembers members)

end

mutual

/-- Whether there is no number anywhere in a value. -/
def isNumberless : Json → Bool
  | array items => isNumberlessItems items
  | object members => isNumberlessMembers members
  | number _ => false
  | null | bool _ | string _ => true

def isNumberlessItems : List Json → Bool
  | [] => true
  | item :: items => item.isNumberless && isNumberlessItems items

def isNumberlessMembers : List (String × Json) → Bool
  | [] => true
  | (_, value) :: members => value.isNumberless && isNumberlessMembers members

end

/-! ## Strings -/

/-- A character is written as an escape that stands for it, or as it is. -/
theorem stringChar_cases (c : Char) :
    (∃ escape, stringChar c = '\\' :: escape ∧ ∀ rest, readEscape (escape ++ rest) = .ok (c, rest)) ∨
      stringChar c = [c] ∧ c ≠ '"' ∧ c ≠ '\\' ∧ ¬ c.val < 0x20 := by
  rw [stringChar]
  split_ifs with hquote hslash hb hf hn hr ht hcontrol
  · exact .inl ⟨['"'], rfl, fun _ => by subst hquote; rfl⟩
  · exact .inl ⟨['\\'], rfl, fun _ => by subst hslash; rfl⟩
  · exact .inl ⟨['b'], rfl, fun _ => by subst hb; rfl⟩
  · exact .inl ⟨['f'], rfl, fun _ => by subst hf; rfl⟩
  · exact .inl ⟨['n'], rfl, fun _ => by subst hn; rfl⟩
  · exact .inl ⟨['r'], rfl, fun _ => by subst hr; rfl⟩
  · exact .inl ⟨['t'], rfl, fun _ => by subst ht; rfl⟩
  · refine .inl ⟨_, rfl, fun rest => ?_⟩
    have hc : c.toNat < 0x20 := hcontrol
    have hd (n : Nat) : hexValue? (hexDigit false (n % 16)) = some (n % 16) :=
      hexValue?_hexDigit false (Nat.mod_lt n (by omega))
    have hlow : isLowSurrogate c.toNat = false := by
      simp only [isLowSurrogate, Bool.and_eq_false_iff, decide_eq_false_iff_not]
      omega
    have hhigh : isHighSurrogate c.toNat = false := by
      simp only [isHighSurrogate, Bool.and_eq_false_iff, decide_eq_false_iff_not]
      omega
    simp [readEscape, readUnit, readQuad, hexQuad, hexQuad?, hd, hexQuad_value (show c.toNat < 65536 by omega), hlow,
      hhigh, Char.ofNat_toNat]
  · exact .inr ⟨rfl, hquote, hslash, hcontrol⟩

theorem readStringChars_flatMap (s : List Char) {bound : Nat} (rest : List Char) (h : s.length < bound) :
    readStringChars bound (s.flatMap stringChar ++ '"' :: rest) = .ok (s, rest) := by
  induction s generalizing bound with
  | nil =>
    obtain ⟨bound, rfl⟩ := Nat.exists_eq_succ_of_ne_zero (Nat.ne_zero_of_lt h)
    rfl
  | cons c s ih =>
    obtain ⟨bound, rfl⟩ := Nat.exists_eq_succ_of_ne_zero (Nat.ne_zero_of_lt h)
    have ih := ih (Nat.lt_of_succ_lt_succ h)
    rw [List.flatMap_cons, List.append_assoc]
    rcases stringChar_cases c with ⟨escape, he, hread⟩ | ⟨he, hquote, hslash, hcontrol⟩
    · rw [he, List.cons_append, readStringChars, hread]
      simp only [ih]
    · rw [he, List.singleton_append, readStringChars, if_neg hcontrol, ih]
      · exact hquote
      · exact hslash

theorem length_le_length_flatMap_stringChar (s : List Char) : s.length ≤ (s.flatMap stringChar).length := by
  induction s with
  | nil => exact Nat.le_refl 0
  | cons c s ih =>
    have hc : 0 < (stringChar c).length := by
      rcases stringChar_cases c with ⟨escape, he, -⟩ | ⟨he, -⟩ <;> simp [he]
    rw [List.flatMap_cons, List.length_append, List.length_cons]
    omega

/-- A string after its opening quote is read back. -/
theorem readString_chars (s : String) (rest : List Char) :
    readString (s.toList.flatMap stringChar ++ '"' :: rest) = .ok (s, rest) := by
  have hle := length_le_length_flatMap_stringChar s.toList
  rw [readString, readStringChars_flatMap s.toList rest (by rw [List.length_append]; omega)]
  simp

/-! ## Blanks -/

/-- Characters that the reader passes over. -/
def Blank (cs : List Char) : Prop := ∀ c ∈ cs, isSpace c = true

theorem blank_nil : Blank [] := fun _ h => (List.not_mem_nil h).elim

theorem skipSpace_append {cs : List Char} (h : Blank cs) (rest : List Char) : skipSpace (cs ++ rest) = skipSpace rest :=
  List.dropWhile_append_of_pos h

theorem blank_lineStart (level : Nat) : Blank (lineStart level) := by
  intro c hc
  rcases List.mem_cons.mp hc with rfl | hc
  · rfl
  · rw [List.eq_of_mem_replicate hc]
    rfl

/-- A value is read behind blanks as without them. -/
theorem readValue_append {g : List Char} (h : Blank g) (bound depth : Nat) (cs : List Char) :
    readValue bound (depth + 1) (g ++ cs) = readValue bound (depth + 1) cs := by
  rw [readValue, readValue, skipSpace_append h]

theorem readValue_skipSpace (bound depth : Nat) (cs : List Char) :
    readValue bound (depth + 1) (skipSpace cs) = readValue bound (depth + 1) cs := by
  rw [readValue, readValue, show skipSpace (skipSpace cs) = skipSpace cs from List.dropWhile_idempotent _ _]

/-! ## Values -/

/-- The reader takes a text for a value, whatever follows. The value does not start with the end of a list. -/
structure Reads (cs : List Char) (j : Json) : Prop where
  starts : ∃ c tail, skipSpace cs = c :: tail ∧ c ≠ ']'
  read : ∀ (bound : Nat) {depth : Nat} (rest : List Char), cs.length ≤ bound → j.nesting < depth →
    readValue bound depth (cs ++ rest) = .ok (j, rest)

/-- The reader takes a text for items and the end of their list. -/
structure ReadsItems (cs : List Char) (items : List Json) : Prop where
  starts : ∃ c tail, skipSpace cs = c :: tail ∧ c ≠ ']'
  length : items.length ≤ cs.length
  read : ∀ (bound : Nat) {depth k : Nat} (rest : List Char), cs.length ≤ bound → nestingItems items < depth →
    items.length ≤ k →
    readItems (readValue bound depth) k (skipSpace (cs ++ rest)) = .ok (items, rest)

/-- The reader takes a text for members and the end of their object, where the first name has been opened. -/
structure ReadsMembers (cs : List Char) (members : List (String × Json)) : Prop where
  length : members.length ≤ cs.length
  read : ∀ (bound : Nat) {depth k : Nat} (rest : List Char), cs.length ≤ bound → nestingMembers members < depth →
    members.length ≤ k → readMembers (readValue bound depth) k (cs ++ rest) = .ok (members, rest)

theorem Reads.blank {g cs : List Char} {j : Json} (hg : Blank g) (h : Reads cs j) : Reads (g ++ cs) j where
  starts := by rw [skipSpace_append hg]; exact h.starts
  read := by
    intro bound depth rest hb hd
    obtain ⟨depth, rfl⟩ := Nat.exists_eq_add_one_of_ne_zero (Nat.ne_zero_of_lt hd)
    rw [List.append_assoc, readValue_append hg]
    exact h.read bound rest (by rw [List.length_append] at hb; omega) hd

/-- A text that is read as a value is parsed as it, up to the limit for nesting. -/
theorem Reads.parse {cs : List Char} {j : Json} (h : Reads cs j) (hn : j.nesting < nestingLimit) :
    Json.parse (String.ofList cs) = .ok j := by
  have hread := h.read (cs.length + 1) [] (Nat.le_succ _) hn
  rw [List.append_nil] at hread
  rw [Json.parse, String.toList_ofList, parseChars, Json.read, hread]
  rfl

/-- What starts with no end of a list does so whatever follows. -/
theorem starts_append {cs : List Char} (h : ∃ c tail, skipSpace cs = c :: tail ∧ c ≠ ']') (rest : List Char) :
    ∃ c tail, skipSpace (cs ++ rest) = c :: tail ∧ c ≠ ']' := by
  obtain ⟨c, tail, he, hc⟩ := h
  refine ⟨c, tail ++ rest, ?_, hc⟩
  rw [skipSpace, List.dropWhile_append, ← skipSpace, he]
  rfl

theorem reads_null : Reads ['n', 'u', 'l', 'l'] null where
  starts := ⟨'n', _, rfl, by decide⟩
  read := by
    intro bound depth rest _ hd
    cases depth with
    | zero => exact absurd hd (Nat.not_lt_zero _)
    | succ depth => rfl

theorem reads_true : Reads ['t', 'r', 'u', 'e'] (bool true) where
  starts := ⟨'t', _, rfl, by decide⟩
  read := by
    intro bound depth rest _ hd
    cases depth with
    | zero => exact absurd hd (Nat.not_lt_zero _)
    | succ depth => rfl

theorem reads_false : Reads ['f', 'a', 'l', 's', 'e'] (bool false) where
  starts := ⟨'f', _, rfl, by decide⟩
  read := by
    intro bound depth rest _ hd
    cases depth with
    | zero => exact absurd hd (Nat.not_lt_zero _)
    | succ depth => rfl

theorem reads_string (s : String) : Reads (stringChars s) (string s) where
  starts := ⟨'"', _, rfl, by decide⟩
  read := by
    intro bound depth rest _ hd
    cases depth with
    | zero => exact absurd hd (Nat.not_lt_zero _)
    | succ depth =>
      have h := readString_chars s rest
      simp only [stringChars, List.cons_append, List.append_assoc]
      simp [readValue, skipSpace, isSpace, h, Bind.bind, Except.bind, pure, Except.pure]

/-! ## Lists -/

section

variable {cs ds g : List Char} {j : Json} {items : List Json}

theorem ReadsItems.last (h : Reads cs j) (hg : Blank g) : ReadsItems (cs ++ g ++ [']']) [j] where
  starts := by
    rw [List.append_assoc]
    exact starts_append h.starts _
  length := by
    simp only [List.length_append, List.length_singleton]
    omega
  read := by
    intro bound depth k rest hb hd hk
    obtain ⟨k, rfl⟩ := Nat.exists_eq_add_one_of_ne_zero (Nat.ne_zero_of_lt hk)
    obtain ⟨depth, rfl⟩ := Nat.exists_eq_add_one_of_ne_zero (Nat.ne_zero_of_lt hd)
    simp only [List.length_append] at hb
    have hread := h.read bound (g ++ ']' :: rest) (by omega) (Nat.lt_of_le_of_lt (Nat.le_max_left _ _) hd)
    have hsep : readListSeparator (g ++ ']' :: rest) = .ok (false, rest) := by
      rw [readListSeparator, skipSpace_append hg]
      rfl
    simp [readItems, readValue_skipSpace, hread, hsep, Bind.bind, Except.bind, pure, Except.pure]

theorem ReadsItems.cons (h : Reads cs j) (hitems : ReadsItems ds items) :
    ReadsItems (cs ++ ',' :: ds) (j :: items) where
  starts := starts_append h.starts _
  length := by
    have := hitems.length
    simp only [List.length_append, List.length_cons]
    omega
  read := by
    intro bound depth k rest hb hd hk
    obtain ⟨k, rfl⟩ := Nat.exists_eq_add_one_of_ne_zero (Nat.ne_zero_of_lt hk)
    obtain ⟨depth, rfl⟩ := Nat.exists_eq_add_one_of_ne_zero (Nat.ne_zero_of_lt hd)
    simp only [List.length_append, List.length_cons] at hb hk
    have hread := h.read bound (',' :: ds ++ rest) (by omega) (Nat.lt_of_le_of_lt (Nat.le_max_left _ _) hd)
    have hmore := hitems.read bound (k := k) rest (by omega) (Nat.lt_of_le_of_lt (Nat.le_max_right _ _) hd)
      (by omega)
    have hsep : readListSeparator (',' :: ds ++ rest) = .ok (true, skipSpace (ds ++ rest)) := by
      obtain ⟨c, tail, he, hc⟩ := starts_append hitems.starts rest
      rw [readListSeparator, List.cons_append, show skipSpace (',' :: (ds ++ rest)) = ',' :: (ds ++ rest) from rfl]
      simp only [he]
      split
      · cases ‹c :: tail = []›
      · next h => exact absurd (List.cons.inj h).1 hc
      · rfl
    simp only [readItems, List.append_assoc, readValue_skipSpace, hread, hsep, hmore, Bind.bind, Except.bind, pure,
      Except.pure, if_true]

/-- Items in brackets are read as a list. -/
theorem ReadsItems.array (h : ReadsItems cs items) : Reads ('[' :: cs) (array items) where
  starts := ⟨'[', _, rfl, by decide⟩
  read := by
    intro bound depth rest hb hd
    obtain ⟨depth, rfl⟩ := Nat.exists_eq_add_one_of_ne_zero (Nat.ne_zero_of_lt hd)
    rw [nesting, Nat.add_lt_add_iff_right] at hd
    rw [List.length_cons] at hb
    have hread := h.read bound (k := bound) rest (by omega) hd (h.length.trans (by omega))
    obtain ⟨c, tail, he, hc⟩ := starts_append h.starts rest
    rw [List.cons_append, readValue, show skipSpace ('[' :: (cs ++ rest)) = '[' :: (cs ++ rest) from rfl]
    rw [he] at hread
    simp only [he]
    rw [if_neg (Nat.ne_zero_of_lt hd)]
    split
    · cases ‹c :: tail = []›
    · next h => exact absurd (List.cons.inj h).1 hc
    · simp only [hread, Bind.bind, Except.bind, pure, Except.pure]

theorem reads_array_nil : Reads ['[', ']'] (array []) where
  starts := ⟨'[', _, rfl, by decide⟩
  read := by
    intro bound depth rest _ hd
    match depth, hd with
    | depth + 2, _ => rfl

end

/-! ## Objects -/

section

variable {cs ds g : List Char} {key : String} {j : Json} {members : List (String × Json)}

/-- A name after its opening quote, with its closing quote and the colon. -/
def nameChars (key : String) : List Char := key.toList.flatMap stringChar ++ ['"', ':']

theorem readString_nameChars (key : String) (rest : List Char) :
    readString (nameChars key ++ rest) = .ok (key, ':' :: rest) := by
  rw [nameChars, List.append_assoc]
  exact readString_chars key (':' :: rest)

theorem ReadsMembers.last (h : Reads cs j) (hg : Blank g) :
    ReadsMembers (nameChars key ++ cs ++ g ++ ['}']) [(key, j)] where
  length := by
    simp only [List.length_append, List.length_singleton]
    omega
  read := by
    intro bound depth k rest hb hd hk
    obtain ⟨k, rfl⟩ := Nat.exists_eq_add_one_of_ne_zero (Nat.ne_zero_of_lt hk)
    simp only [List.length_append] at hb
    have hread := h.read bound (g ++ '}' :: rest) (by omega) (Nat.lt_of_le_of_lt (Nat.le_max_left _ _) hd)
    have hsep : readObjectSeparator (g ++ '}' :: rest) = .ok (false, rest) := by
      rw [readObjectSeparator, skipSpace_append hg]
      rfl
    have hcolon : ∀ cs, readColon (':' :: cs) = .ok ((), cs) := fun _ => rfl
    simp [readMembers, readString_nameChars, hcolon, hread, hsep, Bind.bind, Except.bind, pure, Except.pure]

theorem ReadsMembers.cons (h : Reads cs j) (hg : Blank g) (hmembers : ReadsMembers ds members) :
    ReadsMembers (nameChars key ++ cs ++ ',' :: g ++ '"' :: ds) ((key, j) :: members) where
  length := by
    have := hmembers.length
    simp only [List.length_append, List.length_cons]
    omega
  read := by
    intro bound depth k rest hb hd hk
    obtain ⟨k, rfl⟩ := Nat.exists_eq_add_one_of_ne_zero (Nat.ne_zero_of_lt hk)
    simp only [List.length_append, List.length_cons] at hb hk
    have hread := h.read bound (',' :: g ++ '"' :: ds ++ rest) (by omega)
      (Nat.lt_of_le_of_lt (Nat.le_max_left _ _) hd)
    have hmore := hmembers.read bound (k := k) rest (by omega) (Nat.lt_of_le_of_lt (Nat.le_max_right _ _) hd)
      (by omega)
    have hsep : readObjectSeparator (',' :: g ++ '"' :: ds ++ rest) = .ok (true, ds ++ rest) := by
      simp only [List.cons_append, List.append_assoc, readObjectSeparator]
      rw [show skipSpace (',' :: (g ++ '"' :: (ds ++ rest))) = ',' :: (g ++ '"' :: (ds ++ rest)) from rfl]
      simp only [skipSpace_append hg]
      rfl
    have hcolon : ∀ cs, readColon (':' :: cs) = .ok ((), cs) := fun _ => rfl
    simp only [List.cons_append, List.append_assoc] at hread hsep
    simp [readMembers, readString_nameChars, hcolon, hread, hsep, hmore, Bind.bind, Except.bind, pure, Except.pure]

/-- Members in braces are read as an object. -/
theorem ReadsMembers.object (h : ReadsMembers cs members) (hg : Blank g) :
    Reads ('{' :: g ++ '"' :: cs) (object members) where
  starts := ⟨'{', _, rfl, by decide⟩
  read := by
    intro bound depth rest hb hd
    obtain ⟨depth, rfl⟩ := Nat.exists_eq_add_one_of_ne_zero (Nat.ne_zero_of_lt hd)
    rw [nesting, Nat.add_lt_add_iff_right] at hd
    simp only [List.length_append, List.length_cons] at hb
    have hread := h.read bound (k := bound) rest (by omega) hd (h.length.trans (by omega))
    have hstart : readObjectStart (g ++ '"' :: (cs ++ rest)) = .ok (true, cs ++ rest) := by
      rw [readObjectStart, skipSpace_append hg]
      rfl
    simp only [List.cons_append, List.append_assoc]
    rw [readValue, show skipSpace ('{' :: (g ++ '"' :: (cs ++ rest))) = '{' :: (g ++ '"' :: (cs ++ rest)) from rfl]
    simp [Nat.ne_zero_of_lt hd, hstart, hread, Bind.bind, Except.bind, pure, Except.pure]

theorem reads_object_nil : Reads ['{', '}'] (object []) where
  starts := ⟨'{', _, rfl, by decide⟩
  read := by
    intro bound depth rest _ hd
    match depth, hd with
    | depth + 2, _ => rfl

end

/-! ## The text over several lines -/

mutual

theorem reads_pretty : ∀ (j : Json) (level : Nat), j.isNumberless = true → Reads (j.prettyChars level) j
  | null, _, _ => by rw [prettyChars]; exact reads_null
  | bool true, _, _ => by rw [prettyChars]; exact reads_true
  | bool false, _, _ => by rw [prettyChars]; exact reads_false
  | string s, _, _ => by rw [prettyChars]; exact reads_string s
  | array [], level, _ => by rw [prettyChars]; exact reads_array_nil
  | array (item :: items), level, h => by
    rw [prettyChars]
    exact (readsItems_pretty (item :: items) level (level + 1) h (by simp)).array
  | object [], level, _ => by rw [prettyChars]; exact reads_object_nil
  | object (m :: members), level, h => by
    obtain ⟨cs, he, hcs⟩ := readsMembers_pretty (m :: members) level (level + 1) h (List.cons_ne_nil _ _)
    have hobject := hcs.object (blank_lineStart (level + 1))
    rw [List.cons_append, ← he] at hobject
    rw [prettyChars]
    exact hobject

/-- Items on lines of their own, and the end of their list. -/
theorem readsItems_pretty : ∀ (items : List Json) (outer level : Nat), isNumberlessItems items = true → items ≠ [] →
    ReadsItems (prettyItems level items ++ lineStart outer ++ [']']) items
  | [item], outer, level, h, _ => by
    rw [isNumberlessItems, Bool.and_eq_true] at h
    have hitem := (reads_pretty item level h.1).blank (blank_lineStart level)
    simpa [prettyItems] using ReadsItems.last hitem (blank_lineStart outer)
  | item :: next :: items, outer, level, h, _ => by
    rw [isNumberlessItems, Bool.and_eq_true] at h
    have hitem := (reads_pretty item level h.1).blank (blank_lineStart level)
    have hitems := readsItems_pretty (next :: items) outer level h.2 (List.cons_ne_nil _ _)
    rw [prettyItems]
    simpa using ReadsItems.cons hitem hitems

/-- Members on lines of their own, and the end of their object. -/
theorem readsMembers_pretty :
    ∀ (members : List (String × Json)) (outer level : Nat), isNumberlessMembers members = true →
    members ≠ [] → ∃ cs, prettyMembers level members ++ lineStart outer ++ ['}'] = lineStart level ++ '"' :: cs ∧
      ReadsMembers cs members
  | [(key, value)], outer, level, h, _ => by
    rw [isNumberlessMembers, Bool.and_eq_true] at h
    have hvalue := (reads_pretty value level h.1).blank (g := [' ']) (by simp [Blank, isSpace])
    exact ⟨_, by simp [prettyMembers, stringChars, nameChars], ReadsMembers.last hvalue (blank_lineStart outer)⟩
  | (key, value) :: next :: members, outer, level, h, _ => by
    rw [isNumberlessMembers, Bool.and_eq_true] at h
    have hvalue := (reads_pretty value level h.1).blank (g := [' ']) (by simp [Blank, isSpace])
    obtain ⟨cs, he, hmembers⟩ := readsMembers_pretty (next :: members) outer level h.2 (List.cons_ne_nil _ _)
    refine ⟨_, ?_, ReadsMembers.cons hvalue (blank_lineStart level) hmembers⟩
    rw [prettyMembers]
    simp only [List.append_assoc] at he
    simp [stringChars, nameChars, he]

end

/-- **The text over several lines is parsed as its value**, up to the limit for nesting. -/
theorem parse_pretty {j : Json} (h : j.isNumberless = true) (hn : j.nesting < nestingLimit) :
    parse j.pretty = .ok j :=
  (reads_pretty j 0 h).parse hn

/-! ## The text without blanks -/

mutual

theorem reads_compact : ∀ j : Json, j.isNumberless = true → Reads j.compactChars j
  | null, _ => by rw [compactChars]; exact reads_null
  | bool true, _ => by rw [compactChars]; exact reads_true
  | bool false, _ => by rw [compactChars]; exact reads_false
  | string s, _ => by rw [compactChars]; exact reads_string s
  | array [], _ => by rw [compactChars]; exact reads_array_nil
  | array (item :: items), h => by
    rw [compactChars]
    exact (readsItems_compact (item :: items) h (List.cons_ne_nil _ _)).array
  | object [], _ => by rw [compactChars]; exact reads_object_nil
  | object (m :: members), h => by
    obtain ⟨cs, he, hcs⟩ := readsMembers_compact (m :: members) h (List.cons_ne_nil _ _)
    rw [compactChars, List.cons_append, he]
    exact hcs.object (g := []) blank_nil

/-- Items behind each other, and the end of their list. -/
theorem readsItems_compact : ∀ items : List Json, isNumberlessItems items = true → items ≠ [] →
    ReadsItems (itemChars items ++ [']']) items
  | [item], h, _ => by
    rw [isNumberlessItems, Bool.and_eq_true] at h
    simpa [itemChars] using ReadsItems.last (reads_compact item h.1) blank_nil
  | item :: next :: items, h, _ => by
    rw [isNumberlessItems, Bool.and_eq_true] at h
    have hitems := readsItems_compact (next :: items) h.2 (List.cons_ne_nil _ _)
    rw [itemChars]
    simpa using ReadsItems.cons (reads_compact item h.1) hitems

/-- Members behind each other, and the end of their object. -/
theorem readsMembers_compact : ∀ members : List (String × Json), isNumberlessMembers members = true → members ≠ [] →
    ∃ cs, memberChars members ++ ['}'] = '"' :: cs ∧ ReadsMembers cs members
  | [(key, value)], h, _ => by
    rw [isNumberlessMembers, Bool.and_eq_true] at h
    exact ⟨_, by simp [memberChars, stringChars, nameChars], ReadsMembers.last (reads_compact value h.1) blank_nil⟩
  | (key, value) :: next :: members, h, _ => by
    rw [isNumberlessMembers, Bool.and_eq_true] at h
    obtain ⟨cs, he, hmembers⟩ := readsMembers_compact (next :: members) h.2 (List.cons_ne_nil _ _)
    refine ⟨_, ?_, ReadsMembers.cons (reads_compact value h.1) blank_nil hmembers⟩
    rw [memberChars]
    simp [stringChars, nameChars, he]

end

/-- **The text without blanks is parsed as its value**, up to the limit for nesting. -/
theorem parse_compact {j : Json} (h : j.isNumberless = true) (hn : j.nesting < nestingLimit) :
    parse j.compact = .ok j :=
  (reads_compact j h).parse hn

end SchemaWeave.Json
