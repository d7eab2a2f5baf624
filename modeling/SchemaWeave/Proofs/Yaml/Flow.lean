import Mathlib.Data.List.Basic
import SchemaWeave.Proofs.Yaml.Folding
import SchemaWeave.Yaml.Mapping

/-!
# JSON objects as flow mappings

A document of JSON that is also one of YAML is a mapping in braces with the members of the object as its entries: the blanks
between tokens are the same (`skipFrom_token`), words are plain scalars (`readPlainFrom_letters`), and strings are scalars in
double quotes, but for what folding takes from them (`SameScalar`, `SameEntries`). Each reader takes a spelling of JSON to the
same place if it takes it at all; `readMapping_document` puts them together.
-/

namespace SchemaWeave.Yaml

open Json (Inside Spells SpellsMembers SpellsDocument Word skipSpace isSpace bind_eq_ok)

/-! ## Passing over blanks -/

/-- The characters that tokens of JSON start with where there are no numbers. -/
def tokenStarts : List Char := ['{', '}', '[', ']', ':', ',', '"', 'n', 't', 'f']

theorem isSpace_of_token : ∀ c ∈ tokenStarts, isSpace c = false := List.forall_iff_forall_mem.mp (by decide)

theorem stops_of_token : ∀ c ∈ tokenStarts, isBreak c = false ∧ c ≠ '#' ∧ isBlank c = false ∧ c ≠ byteOrderMark :=
  List.forall_iff_forall_mem.mp (by decide)

theorem skipSpace_cons_of_isSpace {c : Char} (h : isSpace c = true) (cs : List Char) : skipSpace (c :: cs) = skipSpace cs :=
  List.dropWhile_cons_of_pos h

theorem skipSpace_cons_of_token {c : Char} (h : c ∈ tokenStarts) (cs : List Char) : skipSpace (c :: cs) = c :: cs :=
  List.dropWhile_cons_of_neg (by simp [isSpace_of_token _ h])

theorem skipFrom_cons (flow comment : Bool) (column : Nat) (fresh : Bool) {c : Char} {cs : List Char}
    (h : ∀ cs', c = '\r' → cs = '\n' :: cs' → False) : skipFrom flow comment column fresh (c :: cs) =
      if isBreak c then skipFrom flow false 0 (fresh || !flow) cs
      else if comment || c == '#' then skipFrom flow true (column + 1) fresh cs
      else if c == ' ' || (c == '\t' && (flow || !fresh)) || (c == byteOrderMark && column == 0) then
        skipFrom flow false (column + 1) fresh cs
      else ⟨c :: cs, column, fresh⟩ := by
  rw [skipFrom]
  exact h

/-- A character before a token is a blank, or starts the token. -/
theorem isSpace_or_eq {c ch : Char} {cs rest : List Char} (h : skipSpace (c :: cs) = ch :: rest) :
    isSpace c = true ∧ skipSpace cs = ch :: rest ∨ c = ch ∧ cs = rest := by
  cases hspace : isSpace c with
  | true => exact Or.inl ⟨rfl, (skipSpace_cons_of_isSpace hspace cs).symm.trans h⟩
  | false =>
    rw [skipSpace, List.dropWhile_cons_of_neg (by simp [hspace])] at h
    cases h
    exact Or.inr ⟨rfl, rfl⟩

/-- Where JSON has blanks before a token YAML has them too, but for a tab where an entry might start. -/
theorem skipFrom_token {cs rest : List Char} {ch : Char} (hch : ch ∈ tokenStarts) (h : skipSpace cs = ch :: rest) (flow : Bool)
    (column : Nat) (fresh : Bool) : (skipFrom flow false column fresh cs).rest = ch :: rest ∨
      ¬flow = true ∧ (skipFrom flow false column fresh cs).fresh = true ∧
        (skipFrom flow false column fresh cs).rest.head? = some '\t' := by
  obtain ⟨hbreak, hmark, hblank, hbom⟩ := stops_of_token _ hch
  generalize hcomment : false = comment
  induction comment, column, fresh, cs using skipFrom.induct flow with
  | case1 => cases h
  | case2 comment column fresh cs ih =>
    rw [skipFrom]
    exact ih h rfl
  | case3 comment column fresh c cs hcrlf hc ih =>
    rw [skipFrom_cons _ _ _ _ hcrlf, if_pos hc]
    rcases isSpace_or_eq h with ⟨-, h⟩ | ⟨rfl, -⟩
    · exact ih h rfl
    · exact absurd hc (by simp [hbreak])
  | case4 comment column fresh c cs hcrlf hc hhash ih =>
    subst hcomment
    have hc : c = '#' := by simpa using hhash
    subst hc
    rcases isSpace_or_eq h with ⟨hspace, -⟩ | ⟨rfl, -⟩
    · cases hspace
    · exact absurd rfl hmark
  | case5 comment column fresh c cs hcrlf hc hhash hskip ih =>
    rw [skipFrom_cons _ _ _ _ hcrlf, if_neg hc, if_neg hhash, if_pos hskip]
    rcases isSpace_or_eq h with ⟨-, h⟩ | ⟨rfl, -⟩
    · exact ih h rfl
    · have hne : c ≠ ' ' ∧ c ≠ '\t' := by simpa [isBlank] using hblank
      simp [hne, hbom] at hskip
  | case6 comment column fresh c cs hcrlf hc hhash hskip =>
    rw [skipFrom_cons _ _ _ _ hcrlf, if_neg hc, if_neg hhash, if_neg hskip]
    rcases isSpace_or_eq h with ⟨hspace, -⟩ | ⟨rfl, rfl⟩
    · have hc : c = ' ' ∨ c = '\n' ∨ c = '\t' ∨ c = '\r' := by simpa [isSpace, or_assoc] using hspace
      rcases hc with rfl | rfl | rfl | rfl
      · exact absurd rfl hskip
      · exact absurd rfl hc
      · have hstays : ¬flow = true ∧ fresh = true := by simpa [byteOrderMark] using hskip
        exact Or.inr ⟨hstays.1, hstays.2, rfl⟩
      · exact absurd rfl hc
    · exact Or.inl rfl

theorem skipToToken_token {c c' : Cursor} {ch : Char} {rest : List Char} (hch : ch ∈ tokenStarts)
    (h : skipSpace c.rest = ch :: rest) (hread : skipToToken true c = .ok c') : c'.rest = ch :: rest := by
  rw [skipToToken] at hread
  split at hread <;> cases hread
  exact (skipFrom_token hch h true c.column c.fresh).resolve_right fun h => h.1 rfl

/-! ## Words -/

theorem readPlainFrom_cons (gap : Gap) (column : Nat) {c : Char} {cs : List Char}
    (h : ∀ cs', c = '\r' → cs = '\n' :: cs' → False) :
    readPlainFrom true 0 gap column (c :: cs) =
      if isBlank c then readPlainFrom true 0 (gap.addBlank c) (column + 1) cs
      else if isBreak c then readPlainFrom true 0 (gap.addBreak (breakChar c)) 0 cs
      else if !gap.isNone && endsAtGap true 0 column c cs then .ok ([], ⟨c :: cs, column, gap.isBroken⟩)
      else if isStrayColon true c cs then .error .unexpected
      else if endsPlain true c cs then .ok ([], ⟨c :: cs, column, gap.isBroken⟩)
      else do
        let (text, cursor) ← readPlainFrom true 0 .none (column + 1) cs
        return (gap.text ++ c :: text, cursor) := by
  rw [readPlainFrom]
  · simp
  · exact h

theorem isBlank_or_isBreak {c : Char} (h : isSpace c = true) : isBlank c = true ∨ isBreak c = true := by
  have hc : c = ' ' ∨ c = '\n' ∨ c = '\t' ∨ c = '\r' := by simpa [isSpace, or_assoc] using h
  rcases hc with rfl | rfl | rfl | rfl <;> decide

/-- A word ends before punctuation, and before the blanks in front of it. -/
theorem readPlainFrom_end {cs rest : List Char} {ch : Char} (hch : ch ∈ [',', '}']) (h : skipSpace cs = ch :: rest) (gap : Gap)
    (column : Nat) : ∃ c', readPlainFrom true 0 gap column cs = .ok ([], c') ∧ c'.rest = ch :: rest := by
  have hstop : isBlank ch = false ∧ isBreak ch = false ∧ ch ≠ ':' ∧ (∀ cs, endsPlain true ch cs = true) := by
    rcases List.mem_pair.mp hch with rfl | rfl <;> exact ⟨rfl, rfl, by decide, fun cs => rfl⟩
  induction gap, column, cs using readPlainFrom.induct true 0 with
  | case1 => cases h
  | case2 column gap cs ih =>
    rw [readPlainFrom]
    exact ih h
  | case3 gap column c cs hcrlf hblank htab => simp at htab
  | case4 gap column c cs hcrlf hblank htab ih =>
    rw [readPlainFrom_cons _ _ hcrlf, if_pos hblank]
    rcases isSpace_or_eq h with ⟨-, h⟩ | ⟨rfl, -⟩
    · exact ih h
    · exact absurd hblank (by simp [hstop.1])
  | case5 gap column c cs hcrlf hblank hbreak ih =>
    rw [readPlainFrom_cons _ _ hcrlf, if_neg hblank, if_pos hbreak]
    rcases isSpace_or_eq h with ⟨-, h⟩ | ⟨rfl, -⟩
    · exact ih h
    · exact absurd hbreak (by simp [hstop.2.1])
  | case6 gap column c cs hcrlf hblank hbreak
  | case7 gap column c cs hcrlf hblank hbreak
  | case8 gap column c cs hcrlf hblank hbreak
  | case9 gap column c cs hcrlf hblank hbreak =>
    -- the token itself
    rcases isSpace_or_eq h with ⟨hspace, -⟩ | ⟨rfl, rfl⟩
    · exact absurd (isBlank_or_isBreak hspace) (not_or.mpr ⟨hblank, hbreak⟩)
    · have hcolon : ¬isStrayColon true c cs = true := by simp [isStrayColon, hstop.2.2.1]
      refine ⟨⟨c :: cs, column, gap.isBroken⟩, ?_, rfl⟩
      rw [readPlainFrom_cons _ _ hcrlf, if_neg hblank, if_neg hbreak, if_neg hcolon, if_pos (hstop.2.2.2 cs), ite_self]

/-- The letters of words. -/
def wordLetters : List Char := ['n', 'u', 'l', 't', 'r', 'e', 'f', 'a', 's']

theorem stops_of_letter : ∀ c ∈ wordLetters, isBlank c = false ∧ isBreak c = false ∧ c ≠ ':' ∧ c ≠ '\r' ∧
    c ∉ [',', '[', ']', '{', '}'] :=
  List.forall_iff_forall_mem.mp (by decide)

theorem letters_of_word {letters : List Char} {j : Json} (h : Word letters j) : ∀ c ∈ letters, c ∈ wordLetters := by
  cases h <;> exact List.forall_iff_forall_mem.mp (by decide)

/-- A word of JSON is a scalar of its letters. -/
theorem readPlainFrom_letters {letters cs rest : List Char} {ch : Char} (hletters : ∀ c ∈ letters, c ∈ wordLetters)
    (hch : ch ∈ [',', '}']) (h : skipSpace cs = ch :: rest) (column : Nat) :
    ∃ c', readPlainFrom true 0 .none column (letters ++ cs) = .ok (letters, c') ∧ c'.rest = ch :: rest := by
  induction letters generalizing column with
  | nil => exact readPlainFrom_end hch h .none column
  | cons c letters ih =>
    obtain ⟨c', hread, hrest⟩ := ih (fun d hd => hletters d (List.mem_cons_of_mem _ hd)) (column + 1)
    obtain ⟨hblank, hbreak, hcolon, hreturn, hpunct⟩ := stops_of_letter _ (hletters c List.mem_cons_self)
    have hstray : isStrayColon true c (letters ++ cs) = false := by simp [isStrayColon, hcolon]
    have hends : endsPlain true c (letters ++ cs) = false := by simpa [endsPlain, hcolon] using hpunct
    refine ⟨c', ?_, hrest⟩
    rw [List.cons_append, readPlainFrom_cons _ _ fun _ h => absurd h hreturn, hblank, hbreak, hstray, hends]
    exact bind_eq_ok.mpr ⟨_, hread, rfl⟩

/-! ## Scalars -/

/-- The scalar that a value of JSON is; `lost` says whether folding takes something from it. -/
inductive SameScalar : (lost : Bool) → Json → Scalar → Prop
  | string {lost : Bool} {s : String} {t : List Char} (h : Folded lost s.toList t) :
    SameScalar lost (.string s) { text := String.ofList t, style := .quoted, tag := none }
  | word {letters : List Char} {j : Json} (hw : Word letters j) :
    SameScalar false j { text := String.ofList letters, style := .plain, tag := none }

theorem readScalarText?_quote {c : Cursor} {cs : List Char} (hrest : c.rest = '"' :: cs)
    {o : Option ((List Char × Style) × Cursor)}
    (h : readScalarText? .flow c = .ok o) : ∃ t c', readDouble (c.next cs) = .ok (t, c') ∧ o = some ((t, .quoted), c') := by
  rw [readScalarText?, hrest] at h
  obtain ⟨⟨t, c'⟩, hread, h⟩ := bind_eq_ok.mp h
  cases h
  exact ⟨t, c', hread, rfl⟩

theorem readScalarText?_word {c : Cursor} {letters cs : List Char} {j : Json} (hw : Word letters j)
    (hrest : c.rest = letters ++ cs) {o : Option ((List Char × Style) × Cursor)} (h : readScalarText? .flow c = .ok o) :
    ∃ t c', readPlain true 0 c = .ok (t, c') ∧ o = some ((t, .plain), c') := by
  cases hw <;>
    rw [readScalarText?, hrest] at h <;>
    obtain ⟨⟨t, c'⟩, hread, h⟩ := bind_eq_ok.mp h <;>
    cases h <;>
    exact ⟨t, c', hread, rfl⟩

theorem isWord_of_token {c : Char} (h : c ∈ tokenStarts) : IsWord c := by
  have hascii : ∀ c ∈ tokenStarts, 0x21 ≤ c.val ∧ c.val ≤ 0x7E := List.forall_iff_forall_mem.mp (by decide)
  exact (isWord_of_ascii (hascii c h).1 (hascii c h).2).1

theorem isWord_of_letter {c : Char} (h : c ∈ wordLetters) : IsWord c := by
  have hascii : ∀ c ∈ wordLetters, 0x21 ≤ c.val ∧ c.val ≤ 0x7E := List.forall_iff_forall_mem.mp (by decide)
  exact (isWord_of_ascii (hascii c h).1 (hascii c h).2).1

theorem folds_word {letters : List Char} {j : Json} (hw : Word letters j) (last : Last) (rest : List Char) :
    folds last (letters ++ rest) = folds .word rest := by
  have hletters := letters_of_word hw
  cases hw <;>
    exact (folds_cons (isWord_of_letter (hletters _ List.mem_cons_self)) _).trans
      (folds_append (fun c hc => isWord_of_letter (hletters c (List.mem_cons_of_mem _ hc))) rest)

section Nodes

variable (handles : TagHandles) (stops : Cursor → Bool) (anchors : Anchors)

/-- The characters that nodes start with which are no scalars without properties. -/
def nodeSigns : List Char := ['*', '&', '!']

theorem token_of_scalar : ∀ ch ∈ ['n', 't', 'f', '"'], ch ∈ tokenStarts ∧ ch ∉ nodeSigns ∧ ch ≠ ',' ∧ ch ≠ '}' :=
  List.forall_iff_forall_mem.mp (by decide)

theorem token_of_punctuation : ∀ ch ∈ [',', '}'], ch ∈ tokenStarts := List.forall_iff_forall_mem.mp (by decide)

theorem readProperties_of_not_sign {c : Cursor} {ch : Char} {rest : List Char} (hch : ch ∉ nodeSigns)
    (hrest : c.rest = ch :: rest) (flow : Bool) : readProperties handles flow stops mostProperties {} c = .ok ({}, c) := by
  have hnone : readProperty? handles flow c = .ok none := by
    rw [readProperty?, hrest]
    split
    · next h => cases h; exact absurd (by decide) hch
    · next h => cases h; exact absurd (by decide) hch
    · rfl
  rw [mostProperties, readProperties, hnone]
  rfl

/-- A node without properties that is no alias is its scalar. -/
theorem readNode_of_not_sign {c : Cursor} {ch : Char} {rest : List Char} (hch : ch ∉ nodeSigns) (hrest : c.rest = ch :: rest)
    {context : Context} {node : Node} {anchors' : Anchors} {c' : Cursor}
    (h : readNode handles context stops anchors c = .ok (node, anchors', c')) : anchors' = anchors ∧ ∃ text,
      readScalarText? context c = .ok (some (text, c')) ∧ node = .scalar (scalarOf {} (some text)) := by
  rw [readNode, hrest] at h
  split at h
  · next heq => cases heq; exact absurd (by decide) hch
  obtain ⟨⟨s, anchors₁, c₁⟩, hscalar, h⟩ := bind_eq_ok.mp h
  cases h
  obtain ⟨⟨p, c₂⟩, hproperties, hscalar⟩ := bind_eq_ok.mp hscalar
  rw [readProperties_of_not_sign handles stops hch hrest] at hproperties
  cases hproperties
  obtain ⟨text, htext, hscalar⟩ := bind_eq_ok.mp hscalar
  rcases text with _ | ⟨text, c₃⟩
  · cases hscalar
  · cases hscalar
    exact ⟨rfl, text, htext, rfl⟩

/-- Before a string anything may end, before a word only punctuation: what comes behind a value of JSON. -/
def EndsValue (j : Json) (rest : List Char) : Prop :=
  (∃ s, j = .string s) ∨ ∃ ch rest', skipSpace rest = ch :: rest' ∧ ch ∈ [',', '}']

/-- A scalar of JSON that is read as a node in braces is the same scalar, but for what folding takes from it. -/
theorem readNode_spells {cs rest : List Char} {j : Json} (h : Spells cs j rest) (hends : EndsValue j rest) {c c' : Cursor}
    (hrest : c.rest = skipSpace cs) {node : Node} {anchors' : Anchors}
    (hread : readNode handles .flow stops anchors c = .ok (node, anchors', c')) : anchors' = anchors ∧ ∃ lost value,
      node = .scalar value ∧ SameScalar lost j value ∧ folds .word cs = (lost || folds .word rest) ∧
        skipSpace c'.rest = skipSpace rest := by
  obtain ⟨ch, tail, hstarts, hch⟩ := h.starts
  obtain ⟨rfl, text, htext, rfl⟩ := readNode_of_not_sign handles stops anchors (token_of_scalar _ hch).2.1
    (hrest.trans hstarts) hread
  refine ⟨rfl, ?_⟩
  cases h with
  | word hw hcs =>
    obtain ⟨t, c₁, hplain, heq⟩ := readScalarText?_word hw (hrest.trans hcs) htext
    cases heq
    obtain ⟨ch', rest', hnext, hch'⟩ : ∃ ch rest', skipSpace rest = ch :: rest' ∧ ch ∈ [',', '}'] := by
      rcases hends with ⟨s, rfl⟩ | hends
      · cases hw
      · exact hends
    obtain ⟨c₂, hread, hrest₂⟩ := readPlainFrom_letters (letters_of_word hw) hch' hnext c.column
    rw [readPlain, hrest, hcs, hread] at hplain
    cases hplain
    refine ⟨_, _, rfl, .word hw, ?_, ?_⟩
    · obtain ⟨last, -, heq⟩ := exists_folds_skipSpace (show Last.word ≠ .separator by decide) cs
      rw [heq, hcs, folds_word hw, Bool.false_or]
    · rw [hrest₂, hnext, skipSpace_cons_of_token (token_of_punctuation _ hch')]
  | string hs hcs =>
    obtain ⟨t, c₁, hdouble, heq⟩ := readScalarText?_quote (hrest.trans hcs) htext
    cases heq
    obtain ⟨hend, hfolded⟩ := readDouble_inside hs rfl hdouble
    refine ⟨_, _, rfl, .string hfolded, ?_, by rw [hend]⟩
    rw [folds_skipSpace hcs (isWord_of_token (by decide)), folds_append_cons (isWord_of_token (by decide))]

/-- After a scalar in braces comes the next token. -/
theorem readFlowNode_spells {cs rest tail : List Char} {j : Json} {ch : Char} (h : Spells cs j rest) (hends : EndsValue j rest)
    (hnext : skipSpace rest = ch :: tail) (hch : ch ∈ tokenStarts) {c c' : Cursor} (hrest : c.rest = skipSpace cs) {node : Node}
    {anchors' : Anchors} (hread : readFlowNode handles anchors c = .ok (node, anchors', c')) :
    anchors' = anchors ∧ ∃ lost value,
      node = .scalar value ∧ SameScalar lost j value ∧ folds .word cs = (lost || folds .word rest) ∧ c'.rest = ch :: tail := by
  obtain ⟨⟨node', anchors₁, c₁⟩, hnode, hread⟩ := bind_eq_ok.mp hread
  obtain ⟨c₂, hskip, hread⟩ := bind_eq_ok.mp hread
  cases hread
  obtain ⟨hanchors, lost, value, hvalue, hsame, hfolds, hrest₁⟩ := readNode_spells handles _ anchors h hends hrest hnode
  exact ⟨hanchors, lost, value, hvalue, hsame, hfolds, skipToToken_token hch (hrest₁.trans hnext) hskip⟩

/-- The value of a member, behind the colon. -/
theorem readFlowValue_spells {key : Node} {cs rest tail : List Char} {j : Json} {ch : Char} (h : Spells cs j rest)
    (hnext : skipSpace rest = ch :: tail) (hch : ch ∈ [',', '}']) {c c' : Cursor} (hrest : c.rest = cs) {pair : NodePair}
    {anchors' : Anchors} (hread : readFlowValue handles key anchors c = .ok (pair, anchors', c')) : anchors' = anchors ∧
      ∃ lost value, pair = (key, .scalar value) ∧ SameScalar lost j value ∧ folds .word cs = (lost || folds .word rest) ∧
        c'.rest = ch :: tail := by
  obtain ⟨c₁, hskip, hread⟩ := bind_eq_ok.mp hread
  obtain ⟨first, tail', hstarts, hfirst⟩ := h.starts
  obtain ⟨htoken, -, hcomma, hclose⟩ := token_of_scalar _ hfirst
  have hrest₁ : c₁.rest = first :: tail' := skipToToken_token htoken ((congrArg skipSpace hrest).trans hstarts) hskip
  have hends : endsFlowEntry c₁ = false := by simp [endsFlowEntry, hrest₁, hcomma, hclose]
  rw [hends, if_neg Bool.false_ne_true] at hread
  obtain ⟨⟨node, anchors₁, c₂⟩, hnode, hread⟩ := bind_eq_ok.mp hread
  cases hread
  obtain ⟨hanchors, lost, value, rfl, hsame, hfolds, hrest₂⟩ := readFlowNode_spells handles anchors h
    (Or.inr ⟨ch, tail, hnext, hch⟩)
    hnext (token_of_punctuation _ hch) (hrest₁.trans hstarts.symm) hnode
  exact ⟨hanchors, lost, value, rfl, hsame, hfolds, hrest₂⟩

/-- A member of an object is an entry of its name and its value. -/
theorem readFlowEntry_member {key cs cs' rest tail : List Char} {name : String} {j : Json} {ch : Char}
    (hkey : Inside key name.toList) (hcolon : skipSpace cs = ':' :: cs') (hvalue : Spells cs' j rest)
    (hnext : skipSpace rest = ch :: tail) (hch : ch ∈ [',', '}']) {c c' : Cursor} (hrest : c.rest = '"' :: (key ++ '"' :: cs)) {pair : NodePair} {anchors' : Anchors}
    (hread : readFlowEntry handles anchors c = .ok (pair, anchors', c')) : anchors' = anchors ∧ ∃ lost lost' k v,
      pair = (.scalar k, .scalar v) ∧ SameScalar lost (.string name) k ∧ SameScalar lost' j v ∧
        folds .word (key ++ '"' :: cs) = (lost || lost' || folds .word rest) ∧ c'.rest = ch :: tail := by
  have hquote : skipSpace ('"' :: (key ++ '"' :: cs)) = '"' :: (key ++ '"' :: cs) := skipSpace_cons_of_token (by decide) _
  have hopen : folds .word ('"' :: (key ++ '"' :: cs)) = folds .word (key ++ '"' :: cs) :=
    folds_cons (isWord_of_token (by decide)) _
  have hskipped : folds .word cs = folds .word cs' := folds_skipSpace hcolon (isWord_of_token (by decide))
  rw [readFlowEntry, hrest] at hread
  obtain ⟨start, hstart, hread⟩ := bind_eq_ok.mp hread
  cases hstart
  obtain ⟨⟨node, anchors₁, c₁⟩, hnode, hread⟩ := bind_eq_ok.mp hread
  obtain ⟨rfl, lost, k, rfl, hk, hfolds, hrest₁⟩ := readFlowNode_spells handles anchors (.string hkey hquote)
    (Or.inl ⟨name, rfl⟩)
    hcolon (by decide) (hrest.trans hquote.symm) hnode
  dsimp only at hread
  rw [hrest₁] at hread
  split at hread
  · next heq =>
    cases heq
    split at hread
    · obtain ⟨rfl, lost', v, rfl, hv, hfolds', hrest₂⟩ := readFlowValue_spells handles _ hvalue hnext hch rfl hread
      refine ⟨rfl, lost, lost', k, v, rfl, hk, hv, ?_, hrest₂⟩
      rw [← hopen, hfolds, hskipped, hfolds', Bool.or_assoc]
    · cases hread
  · next hne => exact absurd rfl (hne cs')

end Nodes

/-! ## Objects -/

/-- The entries that the members of an object are; `lost` says whether folding takes something from one of them. -/
inductive SameEntries : (lost : Bool) → List (String × Json) → List Entry → Prop
  | nil : SameEntries false [] []
  | cons {lost lost' lost'' : Bool} {name : String} {j : Json} {k v : Scalar} {members : List (String × Json)}
      {entries : List Entry}
      (hk : SameScalar lost (.string name) k) (hv : SameScalar lost' j v) (h : SameEntries lost'' members entries) :
    SameEntries (lost || lost' || lost'') ((name, j) :: members) ((k, v) :: entries)

/-- An entry as it is written where there are no aliases. -/
def written (e : Entry) : NodePair := (.scalar e.1, .scalar e.2)

section Objects

variable (handles : TagHandles) (anchors : Anchors)

/-- The members of an object that are read as entries are the same entries, but for what folding takes from them. -/
theorem readFlowEntries_members {cs rest : List Char} {members : List (String × Json)} (h : SpellsMembers cs members rest)
    {bound : Nat} {c c' : Cursor} (hrest : skipSpace c.rest = '"' :: cs) {pairs : List NodePair} {anchors' : Anchors}
    (hread : readFlowEntries handles bound anchors c = .ok (pairs, anchors', c')) :
    ∃ lost entries, pairs = entries.map written ∧
      SameEntries lost members entries ∧ folds .word cs = (lost || folds .word rest) ∧ c'.rest = rest := by
  induction h generalizing bound anchors c pairs with
  | last hkey hcolon hvalue hend =>
    cases bound with
    | zero => cases hread
    | succ bound =>
      obtain ⟨c₁, hskip, hread⟩ := bind_eq_ok.mp hread
      have hrest₁ := skipToToken_token (by decide) hrest hskip
      rw [hrest₁] at hread
      obtain ⟨⟨pair, anchors₁, c₂⟩, hentry, hread⟩ := bind_eq_ok.mp hread
      obtain ⟨rfl, lost, lost', k, v, rfl, hk, hv, hfolds, hrest₂⟩ :=
        readFlowEntry_member handles anchors hkey hcolon hvalue hend (by decide) hrest₁ hentry
      dsimp only at hread
      rw [hrest₂] at hread
      cases hread
      refine ⟨_, _, rfl, .cons hk hv .nil, ?_, rfl⟩
      rw [hfolds, Bool.or_false, folds_skipSpace hend (isWord_of_token (by decide))]
  | cons hkey hcolon hvalue hcomma hquote h ih =>
    cases bound with
    | zero => cases hread
    | succ bound =>
      obtain ⟨c₁, hskip, hread⟩ := bind_eq_ok.mp hread
      have hrest₁ := skipToToken_token (by decide) hrest hskip
      rw [hrest₁] at hread
      obtain ⟨⟨pair, anchors₁, c₂⟩, hentry, hread⟩ := bind_eq_ok.mp hread
      obtain ⟨rfl, lost, lost', k, v, rfl, hk, hv, hfolds, hrest₂⟩ :=
        readFlowEntry_member handles anchors hkey hcolon hvalue hcomma (by decide) hrest₁ hentry
      dsimp only at hread
      rw [hrest₂] at hread
      obtain ⟨⟨pairs', anchors₂, c₃⟩, hmore, hread⟩ := bind_eq_ok.mp hread
      cases hread
      obtain ⟨lost'', entries, rfl, hsame, hfolds', hrest₃⟩ := ih _ hquote hmore
      refine ⟨_, _, rfl, .cons hk hv hsame, ?_, hrest₃⟩
      rw [hfolds, folds_skipSpace hcomma (isWord_of_token (by decide)), folds_skipSpace hquote (isWord_of_token (by decide)),
        hfolds']
      simp only [Bool.or_assoc]

end Objects

/-! ## Documents -/

/-- A place where an object or a list of JSON starts, or else a tab where an entry might start. -/
def AtStart (c : Cursor) (ch : Char) (rest : List Char) : Prop :=
  c.rest = ch :: rest ∨ c.fresh = true ∧ ∃ tail, c.rest = '\t' :: tail

theorem startsMarker_of_ne {mark ch : Char} (h : ch ≠ mark) (cs : List Char) : startsMarker mark (ch :: cs) = false := by
  rcases cs with _ | ⟨b, _ | ⟨c, cs⟩⟩
  · rfl
  · rfl
  · simp [startsMarker, h]

theorem signs_of_start : ∀ ch ∈ ['{', '[', '\t'], ch ≠ '%' ∧ ch ≠ '-' ∧ ch ≠ '.' ∧ ch ∉ nodeSigns ∧ ch ≠ '?' :=
  List.forall_iff_forall_mem.mp (by decide)

section Documents

variable {c : Cursor} {ch : Char} {rest : List Char}

theorem atStart_skip (hch : ch ∈ tokenStarts) (h : skipSpace c.rest = ch :: rest) : AtStart (c.skip false) ch rest := by
  rcases skipFrom_token hch h false c.column c.fresh with hrest | ⟨-, hfresh, htab⟩
  · exact Or.inl hrest
  · exact Or.inr ⟨hfresh, List.head?_eq_some_iff.mp htab⟩

theorem AtStart.skip (h : AtStart c ch rest) (hch : ch ∈ tokenStarts) : AtStart (c.skip false) ch rest := by
  rcases h with hrest | ⟨hfresh, tail, htab⟩
  · exact atStart_skip hch (hrest ▸ skipSpace_cons_of_token hch rest)
  · have hskip : c.skip false = ⟨'\t' :: tail, c.column, c.fresh⟩ := by
      rw [Cursor.skip, htab, skipFrom_cons _ _ _ _ (fun _ h => absurd h (by decide)), hfresh]
      rfl
    rw [hskip]
    exact Or.inr ⟨hfresh, tail, rfl⟩

theorem AtStart.exists_head (h : AtStart c ch rest) (hch : ch ∈ ['{', '[']) :
    ∃ ch' tail, c.rest = ch' :: tail ∧ ch' ∈ ['{', '[', '\t'] := by
  rcases h with hrest | ⟨-, tail, htab⟩
  · exact ⟨ch, rest, hrest, List.mem_append_left ['\t'] hch⟩
  · exact ⟨'\t', tail, htab, by decide⟩

theorem readStart_atStart (h : AtStart (c.skip false) ch rest)
    (hch : ch ∈ ['{', '[']) {bound : Nat} {d d' : Directives} {marked : Bool}
    {c' : Cursor} (hread : readStart bound d c = .ok (d', marked, c')) : marked = false ∧ c' = c.skip false := by
  obtain ⟨ch', tail, hrest, hch'⟩ := h.exists_head hch
  cases bound with
  | zero => cases hread
  | succ bound =>
    obtain ⟨hpercent, hdash, -⟩ := signs_of_start _ hch'
    rw [readStart] at hread
    dsimp only at hread
    rw [hrest] at hread
    split at hread
    · next heq => cases heq; exact absurd rfl hpercent
    · rw [startsMarker_of_ne hdash, Bool.and_false, if_neg Bool.false_ne_true] at hread
      cases hread
      exact ⟨rfl, rfl⟩

/-- No block mapping starts with a bracket or a tab. -/
theorem readBlockEntries_ne_ok {handles : TagHandles} {indent bound : Nat} {anchors : Anchors} (hch : ch ∈ ['[', '\t'])
    (hrest : c.rest = ch :: rest) {r : List NodePair × Anchors × Cursor} :
    readBlockEntries handles indent bound anchors c ≠ .ok r := by
  obtain ⟨-, -, -, hsigns, hmark⟩ := signs_of_start _ (List.mem_cons_of_mem '{' hch)
  intro hread
  cases bound with
  | zero => cases hread
  | succ bound =>
    obtain ⟨⟨pair, anchors₁, c₁⟩, hentry, -⟩ := bind_eq_ok.mp hread
    have hshort : readShortEntry handles indent anchors c = .ok (pair, anchors₁, c₁) := by
      rw [readBlockEntry, hrest] at hentry
      split at hentry
      · next heq => cases heq; exact absurd rfl hmark
      · exact hentry
    obtain ⟨⟨node, anchors₂, c₂⟩, hnode, -⟩ := bind_eq_ok.mp hshort
    obtain ⟨-, text, htext, -⟩ := readNode_of_not_sign handles _ anchors hsigns hrest hnode
    have hnone : readScalarText? (.block indent) c = .ok none := by
      rw [readScalarText?, hrest]
      rcases List.mem_pair.mp hch with rfl | rfl <;> simp [startsPlain, isIndicator, isBlank]
    cases hnone.symm.trans htext

/-- A mapping that starts as JSON does is one in braces. -/
theorem readRoot_atStart {handles : TagHandles} {bound : Nat} (hch : ch ∈ ['{', '[']) (h : AtStart c ch rest)
    {r : List NodePair × Anchors × Cursor} (hread : readRoot handles false bound {} c = .ok r) :
    ch = '{' ∧ readFlowEntries handles (rest.length + 1) {} (c.next rest) = .ok r := by
  cases bound with
  | zero => cases hread
  | succ bound =>
    have hother {ch' : Char} {tail : List Char} (hrest : c.rest = ch' :: tail) (hch' : ch' ∈ ['[', '\t']) : False := by
      obtain ⟨-, hdash, hdot, hsigns, -⟩ := signs_of_start _ (List.mem_cons_of_mem '{' hch')
      have hmarker : c.isAtMarker = false := by
        simp [Cursor.isAtMarker, isMarker, hrest, startsMarker_of_ne hdash, startsMarker_of_ne hdot]
      rw [readRoot, hrest] at hread
      split at hread
      · next heq => cases heq
      · next heq => cases heq; exact absurd hch' (by decide)
      · next heq => cases heq; exact absurd (by decide) hsigns
      · next heq => cases heq; exact absurd (by decide) hsigns
      · rw [hmarker, if_neg Bool.false_ne_true] at hread
        split at hread
        · exact readBlockEntries_ne_ok hch' hrest hread
        · cases hread
    rcases h with hrest | ⟨-, tail, htab⟩
    · rcases List.mem_pair.mp hch with rfl | rfl
      · rw [readRoot, hrest] at hread
        exact ⟨rfl, hread⟩
      · exact (hother hrest (by decide)).elim
    · exact (hother htab (by decide)).elim

theorem mapM_resolvePair (anchors : Anchors) (entries : List Entry) :
    (entries.map written).mapM (resolvePair anchors) = .ok entries := by
  induction entries with
  | nil => rfl
  | cons e entries ih =>
    rw [List.map_cons, List.mapM_cons]
    exact bind_eq_ok.mpr ⟨e, rfl, bind_eq_ok.mpr ⟨entries, ih, rfl⟩⟩

theorem readMapping_start {text : List Char} (hch : ch ∈ ['{', '[']) (h : skipSpace text = ch :: rest) {entries : List Entry}
    (hread : readMapping text = .ok entries) : ch = '{' ∧ ∃ handles c pairs anchors c', c.rest = rest ∧
      readFlowEntries handles (rest.length + 1) {} c = .ok (pairs, anchors, c') ∧
        pairs.mapM (resolvePair anchors) = .ok entries := by
  have htoken : ch ∈ tokenStarts := by
    rcases List.mem_pair.mp hch with rfl | rfl <;> decide
  have hstart : AtStart ((⟨text, 0, true⟩ : Cursor).skip false) ch rest := atStart_skip htoken h
  rw [readMapping] at hread
  split at hread
  · cases hread
  · obtain ⟨⟨d, marked, c₁⟩, hdirectives, hread⟩ := bind_eq_ok.mp hread
    obtain ⟨rfl, rfl⟩ := readStart_atStart hstart hch hdirectives
    dsimp only at hread
    split at hread
    · cases hread
    · obtain ⟨⟨pairs, anchors, c₂⟩, hroot, hread⟩ := bind_eq_ok.mp hread
      obtain ⟨⟨⟩, -, hread⟩ := bind_eq_ok.mp hread
      obtain ⟨hopen, hentries⟩ := readRoot_atStart hch (hstart.skip htoken) hroot
      exact ⟨hopen, d.handles, _, pairs, anchors, c₂, rfl, hentries, hread⟩

/-- Where a document of JSON is a mapping, it is an object, and the mapping has the members of the object but for what folding
takes from them. -/
theorem readMapping_document {text : List Char} {j : Json} (h : SpellsDocument text j) {entries : List Entry}
    (hread : readMapping text = .ok entries) :
    ∃ members, j = .object members ∧ SameEntries (folds .word text) members entries := by
  cases h with
  | emptyObject hstart hend hrest =>
    obtain ⟨-, handles, c, pairs, anchors, c', hc, hentries, hresolve⟩ := readMapping_start (by decide) hstart hread
    obtain ⟨c₁, hskip, hentries⟩ := bind_eq_ok.mp hentries
    have hrest₁ := skipToToken_token (by decide) ((congrArg skipSpace hc).trans hend) hskip
    rw [hrest₁] at hentries
    cases hentries
    cases hresolve
    refine ⟨[], rfl, ?_⟩
    rw [folds_skipSpace hstart (isWord_of_token (by decide)), folds_skipSpace hend (isWord_of_token (by decide)),
      folds_of_skipSpace_eq_nil hrest]
    exact .nil
  | @object cs cs' rest members hstart hquote hmembers hrest =>
    obtain ⟨-, handles, c, pairs, anchors, c', hc, hentries, hresolve⟩ := readMapping_start (by decide) hstart hread
    obtain ⟨lost, entries', rfl, hsame, hfolds, -⟩ :=
      readFlowEntries_members handles {} hmembers ((congrArg skipSpace hc).trans hquote) hentries
    cases hresolve.symm.trans (mapM_resolvePair anchors entries')
    refine ⟨members, rfl, ?_⟩
    rw [folds_skipSpace hstart (isWord_of_token (by decide)), folds_skipSpace hquote (isWord_of_token (by decide)), hfolds,
      folds_of_skipSpace_eq_nil hrest, Bool.or_false]
    exact hsame
  | emptyList hstart _ _ => exact absurd (readMapping_start (by decide) hstart hread).1 (by decide)
  | list hstart _ _ => exact absurd (readMapping_start (by decide) hstart hread).1 (by decide)

end Documents

end SchemaWeave.Yaml
