import SchemaWeave.Proofs.Graphql.RoundTrip
import SchemaWeave.Proofs.Graphql.Quoted
import SchemaWeave.Proofs.Introspection.Document
import SchemaWeave.Proofs.Introspection.TypeText

/-!
# The text of an introspection result is read as its document

The printed text of a conforming result spells the tokens of its document, definition by definition, and is therefore
parsed as this document (`parse_sdl`). Each printed piece is shown to spell its tokens in front of any text that starts
with a delimiter.
-/

namespace SchemaWeave.Introspection

open Graphql Text

/-! ## Types -/

section

variable {qs : List Char} {us : List Token} (hq : Spells qs us) (hd : Delimited qs)
include hq hd

theorem spells_name {s : String} (hs : isName s = true) : Spells (s.toList ++ qs) (.name s :: us) :=
  hq.token (valid_name hs) hd

end

theorem spells_typeRef {t : TypeRef} (hw : t.isWellFormed = true) (hn : isName t.expr.core = true) {qs : List Char}
    {us : List Token} (hq : Spells qs us) (hd : Delimited qs) : Spells (t.text.toList ++ qs) (t.expr.tokens ++ us) := by
  obtain ⟨htokens, -, hcore⟩ := expr_of_wellFormed hw
  rw [htokens]
  refine spells_tokens (fun n hmem => ?_) hq hd
  rw [hcore] at hmem
  cases hmem
  exact hn

/-! ## Arguments and input fields -/

/-- The constant that a text without comments consists of is the one that is read. -/
theorem constant?_eq {s : String} {v : Value} (hv : v.Grammatical) (hs : Scans s.toList v.tokens) :
    constant? s = some v := by
  obtain ⟨placed, hm, ht⟩ := hs.spells.tokenize
  have hread : Parser.value true placed.length placed = .ok (v, []) := by
    have := accepts_value hv placed [] hm (Nat.le_refl _) (by simp)
    rwa [List.append_nil] at this
  rw [constant?, ht]
  simp [hread]

/-- The text of a constant is read as this constant, alone and in front of a delimiter. -/
theorem constant_of_text {s : String} (h : IsConstantText s) :
    ∃ v : Value, constant? s = some v ∧ v.Grammatical ∧ Spells s.toList v.tokens := by
  obtain ⟨v, hv, hs⟩ := h
  exact ⟨v, constant?_eq hv hs, hv, hs.spells⟩

theorem InputValue.Conforms.argument {v : InputValue} (h : v.Conforms) : v.argument.Grammatical := by
  refine ⟨h.name, h.type.expr, fun c hc => ?_, by simp [InputValue.argument]⟩
  obtain ⟨d, hd, hc⟩ := Option.bind_eq_some_iff.mp hc
  obtain ⟨v, he, hv, -⟩ := constant_of_text (h.defaultValue d hd)
  cases he.symm.trans hc
  exact hv

theorem InputValue.Conforms.inputField {v : InputValue} (h : v.Conforms) : v.inputField.Grammatical :=
  ⟨h.argument.name, h.argument.type, h.argument.default, h.argument.directives⟩

section

variable {qs : List Char} {us : List Token} (hq : Spells qs us) (hd : Delimited qs)
include hq hd

/-- An input value without its description. -/
theorem spells_inputValue {v : InputValue} (h : v.Conforms) :
    Spells (v.sdl ++ qs) (v.argument.tokens ++ us) := by
  have hdefault : ∃ cs, v.sdl = v.name.toList ++ (':' :: ' ' :: (v.type.text.toList ++ cs)) ∧
      Spells (cs ++ qs) (defaultTokens v.argument.default ++ us) ∧ Delimited (cs ++ qs) := by
    cases hv : v.defaultValue with
    | none => exact ⟨[], by simp [InputValue.sdl, hv], by simpa [InputValue.argument, hv, defaultTokens] using hq, hd⟩
    | some d =>
      obtain ⟨c, hc, -, hs⟩ := constant_of_text (h.defaultValue d hv)
      refine ⟨' ' :: '=' :: ' ' :: d.toList, by simp [InputValue.sdl, hv], ?_, stops_cons.mpr (by decide)⟩
      have := (((hs.append hq hd).ignored (c := ' ') rfl).mark .equals).ignored (c := ' ') rfl
      simpa [InputValue.argument, hv, hc, defaultTokens, Punctuator.chars] using this
  obtain ⟨cs, he, hs, hds⟩ := hdefault
  have ht := ((spells_typeRef h.type.wellFormed h.type.expr.1 hs hds).ignored (c := ' ') rfl).mark .colon
  have := spells_name ht (stops_cons.mpr (by decide)) h.name
  rw [he]
  simpa [InputDef.tokens, descriptionTokens, InputValue.argument, directiveTokens, Punctuator.chars] using this

theorem spells_inputValues {args : List InputValue} (h : ∀ a ∈ args, a.Conforms) :
    Spells (separate [',', ' '] (args.map InputValue.sdl) ++ qs)
      (((args.map InputValue.argument).map InputDef.tokens).flatten ++ us) := by
  induction args with
  | nil => exact hq
  | cons a args ih =>
    have ha := h a (by simp)
    have hrest := ih fun a ha => h a (List.mem_cons_of_mem _ ha)
    cases args with
    | nil => simpa [separate] using spells_inputValue hq hd ha
    | cons b args =>
      have hsep := (hrest.ignored (c := ' ') rfl).ignored (c := ',') rfl
      simpa [separate] using spells_inputValue hsep (stops_cons.mpr (by decide)) ha

theorem spells_arguments {args : List InputValue} (h : ∀ a ∈ args, a.Conforms) :
    Spells (argumentsSdl args ++ qs) (argumentDefTokens (args.map InputValue.argument) ++ us) ∧
      Delimited (argumentsSdl args ++ qs) := by
  cases args with
  | nil => exact ⟨hq, hd⟩
  | cons a args =>
    have hargs := spells_inputValues (hq.mark .closeParen) (stops_cons.mpr (by decide)) h
    refine ⟨?_, stops_cons.mpr (by decide)⟩
    simpa [argumentsSdl, argumentDefTokens, enclosed, Punctuator.chars] using hargs.mark .openParen

/-- Names with a mark between each two. -/
theorem spells_names (separator : Char) (p : Punctuator) (hp : p.chars = [separator]) {n : Name} {ns : List Name}
    (h : ∀ m ∈ n :: ns, isName m = true) :
    Spells (separate [' ', separator, ' '] ((n :: ns).map String.toList) ++ qs)
      (.name n :: (ns.flatMap fun m => [.punct p, .name m]) ++ us) := by
  induction ns generalizing n with
  | nil => simpa [separate] using spells_name hq hd (h n (by simp))
  | cons m ns ih =>
    have hrest := ih (n := m) fun k hk => h k (List.mem_cons_of_mem _ hk)
    have hsep := ((hrest.ignored (c := ' ') rfl).mark p).ignored (c := ' ') rfl
    simpa [separate, hp] using spells_name hsep (stops_cons.mpr (by decide)) (h n (by simp))

/-! ## Descriptions and deprecation -/

theorem spells_quoted (s : String) : Spells (quotedString s.toList ++ qs) (.string s :: us) := by
  refine hq.lexeme fun rest hr => ?_
  have := lexeme_escaped faithful_escapeChar s.toList (hd.append hr)
  simpa [quotedString, escapeString] using this

omit hq hd in
theorem deprecationSdl_some (r : String) : deprecationSdl true (some r) = ' ' :: '@' ::
    ("deprecated".toList ++ '(' :: ("reason".toList ++ ':' :: ' ' :: (quotedString r.toList ++ [')']))) := rfl

theorem spells_deprecation (isDeprecated : Bool) (reason : Option String) :
    Spells (deprecationSdl isDeprecated reason ++ qs) (directiveTokens (deprecation isDeprecated reason) ++ us) ∧
      Delimited (deprecationSdl isDeprecated reason ++ qs) := by
  cases isDeprecated with
  | false => exact ⟨hq, hd⟩
  | true =>
    refine ⟨?_, stops_cons.mpr (by decide)⟩
    cases reason with
    | none =>
      exact ((spells_name hq hd (s := "deprecated") (by decide)).mark .atSign).ignored (c := ' ') rfl
    | some r =>
      have hr := (spells_quoted (hq.mark .closeParen) (stops_cons.mpr (by decide)) r).ignored (c := ' ') rfl
      have hname := spells_name (hr.mark .colon) (stops_cons.mpr (by decide)) (s := "reason") (by decide)
      have hargs := hname.mark .openParen
      have := (spells_name hargs (stops_cons.mpr (by decide)) (s := "deprecated") (by decide)).mark .atSign
      have := this.ignored (c := ' ') rfl
      rw [deprecationSdl_some]
      simp only [List.cons_append, List.append_assoc, List.nil_append]
      exact this

end

/-- The literal of a description, without the margin in front of it and the line end behind it. -/
def descriptionLiteral (level : Nat) (d : String) : List Char :=
  if isBlockDescription d.toList then
    '"' :: '"' :: '"' :: (escapeTripleQuotes ('\n' :: d.toList ++ '\n' :: margin level) ++ ['"', '"', '"'])
  else quotedString d.toList

/-- Of what a block string holds only the description has quotes to be escaped. -/
theorem escape_blockText (level : Nat) (d : List Char) : escapeTripleQuotes ('\n' :: d ++ '\n' :: margin level) =
    '\n' :: (escapeTripleQuotes d ++ '\n' :: margin level) := by
  have hmargin : escapeTripleQuotes (margin level) = margin level := by
    have := escape_replicate_append (2 * level) []
    rwa [escapeTripleQuotes, List.append_nil] at this
  rw [List.cons_append, escape_cons_of_ne (by decide), escape_append_cons (by decide), hmargin]

/-- A block string is read up to the delimiter behind the margin. -/
theorem readBlock_blockText (level : Nat) (d rest : List Char) :
    readBlock (escapeTripleQuotes ('\n' :: d ++ '\n' :: margin level) ++ '"' :: '"' :: '"' :: rest) =
      some ('\n' :: d ++ '\n' :: margin level, rest) := by
  obtain ⟨z, hz, hq, hb⟩ : ∃ z, ('\n' :: d ++ '\n' :: margin level).getLast? = some z ∧ z ≠ '"' ∧ z ≠ '\\' := by
    cases hm : 2 * level with
    | zero => exact ⟨'\n', by rw [margin, hm]; exact List.getLast?_concat .., by decide, by decide⟩
    | succ n =>
      refine ⟨' ', ?_, by decide, by decide⟩
      rw [margin, hm, List.replicate_succ', ← List.cons_append, ← List.append_assoc, List.getLast?_concat]
  exact readBlock_escape_close hz hq hb rest

theorem descriptionText_some (level : Nat) (d : String) :
    descriptionText level (some d) = margin level ++ (descriptionLiteral level d ++ ['\n']) := by
  rw [descriptionText, descriptionLiteral]
  split
  · rw [escape_blockText]
    simp
  · simp

/-- The literal of a description is one token in front of a line end. -/
theorem lexeme_description (level : Nat) (d : String) (rest : List Char) :
    lexeme (descriptionLiteral level d ++ '\n' :: rest) = some (.string (readDescription level d), '\n' :: rest) := by
  rw [descriptionLiteral, readDescription]
  split
  · have hread := readBlock_blockText level d.toList ('\n' :: rest)
    simp only [List.cons_append, List.append_assoc, List.nil_append] at hread ⊢
    rw [lexeme, hread]
    rfl
  · have hstops : Delimited ('\n' :: rest) := stops_cons.mpr (by decide)
    simpa [quotedString, escapeString] using lexeme_escaped faithful_escapeChar d.toList hstops

section

variable {qs : List Char} {us : List Token} (hq : Spells qs us)
include hq

theorem spells_margin (level : Nat) : Spells (margin level ++ qs) us := spells_blanks hq _

theorem spells_description (level : Nat) (d : Option String) :
    Spells (descriptionText level d ++ qs) (descriptionTokens (d.map (readDescription level)) ++ us) := by
  cases d with
  | none => exact hq
  | some d =>
    have hs : Spells (descriptionLiteral level d ++ '\n' :: qs) (.string (readDescription level d) :: us) :=
      (hq.ignored (c := '\n') rfl).lexeme fun rest _ => lexeme_description level d (qs ++ rest)
    have := spells_margin hs level
    rw [descriptionText_some]
    simpa [descriptionTokens] using this

theorem spells_field {f : Field} (h : f.Conforms) : Spells (f.sdl ++ qs) (f.fieldDef.tokens ++ us) := by
  have hline := hq.ignored (c := '\n') rfl
  obtain ⟨hdep, hdd⟩ := spells_deprecation hline (stops_cons.mpr (by decide)) f.isDeprecated f.deprecationReason
  have ht := ((spells_typeRef h.type.wellFormed h.type.expr.1 hdep hdd).ignored (c := ' ') rfl).mark .colon
  obtain ⟨ha, had⟩ := spells_arguments ht (stops_cons.mpr (by decide)) h.args
  have := spells_description (spells_margin (spells_name ha had h.name) 1) 1 f.description
  simpa [Field.sdl, Field.fieldDef, FieldDef.tokens, Punctuator.chars] using this

theorem spells_enumValue {v : EnumValue} (h : v.Conforms) : Spells (v.sdl ++ qs) (v.enumValueDef.tokens ++ us) := by
  have hline := hq.ignored (c := '\n') rfl
  obtain ⟨hdep, hdd⟩ := spells_deprecation hline (stops_cons.mpr (by decide)) v.isDeprecated v.deprecationReason
  have := spells_description (spells_margin (spells_name hdep hdd h.name) 1) 1 v.description
  simpa [EnumValue.sdl, EnumValue.enumValueDef, EnumValueDef.tokens] using this

theorem spells_inputField {v : InputValue} (h : v.Conforms) :
    Spells (v.fieldSdl ++ qs) (v.inputField.tokens ++ us) := by
  have hv := spells_inputValue (hq.ignored (c := '\n') rfl) (stops_cons.mpr (by decide)) h
  have := spells_description (spells_margin hv 1) 1 v.description
  simpa [InputValue.fieldSdl, InputDef.tokens, InputValue.inputField, InputValue.argument, descriptionTokens] using this

end

/-! ## Definitions -/

/-- A text that ends with a character that is not blank. -/
def EndsVisibly (cs : List Char) : Prop := ∃ c, cs.getLast? = some c ∧ isBlank c = false

theorem EndsVisibly.append (a : List Char) {b : List Char} (h : EndsVisibly b) : EndsVisibly (a ++ b) := by
  obtain ⟨c, hc, hb⟩ := h
  exact ⟨c, by rw [List.getLast?_append, hc, Option.some_or], hb⟩

theorem EndsVisibly.cons (c : Char) {cs : List Char} (h : EndsVisibly cs) : EndsVisibly (c :: cs) := h.append [c]

theorem endsVisibly_concat (a : List Char) {c : Char} (h : isBlank c = false) : EndsVisibly (a ++ [c]) :=
  ⟨c, List.getLast?_concat .., h⟩

theorem not_isBlank_of_isNameContinue {c : Char} (h : isNameContinue c = true) : isBlank c = false := by
  have hc : c.val.toNat = '_'.val.toNat ↔ c = '_' := by rw [UInt32.toNat_inj, Char.val_inj]
  have h : (((decide (c.val ≥ 'A'.val ∧ c.val ≤ 'Z'.val) || (c.val ≥ 'a'.val && c.val ≤ 'z'.val)) ||
      (c.val ≥ '0'.val && c.val ≤ '9'.val)) || c == '_') = true := h
  simp only [Bool.or_eq_true, Bool.and_eq_true, decide_eq_true_eq, beq_iff_eq, ← hc, ge_iff_le,
    UInt32.le_iff_toNat_le] at h
  simp only [isBlank, Bool.or_eq_false_iff, Bool.and_eq_false_iff, decide_eq_false_iff_not, beq_eq_false_iff_ne, ne_eq,
    ← UInt32.toNat_inj, UInt32.le_iff_toNat_le]
  simp at h ⊢
  omega

theorem endsVisibly_name {s : String} (h : isName s = true) : EndsVisibly s.toList := by
  unfold isName at h
  split at h
  · cases h
  next c cs he =>
    rw [Bool.and_eq_true, List.all_eq_true] at h
    have hall : ∀ d ∈ c :: cs, isNameContinue d = true := by
      refine List.forall_mem_cons.mpr ⟨?_, h.2⟩
      have := h.1
      simp only [isNameStart, isNameContinue, Char.isAlphanum, Bool.or_eq_true] at this ⊢
      exact this.imp_left Or.inl
    obtain ⟨d, hd⟩ := Option.isSome_iff_exists.mp (List.getLast?_isSome.mpr (List.cons_ne_nil c cs))
    exact ⟨d, by rw [he, hd], not_isBlank_of_isNameContinue (hall d (List.mem_of_getLast? hd))⟩

/-- A definition's text: it spells the definition, ends visibly, and some line ends may follow. -/
def Prints (cs : List Char) (d : Definition) : Prop :=
  ∃ core n, cs = core ++ List.replicate n '\n' ∧ EndsVisibly core ∧ SpellsDefinition core d

/-- A keyword, behind its description if there is one, starts a definition. -/
theorem spellsDefinition_of_keyword (description : Option String) {word : String} (hw : isName word = true)
    {more : List Char} {ts : List Token} (hm : Spells more ts) (hd : Delimited more) {d : Definition}
    (ht : d.tokens = descriptionTokens (description.map (readDescription 0)) ++ .name word :: ts)
    (hl : d.isLed = description.isSome) :
    SpellsDefinition (descriptionText 0 description ++ (word.toList ++ more)) d := by
  cases description with
  | none =>
    refine .of_spells ?_ hl
    rw [ht]
    exact spells_name hm hd hw
  | some s =>
    intro comma rest hr
    obtain ⟨placed, comma', hp, he⟩ := hm false rest hr
    have hword : lexeme (word.toList ++ (more ++ rest)) = some (.name word, more ++ rest) :=
      lexeme_chars (valid_name hw) (hd.append hr)
    have hs := lexeme_description 0 s (word.toList ++ (more ++ rest))
    refine ⟨⟨.string (readDescription 0 s), comma⟩ :: ⟨.name word, false⟩ :: placed, comma', ⟨?_, by simp⟩, ?_⟩
    · rw [ht, List.map_cons, List.map_cons, hp]
      rfl
    · have hmargin : margin 0 = [] := rfl
      rw [descriptionText_some, hmargin]
      simp only [List.nil_append, List.append_assoc, List.cons_append]
      rw [tokensFrom_lexeme hs, tokensFrom_ignored rfl, tokensFrom_lexeme hword]
      simp only [Bool.false_or, he, Option.map_map]
      rfl

/-- Members in braces. -/
theorem spells_members {α : Type} {sdl : α → List Char} {tokens : α → List Token} {xs : List α} (hne : xs ≠ [])
    (h : ∀ x ∈ xs, ∀ {qs us}, Spells qs us → Spells (sdl x ++ qs) (tokens x ++ us)) :
    Spells ([' ', '{', '\n'] ++ xs.flatMap sdl ++ ['}']) (enclosed .openBrace .closeBrace (xs.map tokens)) := by
  have hrest : ∀ xs : List α, (∀ x ∈ xs, ∀ {qs us}, Spells qs us → Spells (sdl x ++ qs) (tokens x ++ us)) →
      Spells (xs.flatMap sdl ++ ['}']) ((xs.map tokens).flatten ++ [.punct .closeBrace]) := by
    intro xs
    induction xs with
    | nil => exact fun _ => spells_nil.mark .closeBrace
    | cons x xs ih =>
      intro h
      simpa using h x (by simp) (ih fun x hx => h x (List.mem_cons_of_mem _ hx))
  obtain ⟨x, xs, rfl⟩ := List.exists_cons_of_ne_nil hne
  have := (((hrest (x :: xs) h).ignored (c := '\n') rfl).mark .openBrace).ignored (c := ' ') rfl
  simpa [enclosed, Punctuator.chars] using this

theorem spells_fields {fields : List Field} (h : ∀ f ∈ fields, f.Conforms) :
    Spells (fieldsSdl fields) (enclosed .openBrace .closeBrace ((fields.map Field.fieldDef).map FieldDef.tokens)) ∧
      Delimited (fieldsSdl fields) := by
  cases fields with
  | nil => exact ⟨spells_nil, stops_nil _⟩
  | cons f fields =>
    rw [fieldsSdl, if_neg (by simp), List.map_map]
    exact ⟨spells_members (by simp) fun f hf => fun hq => spells_field hq (h f hf), stops_cons.mpr (by decide)⟩

theorem spells_implements {interfaces : List Name} (h : ∀ n ∈ interfaces, isName n = true) {qs : List Char}
    {us : List Token} (hq : Spells qs us) (hd : Delimited qs) :
    Spells (implementsSdl interfaces ++ qs) (listed (.name "implements") .amp interfaces ++ us) ∧
      Delimited (implementsSdl interfaces ++ qs) := by
  cases interfaces with
  | nil => exact ⟨hq, hd⟩
  | cons n ns =>
    have hnames := (spells_names hq hd '&' .amp rfl h).ignored (c := ' ') rfl
    have := (spells_name hnames (stops_cons.mpr (by decide)) (s := "implements") (by decide)).ignored (c := ' ') rfl
    refine ⟨?_, stops_cons.mpr (by decide)⟩
    have himplements : " implements ".toList = ' ' :: ("implements".toList ++ [' ']) := rfl
    rw [implementsSdl, if_neg (by simp), himplements]
    simp only [List.cons_append, List.append_assoc, List.nil_append]
    exact this

theorem endsVisibly_names (separator : List Char) {n : Name} {ns : List Name} (h : ∀ m ∈ n :: ns, isName m = true) :
    EndsVisibly (separate separator ((n :: ns).map String.toList)) := by
  induction ns generalizing n with
  | nil => exact endsVisibly_name (h n (by simp))
  | cons m ns ih =>
    have hrest := ih fun k hk => h k (List.mem_cons_of_mem _ hk)
    simpa [separate] using (hrest.append separator).append n.toList

/-- The head of an object or interface type ends with a name, its fields with a brace. -/
theorem endsVisibly_fieldsType {name : Name} (hn : isName name = true) {interfaces : List Name}
    (hi : ∀ n ∈ interfaces, isName n = true) (fields : List Field) :
    EndsVisibly (name.toList ++ (implementsSdl interfaces ++ fieldsSdl fields)) := by
  cases fields with
  | cons f fs =>
    rw [fieldsSdl, if_neg (by simp), ← List.append_assoc, ← List.append_assoc]
    exact endsVisibly_concat _ (by decide)
  | nil =>
    have hnil : fieldsSdl [] = [] := rfl
    rw [hnil, List.append_nil]
    cases interfaces with
    | nil => simpa [implementsSdl] using endsVisibly_name hn
    | cons m ms =>
      rw [implementsSdl, if_neg (by simp)]
      exact ((endsVisibly_names _ hi).append _).append _

/-- The text of a type behind its keyword, and the line ends behind it. -/
theorem spells_typeContent {t : TypeInfo} (h : t.Conforms) :
    ∃ more n, t.sdl = descriptionText 0 t.description ++
        (t.content.body.kind.keyword.toList ++ ' ' :: (t.name.toList ++ more)) ++ List.replicate n '\n' ∧
      EndsVisibly (t.name.toList ++ more) ∧ Spells more (t.content.body.tokens []) ∧ Delimited more := by
  obtain ⟨name, description, content⟩ := t
  have hname := endsVisibly_name h.name
  match content, h.content with
  | .scalar, _ =>
    have hk : "scalar ".toList = "scalar".toList ++ [' '] := rfl
    refine ⟨[], 1, ?_, by simpa using hname, spells_nil, stops_nil _⟩
    simp [TypeInfo.sdl, TypeContent.body, TypeBody.kind, TypeKind.keyword, hk]
  | .object fields interfaces, hc =>
    have hk : "type ".toList = "type".toList ++ [' '] := rfl
    obtain ⟨hf, hfd⟩ := spells_fields hc.1
    obtain ⟨hi, hid⟩ := spells_implements hc.2 hf hfd
    refine ⟨implementsSdl interfaces ++ fieldsSdl fields, 0, ?_, endsVisibly_fieldsType h.name hc.2 fields, hi, hid⟩
    simp [TypeInfo.sdl, TypeContent.body, TypeBody.kind, TypeKind.keyword, hk]
  | .interface fields interfaces _, hc =>
    have hk : "interface ".toList = "interface".toList ++ [' '] := rfl
    obtain ⟨hf, hfd⟩ := spells_fields hc.1
    obtain ⟨hi, hid⟩ := spells_implements hc.2 hf hfd
    refine ⟨implementsSdl (interfaces.getD []) ++ fieldsSdl fields, 0, ?_,
      endsVisibly_fieldsType h.name hc.2 fields, hi, hid⟩
    simp [TypeInfo.sdl, TypeContent.body, TypeBody.kind, TypeKind.keyword, hk]
  | .union possibleTypes, hc =>
    have hk : "union ".toList = "union".toList ++ [' '] := rfl
    obtain ⟨m, ms, rfl⟩ := List.exists_cons_of_ne_nil hc.1
    have hms := spells_names spells_nil (stops_nil _) '|' .pipe rfl hc.2
    have := ((hms.ignored (c := ' ') rfl).mark .equals).ignored (c := ' ') rfl
    refine ⟨' ' :: '=' :: ' ' :: separate [' ', '|', ' '] ((m :: ms).map String.toList), 0, ?_, ?_, ?_,
      stops_cons.mpr (by decide)⟩
    · simp [TypeInfo.sdl, TypeContent.body, TypeBody.kind, TypeKind.keyword, hk]
    · exact ((endsVisibly_names _ hc.2).append [' ', '=', ' ']).append _
    · simpa [TypeContent.body, TypeBody.tokens, listed, directiveTokens, Punctuator.chars] using this
  | .enum values, hc =>
    have hk : "enum ".toList = "enum".toList ++ [' '] := rfl
    have hvs := spells_members hc.1 fun v hv => fun hq => spells_enumValue hq (hc.2 v hv)
    refine ⟨[' ', '{', '\n'] ++ values.flatMap EnumValue.sdl ++ ['}'], 0, ?_, ?_, ?_, stops_cons.mpr (by decide)⟩
    · simp [TypeInfo.sdl, TypeContent.body, TypeBody.kind, TypeKind.keyword, hk]
    · exact (endsVisibly_concat _ (by decide)).append _
    · rw [TypeContent.body, TypeBody.tokens, List.map_map]
      exact hvs
  | .inputObject fields, hc =>
    have hk : "input ".toList = "input".toList ++ [' '] := rfl
    have hfs := spells_members hc.1 fun v hv => fun hq => spells_inputField hq (hc.2 v hv)
    refine ⟨[' ', '{', '\n'] ++ fields.flatMap InputValue.fieldSdl ++ ['}'], 0, ?_, ?_, ?_, stops_cons.mpr (by decide)⟩
    · simp [TypeInfo.sdl, TypeContent.body, TypeBody.kind, TypeKind.keyword, hk]
    · exact (endsVisibly_concat _ (by decide)).append _
    · rw [TypeContent.body, TypeBody.tokens, List.map_map]
      exact hfs

theorem prints_type {t : TypeInfo} (h : t.Conforms) : Prints t.sdl (.type t.typeDef) := by
  obtain ⟨more, n, he, hv, hs, hd⟩ := spells_typeContent h
  have hname := (spells_name hs hd h.name).ignored (c := ' ') rfl
  refine ⟨_, n, he, ?_, spellsDefinition_of_keyword _ (isName_keyword _) hname (stops_cons.mpr (by decide)) rfl ?_⟩
  · exact ((hv.append [' ']).append _).append _
  · simp [Definition.isLed, TypeInfo.typeDef]

theorem ofName?_name {s : String} {l : DirectiveLocation} (h : DirectiveLocation.ofName? s = some l) : l.name = s := by
  simpa using List.find?_some h

theorem map_ofName? {locations : List String} (h : ∀ l ∈ locations, (DirectiveLocation.ofName? l).isSome = true) :
    (locations.filterMap DirectiveLocation.ofName?).map DirectiveLocation.name = locations := by
  induction locations with
  | nil => rfl
  | cons l ls ih =>
    obtain ⟨loc, hl⟩ := Option.isSome_iff_exists.mp (h l (by simp))
    rw [List.filterMap_cons_some hl, List.map_cons, ofName?_name hl, ih fun m hm => h m (List.mem_cons_of_mem _ hm)]

theorem prints_directive {d : DirectiveInfo} (h : d.Conforms) : Prints d.sdl (.directive d.directiveDef) := by
  have hlocations := map_ofName? h.locations.2
  have hnames : ∀ l ∈ d.locations, isName l = true := by
    rw [← hlocations]
    exact List.forall_mem_map.mpr fun l _ => isName_location l
  obtain ⟨l, ls, hl⟩ := List.exists_cons_of_ne_nil h.locations.1
  rw [hl] at hnames
  have hls : Spells (separate [' ', '|', ' '] ((l :: ls).map String.toList))
      (.name l :: ls.flatMap fun m => [.punct .pipe, .name m]) := by
    simpa using spells_names spells_nil (stops_nil _) '|' .pipe rfl hnames
  have hblank := hls.ignored (c := ' ') rfl
  have hon := (spells_name hblank (stops_cons.mpr (by decide)) (s := "on") (by decide)).ignored (c := ' ') rfl
  obtain ⟨ha, had⟩ := spells_arguments hon (stops_cons.mpr (by decide)) h.args
  have hmore := ((spells_name ha had h.name).mark .atSign).ignored (c := ' ') rfl
  have hkeyword : "directive @".toList = "directive".toList ++ [' ', '@'] := rfl
  have hin : " on ".toList = ' ' :: ("on".toList ++ [' ']) := rfl
  have hword : isName "directive" = true := by decide
  refine ⟨_, 0, ?_, ?_, spellsDefinition_of_keyword d.description hword hmore (stops_cons.mpr (by decide)) ?_ ?_⟩
  · simp only [DirectiveInfo.sdl, hkeyword, hin, hl, Punctuator.chars, List.append_assoc, List.cons_append,
      List.nil_append, List.append_nil, List.replicate_zero]
  · have hend := ((((endsVisibly_names [' ', '|', ' '] hnames).cons ' ').append "on".toList).cons ' ').append
      (argumentsSdl d.args)
    exact ((((hend.append d.name.toList).append _).cons ' ').append _).append _
  · rw [hl] at hlocations
    simp [Definition.tokens, DirectiveInfo.directiveDef, hl, hlocations, listed]
  · simp [Definition.isLed, DirectiveInfo.directiveDef]

/-! ## Schemas -/

/-- The text of a root operation type. -/
def rootText (r : OperationKind × Name) : List Char :=
  margin 1 ++ (r.1.name.toList ++ ':' :: ' ' :: (r.2.toList ++ ['\n']))

/-- The text of the schema definition without the empty line behind it. -/
def schemaText (s : SchemaInfo) : List Char :=
  "schema".toList ++ ([' ', '{', '\n'] ++ s.rootNames.flatMap rootText ++ ['}'])

theorem needsDefinition_eq (s : SchemaInfo) :
    s.needsDefinition = s.rootNames.any fun r => r.2 != Schema.defaultRootName r.1 := by
  obtain ⟨q, m, u, -, -⟩ := s
  cases q <;> cases m <;> cases u <;>
    simp [SchemaInfo.needsDefinition, SchemaInfo.roots, SchemaInfo.rootNames, Schema.defaultRootName]

theorem definitionSdl_eq (s : SchemaInfo) :
    s.definitionSdl = if s.needsDefinition then schemaText s ++ ['\n', '\n'] else [] := by
  have hkeyword : "schema ".toList = "schema".toList ++ [' '] := rfl
  have htext : schemaText s = "schema".toList ++ ([' ', '{', '\n'] ++ s.rootNames.flatMap rootText ++ ['}']) := rfl
  rw [SchemaInfo.definitionSdl, hkeyword, htext]
  obtain ⟨q, m, u, ts, ds⟩ := s
  split
  · cases q <;> cases m <;> cases u <;>
      simp only [rootText, SchemaInfo.roots, SchemaInfo.rootNames, OperationKind.name, List.flatMap_cons,
        List.flatMap_nil, List.filterMap_cons, List.filterMap_nil, Option.map_none, Option.map_some,
        List.append_assoc, List.cons_append, List.nil_append, List.append_nil]
  · rfl

theorem prints_schema {s : SchemaInfo} (h : ∀ r ∈ s.rootNames, isName r.2 = true) (hne : s.rootNames ≠ []) :
    Prints (schemaText s) (.schema { roots := s.rootNames }) := by
  have hroot : ∀ r ∈ s.rootNames, ∀ {qs us}, Spells qs us → Spells (rootText r ++ qs) (rootTokens r ++ us) := by
    intro r hr qs us hq
    have hname := spells_name (hq.ignored (c := '\n') rfl) (stops_cons.mpr (by decide)) (h r hr)
    have hkind := spells_name ((hname.ignored (c := ' ') rfl).mark .colon) (stops_cons.mpr (by decide))
      (isName_operationKind r.1)
    have := spells_margin hkind 1
    simpa [rootText, rootTokens, Punctuator.chars] using this
  have hword : isName "schema" = true := by decide
  have hmore := spells_members hne hroot
  refine ⟨_, 0, (List.append_nil _).symm, (endsVisibly_concat _ (by decide)).append _, ?_⟩
  refine spellsDefinition_of_keyword none hword hmore (stops_cons.mpr (by decide)) ?_ rfl
  obtain ⟨r, rs, hr⟩ := List.exists_cons_of_ne_nil hne
  simp [Definition.tokens, descriptionTokens, directiveTokens, enclosed, hr]

/-- Texts of definitions with an empty line behind each: without the line ends behind the last they spell all of
them. -/
theorem spells_prints {texts : List (List Char)} {doc : Document} {text : List Char} {d : Definition}
    (h : Prints text d) (hs : List.Forall₂ Prints texts doc) :
    ∃ core n, (text :: texts).flatMap (· ++ ['\n', '\n']) = core ++ List.replicate n '\n' ∧ EndsVisibly core ∧
      SpellsDocument core (d :: doc) := by
  obtain ⟨core, n, he, hv, hcore⟩ := h
  induction hs generalizing text d core n with
  | nil =>
    refine ⟨core, n + 2, ?_, hv, ?_⟩
    · simp [he, List.replicate_succ']
    · simpa using SpellsDocument.cons hcore spellsDocument_nil (stops_nil _)
  | @cons text' d' texts doc h _ ih =>
    obtain ⟨next, m, hnext, hnv, hns⟩ := h
    obtain ⟨core', n', he', hv', hs'⟩ := ih next m hnext hnv hns
    have hlines : ∀ m, SpellsDocument (List.replicate m '\n' ++ core') (d' :: doc) := by
      intro m
      induction m with
      | zero => exact hs'
      | succ m ih => exact ih.ignored (c := '\n') rfl
    refine ⟨core ++ (List.replicate (n + 2) '\n' ++ core'), n', ?_, (hv'.append _).append _, ?_⟩
    · rw [List.flatMap_cons, he', he, List.replicate_add]
      simp
    · exact SpellsDocument.cons hcore (hlines (n + 2)) (stops_cons.mpr (by decide))

theorem dropBlankEnd_eq {core : List Char} (h : EndsVisibly core) (n : Nat) :
    dropBlankEnd (core ++ List.replicate n '\n') = core := by
  obtain ⟨c, hc, hb⟩ := h
  obtain ⟨cs, rfl⟩ := List.getLast?_eq_some_iff.mp hc
  have hdrop : ∀ n, (List.replicate n '\n' ++ c :: cs.reverse).dropWhile isBlank = c :: cs.reverse := by
    intro n
    induction n with
    | zero => simp [hb]
    | succ n ih => rw [List.replicate_succ, List.cons_append, List.dropWhile_cons_of_pos (by decide), ih]
  rw [dropBlankEnd, List.reverse_append, List.reverse_replicate, List.reverse_append, List.reverse_singleton,
    List.singleton_append, hdrop]
  simp

/-- The texts of the definitions of a schema. -/
def definitionTexts (s : SchemaInfo) : List (List Char) :=
  (if s.needsDefinition then [schemaText s] else []) ++
    ((s.directives.filter DirectiveInfo.isPrinted).map DirectiveInfo.sdl ++
      (s.types.filter TypeInfo.isPrinted).map TypeInfo.sdl)

theorem sdl_eq (s : SchemaInfo) :
    s.sdl = String.ofList (dropBlankEnd ((definitionTexts s).flatMap (· ++ ['\n', '\n']))) := by
  rw [SchemaInfo.sdl, definitionSdl_eq, definitionTexts]
  split <;> simp

theorem forall₂_prints {α : Type} {sdl : α → List Char} {definition : α → Definition} {xs : List α}
    (h : ∀ x ∈ xs, Prints (sdl x) (definition x)) : List.Forall₂ Prints (xs.map sdl) (xs.map definition) := by
  rw [List.forall₂_map_left_iff, List.forall₂_map_right_iff, List.forall₂_same]
  exact h

theorem rootNames_ne_nil {s : SchemaInfo} (h : s.needsDefinition = true) : s.rootNames ≠ [] := by
  rw [needsDefinition_eq] at h
  intro hn
  rw [hn] at h
  cases h

theorem prints_definitions {s : SchemaInfo} (h : s.Conforms) : List.Forall₂ Prints (definitionTexts s) s.document := by
  rw [definitionTexts, SchemaInfo.document, ← needsDefinition_eq, List.append_assoc]
  refine List.rel_append ?_ (List.rel_append ?_ ?_)
  · split
    · next hd => exact .cons (prints_schema h.roots (rootNames_ne_nil hd)) .nil
    · exact .nil
  · exact forall₂_prints fun d hd => prints_directive (h.directives d (List.mem_filter.mp hd).1)
  · exact forall₂_prints fun t ht => prints_type (h.types t (List.mem_filter.mp ht).1)

/-! ## Grammar -/

theorem grammatical_deprecation (isDeprecated : Bool) (reason : Option String) :
    ∀ d ∈ deprecation isDeprecated reason, d.Grammatical := by
  intro d hd
  have hname : isName "deprecated" = true := by decide
  have hreason : isName "reason" = true := by decide
  cases isDeprecated with
  | false => cases hd
  | true =>
    rw [deprecation, if_pos rfl, List.mem_singleton] at hd
    subst hd
    refine ⟨hname, List.forall_mem_map.mpr fun r _ => ⟨hreason, ?_⟩⟩
    trivial

theorem Field.Conforms.fieldDef {f : Field} (h : f.Conforms) : f.fieldDef.Grammatical :=
  ⟨h.name, List.forall_mem_map.mpr fun a ha => (h.args a ha).argument, h.type.expr, grammatical_deprecation _ _⟩

theorem EnumValue.Conforms.enumValueDef {v : EnumValue} (h : v.Conforms) : v.enumValueDef.Grammatical :=
  ⟨h.name, h.notKeyword, grammatical_deprecation _ _⟩

theorem TypeContent.Conforms.body : ∀ {c : TypeContent}, c.Conforms → c.body.Grammatical
  | .scalar, _ => trivial
  | .object _ _, h | .interface _ _ _, h => ⟨h.2, List.forall_mem_map.mpr fun f hf => (h.1 f hf).fieldDef⟩
  | .union _, h => h.2
  | .enum _, h => List.forall_mem_map.mpr fun v hv => (h.2 v hv).enumValueDef
  | .inputObject _, h => List.forall_mem_map.mpr fun v hv => (h.2 v hv).inputField

theorem TypeInfo.Conforms.typeDef {t : TypeInfo} (h : t.Conforms) : t.typeDef.Grammatical :=
  ⟨h.name, by simp [TypeInfo.typeDef], h.content.body⟩

theorem DirectiveInfo.Conforms.directiveDef {d : DirectiveInfo} (h : d.Conforms) : d.directiveDef.Grammatical := by
  refine ⟨h.name, List.forall_mem_map.mpr fun a ha => (h.args a ha).argument, fun he => h.locations.1 ?_⟩
  rw [← map_ofName? h.locations.2]
  exact List.map_eq_nil_iff.mpr he

theorem grammatical_document {s : SchemaInfo} (h : s.Conforms) : ∀ d ∈ s.document, d.Grammatical ∧ d.slips = [] := by
  intro d hd
  rw [SchemaInfo.document, ← needsDefinition_eq, List.mem_append, List.mem_append] at hd
  rcases hd with (hd | hd) | hd
  · split at hd
    · next hn =>
      rw [List.mem_singleton] at hd
      subst hd
      refine ⟨⟨by simp, h.roots⟩, ?_⟩
      simp [Definition.slips, rootNames_ne_nil hn]
    · cases hd
  · obtain ⟨d, hm, rfl⟩ := List.mem_map.mp hd
    exact ⟨(h.directives d (List.mem_filter.mp hm).1).directiveDef, rfl⟩
  · obtain ⟨t, hm, rfl⟩ := List.mem_map.mp hd
    exact ⟨(h.types t (List.mem_filter.mp hm).1).typeDef, rfl⟩

/-- The text of a conforming introspection result is read as its document, without a slip. -/
theorem read_sdl {s : SchemaInfo} (h : s.Conforms) : Document.read s.sdl = .ok (s.document, []) := by
  have hg := grammatical_document h
  have hp := prints_definitions h
  have hne := h.notEmpty
  cases hd : s.document with
  | nil => exact absurd hd hne
  | cons d doc =>
    rw [hd] at hg hp
    cases ht : definitionTexts s with
    | nil => rw [ht] at hp; cases hp
    | cons text texts =>
      rw [ht] at hp
      cases hp with
      | cons hfirst hrest =>
        obtain ⟨core, n, he, hv, hs⟩ := spells_prints hfirst hrest
        obtain ⟨placed, hspelled, htokens⟩ := hs.tokenize
        have hsdl : s.sdl.toList = core := by
          rw [sdl_eq, String.toList_ofList, ht, he, dropBlankEnd_eq hv]
        rw [← hsdl] at htokens
        have hread := read_spelled (fun d hd => (hg d hd).1) hspelled htokens
        have hslips : Document.slips (d :: doc) = [] := slips_eq_nil.mpr ⟨by simp, fun d hd => (hg d hd).2⟩
        rw [hread, hslips]

/-- **Printing a conforming introspection result is undone by parsing.** -/
theorem parse_sdl {s : SchemaInfo} (h : s.Conforms) : Document.parse s.sdl = .ok s.document := by
  rw [Document.parse, read_sdl h]

/-- A query type with a description in quotes, whose one field is deprecated and takes an argument with a default. -/
theorem parse_sdl_query :
    ∃ s : SchemaInfo, s.Conforms ∧ s.types.length = 1 ∧ Document.parse s.sdl = .ok s.document := by
  have hid : TypeRef.Conforms (.bare .scalar (some "ID")) := ⟨rfl, by decide, by decide⟩
  have hstring : TypeRef.Conforms (.wrap .nonNull none (.bare .scalar (some "String"))) := ⟨rfl, by decide, by decide⟩
  have hone : IsConstantText "1" := by
    have hlexeme : lexeme "1".toList = some (.int "1", []) := by decide
    exact ⟨.int "1", hlexeme, .token hlexeme .nil⟩
  let s : SchemaInfo :=
    { queryType := some "Query", mutationType := none, subscriptionType := none, directives := []
      types := [{
        name := "Query", description := some "The \"root\""
        content := .object [{
          name := "hero", description := none, type := .wrap .nonNull none (.bare .scalar (some "String"))
          args := [{ name := "id", description := none, type := .bare .scalar (some "ID"), defaultValue := some "1" }]
          isDeprecated := true, deprecationReason := some "C:\\old\n" }] [] }] }
  have hs : s.Conforms := by
    refine ⟨by decide, ?_, by simp [s], List.cons_ne_nil _ _⟩
    simp only [s, List.forall_mem_singleton]
    refine ⟨by decide, ?_, by simp⟩
    simp only [List.forall_mem_singleton]
    refine ⟨by decide, ?_, hstring⟩
    simp only [List.forall_mem_singleton]
    exact ⟨by decide, hid, by simpa using hone⟩
  exact ⟨s, hs, rfl, parse_sdl hs⟩

end SchemaWeave.Introspection
