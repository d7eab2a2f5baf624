import SchemaWeave.Proofs.Graphql.Grammar
import SchemaWeave.Proofs.Graphql.Spelling

/-!
# What the parser reads is grammatical

`Gives` says what a reader gives from tokens that texts hold, and that the tokens it leaves are such tokens again.
Every rule of the parser gives what the grammar allows for it, so the definitions of a document that was read are
grammatical unless they are executable (`grammatical_of_read`).
-/

namespace SchemaWeave.Graphql

variable {α β : Type}

/-- Whatever the reader gives from valid tokens fits, and it leaves valid tokens. -/
def Gives (p : Parser α) (P : α → Prop) : Prop :=
  ∀ ts x ts', (∀ t ∈ ts, t.token.Valid) → p ts = .ok (x, ts') → P x ∧ ∀ t ∈ ts', t.token.Valid

theorem isName_of_valid {s : String} (h : (Token.name s).Valid) : isName s = true := isName_of_lexeme h

namespace Gives

variable {P : α → Prop} {Q : β → Prop}

theorem pure {x : α} (h : P x) : Gives (Pure.pure x) P := fun _ _ _ hv he => by
  cases he
  exact ⟨h, hv⟩

theorem bind {p : Parser α} {f : α → Parser β} (hp : Gives p P) (hf : ∀ x, P x → Gives (f x) Q) :
    Gives (p >>= f) Q := fun ts y ts' hv he => by
  simp only [Bind.bind, StateT.bind, Except.bind] at he
  split at he
  · cases he
  · next r hr =>
    obtain ⟨hx, hv⟩ := hp _ _ _ hv hr
    exact hf r.1 hx _ _ _ hv he

theorem mono {p : Parser α} {P' : α → Prop} (h : Gives p P) (hP : ∀ x, P x → P' x) : Gives p P' := fun _ _ _ hv he =>
  (h _ _ _ hv he).imp_left (hP _)

theorem refuse : Gives Parser.refuse P := fun _ _ _ _ he => by cases he

theorem throw (e : SyntaxError) : Gives (MonadExcept.throw e : Parser α) P := fun _ _ _ _ he => by cases he

theorem peek : Gives Parser.peek fun t => ∀ u ∈ t, u.Valid := fun ts t ts' hv he => by
  cases he
  refine ⟨fun u hu => ?_, hv⟩
  obtain ⟨t, ht, rfl⟩ := Option.map_eq_some_iff.mp hu
  exact hv t (List.mem_of_head? ht)

theorem next : Gives Parser.next Token.Valid := fun ts t ts' hv he => by
  cases ts with
  | nil => cases he
  | cons t ts =>
    cases he
    exact ⟨hv t (by simp), fun u hu => hv u (List.mem_cons_of_mem _ hu)⟩

theorem take (t : Token) : Gives (Parser.take t) fun _ => True := fun ts b ts' hv he => by
  refine ⟨trivial, ?_⟩
  cases ts with
  | nil => cases he; exact hv
  | cons t' ts =>
    simp only [Parser.take] at he
    split at he <;> cases he
    · exact fun u hu => hv u (List.mem_cons_of_mem _ hu)
    · exact hv

theorem adjacent : Gives Parser.adjacent fun _ => True := fun ts b ts' hv he => by
  simp only [Parser.adjacent] at he
  split at he
  · cases he
  · cases he; exact ⟨trivial, hv⟩

theorem expect (p : Punctuator) : Gives (Parser.expect p) fun _ => True := by
  refine (take _).bind fun b _ => ?_
  split
  · exact refuse
  · exact pure trivial

theorem keyword (s : String) : Gives (Parser.keyword s) fun _ => True := by
  refine (take _).bind fun b _ => ?_
  split
  · exact refuse
  · exact pure trivial

theorem name : Gives Parser.name fun s => isName s = true := by
  refine peek.bind fun t ht => ?_
  split
  · exact next.bind fun _ _ => pure (isName_of_valid (ht _ rfl))
  · exact refuse

theorem ite {c : Prop} [Decidable c] {p q : Parser α} (hp : Gives p P) (hq : Gives q P) :
    Gives (if c then p else q) P := by
  split
  · exact hp
  · exact hq

/-! ### Repetition -/

variable {item : Parser α} (h : Gives item P)
include h

theorem itemsUntil (close : Punctuator) (n : Nat) :
    Gives (Parser.itemsUntil close item n) fun xs => ∀ x ∈ xs, P x := by
  induction n with
  | zero => exact refuse
  | succ n ih =>
    refine (take _).bind fun _ _ => ite (pure (by simp)) ?_
    refine h.bind fun x hx => ih.bind fun xs hxs => pure ?_
    exact List.forall_mem_cons.mpr ⟨hx, hxs⟩

theorem itemsBetween (opening close : Punctuator) (n : Nat) :
    Gives (Parser.itemsBetween opening close item n) fun xs => ∀ x ∈ xs, P x := by
  refine (expect _).bind fun _ _ => h.bind fun x hx => (h.itemsUntil close n).bind fun xs hxs => pure ?_
  exact List.forall_mem_cons.mpr ⟨hx, hxs⟩

theorem optionalItems (opening close : Punctuator) (n : Nat) :
    Gives (Parser.optionalItems opening close item n) fun xs => ∀ x ∈ xs, P x := by
  refine peek.bind fun t _ => ?_
  split
  · exact ite (h.itemsBetween opening close n) (pure (by simp))
  · exact pure (by simp)

theorem itemsWhile (mark : Punctuator) (n : Nat) :
    Gives (Parser.itemsWhile mark item n) fun xs => ∀ x ∈ xs, P x := by
  induction n with
  | zero => exact pure (by simp)
  | succ n ih =>
    refine peek.bind fun t _ => ?_
    split
    · refine ite (h.bind fun x hx => ih.bind fun xs hxs => pure ?_) (pure (by simp))
      exact List.forall_mem_cons.mpr ⟨hx, hxs⟩
    · exact pure (by simp)

theorem separated (mark : Punctuator) (n : Nat) :
    Gives (Parser.separated mark item n) fun xs => xs ≠ [] ∧ ∀ x ∈ xs, P x := by
  refine (take _).bind fun _ _ => h.bind fun x hx => ?_
  refine (((expect mark).bind fun _ _ => h).itemsWhile mark n).bind fun xs hxs => pure ⟨by simp, ?_⟩
  exact List.forall_mem_cons.mpr ⟨hx, hxs⟩

end Gives

/-! ## Types and values -/

section

variable (bound : Nat)

theorem gives_typeExpr (depth : Nat) :
    Gives (Parser.typeExpr depth) fun t => isName t.core = true ∧ t.lists < depth := by
  induction depth with
  | zero => exact Gives.throw _
  | succ depth ih =>
    refine (Gives.take _).bind fun _ _ => Gives.ite ?_ ?_
    · refine ih.bind fun item hi => ?_
      refine (Gives.expect _).bind fun _ _ => (Gives.take _).bind fun _ _ => ?_
      exact Gives.pure ⟨hi.1, Nat.succ_lt_succ hi.2⟩
    · refine Gives.name.bind fun n hn => (Gives.take _).bind fun _ _ => ?_
      exact Gives.pure ⟨hn, Nat.succ_pos _⟩

theorem gives_type : Gives Parser.type TypeExpr.Grammatical :=
  (gives_typeExpr _).mono fun _ h => ⟨h.1, Nat.le_of_lt_succ h.2⟩

theorem constant_nameValue {s : Name} (h : isName s = true) (depth : Nat) :
    (Parser.nameValue s).Constant (depth + 1) := by
  unfold Parser.nameValue
  split_ifs with ht hf hn
  · trivial
  · trivial
  · trivial
  · exact ⟨h, by simp [Value.keywords, ht, hf, hn]⟩

/-- A name with its value: one without a value is passed over. -/
theorem gives_namedValue {p : Parser Value} {P : Value → Prop} (h : Gives p P) :
    Gives (Parser.namedValue p) fun o => ∀ a ∈ o, isName a.1 = true ∧ P a.2 := by
  refine Gives.name.bind fun n hn => (Gives.take _).bind fun _ _ => Gives.ite ?_ (Gives.pure (by simp))
  refine h.bind fun v hv => Gives.pure fun a ha => ?_
  cases ha
  exact ⟨hn, hv⟩

/-- The names with values that are left when the ones without are passed over. -/
theorem forall_mem_filterMap_id {P : α → Prop} {os : List (Option α)} (h : ∀ o ∈ os, ∀ a ∈ o, P a) :
    ∀ a ∈ os.filterMap id, P a := by
  intro a ha
  obtain ⟨o, ho, he⟩ := List.mem_filterMap.mp ha
  exact h o ho a he

/-- Constants are read as such; of values with variables nothing is said. -/
theorem gives_valueUpTo (constant : Bool) (depth : Nat) :
    Gives (Parser.valueUpTo constant bound depth) fun v => constant = true → v.Constant depth := by
  induction depth with
  | zero => exact Gives.throw _
  | succ depth ih =>
    rw [Parser.valueUpTo]
    refine Gives.peek.bind fun t ht => ?_
    split
    · exact Gives.next.bind fun _ _ => Gives.pure fun _ => ht _ rfl
    · exact Gives.next.bind fun _ _ => Gives.pure fun _ => ht _ rfl
    · exact Gives.next.bind fun _ _ => Gives.pure fun _ => trivial
    · refine Gives.next.bind fun _ _ => Gives.pure fun _ => ?_
      exact constant_nameValue (isName_of_valid (ht _ rfl)) depth
    · split
      · exact Gives.refuse
      · next hc =>
        refine Gives.next.bind fun _ _ => Gives.name.bind fun _ _ => Gives.pure fun h => ?_
        exact absurd h hc
    · refine Gives.next.bind fun _ _ => (ih.itemsUntil _ _).bind fun items hi => ?_
      exact Gives.pure fun hc v hv => hi v hv hc
    · refine Gives.next.bind fun _ _ => ((gives_namedValue ih).itemsUntil _ _).bind fun fields hf => ?_
      refine Gives.pure fun hc f hm => ?_
      exact (forall_mem_filterMap_id hf f hm).imp_right fun h => h hc
    · exact Gives.refuse

theorem gives_value (constant : Bool) :
    Gives (Parser.value constant bound) fun v => constant = true → v.Grammatical :=
  gives_valueUpTo bound constant _

/-! ## Directives and members -/

theorem gives_arguments (constant : Bool) :
    Gives (Parser.arguments constant bound) fun as => constant = true → ArgumentsGrammatical as := by
  have harg := gives_namedValue (gives_value bound constant)
  refine (harg.optionalItems _ _ bound).bind fun os ho => Gives.pure fun hc a ha => ?_
  exact (forall_mem_filterMap_id ho a ha).imp_right fun h => h hc

theorem gives_directives (constant : Bool) :
    Gives (Parser.directives constant bound) fun ds => constant = true → ∀ d ∈ ds, d.Grammatical := by
  have hd : Gives (Parser.directive constant bound) fun d => constant = true → d.Grammatical := by
    refine (Gives.expect _).bind fun _ _ => Gives.name.bind fun n hn => ?_
    exact (gives_arguments bound constant).bind fun as ha => Gives.pure fun hc => ⟨hn, ha hc⟩
  exact (hd.itemsWhile _ bound).mono fun ds h hc d hm => h d hm hc

theorem gives_constDirectives : Gives (Parser.directives true bound) fun ds => ∀ d ∈ ds, d.Grammatical :=
  (gives_directives bound true).mono fun _ h => h rfl

theorem gives_description : Gives Parser.description fun _ => True := by
  refine Gives.peek.bind fun t _ => ?_
  split
  · exact Gives.next.bind fun _ _ => Gives.pure trivial
  · exact Gives.pure trivial

theorem gives_defaultValue : Gives (Parser.defaultValue bound) fun o => ∀ v ∈ o, v.Grammatical := by
  refine (Gives.take _).bind fun _ _ => Gives.ite ?_ (Gives.pure (by simp))
  refine (gives_value bound true).bind fun v hv => Gives.pure fun w hw => ?_
  cases hw
  exact hv rfl

theorem gives_inputDef : Gives (Parser.inputDef bound) InputDef.Grammatical := by
  refine gives_description.bind fun d _ => Gives.name.bind fun n hn => (Gives.expect _).bind fun _ _ => ?_
  refine gives_type.bind fun t ht => (gives_defaultValue bound).bind fun v hv => ?_
  exact (gives_constDirectives bound).bind fun ds hds => Gives.pure ⟨hn, ht, hv, hds⟩

theorem gives_argumentDefs : Gives (Parser.argumentDefs bound) fun as => ∀ a ∈ as, a.Grammatical :=
  (gives_inputDef bound).optionalItems _ _ bound

theorem gives_fieldDef : Gives (Parser.fieldDef bound) FieldDef.Grammatical := by
  refine gives_description.bind fun d _ => Gives.name.bind fun n hn => (gives_argumentDefs bound).bind fun as has => ?_
  refine (Gives.expect _).bind fun _ _ => gives_type.bind fun t ht => ?_
  exact (gives_constDirectives bound).bind fun ds hds => Gives.pure ⟨hn, has, ht, hds⟩

/-- A name that was looked at before it was taken. -/
theorem gives_peekedName {f : Option Token → Parser α} {g : Name → Parser α} {P : Name → Prop} {Q : α → Prop}
    (hf : ∀ t, (∀ n, t = some (.name n) → P n) ∧ f t = (Parser.name >>= g) ∨ f t = Parser.refuse)
    (hg : ∀ n, isName n = true → P n → Gives (g n) Q) : Gives (Parser.peek >>= f) Q := by
  intro ts x ts' hv he
  have hpeek : (Parser.peek >>= f) ts = f (ts.head?.map PlacedToken.token) ts := rfl
  rw [hpeek] at he
  rcases hf (ts.head?.map PlacedToken.token) with ⟨hP, hn⟩ | hr
  · rw [hn] at he
    match ts, he with
    | ⟨.name n, c⟩ :: ts, he =>
      have hname : isName n = true := isName_of_valid (hv _ (List.mem_cons_self ..))
      exact hg n hname (hP n rfl) ts x ts' (fun t ht => hv t (List.mem_cons_of_mem _ ht)) he
  · rw [hr] at he
    cases he

theorem gives_enumValueDef : Gives (Parser.enumValueDef bound) EnumValueDef.Grammatical := by
  refine gives_description.bind fun d _ => ?_
  refine gives_peekedName (P := (· ∉ Value.keywords))
    (g := fun n => Parser.directives true bound >>= fun ds => pure ⟨d, n, ds⟩) (fun t => ?_) fun n hn hk => ?_
  · split
    · exact Or.inr rfl
    · exact Or.inr rfl
    · exact Or.inr rfl
    · next ht hf hn =>
      refine Or.inl ⟨fun n hn' => ?_, rfl⟩
      subst hn'
      simp only [Value.keywords, List.mem_cons, List.not_mem_nil, or_false, not_or]
      exact ⟨fun h => ht (by rw [h]), fun h => hf (by rw [h]), fun h => hn (by rw [h])⟩
  · exact (gives_constDirectives bound).bind fun ds hds => Gives.pure ⟨hn, hk, hds⟩

theorem gives_interfaces : Gives (Parser.interfaces bound) fun ns => ∀ n ∈ ns, isName n = true :=
  (Gives.take _).bind fun _ _ => Gives.ite ((Gives.name.separated _ bound).mono fun _ h => h.2) (Gives.pure (by simp))

theorem gives_members : Gives (Parser.members bound) fun ns => ∀ n ∈ ns, isName n = true :=
  (Gives.take _).bind fun _ _ => Gives.ite ((Gives.name.separated _ bound).mono fun _ h => h.2) (Gives.pure (by simp))

theorem gives_fieldDefs : Gives (Parser.fieldDefs bound) fun fs => ∀ f ∈ fs, f.Grammatical :=
  (gives_fieldDef bound).optionalItems _ _ bound

theorem gives_typeContent (kind : TypeKind) :
    Gives (Parser.typeContent bound kind) fun (ds, body) => (∀ d ∈ ds, d.Grammatical) ∧ body.Grammatical := by
  have hds := gives_constDirectives bound
  cases kind with
  | scalar => exact hds.bind fun ds h => Gives.pure ⟨h, trivial⟩
  | object | interface =>
    refine (gives_interfaces bound).bind fun is hi => hds.bind fun ds hd => ?_
    exact (gives_fieldDefs bound).bind fun fs hf => Gives.pure ⟨hd, hi, hf⟩
  | union => exact hds.bind fun ds hd => (gives_members bound).bind fun ms hm => Gives.pure ⟨hd, hm⟩
  | enum =>
    refine hds.bind fun ds hd => ?_
    exact ((gives_enumValueDef bound).optionalItems _ _ bound).bind fun vs hv => Gives.pure ⟨hd, hv⟩
  | inputObject =>
    refine hds.bind fun ds hd => ?_
    exact ((gives_inputDef bound).optionalItems _ _ bound).bind fun fs hf => Gives.pure ⟨hd, hf⟩

/-! ## Definitions -/

theorem gives_rootType : Gives Parser.rootType fun o => ∀ r ∈ o, isName r.2 = true := by
  refine Gives.name.bind fun n _ => ?_
  split
  · exact Gives.refuse
  · refine (Gives.expect _).bind fun _ _ => Gives.peek.bind fun t ht => ?_
    split
    · refine Gives.next.bind fun _ _ => Gives.pure fun r hr => ?_
      cases hr
      exact isName_of_valid (ht _ rfl)
    · exact Gives.pure (by simp)

theorem gives_rootTypes :
    Gives (Parser.rootTypes bound) fun entries => ∀ r ∈ (entries.getD []).filterMap id, isName r.2 = true := by
  refine (Gives.take _).bind fun _ _ => Gives.ite ?_ (Gives.pure (by simp))
  exact (gives_rootType.itemsUntil _ bound).bind fun os ho => Gives.pure (forall_mem_filterMap_id ho)

theorem gives_location : Gives Parser.location fun _ => True := by
  refine Gives.name.bind fun n _ => ?_
  split
  · exact Gives.pure trivial
  · exact Gives.refuse

theorem gives_directiveDef (description : Option String) :
    Gives (Parser.directiveDef bound description) DirectiveDef.Grammatical := by
  refine (Gives.expect _).bind fun _ _ => Gives.name.bind fun n hn => (gives_argumentDefs bound).bind fun as has => ?_
  refine (Gives.take _).bind fun _ _ => (Gives.keyword _).bind fun _ _ => ?_
  exact (gives_location.separated _ bound).bind fun ls hl => Gives.pure ⟨hn, has, hl.1⟩

/-- What is said of a definition that was read: it is grammatical unless it is executable. -/
def GrammaticalSchemaPart (r : Definition × List SyntaxError) : Prop := r.1.isExecutable = false → r.1.Grammatical

theorem gives_extension : Gives (Parser.extension bound) GrammaticalSchemaPart := by
  refine Gives.adjacent.bind fun _ _ => Gives.name.bind fun word _ => Gives.ite ?_ ?_
  · refine (gives_constDirectives bound).bind fun ds hd => (gives_rootTypes bound).bind fun entries he => ?_
    exact Gives.pure fun _ => ⟨hd, he⟩
  · split
    · exact Gives.refuse
    · refine Gives.name.bind fun n hn => (gives_typeContent bound _).bind fun ⟨ds, body⟩ hc => ?_
      dsimp only
      split
      · exact (Gives.refuse (P := fun _ => False)).bind fun _ h => h.elim
      · next he => exact Gives.pure fun _ => ⟨hn, hc.1, hc.2, Bool.not_eq_true _ ▸ he⟩

theorem gives_typeSystemDefinition (description : Option String) (word : Name) :
    Gives (Parser.typeSystemDefinition bound description word) GrammaticalSchemaPart := by
  refine Gives.ite ?_ (Gives.ite ?_ ?_)
  · refine (gives_constDirectives bound).bind fun ds hd => (gives_rootTypes bound).bind fun entries he => ?_
    exact Gives.pure fun _ => ⟨hd, he⟩
  · exact (gives_directiveDef bound description).bind fun d hd => Gives.pure fun _ => hd
  · split
    · exact Gives.refuse
    · refine Gives.name.bind fun n hn => (gives_typeContent bound _).bind fun ⟨ds, body⟩ hc => ?_
      exact Gives.pure fun _ => ⟨hn, hc.1, hc.2⟩

/-! ### Executable definitions

Nothing is said of these but that they leave valid tokens. -/

theorem gives_selection {selections : Parser Unit} (h : Gives selections fun _ => True) :
    Gives (Parser.selection bound selections) fun _ => True := by
  have hds := (gives_directives bound false).mono fun _ _ => trivial
  refine (Gives.take _).bind fun _ _ => Gives.ite ?_ ?_
  · refine Gives.adjacent.bind fun _ _ => Gives.peek.bind fun t _ => ?_
    split
    · exact Gives.next.bind fun _ _ => Gives.name.bind fun _ _ => hds.bind fun _ _ => h
    · exact Gives.next.bind fun _ _ => hds.bind fun _ _ => Gives.pure trivial
    · exact hds.bind fun _ _ => h
  · refine Gives.name.bind fun _ _ => Gives.peek.bind fun t _ =>
      Gives.ite (Gives.adjacent.bind fun _ _ => Gives.next.bind fun _ _ => Gives.name.bind fun _ _ => ?_) ?_
    -- behind an alias or without one, a field goes on in the same way
    all_goals
      refine (gives_arguments bound false).bind fun _ _ => hds.bind fun _ _ => Gives.peek.bind fun t _ => ?_
      split
      · exact h
      · exact Gives.pure trivial

theorem gives_selections (depth : Nat) : Gives (Parser.selections bound depth) fun _ => True := by
  induction depth with
  | zero => exact Gives.throw _
  | succ depth ih => exact ((gives_selection bound ih).itemsBetween _ _ bound).bind fun _ _ => Gives.pure trivial

theorem gives_operation : Gives (Parser.operation bound) fun _ => True := by
  have hvar : Gives (Parser.variableDef bound) fun _ => True := by
    refine (Gives.expect _).bind fun _ _ => Gives.name.bind fun _ _ => (Gives.expect _).bind fun _ _ => ?_
    refine gives_type.bind fun _ _ => (gives_defaultValue bound).bind fun _ _ => ?_
    exact (gives_constDirectives bound).bind fun _ _ => Gives.pure trivial
  have hrest : Gives (do
      let _ ← Parser.optionalItems .openParen .closeParen (Parser.variableDef bound) bound
      let _ ← Parser.directives false bound
      Parser.selections bound nestingLimit) fun _ => True := by
    refine (hvar.optionalItems _ _ bound).bind fun _ _ => ?_
    exact (gives_directives bound false).bind fun _ _ => gives_selections bound _
  refine Gives.peek.bind fun t _ => ?_
  split
  · exact Gives.next.bind fun _ _ => hrest
  · exact hrest

theorem gives_fragmentContent : Gives (Parser.fragmentContent bound) fun _ => True := by
  refine (Gives.keyword _).bind fun _ _ => Gives.name.bind fun _ _ => ?_
  exact (gives_directives bound false).bind fun _ _ => gives_selections bound _

theorem gives_fragment : Gives (Parser.fragment bound) fun _ => True := by
  refine Gives.name.bind fun _ _ => ?_
  split
  · exact Gives.refuse
  · exact gives_fragmentContent bound

theorem gives_definition : Gives (Parser.definition bound) GrammaticalSchemaPart := by
  refine gives_description.bind fun d _ => ?_
  split
  · refine Gives.adjacent.bind fun _ _ => Gives.name.bind fun word _ => Gives.ite ?_ ?_
    · exact (gives_fragmentContent bound).bind fun _ _ => Gives.pure fun h => by cases h
    · exact gives_typeSystemDefinition bound _ word
  · refine Gives.peek.bind fun t _ => ?_
    split
    · exact (gives_selections bound _).bind fun _ _ => Gives.pure fun h => by cases h
    · refine Gives.name.bind fun word _ => Gives.ite ?_ (Gives.ite ?_ (Gives.ite ?_ ?_))
      · exact (gives_operation bound).bind fun _ _ => Gives.pure fun h => by cases h
      · exact (gives_fragment bound).bind fun _ _ => Gives.pure fun h => by cases h
      · exact gives_extension bound
      · exact gives_typeSystemDefinition bound _ word

theorem gives_definitions (n : Nat) :
    Gives (Parser.definitions bound n) fun rs => ∀ r ∈ rs, GrammaticalSchemaPart r := by
  induction n with
  | zero => exact Gives.refuse
  | succ n ih =>
    refine Gives.peek.bind fun t _ => ?_
    split
    · exact Gives.pure (by simp)
    · refine (gives_definition bound).bind fun r hr => ih.bind fun rs hrs => Gives.pure ?_
      exact List.forall_mem_cons.mpr ⟨hr, hrs⟩

end

/-! ## Documents -/

/-- The tokens of a text are valid. -/
theorem valid_of_tokenize (cs : List Char) : ∀ {ts}, tokenize cs = some ts → ∀ t ∈ ts, t.token.Valid := by
  induction cs using tokenize.induct with
  | case1 cs _ hs =>
    intro ts h
    rw [tokenize_nil hs] at h
    cases h
    simp
  | case2 cs c cs' _ hs hl =>
    intro ts h
    rw [tokenize_lexeme hs (by simp), hl] at h
    cases h
  | case3 cs c cs' _ hs t rest hl ih =>
    intro ts h
    rw [tokenize_lexeme hs (by simp), hl] at h
    obtain ⟨ts', ht, rfl⟩ := Option.map_eq_some_iff.mp h
    exact List.forall_mem_cons.mpr ⟨valid_of_lexeme hl, ih ht⟩

/-- **The definitions of a document that was read are grammatical, unless they are executable.** -/
theorem grammatical_of_read {s : String} {doc : Document} {slips : List SyntaxError}
    (h : Document.read s = .ok (doc, slips)) : ∀ d ∈ doc, d.isExecutable = false → d.Grammatical := by
  unfold Document.read at h
  split at h
  · cases h
  next ts ht =>
    have hv := valid_of_tokenize _ ht
    simp only [Document.ofTokens, Bind.bind, Except.bind] at h
    split_ifs at h with he
    · cases h; simp
    · split at h
      · cases h
      next r hr =>
        cases h
        obtain ⟨hd, -⟩ := gives_definitions _ _ _ _ _ hv hr
        exact List.forall_mem_map.mpr fun r hm => hd r hm

end SchemaWeave.Graphql
