import SchemaWeave.Proofs.Graphql.Reading
import SchemaWeave.Proofs.Introspection.Document

/-!
# Type references as texts

A reference is written with tokens of its own (`TypeRef.tokens`), also where it stands for no type. They are the tokens of
a type only if the reference is well formed, and then of the type that it stands for (`eq_expr_of_tokens`). The reader of
types takes the tokens of the type that it gives (`tokens_of_typeExpr`), so the text of a reference is read as one type
exactly if the reference is well formed, and that type has its wrappers and its name (`readsType_text`).
-/

namespace SchemaWeave

namespace Graphql

/-! ## What the reader of types takes -/

namespace Parser

variable {α β : Type}

theorem bind_eq_ok {p : Parser α} {f : α → Parser β} {ts : List PlacedToken} {r : β × List PlacedToken} :
    (p >>= f) ts = .ok r ↔ ∃ x ts', p ts = .ok (x, ts') ∧ f x ts' = .ok r := by
  simp only [Bind.bind, StateT.bind, Except.bind]
  constructor
  · intro h
    split at h
    · cases h
    · next r' hr => exact ⟨r'.1, r'.2, hr, h⟩
  · rintro ⟨x, ts', hp, hf⟩
    rw [hp]
    exact hf

/-- The reader takes the tokens that are listed for what it gives. -/
def Takes (p : Parser α) (tokens : α → List Token) : Prop :=
  ∀ ⦃ts x ts'⦄, p ts = .ok (x, ts') → ts.map PlacedToken.token = tokens x ++ ts'.map PlacedToken.token

theorem takes_take (t : Token) : Takes (take t) fun taken => if taken then [t] else [] := by
  intro ts taken ts' h
  cases ts with
  | nil =>
    cases h
    rfl
  | cons t' ts =>
    rw [take] at h
    split at h
    · next ht =>
      cases h
      simp [ht]
    · cases h
      rfl

theorem takes_expect (p : Punctuator) : Takes (expect p) fun _ => [.punct p] := by
  intro ts x ts' h
  obtain ⟨taken, ts₁, htake, h⟩ := bind_eq_ok.mp h
  have htokens := takes_take _ htake
  cases taken with
  | false => cases h
  | true =>
    cases h
    exact htokens

theorem takes_name : Takes name fun n => [.name n] := by
  intro ts n ts' h
  obtain ⟨t, ts₁, hpeek, h⟩ := bind_eq_ok.mp h
  cases hpeek
  cases ts with
  | nil => cases h
  | cons t ts =>
    obtain ⟨t, comma⟩ := t
    cases t with
    | name s =>
      obtain ⟨u, ts₁, hnext, h⟩ := bind_eq_ok.mp h
      cases hnext
      cases h
      rfl
    | _ => cases h

/-- The reader of types takes the tokens of the type that it gives, which is nested no deeper than it reads. -/
theorem tokens_of_typeExpr {depth : Nat} {ts : List PlacedToken} {e : TypeExpr} {ts' : List PlacedToken}
    (h : typeExpr depth ts = .ok (e, ts')) :
    ts.map PlacedToken.token = e.tokens ++ ts'.map PlacedToken.token ∧ e.lists < depth := by
  induction depth generalizing ts e ts' with
  | zero => cases h
  | succ depth ih =>
    rw [typeExpr] at h
    obtain ⟨opened, ts₁, hopen, h⟩ := bind_eq_ok.mp h
    have hopened := takes_take _ hopen
    cases opened with
    | true =>
      obtain ⟨item, ts₂, hitem, h⟩ := bind_eq_ok.mp h
      obtain ⟨closed, ts₃, hclose, h⟩ := bind_eq_ok.mp h
      obtain ⟨required, ts₄, hbang, h⟩ := bind_eq_ok.mp h
      cases h
      obtain ⟨htokens, hlists⟩ := ih hitem
      refine ⟨?_, Nat.succ_lt_succ hlists⟩
      rw [hopened, htokens, takes_expect _ hclose, takes_take _ hbang]
      simp [TypeExpr.tokens, TypeExpr.bang]
    | false =>
      obtain ⟨n, ts₂, hname, h⟩ := bind_eq_ok.mp h
      obtain ⟨required, ts₃, hbang, h⟩ := bind_eq_ok.mp h
      cases h
      refine ⟨?_, Nat.succ_pos _⟩
      rw [hopened, takes_name hname, takes_take _ hbang]
      simp [TypeExpr.tokens, TypeExpr.bang]

end Parser

/-- The text is this type and nothing else, for a reader of at most `depth - 1` lists around a name. -/
def ReadsType (depth : Nat) (s : String) (e : TypeExpr) : Prop :=
  ∃ ts, tokenize s.toList = some ts ∧ Parser.typeExpr depth ts = .ok (e, [])

/-- What is read is what is spelled. -/
theorem readsType_iff {depth : Nat} {s : String} {e : TypeExpr} : ReadsType depth s e ↔
    ∃ ts, tokenize s.toList = some ts ∧ ts.map PlacedToken.token = e.tokens ∧ e.lists < depth := by
  constructor
  · rintro ⟨ts, hs, h⟩
    obtain ⟨htokens, hlists⟩ := Parser.tokens_of_typeExpr h
    rw [List.map_nil, List.append_nil] at htokens
    exact ⟨ts, hs, htokens, hlists⟩
  · rintro ⟨ts, hs, htokens, hlists⟩
    have h := accepts_typeExpr hlists ts [] htokens (Nat.le_refl _) (by simp)
    rw [List.append_nil] at h
    exact ⟨ts, hs, h⟩

/-! ## Types by their tokens -/

namespace TypeExpr

theorem tokens_ne_nil (e : TypeExpr) : e.tokens ≠ [] := by
  cases e <;> exact List.cons_ne_nil _ _

theorem eq_named_of_tokens {e : TypeExpr} {name : Name} (h : e.tokens = [.name name]) : e = .named name false := by
  cases e with
  | named name' required =>
    cases required with
    | true => cases h
    | false =>
      cases h
      rfl
  | list item required => cases h

/-- Brackets are those of a list. -/
theorem eq_list_of_tokens {e : TypeExpr} {l : List Token}
    (h : e.tokens = .punct .openBracket :: (l ++ [.punct .closeBracket])) :
    ∃ item, e = .list item false ∧ item.tokens = l := by
  cases e with
  | named name required => cases h
  | list item required =>
    have hinner := (List.cons.inj h).2
    cases required with
    | true =>
      have hlast := congrArg List.getLast? hinner
      simp [bang] at hlast
    | false => exact ⟨item, rfl, List.append_cancel_right hinner⟩

end TypeExpr

end Graphql

namespace Introspection

open Graphql

/-! ## Required types -/

theorem core_required (t : TypeExpr) : (required t).core = t.core := by cases t <;> rfl

theorem isRequired_required (t : TypeExpr) : (required t).isRequired = true := by cases t <;> rfl

/-- A type that is not required yet gets an exclamation mark. -/
theorem tokens_required {t : TypeExpr} (h : t.isRequired = false) :
    (required t).tokens = t.tokens ++ [.punct .bang] := by
  cases t with
  | named n r => cases h; rfl
  | list i r => cases h; simp [required, TypeExpr.tokens, TypeExpr.bang]

theorem exists_of_isRequired {e : TypeExpr} (h : e.isRequired = true) :
    ∃ e', e = required e' ∧ e'.isRequired = false := by
  cases e with
  | named name r => cases h; exact ⟨.named name false, rfl, rfl⟩
  | list item r => cases h; exact ⟨.list item false, rfl, rfl⟩

/-- A type that is not required ends with its name or with a bracket. -/
theorem getLast?_tokens_ne {e : TypeExpr} (h : e.isRequired = false) : e.tokens.getLast? ≠ some (.punct .bang) := by
  cases e with
  | named name r =>
    cases h
    exact nofun
  | list item r =>
    cases h
    rw [TypeExpr.tokens, TypeExpr.bang, if_neg Bool.false_ne_true, ← List.cons_append, List.getLast?_concat]
    exact nofun

/-- An exclamation mark at the end is that of a required type. -/
theorem eq_required_of_tokens {e : TypeExpr} {l : List Token} (h : e.tokens = l ++ [.punct .bang]) :
    ∃ e', e = required e' ∧ e'.isRequired = false ∧ e'.tokens = l := by
  cases hr : e.isRequired with
  | false =>
    have hlast : e.tokens.getLast? = some (.punct .bang) := by
      rw [h, List.getLast?_concat]
    exact absurd hlast (getLast?_tokens_ne hr)
  | true =>
    obtain ⟨e', rfl, hplain⟩ := exists_of_isRequired hr
    rw [tokens_required hplain] at h
    exact ⟨e', rfl, hplain, List.append_cancel_right h⟩

theorem isRequired_expr {t : TypeRef} (hw : t.isWellFormed = true) (h : t.kind ≠ .nonNull) :
    t.expr.isRequired = false := by
  cases t with
  | bare kind name => rfl
  | wrap kind name inner =>
    cases kind <;> first | exact absurd rfl h | rfl

/-! ## Wrappers and names -/

/-- The kinds of the wrappers of a type, from the outside in. -/
def wrapping : TypeExpr → List RefKind
  | .named _ isRequired => if isRequired then [.nonNull] else []
  | .list item isRequired => (if isRequired then [.nonNull] else []) ++ .list :: wrapping item

/-- A required type has one more wrapper. -/
theorem wrapping_required {e : TypeExpr} (h : e.isRequired = false) : wrapping (required e) = .nonNull :: wrapping e := by
  cases e with
  | named name isRequired => cases h; rfl
  | list item isRequired => cases h; rfl

theorem lists_eq_count (e : TypeExpr) : e.lists = (wrapping e).count .list := by
  induction e with
  | named name isRequired => cases isRequired <;> rfl
  | list item isRequired ih => cases isRequired <;> simp [TypeExpr.lists, wrapping, ih]

namespace TypeRef

/-- The kinds of the wrappers on the way to the core of a reference, from the outside in. -/
def wrapping : TypeRef → List RefKind
  | wrap .nonNull _ inner => .nonNull :: inner.wrapping
  | wrap .list _ inner => .list :: inner.wrapping
  | _ => []

/-- The name at the core of a reference; none where a wrapper has no type inside. -/
def coreName? : TypeRef → Option Name
  | bare .nonNull _ | bare .list _ => none
  | wrap .nonNull _ inner | wrap .list _ inner => inner.coreName?
  | bare _ name | wrap _ name _ => name

/-- The tokens that a reference is written with. One that stands for no type has tokens as well. -/
def tokens : TypeRef → List Token
  | bare .nonNull _ => [.punct .bang]
  | bare .list _ => [.punct .openBracket, .punct .closeBracket]
  | wrap .nonNull _ inner => inner.tokens ++ [.punct .bang]
  | wrap .list _ inner => .punct .openBracket :: (inner.tokens ++ [.punct .closeBracket])
  | bare _ name | wrap _ name _ => name.toList.map .name

/-- No wrapper: the way ends here. -/
def IsCore (t : TypeRef) : Prop := t.kind ≠ .list ∧ t.kind ≠ .nonNull

/-- At the core a reference is its name. -/
theorem IsCore.eqs {t : TypeRef} (h : t.IsCore) : t.text = t.name.getD "" ∧ t.tokens = t.name.toList.map .name ∧
    t.coreName? = t.name ∧ t.wrapping = [] ∧ t.isWellFormed = t.name.isSome ∧
    t.expr = .named (t.name.getD "") false := by
  obtain ⟨hl, hn⟩ := h
  cases t with
  | bare kind name | wrap kind name inner =>
    cases kind <;> first | exact ⟨rfl, rfl, rfl, rfl, rfl, rfl⟩ | exact absurd rfl hl | exact absurd rfl hn

/-- Induction along the way to the core, which may be missing. -/
@[elab_as_elim] theorem wayInduction {motive : TypeRef → Prop} (core : ∀ t, IsCore t → motive t)
    (noneRequired : ∀ name, motive (.bare .nonNull name)) (noneListed : ∀ name, motive (.bare .list name))
    (required : ∀ name inner, motive inner → motive (.wrap .nonNull name inner))
    (listed : ∀ name inner, motive inner → motive (.wrap .list name inner)) (t : TypeRef) : motive t := by
  induction t with
  | bare kind name =>
    by_cases hl : kind = .list
    · exact hl ▸ noneListed name
    · by_cases hn : kind = .nonNull
      · exact hn ▸ noneRequired name
      · exact core _ ⟨hl, hn⟩
  | wrap kind name inner ih =>
    by_cases hl : kind = .list
    · exact hl ▸ listed name inner ih
    · by_cases hn : kind = .nonNull
      · exact hn ▸ required name inner ih
      · exact core _ ⟨hl, hn⟩

end TypeRef

/-- A reference is written with its tokens, in front of any text that starts with a delimiter. -/
theorem spells_tokens {t : TypeRef} (hname : ∀ n ∈ t.coreName?, isName n = true) {qs : List Char} {us : List Token}
    (hq : Spells qs us) (hd : Delimited qs) : Spells (t.text.toList ++ qs) (t.tokens ++ us) := by
  induction t using TypeRef.wayInduction generalizing qs us with
  | core t hcore =>
    obtain ⟨htext, htokens, hcoreName, -⟩ := hcore.eqs
    rw [hcoreName] at hname
    rw [htext, htokens]
    cases hn : t.name with
    | none => exact hq
    | some n => exact hq.token (valid_name (hname n hn)) hd
  | noneRequired name => simpa [TypeRef.text, TypeRef.tokens, Punctuator.chars] using hq.mark .bang
  | noneListed name =>
    simpa [TypeRef.text, TypeRef.tokens, Punctuator.chars] using (hq.mark .closeBracket).mark .openBracket
  | required name inner ih =>
    have hinner := ih hname (hq.mark .bang) (stops_cons.mpr (by decide))
    simpa [TypeRef.text, TypeRef.tokens, Punctuator.chars] using hinner
  | listed name inner ih =>
    have hinner := ih hname (hq.mark .closeBracket) (stops_cons.mpr (by decide))
    simpa [TypeRef.text, TypeRef.tokens, Punctuator.chars] using hinner.mark .openBracket

/-! ## References that stand for a type -/

/-- What a well-formed reference stands for: its name with its wrappers, written with its tokens. -/
theorem expr_of_wellFormed {t : TypeRef} (hw : t.isWellFormed = true) :
    t.expr.tokens = t.tokens ∧ wrapping t.expr = t.wrapping ∧ t.coreName? = some t.expr.core := by
  induction t using TypeRef.wayInduction with
  | core t hcore =>
    obtain ⟨-, htokens, hcoreName, hwrapping, hwell, hexpr⟩ := hcore.eqs
    rw [hwell] at hw
    obtain ⟨n, hn⟩ := Option.isSome_iff_exists.mp hw
    rw [htokens, hcoreName, hwrapping, hexpr, hn]
    exact ⟨rfl, rfl, rfl⟩
  | noneRequired name => cases hw
  | noneListed name => cases hw
  | required name inner ih =>
    obtain ⟨hkind, hinner⟩ := Bool.and_eq_true_iff.mp hw
    have hplain : inner.expr.isRequired = false := isRequired_expr hinner (bne_iff_ne.mp hkind)
    obtain ⟨htokens, hwrapping, hcore⟩ := ih hinner
    refine ⟨?_, ?_, ?_⟩
    · rw [TypeRef.expr, tokens_required hplain, htokens, TypeRef.tokens]
    · rw [TypeRef.expr, wrapping_required hplain, hwrapping, TypeRef.wrapping]
    · rw [TypeRef.expr, core_required, TypeRef.coreName?, hcore]
  | listed name inner ih =>
    obtain ⟨htokens, hwrapping, hcore⟩ := ih hw
    refine ⟨?_, ?_, hcore⟩
    · rw [TypeRef.expr, TypeExpr.tokens, htokens]
      rfl
    · rw [TypeRef.expr, wrapping, hwrapping]
      rfl

/-- **A reference that is written like a type stands for this type.** -/
theorem eq_expr_of_tokens {t : TypeRef} {e : TypeExpr} (h : e.tokens = t.tokens) :
    t.isWellFormed = true ∧ e = t.expr := by
  induction t using TypeRef.wayInduction generalizing e with
  | core t hcore =>
    obtain ⟨-, htokens, -, -, hwell, hexpr⟩ := hcore.eqs
    rw [htokens] at h
    rw [hwell, hexpr]
    cases hn : t.name with
    | none =>
      rw [hn] at h
      exact absurd h e.tokens_ne_nil
    | some n =>
      rw [hn] at h
      exact ⟨rfl, e.eq_named_of_tokens h⟩
  | noneRequired name =>
    obtain ⟨e', -, -, hnil⟩ := eq_required_of_tokens (l := []) h
    exact absurd hnil e'.tokens_ne_nil
  | noneListed name =>
    obtain ⟨item, -, hnil⟩ := e.eq_list_of_tokens (l := []) h
    exact absurd hnil item.tokens_ne_nil
  | required name inner ih =>
    obtain ⟨e', rfl, hplain, hinner⟩ := eq_required_of_tokens h
    obtain ⟨hw, rfl⟩ := ih hinner
    refine ⟨Bool.and_eq_true_iff.mpr ⟨bne_iff_ne.mpr fun hkind => ?_, hw⟩, rfl⟩
    -- a second mark would be that of a type that is required already
    cases inner with
    | bare kind name =>
      cases hkind
      cases hw
    | wrap kind name inner =>
      cases hkind
      rw [TypeRef.expr, isRequired_required] at hplain
      cases hplain
  | listed name inner ih =>
    obtain ⟨item, rfl, hitem⟩ := e.eq_list_of_tokens h
    obtain ⟨hw, rfl⟩ := ih hitem
    exact ⟨hw, rfl⟩

/-- What the text of a reference is read as. -/
theorem readsType_text_iff {t : TypeRef} (hname : ∀ n ∈ t.coreName?, isName n = true) {depth : Nat} {e : TypeExpr} :
    ReadsType depth t.text e ↔ t.isWellFormed = true ∧ e = t.expr ∧ t.wrapping.count .list < depth := by
  obtain ⟨placed, hplaced, htext⟩ := (spells_tokens hname spells_nil (stops_nil _)).tokenize
  rw [List.append_nil] at hplaced htext
  rw [readsType_iff]
  constructor
  · rintro ⟨ts, hs, htokens, hlists⟩
    rw [htext] at hs
    cases hs
    obtain ⟨hw, rfl⟩ := eq_expr_of_tokens (htokens.symm.trans hplaced)
    obtain ⟨-, hwrapping, -⟩ := expr_of_wellFormed hw
    rw [lists_eq_count, hwrapping] at hlists
    exact ⟨hw, rfl, hlists⟩
  · rintro ⟨hw, rfl, hlists⟩
    obtain ⟨htokens, hwrapping, -⟩ := expr_of_wellFormed hw
    refine ⟨placed, htext, hplaced.trans htokens.symm, ?_⟩
    rw [lists_eq_count, hwrapping]
    exact hlists

/-- **Which references are written as types.** The text of a reference is one type and nothing else exactly if the
reference is well formed; a reader with a limit on nested lists reads it exactly if they are within the limit, too. The
type has the wrappers and the name of the reference, so well-formed references with one text have the same. -/
theorem readsType_text {t : TypeRef} (hname : ∀ n ∈ t.coreName?, isName n = true) :
    ((∃ depth e, ReadsType depth t.text e) ↔ t.isWellFormed = true) ∧
    (∀ depth e, ReadsType depth t.text e → wrapping e = t.wrapping ∧ t.coreName? = some e.core) ∧
    (∀ depth, (∃ e, ReadsType depth t.text e) ↔ t.isWellFormed = true ∧ t.wrapping.count .list < depth) ∧
    ∀ t' : TypeRef, (∀ n ∈ t'.coreName?, isName n = true) → t.isWellFormed = true → t'.isWellFormed = true →
      t'.text = t.text → t'.wrapping = t.wrapping ∧ t'.coreName? = t.coreName? := by
  have hlimit (depth : Nat) :
      (∃ e, ReadsType depth t.text e) ↔ t.isWellFormed = true ∧ t.wrapping.count .list < depth := by
    simp only [readsType_text_iff hname, exists_and_left, exists_eq_left]
  refine ⟨?_, ?_, hlimit, ?_⟩
  · simp only [hlimit, exists_and_left, and_iff_left_iff_imp]
    exact fun _ => ⟨_, Nat.lt_succ_self _⟩
  · intro depth e hread
    obtain ⟨hw, rfl, -⟩ := (readsType_text_iff hname).mp hread
    exact (expr_of_wellFormed hw).2
  · intro t' hname' hw hw' htext
    obtain ⟨-, hwrapping, hcore⟩ := expr_of_wellFormed hw
    obtain ⟨-, hwrapping', hcore'⟩ := expr_of_wellFormed hw'
    have hread : ReadsType (t.wrapping.count .list + 1) t'.text t.expr := by
      rw [htext]
      exact (readsType_text_iff hname).mpr ⟨hw, rfl, Nat.lt_succ_self _⟩
    obtain ⟨-, hexpr, -⟩ := (readsType_text_iff hname').mp hread
    rw [← hwrapping, ← hwrapping', hcore, hcore', hexpr]
    exact ⟨rfl, rfl⟩

/-- A required list of required items. -/
def TypeRef.nested (kind : RefKind) (label : Option String) : TypeRef :=
  .wrap .nonNull label (.wrap .list label (.wrap .nonNull label (.bare kind (some "A"))))

/-- The kind at the core and the names of the wrappers are not written, and a second mark makes the text no type. -/
theorem readsType_text_nested : (∀ n ∈ (TypeRef.nested .object none).coreName?, isName n = true) ∧
    (∃ depth e, ReadsType depth "[A!]!" e) ∧
    (∀ depth e, ReadsType depth "[A!]!" e → wrapping e = [.nonNull, .list, .nonNull] ∧ some "A" = some e.core) ∧
    (¬ ∃ e, ReadsType 1 "[A!]!" e) ∧
    (TypeRef.nested .scalar (some "B")).wrapping = (TypeRef.nested .object none).wrapping ∧
    ¬ ∃ depth e, ReadsType depth "[A!]!!" e := by
  have hname : ∀ n ∈ some "A", isName n = true := by
    intro n hn
    cases hn
    decide
  obtain ⟨hreads, hsame, hlimit, htwo⟩ := readsType_text (t := .nested .object none) hname
  obtain ⟨hdoubled, -⟩ := readsType_text (t := .wrap .nonNull none (.nested .object none)) hname
  have hrelabelled := htwo (.nested .scalar (some "B")) hname rfl rfl rfl
  refine ⟨hname, hreads.mpr rfl, hsame, fun h => ?_, hrelabelled.1, fun h => ?_⟩
  · exact absurd ((hlimit 1).mp h).2 (by decide)
  · cases hdoubled.mp h

end Introspection

end SchemaWeave
