import Mathlib.Data.List.Forall2
import SchemaWeave.Graphql.Printer
import SchemaWeave.Proofs.Graphql.Grammar
import SchemaWeave.Proofs.Graphql.Spelling

/-!
# The text of a document spells its tokens

The pieces of a grammatical definition are laid out well and hold the tokens of the definition
(`lays_definition`), so the text of a document of such definitions spells their tokens, one definition after the
other.

`Lays ps ts` says both of pieces at once. It is shown from the front of the pieces to their end, a piece at a
time; where pieces are put together, the ones behind must not start with a word.
-/

namespace SchemaWeave.Graphql

/-- The pieces are laid out well and hold these tokens. -/
structure Lays (ps : List Piece) (ts : List Token) : Prop where
  wellLaid : WellLaid ps
  tokens : ps.filterMap Piece.token? = ts

theorem lays_nil : Lays [] [] := ⟨trivial, rfl⟩

theorem Lays.space {ps : List Piece} {ts : List Token} (h : Lays ps ts) : Lays (.space :: ps) ts :=
  ⟨⟨trivial, by simp [Piece.isWord], h.1⟩, h.2⟩

theorem Lays.comma {ps : List Piece} {ts : List Token} (h : Lays ps ts) : Lays (.comma :: ps) ts :=
  ⟨⟨trivial, by simp [Piece.isWord], h.1⟩, h.2⟩

theorem Lays.line {ps : List Piece} {ts : List Token} (h : Lays ps ts) (indent : Nat) : Lays (.line indent :: ps) ts :=
  ⟨⟨trivial, by simp [Piece.isWord], h.1⟩, h.2⟩

/-- A mark may stand in front of anything. -/
theorem Lays.mark {ps : List Piece} {ts : List Token} (h : Lays ps ts) {p : Punctuator} (hp : p ≠ .spread) :
    Lays (mark p :: ps) (.punct p :: ts) := by
  have hv : (Token.punct p).Valid := by simpa [Token.Valid, Token.chars] using lexeme_punct p []
  refine ⟨⟨hv, fun hw => ?_, h.1⟩, congrArg (_ :: ·) h.2⟩
  cases p <;> first | exact absurd rfl hp | cases hw

/-- A valid token may stand in front of pieces that do not start with a word. -/
theorem Lays.token {ps : List Piece} {ts : List Token} (h : Lays ps ts) {t : Token} (ht : t.Valid)
    (hn : NoWordFirst ps) : Lays (.token t :: ps) (t :: ts) :=
  ⟨⟨ht, fun _ => hn, h.1⟩, congrArg (t :: ·) h.2⟩

theorem Lays.word {ps : List Piece} {ts : List Token} (h : Lays ps ts) {s : String} (hs : isName s = true)
    (hn : NoWordFirst ps) : Lays (word s :: ps) (.name s :: ts) :=
  h.token (valid_name hs) hn

theorem noWordFirst_space (ps : List Piece) : NoWordFirst (.space :: ps) := by simp [Piece.isWord]

theorem noWordFirst_comma (ps : List Piece) : NoWordFirst (.comma :: ps) := by simp [Piece.isWord]

theorem noWordFirst_line (indent : Nat) (ps : List Piece) : NoWordFirst (.line indent :: ps) := by simp [Piece.isWord]

theorem noWordFirst_mark {p : Punctuator} (hp : p ≠ .spread) (ps : List Piece) : NoWordFirst (mark p :: ps) := by
  rw [noWordFirst_cons]
  cases p <;> first | rfl | exact absurd rfl hp

theorem Lays.append {ps qs : List Piece} {ts us : List Token} (hp : Lays ps ts) (hq : Lays qs us)
    (hn : NoWordFirst qs) :
    Lays (ps ++ qs) (ts ++ us) :=
  ⟨hp.1.append hq.1 hn, by rw [List.filterMap_append, hp.2, hq.2]⟩

/-! ## Lists of pieces -/

/-- Groups of pieces with a comma and a blank between them. -/
theorem lays_joined {gs : List (List Piece)} {tss : List (List Token)} (h : List.Forall₂ Lays gs tss)
    {qs : List Piece} {us : List Token} (hq : Lays qs us) (hn : NoWordFirst qs) :
    Lays (Piece.joined [.comma, .space] gs ++ qs) (tss.flatten ++ us) := by
  induction h with
  | nil => exact hq
  | @cons g ts gs tss hg hgs ih =>
    rw [List.flatten_cons, List.append_assoc]
    cases hgs with
    | nil => exact hg.append hq hn
    | cons =>
      rw [Piece.joined, List.append_assoc, List.append_assoc]
      · exact hg.append ih.space.comma (noWordFirst_comma _)
      · simp

/-- Names with a mark between them, after a blank and what introduces them. -/
theorem lays_listed (introduction : List Piece) {t : Token} (separator : Punctuator) (hs : separator ≠ .spread)
    (hi : ∀ {ps ts}, Lays ps ts → Lays (.space :: introduction ++ .space :: ps) (t :: ts)) {names : List Name}
    (hnames : ∀ n ∈ names, isName n = true) {qs : List Piece} {us : List Token} (hq : Lays qs us)
    (hn : NoWordFirst qs) :
    Lays (nameListPieces (.space :: introduction ++ [.space]) separator names ++ qs) (listed t separator names ++ us) ∧
      NoWordFirst (nameListPieces (.space :: introduction ++ [.space]) separator names ++ qs) := by
  have hrest : ∀ (n : Name) (ns : List Name), (∀ m ∈ n :: ns, isName m = true) →
      Lays (Piece.joined [.space, mark separator, .space] ((n :: ns).map fun m => [word m]) ++ qs)
        (.name n :: (ns.flatMap fun m => [.punct separator, .name m]) ++ us) := by
    intro n ns
    induction ns generalizing n with
    | nil => exact fun h => hq.word (h n (by simp)) hn
    | cons m ns ih =>
      intro h
      have := (ih m fun k hk => h k (List.mem_cons_of_mem _ hk)).space
      exact ((this.mark hs).space).word (h n (by simp)) (noWordFirst_space _)
  cases names with
  | nil => exact ⟨hq, hn⟩
  | cons n ns =>
    rw [nameListPieces, if_neg (by simp), List.append_assoc, List.append_assoc]
    exact ⟨hi (hrest n ns hnames), noWordFirst_space _⟩

/-- Names after a keyword. -/
theorem lays_wordListed (keyword : String) (separator : Punctuator) (hk : isName keyword = true)
    (hs : separator ≠ .spread) {names : List Name} (hnames : ∀ n ∈ names, isName n = true) {qs : List Piece}
    {us : List Token} (hq : Lays qs us) (hn : NoWordFirst qs) :
    Lays (nameListPieces [.space, word keyword, .space] separator names ++ qs)
      (listed (.name keyword) separator names ++ us) ∧
      NoWordFirst (nameListPieces [.space, word keyword, .space] separator names ++ qs) := by
  refine lays_listed [word keyword] separator hs (fun h => ?_) hnames hq hn
  exact (h.space.word hk (noWordFirst_space _)).space

/-- Members in braces, each on a line of its own. -/
theorem lays_members {gs : List (List Piece)} {tss : List (List Token)} (h : List.Forall₂ Lays gs tss)
    {qs : List Piece} {us : List Token} (hq : Lays qs us) :
    Lays (memberPieces gs ++ qs) (enclosed .openBrace .closeBrace tss ++ us) := by
  have hrest : ∀ {gs tss}, List.Forall₂ Lays gs tss →
      Lays (gs.flatMap (.line indentStep :: ·) ++ .line 0 :: mark .closeBrace :: qs)
        (tss.flatten ++ .punct .closeBrace :: us) := by
    intro gs tss h
    induction h with
    | nil => exact (hq.mark (by decide)).line 0
    | @cons g ts gs tss hg _ ih =>
      rw [List.flatMap_cons, List.cons_append, List.cons_append, List.append_assoc, List.flatten_cons,
        List.append_assoc]
      refine (hg.append ih ?_).line _
      cases gs <;> exact noWordFirst_line _ _
  cases h with
  | nil => exact hq
  | @cons g ts gs tss hg hgs =>
    have := hrest (.cons hg hgs)
    rw [memberPieces, if_neg (by simp), enclosed]
    simp only [List.cons_append, List.append_assoc, List.nil_append, List.flatten_cons] at this ⊢
    exact (this.mark (by decide)).space

/-! ## Types and values -/

theorem lays_bang (required : Bool) {qs : List Piece} {us : List Token} (hq : Lays qs us) :
    Lays ((if required then [mark .bang] else []) ++ qs) (TypeExpr.bang required ++ us) := by
  cases required with
  | false => exact hq
  | true => exact hq.mark (by decide)

theorem noWordFirst_bang (required : Bool) {qs : List Piece} (hn : NoWordFirst qs) :
    NoWordFirst ((if required then [mark .bang] else []) ++ qs) := by
  cases required with
  | false => exact hn
  | true => exact noWordFirst_mark (by decide) _

theorem lays_type {qs : List Piece} {us : List Token} (hq : Lays qs us) (hn : NoWordFirst qs) {t : TypeExpr}
    (h : isName t.core = true) : Lays (t.pieces ++ qs) (t.tokens ++ us) := by
  induction t generalizing qs us with
  | named name required => exact (lays_bang required hq).word h (noWordFirst_bang required hn)
  | list item required ih =>
    have hclose := (lays_bang required hq).mark (p := .closeBracket) (by decide)
    have hitem := ih hclose (noWordFirst_mark (by decide) _) h
    simp only [TypeExpr.pieces, TypeExpr.tokens, List.cons_append, List.append_assoc]
    exact hitem.mark (by decide)

/-- The pieces of a value hold its tokens, on one line or on several. -/
def LaysValue (v : Value) : Prop :=
  ∀ (oneLine : Bool) (indent : Nat) {qs us}, Lays qs us → NoWordFirst qs →
    Lays (v.pieces oneLine indent ++ qs) (v.tokens ++ us)

section

variable {qs : List Piece} {us : List Token} (hq : Lays qs us) (hn : NoWordFirst qs)
include hq

theorem lays_itemLines (indent : Nat) {items : List Value} (h : ∀ v ∈ items, LaysValue v) :
    Lays (Value.itemLines indent items ++ qs) (Value.itemTokens items ++ us) := by
  induction items with
  | nil => simpa [Value.itemLines, Value.itemTokens] using hq
  | cons item items ih =>
    have hrest := ih fun v hv => h v (List.mem_cons_of_mem _ hv)
    simp only [Value.itemLines, Value.itemTokens, List.cons_append, List.append_assoc]
    exact (h item (by simp) false indent hrest.comma (noWordFirst_comma _)).line indent

theorem lays_fieldLines (indent : Nat) {fields : List (Name × Value)}
    (h : ∀ f ∈ fields, isName f.1 = true ∧ LaysValue f.2) :
    Lays (Value.fieldLines indent fields ++ qs) (Value.fieldTokens fields ++ us) := by
  induction fields with
  | nil => simpa [Value.fieldLines, Value.fieldTokens] using hq
  | cons field fields ih =>
    obtain ⟨name, value⟩ := field
    have hrest := ih fun f hf => h f (List.mem_cons_of_mem _ hf)
    obtain ⟨hname, hvalue⟩ := h (name, value) (by simp)
    have hv := (hvalue false indent hrest.comma (noWordFirst_comma _)).space.mark (p := .colon) (by decide)
    simp only [Value.fieldLines, Value.fieldTokens, List.cons_append, List.append_assoc]
    exact (hv.word hname (noWordFirst_mark (by decide) _)).line indent

include hn

theorem lays_sideBySide {items : List Value} (h : ∀ v ∈ items, LaysValue v) :
    Lays (Value.sideBySide items ++ qs) (Value.itemTokens items ++ us) := by
  induction items with
  | nil => simpa [Value.sideBySide, Value.itemTokens] using hq
  | cons item items ih =>
    have hrest := ih fun v hv => h v (List.mem_cons_of_mem _ hv)
    simp only [Value.sideBySide, Value.itemTokens, List.append_assoc]
    refine h item (by simp) true 0 ?_ ?_ <;> cases items
    · exact hrest
    · exact hrest.space.comma
    · exact hn
    · exact noWordFirst_comma _

theorem lays_fieldsSideBySide {fields : List (Name × Value)}
    (h : ∀ f ∈ fields, isName f.1 = true ∧ LaysValue f.2) :
    Lays (Value.fieldsSideBySide fields ++ qs) (Value.fieldTokens fields ++ us) := by
  induction fields with
  | nil => simpa [Value.fieldsSideBySide, Value.fieldTokens] using hq
  | cons field fields ih =>
    obtain ⟨name, value⟩ := field
    have hrest := ih fun f hf => h f (List.mem_cons_of_mem _ hf)
    obtain ⟨hname, hvalue⟩ := h (name, value) (by simp)
    have hv : Lays (value.pieces true 0 ++ ((if fields.isEmpty then [] else [.comma, .space]) ++
        (Value.fieldsSideBySide fields ++ qs))) (value.tokens ++ (Value.fieldTokens fields ++ us)) := by
      refine hvalue true 0 ?_ ?_ <;> cases fields
      · exact hrest
      · exact hrest.space.comma
      · exact hn
      · exact noWordFirst_comma _
    simp only [Value.fieldsSideBySide, Value.fieldTokens, List.cons_append, List.append_assoc]
    exact (hv.space.mark (by decide)).word hname (noWordFirst_mark (by decide) _)

end

theorem laysValue_of_constant {depth : Nat} {v : Value} (h : v.Constant depth) : LaysValue v := by
  induction depth generalizing v with
  | zero => exact h.elim
  | succ depth ih =>
    intro oneLine indent qs us hq hn
    match v, h with
    | .int s, h => exact hq.token h hn
    | .float s, h => exact hq.token h hn
    | .string s, _ =>
      rw [Value.pieces]
      split
      · next hb =>
        rw [Bool.and_eq_true] at hb
        exact ⟨⟨hb.2, fun _ => hn, hq.1⟩, congrArg (_ :: ·) hq.2⟩
      · exact hq.token (valid_string s) hn
    | .boolean b, _ => exact hq.word (by cases b <;> decide) hn
    | .null, _ => exact hq.word (by decide) hn
    | .enum name, h => exact hq.word h.1 hn
    | .list items, h =>
      have hi : ∀ v ∈ items, LaysValue v := fun v hv => ih (h v hv)
      have hclose : Lays (mark .closeBracket :: qs) (.punct .closeBracket :: us) := hq.mark (by decide)
      have hc := noWordFirst_mark (p := .closeBracket) (by decide) qs
      rw [Value.pieces]
      split
      · next he =>
        rw [List.isEmpty_iff.mp he, Value.tokens, Value.itemTokens]
        exact hclose.mark (by decide)
      · simp only [Value.tokens, List.cons_append, List.append_assoc, List.nil_append]
        split
        · simpa using (lays_sideBySide hclose hc hi).mark (by decide)
        · simpa using (lays_itemLines (hclose.line indent) _ hi).mark (by decide)
    | .object fields, h =>
      have hf : ∀ f ∈ fields, isName f.1 = true ∧ LaysValue f.2 := by
        intro f hf
        exact ⟨(h f hf).1, ih (h f hf).2⟩
      have hclose : Lays (mark .closeBrace :: qs) (.punct .closeBrace :: us) := hq.mark (by decide)
      have hc := noWordFirst_mark (p := .closeBrace) (by decide) qs
      rw [Value.pieces]
      split
      · next he =>
        rw [List.isEmpty_iff.mp he, Value.tokens, Value.fieldTokens]
        exact hclose.mark (by decide)
      · simp only [Value.tokens, List.cons_append, List.append_assoc, List.nil_append]
        split
        · simpa using (lays_fieldsSideBySide hclose hc hf).mark (by decide)
        · simpa using (lays_fieldLines (hclose.line indent) _ hf).mark (by decide)

/-! ## Directives and members -/

theorem Value.Grammatical.lays {v : Value} (h : v.Grammatical) : LaysValue v := laysValue_of_constant h

section

variable {qs : List Piece} {us : List Token} (hq : Lays qs us)

include hq in
theorem lays_description (indent : Nat) (d : Option String) :
    Lays (descriptionPieces indent d ++ qs) (descriptionTokens d ++ us) := by
  cases d with
  | none => exact hq
  | some d =>
    rw [descriptionPieces]
    have hl := hq.line indent
    split
    · next hb => exact ⟨⟨hb, fun _ => noWordFirst_line _ _, hl.1⟩, congrArg (_ :: ·) hl.2⟩
    · exact hl.token (valid_string d) (noWordFirst_line _ _)

variable (hn : NoWordFirst qs)
include hq hn

theorem lays_arguments {arguments : List (Name × Value)} (h : ArgumentsGrammatical arguments) :
    Lays (argumentPieces arguments ++ qs) (argumentTokens arguments ++ us) ∧
      NoWordFirst (argumentPieces arguments ++ qs) := by
  cases arguments with
  | nil => exact ⟨hq, hn⟩
  | cons a as =>
    have hf := lays_fieldsSideBySide (hq.mark (p := .closeParen) (by decide)) (noWordFirst_mark (by decide) _)
      fun f hf => ⟨(h f hf).1, (h f hf).2.lays⟩
    rw [Value.fieldTokens_eq] at hf
    simp only [argumentPieces, List.isEmpty_cons, Bool.false_eq_true, if_false, argumentTokens, List.map_cons, enclosed,
      List.flatten_cons, List.cons_append, List.append_assoc, List.nil_append] at hf ⊢
    exact ⟨hf.mark (by decide), noWordFirst_mark (by decide) _⟩

theorem lays_directives {ds : List Directive} (h : ∀ d ∈ ds, d.Grammatical) :
    Lays (directivePieces ds ++ qs) (directiveTokens ds ++ us) ∧ NoWordFirst (directivePieces ds ++ qs) := by
  induction ds with
  | nil => exact ⟨hq, hn⟩
  | cons d ds ih =>
    obtain ⟨hrest, hrn⟩ := ih fun d hd => h d (List.mem_cons_of_mem _ hd)
    obtain ⟨hname, hargs⟩ := h d (by simp)
    obtain ⟨ha, han⟩ := lays_arguments hrest hrn hargs
    simp only [directivePieces, directiveTokens, List.flatMap_cons, Directive.pieces, Directive.tokens,
      List.cons_append, List.append_assoc] at ha ⊢
    exact ⟨((ha.word hname han).mark (by decide)).space, noWordFirst_space _⟩

theorem lays_default {default : Option Value} (h : ∀ v ∈ default, v.Grammatical) (oneLine : Bool) (indent : Nat) :
    Lays (defaultPieces oneLine indent default ++ qs) (defaultTokens default ++ us) ∧
      NoWordFirst (defaultPieces oneLine indent default ++ qs) := by
  cases default with
  | none => exact ⟨hq, hn⟩
  | some v => exact ⟨(((h v rfl).lays oneLine indent hq hn).space.mark (by decide)).space, noWordFirst_space _⟩

theorem lays_inputDef {d : InputDef} (h : d.Grammatical) (oneLine : Bool) (indent : Nat) :
    Lays (d.pieces oneLine indent ++ qs) (d.tokens ++ us) := by
  obtain ⟨hds, hdn⟩ := lays_directives hq hn h.directives
  obtain ⟨hv, hvn⟩ := lays_default hds hdn h.default oneLine indent
  have ht := lays_type hv hvn h.type.1
  have hname := (ht.space.mark (p := .colon) (by decide)).word h.name (noWordFirst_mark (by decide) _)
  have := lays_description hname indent d.description
  simpa only [InputDef.pieces, InputDef.tokens, List.cons_append, List.append_assoc] using this

theorem lays_argumentDefs {arguments : List InputDef} (h : ∀ a ∈ arguments, a.Grammatical) (indent : Nat) :
    Lays (argumentDefPieces indent arguments ++ qs) (argumentDefTokens arguments ++ us) ∧
      NoWordFirst (argumentDefPieces indent arguments ++ qs) := by
  have hclose := hq.mark (p := .closeParen) (by decide)
  have hflat : ∀ (as : List InputDef), argumentDefTokens as = if as.isEmpty then [] else
      .punct .openParen :: ((as.map InputDef.tokens).flatten ++ [.punct .closeParen]) := by
    intro as
    cases as <;> simp [argumentDefTokens, enclosed]
  rw [hflat, argumentDefPieces]
  split
  · exact ⟨hq, hn⟩
  split
  · have hlines : ∀ (as : List InputDef), (∀ a ∈ as, a.Grammatical) →
        Lays (as.flatMap (fun a =>
            .line (indent + indentStep) :: a.pieces false (indent + indentStep) ++ [Piece.comma]) ++
          .line indent :: mark .closeParen :: qs) ((as.map InputDef.tokens).flatten ++ .punct .closeParen :: us) := by
      intro as
      induction as with
      | nil => exact fun _ => hclose.line _
      | cons a as ih =>
        intro h
        have hrest := ih fun a ha => h a (List.mem_cons_of_mem _ ha)
        have ha := lays_inputDef hrest.comma (noWordFirst_comma _) (h a (by simp)) false (indent + indentStep)
        simpa using ha.line (indent + indentStep)
    refine ⟨?_, noWordFirst_mark (by decide) _⟩
    simpa using (hlines arguments h).mark (by decide)
  · have hgroups : List.Forall₂ Lays (arguments.map (·.pieces true indent)) (arguments.map InputDef.tokens) := by
      rw [List.forall₂_map_left_iff, List.forall₂_map_right_iff, List.forall₂_same]
      exact fun a ha => by simpa using lays_inputDef lays_nil noWordFirst_nil (h a ha) true indent
    refine ⟨?_, noWordFirst_mark (by decide) _⟩
    simpa using (lays_joined hgroups hclose (noWordFirst_mark (by decide) _)).mark (by decide)

theorem lays_fieldDef {f : FieldDef} (h : f.Grammatical) (indent : Nat) :
    Lays (f.pieces indent ++ qs) (f.tokens ++ us) := by
  obtain ⟨hds, hdn⟩ := lays_directives hq hn h.directives
  have ht := (lays_type hds hdn h.type.1).space.mark (p := .colon) (by decide)
  obtain ⟨ha, han⟩ := lays_argumentDefs ht (noWordFirst_mark (by decide) _) h.arguments indent
  have := lays_description (ha.word h.name han) indent f.description
  simpa only [FieldDef.pieces, FieldDef.tokens, List.cons_append, List.append_assoc] using this

theorem lays_enumValueDef {v : EnumValueDef} (h : v.Grammatical) (indent : Nat) :
    Lays (v.pieces indent ++ qs) (v.tokens ++ us) := by
  obtain ⟨hds, hdn⟩ := lays_directives hq hn h.directives
  have := lays_description (hds.word h.name hdn) indent v.description
  simpa only [EnumValueDef.pieces, EnumValueDef.tokens, List.cons_append, List.append_assoc] using this

end

/-! ## Definitions -/

/-- Members that each hold their tokens. -/
theorem forall₂_lays {α : Type} {pieces : α → List Piece} {tokens : α → List Token} {xs : List α}
    (h : ∀ x ∈ xs, Lays (pieces x ++ []) (tokens x ++ [])) : List.Forall₂ Lays (xs.map pieces) (xs.map tokens) := by
  rw [List.forall₂_map_left_iff, List.forall₂_map_right_iff, List.forall₂_same]
  simpa using h

theorem noWordFirst_members (gs : List (List Piece)) : NoWordFirst (memberPieces gs) := by
  cases gs with
  | nil => exact noWordFirst_nil
  | cons => exact noWordFirst_space _

theorem lays_fields {fields : List FieldDef} (h : ∀ f ∈ fields, f.Grammatical) :
    Lays (memberPieces (fields.map (·.pieces indentStep)))
      (enclosed .openBrace .closeBrace (fields.map FieldDef.tokens)) := by
  have hlays := forall₂_lays fun f hf => lays_fieldDef lays_nil noWordFirst_nil (h f hf) indentStep
  simpa using lays_members hlays lays_nil

theorem lays_typeBody {name : Name} (hname : isName name = true) {ds : List Directive} (hds : ∀ d ∈ ds, d.Grammatical) :
    ∀ {body : TypeBody}, body.Grammatical → Lays (body.pieces name ds) (.name name :: body.tokens ds)
  | .scalar, _ => by
    obtain ⟨hd, hdn⟩ := lays_directives lays_nil noWordFirst_nil hds
    simpa [TypeBody.pieces, TypeBody.tokens] using hd.word hname hdn
  | .object is fs, h | .interface is fs, h => by
    obtain ⟨hd, hdn⟩ := lays_directives (lays_fields h.2) (noWordFirst_members _) hds
    obtain ⟨hi, hin⟩ := lays_wordListed "implements" .amp (by decide) (by decide) h.1 hd hdn
    simpa [TypeBody.pieces, TypeBody.tokens] using hi.word hname hin
  | .union ms, h => by
    obtain ⟨hm, hmn⟩ := lays_listed [mark .equals] .pipe (by decide)
      (fun h => (h.space.mark (p := .equals) (by decide)).space) h lays_nil noWordFirst_nil
    obtain ⟨hd, hdn⟩ := lays_directives hm hmn hds
    simpa [TypeBody.pieces, TypeBody.tokens] using hd.word hname hdn
  | .enum vs, h => by
    have hm := lays_members
      (forall₂_lays fun v hv => lays_enumValueDef lays_nil noWordFirst_nil (h v hv) indentStep) lays_nil
    obtain ⟨hd, hdn⟩ := lays_directives hm (by simpa using noWordFirst_members _) hds
    simpa [TypeBody.pieces, TypeBody.tokens] using hd.word hname hdn
  | .inputObject fs, h => by
    have hm := lays_members
      (forall₂_lays fun f hf => lays_inputDef lays_nil noWordFirst_nil (h f hf) false indentStep) lays_nil
    obtain ⟨hd, hdn⟩ := lays_directives hm (by simpa using noWordFirst_members _) hds
    simpa [TypeBody.pieces, TypeBody.tokens] using hd.word hname hdn

theorem isName_keyword (kind : TypeKind) : isName kind.keyword = true := by cases kind <;> decide

theorem isName_operationKind (kind : OperationKind) : isName kind.name = true := by cases kind <;> decide

theorem isName_location (l : DirectiveLocation) : isName l.name = true := by cases l <;> decide

theorem lays_roots {roots : List (OperationKind × Name)} (h : ∀ r ∈ roots, isName r.2 = true) :
    List.Forall₂ Lays (rootPieces roots) (roots.map rootTokens) := by
  refine forall₂_lays fun r hr => ?_
  have ht := (lays_nil.word (h r hr) noWordFirst_nil).space.mark (p := .colon) (by decide)
  exact ht.word (isName_operationKind r.1) (noWordFirst_mark (by decide) _)

/-- The root operation types of a schema definition. The braces are printed also around none. -/
theorem lays_rootList {roots : List (OperationKind × Name)} (h : ∀ r ∈ roots, isName r.2 = true) :
    Lays (if roots.isEmpty then [.space, mark .openBrace, mark .closeBrace] else memberPieces (rootPieces roots))
        (.punct .openBrace :: ((roots.map rootTokens).flatten ++ [.punct .closeBrace])) ∧
      NoWordFirst (if roots.isEmpty then [.space, mark .openBrace, mark .closeBrace]
        else memberPieces (rootPieces roots)) := by
  cases roots with
  | nil =>
    constructor
    · exact ((lays_nil.mark (by decide)).mark (by decide)).space
    · exact noWordFirst_space _
  | cons r rs =>
    constructor
    · simpa [enclosed] using lays_members (lays_roots h) lays_nil
    · exact noWordFirst_members (rootPieces (r :: rs))

/-- What stands behind the arguments of a directive definition. -/
theorem lays_locations (repeatable : Bool) (locations : List DirectiveLocation) :
    Lays ((if repeatable then [.space, word "repeatable"] else []) ++
        nameListPieces [.space, word "on", .space] .pipe (locations.map DirectiveLocation.name))
        ((if repeatable then [.name "repeatable"] else []) ++
          listed (.name "on") .pipe (locations.map DirectiveLocation.name)) ∧
      NoWordFirst ((if repeatable then [.space, word "repeatable"] else []) ++
        nameListPieces [.space, word "on", .space] .pipe (locations.map DirectiveLocation.name)) := by
  have hnames : ∀ n ∈ locations.map DirectiveLocation.name, isName n = true :=
    List.forall_mem_map.mpr fun l _ => isName_location l
  obtain ⟨hl, hn⟩ := lays_wordListed "on" .pipe (by decide) (by decide) hnames lays_nil noWordFirst_nil
  rw [List.append_nil] at hl hn
  rw [List.append_nil] at hl
  cases repeatable with
  | false => exact ⟨hl, hn⟩
  | true => exact ⟨(hl.word (by decide) hn).space, noWordFirst_space _⟩

/-- **The pieces of a grammatical definition are laid out well and hold its tokens.** -/
theorem lays_definition {d : Definition} (h : d.Grammatical) : Lays d.pieces d.tokens := by
  match d, h with
  | .schema d, h =>
    obtain ⟨hroots, hn⟩ := lays_rootList h.2
    obtain ⟨hd, hdn⟩ := lays_directives hroots hn h.1
    have := lays_description (hd.word (s := "schema") (by decide) hdn) 0 d.description
    simpa only [Definition.pieces, Definition.tokens, List.cons_append, List.append_assoc] using this
  | .directive d, h =>
    obtain ⟨hl, hn⟩ := lays_locations d.repeatable d.locations
    obtain ⟨ha, han⟩ := lays_argumentDefs hl hn h.arguments 0
    have hname := ((ha.word h.name han).mark (p := .atSign) (by decide)).space
    have := lays_description (hname.word (s := "directive") (by decide) (noWordFirst_space _)) 0 d.description
    simpa [Definition.pieces, Definition.tokens] using this
  | .type d, h =>
    have := ((lays_typeBody h.name h.directives h.body).space).word (isName_keyword d.body.kind) (noWordFirst_space _)
    exact lays_description this 0 d.description
  | .schemaExtension e, h =>
    have hm := lays_members (lays_roots h.2) lays_nil
    obtain ⟨hd, hdn⟩ := lays_directives hm (by simpa using noWordFirst_members _) h.1
    have := (hd.word (s := "schema") (by decide) hdn).space.word (s := "extend") (by decide) (noWordFirst_space _)
    simpa [Definition.pieces, Definition.tokens] using this
  | .typeExtension e, h =>
    have := ((lays_typeBody h.name h.directives h.body).space).word (isName_keyword e.body.kind) (noWordFirst_space _)
    exact this.space.word (by decide) (noWordFirst_space _)

/-! ## Documents -/

/-- The text adds tokens of the definition to those of any text behind it that starts with a delimiter. -/
def SpellsDefinition (cs : List Char) (d : Definition) : Prop :=
  ∀ comma rest, Delimited rest → ∃ placed comma', d.Spelled placed ∧
    tokensFrom comma (cs ++ rest) = (tokensFrom comma' rest).map (placed ++ ·)

/-- The text adds tokens of the definitions, one after the other, to those of any text behind it that starts with a
delimiter. -/
def SpellsDocument (cs : List Char) (doc : Document) : Prop :=
  ∀ comma rest, Delimited rest → ∃ placed comma', List.Forall₂ Definition.Spelled doc placed ∧
    tokensFrom comma (cs ++ rest) = (tokensFrom comma' rest).map (placed.flatten ++ ·)

theorem spellsDocument_nil : SpellsDocument [] [] := fun comma _ _ => ⟨[], comma, .nil, by simp⟩

theorem SpellsDocument.cons {cs more : List Char} {d : Definition} {doc : Document} (h : SpellsDefinition cs d)
    (hmore : SpellsDocument more doc) (hd : Delimited more) : SpellsDocument (cs ++ more) (d :: doc) :=
  fun comma rest hr => by
    obtain ⟨placed, k, hp, he⟩ := h comma (more ++ rest) (hd.append hr)
    obtain ⟨placed', k', hp', he'⟩ := hmore k rest hr
    refine ⟨placed :: placed', k', .cons hp hp', ?_⟩
    rw [List.append_assoc, he, he', Option.map_map]
    congr 1
    funext
    simp

/-- What separates tokens may be put in front. -/
theorem SpellsDocument.ignored {cs : List Char} {doc : Document} (h : SpellsDocument cs doc) {c : Char}
    (hc : isIgnored c = true) : SpellsDocument (c :: cs) doc := fun comma rest hr => by
  obtain ⟨placed, k, hp, he⟩ := h (comma || c == ',') rest hr
  exact ⟨placed, k, hp, by rw [List.cons_append, tokensFrom_ignored hc, he]⟩

/-- The tokens of a text that spells a document. -/
theorem SpellsDocument.tokenize {cs : List Char} {doc : Document} (h : SpellsDocument cs doc) :
    ∃ placed, List.Forall₂ Definition.Spelled doc placed ∧ Graphql.tokenize cs = some placed.flatten := by
  obtain ⟨placed, k, hp, he⟩ := h false [] (stops_nil _)
  have hn : Graphql.tokenize [] = some [] := tokenize_nil rfl
  refine ⟨placed, hp, ?_⟩
  rw [List.append_nil, tokensFrom_false, tokensFrom, hn] at he
  simpa [afterComma] using he

/-- A text that spells the tokens of a definition in which none belong together. -/
theorem SpellsDefinition.of_spells {cs : List Char} {d : Definition} (h : Spells cs d.tokens) (hl : d.isLed = false) :
    SpellsDefinition cs d := fun comma rest hr => by
  obtain ⟨placed, k, hp, he⟩ := h comma rest hr
  exact ⟨placed, k, ⟨hp, by simp [hl]⟩, he⟩

/-- A definition that starts with its description, or with the keyword of an extension. -/
theorem pieces_of_isLed {d : Definition} (h : d.isLed = true) : ∃ p blank q ps t u,
    d.pieces = p :: blank :: q :: ps ∧ (blank = .space ∨ ∃ indent, blank = .line indent) ∧
      p.token? = some t ∧ q.token? = some u := by
  have hdescribed (description : Option String) (hd : description.isSome = true) : ∃ p t, p.token? = some t ∧
      ∀ ps, descriptionPieces 0 description ++ ps = p :: .line 0 :: ps := by
    obtain ⟨s, rfl⟩ := Option.isSome_iff_exists.mp hd
    rw [descriptionPieces]
    split
    · exact ⟨_, _, rfl, fun _ => rfl⟩
    · exact ⟨_, _, rfl, fun _ => rfl⟩
  match d, h with
  | .schema d, h | .directive d, h | .type d, h =>
    obtain ⟨p, t, ht, hp⟩ := hdescribed d.description h
    simp only [Definition.pieces, List.append_assoc, hp]
    exact ⟨p, .line 0, _, _, t, _, rfl, Or.inr ⟨0, rfl⟩, ht, rfl⟩
  | .schemaExtension e, _ | .typeExtension e, _ => exact ⟨_, _, _, _, _, _, rfl, Or.inl rfl, rfl, rfl⟩

theorem spells_definition {d : Definition} (h : d.Grammatical) : SpellsDefinition (d.pieces.flatMap Piece.chars) d := by
  obtain ⟨hw, ht⟩ := lays_definition h
  cases hl : d.isLed with
  | false => exact .of_spells (ht ▸ spells_pieces hw) hl
  | true =>
    obtain ⟨p, blank, q, ps, t, u, he, hb, hp, hq⟩ := pieces_of_isLed hl
    intro comma rest hr
    rw [he] at hw ht ⊢
    obtain ⟨placed, k, hm, hj, hr⟩ := spells_joined hb hw hp hq comma hr
    exact ⟨placed, k, ⟨hm.trans ht, fun _ => hj⟩, hr⟩

/-- **The text of a document of grammatical definitions spells it.** -/
theorem spells_document : ∀ {doc : Document}, (∀ d ∈ doc, d.Grammatical) → SpellsDocument doc.text.toList doc
  | [], _ => spellsDocument_nil
  | [d], h => by
    have hline : SpellsDocument ['\n'] [] := spellsDocument_nil.ignored rfl
    have := SpellsDocument.cons (spells_definition (h d (by simp))) hline (stops_cons.mpr (by decide))
    simpa [Document.text, Piece.text, Document.pieces, Piece.joined, Piece.chars] using this
  | d :: e :: doc, h => by
    have ih := spells_document fun d hd => h d (List.mem_cons_of_mem _ hd)
    have hlines : SpellsDocument ('\n' :: '\n' :: (Document.text (e :: doc)).toList) (e :: doc) :=
      (ih.ignored rfl).ignored rfl
    have := SpellsDocument.cons (spells_definition (h d (by simp))) hlines (stops_cons.mpr (by decide))
    simpa [Document.text, Piece.text, Document.pieces, Piece.joined, Piece.chars] using this

end SchemaWeave.Graphql
