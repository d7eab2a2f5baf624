import SchemaWeave.Proofs.Introspection.Description
import SchemaWeave.Proofs.Schema.Rebuild

/-!
# Descriptions that are printed and read

A printed description is read as a description, with the same value at every nesting level and in front of every text. It
is the description itself unless that is written as a block string and has a blank line at an end or an indentation that
all its lines share (`description_reads`). Directives, types, fields, input fields and enum values are printed with their
descriptions, arguments without (`descriptions_of_sdl`).
-/

namespace SchemaWeave

namespace Graphql

/-! ## The closing margin -/

/-- A blank line at the end is trimmed. -/
theorem trimBlankLines_concat (lines : List (List Char)) {last : List Char} (h : isBlankLine last = true) :
    trimBlankLines (lines ++ [last]) = trimBlankLines lines := by
  rw [trimBlankLines, trimBlankLines, List.dropWhile_append]
  split
  · next hnil =>
    rw [List.isEmpty_iff.mp hnil, List.dropWhile_cons_of_pos h]
    rfl
  · rw [List.reverse_append, List.reverse_singleton, List.singleton_append, List.dropWhile_cons_of_pos h]

/-- Where the closing delimiter of a block string stands on its line does not matter. -/
theorem blockValue_margin {cs last : List Char} (hcs : '\r' ∉ cs) (hl : IsLine last) (hb : isBlankLine last = true) :
    blockValue ('\n' :: cs ++ '\n' :: last) = blockValue ('\n' :: cs) := by
  have hcommon : commonIndent (splitLines cs ++ [last]) = commonIndent (splitLines cs) := by
    apply commonIndent_congr
    intro l hn
    rw [List.mem_append, List.mem_singleton, or_iff_left]
    rintro rfl
    rw [hb] at hn
    cases hn
  simp only [blockValue, splitLines_between hcs hl, splitLines_newline, hcommon]
  cases commonIndent (splitLines cs) with
  | none =>
    dsimp only
    rw [← List.cons_append, trimBlankLines_concat _ hb]
  | some n =>
    have hdrop : isBlankLine (last.drop n) = true :=
      List.all_eq_true.mpr fun c hc => List.all_eq_true.mp hb c (List.mem_of_mem_drop hc)
    dsimp only
    rw [List.map_append, List.map_singleton, ← List.cons_append, trimBlankLines_concat _ hdrop]

/-! ## Texts that start with a description -/

theorem tokenize_blanks (n : Nat) (cs : List Char) : tokenize (List.replicate n ' ' ++ cs) = tokenize cs := by
  induction n with
  | zero => rfl
  | succ n ih => rw [List.replicate_succ, List.cons_append, tokenize_ignored rfl rfl, ih]

/-- The description at the front of a text, and the tokens that are left. -/
def leadingDescription (cs : List Char) : Option (Option String × List PlacedToken) :=
  (tokenize cs).bind fun ts => (Parser.description ts).toOption

end Graphql

namespace Introspection

open Graphql

/-! ## One description -/

theorem readDescription_level (level : Nat) (d : String) : readDescription level d = readDescription 0 d := by
  rw [readDescription, readDescription]
  split
  · next h =>
    have hr := not_mem_of_isBlockDescription h
    have hmargin (n : Nat) : blockValue ('\n' :: d.toList ++ '\n' :: margin n) = blockValue ('\n' :: d.toList) :=
      blockValue_margin hr (isLine_blanks (2 * n)) (isBlankLine_blanks (2 * n))
    rw [hmargin, hmargin]
  · rfl

/-- A description is kept exactly if it is written in quotes or can be held by a block string. -/
theorem readDescription_eq_iff (d : String) :
    readDescription 0 d = d ↔ (isBlockDescription d.toList = true → isBlockable d.toList = true) := by
  rw [readDescription]
  split
  swap
  · next hquoted => exact iff_of_true rfl fun hblock => absurd hblock hquoted
  next hblock =>
    have hr := not_mem_of_isBlockDescription hblock
    have hline : IsLine (margin 0) := isLine_blanks 0
    have hblank : isBlankLine (margin 0) = true := isBlankLine_blanks 0
    rw [imp_iff_right hblock]
    constructor
    · intro hd
      have hvalue : blockValue ('\n' :: d.toList) = d.toList := by
        rw [← blockValue_margin hr hline hblank, ← String.toList_ofList (l := blockValue _), hd]
      rcases isBlockable_blockValue hr with hnil | hblockable
      · rw [hvalue] at hnil
        rw [hnil] at hblock
        cases hblock
      · rwa [hvalue] at hblockable
    · intro hblockable
      rw [blockValue_between hblockable hline hblank, String.ofList_toList]

/-- The token of a description stands alone in front of the tokens behind it. -/
theorem tokenize_descriptionText (level : Nat) (d : String) (rest : List Char) :
    tokenize (descriptionText level (some d) ++ rest) =
      (tokenize rest).map (⟨.string (readDescription level d), false⟩ :: ·) := by
  have hliteral := tokenize_of_lexeme (lexeme_description level d rest)
  rw [tokenize_ignored rfl rfl] at hliteral
  rw [descriptionText_some]
  simpa [tokenize_blanks, margin] using hliteral

theorem leadingDescription_text (level : Nat) (d : String) (rest : List Char) :
    leadingDescription (descriptionText level (some d) ++ rest) =
      (tokenize rest).map fun ts => (some (readDescription level d), ts) := by
  have hread (ts : List PlacedToken) : Parser.description (⟨.string (readDescription level d), false⟩ :: ts) =
      .ok (some (readDescription level d), ts) := rfl
  rw [leadingDescription, tokenize_descriptionText, Option.bind_map, Option.map_eq_bind]
  simp only [Function.comp_def, hread, Except.toOption]

/-- **A printed description is read as a description**, with the same value at every nesting level and in front of every
text. The value is the description that was printed exactly if that is written in quotes or has neither a blank line at
an end nor an indentation that all its lines share. -/
theorem description_reads (d : String) :
    (∀ level rest, leadingDescription (descriptionText level (some d) ++ rest) =
      (tokenize rest).map fun ts => (some (readDescription 0 d), ts)) ∧
    (readDescription 0 d = d ↔ (isBlockDescription d.toList = true → isBlockable d.toList = true)) := by
  refine ⟨fun level rest => ?_, readDescription_eq_iff d⟩
  rw [leadingDescription_text, readDescription_level]

/-- Lines that are all indented lose their indentation, and a blank line in front is lost. -/
theorem description_reads_trimmed :
    leadingDescription (descriptionText 0 (some "  a\n  b")) = some (some "a\nb", []) ∧
    leadingDescription (descriptionText 1 (some "\na")) = some (some "a", []) := by
  have hread (level : Nat) (d : String) :
      leadingDescription (descriptionText level (some d)) = some (some (readDescription level d), []) := by
    have hnil : tokenize [] = some [] := tokenize_nil rfl
    simpa [hnil] using leadingDescription_text level d []
  rw [hread, hread]
  decide

/-! ## All descriptions of a result -/

/-- What is read has the name of what was printed, and a description exactly if that has one. -/
def SameLabel (name : String) (description : Option String) (name' : Name) (description' : Option String) : Prop :=
  name' = name ∧ description'.isSome = description.isSome

/-- What is read has the name of the argument, and no description. -/
def InputValue.ReadBare (v : InputValue) (a : InputDef) : Prop := a.name = v.name ∧ a.description = none

structure Field.ReadAs (f : Field) (d : FieldDef) : Prop where
  label : SameLabel f.name f.description d.name d.description
  args : List.Forall₂ InputValue.ReadBare f.args d.arguments

def InputValue.ReadAs (v : InputValue) (d : InputDef) : Prop := SameLabel v.name v.description d.name d.description

def EnumValue.ReadAs (v : EnumValue) (d : EnumValueDef) : Prop := SameLabel v.name v.description d.name d.description

/-- The members of a type are read one by one. -/
inductive TypeContent.ReadAs : TypeContent → TypeBody → Prop
  | scalar : ReadAs .scalar .scalar
  | object {fields interfaces interfaces' defs} : List.Forall₂ Field.ReadAs fields defs →
    ReadAs (.object fields interfaces) (.object interfaces' defs)
  | interface {fields interfaces possibleTypes interfaces' defs} : List.Forall₂ Field.ReadAs fields defs →
    ReadAs (.interface fields interfaces possibleTypes) (.interface interfaces' defs)
  | union {possibleTypes members} : ReadAs (.union possibleTypes) (.union members)
  | enum {values defs} : List.Forall₂ EnumValue.ReadAs values defs → ReadAs (.enum values) (.enum defs)
  | inputObject {fields defs} : List.Forall₂ InputValue.ReadAs fields defs →
    ReadAs (.inputObject fields) (.inputObject defs)

structure TypeInfo.ReadAs (t : TypeInfo) (d : TypeDef) : Prop where
  label : SameLabel t.name t.description d.name d.description
  content : t.content.ReadAs d.body

structure DirectiveInfo.ReadAs (i : DirectiveInfo) (d : DirectiveDef) : Prop where
  label : SameLabel i.name i.description d.name d.description
  args : List.Forall₂ InputValue.ReadBare i.args d.arguments

theorem sameLabel_map (name : String) (level : Nat) (description : Option String) :
    SameLabel name description name (description.map (readDescription level)) :=
  ⟨rfl, Option.isSome_map⟩

/-- Members that are read one by one. -/
theorem forall₂_map_of {α β : Type} {R : α → β → Prop} {f : α → β} (h : ∀ x, R x (f x)) (xs : List α) :
    List.Forall₂ R xs (xs.map f) := by
  rw [List.forall₂_map_right_iff, List.forall₂_same]
  exact fun x _ => h x

theorem readBare_arguments (args : List InputValue) :
    List.Forall₂ InputValue.ReadBare args (args.map InputValue.argument) :=
  forall₂_map_of (fun _ => ⟨rfl, rfl⟩) args

theorem Field.readAs_fieldDef (f : Field) : f.ReadAs f.fieldDef :=
  ⟨sameLabel_map f.name 1 f.description, readBare_arguments f.args⟩

theorem InputValue.readAs_inputField (v : InputValue) : v.ReadAs v.inputField := sameLabel_map v.name 1 v.description

theorem EnumValue.readAs_enumValueDef (v : EnumValue) : v.ReadAs v.enumValueDef := sameLabel_map v.name 1 v.description

theorem TypeContent.readAs_body : ∀ c : TypeContent, c.ReadAs c.body
  | .scalar => .scalar
  | .object fields _ => .object (forall₂_map_of Field.readAs_fieldDef fields)
  | .interface fields _ _ => .interface (forall₂_map_of Field.readAs_fieldDef fields)
  | .union _ => .union
  | .enum values => .enum (forall₂_map_of EnumValue.readAs_enumValueDef values)
  | .inputObject fields => .inputObject (forall₂_map_of InputValue.readAs_inputField fields)

theorem TypeInfo.readAs_typeDef (t : TypeInfo) : t.ReadAs t.typeDef :=
  ⟨sameLabel_map t.name 0 t.description, t.content.readAs_body⟩

theorem DirectiveInfo.readAs_directiveDef (d : DirectiveInfo) : d.ReadAs d.directiveDef :=
  ⟨sameLabel_map d.name 0 d.description, readBare_arguments d.args⟩

/-- **Which descriptions are printed.** The directives and types of a printed result are read one by one, with the
members of each: a directive, type, field, input field or enum value has a description exactly if it has one in the
result, an argument of a field or of a directive never has one. -/
theorem descriptions_of_sdl {s : SchemaInfo} (h : s.Conforms) : ∃ doc, Document.parse s.sdl = .ok doc ∧
    List.Forall₂ DirectiveInfo.ReadAs s.ownDirectives (Schema.directiveDefs doc) ∧
    List.Forall₂ TypeInfo.ReadAs s.ownTypes (Schema.typeDefs doc) := by
  refine ⟨s.document, by rw [Document.parse, read_sdl h], ?_, ?_⟩
  · rw [directiveDefs_document]
    exact forall₂_map_of DirectiveInfo.readAs_directiveDef _
  · rw [typeDefs_document]
    exact forall₂_map_of TypeInfo.readAs_typeDef _

/-- A query type and a directive, with a description at every place that may have one. -/
def SchemaInfo.documented : SchemaInfo where
  queryType := some "Query"
  mutationType := none
  subscriptionType := none
  types := [
    ⟨"Query", some "the root", .object
      [⟨"hero", some "one hero", [⟨"id", some "which one", .bare .scalar (some "ID"), none⟩],
        .bare .scalar (some "String"), false, none⟩] []⟩,
    ⟨"Color", some "all colors", .enum [⟨"RED", some "as blood", false, none⟩]⟩,
    ⟨"Filter", some "what to show", .inputObject [⟨"id", some "only this", .bare .scalar (some "ID"), none⟩]⟩]
  directives := [⟨"cached", some "may be old", ["FIELD"], [⟨"ttl", some "seconds", .bare .scalar (some "Int"), none⟩]⟩]

theorem conforms_documented : SchemaInfo.documented.Conforms := by
  have hvalue (name : String) (description : Option String) (type : String) (hn : isName name = true)
      (ht : isName type = true) : InputValue.Conforms ⟨name, description, .bare .scalar (some type), none⟩ :=
    ⟨hn, ⟨rfl, ht, Nat.zero_le _⟩, by simp⟩
  have hfield : Field.Conforms ⟨"hero", some "one hero", [⟨"id", some "which one", .bare .scalar (some "ID"), none⟩],
      .bare .scalar (some "String"), false, none⟩ :=
    ⟨by decide, by simpa using hvalue "id" _ "ID" (by decide) (by decide), ⟨rfl, by decide, Nat.zero_le _⟩⟩
  have hred : EnumValue.Conforms ⟨"RED", some "as blood", false, none⟩ := ⟨by decide, by decide⟩
  refine ⟨by decide, ?_, ?_, List.cons_ne_nil _ _⟩
  · simp only [SchemaInfo.documented, List.forall_mem_cons]
    refine ⟨⟨by decide, ?_, by simp⟩, ⟨by decide, by simp, ?_⟩, ⟨by decide, by simp, ?_⟩, by simp⟩
    · simpa using hfield
    · simpa using hred
    · simpa using hvalue "id" _ "ID" (by decide) (by decide)
  · simp only [SchemaInfo.documented, List.forall_mem_singleton]
    exact ⟨by decide, by simpa using hvalue "ttl" _ "Int" (by decide) (by decide), by simp, by simp; decide⟩

theorem descriptions_of_sdl_documented : SchemaInfo.documented.Conforms ∧
    ∃ doc, Document.parse SchemaInfo.documented.sdl = .ok doc ∧
      List.Forall₂ DirectiveInfo.ReadAs SchemaInfo.documented.ownDirectives (Schema.directiveDefs doc) ∧
      List.Forall₂ TypeInfo.ReadAs SchemaInfo.documented.ownTypes (Schema.typeDefs doc) :=
  ⟨conforms_documented, descriptions_of_sdl conforms_documented⟩

/-- The arguments of its field and of its directive are documented in the result and not in its text. -/
theorem descriptions_of_sdl_arguments : SchemaInfo.documented.Conforms ∧
    (SchemaInfo.documented.directives.map fun d => d.args.map (·.description)) = [[some "seconds"]] ∧
    (∃ t ∈ SchemaInfo.documented.types, ∃ f, t.name = "Query" ∧ t.content = .object [f] [] ∧
      f.args.map (·.description) = [some "which one"]) ∧
    ∃ doc, Document.parse SchemaInfo.documented.sdl = .ok doc ∧
      ((Schema.directiveDefs doc).map fun d => d.arguments.map (·.description)) = [[none]] ∧
      ∃ t ∈ Schema.typeDefs doc, ∃ f, t.name = "Query" ∧ t.body = .object [] [f] ∧
        f.arguments.map (·.description) = [none] := by
  refine ⟨conforms_documented, rfl, ⟨_, .head _, _, rfl, rfl, rfl⟩, SchemaInfo.documented.document, ?_, ?_, ?_⟩
  · rw [Document.parse, read_sdl conforms_documented]
  · rw [directiveDefs_document]
    rfl
  · rw [typeDefs_document]
    exact ⟨_, .head _, _, rfl, rfl, rfl⟩

end Introspection

end SchemaWeave
