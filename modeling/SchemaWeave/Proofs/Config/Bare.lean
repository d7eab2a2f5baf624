import SchemaWeave.Proofs.Config.Layers
import SchemaWeave.Proofs.Yaml.Flow

/-!
# Settings in JSON under the bare name

A file with the bare name is read as YAML first. Settings in JSON load under it too: if their text is a mapping of YAML at all,
it has the same settings with the same truth value (`alike_of_ofYaml`), and the same texts but for folding. So the settings are
the same unless the text has a fold, and not otherwise (`ofText_bare`).
-/

namespace SchemaWeave.Config

open Files Json
open Yaml (Scalar Entry Folded SameScalar SameEntries HasFold)

/-! ## Members and entries -/

theorem not_isBreak_of_name (f : Field) : ∀ c ∈ f.name.toList, Yaml.isBreak c = false :=
  List.forall_iff_forall_mem.mp (by cases f <;> decide)

/-- Folding takes nothing from the name of a setting. -/
theorem name_of_sameScalar {lost : Bool} {f : Field} {k : Scalar} (h : SameScalar lost (.string f.name) k) :
    lost = false ∧ k.text = f.name := by
  cases h with
  | @string _ _ t hfolded =>
    have hlost : lost = false := by
      cases lost with
      | false => rfl
      | true =>
        obtain ⟨c, hc, hbreak⟩ := hfolded.broken rfl
        exact absurd hbreak (by simp [not_isBreak_of_name f c hc])
    exact ⟨hlost, by rw [hfolded.kept hlost, String.ofList_toList]⟩
  | word hw => cases hw

/-- Two values are the same, or they are texts of which folding makes the second from the first. -/
inductive Alike : (lost : Bool) → Option Json → Option Json → Prop
  | same (v : Option Json) : Alike false v v
  | folded {lost : Bool} {s t : String} (h : Folded lost s.toList t.toList) : Alike lost (some (.string s)) (some (.string t))

theorem Alike.eq_iff {lost : Bool} {v v' : Option Json} (h : Alike lost v v') : v' = v ↔ lost = false := by
  cases h with
  | same => simp
  | folded h => simp [← h.eq_iff, String.toList_inj]

theorem Alike.of_none {lost : Bool} {v : Option Json} (h : Alike lost none v) : lost = false := by
  cases h
  rfl

theorem value?_ne_bool {f : Field} (hf : f ≠ .insecure) (c : Config) (b : Bool) : c.value? f ≠ some (.bool b) := by
  cases f with
  | insecure => exact absurd rfl hf
  | remote => cases h : c.remote <;> simp [value?, h]
  | client => cases h : c.client <;> simp [value?, h]
  | output => cases h : c.output <;> simp [value?, h]

theorem value?_insecure_ne_string (c : Config) (s : String) : c.value? .insecure ≠ some (.string s) := by
  cases h : c.insecure <;> simp [value?, h]

/-- A word that settings can have as a value is the same in YAML. -/
theorem givenScalar?_word {letters : List Char} {j : Json} (hw : Word letters j) {f : Field} {c : Config}
    (hc : c.value? f = given? j) :
    givenScalar? f { text := String.ofList letters, style := .plain, tag := none } = given? j := by
  cases hw with
  | null => rfl
  | true | false =>
    by_cases hf : f = .insecure
    · rw [hf]
      rfl
    · exact absurd hc (value?_ne_bool hf c _)

/-- A value that settings can have is the same in YAML, but for folding. -/
theorem alike_of_sameScalar {lost : Bool} {j : Json} {v : Scalar} (h : SameScalar lost j v) {f : Field} {c : Config}
    (hc : c.value? f = given? j) : Alike lost (given? j) (givenScalar? f v) := by
  cases h with
  | word hw =>
    rw [givenScalar?_word hw hc]
    exact .same _
  | @string _ s t hfolded =>
    have hfield : f ≠ .insecure := by
      rintro rfl
      exact value?_insecure_ne_string c s hc
    rw [givenScalar?_text hfield (by simp [isNull])]
    refine .folded ?_
    rw [String.toList_ofList]
    exact hfolded

/-- What is lost once one more setting, of which nothing was lost, is read. -/
theorem exists_update_eq_true {losing : Field → Bool} {field : Field} (hkept : losing field = false) {lost : Bool} :
    (∃ f, Function.update losing field lost f = true) ↔ lost = true ∨ ∃ f, losing f = true := by
  constructor
  · rintro ⟨f, hf⟩
    by_cases hne : f = field
    · rw [hne, Function.update_self] at hf
      exact Or.inl hf
    · rw [Function.update_of_ne hne] at hf
      exact Or.inr ⟨f, hf⟩
  · rintro (hlost | ⟨f, hf⟩)
    · exact ⟨field, (Function.update_self field lost losing).trans hlost⟩
    · refine ⟨f, (Function.update_of_ne ?_ _ _).trans hf⟩
      rintro rfl
      exact Bool.false_ne_true (hkept.symm.trans hf)

/-- Entries that are the members of an object give the settings the same values, but for folding: `lost` says which settings
lose something by it. -/
theorem alike_of_sameEntries {lost : Bool} {members : List (String × Json)} {entries : List Entry}
    (h : SameEntries lost members entries) {seen : List Field} (hfresh : Fresh seen (members.map (·.1)))
    (htyped : ∀ f, ∃ c : Config, c.value? f = valueIn members {} f) : ∃ losing : Field → Bool,
      (∀ f, Alike (losing f) (valueIn members {} f) (entryValue? entries f)) ∧ (lost = true ↔ ∃ f, losing f = true) := by
  induction h generalizing seen with
  | nil =>
    refine ⟨fun _ => false, fun f => ?_, by simp⟩
    rw [valueIn_nil, value?_empty]
    exact .same none
  | @cons l l' l'' name j k v members entries hk hv h ih =>
    obtain ⟨⟨field, -, rfl⟩, hmem, hfresh⟩ := hfresh.of_cons
    obtain ⟨rfl, hname⟩ := name_of_sameScalar hk
    have htyped' (f : Field) : ∃ c : Config, c.value? f = valueIn members {} f := by
      by_cases hf : f = field
      · exact ⟨{}, by rw [hf, valueIn_of_not_mem hmem]⟩
      · rw [← valueIn_cons_of_ne hf j]
        exact htyped f
    obtain ⟨losing, halike, hlost⟩ := ih hfresh htyped'
    have hkept : losing field = false := by
      have hnone := halike field
      rw [valueIn_of_not_mem hmem, value?_empty] at hnone
      exact hnone.of_none
    refine ⟨Function.update losing field l', fun f => ?_, ?_⟩
    · by_cases hf : f = field
      · obtain ⟨c, hc⟩ := htyped f
        subst hf
        rw [Function.update_self, valueIn_cons_self, entryValue?_cons_self k v entries hname]
        exact alike_of_sameScalar hv (hc.trans (valueIn_cons_self j {}))
      · rw [Function.update_of_ne hf, valueIn_cons_of_ne hf,
          entryValue?_cons_of_ne k v entries fun h => hf (name_injective (h.symm.trans hname))]
        exact halike f
    · rw [Bool.false_or, Bool.or_eq_true_iff, hlost, exists_update_eq_true hkept]

/-! ## The bare name -/

theorem formatOf?_of_bareName {p : Path} (h : p.fileName? = some bareName) : formatOf? p = some .either := by
  have hextension : p.extension? = none := by
    rw [Path.extension?, h]
    decide
  rw [formatOf?, hextension]
  exact if_pos h

/-- A document of JSON is not blank. -/
theorem not_blank_of_spells {text : String} {j : Json} (h : SpellsDocument text.toList j) : Text.isBlankText text = false := by
  obtain ⟨ch, rest, hstart, hch⟩ : ∃ ch rest, skipSpace text.toList = ch :: rest ∧ ch ∈ ['{', '['] := by
    cases h with
    | emptyObject hstart _ _ | object hstart _ _ _ => exact ⟨'{', _, hstart, by decide⟩
    | emptyList hstart _ _ | list hstart _ _ => exact ⟨'[', _, hstart, by decide⟩
  have hmem : ch ∈ text.toList := by
    refine (List.dropWhile_sublist isSpace).subset ?_
    change ch ∈ skipSpace text.toList
    rw [hstart]
    exact List.mem_cons_self
  have hsolid : ¬Text.isBlank ch = true := by
    rcases List.mem_pair.mp hch with rfl | rfl <;> decide
  exact List.all_eq_false.mpr ⟨ch, hmem, hsolid⟩

/-- Settings in JSON that are read as YAML are the same settings but for folding, and exactly the same if the text has no
fold. -/
theorem alike_of_ofYaml {text : String} {c c' : Config} (hjson : ofJson text = .ok c) (hyaml : ofYaml text = .ok c') :
    (∀ f, ∃ lost, Alike lost (c.value? f) (c'.value? f)) ∧ (c' = c ↔ ¬HasFold text.toList) := by
  obtain ⟨j, hj, hfresh, hvalues⟩ := spells_of_ofJsonChars (ofJson_eq_ok.mp hjson)
  obtain ⟨entries, hentries, -, hvalues'⟩ := entries_of_ofYaml hyaml
  have hread : Yaml.readMapping text.toList = .ok entries := by
    rcases hentries with ⟨-, hblank⟩ | hread
    · exact absurd hblank (by simp [not_blank_of_spells hj])
    · exact hread
  obtain ⟨members, rfl, hsame⟩ := Yaml.readMapping_document hj hread
  have hvalues (f : Field) : c.value? f = valueIn members {} f := (hvalues f).trans (setting?_object members f)
  obtain ⟨losing, halike, hlost⟩ := alike_of_sameEntries hsame (hfresh members rfl) fun f => ⟨c, hvalues f⟩
  have halike (f : Field) : Alike (losing f) (c.value? f) (c'.value? f) := by
    rw [hvalues, hvalues']
    exact halike f
  refine ⟨fun f => ⟨losing f, halike f⟩, ?_⟩
  calc c' = c ↔ ∀ f, c'.value? f = c.value? f := ⟨fun h f => by rw [h], ext_value?⟩
    _ ↔ ∀ f, losing f = false := forall_congr' fun f => (halike f).eq_iff
    _ ↔ ¬∃ f, losing f = true := by simp
    _ ↔ ¬HasFold text.toList := by rw [← hlost, Yaml.folds_word_iff]

/-- A text is made by folding from the one that it is like. -/
theorem Alike.exists_folded {lost : Bool} {o o' : Option String} (h : Alike lost (o.map .string) (o'.map .string)) {t : String}
    (ht : t ∈ o') : ∃ s ∈ o, ∃ lost', Folded lost' s.toList t.toList := by
  have hstring : Function.Injective Json.string := fun _ _ h => Json.string.inj h
  rw [Option.mem_def.mp ht, Option.map_some] at h
  generalize hv : o.map Json.string = v at h
  generalize hv' : some (Json.string t) = v' at h
  cases h with
  | same =>
    exact ⟨t, Option.map_injective hstring (hv.trans hv'.symm), false, .refl _⟩
  | @folded _ s _ hfolded =>
    cases hv'
    exact ⟨s, Option.map_injective hstring hv, lost, hfolded⟩

theorem exists_not_blank_of_folded {lost : Bool} {x t : List Char} (h : Folded lost x t)
    (hx : ∃ ch ∈ x, Text.isBlank ch = false) : ∃ ch ∈ t, Text.isBlank ch = false := by
  have hall : x.all Text.isBlank = false := by simpa [List.all_eq_false] using hx
  simpa [List.all_eq_false] using h.blank.trans hall

/-- Folding leaves no text empty or blank that was not. -/
theorem Filled.of_alike {c c' : Config} (h : c.Filled) (halike : ∀ f, ∃ lost, Alike lost (c.value? f) (c'.value? f)) :
    c'.Filled where
  remote := by
    intro t ht
    obtain ⟨lost, hremote⟩ := halike .remote
    obtain ⟨s, hs, lost', hfolded⟩ := hremote.exists_folded ht
    exact exists_not_blank_of_folded hfolded (h.remote s hs)
  client := by
    intro t ht
    obtain ⟨lost, hclient⟩ := halike .client
    obtain ⟨s, hs, lost', hfolded⟩ := hclient.exists_folded ht
    exact exists_not_blank_of_folded hfolded (h.client s hs)
  output := by
    intro t ht
    obtain ⟨lost, houtput⟩ := halike .output
    obtain ⟨s, hs, lost', hfolded⟩ := houtput.exists_folded ht
    have hne : s ≠ "" := h.output s hs
    rintro rfl
    exact hfolded.filled (mt String.toList_eq_nil_iff.mp hne) rfl

theorem Alike.insecure_eq {lost : Bool} {c c' : Config} (h : Alike lost (c.value? .insecure) (c'.value? .insecure)) :
    c'.insecure = c.insecure := by
  have hbool : Function.Injective Json.bool := fun _ _ h => Json.bool.inj h
  generalize hv : c.value? .insecure = v at h
  generalize hv' : c'.value? .insecure = v' at h
  cases h with
  | same => exact Option.map_injective hbool (hv'.trans hv.symm)
  | folded => exact absurd hv (value?_insecure_ne_string c _)

/-- **Settings in JSON load under the bare name too.** They have the same truth value, set the same settings, and give them the
same texts but for folding. They are the same settings if the text is no mapping of YAML or has no fold, and only then. -/
theorem ofText_bare {text : String} {path bare : Path} (hpath : path.extension? = some "json")
    (hbare : bare.fileName? = some bareName) {c : Config} (h : ofText text path = .ok c) : ∃ c', ofText text bare = .ok c' ∧
      (c' = c ↔ (ofYaml text).isOk = false ∨ ¬HasFold text.toList) ∧ c'.insecure = c.insecure ∧
        ∀ f, ∃ lost, Alike lost (c.value? f) (c'.value? f) := by
  obtain ⟨format, hformat, hparse, hvalid⟩ := ofText_eq_ok.mp h
  have hjson : ofJson text = .ok c := by
    rw [formatOf?, hpath] at hformat
    cases hformat
    exact mapError_eq_ok.mp hparse
  cases hyaml : ofYaml text with
  | error e =>
    have hparse' : parse text .either = .ok c := by
      rw [parse, hyaml]
      exact mapError_eq_ok.mpr hjson
    refine ⟨c, ofText_eq_ok.mpr ⟨.either, formatOf?_of_bareName hbare, hparse', hvalid⟩, ?_, rfl, fun f => ⟨false, .same _⟩⟩
    exact iff_of_true rfl (Or.inl rfl)
  | ok c' =>
    obtain ⟨halike, heq⟩ := alike_of_ofYaml hjson hyaml
    have hparse' : parse text .either = .ok c' := by rw [parse, hyaml]
    have hvalid' : c'.Valid := valid_iff_filled.mpr ((valid_iff_filled.mp hvalid).of_alike halike)
    obtain ⟨lost, hinsecure⟩ := halike .insecure
    refine ⟨c', ofText_eq_ok.mpr ⟨.either, formatOf?_of_bareName hbare, hparse', hvalid'⟩, ?_, hinsecure.insecure_eq, halike⟩
    rw [heq, show (Except.ok c' : Except String Config).isOk = true from rfl]
    simp

/-- The settings of a text without a fold are the same under the bare name. -/
theorem ofText_bare_of_space : ∃ c', ofText "\x7b\"remote\": \"a b\"\x7d" "config/.graphql-codegenrc" = .ok c' ∧
    (c' = { remote := some "a b" } ↔
      (ofYaml "\x7b\"remote\": \"a b\"\x7d").isOk = false ∨ ¬HasFold "\x7b\"remote\": \"a b\"\x7d".toList) ∧
    c'.insecure = none ∧ ∀ f, ∃ lost, Alike lost (({ remote := some "a b" } : Config).value? f) (c'.value? f) :=
  ofText_bare (show Path.extension? "schema.json" = some "json" by decide) (by decide) (by decide +kernel)

/-- Not all settings in JSON are the same under the bare name: there a next-line character is a space. -/
theorem not_forall_ofText_bare_eq : ¬∀ (text : String) (path bare : Path) (c : Config), path.extension? = some "json" →
    bare.fileName? = some bareName → ofText text path = .ok c → ofText text bare = .ok c := by
  intro h
  have hbare : ofText "\x7b\"remote\": \"a\u0085b\"\x7d" ".graphql-codegenrc" = .ok { remote := some "a\u0085b" } :=
    h _ "schema.json" _ _ (by decide) (by decide) (by decide +kernel)
  have hspace : ofText "\x7b\"remote\": \"a\u0085b\"\x7d" ".graphql-codegenrc" = .ok { remote := some "a b" } := by
    decide +kernel
  exact absurd (hbare.symm.trans hspace) (by decide)

end SchemaWeave.Config
