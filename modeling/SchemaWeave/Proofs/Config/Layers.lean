import SchemaWeave.Proofs.Config.Values

/-!
# Layers of settings

Texts are laid over each other, each of them under the path that says how to read it, and those that do not load are passed
over. In the end every setting has the value that the latest text gives it, if one does (`IsLatest`), and no text among the
settings is empty. What a loaded text gives is what its format says (`says_of_ofText`). Layers that follow each other may be
merged on their own first, since merging is associative (`merge_assoc`).
-/

namespace SchemaWeave.Config

open Files Json

/-! ## Merging -/

@[simp] theorem value?_merge (below above : Config) (f : Field) :
    (below.merge above).value? f = (above.value? f).or (below.value? f) := by
  have map_orElse {α : Type} (g : α → Json) (a b : Option α) : (a <|> b).map g = (a.map g).or (b.map g) := by
    cases a <;> rfl
  cases f <;> exact map_orElse _ _ _

theorem merge_assoc (a b c : Config) : (a.merge b).merge c = a.merge (b.merge c) :=
  ext_value? fun f => by simp only [value?_merge, Option.or_assoc]

theorem empty_merge (c : Config) : ({} : Config).merge c = c :=
  ext_value? fun f => by simp only [value?_merge, value?_empty, Option.or_none]

theorem foldl_merge (c : Config) (cs : List Config) : cs.foldl merge c = c.merge (cs.foldl merge {}) := by
  induction cs generalizing c with
  | nil => exact ext_value? fun f => by simp only [List.foldl_nil, value?_merge, value?_empty, Option.none_or]
  | cons above cs ih => rw [List.foldl_cons, List.foldl_cons, ih, ih (merge {} above), empty_merge, merge_assoc]

/-- Settings that follow each other may be merged into one first. -/
theorem foldl_merge_block (before block after : List Config) (first : Config) :
    (before ++ first :: block ++ after).foldl merge {} = (before ++ block.foldl merge first :: after).foldl merge {} := by
  have hblock (c : Config) : block.foldl merge (c.merge first) = c.merge (block.foldl merge first) := by
    rw [foldl_merge, foldl_merge first, merge_assoc]
  simp only [List.foldl_append, List.foldl_cons, hblock]

/-! ## Settings without empty texts -/

/-- The texts among some settings are not empty, and the remote and the pattern are not blank. -/
structure Filled (c : Config) : Prop where
  remote : ∀ s ∈ c.remote, ∃ ch ∈ s.toList, Text.isBlank ch = false
  client : ∀ s ∈ c.client, ∃ ch ∈ s.toList, Text.isBlank ch = false
  output : ∀ p ∈ c.output, p ≠ ""

theorem not_any_isBlankText_iff {o : Option String} :
    ¬o.any Text.isBlankText = true ↔ ∀ s ∈ o, ∃ ch ∈ s.toList, Text.isBlank ch = false := by
  cases o <;> simp [Text.isBlankText]

theorem not_any_isEmpty_iff {o : Option Path} : ¬o.any String.isEmpty = true ↔ ∀ p ∈ o, p ≠ "" := by
  cases o <;> simp

theorem valid_iff_filled {c : Config} : c.Valid ↔ c.Filled := by
  have hvalid : c.Valid ↔ ¬c.remote.any Text.isBlankText = true ∧ ¬c.client.any Text.isBlankText = true ∧
      ¬c.output.any String.isEmpty = true := by
    rw [Valid, emptyField?]
    split
    · simp_all
    · split
      · simp_all
      · split <;> simp_all
  rw [hvalid, not_any_isBlankText_iff, not_any_isBlankText_iff, not_any_isEmpty_iff]
  constructor
  · rintro ⟨hremote, hclient, houtput⟩
    exact ⟨hremote, hclient, houtput⟩
  · intro h
    exact ⟨h.remote, h.client, h.output⟩

theorem Filled.empty : Filled {} := ⟨fun _ h => (nomatch h), fun _ h => (nomatch h), fun _ h => (nomatch h)⟩

theorem Filled.merge {below above : Config} (hb : below.Filled) (ha : above.Filled) : (below.merge above).Filled := by
  have orElse {α : Type} {p : α → Prop} {a b : Option α} (ha : ∀ x ∈ a, p x) (hb : ∀ x ∈ b, p x) : ∀ x ∈ a <|> b, p x := by
    cases a <;> assumption
  exact ⟨orElse ha.remote hb.remote, orElse ha.client hb.client, orElse ha.output hb.output⟩

/-! ## What texts say -/

/-- What a text in YAML says of a setting; a blank one says nothing. -/
def SaysYaml (text : String) (f : Field) (v : Option Json) : Prop :=
  Text.isBlankText text = true ∧ v = none ∨ ∃ entries, Yaml.readMapping text.toList = .ok entries ∧ v = entryValue? entries f

/-- What a text in JSON says of a setting. -/
def SaysJson (text : String) (f : Field) (v : Option Json) : Prop := ∃ j, Json.parse text = .ok j ∧ v = setting? j f

/-- What a text says of a setting: its value, or none if it is absent or null. -/
def Says (text : String) (f : Field) (v : Option Json) : Format → Prop
  | .yaml => SaysYaml text f v
  | .json => SaysJson text f v
  | .either => if (ofYaml text).isOk then SaysYaml text f v else SaysJson text f v

theorem saysYaml_of_ofYaml {text : String} {c : Config} (h : ofYaml text = .ok c) (f : Field) :
    SaysYaml text f (c.value? f) := by
  obtain ⟨entries, hentries, -, hvalues⟩ := entries_of_ofYaml h
  rcases hentries with ⟨rfl, hblank⟩ | hread
  · exact Or.inl ⟨hblank, hvalues f⟩
  · exact Or.inr ⟨entries, hread, hvalues f⟩

theorem saysJson_of_ofJson {text : String} {c : Config} (h : ofJson text = .ok c) (f : Field) :
    SaysJson text f (c.value? f) := by
  obtain ⟨j, hparse, hvalues⟩ := value_of_ofJson h
  exact ⟨j, hparse, hvalues f⟩

theorem says_of_parse {text : String} {format : Format} {c : Config} (h : parse text format = .ok c) (f : Field) :
    Says text f (c.value? f) format := by
  cases format with
  | yaml => exact saysYaml_of_ofYaml (mapError_eq_ok.mp h) f
  | json => exact saysJson_of_ofJson (mapError_eq_ok.mp h) f
  | either =>
    rw [parse] at h
    rw [Says]
    cases hyaml : ofYaml text with
    | ok c' =>
      rw [hyaml] at h
      cases h
      exact (if_pos rfl).mpr (saysYaml_of_ofYaml hyaml f)
    | error e =>
      rw [hyaml] at h
      exact saysJson_of_ofJson (mapError_eq_ok.mp h) f

theorem validate_eq_ok {c c' : Config} : c.validate = .ok c' ↔ c = c' ∧ c.Valid := by
  rw [validate, Valid]
  split <;> simp_all

theorem ofText_eq_ok {text : String} {path : Path} {c : Config} :
    ofText text path = .ok c ↔ ∃ format, formatOf? path = some format ∧ parse text format = .ok c ∧ c.Valid := by
  rw [ofText]
  cases formatOf? path with
  | none => simp
  | some format =>
    have hbind : (parse text format).bind validate = .ok c ↔ parse text format = .ok c ∧ c.Valid := by
      rw [show (parse text format).bind validate = parse text format >>= validate from rfl, bind_eq_ok]
      constructor
      · rintro ⟨c', hparse, hvalidate⟩
        obtain ⟨rfl, hvalid⟩ := validate_eq_ok.mp hvalidate
        exact ⟨hparse, hvalid⟩
      · rintro ⟨hparse, hvalid⟩
        exact ⟨c, hparse, validate_eq_ok.mpr ⟨rfl, hvalid⟩⟩
    simp only [mapError_eq_ok, hbind, Option.some.injEq, exists_eq_left']

/-- The settings of a text that loads have no empty texts, and are what the text says in the format of its path. -/
theorem says_of_ofText {text : String} {path : Path} {c : Config} (h : ofText text path = .ok c) :
    c.Filled ∧ ∃ format, formatOf? path = some format ∧ ∀ f, Says text f (c.value? f) format := by
  obtain ⟨format, hformat, hparse, hvalid⟩ := ofText_eq_ok.mp h
  exact ⟨valid_iff_filled.mp hvalid, format, hformat, says_of_parse hparse⟩

/-! ## Layers -/

/-- A text of settings, and the path of the file that it comes from. -/
structure Layer where
  text : String
  path : Path

/-- The settings of a layer, if it loads. -/
def Layer.settings? (l : Layer) : Option Config := (ofText l.text l.path).toOption

/-- Lays a layer over settings, unless it does not load. -/
def addLayer (c : Config) (l : Layer) : Config :=
  match ofText l.text l.path with
  | .ok above => c.merge above
  | .error _ => c

/-- The settings after some layers. -/
def layered (layers : List Layer) : Config := layers.foldl addLayer {}

/-- A layer loads and gives a setting a value. -/
def Layer.Sets (l : Layer) (f : Field) (j : Json) : Prop := ∃ c, ofText l.text l.path = .ok c ∧ c.value? f = some j

/-- The value of a setting in the latest of some layers that loads and sets it, or none if there is no such layer. -/
def IsLatest (layers : List Layer) (f : Field) (v : Option Json) : Prop :=
  (v = none ∧ ∀ l ∈ layers, ∀ j, ¬l.Sets f j) ∨
    ∃ earlier l later j, layers = earlier ++ l :: later ∧ l.Sets f j ∧ (∀ l' ∈ later, ∀ j', ¬l'.Sets f j') ∧ v = some j

theorem layered_append (layers : List Layer) (l : Layer) : layered (layers ++ [l]) = addLayer (layered layers) l := by
  rw [layered, List.foldl_append, List.foldl_cons, List.foldl_nil, layered]

/-- The settings after some layers are those of the layers that load, merged in order. -/
theorem layered_eq_foldl (layers : List Layer) : layered layers = (layers.filterMap Layer.settings?).foldl merge {} := by
  rw [layered, List.foldl_filterMap]
  congr
  funext c l
  rw [addLayer, Layer.settings?]
  cases ofText l.text l.path <;> rfl

/-- A layer that loads gives a setting its value or leaves it as it was; one that does not load changes nothing. -/
theorem value?_addLayer (c : Config) (l : Layer) (f : Field) :
    (∃ j, l.Sets f j ∧ (addLayer c l).value? f = some j) ∨ (∀ j, ¬l.Sets f j) ∧ (addLayer c l).value? f = c.value? f := by
  rw [addLayer]
  cases hl : ofText l.text l.path with
  | error e =>
    refine Or.inr ⟨?_, rfl⟩
    rintro j ⟨above, habove, -⟩
    cases hl.symm.trans habove
  | ok above =>
    dsimp only
    rw [value?_merge]
    cases hf : above.value? f with
    | some j => exact Or.inl ⟨j, ⟨above, hl, hf⟩, rfl⟩
    | none =>
      refine Or.inr ⟨?_, rfl⟩
      rintro j ⟨above', habove', hj⟩
      cases hl.symm.trans habove'
      cases hf.symm.trans hj

theorem IsLatest.add {layers : List Layer} {f : Field} {c : Config} (h : IsLatest layers f (c.value? f)) (l : Layer) :
    IsLatest (layers ++ [l]) f ((addLayer c l).value? f) := by
  rcases value?_addLayer c l f with ⟨j, hsets, hj⟩ | ⟨hunset, hc⟩
  · exact Or.inr ⟨layers, l, [], j, rfl, hsets, fun l' hl' => absurd hl' List.not_mem_nil, hj⟩
  · rw [hc]
    rcases h with ⟨hnone, hunset'⟩ | ⟨earlier, l₀, later, j, rfl, hsets, hunset', hj⟩
    · refine Or.inl ⟨hnone, fun l' hl' => ?_⟩
      rcases List.mem_append.mp hl' with hl' | hl'
      · exact hunset' l' hl'
      · exact List.mem_singleton.mp hl' ▸ hunset
    · refine Or.inr ⟨earlier, l₀, later ++ [l], j, by rw [List.append_assoc, List.cons_append], hsets, fun l' hl' => ?_, hj⟩
      rcases List.mem_append.mp hl' with hl' | hl'
      · exact hunset' l' hl'
      · exact List.mem_singleton.mp hl' ▸ hunset

theorem Filled.addLayer {c : Config} (h : c.Filled) (l : Layer) : (addLayer c l).Filled := by
  rw [Config.addLayer]
  cases hl : ofText l.text l.path with
  | error e => exact h
  | ok above => exact h.merge (says_of_ofText hl).1

/-- After any layers every setting has the value that the latest layer which loads and sets it gives it, and no text is empty.
What a layer sets is what its text says, null being as good as nothing. The layers of a block that load may be merged into one
first. -/
theorem settings_of_layers (layers : List Layer) :
    (∀ f, IsLatest layers f ((layered layers).value? f)) ∧ (layered layers).Filled ∧
      (∀ l ∈ layers, ∀ c, ofText l.text l.path = .ok c →
        ∃ format, formatOf? l.path = some format ∧ ∀ f, Says l.text f (c.value? f) format) ∧
      ∀ before first block after, layers.filterMap Layer.settings? = before ++ first :: block ++ after →
        layered layers = (before ++ block.foldl merge first :: after).foldl merge {} := by
  have hstates : (∀ f, IsLatest layers f ((layered layers).value? f)) ∧ (layered layers).Filled := by
    induction layers using List.reverseRecOn with
    | nil => exact ⟨fun f => Or.inl ⟨value?_empty f, fun l hl => absurd hl List.not_mem_nil⟩, .empty⟩
    | append_singleton layers l ih =>
      rw [layered_append]
      exact ⟨fun f => (ih.1 f).add l, ih.2.addLayer l⟩
  refine ⟨hstates.1, hstates.2, fun l _ c hc => (says_of_ofText hc).2, fun before first block after hloaded => ?_⟩
  rw [layered_eq_foldl, hloaded, foldl_merge_block]

end SchemaWeave.Config
