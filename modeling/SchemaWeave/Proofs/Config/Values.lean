import SchemaWeave.Config.Load
import SchemaWeave.Proofs.Json.Spelling

/-!
# What a text gives each setting

`Config.value?` is the value of a setting, none if it is unset; settings are the same if they have the same values
(`ext_value?`). Settings that are read from JSON have the values that the JSON value has for their names, in an object or in
an array, where null and nothing at all leave a setting unset (`value_of_ofJson`). Settings that are read from YAML have the
scalars of the entries with their names, of which null leaves a setting unset too (`entries_of_ofYaml`).
-/

namespace SchemaWeave.Config

open Json

/-! ## Values of settings -/

/-- The value of a setting, if it is set. -/
def value? (c : Config) : Field → Option Json
  | .remote => c.remote.map .string
  | .client => c.client.map .string
  | .output => c.output.map .string
  | .insecure => c.insecure.map .bool

theorem ext_value? {c c' : Config} (h : ∀ f, c.value? f = c'.value? f) : c = c' := by
  have hstring : Function.Injective Json.string := fun _ _ h => Json.string.inj h
  have hbool : Function.Injective Json.bool := fun _ _ h => Json.bool.inj h
  have hremote := Option.map_injective hstring (h .remote)
  have hclient := Option.map_injective hstring (h .client)
  have houtput := Option.map_injective hstring (h .output)
  have hinsecure := Option.map_injective hbool (h .insecure)
  cases c
  cases c'
  simp_all

@[simp] theorem value?_empty (f : Field) : ({} : Config).value? f = none := by cases f <;> rfl

/-- A value that is not null. -/
def given? : Json → Option Json
  | .null => none
  | j => some j

/-- Settings with the value of one of them put in place. -/
def Takes (field : Field) (value : Option Json) (c c' : Config) : Prop :=
  ∀ f, c'.value? f = if f = field then value else c.value? f

/-- The names of the settings. -/
def names : List String := Field.all.map Field.name

theorem name_injective {f g : Field} (h : f.name = g.name) : f = g := by
  cases f <;> cases g <;> first | rfl | exact absurd h (by decide)

theorem ofName?_eq_some {name : String} {f : Field} : Field.ofName? name = some f ↔ name = f.name := by
  rw [Field.ofName?, List.find?_eq_some_iff_append]
  constructor
  · rintro ⟨h, -⟩
    exact (beq_iff_eq.mp h).symm
  · rintro rfl
    cases f with
    | remote => exact ⟨by decide, [], _, rfl, by decide⟩
    | client => exact ⟨by decide, [.remote], _, rfl, by decide⟩
    | output => exact ⟨by decide, [.remote, .client], _, rfl, by decide⟩
    | insecure => exact ⟨by decide, [.remote, .client, .output], _, rfl, by decide⟩

/-! ## Reading JSON -/

section

variable {α : Type} {cs rest : List Char}

theorem readUnexpected_ne_ok {expected : String} {r : α × List Char} : readUnexpected expected cs ≠ .ok r := by
  intro h
  rw [readUnexpected.eq_def] at h
  split at h
  · cases h
  · cases h
  · obtain ⟨p, -, h⟩ := bind_eq_ok.mp h
    cases h

theorem readText_eq_ok {expected s : String} (h : readText expected cs = .ok (s, rest)) :
    ∃ inside, cs = '"' :: (inside ++ '"' :: rest) ∧ Inside inside s.toList := by
  rw [readText.eq_def] at h
  split at h
  · obtain ⟨inside, rfl, hs⟩ := readString_eq_ok.mp h
    exact ⟨inside, rfl, hs⟩
  · cases h
  · exact absurd h readUnexpected_ne_ok

theorem readBool_eq_ok {b : Bool} (h : readBool cs = .ok (b, rest)) :
    ∃ letters, Word letters (.bool b) ∧ cs = letters ++ rest := by
  rw [readBool.eq_def] at h
  dsimp only at h
  split at h
  · obtain ⟨p, hword, hp⟩ := bind_eq_ok.mp h
    obtain ⟨-, hcs⟩ := readWord_eq_ok.mp hword
    cases hp
    exact ⟨_, .true, congrArg ('t' :: ·) hcs⟩
  · obtain ⟨p, hword, hp⟩ := bind_eq_ok.mp h
    obtain ⟨-, hcs⟩ := readWord_eq_ok.mp hword
    cases hp
    exact ⟨_, .false, congrArg ('f' :: ·) hcs⟩
  · cases h
  · exact absurd h readUnexpected_ne_ok

theorem readNullable_eq_ok {value : Reading α} {o : Option α} (h : readNullable value cs = .ok (o, rest)) :
    o = none ∧ Spells cs .null rest ∨ ∃ x, o = some x ∧ value (skipSpace cs) = .ok (x, rest) := by
  rw [readNullable] at h
  split at h
  · next cs' hskip =>
    obtain ⟨p, hword, hp⟩ := bind_eq_ok.mp h
    obtain ⟨-, hcs⟩ := readWord_eq_ok.mp hword
    cases hp
    exact Or.inl ⟨rfl, .word .null (by rw [hskip, hcs]; rfl)⟩
  · obtain ⟨p, hvalue, hp⟩ := bind_eq_ok.mp h
    cases hp
    exact Or.inr ⟨_, rfl, hvalue⟩

/-- A text that may be null is spelled as one or the other. -/
theorem spells_of_readText {expected : String} {o : Option String} (h : readNullable (readText expected) cs = .ok (o, rest)) :
    ∃ j, Spells cs j rest ∧ given? j = o.map .string := by
  rcases readNullable_eq_ok h with ⟨rfl, hnull⟩ | ⟨s, rfl, hs⟩
  · exact ⟨.null, hnull, rfl⟩
  · obtain ⟨inside, hcs, hinside⟩ := readText_eq_ok hs
    exact ⟨.string s, .string hinside hcs, rfl⟩

theorem spells_of_readBool {o : Option Bool} (h : readNullable readBool cs = .ok (o, rest)) :
    ∃ j, Spells cs j rest ∧ given? j = o.map .bool := by
  rcases readNullable_eq_ok h with ⟨rfl, hnull⟩ | ⟨b, rfl, hb⟩
  · exact ⟨.null, hnull, rfl⟩
  · obtain ⟨letters, hword, hcs⟩ := readBool_eq_ok hb
    exact ⟨.bool b, .word hword hcs, rfl⟩

theorem readField_eq_ok {field : Field} {c c' : Config} (h : readField field c cs = .ok (c', rest)) :
    ∃ j, Spells cs j rest ∧ Takes field (given? j) c c' := by
  cases field with
  | insecure =>
    obtain ⟨p, hread, hp⟩ := bind_eq_ok.mp h
    obtain ⟨j, hj, hgiven⟩ := spells_of_readBool hread
    cases hp
    exact ⟨j, hj, fun f => by rw [hgiven]; cases f <;> rfl⟩
  | _ =>
    obtain ⟨p, hread, hp⟩ := bind_eq_ok.mp h
    obtain ⟨j, hj, hgiven⟩ := spells_of_readText hread
    cases hp
    exact ⟨j, hj, fun f => by rw [hgiven]; cases f <;> rfl⟩

theorem newField_eq_ok {seen : List Field} {name : String} {field : Field} (h : newField seen name cs = .ok field) :
    name = field.name ∧ field ∉ seen := by
  rw [newField] at h
  split at h
  · cases h
  · next f hf =>
    split at h
    · cases h
    · next hseen =>
      cases h
      exact ⟨ofName?_eq_some.mp hf, by simpa using hseen⟩

end

/-! ## Objects -/

/-- The value of a setting in members, or else the one that it has. -/
def valueIn (members : List (String × Json)) (c : Config) (f : Field) : Option Json :=
  match (members.find? (·.1 == f.name)).map (·.2) with
  | some j => given? j
  | none => c.value? f

/-- Names of settings that have not been seen, each of them once. -/
structure Fresh (seen : List Field) (ns : List String) : Prop where
  nodup : ns.Nodup
  named : ∀ n ∈ ns, ∃ f, f ∉ seen ∧ n = f.name

theorem Fresh.nil (seen : List Field) : Fresh seen [] := ⟨List.nodup_nil, fun _ hn => absurd hn List.not_mem_nil⟩

theorem Fresh.not_mem {seen : List Field} {ns : List String} (h : Fresh seen ns) {f : Field} (hf : f ∈ seen) : f.name ∉ ns := by
  intro hn
  obtain ⟨g, hg, hname⟩ := h.named _ hn
  exact hg (name_injective hname ▸ hf)

theorem Fresh.cons {seen : List Field} {ns : List String} {field : Field} (h : Fresh (field :: seen) ns)
    (hseen : field ∉ seen) : Fresh seen (field.name :: ns) where
  nodup := List.nodup_cons.mpr ⟨h.not_mem List.mem_cons_self, h.nodup⟩
  named := by
    intro n hn
    rcases List.mem_cons.mp hn with rfl | hn
    · exact ⟨field, hseen, rfl⟩
    · obtain ⟨f, hf, hname⟩ := h.named n hn
      exact ⟨f, fun h => hf (List.mem_cons_of_mem _ h), hname⟩

theorem Fresh.of_cons {seen : List Field} {n : String} {ns : List String} (h : Fresh seen (n :: ns)) :
    (∃ f, f ∉ seen ∧ n = f.name) ∧ n ∉ ns ∧ Fresh seen ns :=
  ⟨h.named n List.mem_cons_self, (List.nodup_cons.mp h.nodup).1, (List.nodup_cons.mp h.nodup).2,
    fun n' hn' => h.named n' (List.mem_cons_of_mem n hn')⟩

theorem valueIn_nil (c : Config) (f : Field) : valueIn [] c f = c.value? f := rfl

section

variable {members : List (String × Json)} {f field : Field}

theorem valueIn_cons_self (j : Json) (c : Config) : valueIn ((f.name, j) :: members) c f = given? j := by
  have hfind : ((f.name, j) :: members).find? (·.1 == f.name) = some (f.name, j) := List.find?_cons_of_pos (beq_self_eq_true _)
  rw [valueIn, hfind]
  rfl

theorem valueIn_cons_of_ne (h : f ≠ field) (j : Json) (c : Config) :
    valueIn ((field.name, j) :: members) c f = valueIn members c f := by
  have hfind : ((field.name, j) :: members).find? (·.1 == f.name) = members.find? (·.1 == f.name) :=
    List.find?_cons_of_neg fun heq => h (name_injective (beq_iff_eq.mp heq)).symm
  rw [valueIn, hfind, valueIn]

theorem valueIn_of_not_mem (h : f.name ∉ members.map (·.1)) (c : Config) : valueIn members c f = c.value? f := by
  have hfind : members.find? (·.1 == f.name) = none :=
    List.find?_eq_none.mpr fun m hm heq => h (beq_iff_eq.mp heq ▸ List.mem_map_of_mem hm)
  rw [valueIn, hfind]
  rfl

theorem valueIn_cons {j : Json} {c c' : Config} (htakes : Takes field (given? j) c c') (hfresh : field.name ∉ members.map (·.1))
    (f : Field) : valueIn ((field.name, j) :: members) c f = valueIn members c' f := by
  have htaken := htakes f
  by_cases hf : f = field
  · subst hf
    rw [valueIn_cons_self, valueIn_of_not_mem hfresh, htaken, if_pos rfl]
  · rw [if_neg hf] at htaken
    rw [valueIn_cons_of_ne hf, valueIn, valueIn, htaken]

end

theorem readFields_eq_ok {bound : Nat} {seen : List Field} {c c' : Config} {cs rest : List Char}
    (h : readFields bound seen c cs = .ok (c', rest)) :
    ∃ members, SpellsMembers cs members rest ∧ Fresh seen (members.map (·.1)) ∧ ∀ f, c'.value? f = valueIn members c f := by
  induction bound generalizing seen c cs with
  | zero => cases h
  | succ bound ih =>
    obtain ⟨⟨name, cs₁⟩, hname, h⟩ := bind_eq_ok.mp h
    obtain ⟨field, hfield, h⟩ := bind_eq_ok.mp h
    obtain ⟨⟨⟨⟩, cs₂⟩, hcolon, h⟩ := bind_eq_ok.mp h
    obtain ⟨⟨c₁, cs₃⟩, hvalue, h⟩ := bind_eq_ok.mp h
    obtain ⟨⟨more, cs₄⟩, hend, h⟩ := bind_eq_ok.mp h
    obtain ⟨inside, rfl, hkey⟩ := readString_eq_ok.mp hname
    obtain ⟨rfl, hseen⟩ := newField_eq_ok hfield
    obtain ⟨j, hj, htakes⟩ := readField_eq_ok hvalue
    have hcolon := readColon_eq_ok.mp hcolon
    cases more with
    | false =>
      cases h
      have hnone : field.name ∉ ([] : List (String × Json)).map (·.1) := List.not_mem_nil
      exact ⟨[(field.name, j)], .last hkey hcolon hj (readObjectSeparator_eq_last.mp hend), (Fresh.nil _).cons hseen,
        fun f => (valueIn_cons htakes hnone f).symm⟩
    | true =>
      obtain ⟨cs₅, hcomma, hquote⟩ := readObjectSeparator_eq_more.mp hend
      obtain ⟨members, hmembers, hfresh, hvalues⟩ := ih h
      exact ⟨(field.name, j) :: members, .cons hkey hcolon hj hcomma hquote hmembers, hfresh.cons hseen,
        fun f => (hvalues f).trans (valueIn_cons htakes (hfresh.not_mem List.mem_cons_self) f).symm⟩

/-! ## Arrays -/

/-- The value of a setting among items, of which the settings in a list come in order, or else the one that it has. -/
def valueAt (items : List Json) (fields : List Field) (c : Config) (f : Field) : Option Json :=
  match items[fields.idxOf f]? with
  | some j => given? j
  | none => c.value? f

theorem valueAt_nil (fields : List Field) (c : Config) (f : Field) : valueAt [] fields c f = c.value? f := by
  rw [valueAt, List.getElem?_nil]

theorem valueAt_cons {field : Field} {j : Json} {c c' : Config} (htakes : Takes field (given? j) c c') {fields : List Field}
    (hfield : field ∉ fields) {items : List Json} (hlength : items.length ≤ fields.length) (f : Field) :
    valueAt (j :: items) (field :: fields) c f = valueAt items fields c' f := by
  have htaken := htakes f
  by_cases hf : f = field
  · subst hf
    rw [if_pos rfl] at htaken
    rw [valueAt, valueAt, List.idxOf_cons_self, List.idxOf_of_notMem hfield, List.getElem?_eq_none hlength]
    exact htaken.symm
  · rw [if_neg hf] at htaken
    rw [valueAt, valueAt, List.idxOf_cons_ne _ (Ne.symm hf), List.getElem?_cons_succ, htaken]

theorem readSurplus_eq_ok {cs rest : List Char} (h : readSurplus cs = .ok ((), rest)) : skipSpace cs = ']' :: rest := by
  rw [readSurplus.eq_def] at h
  split at h
  · cases h
  · next hclose => cases h; exact hclose
  · split at h <;> cases h
  · cases h

theorem readValues_eq_ok {fields : List Field} (hnodup : fields.Nodup) (hne : fields ≠ []) {c c' : Config} {cs rest : List Char}
    (h : readValues fields c cs = .ok (c', rest)) :
    ∃ items, SpellsItems cs items rest ∧ items.length ≤ fields.length ∧ ∀ f, c'.value? f = valueAt items fields c f := by
  have single {field : Field} {fields : List Field} {c c' : Config} {cs cs' rest : List Char} {j : Json}
      (hfield : field ∉ fields) (hj : Spells cs j cs') (htakes : Takes field (given? j) c c')
      (hend : skipSpace cs' = ']' :: rest) :
      ∃ items, SpellsItems cs items rest ∧ items.length ≤ (field :: fields).length ∧
        ∀ f, c'.value? f = valueAt items (field :: fields) c f :=
    ⟨[j], .last hj hend, Nat.succ_le_succ (Nat.zero_le _), fun f => by
      rw [valueAt_cons htakes hfield (Nat.zero_le _), valueAt_nil]⟩
  induction fields generalizing c cs with
  | nil => exact absurd rfl hne
  | cons field fields ih =>
    obtain ⟨hfield, hnodup⟩ := List.nodup_cons.mp hnodup
    rcases fields with _ | ⟨next, fields⟩
    · obtain ⟨⟨c₁, cs₁⟩, hvalue, h⟩ := bind_eq_ok.mp h
      obtain ⟨⟨⟨⟩, cs₂⟩, hend, h⟩ := bind_eq_ok.mp h
      obtain ⟨j, hj, htakes⟩ := readField_eq_ok hvalue
      cases h
      exact single hfield hj htakes (readSurplus_eq_ok hend)
    · obtain ⟨⟨c₁, cs₁⟩, hvalue, h⟩ := bind_eq_ok.mp h
      obtain ⟨⟨more, cs₂⟩, hend, h⟩ := bind_eq_ok.mp h
      obtain ⟨j, hj, htakes⟩ := readField_eq_ok hvalue
      cases more with
      | false =>
        cases h
        exact single hfield hj htakes (readListSeparator_eq_last.mp hend)
      | true =>
        obtain ⟨cs₃, -, -, hcomma, rfl, -, -⟩ := readListSeparator_eq_more.mp hend
        obtain ⟨items, hitems, hlength, hvalues⟩ := ih hnodup (List.cons_ne_nil _ _) h
        exact ⟨j :: items, .cons hj hcomma hitems, Nat.succ_le_succ hlength,
          fun f => (hvalues f).trans (valueAt_cons htakes hfield hlength f).symm⟩

/-! ## Texts in JSON -/

/-- The value that a JSON value has for a setting, in an object or in an array; null counts as none. -/
def setting? (j : Json) (f : Field) : Option Json := (j.field? names f.name).bind given?

theorem idxOf_names (f : Field) : names.idxOf f.name = Field.all.idxOf f := by cases f <;> decide

theorem setting?_object (members : List (String × Json)) (f : Field) : setting? (.object members) f = valueIn members {} f := by
  rw [valueIn, setting?, Json.field?, Json.source?, Option.bind_some, RecordSource.value?]
  cases (members.find? (·.1 == f.name)).map (·.2) with
  | none => exact (value?_empty f).symm
  | some j => rfl

theorem setting?_array (items : List Json) (f : Field) : setting? (.array items) f = valueAt items Field.all {} f := by
  rw [valueAt, setting?, Json.field?, Json.source?, Option.bind_some, RecordSource.value?, idxOf_names]
  cases items[Field.all.idxOf f]? with
  | none => exact (value?_empty f).symm
  | some j => rfl

/-- Settings that are read from JSON spell an object, whose names are settings and all different, or an array. -/
theorem spells_of_ofJsonChars {text : List Char} {c : Config} (h : ofJsonChars text = .ok c) :
    ∃ j, SpellsDocument text j ∧ (∀ members, j = .object members → Fresh [] (members.map (·.1))) ∧
      ∀ f, c.value? f = setting? j f := by
  obtain ⟨⟨c', rest⟩, hread, h⟩ := bind_eq_ok.mp h
  obtain ⟨⟨⟩, hend, h⟩ := bind_eq_ok.mp h
  cases h
  have hrest := checkEnd_eq_ok.mp hend
  rw [readJson.eq_def] at hread
  split at hread
  · cases hread
  · next cs hstart =>
    split at hread
    · cases hread
    · next hclose =>
      cases hread
      exact ⟨.array [], .emptyList hstart hclose hrest, fun _ h => (nomatch h), fun f => by
        rw [setting?_array, valueAt_nil]⟩
    · obtain ⟨items, hitems, -, hvalues⟩ := readValues_eq_ok (by decide) (List.cons_ne_nil _ _) hread
      exact ⟨.array items, .list hstart hitems hrest, fun _ h => (nomatch h),
        fun f => (hvalues f).trans (setting?_array items f).symm⟩
  · next cs hstart =>
    obtain ⟨⟨nonempty, cs'⟩, hopen, hread⟩ := bind_eq_ok.mp hread
    cases nonempty with
    | false =>
      cases hread
      exact ⟨.object [], .emptyObject hstart (readObjectStart_eq_empty.mp hopen) hrest, fun members h => by
        cases h; exact .nil [], fun f => (setting?_object [] f).symm⟩
    | true =>
      obtain ⟨members, hmembers, hfresh, hvalues⟩ := readFields_eq_ok hread
      exact ⟨.object members, .object hstart (readObjectStart_eq_more.mp hopen) hmembers hrest, fun members' h => by
        cases h; exact hfresh, fun f => (hvalues f).trans (setting?_object members f).symm⟩
  · exact absurd hread readUnexpected_ne_ok

/-! ## Entries of YAML -/

open Yaml (Scalar Entry)

/-- Whether a scalar is null: it is plain, and a word for null or nothing, or it has the tag of null. -/
def isNull (s : Scalar) : Bool :=
  s.style == .plain && match s.tag with
    | none => s.text.isEmpty || isNullWord s.text
    | some tag => tag == nullTag

/-- The value that a scalar gives a setting; null gives none. -/
def givenScalar? (f : Field) (s : Scalar) : Option Json :=
  if isNull s then none
  else match f with
    | .insecure => (boolOfWord? s.text).map .bool
    | _ => some (.string s.text)

/-- The value that entries give a setting. -/
def entryValue? (entries : List Entry) (f : Field) : Option Json :=
  (entries.find? (·.1.text == f.name)).bind fun e => givenScalar? f e.2

theorem isNullScalar_eq_ok {field : Field} {s : Scalar} {b : Bool} (h : isNullScalar field s = .ok b) : b = isNull s := by
  rw [isNullScalar] at h
  rw [isNull]
  by_cases hstyle : s.style = .plain
  · rw [if_neg (not_not_intro hstyle)] at h
    rw [beq_iff_eq.mpr hstyle, Bool.true_and]
    cases htag : s.tag with
    | none =>
      rw [htag] at h
      exact (Except.ok.inj h).symm
    | some tag =>
      simp only [htag] at h
      by_cases hne : tag = nullTag
      · rw [if_neg (not_not_intro hne)] at h
        split at h <;> cases h
        exact (beq_iff_eq.mpr hne).symm
      · rw [if_pos hne] at h
        cases h
        exact (beq_eq_false_iff_ne.mpr hne).symm
  · rw [if_pos hstyle] at h
    rw [beq_eq_false_iff_ne.mpr hstyle]
    exact (Except.ok.inj h).symm

theorem boolOfScalar_eq_ok {field : Field} {s : Scalar} {b : Bool} (h : boolOfScalar field s = .ok b) :
    boolOfWord? s.text = some b := by
  rw [boolOfScalar] at h
  split at h
  · next b' hb =>
    cases h
    split at hb
    · exact hb
    · cases hb
  · cases h

theorem givenScalar?_text {field : Field} (hfield : field ≠ .insecure) {s : Scalar} (hset : ¬isNull s = true) :
    givenScalar? field s = some (.string s.text) := by
  cases field with
  | insecure => exact absurd rfl hfield
  | _ => exact if_neg hset

/-- A setting keeps its value where the entry gives none. -/
theorem setScalar_eq_ok {field : Field} {s : Scalar} {c c' : Config} (h : setScalar field s c = .ok c') :
    Takes field ((givenScalar? field s).or (c.value? field)) c c' := by
  obtain ⟨null, hnull, h⟩ := bind_eq_ok.mp h
  have hnull := isNullScalar_eq_ok hnull
  cases null with
  | true =>
    cases h
    have hgiven : givenScalar? field s = none := if_pos hnull.symm
    intro f
    by_cases hf : f = field
    · rw [if_pos hf, hf, hgiven, Option.none_or]
    · rw [if_neg hf]
  | false =>
    have hset : ¬isNull s = true := Bool.not_eq_true _ ▸ hnull.symm
    cases field with
    | insecure =>
      obtain ⟨b, hb, h⟩ := bind_eq_ok.mp h
      have hgiven : givenScalar? .insecure s = some (.bool b) := by
        rw [givenScalar?, if_neg hset, boolOfScalar_eq_ok hb, Option.map_some]
      cases h
      intro f
      rw [hgiven]
      cases f <;> rfl
    | remote | client | output =>
      cases h
      intro f
      rw [givenScalar?_text (by decide) hset]
      cases f <;> rfl

theorem entryValue?_cons_self (key value : Scalar) (entries : List Entry) {f : Field} (h : key.text = f.name) :
    entryValue? ((key, value) :: entries) f = givenScalar? f value := by
  have hfind : ((key, value) :: entries).find? (·.1.text == f.name) = some (key, value) :=
    List.find?_cons_of_pos (beq_iff_eq.mpr h)
  rw [entryValue?, hfind, Option.bind_some]

theorem entryValue?_cons_of_ne (key value : Scalar) (entries : List Entry) {f : Field} (h : key.text ≠ f.name) :
    entryValue? ((key, value) :: entries) f = entryValue? entries f := by
  have hfind : ((key, value) :: entries).find? (·.1.text == f.name) = entries.find? (·.1.text == f.name) :=
    List.find?_cons_of_neg (mt beq_iff_eq.mp h)
  rw [entryValue?, hfind, entryValue?]

theorem entryValue?_eq_none {entries : List Entry} {f : Field} (h : f.name ∉ entries.map (·.1.text)) :
    entryValue? entries f = none := by
  have hfind : entries.find? (·.1.text == f.name) = none :=
    List.find?_eq_none.mpr fun e he heq => h (beq_iff_eq.mp heq ▸ List.mem_map_of_mem he)
  rw [entryValue?, hfind, Option.bind_none]

/-- Entries that are read name settings that were not seen, each of them once, and give them their values. -/
theorem ofEntries_eq_ok {seen : List Field} {c c' : Config} {entries : List Entry} (h : ofEntries seen c entries = .ok c') :
    Fresh seen (entries.map (·.1.text)) ∧ ∀ f, c'.value? f = (entryValue? entries f).or (c.value? f) := by
  induction entries generalizing seen c with
  | nil =>
    cases h
    exact ⟨.nil seen, fun f => rfl⟩
  | cons entry entries ih =>
    obtain ⟨key, value⟩ := entry
    rw [ofEntries] at h
    split at h
    · cases h
    · next field hfield =>
      have hkey := ofName?_eq_some.mp hfield
      split at h
      · cases h
      · next hseen =>
        split at h
        · cases h
        · next c₁ hset =>
          obtain ⟨hfresh, hvalues⟩ := ih h
          refine ⟨?_, fun f => ?_⟩
          · rw [List.map_cons, hkey]
            exact hfresh.cons (by simpa using hseen)
          · rw [hvalues f, setScalar_eq_ok hset f]
            by_cases hf : f = field
            · rw [if_pos hf, hf, entryValue?_cons_self key value entries hkey,
                entryValue?_eq_none (hfresh.not_mem List.mem_cons_self), Option.none_or]
            · rw [if_neg hf, entryValue?_cons_of_ne key value entries fun h => hf (name_injective (h.symm.trans hkey))]

/-- Settings that are read from YAML have the values of the entries of its mapping; a blank text has none. -/
theorem entries_of_ofYaml {text : String} {c : Config} (h : ofYaml text = .ok c) :
    ∃ entries, (entries = [] ∧ Text.isBlankText text = true ∨ Yaml.readMapping text.toList = .ok entries) ∧
      Fresh [] (entries.map (·.1.text)) ∧ ∀ f, c.value? f = entryValue? entries f := by
  rw [ofYaml] at h
  split at h
  · next hblank =>
    cases h
    exact ⟨[], Or.inl ⟨rfl, hblank⟩, .nil [], fun f => value?_empty f⟩
  · split at h
    · next c' hc =>
      cases h
      rw [ofYamlChars] at hc
      split at hc
      · cases hc
      · next entries hentries =>
        obtain ⟨hfresh, hvalues⟩ := ofEntries_eq_ok hc
        exact ⟨entries, Or.inr hentries, hfresh, fun f => by rw [hvalues f, value?_empty, Option.or_none]⟩
    · cases h

theorem ofJson_eq_ok {text : String} {c : Config} : ofJson text = .ok c ↔ ofJsonChars text.toList = .ok c := by
  rw [ofJson]
  cases ofJsonChars text.toList <;> simp

/-- Settings that are read from JSON are what the value of the text has for them. -/
theorem value_of_ofJson {text : String} {c : Config} (h : ofJson text = .ok c) :
    ∃ j, Json.parse text = .ok j ∧ ∀ f, c.value? f = setting? j f := by
  obtain ⟨j, hj, -, hvalues⟩ := spells_of_ofJsonChars (ofJson_eq_ok.mp h)
  exact ⟨j, hj.parse, hvalues⟩

end SchemaWeave.Config
