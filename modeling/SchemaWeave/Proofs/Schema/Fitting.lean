import Mathlib.Data.List.Nodup
import SchemaWeave.Proofs.Artifact

/-!
# Putting definitions together that fit

A document *fits* (`Fits`) if no two of its definitions have one key, none defines what every schema has, none extends
another, and no member of a type comes twice. Assembling it reports nothing and gives its definitions behind the
built-in ones (`assemble_eq`). Where assembling any document reports nothing, its members are distinct
(`silently_distinct`), and its directives are those of its definitions (`silently_directives`).
-/

namespace SchemaWeave

open Graphql

/-- No member comes twice. -/
structure Graphql.TypeBody.Distinct (b : TypeBody) : Prop where
  interfaces : b.interfaces.Nodup
  fields : (b.fields.map (·.name)).Nodup
  members : b.members.Nodup
  values : (b.values.map (·.name)).Nodup
  inputs : (b.inputs.map (·.name)).Nodup

namespace Schema

/-! ## Members -/

section

variable {α : Type} {name : α → Name}

/-- An element with a name of its own is the first with this name. -/
theorem any_eq_false_of_nodup {present : List α} {a : α} {more : List α} (h : ((present ++ a :: more).map name).Nodup) :
    present.any (name · == name a) = false := by
  rw [List.map_append, List.map_cons, List.nodup_append] at h
  rw [List.any_eq_false]
  intro b hb he
  exact h.2.2 _ (List.mem_map_of_mem hb) _ List.mem_cons_self (beq_iff_eq.mp he)

/-- Members with distinct names are all kept. -/
theorem keepFirst_eq (duplicate : Name → Diagnostic) {present more : List α} (h : ((present ++ more).map name).Nodup) :
    keepFirst name duplicate present more = pure (present ++ more) := by
  induction more generalizing present with
  | nil =>
    rw [List.append_nil]
    rfl
  | cons a more ih =>
    rw [keepFirst, any_eq_false_of_nodup h, if_neg Bool.false_ne_true]
    rw [List.append_cons] at h
    rw [ih h, ← List.append_cons]

theorem silently_keepFirst_nodup (name : α → Name) (duplicate : Name → Diagnostic) (more present : List α) :
    Silently (keepFirst name duplicate present more) fun r => (present.map name).Nodup → (r.map name).Nodup := by
  induction more generalizing present with
  | nil => exact Silently.pure id
  | cons a more ih =>
    rw [keepFirst]
    split_ifs with hany
    · apply silently_report
      exact (ih present).mono fun _ _ => True.intro
    · refine (ih (present ++ [a])).mono fun r hr hn => hr ?_
      rw [List.map_append, List.map_singleton, List.nodup_append]
      refine ⟨hn, by simp, fun n hn' m hm he => hany ?_⟩
      obtain ⟨b, hb, rfl⟩ := List.mem_map.mp hn'
      rw [List.any_eq_true]
      exact ⟨b, hb, beq_iff_eq.mpr (he.trans (List.mem_singleton.mp hm))⟩

end

/-- Content of one kind is added without a report if its members are distinct. -/
theorem addContent_eq (type : Name) {present more : TypeBody} (hk : present.kind = more.kind)
    (h : (present.append more).Distinct) : addContent type present more = some (pure (present.append more)) := by
  have hid {ns ns' : List Name} (hn : (ns ++ ns').Nodup) : ((ns ++ ns').map id).Nodup := by rwa [List.map_id]
  cases present <;> cases more <;> try exact TypeKind.noConfusion hk
  case scalar.scalar => rfl
  case object.object | interface.interface =>
    rw [addContent, keepFirst_eq _ (hid h.interfaces), keepFirst_eq _ h.fields]
    rfl
  case union.union =>
    rw [addContent, keepFirst_eq _ (hid h.members)]
    rfl
  case enum.enum =>
    rw [addContent, keepFirst_eq _ h.values]
    rfl
  case inputObject.inputObject =>
    rw [addContent, keepFirst_eq _ h.inputs]
    rfl

/-- Adding content without a report leaves members distinct. -/
theorem silently_addContent_distinct (type : Name) (present more : TypeBody) {x : Reported TypeBody}
    (hx : addContent type present more = some x) : Silently x fun b => present.Distinct → b.Distinct := by
  have hid {ns ns' : List Name} (h : (ns.map id).Nodup → (ns'.map id).Nodup) : ns.Nodup → ns'.Nodup := by
    rwa [List.map_id, List.map_id] at h
  cases present <;> cases more <;> cases hx
  case scalar.scalar => exact Silently.pure id
  case object.object | interface.interface =>
    refine (silently_keepFirst_nodup _ _ _ _).bind fun is => ?_
    refine (silently_keepFirst_nodup _ _ _ _).bind fun fs => Silently.pure fun hfs his h => ?_
    exact ⟨hid his h.interfaces, hfs h.fields, h.members, h.values, h.inputs⟩
  case union.union =>
    refine (silently_keepFirst_nodup _ _ _ _).bind fun ms => Silently.pure fun hms h => ?_
    exact ⟨h.interfaces, h.fields, hid hms h.members, h.values, h.inputs⟩
  case enum.enum =>
    refine (silently_keepFirst_nodup _ _ _ _).bind fun vs => Silently.pure fun hvs h => ?_
    exact ⟨h.interfaces, h.fields, h.members, hvs h.values, h.inputs⟩
  case inputObject.inputObject =>
    refine (silently_keepFirst_nodup _ _ _ _).bind fun fs => Silently.pure fun hfs h => ?_
    exact ⟨h.interfaces, h.fields, h.members, h.values, hfs h.inputs⟩

theorem distinct_emptyContent (kind : TypeKind) : (emptyContent kind).Distinct := by
  cases kind <;> exact ⟨List.nodup_nil, List.nodup_nil, List.nodup_nil, List.nodup_nil, List.nodup_nil⟩

theorem kind_emptyContent (kind : TypeKind) : (emptyContent kind).kind = kind := by cases kind <;> rfl

/-- A type definition with distinct members is taken as it is. -/
theorem collect_eq {d : TypeDef} (h : d.body.Distinct) : collect d = pure d := by
  have happend : (emptyContent d.kind).append d.body = d.body := append_emptyContent d.body
  have hadd := addContent_eq d.name (kind_emptyContent d.kind) (by rw [happend]; exact h)
  rw [collect, hadd, happend]
  rfl

theorem silently_collect_distinct (d : TypeDef) : Silently (collect d) fun d' => d'.body.Distinct := by
  rw [collect]
  cases ha : addContent d.name (emptyContent d.kind) d.body with
  | none =>
    have h := silently_addContent d.name (emptyContent d.kind) d.body
    rw [ha] at h
    exact absurd (kind_emptyContent d.kind) h
  | some x =>
    refine (silently_addContent_distinct _ _ _ ha).bind fun body => Silently.pure fun hbody => ?_
    exact hbody (distinct_emptyContent d.kind)

/-! ## Types -/

/-- Types with distinct members. -/
def DistinctTypes (types : List TypeDef) : Prop := ∀ t ∈ types, t.body.Distinct

theorem addTypes_eq {types added : List TypeDef} (hn : (names (types ++ added)).Nodup)
    (hscalar : ∀ d ∈ added, builtinScalars.contains d.name = false) (hd : DistinctTypes added) :
    added.foldlM addType types = pure (types ++ added) := by
  induction added generalizing types with
  | nil =>
    rw [List.append_nil]
    rfl
  | cons d added ih =>
    have hone : addType types d = pure (types ++ [d]) := by
      rw [addType, hscalar d List.mem_cons_self, any_eq_false_of_nodup hn, collect_eq (hd d List.mem_cons_self)]
      rfl
    rw [List.append_cons] at hn
    have ih := ih hn (fun e he => hscalar e (List.mem_cons_of_mem d he)) fun e he => hd e (List.mem_cons_of_mem d he)
    rw [List.foldlM_cons, hone, pure_bind, ih, ← List.append_cons]

theorem silently_addType_distinct (types : List TypeDef) (d : TypeDef) :
    Silently (addType types d) fun r => DistinctTypes types → DistinctTypes r := by
  rw [addType]
  split_ifs
  · exact silently_report _ (Silently.pure True.intro)
  · exact silently_report _ (Silently.pure True.intro)
  · refine (silently_collect_distinct d).bind fun d' => Silently.pure fun hd' h t ht => ?_
    rcases List.mem_append.mp ht with ht | ht
    · exact h t ht
    · rw [List.mem_singleton.mp ht]
      exact hd'

theorem silently_extendType_distinct (e : TypeExtension) (types : List TypeDef) :
    Silently (extendType e types) fun r => DistinctTypes types → DistinctTypes r := by
  induction types with
  | nil => exact silently_report _ (Silently.pure True.intro)
  | cons t types ih =>
    rw [extendType]
    split_ifs
    · cases ha : addContent t.name t.body e.body with
      | none => exact silently_report _ (Silently.pure True.intro)
      | some x =>
        refine (silently_addContent_distinct _ _ _ ha).bind fun body => Silently.pure fun hbody h => ?_
        rw [DistinctTypes, List.forall_mem_cons] at h ⊢
        exact ⟨hbody h.1, h.2⟩
    · refine ih.bind fun r => Silently.pure fun hr h => ?_
      rw [DistinctTypes, List.forall_mem_cons] at h ⊢
      exact ⟨h.1, hr h.2⟩

/-- What each step of a fold keeps, the whole fold does. -/
theorem silently_foldlM {α β : Type} {f : β → α → Reported β} {P : β → Prop}
    (h : ∀ b a, Silently (f b a) fun b' => P b → P b') (l : List α) (b : β) :
    Silently (l.foldlM f b) fun b' => P b → P b' :=
  Silently.foldlM (I := fun _ => P) (fun _ b a => h b a) l [] b

theorem distinct_builtin : DistinctTypes Builtin.types := by
  have hfields : ∀ t ∈ Builtin.types, (t.body.fields.map (·.name)).Nodup ∧ (t.body.values.map (·.name)).Nodup ∧
      t.body.interfaces = [] ∧ t.body.members = [] ∧ t.body.inputs.map (·.name) = [] := by decide +kernel
  intro t ht
  obtain ⟨hf, hv, hi, hm, hinputs⟩ := hfields t ht
  exact ⟨by rw [hi]; exact List.nodup_nil, hf, by rw [hm]; exact List.nodup_nil, hv, by rw [hinputs]; exact List.nodup_nil⟩

/-- **Where assembling reports nothing, the members of each type are distinct.** -/
theorem silently_distinct (doc : Document) : Silently (assemble doc) fun s => DistinctTypes s.types := by
  rw [assemble]
  refine (silently_foldlM silently_addType_distinct (typeDefs doc) Builtin.types).bind fun types => ?_
  refine (silently_foldlM (fun types e => silently_extendType_distinct e types) (typeExtensions doc) types).bind
    fun types' => ?_
  refine (reports_foldlM reports_addDirective (directiveDefs doc) Builtin.directives).bind fun directives => ?_
  refine (reports_baseDefinition doc types').bind fun base => ?_
  refine (reports_foldlM reports_extendSchema (schemaExtensions doc) base).bind fun definition => ?_
  exact Silently.pure fun _ _ _ hextended hadded => hextended (hadded distinct_builtin)

/-! ## Directives and roots -/

theorem addDirectives_eq {present added : List DirectiveDef} (hn : ((present ++ added).map (·.name)).Nodup) :
    added.foldlM addDirective present = pure (present ++ added) := by
  induction added generalizing present with
  | nil =>
    rw [List.append_nil]
    rfl
  | cons d added ih =>
    have hnone : present.find? (·.name == d.name) = none := by
      have hany := any_eq_false_of_nodup hn
      rw [List.any_eq_false] at hany
      exact List.find?_eq_none.mpr hany
    have hone : addDirective present d = pure (present ++ [d]) := by rw [addDirective, hnone]
    rw [List.append_cons] at hn
    rw [List.foldlM_cons, hone, pure_bind, ih hn, ← List.append_cons]

theorem addRoots_eq {present more : List (OperationKind × Name)} (hn : ((present ++ more).map (·.1)).Nodup) :
    addRoots present more = pure (present ++ more) := by
  induction more generalizing present with
  | nil =>
    rw [List.append_nil]
    rfl
  | cons root more ih =>
    have hone : present.any (·.1 == root.1) = false := by
      rw [List.map_append, List.map_cons, List.nodup_append] at hn
      rw [List.any_eq_false]
      intro r hr he
      exact hn.2.2 _ (List.mem_map_of_mem hr) _ List.mem_cons_self (beq_iff_eq.mp he)
    rw [List.append_cons] at hn
    have ih := ih hn
    rw [addRoots] at ih ⊢
    rw [List.foldlM_cons, hone, if_neg Bool.false_ne_true, pure_bind, ih, ← List.append_cons]

/-! ## Keys -/

/-- Elements that definitions hold have keys of their own if the definitions do. -/
theorem nodup_keys {α : Type} {f : Definition → Option α} {key : α → DefinitionKey}
    (hf : ∀ d a, f d = some a → DefinitionKey.of? d = some (key a)) {doc : Document}
    (hn : (doc.filterMap DefinitionKey.of?).Nodup) : ((doc.filterMap f).map key).Nodup := by
  refine hn.sublist ?_
  clear hn
  induction doc with
  | nil => exact List.Sublist.refl []
  | cons d doc ih =>
    cases ha : f d with
    | none =>
      rw [List.filterMap_cons_none ha, List.filterMap_cons]
      split
      · exact ih
      · exact ih.cons _
    | some a =>
      rw [List.filterMap_cons_some ha, List.filterMap_cons_some (hf d a ha), List.map_cons]
      exact ih.cons_cons _

theorem nodup_typeDefs {doc : Document} (hn : (doc.filterMap DefinitionKey.of?).Nodup) :
    (names (typeDefs doc)).Nodup := by
  have h : ((names (typeDefs doc)).map DefinitionKey.type).Nodup := by
    rw [names, List.map_map]
    refine nodup_keys (fun d t hd => ?_) hn
    cases d <;> cases hd
    rfl
  exact List.Nodup.of_map _ h

theorem nodup_directiveDefs {doc : Document} (hn : (doc.filterMap DefinitionKey.of?).Nodup) :
    ((directiveDefs doc).map (·.name)).Nodup := by
  have h : (((directiveDefs doc).map (·.name)).map DefinitionKey.directive).Nodup := by
    rw [List.map_map]
    refine nodup_keys (fun d t hd => ?_) hn
    cases d <;> cases hd
    rfl
  exact List.Nodup.of_map _ h

theorem schemaDefs_of_nodup {doc : Document} (hn : (doc.filterMap DefinitionKey.of?).Nodup) :
    schemaDefs doc = [] ∨ ∃ d, schemaDefs doc = [d] := by
  have h : ((schemaDefs doc).map fun _ => DefinitionKey.schema).Nodup := by
    refine nodup_keys (fun d t hd => ?_) hn
    cases d <;> cases hd
    rfl
  cases hd : schemaDefs doc with
  | nil => exact .inl rfl
  | cons d ds =>
    cases ds with
    | nil => exact .inr ⟨d, rfl⟩
    | cons d' ds =>
      rw [hd] at h
      exact absurd (List.mem_cons_self) (List.nodup_cons.mp h).1

theorem mem_typeDefs {doc : Document} {t : TypeDef} : t ∈ typeDefs doc ↔ .type t ∈ doc := by
  rw [typeDefs, List.mem_filterMap]
  constructor
  · rintro ⟨d, hd, ht⟩
    cases d <;> cases ht
    exact hd
  · exact fun h => ⟨_, h, rfl⟩

theorem mem_directiveDefs {doc : Document} {d : DirectiveDef} : d ∈ directiveDefs doc ↔ .directive d ∈ doc := by
  rw [directiveDefs, List.mem_filterMap]
  constructor
  · rintro ⟨e, he, hd⟩
    cases e <;> cases hd
    exact he
  · exact fun h => ⟨_, h, rfl⟩

/-- Definitions that are not what every schema has. -/
def OwnKeys (doc : Document) : Prop := ∀ d ∈ doc, ∀ key ∈ DefinitionKey.of? d, key.isBuiltin = false

theorem OwnKeys.type {doc : Document} (h : OwnKeys doc) {t : TypeDef} (ht : t ∈ typeDefs doc) :
    isReserved t.name = false ∧ builtinScalars.contains t.name = false :=
  Bool.or_eq_false_iff.mp (h _ (mem_typeDefs.mp ht) _ rfl)

theorem OwnKeys.directive {doc : Document} (h : OwnKeys doc) {d : DirectiveDef} (hd : d ∈ directiveDefs doc) :
    builtinDirectives.contains d.name = false :=
  h _ (mem_directiveDefs.mp hd) _ rfl

/-- Directives with keys of their own follow the built-in ones. -/
theorem addOwnDirectives_eq {doc : Document} (hn : (doc.filterMap DefinitionKey.of?).Nodup) (ho : OwnKeys doc) :
    (directiveDefs doc).foldlM addDirective Builtin.directives = pure (Builtin.directives ++ directiveDefs doc) := by
  apply addDirectives_eq
  rw [List.map_append, List.nodup_append]
  refine ⟨by decide, nodup_directiveDefs hn, fun n hb m hm he => ?_⟩
  obtain ⟨d, hd, rfl⟩ := List.mem_map.mp hm
  have hbuiltin : ∀ n ∈ Builtin.directives.map (·.name), builtinDirectives.contains n = true := by decide
  rw [he] at hb
  exact Bool.false_ne_true ((ho.directive hd).symm.trans (hbuiltin _ hb))

/-- **Where assembling reports nothing, the directives are the built-in ones and those of the document.** -/
theorem silently_directives {doc : Document} (hn : (doc.filterMap DefinitionKey.of?).Nodup) (ho : OwnKeys doc) :
    Silently (assemble doc) fun s => s.directives = Builtin.directives ++ directiveDefs doc := by
  rw [assemble, addOwnDirectives_eq hn ho]
  refine (silently_addTypes Builtin.types (typeDefs doc)).bind fun types => ?_
  refine (silently_extendTypes types (typeExtensions doc)).bind fun types' => ?_
  refine Silently.bind (Silently.pure rfl) fun directives => ?_
  refine (reports_baseDefinition doc types').bind fun base => ?_
  refine (reports_foldlM reports_extendSchema (schemaExtensions doc) base).bind fun definition => ?_
  exact Silently.pure fun _ _ hdirectives _ _ => hdirectives.symm

/-! ## Documents that fit -/

theorem typeExtensions_eq_nil {doc : Document} (h : ∀ d ∈ doc, d.isExtension = false) : typeExtensions doc = [] := by
  rw [typeExtensions, List.filterMap_eq_nil_iff]
  intro d hd
  have := h d hd
  cases d <;> first | rfl | cases this

theorem schemaExtensions_eq_nil {doc : Document} (h : ∀ d ∈ doc, d.isExtension = false) : schemaExtensions doc = [] := by
  rw [schemaExtensions, List.filterMap_eq_nil_iff]
  intro d hd
  have := h d hd
  cases d <;> first | rfl | cases this

/-- A document whose definitions can be put together without a report, and without extensions. -/
structure Fits (doc : Document) : Prop where
  keys : (doc.filterMap DefinitionKey.of?).Nodup
  own : OwnKeys doc
  complete : ∀ d ∈ doc, d.isExtension = false
  distinct : DistinctTypes (typeDefs doc)
  roots : ∀ d ∈ schemaDefs doc, (d.roots.map (·.1)).Nodup

/-- The schema of a document that fits: its definitions behind the built-in ones. -/
def composed (doc : Document) : Schema :=
  { applied := (schemaDefs doc).head?.elim [] (·.directives)
    roots := (schemaDefs doc).head?.elim (implicitRoots (Builtin.types ++ typeDefs doc)) (·.roots)
    directives := Builtin.directives ++ directiveDefs doc
    types := Builtin.types ++ typeDefs doc }

namespace Fits

variable {doc : Document} (h : Fits doc)

include h

theorem typeExtensions : typeExtensions doc = [] := typeExtensions_eq_nil h.complete

theorem schemaExtensions : schemaExtensions doc = [] := schemaExtensions_eq_nil h.complete

theorem names_nodup : (names (Builtin.types ++ typeDefs doc)).Nodup := by
  rw [names, List.map_append, List.nodup_append]
  refine ⟨by decide +kernel, nodup_typeDefs h.keys, fun n hb m hm he => ?_⟩
  obtain ⟨t, ht, rfl⟩ := List.mem_map.mp hm
  rw [he] at hb
  obtain ⟨b, hb, hname⟩ := List.mem_map.mp hb
  have hbuiltin := isBuiltin_of_mem_types b hb
  rw [hname] at hbuiltin
  exact Bool.false_ne_true ((h.own _ (mem_typeDefs.mp ht) _ rfl).symm.trans hbuiltin)

/-- **Assembling a document that fits reports nothing and gives its definitions.** -/
theorem assemble_eq : assemble doc = pure (composed doc) := by
  have htypes := addTypes_eq h.names_nodup (fun d hd => (h.own.type hd).2) h.distinct
  rw [assemble, htypes, h.typeExtensions, addOwnDirectives_eq h.keys h.own, h.schemaExtensions]
  simp only [pure_bind, List.foldlM_nil, baseDefinition, composed]
  rcases schemaDefs_of_nodup h.keys with hnone | ⟨d, hd⟩
  · simp only [hnone]
    generalize implicitRoots (Builtin.types ++ typeDefs doc) = roots
    cases roots <;> rfl
  · have hroots : addRoots [] d.roots = pure d.roots :=
      addRoots_eq (h.roots d (by rw [hd]; exact List.mem_cons_self))
    simp only [hd, hroots]
    rfl

end Fits

end Schema

end SchemaWeave
