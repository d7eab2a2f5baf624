import Mathlib.Tactic.SplitIfs
import SchemaWeave.Proofs.Schema.Content
import SchemaWeave.Schema.Assembly

/-!
# Assembling a schema without a report

`Silently x P` says of a computation that reports diagnostics: if it reports none, its result is as `P` says.
Where nothing is reported, members are added whole (`silently_addContent`), definitions follow the built-in ones
(`silently_addTypes`), and every extension adds its content to the type it names (`silently_extendTypes`); so the
types of the schema are the built-in ones and those of the document, each extended (`silently_assemble`).
-/

namespace SchemaWeave.Schema

open Graphql

/-- If a computation reports nothing, its result is as the predicate says. Whether it does so is independent of
what was reported before. -/
def Silently {α : Type} (x : Reported α) (P : α → Prop) : Prop :=
  ∃ a more, (∀ ds, x.run ds = (a, ds ++ more)) ∧ (more = [] → P a)

/-! ## Computations -/

section

variable {α β : Type} {P : α → Prop} {Q : β → Prop}

theorem Silently.pure {a : α} (h : P a) : Silently (Pure.pure a) P :=
  ⟨a, [], fun ds => by rw [List.append_nil]; rfl, fun _ => h⟩

theorem Silently.bind {x : Reported α} {f : α → Reported β} (hx : Silently x P)
    (hf : ∀ a, Silently (f a) fun b => P a → Q b) : Silently (x >>= f) Q := by
  obtain ⟨a, more, hrun, ha⟩ := hx
  obtain ⟨b, more', hrun', hb⟩ := hf a
  refine ⟨b, more ++ more', fun ds => ?_, fun hnil => ?_⟩
  · rw [StateT.run_bind, hrun, ← List.append_assoc]
    exact hrun' (ds ++ more)
  · obtain ⟨hmore, hmore'⟩ := List.append_eq_nil_iff.mp hnil
    exact hb hmore' (ha hmore)

/-- A result after a report may be anything. -/
theorem silently_report (d : Diagnostic) {x : Reported β} (hx : Silently x fun _ => True) :
    Silently (report d >>= fun _ => x) Q := by
  obtain ⟨b, more, hrun, -⟩ := hx
  exact ⟨b, d :: more, fun ds => by
    rw [StateT.run_bind]
    exact (hrun (ds ++ [d])).trans (by rw [List.append_assoc, List.singleton_append]), fun h => by cases h⟩

theorem Silently.mono {P' : α → Prop} {x : Reported α} (hx : Silently x P) (h : ∀ a, P a → P' a) : Silently x P' := by
  obtain ⟨a, more, hrun, ha⟩ := hx
  exact ⟨a, more, hrun, fun hm => h a (ha hm)⟩

/-- What each step of a fold keeps, with the elements so far, holds at its end. -/
theorem Silently.foldlM {f : β → α → Reported β} {I : List α → β → Prop}
    (h : ∀ done b a, Silently (f b a) fun b' => I done b → I (done ++ [a]) b') (l done : List α) (b : β) :
    Silently (l.foldlM f b) fun r => I done b → I (done ++ l) r := by
  induction l generalizing done b with
  | nil => exact Silently.pure fun hb => by rwa [List.append_nil]
  | cons a l ih =>
    rw [List.foldlM_cons]
    refine (h done b a).bind fun b' => (ih (done ++ [a]) b').mono fun r hr hb' hb => ?_
    have := hr (hb' hb)
    rwa [List.append_assoc, List.singleton_append] at this

/-- The result of a computation that reports nothing. -/
theorem Silently.run {x : Reported α} (hx : Silently x P) {a : α} (h : x.run [] = (a, [])) : P a := by
  obtain ⟨a', more, hrun, ha⟩ := hx
  rw [hrun, List.nil_append] at h
  cases h
  exact ha rfl

end

/-! ## Members -/

theorem silently_keepFirst {α : Type} (name : α → Name) (duplicate : Name → Diagnostic) (more present : List α) :
    Silently (keepFirst name duplicate present more) (· = present ++ more) := by
  induction more generalizing present with
  | nil => exact Silently.pure (List.append_nil present).symm
  | cons a more ih =>
    rw [keepFirst]
    split_ifs
    · apply silently_report
      exact (ih present).mono fun _ _ => True.intro
    · refine (ih (present ++ [a])).mono fun r hr => ?_
      rw [hr, List.append_assoc, List.singleton_append]

/-- Content of one kind is added behind the other, and content of different kinds is not added. -/
theorem silently_addContent (type : Name) (present more : TypeBody) :
    match addContent type present more with
    | none => present.kind ≠ more.kind
    | some x => present.kind = more.kind ∧ Silently x (· = present.append more) := by
  cases present <;> cases more <;> try exact TypeKind.noConfusion
  case scalar.scalar => exact ⟨rfl, Silently.pure rfl⟩
  case object.object interfaces fields interfaces' fields' =>
    refine ⟨rfl, (silently_keepFirst _ _ interfaces' interfaces).bind fun is => ?_⟩
    refine (silently_keepFirst _ _ fields' fields).bind fun fs => Silently.pure fun hfs his => ?_
    rw [his, hfs]
    rfl
  case interface.interface interfaces fields interfaces' fields' =>
    refine ⟨rfl, (silently_keepFirst _ _ interfaces' interfaces).bind fun is => ?_⟩
    refine (silently_keepFirst _ _ fields' fields).bind fun fs => Silently.pure fun hfs his => ?_
    rw [his, hfs]
    rfl
  case union.union members members' =>
    exact ⟨rfl, (silently_keepFirst _ _ members' members).bind fun ms => Silently.pure fun hms => by rw [hms]; rfl⟩
  case enum.enum values values' =>
    exact ⟨rfl, (silently_keepFirst _ _ values' values).bind fun vs => Silently.pure fun hvs => by rw [hvs]; rfl⟩
  case inputObject.inputObject fields fields' =>
    exact ⟨rfl, (silently_keepFirst _ _ fields' fields).bind fun fs => Silently.pure fun hfs => by rw [hfs]; rfl⟩

theorem append_emptyContent (body : TypeBody) : (emptyContent body.kind).append body = body := by
  cases body <;> rfl

/-- A type definition without a member that comes twice is taken as it is. -/
theorem silently_collect (d : TypeDef) : Silently (collect d) (· = d) := by
  have h := silently_addContent d.name (emptyContent d.kind) d.body
  rw [collect]
  cases ha : addContent d.name (emptyContent d.kind) d.body with
  | none =>
    rw [ha] at h
    exact absurd (by rw [TypeDef.kind]; cases d.body <;> rfl) h
  | some x =>
    rw [ha] at h
    refine h.2.bind fun body => Silently.pure fun hbody => ?_
    rw [hbody, TypeDef.kind, append_emptyContent]

/-! ## Definitions -/

/-- The names of types. -/
def names (types : List TypeDef) : List Name := types.map (·.name)

/-- The types that are there when some definitions have been added: no two have one name, and none is a built-in
scalar. -/
structure Added (types added result : List TypeDef) : Prop where
  eq : result = types ++ added
  nodup : (names types).Nodup → (names result).Nodup
  notScalar : ∀ d ∈ added, builtinScalars.contains d.name = false

theorem silently_addType (types done result : List TypeDef) (d : TypeDef) :
    Silently (addType result d) fun result' => Added types done result → Added types (done ++ [d]) result' := by
  rw [addType]
  split_ifs with hscalar hany
  · exact silently_report _ (Silently.pure True.intro)
  · exact silently_report _ (Silently.pure True.intro)
  · refine (silently_collect d).bind fun d' => Silently.pure fun hd' h => ⟨?_, fun hn => ?_, ?_⟩
    · rw [hd', h.eq, List.append_assoc]
    · rw [hd', names, List.map_append, List.map_singleton, List.nodup_append]
      refine ⟨h.nodup hn, by simp, fun name hm name' hm' he => hany ?_⟩
      obtain ⟨t, ht, rfl⟩ := List.mem_map.mp hm
      rw [List.any_eq_true]
      exact ⟨t, ht, beq_iff_eq.mpr (he.trans (List.mem_singleton.mp hm'))⟩
    · intro e he
      rcases List.mem_append.mp he with he | he
      · exact h.notScalar e he
      · rw [List.mem_singleton.mp he]
        simpa using hscalar

/-- Definitions of types follow those that are there. -/
theorem silently_addTypes (types added : List TypeDef) : Silently (added.foldlM addType types) (Added types added) := by
  have hstep := fun done result d => silently_addType types done result d
  have h := Silently.foldlM (I := Added types) hstep added [] types
  exact h.mono fun r hr => hr ⟨(List.append_nil types).symm, id, fun _ hd => absurd hd List.not_mem_nil⟩

/-! ## Extensions -/

/-- The type that an extension names gets its content, and the content is of the kind of the type. -/
theorem silently_extendType (e : TypeExtension) (types : List TypeDef) :
    Silently (extendType e types) fun result => (names types).Nodup →
      result = types.map (fun t => if e.name = t.name then t.extend e else t) ∧
        ∀ t ∈ types, e.name = t.name → e.body.kind = t.kind := by
  induction types with
  | nil => exact silently_report _ (Silently.pure True.intro)
  | cons t types ih =>
    rw [extendType]
    split_ifs with hname
    · have h := silently_addContent t.name t.body e.body
      cases ha : addContent t.name t.body e.body with
      | none => exact silently_report _ (Silently.pure True.intro)
      | some x =>
        rw [ha] at h
        refine h.2.bind fun body => Silently.pure fun hbody hn => ?_
        have he : e.name = t.name := (beq_iff_eq.mp hname).symm
        have hother : ∀ u ∈ types, e.name ≠ u.name := by
          rw [names, List.map_cons, List.nodup_cons] at hn
          intro u hu heu
          exact hn.1 (List.mem_map.mpr ⟨u, hu, heu.symm.trans he⟩)
        constructor
        · rw [List.map_cons, if_pos he, hbody, TypeDef.extend]
          congr 1
          exact ((List.map_congr_left fun u hu => if_neg (hother u hu)).trans (List.map_id' types)).symm
        · intro u hu heu
          rcases List.mem_cons.mp hu with rfl | hu
          · exact h.1.symm
          · exact absurd heu (hother u hu)
    · have hne : e.name ≠ t.name := fun h => hname (beq_iff_eq.mpr h.symm)
      refine ih.bind fun result => Silently.pure fun hr hn => ?_
      rw [names, List.map_cons, List.nodup_cons] at hn
      obtain ⟨rfl, hkind⟩ := hr hn.2
      constructor
      · rw [List.map_cons, if_neg hne]
      · intro u hu heu
        rcases List.mem_cons.mp hu with rfl | hu
        · exact absurd heu hne
        · exact hkind u hu heu

/-- The types that are there when some extensions have been applied. -/
structure Extended (types : List TypeDef) (es : List TypeExtension) (result : List TypeDef) : Prop where
  eq : result = types.map (TypeDef.extended es)
  kind : ∀ e ∈ es, ∀ t ∈ types, e.name = t.name → e.body.kind = t.kind

theorem names_map_extended (es : List TypeExtension) (types : List TypeDef) :
    names (types.map (TypeDef.extended es)) = names types := by
  rw [names, List.map_map]
  exact List.map_congr_left fun t _ => (TypeDef.extended_eq es t).1

/-- Every extension adds its content to the type it names. -/
theorem silently_extendTypes (types : List TypeDef) (es : List TypeExtension) :
    Silently (es.foldlM (fun types e => extendType e types) types) fun result =>
      (names types).Nodup → Extended types es result := by
  have h := Silently.foldlM (f := fun types e => extendType e types)
    (I := fun done result => (names types).Nodup → Extended types done result) (fun done result e => ?_) es [] types
  · exact h.mono fun r hr => hr fun _ => ⟨(List.map_id' types).symm, fun _ he => absurd he List.not_mem_nil⟩
  · refine (silently_extendType e result).mono fun r hr hdone hn => ?_
    have hdone := hdone hn
    obtain ⟨rfl, hkind⟩ := hr (by rw [hdone.eq, names_map_extended]; exact hn)
    refine ⟨?_, fun e' he' t ht het => ?_⟩
    · rw [hdone.eq, List.map_map]
      refine List.map_congr_left fun t _ => ?_
      rw [Function.comp_apply, (TypeDef.extended_eq done t).1, TypeDef.extended_append]
    · rcases List.mem_append.mp he' with he' | he'
      · exact hdone.kind e' he' t ht het
      · rw [List.mem_singleton.mp he'] at het ⊢
        have := hkind (t.extended done) (by rw [hdone.eq]; exact List.mem_map_of_mem ht)
        rw [(TypeDef.extended_eq done t).1, (TypeDef.extended_eq done t).2.2] at this
        exact this het

/-! ## Documents -/

/-- A computation of which only the reports count. -/
def Reports {α : Type} (x : Reported α) : Prop := Silently x fun _ => True

theorem reports_foldlM {α β : Type} {f : β → α → Reported β} (h : ∀ b a, Reports (f b a)) (l : List α) (b : β) :
    Reports (l.foldlM f b) := by
  refine (Silently.foldlM (I := fun _ _ => True) ?_ l [] b).mono fun _ _ => True.intro
  intro _ b a
  exact (h b a).mono fun _ _ _ => True.intro

theorem reports_addDirective (directives : List DirectiveDef) (d : DirectiveDef) :
    Reports (addDirective directives d) := by
  rw [addDirective]
  split
  · exact Silently.pure True.intro
  · split_ifs
    · exact Silently.pure True.intro
    · exact silently_report _ (Silently.pure True.intro)

/-- Roots without a report are all added. -/
theorem silently_addRoots (present more : List (OperationKind × Name)) :
    Silently (addRoots present more) (· = present ++ more) := by
  induction more generalizing present with
  | nil => exact Silently.pure (List.append_nil present).symm
  | cons root more ih =>
    rw [addRoots, List.foldlM_cons]
    split_ifs
    · refine silently_report _ ((ih present).mono fun _ _ => True.intro)
    · refine (ih (present ++ [root])).mono fun roots hroots => ?_
      rw [hroots, List.append_assoc, List.singleton_append]

/-- The roots that a definition gives, if there is one. -/
def rootsOf (definition : Option SchemaDef) : List (OperationKind × Name) := definition.elim [] (·.roots)

/-- The roots that a document gives without its schema extensions: those of its definition, or those that types have by
their names. -/
def baseRoots (doc : Document) (types : List TypeDef) : List (OperationKind × Name) :=
  (schemaDefs doc).head?.elim (implicitRoots types) (·.roots)

theorem silently_baseDefinition (doc : Document) (types : List TypeDef) :
    Silently (baseDefinition doc types) fun base => rootsOf base = baseRoots doc types := by
  rw [baseDefinition, baseRoots]
  cases schemaDefs doc with
  | nil =>
    refine Silently.pure ?_
    dsimp only [List.head?_nil, Option.elim_none]
    cases implicitRoots types <;> rfl
  | cons d others =>
    have hothers : Reports (others.forM fun _ => report .multipleSchemas) := by
      induction others with
      | nil => exact Silently.pure True.intro
      | cons _ others ih =>
        rw [List.forM]
        exact silently_report _ ih
    exact hothers.bind fun _ => (silently_addRoots [] d.roots).bind fun _ => Silently.pure fun hroots _ => hroots

theorem silently_extendSchema (base : Option SchemaDef) (e : SchemaExtension) :
    Silently (extendSchema base e) fun definition => rootsOf definition = rootsOf base ++ e.roots := by
  cases base with
  | none => exact silently_report _ (Silently.pure True.intro)
  | some d => exact (silently_addRoots d.roots e.roots).bind fun _ => Silently.pure fun hroots => hroots

/-- Schema extensions add their roots in order. -/
theorem silently_extendSchemas (base : Option SchemaDef) (es : List SchemaExtension) :
    Silently (es.foldlM extendSchema base) fun definition =>
      rootsOf definition = rootsOf base ++ es.flatMap (·.roots) := by
  have h := Silently.foldlM (f := extendSchema)
    (I := fun done definition => rootsOf definition = rootsOf base ++ done.flatMap (·.roots))
    (fun done definition e => ?_) es [] base
  · exact h.mono fun definition hd => hd (List.append_nil _).symm
  · refine (silently_extendSchema definition e).mono fun r hr hdone => ?_
    rw [hr, hdone, List.flatMap_append, List.flatMap_singleton, List.append_assoc]

theorem reports_baseDefinition (doc : Document) (types : List TypeDef) : Reports (baseDefinition doc types) :=
  (silently_baseDefinition doc types).mono fun _ _ => True.intro

theorem reports_extendSchema (base : Option SchemaDef) (e : SchemaExtension) : Reports (extendSchema base e) :=
  (silently_extendSchema base e).mono fun _ _ => True.intro

/-- The types of a schema that is assembled from a document: the built-in ones and those of the document, extended. -/
structure AssembledTypes (doc : Document) (types : List TypeDef) : Prop where
  eq : types = (Builtin.types ++ typeDefs doc).map (TypeDef.extended (typeExtensions doc))
  nodup : (names types).Nodup
  notScalar : ∀ d ∈ typeDefs doc, builtinScalars.contains d.name = false
  kind : ∀ e ∈ typeExtensions doc, ∀ d ∈ typeDefs doc, e.name = d.name → e.body.kind = d.kind
  kindBuiltin : ∀ e ∈ typeExtensions doc, ∀ d ∈ Builtin.types, e.name = d.name → e.body.kind = d.kind

/-- **A document that is assembled without a report gives its types, extended, behind the built-in ones.** -/
theorem silently_assemble (doc : Document) : Silently (assemble doc) fun s => AssembledTypes doc s.types := by
  rw [assemble]
  refine (silently_addTypes Builtin.types (typeDefs doc)).bind fun types => ?_
  refine (silently_extendTypes types (typeExtensions doc)).bind fun types' => ?_
  refine (reports_foldlM reports_addDirective (directiveDefs doc) Builtin.directives).bind fun directives => ?_
  refine (reports_baseDefinition doc types').bind fun base => ?_
  refine (reports_foldlM reports_extendSchema (schemaExtensions doc) base).bind fun definition => ?_
  refine Silently.pure fun _ _ _ hextended hadded => ?_
  have hbuiltin : (names Builtin.types).Nodup := by decide +kernel
  have hn := hadded.nodup hbuiltin
  have hextended := hextended hn
  refine ⟨by rw [hextended.eq, hadded.eq], by rw [hextended.eq, names_map_extended]; exact hn, hadded.notScalar, ?_, ?_⟩
  · intro e he d hd
    exact hextended.kind e he d (by rw [hadded.eq]; exact List.mem_append_right _ hd)
  · intro e he d hd
    exact hextended.kind e he d (by rw [hadded.eq]; exact List.mem_append_left _ hd)

/-- **A document that is assembled without a report gives the roots of its schema definition, or those that types have by
their names, and those of its schema extensions behind them.** -/
theorem silently_roots (doc : Document) : Silently (assemble doc) fun s =>
    s.roots = baseRoots doc s.types ++ (schemaExtensions doc).flatMap (·.roots) := by
  rw [assemble]
  refine (silently_addTypes Builtin.types (typeDefs doc)).bind fun types => ?_
  refine (silently_extendTypes types (typeExtensions doc)).bind fun types' => ?_
  refine (reports_foldlM reports_addDirective (directiveDefs doc) Builtin.directives).bind fun directives => ?_
  refine (silently_baseDefinition doc types').bind fun base => ?_
  refine (silently_extendSchemas base (schemaExtensions doc)).bind fun definition => ?_
  refine Silently.pure fun hextended hbase _ _ _ => ?_
  rw [← hbase, ← hextended]
  cases definition <;> rfl

end SchemaWeave.Schema
