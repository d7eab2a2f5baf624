import SchemaWeave.Proofs.Schema.Rebuild

/-!
# Names that a schema refers to

A definition is within a scope if the scope has all the names that it refers to (`Definition.Within`). A type, a directive
or the target of an extension that is not there is reported as missing under its name (`Diagnostic.isMissing`).
Definitions within a scope that has just the types there are assemble to a schema within the scope, and nothing is
reported as missing, whatever else is reported (`finds_assemble`).
-/

namespace SchemaWeave

open Graphql

/-! ## Names that are referred to -/

namespace Graphql

/-- The directives applied to a field and to its arguments. -/
def FieldDef.applied (f : FieldDef) : List Directive := f.directives ++ f.arguments.flatMap (·.directives)

/-- The types that the content of a type refers to, beside the interfaces that it implements. -/
def TypeBody.named (b : TypeBody) : List Name :=
  b.members ++ b.fields.flatMap Schema.fieldReferences ++ b.inputs.map (·.type.core)

/-- The directives applied to the members of a type. -/
def TypeBody.applied (b : TypeBody) : List Directive :=
  b.fields.flatMap FieldDef.applied ++ b.values.flatMap (·.directives) ++ b.inputs.flatMap (·.directives)

namespace Definition

/-- The types that a definition refers to, beside interfaces that are implemented. An extension refers to the type it
extends. -/
def named : Definition → List Name
  | operation | fragment => []
  | schema d => d.roots.map (·.2)
  | directive d => d.arguments.map (·.type.core)
  | type t => t.body.named
  | schemaExtension e => e.roots.map (·.2)
  | typeExtension e => e.name :: e.body.named

/-- The interfaces that a definition implements. -/
def interfaces : Definition → List Name
  | type t => t.body.interfaces
  | typeExtension e => e.body.interfaces
  | _ => []

/-- The directives applied to a definition and within it. -/
def applied : Definition → List Directive
  | operation | fragment => []
  | schema d => d.directives
  | directive d => d.arguments.flatMap (·.directives)
  | type t => t.directives ++ t.body.applied
  | schemaExtension e => e.directives
  | typeExtension e => e.directives ++ e.body.applied

end Definition

/-- The names that may be referred to. -/
structure Scope where
  type : Name → Prop
  interface : Name → Prop
  directive : Name → Prop

section

variable (σ : Scope)

/-- The directives are those of the scope. -/
def Scope.Applies (ds : List Directive) : Prop := ∀ a ∈ ds, σ.directive a.name

structure InputDef.Within (d : InputDef) : Prop where
  type : σ.type d.type.core
  directives : σ.Applies d.directives

structure FieldDef.Within (f : FieldDef) : Prop where
  type : σ.type f.type.core
  arguments : ∀ a ∈ f.arguments, a.Within σ
  directives : σ.Applies f.directives

structure TypeBody.Within (b : TypeBody) : Prop where
  interfaces : ∀ n ∈ b.interfaces, σ.interface n
  members : ∀ n ∈ b.members, σ.type n
  fields : ∀ f ∈ b.fields, f.Within σ
  values : ∀ v ∈ b.values, σ.Applies v.directives
  inputs : ∀ d ∈ b.inputs, d.Within σ

structure TypeDef.Within (t : TypeDef) : Prop where
  directives : σ.Applies t.directives
  body : t.body.Within σ

/-- The scope has every name that the definition refers to. -/
structure Definition.Within (d : Definition) : Prop where
  named : ∀ n ∈ d.named, σ.type n
  interfaces : ∀ n ∈ d.interfaces, σ.interface n
  applied : σ.Applies d.applied

end

section

variable {σ : Scope}

theorem TypeBody.within_of {b : TypeBody} (hnamed : ∀ n ∈ b.named, σ.type n) (hinterfaces : ∀ n ∈ b.interfaces, σ.interface n)
    (happlied : σ.Applies b.applied) : b.Within σ := by
  simp only [TypeBody.named, List.mem_append, List.mem_flatMap, List.mem_map, Schema.fieldReferences, List.mem_cons] at hnamed
  simp only [Scope.Applies, TypeBody.applied, FieldDef.applied, List.mem_append, List.mem_flatMap] at happlied
  refine ⟨hinterfaces, fun n hn => hnamed n (.inl (.inl hn)), fun f hf => ⟨?_, fun a ha => ⟨?_, ?_⟩, ?_⟩, fun v hv a ha => ?_,
    fun d hd => ⟨?_, fun a ha => ?_⟩⟩
  · exact hnamed _ (.inl (.inr ⟨f, hf, .inl rfl⟩))
  · exact hnamed _ (.inl (.inr ⟨f, hf, .inr ⟨a, ha, rfl⟩⟩))
  · exact fun e he => happlied e (.inl (.inl ⟨f, hf, .inr ⟨a, ha, he⟩⟩))
  · exact fun e he => happlied e (.inl (.inl ⟨f, hf, .inl he⟩))
  · exact happlied a (.inl (.inr ⟨v, hv, ha⟩))
  · exact hnamed _ (.inr ⟨d, hd, rfl⟩)
  · exact happlied a (.inr ⟨d, hd, ha⟩)

theorem Definition.Within.typeDef {t : TypeDef} (h : (Definition.type t).Within σ) : t.Within σ :=
  ⟨fun a ha => h.applied a (List.mem_append_left _ ha),
    TypeBody.within_of h.named h.interfaces fun a ha => h.applied a (List.mem_append_right _ ha)⟩

theorem Definition.Within.typeExtension {e : TypeExtension} (h : (Definition.typeExtension e).Within σ) :
    σ.Applies e.directives ∧ e.body.Within σ :=
  ⟨fun a ha => h.applied a (List.mem_append_left _ ha),
    TypeBody.within_of (fun n hn => h.named n (List.mem_cons_of_mem _ hn)) h.interfaces
      fun a ha => h.applied a (List.mem_append_right _ ha)⟩

theorem Definition.Within.arguments {d : DirectiveDef} (h : (Definition.directive d).Within σ) :
    ∀ a ∈ d.arguments, a.Within σ := fun a ha =>
  ⟨h.named _ (List.mem_map_of_mem ha), fun e he => h.applied e (List.mem_flatMap.mpr ⟨a, ha, he⟩)⟩

end

end Graphql

namespace Schema

/-- A diagnostic for a name that stands for nothing. -/
def Diagnostic.isMissing : Diagnostic → Bool
  | orphanTypeExtension _ | unknownType _ | unknownDirective _ => true
  | _ => false

/-! ## Assembling -/

/-- The computation reports nothing missing, whatever else it reports, and its result is as the predicate says. -/
def Finds {α : Type} (x : Reported α) (P : α → Prop) : Prop :=
  ∃ a more, (∀ ds, x.run ds = (a, ds ++ more)) ∧ (∀ d ∈ more, d.isMissing = false) ∧ P a

section

variable {α β : Type} {P : α → Prop} {Q : β → Prop}

theorem Finds.pure {a : α} (h : P a) : Finds (Pure.pure a) P :=
  ⟨a, [], fun ds => by rw [List.append_nil]; rfl, List.forall_mem_nil _, h⟩

theorem Finds.bind {x : Reported α} {f : α → Reported β} (hx : Finds x P) (hf : ∀ a, P a → Finds (f a) Q) :
    Finds (x >>= f) Q := by
  obtain ⟨a, more, hrun, hmore, ha⟩ := hx
  obtain ⟨b, more', hrun', hmore', hb⟩ := hf a ha
  refine ⟨b, more ++ more', fun ds => ?_, List.forall_mem_append.mpr ⟨hmore, hmore'⟩, hb⟩
  rw [StateT.run_bind, hrun, ← List.append_assoc]
  exact hrun' (ds ++ more)

theorem finds_report {d : Diagnostic} (hd : d.isMissing = false) : Finds (report d) fun _ => True :=
  ⟨(), [d], fun _ => rfl, List.forall_mem_singleton.mpr hd, True.intro⟩

theorem Finds.mono {P' : α → Prop} {x : Reported α} (hx : Finds x P) (h : ∀ a, P a → P' a) : Finds x P' := by
  obtain ⟨a, more, hrun, hmore, ha⟩ := hx
  exact ⟨a, more, hrun, hmore, h a ha⟩

/-- What each step of a fold keeps, with the elements so far, holds at its end. -/
theorem Finds.foldlM (done : List α) {f : β → α → Reported β} {I : List α → β → Prop} {l : List α}
    (h : ∀ done b, ∀ a ∈ l, I done b → Finds (f b a) (I (done ++ [a]))) {b : β} (hb : I done b) :
    Finds (l.foldlM f b) (I (done ++ l)) := by
  induction l generalizing done b with
  | nil => exact Finds.pure (by rwa [List.append_nil])
  | cons a l ih =>
    rw [List.foldlM_cons]
    refine (h done b a List.mem_cons_self hb).bind fun b' hb' => ?_
    have hrest := ih _ (fun done b a ha => h done b a (List.mem_cons_of_mem _ ha)) hb'
    rwa [List.append_assoc, List.singleton_append] at hrest

/-- The result of a computation, and what it reports. -/
theorem Finds.run {x : Reported α} (hx : Finds x P) {a : α} {ds : List Diagnostic} (h : x.run [] = (a, ds)) :
    P a ∧ ∀ d ∈ ds, d.isMissing = false := by
  obtain ⟨a', more, hrun, hmore, ha⟩ := hx
  rw [hrun, List.nil_append] at h
  cases h
  exact ⟨ha, hmore⟩

end

/-! ### Members -/

/-- Members that are kept were there before or were added. -/
theorem finds_keepFirst {α : Type} (name : α → Name) {duplicate : Name → Diagnostic}
    (hd : ∀ n, (duplicate n).isMissing = false) (more present : List α) :
    Finds (keepFirst name duplicate present more) fun r => ∀ a ∈ r, a ∈ present ∨ a ∈ more := by
  induction more generalizing present with
  | nil => exact Finds.pure fun a ha => .inl ha
  | cons a more ih =>
    rw [keepFirst]
    split_ifs
    · refine (finds_report (hd _)).bind fun _ _ => (ih present).mono fun r hr b hb => ?_
      exact (hr b hb).imp_right (List.mem_cons_of_mem a)
    · refine (ih (present ++ [a])).mono fun r hr b hb => ?_
      rw [List.mem_cons, ← or_assoc]
      exact (hr b hb).imp_left fun hb => (List.mem_append.mp hb).imp_right List.mem_singleton.mp

section

variable {σ : Scope}

/-- Content that is added leaves the kind, and is within the scope if both parts are. -/
theorem finds_addContent {type : Name} {present more : TypeBody} {x : Reported TypeBody}
    (hx : addContent type present more = some x) (hp : present.Within σ) (hm : more.Within σ) :
    Finds x fun b => b.kind = present.kind ∧ b.Within σ := by
  cases present <;> cases more <;> cases hx
  case scalar.scalar => exact Finds.pure ⟨rfl, hp⟩
  case object.object =>
    refine (finds_keepFirst _ (fun _ => rfl) _ _).bind fun is his => ?_
    refine (finds_keepFirst _ (fun _ => rfl) _ _).bind fun fs hfs => Finds.pure ⟨rfl, ?_⟩
    exact { hp with
      interfaces := fun n hn => (his n hn).elim (hp.interfaces n) (hm.interfaces n)
      fields := fun f hf => (hfs f hf).elim (hp.fields f) (hm.fields f) }
  case interface.interface =>
    refine (finds_keepFirst _ (fun _ => rfl) _ _).bind fun is his => ?_
    refine (finds_keepFirst _ (fun _ => rfl) _ _).bind fun fs hfs => Finds.pure ⟨rfl, ?_⟩
    exact { hp with
      interfaces := fun n hn => (his n hn).elim (hp.interfaces n) (hm.interfaces n)
      fields := fun f hf => (hfs f hf).elim (hp.fields f) (hm.fields f) }
  case union.union =>
    refine (finds_keepFirst _ (fun _ => rfl) _ _).bind fun ms hms => Finds.pure ⟨rfl, ?_⟩
    exact { hp with members := fun n hn => (hms n hn).elim (hp.members n) (hm.members n) }
  case enum.enum =>
    refine (finds_keepFirst _ (fun _ => rfl) _ _).bind fun vs hvs => Finds.pure ⟨rfl, ?_⟩
    exact { hp with values := fun v hv => (hvs v hv).elim (hp.values v) (hm.values v) }
  case inputObject.inputObject =>
    refine (finds_keepFirst _ (fun _ => rfl) _ _).bind fun ds hds => Finds.pure ⟨rfl, ?_⟩
    exact { hp with inputs := fun d hd => (hds d hd).elim (hp.inputs d) (hm.inputs d) }

theorem within_emptyContent (kind : TypeKind) : (emptyContent kind).Within σ := by
  cases kind <;> constructor <;> exact List.forall_mem_nil _

theorem finds_collect {d : TypeDef} (h : d.Within σ) :
    Finds (collect d) fun t => t.name = d.name ∧ t.kind = d.kind ∧ t.Within σ := by
  have hbody : Finds ((addContent d.name (emptyContent d.kind) d.body).getD (Pure.pure d.body))
      fun b => b.kind = d.kind ∧ b.Within σ := by
    cases hx : addContent d.name (emptyContent d.kind) d.body with
    | none => exact Finds.pure ⟨rfl, h.body⟩
    | some x =>
      have hadded := finds_addContent hx (within_emptyContent _) h.body
      rwa [kind_emptyContent] at hadded
  exact hbody.bind fun body hbody => Finds.pure ⟨rfl, hbody.1, h.directives, hbody.2⟩

/-! ### Types -/

/-- Types within a scope that have the names of some definitions, each with the kind of a definition of its name. -/
structure TypesWithin (σ : Scope) (types defs : List TypeDef) : Prop where
  within : ∀ t ∈ types, t.Within σ
  mem_names : ∀ n, n ∈ names types ↔ n ∈ names defs
  kinds : ∀ t ∈ types, ∃ d ∈ defs, d.name = t.name ∧ d.kind = t.kind

theorem finds_addType {types defs : List TypeDef} (h : TypesWithin σ types defs)
    (hscalars : ∀ n ∈ builtinScalars, n ∈ names defs) {d : TypeDef} (hd : d.Within σ) :
    Finds (addType types d) (TypesWithin σ · (defs ++ [d])) := by
  have hnames (n : Name) : n ∈ names (defs ++ [d]) ↔ n ∈ names defs ∨ n = d.name := by
    rw [names, List.map_append, List.mem_append, List.map_singleton, List.mem_singleton, names]
  have hkinds : ∀ t ∈ types, ∃ d' ∈ defs ++ [d], d'.name = t.name ∧ d'.kind = t.kind := by
    intro t ht
    obtain ⟨d', hd', hsame⟩ := h.kinds t ht
    exact ⟨d', List.mem_append_left _ hd', hsame⟩
  have hkept (hn : d.name ∈ names defs) : TypesWithin σ types (defs ++ [d]) := by
    refine ⟨h.within, fun n => ?_, hkinds⟩
    rw [h.mem_names, hnames]
    exact ⟨.inl, fun hor => hor.elim id fun he => he ▸ hn⟩
  rw [addType]
  split_ifs with hscalar hany
  · exact (finds_report rfl).bind fun _ _ => Finds.pure (hkept (hscalars _ (List.contains_iff_mem.mp hscalar)))
  · refine (finds_report rfl).bind fun _ _ => Finds.pure (hkept ((h.mem_names _).mp ?_))
    obtain ⟨t, ht, he⟩ := List.any_eq_true.mp hany
    exact List.mem_map.mpr ⟨t, ht, beq_iff_eq.mp he⟩
  · refine (finds_collect hd).bind fun t hcollected => ?_
    obtain ⟨hname, hkind, ht⟩ := hcollected
    refine Finds.pure ⟨?_, fun n => ?_, ?_⟩
    · exact List.forall_mem_append.mpr ⟨h.within, List.forall_mem_singleton.mpr ht⟩
    · rw [names, List.map_append, List.mem_append, ← names, h.mem_names, hnames, List.map_singleton, List.mem_singleton,
        hname]
    · refine List.forall_mem_append.mpr ⟨hkinds, List.forall_mem_singleton.mpr ?_⟩
      exact ⟨d, List.mem_append_right _ (List.mem_singleton_self d), hname.symm, hkind.symm⟩

theorem finds_addTypes {types added : List TypeDef} (ht : ∀ t ∈ types, t.Within σ)
    (hscalars : ∀ n ∈ builtinScalars, n ∈ names types) (ha : ∀ d ∈ added, d.Within σ) :
    Finds (added.foldlM addType types) (TypesWithin σ · (types ++ added)) := by
  refine (Finds.foldlM [] (I := fun done result => TypesWithin σ result (types ++ done)) ?_ ?_).mono
    fun _ h => h
  · intro done result d hd h
    rw [← List.append_assoc]
    refine finds_addType h (fun n hn => ?_) (ha d hd)
    rw [names, List.map_append]
    exact List.mem_append_left _ (hscalars n hn)
  · rw [List.append_nil]
    exact ⟨ht, fun _ => Iff.rfl, fun t ht => ⟨t, ht, rfl, rfl⟩⟩

/-- The names of types with their kinds. -/
def headings (types : List TypeDef) : List (Name × TypeKind) := types.map fun t => (t.name, t.kind)

/-- Types with other members. -/
theorem TypesWithin.of_headings {types types' defs : List TypeDef} (h : TypesWithin σ types defs)
    (hwithin : ∀ t ∈ types', t.Within σ) (hheadings : headings types' = headings types) : TypesWithin σ types' defs := by
  refine ⟨hwithin, fun n => ?_, fun t ht => ?_⟩
  · have hnames (types : List TypeDef) : names types = (headings types).map (·.1) := by
      rw [headings, List.map_map]
      rfl
    rw [hnames, hheadings, ← hnames, h.mem_names]
  · have hmem : (t.name, t.kind) ∈ headings types := hheadings ▸ List.mem_map_of_mem ht
    obtain ⟨u, hu, he⟩ := List.mem_map.mp hmem
    obtain ⟨hname, hkind⟩ := Prod.mk.inj he
    obtain ⟨d, hd, hdname, hdkind⟩ := h.kinds u hu
    exact ⟨d, hd, hdname.trans hname, hdkind.trans hkind⟩

/-- An extension whose target is there finds it, and adds what is within the scope. -/
theorem finds_extendType {e : TypeExtension} (hd : σ.Applies e.directives) (hb : e.body.Within σ) {types : List TypeDef}
    (h : ∀ t ∈ types, t.Within σ) (he : e.name ∈ names types) :
    Finds (extendType e types) fun result => (∀ t ∈ result, t.Within σ) ∧ headings result = headings types := by
  induction types with
  | nil => cases he
  | cons t types ih =>
    obtain ⟨ht, htypes⟩ := List.forall_mem_cons.mp h
    rw [extendType]
    split_ifs with hname
    · cases hx : addContent t.name t.body e.body with
      | none => exact (finds_report rfl).bind fun _ _ => Finds.pure ⟨h, rfl⟩
      | some x =>
        refine (finds_addContent hx ht.body hb).bind fun body hbody => Finds.pure ⟨?_, ?_⟩
        · exact List.forall_mem_cons.mpr ⟨⟨List.forall_mem_append.mpr ⟨ht.directives, hd⟩, hbody.2⟩, htypes⟩
        · exact congrArg (fun kind => (t.name, kind) :: headings types) hbody.1
    · have hne : e.name ≠ t.name := fun heq => hname (beq_iff_eq.mpr heq.symm)
      have hrest := ih htypes ((List.mem_cons.mp he).resolve_left hne)
      refine hrest.bind fun result hr => Finds.pure ⟨List.forall_mem_cons.mpr ⟨ht, hr.1⟩, ?_⟩
      exact congrArg ((t.name, t.kind) :: ·) hr.2

theorem finds_extendTypes {es : List TypeExtension} {types defs : List TypeDef} (h : TypesWithin σ types defs)
    (hes : ∀ e ∈ es, (Definition.typeExtension e).Within σ ∧ e.name ∈ names defs) :
    Finds (es.foldlM (fun types e => extendType e types) types) (TypesWithin σ · defs) := by
  refine Finds.foldlM [] (I := fun _ result => TypesWithin σ result defs) ?_ h
  intro _ result e he h
  obtain ⟨hwithin, htarget⟩ := hes e he
  obtain ⟨hdirectives, hbody⟩ := hwithin.typeExtension
  exact (finds_extendType hdirectives hbody h.within ((h.mem_names _).mpr htarget)).mono fun r hr =>
    h.of_headings hr.1 hr.2

/-! ### Directives -/

/-- Directive definitions within a scope, and their names. -/
structure DirectivesWithin (σ : Scope) (ds : List DirectiveDef) (present : List Name) : Prop where
  within : ∀ d ∈ ds, ∀ a ∈ d.arguments, a.Within σ
  mem_names : ∀ n, n ∈ ds.map (·.name) ↔ n ∈ present

theorem finds_addDirective {ds : List DirectiveDef} {present : List Name} (h : DirectivesWithin σ ds present)
    {d : DirectiveDef} (hd : ∀ a ∈ d.arguments, a.Within σ) :
    Finds (addDirective ds d) (DirectivesWithin σ · (present ++ [d.name])) := by
  rw [addDirective]
  cases hf : ds.find? (·.name == d.name) with
  | none =>
    refine Finds.pure ⟨List.forall_mem_append.mpr ⟨h.within, List.forall_mem_singleton.mpr hd⟩, fun n => ?_⟩
    rw [List.map_append, List.mem_append, List.mem_append, h.mem_names, List.map_singleton]
  | some d' =>
    have hn : d.name ∈ present := by
      have hname : d'.name = d.name := by simpa using List.find?_some hf
      exact (h.mem_names _).mp (List.mem_map.mpr ⟨d', List.mem_of_find?_eq_some hf, hname⟩)
    have hpresent (n : Name) : n ∈ present ++ [d.name] ↔ n ∈ present := by
      rw [List.mem_append, List.mem_singleton]
      exact ⟨fun hor => hor.elim id fun he => he ▸ hn, .inl⟩
    have hnames : (ds.map fun d' => if d'.name == d.name then d else d').map (·.name) = ds.map (·.name) := by
      rw [List.map_map]
      refine List.map_congr_left fun e _ => ?_
      rw [Function.comp_apply]
      split_ifs with he
      · exact (beq_iff_eq.mp he).symm
      · rfl
    dsimp only
    split_ifs
    · refine Finds.pure ⟨List.forall_mem_map.mpr fun e he => ?_, fun n => ?_⟩
      · split_ifs
        · exact hd
        · exact h.within e he
      · rw [hnames, h.mem_names, hpresent]
    · exact (finds_report rfl).bind fun _ _ => Finds.pure ⟨h.within, fun n => by rw [h.mem_names, hpresent]⟩

theorem finds_addDirectives {ds added : List DirectiveDef} (hd : ∀ d ∈ ds, ∀ a ∈ d.arguments, a.Within σ)
    (ha : ∀ d ∈ added, ∀ a ∈ d.arguments, a.Within σ) :
    Finds (added.foldlM addDirective ds) (DirectivesWithin σ · ((ds ++ added).map (·.name))) := by
  refine (Finds.foldlM [] (I := fun done result => DirectivesWithin σ result ((ds ++ done).map (·.name)))
    ?_ ?_).mono fun _ h => h
  · intro done result d hmem h
    simpa using finds_addDirective h (ha d hmem)
  · exact ⟨hd, fun n => by rw [List.append_nil]⟩

/-! ### The definition of the schema -/

/-- The roots and applied directives of a schema definition are within a scope. -/
structure SchemaWithin (σ : Scope) (d : SchemaDef) : Prop where
  roots : ∀ r ∈ d.roots, σ.type r.2
  directives : σ.Applies d.directives

theorem finds_addRoots (present more : List (OperationKind × Name)) :
    Finds (addRoots present more) fun roots => ∀ r ∈ roots, r ∈ present ∨ r ∈ more := by
  rw [addRoots]
  refine (Finds.foldlM [] (I := fun done roots => ∀ r ∈ roots, r ∈ present ∨ r ∈ done) ?_ ?_).mono fun _ h => h
  · intro done roots root _ h
    have hkept : ∀ r ∈ roots, r ∈ present ∨ r ∈ done ++ [root] := fun r hr =>
      (h r hr).imp_right (List.mem_append_left _)
    split_ifs
    · exact (finds_report rfl).bind fun _ _ => Finds.pure hkept
    · refine Finds.pure (List.forall_mem_append.mpr ⟨hkept, List.forall_mem_singleton.mpr ?_⟩)
      exact .inr (List.mem_append_right _ (List.mem_singleton_self root))
  · exact fun r hr => .inl hr

/-- The roots that types have by their names are types. -/
theorem mem_names_of_implicitRoots {types : List TypeDef} {r : OperationKind × Name} (hr : r ∈ implicitRoots types) :
    r.2 ∈ names types := by
  obtain ⟨kind, -, hk⟩ := List.mem_filterMap.mp hr
  dsimp only at hk
  split at hk
  · next t ht =>
    split_ifs at hk
    cases hk
    exact List.mem_map.mpr ⟨t, List.mem_of_find?_eq_some ht, by simpa using List.find?_some ht⟩
  · cases hk

theorem finds_baseDefinition {doc : Document} {types : List TypeDef} (hdefs : ∀ d ∈ schemaDefs doc, SchemaWithin σ d)
    (htypes : ∀ n ∈ names types, σ.type n) :
    Finds (baseDefinition doc types) fun base => ∀ d ∈ base, SchemaWithin σ d := by
  rw [baseDefinition]
  cases hd : schemaDefs doc with
  | nil =>
    refine Finds.pure fun d hmem => ?_
    split_ifs at hmem
    · cases hmem
    · cases hmem
      exact ⟨fun r hr => htypes _ (mem_names_of_implicitRoots hr), List.forall_mem_nil _⟩
  | cons d others =>
    rw [hd] at hdefs
    have hwithin := hdefs d List.mem_cons_self
    have hothers : Finds (others.forM fun _ => report .multipleSchemas) fun _ => True := by
      clear hd hdefs
      induction others with
      | nil => exact Finds.pure True.intro
      | cons _ others ih =>
        rw [List.forM]
        exact (finds_report rfl).bind fun _ _ => ih
    refine hothers.bind fun _ _ => (finds_addRoots [] d.roots).bind fun roots hroots => Finds.pure fun d' hmem => ?_
    cases hmem
    exact ⟨fun r hr => (hroots r hr).elim (fun hn => absurd hn List.not_mem_nil) (hwithin.roots r), hwithin.directives⟩

theorem finds_extendSchema {base : Option SchemaDef} {e : SchemaExtension} (hb : ∀ d ∈ base, SchemaWithin σ d)
    (he : (Definition.schemaExtension e).Within σ) :
    Finds (extendSchema base e) fun definition => ∀ d ∈ definition, SchemaWithin σ d := by
  cases base with
  | none => exact (finds_report rfl).bind fun _ _ => Finds.pure fun d hd => by cases hd
  | some d =>
    have hd := hb d rfl
    refine (finds_addRoots d.roots e.roots).bind fun roots hroots => Finds.pure fun d' hmem => ?_
    cases hmem
    refine ⟨fun r hr => (hroots r hr).elim (hd.roots r) fun hr => ?_, List.forall_mem_append.mpr ⟨hd.directives, he.applied⟩⟩
    exact he.named _ (List.mem_map_of_mem hr)

/-! ### The whole schema -/

/-- The scope has every name that the schema refers to. -/
structure Within (σ : Scope) (s : Schema) : Prop where
  types : ∀ t ∈ s.types, t.Within σ
  directives : ∀ d ∈ s.directives, ∀ a ∈ d.arguments, a.Within σ
  roots : ∀ r ∈ s.roots, σ.type r.2
  applied : σ.Applies s.applied

omit σ in
/-- The built-in definitions refer to built-in types only, and have neither interfaces nor directives. -/
theorem builtin_named : (∀ t ∈ Builtin.types, (∀ n ∈ t.body.named, n ∈ names Builtin.types) ∧ t.body.interfaces = [] ∧
      t.directives = [] ∧ t.body.applied = []) ∧
    ∀ d ∈ Builtin.directives, ∀ a ∈ d.arguments, a.type.core ∈ names Builtin.types ∧ a.directives = [] := by
  decide +kernel

theorem within_builtin (h : ∀ n ∈ names Builtin.types, σ.type n) : (∀ t ∈ Builtin.types, t.Within σ) ∧
    ∀ d ∈ Builtin.directives, ∀ a ∈ d.arguments, a.Within σ := by
  refine ⟨fun t ht => ?_, fun d hd a ha => ?_⟩
  · obtain ⟨hnamed, hinterfaces, hdirectives, happlied⟩ := builtin_named.1 t ht
    refine ⟨?_, TypeBody.within_of (fun n hn => h n (hnamed n hn)) ?_ ?_⟩
    · rw [hdirectives]
      exact List.forall_mem_nil _
    · rw [hinterfaces]
      exact List.forall_mem_nil _
    · rw [happlied]
      exact List.forall_mem_nil _
  · obtain ⟨htype, hdirectives⟩ := builtin_named.2 d hd a ha
    refine ⟨h _ htype, ?_⟩
    rw [hdirectives]
    exact List.forall_mem_nil _

omit σ in
theorem mem_schemaDefs {doc : Document} {d : SchemaDef} (h : d ∈ schemaDefs doc) : .schema d ∈ doc := by
  obtain ⟨x, hx, hd⟩ := List.mem_filterMap.mp h
  cases x <;> cases hd
  exact hx

omit σ in
theorem mem_schemaExtensions {doc : Document} {e : SchemaExtension} (h : e ∈ schemaExtensions doc) :
    .schemaExtension e ∈ doc := by
  obtain ⟨x, hx, he⟩ := List.mem_filterMap.mp h
  cases x <;> cases he
  exact hx

/-- **Definitions within a scope that has just the types there are assemble to a schema within the scope.** Its types have
the names and kinds, and its directives the names, of what is built in and of what is defined; and nothing is reported as
missing, whatever else is reported. -/
theorem finds_assemble {doc : Document} (hdoc : ∀ d ∈ doc, d.Within σ)
    (htype : ∀ n, σ.type n ↔ n ∈ names (Builtin.types ++ typeDefs doc)) :
    Finds (assemble doc) fun s => s.Within σ ∧ TypesWithin σ s.types (Builtin.types ++ typeDefs doc) ∧
      ∀ n, n ∈ s.directives.map (·.name) ↔ n ∈ (Builtin.directives ++ directiveDefs doc).map (·.name) := by
  have hscalars : ∀ n ∈ builtinScalars, n ∈ names Builtin.types := by decide +kernel
  obtain ⟨hbtypes, hbdirectives⟩ := within_builtin (σ := σ) fun n hn => (htype n).mpr <| by
    rw [names, List.map_append]
    exact List.mem_append_left _ hn
  have hextensions : ∀ e ∈ typeExtensions doc,
      (Definition.typeExtension e).Within σ ∧ e.name ∈ names (Builtin.types ++ typeDefs doc) := fun e he =>
    have hwithin := hdoc _ (mem_typeExtensions he)
    ⟨hwithin, (htype _).mp (hwithin.named _ List.mem_cons_self)⟩
  rw [assemble]
  refine (finds_addTypes hbtypes hscalars fun d hd => (hdoc _ (mem_typeDefs.mp hd)).typeDef).bind fun types htypes => ?_
  refine (finds_extendTypes htypes hextensions).bind fun types htypes => ?_
  refine (finds_addDirectives hbdirectives fun d hd => (hdoc _ (mem_directiveDefs.mp hd)).arguments).bind
    fun directives hdirectives => ?_
  have hdefs : ∀ d ∈ schemaDefs doc, SchemaWithin σ d := fun d hd =>
    have hwithin := hdoc _ (mem_schemaDefs hd)
    ⟨fun r hr => hwithin.named _ (List.mem_map_of_mem hr), hwithin.applied⟩
  refine (finds_baseDefinition hdefs fun n hn => (htype n).mpr ((htypes.mem_names n).mp hn)).bind fun base hbase => ?_
  have hextended : Finds ((schemaExtensions doc).foldlM extendSchema base)
      fun definition => ∀ d ∈ definition, SchemaWithin σ d := by
    refine Finds.foldlM [] (I := fun _ definition => ∀ d ∈ definition, SchemaWithin σ d) ?_ hbase
    exact fun _ _ e he h => finds_extendSchema h (hdoc _ (mem_schemaExtensions he))
  refine hextended.bind fun definition hdefinition => Finds.pure ⟨?_, htypes, hdirectives.mem_names⟩
  have hwithin : SchemaWithin σ (definition.getD {}) := by
    cases definition with
    | none => exact ⟨List.forall_mem_nil _, List.forall_mem_nil _⟩
    | some d => exact hdefinition d rfl
  exact ⟨htypes.within, hdirectives.within, hwithin.roots, hwithin.directives⟩

end

end Schema

end SchemaWeave
