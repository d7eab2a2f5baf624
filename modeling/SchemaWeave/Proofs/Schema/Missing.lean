import SchemaWeave.Proofs.Schema.Scope

/-!
# What the rules report as missing

Each rule is shown to report nothing missing but what a schema lacks of the names that it refers to (`Schema.Lacks`):
directives of its scope that it does not define, and interfaces that are no interface types. All of them together then
report nothing else (`misses_diagnostics`).
-/

namespace SchemaWeave.Schema

open Graphql

/-- Of the diagnostics for missing names there are only such as the predicate says. -/
def Misses (P : Diagnostic → Prop) (ds : List Diagnostic) : Prop := ∀ d ∈ ds, d.isMissing = true → P d

section

variable {P : Diagnostic → Prop} {α : Type}

@[simp] theorem misses_nil : Misses P [] := fun _ h => absurd h List.not_mem_nil

@[simp] theorem misses_append {ds es : List Diagnostic} : Misses P (ds ++ es) ↔ Misses P ds ∧ Misses P es :=
  List.forall_mem_append

@[simp] theorem misses_flatMap {l : List α} {f : α → List Diagnostic} :
    Misses P (l.flatMap f) ↔ ∀ a ∈ l, Misses P (f a) := by
  simp only [Misses, List.mem_flatMap]
  exact ⟨fun h a ha d hd => h d ⟨a, ha, hd⟩, fun h d ⟨a, ha, hd⟩ => h a ha d hd⟩

/-- Other diagnostics do not count. -/
theorem misses_map {f : α → Diagnostic} (h : ∀ a, (f a).isMissing = false) (l : List α) : Misses P (l.map f) := by
  intro d hd hm
  obtain ⟨a, -, rfl⟩ := List.mem_map.mp hd
  rw [h a] at hm
  cases hm

theorem misses_singleton {d : Diagnostic} (h : d.isMissing = false) : Misses P [d] :=
  misses_map (f := fun _ : Unit => d) (fun _ => h) [()]

theorem misses_ite {c : Prop} [Decidable c] {ds es : List Diagnostic} (hd : Misses P ds) (he : Misses P es) :
    Misses P (if c then ds else es) := by
  split_ifs
  · exact hd
  · exact he

end

/-! ## Values -/

section

variable {P : Diagnostic → Prop}

theorem misses_checkScalarValue (t : TypeDef) (type : TypeExpr) (v : Value) {fits : List (Name × List Diagnostic)}
    (h : ∀ f ∈ fits, Misses P f.2) : Misses P (checkScalarValue t type v fits) := by
  rw [checkScalarValue]
  refine misses_ite misses_nil ?_
  split
  · next found hf =>
    obtain ⟨before, after, he, -⟩ := List.lookup_eq_some_iff.mp hf
    exact misses_ite (h (t.name, found) (by simp [he])) (misses_singleton rfl)
  · exact misses_singleton rfl

variable (s : Schema)

theorem misses_withType {type : TypeExpr} {rule : TypeDef → List Diagnostic} (h : ∀ t, Misses P (rule t)) :
    Misses P (s.withType type rule) := by
  rw [withType]
  split
  · exact misses_nil
  · exact h _

theorem misses_checkFinite (spelling : String) : Misses P (checkFinite spelling) :=
  misses_ite misses_nil (misses_singleton rfl)

mutual

/-- A value never misses a type: one whose type is not there is not looked at. -/
theorem misses_checkValue (type : TypeExpr) : ∀ v : Value, Misses P (s.checkValue type v)
  | .int spelling => by
    have hfits : ∀ f ∈ [("ID", []), ("Int", if fitsInt32 spelling then [] else [.intRange]),
        ("Float", checkFinite spelling)], Misses P f.2 := by
      simp only [List.forall_mem_cons, misses_nil, misses_checkFinite, true_and]
      exact ⟨misses_ite misses_nil (misses_singleton rfl), List.forall_mem_nil _⟩
    exact s.misses_withType fun t => misses_checkScalarValue t type _ hfits
  | .float spelling =>
    s.misses_withType fun t =>
      misses_checkScalarValue t type _ (List.forall_mem_singleton.mpr (misses_checkFinite spelling))
  | .string _ =>
    s.misses_withType fun t => misses_checkScalarValue t type _ (by simp)
  | .boolean _ => s.misses_withType fun t => misses_checkScalarValue t type _ (by simp)
  | .null => s.misses_withType fun _ => misses_ite (misses_singleton rfl) misses_nil
  | .enum name => by
    refine s.misses_withType fun t => ?_
    split
    · exact misses_ite misses_nil (misses_singleton rfl)
    · exact misses_checkScalarValue t type _ (List.forall_mem_nil _)
  | .var _ => s.misses_withType fun t => misses_checkScalarValue t type _ (List.forall_mem_nil _)
  | .list items => by
    rw [checkValue]
    refine s.misses_withType fun t => misses_ite (misses_ite (misses_checkItems _ items) ?_) ?_ <;>
      exact misses_singleton rfl
  | .object fields => by
    rw [checkValue]
    refine s.misses_withType fun t => ?_
    split
    · next defs _ =>
      refine misses_append.mpr ⟨misses_append.mpr ⟨?_, misses_map (fun _ => rfl) _⟩, misses_checkFields defs [] fields⟩
      split
      · exact misses_singleton rfl
      · exact misses_nil
    · exact misses_ite misses_nil (misses_singleton rfl)

theorem misses_checkItems (type : TypeExpr) : ∀ vs : List Value, Misses P (s.checkItems type vs)
  | [] => misses_nil
  | v :: vs => misses_append.mpr ⟨misses_checkValue type v, misses_checkItems type vs⟩

theorem misses_checkFields (defs : List InputDef) (seen : List Name) : ∀ fs : List (Name × Value),
    Misses P (s.checkFields defs seen fs)
  | [] => misses_nil
  | (name, v) :: fs => by
    rw [checkFields]
    refine misses_append.mpr ⟨misses_ite misses_nil ?_, misses_checkFields defs (name :: seen) fs⟩
    split
    · exact misses_nil
    · exact misses_checkValue _ v

end

end

/-! ## Directives -/

/-- What a schema lacks of the names of a scope: directives that it does not define, and interfaces that are no interface
types. -/
def Lacks (s : Schema) (σ : Scope) : Diagnostic → Prop
  | .unknownDirective n => σ.directive n ∧ s.directive? n = none
  | .unknownType n => σ.interface n ∧ interface? s n = none
  | _ => False

section

variable {s : Schema} {σ : Scope}

theorem misses_checkArguments (d : Directive) (definition : DirectiveDef) :
    Misses (s.Lacks σ) (s.checkArguments d definition) := by
  refine misses_append.mpr ⟨misses_flatMap.mpr fun argument _ => ?_, misses_map (fun _ => rfl) _⟩
  dsimp only
  split
  · exact misses_singleton rfl
  · exact s.misses_checkValue _ _

theorem misses_checkDirective {location : DirectiveLocation} {d : Directive} (h : σ.directive d.name) :
    Misses (s.Lacks σ) (s.checkDirective location d) := by
  refine misses_append.mpr ⟨misses_map (fun _ => rfl) _, ?_⟩
  split
  · next hnone =>
    intro diagnostic hd _
    rw [List.mem_singleton.mp hd]
    exact ⟨h, hnone⟩
  · exact misses_append.mpr ⟨misses_ite misses_nil (misses_singleton rfl), misses_checkArguments d _⟩

theorem misses_checkDirectives {location : DirectiveLocation} {ds : List Directive} (h : σ.Applies ds) :
    Misses (s.Lacks σ) (s.checkDirectives location ds) :=
  misses_append.mpr ⟨misses_flatMap.mpr fun d hd => misses_checkDirective (h d hd), misses_map (fun _ => rfl) _⟩

/-! ## Members -/

theorem misses_checkName (element : NamedElement) (name : Name) : Misses (s.Lacks σ) (checkName element name) :=
  misses_ite (misses_singleton rfl) misses_nil

theorem misses_checkNotEmpty {α : Type} {d : Diagnostic} (hd : d.isMissing = false) (members : List α) :
    Misses (s.Lacks σ) (checkNotEmpty d members) :=
  misses_ite (misses_singleton hd) misses_nil

variable (hscope : ∀ n, σ.type n → s.hasType n = true)

include hscope

/-- A type of the scope is there. -/
theorem misses_checkReference {allowed : TypeKind → Bool} {otherwise : Diagnostic} (ho : otherwise.isMissing = false)
    {e : TypeExpr} (he : σ.type e.core) : Misses (s.Lacks σ) (s.checkReference allowed otherwise e) := by
  obtain ⟨t, ht⟩ := Option.isSome_iff_exists.mp (hscope _ he)
  rw [checkReference, ht]
  exact misses_ite misses_nil (misses_singleton ho)

theorem misses_checkInput {element : NamedElement} {location : DirectiveLocation} {d : InputDef} (h : d.Within σ) :
    Misses (s.Lacks σ) (s.checkInput element location d) :=
  misses_append.mpr ⟨misses_append.mpr ⟨misses_checkName _ _, misses_checkDirectives h.directives⟩,
    misses_checkReference hscope rfl h.type⟩

theorem misses_checkArgumentDefs {arguments : List InputDef} (h : ∀ a ∈ arguments, a.Within σ) :
    Misses (s.Lacks σ) (s.checkArgumentDefs arguments) :=
  misses_append.mpr ⟨misses_flatMap.mpr fun a ha => misses_checkInput hscope (h a ha), misses_map (fun _ => rfl) _⟩

theorem misses_checkField {f : FieldDef} (h : f.Within σ) : Misses (s.Lacks σ) (s.checkField f) := by
  simp only [checkField, misses_append]
  exact ⟨⟨⟨misses_checkName _ _, misses_checkDirectives h.directives⟩, misses_checkArgumentDefs hscope h.arguments⟩,
    misses_checkReference hscope rfl h.type⟩

/-! ## Types -/

omit hscope in
theorem misses_checkInterfaceField (type interface : Name) (expected : FieldDef) (fields : List FieldDef) :
    Misses (s.Lacks σ) (s.checkInterfaceField type interface expected fields) := by
  rw [checkInterfaceField]
  split
  · exact misses_singleton rfl
  · refine misses_append.mpr ⟨misses_append.mpr ⟨misses_ite misses_nil (misses_singleton rfl), ?_⟩, misses_map (fun _ => rfl) _⟩
    refine misses_flatMap.mpr fun e _ => ?_
    split
    · exact misses_singleton rfl
    · exact misses_ite misses_nil (misses_singleton rfl)

omit hscope in
/-- An interface that is implemented is missed unless it is an interface type. -/
theorem misses_checkInterfaces {t : TypeDef} (h : ∀ n ∈ t.interfaces, σ.interface n) :
    Misses (s.Lacks σ) (s.checkInterfaces t) := by
  simp only [checkInterfaces, misses_append, misses_flatMap]
  refine ⟨⟨⟨?_, misses_ite (misses_map (fun _ => rfl) _) misses_nil⟩, fun i _ => misses_map (fun _ => rfl) _⟩,
    fun i _ f _ => misses_checkInterfaceField _ _ f _⟩
  intro d hd _
  obtain ⟨n, hn, rfl⟩ := List.mem_map.mp hd
  obtain ⟨hmem, hnone⟩ := List.mem_filter.mp hn
  exact ⟨h n hmem, Option.isNone_iff_eq_none.mp hnone⟩

omit hscope in
theorem misses_checkInputCycle (name : Name) (fields : List InputDef) :
    Misses (s.Lacks σ) (s.checkInputCycle name fields) := by
  rw [checkInputCycle]
  split
  · exact misses_nil
  · exact misses_singleton rfl
  · exact misses_singleton rfl

omit hscope in
theorem misses_checkDirectiveCycle (d : DirectiveDef) : Misses (s.Lacks σ) (s.checkDirectiveCycle d) := by
  rw [checkDirectiveCycle]
  split
  · exact misses_nil
  · exact misses_singleton rfl
  · exact misses_singleton rfl

theorem misses_checkContent {t : TypeDef} (h : t.body.Within σ) : Misses (s.Lacks σ) (s.checkContent t) := by
  obtain ⟨description, name, directives, body⟩ := t
  cases body with
  | scalar => exact misses_nil
  | object interfaces fields | interface interfaces fields =>
    exact misses_append.mpr ⟨misses_append.mpr ⟨misses_flatMap.mpr fun f hf => misses_checkField hscope (h.fields f hf),
      misses_checkNotEmpty rfl fields⟩, misses_checkInterfaces h.interfaces⟩
  | union members =>
    exact misses_append.mpr ⟨misses_flatMap.mpr fun m hm => misses_checkReference hscope rfl (h.members m hm),
      misses_checkNotEmpty rfl members⟩
  | enum values =>
    exact misses_append.mpr ⟨misses_flatMap.mpr fun v hv =>
      misses_append.mpr ⟨misses_checkName _ _, misses_checkDirectives (h.values v hv)⟩, misses_checkNotEmpty rfl values⟩
  | inputObject fields =>
    exact misses_append.mpr ⟨misses_append.mpr ⟨misses_flatMap.mpr fun d hd => misses_checkInput hscope (h.inputs d hd),
      misses_checkNotEmpty rfl fields⟩, misses_checkInputCycle name fields⟩

theorem misses_checkType {t : TypeDef} (h : t.Within σ) : Misses (s.Lacks σ) (s.checkType t) :=
  misses_ite misses_nil (misses_append.mpr ⟨misses_append.mpr ⟨misses_ite misses_nil (misses_checkName _ _),
    misses_checkDirectives h.directives⟩, misses_checkContent hscope h.body⟩)

/-- **The rules miss only what a schema lacks.** If a schema has the types of a scope that it is within, the rules report
no name as missing but that of a directive of the scope that the schema does not define, and that of an interface of the
scope that is no interface type. -/
theorem misses_diagnostics (h : s.Within σ) : Misses (s.Lacks σ) s.diagnostics := by
  have hroots : Misses (s.Lacks σ) s.checkRoots := by
    simp only [checkRoots, misses_append, misses_flatMap]
    exact ⟨⟨⟨misses_checkDirectives h.applied, fun r hr => misses_checkReference hscope rfl (h.roots r hr)⟩,
      misses_map (fun _ => rfl) _⟩, misses_ite (misses_singleton rfl) misses_nil⟩
  refine misses_append.mpr ⟨misses_append.mpr ⟨hroots, misses_flatMap.mpr fun d hd => ?_⟩,
    misses_flatMap.mpr fun t ht => misses_checkType hscope (h.types t ht)⟩
  simp only [checkDirectiveDef, misses_append]
  exact ⟨⟨misses_checkName _ _, misses_checkArgumentDefs hscope (h.directives d hd)⟩, misses_checkDirectiveCycle d⟩

end

end SchemaWeave.Schema
