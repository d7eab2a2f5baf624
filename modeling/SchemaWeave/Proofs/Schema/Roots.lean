import SchemaWeave.Proofs.Schema.Fitting
import SchemaWeave.Proofs.Schema.Restated

/-!
# Root types

The roots of a schema are given by a name for each kind of operation (`rootsBy`): those that an introspection result tells
(`rootNames_eq`), and those that types have by their names alone (`implicitRoots_eq`).
-/

namespace SchemaWeave

open Graphql Introspection

/-- The root type of a kind of operation that an introspection result tells. -/
def Introspection.SchemaInfo.root? (s : SchemaInfo) : OperationKind → Option Name
  | .query => s.queryType
  | .mutation => s.mutationType
  | .subscription => s.subscriptionType

namespace Schema

/-- Roots by the name for each kind of operation, if it has one. -/
def rootsBy (name? : OperationKind → Option Name) : List (OperationKind × Name) :=
  OperationKind.all.filterMap fun kind => (name? kind).map (kind, ·)

section

variable (name? : OperationKind → Option Name)

theorem lookup_rootsBy (kind : OperationKind) : (rootsBy name?).lookup kind = name? kind := by
  simp only [rootsBy, OperationKind.all, List.filterMap_cons, List.filterMap_nil]
  cases hq : name? .query <;> cases hm : name? .mutation <;> cases hs : name? .subscription <;> cases kind <;>
    simp only [hq, hm, hs, Option.map_some, Option.map_none] <;> rfl

theorem mem_rootsBy {root : OperationKind × Name} : root ∈ rootsBy name? ↔ name? root.1 = some root.2 := by
  rw [rootsBy, List.mem_filterMap]
  constructor
  · rintro ⟨kind, -, hk⟩
    obtain ⟨name, hn, rfl⟩ := Option.map_eq_some_iff.mp hk
    exact hn
  · intro h
    refine ⟨root.1, ?_, Option.map_eq_some_iff.mpr ⟨root.2, h, rfl⟩⟩
    cases root.1 <;> simp [OperationKind.all]

theorem nodup_rootsBy : ((rootsBy name?).map (·.1)).Nodup := by
  have hsub : ((rootsBy name?).map (·.1)).Sublist OperationKind.all := by
    rw [rootsBy]
    generalize OperationKind.all = kinds
    induction kinds with
    | nil => exact List.Sublist.refl []
    | cons kind kinds ih =>
      rw [List.filterMap_cons]
      cases name? kind with
      | none => exact ih.cons _
      | some name => exact ih.cons_cons _
  exact List.Nodup.sublist hsub (by decide)

end

/-- The artifact tells the roots of a schema. -/
theorem root?_info (s : Schema) (kind : OperationKind) : s.info.root? kind = s.root? kind := by
  cases kind <;> rfl

theorem mem_roots {s : Schema} {kind : OperationKind} {name : Name} (h : s.root? kind = some name) :
    (kind, name) ∈ s.roots := by
  obtain ⟨before, after, he, -⟩ := List.lookup_eq_some_iff.mp h
  rw [he]
  simp

theorem rootNames_eq (d : SchemaInfo) : d.rootNames = rootsBy d.root? := by
  rw [SchemaInfo.rootNames, rootsBy]
  rfl

theorem defaultRootName_injective : Function.Injective defaultRootName := by
  intro a b h
  cases a <;> cases b <;> first | rfl | exact absurd h (by decide)

/-- The name of the root type that types have for a kind of operation without a definition: the default one, if it is that
of an object type. -/
def implicitRoot? (types : List TypeDef) (kind : OperationKind) : Option Name :=
  ((types.find? (·.name == defaultRootName kind)).filter (·.kind = .object)).map (·.name)

theorem implicitRoots_eq (types : List TypeDef) : implicitRoots types = rootsBy (implicitRoot? types) := by
  rw [implicitRoots, rootsBy]
  congr 1
  funext kind
  rw [implicitRoot?]
  cases hf : types.find? (·.name == defaultRootName kind) with
  | none => simp only [hf]; rfl
  | some t =>
    have hname : t.name = defaultRootName kind := by simpa using List.find?_some hf
    simp only [hf]
    split_ifs with hk
    · simp [Option.filter, hk, hname]
    · simp [Option.filter, hk]

theorem implicitRoot?_eq_some {types : List TypeDef} {kind : OperationKind} {name : Name} :
    implicitRoot? types kind = some name ↔
      name = defaultRootName kind ∧ ∃ t, types.find? (·.name == name) = some t ∧ t.kind = .object := by
  rw [implicitRoot?]
  constructor
  · intro h
    obtain ⟨t, ht, rfl⟩ := Option.map_eq_some_iff.mp h
    obtain ⟨hf, hk⟩ := Option.filter_eq_some_iff.mp ht
    have hname : t.name = defaultRootName kind := by simpa using List.find?_some hf
    exact ⟨hname, t, by rw [hname]; exact hf, by simpa using hk⟩
  · rintro ⟨rfl, t, hf, hk⟩
    have hname : t.name = defaultRootName kind := by simpa using List.find?_some hf
    exact Option.map_eq_some_iff.mpr ⟨t, Option.filter_eq_some_iff.mpr ⟨hf, by simpa using hk⟩, hname⟩

/-! ## Roots without faults -/

theorem nodup_of_checkRoots {s : Schema} (h : s.checkRoots = []) : (s.roots.map (·.2)).Nodup := by
  simp only [checkRoots, List.append_eq_nil_iff, List.map_eq_nil_iff] at h
  exact (repeated_eq_nil_iff.mp h.1.2).1

theorem query_of_checkRoots {s : Schema} (h : s.checkRoots = []) : ∃ name, s.root? .query = some name := by
  simp only [checkRoots, List.append_eq_nil_iff] at h
  cases hq : s.root? .query with
  | some name => exact ⟨name, rfl⟩
  | none =>
    have h := h.2
    rw [hq] at h
    cases h

/-- Roots that are object types with names of their own, one of them for queries, have no faults. -/
theorem checkRoots_rootsBy {s : Schema} {name? : OperationKind → Option Name} (happlied : s.applied = [])
    (hroots : s.roots = rootsBy name?) (hobject : ∀ kind name, name? kind = some name →
      ∃ t, s.type? name = some t ∧ t.kind = .object)
    (hinj : ∀ kind kind' name, name? kind = some name → name? kind' = some name → kind = kind')
    (hquery : ∃ name, name? .query = some name) : s.checkRoots = [] := by
  have hn : (s.roots.map (·.2)).Nodup := by
    rw [hroots]
    refine List.Nodup.map_on (fun r hr r' hr' he => ?_) (List.Nodup.of_map _ (nodup_rootsBy name?))
    rw [mem_rootsBy] at hr hr'
    rw [← he] at hr'
    exact Prod.ext (hinj _ _ _ hr hr') he
  simp only [checkRoots, List.append_eq_nil_iff, List.map_eq_nil_iff, List.flatMap_eq_nil_iff]
  refine ⟨⟨⟨?_, fun r hr => ?_⟩, repeated_eq_nil_iff.mpr ⟨hn, fun _ _ => List.not_mem_nil⟩⟩, ?_⟩
  · rw [happlied]
    rfl
  · rw [hroots, mem_rootsBy] at hr
    obtain ⟨t, ht, hk⟩ := hobject r.1 r.2 hr
    rw [checkRoot, checkReference, TypeExpr.core, ht]
    exact if_pos (by simpa using hk)
  · obtain ⟨name, hname⟩ := hquery
    rw [root?, hroots, lookup_rootsBy, hname]
    rfl

end Schema

end SchemaWeave
