import SchemaWeave.Proofs.Json.Text
import SchemaWeave.Schema.Introspect

/-!
# The form of answers

What a schema answers a query with has no numbers in it and nests no deeper than the query does
(`bounded_answer`): a field gives texts, or nodes that selections are applied to in turn.
-/

namespace SchemaWeave.Schema

open Graphql Introspection
open Json (nestingMembers nestingItems isNumberlessItems isNumberlessMembers)

/-! ## Values -/

/-- An answer that is a value has no number in it, and is at most a list of texts. -/
def Answer.IsFlat : Answer → Prop
  | .value j => j.isNumberless = true ∧ j.nesting ≤ 1
  | .node _ | .nodes _ => True

theorem isFlat_null : Answer.IsFlat (.value .null) := ⟨rfl, Nat.zero_le 1⟩

theorem isFlat_string (s : String) : Answer.IsFlat (.value (.string s)) := ⟨rfl, Nat.zero_le 1⟩

theorem isFlat_bool (b : Bool) : Answer.IsFlat (.value (.bool b)) := ⟨rfl, Nat.zero_le 1⟩

theorem isFlat_locations (ls : List DirectiveLocation) :
    Answer.IsFlat (.value (.array (ls.map fun l => .string l.name))) := by
  induction ls with
  | nil => exact ⟨rfl, Nat.le_refl 1⟩
  | cons _ ls ih =>
    obtain ⟨hn, hd⟩ := ih
    exact ⟨hn, by simpa [Json.nesting, nestingItems] using hd⟩

theorem isFlat_optionalText : ∀ o : Option String, (optionalText o).IsFlat
  | none => isFlat_null
  | some s => isFlat_string s

theorem isFlat_deprecationReason (ds : List Directive) : (deprecationReason ds).IsFlat := by
  rw [deprecationReason]
  split
  · exact isFlat_null
  · split
    · exact isFlat_string _
    · exact isFlat_string _
    · exact isFlat_null

theorem isFlat_resolveNamed (s : Schema) (t : TypeDef) (field : Name) (b : Bool) :
    (s.resolveNamed t field b).IsFlat := by
  unfold resolveNamed
  split
  · exact isFlat_string _
  · exact isFlat_string _
  · exact isFlat_optionalText _
  all_goals first | exact isFlat_null | split <;> first | exact True.intro | exact isFlat_null

theorem isFlat_resolveWrapper (kind : RefKind) (inner : TypeExpr) (field : Name) :
    (resolveWrapper kind inner field).IsFlat := by
  unfold resolveWrapper
  split
  · exact isFlat_string _
  · exact True.intro
  · exact isFlat_null

theorem isFlat_resolveType (s : Schema) (e : TypeExpr) (field : Name) (b : Bool) :
    (s.resolveType e field b).IsFlat := by
  unfold resolveType
  split
  · exact isFlat_resolveWrapper _ _ _
  · exact isFlat_resolveWrapper _ _ _
  · exact isFlat_resolveWrapper _ _ _
  · split
    · exact isFlat_resolveNamed _ _ _ _
    · exact isFlat_null

theorem isFlat_resolveRoot (s : Schema) (kind : OperationKind) : (s.resolveRoot kind).IsFlat := by
  rw [resolveRoot]
  split
  · exact True.intro
  · exact isFlat_null

theorem isFlat_resolve (s : Schema) (n : Node) (field : Name) (b : Bool) : (s.resolve n field b).IsFlat := by
  cases n with
  | schema =>
    simp only [resolve]
    split <;> first | exact isFlat_resolveRoot _ _ | exact True.intro | exact isFlat_null
  | type e => exact isFlat_resolveType s e field b
  | field f =>
    simp only [resolve]
    split
    · exact isFlat_string _
    · exact isFlat_optionalText _
    · exact True.intro
    · exact True.intro
    · exact isFlat_bool _
    · exact isFlat_deprecationReason _
    · exact isFlat_null
  | input d =>
    simp only [resolve]
    split
    · exact isFlat_string _
    · exact isFlat_optionalText _
    · exact True.intro
    · exact isFlat_optionalText _
    · exact isFlat_null
  | enumValue v =>
    simp only [resolve]
    split
    · exact isFlat_string _
    · exact isFlat_optionalText _
    · exact isFlat_bool _
    · exact isFlat_deprecationReason _
    · exact isFlat_null
  | directive d =>
    simp only [resolve]
    split
    · exact isFlat_string _
    · exact isFlat_optionalText _
    · exact isFlat_locations _
    · exact True.intro
    · exact isFlat_null

/-! ## Selections -/

mutual

/-- A bound for the nesting of what selections give. -/
def depth : List Selection → Nat
  | [] => 0
  | selection :: rest => max (depthOne selection) (depth rest)

def depthOne : Selection → Nat
  | .leaf _ => 1
  | .node _ _ _ selections => depth selections + 2
  | .spread _ selections => depth selections

end

theorem nestingMembers_append (a b : List (String × Json)) :
    nestingMembers (a ++ b) = max (nestingMembers a) (nestingMembers b) := by
  induction a with
  | nil => simp [nestingMembers]
  | cons m a ih => simp [nestingMembers, ih, Nat.max_assoc]

theorem isNumberlessMembers_append (a b : List (String × Json)) :
    isNumberlessMembers (a ++ b) = (isNumberlessMembers a && isNumberlessMembers b) := by
  induction a with
  | nil => simp [isNumberlessMembers]
  | cons m a ih => simp [isNumberlessMembers, ih, Bool.and_assoc]

/-- Members without a number in them that nest at most so deep. -/
def Bounded (bound : Nat) (members : List (String × Json)) : Prop :=
  isNumberlessMembers members = true ∧ nestingMembers members ≤ bound

theorem Bounded.append {k l : Nat} {a b : List (String × Json)} (ha : Bounded k a) (hb : Bounded l b) :
    Bounded (max k l) (a ++ b) := by
  constructor
  · rw [isNumberlessMembers_append, ha.1, hb.1]
    rfl
  · rw [nestingMembers_append]
    have := ha.2
    have := hb.2
    omega

/-- One member, from a value. -/
theorem bounded_singleton {bound : Nat} {name : Name} {j : Json} (h : j.isNumberless = true) (hd : j.nesting ≤ bound) :
    Bounded bound [(name, j)] :=
  ⟨by simp [isNumberlessMembers, h], by simpa [nestingMembers] using hd⟩

/-- A list of objects nests two levels deeper than their members. -/
theorem Bounded.array {bound : Nat} {α : Type} {f : α → List (String × Json)} {l : List α}
    (h : ∀ a, Bounded bound (f a)) : (Json.array (l.map fun a => .object (f a))).isNumberless = true ∧
      (Json.array (l.map fun a => .object (f a))).nesting ≤ bound + 2 := by
  induction l with
  | nil => exact ⟨rfl, by simp [Json.nesting, nestingItems]⟩
  | cons a l ih =>
    obtain ⟨hn, hd⟩ := ih
    constructor
    · simpa [Json.isNumberless, isNumberlessItems, (h a).1] using hn
    · simp only [Json.nesting, List.map_cons, nestingItems] at hd ⊢
      have := (h a).2
      omega

mutual

/-- **What selections give has no numbers in it and nests no deeper than they do.** -/
theorem bounded_answer (s : Schema) : ∀ (selections : List Selection) (n : Node),
    Bounded (depth selections) (s.answer n selections)
  | [], n => by
    rw [answer]
    exact ⟨rfl, Nat.le_refl 0⟩
  | selection :: rest, n => by
    rw [answer, depth]
    exact (bounded_answerOne s selection n).append (bounded_answer s rest n)

theorem bounded_answerOne (s : Schema) : ∀ (selection : Selection) (n : Node),
    Bounded (depthOne selection) (s.answerOne n selection)
  | .spread _ selections, n => by
    rw [answerOne, depthOne]
    exact bounded_answer s selections n
  | .leaf name, n => by
    have h := isFlat_resolve s n name false
    rw [answerOne, depthOne]
    cases hr : s.resolve n name false with
    | value j => rw [hr] at h; exact bounded_singleton h.1 h.2
    | node _ => exact bounded_singleton rfl (Nat.zero_le 1)
    | nodes _ => exact bounded_singleton rfl (Nat.zero_le 1)
  | .node name includeDeprecated _ selections, n => by
    have h := isFlat_resolve s n name includeDeprecated
    rw [answerOne, depthOne]
    cases hr : s.resolve n name includeDeprecated with
    | value j => rw [hr] at h; exact bounded_singleton h.1 (h.2.trans (Nat.le_add_left 1 _))
    | node inner =>
      obtain ⟨hn, hd⟩ := bounded_answer s selections inner
      exact bounded_singleton hn (Nat.add_le_add hd (Nat.le_succ 1))
    | nodes inners =>
      obtain ⟨hn, hd⟩ := Bounded.array (l := inners) fun inner => bounded_answer s selections inner
      exact bounded_singleton hn hd

end

end SchemaWeave.Schema
