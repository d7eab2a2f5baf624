import Mathlib.Data.List.Nodup
import Mathlib.Data.String.Basic
import SchemaWeave.Json.Value

/-!
# Values whose members are sorted

The view of a value in which members are sorted has under each name the last of the members that have it, sorted in turn
(`get?_ordered`). Where no object repeats a name (`Json.distinctKeys`), the view loses nothing: the members of each object
are rearranged (`orderedMembers_perm`).
-/

namespace SchemaWeave.Json

mutual

/-- Whether no object in a value repeats a name. -/
def distinctKeys : Json → Bool
  | array items => distinctItems items
  | object members => decide ((members.map (·.1)).Nodup) && distinctMembers members
  | null | bool _ | number _ | string _ => true

def distinctItems : List Json → Bool
  | [] => true
  | item :: items => item.distinctKeys && distinctItems items

def distinctMembers : List (String × Json) → Bool
  | [] => true
  | (_, value) :: members => value.distinctKeys && distinctMembers members

end

theorem distinctItems_iff {items : List Json} :
    distinctItems items = true ↔ ∀ j ∈ items, j.distinctKeys = true := by
  induction items with
  | nil => simp [distinctItems]
  | cons item items ih => rw [distinctItems, Bool.and_eq_true, ih, List.forall_mem_cons]

theorem distinctMembers_iff {members : List (String × Json)} :
    distinctMembers members = true ↔ ∀ m ∈ members, m.2.distinctKeys = true := by
  induction members with
  | nil => simp [distinctMembers]
  | cons m members ih => rw [distinctMembers, Bool.and_eq_true, ih, List.forall_mem_cons]

theorem distinctKeys_object {members : List (String × Json)} :
    (object members).distinctKeys = true ↔
      (members.map (·.1)).Nodup ∧ ∀ m ∈ members, m.2.distinctKeys = true := by
  rw [distinctKeys, Bool.and_eq_true, decide_eq_true_iff, distinctMembers_iff]

theorem orderedItems_eq (items : List Json) : orderedItems items = items.map ordered := by
  induction items with
  | nil => rfl
  | cons item items ih => rw [orderedItems, ih, List.map_cons]

/-- A member with a name of its own comes in front of or behind the others. -/
theorem insertMember_perm {key : String} {value : Json} {members : List (String × Json)}
    (hk : key ∉ members.map (·.1)) : (insertMember key value members).Perm ((key, value) :: members) := by
  induction members with
  | nil => exact .refl _
  | cons m members ih =>
    obtain ⟨k, v⟩ := m
    rw [List.map_cons, List.mem_cons, not_or] at hk
    rw [insertMember, if_neg hk.1]
    split
    · exact .refl _
    · exact ((ih hk.2).cons (k, v)).trans (.swap _ _ _)

/-- Members with names of their own are rearranged, each with its value sorted. -/
theorem orderedMembers_perm {members done : List (String × Json)} (hn : ((members ++ done).map (·.1)).Nodup) :
    (orderedMembers members done).Perm (members.map (fun m => (m.1, m.2.ordered)) ++ done) := by
  induction members generalizing done with
  | nil => exact .refl _
  | cons m members ih =>
    obtain ⟨key, value⟩ := m
    rw [List.cons_append, List.map_cons, List.nodup_cons, List.map_append, List.mem_append, not_or] at hn
    obtain ⟨⟨hmembers, hdone⟩, hn⟩ := hn
    have hinsert : (insertMember key value.ordered done).Perm ((key, value.ordered) :: done) := insertMember_perm hdone
    have hnext : ((members ++ insertMember key value.ordered done).map (·.1)).Nodup := by
      have hperm := ((hinsert.append_left members).map (·.1)).nodup_iff
      rw [hperm, List.map_append, List.map_cons]
      refine List.nodup_middle.mpr (List.nodup_cons.mpr ⟨?_, hn⟩)
      rw [List.mem_append, not_or]
      exact ⟨hmembers, hdone⟩
    rw [orderedMembers, List.map_cons, List.cons_append]
    exact (ih hnext).trans ((hinsert.append_left _).trans List.perm_middle)

theorem orderedMembers_nil_perm {members : List (String × Json)} (hn : (members.map (·.1)).Nodup) :
    (orderedMembers members []).Perm (members.map fun m => (m.1, m.2.ordered)) := by
  have hp : (orderedMembers members []).Perm (members.map (fun m => (m.1, m.2.ordered)) ++ []) :=
    orderedMembers_perm (by rwa [List.append_nil])
  rwa [List.append_nil] at hp

/-! ## Finding members -/

/-- Members in the order of their names, each name once. -/
def Sorted (members : List (String × Json)) : Prop := members.Pairwise (·.1 < ·.1)

theorem mem_of_mem_insertMember {key : String} {value : Json} {members : List (String × Json)} {m : String × Json}
    (hm : m ∈ insertMember key value members) : m = (key, value) ∨ m ∈ members := by
  induction members with
  | nil => exact .inl (List.mem_singleton.mp hm)
  | cons first members ih =>
    rw [insertMember] at hm
    split at hm
    · exact List.mem_cons.mp hm
    · split at hm
      · exact (List.mem_cons.mp hm).imp_right (List.mem_cons_of_mem _)
      · rcases List.mem_cons.mp hm with rfl | hm
        · exact .inr List.mem_cons_self
        · exact (ih hm).imp_right (List.mem_cons_of_mem _)

theorem Sorted.insertMember {members : List (String × Json)} (h : Sorted members) (key : String) (value : Json) :
    Sorted (Json.insertMember key value members) := by
  induction members with
  | nil => exact List.pairwise_singleton _ _
  | cons first members ih =>
    obtain ⟨hfirst, hrest⟩ := List.pairwise_cons.mp h
    rw [Json.insertMember]
    split
    · next hlt =>
      refine List.pairwise_cons.mpr ⟨List.forall_mem_cons.mpr ⟨hlt, fun m hm => ?_⟩, h⟩
      exact hlt.trans (hfirst m hm)
    · next hlt =>
      split
      · next heq => exact List.pairwise_cons.mpr ⟨fun m hm => heq ▸ hfirst m hm, hrest⟩
      · next hne =>
        refine List.pairwise_cons.mpr ⟨fun m hm => ?_, ih hrest⟩
        rcases mem_of_mem_insertMember hm with rfl | hm
        · exact lt_of_le_of_ne (not_lt.mp hlt) fun he => hne he.symm
        · exact hfirst m hm

theorem Sorted.orderedMembers {done : List (String × Json)} (h : Sorted done) (members : List (String × Json)) :
    Sorted (Json.orderedMembers members done) := by
  induction members generalizing done with
  | nil => exact h
  | cons m members ih => exact ih (h.insertMember m.1 m.2.ordered)

theorem Sorted.nodup {members : List (String × Json)} (h : Sorted members) : (members.map (·.1)).Nodup :=
  List.pairwise_map.mpr (h.imp fun hlt => hlt.ne)

theorem find?_insertMember (key : String) (value : Json) (members : List (String × Json)) (name : String) :
    (insertMember key value members).find? (·.1 == name) =
      if key = name then some (key, value) else members.find? (·.1 == name) := by
  induction members with
  | nil => by_cases hname : key = name <;> simp [insertMember, hname]
  | cons first members ih =>
    obtain ⟨k, v⟩ := first
    rw [insertMember]
    split
    · by_cases hname : key = name <;> simp [hname]
    · split
      · next heq => by_cases hname : key = name <;> simp [← heq, hname]
      · next hne =>
        by_cases hk : k = name
        · simp [hk, show key ≠ name from fun h => hne (h.trans hk.symm)]
        · simp [hk, ih]

/-- The last of the members with a name counts, in front of what was put in before. -/
theorem find?_orderedMembers (members done : List (String × Json)) (name : String) :
    (orderedMembers members done).find? (·.1 == name) =
      ((members.reverse.find? (·.1 == name)).map fun m => (m.1, m.2.ordered)).or (done.find? (·.1 == name)) := by
  induction members generalizing done with
  | nil => rfl
  | cons m members ih =>
    obtain ⟨key, value⟩ := m
    rw [orderedMembers, ih, find?_insertMember, List.reverse_cons, List.find?_append]
    by_cases hname : key = name <;> cases members.reverse.find? (·.1 == name) <;> simp [hname]

section

variable {members members' : List (String × Json)} (hn : (members.map (·.1)).Nodup)

include hn

/-- Under a name of its own exactly the member with this name is found. -/
theorem find?_eq_some {key : String} {m : String × Json} :
    members.find? (·.1 == key) = some m ↔ m ∈ members ∧ m.1 = key := by
  constructor
  · intro h
    exact ⟨List.mem_of_find?_eq_some h, by simpa using List.find?_some h⟩
  · rintro ⟨hm, rfl⟩
    have hsome : (members.find? (·.1 == m.1)).isSome = true := List.find?_isSome.mpr ⟨m, hm, beq_self_eq_true _⟩
    obtain ⟨m', hm'⟩ := Option.isSome_iff_exists.mp hsome
    have hkey : m'.1 = m.1 := by simpa using List.find?_some hm'
    rw [hm', List.inj_on_of_nodup_map hn (List.mem_of_find?_eq_some hm') hm hkey]

/-- What is found under a name does not depend on the order of the members. -/
theorem find?_perm (hp : members'.Perm members) (key : String) :
    members'.find? (·.1 == key) = members.find? (·.1 == key) := by
  have hn' : (members'.map (·.1)).Nodup := (hp.map _).nodup_iff.mpr hn
  ext m
  rw [find?_eq_some hn', find?_eq_some hn, hp.mem_iff]

end

/-- **What is found under a name in the sorted view is what is found there in the value, sorted.** -/
theorem get?_ordered (j : Json) (name : String) : j.ordered.get? name = (j.get? name).map ordered := by
  cases j with
  | object members =>
    have hsorted : Sorted (orderedMembers members []) := Sorted.orderedMembers List.Pairwise.nil members
    rw [ordered, get?, find?_perm hsorted.nodup (List.reverse_perm _), find?_orderedMembers, get?]
    cases members.reverse.find? (·.1 == name) <;> rfl
  | _ => rfl

/-- A value with its members rearranged as in its sorted view, and with sorted values. -/
inductive Rearranged : Json → Json → Prop
  | null : Rearranged null null
  | bool (b : Bool) : Rearranged (bool b) (bool b)
  | number (n : Number) : Rearranged (number n) (number n)
  | string (s : String) : Rearranged (string s) (string s)
  | array {items : List Json} (hd : ∀ j ∈ items, j.distinctKeys = true) :
    Rearranged (array (items.map ordered)) (array items)
  | object {members members' : List (String × Json)} (hp : members'.Perm (members.map fun m => (m.1, m.2.ordered)))
    (hn : (members.map (·.1)).Nodup) (hd : ∀ m ∈ members, m.2.distinctKeys = true) :
    Rearranged (object members') (object members)

/-- **The sorted view of a value that repeats no name is a rearrangement.** -/
theorem rearranged_ordered {j : Json} (h : j.distinctKeys = true) : Rearranged j.ordered j := by
  cases j with
  | null => exact .null
  | bool b => exact .bool b
  | number n => exact .number n
  | string s => exact .string s
  | array items =>
    rw [ordered, orderedItems_eq]
    exact .array (distinctItems_iff.mp h)
  | object members =>
    obtain ⟨hn, hd⟩ := distinctKeys_object.mp h
    exact .object (orderedMembers_nil_perm hn) hn hd

namespace Rearranged

variable {j' j : Json} (h : Rearranged j' j)

include h

theorem distinctKeys : j.distinctKeys = true := by
  cases h with
  | array hd => exact distinctItems_iff.mpr hd
  | object _ hn hd => exact distinctKeys_object.mpr ⟨hn, hd⟩
  | _ => rfl

theorem eq_null_iff : j' = .null ↔ j = .null := by cases h <;> simp

theorem eq_string_iff {s : String} : j' = .string s ↔ j = .string s := by cases h <;> simp

theorem eq_empty_iff : j' = .object [] ↔ j = .object [] := by
  cases h with
  | object hp => simp only [object.injEq, ← List.length_eq_zero_iff, hp.length_eq, List.length_map]
  | _ => simp

/-- The rearrangement of an object with one member has the same member. -/
theorem eq_single_iff {key : String} {value' : Json} :
    j' = .object [(key, value')] ↔ ∃ value, j = .object [(key, value)] ∧ value' = value.ordered := by
  cases h with
  | object hp =>
    simp only [object.injEq]
    constructor
    · rintro rfl
      obtain ⟨m, rfl, hm⟩ := List.map_eq_singleton_iff.mp (List.singleton_perm.mp hp).symm
      obtain ⟨rfl, rfl⟩ := Prod.mk.inj hm
      exact ⟨m.2, rfl, rfl⟩
    · rintro ⟨value, rfl, rfl⟩
      exact List.perm_singleton.mp hp
  | _ => simp

end Rearranged

/-- Under each name the same value is found, sorted. -/
theorem find?_rearranged {members members' : List (String × Json)}
    (hp : members'.Perm (members.map fun m => (m.1, m.2.ordered))) (hn : (members.map (·.1)).Nodup) (key : String) :
    (members'.find? (·.1 == key)).map (·.2) = ((members.find? (·.1 == key)).map (·.2)).map ordered := by
  have hkeys : ((members.map fun m => (m.1, m.2.ordered)).map (·.1)).Nodup := by
    rw [List.map_map]
    exact hn
  rw [find?_perm hkeys hp, List.find?_map, Option.map_map, Option.map_map]
  rfl

section

variable {members : List (String × Json)} (h : (object members).distinctKeys = true)

include h

theorem get?_eq_find? (key : String) : (object members).get? key = (members.find? (·.1 == key)).map (·.2) := by
  rw [get?, find?_perm (distinctKeys_object.mp h).1 (List.reverse_perm members)]

theorem distinctKeys_get? {key : String} {value : Json} (hv : (object members).get? key = some value) :
    value.distinctKeys = true := by
  rw [get?_eq_find? h] at hv
  obtain ⟨m, hm, rfl⟩ := Option.map_eq_some_iff.mp hv
  exact (distinctKeys_object.mp h).2 m (List.mem_of_find?_eq_some hm)

end

end SchemaWeave.Json
