import SchemaWeave.Json.Decode

/-!
# Reading records from objects

What the steps of reading a record amount to when it is read from an object: a field is looked up among the
members, and a record is read if no field that is there has a fault.
-/

namespace SchemaWeave.Json

section

variable {α : Type} {name field : String} {fields : List String} {surplus : Surplus} {members : List (String × Json)}

/-- A record that is read from the members of an object. -/
abbrev Record.ofMembers (name : String) (fields : List String) (surplus : Surplus) (members : List (String × Json)) :
    Record :=
  { name, fields, source := .members members, surplus }

@[simp] theorem asRecord_object :
    asRecord name fields surplus (object members) = .ok (.ofMembers name fields surplus members) := rfl

@[simp] theorem Record.slot_ofMembers (decode : Json → Decoded α) :
    (Record.ofMembers name fields surplus members).slot field decode =
      ⟨field, ((members.find? (·.1 == field)).map (·.2)).map decode⟩ := rfl

@[simp] theorem Record.check_ofMembers (faults : List (String × Option DecodeError)) :
    (Record.ofMembers name fields surplus members).check faults =
      match firstFault faults [] members with
      | none => .ok ()
      | some e => .error e := rfl

@[simp] theorem Record.checkSurplus_ofMembers :
    (Record.ofMembers name fields surplus members).checkSurplus = .ok () := rfl

@[simp] theorem Record.required_some (r : Record) (result : Decoded α) : r.required ⟨field, some result⟩ = result := rfl

@[simp] theorem Record.optional_some (r : Record) (result : Decoded (Option α)) :
    r.optional ⟨field, some result⟩ = result :=
  rfl

@[simp] theorem Record.optional_ofMembers_none :
    (Record.ofMembers name fields surplus members).optional ⟨field, (none : Option (Decoded (Option α)))⟩ =
      .ok none := rfl

@[simp] theorem Record.defaulted_some (result : Decoded (Option α)) :
    Record.defaulted ⟨field, some result⟩ = result := rfl

@[simp] theorem Slot.fault?_ok (a : α) : Slot.fault? ⟨field, some (.ok a)⟩ = (field, none) := rfl

@[simp] theorem Slot.fault?_none : Slot.fault? ⟨field, (none : Option (Decoded α))⟩ = (field, none) := rfl

end

/-! ## Faults -/

/-- Members have no fault if no field comes twice, and no field that comes has one. -/
theorem firstFault_eq_none_iff {faults : List (String × Option DecodeError)} {members : List (String × Json)}
    {seen : List String} (hseen : seen.Nodup) : firstFault faults seen members = none ↔
      (seen ++ (members.map (·.1)).filter (faults.map (·.1)).contains).Nodup ∧
        ∀ m ∈ members, ∀ fault ∈ faults.lookup m.1, fault = none := by
  induction members generalizing seen with
  | nil => simp [firstFault, hseen]
  | cons m members ih =>
    obtain ⟨key, value⟩ := m
    rw [firstFault, List.map_cons, List.forall_mem_cons]
    have hfield : (faults.map (·.1)).contains key = (faults.lookup key).isSome := by
      rw [Bool.eq_iff_iff, List.contains_iff_mem, List.mem_map, List.lookup_isSome_iff]
      simp only [beq_iff_eq]
      exact exists_congr fun p => and_congr_right fun _ => eq_comm
    cases hl : faults.lookup key with
    | none =>
      rw [List.filter_cons, hfield, hl]
      simpa using ih hseen
    | some fault =>
      rw [List.filter_cons, hfield, hl, Option.isSome_some, if_pos rfl]
      by_cases hk : key ∈ seen
      · have hdisjoint : ¬(seen ++ key :: (members.map (·.1)).filter (faults.map (·.1)).contains).Nodup := fun hn =>
          (List.nodup_append.mp hn).2.2 key hk key List.mem_cons_self rfl
        simp [hk, hdisjoint]
      · have hmove : (seen ++ key :: (members.map (·.1)).filter (faults.map (·.1)).contains).Perm
            (key :: (seen ++ (members.map (·.1)).filter (faults.map (·.1)).contains)) :=
          List.perm_middle
        have hcons : (key :: seen).Nodup := List.nodup_cons.mpr ⟨hk, hseen⟩
        have hnew : ¬seen.contains key = true := by rwa [List.contains_iff_mem]
        simp only [if_neg hnew, hmove.nodup_iff, ← List.cons_append]
        cases fault with
        | none => simpa using ih hcons
        | some e => simp

theorem eq_none_of_lookup {faults : List (String × Option DecodeError)} (hf : ∀ p ∈ faults, p.2 = none) {field : String}
    {fault : Option DecodeError} (hl : faults.lookup field = some fault) : fault = none := by
  obtain ⟨before, after, rfl, -⟩ := List.lookup_eq_some_iff.mp hl
  exact hf (field, fault) (List.mem_append_right _ List.mem_cons_self)

/-- No fault is among members whose names are distinct, if no field has one. -/
theorem firstFault_eq_none {faults : List (String × Option DecodeError)} (hf : ∀ p ∈ faults, p.2 = none)
    {members : List (String × Json)} {seen : List String} (hn : (seen ++ members.map (·.1)).Nodup) :
    firstFault faults seen members = none := by
  refine (firstFault_eq_none_iff (List.nodup_append.mp hn).1).mpr ⟨?_, fun _ _ _ hl => eq_none_of_lookup hf hl⟩
  exact hn.sublist (List.filter_sublist.append_left seen)

@[simp] theorem bind_ok {ε α β : Type} (a : α) (f : α → Except ε β) : (Except.ok a >>= f) = f a := rfl

@[simp] theorem pure_eq_ok {ε α : Type} (a : α) : (pure a : Except ε α) = .ok a := rfl

end SchemaWeave.Json
