import SchemaWeave.Proofs.Json.Ordered
import SchemaWeave.Proofs.Json.Record

/-!
# What it takes to read a record

A record is read from an object or an array if no field is given twice, or there are no more items than fields
(`RecordSource.Fits`), and each field is there and can be read (`RecordSource.Reads`), or may be missing
(`RecordSource.ReadsOptional`, `RecordSource.ReadsDefaulted`).
-/

namespace SchemaWeave.Json

/-! ## Results -/

section

variable {ε α β : Type}

theorem bind_eq_ok {x : Except ε α} {f : α → Except ε β} {b : β} : x >>= f = .ok b ↔ ∃ a, x = .ok a ∧ f a = .ok b := by
  cases x with
  | error e => exact ⟨fun h => (nomatch h), fun ⟨_, h, _⟩ => nomatch h⟩
  | ok a => exact ⟨fun h => ⟨a, rfl, h⟩, fun ⟨_, ha, h⟩ => by cases ha; exact h⟩

theorem map_eq_ok {x : Except ε α} {f : α → β} {b : β} : x.map f = .ok b ↔ ∃ a, x = .ok a ∧ f a = b := by
  cases x with
  | error e => exact ⟨fun h => (nomatch h), fun ⟨_, h, _⟩ => nomatch h⟩
  | ok a => exact ⟨fun h => ⟨a, rfl, Except.ok.inj h⟩, fun ⟨_, ha, h⟩ => by cases ha; exact congrArg Except.ok h⟩

theorem mapError_eq_ok {ε' : Type} {x : Except ε α} {f : ε → ε'} {a : α} : x.mapError f = .ok a ↔ x = .ok a := by
  cases x <;> simp [Except.mapError]

theorem mapM_eq_ok {f : α → Except ε β} {l : List α} {l' : List β} :
    l.mapM f = .ok l' ↔ List.Forall₂ (fun a b => f a = .ok b) l l' := by
  induction l generalizing l' with
  | nil =>
    rw [List.mapM_nil, List.forall₂_nil_left_iff]
    exact ⟨fun h => (Except.ok.inj h).symm, fun h => congrArg Except.ok h.symm⟩
  | cons a l ih =>
    rw [List.mapM_cons, bind_eq_ok, List.forall₂_cons_left_iff]
    constructor
    · rintro ⟨b, hb, h⟩
      obtain ⟨bs, hbs, h⟩ := bind_eq_ok.mp h
      exact ⟨b, bs, hb, ih.mp hbs, (Except.ok.inj h).symm⟩
    · rintro ⟨b, bs, hb, hbs, rfl⟩
      exact ⟨b, hb, bind_eq_ok.mpr ⟨bs, ih.mpr hbs, rfl⟩⟩

end

section

variable {α : Type} {decode : Json → Decoded α} {j : Json}

theorem decodeNullable_eq_ok {o : Option α} : decodeNullable decode j = .ok o ↔
    (j = .null ∧ o = none) ∨ (j ≠ .null ∧ ∃ a, decode j = .ok a ∧ o = some a) := by
  cases j with
  | null =>
    simp only [decodeNullable, Except.ok.injEq, ne_eq, not_true_eq_false, false_and, or_false, true_and]
    exact eq_comm
  | _ =>
    simp only [decodeNullable, map_eq_ok, reduceCtorEq, false_and, false_or, ne_eq, not_false_eq_true, true_and]
    simp only [eq_comm]

theorem decodeList_eq_ok {l : List α} : decodeList decode j = .ok l ↔
    ∃ items, j = .array items ∧ List.Forall₂ (fun j a => decode j = .ok a) items l := by
  cases j with
  | array items =>
    rw [decodeList, mapM_eq_ok]
    exact ⟨fun h => ⟨items, rfl, h⟩, fun ⟨_, hi, h⟩ => by cases hi; exact h⟩
  | _ => exact ⟨fun h => (nomatch h), fun ⟨_, hi, _⟩ => nomatch hi⟩

end

/-! ## Sources -/

/-- What a record is read from, if a value is an object or an array. -/
def source? : Json → Option RecordSource
  | object members => some (.members members)
  | array items => some (.items items)
  | _ => none

theorem asRecord_eq_ok {name : String} {fields : List String} {surplus : Surplus} {j : Json} {r : Record} :
    asRecord name fields surplus j = .ok r ↔ ∃ source, j.source? = some source ∧ r = ⟨name, fields, source, surplus⟩ := by
  cases j with
  | object | array => exact ⟨fun h => ⟨_, rfl, (Except.ok.inj h).symm⟩, fun ⟨_, hs, h⟩ => by cases hs; rw [h]; rfl⟩
  | _ => exact ⟨fun h => (nomatch h), fun ⟨_, hs, _⟩ => nomatch hs⟩

namespace RecordSource

variable {α : Type}

/-- Whether no field is given twice, and there are no more items than fields. -/
def Fits (fields : List String) : RecordSource → Prop
  | members ms => ((ms.map (·.1)).filter fields.contains).Nodup
  | items xs => xs.length ≤ fields.length

/-- Whether a source is an object. -/
def isObject : RecordSource → Bool
  | members _ => true
  | items _ => false

/-- The field is there and read as a value. -/
def Reads (fields : List String) (field : String) (decode : Json → Decoded α) (a : α) (source : RecordSource) : Prop :=
  ∃ j, source.value? fields field = some j ∧ decode j = .ok a

/-- The field is read as a value, or left out of an object. -/
def ReadsOptional (fields : List String) (field : String) (decode : Json → Decoded (Option α)) (o : Option α)
    (source : RecordSource) : Prop :=
  source.Reads fields field decode o ∨ (source.value? fields field = none ∧ o = none ∧ source.isObject = true)

/-- The field is read as a value, or left out. -/
def ReadsDefaulted (fields : List String) (field : String) (decode : Json → Decoded (Option α)) (o : Option α)
    (source : RecordSource) : Prop :=
  source.Reads fields field decode o ∨ (source.value? fields field = none ∧ o = none)

end RecordSource

section

variable {members : List (String × Json)} (h : (object members).distinctKeys = true) {fields : List String}

include h

theorem value?_eq_get? (field : String) :
    (RecordSource.members members).value? fields field = (object members).get? field := by
  rw [get?_eq_find? h]
  rfl

theorem fits_of_distinctKeys : (RecordSource.members members).Fits fields :=
  (distinctKeys_object.mp h).1.filter _

/-- A record with one field is read from an object that repeats no name if the member with this name is read. -/
theorem reads_object {α : Type} {decode : Json → Decoded α} {a : α} {field : String} :
    (∃ source, (object members).source? = some source ∧ source.Fits fields ∧ source.Reads fields field decode a) ↔
      ∃ j, (object members).get? field = some j ∧ decode j = .ok a := by
  simp only [source?, Option.some.injEq, exists_eq_left', RecordSource.Reads, value?_eq_get? h]
  exact and_iff_right (fits_of_distinctKeys h)

end

/-! ## Slots -/

section

variable {α : Type} {r : Record} {field : String}

theorem required_slot {decode : Json → Decoded α} {a : α} :
    r.required (r.slot field decode) = .ok a ↔ r.source.Reads r.fields field decode a := by
  rw [RecordSource.Reads, Record.slot, Record.required]
  cases r.source.value? r.fields field with
  | none => exact ⟨fun h => (nomatch h), fun ⟨_, h, _⟩ => nomatch h⟩
  | some j => exact ⟨fun h => ⟨j, rfl, h⟩, fun ⟨_, hj, h⟩ => by cases hj; exact h⟩

theorem optional_slot {decode : Json → Decoded (Option α)} {o : Option α} :
    r.optional (r.slot field decode) = .ok o ↔ r.source.ReadsOptional r.fields field decode o := by
  rw [RecordSource.ReadsOptional, RecordSource.Reads, Record.slot, Record.optional]
  cases r.source.value? r.fields field with
  | none =>
    cases hs : r.source with
    | members => simp [RecordSource.isObject, eq_comm]
    | items => simp [RecordSource.isObject]
  | some j => simp

theorem defaulted_slot {decode : Json → Decoded (Option α)} {o : Option α} :
    Record.defaulted (r.slot field decode) = .ok o ↔ r.source.ReadsDefaulted r.fields field decode o := by
  rw [RecordSource.ReadsDefaulted, RecordSource.Reads, Record.slot, Record.defaulted]
  cases r.source.value? r.fields field with
  | none => simp [eq_comm]
  | some j => simp

end

/-! ## Faults -/

/-- A record without a fault fits its fields. -/
theorem fits_of_check {r : Record} {faults : List (String × Option DecodeError)} {u u' : Unit}
    (hcheck : r.check faults = .ok u) (hsurplus : r.checkSurplus = .ok u') (hfields : faults.map (·.1) = r.fields) :
    r.source.Fits r.fields := by
  rw [Record.check] at hcheck
  rw [Record.checkSurplus] at hsurplus
  cases hs : r.source with
  | members ms =>
    rw [hs] at hcheck
    cases hf : firstFault faults [] ms with
    | some e => simp [hf] at hcheck
    | none =>
      rw [RecordSource.Fits, ← hfields]
      exact ((firstFault_eq_none_iff List.nodup_nil).mp hf).1
  | items xs =>
    rw [hs] at hsurplus
    simp only [ite_eq_left_iff, reduceCtorEq, imp_false, not_not] at hsurplus
    exact hsurplus

/-- A record that fits its fields has no fault if no field has one. -/
theorem check_of_fits {r : Record} {faults : List (String × Option DecodeError)} (hfits : r.source.Fits r.fields)
    (hfields : faults.map (·.1) = r.fields) (hf : ∀ p ∈ faults, p.2 = none) : r.check faults = .ok () := by
  rw [Record.check]
  cases hs : r.source with
  | members ms =>
    rw [hs, RecordSource.Fits, ← hfields] at hfits
    have hnone : firstFault faults [] ms = none :=
      (firstFault_eq_none_iff List.nodup_nil).mpr ⟨hfits, fun _ _ _ hl => eq_none_of_lookup hf hl⟩
    simp only [hnone]
  | items xs =>
    have hnone : faults.findSome? (·.2) = none := List.findSome?_eq_none_iff.mpr hf
    simp only [hnone]

theorem checkSurplus_of_fits {r : Record} (hfits : r.source.Fits r.fields) : r.checkSurplus = .ok () := by
  rw [Record.checkSurplus]
  cases hs : r.source with
  | members => rfl
  | items xs =>
    rw [hs] at hfits
    exact if_pos hfits

section

variable {α : Type} {r : Record} {field : String}

theorem fault?_of_reads {decode : Json → Decoded α} {a : α} (h : r.source.Reads r.fields field decode a) :
    (r.slot field decode).fault?.2 = none := by
  obtain ⟨j, hj, hd⟩ := h
  simp [Record.slot, Slot.fault?, hj, hd]

theorem fault?_of_readsOptional {decode : Json → Decoded (Option α)} {o : Option α}
    (h : r.source.ReadsOptional r.fields field decode o) : (r.slot field decode).fault?.2 = none := by
  rcases h with h | ⟨hnone, -, -⟩
  · exact fault?_of_reads h
  · simp [Record.slot, Slot.fault?, hnone]

theorem fault?_of_readsDefaulted {decode : Json → Decoded (Option α)} {o : Option α}
    (h : r.source.ReadsDefaulted r.fields field decode o) : (r.slot field decode).fault?.2 = none := by
  rcases h with h | ⟨hnone, -⟩
  · exact fault?_of_reads h
  · simp [Record.slot, Slot.fault?, hnone]

end

/-- The value of a field of the record that a value holds. -/
def field? (fields : List String) (field : String) (j : Json) : Option Json := j.source?.bind (·.value? fields field)

/-- The items of a list. -/
def items : Json → List Json
  | array items => items
  | _ => []

/-! ## Rearranged values -/

section

variable {α : Type} {decode decode' : Json → Decoded α} {a : α}

/-- Two ways of reading agree on a result where a condition holds: rearrangements of a value are read as it in one way if the
value satisfies the condition and is read as it in the other. -/
def AgreeWhere (p : Json → Prop) (decode decode' : Json → Decoded α) (a : α) : Prop :=
  ∀ ⦃j' j : Json⦄, Rearranged j' j → (decode j' = .ok a ↔ decode' j = .ok a ∧ p j)

/-- Two ways of reading agree on a result. -/
def Agree (decode decode' : Json → Decoded α) (a : α) : Prop :=
  ∀ ⦃j' j : Json⦄, Rearranged j' j → (decode j' = .ok a ↔ decode' j = .ok a)

theorem Agree.agreeWhere (h : Agree decode decode' a) : AgreeWhere (fun _ => True) decode decode' a := fun _ _ hj => by
  rw [h hj, and_true]

theorem agree_decodeString (s : String) : Agree decodeString decodeString s := by
  intro j' j h
  cases h with
  | array | object => exact ⟨fun h => (nomatch h), fun h => nomatch h⟩
  | _ => exact Iff.rfl

theorem agree_decodeBool (b : Bool) : Agree decodeBool decodeBool b := by
  intro j' j h
  cases h with
  | array | object => exact ⟨fun h => (nomatch h), fun h => nomatch h⟩
  | _ => exact Iff.rfl

theorem Agree.nullable {o : Option α} (h : ∀ a ∈ o, Agree decode decode' a) :
    Agree (decodeNullable decode) (decodeNullable decode') o := by
  intro j' j hj
  rw [decodeNullable_eq_ok, decodeNullable_eq_ok, ne_eq, ne_eq, hj.eq_null_iff]
  refine or_congr Iff.rfl (and_congr Iff.rfl (exists_congr fun a => ?_))
  constructor
  · rintro ⟨ha, rfl⟩
    exact ⟨(h a rfl hj).mp ha, rfl⟩
  · rintro ⟨ha, rfl⟩
    exact ⟨(h a rfl hj).mpr ha, rfl⟩

theorem agree_nullableString (o : Option String) :
    Agree (decodeNullable decodeString) (decodeNullable decodeString) o :=
  Agree.nullable fun s _ => agree_decodeString s

/-- Items are read one by one. -/
theorem forall₂_ordered {p : Json → Prop} {items : List Json} (hd : ∀ j ∈ items, j.distinctKeys = true) {l : List α}
    (h : ∀ a ∈ l, AgreeWhere p decode decode' a) :
    List.Forall₂ (fun j a => decode j = .ok a) (items.map ordered) l ↔
      List.Forall₂ (fun j a => decode' j = .ok a) items l ∧ ∀ j ∈ items, p j := by
  rw [List.forall₂_map_left_iff]
  induction items generalizing l with
  | nil => simp
  | cons j items ih =>
    rw [List.forall_mem_cons] at hd
    cases l with
    | nil => exact ⟨fun h => (nomatch h), fun ⟨h, _⟩ => nomatch h⟩
    | cons a l =>
      rw [List.forall_mem_cons] at h
      rw [List.forall₂_cons, List.forall₂_cons, List.forall_mem_cons, h.1 (rearranged_ordered hd.1), ih hd.2 h.2]
      exact and_and_and_comm

theorem AgreeWhere.list {p : Json → Prop} {l : List α} (h : ∀ a ∈ l, AgreeWhere p decode decode' a) :
    AgreeWhere (fun j => ∀ i ∈ j.items, p i) (decodeList decode) (decodeList decode') l := by
  intro j' j hj
  rw [decodeList_eq_ok, decodeList_eq_ok]
  cases hj with
  | array hd =>
    constructor
    · rintro ⟨_, hi, hl⟩
      cases hi
      obtain ⟨hl, hp⟩ := (forall₂_ordered hd h).mp hl
      exact ⟨⟨_, rfl, hl⟩, hp⟩
    · rintro ⟨⟨_, hi, hl⟩, hp⟩
      cases hi
      exact ⟨_, rfl, (forall₂_ordered hd h).mpr ⟨hl, hp⟩⟩
  | _ => exact ⟨fun ⟨_, hi, _⟩ => (nomatch hi), fun ⟨⟨_, hi, _⟩, _⟩ => nomatch hi⟩

theorem Agree.list {l : List α} (h : ∀ a ∈ l, Agree decode decode' a) :
    Agree (decodeList decode) (decodeList decode') l := by
  intro j' j hj
  rw [AgreeWhere.list (fun a ha => (h a ha).agreeWhere) hj]
  simp

/-- What a rearranged object or array gives to read a record from. -/
inductive RecordSource.Rearranged : RecordSource → RecordSource → Prop
  | items {items : List Json} (hd : ∀ j ∈ items, j.distinctKeys = true) :
    Rearranged (.items (items.map ordered)) (.items items)
  | members {members members' : List (String × Json)}
    (hp : members'.Perm (members.map fun m => (m.1, m.2.ordered))) (hn : (members.map (·.1)).Nodup)
    (hd : ∀ m ∈ members, m.2.distinctKeys = true) : Rearranged (.members members') (.members members)

namespace RecordSource.Rearranged

variable {source' source : RecordSource} (h : source'.Rearranged source) {fields : List String} {field : String}

include h

theorem isObject_eq : source'.isObject = source.isObject := by cases h <;> rfl

theorem fits : source'.Fits fields ↔ source.Fits fields := by
  cases h with
  | items => rw [Fits, Fits, List.length_map]
  | members hp =>
    have hnames := (hp.map (·.1)).filter fields.contains
    rw [List.map_map] at hnames
    exact hnames.nodup_iff

/-- A field has the same value, sorted. -/
theorem value?_eq : source'.value? fields field = (source.value? fields field).map ordered := by
  cases h with
  | items => exact List.getElem?_map
  | members hp hn => exact find?_rearranged hp hn field

theorem distinctKeys_value {j : Json} (hj : source.value? fields field = some j) : j.distinctKeys = true := by
  cases h with
  | items hd => exact hd j (List.mem_of_getElem? hj)
  | members _ _ hd =>
    obtain ⟨m, hm, rfl⟩ := Option.map_eq_some_iff.mp hj
    exact hd m (List.mem_of_find?_eq_some hm)

theorem readsWhere {p : Json → Prop} (ha : AgreeWhere p decode decode' a) :
    source'.Reads fields field decode a ↔
      source.Reads fields field decode' a ∧ ∀ j ∈ source.value? fields field, p j := by
  rw [Reads, Reads, h.value?_eq]
  cases hj : source.value? fields field with
  | none => simp
  | some j => simpa using ha (rearranged_ordered (h.distinctKeys_value hj))

theorem reads (ha : Agree decode decode' a) : source'.Reads fields field decode a ↔ source.Reads fields field decode' a := by
  rw [h.readsWhere ha.agreeWhere]
  simp

theorem readsOptional {decode decode' : Json → Decoded (Option α)} {o : Option α} (ho : Agree decode decode' o) :
    source'.ReadsOptional fields field decode o ↔ source.ReadsOptional fields field decode' o := by
  rw [ReadsOptional, ReadsOptional, h.reads ho, h.value?_eq, h.isObject_eq, Option.map_eq_none_iff]

theorem readsDefaulted {decode decode' : Json → Decoded (Option α)} {o : Option α} (ho : Agree decode decode' o) :
    source'.ReadsDefaulted fields field decode o ↔ source.ReadsDefaulted fields field decode' o := by
  rw [ReadsDefaulted, ReadsDefaulted, h.reads ho, h.value?_eq, Option.map_eq_none_iff]

end RecordSource.Rearranged

/-- Two ways of reading records agree where a field satisfies a condition, if they agree so on what records are read from. -/
theorem agreeWhere_of_source {P P' : RecordSource → Prop} {fields : List String} {field : String} {p : Json → Prop}
    (hdecode : ∀ j, decode j = .ok a ↔ ∃ source, j.source? = some source ∧ P source)
    (hdecode' : ∀ j, decode' j = .ok a ↔ ∃ source, j.source? = some source ∧ P' source)
    (h : ∀ source' source, source'.Rearranged source → (P source' ↔ P' source ∧ ∀ v ∈ source.value? fields field, p v)) :
    AgreeWhere (fun j => ∀ v ∈ j.field? fields field, p v) decode decode' a := by
  intro j' j hj
  rw [hdecode, hdecode']
  cases hj with
  | array hd =>
    have hsource := h _ _ (.items hd)
    simpa [source?, field?] using hsource
  | object hp hn hd =>
    have hsource := h _ _ (.members hp hn hd)
    simpa [source?, field?] using hsource
  | _ => exact ⟨fun ⟨_, hs, _⟩ => (nomatch hs), fun ⟨⟨_, hs, _⟩, _⟩ => nomatch hs⟩

theorem agree_of_source {P P' : RecordSource → Prop}
    (hdecode : ∀ j, decode j = .ok a ↔ ∃ source, j.source? = some source ∧ P source)
    (hdecode' : ∀ j, decode' j = .ok a ↔ ∃ source, j.source? = some source ∧ P' source)
    (h : ∀ source' source, source'.Rearranged source → (P source' ↔ P' source)) : Agree decode decode' a := by
  have hwhere : AgreeWhere (fun j => ∀ v ∈ j.field? [] "", True) decode decode' a :=
    agreeWhere_of_source hdecode hdecode' fun source' source hs => by simpa using h source' source hs
  intro j' j hj
  rw [hwhere hj]
  simp

end

end SchemaWeave.Json
