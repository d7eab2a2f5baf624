import SchemaWeave.Introspection.Response
import SchemaWeave.Proofs.Json.Ordered

/-!
# What a response comes to

A body that is no JSON fails by the status. The status of any other body does not count: the last member for errors, if it is
neither null nor an empty list, fails the response with one text for each error, and else the last member for data is what the
response holds, unless it is missing or null (`Classified`). Exactly one of these holds of a body (`readResponse_classifies`).
-/

namespace SchemaWeave.Introspection

/-- Whether a body reports no errors. -/
def ReportsNone (body : Json) : Prop := ∀ errors ∈ body.get? "errors", errors = .null ∨ errors = .array []

/-- The errors of a member for errors: those of a list, or what stands there in place of one. -/
def listedErrors : Json → List Json
  | .array errors => errors
  | error => [error]

/-- The text for an error: its message, or all of it if it has no message that is a text. -/
inductive Words : Json → String → Prop
  | message {error : Json} {text : String} (h : error.get? "message" = some (.string text)) : Words error text
  | whole {error : Json} (h : ∀ text, error.get? "message" ≠ some (.string text)) : Words error error.ordered.compact

/-- What a response comes to whose body holds a value. -/
inductive Classified (body : String) (j : Json) : Except FetchError Json → Prop
  | errors {errors : Json} {texts : List String} (h : j.get? "errors" = some errors) (hnull : errors ≠ .null)
    (hempty : errors ≠ .array []) (htexts : List.Forall₂ Words (listedErrors errors) texts) :
    Classified body j (.error (.queryErrors texts))
  | data {data : Json} (h : ReportsNone j) (hdata : j.get? "data" = some data) (hnull : data ≠ .null) :
    Classified body j (.ok data.ordered)
  | noData (h : ReportsNone j) (hdata : ∀ data ∈ j.get? "data", data = .null) : Classified body j (.error (.noData body))

theorem ordered_eq_null_iff {j : Json} : j.ordered = .null ↔ j = .null := by cases j <;> simp [Json.ordered]

/-- The text for an error is told from its sorted view. -/
theorem words_errorText (error : Json) : Words error (errorText error.ordered) := by
  rw [errorText, Json.get?_ordered]
  cases h : error.get? "message" with
  | none => exact .whole fun text => by simp [h]
  | some message =>
    cases message with
    | string text => exact .message h
    | _ => exact .whole fun text => by simp [h]

theorem forall₂_words (errors : List Json) : List.Forall₂ Words errors ((errors.map Json.ordered).map errorText) := by
  rw [List.map_map, List.forall₂_map_right_iff, List.forall₂_same]
  exact fun error _ => words_errorText error

/-- The errors that the sorted view of a body reports. -/
theorem reportedErrors_eq (j : Json) : reportedErrors j.ordered =
    match j.get? "errors" with
    | none | some .null => []
    | some errors => (listedErrors errors).map Json.ordered := by
  rw [reportedErrors, Json.get?_ordered]
  cases j.get? "errors" with
  | none => rfl
  | some errors => cases errors <;> simp [Json.ordered, Json.orderedItems_eq, listedErrors]

theorem reportedErrors_eq_nil_iff {j : Json} : reportedErrors j.ordered = [] ↔ ReportsNone j := by
  rw [reportedErrors_eq, ReportsNone]
  cases j.get? "errors" with
  | none => simp
  | some errors => cases errors <;> simp [listedErrors]

/-- A body that reports errors has a member for them, and comes to their texts. -/
theorem classified_errors {body : String} {j : Json} (h : ¬ReportsNone j) :
    Classified body j (.error (.queryErrors ((reportedErrors j.ordered).map errorText))) := by
  simp only [ReportsNone, not_forall, not_or, Option.mem_def] at h
  obtain ⟨errors, hmember, hnull, hempty⟩ := h
  have hreported : reportedErrors j.ordered = (listedErrors errors).map Json.ordered := by
    rw [reportedErrors_eq, hmember]
    cases errors <;> first | rfl | exact absurd rfl hnull
  rw [hreported]
  exact .errors hmember hnull hempty (forall₂_words _)

/-- A body that reports no errors comes to its data, or to none. -/
theorem classified_data {body : String} {j : Json} (h : ReportsNone j) :
    Classified body j (match j.ordered.get? "data" with
      | none | some .null => .error (.noData body)
      | some data => .ok data) := by
  rw [Json.get?_ordered]
  cases hdata : j.get? "data" with
  | none => exact .noData h (by simp [hdata])
  | some data =>
    by_cases hnull : data = .null
    · subst hnull
      exact .noData h (by simp [hdata])
    · have hordered : data.ordered ≠ .null := fun h => hnull (ordered_eq_null_iff.mp h)
      have hok : Classified body j (.ok data.ordered) := .data h hdata hnull
      rw [Option.map_some]
      split
      · next he => cases he
      · next he => exact absurd (Option.some.inj he) hordered
      · next he => exact Option.some.inj he ▸ hok

theorem classified_readResponse (status : Nat) {body : String} {j : Json} (hbody : Json.parse body = .ok j) :
    Classified body j (readResponse status body) := by
  rw [readResponse, hbody]
  dsimp only
  split
  · next hnil => exact classified_data (reportedErrors_eq_nil_iff.mp hnil)
  · next hne => exact classified_errors fun hnone => hne (reportedErrors_eq_nil_iff.mpr hnone)

/-- The status of a body that holds a value does not count. -/
theorem readResponse_congr {body : String} {j : Json} (hbody : Json.parse body = .ok j) (status other : Nat) :
    readResponse other body = readResponse status body := by
  rw [readResponse, readResponse, hbody]

/-- Only an object has members. -/
theorem object_of_get? {j : Json} {name : String} {value : Json} (h : j.get? name = some value) :
    ∃ members, j = .object members := by
  cases j with
  | object members => exact ⟨members, rfl⟩
  | _ => cases h

theorem Classified.accepted {body : String} {j : Json} {data : Json} (h : Classified body j (.ok data)) :
    (∃ members, j = .object members) ∧ ReportsNone j := by
  cases h with
  | data hnone hdata _ => exact ⟨object_of_get? hdata, hnone⟩

/-- **How a response is classified**, for every status and body. A body that is no JSON is unreadable or, with a status that
reports no success, an answer of the server that is kept whole. Any other body comes to the same with every status: to its
errors, whose texts are listed in order and joined in the message, or else to its data, or else to none. So a body that
reports errors is never accepted, nor is a body that is no object. -/
theorem readResponse_classifies (status : Nat) (body : String) :
    match Json.parse body with
    | .error reason =>
      readResponse status body = .error (if 200 ≤ status ∧ status ≤ 299 then .unreadable reason else .http status body)
    | .ok j =>
      Classified body j (readResponse status body) ∧
      (∀ other, readResponse other body = readResponse status body) ∧
      (∀ texts, (FetchError.queryErrors texts).message =
        "Errors in introspection query result: " ++ "; ".intercalate texts) ∧
      ∀ data, readResponse status body = .ok data → (∃ members, j = .object members) ∧ ReportsNone j := by
  cases hbody : Json.parse body with
  | error reason =>
    have hsuccess : isSuccess status = true ↔ 200 ≤ status ∧ status ≤ 299 := by
      simp only [isSuccess, Bool.and_eq_true, decide_eq_true_eq]
      omega
    simp only [readResponse, hbody, hsuccess]
  | ok j =>
    have hclassified := classified_readResponse status hbody
    refine ⟨hclassified, readResponse_congr hbody status, fun _ => rfl, fun data hdata => ?_⟩
    rw [hdata] at hclassified
    exact hclassified.accepted

/-- The last of several members counts, and an error without a text for its message is told whole. -/
example : (match readResponse 404 "\x7b\"errors\":[],\"errors\":[\x7b\"message\":\"no\"\x7d,\x7b\"message\":1\x7d]\x7d" with
    | .error e => e.message
    | .ok _ => "") = "Errors in introspection query result: no; \x7b\"message\":1\x7d" := by
  decide +kernel

end SchemaWeave.Introspection
