import SchemaWeave.Proofs.Introspection.Agree
import SchemaWeave.Proofs.Introspection.Response
import SchemaWeave.Proofs.Run

/-!
# Live and stored results

A body that repeats no name is read as a response exactly if it reports no errors, its data is read as that of a stored result,
and every listed type names its kind (`readSchema_eq_ok`). So what a server answers may be kept in a file, and a file may be served
unless it gives a kind by its position (`live_and_stored`).
-/

namespace SchemaWeave

open Files Http

namespace Introspection

open Json

/-- Whether every type that a body lists gives its kind by name. -/
def NamesKinds (body : Json) : Prop := ∀ data ∈ body.get? "data", ∀ t ∈ listedTypes data, namesKind t = true

theorem readResponse_eq_ok {status : Nat} {body : String} {j data : Json} (hbody : Json.parse body = .ok j) :
    readResponse status body = .ok data ↔
      reportedErrors j.ordered = [] ∧ j.ordered.get? "data" = some data ∧ data ≠ .null := by
  rw [readResponse, hbody]
  simp only
  cases reportedErrors j.ordered with
  | cons => simp
  | nil =>
    cases j.ordered.get? "data" with
    | none => simp
    | some found => cases found <;> simp +contextual [eq_comm]

theorem SchemaInfo.ne_null_of_decodeData {h : Holding} {data : Json} {d : SchemaInfo} (hd : decodeData h data = .ok d) :
    data ≠ .null := by
  rintro rfl
  obtain ⟨_, hs, -⟩ := decodeData_eq_ok.mp hd
  exact nomatch hs

section

variable {members : List (String × Json)} (hkeys : (Json.object members).distinctKeys = true)

include hkeys

theorem SchemaInfo.decodeEnvelope_object {h : Holding} {d : SchemaInfo} :
    decodeEnvelope h (.object members) = .ok d ↔
      ∃ data, (Json.object members).get? "data" = some data ∧ decodeData h data = .ok d := by
  rw [decodeEnvelope_eq_ok, reads_object hkeys]

theorem SchemaInfo.decodeData_object {h : Holding} {d : SchemaInfo} :
    decodeData h (.object members) = .ok d ↔
      ∃ schema, (Json.object members).get? "__schema" = some schema ∧ SchemaInfo.decode h schema = .ok d := by
  rw [decodeData_eq_ok, reads_object hkeys]

/-- Data with its members sorted is read as it is read when it was set aside, if every listed type names its kind. -/
theorem SchemaInfo.decodeData_ordered {d : SchemaInfo} :
    (∃ data, (Json.object members).ordered.get? "data" = some data ∧ decodeData .plain data = .ok d) ↔
      (∃ data, (Json.object members).get? "data" = some data ∧ decodeData .aside data = .ok d) ∧
        NamesKinds (.object members) := by
  rw [NamesKinds, get?_ordered]
  cases hdata : (Json.object members).get? "data" with
  | none => simp
  | some data =>
    have hagree := agreeWhere_data d (rearranged_ordered (distinctKeys_get? hkeys hdata))
    simpa using hagree

/-- An object without a schema of its own is read with its envelope or not at all. -/
theorem SchemaInfo.ofStored_eq_some {d : SchemaInfo} (hschema : (Json.object members).get? "__schema" = none) :
    ofStored (.object members) = some d ↔ decodeEnvelope .aside (.object members) = .ok d := by
  rw [ofStored]
  cases decodeEnvelope .aside (.object members) with
  | ok info => simp
  | error e =>
    cases hdata : decodeData .aside (.object members) with
    | error e => simp [Except.toOption]
    | ok info =>
      obtain ⟨schema, hs, -⟩ := (decodeData_object hkeys).mp hdata
      exact absurd (hschema.symm.trans hs) (by simp)

/-- **A body is read live** exactly if it reports no errors, its data is read as that of a stored result, and every listed type
names its kind. -/
theorem readSchema_eq_ok {body : String} (hbody : Json.parse body = .ok (.object members)) {status : Nat} {d : SchemaInfo} :
    readSchema status body = .ok d ↔ ReportsNone (.object members) ∧
      SchemaInfo.decodeEnvelope .aside (.object members) = .ok d ∧ NamesKinds (.object members) := by
  rw [SchemaInfo.decodeEnvelope_object hkeys, ← SchemaInfo.decodeData_ordered hkeys, ← reportedErrors_eq_nil_iff]
  simp only [readSchema, bind_eq_ok, readResponse_eq_ok hbody, SchemaInfo.ofResponse, mapError_eq_ok]
  constructor
  · rintro ⟨data, ⟨hnone, hdata, -⟩, hd⟩
    exact ⟨hnone, data, hdata, hd⟩
  · rintro ⟨hnone, data, hdata, hd⟩
    exact ⟨data, ⟨hnone, hdata, SchemaInfo.ne_null_of_decodeData hd⟩, hd⟩

end

end Introspection

/-! ## Servers and files -/

open Introspection

/-- The remote schema as a client gets it in a world. -/
def World.fetched (w : World) (client : Client) (source : RemoteSource) : Except SchemaError Fragment :=
  ((fetchRemote client source : StateM World _).run w).1

/-- A server answers a client with a body, perhaps where another one has sent the client on to, and a file for stored results
holds the same body. -/
structure World.Gives (w : World) (client : Client) (endpoint : Endpoint) (path : Path) (status : Nat) (body : String) :
    Prop where
  answers : ∃ location, ((client.post endpoint : StateM World _).run w).1 = .ok { status, body, location }
  stored : isStoredResult path = true
  holds : ((Host.readText path : StateM World _).run w).1 = .ok body

section

variable {w : World} {client : Client} {endpoint : Endpoint} {path : Path} {status : Nat} {body : String}
  (hw : w.Gives client endpoint path status body) {fragment : Fragment}

include hw

/-- The server's schema is that of its body as a response. -/
theorem fetched_url : w.fetched client (.url endpoint) = .ok fragment ↔
    ∃ d, readSchema status body = .ok d ∧ { source := endpoint.url, sdl := d.sdl } = fragment := by
  obtain ⟨location, hanswer⟩ := hw.answers
  have hrun : w.fetched client (.url endpoint) =
      ((readSchema status body).mapError .remote).map fun d => { source := endpoint.url, sdl := d.sdl } := by
    simp only [World.fetched, fetchRemote, Client.fetchSdl, Client.fetch, run_bind, hanswer]
    cases h : readSchema status body <;> simp only [run_pure] <;> rfl
  rw [hrun, Json.map_eq_ok]
  simp only [Json.mapError_eq_ok]

/-- The file's schema is that of the body as a stored result. -/
theorem fetched_file : w.fetched client (.file path) = .ok fragment ↔
    ∃ d, SchemaInfo.ofText body = .ok d ∧ { source := path, sdl := d.sdl } = fragment := by
  have hrun : w.fetched client (.file path) =
      ((SchemaInfo.ofText body).mapError fun e => .load (.invalidIntrospection path e)).map
        fun d => { source := path, sdl := d.sdl } := by
    simp only [World.fetched, fetchRemote, loadStatic, if_pos hw.stored, loadStored, run_bind, hw.holds]
    cases SchemaInfo.ofText body <;> rfl
  rw [hrun, Json.map_eq_ok]
  simp only [Json.mapError_eq_ok]

end

/-- **Live and stored results agree.** Let a body hold an object that repeats no name at any depth. What it is read as in a
response with any status, it is read as in a file. What it is read as in a file, if it has no schema outside its data and
reports no errors, it is read as in a response with any status if and only if every type that it lists names its kind. So a
server that answers with the body and a file that holds it give the same text. -/
theorem live_and_stored {body : String} {members : List (String × Json)}
    (hbody : Json.parse body = .ok (.object members)) (hkeys : (Json.object members).distinctKeys = true) :
    (∀ status d, readSchema status body = .ok d → SchemaInfo.ofText body = .ok d) ∧
    ((Json.object members).get? "__schema" = none → ReportsNone (.object members) →
      ∀ d, SchemaInfo.ofText body = .ok d → ∀ status, readSchema status body = .ok d ↔ NamesKinds (.object members)) ∧
    ∀ (w : World) client endpoint path status, w.Gives client endpoint path status body →
      (∀ fragment, w.fetched client (.url endpoint) = .ok fragment →
        w.fetched client (.file path) = .ok { source := path, sdl := fragment.sdl }) ∧
      ((Json.object members).get? "__schema" = none → ReportsNone (.object members) → NamesKinds (.object members) →
        ∀ fragment, w.fetched client (.file path) = .ok fragment →
          w.fetched client (.url endpoint) = .ok { source := endpoint.url, sdl := fragment.sdl }) := by
  have hforth (status : Nat) (d : SchemaInfo) (h : readSchema status body = .ok d) : SchemaInfo.ofText body = .ok d := by
    obtain ⟨-, henvelope, -⟩ := (readSchema_eq_ok hkeys hbody).mp h
    exact (SchemaInfo.ofText_of_parse hbody).mpr (SchemaInfo.ofStored_of_envelope henvelope)
  have hback (hschema : (Json.object members).get? "__schema" = none) (hnone : ReportsNone (.object members))
      (d : SchemaInfo) (h : SchemaInfo.ofText body = .ok d) (status : Nat) :
      readSchema status body = .ok d ↔ NamesKinds (.object members) := by
    rw [SchemaInfo.ofText_of_parse hbody, SchemaInfo.ofStored_eq_some hkeys hschema] at h
    rw [readSchema_eq_ok hkeys hbody]
    exact ⟨fun h => h.2.2, fun hnames => ⟨hnone, h, hnames⟩⟩
  refine ⟨hforth, hback, fun w client endpoint path status hw => ⟨fun fragment h => ?_, ?_⟩⟩
  · obtain ⟨d, hd, rfl⟩ := (fetched_url hw).mp h
    exact (fetched_file hw).mpr ⟨d, hforth status d hd, rfl⟩
  · intro hschema hnone hnames fragment h
    obtain ⟨d, hd, rfl⟩ := (fetched_file hw).mp h
    exact (fetched_url hw).mpr ⟨d, (hback hschema hnone d hd status).mpr hnames, rfl⟩

/-- A body with one type, whose kind is given in this way. -/
def oneType (kind : String) : String :=
  "\x7b\"errors\":null,\"data\":\x7b\"__schema\":\x7b\"types\":[\x7b\"name\":\"A\",\"kind\":" ++ kind ++
    "\x7d],\"directives\":[]\x7d\x7d\x7d"

/-- What such a body holds. -/
def oneTypeMembers (kind : Json) : List (String × Json) :=
  [("errors", .null), ("data", .object [("__schema",
    .object [("types", .array [.object [("name", .string "A"), ("kind", kind)]]), ("directives", .array [])])])]

/-- A server that answers with a body, and a file that holds it. -/
def World.giving (body : String) : World :=
  { files := .dir [("a.json", .file body.toUTF8)], network := fun _ => .ok { status := 500, body } }

/-- A kind by its name, behind the name of the type. -/
theorem live_and_stored_name :
    Json.parse (oneType "\"SCALAR\"") = .ok (.object (oneTypeMembers (.string "SCALAR"))) ∧
    (Json.object (oneTypeMembers (.string "SCALAR"))).distinctKeys = true ∧
    (World.giving (oneType "\"SCALAR\"")).Gives {} ⟨"http://a", false⟩ "a.json" 500 (oneType "\"SCALAR\"") ∧
    ∃ d : SchemaInfo, SchemaInfo.ofText (oneType "\"SCALAR\"") = .ok d ∧ readSchema 500 (oneType "\"SCALAR\"") = .ok d ∧
      (World.giving (oneType "\"SCALAR\"")).fetched {} (.url ⟨"http://a", false⟩) =
        .ok { source := "http://a", sdl := d.sdl } ∧
      (World.giving (oneType "\"SCALAR\"")).fetched {} (.file "a.json") = .ok { source := "a.json", sdl := d.sdl } := by
  have hbody : Json.parse (oneType "\"SCALAR\"") = .ok (.object (oneTypeMembers (.string "SCALAR"))) := by rfl
  have hkeys : (Json.object (oneTypeMembers (.string "SCALAR"))).distinctKeys = true := by decide
  have hgives : (World.giving (oneType "\"SCALAR\"")).Gives {} ⟨"http://a", false⟩ "a.json" 500 (oneType "\"SCALAR\"") :=
    ⟨⟨none, by decide +kernel⟩, by decide +kernel, by decide +kernel⟩
  have hnone : ReportsNone (.object (oneTypeMembers (.string "SCALAR"))) := fun _ h => .inl (Option.some.inj h).symm
  have hnames : NamesKinds (.object (oneTypeMembers (.string "SCALAR"))) := by
    intro data hdata t ht
    obtain rfl := Option.some.inj hdata
    obtain rfl := List.mem_singleton.mp ht
    rfl
  have hstored : SchemaInfo.ofText (oneType "\"SCALAR\"") = .ok ⟨none, none, none, [⟨"A", none, .scalar⟩], []⟩ := by
    decide +kernel
  obtain ⟨hforth, hback, hworld⟩ := live_and_stored hbody hkeys
  have hlive := (hback rfl hnone _ hstored 500).mpr hnames
  obtain ⟨hfile, hserver⟩ := hworld _ _ _ _ _ hgives
  have hfetched := hserver rfl hnone hnames _ ((fetched_file hgives).mpr ⟨_, hforth _ _ hlive, rfl⟩)
  exact ⟨hbody, hkeys, hgives, _, hstored, hlive, hfetched, hfile _ hfetched⟩

/-- A kind by its position is read from a file, and not from a response. -/
theorem live_and_stored_position :
    Json.parse (oneType "0") = .ok (.object (oneTypeMembers (.number (.int 0)))) ∧
    (Json.object (oneTypeMembers (.number (.int 0)))).distinctKeys = true ∧
    (Json.object (oneTypeMembers (.number (.int 0)))).get? "__schema" = none ∧
    (Json.object (oneTypeMembers (.number (.int 0)))).get? "errors" = some .null ∧
    (∃ d : SchemaInfo, SchemaInfo.ofText (oneType "0") = .ok d) ∧
    (readSchema 200 (oneType "0")).toOption = none :=
  ⟨rfl, by decide, rfl, rfl, ⟨⟨none, none, none, [⟨"A", none, .scalar⟩], []⟩, by decide +kernel⟩, by decide +kernel⟩

end SchemaWeave
