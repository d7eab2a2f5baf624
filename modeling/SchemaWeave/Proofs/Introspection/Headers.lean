import Mathlib.Data.List.Induction
import Mathlib.Data.List.Nodup
import SchemaWeave.Proofs.Run

/-!
# The headers of a client

The headers of a client stand in the order of their names, one for each name (`Ordered`). Of the values that a name is given
the last one counts (`IsLast`), in whatever calls they come: what is last for a name decides what its header is
(`mem_ofList`), and so what the client is (`Client.after_congr`). A client whose headers may be sent sends them with its
request, beside those of the address and two that every request has (`Client.sends`); any other client sends nothing
(`Client.refuses`).
-/

namespace SchemaWeave.Http

/-! ## Headers by name -/

/-- Headers in the order of their names, which are all different. -/
def Ordered (headers : Headers) : Prop := headers.Pairwise fun p q => p.1 < q.1

theorem Ordered.nodup_names {headers : Headers} (h : Ordered headers) : (headers.map (·.1)).Nodup := by
  refine List.pairwise_map.mpr (h.imp fun hlt heq => ?_)
  rw [heq] at hlt
  exact String.lt_irrefl _ hlt

/-- Headers are the same if each name has the same value in both. -/
theorem Ordered.ext {headers headers' : Headers} (h : Ordered headers) (h' : Ordered headers')
    (hmem : ∀ p, p ∈ headers ↔ p ∈ headers') : headers = headers' := by
  have hperm : headers.Perm headers' :=
    (List.perm_ext_iff_of_nodup (List.Nodup.of_map _ h.nodup_names) (List.Nodup.of_map _ h'.nodup_names)).mpr hmem
  refine hperm.eq_of_pairwise (fun p q _ _ hpq hqp => ?_) h h'
  exact absurd (String.lt_trans hpq hqp) (String.lt_irrefl _)

theorem ordered_cons {p : String × String} {headers : Headers} :
    Ordered (p :: headers) ↔ (∀ q ∈ headers, p.1 < q.1) ∧ Ordered headers := List.pairwise_cons

/-- What is less than the first name is less than all. -/
theorem Ordered.lt_of_mem {name : String} {p q : String × String} {headers : Headers} (h : Ordered (p :: headers))
    (hlt : name < p.1) (hq : q ∈ p :: headers) : name < q.1 := by
  rcases List.mem_cons.mp hq with rfl | hq
  · exact hlt
  · exact String.lt_trans hlt ((ordered_cons.mp h).1 q hq)

/-- A name that is set has the new value alone, and other names keep theirs. -/
theorem mem_set {name value : String} {headers : Headers} (h : Ordered headers) (p : String × String) :
    p ∈ Headers.set name value headers ↔ p = (name, value) ∨ p.1 ≠ name ∧ p ∈ headers := by
  -- no header of the name stands where all names are greater
  have hgreater {headers : Headers} (hafter : ∀ q ∈ headers, name < q.1) : p.1 ≠ name ∧ p ∈ headers ↔ p ∈ headers := by
    refine and_iff_right_of_imp fun hp heq => ?_
    have hlt := hafter p hp
    rw [heq] at hlt
    exact String.lt_irrefl _ hlt
  induction headers with
  | nil => simp [Headers.set]
  | cons q headers ih =>
    obtain ⟨n, v⟩ := q
    obtain ⟨hafter, hordered⟩ := ordered_cons.mp h
    rw [Headers.set]
    split_ifs with hlt heq
    · rw [List.mem_cons, hgreater fun q hq => h.lt_of_mem hlt hq]
    · subst heq
      rw [List.mem_cons, List.mem_cons, and_or_left, hgreater hafter]
      have hnone : ¬(p.1 ≠ name ∧ p = (name, v)) := by
        rintro ⟨hne, rfl⟩
        exact hne rfl
      rw [or_iff_right hnone]
    · have hkept : p.1 ≠ name ∧ p = (n, v) ↔ p = (n, v) := by
        refine and_iff_right_of_imp ?_
        rintro rfl hname
        exact heq hname.symm
      rw [List.mem_cons, List.mem_cons, and_or_left, hkept, or_left_comm]
      exact or_congr_right (ih hordered)

theorem Ordered.set {headers : Headers} (h : Ordered headers) (name value : String) :
    Ordered (Headers.set name value headers) := by
  induction headers with
  | nil => exact List.pairwise_singleton _ _
  | cons q headers ih =>
    obtain ⟨n, v⟩ := q
    obtain ⟨hafter, hordered⟩ := ordered_cons.mp h
    rw [Headers.set]
    split_ifs with hlt heq
    · exact ordered_cons.mpr ⟨fun q hq => h.lt_of_mem hlt hq, h⟩
    · subst heq
      exact ordered_cons.mpr ⟨hafter, hordered⟩
    · refine ordered_cons.mpr ⟨fun p hp => ?_, ih hordered⟩
      rcases (mem_set hordered p).mp hp with rfl | ⟨-, hp⟩
      · exact String.not_le.mp fun hle => heq (String.le_antisymm hle (String.not_lt.mp hlt))
      · exact hafter p hp

/-! ## The last value of a name -/

/-- The last value that a name is given. -/
def IsLast (pairs : List (String × String)) (name value : String) : Prop :=
  ∃ before after, pairs = before ++ (name, value) :: after ∧ ∀ p ∈ after, p.1 ≠ name

theorem not_isLast_nil (name value : String) : ¬IsLast [] name value := by
  rintro ⟨before, after, h, -⟩
  exact List.append_ne_nil_of_right_ne_nil _ (List.cons_ne_nil _ _) h.symm

theorem isLast_concat {pairs : List (String × String)} {name value n v : String} :
    IsLast (pairs ++ [(name, value)]) n v ↔ (n, v) = (name, value) ∨ n ≠ name ∧ IsLast pairs n v := by
  constructor
  · rintro ⟨before, after, h, hafter⟩
    rcases List.eq_nil_or_concat after with rfl | ⟨after, q, rfl⟩
    · exact .inl (List.singleton_inj.mp (List.append_inj' h rfl).2).symm
    · rw [List.concat_eq_append, ← List.cons_append, ← List.append_assoc] at h
      obtain ⟨hpairs, hq⟩ := List.append_inj' h rfl
      cases hq
      refine .inr ⟨fun hn => ?_, before, after, hpairs, fun p hp => hafter p ?_⟩
      · exact hafter (name, value) (by simp) hn.symm
      · simp [hp]
  · rintro (h | ⟨hne, before, after, rfl, hafter⟩)
    · cases h
      exact ⟨pairs, [], rfl, fun _ hp => (nomatch hp)⟩
    · refine ⟨before, after ++ [(name, value)], by simp, fun p hp => ?_⟩
      rcases List.mem_append.mp hp with hp | hp
      · exact hafter p hp
      · rw [List.mem_singleton.mp hp]
        exact Ne.symm hne

/-- What is last for a name is seen among what the name is given. -/
theorem isLast_iff_getLast? {pairs : List (String × String)} {name value : String} :
    IsLast pairs name value ↔ (pairs.filter (·.1 = name)).getLast? = some (name, value) := by
  induction pairs using List.reverseRecOn with
  | nil => simp [not_isLast_nil]
  | append_singleton pairs p ih =>
    obtain ⟨n, v⟩ := p
    rw [isLast_concat, ih, List.filter_append]
    by_cases hn : n = name
    · simp [hn, eq_comm]
    · simp [hn, Ne.symm hn]

theorem ofList_concat (pairs : List (String × String)) (name value : String) :
    Headers.ofList (pairs ++ [(name, value)]) = Headers.set name value (Headers.ofList pairs) := by
  rw [Headers.ofList, List.foldl_append]
  rfl

theorem ordered_ofList (pairs : List (String × String)) : Ordered (Headers.ofList pairs) := by
  induction pairs using List.reverseRecOn with
  | nil => exact List.Pairwise.nil
  | append_singleton pairs p ih =>
    rw [ofList_concat]
    exact ih.set _ _

/-- The header of a name has the last value that the name is given. -/
theorem mem_ofList {pairs : List (String × String)} {name value : String} :
    (name, value) ∈ Headers.ofList pairs ↔ IsLast pairs name value := by
  induction pairs using List.reverseRecOn with
  | nil => exact iff_of_false (fun h => (nomatch h)) (not_isLast_nil _ _)
  | append_singleton pairs p ih =>
    rw [ofList_concat, mem_set (ordered_ofList pairs), isLast_concat, ih]

end SchemaWeave.Http

namespace SchemaWeave.Introspection

open Http

/-! ## Clients by their calls -/

/-- A call that gives a client more headers. -/
inductive HeaderCall
  | one (name value : String)
  | many (pairs : List (String × String))

/-- The names and values that a call gives, in its order. -/
def HeaderCall.pairs : HeaderCall → List (String × String)
  | one name value => [(name, value)]
  | many pairs => pairs

def Client.call (c : Client) : HeaderCall → Client
  | .one name value => c.withHeader name value
  | .many pairs => c.withHeaders pairs

/-- The client that calls make of one with a time limit and no headers. -/
def Client.after (timeout : Option Nat) (calls : List HeaderCall) : Client := calls.foldl Client.call { timeout }

theorem Client.call_eq (c : Client) (call : HeaderCall) :
    c.call call = { c with headers := call.pairs.foldl (fun headers p => Headers.set p.1 p.2 headers) c.headers } := by
  cases call <;> rfl

/-- It does not matter in which calls the headers are given. -/
theorem Client.after_eq (timeout : Option Nat) (calls : List HeaderCall) :
    Client.after timeout calls = { headers := Headers.ofList (calls.flatMap HeaderCall.pairs), timeout } := by
  induction calls using List.reverseRecOn with
  | nil => rfl
  | append_singleton calls call ih =>
    have hcall : Client.after timeout (calls ++ [call]) = (Client.after timeout calls).call call := List.foldl_append
    rw [hcall, ih, Client.call_eq, List.flatMap_append, List.flatMap_singleton, Headers.ofList, Headers.ofList,
      List.foldl_append]

/-- Clients are the same if for each name the same value is the last one. -/
theorem Client.after_congr {timeout : Option Nat} {calls calls' : List HeaderCall}
    (h : ∀ name value, IsLast (calls.flatMap HeaderCall.pairs) name value ↔
      IsLast (calls'.flatMap HeaderCall.pairs) name value) : Client.after timeout calls = Client.after timeout calls' := by
  have hheaders := (ordered_ofList _).ext (ordered_ofList _) fun p => mem_ofList.trans ((h p.1 p.2).trans mem_ofList.symm)
  rw [Client.after_eq, Client.after_eq, hheaders]

/-! ## What a client sends -/

/-- A header may be sent: its name is a token and not too long, and its value has no control character but the tab. -/
structure MaySend (name value : String) : Prop where
  name_ne : name ≠ ""
  short : name.utf8ByteSize ≤ 65535
  token : ∀ c ∈ name.toList, isTokenChar c = true
  value : ∀ c ∈ value.toList, c = '\t' ∨ 0x20 ≤ c.toNat ∧ c.toNat ≠ 0x7F

theorem isValueChar_iff {c : Char} : isValueChar c = true ↔ c = '\t' ∨ 0x20 ≤ c.toNat ∧ c.toNat ≠ 0x7F := by
  have hne : c.val ≠ 0x7F ↔ c.toNat ≠ 0x7F := not_congr UInt32.toNat_inj.symm
  simp only [isValueChar, Bool.or_eq_true, beq_iff_eq, Bool.and_eq_true, decide_eq_true_eq, bne_iff_ne, hne]
  rfl

theorem areValid_iff {headers : Headers} :
    headers.areValid = true ↔ ∀ name value, (name, value) ∈ headers → MaySend name value := by
  have hmay (name value : String) : (isHeaderName name && isHeaderValue value) = true ↔ MaySend name value := by
    simp only [isHeaderName, isHeaderValue, Bool.and_eq_true, List.all_eq_true, Bool.not_eq_true', isValueChar_iff,
      String.isEmpty_eq_false_iff, decide_eq_true_eq]
    constructor
    · rintro ⟨⟨⟨hne, hshort⟩, htoken⟩, hvalue⟩
      exact ⟨hne, hshort, htoken, hvalue⟩
    · exact fun h => ⟨⟨⟨h.name_ne, h.short⟩, h.token⟩, h.value⟩
  rw [Headers.areValid, List.all_eq_true]
  exact ⟨fun h name value hp => (hmay _ _).mp (h _ hp), fun h p hp => (hmay _ _).mpr (h _ _ hp)⟩

/-- A computation that sends a request, then at most those that the responses lead to, and does no more to the world. -/
def Sends {α : Type} (w : World) (x : StateM World α) (request : Request) : Prop :=
  ∃ rest, (x.run w).2 = { w with sent := rest.reverse ++ request :: w.sent } ∧
    (request :: rest).IsChain (w.LeadsOn w.library)

/-- A computation that fails as a network does, and does nothing to the world. -/
def Refuses {α : Type} (w : World) (x : StateM World (Except FetchError α)) : Prop :=
  ∃ reason, x.run w = (.error (.network reason), w)

section

variable {α β : Type} {w : World}

theorem Sends.bind {x : StateM World α} {f : α → StateM World β} {request : Request} (hx : Sends w x request)
    (hf : ∀ a, Looks (f a)) : Sends w (x >>= f) request := by
  obtain ⟨rest, hrun, hchain⟩ := hx
  exact ⟨rest, (hf _ _).trans hrun, hchain⟩

theorem Refuses.bind {x : StateM World (Except FetchError α)}
    {f : Except FetchError α → StateM World (Except FetchError β)} (hx : Refuses w x)
    (hf : ∀ e, f (.error e) = pure (.error e)) : Refuses w (x >>= f) := by
  obtain ⟨reason, hrun⟩ := hx
  refine ⟨reason, ?_⟩
  rw [run_bind, hrun, hf]
  rfl

end

/-- Whatever a client is asked for, it sends a request. -/
structure Client.Sends (c : Client) (e : Endpoint) (w : World) (request : Request) : Prop where
  data : Introspection.Sends w (c.fetchData e) request
  schema : Introspection.Sends w (c.fetch e) request
  sdl : Introspection.Sends w (c.fetchSdl e) request

/-- Whatever a client is asked for, it refuses. -/
structure Client.Refuses (c : Client) (e : Endpoint) (w : World) : Prop where
  data : Introspection.Refuses w (c.fetchData e)
  schema : Introspection.Refuses w (c.fetch e)
  sdl : Introspection.Refuses w (c.fetchSdl e)

variable {c : Client} {e : Endpoint} {w : World}

theorem Client.sends {request : Request} (h : c.request? w.library e = some request) : c.Sends e w request := by
  have hpost : Introspection.Sends w (c.post e) request := by
    obtain ⟨rest, hrun, -, hchain⟩ := run_follow w.library maxRedirects request w
    have hfollow : Introspection.Sends w (follow w.library maxRedirects request) request := ⟨rest, hrun, hchain⟩
    rw [Introspection.Sends, run_post, Client.postWith, h]
    exact hfollow.bind fun r => by cases r <;> exact Looks.pure _
  have hfetch : Introspection.Sends w (c.fetch e) request := hpost.bind fun r => by cases r <;> exact Looks.pure _
  exact ⟨hpost.bind fun r => by cases r <;> exact Looks.pure _, hfetch,
    hfetch.bind fun r => by cases r <;> exact Looks.pure _⟩

theorem Client.refuses (h : c.request? w.library e = none) : c.Refuses e w := by
  have hpost : Introspection.Refuses w (c.post e) := by
    rw [Introspection.Refuses, run_post, Client.postWith, h]
    exact ⟨_, rfl⟩
  have hfetch : Introspection.Refuses w (c.fetch e) := hpost.bind fun _ => rfl
  exact ⟨hpost.bind fun _ => rfl, hfetch, hfetch.bind fun _ => rfl⟩

/-- A client has a request if the address can be read, all headers may be sent, and there is room for them. -/
theorem Client.request?_eq_some {library : Library} {request : Request} : c.request? library e = some request ↔
    ∃ address, library.readUrl e.url = some address ∧
      (∀ name value, (name, value) ∈ c.headers → MaySend name value) ∧ library.hasRoom (c.headersFor address) = true ∧
      { url := address.url, headers := c.headersFor address, body := queryBody,
        acceptsInvalidCerts := e.acceptsInvalidCerts, timeout := c.timeout } = request := by
  rw [Client.request?, Option.bind_eq_bind, Option.bind_eq_some_iff]
  refine exists_congr fun address => and_congr_right fun _ => ?_
  dsimp only
  rw [← areValid_iff, Option.ite_none_right_eq_some, Bool.and_eq_true, Option.some.injEq, and_assoc]

end SchemaWeave.Introspection
