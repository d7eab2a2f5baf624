import SchemaWeave.Merge
import SchemaWeave.Proofs.Graphql.RoundTrip

/-!
# What fragments merge to

`Merge.result` says of a list of definitions what is left of them: for each key the last definition, in the order in
which the keys come first, and then the extensions. Adding definitions one by one to a draft leaves it with this result
(`holds_foldl`), so the merged text is read as the result of all definitions of all fragments, and the merge fails at
the first fragment that cannot be taken (`mergeFragments_result`).
-/

namespace SchemaWeave

open Graphql

theorem eq_ok_of_toOption {ε α : Type} {a : α} : ∀ {x : Except ε α}, x.toOption = some a → x = .ok a
  | .ok _, h => by cases h; rfl

/-- The key under which a definition is kept. What every schema has is not kept. -/
def DefinitionKey.kept? (d : Definition) : Option DefinitionKey := (DefinitionKey.of? d).filter (!·.isBuiltin)

/-- Whether a definition adds to another one. -/
def Graphql.Definition.isExtension : Definition → Bool
  | .schemaExtension _ | .typeExtension _ => true
  | _ => false

/-- The source that an error of the merge names. -/
def MergeError.source : MergeError → String
  | .unreadable source _ | .executable source => source

namespace Merge

/-- The keys under which definitions are kept, in the order in which they come first. -/
def keptKeys (defs : List Definition) : List DefinitionKey := (defs.filterMap DefinitionKey.kept?).eraseDups

/-- The last definition with a key. -/
def lastWith? (defs : List Definition) (key : DefinitionKey) : Option Definition :=
  defs.reverse.find? (DefinitionKey.of? · == some key)

/-- What definitions merge to. -/
def result (defs : List Definition) : Document :=
  (keptKeys defs).filterMap (lastWith? defs) ++ defs.filter Definition.isExtension

/-! ## Keys -/

theorem nodup_eraseDups {α : Type} [BEq α] [LawfulBEq α] : ∀ l : List α, l.eraseDups.Nodup
  | [] => by simp
  | a :: l => by
    rw [List.eraseDups_cons, List.nodup_cons]
    exact ⟨by simp, nodup_eraseDups (l.filter fun b => !b == a)⟩
termination_by l => l.length
decreasing_by exact Nat.lt_succ_of_le (List.length_filter_le _ l)

theorem eraseDups_of_nodup {α : Type} [BEq α] [LawfulBEq α] {l : List α} (h : l.Nodup) : l.eraseDups = l := by
  induction l with
  | nil => rfl
  | cons a l ih =>
    obtain ⟨ha, hl⟩ := List.nodup_cons.mp h
    have hfilter : l.filter (fun b => !b == a) = l := by
      refine List.filter_eq_self.mpr fun b hb => ?_
      rw [Bool.not_eq_true', beq_eq_false_iff_ne]
      rintro rfl
      exact ha hb
    rw [List.eraseDups_cons, hfilter, ih hl]

/-- Removing repetitions goes along with a map that keeps different elements apart. -/
theorem eraseDups_filterMap {α β : Type} [BEq α] [LawfulBEq α] [BEq β] [LawfulBEq β] {f : α → Option β}
    (hf : ∀ a b c, f a = some c → f b = some c → a = b) : ∀ l : List α,
    (l.filterMap f).eraseDups = l.eraseDups.filterMap f
  | [] => by simp
  | a :: l => by
    have ih := eraseDups_filterMap hf (l.filter fun b => !b == a)
    rw [List.eraseDups_cons]
    cases ha : f a with
    | none =>
      rw [List.filterMap_cons_none ha, List.filterMap_cons_none ha, ← ih, List.filterMap_filter]
      congr 2
      funext b
      by_cases hb : b = a
      · simp [hb, ha]
      · simp [hb]
    | some c =>
      rw [List.filterMap_cons_some ha, List.filterMap_cons_some ha, List.eraseDups_cons, ← ih, List.filterMap_filter,
        List.filter_filterMap]
      congr 3
      funext b
      by_cases hb : b = a
      · simp [hb, ha]
      · cases hfb : f b with
        | none => simp [hb]
        | some d =>
          have hd : d ≠ c := fun hd => hb (hf b a c (hd ▸ hfb) ha)
          simp [hb, hd]
termination_by l => l.length
decreasing_by exact Nat.lt_succ_of_le (List.length_filter_le _ l)

theorem nodup_keptKeys (defs : List Definition) : (keptKeys defs).Nodup := nodup_eraseDups _

theorem keptKeys_append (defs : List Definition) (d : Definition) :
    keptKeys (defs ++ [d]) = match DefinitionKey.kept? d with
      | none => keptKeys defs
      | some key => if key ∈ keptKeys defs then keptKeys defs else keptKeys defs ++ [key] := by
  rw [keptKeys, List.filterMap_append]
  cases h : DefinitionKey.kept? d with
  | none => simp [List.filterMap_cons_none h, keptKeys]
  | some key =>
    have hm : key ∈ keptKeys defs ↔ (defs.filterMap DefinitionKey.kept?).elem key = true := by
      rw [keptKeys, List.mem_eraseDups, List.elem_iff]
    have hone : [key].eraseDups = [key] := rfl
    rw [List.filterMap_cons_some h, List.filterMap_nil, List.eraseDups_append, List.removeAll, List.filter_singleton]
    simp only [hm]
    cases (defs.filterMap DefinitionKey.kept?).elem key
    · simp only [Bool.not_false, cond_true, hone, Bool.false_eq_true, if_false, keptKeys]
    · simp only [Bool.not_true, cond_false, List.eraseDups_nil, List.append_nil, if_true, keptKeys]

theorem lastWith?_append (defs : List Definition) (d : Definition) (key : DefinitionKey) :
    lastWith? (defs ++ [d]) key = if DefinitionKey.of? d = some key then some d else lastWith? defs key := by
  rw [lastWith?, List.reverse_append, List.reverse_singleton, List.singleton_append]
  by_cases h : DefinitionKey.of? d = some key
  · rw [List.find?_cons_of_pos (by simp [h]), if_pos h]
  · rw [List.find?_cons_of_neg (by simp [h]), if_neg h, lastWith?]

theorem not_isBuiltin_of_mem {defs : List Definition} {key : DefinitionKey} (h : key ∈ keptKeys defs) :
    key.isBuiltin = false := by
  obtain ⟨d, -, hk⟩ := List.mem_filterMap.mp (List.mem_eraseDups.mp h)
  simpa using (Option.filter_eq_some_iff.mp hk).2

/-- A key under which a definition is kept has a last definition. -/
theorem lastWith?_isSome {defs : List Definition} {key : DefinitionKey} (h : key ∈ keptKeys defs) :
    ∃ d ∈ defs, lastWith? defs key = some d ∧ DefinitionKey.of? d = some key := by
  obtain ⟨d, hd, hk⟩ := List.mem_filterMap.mp (List.mem_eraseDups.mp h)
  have hk : DefinitionKey.of? d = some key := (Option.filter_eq_some_iff.mp hk).1
  have hsome : (lastWith? defs key).isSome = true :=
    List.find?_isSome.mpr ⟨d, List.mem_reverse.mpr hd, beq_iff_eq.mpr hk⟩
  obtain ⟨e, he⟩ := Option.isSome_iff_exists.mp hsome
  exact ⟨e, List.mem_reverse.mp (List.mem_of_find?_eq_some he), he, by simpa using List.find?_some he⟩

theorem mem_keptKeys_of_lastWith? {defs : List Definition} {key : DefinitionKey} (hb : key.isBuiltin = false)
    {d : Definition} (hl : lastWith? defs key = some d) : key ∈ keptKeys defs := by
  have hk : DefinitionKey.of? d = some key := by simpa using List.find?_some hl
  refine List.mem_eraseDups.mpr (List.mem_filterMap.mpr ⟨d, List.mem_reverse.mp (List.mem_of_find?_eq_some hl), ?_⟩)
  simp [DefinitionKey.kept?, hk, hb]

/-- A definition with a key of its own is the last one with this key. -/
theorem lastWith?_of_mem {defs : List Definition} (hn : (defs.filterMap DefinitionKey.of?).Nodup) {d : Definition}
    (hd : d ∈ defs) {key : DefinitionKey} (hk : DefinitionKey.of? d = some key) : lastWith? defs key = some d := by
  obtain ⟨before, after, rfl⟩ := List.append_of_mem hd
  have hafter : ∀ e ∈ after, DefinitionKey.of? e ≠ some key := by
    intro e he hke
    rw [List.filterMap_append, List.filterMap_cons_some hk, List.nodup_append] at hn
    exact (List.nodup_cons.mp hn.2.1).1 (List.mem_filterMap.mpr ⟨e, he, hke⟩)
  rw [lastWith?, List.reverse_append, List.reverse_cons, List.append_assoc, List.find?_append, List.find?_eq_none.mpr]
  · simp [hk]
  · intro e he
    simpa using hafter e (List.mem_reverse.mp he)

/-! ## Drafts -/

/-- The draft holds the result of the definitions: for each key that is kept its last definition, and the
extensions. -/
def Draft.Holds (p : Draft) (defs : List Definition) : Prop :=
  (p.definitions.map fun e => (e.1, some e.2)) = ((keptKeys defs).map fun key => (key, lastWith? defs key)) ∧
    p.extensions = defs.filter Definition.isExtension

/-- Putting a definition under a key changes what is under this key, or puts it last. -/
theorem map_put (key : DefinitionKey) (d : Definition) {last : DefinitionKey → Option Definition}
    {l : List (DefinitionKey × Definition)} {keys : List DefinitionKey} (hn : keys.Nodup)
    (h : (l.map fun e => (e.1, some e.2)) = (keys.map fun k => (k, last k))) :
    ((put key d l).map fun e => (e.1, some e.2)) =
      ((if key ∈ keys then keys else keys ++ [key]).map fun k => (k, if k = key then some d else last k)) := by
  induction l generalizing keys with
  | nil =>
    cases keys with
    | nil => simp [put]
    | cons => cases h
  | cons entry l ih =>
    obtain ⟨k, e⟩ := entry
    cases keys with
    | nil => cases h
    | cons k' keys =>
      simp only [List.map_cons, List.cons.injEq, Prod.mk.injEq] at h
      obtain ⟨⟨rfl, he⟩, h⟩ := h
      rw [List.nodup_cons] at hn
      by_cases hk : k = key
      · subst hk
        have hother : (keys.map fun j => (j, if j = k then some d else last j)) = keys.map fun j => (j, last j) := by
          apply List.map_congr_left
          intro j hj
          rw [if_neg]
          rintro rfl
          exact hn.1 hj
        simp [put, hother, h]
      · have ih := ih hn.2 h
        have hk' : key ≠ k := fun h => hk h.symm
        by_cases hm : key ∈ keys <;> simp [put, hk, hk', hm, he] at ih ⊢ <;> exact ih

/-- A definition has a key unless it is an extension or executable. -/
theorem isExtension_eq {d : Definition} (hd : d.isExecutable = false) :
    d.isExtension = (DefinitionKey.of? d).isNone := by
  cases d <;> first | rfl | cases hd

/-- A definition with a key is neither executable nor an extension. -/
theorem complete_of_key {d : Definition} {key : DefinitionKey} (h : DefinitionKey.of? d = some key) :
    d.isExecutable = false ∧ d.isExtension = false := by
  cases d <;> first | exact ⟨rfl, rfl⟩ | cases h

theorem Draft.Holds.add {p : Draft} {defs : List Definition} (h : p.Holds defs) {d : Definition}
    (hd : d.isExecutable = false) : (p.add d).Holds (defs ++ [d]) := by
  have hext := isExtension_eq hd
  rw [Draft.Holds, keptKeys_append, List.filter_append, Draft.add]
  cases hk : DefinitionKey.of? d with
  | none =>
    have hkept : DefinitionKey.kept? d = none := by rw [DefinitionKey.kept?, hk]; rfl
    simp [hext, hk, hkept, lastWith?_append, h.1, h.2]
  | some key =>
    rw [hk] at hext
    have hone : [d].filter Definition.isExtension = [] := by simp [hext]
    simp only [hone, List.append_nil, lastWith?_append, hk, Option.some.injEq]
    cases hb : key.isBuiltin with
    | true =>
      have hkept : DefinitionKey.kept? d = none := by simp [DefinitionKey.kept?, hk, hb]
      simp only [hkept, if_true]
      refine ⟨?_, h.2⟩
      rw [h.1]
      refine List.map_congr_left fun k hk' => ?_
      rw [if_neg]
      rintro rfl
      exact Bool.false_ne_true ((not_isBuiltin_of_mem hk').symm.trans hb)
    | false =>
      have hkept : DefinitionKey.kept? d = some key := by simp [DefinitionKey.kept?, hk, hb]
      simp only [hkept, Bool.false_eq_true, if_false]
      refine ⟨?_, h.2⟩
      rw [map_put _ _ (nodup_keptKeys defs) h.1]
      simp only [eq_comm]

/-- **Adding definitions to an empty draft leaves it with their result.** -/
theorem holds_foldl {defs : List Definition} (h : ∀ d ∈ defs, d.isExecutable = false) :
    (defs.foldl Draft.add {}).Holds defs := by
  have hgo : ∀ (more defs : List Definition) {p : Draft}, p.Holds defs →
      (∀ d ∈ more, d.isExecutable = false) → (more.foldl Draft.add p).Holds (defs ++ more) := by
    intro more
    induction more with
    | nil => intro defs p hp _; simpa using hp
    | cons d more ih =>
      intro defs p hp hd
      have := ih _ (hp.add (hd d (by simp))) fun d h => hd d (List.mem_cons_of_mem _ h)
      simpa using this
  simpa using hgo defs [] (p := {}) ⟨rfl, rfl⟩ h

/-- The document of a draft is the result that the draft holds. -/
theorem Draft.Holds.document {p : Draft} {defs : List Definition} (h : p.Holds defs) : p.document = result defs := by
  have hlast : (p.definitions.map Prod.snd) = (keptKeys defs).filterMap (lastWith? defs) := by
    have hp : (p.definitions.map fun e => (e.1, some e.2)).filterMap Prod.snd = p.definitions.map Prod.snd := by
      rw [List.filterMap_map]
      exact congrFun List.filterMap_eq_map' _
    rw [← hp, h.1, List.filterMap_map]
    rfl
  rw [Draft.document, hlast, h.2, result]

/-! ## Results -/

/-- What is left of definitions was among them. -/
theorem mem_of_mem_result {defs : List Definition} {d : Definition} (h : d ∈ result defs) : d ∈ defs := by
  rcases List.mem_append.mp h with h | h
  · obtain ⟨key, -, hl⟩ := List.mem_filterMap.mp h
    exact List.mem_reverse.mp (List.mem_of_find?_eq_some hl)
  · exact (List.mem_filter.mp h).1

/-- The keys of the result are those under which definitions are kept, each of them once. -/
theorem keys_result (defs : List Definition) : (result defs).filterMap DefinitionKey.of? = keptKeys defs := by
  have hext : (defs.filter Definition.isExtension).filterMap DefinitionKey.of? = [] := by
    rw [List.filterMap_eq_nil_iff]
    intro d hd
    have := (List.mem_filter.mp hd).2
    cases d <;> first | rfl | cases this
  have hlast : ((keptKeys defs).filterMap (lastWith? defs)).filterMap DefinitionKey.of? =
      (keptKeys defs).filterMap some := by
    rw [List.filterMap_filterMap]
    refine List.filterMap_congr fun key hk => ?_
    obtain ⟨d, -, hl, hd⟩ := lastWith?_isSome hk
    rw [hl, Option.bind_some, hd]
  rw [result, List.filterMap_append, hext, hlast, List.append_nil, List.filterMap_some]

/-- The extensions of the result are all extensions there were, in their order. -/
theorem extensions_result (defs : List Definition) :
    (result defs).filter Definition.isExtension = defs.filter Definition.isExtension := by
  have hlast : ((keptKeys defs).filterMap (lastWith? defs)).filter Definition.isExtension = [] := by
    rw [List.filter_eq_nil_iff]
    intro d hd
    obtain ⟨key, hk, hl⟩ := List.mem_filterMap.mp hd
    obtain ⟨e, -, he, hkey⟩ := lastWith?_isSome hk
    cases hl.symm.trans he
    rw [(complete_of_key hkey).2]
    exact Bool.false_ne_true
  rw [result, List.filter_append, hlast, List.nil_append, List.filter_filter]
  simp

/-! ## Fragments -/

/-- The text of the fragment is accepted as this document, and nothing in it is executable. -/
def Contributes (f : Fragment) (doc : Document) : Prop :=
  Document.parse f.sdl = .ok doc ∧ ∀ d ∈ doc, d.isExecutable = false

theorem read_eq_ok {f : Fragment} {doc : Document} : read f = .ok doc ↔ Contributes f doc := by
  rw [read, Contributes]
  split
  · next e he => simp [he]
  · next doc' he =>
    have hx : (doc'.any Definition.isExecutable = true) ↔ ¬∀ d ∈ doc', d.isExecutable = false := by simp
    split_ifs with ha
    · simp only [he, Except.ok.injEq, false_iff, not_and]
      rintro rfl
      exact hx.mp ha
    · simp only [he, Except.ok.injEq]
      constructor
      · rintro rfl; exact ⟨rfl, not_not.mp fun h => ha (hx.mpr h)⟩
      · exact fun h => h.1

theorem read_eq_error {f : Fragment} {e : MergeError} (h : read f = .error e) :
    e.source = f.source ∧ ¬∃ doc, Contributes f doc := by
  refine ⟨?_, fun ⟨doc, hd⟩ => ?_⟩
  · rw [read] at h
    split at h
    · cases h; rfl
    · split_ifs at h; cases h; rfl
  · rw [read_eq_ok.mpr hd] at h
    cases h

/-- The first fragment that contributes nothing, with its source named. -/
def FailsAt (fragments : List Fragment) (e : MergeError) : Prop :=
  ∃ before f after, fragments = before ++ f :: after ∧ (∀ g ∈ before, ∃ doc, Contributes g doc) ∧
    (¬∃ doc, Contributes f doc) ∧ e.source = f.source

/-- Fragments that are read one after the other contribute their documents, up to the first one that contributes
nothing. -/
theorem mapM_read (fragments : List Fragment) :
    match fragments.mapM read with
    | .error e => FailsAt fragments e
    | .ok docs => List.Forall₂ Contributes fragments docs := by
  induction fragments with
  | nil => exact .nil
  | cons f fragments ih =>
    rw [List.mapM_cons]
    cases hf : read f with
    | error e =>
      obtain ⟨hs, hn⟩ := read_eq_error hf
      exact ⟨[], f, fragments, rfl, by simp, hn, hs⟩
    | ok doc =>
      have hdoc := read_eq_ok.mp hf
      cases hr : fragments.mapM read with
      | error e =>
        rw [hr] at ih
        obtain ⟨before, g, after, rfl, hb, hn, hs⟩ := ih
        exact ⟨f :: before, g, after, rfl, List.forall_mem_cons.mpr ⟨⟨doc, hdoc⟩, hb⟩, hn, hs⟩
      | ok docs =>
        rw [hr] at ih
        exact .cons hdoc ih

theorem mapM_read_of_contributes {fragments : List Fragment} {docs : List Document}
    (h : List.Forall₂ Contributes fragments docs) : fragments.mapM read = .ok docs := by
  induction h with
  | nil => rfl
  | cons hone _ ih =>
    rw [List.mapM_cons, read_eq_ok.mpr hone, ih]
    rfl

/-- Adding fragments one after the other reads all of them and adds their definitions. -/
theorem foldlM_addFragment (fragments : List Fragment) (p : Draft) :
    fragments.foldlM Draft.addFragment p = (fragments.mapM read).map fun docs => docs.flatten.foldl Draft.add p := by
  induction fragments generalizing p with
  | nil => rfl
  | cons f fragments ih =>
    rw [List.foldlM_cons, List.mapM_cons, Draft.addFragment]
    cases read f with
    | error e => rfl
    | ok doc =>
      refine (ih (doc.foldl Draft.add p)).trans ?_
      cases fragments.mapM read with
      | error e => rfl
      | ok docs => exact congrArg Except.ok (List.foldl_append ..).symm

theorem not_isExecutable_of_contributes {fragments : List Fragment} {docs : List Document}
    (h : List.Forall₂ Contributes fragments docs) : ∀ d ∈ docs.flatten, d.isExecutable = false := by
  induction h with
  | nil => simp
  | cons hf _ ih =>
    intro d hd
    rw [List.flatten_cons, List.mem_append] at hd
    rcases hd with hd | hd
    · exact hf.2 d hd
    · exact ih d hd

/-- Documents that fragments contribute hold grammatical definitions. -/
theorem grammatical_of_contributes {fragments : List Fragment} {docs : List Document}
    (h : List.Forall₂ Contributes fragments docs) : ∀ d ∈ docs.flatten, d.Grammatical := by
  induction h with
  | nil => simp
  | cons hf _ ih =>
    intro d hd
    rw [List.flatten_cons, List.mem_append] at hd
    rcases hd with hd | hd
    · exact grammatical_of_parse hf.1 d hd (hf.2 d hd)
    · exact ih d hd

/-- Fragments merge to the result of the definitions that they hold, if all of them can be read. -/
theorem mergeDocuments_eq (fragments : List Fragment) :
    mergeDocuments fragments = (fragments.mapM read).map fun docs => result docs.flatten := by
  have h := mapM_read fragments
  rw [mergeDocuments, foldlM_addFragment]
  cases hr : fragments.mapM read with
  | error e => rfl
  | ok docs =>
    rw [hr] at h
    exact congrArg Except.ok (holds_foldl (not_isExecutable_of_contributes h)).document

/-- **The fragments merge to the result of all their definitions, or the merge fails at the first that has none.** -/
theorem mergeDocuments_result (fragments : List Fragment) :
    match mergeDocuments fragments with
    | .error e => FailsAt fragments e
    | .ok merged => ∃ docs, List.Forall₂ Contributes fragments docs ∧ merged = result docs.flatten := by
  have h := mapM_read fragments
  rw [mergeDocuments_eq]
  cases hr : fragments.mapM read with
  | error e => rw [hr] at h; exact h
  | ok docs => rw [hr] at h; exact ⟨docs, h, rfl⟩

/-- **What a merge does.** It fails at the first fragment that cannot be read or holds an executable definition,
and names its source. Otherwise its text is read as what is left of all definitions of the fragments: the last one
for each key, in the order in which the keys come first, and every extension. The text is accepted unless nothing
is left, or a schema definition lists no root operation type, or an extension of it adds nothing. -/
theorem mergeFragments_result (fragments : List Fragment) :
    match mergeFragments fragments with
    | .error e => FailsAt fragments e
    | .ok text => ∃ docs, List.Forall₂ Contributes fragments docs ∧
        Document.read text = .ok (result docs.flatten, (result docs.flatten).slips) ∧
        (Document.parse text = .ok (result docs.flatten) ↔
          result docs.flatten ≠ [] ∧ ∀ d ∈ result docs.flatten, d.slips = []) ∧
        (result docs.flatten).filterMap DefinitionKey.of? = keptKeys docs.flatten ∧ (keptKeys docs.flatten).Nodup ∧
        (result docs.flatten).filter Definition.isExtension = docs.flatten.filter Definition.isExtension := by
  have h := mergeDocuments_result fragments
  rw [mergeFragments]
  cases hm : mergeDocuments fragments with
  | error e => rw [hm] at h; exact h
  | ok merged =>
    rw [hm] at h
    obtain ⟨docs, hd, rfl⟩ := h
    have hg : ∀ d ∈ result docs.flatten, d.Grammatical := by
      intro d h
      exact grammatical_of_contributes hd d (mem_of_mem_result h)
    exact ⟨docs, hd, read_text hg, parse_text hg, keys_result _, nodup_keptKeys _, extensions_result _⟩

/-- A schema definition without braces is accepted, but the text it merges to is not. -/
theorem mergeFragments_bareSchema :
    Contributes ⟨"a.graphql", "schema"⟩ [.schema {}] ∧
      mergeFragments [⟨"a.graphql", "schema"⟩] = .ok "schema {}\n" ∧
      Document.parse "schema {}\n" = .error .emptySchema := by
  have hbare : tokenize "schema".toList = some [⟨.name "schema", false⟩] := by decide +kernel
  have hbraces : tokenize "schema {}\n".toList =
      some [⟨.name "schema", false⟩, ⟨.punct .openBrace, false⟩, ⟨.punct .closeBrace, false⟩] := by decide +kernel
  have hparse : Document.parse "schema" = .ok [.schema {}] := by
    rw [Document.parse, Document.read, hbare]
    rfl
  have hcontributes : Contributes ⟨"a.graphql", "schema"⟩ [.schema {}] := ⟨hparse, by simp [Definition.isExecutable]⟩
  refine ⟨hcontributes, ?_, ?_⟩
  · simp only [mergeFragments, mergeDocuments, List.foldlM_cons, List.foldlM_nil, Draft.addFragment,
      read_eq_ok.mpr hcontributes]
    rfl
  · rw [Document.parse, Document.read, hbraces]
    rfl

end Merge

end SchemaWeave
