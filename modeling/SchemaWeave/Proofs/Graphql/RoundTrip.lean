import SchemaWeave.Proofs.Graphql.Accepted
import SchemaWeave.Proofs.Graphql.Printing
import SchemaWeave.Proofs.Graphql.Reading

/-!
# Reading what was printed

The text of a document of grammatical definitions is read as the same document (`read_text`), together with the slips
that its printed form has: no definition at all, a schema definition without root operation types, a schema extension
without content. It is accepted exactly where there are none (`parse_text`).
-/

namespace SchemaWeave.Graphql

/-- **What is printed is read again.** -/
theorem read_text {doc : Document} (h : ∀ d ∈ doc, d.Grammatical) : Document.read doc.text = .ok (doc, doc.slips) := by
  obtain ⟨placed, hs, ht⟩ := (spells_document h).tokenize
  exact read_spelled h hs ht

theorem slips_eq_nil {doc : Document} : doc.slips = [] ↔ doc ≠ [] ∧ ∀ d ∈ doc, d.slips = [] := by
  cases doc <;> simp [Document.slips]

/-- **What is printed is accepted again where it has no slips.** -/
theorem parse_text {doc : Document} (h : ∀ d ∈ doc, d.Grammatical) :
    Document.parse doc.text = .ok doc ↔ doc ≠ [] ∧ ∀ d ∈ doc, d.slips = [] := by
  rw [← slips_eq_nil, Document.parse, read_text h]
  cases doc.slips with
  | nil => simp
  | cons slip slips => simp

/-- The definitions that an accepted text holds are grammatical, unless they are executable. -/
theorem grammatical_of_parse {s : String} {doc : Document} (h : Document.parse s = .ok doc) :
    ∀ d ∈ doc, d.isExecutable = false → d.Grammatical := by
  unfold Document.parse at h
  split at h
  · cases h
  next hr => cases h; exact grammatical_of_read hr
  · cases h

end SchemaWeave.Graphql
