import SchemaWeave.Proofs.Introspection.Described

/-!
# String literals end where they were closed

A quoted literal is one string token with the text that was escaped, and ends at the quote written behind this text
(`lexeme_quotedLiteral`). A block literal ends at the delimiter written behind its text, however many quotes and
backslashes this holds, and what stands between the delimiters is that text with its triple quotes escaped
(`lexeme_blockLiteral`).
-/

namespace SchemaWeave

namespace Graphql

/-! ## The content of a block string -/

/-- A text with a triple quote in place of each escaped one, found from left to right. -/
def unescapeTripleQuotes : List Char → List Char
  | '\\' :: '"' :: '"' :: '"' :: cs => '"' :: '"' :: '"' :: unescapeTripleQuotes cs
  | c :: cs => c :: unescapeTripleQuotes cs
  | [] => []

theorem unescape_cons {c : Char} {cs : List Char} (h : ∀ r, c :: cs ≠ '\\' :: '"' :: '"' :: '"' :: r) :
    unescapeTripleQuotes (c :: cs) = c :: unescapeTripleQuotes cs := by
  rw [unescapeTripleQuotes]
  intro r hc hcs
  exact h r (by rw [hc, hcs])

/-- What is read of a block string is what stands in front of its closing quotes, unescaped. -/
theorem content_of_readBlock {cs raw rest : List Char} (h : readBlock cs = some (raw, rest)) :
    ∃ content, cs = content ++ '"' :: '"' :: '"' :: rest ∧ unescapeTripleQuotes content = raw := by
  fun_induction readBlock cs generalizing raw with
  | case1 cs =>
    cases h
    exact ⟨[], rfl, rfl⟩
  | case2 cs ih =>
    simp only [Option.map_eq_some_iff, Prod.mk.injEq, Prod.exists] at h
    obtain ⟨raw', rest', hread, rfl, rfl⟩ := h
    obtain ⟨content, rfl, rfl⟩ := ih hread
    exact ⟨'\\' :: '"' :: '"' :: '"' :: content, rfl, rfl⟩
  | case3 c cs _ hb ih =>
    simp only [Option.map_eq_some_iff, Prod.mk.injEq, Prod.exists] at h
    obtain ⟨raw', rest', hread, rfl, rfl⟩ := h
    obtain ⟨content, rfl, rfl⟩ := ih hread
    -- a backslash in front of quotes of the content would be in front of them in the text
    refine ⟨c :: content, rfl, unescape_cons fun r he => ?_⟩
    obtain ⟨rfl, rfl⟩ := List.cons.inj he
    exact hb _ rfl rfl
  | case4 => cases h

/-- No initial part of a block string that is read to its end is read. -/
theorem readBlock_eq_none {cs raw before after : List Char} (h : readBlock cs = some (raw, []))
    (hcs : cs = before ++ after) (hne : after ≠ []) : readBlock before = none := by
  cases hb : readBlock before with
  | none => rfl
  | some r =>
    obtain ⟨p, hp, -, hread⟩ := readBlock_replace hb
    rw [hcs, hp, List.append_assoc, hread] at h
    have hnil : r.2 ++ after = [] := congrArg Prod.snd (Option.some.inj h)
    exact absurd (List.append_eq_nil_iff.mp hnil).2 hne

end Graphql

namespace Introspection

open Graphql Text

/-! ## Quoted literals -/

theorem not_isControl_hexDigit {n : Nat} (h : n < 16) : isControl (hexDigit true n) = false := by
  revert h n
  decide

/-- A character is written without control characters. -/
theorem not_isControl_escapeChar (c : Char) : ∀ d ∈ escapeChar c, isControl d = false := by
  have hpair {a b : Char} (ha : isControl a = false) (hb : isControl b = false) :
      ∀ d ∈ [a, b], isControl d = false := by
    simp [ha, hb]
  unfold escapeChar
  split_ifs with _ _ _ _ _ hc
  · exact hpair (by decide) (by decide)
  · exact hpair (by decide) (by decide)
  · exact hpair (by decide) (by decide)
  · exact hpair (by decide) (by decide)
  · exact hpair (by decide) (by decide)
  · have hdigit (n : Nat) : isControl (hexDigit true (n % 16)) = false :=
      not_isControl_hexDigit (Nat.mod_lt n (by omega))
    have hquad : ∀ d ∈ hexQuad true c.toNat, isControl d = false := by simp [hexQuad, hdigit]
    exact List.forall_mem_cons.mpr ⟨by decide, List.forall_mem_cons.mpr ⟨by decide, hquad⟩⟩
  · simpa using hc

theorem not_isControl_escapeString (cs : List Char) : ∀ c ∈ escapeString cs, isControl c = false := by
  intro c hc
  obtain ⟨d, -, hc⟩ := List.mem_flatMap.mp hc
  exact not_isControl_escapeChar d c hc

/-- A quoted literal stays on its line. -/
theorem isLine_quotedString (cs : List Char) : IsLine (quotedString cs) := by
  have hplain : ∀ c ∈ quotedString cs, isControl c = false := by
    intro c hc
    rw [quotedString, List.mem_cons, List.mem_append, List.mem_singleton] at hc
    rcases hc with rfl | hc | rfl
    · decide
    · exact not_isControl_escapeString cs c hc
    · decide
  exact ⟨fun hn => absurd (hplain '\n' hn) (by decide), fun hr => absurd (hplain '\r' hr) (by decide)⟩

/-- Behind an empty literal a third quote opens a block string, which is another token. -/
theorem lexeme_emptyLiteral_ne {rest : List Char} (h : rest.head? = some '"') :
    lexeme ('"' :: '"' :: rest) ≠ some (.string "", rest) := by
  obtain ⟨cs, rfl⟩ := List.head?_eq_some_iff.mp h
  intro hread
  rw [lexeme, Option.map_eq_some_iff] at hread
  obtain ⟨⟨raw, rest⟩, hread, heq⟩ := hread
  obtain rfl : rest = '"' :: cs := congrArg Prod.snd heq
  have hlength := length_readBlock hread
  rw [List.length_cons] at hlength
  omega

/-- **Quoted literals.** A quote, an escaped text and a quote are one string token, which ends at this quote and has the
text as its value, whatever follows: only behind an empty text no third quote may stand. What is escaped holds no control
characters, so a literal stays on its line. -/
theorem lexeme_quotedLiteral (s : String) (rest : List Char) :
    (lexeme ('"' :: (escapeString s.toList ++ '"' :: rest)) = some (.string s, rest) ↔
      (s = "" → rest.head? ≠ some '"')) ∧
    ((s = "" → rest.head? ≠ some '"') → tokenize ('"' :: (escapeString s.toList ++ '"' :: rest)) =
      (tokenize rest).map (⟨.string s, false⟩ :: ·)) ∧
    (∀ c ∈ escapeString s.toList, isControl c = false) ∧ IsLine (quotedString s.toList) := by
  have hread (hrest : s = "" → rest.head? ≠ some '"') :
      lexeme ('"' :: (escapeString s.toList ++ '"' :: rest)) = some (.string s, rest) := by
    have hone := lexeme_escaped_of faithful_escapeChar s.toList fun hnil => hrest (String.toList_eq_nil_iff.mp hnil)
    rwa [String.ofList_toList] at hone
  refine ⟨⟨?_, hread⟩, fun hrest => tokenize_of_lexeme (hread hrest), not_isControl_escapeString _,
    isLine_quotedString _⟩
  rintro h rfl hquote
  exact lexeme_emptyLiteral_ne hquote h

/-- A control character is written with four digits, which the digits behind it do not extend, and no quote or backslash
of the text closes the literal. -/
theorem lexeme_quotedLiteral_digits : "\x07F0\"\\" ≠ "" ∧
    lexeme "\"\\u0007F0\\\"\\\\\"\"".toList = some (.string "\x07F0\"\\", ['"']) ∧
    '7' ∈ escapeString "\x07F0\"\\".toList ∧ isControl '7' = false := by
  obtain ⟨hread, -, hplain, -⟩ := lexeme_quotedLiteral "\x07F0\"\\" ['"']
  refine ⟨by decide, hread.mpr fun hnil => absurd hnil (by decide), by decide, hplain _ (by decide)⟩

/-! ## Block literals -/

/-- What stands between the delimiters of a block string: the text on lines of its own, with its triple quotes escaped. -/
def blockContent (level : Nat) (d : List Char) : List Char := '\n' :: (escapeTripleQuotes d ++ '\n' :: margin level)

theorem readBlock_blockContent (level : Nat) (d rest : List Char) :
    readBlock (blockContent level d ++ '"' :: '"' :: '"' :: rest) = some ('\n' :: d ++ '\n' :: margin level, rest) := by
  rw [blockContent, ← escape_blockText]
  exact readBlock_blockText level d rest

theorem unescape_blockContent (level : Nat) (d : List Char) :
    unescapeTripleQuotes (blockContent level d) = '\n' :: d ++ '\n' :: margin level := by
  obtain ⟨content, heq, hcontent⟩ := content_of_readBlock (readBlock_blockContent level d [])
  rw [List.append_cancel_right heq, hcontent]

/-- **Block literals.** What is written for a description as a block string is its margin, a delimiter, the content, a
delimiter and a line end. With its triple quotes unescaped the content is a line end, the description, a line end and the
margin. The literal is one string token, which ends at the delimiter behind the content and has the value of the
unescaped content, whatever follows; no part of it that is cut off before that is a token, and nothing of it becomes
another token. -/
theorem lexeme_blockLiteral (level : Nat) {d : String} (h : isBlockDescription d.toList = true) :
    descriptionText level (some d) =
      margin level ++ '"' :: '"' :: '"' :: (blockContent level d.toList ++ ['"', '"', '"', '\n']) ∧
    unescapeTripleQuotes (blockContent level d.toList) = '\n' :: d.toList ++ '\n' :: margin level ∧
    (∀ rest, lexeme ('"' :: '"' :: '"' :: (blockContent level d.toList ++ '"' :: '"' :: '"' :: rest)) =
      some (.string (String.ofList (blockValue (unescapeTripleQuotes (blockContent level d.toList)))), rest)) ∧
    (∀ before after, blockContent level d.toList ++ ['"', '"', '"'] = before ++ after → after ≠ [] →
      lexeme ('"' :: '"' :: '"' :: before) = none) ∧
    ∀ rest, tokenize (descriptionText level (some d) ++ rest) = (tokenize rest).map
      (⟨.string (String.ofList (blockValue (unescapeTripleQuotes (blockContent level d.toList)))), false⟩ :: ·) := by
  refine ⟨?_, unescape_blockContent _ _, fun rest => ?_, fun before after hcut hne => ?_, fun rest => ?_⟩
  · simp [descriptionText, h, blockContent]
  · rw [lexeme, readBlock_blockContent, unescape_blockContent]
    rfl
  · rw [lexeme, readBlock_eq_none (readBlock_blockContent level d.toList []) hcut hne]
    rfl
  · rw [tokenize_descriptionText, readDescription, if_pos h, unescape_blockContent]

/-- Five quotes, and an escaped triple quote that is escaped once more: the literal does not end at them. -/
theorem lexeme_blockLiteral_quotes : isBlockDescription "\"\"\"\"\"\n\\\"\"\" \"".toList = true ∧
    lexeme "\"\"\"\n\\\"\"\"\"\"\n\\\\\"\"\" \"\n\"\"\"x".toList = some (.string "\"\"\"\"\"\n\\\"\"\" \"", ['x']) ∧
    lexeme "\"\"\"\n\\\"\"\"\"\"\n\\\\\"\"\" \"\n\"".toList = none := by
  have hblock : isBlockDescription "\"\"\"\"\"\n\\\"\"\" \"".toList = true := by decide
  have hvalue : String.ofList (blockValue (unescapeTripleQuotes (blockContent 0 "\"\"\"\"\"\n\\\"\"\" \"".toList))) =
      "\"\"\"\"\"\n\\\"\"\" \"" := by decide
  obtain ⟨-, -, hread, hcut, -⟩ := lexeme_blockLiteral 0 hblock
  rw [hvalue] at hread
  exact ⟨hblock, hread ['x'], hcut "\n\\\"\"\"\"\"\n\\\\\"\"\" \"\n\"".toList ['"', '"'] rfl (List.cons_ne_nil _ _)⟩

end Introspection

end SchemaWeave
