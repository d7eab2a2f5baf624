import Mathlib.Tactic.SplitIfs
import SchemaWeave.Graphql.Quoted
import SchemaWeave.Introspection.Sdl

/-!
# Quoted strings read back

An encoder of single characters is *faithful* (`FaithfulEscape`) when the reader of quoted strings takes what it writes
for a character as that character, at the start of the string as well as further in. Both encoders are: the one of
documents (`faithful_quotedChar`) and the one of introspection results (`faithful_escapeChar`). A string written with a
faithful encoder reads back, whatever follows it (`readQuoted_escaped`).
-/

namespace SchemaWeave.Graphql

open Text

/-- Between characters the reader takes what is written for a character as that character. -/
def FaithfulEscape (escape : Char → List Char) : Prop :=
  ∀ c cs, readQuoted .text (escape c ++ cs) = prepend c (readQuoted .text cs) ∧
    readQuoted .start (escape c ++ cs) = prepend c (readQuoted .text cs)

/-! ## Escapes by number -/

theorem hexDigit_ne_brace (upper : Bool) {n : Nat} (h : n < 16) : hexDigit upper n ≠ '{' := by
  intro he
  have hd := hexValue?_hexDigit upper h
  rw [he, show hexValue? '{' = none by decide] at hd
  cases hd

/-- A character below the surrogates reads back from its four digits. -/
theorem readQuoted_hexQuad (upper : Bool) {c : Char} (h : c.toNat < 0xD800) (cs : List Char) :
    readQuoted (.unicode none) (hexQuad upper c.toNat ++ cs) = prepend c (readQuoted .text cs) := by
  have hd (n : Nat) : hexValue? (hexDigit upper (n % 16)) = some (n % 16) :=
    hexValue?_hexDigit upper (Nat.mod_lt n (by omega))
  have hb : hexDigit upper (c.toNat / 4096 % 16) ≠ '{' := hexDigit_ne_brace upper (Nat.mod_lt _ (by omega))
  have hs : isLeadingSurrogate c.toNat = false := by
    simp only [isLeadingSurrogate, Bool.and_eq_false_iff, decide_eq_false_iff_not]
    omega
  have hv : c.toNat.isValidChar := Or.inl h
  simp only [hexQuad, List.cons_append, List.nil_append, readQuoted, hb, false_and, if_false, hd]
  simp [hexQuad_value (show c.toNat < 65536 by omega), hs, unitChar?, scalarValue?, hv]

/-- An escape by number stands for its character. -/
theorem readQuoted_unicodeEscape (upper : Bool) {c : Char} (h : c.toNat < 0xD800) (cs : List Char) :
    readQuoted .text ('\\' :: 'u' :: hexQuad upper c.toNat ++ cs) = prepend c (readQuoted .text cs) ∧
      readQuoted .start ('\\' :: 'u' :: hexQuad upper c.toNat ++ cs) = prepend c (readQuoted .text cs) := by
  have := readQuoted_hexQuad upper h cs
  constructor <;> simpa [readQuoted] using this

/-! ## The encoders -/

/-- A character that is written as it is. -/
theorem readQuoted_raw {c : Char} (hq : c ≠ '"') (hb : c ≠ '\\') (hn : c ≠ '\n') (hr : c ≠ '\r') (cs : List Char) :
    readQuoted .text ([c] ++ cs) = prepend c (readQuoted .text cs) ∧
      readQuoted .start ([c] ++ cs) = prepend c (readQuoted .text cs) := by
  constructor <;> simp [readQuoted, hq, hb, hn, hr]

/-- A character with an escape of one letter. -/
theorem readQuoted_simpleEscape {c letter : Char} (h : simpleEscape? letter = some c) (cs : List Char) :
    readQuoted .text (['\\', letter] ++ cs) = prepend c (readQuoted .text cs) ∧
      readQuoted .start (['\\', letter] ++ cs) = prepend c (readQuoted .text cs) := by
  have hu : letter ≠ 'u' := by rintro rfl; cases h
  constructor <;> simp [readQuoted, hu, h]

theorem faithful_quotedChar : FaithfulEscape quotedChar := by
  intro c cs
  unfold quotedChar
  split_ifs with hq hb hn hr hbs hff hc
  · subst hq; exact readQuoted_simpleEscape rfl cs
  · subst hb; exact readQuoted_simpleEscape rfl cs
  · subst hn; exact readQuoted_simpleEscape rfl cs
  · subst hr; exact readQuoted_simpleEscape rfl cs
  · subst hbs; exact readQuoted_simpleEscape rfl cs
  · subst hff; exact readQuoted_simpleEscape rfl cs
  · exact readQuoted_unicodeEscape true (Nat.lt_trans (UInt32.lt_iff_toNat_lt.mp hc.1) (by decide)) cs
  · exact readQuoted_raw hq hb hn hr cs

/-- A control character has a number below the surrogates. -/
theorem toNat_lt_of_isControl {c : Char} (h : isControl c = true) : c.toNat < 0xD800 := by
  simp only [isControl, Bool.or_eq_true, Bool.and_eq_true, decide_eq_true_eq] at h
  rcases h with h | ⟨-, h⟩
  · exact Nat.lt_trans (UInt32.lt_iff_toNat_lt.mp h) (by decide)
  · exact Nat.lt_of_le_of_lt (UInt32.le_iff_toNat_le.mp h) (by decide)

theorem faithful_escapeChar : FaithfulEscape Introspection.escapeChar := by
  intro c cs
  unfold Introspection.escapeChar
  split_ifs with hb hq hn hr ht hc
  · subst hb; exact readQuoted_simpleEscape rfl cs
  · subst hq; exact readQuoted_simpleEscape rfl cs
  · subst hn; exact readQuoted_simpleEscape rfl cs
  · subst hr; exact readQuoted_simpleEscape rfl cs
  · subst ht; exact readQuoted_simpleEscape rfl cs
  · exact readQuoted_unicodeEscape true (toNat_lt_of_isControl hc) cs
  · exact readQuoted_raw hq hb hn hr cs

/-! ## Whole strings -/

section Strings

variable {escape : Char → List Char} (he : FaithfulEscape escape)
include he

theorem readQuoted_text_escaped (value rest : List Char) :
    readQuoted .text (value.flatMap escape ++ '"' :: rest) = some (value, rest) := by
  induction value with
  | nil => simp [readQuoted]
  | cons c value ih =>
    rw [List.flatMap_cons, List.append_assoc, (he c _).1, ih]
    rfl

/-- A string written with a faithful encoder reads back. -/
theorem readQuoted_escaped (value rest : List Char) :
    readQuoted .start (value.flatMap escape ++ '"' :: rest) = some (value, rest) := by
  cases value with
  | nil => simp [readQuoted]
  | cons c value =>
    rw [List.flatMap_cons, List.append_assoc, (he c _).2, readQuoted_text_escaped he]
    rfl

end Strings

end SchemaWeave.Graphql
