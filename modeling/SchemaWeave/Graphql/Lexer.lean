import SchemaWeave.Graphql.Token
import SchemaWeave.Graphql.Quoted
import SchemaWeave.Graphql.Block

/-!
# From text to tokens

`lexeme` reads the token at the head of a text and `tokenize` a whole text. Blanks, commas, byte order marks and comments
separate tokens and are skipped; of them only a comma leaves a trace, as it matters in a few places. A text that holds
anything else is refused, wherever in it that stands.

* `length_lexeme`: a token is never empty, which is why `tokenize` ends.
-/

namespace SchemaWeave.Graphql

/-- A character that separates tokens: space, tab, line breaks, comma and byte order mark. -/
def isIgnored (c : Char) : Bool :=
  c == ' ' || c == '\t' || c == '\n' || c == '\r' || c == ',' || c == '\uFEFF'

/-- The text from its first token on; `inComment` says that the text starts inside a comment, which lasts to the end of
the line. -/
def skipIgnored : (inComment : Bool) → List Char → List Char
  | _, [] => []
  | true, c :: cs => skipIgnored (c != '\n' && c != '\r') cs
  | false, c :: cs =>
    if c == '#' then skipIgnored true cs
    else if isIgnored c then skipIgnored false cs
    else c :: cs

theorem length_skipIgnored (inComment : Bool) (cs : List Char) : (skipIgnored inComment cs).length ≤ cs.length := by
  fun_induction skipIgnored inComment cs with
  | case1 => exact Nat.le_refl _
  | case2 c cs ih => exact Nat.le_succ_of_le ih
  | case3 c cs _ ih => exact Nat.le_succ_of_le ih
  | case4 c cs _ _ ih => exact Nat.le_succ_of_le ih
  | case5 => exact Nat.le_refl _

/-- Whether a comma is among what separates a text's start from its first token. -/
def startsWithComma : (inComment : Bool) → List Char → Bool
  | _, [] => false
  | true, c :: cs => startsWithComma (c != '\n' && c != '\r') cs
  | false, c :: cs =>
    if c == '#' then startsWithComma true cs
    else c == ',' || (isIgnored c && startsWithComma false cs)

/-- One digit or more. -/
def readDigits (cs : List Char) : Option (List Char × List Char) :=
  match cs.takeWhile Char.isDigit with
  | [] => none
  | digits => some (digits, cs.dropWhile Char.isDigit)

/-- The digits of an integer: a zero stands alone. -/
def readNatural : List Char → Option (List Char × List Char)
  | '0' :: cs => some (['0'], cs)
  | cs => readDigits cs

/-- An integer with its sign. -/
def readInteger : List Char → Option (List Char × List Char)
  | '-' :: cs => (readNatural cs).map fun (digits, rest) => ('-' :: digits, rest)
  | cs => readNatural cs

/-- A point and the digits after it, or nothing. -/
def readFraction : List Char → Option (List Char × List Char)
  | '.' :: cs => (readDigits cs).map fun (digits, rest) => ('.' :: digits, rest)
  | cs => some ([], cs)

/-- The digits of an exponent with their sign. -/
def readSignedDigits : List Char → Option (List Char × List Char)
  | '+' :: cs => (readDigits cs).map fun (digits, rest) => ('+' :: digits, rest)
  | '-' :: cs => (readDigits cs).map fun (digits, rest) => ('-' :: digits, rest)
  | cs => readDigits cs

/-- An exponent, or nothing. -/
def readExponent : List Char → Option (List Char × List Char)
  | 'e' :: cs => (readSignedDigits cs).map fun (digits, rest) => ('e' :: digits, rest)
  | 'E' :: cs => (readSignedDigits cs).map fun (digits, rest) => ('E' :: digits, rest)
  | cs => some ([], cs)

/-- Whether a number may end in front of this text: no digit, point or name may touch it. -/
def mayEndNumber : List Char → Bool
  | [] => true
  | c :: _ => !(c.isDigit || c == '.' || isNameStart c)

/-- A number with its spelling. -/
def readNumber (cs : List Char) : Option (Token × List Char) := do
  let (integer, rest) ← readInteger cs
  let (fraction, rest) ← readFraction rest
  let (exponent, rest) ← readExponent rest
  if !mayEndNumber rest then none
  else if fraction.isEmpty && exponent.isEmpty then some (.int (String.ofList integer), rest)
  else some (.float (String.ofList (integer ++ fraction ++ exponent)), rest)

/-- The token at the head of a text, and what follows it. -/
def lexeme : List Char → Option (Token × List Char)
  | [] => none
  | '.' :: '.' :: '.' :: cs => some (.punct .spread, cs)
  | '"' :: '"' :: '"' :: cs => (readBlock cs).map fun (raw, rest) => (.string (String.ofList (blockValue raw)), rest)
  | '"' :: cs => (readQuoted .start cs).map fun (value, rest) => (.string (String.ofList value), rest)
  | c :: cs =>
    match Punctuator.ofChar? c with
    | some p => some (.punct p, cs)
    | none =>
      if isNameStart c then
        some (.name (String.ofList (c :: cs.takeWhile isNameContinue)), cs.dropWhile isNameContinue)
      else readNumber (c :: cs)

theorem length_readDigits {cs digits rest : List Char} (h : readDigits cs = some (digits, rest)) :
    rest.length < cs.length := by
  unfold readDigits at h
  split at h
  · cases h
  · next hne =>
    cases h
    cases cs with
    | nil => exact absurd rfl hne
    | cons c cs =>
      rw [List.dropWhile_cons]
      split
      · exact Nat.lt_succ_of_le (List.dropWhile_sublist _).length_le
      · next hc => exact absurd (by rw [List.takeWhile_cons, if_neg hc]) hne

/-- What follows a piece that was put in front is what followed before. -/
theorem length_of_map_cons {c : Char} {r : Option (List Char × List Char)} {piece rest : List Char}
    (h : (r.map fun (digits, rest) => (c :: digits, rest)) = some (piece, rest)) : ∃ digits, r = some (digits, rest) := by
  simp only [Option.map_eq_some_iff, Prod.mk.injEq] at h
  obtain ⟨⟨d, r'⟩, hr, -, rfl⟩ := h
  exact ⟨d, hr⟩

theorem length_readNatural {cs digits rest : List Char} (h : readNatural cs = some (digits, rest)) :
    rest.length < cs.length := by
  unfold readNatural at h
  split at h
  · cases h; simp
  · exact length_readDigits h

theorem length_readInteger {cs digits rest : List Char} (h : readInteger cs = some (digits, rest)) :
    rest.length < cs.length := by
  unfold readInteger at h
  split at h
  · obtain ⟨d, hd⟩ := length_of_map_cons h
    exact Nat.lt_succ_of_lt (length_readNatural hd)
  · exact length_readNatural h

theorem length_readFraction {cs digits rest : List Char} (h : readFraction cs = some (digits, rest)) :
    rest.length ≤ cs.length := by
  unfold readFraction at h
  split at h
  · obtain ⟨d, hd⟩ := length_of_map_cons h
    exact Nat.le_succ_of_le (Nat.le_of_lt (length_readDigits hd))
  · cases h; exact Nat.le_refl _

theorem length_readSignedDigits {cs digits rest : List Char} (h : readSignedDigits cs = some (digits, rest)) :
    rest.length < cs.length := by
  unfold readSignedDigits at h
  split at h
  · obtain ⟨d, hd⟩ := length_of_map_cons h
    exact Nat.lt_succ_of_lt (length_readDigits hd)
  · obtain ⟨d, hd⟩ := length_of_map_cons h
    exact Nat.lt_succ_of_lt (length_readDigits hd)
  · exact length_readDigits h

theorem length_readExponent {cs digits rest : List Char} (h : readExponent cs = some (digits, rest)) :
    rest.length ≤ cs.length := by
  unfold readExponent at h
  split at h
  · obtain ⟨d, hd⟩ := length_of_map_cons h
    exact Nat.le_succ_of_le (Nat.le_of_lt (length_readSignedDigits hd))
  · obtain ⟨d, hd⟩ := length_of_map_cons h
    exact Nat.le_succ_of_le (Nat.le_of_lt (length_readSignedDigits hd))
  · cases h; exact Nat.le_refl _

theorem length_readNumber {cs : List Char} {t : Token} {rest : List Char} (h : readNumber cs = some (t, rest)) :
    rest.length < cs.length := by
  simp only [readNumber, Option.bind_eq_bind, Option.bind_eq_some_iff, Prod.exists] at h
  obtain ⟨_, _, hi, _, _, hf, _, _, he, h⟩ := h
  have h1 := length_readInteger hi
  have h2 := length_readFraction hf
  have h3 := length_readExponent he
  split at h
  · cases h
  · split at h <;> cases h <;> omega

/-- A token takes at least one character. -/
theorem length_lexeme {cs : List Char} {t : Token} {rest : List Char} (h : lexeme cs = some (t, rest)) :
    rest.length < cs.length := by
  unfold lexeme at h
  split at h
  · cases h
  · cases h; simp only [List.length_cons]; omega
  · simp only [Option.map_eq_some_iff, Prod.mk.injEq] at h
    obtain ⟨⟨v, r⟩, hr, -, rfl⟩ := h
    have := length_readBlock hr
    simp only [List.length_cons]; omega
  · simp only [Option.map_eq_some_iff, Prod.mk.injEq] at h
    obtain ⟨⟨v, r⟩, hr, -, rfl⟩ := h
    have := length_readQuoted hr
    simp only [List.length_cons]; omega
  · split at h
    · cases h; simp
    · split at h
      · cases h; exact Nat.lt_succ_of_le (List.dropWhile_sublist _).length_le
      · exact length_readNumber h

/-- A token in its place. -/
structure PlacedToken where
  token : Token
  /-- whether a comma stands between the token before, or the start of the text, and this one -/
  afterComma : Bool
  deriving DecidableEq, Repr

/-- The tokens of a text, unless something in it is no token. -/
def tokenize (cs : List Char) : Option (List PlacedToken) :=
  match skipIgnored false cs, length_skipIgnored false cs with
  | [], _ => some []
  | c :: cs', _hskip =>
    match _h : lexeme (c :: cs') with
    | none => none
    | some (t, rest) => (tokenize rest).map (⟨t, startsWithComma false cs⟩ :: ·)
termination_by cs.length
decreasing_by have := length_lexeme _h; simp_wf; omega

end SchemaWeave.Graphql
