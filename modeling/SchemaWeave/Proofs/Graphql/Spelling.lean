import SchemaWeave.Proofs.Graphql.Lexeme

/-!
# Texts that spell tokens

A text *spells* a list of tokens (`Spells`) when it adds these tokens to those of any text behind it that starts
with a delimiter. Spelling is put together from the front: a blank or a comma adds nothing, a mark adds itself,
and a valid token adds itself in front of a delimiter. Pieces that are laid out well (`WellLaid`: valid, and no
two words side by side) spell their tokens (`spells_pieces`).

Whether a comma stands in front of a token is known to few rules of the grammar. It is carried along as a mark
that waits for the next token (`tokensFrom`), and forgotten where a text spells tokens.
-/

namespace SchemaWeave.Graphql

/-- Tokens behind a comma, if there was one. -/
def afterComma (comma : Bool) : List PlacedToken → List PlacedToken
  | [] => []
  | t :: ts => { t with afterComma := comma || t.afterComma } :: ts

/-- The tokens of a text, where a comma may stand in front of the text. -/
def tokensFrom (comma : Bool) (cs : List Char) : Option (List PlacedToken) := (tokenize cs).map (afterComma comma)

theorem tokenize_nil {cs : List Char} (h : skipIgnored false cs = []) : tokenize cs = some [] := by
  rw [tokenize]
  split
  · rfl
  · simp_all

/-- The first token of a text. -/
theorem tokenize_lexeme {cs cs' : List Char} (h : skipIgnored false cs = cs') (hne : cs' ≠ []) :
    tokenize cs = (lexeme cs').bind fun (t, rest) => (tokenize rest).map (⟨t, startsWithComma false cs⟩ :: ·) := by
  rw [tokenize]
  split
  · simp_all
  · split <;> simp_all

theorem tokensFrom_false (cs : List Char) : tokensFrom false cs = tokenize cs := by
  have : afterComma false = id := by funext ts; cases ts <;> rfl
  rw [tokensFrom, this, Option.map_id_fun]
  rfl

theorem skipIgnored_ignored {c : Char} (h : isIgnored c = true) (cs : List Char) :
    skipIgnored false (c :: cs) = skipIgnored false cs := by
  have : (c == '#') = false := by
    cases hc : c == '#' with
    | false => rfl
    | true => rw [beq_iff_eq.mp hc] at h; exact absurd h (by decide)
  simp [skipIgnored, this, h]

theorem startsWithComma_ignored {c : Char} (h : isIgnored c = true) (cs : List Char) :
    startsWithComma false (c :: cs) = (c == ',' || startsWithComma false cs) := by
  have : (c == '#') = false := by
    cases hc : c == '#' with
    | false => rfl
    | true => rw [beq_iff_eq.mp hc] at h; exact absurd h (by decide)
  simp [startsWithComma, this, h]

/-- What separates tokens adds none; a comma waits for the next one. -/
theorem tokensFrom_ignored {c : Char} (h : isIgnored c = true) (comma : Bool) (cs : List Char) :
    tokensFrom comma (c :: cs) = tokensFrom (comma || c == ',') cs := by
  by_cases hs : skipIgnored false cs = []
  · rw [tokensFrom, tokensFrom, tokenize_nil hs, tokenize_nil (by rw [skipIgnored_ignored h, hs])]
    rfl
  · rw [tokensFrom, tokensFrom, tokenize_lexeme rfl hs, tokenize_lexeme (skipIgnored_ignored h cs) hs,
      startsWithComma_ignored h]
    cases lexeme (skipIgnored false cs) with
    | none => rfl
    | some r => simp [afterComma, Bool.or_assoc, Function.comp_def]

/-- A character that no token starts with. -/
theorem lexeme_eq_none {c : Char} (hc : Punctuator.ofChar? c = none) (hn : isNameStart c = false)
    (hd : ¬(c = '-' ∨ c.isDigit = true)) (hp : c ≠ '.') (hq : c ≠ '"') (cs : List Char) : lexeme (c :: cs) = none := by
  rw [lexeme_cons (ne_spread hp) hq, hc]
  simp only [hn, Bool.false_eq_true, if_false]
  cases h : readNumber (c :: cs) with
  | none => rfl
  | some r =>
    obtain ⟨he, ⟨d, hd', hdig⟩, -⟩ := readNumber_replace h
    cases ht : r.1.chars with
    | nil => rw [ht] at hd'; cases hd'
    | cons a l =>
      rw [ht] at hd' he
      cases hd'
      rw [← (List.cons.inj he).1] at hdig
      exact absurd hdig hd

/-- A token starts where it is looked for. -/
theorem skipIgnored_of_lexeme {cs : List Char} {t : Token} {rest : List Char} (h : lexeme cs = some (t, rest)) :
    skipIgnored false cs = cs ∧ startsWithComma false cs = false ∧ cs ≠ [] := by
  cases cs with
  | nil => cases h
  | cons c cs =>
    have hc : c ≠ '#' ∧ isIgnored c = false := by
      constructor
      · rintro rfl
        rw [lexeme_eq_none rfl rfl (by decide) (by decide) (by decide)] at h
        cases h
      · cases hi : isIgnored c with
        | false => rfl
        | true =>
          simp only [isIgnored, Bool.or_eq_true, beq_iff_eq] at hi
          rcases hi with ((((rfl | rfl) | rfl) | rfl) | rfl) | rfl <;>
            · rw [lexeme_eq_none rfl rfl (by decide) (by decide) (by decide)] at h
              cases h
    have hcomma : (c == ',') = false := by
      cases he : c == ',' with
      | false => rfl
      | true => rw [beq_iff_eq.mp he] at hc; exact absurd hc.2 (by decide)
    simp [skipIgnored, startsWithComma, hc.1, hc.2, hcomma]

/-- A token at the head of a text comes first, behind the comma if there was one. -/
theorem tokensFrom_lexeme {cs : List Char} {t : Token} {rest : List Char} (h : lexeme cs = some (t, rest))
    (comma : Bool) : tokensFrom comma cs = (tokensFrom false rest).map (⟨t, comma⟩ :: ·) := by
  obtain ⟨hs, hk, hne⟩ := skipIgnored_of_lexeme h
  rw [tokensFrom, tokenize_lexeme hs hne, h, tokensFrom_false, hk]
  simp [afterComma, Function.comp_def]

/-- A token at the head of a text comes first among the tokens of the text. -/
theorem tokenize_of_lexeme {cs : List Char} {t : Token} {rest : List Char} (h : lexeme cs = some (t, rest)) :
    tokenize cs = (tokenize rest).map (⟨t, false⟩ :: ·) := by
  have htokens := tokensFrom_lexeme h false
  rwa [tokensFrom_false, tokensFrom_false] at htokens

/-- What separates tokens leaves no trace at the head of a text, a comma apart. -/
theorem tokenize_ignored {c : Char} (h : isIgnored c = true) (hc : (c == ',') = false) (cs : List Char) :
    tokenize (c :: cs) = tokenize cs := by
  have hskip := tokensFrom_ignored h false cs
  rwa [hc, Bool.or_false, tokensFrom_false, tokensFrom_false] at hskip

/-! ## Spelling -/

/-- The text adds these tokens to those of any text behind it that starts with a delimiter. -/
def Spells (cs : List Char) (ts : List Token) : Prop :=
  ∀ comma rest, Delimited rest → ∃ placed comma', placed.map PlacedToken.token = ts ∧
    tokensFrom comma (cs ++ rest) = (tokensFrom comma' rest).map (placed ++ ·)

theorem spells_nil : Spells [] [] := fun comma _ _ => ⟨[], comma, rfl, by simp⟩

/-- What separates tokens may be put in front. -/
theorem Spells.ignored {cs : List Char} {ts : List Token} (h : Spells cs ts) {c : Char} (hc : isIgnored c = true) :
    Spells (c :: cs) ts := fun comma rest hr => by
  obtain ⟨placed, comma', hp, he⟩ := h (comma || c == ',') rest hr
  exact ⟨placed, comma', hp, by rw [List.cons_append, tokensFrom_ignored hc, he]⟩

/-- A text behind a token that is read in front of it. -/
theorem Spells.lexeme {cs p : List Char} {ts : List Token} {t : Token} (h : Spells cs ts)
    (ht : ∀ rest, Delimited rest → Graphql.lexeme (p ++ (cs ++ rest)) = some (t, cs ++ rest)) :
    Spells (p ++ cs) (t :: ts) := fun comma rest hr => by
  obtain ⟨placed, comma', hp, he⟩ := h false rest hr
  refine ⟨⟨t, comma⟩ :: placed, comma', by rw [List.map_cons, hp], ?_⟩
  rw [List.append_assoc, tokensFrom_lexeme (ht rest hr), he, Option.map_map]
  rfl

/-- A mark may be put in front. -/
theorem Spells.mark {cs : List Char} {ts : List Token} (h : Spells cs ts) (p : Punctuator) :
    Spells (p.chars ++ cs) (.punct p :: ts) :=
  h.lexeme fun _ _ => lexeme_punct p _

/-- A valid token may be put in front of a delimiter. -/
theorem Spells.token {cs : List Char} {ts : List Token} (h : Spells cs ts) {t : Token} (ht : t.Valid)
    (hd : Delimited cs) : Spells (t.chars ++ cs) (t :: ts) :=
  h.lexeme fun _ hr => lexeme_chars ht (hd.append hr)

/-- Texts one behind the other. -/
theorem Spells.append {a b : List Char} {ts us : List Token} (ha : Spells a ts) (hb : Spells b us) (hd : Delimited b) :
    Spells (a ++ b) (ts ++ us) := fun comma rest hr => by
  obtain ⟨placed, k, hp, he⟩ := ha comma (b ++ rest) (hd.append hr)
  obtain ⟨placed', k', hp', he'⟩ := hb k rest hr
  refine ⟨placed ++ placed', k', by rw [List.map_append, hp, hp'], ?_⟩
  rw [List.append_assoc, he, he', Option.map_map]
  congr 1
  funext
  simp

/-- The tokens of a text that spells them. -/
theorem Spells.tokenize {cs : List Char} {ts : List Token} (h : Spells cs ts) :
    ∃ placed, placed.map PlacedToken.token = ts ∧ Graphql.tokenize cs = some placed := by
  obtain ⟨placed, k, hp, he⟩ := h false [] (stops_nil _)
  refine ⟨placed, hp, ?_⟩
  have hn : Graphql.tokenize [] = some [] := tokenize_nil rfl
  rw [List.append_nil, tokensFrom_false, tokensFrom, hn] at he
  simpa [afterComma] using he

/-! ## Texts without comments -/

/-- The text consists of these tokens and of what separates tokens, comments apart. -/
inductive Scans : List Char → List Token → Prop
  | nil : Scans [] []
  | ignored {c : Char} {cs : List Char} {ts : List Token} : isIgnored c = true → Scans cs ts → Scans (c :: cs) ts
  | token {cs rest : List Char} {t : Token} {ts : List Token} :
    lexeme cs = some (t, rest) → Scans rest ts → Scans cs (t :: ts)

/-- A text without comments spells its tokens. -/
theorem Scans.spells {cs : List Char} {ts : List Token} (h : Scans cs ts) : Spells cs ts := by
  induction h with
  | nil => exact spells_nil
  | ignored hc _ ih => exact ih.ignored hc
  | @token cs rest t ts ht _ ih =>
    obtain ⟨p, rfl, hp, -⟩ := lexeme_replace ht
    refine ih.lexeme fun more hm => hp _ ?_
    cases rest with
    | nil => exact Or.inr hm
    | cons => exact Or.inl rfl

/-! ## Pieces -/

/-- A piece that is read as the token it holds. -/
def Piece.Valid : Piece → Prop
  | token t => t.Valid
  | block _ value => isBlockable value.toList = true
  | space | comma | line _ => True

/-- A piece that must not touch another such piece: a token that is no mark. -/
def Piece.isWord : Piece → Bool
  | token (.punct .spread) => true
  | token (.punct _) => false
  | token _ | block .. => true
  | space | comma | line _ => false

/-- The pieces do not start with a word. -/
def NoWordFirst (ps : List Piece) : Prop := ∀ p ∈ ps.head?, p.isWord = false

@[simp] theorem noWordFirst_nil : NoWordFirst [] := by simp [NoWordFirst]

@[simp] theorem noWordFirst_cons {p : Piece} {ps : List Piece} : NoWordFirst (p :: ps) ↔ p.isWord = false := by
  simp [NoWordFirst]

theorem NoWordFirst.append {ps qs : List Piece} (hp : NoWordFirst ps) (hq : NoWordFirst qs) :
    NoWordFirst (ps ++ qs) := by
  cases ps with
  | nil => exact hq
  | cons => exact hp

/-- Valid pieces, no two words side by side. -/
def WellLaid : List Piece → Prop
  | [] => True
  | p :: ps => p.Valid ∧ (p.isWord = true → NoWordFirst ps) ∧ WellLaid ps

/-- Pieces put behind others, where no word comes first. -/
theorem WellLaid.append {ps qs : List Piece} (hp : WellLaid ps) (hq : WellLaid qs) (hn : NoWordFirst qs) :
    WellLaid (ps ++ qs) := by
  induction ps with
  | nil => exact hq
  | cons p ps ih => exact ⟨hp.1, fun hw => (hp.2.1 hw).append hn, ih hp.2.2⟩

theorem delimited_chars {ps : List Piece} (h : NoWordFirst ps) : Delimited (ps.flatMap Piece.chars) := by
  cases ps with
  | nil => exact stops_nil _
  | cons p ps =>
    rw [noWordFirst_cons] at h
    rw [List.flatMap_cons]
    match p, h with
    | .token (.punct p), h =>
      cases p <;> first | exact stops_cons.mpr (by decide) | cases h
    | .space, _ => exact stops_cons.mpr (by decide)
    | .comma, _ => exact stops_cons.mpr (by decide)
    | .line _, _ => exact stops_cons.mpr (by decide)

theorem spells_blanks {cs : List Char} {ts : List Token} (h : Spells cs ts) (n : Nat) :
    Spells (List.replicate n ' ' ++ cs) ts := by
  induction n with
  | zero => exact h
  | succ n ih =>
    rw [List.replicate_succ, List.cons_append]
    exact ih.ignored rfl

/-- A piece is read as the token it holds. -/
theorem lexeme_piece {p : Piece} {t : Token} (ht : p.token? = some t) (hv : p.Valid) {rest : List Char}
    (hr : p.isWord = true → Delimited rest) : lexeme (p.chars ++ rest) = some (t, rest) := by
  match p, ht with
  | .token (.punct p), rfl => exact lexeme_punct p rest
  | .token (.name s), rfl | .token (.int s), rfl | .token (.float s), rfl | .token (.string s), rfl =>
    exact lexeme_chars hv (hr rfl)
  | .block indent value, rfl => exact lexeme_block indent hv rest

theorem Scans.blanks {cs : List Char} {ts : List Token} (h : Scans cs ts) (n : Nat) :
    Scans (List.replicate n ' ' ++ cs) ts := by
  induction n with
  | zero => exact h
  | succ n ih => exact .ignored rfl ih

/-- Pieces that are laid out well consist of their tokens and of blanks. -/
theorem scans_pieces {ps : List Piece} (h : WellLaid ps) :
    Scans (ps.flatMap Piece.chars) (ps.filterMap Piece.token?) := by
  induction ps with
  | nil => exact .nil
  | cons p ps ih =>
    obtain ⟨hv, hn, hw⟩ := h
    have ih := ih hw
    rw [List.flatMap_cons]
    cases ht : p.token? with
    | some t =>
      rw [List.filterMap_cons_some ht]
      exact .token (lexeme_piece ht hv fun hp => delimited_chars (hn hp)) ih
    | none =>
      rw [List.filterMap_cons_none ht]
      match p, ht with
      | .space, _ | .comma, _ => exact .ignored rfl ih
      | .line indent, _ => exact .ignored rfl (ih.blanks indent)

/-- **Pieces that are laid out well spell their tokens.** -/
theorem spells_pieces {ps : List Piece} (h : WellLaid ps) :
    Spells (ps.flatMap Piece.chars) (ps.filterMap Piece.token?) :=
  (scans_pieces h).spells

/-- The blanks of a piece without a token do not put a comma in front of what follows. -/
theorem tokensFrom_blank {p : Piece} (h : p = .space ∨ ∃ indent, p = .line indent) (comma : Bool) (cs : List Char) :
    tokensFrom comma (p.chars ++ cs) = tokensFrom comma cs := by
  have hblanks : ∀ n, tokensFrom comma (List.replicate n ' ' ++ cs) = tokensFrom comma cs := by
    intro n
    induction n with
    | zero => rfl
    | succ n ih => rw [List.replicate_succ, List.cons_append, tokensFrom_ignored rfl, ← ih]; simp
  rcases h with rfl | ⟨n, rfl⟩
  · exact (tokensFrom_ignored rfl comma cs).trans (by simp)
  · rw [Piece.chars, List.cons_append, tokensFrom_ignored rfl, ← hblanks n]
    simp

/-- Where only blanks stand between the first two tokens, no comma does. -/
theorem spells_joined {p q blank : Piece} {ps : List Piece} (hb : blank = .space ∨ ∃ indent, blank = .line indent)
    (h : WellLaid (p :: blank :: q :: ps)) {t u : Token} (hp : p.token? = some t) (hq : q.token? = some u)
    (comma : Bool) {rest : List Char} (hr : Delimited rest) :
    ∃ placed comma', placed.map PlacedToken.token = (p :: blank :: q :: ps).filterMap Piece.token? ∧
      (∀ t ∈ placed[1]?, t.afterComma = false) ∧
      tokensFrom comma ((p :: blank :: q :: ps).flatMap Piece.chars ++ rest) =
        (tokensFrom comma' rest).map (placed ++ ·) := by
  obtain ⟨hvp, hnp, -, -, hvq, hnq, hw⟩ := h
  obtain ⟨placed, comma', hm, he⟩ := spells_pieces hw false rest hr
  have hbt : blank.token? = none := by rcases hb with rfl | ⟨_, rfl⟩ <;> rfl
  refine ⟨⟨t, comma⟩ :: ⟨u, false⟩ :: placed, comma', ?_, by simp, ?_⟩
  · rw [List.filterMap_cons_some hp, List.filterMap_cons_none hbt, List.filterMap_cons_some hq, List.map_cons,
      List.map_cons, hm]
  · have hlp := lexeme_piece hp hvp fun hw => (delimited_chars (hnp hw)).append hr
    have hlq := lexeme_piece hq hvq fun hw => (delimited_chars (hnq hw)).append hr
    simp only [List.flatMap_cons, List.append_assoc] at hlp hlq ⊢
    rw [tokensFrom_lexeme hlp, tokensFrom_blank hb, tokensFrom_lexeme hlq, he]
    simp only [Option.map_map]
    rfl

end SchemaWeave.Graphql
