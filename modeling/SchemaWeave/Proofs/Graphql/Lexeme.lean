import Mathlib.Data.List.TakeWhile
import Mathlib.Tactic.SplitIfs
import SchemaWeave.Graphql.Layout
import SchemaWeave.Graphql.Lexer
import SchemaWeave.Proofs.Graphql.Block
import SchemaWeave.Proofs.Graphql.Quoted

/-!
# A token and what follows it

The text behind a token matters to it by its first character only, and a character that may not extend any token
never does (`lexeme_replace`). So a token is *written well* (`Token.Valid`) when its written form is read as that
token on its own; every token that is read has this property (`valid_of_lexeme`), and in front of a delimiter it
is read as itself (`lexeme_chars`). Strings are written well in both forms (`valid_string`, `lexeme_block`).
-/

namespace SchemaWeave.Graphql

/-- No character of the kind stands at the head of the text. -/
def Stops (p : Char → Bool) (cs : List Char) : Prop := ∀ c ∈ cs.head?, p c = false

theorem stops_nil (p : Char → Bool) : Stops p [] := by simp [Stops]

@[simp] theorem stops_cons {p : Char → Bool} {c : Char} {cs : List Char} : Stops p (c :: cs) ↔ p c = false := by
  simp [Stops]

theorem Stops.mono {p q : Char → Bool} {cs : List Char} (h : Stops q cs) (hpq : ∀ c, p c = true → q c = true) :
    Stops p cs := fun c hc => by
  cases hp : p c with
  | false => rfl
  | true => rw [← hpq c hp, h c hc]

theorem Stops.append {p : Char → Bool} {cs cs' : List Char} (h : Stops p cs) (h' : Stops p cs') :
    Stops p (cs ++ cs') := by
  cases cs with
  | nil => exact h'
  | cons => exact h

/-- A character that may extend a token in front of it. -/
def mayExtend (c : Char) : Bool := isNameContinue c || c == '.' || c == '"'

/-- A text in front of which every token ends. -/
abbrev Delimited (cs : List Char) : Prop := Stops mayExtend cs

/-- A text that may take the place of another behind a token. -/
def Replaces (cs' cs : List Char) : Prop := cs'.head? = cs.head? ∨ Delimited cs'

theorem Replaces.stops {p : Char → Bool} {cs cs' : List Char} (h : Replaces cs' cs) (hs : Stops p cs)
    (hp : ∀ c, p c = true → mayExtend c = true) : Stops p cs' := by
  intro c hc
  rcases h with h | h
  · exact hs c (h ▸ hc)
  · exact h.mono hp c hc

/-! ## Numbers -/

theorem stops_dropWhile (p : Char → Bool) (cs : List Char) : Stops p (cs.dropWhile p) := by
  intro c hc
  have := List.head?_dropWhile_not p cs
  rw [hc] at this
  simpa using this

theorem takeWhile_append_of_stops {p : Char → Bool} {cs rest : List Char} (h : ∀ c ∈ cs, p c = true)
    (hr : Stops p rest) : (cs ++ rest).takeWhile p = cs ∧ (cs ++ rest).dropWhile p = rest := by
  rw [List.takeWhile_append_of_pos h, List.dropWhile_append_of_pos h]
  cases rest with
  | nil => simp
  | cons c rest => simp [stops_cons.mp hr]

theorem readDigits_eq {cs digits rest : List Char} (h : readDigits cs = some (digits, rest)) :
    cs = digits ++ rest ∧ digits ≠ [] ∧ ∀ c ∈ digits, c.isDigit = true := by
  unfold readDigits at h
  split at h
  · cases h
  · next hne =>
    cases h
    exact ⟨List.takeWhile_append_dropWhile.symm, hne, fun c hc => List.mem_takeWhile_imp hc⟩

theorem readDigits_append {digits rest : List Char} (hne : digits ≠ []) (hd : ∀ c ∈ digits, c.isDigit = true)
    (hr : Stops Char.isDigit rest) : readDigits (digits ++ rest) = some (digits, rest) := by
  obtain ⟨ht, hdr⟩ := takeWhile_append_of_stops hd hr
  unfold readDigits
  rw [ht, hdr]
  cases digits with
  | nil => exact absurd rfl hne
  | cons => rfl

/-- What a reader took is taken again in front of any text with a given property. -/
def Retakes (read : List Char → Option (List Char × List Char)) (piece : List Char) (P : List Char → Prop) : Prop :=
  ∀ rest, P rest → read (piece ++ rest) = some (piece, rest)

theorem retakes_readNatural {cs piece rest : List Char} (h : readNatural cs = some (piece, rest)) :
    cs = piece ++ rest ∧ (∃ c ∈ piece.head?, c.isDigit = true) ∧ Retakes readNatural piece (Stops Char.isDigit) := by
  unfold readNatural at h
  split at h
  · cases h
    exact ⟨rfl, ⟨'0', rfl, by decide⟩, fun _ _ => rfl⟩
  · next hz =>
    obtain ⟨he, hne, hd⟩ := readDigits_eq h
    obtain ⟨c, piece, rfl⟩ := List.exists_cons_of_ne_nil hne
    refine ⟨he, ⟨c, rfl, hd c List.mem_cons_self⟩, fun r hr => ?_⟩
    have hc : c ≠ '0' := fun e => hz (piece ++ rest) (by rw [he, e]; rfl)
    rw [readNatural]
    · exact readDigits_append hne hd hr
    · intro r' e; exact hc (List.cons.inj e).1

theorem retakes_readInteger {cs piece rest : List Char} (h : readInteger cs = some (piece, rest)) :
    cs = piece ++ rest ∧ (∃ c ∈ piece.head?, c = '-' ∨ c.isDigit = true) ∧
      Retakes readInteger piece (Stops Char.isDigit) := by
  unfold readInteger at h
  split at h
  · simp only [Option.map_eq_some_iff, Prod.mk.injEq, Prod.exists] at h
    obtain ⟨d, r, hn, rfl, rfl⟩ := h
    obtain ⟨rfl, -, hr⟩ := retakes_readNatural hn
    refine ⟨rfl, ⟨'-', rfl, Or.inl rfl⟩, fun r' h' => ?_⟩
    simp [readInteger, hr r' h']
  · next hm =>
    obtain ⟨he, ⟨c, hc, hd⟩, hr⟩ := retakes_readNatural h
    refine ⟨he, ⟨c, hc, Or.inr hd⟩, fun r' h' => ?_⟩
    rw [readInteger]
    · exact hr r' h'
    · intro r e
      cases piece with
      | nil => cases hc
      | cons a piece =>
        cases hc
        exact hm (piece ++ rest) (by rw [he, ← (List.cons.inj e).1]; rfl)

theorem retakes_readFraction {cs piece rest : List Char} (h : readFraction cs = some (piece, rest)) :
    cs = piece ++ rest ∧ (∀ c ∈ piece.head?, c = '.') ∧
      Retakes readFraction piece (Stops fun c => c.isDigit || c == '.') := by
  unfold readFraction at h
  split at h
  · simp only [Option.map_eq_some_iff, Prod.mk.injEq, Prod.exists] at h
    obtain ⟨d, r, hn, rfl, rfl⟩ := h
    obtain ⟨rfl, hne, hd⟩ := readDigits_eq hn
    refine ⟨rfl, fun c hc => (Option.some.inj hc).symm, fun r' h' => ?_⟩
    have hr : Stops Char.isDigit r' := h'.mono fun c hc => by simp [hc]
    simp [readFraction, readDigits_append hne hd hr]
  · cases h
    refine ⟨rfl, by simp, fun r' h' => ?_⟩
    rw [List.nil_append, readFraction]
    intro r e
    simp [e] at h'

theorem retakes_readSignedDigits {cs piece rest : List Char} (h : readSignedDigits cs = some (piece, rest)) :
    cs = piece ++ rest ∧ Retakes readSignedDigits piece (Stops Char.isDigit) := by
  unfold readSignedDigits at h
  split at h
  · simp only [Option.map_eq_some_iff, Prod.mk.injEq, Prod.exists] at h
    obtain ⟨d, r, hn, rfl, rfl⟩ := h
    obtain ⟨rfl, hne, hd⟩ := readDigits_eq hn
    exact ⟨rfl, fun r' h' => by simp [readSignedDigits, readDigits_append hne hd h']⟩
  · simp only [Option.map_eq_some_iff, Prod.mk.injEq, Prod.exists] at h
    obtain ⟨d, r, hn, rfl, rfl⟩ := h
    obtain ⟨rfl, hne, hd⟩ := readDigits_eq hn
    exact ⟨rfl, fun r' h' => by simp [readSignedDigits, readDigits_append hne hd h']⟩
  · next hp hm =>
    obtain ⟨he, hne, hd⟩ := readDigits_eq h
    refine ⟨he, fun r' h' => ?_⟩
    obtain ⟨c, piece, rfl⟩ := List.exists_cons_of_ne_nil hne
    rw [readSignedDigits]
    · exact readDigits_append hne hd h'
    · intro r e; exact hp (piece ++ rest) (by rw [he, ← (List.cons.inj e).1]; rfl)
    · intro r e; exact hm (piece ++ rest) (by rw [he, ← (List.cons.inj e).1]; rfl)

/-- A letter that starts an exponent. -/
def isExponentLetter (c : Char) : Bool := c == 'e' || c == 'E'

theorem retakes_readExponent {cs piece rest : List Char} (h : readExponent cs = some (piece, rest)) :
    cs = piece ++ rest ∧ (∀ c ∈ piece.head?, isExponentLetter c = true) ∧
      Retakes readExponent piece (Stops fun c => c.isDigit || isExponentLetter c) := by
  have hdigit {r' : List Char} (h' : Stops (fun c => c.isDigit || isExponentLetter c) r') : Stops Char.isDigit r' :=
    h'.mono fun c hc => by simp [hc]
  unfold readExponent at h
  split at h
  · simp only [Option.map_eq_some_iff, Prod.mk.injEq, Prod.exists] at h
    obtain ⟨d, r, hn, rfl, rfl⟩ := h
    obtain ⟨rfl, hr⟩ := retakes_readSignedDigits hn
    exact ⟨rfl, fun c hc => by cases hc; rfl, fun r' h' => by simp [readExponent, hr r' (hdigit h')]⟩
  · simp only [Option.map_eq_some_iff, Prod.mk.injEq, Prod.exists] at h
    obtain ⟨d, r, hn, rfl, rfl⟩ := h
    obtain ⟨rfl, hr⟩ := retakes_readSignedDigits hn
    exact ⟨rfl, fun c hc => by cases hc; rfl, fun r' h' => by simp [readExponent, hr r' (hdigit h')]⟩
  · cases h
    refine ⟨rfl, by simp, fun r' h' => ?_⟩
    rw [List.nil_append, readExponent]
    · intro r e; simp [e, isExponentLetter] at h'
    · intro r e; simp [e, isExponentLetter] at h'

/-- A character that may not touch a number. -/
def extendsNumber (c : Char) : Bool := c.isDigit || c == '.' || isNameStart c

theorem mayEndNumber_iff {cs : List Char} : mayEndNumber cs = true ↔ Stops extendsNumber cs := by
  cases cs with
  | nil => simp [mayEndNumber, stops_nil]
  | cons c cs => simp [mayEndNumber, extendsNumber]

theorem mayExtend_of_extendsNumber {c : Char} (h : extendsNumber c = true) : mayExtend c = true := by
  simp only [extendsNumber, mayExtend, isNameStart, isNameContinue, Char.isAlphanum, Bool.or_eq_true] at h ⊢
  tauto

theorem isExponentLetter_iff {c : Char} : isExponentLetter c = true ↔ c = 'e' ∨ c = 'E' := by
  simp [isExponentLetter]

theorem extendsNumber_of_isExponentLetter {c : Char} (h : isExponentLetter c = true) : extendsNumber c = true := by
  rcases isExponentLetter_iff.mp h with rfl | rfl <;> decide

/-- The letter of an exponent is no digit and no point. -/
theorem isDigit_of_isExponentLetter {c : Char} (h : isExponentLetter c = true) :
    c.isDigit = false ∧ (c.isDigit || c == '.') = false := by
  rcases isExponentLetter_iff.mp h with rfl | rfl <;> decide

/-- The three pieces of a number are read again in front of any text that may end a number: no piece can take from the
next one. -/
theorem readNumber_pieces {i f e rest : List Char} (hir : Retakes readInteger i (Stops Char.isDigit))
    (hfh : ∀ c ∈ f.head?, c = '.') (hfr : Retakes readFraction f (Stops fun c => c.isDigit || c == '.'))
    (heh : ∀ c ∈ e.head?, isExponentLetter c = true)
    (her : Retakes readExponent e (Stops fun c => c.isDigit || isExponentLetter c)) (hrest : Stops extendsNumber rest) :
    readInteger (i ++ (f ++ (e ++ rest))) = some (i, f ++ (e ++ rest)) ∧
      readFraction (f ++ (e ++ rest)) = some (f, e ++ rest) ∧ readExponent (e ++ rest) = some (e, rest) := by
  have hstop {q : Char → Bool} (hq : ∀ c, q c = true → extendsNumber c = true)
      (hqe : ∀ c, isExponentLetter c = true → q c = false) : Stops q (e ++ rest) := by
    refine Stops.append ?_ (hrest.mono hq)
    intro c hc
    exact hqe c (heh c hc)
  refine ⟨?_, ?_, ?_⟩
  · apply hir
    apply Stops.append
    · intro c hc
      rw [hfh c hc]
      decide
    · apply hstop
      · intro c hc
        simp [extendsNumber, hc]
      · intro c hc
        exact (isDigit_of_isExponentLetter hc).1
  · apply hfr
    apply hstop
    · intro c hc
      simp only [extendsNumber, hc, Bool.true_or]
    · intro c hc
      exact (isDigit_of_isExponentLetter hc).2
  · apply her
    apply hrest.mono
    intro c hc
    rcases (Bool.or_eq_true _ _).mp hc with hc | hc
    · simp [extendsNumber, hc]
    · exact extendsNumber_of_isExponentLetter hc

/-- A number is read again in front of any text that may end a number. -/
theorem readNumber_replace {cs rest : List Char} {t : Token} (h : readNumber cs = some (t, rest)) :
    cs = t.chars ++ rest ∧ (∃ c ∈ t.chars.head?, c = '-' ∨ c.isDigit = true) ∧ Stops extendsNumber rest ∧
      ∀ rest', Stops extendsNumber rest' → readNumber (t.chars ++ rest') = some (t, rest') := by
  simp only [readNumber, Option.bind_eq_bind, Option.bind_eq_some_iff, Prod.exists] at h
  obtain ⟨i, r₁, hi, f, r₂, hf, e, r₃, he, h⟩ := h
  obtain ⟨rfl, hih, hir⟩ := retakes_readInteger hi
  obtain ⟨rfl, hfh, hfr⟩ := retakes_readFraction hf
  obtain ⟨rfl, heh, her⟩ := retakes_readExponent he
  split at h
  · cases h
  next hend =>
    rw [Bool.not_eq_true', Bool.not_eq_false, mayEndNumber_iff] at hend
    have hchars : t.chars = i ++ (f ++ e) ∧ rest = r₃ := by
      split at h
      · next hfe =>
        rw [Bool.and_eq_true, List.isEmpty_iff, List.isEmpty_iff] at hfe
        cases h
        simp [Token.chars, hfe.1, hfe.2]
      · cases h
        simp [Token.chars]
    obtain ⟨hchars, rfl⟩ := hchars
    have hih' : ∃ c ∈ t.chars.head?, c = '-' ∨ c.isDigit = true := by
      obtain ⟨c, hc, hcd⟩ := hih
      refine ⟨c, ?_, hcd⟩
      rw [hchars, List.head?_append, hc]
      rfl
    refine ⟨by rw [hchars]; simp, hih', hend, ?_⟩
    intro r' hr'
    obtain ⟨hint, hfrac, hexp⟩ := readNumber_pieces hir hfh hfr heh her hr'
    rw [hchars]
    simp only [readNumber, Option.bind_eq_bind, List.append_assoc, hint, Option.bind_some, hfrac, hexp,
      mayEndNumber_iff.mpr hr', Bool.not_true, Bool.false_eq_true, if_false] at h ⊢
    split at h
    · next hfe => cases h; rw [if_pos hfe]
    · next hfe => cases h; rw [if_neg hfe]

/-! ## Strings -/

/-- A quoted string, read from a state, is read again in front of any text. -/
def RereadsQuoted (st : QuotedState) (cs value rest : List Char) : Prop :=
  ∃ p, cs = p ++ rest ∧ ∀ rest', readQuoted st (p ++ rest') = some (value, rest')

/-- A step that gives no character. -/
theorem RereadsQuoted.silent {st st' : QuotedState} {c : Char} {cs value rest : List Char}
    (hstep : ∀ cs, readQuoted st (c :: cs) = readQuoted st' cs) (h : RereadsQuoted st' cs value rest) :
    RereadsQuoted st (c :: cs) value rest := by
  obtain ⟨p, rfl, hp⟩ := h
  exact ⟨c :: p, rfl, fun rest' => by rw [List.cons_append, hstep, hp]⟩

/-- A step that gives a character. -/
theorem RereadsQuoted.giving {st st' : QuotedState} {c ch : Char} {cs value rest : List Char}
    (hstep : ∀ cs, readQuoted st (c :: cs) = prepend ch (readQuoted st' cs))
    (ih : ∀ {v}, readQuoted st' cs = some (v, rest) → RereadsQuoted st' cs v rest)
    (h : prepend ch (readQuoted st' cs) = some (value, rest)) : RereadsQuoted st (c :: cs) value rest := by
  obtain ⟨v, hv⟩ := rest_of_prepend h
  obtain ⟨p, rfl, hp⟩ := ih hv
  rw [hv] at h
  exact ⟨c :: p, rfl, fun rest' => by rw [List.cons_append, hstep, hp]; cases h; rfl⟩

theorem readQuoted_replace {st : QuotedState} {cs value rest : List Char}
    (h : readQuoted st cs = some (value, rest)) : RereadsQuoted st cs value rest := by
  fun_induction readQuoted st cs generalizing value <;> first
    | cases h; done
    | cases h; exact ⟨['"'], by simp_all, fun rest' => by simp [readQuoted]⟩
    | (rename_i ih; exact .silent (fun cs => by simp +zetaDelta [readQuoted, *]) (ih h))
    | (rename_i ih; exact .giving (fun cs => by simp +zetaDelta [readQuoted, *]) ih h)

/-- A block string is read again in front of any text. -/
theorem readBlock_replace {cs raw rest : List Char} (h : readBlock cs = some (raw, rest)) :
    ∃ p, cs = p ++ rest ∧ 3 ≤ p.length ∧ ∀ rest', readBlock (p ++ rest') = some (raw, rest') := by
  fun_induction readBlock cs generalizing raw with
  | case1 => cases h; exact ⟨['"', '"', '"'], rfl, by simp, fun rest' => by simp [readBlock]⟩
  | case2 cs ih =>
    simp only [Option.map_eq_some_iff, Prod.mk.injEq, Prod.exists] at h
    obtain ⟨v, r, hr, rfl, rfl⟩ := h
    obtain ⟨p, rfl, -, hp⟩ := ih hr
    exact ⟨'\\' :: '"' :: '"' :: '"' :: p, rfl, by simp, fun rest' => by simp [readBlock, hp]⟩
  | case3 c cs hq hb ih =>
    simp only [Option.map_eq_some_iff, Prod.mk.injEq, Prod.exists] at h
    obtain ⟨v, r, hr, rfl, rfl⟩ := h
    obtain ⟨p, rfl, hlen, hp⟩ := ih hr
    refine ⟨c :: p, rfl, Nat.le_succ_of_le hlen, fun rest' => ?_⟩
    -- the first three characters behind `c` are those of `p`, so no delimiter starts here that did not start before
    obtain ⟨x, y, z, p, rfl⟩ : ∃ x y z p', p = x :: y :: z :: p' := by
      obtain _ | ⟨x, _ | ⟨y, _ | ⟨z, p⟩⟩⟩ := p
      · exact absurd hlen (by simp)
      · exact absurd hlen (by simp)
      · exact absurd hlen (by simp)
      · exact ⟨x, y, z, p, rfl⟩
    rw [List.cons_append, readBlock_cons, hp]
    · rfl
    · intro s he
      simp only [List.cons_append, List.cons.injEq] at he
      exact hq (z :: p ++ r) he.1 (by simp [he.2.1, he.2.2.1])
    · intro s he
      simp only [List.cons_append, List.cons.injEq] at he
      exact hb (p ++ r) he.1 (by simp [he.2.1, he.2.2.1, he.2.2.2.1])
  | case4 => cases h

/-! ## Tokens -/

theorem lexeme_quote_eq {cs : List Char} (h : ∀ r, cs ≠ '"' :: '"' :: r) :
    lexeme ('"' :: cs) = (readQuoted .start cs).map fun (value, rest) => (.string (String.ofList value), rest) := by
  rw [lexeme]
  intro r he
  exact h r he

/-- A token that is no string, seen by its first character. -/
theorem lexeme_cons {c : Char} {cs : List Char} (hp : ∀ r, c :: cs ≠ '.' :: '.' :: '.' :: r) (hq : c ≠ '"') :
    lexeme (c :: cs) = match Punctuator.ofChar? c with
    | some p => some (.punct p, cs)
    | none =>
      if isNameStart c then
        some (.name (String.ofList (c :: cs.takeWhile isNameContinue)), cs.dropWhile isNameContinue)
      else readNumber (c :: cs) := by
  unfold lexeme
  split
  next he => cases he
  next he => exact absurd he (hp _)
  next he => exact absurd (List.cons.inj he).1 hq
  next he => exact absurd (List.cons.inj he).1 hq
  next he => cases he; rfl

theorem ne_spread {c : Char} (h : c ≠ '.') {cs : List Char} (r : List Char) : c :: cs ≠ '.' :: '.' :: '.' :: r :=
  fun he => h (List.cons.inj he).1

theorem chars_of_ofChar? {c : Char} {p : Punctuator} (h : Punctuator.ofChar? c = some p) : p.chars = [c] := by
  unfold Punctuator.ofChar? at h
  split at h <;> first | (cases h; rfl) | cases h

/-- The written form of a token, and what may take the place of the text behind it. A string has other written forms
than its own. -/
def RereadsToken (cs : List Char) (t : Token) (rest : List Char) : Prop :=
  ∃ p, cs = p ++ rest ∧ (∀ rest', Replaces rest' rest → lexeme (p ++ rest') = some (t, rest')) ∧
    (p = t.chars ∨ ∃ s, t = .string s)

theorem rereads_quoted {cs : List Char} {t : Token} {rest : List Char} (hne : ∀ r, cs ≠ '"' :: '"' :: r)
    (h : lexeme ('"' :: cs) = some (t, rest)) : RereadsToken ('"' :: cs) t rest := by
  rw [lexeme_quote_eq hne] at h
  simp only [Option.map_eq_some_iff, Prod.mk.injEq, Prod.exists] at h
  obtain ⟨v, r, hq, rfl, rfl⟩ := h
  obtain ⟨p, rfl, hp⟩ := readQuoted_replace hq
  refine ⟨'"' :: p, rfl, fun rest' hr => ?_, Or.inr ⟨_, rfl⟩⟩
  rw [List.cons_append, lexeme_quote_eq, hp]
  · rfl
  · -- a third quote could only come from the text behind an empty string
    intro s hs
    match p, hp, hne, hq with
    | [], hp, _, _ => simpa [readQuoted] using hp []
    | ['"'], _, hne, _ =>
      have hold : Stops (· == '"') r := by
        cases r with
        | nil => exact stops_nil _
        | cons a r =>
          rw [stops_cons, beq_eq_false_iff_ne]
          rintro rfl
          exact hne r rfl
      have hstop : Stops (· == '"') rest' := by
        apply hr.stops hold
        intro c hc
        rw [beq_iff_eq.mp hc]
        decide
      cases rest' with
      | nil => cases hs
      | cons a rest' =>
        have ha := stops_cons.mp hstop
        rw [(List.cons.inj (List.cons.inj hs).2).1] at ha
        cases ha
    | x :: y :: p, _, hne, _ =>
      simp only [List.cons_append, List.cons.injEq] at hs
      exact hne (p ++ r) (by simp [hs.1, hs.2.1])

theorem rereads_name {c : Char} (hc : Punctuator.ofChar? c = none) (hn : isNameStart c = true) (cs : List Char) :
    RereadsToken (c :: cs) (.name (String.ofList (c :: cs.takeWhile isNameContinue)))
      (cs.dropWhile isNameContinue) := by
  have hp : c ≠ '.' := by rintro rfl; exact absurd hn (by decide)
  have hq : c ≠ '"' := by rintro rfl; exact absurd hn (by decide)
  refine ⟨c :: cs.takeWhile isNameContinue, ?_, ?_, Or.inl (by simp [Token.chars])⟩
  · rw [List.cons_append, List.takeWhile_append_dropWhile]
  · intro rest' hr
    have hstop : Stops isNameContinue rest' := by
      apply hr.stops (stops_dropWhile _ _)
      intro c hc
      simp [mayExtend, hc]
    have hname : ∀ d ∈ cs.takeWhile isNameContinue, isNameContinue d = true := fun d => List.mem_takeWhile_imp
    obtain ⟨ht, hd⟩ := takeWhile_append_of_stops hname hstop
    rw [List.cons_append, lexeme_cons (ne_spread hp) hq, hc]
    simp only [hn, if_true, ht, hd]

theorem rereads_number {c : Char} {cs : List Char} {t : Token} {rest : List Char} (hq : c ≠ '"')
    (hc : Punctuator.ofChar? c = none) (hn : ¬isNameStart c = true) (h : readNumber (c :: cs) = some (t, rest)) :
    RereadsToken (c :: cs) t rest := by
  obtain ⟨he, ⟨d, hd, hdig⟩, hs, hr⟩ := readNumber_replace h
  obtain ⟨l, ht⟩ : ∃ l, t.chars = c :: l := by
    cases ht : t.chars with
    | nil => rw [ht] at hd; cases hd
    | cons a l => rw [ht] at he; exact ⟨l, by rw [(List.cons.inj he).1]⟩
  have hdot : c ≠ '.' := by
    rintro rfl
    rw [ht] at hd
    cases hd
    exact absurd hdig (by decide)
  refine ⟨t.chars, he, ?_, Or.inl rfl⟩
  intro rest' h'
  have hread := hr rest' (h'.stops hs fun c => mayExtend_of_extendsNumber)
  rw [ht] at hread ⊢
  rw [List.cons_append, lexeme_cons (ne_spread hdot) hq, hc]
  simpa [hn] using hread

/-- **Only the first character behind a token matters to it.** -/
theorem lexeme_replace {cs : List Char} {t : Token} {rest : List Char} (h : lexeme cs = some (t, rest)) :
    RereadsToken cs t rest := by
  fun_cases lexeme cs with
  | case1 => cases h
  | case2 cs => cases h; exact ⟨['.', '.', '.'], rfl, fun _ _ => rfl, Or.inl rfl⟩
  | case3 cs =>
    rw [lexeme] at h
    simp only [Option.map_eq_some_iff, Prod.mk.injEq, Prod.exists] at h
    obtain ⟨v, r, hb, rfl, rfl⟩ := h
    obtain ⟨p, rfl, -, hp⟩ := readBlock_replace hb
    exact ⟨'"' :: '"' :: '"' :: p, rfl, fun rest' _ => by simp [lexeme, hp], Or.inr ⟨_, rfl⟩⟩
  | case4 cs hne => exact rereads_quoted (fun r he => hne r he) h
  | case5 c cs _ _ hq p hc =>
    have hp : c ≠ '.' := by rintro rfl; cases hc
    have hq : c ≠ '"' := by rintro rfl; cases hc
    rw [lexeme_cons (ne_spread hp) hq, hc] at h
    cases h
    exact ⟨[c], rfl, fun rest' _ => by rw [List.singleton_append, lexeme_cons (ne_spread hp) hq, hc],
      Or.inl (chars_of_ofChar? hc).symm⟩
  | case6 c cs _ _ hq hc hn =>
    have hp : c ≠ '.' := by rintro rfl; exact absurd hn (by decide)
    have hq : c ≠ '"' := by rintro rfl; exact absurd hn (by decide)
    rw [lexeme_cons (ne_spread hp) hq, hc] at h
    simp only [hn, if_true, Option.some.injEq, Prod.mk.injEq] at h
    obtain ⟨rfl, rfl⟩ := h
    exact rereads_name hc hn cs
  | case7 c cs hp _ hq hc hn =>
    rw [lexeme_cons (fun r he => hp r (List.cons.inj he).1 (List.cons.inj he).2) hq, hc] at h
    simp only [hn, Bool.false_eq_true, if_false] at h
    exact rereads_number hq hc hn h

/-! ## Tokens that are written well -/

/-- The written form of the token, on its own, is read as the token. -/
def Token.Valid (t : Token) : Prop := lexeme t.chars = some (t, [])

/-- In front of a delimiter a valid token is read as itself. -/
theorem lexeme_chars {t : Token} (h : t.Valid) {rest : List Char} (hr : Delimited rest) :
    lexeme (t.chars ++ rest) = some (t, rest) := by
  obtain ⟨p, he, hp, -⟩ := lexeme_replace h
  rw [List.append_nil] at he
  rw [he]
  exact hp rest (Or.inr hr)

/-- A punctuator is read as itself in front of any text. -/
theorem lexeme_punct (p : Punctuator) (rest : List Char) : lexeme (p.chars ++ rest) = some (.punct p, rest) := by
  cases p <;> rfl

/-- A name is valid as a token. -/
theorem valid_name {s : String} (h : isName s = true) : (Token.name s).Valid := by
  unfold isName at h
  split at h
  · cases h
  next c cs he =>
    rw [Bool.and_eq_true, List.all_eq_true] at h
    have hp : c ≠ '.' := by rintro rfl; exact absurd h.1 (by decide)
    have hq : c ≠ '"' := by rintro rfl; exact absurd h.1 (by decide)
    have hc : Punctuator.ofChar? c = none := by
      unfold Punctuator.ofChar?
      split <;> first | rfl | exact absurd h.1 (by decide)
    obtain ⟨ht, hd⟩ := takeWhile_append_of_stops h.2 (stops_nil isNameContinue)
    rw [List.append_nil] at ht hd
    have hs : s = String.ofList (c :: cs) := by rw [← he, String.ofList_toList]
    rw [Token.Valid, Token.chars, he, lexeme_cons (ne_spread hp) hq, hc]
    simp only [h.1, if_true, ht, hd, hs]

/-- A token that was read as a name is a name. -/
theorem isName_of_lexeme {cs rest : List Char} {s : String} (h : lexeme cs = some (.name s, rest)) :
    isName s = true := by
  fun_cases lexeme cs with
  | case6 c cs hp _ hq hc hn =>
    rw [lexeme_cons (fun r he => hp r (List.cons.inj he).1 (List.cons.inj he).2) hq, hc] at h
    simp only [hn, if_true, Option.some.injEq, Prod.mk.injEq, Token.name.injEq] at h
    obtain ⟨rfl, -⟩ := h
    simp only [isName, String.toList_ofList, hn, Bool.true_and, List.all_eq_true]
    exact fun d => List.mem_takeWhile_imp
  | case7 c cs hp _ hq hc hn =>
    rw [lexeme_cons (fun r he => hp r (List.cons.inj he).1 (List.cons.inj he).2) hq, hc] at h
    simp only [hn, Bool.false_eq_true, if_false, readNumber, Option.bind_eq_bind, Option.bind_eq_some_iff,
      Prod.exists] at h
    obtain ⟨_, _, _, _, _, _, _, _, _, h⟩ := h
    split at h
    · cases h
    · split at h <;> cases h
  | case5 c cs hp _ hq p hc =>
    rw [lexeme_cons (fun r he => hp r (List.cons.inj he).1 (List.cons.inj he).2) hq, hc] at h
    cases h
  | case1 => cases h
  | case2 => cases h
  | case3 cs => simp [lexeme] at h
  | case4 cs hne =>
    rw [lexeme_quote_eq fun r he => hne r he] at h
    simp at h

section Strings

variable {escape : Char → List Char} (he : FaithfulEscape escape)
include he

/-- A faithful encoder writes something for every character, and never a bare quote first. -/
theorem escape_head (c : Char) : ∃ d l, escape c = d :: l ∧ d ≠ '"' := by
  cases h : escape c with
  | nil =>
    have := (he c ['"']).1
    simp [h, readQuoted, prepend] at this
  | cons d l =>
    refine ⟨d, l, rfl, ?_⟩
    rintro rfl
    have := (he c []).1
    simp [h, readQuoted, prepend] at this

/-- A quoted string, written with a faithful encoder, is one token. Behind an empty one a third quote would open a
block string. -/
theorem lexeme_escaped_of (value : List Char) {rest : List Char} (hr : value = [] → rest.head? ≠ some '"') :
    lexeme ('"' :: (value.flatMap escape ++ '"' :: rest)) = some (.string (String.ofList value), rest) := by
  rw [lexeme_quote_eq, readQuoted_escaped he]
  · rfl
  · intro r h
    cases value with
    | nil =>
      simp only [List.flatMap_nil, List.nil_append, List.cons.injEq, true_and] at h
      exact hr rfl (by rw [h]; rfl)
    | cons c value =>
      obtain ⟨d, l, hd, hne⟩ := escape_head he c
      rw [List.flatMap_cons, hd] at h
      exact hne (List.cons.inj h).1

/-- In front of a delimiter it is one token whatever its value. -/
theorem lexeme_escaped (value : List Char) {rest : List Char} (hr : Delimited rest) :
    lexeme ('"' :: (value.flatMap escape ++ '"' :: rest)) = some (.string (String.ofList value), rest) := by
  refine lexeme_escaped_of he value fun _ hquote => ?_
  have hextends : mayExtend '"' = false := hr '"' hquote
  exact absurd hextends (by decide)

end Strings

theorem valid_string (s : String) : (Token.string s).Valid := by
  have := lexeme_escaped faithful_quotedChar s.toList (stops_nil mayExtend)
  rw [String.ofList_toList] at this
  exact this

/-- A blockable value that is written as a block string is one token in front of any text. -/
theorem lexeme_block (indent : Nat) {s : String} (h : isBlockable s.toList = true) (rest : List Char) :
    lexeme (block indent s.toList ++ rest) = some (.string s, rest) := by
  obtain ⟨text, raw, hb, hr, hv⟩ := readBlock_block indent h rest
  rw [hb]
  simp only [List.cons_append, lexeme, hr, Option.map_some, hv, String.ofList_toList]

/-- **Every token that is read is written well.** -/
theorem valid_of_lexeme {cs : List Char} {t : Token} {rest : List Char} (h : lexeme cs = some (t, rest)) : t.Valid := by
  obtain ⟨p, -, hp, rfl | ⟨s, rfl⟩⟩ := lexeme_replace h
  · have := hp [] (Or.inr (stops_nil _))
    rwa [List.append_nil] at this
  · exact valid_string s

end SchemaWeave.Graphql
