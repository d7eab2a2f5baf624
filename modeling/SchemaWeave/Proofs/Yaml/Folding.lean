import SchemaWeave.Proofs.Json.Spelling
import SchemaWeave.Text.Blank
import SchemaWeave.Yaml.Quoted

/-!
# JSON strings as quoted scalars

A string of JSON is a scalar in double quotes too, but YAML folds its lines: a next-line character ends a line, as do the
separators of lines and of paragraphs, and these alone stand as they are if no blank is beside them. `HasFold` says that folding
changes a text, and `folds` decides it in one pass. Where a string is read as a scalar at all, the scalar has the text of the
string unless the spelling has such a fold (`readDouble_inside`); with one it is another text, of less `weight`, but no text
becomes empty or blank by it (`Folded`). What the reader has passed but not yet put down is the text of its gap (`Pending`).
-/

namespace SchemaWeave.Yaml

open Json (Inside Escape)

/-! ## Folds -/

/-- The control character that ends a line. -/
def nextLine : Char := '\u0085'

/-- The separators of lines and of paragraphs. -/
def isSeparator (c : Char) : Bool := c == '\u2028' || c == '\u2029'

/-- Folding changes a text: it has a next-line character, or a separator with a space beside it. -/
def HasFold (text : List Char) : Prop :=
  nextLine ∈ text ∨ ∃ s, isSeparator s = true ∧ ([s, ' '] <:+: text ∨ [' ', s] <:+: text)

/-- What the last character of a text was. -/
inductive Last
  | word | blank | separator
  deriving DecidableEq

/-- Whether a text has a fold, or makes one with the character before it. -/
def folds : Last → List Char → Bool
  | _, [] => false
  | last, c :: cs =>
    if c = nextLine then true
    else if c = ' ' then last == .separator || folds .blank cs
    else if isSeparator c then last == .blank || folds .separator cs
    else folds .word cs

theorem hasFold_cons {c : Char} {cs : List Char} : HasFold (c :: cs) ↔ c = nextLine ∨ HasFold cs ∨
    (isSeparator c = true ∧ cs.head? = some ' ') ∨ (c = ' ' ∧ ∃ s, isSeparator s = true ∧ cs.head? = some s) := by
  have hpair (a b : Char) : [a, b] <:+: c :: cs ↔ (a = c ∧ cs.head? = some b) ∨ [a, b] <:+: cs := by
    rw [List.infix_cons_iff, List.cons_prefix_cons, List.singleton_prefix_iff_head?_eq_some]
  simp only [HasFold, List.mem_cons, hpair]
  grind

theorem folds_iff {last : Last} {cs : List Char} : folds last cs = true ↔
    HasFold cs ∨ (last = .separator ∧ cs.head? = some ' ') ∨
    (last = .blank ∧ ∃ s, isSeparator s = true ∧ cs.head? = some s) := by
  induction cs generalizing last with
  | nil => simp [folds, HasFold]
  | cons c cs ih =>
    rw [folds, hasFold_cons]
    split
    · next h => simp [h]
    · next hline =>
      split
      · next h =>
        subst h
        cases last <;> simp [ih, hline, isSeparator]
      · next hspace =>
        split
        · next hsep => cases last <;> simp [ih, hline, hspace, hsep]
        · next hword =>
          have hs (s : Char) (h : isSeparator s = true) : c ≠ s := fun he => hword (he ▸ h)
          cases last <;> simp [ih, hline, hspace, hword]

theorem folds_word_iff {cs : List Char} : folds .word cs = true ↔ HasFold cs := by
  simp [folds_iff]

/-- A character that is neither folded nor makes a fold. -/
structure IsWord (c : Char) : Prop where
  nextLine : c ≠ nextLine
  space : c ≠ ' '
  separator : isSeparator c = false

theorem folds_cons {last : Last} {c : Char} (h : IsWord c) (cs : List Char) : folds last (c :: cs) = folds .word cs := by
  rw [folds, if_neg h.nextLine, if_neg h.space, h.separator, if_neg Bool.false_ne_true]

theorem folds_append {word : List Char} (h : ∀ c ∈ word, IsWord c) (cs : List Char) :
    folds .word (word ++ cs) = folds .word cs := by
  induction word with
  | nil => rfl
  | cons c word ih =>
    rw [List.cons_append, folds_cons (h c List.mem_cons_self)]
    exact ih fun c' hc' => h c' (List.mem_cons_of_mem _ hc')

/-- What stands on either side of a word character folds on its own. -/
theorem folds_append_cons {c : Char} (hc : IsWord c) (last : Last) (cs cs' : List Char) :
    folds last (cs ++ c :: cs') = (folds last cs || folds .word cs') := by
  induction cs generalizing last with
  | nil => exact folds_cons hc cs'
  | cons d cs ih =>
    rw [List.cons_append, folds, folds]
    split
    · rfl
    · split
      · rw [ih, Bool.or_assoc]
      · split
        · rw [ih, Bool.or_assoc]
        · exact ih .word

/-- The blanks of JSON do not fold where no separator comes before them. -/
theorem exists_folds_skipSpace {last : Last} (hlast : last ≠ .separator) (cs : List Char) :
    ∃ last', last' ≠ .separator ∧ folds last cs = folds last' (Json.skipSpace cs) := by
  induction cs generalizing last with
  | nil => exact ⟨last, hlast, rfl⟩
  | cons c cs ih =>
    rw [Json.skipSpace, List.dropWhile_cons]
    split
    · next hspace =>
      by_cases hc : c = ' '
      · obtain ⟨last', hlast', heq⟩ := ih (show Last.blank ≠ .separator by decide)
        refine ⟨last', hlast', ?_⟩
        rw [folds, if_neg (by rw [hc]; decide), if_pos hc, beq_eq_false_iff_ne.mpr hlast, Bool.false_or, heq, Json.skipSpace]
      · have hword : IsWord c := by
          have hcases : c = '\n' ∨ c = '\t' ∨ c = '\r' := by simpa [Json.isSpace, hc, or_assoc] using hspace
          rcases hcases with rfl | rfl | rfl <;> exact ⟨by decide, by decide, rfl⟩
        obtain ⟨last', hlast', heq⟩ := ih (show Last.word ≠ .separator by decide)
        exact ⟨last', hlast', (folds_cons hword cs).trans heq⟩
    · exact ⟨last, hlast, rfl⟩

theorem folds_skipSpace {c : Char} {cs rest : List Char} (h : Json.skipSpace cs = c :: rest) (hc : IsWord c) :
    folds .word cs = folds .word rest := by
  obtain ⟨last, -, heq⟩ := exists_folds_skipSpace (show Last.word ≠ .separator by decide) cs
  rw [heq, h, folds_cons hc]

theorem folds_of_skipSpace_eq_nil {cs : List Char} (h : Json.skipSpace cs = []) : folds .word cs = false := by
  obtain ⟨last, -, heq⟩ := exists_folds_skipSpace (show Last.word ≠ .separator by decide) cs
  rw [heq, h]
  rfl

/-! ## What folding makes of a text -/

/-- The size of a text, where a next-line character counts twice. -/
def weight (cs : List Char) : Nat := cs.length + cs.count nextLine

theorem weight_append (cs cs' : List Char) : weight (cs ++ cs') = weight cs + weight cs' := by
  simp only [weight, List.length_append, List.count_append]
  omega

/-- What folding makes of a text: the text itself, or if something is lost a lighter one. It is neither empty nor blank unless
the text was. -/
structure Folded (lost : Bool) (x t : List Char) : Prop where
  kept : lost = false → t = x
  lighter : lost = true → weight t < weight x
  broken : lost = true → ∃ c ∈ x, isBreak c = true
  filled : x ≠ [] → t ≠ []
  blank : t.all Text.isBlank = x.all Text.isBlank

namespace Folded

theorem refl (x : List Char) : Folded false x x :=
  ⟨fun _ => rfl, fun h => absurd h Bool.false_ne_true, fun h => absurd h Bool.false_ne_true, id, rfl⟩

theorem append {lost lost' : Bool} {x t x' t' : List Char} (h : Folded lost x t) (h' : Folded lost' x' t') :
    Folded (lost || lost') (x ++ x') (t ++ t') where
  kept := by
    intro hlost
    rw [Bool.or_eq_false_iff] at hlost
    rw [h.kept hlost.1, h'.kept hlost.2]
  lighter := by
    intro hlost
    rw [weight_append, weight_append]
    cases lost with
    | true =>
      have hlt := h.lighter rfl
      cases lost' with
      | true => exact Nat.add_lt_add hlt (h'.lighter rfl)
      | false => rw [h'.kept rfl]; exact Nat.add_lt_add_right hlt _
    | false => rw [h.kept rfl]; exact Nat.add_lt_add_left (h'.lighter hlost) _
  broken := by
    intro hlost
    rcases Bool.or_eq_true_iff.mp hlost with hlost | hlost
    · obtain ⟨c, hc, hbreak⟩ := h.broken hlost
      exact ⟨c, List.mem_append_left _ hc, hbreak⟩
    · obtain ⟨c, hc, hbreak⟩ := h'.broken hlost
      exact ⟨c, List.mem_append_right _ hc, hbreak⟩
  filled := by
    intro hx ht
    obtain ⟨ht, ht'⟩ := List.append_eq_nil_iff.mp ht
    by_cases hne : x = []
    · exact h'.filled (fun hx' => hx (by rw [hne, hx', List.append_nil])) ht'
    · exact h.filled hne ht
  blank := by rw [List.all_append, List.all_append, h.blank, h'.blank]

theorem weight_le {lost : Bool} {x t : List Char} (h : Folded lost x t) : weight t ≤ weight x := by
  cases lost with
  | true => exact Nat.le_of_lt (h.lighter rfl)
  | false => rw [h.kept rfl]

/-- A text differs from what folding makes of it if something is lost. -/
theorem eq_iff {lost : Bool} {x t : List Char} (h : Folded lost x t) : t = x ↔ lost = false := by
  refine ⟨fun heq => ?_, h.kept⟩
  cases lost with
  | false => rfl
  | true => exact absurd (h.lighter rfl) (heq ▸ Nat.lt_irrefl _)

end Folded

/-! ## What is pending -/

/-- What the last character of a gap counts as. -/
def Gap.last : Gap → Last
  | .blanks [] => .word
  | .blanks (_ :: _) => .blank
  | .breaks _ _ => .separator

/-- The blanks and line ends of JSON strings that a gap comes from. -/
inductive GapOf (lost : Bool) (x : List Char) : Gap → Prop
  | blanks {cs : List Char} (hlost : lost = false) (hx : x = cs.reverse) : GapOf lost x (.blanks cs)
  | breaks {first : Char} {later : List Char} (hbreak : ∃ c ∈ x, isBreak c = true) (hfirst : lost = false → first ≠ '\n') :
    GapOf lost x (.breaks (some first) later)

/-- The text that a gap comes from, and what folding has made of it so far. -/
structure Pending (lost : Bool) (x : List Char) (gap : Gap) : Prop where
  folded : Folded lost x gap.text
  blank : x.all Text.isBlank = true
  source : GapOf lost x gap

theorem weight_singleton (c : Char) : weight [c] = if c = nextLine then 2 else 1 := by
  by_cases h : c = nextLine <;> simp [weight, h]

theorem isBreak_iff {c : Char} (h : 0x20 ≤ c.val) : isBreak c = true ↔ c = nextLine ∨ isSeparator c = true := by
  have hfeed : c ≠ '\n' := by rintro rfl; exact absurd h (by decide)
  have hreturn : c ≠ '\r' := by rintro rfl; exact absurd h (by decide)
  simp [isBreak, isSeparator, nextLine, hfeed, hreturn, ← Char.val_inj]
  grind

/-- One more line end stands behind a gap over line ends, or in place of the space that the first one is. -/
theorem text_breaks_cons (first c : Char) (later : List Char) :
    (Gap.breaks (some first) (c :: later)).text = (Gap.breaks (some first) later).text ++ [c] ∨
      (Gap.breaks (some first) (c :: later)).text = [c] ∧ first = '\n' := by
  rw [Gap.text, Gap.text]
  by_cases hfirst : first = '\n'
  · cases later <;> simp [hfirst]
  · simp [hfirst]

namespace Pending

variable {lost : Bool} {x : List Char} {gap : Gap}

theorem none : Pending false [] .none := ⟨.refl [], rfl, .blanks rfl rfl⟩

/-- A gap over line ends in which something was lost. -/
theorem ofLost {first : Char} {later : List Char} (hblank : x.all Text.isBlank = true) (hbreak : ∃ c ∈ x, isBreak c = true)
    (hweight : weight (Gap.breaks (some first) later).text < weight x) (hne : (Gap.breaks (some first) later).text ≠ [])
    (hall : (Gap.breaks (some first) later).text.all Text.isBlank = true) : Pending true x (.breaks (some first) later) where
  folded := ⟨fun h => absurd h.symm Bool.false_ne_true, fun _ => hweight, fun _ => hbreak, fun _ => hne, hall.trans hblank.symm⟩
  blank := hblank
  source := .breaks hbreak fun h => absurd h.symm Bool.false_ne_true

theorem addBlank (h : Pending lost x gap) : Pending (lost || gap.last == .separator) (x ++ [' ']) (gap.addBlank ' ') := by
  have hblank : (x ++ [' ']).all Text.isBlank = true := by rw [List.all_append, h.blank]; rfl
  cases h.source with
  | @blanks cs hlost hx =>
    have hlast : ((Gap.blanks cs).last == .separator) = false := by cases cs <;> rfl
    have hx' : x ++ [' '] = (' ' :: cs).reverse := by rw [hx, List.reverse_cons]
    rw [hlost, hlast, Bool.or_false]
    refine ⟨?_, hblank, .blanks rfl hx'⟩
    rw [hx']
    exact .refl _
  | @breaks first later hbreak hfirst =>
    obtain ⟨c, hc, hbreak⟩ := hbreak
    have hlast : (lost || (Gap.breaks (some first) later).last == .separator) = true := Bool.or_true lost
    rw [hlast]
    refine ofLost hblank ⟨c, List.mem_append_left _ hc, hbreak⟩ ?_ (h.folded.filled (List.ne_nil_of_mem hc))
      (h.folded.blank.trans h.blank)
    rw [weight_append]
    exact Nat.lt_of_le_of_lt h.folded.weight_le (Nat.lt_add_of_pos_right (by decide))

/-- A line end of which less is put down than was passed. -/
theorem addBreak (h : Pending lost x gap) {c kept : Char} (hbreak : isBreak c = true) (hc : Text.isBlank c = true)
    (hkept : Text.isBlank kept = true) (hone : weight [kept] = 1)
    (hless : (if gap.isBroken then weight gap.text else 0) + 1 < weight (x ++ [c])) :
    Pending true (x ++ [c]) (gap.addBreak kept) := by
  have hblank : (x ++ [c]).all Text.isBlank = true := by simp [h.blank, hc]
  have hmem : ∃ c' ∈ x ++ [c], isBreak c' = true := ⟨c, List.mem_append_right _ (List.mem_singleton.mpr rfl), hbreak⟩
  cases h.source with
  | @blanks cs hlost hx =>
    have htext : (Gap.breaks (some kept) []).text = if kept = '\n' then [' '] else [kept] := rfl
    refine ofLost hblank hmem (Nat.lt_of_le_of_lt ?_ hless) ?_ ?_ <;> rw [htext] <;> split
    · exact Nat.le_add_left 1 _
    · exact hone ▸ Nat.le_add_left _ _
    · exact List.cons_ne_nil _ _
    · exact List.cons_ne_nil _ _
    · rfl
    · simp [hkept]
  | @breaks first later _ _ =>
    have hall : (Gap.breaks (some first) later).text.all Text.isBlank = true := h.folded.blank.trans h.blank
    refine ofLost hblank hmem (Nat.lt_of_le_of_lt ?_ hless) ?_ ?_ <;>
      rcases text_breaks_cons first kept later with heq | ⟨heq, -⟩ <;>
      rw [heq]
    · exact Nat.le_of_eq (by rw [weight_append, hone]; rfl)
    · exact hone ▸ Nat.le_add_left _ _
    · exact List.append_ne_nil_of_right_ne_nil _ (List.cons_ne_nil _ _)
    · exact List.cons_ne_nil _ _
    · simp [hall, hkept]
    · simp [hkept]

/-- A next-line character is lost, whatever comes before it. -/
theorem addNextLine (h : Pending lost x gap) : Pending true (x ++ [nextLine]) (gap.addBreak '\n') := by
  refine h.addBreak rfl rfl rfl rfl ?_
  have hle := h.folded.weight_le
  rw [weight_append, show weight [nextLine] = 2 from rfl]
  split <;> omega

/-- A separator stays, unless it comes behind a blank. -/
theorem addSeparator (h : Pending lost x gap) {c : Char} (hc : isSeparator c = true) :
    Pending (lost || gap.last == .blank) (x ++ [c]) (gap.addBreak c) := by
  have hcases : c = '\u2028' ∨ c = '\u2029' := by simpa [isSeparator] using hc
  have hbreak : isBreak c = true := by rcases hcases with rfl | rfl <;> rfl
  have hblank : Text.isBlank c = true := by rcases hcases with rfl | rfl <;> rfl
  have hone : weight [c] = 1 := by rcases hcases with rfl | rfl <;> rfl
  have hfeed : c ≠ '\n' := by rcases hcases with rfl | rfl <;> decide
  have hmem : ∃ c' ∈ x ++ [c], isBreak c' = true := ⟨c, List.mem_append_right _ (List.mem_singleton.mpr rfl), hbreak⟩
  have hall : (x ++ [c]).all Text.isBlank = true := by simp [h.blank, hblank]
  have hweight : weight (x ++ [c]) = weight x + 1 := by rw [weight_append, hone]
  have kept {first : Char} {later : List Char} (hfirst : first ≠ '\n')
      (htext : (Gap.breaks (some first) later).text = x ++ [c]) :
      Pending false (x ++ [c]) (.breaks (some first) later) :=
    ⟨by rw [htext]; exact .refl _, hall, .breaks hmem fun _ => hfirst⟩
  cases h.source with
  | @blanks cs hlost hx =>
    subst hlost
    cases cs with
    | nil =>
      refine kept hfeed ?_
      rw [hx, Gap.text, if_neg hfeed]
      rfl
    | cons d cs =>
      refine h.addBreak hbreak hblank hblank hone ?_
      rw [hweight, hx, List.reverse_cons, weight_append]
      have hd : 0 < weight [d] := by rw [weight_singleton]; split <;> decide
      exact Nat.succ_lt_succ (Nat.add_pos_right _ hd)
  | @breaks first later _ hfirst =>
    have hlast : ((Gap.breaks (some first) later).last == .blank) = false := rfl
    rw [hlast, Bool.or_false]
    cases lost with
    | false =>
      have hfirst := hfirst rfl
      refine kept hfirst ?_
      rcases text_breaks_cons first c later with heq | ⟨-, heq⟩
      · rw [heq, h.folded.kept rfl]
      · exact absurd heq hfirst
    | true =>
      refine h.addBreak hbreak hblank hblank hone ?_
      rw [hweight]
      exact Nat.succ_lt_succ (h.folded.lighter rfl)

/-- A character that stands for itself ends what is pending. -/
theorem word (h : Pending lost x gap) {lost' : Bool} {s t : List Char} (ht : Folded lost' s t) (c : Char) :
    Folded (lost || lost') (x ++ c :: s) (gap.text ++ c :: t) := by
  have hc : Folded (false || lost') ([c] ++ s) ([c] ++ t) := (Folded.refl [c]).append ht
  rw [Bool.false_or] at hc
  exact h.folded.append hc

end Pending

theorem folds_space (last : Last) (cs : List Char) : folds last (' ' :: cs) = (last == .separator || folds .blank cs) := by
  rw [folds, if_neg (by decide), if_pos rfl]

theorem folds_nextLine (last : Last) (cs : List Char) : folds last (nextLine :: cs) = true := by
  rw [folds, if_pos rfl]

theorem folds_separator {c : Char} (hc : isSeparator c = true) (last : Last) (cs : List Char) :
    folds last (c :: cs) = (last == .blank || folds .separator cs) := by
  have hline : c ≠ nextLine := by rintro rfl; cases hc
  have hspace : c ≠ ' ' := by rintro rfl; cases hc
  rw [folds, if_neg hline, if_neg hspace, if_pos hc]

/-! ## Escapes -/

theorem isWord_of_ascii {c : Char} (hle : 0x21 ≤ c.val) (hge : c.val ≤ 0x7E) : IsWord c ∧ isBreak c = false := by
  have hne {d : Char} (hd : d.val < 0x21 ∨ 0x7E < d.val) : c ≠ d := by
    rintro rfl
    rcases hd with hd | hd
    · exact absurd hle (UInt32.not_le.mpr hd)
    · exact absurd hge (UInt32.not_le.mpr hd)
  have hline : c ≠ nextLine := hne (Or.inr (by decide))
  have hsep : isSeparator c = false := by
    simp [isSeparator, hne (d := '\u2028') (Or.inr (by decide)), hne (d := '\u2029') (Or.inr (by decide))]
  have hbreak : ¬isBreak c = true := by
    rw [isBreak_iff (UInt32.le_trans (by decide) hle)]
    simp [hline, hsep]
  exact ⟨⟨hline, hne (Or.inl (by decide)), hsep⟩, Bool.not_eq_true _ ▸ hbreak⟩

theorem isWord_of_hexValue? {c : Char} {n : Nat} (h : Text.hexValue? c = some n) : IsWord c ∧ isBreak c = false := by
  have hascii : 0x30 ≤ c.val ∧ c.val ≤ 0x66 := by
    rw [Text.hexValue?] at h
    split at h
    · next hc => exact ⟨hc.1, UInt32.le_trans hc.2 (by decide)⟩
    · split at h
      · next hc => exact ⟨UInt32.le_trans (by decide) hc.1, hc.2⟩
      · split at h
        · next hc => exact ⟨UInt32.le_trans (by decide) hc.1, UInt32.le_trans hc.2 (by decide)⟩
        · cases h
  exact isWord_of_ascii (UInt32.le_trans (by decide) hascii.1) (UInt32.le_trans hascii.2 (by decide))

theorem hexQuad?_eq_some {a b c d : Char} {n : Nat} (h : Text.hexQuad? a b c d = some n) : ∃ i j k l,
    Text.hexValue? a = some i ∧ Text.hexValue? b = some j ∧ Text.hexValue? c = some k ∧ Text.hexValue? d = some l ∧
      n = ((i * 16 + j) * 16 + k) * 16 + l := by
  obtain ⟨i, hi, h⟩ := Option.bind_eq_some_iff.mp h
  obtain ⟨j, hj, h⟩ := Option.bind_eq_some_iff.mp h
  obtain ⟨k, hk, h⟩ := Option.bind_eq_some_iff.mp h
  obtain ⟨l, hl, h⟩ := Option.bind_eq_some_iff.mp h
  exact ⟨i, j, k, l, hi, hj, hk, hl, (Option.some.inj h).symm⟩

theorem isWord_of_hexQuad? {a b c d : Char} {n : Nat} (h : Text.hexQuad? a b c d = some n) :
    ∀ x ∈ ['u', a, b, c, d], IsWord x ∧ isBreak x = false := by
  obtain ⟨i, j, k, l, hi, hj, hk, hl, -⟩ := hexQuad?_eq_some h
  simp only [List.forall_mem_cons]
  exact ⟨isWord_of_ascii (by decide) (by decide), isWord_of_hexValue? hi, isWord_of_hexValue? hj, isWord_of_hexValue? hk,
    isWord_of_hexValue? hl, fun x hx => absurd hx List.not_mem_nil⟩

theorem simpleEscape?_eq_some {c ch : Char} (h : Json.simpleEscape? c = some ch) :
    letterEscape? c = some ch ∧ escapeDigits? c = none ∧ IsWord c ∧ isBreak c = false := by
  rw [Json.simpleEscape?.eq_def] at h
  split at h <;> cases h <;> exact ⟨rfl, rfl, isWord_of_ascii (by decide) (by decide)⟩

/-- What escapes are spelled in has nothing to do with folding. -/
theorem isWord_of_escape {e : List Char} {ch : Char} (h : Escape e ch) : ∀ c ∈ e, IsWord c ∧ isBreak c = false := by
  cases h with
  | simple hc =>
    intro c hmem
    rw [List.mem_singleton.mp hmem]
    exact (simpleEscape?_eq_some hc).2.2
  | unit hn _ _ => exact isWord_of_hexQuad? hn
  | @pair a b c d a' b' c' d' n m hn _ _ hm _ =>
    intro x hx
    rcases List.mem_append.mp (show x ∈ ['u', a, b, c, d] ++ '\\' :: ['u', a', b', c', d'] from hx) with hx | hx
    · exact isWord_of_hexQuad? hn x hx
    · rcases List.mem_cons.mp hx with rfl | hx
      · exact isWord_of_ascii (by decide) (by decide)
      · exact isWord_of_hexQuad? hm x hx

/-- A number in hexadecimal digits stands for its character. -/
theorem readEscape_of_hexQuad? {a b c d ch : Char} {n : Nat} {cs cs' : List Char} (hn : Text.hexQuad? a b c d = some n)
    (h : readEscape ('u' :: a :: b :: c :: d :: cs) = .ok (ch, cs')) : charOfNumber? n = some ch ∧ cs' = cs := by
  obtain ⟨i, j, k, l, hi, hj, hk, hl, rfl⟩ := hexQuad?_eq_some hn
  have hnumber : hexNumber? [a, b, c, d] = some (((i * 16 + j) * 16 + k) * 16 + l) := by
    simp [hexNumber?, hi, hj, hk, hl]
  simp only [readEscape, escapeDigits?, List.take_succ_cons, List.take_zero, List.length_cons, List.length_nil, Nat.lt_irrefl,
    if_false, hnumber, Option.bind_some] at h
  split at h
  · next hchar =>
    cases h
    exact ⟨hchar, rfl⟩
  · cases h

/-- An escape of JSON stands for the same character if it is one escape of YAML. -/
theorem readEscape_of_escape {e cs cs' : List Char} {ch ch' : Char} (he : Escape e ch)
    (h : readEscape (e ++ cs) = .ok (ch', cs')) : ch' = ch ∧ cs' = cs := by
  cases he with
  | simple hc =>
    obtain ⟨hletter, hdigits, -, -⟩ := simpleEscape?_eq_some hc
    rw [List.singleton_append, readEscape, hdigits, hletter] at h
    cases h
    exact ⟨rfl, rfl⟩
  | @unit a b c d n hn hhigh hlow =>
    change readEscape ('u' :: a :: b :: c :: d :: cs) = _ at h
    obtain ⟨hchar, rfl⟩ := readEscape_of_hexQuad? hn h
    rw [charOfNumber?] at hchar
    split at hchar <;> cases hchar
    exact ⟨rfl, rfl⟩
  | @pair a b c d a' b' c' d' n m hn hhigh hlow hm hlow' =>
    change readEscape ('u' :: a :: b :: c :: d :: _) = _ at h
    have hsurrogate : charOfNumber? n = none := by
      refine if_neg fun hvalid => ?_
      simp [Json.isHighSurrogate, Nat.isValidChar] at hhigh hvalid
      omega
    exact absurd (hsurrogate.symm.trans (readEscape_of_hexQuad? hn h).1) (Option.some_ne_none _).symm

/-! ## Strings -/

theorem takeBreak?_cons {c : Char} (h : c ≠ '\r') (cs : List Char) :
    takeBreak? (c :: cs) = if isBreak c then some (breakChar c, cs) else none := by
  rw [takeBreak?.eq_def]
  split
  · next heq => cases heq; exact absurd rfl h
  · next heq => cases heq; rfl
  · next heq => cases heq

theorem takeBreak?_of_not_isBreak {c : Char} (h : isBreak c = false) (cs : List Char) : takeBreak? (c :: cs) = none := by
  have hreturn : c ≠ '\r' := by
    rintro rfl
    cases h
  rw [takeBreak?_cons hreturn, h, if_neg Bool.false_ne_true]

section

variable {bound : Nat} {gap : Gap} {c c' : Cursor} {cs t : List Char}

theorem readDoubleFrom_quote (hrest : c.rest = '"' :: cs) (h : readDoubleFrom bound gap c = .ok (t, c')) :
    t = gap.text ∧ c'.rest = cs := by
  cases bound with
  | zero => cases h
  | succ bound =>
    rw [readDoubleFrom, hrest] at h
    dsimp only at h
    rw [if_neg (by decide), takeBreak?_cons (by decide)] at h
    rw [if_neg (by decide)] at h
    dsimp only at h
    split at h
    · cases h
    · cases h
      exact ⟨rfl, rfl⟩

theorem readDoubleFrom_space (hrest : c.rest = ' ' :: cs) (h : readDoubleFrom bound gap c = .ok (t, c')) :
    ∃ bound', readDoubleFrom bound' (gap.addBlank ' ') (c.next cs) = .ok (t, c') := by
  cases bound with
  | zero => cases h
  | succ bound =>
    rw [readDoubleFrom, hrest] at h
    exact ⟨bound, h⟩

theorem readDoubleFrom_break {ch : Char} (hbreak : isBreak ch = true) (hblank : isBlank ch = false) (hreturn : ch ≠ '\r')
    (hrest : c.rest = ch :: cs) (h : readDoubleFrom bound gap c = .ok (t, c')) :
    ∃ bound' at', readDoubleFrom bound' (gap.addBreak (breakChar ch)) at' = .ok (t, c') ∧ at'.rest = cs := by
  cases bound with
  | zero => cases h
  | succ bound =>
    rw [readDoubleFrom, hrest] at h
    dsimp only at h
    rw [hblank, if_neg Bool.false_ne_true, takeBreak?_cons hreturn, if_pos hbreak] at h
    exact ⟨bound, _, h, rfl⟩

theorem readDoubleFrom_word {ch : Char} (hbreak : isBreak ch = false) (hblank : isBlank ch = false) (hquote : ch ≠ '"')
    (hslash : ch ≠ '\\') (hrest : c.rest = ch :: cs) (h : readDoubleFrom bound gap c = .ok (t, c')) :
    ∃ bound' t', readDoubleFrom bound' .none (c.next cs) = .ok (t', c') ∧ t = gap.text ++ ch :: t' := by
  cases bound with
  | zero => cases h
  | succ bound =>
    rw [readDoubleFrom, hrest] at h
    dsimp only at h
    rw [hblank, if_neg Bool.false_ne_true, takeBreak?_of_not_isBreak hbreak] at h
    dsimp only at h
    split at h
    · cases h
    · obtain ⟨⟨t', c''⟩, hread, h⟩ := Json.bind_eq_ok.mp h
      cases h
      exact ⟨bound, t', hread, rfl⟩

theorem readDoubleFrom_escape {e : List Char} {ch : Char} (he : Escape e ch) (hrest : c.rest = '\\' :: (e ++ cs))
    (h : readDoubleFrom bound gap c = .ok (t, c')) :
    ∃ bound' t', readDoubleFrom bound' .none (c.after cs) = .ok (t', c') ∧ t = gap.text ++ ch :: t' := by
  have hbreak : takeBreak? (e ++ cs) = none := by
    cases he with
    | simple hc => exact takeBreak?_of_not_isBreak (simpleEscape?_eq_some hc).2.2.2 cs
    | unit | pair => exact takeBreak?_of_not_isBreak (c := 'u') rfl _
  cases bound with
  | zero => cases h
  | succ bound =>
    rw [readDoubleFrom, hrest] at h
    dsimp only at h
    rw [if_neg (by decide), takeBreak?_cons (by decide), if_neg (by decide)] at h
    dsimp only at h
    split at h
    · cases h
    · rw [if_neg (by decide), if_pos rfl, hbreak] at h
      obtain ⟨⟨ch', rest⟩, hescape, h⟩ := Json.bind_eq_ok.mp h
      obtain ⟨⟨t', c''⟩, hread, h⟩ := Json.bind_eq_ok.mp h
      obtain ⟨hch, hrest'⟩ := readEscape_of_escape he hescape
      cases h
      rw [hch]
      exact ⟨bound, t', hrest' ▸ hread, rfl⟩

end

/-- Where the spelling of a string is read as a scalar, it is read to its end, and the scalar is what folding makes of the
string and of what was pending. -/
theorem readDoubleFrom_inside {inside s rest : List Char} (hs : Inside inside s) {bound : Nat} {gap : Gap} {c c' : Cursor}
    {lost : Bool} {x t : List Char} (hpending : Pending lost x gap) (hrest : c.rest = inside ++ '"' :: rest)
    (h : readDoubleFrom bound gap c = .ok (t, c')) : c'.rest = rest ∧ Folded (lost || folds gap.last inside) (x ++ s) t := by
  induction hs generalizing bound gap c lost x t with
  | nil =>
    obtain ⟨rfl, hend⟩ := readDoubleFrom_quote hrest h
    rw [folds, Bool.or_false, List.append_nil]
    exact ⟨hend, hpending.folded⟩
  | @plain ch inside s hc hs ih =>
    have hplain : (0x20 ≤ ch.val ∧ ch ≠ '"') ∧ ch ≠ '\\' := by simpa [Json.isPlain] using hc
    rw [List.cons_append] at hrest
    have hsnoc : x ++ ch :: s = x ++ [ch] ++ s := by rw [List.append_assoc, List.singleton_append]
    by_cases hspace : ch = ' '
    · subst hspace
      obtain ⟨bound', hread⟩ := readDoubleFrom_space hrest h
      obtain ⟨hend, hfolded⟩ := ih hpending.addBlank rfl hread
      have hlost : (lost || folds gap.last (' ' :: inside)) =
          (lost || gap.last == .separator || folds (gap.addBlank ' ').last inside) := by
        rw [folds_space, Bool.or_assoc]
        cases gap <;> rfl
      rw [hsnoc, hlost]
      exact ⟨hend, hfolded⟩
    have hblank : isBlank ch = false := by
      have htab : ch ≠ '\t' := by rintro rfl; exact absurd hplain.1.1 (by decide)
      simp [isBlank, hspace, htab]
    by_cases hbreak : isBreak ch = true
    · have hreturn : ch ≠ '\r' := by rintro rfl; exact absurd hplain.1.1 (by decide)
      obtain ⟨bound', at', hread, hrest'⟩ := readDoubleFrom_break hbreak hblank hreturn hrest h
      rcases (isBreak_iff hplain.1.1).mp hbreak with rfl | hsep
      · obtain ⟨hend, hfolded⟩ := ih hpending.addNextLine hrest' hread
        rw [hsnoc, folds_nextLine, Bool.or_true]
        exact ⟨hend, hfolded⟩
      · have hkept : breakChar ch = ch := by
          rcases (by simpa [isSeparator] using hsep : ch = '\u2028' ∨ ch = '\u2029') with rfl | rfl <;> rfl
        rw [hkept] at hread
        obtain ⟨hend, hfolded⟩ := ih (hpending.addSeparator hsep) hrest' hread
        have hlast : (gap.addBreak ch).last = .separator := by cases gap <;> rfl
        rw [hlast, Bool.or_assoc, ← folds_separator hsep] at hfolded
        rw [hsnoc]
        exact ⟨hend, hfolded⟩
    · have hword : IsWord ch := by
        rw [isBreak_iff hplain.1.1, not_or] at hbreak
        exact ⟨hbreak.1, hspace, Bool.not_eq_true _ ▸ hbreak.2⟩
      obtain ⟨bound', t', hread, rfl⟩ :=
        readDoubleFrom_word (Bool.not_eq_true _ ▸ hbreak) hblank hplain.1.2 hplain.2 hrest h
      obtain ⟨hend, hfolded⟩ := ih .none rfl hread
      rw [folds_cons hword]
      exact ⟨hend, hpending.word hfolded ch⟩
  | @escape e inside s ch he hs ih =>
    rw [List.cons_append, List.append_assoc] at hrest
    obtain ⟨bound', t', hread, rfl⟩ := readDoubleFrom_escape he hrest h
    obtain ⟨hend, hfolded⟩ := ih .none rfl hread
    have hslash : IsWord '\\' := (isWord_of_ascii (by decide) (by decide)).1
    rw [folds_cons hslash, folds_append fun c hc => (isWord_of_escape he c hc).1]
    exact ⟨hend, hpending.word hfolded ch⟩

/-- Where a string of JSON is read as a scalar in double quotes, the scalar is what folding makes of the string. -/
theorem readDouble_inside {inside s rest : List Char} (hs : Inside inside s) {c c' : Cursor} {t : List Char}
    (hrest : c.rest = inside ++ '"' :: rest) (h : readDouble c = .ok (t, c')) :
    c'.rest = rest ∧ Folded (folds .word inside) s t :=
  readDoubleFrom_inside hs .none hrest h

end SchemaWeave.Yaml
