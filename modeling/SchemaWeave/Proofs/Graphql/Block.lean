import Mathlib.Data.List.Basic
import Mathlib.Tactic.SplitIfs
import SchemaWeave.Graphql.Block

/-!
# Block strings read back

* The reader undoes the escapes up to any character that is no quote and no backslash (`readBlock_escape_stop`), so a
  text that ends in such a character reads back between delimiters (`readBlock_escape_close`).
* A text is the join of its lines, and lines without line ends are the lines of their join (`joinLines_splitLines`,
  `splitLines_joinLines`).
* Indenting the lines of a text is undone by `blockValue` (`blockValue_indented`), hence a blockable value that is
  written as a block string reads back (`readBlock_block`).
-/

namespace SchemaWeave.Graphql

/-! ## Escaped triple quotes -/

theorem readBlock_cons {c : Char} {cs : List Char} (hq : ∀ r, c :: cs ≠ '"' :: '"' :: '"' :: r)
    (hb : ∀ r, c :: cs ≠ '\\' :: '"' :: '"' :: '"' :: r) :
    readBlock (c :: cs) = (readBlock cs).map fun (raw, rest) => (c :: raw, rest) := by
  rw [readBlock]
  · intro r hc hcs; exact hq r (by rw [hc, hcs])
  · intro r hc hcs; exact hb r (by rw [hc, hcs])

theorem escape_cons {c : Char} {cs : List Char} (h : ∀ r, c :: cs ≠ '"' :: '"' :: '"' :: r) :
    escapeTripleQuotes (c :: cs) = c :: escapeTripleQuotes cs := by
  rw [escapeTripleQuotes]
  intro r hc hcs; exact h r (by rw [hc, hcs])

theorem escape_cons_of_ne {c : Char} (h : c ≠ '"') (cs : List Char) :
    escapeTripleQuotes (c :: cs) = c :: escapeTripleQuotes cs :=
  escape_cons fun _ he => h (List.cons.inj he).1

section Stop

variable {z : Char} (hz : z ≠ '"')
include hz

/-- A quote at the head of an escaped text was one before, and no triple quote started there. -/
theorem escape_starts_quote {cs t r : List Char} (h : escapeTripleQuotes cs ++ z :: t = '"' :: r) :
    ∃ cs', cs = '"' :: cs' ∧ r = escapeTripleQuotes cs' ++ z :: t ∧ ∀ s, cs' ≠ '"' :: '"' :: s := by
  fun_cases escapeTripleQuotes cs with
  | case1 cs => simp [escapeTripleQuotes] at h
  | case2 c cs hne =>
    rw [escape_cons fun s he => hne s (List.cons.inj he).1 (List.cons.inj he).2, List.cons_append] at h
    obtain ⟨rfl, rfl⟩ := List.cons.inj h
    exact ⟨cs, rfl, rfl, fun s => hne s rfl⟩
  | case3 =>
    simp only [escapeTripleQuotes, List.nil_append, List.cons.injEq] at h
    exact absurd h.1 hz

/-- No escaped text starts with a triple quote. -/
theorem escape_ne_tripleQuote (cs t r : List Char) : escapeTripleQuotes cs ++ z :: t ≠ '"' :: '"' :: '"' :: r := by
  intro h
  obtain ⟨cs₁, rfl, h₁, hne⟩ := escape_starts_quote hz h
  obtain ⟨cs₂, rfl, h₂, -⟩ := escape_starts_quote hz h₁.symm
  obtain ⟨cs₃, rfl, -, -⟩ := escape_starts_quote hz h₂.symm
  exact hne _ rfl

/-- **Reading undoes escaping** up to a character that is no quote and no backslash. -/
theorem readBlock_escape_stop (hb : z ≠ '\\') (v t : List Char) :
    readBlock (escapeTripleQuotes v ++ z :: t) = (readBlock t).map fun (raw, rest) => (v ++ z :: raw, rest) := by
  fun_induction escapeTripleQuotes v with
  | case1 v ih =>
    simp only [List.cons_append, readBlock, ih, Option.map_map]
    rfl
  | case2 c v hne ih =>
    rw [List.cons_append, readBlock_cons, ih, Option.map_map]
    · rfl
    · intro r he
      obtain ⟨rfl, h⟩ := List.cons.inj he
      obtain ⟨v₁, rfl, h₁, -⟩ := escape_starts_quote hz h
      obtain ⟨v₂, rfl, -, -⟩ := escape_starts_quote hz h₁.symm
      exact hne _ rfl rfl
    · intro r he
      exact escape_ne_tripleQuote hz v t r (List.cons.inj he).2
  | case3 =>
    rw [List.nil_append, readBlock_cons]
    · rfl
    · exact fun _ he => hz (List.cons.inj he).1
    · exact fun _ he => hb (List.cons.inj he).1

/-- A character that is no quote splits the escaping. -/
theorem escape_append_cons (a b : List Char) :
    escapeTripleQuotes (a ++ z :: b) = escapeTripleQuotes a ++ z :: escapeTripleQuotes b := by
  fun_induction escapeTripleQuotes a with
  | case1 a ih => simp only [List.cons_append, escapeTripleQuotes, ih]
  | case2 c a hne ih =>
    rw [List.cons_append, escape_cons, ih, List.cons_append]
    intro r he
    obtain ⟨rfl, h⟩ := List.cons.inj he
    match a, h with
    | [], h => exact hz (List.cons.inj h).1
    | [x], h => exact hz (List.cons.inj (List.cons.inj h).2).1
    | x :: y :: a, h =>
      obtain ⟨rfl, h'⟩ := List.cons.inj h
      obtain ⟨rfl, -⟩ := List.cons.inj h'
      exact hne _ rfl rfl
  | case3 => exact escape_cons_of_ne hz b

end Stop

/-- An escaped text between delimiters reads back if its end cannot be taken for a part of the closing one. -/
theorem readBlock_escape_close {v : List Char} {z : Char} (hv : v.getLast? = some z) (hq : z ≠ '"') (hb : z ≠ '\\')
    (rest : List Char) : readBlock (escapeTripleQuotes v ++ '"' :: '"' :: '"' :: rest) = some (v, rest) := by
  obtain ⟨u, rfl⟩ := List.getLast?_eq_some_iff.mp hv
  rw [escape_append_cons hq, List.append_assoc]
  simp only [escapeTripleQuotes, List.cons_append, List.nil_append]
  rw [readBlock_escape_stop hq hb]
  rfl

/-- Blanks are not escaped. -/
theorem escape_replicate_append (n : Nat) (cs : List Char) :
    escapeTripleQuotes (List.replicate n ' ' ++ cs) = List.replicate n ' ' ++ escapeTripleQuotes cs := by
  induction n with
  | zero => rfl
  | succ n ih => rw [List.replicate_succ, List.cons_append, escape_cons_of_ne (by decide), ih, List.cons_append]

/-! ## Lines -/

/-- A line holds no line end. -/
def IsLine (line : List Char) : Prop := '\n' ∉ line ∧ '\r' ∉ line

theorem splitLines_newline (cs : List Char) : splitLines ('\n' :: cs) = [] :: splitLines cs := by
  rw [splitLines]
  · simp
  · intro _ hc; cases hc

theorem splitLines_cons {c : Char} (hn : c ≠ '\n') (hr : c ≠ '\r') {cs line : List Char} {lines : List (List Char)}
    (h : splitLines cs = line :: lines) : splitLines (c :: cs) = (c :: line) :: lines := by
  rw [splitLines]
  · simp [hn, hr, h]
  · intro _ hc; exact absurd hc hr

theorem splitLines_ne_nil (cs : List Char) : splitLines cs ≠ [] := by
  fun_cases splitLines cs <;> simp_all

/-- A line, and what follows it, are the first line and the others. -/
theorem splitLines_append {line cs l : List Char} {lines : List (List Char)} (hl : IsLine line)
    (h : splitLines cs = l :: lines) : splitLines (line ++ cs) = (line ++ l) :: lines := by
  induction line with
  | nil => exact h
  | cons c line ih =>
    simp only [IsLine, List.mem_cons, not_or] at hl
    exact splitLines_cons (Ne.symm hl.1.1) (Ne.symm hl.2.1) (ih ⟨hl.1.2, hl.2.2⟩)

theorem joinLines_cons {lines : List (List Char)} (h : lines ≠ []) (line : List Char) :
    joinLines (line :: lines) = line ++ '\n' :: joinLines lines := by
  cases lines with
  | nil => exact absurd rfl h
  | cons => rfl

/-- Lines without line ends are the lines of their join. -/
theorem splitLines_joinLines {lines : List (List Char)} (hne : lines ≠ []) (hl : ∀ l ∈ lines, IsLine l) :
    splitLines (joinLines lines) = lines := by
  induction lines with
  | nil => exact absurd rfl hne
  | cons line lines ih =>
    have hline := hl line List.mem_cons_self
    by_cases hlines : lines = []
    · subst hlines
      have := splitLines_append hline (show splitLines [] = [[]] from rfl)
      simpa [joinLines] using this
    · have hs : splitLines ('\n' :: joinLines lines) = [] :: lines := by
        rw [splitLines_newline, ih hlines fun l h => hl l (List.mem_cons_of_mem _ h)]
      rw [joinLines_cons hlines]
      simpa using splitLines_append hline hs

/-- A text without carriage returns is the join of its lines, and these hold no line ends. -/
theorem joinLines_splitLines {v : List Char} (h : '\r' ∉ v) :
    joinLines (splitLines v) = v ∧ ∀ l ∈ splitLines v, IsLine l := by
  induction v with
  | nil => simp [splitLines, joinLines, IsLine]
  | cons c v ih =>
    rw [List.mem_cons, not_or] at h
    obtain ⟨hj, hl⟩ := ih h.2
    obtain ⟨line, lines, hs⟩ := List.exists_cons_of_ne_nil (splitLines_ne_nil v)
    rw [hs] at hj hl
    by_cases hn : c = '\n'
    · subst hn
      rw [splitLines_newline, hs]
      refine ⟨by rw [joinLines, hj]; rfl; simp, ?_⟩
      simpa [IsLine] using hl
    · rw [splitLines_cons hn (Ne.symm h.1) hs]
      refine ⟨?_, fun l hm => ?_⟩
      · cases lines <;> simp_all [joinLines]
      · rcases List.mem_cons.mp hm with rfl | hm
        · have := hl line List.mem_cons_self
          simp only [IsLine, List.mem_cons, not_or] at this ⊢
          exact ⟨⟨Ne.symm hn, this.1⟩, ⟨h.1, this.2⟩⟩
        · exact hl l (List.mem_cons_of_mem _ hm)

/-- Escaping goes line by line. -/
theorem escape_joinLines (lines : List (List Char)) :
    escapeTripleQuotes (joinLines lines) = joinLines (lines.map escapeTripleQuotes) := by
  induction lines with
  | nil => rfl
  | cons line lines ih =>
    by_cases hlines : lines = []
    · subst hlines
      rfl
    · have hmap : lines.map escapeTripleQuotes ≠ [] := by simpa using hlines
      rw [joinLines_cons hlines, escape_append_cons (by decide), ih, List.map_cons, joinLines_cons hmap]

/-- A line that is escaped is a line. -/
theorem isLine_escape {line : List Char} (h : IsLine line) : IsLine (escapeTripleQuotes line) := by
  fun_induction escapeTripleQuotes line with
  | case1 line ih => simp_all [IsLine]
  | case2 c line _ ih => simp_all [IsLine]
  | case3 => exact h

/-- The lines of an escaped text are the escaped lines. -/
theorem splitLines_escape {v : List Char} (h : '\r' ∉ v) :
    splitLines (escapeTripleQuotes v) = (splitLines v).map escapeTripleQuotes := by
  obtain ⟨hj, hl⟩ := joinLines_splitLines h
  conv_lhs => rw [← hj, escape_joinLines]
  refine splitLines_joinLines (by simpa using splitLines_ne_nil v) fun l hm => ?_
  obtain ⟨l', hm', rfl⟩ := List.mem_map.mp hm
  exact isLine_escape (hl l' hm')

/-! ## Indentation -/

/-- The blanks in front of a line. -/
def blanks (n : Nat) : List Char := List.replicate n ' '

/-- A line with blanks in front; an empty line stays empty. -/
def indentLine (n : Nat) (line : List Char) : List Char := if line.isEmpty then [] else blanks n ++ line

/-- What a block string of several lines holds between its delimiters. -/
def indented (n : Nat) (v : List Char) : List Char :=
  joinLines ([] :: ((splitLines v).map (indentLine n) ++ [blanks n]))

theorem isLine_blanks (n : Nat) : IsLine (blanks n) := by
  constructor <;> intro h <;> exact absurd (List.eq_of_mem_replicate h) (by decide)

theorem isLine_indentLine (n : Nat) {line : List Char} (h : IsLine line) : IsLine (indentLine n line) := by
  unfold indentLine
  split
  · simp [IsLine]
  · have hb := isLine_blanks n
    simp only [IsLine, List.mem_append, not_or] at hb h ⊢
    exact ⟨⟨hb.1, h.1⟩, ⟨hb.2, h.2⟩⟩

theorem isBlankLine_blanks (n : Nat) : isBlankLine (blanks n) = true := by
  simp [isBlankLine, blanks, isLineBlank]

theorem isBlankLine_indentLine (n : Nat) (line : List Char) : isBlankLine (indentLine n line) = isBlankLine line := by
  unfold indentLine
  cases line with
  | nil => rfl
  | cons c line => simp [isBlankLine, blanks, isLineBlank]

theorem drop_indentLine (n : Nat) (line : List Char) : (indentLine n line).drop n = line := by
  unfold indentLine
  cases line with
  | nil => simp
  | cons c line => simp [blanks]

/-- A line that is not blank is indented by as much more. -/
theorem lineIndent_indentLine (n : Nat) {line : List Char} (h : isBlankLine line = false) :
    lineIndent (indentLine n line) = n + lineIndent line := by
  have hne : line.isEmpty = false := by cases line with
    | nil => cases h
    | cons => rfl
  rw [indentLine, hne, if_neg Bool.false_ne_true, lineIndent, blanks, List.takeWhile_append_of_pos]
  · simp [lineIndent]
  · intro c hc
    rw [List.eq_of_mem_replicate hc]
    rfl

/-- Lines without common indentation have that of the blanks put in front of them; a blank line behind them does not
count. -/
theorem commonIndent_indented (n : Nat) {lines : List (List Char)} (h : commonIndent lines = some 0) :
    commonIndent (lines.map (indentLine n) ++ [blanks n]) = some n := by
  simp only [commonIndent, List.min?_eq_some_iff, List.mem_map, List.mem_filter, List.mem_append, List.mem_singleton,
    Bool.not_eq_eq_eq_not, Bool.not_true] at h ⊢
  obtain ⟨⟨line, ⟨hm, hb⟩, hz⟩, -⟩ := h
  refine ⟨⟨indentLine n line, ⟨Or.inl ⟨line, hm, rfl⟩, by rw [isBlankLine_indentLine, hb]⟩, ?_⟩, ?_⟩
  · rw [lineIndent_indentLine n hb, hz, Nat.add_zero]
  · rintro k ⟨l, ⟨⟨l', -, rfl⟩ | rfl, hl⟩, rfl⟩
    · rw [isBlankLine_indentLine] at hl
      rw [lineIndent_indentLine n hl]
      exact Nat.le_add_right _ _
    · rw [isBlankLine_blanks] at hl
      cases hl

/-- Between blank lines, lines that start and end with one that is not blank are what trimming leaves. -/
theorem trimBlankLines_append {before lines after : List (List Char)} (hb : ∀ l ∈ before, isBlankLine l = true)
    (ha : ∀ l ∈ after, isBlankLine l = true) {first last : List Char} (hf : lines.head? = some first)
    (hfb : isBlankLine first = false) (hl : lines.getLast? = some last) (hlb : isBlankLine last = false) :
    trimBlankLines (before ++ (lines ++ after)) = lines := by
  have hfront : (before ++ (lines ++ after)).dropWhile isBlankLine = lines ++ after := by
    obtain ⟨tail, rfl⟩ : ∃ tail, lines = first :: tail := List.head?_eq_some_iff.mp hf
    rw [List.dropWhile_append_of_pos hb]
    exact List.dropWhile_cons_of_neg (by rw [hfb]; exact Bool.false_ne_true)
  obtain ⟨front, rfl⟩ := List.getLast?_eq_some_iff.mp hl
  have hafter : ∀ l ∈ after.reverse, isBlankLine l = true := fun l hl => ha l (List.mem_reverse.mp hl)
  rw [trimBlankLines, hfront, List.reverse_append, List.dropWhile_append_of_pos hafter, List.reverse_append,
    List.reverse_singleton, List.singleton_append, List.dropWhile_cons_of_neg (by rw [hlb]; exact Bool.false_ne_true)]
  simp

/-- What makes a value blockable, said of its lines. -/
theorem lines_of_isBlockable {v : List Char} (h : isBlockable v = true) : '\r' ∉ v ∧
    (∃ first, (splitLines v).head? = some first ∧ isBlankLine first = false) ∧
    (∃ last, (splitLines v).getLast? = some last ∧ isBlankLine last = false) ∧
    commonIndent (splitLines v) = some 0 := by
  simp only [isBlockable, Bool.and_eq_true, Bool.not_eq_true', List.contains_eq_mem, decide_eq_false_iff_not,
    beq_iff_eq] at h
  obtain ⟨⟨⟨hr, hf⟩, hl⟩, hc⟩ := h
  refine ⟨hr, ?_, ?_, hc⟩
  · cases hh : (splitLines v).head? with
    | none => rw [hh] at hf; cases hf
    | some first => rw [hh] at hf; exact ⟨first, rfl, hf⟩
  · cases hh : (splitLines v).getLast? with
    | none => rw [hh] at hl; cases hl
    | some last => rw [hh] at hl; exact ⟨last, rfl, hl⟩

/-- **Indenting is undone**: a blockable value, its lines indented between two line ends, is the value of that text. -/
theorem blockValue_indented (n : Nat) {v : List Char} (h : isBlockable v = true) : blockValue (indented n v) = v := by
  obtain ⟨hr, ⟨first, hf, hfb⟩, ⟨last, hl, hlb⟩, hc⟩ := lines_of_isBlockable h
  obtain ⟨hj, hlines⟩ := joinLines_splitLines hr
  have hs : splitLines (indented n v) = [] :: ((splitLines v).map (indentLine n) ++ [blanks n]) := by
    refine splitLines_joinLines (List.cons_ne_nil _ _) fun l hm => ?_
    simp only [List.mem_cons, List.mem_append, List.mem_map, List.not_mem_nil, or_false] at hm
    rcases hm with rfl | ⟨l', hm, rfl⟩ | rfl
    · simp [IsLine]
    · exact isLine_indentLine n (hlines l' hm)
    · exact isLine_blanks n
  have hd : ((splitLines v).map (indentLine n) ++ [blanks n]).map (·.drop n) = splitLines v ++ [[]] := by
    simp [drop_indentLine, Function.comp_def, blanks]
  have hnil : ∀ l ∈ [([] : List Char)], isBlankLine l = true := by simp [isBlankLine]
  have htrim : trimBlankLines ([] :: (splitLines v ++ [[]])) = splitLines v :=
    trimBlankLines_append hnil hnil hf hfb hl hlb
  simp only [blockValue, hs, commonIndent_indented n hc, hd]
  rw [htrim, hj]

/-- A blockable value on one line is the value of its text. -/
theorem blockValue_oneLine {v : List Char} (h : isBlockable v = true) (hn : '\n' ∉ v) : blockValue v = v := by
  obtain ⟨hr, ⟨first, hf, hfb⟩, -, -⟩ := lines_of_isBlockable h
  have hs : splitLines v = [v] := by
    exact splitLines_joinLines (List.cons_ne_nil v []) (by simpa using ⟨hn, hr⟩)
  rw [hs] at hf
  cases hf
  have hnone : ∀ l ∈ ([] : List (List Char)), isBlankLine l = true := List.forall_mem_nil _
  have htrim : trimBlankLines ([] ++ ([v] ++ [])) = [v] := trimBlankLines_append hnone hnone rfl hfb rfl hfb
  simp only [blockValue, hs, commonIndent, List.filter_nil, List.map_nil, List.min?_nil]
  rw [show trimBlankLines [v] = [v] from htrim]
  rfl

/-! ## The written form -/

theorem joinLines_flatMap (line : List Char) (lines : List (List Char)) :
    joinLines (line :: lines) = line ++ lines.flatMap ('\n' :: ·) := by
  induction lines generalizing line with
  | nil => simp [joinLines]
  | cons l lines ih =>
    rw [joinLines_cons (List.cons_ne_nil _ _), ih l]
    rfl

theorem escape_indentLine (n : Nat) (line : List Char) :
    escapeTripleQuotes (indentLine n line) = indentLine n (escapeTripleQuotes line) := by
  cases line with
  | nil => rfl
  | cons c line =>
    have hne : (escapeTripleQuotes (c :: line)).isEmpty = false := by
      rw [escapeTripleQuotes.eq_def]
      split <;> first | rfl | contradiction
    simp only [indentLine, List.isEmpty_cons, hne, blanks, Bool.false_eq_true, if_false, escape_replicate_append]

/-- The escaped form of an indented value, line by line. -/
theorem escape_indented (n : Nat) {v : List Char} (h : '\r' ∉ v) : escapeTripleQuotes (indented n v) =
    ((splitLines (escapeTripleQuotes v)).map (indentLine n)).flatMap ('\n' :: ·) ++ '\n' :: blanks n := by
  have hb : escapeTripleQuotes (blanks n) = blanks n := by
    simpa [escapeTripleQuotes, blanks] using escape_replicate_append n []
  have hlines : ((splitLines v).map (indentLine n)).map escapeTripleQuotes =
      (splitLines (escapeTripleQuotes v)).map (indentLine n) := by
    rw [splitLines_escape h]
    simp [escape_indentLine, Function.comp_def]
  rw [indented, escape_joinLines, List.map_cons, List.map_append, hlines, List.map_singleton, hb, joinLines_flatMap,
    List.flatMap_append]
  simp [escapeTripleQuotes]

/-- A block string is an escaped text between delimiters: the value itself, or the indented value. -/
theorem block_eq (n : Nat) {v : List Char} (h : '\r' ∉ v) :
    block n v = '"' :: '"' :: '"' ::
      escapeTripleQuotes (if fitsOneLine v then v else indented n v) ++ ['"', '"', '"'] := by
  unfold block
  split_ifs with hf
  · rfl
  · have hflat : ((splitLines (escapeTripleQuotes v)).map fun line =>
        if line.isEmpty then '\n' :: line else '\n' :: (List.replicate n ' ' ++ line)).flatten =
        ((splitLines (escapeTripleQuotes v)).map (indentLine n)).flatMap ('\n' :: ·) := by
      rw [List.flatMap_def, List.map_map]
      congr 2
      funext line
      cases line <;> simp [indentLine, blanks]
    simp only [List.append_assoc, List.cons_append, List.nil_append, hflat, escape_indented n h, blanks]

theorem getLast?_indented (n : Nat) (v : List Char) :
    ∃ z, (indented n v).getLast? = some z ∧ z ≠ '"' ∧ z ≠ '\\' := by
  rw [indented, joinLines_flatMap, List.flatMap_append]
  cases n with
  | zero => exact ⟨'\n', by simp [blanks], by decide, by decide⟩
  | succ n =>
    have h : ('\n' :: blanks (n + 1)).getLast? = some ' ' := by
      rw [blanks, List.replicate_succ', ← List.cons_append, List.getLast?_concat]
    exact ⟨' ', by simp [h], by decide, by decide⟩

/-- **A blockable value that is written as a block string reads back**, whatever follows it. -/
theorem readBlock_block (n : Nat) {v : List Char} (h : isBlockable v = true) (rest : List Char) :
    ∃ text raw, block n v = '"' :: '"' :: '"' :: text ∧ readBlock (text ++ rest) = some (raw, rest) ∧
      blockValue raw = v := by
  obtain ⟨hr, ⟨first, hf, hfb⟩, -, -⟩ := lines_of_isBlockable h
  by_cases ho : fitsOneLine v
  · have hv := ho
    simp only [fitsOneLine, Bool.and_eq_true, Bool.not_eq_true', List.contains_eq_mem, decide_eq_false_iff_not,
      bne_iff_ne] at hv
    obtain ⟨⟨⟨hn, -⟩, hq⟩, hb⟩ := hv
    refine ⟨escapeTripleQuotes v ++ ['"', '"', '"'], v, by rw [block_eq n hr, if_pos ho]; rfl, ?_,
      blockValue_oneLine h hn⟩
    cases hz : v.getLast? with
    | none =>
      rw [List.getLast?_eq_none_iff.mp hz] at hf
      cases hf
      cases hfb
    | some z =>
      rw [hz] at hq hb
      simpa using readBlock_escape_close hz (fun e => hq (by rw [e])) (fun e => hb (by rw [e])) rest
  · obtain ⟨z, hz, hq, hb⟩ := getLast?_indented n v
    exact ⟨escapeTripleQuotes (indented n v) ++ ['"', '"', '"'], indented n v, by rw [block_eq n hr, if_neg ho]; rfl,
      by simpa using readBlock_escape_close hz hq hb rest, blockValue_indented n h⟩

end SchemaWeave.Graphql
