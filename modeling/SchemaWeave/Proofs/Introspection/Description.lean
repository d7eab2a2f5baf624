import SchemaWeave.Proofs.Graphql.Block
import SchemaWeave.Proofs.Introspection.Document

/-!
# Descriptions that are printed again

A description that is printed as a block string loses the blank lines at its ends and the indentation that its lines
share. What is left has neither (`isBlockable_blockValue`), so printing and reading it again changes nothing more
(`readDescription_idem`).
-/

namespace SchemaWeave

namespace Graphql

/-! ## Blank lines at the ends -/

/-- The first line that is left when blank lines are dropped is not blank. -/
theorem not_isBlankLine_of_head? {lines : List (List Char)} {l : List Char}
    (h : (lines.dropWhile isBlankLine).head? = some l) : isBlankLine l = false := by
  have hnot := List.head?_dropWhile_not isBlankLine lines
  rw [h] at hnot
  exact hnot

/-- Only blank lines are taken away at the ends, and all of them. -/
theorem trimBlankLines_spec (lines : List (List Char)) :
    ∃ before after, lines = before ++ (trimBlankLines lines ++ after) ∧
      (∀ l ∈ before, isBlankLine l = true) ∧ (∀ l ∈ after, isBlankLine l = true) ∧
      (∀ l ∈ (trimBlankLines lines).head?, isBlankLine l = false) ∧
      ∀ l ∈ (trimBlankLines lines).getLast?, isBlankLine l = false := by
  have hrest : lines.dropWhile isBlankLine =
      trimBlankLines lines ++ ((lines.dropWhile isBlankLine).reverse.takeWhile isBlankLine).reverse := by
    rw [← List.reverse_inj, List.reverse_append, List.reverse_reverse, trimBlankLines, List.reverse_reverse]
    exact List.takeWhile_append_dropWhile.symm
  refine ⟨lines.takeWhile isBlankLine, ((lines.dropWhile isBlankLine).reverse.takeWhile isBlankLine).reverse, ?_,
    fun l hl => List.mem_takeWhile_imp hl, fun l hl => ?_, fun l hl => ?_, fun l hl => ?_⟩
  · rw [← hrest]
    exact List.takeWhile_append_dropWhile.symm
  · exact List.mem_takeWhile_imp (List.mem_reverse.mp hl)
  · have hfirst : (lines.dropWhile isBlankLine).head? = some l := by
      rw [hrest, List.head?_append, hl]
      rfl
    exact not_isBlankLine_of_head? hfirst
  · rw [trimBlankLines, List.getLast?_reverse] at hl
    exact not_isBlankLine_of_head? hl

/-- What trimming leaves were lines before. -/
theorem mem_of_mem_trimBlankLines {lines : List (List Char)} {l : List Char} (h : l ∈ trimBlankLines lines) :
    l ∈ lines := by
  obtain ⟨before, after, heq, -⟩ := trimBlankLines_spec lines
  rw [heq]
  exact List.mem_append_right _ (List.mem_append_left _ h)

/-- Lines without carriage returns make up a text without them. -/
theorem not_mem_joinLines {lines : List (List Char)} (h : ∀ l ∈ lines, '\r' ∉ l) : '\r' ∉ joinLines lines := by
  cases lines with
  | nil => exact List.not_mem_nil
  | cons line lines =>
    rw [joinLines_flatMap]
    simpa using h

/-! ## Indentation -/

/-- The smallest indentation is that of a line that is not blank, and no other such line has less. -/
theorem commonIndent_eq_some_iff {lines : List (List Char)} {n : Nat} : commonIndent lines = some n ↔
    (∃ l ∈ lines, isBlankLine l = false ∧ lineIndent l = n) ∧
      ∀ l ∈ lines, isBlankLine l = false → n ≤ lineIndent l := by
  simp only [commonIndent, List.min?_eq_some_iff, List.mem_map, List.mem_filter, Bool.not_eq_eq_eq_not, Bool.not_true,
    and_assoc, forall_exists_index, and_imp]
  exact and_congr_right fun _ => ⟨fun h l hl hb => h _ l hl hb rfl, fun h _ l hl hb he => he ▸ h l hl hb⟩

/-- Blank lines do not count. -/
theorem commonIndent_congr {xs ys : List (List Char)} (h : ∀ l, isBlankLine l = false → (l ∈ xs ↔ l ∈ ys)) :
    commonIndent xs = commonIndent ys := by
  apply Option.ext
  intro n
  rw [commonIndent_eq_some_iff, commonIndent_eq_some_iff]
  constructor
  · rintro ⟨⟨l, hl, hb, hn⟩, hle⟩
    exact ⟨⟨l, (h l hb).mp hl, hb, hn⟩, fun l hl hb => hle l ((h l hb).mpr hl) hb⟩
  · rintro ⟨⟨l, hl, hb, hn⟩, hle⟩
    exact ⟨⟨l, (h l hb).mpr hl, hb, hn⟩, fun l hl hb => hle l ((h l hb).mp hl) hb⟩

/-- The blanks that are taken away from a line were blanks of it. -/
theorem lineIndent_drop {line : List Char} {n : Nat} (h : n ≤ lineIndent line) :
    lineIndent (line.drop n) = lineIndent line - n ∧ isBlankLine (line.drop n) = isBlankLine line := by
  induction n generalizing line with
  | zero => simp
  | succ n ih =>
    cases line with
    | nil => simp [lineIndent] at h
    | cons c line =>
      have hc : isLineBlank c = true := by
        by_contra hc
        simp [lineIndent, hc] at h
      have hline : lineIndent (c :: line) = lineIndent line + 1 := by simp [lineIndent, hc]
      rw [hline] at h ⊢
      obtain ⟨hi, hb⟩ := ih (Nat.le_of_succ_le_succ h)
      refine ⟨by rw [List.drop_succ_cons, hi, Nat.add_sub_add_right], ?_⟩
      rw [List.drop_succ_cons, hb, isBlankLine, isBlankLine, List.all_cons, hc, Bool.true_and]

/-- Lines without their common indentation have none. -/
theorem commonIndent_drop {lines : List (List Char)} {n : Nat} (h : commonIndent lines = some n) :
    commonIndent (lines.map (·.drop n)) = some 0 := by
  obtain ⟨⟨l, hl, hb, hn⟩, hle⟩ := commonIndent_eq_some_iff.mp h
  obtain ⟨hi, hk⟩ := lineIndent_drop hn.ge
  refine commonIndent_eq_some_iff.mpr ⟨⟨l.drop n, List.mem_map_of_mem hl, by rw [hk, hb], ?_⟩, ?_⟩
  · rw [hi, hn, Nat.sub_self]
  · exact fun _ _ _ => Nat.zero_le _

/-! ## Values of block strings -/

theorem isLine_drop {line : List Char} (h : IsLine line) (n : Nat) : IsLine (line.drop n) :=
  ⟨fun hm => h.1 (List.mem_of_mem_drop hm), fun hm => h.2 (List.mem_of_mem_drop hm)⟩

/-- What trimming leaves of lines of which one is not blank. -/
theorem lines_trimBlankLines {lines : List (List Char)} (h : commonIndent lines = some 0)
    (hl : ∀ l ∈ lines, IsLine l) :
    splitLines (joinLines (trimBlankLines lines)) = trimBlankLines lines ∧
      commonIndent (trimBlankLines lines) = some 0 ∧
      (∃ first, (trimBlankLines lines).head? = some first ∧ isBlankLine first = false) ∧
      ∃ last, (trimBlankLines lines).getLast? = some last ∧ isBlankLine last = false := by
  obtain ⟨before, after, heq, hb, ha, hfirst, hlast⟩ := trimBlankLines_spec lines
  have hmem : ∀ l, isBlankLine l = false → (l ∈ lines ↔ l ∈ trimBlankLines lines) := by
    intro l hn
    conv_lhs => rw [heq]
    simp only [List.mem_append]
    constructor
    · rintro (hm | hm | hm)
      · rw [hb l hm] at hn
        cases hn
      · exact hm
      · rw [ha l hm] at hn
        cases hn
    · exact fun hm => Or.inr (Or.inl hm)
  have hcommon : commonIndent (trimBlankLines lines) = some 0 := by rw [← commonIndent_congr hmem, h]
  obtain ⟨⟨l, hm, -, -⟩, -⟩ := commonIndent_eq_some_iff.mp hcommon
  have hne : trimBlankLines lines ≠ [] := List.ne_nil_of_mem hm
  refine ⟨splitLines_joinLines hne fun l hm => hl l (mem_of_mem_trimBlankLines hm), hcommon, ?_, ?_⟩
  · obtain ⟨first, hf⟩ := Option.isSome_iff_exists.mp (List.isSome_head?.mpr hne)
    exact ⟨first, hf, hfirst first hf⟩
  · have hf := List.getLast?_eq_some_getLast hne
    exact ⟨_, hf, hlast _ hf⟩

/-- The lines of a text that stands on lines of its own. -/
theorem splitLines_between {v last : List Char} (hv : '\r' ∉ v) (hl : IsLine last) :
    splitLines ('\n' :: v ++ '\n' :: last) = [] :: (splitLines v ++ [last]) := by
  obtain ⟨hj, hlines⟩ := joinLines_splitLines hv
  have htext : '\n' :: v ++ '\n' :: last = joinLines ([] :: (splitLines v ++ [last])) := by
    obtain ⟨line, lines, hs⟩ := List.exists_cons_of_ne_nil (splitLines_ne_nil v)
    rw [hs, joinLines_flatMap] at hj
    rw [joinLines_flatMap, hs, ← hj]
    simp
  rw [htext]
  refine splitLines_joinLines (List.cons_ne_nil _ _) fun l hm => ?_
  simp only [List.mem_cons, List.mem_append, List.not_mem_nil, or_false] at hm
  rcases hm with rfl | hm | rfl
  · simp [IsLine]
  · exact hlines l hm
  · exact hl

/-- The value of a block string whose text starts on a line of its own is empty or can be held by a block string. -/
theorem isBlockable_blockValue {cs : List Char} (h : '\r' ∉ cs) :
    blockValue ('\n' :: cs) = [] ∨ isBlockable (blockValue ('\n' :: cs)) = true := by
  obtain ⟨-, hlines⟩ := joinLines_splitLines h
  have hnil : IsLine [] := by simp [IsLine]
  rw [blockValue, splitLines_newline]
  dsimp only
  cases hc : commonIndent (splitLines cs) with
  | none =>
    left
    have hblank : ∀ l ∈ [] :: splitLines cs, isBlankLine l = true := by
      intro l hm
      rw [commonIndent, List.min?_eq_none_iff, List.map_eq_nil_iff, List.filter_eq_nil_iff] at hc
      rcases List.mem_cons.mp hm with rfl | hm
      · rfl
      · simpa using hc l hm
    rw [trimBlankLines, List.dropWhile_eq_nil_iff.mpr hblank]
    rfl
  | some n =>
    right
    have hcommon : commonIndent ([] :: (splitLines cs).map (·.drop n)) = some 0 := by
      rw [← commonIndent_drop hc]
      apply commonIndent_congr
      intro l hl
      rw [List.mem_cons, or_iff_right]
      rintro rfl
      cases hl
    have hline : ∀ l ∈ [] :: (splitLines cs).map (·.drop n), IsLine l := by
      intro l hm
      rcases List.mem_cons.mp hm with rfl | hm
      · exact hnil
      · obtain ⟨l', hm', rfl⟩ := List.mem_map.mp hm
        exact isLine_drop (hlines l' hm') n
    obtain ⟨hs, hz, ⟨first, hf, hfb⟩, last, hl, hlb⟩ := lines_trimBlankLines hcommon hline
    have hr : '\r' ∉ joinLines (trimBlankLines ([] :: (splitLines cs).map (·.drop n))) :=
      not_mem_joinLines fun l hm => (hline l (mem_of_mem_trimBlankLines hm)).2
    simp only [isBlockable, hs, hf, hl, hz, Option.elim_some, hfb, hlb, List.contains_eq_mem, hr, decide_false,
      Bool.not_false, Bool.and_true, BEq.rfl]

/-- A value that a block string can hold is the value of its text on lines of its own. -/
theorem blockValue_between {v last : List Char} (h : isBlockable v = true) (hl : IsLine last)
    (hb : isBlankLine last = true) : blockValue ('\n' :: v ++ '\n' :: last) = v := by
  obtain ⟨hr, ⟨first, hf, hfb⟩, ⟨final, he, heb⟩, hc⟩ := lines_of_isBlockable h
  have hcommon : commonIndent (splitLines v ++ [last]) = some 0 := by
    rw [← hc]
    apply commonIndent_congr
    intro l hn
    rw [List.mem_append, List.mem_singleton, or_iff_left]
    rintro rfl
    rw [hb] at hn
    cases hn
  have hfront : ∀ l ∈ [([] : List Char)], isBlankLine l = true := by simp [isBlankLine]
  have hback : ∀ l ∈ [last], isBlankLine l = true := by simpa using hb
  have htrim : trimBlankLines ([] :: (splitLines v ++ [last])) = splitLines v :=
    trimBlankLines_append hfront hback hf hfb he heb
  simp only [blockValue, splitLines_between hr hl, hcommon, List.drop_zero, List.map_id_fun', id_eq]
  rw [htrim, (joinLines_splitLines hr).1]

end Graphql

namespace Introspection

open Graphql

/-- A block string is written for texts without carriage returns. -/
theorem not_mem_of_isBlockDescription {d : List Char} (h : isBlockDescription d = true) : '\r' ∉ d := by
  intro hm
  rw [isBlockDescription, Bool.and_eq_true, Bool.not_eq_true', hasBlockBreaker, List.any_eq_false] at h
  exact absurd (h.2 '\r' hm) (by decide)

/-- **Printing a description again changes nothing more.** -/
theorem readDescription_idem (level : Nat) (d : String) :
    readDescription level (readDescription level d) = readDescription level d := by
  by_cases hd : isBlockDescription d.toList = true
  swap
  · have hkept : readDescription level d = d := if_neg hd
    rw [hkept, hkept]
  have hline : IsLine (margin level) := isLine_blanks (2 * level)
  have hblank : isBlankLine (margin level) = true := isBlankLine_blanks (2 * level)
  have hr : '\r' ∉ d.toList ++ '\n' :: margin level := by
    have hd := not_mem_of_isBlockDescription hd
    simp [hd, hline.2]
  have hread : readDescription level d = String.ofList (blockValue ('\n' :: (d.toList ++ '\n' :: margin level))) :=
    if_pos hd
  rw [hread]
  rcases isBlockable_blockValue hr with hnil | hblockable
  · rw [hnil]
    rfl
  · rw [readDescription, String.toList_ofList]
    split
    · rw [blockValue_between hblockable hline hblank]
    · rfl

end Introspection

end SchemaWeave
