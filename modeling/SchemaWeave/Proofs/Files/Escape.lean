import SchemaWeave.Proofs.Files.Search

/-!
# Names as patterns

An escaped text is read as a pattern that matches the text alone (`Pattern.parse_escape`, `Pattern.isMatch_exact`), and
escaping leaves the slashes where they are (`splitSlashes_escape`). So the pattern below a directory is taken apart into
patterns for the names that lead to the directory, and those of the pattern itself (`Glob.Search.ofText_below`).
-/

namespace SchemaWeave

open Files

namespace Files.Pattern

/-! ## Reading escaped text -/

/-- The characters that are escaped. -/
def isWild (c : Char) : Bool := ['?', '*', '[', ']'].contains c

/-- The token for a character alone. -/
def exactToken (c : Char) : PatternToken := if isWild c then .within [.char c] else .char c

/-- The pattern that an escaped text is read as. -/
def exact (text : List Char) : Pattern := text.map exactToken

@[simp] theorem escape_nil : escape [] = [] := rfl

theorem escape_cons (c : Char) (text : List Char) :
    escape (c :: text) = (if isWild c then ['[', c, ']'] else [c]) ++ escape text :=
  List.flatMap_cons

theorem escape_append (a b : List Char) : escape (a ++ b) = escape a ++ escape b := List.flatMap_append

theorem escape_slash : escape ['/'] = ['/'] := rfl

theorem isWild_iff {c : Char} : isWild c = true ↔ c = '?' ∨ c = '*' ∨ c = '[' ∨ c = ']' := by simp [isWild]

theorem isWild_eq_false {c : Char} (h : isWild c = false) : c ≠ '?' ∧ c ≠ '*' ∧ c ≠ '[' := by
  rw [← Bool.not_eq_true, isWild_iff, not_or, not_or, not_or] at h
  exact ⟨h.1, h.2.1, h.2.2.1⟩

theorem readRange_escaped {c : Char} (h : isWild c = true) (rest : List Char) :
    readRange (c :: ']' :: rest) = some (exactToken c, 2, rest) := by
  rcases isWild_iff.mp h with rfl | rfl | rfl | rfl <;> rfl

theorem length_le_of_readRange {cs rest : List Char} {token : PatternToken} {length : Nat}
    (h : readRange cs = some (token, length, rest)) : rest.length ≤ cs.length := by
  have hdrop {ds tail : List Char} {d : Char} (hd : ds.dropWhile (· != ']') = d :: tail) : tail.length < ds.length := by
    have hle := (List.dropWhile_sublist (p := (· != ']')) (l := ds)).length_le
    rw [hd, List.length_cons] at hle
    exact hle
  rw [readRange.eq_def] at h
  split at h
  · split at h
    · cases h
    · next hd =>
      cases h
      have := hdrop hd
      simp only [List.length_cons]
      omega
  · cases h
  · split at h
    · cases h
    · next hd =>
      cases h
      have := hdrop hd
      simp only [List.length_cons]
      omega
  · cases h

/-- An escaped character is read in one step. -/
theorem parseFrom_escape_cons (bound position : Nat) (before : Option Char) (done : Pattern) (c : Char)
    (text rest : List Char) : ∃ position' before',
    parseFrom (bound + 1) position before done (escape (c :: text) ++ rest) =
      parseFrom bound position' before' (exactToken c :: done) (escape text ++ rest) := by
  rw [escape_cons]
  cases hc : isWild c with
  | false =>
    obtain ⟨hany, hstar, hrange⟩ := isWild_eq_false hc
    refine ⟨position + 1, some c, ?_⟩
    rw [if_neg Bool.false_ne_true, List.singleton_append, List.cons_append, parseFrom, if_neg hany, if_neg hstar,
      if_neg hrange, exactToken, hc, if_neg Bool.false_ne_true]
  | true =>
    refine ⟨position + 1 + 2, some ']', ?_⟩
    rw [if_pos rfl, List.append_assoc, List.cons_append, parseFrom, if_neg (by decide), if_neg (by decide), if_pos rfl,
      List.cons_append, List.singleton_append, readRange_escaped hc]

/-- **An escaped text is read as the pattern for it alone.** -/
theorem parseFrom_escape {bound position : Nat} {before : Option Char} {done : Pattern} {text : List Char}
    (h : text.length ≤ bound) :
    parseFrom bound position before done (escape text) = .ok (done.reverse ++ exact text) := by
  induction text generalizing bound position before done with
  | nil => cases bound <;> simp [escape, exact, parseFrom]
  | cons c text ih =>
    obtain ⟨bound, rfl⟩ : ∃ b, bound = b + 1 := ⟨bound - 1, by simp at h; omega⟩
    obtain ⟨position', before', hstep⟩ := parseFrom_escape_cons bound position before done c text []
    rw [List.append_nil, List.append_nil] at hstep
    rw [hstep, ih (by simpa using h)]
    simp [exact]

theorem length_le_escape (text : List Char) : text.length ≤ (escape text).length := by
  induction text with
  | nil => exact Nat.le_refl _
  | cons c text ih =>
    rw [escape_cons]
    split <;> simp <;> omega

theorem parse_escape (text : List Char) : parse (escape text) = .ok (exact text) :=
  parseFrom_escape (length_le_escape text)

/-- A closing bracket is the first character of its range. -/
example : (parse "[[]a[]]".toList).toOption = some (exact "[a]".toList) := by decide +kernel

/-! ## Escaped text in front of a pattern -/

/-- Whether the rest of a text can be read depends on the text in front only by whether it is empty or ends with a slash. -/
theorem parseFrom_isOk_congr {bound bound' position position' : Nat} {before before' : Option Char}
    {done done' : Pattern} {cs : List Char} (hbound : cs.length ≤ bound) (hbound' : cs.length ≤ bound')
    (hbefore : (before = none ∨ before = some '/') ↔ (before' = none ∨ before' = some '/')) :
    (∃ p, parseFrom bound position before done cs = .ok p) ↔ ∃ p, parseFrom bound' position' before' done' cs = .ok p := by
  induction bound generalizing bound' position position' before before' done done' cs with
  | zero =>
    obtain rfl := List.length_eq_zero_iff.mp (Nat.le_zero.mp hbound)
    cases bound' <;> simp [parseFrom]
  | succ bound ih =>
    cases cs with
    | nil => cases bound' <;> simp [parseFrom]
    | cons c cs =>
      rw [List.length_cons] at hbound hbound'
      obtain ⟨bound', rfl⟩ : ∃ b, bound' = b + 1 := ⟨bound' - 1, by omega⟩
      have hdrop : (cs.dropWhile (· == '*')).length ≤ cs.length := (List.dropWhile_sublist _).length_le
      rw [parseFrom, parseFrom]
      split
      · exact ih (by omega) (by omega) Iff.rfl
      split
      · dsimp only
        split
        · simp
        split
        · exact ih (by omega) (by omega) Iff.rfl
        rw [if_congr hbefore rfl rfl]
        split
        · split
          · exact ih (Nat.zero_le _) (Nat.zero_le _) Iff.rfl
          · next rest hrest =>
            rw [hrest, List.length_cons] at hdrop
            exact ih (by omega) (by omega) Iff.rfl
          · simp
        · simp
      split
      · cases hrange : readRange cs with
        | none => simp
        | some read =>
          obtain ⟨token, length, rest⟩ := read
          have hrest := length_le_of_readRange hrange
          exact ih (by omega) (by omega) Iff.rfl
      · exact ih (by omega) (by omega) Iff.rfl

/-- Behind an escaped text and a slash, a text can be read if it can be read alone. -/
theorem parse_escape_append (front text : List Char) :
    (∃ p, parse (escape front ++ '/' :: text) = .ok p) ↔ ∃ p, parse text = .ok p := by
  have hfrom : ∀ {bound position : Nat} {before : Option Char} {done : Pattern},
      (escape front ++ '/' :: text).length ≤ bound →
      ((∃ p, parseFrom bound position before done (escape front ++ '/' :: text) = .ok p) ↔ ∃ p, parse text = .ok p) := by
    induction front with
    | nil =>
      intro bound position before done hbound
      rw [escape_nil, List.nil_append, List.length_cons] at hbound
      obtain ⟨bound, rfl⟩ : ∃ b, bound = b + 1 := ⟨bound - 1, by omega⟩
      rw [escape_nil, List.nil_append, parseFrom, if_neg (by decide), if_neg (by decide),
        if_neg (by decide)]
      exact parseFrom_isOk_congr (by omega) (Nat.le_refl _) (by simp)
    | cons c front ih =>
      intro bound position before done hbound
      have hlen : (escape front).length < (escape (c :: front)).length := by
        rw [escape_cons, List.length_append]
        split <;> exact Nat.lt_add_of_pos_left (Nat.succ_pos _)
      rw [List.length_append] at hbound
      obtain ⟨bound, rfl⟩ : ∃ b, bound = b + 1 := ⟨bound - 1, by omega⟩
      obtain ⟨position', before', hstep⟩ := parseFrom_escape_cons bound position before done c front ('/' :: text)
      rw [hstep]
      exact ih (by rw [List.length_append]; omega)
  exact hfrom (Nat.le_refl _)

/-- A slash in front changes nothing either. -/
theorem parse_slash (text : List Char) : (∃ p, parse ('/' :: text) = .ok p) ↔ ∃ p, parse text = .ok p :=
  parse_escape_append [] text

/-! ## What the pattern for a text matches -/

theorem isMatch_exact {text name : List Char} : isMatch (exact text) name = true ↔ name = text := by
  induction text generalizing name with
  | nil => simp [exact, isMatch]
  | cons c text ih =>
    have htoken (d : Char) : tokenMatches d (exactToken c) = true ↔ d = c := by
      rw [exactToken]
      split <;> simpa [tokenMatches, inRange] using eq_comm
    cases name with
    | nil =>
      have hnil : isMatch (exact (c :: text)) [] = false := by
        rw [exact, List.map_cons, exactToken]
        split <;> rfl
      simp [hnil]
    | cons d name =>
      have hcons : isMatch (exact (c :: text)) (d :: name)
          = (tokenMatches d (exactToken c) && isMatch (exact text) name) := by
        rw [exact, List.map_cons, exactToken]
        split <;> rfl
      simp [hcons, htoken, ih]

theorem isRecursive_exact (text : List Char) : (exact text).isRecursive = false := by
  rw [isRecursive, List.contains_eq_mem, decide_eq_false_iff_not, exact, List.mem_map]
  rintro ⟨c, -, hc⟩
  rw [exactToken] at hc
  split at hc <;> cases hc

/-- A text without wildcards is followed. -/
theorem literal?_exact {text : List Char} (h : text.any isWild = false) : (exact text).literal? = some text := by
  induction text with
  | nil => rfl
  | cons c text ih =>
    rw [List.any_cons, Bool.or_eq_false_iff] at h
    have htail := ih h.2
    rw [literal?] at htail ⊢
    rw [exact, List.map_cons, exactToken, h.1, if_neg Bool.false_ne_true, List.mapM_cons, ← exact, htail]
    rfl

theorem literal?_exact_wild {text : List Char} (h : text.any isWild = true) : (exact text).literal? = none := by
  cases hname : (exact text).literal? with
  | none => rfl
  | some name =>
    obtain ⟨c, hc, hwild⟩ := List.any_eq_true.mp h
    have hmem : exactToken c ∈ exact text := List.mem_map_of_mem hc
    rw [eq_of_literal? hname, exactToken, if_pos hwild, List.mem_map] at hmem
    obtain ⟨_, -, hmem⟩ := hmem
    cases hmem

/-- The pattern for a text with wildcards stands for no dots. -/
theorem specials_exact {text : List Char} (h : text.any isWild = true) : Glob.specials (exact text) = [] := by
  rw [Glob.specials, List.filter_eq_nil_iff]
  intro s hs hmatch
  rw [isMatch_exact] at hmatch
  have hdots : s = ".." ∨ s = "." := by
    split at hs
    · simpa using hs
    · cases hs
  rcases hdots with rfl | rfl <;> rw [← hmatch] at h <;> cases h

end Files.Pattern

/-! ## Pieces -/

namespace Files

theorem splitSlashes_escape (text : List Char) :
    splitSlashes (Pattern.escape text) = (splitSlashes text).map Pattern.escape := by
  induction text with
  | nil => rfl
  | cons c text ih =>
    rw [Pattern.escape_cons]
    by_cases hc : c = '/'
    · subst hc
      simp [splitSlashes, ih, Pattern.isWild]
    · have hfront {piece : List Char} {pieces : List (List Char)}
          (hs : splitSlashes (Pattern.escape text) = piece :: pieces) :
          splitSlashes ((if Pattern.isWild c then ['[', c, ']'] else [c]) ++ Pattern.escape text)
            = ((if Pattern.isWild c then ['[', c, ']'] else [c]) ++ piece) :: pieces := by
        split <;> simp [splitSlashes, hs, hc]
      rw [splitSlashes, if_neg hc]
      cases hs : splitSlashes text with
      | nil => exact absurd hs (splitSlashes_ne_nil _)
      | cons piece pieces =>
        rw [hs, List.map_cons] at ih
        rw [hfront ih]
        simp [Pattern.escape_cons]

namespace Glob

theorem patternPieces_append (front text : List Char) :
    patternPieces (front ++ '/' :: text) = splitSlashes front ++ patternPieces text := by
  have hne : front ++ '/' :: text ≠ [] := by simp
  rw [patternPieces.eq_def]
  split
  · next h => exact absurd h hne
  rw [splitSlashes_append]
  cases text with
  | nil => simp [patternPieces, splitSlashes]
  | cons c text =>
    have hlast : (front ++ '/' :: c :: text).getLast? = (c :: text).getLast? := by
      rw [List.append_cons, List.getLast?_append, Option.or_of_isSome (by simp)]
    have hpieces : patternPieces (c :: text) =
        if (c :: text).getLast? == some '/' then (splitSlashes (c :: text)).dropLast else splitSlashes (c :: text) := rfl
    dsimp only
    rw [hlast, hpieces]
    split
    · rw [List.dropLast_append_of_ne_nil (splitSlashes_ne_nil _)]
    · rfl

/-- A text is nothing, or it is taken apart at its slashes, without the one at its end. -/
theorem patternPieces_eq (text : List Char) : text = [] ∨
    ∃ front, (text = front ∧ text ≠ [] ∧ text.getLast? ≠ some '/' ∨ text = front ++ ['/']) ∧
      patternPieces text = splitSlashes front := by
  by_cases hempty : text = []
  · exact Or.inl hempty
  refine Or.inr ?_
  by_cases hlast : text.getLast? = some '/'
  · obtain ⟨front, rfl⟩ := List.getLast?_eq_some_iff.mp hlast
    refine ⟨front, Or.inr rfl, ?_⟩
    rw [patternPieces_append]
    simp [patternPieces]
  · refine ⟨text, Or.inl ⟨rfl, hempty, hlast⟩, ?_⟩
    rw [patternPieces.eq_def]
    split
    · exact absurd rfl hempty
    · dsimp only
      rw [if_neg (by simpa using hlast)]

theorem patternPieces_ne_nil {text : List Char} (h : text ≠ []) : patternPieces text ≠ [] := by
  obtain ⟨front, -, hpieces⟩ := (patternPieces_eq text).resolve_left h
  rw [hpieces]
  exact splitSlashes_ne_nil front

/-! ## The pattern below a directory -/

/-- The pieces of a directory's absolute path. A slash at the end makes no piece of its own. -/
def basePieces (base : Path) : List (List Char) := patternPieces (base.toList.drop 1)

theorem getLast?_escape {text : List Char} (h : (Pattern.escape text).getLast? = some '/') : text.getLast? = some '/' := by
  rcases List.eq_nil_or_concat text with rfl | ⟨init, c, rfl⟩
  · exact h
  · rw [List.concat_eq_append, Pattern.escape_append, Pattern.escape_cons] at h
    rw [List.concat_eq_append, List.getLast?_concat]
    split at h
    · simp [Pattern.escape] at h
    · simpa [Pattern.escape] using h

variable {base : Path} {pattern : String}

/-- Below a directory, a pattern has the pieces of the directory's path in front. -/
theorem toList_patternBelow (hbase : base.isAbsolute = true) (hpattern : Path.isAbsolute pattern = false) :
    ∃ front, (patternBelow base pattern).toList = '/' :: (front ++ pattern.toList) ∧
      patternPieces (front ++ pattern.toList) = (basePieces base).map Pattern.escape ++ patternPieces pattern.toList ∧
      ((∃ p, Pattern.parse (front ++ pattern.toList) = .ok p) ↔ ∃ p, Pattern.parse pattern.toList = .ok p) := by
  obtain ⟨cs, hcs⟩ : ∃ cs, base.toList = '/' :: cs := List.head?_eq_some_iff.mp (by simpa [Path.isAbsolute] using hbase)
  have hescape : Pattern.escape base.toList = '/' :: Pattern.escape cs := by
    rw [hcs, Pattern.escape_cons, if_neg (by decide), List.singleton_append]
  rw [patternBelow, hpattern, if_neg Bool.false_ne_true, Path.join, hpattern, if_neg Bool.false_ne_true, hescape, basePieces,
    hcs, List.drop_one, List.tail_cons]
  rcases patternPieces_eq cs with rfl | ⟨front, ⟨rfl, hne, hlast⟩ | rfl, hpieces⟩
  · exact ⟨[], by simp, rfl, Iff.rfl⟩
  · have hlong : (Pattern.escape cs) ≠ [] := by
      have hle := Pattern.length_le_escape cs
      intro hnil
      rw [hnil] at hle
      exact hne (List.length_eq_zero_iff.mp (Nat.le_zero.mp hle))
    refine ⟨Pattern.escape cs ++ ['/'], ?_, ?_, ?_⟩
    · rw [if_neg]
      · simp
      · rw [String.toList_ofList, Bool.or_eq_true, not_or, beq_iff_eq]
        refine ⟨by simp, fun h => hlast (getLast?_escape ?_)⟩
        rwa [← List.singleton_append, List.getLast?_append_of_ne_nil _ hlong] at h
    · rw [List.append_assoc, List.singleton_append, patternPieces_append, splitSlashes_escape, hpieces]
    · rw [List.append_assoc, List.singleton_append]
      exact Pattern.parse_escape_append cs pattern.toList
  · refine ⟨Pattern.escape front ++ ['/'], ?_, ?_, ?_⟩
    · rw [Pattern.escape_append, Pattern.escape_slash, if_pos]
      · simp
      · rw [String.toList_ofList, ← List.cons_append, List.getLast?_concat, beq_self_eq_true, Bool.or_true]
    · rw [List.append_assoc, List.singleton_append, patternPieces_append, splitSlashes_escape, hpieces]
    · rw [List.append_assoc, List.singleton_append]
      exact Pattern.parse_escape_append front pattern.toList

theorem mapM_parse_escape (pieces : List (List Char)) :
    (pieces.map Pattern.escape).mapM Pattern.parse = .ok (pieces.map Pattern.exact) := by
  rw [Json.mapM_eq_ok]
  induction pieces with
  | nil => exact .nil
  | cons piece pieces ih => exact .cons (Pattern.parse_escape piece) ih

/-- **The pattern below a directory is taken apart into the patterns for the names that lead there, and its own.** -/
theorem Search.ofText_below (hbase : base.isAbsolute = true) (hpattern : Path.isAbsolute pattern = false)
    (hne : pattern ≠ "") {search : Search} :
    Search.ofText (patternBelow base pattern).toList = .ok search ↔ (∃ p, Pattern.parse pattern.toList = .ok p) ∧
      ∃ patterns, (patternPieces pattern.toList).mapM Pattern.parse = .ok patterns ∧
        search = ⟨"/", (basePieces base).map Pattern.exact ++ patterns, pattern.toList.getLast? == some '/'⟩ := by
  obtain ⟨front, htext, hpieces, hparse⟩ := toList_patternBelow hbase hpattern
  have hnonempty : pattern.toList ≠ [] := by simpa using hne
  have hlast : ('/' :: (front ++ pattern.toList)).getLast? = pattern.toList.getLast? := by
    rw [← List.cons_append, List.getLast?_append_of_ne_nil _ hnonempty]
  have hrest : (front ++ pattern.toList).isEmpty = false := by simp [hnonempty]
  have hmapM : ((basePieces base).map Pattern.escape ++ patternPieces pattern.toList).mapM Pattern.parse =
      ((patternPieces pattern.toList).mapM Pattern.parse).map ((basePieces base).map Pattern.exact ++ ·) := by
    rw [List.mapM_append, mapM_parse_escape]
    cases (patternPieces pattern.toList).mapM Pattern.parse <;> rfl
  rw [htext, Search.ofText, Json.bind_eq_ok]
  dsimp only
  rw [hrest, Bool.false_and, hpieces, hmapM, hlast, exists_and_right, Pattern.parse_slash, hparse]
  refine and_congr_right fun _ => ?_
  rw [Json.bind_eq_ok]
  constructor
  · rintro ⟨all, hall, h⟩
    obtain ⟨patterns, hpatterns, rfl⟩ := Json.map_eq_ok.mp hall
    cases h
    exact ⟨patterns, hpatterns, rfl⟩
  · rintro ⟨patterns, hpatterns, rfl⟩
    exact ⟨_, Json.map_eq_ok.mpr ⟨patterns, hpatterns, rfl⟩, rfl⟩

end Glob

end Files

end SchemaWeave
