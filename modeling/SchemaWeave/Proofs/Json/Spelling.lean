import SchemaWeave.Proofs.Json.Reads
import SchemaWeave.Proofs.Json.Text

/-!
# How scalars are spelled

A string is spelled in characters that stand for themselves and in escapes (`Inside`), null and the truth values are words
(`Word`). The reader takes exactly these spellings (`readString_eq_ok`, `readWord_eq_ok`). `Spells` says that a scalar
comes next in a text, and `SpellsMembers` and `SpellsItems` that the rest of an object or of a list of scalars does; what is
spelled is read (`SpellsMembers.read`, `SpellsItems.read`).
-/

namespace SchemaWeave.Json

open Text

/-! ## Strings -/

/-- The spelling of an escape, behind its backslash, and the character it stands for. -/
inductive Escape : List Char → Char → Prop
  | simple {c ch : Char} (h : simpleEscape? c = some ch) : Escape [c] ch
  | unit {a b c d : Char} {n : Nat} (h : hexQuad? a b c d = some n) (hhigh : isHighSurrogate n = false)
      (hlow : isLowSurrogate n = false) : Escape ['u', a, b, c, d] (Char.ofNat n)
  | pair {a b c d a' b' c' d' : Char} {n m : Nat} (h : hexQuad? a b c d = some n) (hhigh : isHighSurrogate n = true)
      (hlow : isLowSurrogate n = false) (h' : hexQuad? a' b' c' d' = some m) (hlow' : isLowSurrogate m = true) :
      Escape ['u', a, b, c, d, '\\', 'u', a', b', c', d'] (Char.ofNat (0x10000 + (n - 0xD800) * 0x400 + (m - 0xDC00)))

/-- A character that stands for itself in a string. -/
def isPlain (c : Char) : Bool := 0x20 ≤ c.val && c != '"' && c != '\\'

/-- The spelling of a string between its quotes, and its characters. -/
inductive Inside : List Char → List Char → Prop
  | nil : Inside [] []
  | plain {c : Char} {cs s : List Char} (hc : isPlain c = true) (h : Inside cs s) : Inside (c :: cs) (c :: s)
  | escape {e cs s : List Char} {ch : Char} (he : Escape e ch) (h : Inside cs s) : Inside ('\\' :: (e ++ cs)) (ch :: s)

theorem readQuad_eq_ok {cs rest : List Char} {n : Nat} :
    readQuad cs = .ok (n, rest) ↔ ∃ a b c d, cs = a :: b :: c :: d :: rest ∧ hexQuad? a b c d = some n := by
  rcases cs with _ | ⟨a, _ | ⟨b, _ | ⟨c, _ | ⟨d, cs⟩⟩⟩⟩
  iterate 4
    simp only [readQuad]
    split <;> simp
  · simp only [readQuad]
    cases h : hexQuad? a b c d with
    | none => simp_all
    | some m =>
      constructor
      · intro he
        cases he
        exact ⟨a, b, c, d, rfl, h⟩
      · rintro ⟨a', b', c', d', he, h'⟩
        cases he
        rw [h] at h'
        cases h'
        rfl

/-- Behind the first half of a pair comes the second. -/
theorem readUnit_of_high {cs cs' rest : List Char} {n : Nat} {ch : Char} (h : readQuad cs = .ok (n, cs'))
    (hlow : isLowSurrogate n = false) (hhigh : isHighSurrogate n = true) : readUnit cs = .ok (ch, rest) ↔
      ∃ cs'' m, cs' = '\\' :: 'u' :: cs'' ∧ readQuad cs'' = .ok (m, rest) ∧ isLowSurrogate m = true ∧
        Char.ofNat (0x10000 + (n - 0xD800) * 0x400 + (m - 0xDC00)) = ch := by
  rw [readUnit, h]
  simp only [hlow, hhigh, Bool.false_eq_true, if_false, Bool.not_true]
  split
  · simp
  · simp
  · next cs'' =>
    cases hquad : readQuad cs'' with
    | error e => simp [hquad]
    | ok p =>
      obtain ⟨m, rest'⟩ := p
      cases hm : isLowSurrogate m <;> grind
  · simp_all
  · simp_all

theorem readEscape_eq_ok {cs rest : List Char} {ch : Char} :
    readEscape cs = .ok (ch, rest) ↔ ∃ e, cs = e ++ rest ∧ Escape e ch := by
  constructor
  · intro h
    rw [readEscape.eq_def] at h
    split at h
    · cases h
    · next cs =>
      cases hquad : readQuad cs with
      | error e => rw [readUnit, hquad] at h; cases h
      | ok p =>
        obtain ⟨n, cs'⟩ := p
        obtain ⟨a, b, c, d, rfl, hn⟩ := readQuad_eq_ok.mp hquad
        cases hlow : isLowSurrogate n with
        | true => rw [readUnit, hquad] at h; simp [hlow] at h
        | false =>
          cases hhigh : isHighSurrogate n with
          | false =>
            rw [readUnit, hquad] at h
            simp only [hlow, hhigh] at h
            cases h
            exact ⟨['u', a, b, c, d], rfl, .unit hn hhigh hlow⟩
          | true =>
            obtain ⟨cs'', m, rfl, hquad', hlow', rfl⟩ := (readUnit_of_high hquad hlow hhigh).mp h
            obtain ⟨a', b', c', d', rfl, hm⟩ := readQuad_eq_ok.mp hquad'
            exact ⟨_, rfl, .pair hn hhigh hlow hm hlow'⟩
    · next c cs hu =>
      cases hc : simpleEscape? c with
      | none => rw [hc] at h; cases h
      | some ch' =>
        rw [hc] at h
        cases h
        exact ⟨[c], rfl, .simple hc⟩
  · rintro ⟨e, rfl, he⟩
    cases he with
    | @simple c _ hc =>
      have hu : c ≠ 'u' := fun h => by rw [h] at hc; cases hc
      rw [List.singleton_append, readEscape.eq_def]
      split
      · next h => cases h
      · next h => cases h; exact absurd rfl hu
      · next h => cases h; rw [hc]
    | @unit a b c d n hn hhigh hlow =>
      have hquad : readQuad (a :: b :: c :: d :: rest) = .ok (n, rest) := readQuad_eq_ok.mpr ⟨a, b, c, d, rfl, hn⟩
      change readUnit (a :: b :: c :: d :: rest) = _
      rw [readUnit, hquad]
      simp [hhigh, hlow]
    | @pair a b c d a' b' c' d' n m hn hhigh hlow hm hlow' =>
      exact (readUnit_of_high (readQuad_eq_ok.mpr ⟨a, b, c, d, rfl, hn⟩) hlow hhigh).mpr
        ⟨_, m, rfl, readQuad_eq_ok.mpr ⟨a', b', c', d', rfl, hm⟩, hlow', rfl⟩

theorem readStringChars_escape {bound : Nat} {cs s rest : List Char} :
    readStringChars (bound + 1) ('\\' :: cs) = .ok (s, rest) ↔
    ∃ ch cs' s', readEscape cs = .ok (ch, cs') ∧ readStringChars bound cs' = .ok (s', rest) ∧ ch :: s' = s := by
  simp only [readStringChars]
  cases readEscape cs with
  | error e => simp
  | ok p =>
    obtain ⟨ch, cs'⟩ := p
    dsimp only
    cases h : readStringChars bound cs' with
    | error e => grind
    | ok q => grind

theorem readStringChars_plain {bound : Nat} {c : Char} (hquote : c ≠ '"') (hslash : c ≠ '\\') {cs s rest : List Char} :
    readStringChars (bound + 1) (c :: cs) = .ok (s, rest) ↔
      isPlain c = true ∧ ∃ s', readStringChars bound cs = .ok (s', rest) ∧ c :: s' = s := by
  have hplain : isPlain c = true ↔ ¬c.val < 0x20 := by simp [isPlain, hquote, hslash]
  rw [hplain, readStringChars.eq_def]
  split
  · next h => cases h
  · next h => cases h
  · next h => cases h; exact absurd rfl hquote
  · next h => cases h; exact absurd rfl hslash
  · next bound' c' cs' _ _ hbound hchars =>
    cases hbound
    cases hchars
    cases readStringChars bound cs <;> grind

/-- The reader takes a string in its spelling, up to the first quote that is not escaped. -/
theorem readStringChars_eq_ok {bound : Nat} {cs s rest : List Char} :
    readStringChars bound cs = .ok (s, rest) ↔ s.length < bound ∧ ∃ inside, cs = inside ++ '"' :: rest ∧ Inside inside s := by
  induction bound generalizing cs s with
  | zero => simp [readStringChars]
  | succ bound ih =>
    constructor
    · intro h
      rcases cs with _ | ⟨c, cs⟩
      · simp [readStringChars] at h
      by_cases hquote : c = '"'
      · subst hquote
        cases h
        exact ⟨Nat.succ_pos bound, [], rfl, .nil⟩
      by_cases hslash : c = '\\'
      · subst hslash
        obtain ⟨ch, cs', s', he, hs, rfl⟩ := readStringChars_escape.mp h
        obtain ⟨e, rfl, hescape⟩ := readEscape_eq_ok.mp he
        obtain ⟨hlength, inside, rfl, hinside⟩ := ih.mp hs
        exact ⟨Nat.succ_lt_succ hlength, _, by rw [List.cons_append, List.append_assoc], .escape hescape hinside⟩
      · obtain ⟨hc, s', hs, rfl⟩ := (readStringChars_plain hquote hslash).mp h
        obtain ⟨hlength, inside, rfl, hinside⟩ := ih.mp hs
        exact ⟨Nat.succ_lt_succ hlength, _, rfl, .plain hc hinside⟩
    · rintro ⟨hlength, inside, rfl, hs⟩
      cases hs with
      | nil => rfl
      | @plain c inside s hc hs =>
        have hne : (0x20 ≤ c.val ∧ c ≠ '"') ∧ c ≠ '\\' := by simpa [isPlain] using hc
        exact (readStringChars_plain hne.1.2 hne.2).mpr ⟨hc, s, ih.mpr ⟨Nat.lt_of_succ_lt_succ hlength, _, rfl, hs⟩, rfl⟩
      | @escape e inside s ch he hs =>
        rw [List.cons_append, List.append_assoc]
        exact readStringChars_escape.mpr ⟨ch, _, s, readEscape_eq_ok.mpr ⟨e, rfl, he⟩,
          ih.mpr ⟨Nat.lt_of_succ_lt_succ hlength, _, rfl, hs⟩, rfl⟩

theorem Inside.length_le {inside s : List Char} (h : Inside inside s) : s.length ≤ inside.length := by
  induction h with
  | nil => exact Nat.le_refl 0
  | plain _ _ ih => exact Nat.succ_le_succ ih
  | escape _ _ ih =>
    rw [List.length_cons, List.length_cons, List.length_append]
    exact Nat.succ_le_succ (Nat.le_add_left_of_le ih)

theorem readString_eq_ok {cs rest : List Char} {s : String} :
    readString cs = .ok (s, rest) ↔ ∃ inside, cs = inside ++ '"' :: rest ∧ Inside inside s.toList := by
  have hread : readString cs = .ok (s, rest) ↔ readStringChars (cs.length + 1) cs = .ok (s.toList, rest) := by
    rw [readString]
    cases readStringChars (cs.length + 1) cs with
    | error e => simp
    | ok p =>
      obtain ⟨chars, rest'⟩ := p
      have hchars : String.ofList chars = s ↔ chars = s.toList := by rw [← String.toList_inj, String.toList_ofList]
      simp only [Except.ok.injEq, Prod.mk.injEq, hchars]
  rw [hread, readStringChars_eq_ok]
  constructor
  · rintro ⟨-, h⟩
    exact h
  · rintro ⟨inside, rfl, h⟩
    refine ⟨?_, inside, rfl, h⟩
    have hlength := h.length_le
    rw [List.length_append]
    omega

/-! ## Scalars -/

/-- The words and what they stand for. -/
inductive Word : List Char → Json → Prop
  | null : Word ['n', 'u', 'l', 'l'] .null
  | true : Word ['t', 'r', 'u', 'e'] (.bool true)
  | false : Word ['f', 'a', 'l', 's', 'e'] (.bool false)

/-- A scalar that is no number comes next in a text. -/
inductive Spells : List Char → Json → List Char → Prop
  | word {cs letters rest : List Char} {j : Json} (hw : Word letters j) (h : skipSpace cs = letters ++ rest) :
    Spells cs j rest
  | string {cs inside rest : List Char} {s : String} (hs : Inside inside s.toList)
      (h : skipSpace cs = '"' :: (inside ++ '"' :: rest)) : Spells cs (.string s) rest

theorem readWord_eq_ok {j j' : Json} {letters cs rest : List Char} :
    readWord j letters cs = .ok (j', rest) ↔ j = j' ∧ cs = letters ++ rest := by
  induction letters generalizing cs with
  | nil => simp [readWord]
  | cons l letters ih =>
    rcases cs with _ | ⟨c, cs⟩
    · simp [readWord]
    · rw [readWord]
      split
      · next h => simp [ih, h]
      · next h => simp [h]

theorem skipSpace_length_le (cs : List Char) : (skipSpace cs).length ≤ cs.length := (List.dropWhile_sublist _).length_le

namespace Spells

variable {cs rest : List Char} {j : Json} (h : Spells cs j rest)

include h

theorem read (bound depth : Nat) : readValue bound (depth + 1) cs = .ok (j, rest) := by
  cases h with
  | word hw h =>
    rw [readValue, h]
    cases hw <;> exact readWord_eq_ok.mpr ⟨rfl, rfl⟩
  | string hs h =>
    rw [readValue, h]
    exact bind_eq_ok.mpr ⟨_, readString_eq_ok.mpr ⟨_, rfl, hs⟩, rfl⟩

theorem length_lt : rest.length < cs.length := by
  cases h with
  | word hw h =>
    refine Nat.lt_of_lt_of_le ?_ (skipSpace_length_le cs)
    rw [h]
    cases hw <;> simp only [List.length_append, List.length_cons, List.length_nil] <;> omega
  | string hs h =>
    refine Nat.lt_of_lt_of_le ?_ (skipSpace_length_le cs)
    rw [h]
    simp only [List.length_cons, List.length_append]
    omega

/-- A scalar starts with a letter or a quote. -/
theorem starts : ∃ c tail, skipSpace cs = c :: tail ∧ c ∈ ['n', 't', 'f', '"'] := by
  cases h with
  | word hw h => cases hw <;> exact ⟨_, _, h, by decide⟩
  | string hs h => exact ⟨_, _, h, by decide⟩

end Spells

/-! ## Punctuation -/

section

variable {cs rest : List Char}

theorem skipSpace_idem (cs : List Char) : skipSpace (skipSpace cs) = skipSpace cs := List.dropWhile_idempotent _ _

theorem readColon_eq_ok : readColon cs = .ok ((), rest) ↔ skipSpace cs = ':' :: rest := by
  rw [readColon]
  split <;> simp_all

theorem readObjectStart_eq_empty : readObjectStart cs = .ok (false, rest) ↔ skipSpace cs = '}' :: rest := by
  rw [readObjectStart]
  split <;> simp_all

theorem readObjectStart_eq_more : readObjectStart cs = .ok (true, rest) ↔ skipSpace cs = '"' :: rest := by
  rw [readObjectStart]
  split <;> simp_all

theorem readObjectSeparator_eq_last : readObjectSeparator cs = .ok (false, rest) ↔ skipSpace cs = '}' :: rest := by
  rw [readObjectSeparator]
  split
  · simp_all
  · simp_all
  · split <;> simp_all
  · simp_all

theorem readObjectSeparator_eq_more : readObjectSeparator cs = .ok (true, rest) ↔
    ∃ cs', skipSpace cs = ',' :: cs' ∧ skipSpace cs' = '"' :: rest := by
  rw [readObjectSeparator]
  split
  · simp_all
  · simp_all
  · split <;> simp_all
  · simp_all

theorem readListSeparator_eq_last : readListSeparator cs = .ok (false, rest) ↔ skipSpace cs = ']' :: rest := by
  rw [readListSeparator]
  split
  · simp_all
  · simp_all
  · split <;> simp_all
  · simp_all

theorem readListSeparator_eq_more : readListSeparator cs = .ok (true, rest) ↔
    ∃ cs' c tail, skipSpace cs = ',' :: cs' ∧ skipSpace cs' = rest ∧ rest = c :: tail ∧ c ≠ ']' := by
  rw [readListSeparator]
  split
  · simp_all
  · simp_all
  · next cs' hcomma =>
    rcases hnext : skipSpace cs' with _ | ⟨c, tail⟩
    · simp_all
    · by_cases hc : c = ']'
      · grind
      · split <;> grind
  · simp_all

end

/-! ## Collections of scalars -/

/-- The rest of an object of scalars, behind the quote that opens its first name. -/
inductive SpellsMembers : List Char → List (String × Json) → List Char → Prop
  | last {key cs cs' cs'' rest : List Char} {name : String} {j : Json} (hkey : Inside key name.toList)
      (hcolon : skipSpace cs = ':' :: cs') (hvalue : Spells cs' j cs'') (hend : skipSpace cs'' = '}' :: rest) :
    SpellsMembers (key ++ '"' :: cs) [(name, j)] rest
  | cons {key cs cs' cs'' cs₃ cs₄ rest : List Char} {name : String} {j : Json} {members : List (String × Json)}
      (hkey : Inside key name.toList) (hcolon : skipSpace cs = ':' :: cs') (hvalue : Spells cs' j cs'')
      (hcomma : skipSpace cs'' = ',' :: cs₃) (hquote : skipSpace cs₃ = '"' :: cs₄) (h : SpellsMembers cs₄ members rest) :
    SpellsMembers (key ++ '"' :: cs) ((name, j) :: members) rest

/-- The rest of a list of scalars, of which there is another one. -/
inductive SpellsItems : List Char → List Json → List Char → Prop
  | last {cs cs' rest : List Char} {j : Json} (hvalue : Spells cs j cs') (hend : skipSpace cs' = ']' :: rest) :
    SpellsItems cs [j] rest
  | cons {cs cs' cs'' rest : List Char} {j : Json} {items : List Json} (hvalue : Spells cs j cs')
      (hcomma : skipSpace cs' = ',' :: cs'') (h : SpellsItems (skipSpace cs'') items rest) : SpellsItems cs (j :: items) rest

theorem SpellsMembers.read {cs rest : List Char} {members : List (String × Json)} (h : SpellsMembers cs members rest)
    (limit depth : Nat) {bound : Nat} (hbound : members.length ≤ bound) :
    readMembers (readValue limit (depth + 1)) bound cs = .ok (members, rest) := by
  induction h generalizing bound with
  | last hkey hcolon hvalue hend =>
    obtain ⟨bound, rfl⟩ := Nat.exists_eq_add_one_of_ne_zero (Nat.ne_zero_of_lt hbound)
    refine bind_eq_ok.mpr ⟨_, readString_eq_ok.mpr ⟨_, rfl, hkey⟩, ?_⟩
    refine bind_eq_ok.mpr ⟨_, readColon_eq_ok.mpr hcolon, ?_⟩
    refine bind_eq_ok.mpr ⟨_, hvalue.read limit depth, ?_⟩
    exact bind_eq_ok.mpr ⟨_, readObjectSeparator_eq_last.mpr hend, rfl⟩
  | cons hkey hcolon hvalue hcomma hquote _ ih =>
    obtain ⟨bound, rfl⟩ := Nat.exists_eq_add_one_of_ne_zero (Nat.ne_zero_of_lt hbound)
    refine bind_eq_ok.mpr ⟨_, readString_eq_ok.mpr ⟨_, rfl, hkey⟩, ?_⟩
    refine bind_eq_ok.mpr ⟨_, readColon_eq_ok.mpr hcolon, ?_⟩
    refine bind_eq_ok.mpr ⟨_, hvalue.read limit depth, ?_⟩
    refine bind_eq_ok.mpr ⟨_, readObjectSeparator_eq_more.mpr ⟨_, hcomma, hquote⟩, ?_⟩
    exact bind_eq_ok.mpr ⟨_, ih (Nat.le_of_succ_le_succ hbound), rfl⟩

theorem SpellsItems.starts {cs rest : List Char} {items : List Json} (h : SpellsItems cs items rest) :
    ∃ c tail, skipSpace cs = c :: tail ∧ c ∈ ['n', 't', 'f', '"'] := by
  cases h with
  | last hvalue _ => exact hvalue.starts
  | cons hvalue _ _ => exact hvalue.starts

theorem SpellsItems.read {cs rest : List Char} {items : List Json} (h : SpellsItems cs items rest) (limit depth : Nat)
    {bound : Nat} (hbound : items.length ≤ bound) : readItems (readValue limit (depth + 1)) bound cs = .ok (items, rest) := by
  induction h generalizing bound with
  | last hvalue hend =>
    obtain ⟨bound, rfl⟩ := Nat.exists_eq_add_one_of_ne_zero (Nat.ne_zero_of_lt hbound)
    refine bind_eq_ok.mpr ⟨_, hvalue.read limit depth, ?_⟩
    exact bind_eq_ok.mpr ⟨_, readListSeparator_eq_last.mpr hend, rfl⟩
  | cons hvalue hcomma hitems ih =>
    obtain ⟨bound, rfl⟩ := Nat.exists_eq_add_one_of_ne_zero (Nat.ne_zero_of_lt hbound)
    obtain ⟨c, tail, hstarts, hc⟩ := hitems.starts
    rw [skipSpace_idem] at hstarts
    have hmore : c ≠ ']' := fun h => by rw [h] at hc; exact absurd hc (by decide)
    refine bind_eq_ok.mpr ⟨_, hvalue.read limit depth, ?_⟩
    refine bind_eq_ok.mpr ⟨_, readListSeparator_eq_more.mpr ⟨_, c, tail, hcomma, rfl, hstarts, hmore⟩, ?_⟩
    exact bind_eq_ok.mpr ⟨_, ih (Nat.le_of_succ_le_succ hbound), rfl⟩

theorem SpellsMembers.length_le {cs rest : List Char} {members : List (String × Json)} (h : SpellsMembers cs members rest) :
    members.length ≤ cs.length := by
  induction h with
  | last =>
    rw [List.length_append]
    exact Nat.le_add_left_of_le (Nat.le_add_left 1 _)
  | @cons key cs cs' cs'' cs₃ cs₄ _ _ _ _ _ hcolon hvalue hcomma hquote _ ih =>
    have hcs := skipSpace_length_le cs
    have hcs'' := skipSpace_length_le cs''
    have hcs₃ := skipSpace_length_le cs₃
    rw [hcolon, List.length_cons] at hcs
    rw [hcomma, List.length_cons] at hcs''
    rw [hquote, List.length_cons] at hcs₃
    have hlt := hvalue.length_lt
    simp only [List.length_cons, List.length_append]
    omega

theorem SpellsItems.length_le {cs rest : List Char} {items : List Json} (h : SpellsItems cs items rest) :
    items.length ≤ cs.length := by
  induction h with
  | last hvalue _ => exact Nat.lt_of_le_of_lt (Nat.zero_le _) hvalue.length_lt
  | @cons cs cs' cs'' _ _ _ hvalue hcomma _ ih =>
    have hcs' := skipSpace_length_le cs'
    have hcs'' := skipSpace_length_le cs''
    rw [hcomma, List.length_cons] at hcs'
    have hlt := hvalue.length_lt
    rw [List.length_cons]
    omega

/-! ## Documents -/

/-- A text holds an object or a list of scalars, and nothing else. -/
inductive SpellsDocument : List Char → Json → Prop
  | emptyObject {text cs rest : List Char} (hstart : skipSpace text = '{' :: cs) (hend : skipSpace cs = '}' :: rest)
      (hrest : skipSpace rest = []) : SpellsDocument text (.object [])
  | object {text cs cs' rest : List Char} {members : List (String × Json)} (hstart : skipSpace text = '{' :: cs)
      (hquote : skipSpace cs = '"' :: cs') (h : SpellsMembers cs' members rest) (hrest : skipSpace rest = []) :
    SpellsDocument text (.object members)
  | emptyList {text cs rest : List Char} (hstart : skipSpace text = '[' :: cs) (hend : skipSpace cs = ']' :: rest)
      (hrest : skipSpace rest = []) : SpellsDocument text (.array [])
  | list {text cs rest : List Char} {items : List Json} (hstart : skipSpace text = '[' :: cs)
      (h : SpellsItems (skipSpace cs) items rest) (hrest : skipSpace rest = []) : SpellsDocument text (.array items)

theorem checkEnd_eq_ok {rest : List Char} : checkEnd rest = .ok () ↔ skipSpace rest = [] := by
  rw [checkEnd]
  split <;> simp_all

theorem SpellsDocument.read {text : List Char} {j : Json} (h : SpellsDocument text j) {bound : Nat}
    (hbound : text.length ≤ bound) (depth : Nat) :
    ∃ rest, readValue bound (depth + 2) text = .ok (j, rest) ∧ skipSpace rest = [] := by
  have hlength := skipSpace_length_le text
  cases h with
  | @emptyObject cs rest hstart hend hrest =>
    exact ⟨rest, by simp [readValue, hstart, readObjectStart, hend, Bind.bind, Except.bind, pure, Except.pure], hrest⟩
  | @object cs cs' rest members hstart hquote h hrest =>
    have hcs := skipSpace_length_le cs
    rw [hstart, List.length_cons] at hlength
    rw [hquote, List.length_cons] at hcs
    have hmembers : members.length ≤ bound := by have := h.length_le; omega
    have hread := h.read bound depth hmembers
    refine ⟨rest, ?_, hrest⟩
    rw [readValue, hstart]
    simp [readObjectStart, hquote, hread, Bind.bind, Except.bind, pure, Except.pure]
  | @emptyList cs rest hstart hend hrest =>
    exact ⟨rest, by simp [readValue, hstart, hend], hrest⟩
  | @list cs rest items hstart h hrest =>
    have hcs := skipSpace_length_le cs
    rw [hstart, List.length_cons] at hlength
    have hitems : items.length ≤ bound := by have := h.length_le; omega
    have hread := h.read bound depth hitems
    obtain ⟨c, tail, hstarts, hc⟩ := h.starts
    rw [skipSpace_idem] at hstarts
    have hmore : c ≠ ']' := fun h => by rw [h] at hc; exact absurd hc (by decide)
    rw [hstarts] at hread
    refine ⟨rest, ?_, hrest⟩
    rw [readValue, hstart]
    simp [hstarts, hmore, hread, Bind.bind, Except.bind, pure, Except.pure]

theorem SpellsDocument.parse {text : String} {j : Json} (h : SpellsDocument text.toList j) : parse text = .ok j := by
  obtain ⟨rest, hread, hrest⟩ := h.read (Nat.le_succ _) 126
  have hchars : parseChars text.toList = .ok j := bind_eq_ok.mpr ⟨_, hread, bind_eq_ok.mpr ⟨_, checkEnd_eq_ok.mpr hrest, rfl⟩⟩
  rw [Json.parse, hchars]

end SchemaWeave.Json
