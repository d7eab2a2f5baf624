import SchemaWeave.Proofs.Graphql.Grammar

/-!
# The parser reads what the grammar spells

`Accepts` says of a reader that it takes a list of tokens and gives a value in front of any token but a few. Every
rule of the parser accepts what the grammar spells for it; the tokens that must not follow are those that would
carry on where the grammar left something out. At the level of documents nothing is left to avoid: placed tokens
that spell a document are read as this document (`ofTokens_spelled`).
-/

namespace SchemaWeave.Graphql

variable {α β : Type}

/-- In front of any token that is not to be avoided the reader takes these tokens, if they are no more than
`bound`, and gives this value. -/
def Accepts (bound : Nat) (p : Parser α) (l : List Token) (x : α) (avoid : List Token) : Prop :=
  ∀ ts rest, ts.map PlacedToken.token = l → ts.length ≤ bound →
    (∀ t ∈ avoid, rest.head?.map PlacedToken.token ≠ some t) → p (ts ++ rest) = .ok (x, rest)

namespace Accepts

variable {bound : Nat} {avoid : List Token}

theorem pure (x : α) : Accepts bound (Pure.pure x) [] x avoid := fun ts rest hm _ _ => by
  rw [List.map_eq_nil_iff] at hm
  rw [hm]
  rfl

theorem mono {p : Parser α} {l : List Token} {x : α} {avoid' : List Token} (h : Accepts bound p l x avoid)
    (ha : ∀ t ∈ avoid, t ∈ avoid') : Accepts bound p l x avoid' :=
  fun ts rest hm hb hr => h ts rest hm hb fun t ht => hr t (ha t ht)

theorem value_eq {p : Parser α} {l : List Token} {x y : α} (h : Accepts bound p l x avoid) (he : x = y) :
    Accepts bound p l y avoid :=
  he ▸ h

/-- One reader behind another: what the first must not see is neither the first token of the second nor, where the
second takes none, behind it. -/
theorem bind {p : Parser α} {f : α → Parser β} {l l' : List Token} {x : α} {y : β} {avoid' : List Token}
    (hp : Accepts bound p l x avoid') (hf : Accepts bound (f x) l' y avoid)
    (ha : ∀ t ∈ avoid', l'.head? ≠ some t ∧ (l' = [] → t ∈ avoid)) : Accepts bound (p >>= f) (l ++ l') y avoid := by
  intro ts rest hm hb hr
  obtain ⟨as, bs, rfl, rfl, rfl⟩ := List.map_eq_append_iff.mp hm
  rw [List.length_append] at hb
  have hx : p (as ++ (bs ++ rest)) = .ok (x, bs ++ rest) := by
    refine hp as _ rfl (by omega) fun t ht => ?_
    cases bs with
    | nil => exact hr t ((ha t ht).2 rfl)
    | cons b bs => exact (ha t ht).1
  have hy := hf bs rest rfl (by omega) hr
  rw [List.append_assoc]
  simp only [Bind.bind, StateT.bind, hx]
  exact hy

/-- A reader in front of one that takes nothing. -/
theorem thenNothing {p : Parser α} {f : α → Parser β} {l : List Token} {x : α} {y : β} (hp : Accepts bound p l x avoid)
    (hf : Accepts bound (f x) [] y avoid) : Accepts bound (p >>= f) l y avoid := by
  have := hp.bind hf fun t ht => ⟨by simp, fun _ => ht⟩
  rwa [List.append_nil] at this

/-- A reader that ends by giving a value made of what it read. -/
theorem map {p : Parser α} {l : List Token} {x : α} (h : Accepts bound p l x avoid) (f : α → β) :
    Accepts bound (p >>= fun a => Pure.pure (f a)) l (f x) avoid :=
  h.thenNothing (Accepts.pure (f x))

/-- A reader behind one that leaves nothing to avoid. -/
theorem andThen {p : Parser α} {f : α → Parser β} {l l' : List Token} {x : α} {y : β} (hp : Accepts bound p l x [])
    (hf : Accepts bound (f x) l' y avoid) : Accepts bound (p >>= f) (l ++ l') y avoid :=
  hp.bind hf (by simp)

/-- A reader that looks at the next token first. -/
theorem peek {f : Option Token → Parser α} {l : List Token} {x : α}
    (h : ∀ t, (∀ u ∈ avoid, t ≠ some u) → Accepts bound (f (l.head?.or t)) l x avoid) :
    Accepts bound (Parser.peek >>= f) l x avoid := by
  intro ts rest hm hb hr
  have hf : (ts ++ rest).head?.map PlacedToken.token = l.head?.or (rest.head?.map PlacedToken.token) := by
    rw [← hm]
    cases ts <;> rfl
  have := h _ hr ts rest hm hb hr
  rw [← hf] at this
  exact this

theorem next (t : Token) : Accepts bound Parser.next [t] t [] := by
  intro ts rest hm _ _
  obtain ⟨s, ts, rfl, rfl, hn⟩ := List.map_eq_cons_iff.mp hm
  rw [List.map_eq_nil_iff.mp hn]
  rfl

theorem take (t : Token) : Accepts bound (Parser.take t) [t] true [] := by
  intro ts rest hm _ _
  obtain ⟨s, ts, rfl, rfl, hn⟩ := List.map_eq_cons_iff.mp hm
  rw [List.map_eq_nil_iff.mp hn]
  simp [Parser.take]

theorem takeNot (t : Token) : Accepts bound (Parser.take t) [] false [t] := by
  intro ts rest hm _ hr
  rw [List.map_eq_nil_iff.mp hm]
  cases rest with
  | nil => rfl
  | cons s rest =>
    have : s.token ≠ t := fun he => hr t (by simp) (by simp [he])
    simp [Parser.take, this]

theorem expect (p : Punctuator) : Accepts bound (Parser.expect p) [.punct p] () [] :=
  (take (.punct p)).andThen (Accepts.pure ())

theorem keyword (s : String) : Accepts bound (Parser.keyword s) [.name s] () [] :=
  (take (.name s)).andThen (Accepts.pure ())

theorem name (s : Name) : Accepts bound Parser.name [.name s] s [] :=
  peek fun _ _ => (next (.name s)).map fun _ => s

end Accepts

/-! ## Repetition -/

section

variable {bound : Nat} {avoid avoid' : List Token} {item : Parser α} {tokens : β → List Token} {value : β → α}

theorem head_items {close : Punctuator} (hclose : .punct close ∉ avoid) {xs : List β}
    (hs : ∀ x ∈ xs, ∃ t, (tokens x).head? = some t ∧ t ≠ .punct close ∧ t ∉ avoid) :
    ∀ u ∈ avoid, ((xs.map tokens).flatten ++ [Token.punct close]).head? ≠ some u ∧
      ((xs.map tokens).flatten ++ [Token.punct close] = [] → u ∈ ([] : List Token)) := by
  refine fun u hu => ⟨fun he => ?_, by simp⟩
  cases xs with
  | nil => cases he; exact hclose hu
  | cons x xs =>
    obtain ⟨t, ht, -, hta⟩ := hs x (by simp)
    rw [List.map_cons, List.flatten_cons, List.append_assoc, List.head?_append, ht] at he
    cases he
    exact hta hu

/-- Items up to a closing mark. None of them starts with the mark, and what must not follow an item is neither the mark
nor the start of an item. -/
theorem accepts_itemsUntil {close : Punctuator} (hclose : .punct close ∉ avoid) {n : Nat} {xs : List β}
    (hx : ∀ x ∈ xs, Accepts bound item (tokens x) (value x) avoid)
    (hs : ∀ x ∈ xs, ∃ t, (tokens x).head? = some t ∧ t ≠ .punct close ∧ t ∉ avoid) (hn : xs.length < n) :
    Accepts bound (Parser.itemsUntil close item n) ((xs.map tokens).flatten ++ [.punct close]) (xs.map value) [] := by
  induction n generalizing xs with
  | zero => exact absurd hn (Nat.not_lt_zero _)
  | succ n ih =>
    cases xs with
    | nil => exact (Accepts.take (.punct close)).andThen (Accepts.pure [])
    | cons x xs =>
      have hx' := fun x h => hx x (List.mem_cons_of_mem _ h)
      have hs' := fun x h => hs x (List.mem_cons_of_mem _ h)
      have hrest := ih hx' hs' (Nat.lt_of_succ_lt_succ hn)
      obtain ⟨t, ht, htc, -⟩ := hs x (by simp)
      rw [List.map_cons, List.flatten_cons, List.append_assoc]
      refine Accepts.bind (l := []) (Accepts.takeNot (.punct close)) ?_ (by simp [ht, htc])
      exact (hx x (by simp)).bind (hrest.map (value x :: ·)) (head_items hclose hs')

theorem length_flatten_le {xs : List β} (h : ∀ x ∈ xs, ∃ t, (tokens x).head? = some t) :
    xs.length ≤ (xs.map tokens).flatten.length := by
  induction xs with
  | nil => simp
  | cons x xs ih =>
    have := ih fun x hx => h x (List.mem_cons_of_mem _ hx)
    obtain ⟨t, ht⟩ := h x (by simp)
    have : 0 < (tokens x).length := by
      cases hx : tokens x with
      | nil => rw [hx] at ht; cases ht
      | cons => simp
    simp only [List.length_cons, List.map_cons, List.flatten_cons, List.length_append]
    omega

/-- At most `bound` items: each of them, and the mark behind them, takes a token. -/
theorem accepts_items {close : Punctuator} (hclose : .punct close ∉ avoid) {xs : List β}
    (hx : ∀ x ∈ xs, Accepts bound item (tokens x) (value x) avoid)
    (hs : ∀ x ∈ xs, ∃ t, (tokens x).head? = some t ∧ t ≠ .punct close ∧ t ∉ avoid) :
    Accepts bound (Parser.itemsUntil close item bound) ((xs.map tokens).flatten ++ [.punct close])
      (xs.map value) [] := by
  intro ts rest hm hb hr
  have hlen := length_flatten_le fun x h => (hs x h).imp fun t ht => ht.1
  have : ts.length = (xs.map tokens).flatten.length + 1 := by
    rw [← List.length_map (f := PlacedToken.token), hm]
    simp
  exact accepts_itemsUntil hclose hx hs (by omega) ts rest hm hb hr

theorem optionalItems_eq (opening close : Punctuator) (item : Parser α) (bound : Nat) :
    Parser.optionalItems opening close item bound = do
      if (← Parser.peek) = some (.punct opening) then Parser.itemsBetween opening close item bound else return [] := by
  unfold Parser.optionalItems
  congr 1
  funext t
  split
  · next p => simp
  · next h => rw [if_neg fun ht => h opening ht]

/-- Items between two marks, or nothing where there are none. -/
theorem accepts_enclosed {opening close : Punctuator} (hclose : .punct close ∉ avoid) {xs : List β}
    (hx : ∀ x ∈ xs, Accepts bound item (tokens x) (value x) avoid)
    (hs : ∀ x ∈ xs, ∃ t, (tokens x).head? = some t ∧ t ≠ .punct close ∧ t ∉ avoid) :
    Accepts bound (Parser.optionalItems opening close item bound) (enclosed opening close (xs.map tokens))
      (xs.map value) [.punct opening] := by
  rw [optionalItems_eq]
  refine Accepts.peek fun t ht => ?_
  cases xs with
  | nil =>
    rw [List.map_nil, enclosed, List.head?_nil, Option.none_or, if_neg (ht _ (by simp))]
    exact Accepts.pure []
  | cons x xs =>
    have hs' := fun x h => hs x (List.mem_cons_of_mem _ h)
    have hrest := accepts_items hclose (fun x h => hx x (List.mem_cons_of_mem _ h)) hs'
    rw [List.map_cons, enclosed, List.head?_cons, Option.some_or, if_pos rfl]
    refine Accepts.mono ((Accepts.expect opening).andThen ?_) (fun _ h => absurd h List.not_mem_nil)
    exact (hx x (by simp)).bind (hrest.map (value x :: ·)) (head_items hclose hs')

theorem itemsWhile_succ (mark : Punctuator) (item : Parser α) (n : Nat) :
    Parser.itemsWhile mark item (n + 1) = do
      if (← Parser.peek) = some (.punct mark) then
        let first ← item
        let rest ← Parser.itemsWhile mark item n
        return first :: rest
      else return [] := by
  rw [Parser.itemsWhile]
  congr 1
  funext t
  split
  · next p => simp
  · next h => rw [if_neg fun ht => h mark ht]

/-- Items that start with a mark. -/
theorem accepts_itemsWhile (mark : Punctuator) {n : Nat} {xs : List β}
    (hx : ∀ x ∈ xs, Accepts bound item (tokens x) (value x) avoid)
    (hs : ∀ x ∈ xs, (tokens x).head? = some (.punct mark)) (hm : .punct mark ∉ avoid) (hn : xs.length ≤ n) :
    Accepts bound (Parser.itemsWhile mark item n) (xs.map tokens).flatten (xs.map value) (.punct mark :: avoid) := by
  induction n generalizing xs with
  | zero =>
    rw [List.length_eq_zero_iff.mp (Nat.le_zero.mp hn)]
    exact Accepts.pure []
  | succ n ih =>
    rw [itemsWhile_succ]
    refine Accepts.peek fun t ht => ?_
    cases xs with
    | nil =>
      rw [List.map_nil, List.flatten_nil, List.head?_nil, Option.none_or, if_neg (ht _ (by simp))]
      exact Accepts.pure []
    | cons x xs =>
      have hs' := fun x h => hs x (List.mem_cons_of_mem _ h)
      have hrest := ih (fun x h => hx x (List.mem_cons_of_mem _ h)) hs' (Nat.le_of_succ_le_succ hn)
      rw [List.map_cons, List.flatten_cons, List.head?_append, hs x (by simp), Option.some_or, Option.some_or,
        if_pos rfl]
      refine (hx x (by simp)).bind (hrest.map (value x :: ·)) fun u hu => ?_
      refine ⟨fun he => ?_, fun _ => List.mem_cons_of_mem _ hu⟩
      cases xs with
      | nil => cases he
      | cons y ys =>
        rw [List.map_cons, List.flatten_cons, List.head?_append, hs y (by simp)] at he
        cases he
        exact hm hu

end

/-- Words with a mark between each two. -/
theorem accepts_separated {bound : Nat} {mark : Punctuator} {item : Parser α} {word : α → Name}
    (h : ∀ x, Accepts bound item [.name (word x)] x []) (x : α) (xs : List α) :
    Accepts bound (Parser.separated mark item bound)
      (.name (word x) :: (xs.map word).flatMap fun n => [.punct mark, .name n]) (x :: xs) [.punct mark] := by
  intro ts rest hm hb hr
  have hflat : ((xs.map word).flatMap fun n => [Token.punct mark, .name n]) =
      (xs.map fun x => [Token.punct mark, .name (word x)]).flatten := by
    rw [List.flatMap_map, List.flatMap_def]
  have hlen : xs.length ≤ bound := by
    have hle : xs.length ≤ (xs.map fun x => [Token.punct mark, .name (word x)]).flatten.length :=
      length_flatten_le (by simp)
    have hl := congrArg List.length hm
    rw [hflat, List.length_cons, List.length_map] at hl
    omega
  have hitem (x : α) : Accepts bound (do Parser.expect mark; item) [.punct mark, .name (word x)] (id x) [] :=
    (Accepts.expect mark).andThen (h x)
  have hrest := accepts_itemsWhile mark (fun x (_ : x ∈ xs) => hitem x) (by simp) (by simp) hlen
  rw [List.map_id, ← hflat] at hrest
  refine Accepts.bind (l := []) (Accepts.takeNot (.punct mark)) ?_ (by simp) ts rest hm hb hr
  exact (h x).andThen (hrest.map (x :: ·))

/-! ## Types and values -/

theorem accepts_bang {bound : Nat} (required : Bool) :
    Accepts bound (Parser.take (.punct .bang)) (TypeExpr.bang required) required [.punct .bang] := by
  cases required with
  | false => exact Accepts.takeNot _
  | true => exact (Accepts.take _).mono (by simp)

theorem accepts_typeExpr {bound : Nat} {t : TypeExpr} {depth : Nat} (h : t.lists < depth) :
    Accepts bound (Parser.typeExpr depth) t.tokens t [.punct .bang] := by
  induction t generalizing depth with
  | named n required =>
    obtain ⟨depth, rfl⟩ := Nat.exists_eq_succ_of_ne_zero (Nat.ne_zero_of_lt h)
    refine Accepts.bind (l := []) (Accepts.takeNot (.punct .openBracket)) ?_ (by simp)
    exact (Accepts.name n).andThen ((accepts_bang required).map (TypeExpr.named n))
  | list item required ih =>
    obtain ⟨depth, rfl⟩ := Nat.exists_eq_succ_of_ne_zero (Nat.ne_zero_of_lt h)
    have hitem : Accepts bound (Parser.typeExpr depth) item.tokens item [.punct .bang] :=
      ih (Nat.lt_of_succ_lt_succ h)
    refine Accepts.andThen (l := [_]) (Accepts.take (.punct .openBracket)) (hitem.bind ?_ (by simp))
    exact (Accepts.expect .closeBracket).andThen ((accepts_bang required).map (TypeExpr.list item))

theorem accepts_type {bound : Nat} {t : TypeExpr} (h : t.Grammatical) :
    Accepts bound Parser.type t.tokens t [.punct .bang] :=
  accepts_typeExpr (Nat.lt_succ_of_le h.2)

theorem nameValue_enum {n : Name} (h : n ∉ Value.keywords) : Parser.nameValue n = .enum n := by
  simp only [Value.keywords, List.mem_cons, List.not_mem_nil, or_false, not_or] at h
  rw [Parser.nameValue, if_neg h.1, if_neg h.2.1, if_neg h.2.2]

/-- A value starts with a token that closes nothing. -/
theorem Value.head_tokens (v : Value) : ∃ t, v.tokens.head? = some t ∧ t ≠ .punct .closeBracket := by
  cases v <;> simp [Value.tokens]

/-- A name with its value. -/
theorem accepts_namedValue {bound : Nat} {p : Parser Value} {a : Name × Value} (h : Accepts bound p a.2.tokens a.2 []) :
    Accepts bound (Parser.namedValue p) (Value.namedTokens a) (some a) [] := by
  refine (Accepts.name a.1).andThen (Accepts.andThen (l := [_]) (Accepts.take (.punct .colon)) ?_)
  exact h.map fun v => some (a.1, v)

theorem accepts_valueUpTo {bound depth : Nat} {v : Value} (h : v.Constant depth) :
    Accepts bound (Parser.valueUpTo true bound depth) v.tokens v [] := by
  induction depth generalizing v with
  | zero => exact h.elim
  | succ depth ih =>
    rw [Parser.valueUpTo]
    refine Accepts.peek fun _ _ => ?_
    match v, h with
    | .int s, _ => exact (Accepts.next (.int s)).map fun _ => Value.int s
    | .float s, _ => exact (Accepts.next (.float s)).map fun _ => Value.float s
    | .string s, _ => exact (Accepts.next (.string s)).map fun _ => Value.string s
    | .boolean true, _ => exact (Accepts.next (.name "true")).map fun _ => Value.boolean true
    | .boolean false, _ => exact (Accepts.next (.name "false")).map fun _ => Value.boolean false
    | .null, _ => exact (Accepts.next (.name "null")).map fun _ => Value.null
    | .enum n, h =>
      exact ((Accepts.next (.name n)).map fun _ => Parser.nameValue n).value_eq (nameValue_enum h.2)
    | .list items, h =>
      have hitems : Accepts bound (Parser.itemsUntil .closeBracket (Parser.valueUpTo true bound depth) bound)
          ((items.map Value.tokens).flatten ++ [.punct .closeBracket]) (items.map id) [] := by
        refine accepts_items (by simp) (fun v hv => ih (h v hv)) fun v _ => ?_
        obtain ⟨t, ht, hne⟩ := Value.head_tokens v
        exact ⟨t, ht, hne, by simp⟩
      rw [List.map_id, ← Value.itemTokens_eq] at hitems
      exact (Accepts.next (.punct .openBracket)).andThen (hitems.map Value.list)
    | .object fields, h =>
      have hfields : Accepts bound
          (Parser.itemsUntil .closeBrace (Parser.namedValue (Parser.valueUpTo true bound depth)) bound)
          ((fields.map Value.namedTokens).flatten ++ [.punct .closeBrace]) (fields.map some) [] := by
        refine accepts_items (by simp) (fun f hf => accepts_namedValue (ih (h f hf).2)) fun f _ => ?_
        exact ⟨_, rfl, by simp, by simp⟩
      rw [← Value.fieldTokens_eq] at hfields
      refine (Accepts.next (.punct .openBrace)).andThen ?_
      exact (hfields.map fun fs => Value.object (fs.filterMap id)).value_eq (by simp [List.filterMap_map])

theorem accepts_value {bound : Nat} {v : Value} (h : v.Grammatical) :
    Accepts bound (Parser.value true bound) v.tokens v [] :=
  accepts_valueUpTo h

/-! ## Directives and members -/

section

variable {bound : Nat}

theorem accepts_arguments {arguments : List (Name × Value)} (h : ArgumentsGrammatical arguments) :
    Accepts bound (Parser.arguments true bound) (argumentTokens arguments) arguments [.punct .openParen] := by
  have hargs : Accepts bound
      (Parser.optionalItems .openParen .closeParen (Parser.namedValue (Parser.value true bound)) bound)
      (argumentTokens arguments) (arguments.map some) [.punct .openParen] :=
    accepts_enclosed (by simp) (fun a ha => accepts_namedValue (accepts_value (h a ha).2))
      fun a _ => ⟨_, rfl, by simp, by simp⟩
  exact (hargs.map (List.filterMap id)).value_eq (by simp [List.filterMap_map])

theorem accepts_directives {ds : List Directive} (h : ∀ d ∈ ds, d.Grammatical) :
    Accepts bound (Parser.directives true bound) (directiveTokens ds) ds [.punct .atSign, .punct .openParen] := by
  have hd : ∀ d ∈ ds, Accepts bound (Parser.directive true bound) d.tokens (id d) [.punct .openParen] := fun d hd => by
    refine (Accepts.expect .atSign).andThen ((Accepts.name d.name).andThen ?_)
    exact (accepts_arguments (h d hd).2).map (Directive.mk d.name)
  intro ts rest hm hb hr
  rw [directiveTokens, List.flatMap_def] at hm
  have hlen : ds.length ≤ bound := by
    have hle : ds.length ≤ (ds.map Directive.tokens).flatten.length := length_flatten_le fun d _ => ⟨_, rfl⟩
    rw [← hm, List.length_map] at hle
    omega
  have := accepts_itemsWhile .atSign hd (fun _ _ => rfl) (by simp) hlen
  rw [List.map_id] at this
  exact this ts rest hm hb hr

/-- A description, if there is one, in front of a name. -/
theorem accepts_description {d : Option String} {n : Name} {l : List Token} {f : Option String → Parser α} {x : α}
    {avoid : List Token} (h : Accepts bound (f d) (.name n :: l) x avoid) :
    Accepts bound (Parser.description >>= f) (descriptionTokens d ++ .name n :: l) x avoid := by
  cases d with
  | some s =>
    have hd : Accepts bound Parser.description [.string s] (some s) [] :=
      Accepts.peek fun _ _ => (Accepts.next (.string s)).map fun _ => some s
    exact hd.andThen h
  | none =>
    intro ts rest hm hb hr
    obtain ⟨t, ts, rfl, ht, -⟩ := List.map_eq_cons_iff.mp hm
    have hd : Parser.description (t :: (ts ++ rest)) = .ok (none, t :: (ts ++ rest)) := by
      obtain ⟨t, c⟩ := t
      cases ht
      rfl
    simp only [Bind.bind, StateT.bind, List.cons_append, hd]
    exact h (t :: ts) rest hm hb hr

theorem accepts_defaultValue {default : Option Value} (h : ∀ v ∈ default, v.Grammatical) :
    Accepts bound (Parser.defaultValue bound) (defaultTokens default) default [.punct .equals] := by
  cases default with
  | none => exact Accepts.bind (l := []) (Accepts.takeNot _) (Accepts.pure none) (by simp)
  | some v =>
    have hvalue : Accepts bound (Parser.value true bound) v.tokens v [] := accepts_value (h v rfl)
    refine Accepts.mono (Accepts.andThen (l := [_]) (Accepts.take (.punct .equals)) (hvalue.map some)) ?_
    intro t ht
    cases ht

/-- What must not follow an input field: what its type, its default or its directives would go on with. -/
theorem accepts_inputDef {d : InputDef} (h : d.Grammatical) :
    Accepts bound (Parser.inputDef bound) d.tokens d
      [.punct .bang, .punct .equals, .punct .atSign, .punct .openParen] := by
  refine accepts_description ?_
  refine Accepts.andThen (l := [_]) (Accepts.name d.name) ?_
  refine Accepts.andThen (l := [_]) (Accepts.expect .colon) ?_
  refine (accepts_type h.type).bind ?_ ?_
  · refine (accepts_defaultValue h.default).bind ?_ ?_
    · exact ((accepts_directives h.directives).map _).mono (by simp)
    · cases d.directives <;> simp [directiveTokens, Directive.tokens]
  · cases d.default <;> cases d.directives <;> simp [defaultTokens, directiveTokens, Directive.tokens]

theorem accepts_argumentDefs {arguments : List InputDef} (h : ∀ a ∈ arguments, a.Grammatical) :
    Accepts bound (Parser.argumentDefs bound) (argumentDefTokens arguments) arguments [.punct .openParen] := by
  have hargs : Accepts bound (Parser.argumentDefs bound) (argumentDefTokens arguments) (arguments.map id)
      [.punct .openParen] :=
    accepts_enclosed (by simp) (fun a ha => accepts_inputDef (h a ha)) fun a _ => by
      cases hd : a.description <;> simp [InputDef.tokens, descriptionTokens, hd]
  rwa [List.map_id] at hargs

theorem accepts_fieldDef {f : FieldDef} (h : f.Grammatical) :
    Accepts bound (Parser.fieldDef bound) f.tokens f [.punct .bang, .punct .atSign, .punct .openParen] := by
  refine accepts_description ?_
  refine Accepts.andThen (l := [_]) (Accepts.name f.name) ?_
  refine (accepts_argumentDefs h.arguments).bind ?_ (by simp)
  refine Accepts.andThen (l := [_]) (Accepts.expect .colon) ?_
  refine (accepts_type h.type).bind ?_ ?_
  · exact ((accepts_directives h.directives).map _).mono (by simp)
  · cases f.directives <;> simp [directiveTokens, Directive.tokens]

theorem accepts_enumValueDef {v : EnumValueDef} (h : v.Grammatical) :
    Accepts bound (Parser.enumValueDef bound) v.tokens v [.punct .atSign, .punct .openParen] := by
  have hk := h.notKeyword
  simp only [Value.keywords, List.mem_cons, List.not_mem_nil, or_false, not_or] at hk
  refine accepts_description (Accepts.peek fun t _ => ?_)
  split
  · next he => exact (hk.1 (Token.name.inj (Option.some.inj he))).elim
  · next he => exact (hk.2.1 (Token.name.inj (Option.some.inj he))).elim
  · next he => exact (hk.2.2 (Token.name.inj (Option.some.inj he))).elim
  · exact Accepts.andThen (l := [_]) (Accepts.name v.name) ((accepts_directives h.directives).map _)

/-- The interfaces of a type, or the members of a union, behind what introduces them. -/
theorem accepts_listed (introduction : Token) (separator : Punctuator) (names : List Name) :
    Accepts bound (do if ← Parser.take introduction then Parser.separated separator Parser.name bound else return [])
      (listed introduction separator names) names [introduction, .punct separator] := by
  cases names with
  | nil =>
    refine Accepts.bind (l := []) (Accepts.takeNot introduction) ?_ (by simp)
    exact Accepts.pure []
  | cons n ns =>
    have hnames : Accepts bound (Parser.separated separator Parser.name bound)
        (.name n :: ns.flatMap fun n => [.punct separator, .name n]) (n :: ns) [.punct separator] := by
      have hn : ∀ n : Name, Accepts bound Parser.name [.name (id n)] n [] := Accepts.name
      simpa using accepts_separated hn n ns
    exact (Accepts.andThen (l := [_]) (Accepts.take introduction) hnames).mono (by simp)

/-- What must not follow a type: what its name, its interfaces, its directives or its members would go on with. -/
def typeAvoids : List Token :=
  [.name "implements", .punct .amp, .punct .equals, .punct .pipe, .punct .atSign, .punct .openParen, .punct .openBrace]

theorem accepts_fieldDefs {fields : List FieldDef} (h : ∀ f ∈ fields, f.Grammatical) :
    Accepts bound (Parser.fieldDefs bound) (enclosed .openBrace .closeBrace (fields.map FieldDef.tokens)) fields
      [.punct .openBrace] := by
  have hfields : Accepts bound (Parser.fieldDefs bound)
      (enclosed .openBrace .closeBrace (fields.map FieldDef.tokens)) (fields.map id) [.punct .openBrace] :=
    accepts_enclosed (by simp) (fun f hf => accepts_fieldDef (h f hf)) fun f _ => by
      cases hd : f.description <;> simp [FieldDef.tokens, descriptionTokens, hd]
  rwa [List.map_id] at hfields

theorem accepts_typeContent {ds : List Directive} (hds : ∀ d ∈ ds, d.Grammatical) :
    ∀ {body : TypeBody}, body.Grammatical →
      Accepts bound (Parser.typeContent bound body.kind) (body.tokens ds) (ds, body) typeAvoids
  | .scalar, _ => ((accepts_directives hds).map fun ds => (ds, TypeBody.scalar)).mono (by simp [typeAvoids])
  | .object is fs, h | .interface is fs, h => by
    refine (accepts_listed (.name "implements") .amp is).bind ?_ ?_
    · refine (accepts_directives hds).bind (((accepts_fieldDefs h.2).map _).mono (by simp [typeAvoids])) ?_
      cases fs <;> simp [enclosed, typeAvoids]
    · cases ds <;> cases fs <;> simp [directiveTokens, Directive.tokens, enclosed, typeAvoids]
  | .union ms, _ => by
    have hmembers : Accepts bound (do
        if ← Parser.take (.punct .equals) then Parser.separated .pipe Parser.name bound else return [])
        (listed (.punct .equals) .pipe ms) ms [.punct .equals, .punct .pipe] :=
      accepts_listed (.punct .equals) .pipe ms
    refine (accepts_directives hds).bind ((hmembers.map _).mono (by simp [typeAvoids])) ?_
    cases ms <;> simp [listed, typeAvoids]
  | .enum vs, h => by
    have hvalues : Accepts bound (Parser.optionalItems .openBrace .closeBrace (Parser.enumValueDef bound) bound)
        (enclosed .openBrace .closeBrace (vs.map EnumValueDef.tokens)) (vs.map id) [.punct .openBrace] :=
      accepts_enclosed (by simp) (fun v hv => accepts_enumValueDef (h v hv)) fun v _ => by
        cases hd : v.description <;> simp [EnumValueDef.tokens, descriptionTokens, hd]
    rw [List.map_id] at hvalues
    refine (accepts_directives hds).bind ((hvalues.map _).mono (by simp [typeAvoids])) ?_
    cases vs <;> simp [enclosed, typeAvoids]
  | .inputObject fs, h => by
    have hfields : Accepts bound (Parser.optionalItems .openBrace .closeBrace (Parser.inputDef bound) bound)
        (enclosed .openBrace .closeBrace (fs.map InputDef.tokens)) (fs.map id) [.punct .openBrace] :=
      accepts_enclosed (by simp) (fun f hf => accepts_inputDef (h f hf)) fun f _ => by
        cases hd : f.description <;> simp [InputDef.tokens, descriptionTokens, hd]
    rw [List.map_id] at hfields
    refine (accepts_directives hds).bind ((hfields.map _).mono (by simp [typeAvoids])) ?_
    cases fs <;> simp [enclosed, typeAvoids]

/-! ## Definitions -/

theorem accepts_rootType (r : OperationKind × Name) : Accepts bound Parser.rootType (rootTokens r) (some r) [] := by
  have hk : OperationKind.ofName? r.1.name = some r.1 := by cases r.1 <;> rfl
  refine (Accepts.name r.1.name).andThen ?_
  rw [hk]
  refine (Accepts.expect .colon).andThen (Accepts.peek fun _ _ => ?_)
  exact (Accepts.next (.name r.2)).map fun _ => some r

theorem accepts_roots (roots : List (OperationKind × Name)) :
    Accepts bound (Parser.rootTypes bound)
      (.punct .openBrace :: ((roots.map rootTokens).flatten ++ [.punct .closeBrace]))
      (some (roots.map some)) [] := by
  have hroots : Accepts bound (Parser.itemsUntil .closeBrace Parser.rootType bound)
      ((roots.map rootTokens).flatten ++ [.punct .closeBrace]) (roots.map some) [] :=
    accepts_items (by simp) (fun r _ => accepts_rootType r) fun r _ => ⟨_, rfl, by simp, by simp⟩
  exact (Accepts.take (.punct .openBrace)).andThen (hroots.map some)

theorem accepts_location (l : DirectiveLocation) : Accepts bound Parser.location [.name l.name] l [] := by
  have hl : DirectiveLocation.ofName? l.name = some l := by cases l <;> rfl
  refine (Accepts.name l.name).andThen ?_
  rw [hl]
  exact Accepts.pure l

theorem accepts_directiveDef {d : DirectiveDef} (h : d.Grammatical) :
    Accepts bound (Parser.directiveDef bound d.description)
      (.punct .atSign :: .name d.name :: (argumentDefTokens d.arguments ++
        ((if d.repeatable then [.name "repeatable"] else []) ++
          listed (.name "on") .pipe (d.locations.map DirectiveLocation.name)))) d typeAvoids := by
  obtain ⟨description, name, arguments, repeatable, locations⟩ := d
  obtain ⟨l, ls, rfl⟩ := List.exists_cons_of_ne_nil h.locations
  have hrepeatable : Accepts bound (Parser.take (.name "repeatable"))
      (if repeatable then [.name "repeatable"] else []) repeatable [.name "repeatable"] := by
    cases repeatable with
    | false => exact Accepts.takeNot _
    | true => exact (Accepts.take _).mono (by simp)
  refine (Accepts.expect .atSign).andThen ((Accepts.name name).andThen ?_)
  refine (accepts_argumentDefs h.arguments).bind (hrepeatable.bind ?_ ?_) ?_
  · refine (Accepts.keyword "on").andThen ?_
    exact ((accepts_separated accepts_location l ls).map _).mono (by simp [typeAvoids])
  · simp [listed]
  · cases repeatable <;> simp [listed]

theorem typeKind?_keyword (kind : TypeKind) : Parser.typeKind? kind.keyword = some kind := by cases kind <;> rfl

theorem keyword_ne (kind : TypeKind) :
    kind.keyword ≠ "schema" ∧ kind.keyword ≠ "directive" ∧ kind.keyword ≠ "fragment" ∧ kind.keyword ≠ "extend" ∧
      OperationKind.ofName? kind.keyword = none := by cases kind <;> decide

theorem accepts_schema {d : SchemaDef} (h : (Definition.schema d).Grammatical) :
    Accepts bound (Parser.typeSystemDefinition bound d.description "schema")
      (directiveTokens d.directives ++ .punct .openBrace :: ((d.roots.map rootTokens).flatten ++ [.punct .closeBrace]))
      (.schema d, (Definition.schema d).slips) typeAvoids := by
  rw [Parser.typeSystemDefinition, if_pos rfl]
  refine Accepts.mono ((accepts_directives h.1).bind
    (((accepts_roots d.roots).map _).value_eq ?_) (by simp)) (fun _ h => absurd h List.not_mem_nil)
  simp [List.filterMap_map, Definition.slips]

theorem accepts_directive {d : DirectiveDef} (h : d.Grammatical) :
    Accepts bound (Parser.typeSystemDefinition bound d.description "directive")
      (.punct .atSign :: .name d.name :: (argumentDefTokens d.arguments ++
        ((if d.repeatable then [.name "repeatable"] else []) ++
          listed (.name "on") .pipe (d.locations.map DirectiveLocation.name))))
      (.directive d, []) typeAvoids := by
  rw [Parser.typeSystemDefinition, if_neg (by decide), if_pos rfl]
  exact (accepts_directiveDef h).map _

theorem accepts_typeDef {d : TypeDef} (h : d.Grammatical) :
    Accepts bound (Parser.typeSystemDefinition bound d.description d.body.kind.keyword)
      (.name d.name :: d.body.tokens d.directives) (.type d, []) typeAvoids := by
  obtain ⟨hs, hd, -⟩ := keyword_ne d.body.kind
  rw [Parser.typeSystemDefinition, if_neg hs, if_neg hd, typeKind?_keyword]
  exact (Accepts.name d.name).andThen ((accepts_typeContent h.directives h.body).map _)

theorem accepts_optionalRoots (roots : List (OperationKind × Name)) :
    Accepts bound (Parser.rootTypes bound) (enclosed .openBrace .closeBrace (roots.map rootTokens))
      (if roots.isEmpty then none else some (roots.map some)) [.punct .openBrace] := by
  cases roots with
  | nil =>
    refine Accepts.bind (l := []) (Accepts.takeNot (.punct .openBrace)) ?_ (by simp)
    exact Accepts.pure none
  | cons r rs => simpa [enclosed] using (accepts_roots (r :: rs)).mono (by simp)

/-- What follows the keywords of an extension of the schema definition. -/
def schemaExtensionContent (bound : Nat) : Parser (Definition × List SyntaxError) := do
  let ds ← Parser.directives true bound
  let entries := (← Parser.rootTypes bound).getD []
  let faults := if ds.isEmpty && entries.isEmpty then [SyntaxError.emptyExtension] else []
  return (.schemaExtension { directives := ds, roots := entries.filterMap id }, faults)

/-- What follows the keywords of an extension of a type. -/
def typeExtensionContent (bound : Nat) (kind : TypeKind) : Parser (Definition × List SyntaxError) := do
  let n ← Parser.name
  let (ds, body) ← Parser.typeContent bound kind
  if ds.isEmpty && Parser.TypeBody.isEmpty body then Parser.refuse
  return (.typeExtension { name := n, directives := ds, body }, [])

theorem extension_schema (ts : List PlacedToken) :
    Parser.extension bound (⟨.name "schema", false⟩ :: ts) = schemaExtensionContent bound ts := rfl

theorem extension_type (kind : TypeKind) (ts : List PlacedToken) :
    Parser.extension bound (⟨.name kind.keyword, false⟩ :: ts) = typeExtensionContent bound kind ts := by
  cases kind <;> rfl

theorem accepts_schemaExtension {e : SchemaExtension} (h : (Definition.schemaExtension e).Grammatical) :
    Accepts bound (schemaExtensionContent bound)
      (directiveTokens e.directives ++ enclosed .openBrace .closeBrace (e.roots.map rootTokens))
      (.schemaExtension e, (Definition.schemaExtension e).slips) typeAvoids := by
  obtain ⟨ds, roots⟩ := e
  refine Accepts.value_eq ((accepts_directives h.1).bind
    (((accepts_optionalRoots roots).map _).mono (by simp [typeAvoids])) ?_) ?_
  · cases roots <;> simp [enclosed, typeAvoids]
  · cases roots <;> simp [Definition.slips, List.filterMap_map]

theorem accepts_typeExtension {e : TypeExtension} (h : e.Grammatical) :
    Accepts bound (typeExtensionContent bound e.body.kind) (.name e.name :: e.body.tokens e.directives)
      (.typeExtension e, []) typeAvoids := by
  have hrest : Accepts bound (do
      if e.directives.isEmpty && Parser.TypeBody.isEmpty e.body then Parser.refuse
      return (Definition.typeExtension e, ([] : List SyntaxError))) [] (.typeExtension e, []) typeAvoids := by
    rw [h.notEmpty]
    exact Accepts.pure _
  exact Accepts.andThen (l := [_]) (Accepts.name e.name) ((accepts_typeContent h.directives h.body).thenNothing hrest)

end

section

variable {bound : Nat} {rest : List PlacedToken}

/-- What stands behind a definition does not carry it on. -/
def EndsDefinition (rest : List PlacedToken) : Prop :=
  ∀ t ∈ typeAvoids, rest.head?.map PlacedToken.token ≠ some t

/-- A definition with a description, by what follows its keyword. -/
theorem reads_described {s : String} {word : Name} (hw : word ≠ "fragment") {l : List Token}
    {x : Definition × List SyntaxError}
    (h : Accepts bound (Parser.typeSystemDefinition bound (some s) word) l x typeAvoids) {ts : List PlacedToken}
    (hm : ts.map PlacedToken.token = .string s :: .name word :: l) (hc : ∀ t ∈ ts[1]?, t.afterComma = false)
    (hb : ts.length ≤ bound) (hr : EndsDefinition rest) : Parser.definition bound (ts ++ rest) = .ok (x, rest) := by
  match ts, hm with
  | ⟨_, c⟩ :: ⟨_, c'⟩ :: ts, hm =>
    simp only [List.map_cons, List.cons.injEq] at hm
    obtain ⟨rfl, rfl, hm⟩ := hm
    obtain rfl : c' = false := hc _ rfl
    have : Parser.definition bound (⟨.string s, c⟩ :: ⟨.name word, false⟩ :: (ts ++ rest)) =
        (if word = "fragment" then do
          Parser.fragmentContent bound
          return (.fragment, [])
        else Parser.typeSystemDefinition bound (some s) word) (ts ++ rest) := rfl
    simp only [List.cons_append, this, if_neg hw]
    simp only [List.length_cons] at hb
    exact h ts rest hm (by omega) hr

/-- A definition without a description, by what follows its keyword. -/
theorem reads_undescribed {word : Name} (hk : OperationKind.ofName? word = none) (hf : word ≠ "fragment")
    (he : word ≠ "extend") {l : List Token} {x : Definition × List SyntaxError}
    (h : Accepts bound (Parser.typeSystemDefinition bound none word) l x typeAvoids) {ts : List PlacedToken}
    (hm : ts.map PlacedToken.token = .name word :: l) (hb : ts.length ≤ bound) (hr : EndsDefinition rest) :
    Parser.definition bound (ts ++ rest) = .ok (x, rest) := by
  match ts, hm with
  | ⟨_, c⟩ :: ts, hm =>
    simp only [List.map_cons, List.cons.injEq] at hm
    obtain ⟨rfl, hm⟩ := hm
    have : Parser.definition bound (⟨.name word, c⟩ :: (ts ++ rest)) =
        (if (OperationKind.ofName? word).isSome then do
          Parser.operation bound
          return (.operation, [])
        else if word = "fragment" then do
          Parser.fragment bound
          return (.fragment, [])
        else if word = "extend" then Parser.extension bound
        else Parser.typeSystemDefinition bound none word) (ts ++ rest) := rfl
    simp only [List.cons_append, this, hk, Option.isSome_none, Bool.false_eq_true, if_false, if_neg hf, if_neg he]
    simp only [List.length_cons] at hb
    exact h ts rest hm (by omega) hr

/-- An extension, by what follows its keywords. -/
theorem reads_extension {word : Name} {p : Parser (Definition × List SyntaxError)}
    (hw : ∀ ts, Parser.extension bound (⟨.name word, false⟩ :: ts) = p ts) {l : List Token}
    {x : Definition × List SyntaxError} (h : Accepts bound p l x typeAvoids) {ts : List PlacedToken}
    (hm : ts.map PlacedToken.token = .name "extend" :: .name word :: l) (hc : ∀ t ∈ ts[1]?, t.afterComma = false)
    (hb : ts.length ≤ bound) (hr : EndsDefinition rest) : Parser.definition bound (ts ++ rest) = .ok (x, rest) := by
  match ts, hm with
  | ⟨_, c⟩ :: ⟨_, c'⟩ :: ts, hm =>
    simp only [List.map_cons, List.cons.injEq] at hm
    obtain ⟨rfl, rfl, hm⟩ := hm
    obtain rfl : c' = false := hc _ rfl
    have : Parser.definition bound (⟨.name "extend", c⟩ :: ⟨.name word, false⟩ :: (ts ++ rest)) = p (ts ++ rest) :=
      hw (ts ++ rest)
    rw [List.cons_append, List.cons_append, this]
    simp only [List.length_cons] at hb
    exact h ts rest hm (by omega) hr

/-- A definition in front of what does not carry it on is read, with its slips. -/
theorem reads_definition {d : Definition} (h : d.Grammatical) {ts : List PlacedToken} (hs : d.Spelled ts)
    (hb : ts.length ≤ bound) (hr : EndsDefinition rest) :
    Parser.definition bound (ts ++ rest) = .ok ((d, d.slips), rest) := by
  obtain ⟨hm, hc⟩ := hs
  match d, h with
  | .schema ⟨none, ds, roots⟩, h =>
    exact reads_undescribed (by decide) (by decide) (by decide) (accepts_schema h) hm hb hr
  | .schema ⟨some s, ds, roots⟩, h => exact reads_described (by decide) (accepts_schema h) hm (hc rfl) hb hr
  | .directive ⟨none, n, as, r, ls⟩, h =>
    exact reads_undescribed (by decide) (by decide) (by decide) (accepts_directive h) hm hb hr
  | .directive ⟨some s, n, as, r, ls⟩, h => exact reads_described (by decide) (accepts_directive h) hm (hc rfl) hb hr
  | .type ⟨none, n, ds, body⟩, h =>
    obtain ⟨-, -, hf, he, hk⟩ := keyword_ne body.kind
    exact reads_undescribed hk hf he (accepts_typeDef h) hm hb hr
  | .type ⟨some s, n, ds, body⟩, h =>
    obtain ⟨-, -, hf, -⟩ := keyword_ne body.kind
    exact reads_described hf (accepts_typeDef h) hm (hc rfl) hb hr
  | .schemaExtension e, h => exact reads_extension extension_schema (accepts_schemaExtension h) hm (hc rfl) hb hr
  | .typeExtension e, h =>
    exact reads_extension (extension_type e.body.kind) (accepts_typeExtension h) hm (hc rfl) hb hr

/-- A definition starts with its description or with its keyword. -/
theorem Definition.head_tokens {d : Definition} (h : d.Grammatical) :
    ∃ t, d.tokens.head? = some t ∧ t ∉ typeAvoids := by
  match d, h with
  | .schema ⟨d, _, _⟩, _ | .directive ⟨d, _, _, _, _⟩, _ =>
    cases d <;> simp [Definition.tokens, descriptionTokens, typeAvoids]
  | .type ⟨d, _, _, body⟩, _ =>
    have hk : ∀ kind : TypeKind, kind.keyword ≠ "implements" := fun kind => by cases kind <;> decide
    cases d <;> simp [Definition.tokens, descriptionTokens, typeAvoids, hk]
  | .schemaExtension _, _ | .typeExtension _, _ => simp [Definition.tokens, typeAvoids]

theorem Definition.Spelled.head {d : Definition} (h : d.Grammatical) {ts : List PlacedToken} (hs : d.Spelled ts) :
    ∃ t ts', ts = t :: ts' ∧ t.token ∉ typeAvoids := by
  obtain ⟨u, hu, hn⟩ := Definition.head_tokens h
  rw [← hs.1] at hu
  cases ts with
  | nil => cases hu
  | cons t ts => cases hu; exact ⟨t, ts, rfl, hn⟩

/-- Definitions, one after the other, are read with their slips. -/
theorem reads_definitions {doc : Document} {tss : List (List PlacedToken)} {n : Nat}
    (h : ∀ d ∈ doc, d.Grammatical) (hs : List.Forall₂ Definition.Spelled doc tss) (hb : tss.flatten.length ≤ bound)
    (hn : doc.length < n) :
    Parser.definitions bound n tss.flatten = .ok (doc.map fun d => (d, d.slips), []) := by
  induction hs generalizing n with
  | nil =>
    obtain ⟨n, rfl⟩ := Nat.exists_eq_succ_of_ne_zero (Nat.ne_zero_of_lt hn)
    rfl
  | @cons d ts doc tss hs hss ih =>
    obtain ⟨n, rfl⟩ := Nat.exists_eq_succ_of_ne_zero (Nat.ne_zero_of_lt hn)
    rw [List.flatten_cons, List.length_append] at hb
    have hdoc : ∀ d ∈ doc, d.Grammatical := fun d hd => h d (List.mem_cons_of_mem _ hd)
    have hends : EndsDefinition tss.flatten := by
      intro u hu he
      cases hss with
      | nil => cases he
      | cons hs' =>
        obtain ⟨t, ts', rfl, ht⟩ := hs'.head (hdoc _ (by simp))
        cases he
        exact ht hu
    have hd : Parser.definition bound (ts ++ tss.flatten) = .ok ((d, d.slips), tss.flatten) :=
      reads_definition (h d (by simp)) hs (by omega) hends
    have hrest := ih hdoc (by omega) (Nat.lt_of_succ_lt_succ hn)
    obtain ⟨t, ts', rfl, -⟩ := hs.head (h d (by simp))
    have hsome : Parser.definitions bound (n + 1) (t :: (ts' ++ tss.flatten)) = (do
        let first ← Parser.definition bound
        let rest ← Parser.definitions bound n
        return first :: rest) (t :: (ts' ++ tss.flatten)) := rfl
    rw [List.flatten_cons, List.cons_append, hsome]
    simp only [Bind.bind, StateT.bind, ← List.cons_append, hd, Except.bind, hrest]
    rfl

end

theorem length_le_flatten {doc : Document} {tss : List (List PlacedToken)} (h : ∀ d ∈ doc, d.Grammatical)
    (hs : List.Forall₂ Definition.Spelled doc tss) : doc.length ≤ tss.flatten.length := by
  induction hs with
  | nil => exact Nat.le_refl _
  | @cons d ts doc tss hs _ ih =>
    have := ih fun d hd => h d (List.mem_cons_of_mem _ hd)
    obtain ⟨t, ts', rfl, -⟩ := hs.head (h d (by simp))
    simp only [List.length_cons, List.flatten_cons, List.length_append]
    omega

/-- **Tokens that spell a document are read as this document, with its slips.** -/
theorem ofTokens_spelled {doc : Document} {tss : List (List PlacedToken)} (h : ∀ d ∈ doc, d.Grammatical)
    (hs : List.Forall₂ Definition.Spelled doc tss) : Document.ofTokens tss.flatten = .ok (doc, doc.slips) := by
  have hlen := length_le_flatten h hs
  have hread := reads_definitions h hs (Nat.le_refl _) (Nat.lt_succ_of_le hlen)
  cases doc with
  | nil => cases hs; rfl
  | cons d doc =>
    have hne : tss.flatten.isEmpty = false := by
      cases hf : tss.flatten with
      | nil => rw [hf] at hlen; cases hlen
      | cons => rfl
    simp only [Document.ofTokens, hne, Bool.false_eq_true, if_false, hread]
    simp [Bind.bind, Except.bind, pure, Except.pure, Document.slips, List.flatMap_map, Function.comp_def]

/-- A text that spells a document is read as this document, with its slips. -/
theorem read_spelled {s : String} {doc : Document} {tss : List (List PlacedToken)} (h : ∀ d ∈ doc, d.Grammatical)
    (hs : List.Forall₂ Definition.Spelled doc tss) (ht : tokenize s.toList = some tss.flatten) :
    Document.read s = .ok (doc, doc.slips) := by
  rw [Document.read, ht]
  exact ofTokens_spelled h hs

end SchemaWeave.Graphql
