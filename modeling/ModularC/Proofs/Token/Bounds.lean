import ModularC.Token.Survey

/-!
The survey of type names read index by index, as a scanner over a token array does it, never
out of bounds (`Survey.scan_total`).
-/

namespace ModularC

namespace Survey

/-- The tokens from index `a` up to `b`, or `none` where slicing fails: `a` after `b`, or `b` past
the end. -/
def slice (ts : List Token) (a b : Nat) : Option (List Token) :=
  if a ≤ b ∧ b ≤ ts.length then some ((ts.take b).drop a) else none

/-- From index `i` at brace depth `depth`: the index of the `;` that ends the declaration, at depth
zero, or of the end of input, or the length when neither comes. A `}` at depth zero leaves the
depth at zero. -/
def statementEnd (ts : List Token) (i depth : Nat) : Nat :=
  if h : i < ts.length then
    match ts[i].kind with
    | .symbol .lBrace => statementEnd ts (i + 1) (depth + 1)
    | .symbol .rBrace => statementEnd ts (i + 1) (depth - 1)
    | .symbol .semicolon => if depth = 0 then i else statementEnd ts (i + 1) depth
    | .eof => i
    | _ => statementEnd ts (i + 1) depth
  else ts.length
termination_by ts.length - i

/-- From index `i` at depth `depth`: the index just past the `right` that closes the group,
counting each `left` up and each `right` down, or the length when the group never closes;
`none` where a `right` would take the depth below zero. -/
def skipGroup (ts : List Token) (left right : Symbol) (i depth : Nat) : Option Nat :=
  if h : i < ts.length then
    if ts[i].isSymbol left then skipGroup ts left right (i + 1) (depth + 1)
    else if ts[i].isSymbol right then
      if depth = 0 then none
      else if depth - 1 = 0 then some (i + 1)
      else skipGroup ts left right (i + 1) (depth - 1)
    else skipGroup ts left right (i + 1) depth
  else some ts.length
termination_by ts.length - i

/-- Scanning back from index `i - 1` at depth `depth`: the index of the `(` that opens the group a
final `)` closes, or zero when none does; `none` where a `(` would take the depth below zero. -/
def openOfTrailingGroup (ts : List Token) : (i : Nat) → i ≤ ts.length → Nat → Option Nat
  | 0, _, _ => some 0
  | i + 1, hi, depth =>
    if ts[i].isSymbol .rParen then openOfTrailingGroup ts i (by omega) (depth + 1)
    else if ts[i].isSymbol .lParen then
      if depth = 0 then none
      else if depth - 1 = 0 then some i
      else openOfTrailingGroup ts i (by omega) (depth - 1)
    else openOfTrailingGroup ts i (by omega) depth

/-- The typedef whose body starts at index `start`: the name it declares and the index past its
`;`, or `none` where a slice or a depth counter fails. With a braced body the name is the first
word after the group; otherwise the last word, a final parenthesised parameter list cut off. -/
def typedefNameAt (ts : List Token) (start : Nat) : Option (Option String × Nat) := do
  let stop := statementEnd ts start 0
  let body ← slice ts start stop
  let next := min (stop + 1) ts.length
  match body.findIdx? (·.isSymbol .lBrace) with
  | some opening =>
    let after ← skipGroup body .lBrace .rBrace opening 0
    let tail ← slice body after body.length
    return (tail.findSome? Token.word?, next)
  | none =>
    let rest ← if body.getLast?.any (·.isSymbol .rParen) then
        openOfTrailingGroup body body.length (Nat.le_refl _) 0 >>= slice body 0
      else pure body
    return (rest.reverse.findSome? Token.word?, next)

theorem statement_isPrefix (d : Nat) (xs : List Token) : (statement d xs).1 <+: xs := by
  induction xs generalizing d with
  | nil => simp [statement]
  | cons t ts ih =>
    unfold statement
    split
    · split
      · exact List.nil_prefix
      · exact (List.prefix_cons_inj _).mpr (ih d)
    · exact List.nil_prefix
    · exact (List.prefix_cons_inj _).mpr (ih (d + 1))
    · exact (List.prefix_cons_inj _).mpr (ih (d - 1))
    · exact (List.prefix_cons_inj _).mpr (ih d)

theorem statement_rest (d : Nat) (xs : List Token) :
    (statement d xs).2 = xs.drop ((statement d xs).1.length + 1) := by
  induction xs generalizing d with
  | nil => simp [statement]
  | cons t ts ih =>
    unfold statement
    split
    · split
      · simp
      · simp [ih d]
    · simp
    · simp [ih (d + 1)]
    · simp [ih (d - 1)]
    · simp [ih d]

theorem statement_cons_other {t : Token} {ts : List Token} {d : Nat}
    (h1 : t.kind ≠ .symbol .lBrace) (h2 : t.kind ≠ .symbol .rBrace)
    (h3 : t.kind ≠ .symbol .semicolon) (h4 : t.kind ≠ .eof) :
    statement d (t :: ts) = (t :: (statement d ts).1, (statement d ts).2) := by
  rw [statement.eq_def]
  dsimp only
  split
  · exact absurd ‹_› h3
  · exact absurd ‹_› h4
  · exact absurd ‹_› h1
  · exact absurd ‹_› h2
  · generalize statement d ts = parts
    rfl

theorem statementEnd_eq {ts : List Token} {i : Nat} (d : Nat) (h : i ≤ ts.length) :
    statementEnd ts i d = i + (statement d (ts.drop i)).1.length := by
  fun_induction statementEnd ts i d with
  | case1 i d hi hk ih | case2 i d hi hk ih =>
    rw [ih (by omega), List.drop_eq_getElem_cons hi, statement, hk]
    simp only [List.length_cons]
    omega
  | case3 i hi hk =>
    rw [List.drop_eq_getElem_cons hi, statement, hk]
    simp
  | case4 i d hi hk hd ih =>
    rw [ih (by omega), List.drop_eq_getElem_cons hi, statement, hk]
    simp only [hd, if_false, List.length_cons]
    omega
  | case5 i d hi hk =>
    rw [List.drop_eq_getElem_cons hi, statement, hk]
    simp
  | case6 i d hi h1 h2 h3 h4 ih =>
    rw [ih (by omega), List.drop_eq_getElem_cons hi, statement_cons_other h1 h2 h3 h4,
      List.length_cons]
    omega
  | case7 i d hi =>
    have : i = ts.length := by omega
    subst this
    simp [statement]

theorem afterGroup_suffix (o c : Symbol) (d : Nat) (xs : List Token) :
    afterGroup o c d xs <:+ xs := by
  induction xs generalizing d with
  | nil => exact List.suffix_refl []
  | cons t ts ih =>
    unfold afterGroup
    split
    · exact (ih (d + 1)).trans (List.suffix_cons t ts)
    · split
      · split
        · exact List.suffix_cons t ts
        · exact (ih (d - 1)).trans (List.suffix_cons t ts)
      · exact (ih d).trans (List.suffix_cons t ts)

theorem skipGroup_eq {ts : List Token} {l r : Symbol} {i d : Nat} (hd : 0 < d)
    (hi : i ≤ ts.length) :
    skipGroup ts l r i d = some (ts.length - (afterGroup l r d (ts.drop i)).length) := by
  fun_induction skipGroup ts l r i d with
  | case1 i d hlt hl ih =>
    rw [ih (by omega) (by omega), List.drop_eq_getElem_cons hlt, afterGroup, if_pos hl]
  | case2 => omega
  | case3 i d hlt hl hr _ hlast =>
    rw [List.drop_eq_getElem_cons hlt, afterGroup, if_neg hl, if_pos hr, if_pos hlast,
      List.length_drop]
    congr 1
    omega
  | case4 i d hlt hl hr _ hlast ih =>
    rw [ih (by omega) (by omega), List.drop_eq_getElem_cons hlt, afterGroup, if_neg hl, if_pos hr,
      if_neg hlast]
  | case5 i d hlt hl hr ih =>
    rw [ih hd (by omega), List.drop_eq_getElem_cons hlt, afterGroup, if_neg hl, if_neg hr]
  | case6 i d hge =>
    rw [List.drop_of_length_le (by omega)]
    simp [afterGroup]

theorem openOfTrailingGroup_eq {ts : List Token} {i d : Nat} (hi : i ≤ ts.length) (hd : 0 < d) :
    openOfTrailingGroup ts i hi d =
      some (afterGroup .rParen .lParen d (ts.take i).reverse).length := by
  induction i generalizing d with
  | zero => simp [openOfTrailingGroup, afterGroup]
  | succ i ih =>
    have hrev : (ts.take (i + 1)).reverse = ts[i] :: (ts.take i).reverse := by
      rw [List.take_add_one, List.getElem?_eq_getElem (by omega)]
      simp
    rw [openOfTrailingGroup, hrev, afterGroup]
    split
    · exact ih (by omega) (by omega)
    · split
      · rw [if_neg (by omega)]
        split
        · simp only [List.length_reverse, List.length_take]
          rw [Nat.min_eq_left (by omega)]
        · exact ih (by omega) (by omega)
      · exact ih (by omega) hd

theorem slice_eq_some {ts : List Token} {a b : Nat} (hab : a ≤ b) (hb : b ≤ ts.length) :
    slice ts a b = some ((ts.take b).drop a) := by
  simp [slice, hab, hb]

theorem slice_statement {ts : List Token} {s : Nat} (d : Nat) (hs : s ≤ ts.length) :
    slice ts s (statementEnd ts s d) = some (statement d (ts.drop s)).1 := by
  have hpre := statement_isPrefix d (ts.drop s)
  have hlen := hpre.length_le
  rw [List.length_drop] at hlen
  rw [statementEnd_eq d hs, slice_eq_some (by omega) (by omega), List.drop_take,
    Nat.add_sub_cancel_left, ← List.prefix_iff_eq_take.mp hpre]

theorem drop_statementEnd {ts : List Token} {s : Nat} (d : Nat) (hs : s ≤ ts.length) :
    ts.drop (min (statementEnd ts s d + 1) ts.length) = (statement d (ts.drop s)).2 := by
  have hlen := (statement_isPrefix d (ts.drop s)).length_le
  rw [List.length_drop] at hlen
  rw [statement_rest, List.drop_drop, statementEnd_eq d hs]
  by_cases hfit : s + (statement d (ts.drop s)).1.length + 1 ≤ ts.length
  · rw [Nat.min_eq_left hfit, Nat.add_assoc]
  · rw [Nat.min_eq_right (by omega), List.drop_length, List.drop_of_length_le (by omega)]

theorem reverse_take_of_suffix {l g : List Token} (hg : g <:+ l.reverse) :
    (l.take g.length).reverse = g := by
  obtain ⟨p, hp⟩ := hg
  have hl : l = g.reverse ++ p.reverse := by
    rw [← List.reverse_append, hp, List.reverse_reverse]
  rw [hl, List.take_left' List.length_reverse, List.reverse_reverse]

theorem typedefName_braced {body : List Token} {k : Nat}
    (hk : body.findIdx? (·.isSymbol .lBrace) = some k) :
    typedefName body =
      (afterGroup .lBrace .rBrace 1 (body.drop (k + 1))).findSome? Token.word? := by
  obtain ⟨hlt, -, -⟩ := List.findIdx?_eq_some_iff_getElem.mp hk
  have hdrop : body.dropWhile (fun t => !t.isSymbol .lBrace) = body[k] :: body.drop (k + 1) := by
    rw [List.dropWhile_eq_drop_findIdx_not]
    simp only [Bool.not_not]
    rw [(List.findIdx?_eq_some_iff_findIdx_eq.mp hk).2, List.drop_eq_getElem_cons hlt]
  rw [typedefName, hdrop]

theorem dropWhile_unbraced {body : List Token}
    (hk : body.findIdx? (·.isSymbol .lBrace) = none) :
    body.dropWhile (fun t => !t.isSymbol .lBrace) = [] := by
  rw [List.dropWhile_eq_drop_findIdx_not]
  simp only [Bool.not_not]
  rw [List.findIdx?_eq_none_iff_findIdx_eq.mp hk, List.drop_length]

theorem skipGroup_first_brace {body : List Token} {k : Nat}
    (hk : body.findIdx? (·.isSymbol .lBrace) = some k) :
    skipGroup body .lBrace .rBrace k 0 =
      some (body.length - (afterGroup .lBrace .rBrace 1 (body.drop (k + 1))).length) := by
  obtain ⟨hlt, hopen, -⟩ := List.findIdx?_eq_some_iff_getElem.mp hk
  rw [skipGroup, dif_pos hlt, if_pos hopen, skipGroup_eq Nat.one_pos hlt]

theorem slice_suffix {l g : List Token} (hg : g <:+ l) :
    slice l (l.length - g.length) l.length = some g := by
  rw [slice_eq_some (Nat.sub_le _ _) (Nat.le_refl _), List.take_length,
    ← List.suffix_iff_eq_drop.mp hg]

theorem trailing_rest {init : List Token} {t : Token} (ht : t.isSymbol .rParen = true) :
    (openOfTrailingGroup (init ++ [t]) (init ++ [t]).length (Nat.le_refl _) 0).bind
        (slice (init ++ [t]) 0) =
      some (afterGroup .rParen .lParen 1 init.reverse).reverse := by
  have hg := afterGroup_suffix .rParen .lParen 1 init.reverse
  have hle := hg.length_le
  rw [List.length_reverse] at hle
  -- the first step back reads the final `)`, then the scan runs at depth one
  have hopen : ∀ n (hn : n ≤ (init ++ [t]).length), n = init.length + 1 →
      openOfTrailingGroup (init ++ [t]) n hn 0 =
        some (afterGroup .rParen .lParen 1 init.reverse).length := by
    rintro _ hn rfl
    have hlast : (init ++ [t])[init.length] = t := by simp
    rw [openOfTrailingGroup]
    simp only [hlast, ht, if_true, Nat.zero_add]
    rw [openOfTrailingGroup_eq _ Nat.one_pos, List.take_left' rfl]
  rw [hopen _ _ (by simp), Option.bind_some, slice_eq_some (Nat.zero_le _)
    (by rw [List.length_append, List.length_singleton]; omega),
    List.drop_zero, List.take_append_of_le_length hle, ← List.reverse_reverse (List.take _ init),
    reverse_take_of_suffix hg]

theorem typedefNameAt_eq {ts : List Token} {s : Nat} (hs : s ≤ ts.length) :
    typedefNameAt ts s = some (typedefName (statement 0 (ts.drop s)).1,
      min (statementEnd ts s 0 + 1) ts.length) := by
  unfold typedefNameAt
  dsimp only
  rw [slice_statement 0 hs]
  generalize (statement 0 (ts.drop s)).1 = body
  generalize min (statementEnd ts s 0 + 1) ts.length = next
  simp only [Option.bind_eq_bind, Option.bind_some]
  cases hk : body.findIdx? (·.isSymbol .lBrace) with
  | some k =>
    have hsuffix := (afterGroup_suffix .lBrace .rBrace 1 (body.drop (k + 1))).trans
      (List.drop_suffix (k + 1) body)
    dsimp only
    rw [skipGroup_first_brace hk, Option.bind_some, slice_suffix hsuffix, typedefName_braced hk]
    rfl
  | none =>
    rw [typedefName, dropWhile_unbraced hk]
    dsimp only
    -- without braces, only a final `)` sends the scan back
    rcases List.eq_nil_or_concat body with rfl | ⟨init, t, rfl⟩
    · rfl
    rw [List.concat_eq_append, List.getLast?_concat, List.reverse_append]
    by_cases ht : t.isSymbol .rParen
    · have hlast : Option.any (fun x => x.isSymbol .rParen) (some t) = true := ht
      rw [if_pos hlast, trailing_rest ht, Option.bind_some, List.reverse_reverse]
      simp [ht]
    · simp [ht]

/-- The main loop moves past every typedef it reads: its index only grows. -/
theorem typedefNameAt_advances {ts : List Token} {i : Nat} {name : Option String} {next : Nat}
    (hi : i < ts.length) (h : typedefNameAt ts (i + 1) = some (name, next)) : i < next := by
  rw [typedefNameAt_eq hi, Option.some.injEq, Prod.mk.injEq] at h
  have hend := statementEnd_eq 0 hi
  omega

/-- The type names from index `i` on, as the main loop finds them; `none` where the scan of a
typedef fails. -/
def typeNamesFrom (ts : List Token) (i : Nat) : Option (List String) :=
  if h : i < ts.length then
    match ts[i].kind with
    | .keyword .typedef =>
      match hn : typedefNameAt ts (i + 1) with
      | none => none
      | some (name, next) => (name.toList ++ ·) <$> typeNamesFrom ts next
    | .directive line => ((directiveName line).toList ++ ·) <$> typeNamesFrom ts (i + 1)
    | _ => typeNamesFrom ts (i + 1)
  else some []
termination_by ts.length - i
decreasing_by
  · have := typedefNameAt_advances h hn
    omega
  all_goals omega

theorem surveyTypeNames_typedef {t : Token} {ts : List Token} (h : t.kind = .keyword .typedef) :
    surveyTypeNames (t :: ts) =
      (typedefName (statement 0 ts).1).toList ++ surveyTypeNames (statement 0 ts).2 := by
  rw [surveyTypeNames, h]

theorem surveyTypeNames_directive {t : Token} {ts : List Token} {line : String}
    (h : t.kind = .directive line) :
    surveyTypeNames (t :: ts) = (directiveName line).toList ++ surveyTypeNames ts := by
  rw [surveyTypeNames, h]

theorem surveyTypeNames_other {t : Token} {ts : List Token} (h1 : t.kind ≠ .keyword .typedef)
    (h2 : ∀ line, t.kind ≠ .directive line) : surveyTypeNames (t :: ts) = surveyTypeNames ts := by
  rw [surveyTypeNames]
  split
  · exact absurd ‹_› h1
  · exact absurd ‹_› (h2 _)
  · rfl

theorem typeNamesFrom_eq {ts : List Token} {i : Nat} (hi : i ≤ ts.length) :
    typeNamesFrom ts i = some (surveyTypeNames (ts.drop i)) := by
  fun_induction typeNamesFrom ts i with
  | case1 i hlt _ hn =>
    rw [typedefNameAt_eq hlt] at hn
    cases hn
  | case2 i hlt hk name next hn ih =>
    rw [typedefNameAt_eq hlt, Option.some.injEq, Prod.mk.injEq] at hn
    obtain ⟨rfl, rfl⟩ := hn
    rw [ih (Nat.min_le_right _ _), drop_statementEnd 0 hlt, List.drop_eq_getElem_cons hlt,
      surveyTypeNames_typedef hk]
    rfl
  | case3 i hlt line hk ih =>
    rw [ih hlt, List.drop_eq_getElem_cons hlt, surveyTypeNames_directive hk]
    rfl
  | case4 i hlt h1 h2 ih =>
    rw [ih hlt, List.drop_eq_getElem_cons hlt, surveyTypeNames_other h1 h2]
  | case5 i hge =>
    rw [List.drop_of_length_le (by omega)]
    simp [surveyTypeNames]

/-- The path an `import` keyword directly followed by a string literal names. -/
def importPath? (pair : Token × Token) : Option String :=
  match pair.1.kind, pair.2.kind with
  | .keyword .import_, .string path => some path
  | _, _ => none

theorem surveyImports_eq_pairs (ts : List Token) :
    surveyImports ts = (ts.zip ts.tail).filterMap importPath? := by
  fun_induction surveyImports ts with
  | case1 a b rest path hb ha ih =>
    have hsome : importPath? (a, b) = some path := by simp [importPath?, ha, hb]
    rw [List.tail_cons] at ih
    rw [List.tail_cons, List.zip_cons_cons, List.filterMap_cons_some hsome, ← ih]
  | case2 a b rest hno ih =>
    have hnone : importPath? (a, b) = none := by
      unfold importPath?
      split
      · exact absurd ‹_› (hno _ ‹_›)
      · rfl
    rw [List.tail_cons] at ih
    rw [List.tail_cons, List.zip_cons_cons, List.filterMap_cons_none hnone, ← ih]
  | case3 ts hshort =>
    rcases ts with _ | ⟨a, _ | ⟨b, rest⟩⟩
    · rfl
    · rfl
    · exact absurd rfl (hshort a b rest)

/-- Surveying a token list by indices never fails, whatever the tokens: however unbalanced its
brackets, with a typedef at the very end, a stray `)` or a missing `;`, no slice is out of order
or past the end and no depth counter goes below zero. The scan ends, since each typedef moves its
index forward, and finds exactly the names `surveyTypeNames` reports; the import survey reads
each adjacent pair of tokens once. -/
theorem scan_total (ts : List Token) :
    typeNamesFrom ts 0 = some (surveyTypeNames ts) ∧
      surveyImports ts = (ts.zip ts.tail).filterMap importPath? :=
  ⟨typeNamesFrom_eq (Nat.zero_le _), surveyImports_eq_pairs ts⟩

end Survey

end ModularC
