import ModularC.Proofs.Syntax.LexError
import ModularC.Proofs.Syntax.Parsed
import ModularC.Token.Survey

/-!
The imports a parse builds are the ones its tokens announce (`Module.ofTokens_importPaths`).
-/

namespace ModularC

/-- The path an element imports, if it is an import. -/
def Element.importPath? : Element → Option String
  | .import_ i => some i.path
  | _ => none

/-! ### The survey of a token stream -/

section Survey

theorem surveyImports_cons_of_ne {a : Token} (ha : a.kind ≠ .keyword .import_) (rest : List Token) :
    surveyImports (a :: rest) = surveyImports rest := by
  cases rest with
  | nil => rfl
  | cons b rest =>
    rw [surveyImports]
    split
    next hka _ => exact absurd hka ha
    next => rfl

theorem surveyImports_import {a b : Token} {path : String} (ha : a.kind = .keyword .import_)
    (hb : b.kind = .string path) (rest : List Token) :
    surveyImports (a :: b :: rest) = path :: surveyImports (b :: rest) := by
  rw [surveyImports, ha, hb]

theorem surveyImports_drop_of_free {ts : List Token} {i k : Nat} (hik : i ≤ k)
    (h : ∀ j (hj : j < ts.length), i ≤ j → j < k → ts[j].kind ≠ .keyword .import_) :
    surveyImports (ts.drop i) = surveyImports (ts.drop k) := by
  induction hd : k - i generalizing i with
  | zero => rw [show i = k by omega]
  | succ d ih =>
    by_cases hi : i < ts.length
    · rw [List.drop_eq_getElem_cons hi, surveyImports_cons_of_ne (h i hi le_rfl (by omega))]
      exact ih (by omega) (fun j hj hij hjk => h j hj (by omega) hjk) (by omega)
    · rw [List.drop_eq_nil_of_le (by omega), List.drop_eq_nil_of_le (by omega)]

theorem surveyImports_append_eof (ts : List Token) (p : Position) :
    surveyImports (ts ++ [⟨.eof, p⟩]) = surveyImports ts := by
  induction ts with
  | nil => rfl
  | cons a rest ih =>
    cases rest with
    | nil =>
      rw [List.singleton_append, surveyImports]
      split
      next heof => cases heof
      next => rfl
    | cons b rest =>
      rw [List.cons_append, List.cons_append, surveyImports, surveyImports, ← List.cons_append, ih]

end Survey

/-! ### Sources that end once -/

/-- The source ends in an end of input, and no token before the last is one. -/
structure Source.EndsOnce (src : Source) : Prop where
  last : (src.peekAt (src.tokens.size - 1) 0).isEof = true
  once : ∀ j (hj : j + 1 < src.tokens.size), src.tokens[j].isEof = false

namespace Source

variable {src : Source}

theorem peekAt_of_lt {j : Nat} (hj : j < src.tokens.size) : src.peekAt j 0 = src.tokens[j] := by
  rw [peekAt, Nat.add_zero, Nat.min_eq_left (by omega), Array.getD_eq_getD_getElem?,
    Array.getElem?_eq_getElem hj, Option.getD_some]

theorem peekAt_of_le {j : Nat} (hj : src.tokens.size - 1 ≤ j) :
    src.peekAt j 0 = src.peekAt (src.tokens.size - 1) 0 := by
  rw [peekAt, peekAt, Nat.add_zero, Nat.add_zero, Nat.min_eq_right hj, Nat.min_self]

theorem EndsOnce.lt_of_isEof {j : Nat} (hs : src.EndsOnce) (hj : (src.peekAt j 0).isEof = false) :
    j + 1 < src.tokens.size := by
  by_contra hlt
  rw [peekAt_of_le (by omega), hs.last] at hj
  cases hj

theorem EndsOnce.surveyImports_drop {j : Nat} (hs : src.EndsOnce)
    (hj : (src.peekAt j 0).isEof = true) : surveyImports (src.tokens.toList.drop j) = [] := by
  have hle : src.tokens.size ≤ j + 1 := by
    by_contra hlt
    rw [peekAt_of_lt (by omega), hs.once j (by omega)] at hj
    cases hj
  rcases Nat.lt_or_ge j src.tokens.size with hlt | hge
  · rw [List.drop_eq_getElem_cons (by simpa using hlt),
      List.drop_eq_nil_of_le (by simp; omega)]
    rfl
  · rw [List.drop_eq_nil_of_le (by simpa using hge)]
    rfl

theorem EndsOnce.surveyImports_drop_import {i : Nat} {path : String} (hs : src.EndsOnce)
    (hi : (src.peekAt i 0).kind = .keyword .import_)
    (hp : (src.peekAt (i + 1) 0).kind = .string path) :
    surveyImports (src.tokens.toList.drop i) =
      path :: surveyImports (src.tokens.toList.drop (i + 1)) := by
  have hlt : i + 1 + 1 < src.tokens.size := hs.lt_of_isEof (by rw [Token.isEof, hp]; rfl)
  rw [List.drop_eq_getElem_cons (by simp; omega),
    List.drop_eq_getElem_cons (i := i + 1) (by simp; omega)]
  refine surveyImports_import ?_ ?_ _
  · rwa [Array.getElem_toList, ← peekAt_of_lt]
  · rwa [Array.getElem_toList, ← peekAt_of_lt]

theorem ofTokens_tokens_toList (tokens : List Token) (file : String) :
    (ofTokens tokens file).tokens.toList = tokens ∨
      ∃ p, (ofTokens tokens file).tokens.toList = tokens ++ [⟨.eof, p⟩] := by
  unfold ofTokens
  split
  next t ht =>
    split
    · exact .inl rfl
    · exact .inr ⟨t.pos, rfl⟩
  next ht =>
    rw [List.getLast?_eq_none_iff] at ht
    exact .inr ⟨⟨0, 0⟩, by rw [ht]; rfl⟩

theorem endsOnce_of_eq (pre : List Token) (p : Position)
    (h : src.tokens.toList = pre ++ [⟨.eof, p⟩]) (hpre : ∀ t ∈ pre, t.isEof = false) :
    src.EndsOnce := by
  have hsize : src.tokens.size = pre.length + 1 := by
    rw [← Array.length_toList, h, List.length_append, List.length_singleton]
  refine ⟨?_, fun j hj => ?_⟩
  · rw [hsize, Nat.add_sub_cancel, peekAt_of_lt (by omega), ← Array.getElem_toList,
      List.getElem_of_eq h, List.getElem_append_right (Nat.le_refl _)]
    simp [Token.isEof]
  · rw [← Array.getElem_toList, List.getElem_of_eq h, List.getElem_append_left (by omega)]
    exact hpre _ (List.getElem_mem _)

theorem ofTokens_endsOnce {tokens : List Token} (file : String)
    (hts : ∀ t ∈ tokens.dropLast, t.isEof = false) : (ofTokens tokens file).EndsOnce := by
  unfold ofTokens
  split
  next t ht =>
    obtain ⟨pre, rfl⟩ := List.getLast?_eq_some_iff.1 ht
    rw [List.dropLast_concat] at hts
    obtain ⟨kind, pos⟩ := t
    split
    next heof =>
      simp only [Token.isEof, beq_iff_eq] at heof
      subst heof
      exact endsOnce_of_eq pre pos rfl hts
    next hgo =>
      refine endsOnce_of_eq (pre ++ [⟨kind, pos⟩]) pos rfl fun u hu => ?_
      rw [List.mem_append, List.mem_singleton] at hu
      rcases hu with hu | rfl
      · exact hts u hu
      · simpa using hgo
  next => exact endsOnce_of_eq [] ⟨0, 0⟩ rfl fun _ h => by cases h

theorem surveyImports_ofTokens (tokens : List Token) (file : String) :
    surveyImports (ofTokens tokens file).tokens.toList = surveyImports tokens := by
  rcases ofTokens_tokens_toList tokens file with h | ⟨p, h⟩
  · rw [h]
  · rw [h, surveyImports_append_eof]

end Source

/-! ### Rules that take no `import` keyword -/

namespace Parse

variable {α : Type} {src : Source}

/-- Since the token `i`, the reader has taken no `import` keyword. -/
def ImportFree (src : Source) (i : Nat) (r : Reader) : Prop :=
  i ≤ r.index ∧ ∀ j, i ≤ j → j < r.index → (src.peekAt j 0).kind ≠ .keyword .import_

theorem TokenKind.ne_import_of_blocks {k : TokenKind} (h : k.blocks false = false) :
    k ≠ .keyword .import_ := by
  rintro rfl
  cases h

/-- Taking no `import` keyword is a regime with imports off. -/
theorem importFree (src : Source) (i : Nat) :
    Regime src false (ImportFree src i) (fun _ => True) fun _ => True where
  step r hr h := by
    refine ⟨Nat.le_succ_of_le hr.1, fun j hij hj => ?_⟩
    rcases Nat.lt_succ_iff_lt_or_eq.1 hj with hj | rfl
    · exact hr.2 j hij hj
    · exact TokenKind.ne_import_of_blocks h
  tokenPos _ _ _ := trivial
  namePos _ _ := trivial
  remember _ _ hr _ := hr
  rewind _ _ _ _ h₀ _ := h₀
  error _ _ _ := trivial
  redefinition _ _ _ := trivial
  pubVariable _ _ _ := trivial

theorem ImportFree.surveyImports_drop {i : Nat} {r : Reader} (h : ImportFree src i r) :
    surveyImports (src.tokens.toList.drop i) = surveyImports (src.tokens.toList.drop r.index) := by
  refine surveyImports_drop_of_free h.1 fun j hj hij hjr => ?_
  have hlt : j < src.tokens.size := by simpa using hj
  have hne := h.2 j hij hjr
  rwa [Source.peekAt_of_lt hlt, ← Array.getElem_toList] at hne

theorem Triple.and_ensures {P : Reader → Prop} {Q : α → Reader → Prop}
    {E : Error → Reader → Prop} {p : Parse α} {R : α → Prop} (h : Triple src P p Q E)
    (he : Ensures src p R) : Triple src P p (fun a r => Q a r ∧ R a) E := by
  intro r hr
  have hq := h r hr
  rcases hrun : (p.run src).run.run r with ⟨_ | a, r'⟩ <;> simp only [hrun] at hq ⊢
  · exact hq
  · exact ⟨hq, he r a r' hrun⟩

theorem Triple.fail {P : Reader → Prop} {Q : α → Reader → Prop} (expected : String) :
    Triple src P (fail expected) Q fun _ _ => True := by
  unfold Parse.fail
  exact Triple.read.bind fun _ => Triple.get.bind fun _ => Triple.throw fun _ _ => trivial

theorem Triple.exhausted {P : Reader → Prop} {Q : α → Reader → Prop} :
    Triple src P exhausted Q fun _ _ => True := by
  unfold Parse.exhausted
  exact (Triple.modify (Q := fun _ _ => True) fun _ _ => trivial).bind fun _ => Triple.fail _

/-! ### No rule below `element` gives an import -/

theorem ensures_directiveElement_importPath (line : String) (pos : Position) :
    Ensures src (directiveElement line pos) fun e => e.importPath? = none := by
  unfold directiveElement
  split
  · exact (Ensures.trivial _).bind fun _ _ => Ensures.pure rfl
  · exact Ensures.pure rfl
  · exact Ensures.pure rfl

theorem ensures_typedefElement_importPath : ∀ fuel exported,
    Ensures src (typedefElement fuel exported) fun e => e.importPath? = none
  | 0, _ => ensures_exhausted
  | fuel + 1, exported => by
    rw [typedefElement]
    refine (Ensures.trivial _).bind fun _ _ => (Ensures.trivial _).bind fun _ _ =>
      (Ensures.trivial _).bind fun f _ => ?_
    split
    · exact ensures_fail
    · exact (Ensures.trivial _).bind fun _ _ => (Ensures.trivial _).bind fun _ _ =>
        (Ensures.trivial _).bind fun _ _ => Ensures.pure rfl

theorem ensures_recordDefinition_importPath : ∀ fuel exported,
    Ensures src (recordDefinition fuel exported) fun e => e.importPath? = none
  | 0, _ => ensures_exhausted
  | fuel + 1, exported => by
    rw [recordDefinition]
    refine (Ensures.trivial _).bind fun r _ => (Ensures.trivial _).bind fun _ _ => ?_
    split
    · exact Ensures.pure rfl
    · exact Ensures.pure rfl
    · exact ensures_fail

theorem ensures_recordForward_importPath : ∀ fuel,
    Ensures src (recordForward fuel) fun e => e.importPath? = none
  | 0 => ensures_exhausted
  | fuel + 1 => by
    rw [recordForward]
    refine (Ensures.trivial _).bind fun t _ => ?_
    extract_lets +lift jp
    have hjp : ∀ kind, Ensures src (jp kind) fun e => e.importPath? = none := fun _ =>
      (Ensures.trivial _).bind fun _ _ => (Ensures.trivial _).bind fun _ _ => Ensures.pure rfl
    split <;> exact (Ensures.trivial _).bind fun kind _ => hjp kind

theorem ensures_declarationElement_importPath : ∀ fuel,
    Ensures src (declarationElement fuel) fun e => e.importPath? = none
  | 0 => ensures_exhausted
  | fuel + 1 => by
    rw [declarationElement]
    refine (Ensures.trivial _).bind fun exported _ => (Ensures.trivial _).bind fun t _ => ?_
    split
    · exact ensures_typedefElement_importPath fuel exported
    extract_lets +lift jp
    have hjp : ∀ u, Ensures src (jp u) fun e => e.importPath? = none := by
      intro u
      refine (Ensures.trivial _).bind fun base _ => (Ensures.trivial _).bind fun f _ => ?_
      split
      · refine (Ensures.trivial _).bind fun _ _ => ?_
        split
        · exact (Ensures.trivial _).bind fun _ _ => Ensures.pure rfl
        · exact (Ensures.trivial _).bind fun _ _ => Ensures.pure rfl
      split
      · exact (Ensures.trivial _).bind fun _ _ => (Ensures.trivial _).bind fun _ _ =>
          (Ensures.trivial _).bind fun _ _ => (Ensures.trivial _).bind fun _ _ => Ensures.pure rfl
      · exact (Ensures.trivial _).bind fun _ _ => Ensures.pure rfl
    split
    · refine (ensures_attempt (ensures_recordDefinition_importPath fuel exported)).bind
        fun o ho => ?_
      split
      · exact Ensures.pure (ho _ rfl)
      refine (ensures_attempt (ensures_recordForward_importPath fuel)).bind fun o' ho' => ?_
      split
      · exact Ensures.pure (ho' _ rfl)
      · exact hjp ()
    · exact hjp ()

/-! ### What each element announces -/

/-- From the token `i` to the reader, the survey lists `paths` and nothing else. -/
def Announced (src : Source) (i : Nat) (paths : List String) (r : Reader) : Prop :=
  surveyImports (src.tokens.toList.drop i) = paths ++ surveyImports (src.tokens.toList.drop r.index)

theorem ImportFree.announced {i : Nat} {r : Reader} (h : ImportFree src i r) :
    Announced src i [] r :=
  h.surveyImports_drop

theorem triple_bump_at (i : Nat) {E : Error → Reader → Prop} :
    Triple src (fun r => r.index = i ∧ (src.peekAt i 0).isEof = false) bump
      (fun t r => t = src.peekAt i 0 ∧ r.index = i + 1) E := by
  unfold bump
  refine (Triple.peekAt 0).bind fun t => ?_
  dsimp only
  split
  · refine (Triple.modify (Q := fun _ r => t = src.peekAt i 0 ∧ r.index = i + 1) ?_).bind fun _ =>
      Triple.pure fun _ h => h
    rintro r ⟨⟨rfl, -⟩, rfl⟩
    exact ⟨rfl, rfl⟩
  next hgo =>
    -- the token under the cursor is no end of input, so it is taken
    refine Triple.of_pre (φ := (src.peekAt i 0).isEof = false ∧ t = src.peekAt i 0)
      (fun r h => ⟨h.1.2, h.1.1 ▸ h.2⟩) fun hφ => ?_
    rw [hφ.2, hφ.1] at hgo
    exact absurd rfl hgo

theorem triple_expectKeyword_at (kw : Keyword) (i : Nat) :
    Triple src (fun r => r.index = i) (expectKeyword kw)
      (fun _ r => (src.peekAt i 0).kind = .keyword kw ∧ r.index = i + 1) fun _ _ => True := by
  unfold expectKeyword
  refine Triple.peek.bind fun t => ?_
  split
  next ht =>
    rw [Token.isKeyword, beq_iff_eq] at ht
    refine Triple.of_pre (fun r h => h.2.trans (congrArg (src.peekAt · 0) h.1)) fun htok => ?_
    refine ((triple_bump_at i).strengthen fun r h => ⟨h.1, ?_⟩).bind fun _ =>
      Triple.pure fun _ h => ⟨htok ▸ ht, h.2⟩
    rw [← htok, Token.isEof, ht]
    rfl
  next => exact Triple.fail _

theorem ImportFree.start {i : Nat} {r : Reader} (h : r.index = i) : ImportFree src i r :=
  ⟨h ▸ le_rfl, fun _ hij hj => absurd hj (by omega)⟩

theorem importElement_announced (hs : src.EndsOnce) (i : Nat) :
    Triple src (fun r => r.index = i) importElement
      (fun e r => Announced src i e.importPath?.toList r) fun _ _ => True := by
  unfold importElement
  refine (triple_expectKeyword_at .import_ i).bind fun pos => Triple.peek.bind fun u => ?_
  split
  next path hu =>
    refine Triple.of_pre (φ := (src.peekAt i 0).kind = .keyword .import_ ∧
        (src.peekAt (i + 1) 0).kind = .string path)
      (fun r h => ⟨h.1.1, by rw [← h.1.2, ← h.2, hu]⟩) fun hφ => ?_
    -- the string and an optional `;` are taken with no `import` keyword among them
    have D := importFree src (i + 1)
    refine (((D.bump_bind (by rw [hu]; rfl) fun _ => (D.kept_consume _).bind fun _ =>
        Kept.pure _).and_ensures (R := fun e => e.importPath? = some path)
        ((Ensures.trivial _).bind fun _ _ => (Ensures.trivial _).bind fun _ _ =>
          Ensures.pure rfl)).strengthen
        fun r h => ⟨ImportFree.start h.1.2, h.2.symm⟩).mono (fun _ h => h) (fun e r h => ?_)
      fun _ _ _ => trivial
    rw [Announced, h.2, hs.surveyImports_drop_import hφ.1 hφ.2, h.1.surveyImports_drop]
    rfl
  next => exact Triple.fail _

theorem announced_of_keptAt {i : Nat} {t : Token} {p : Parse (Option Element)}
    (hk : KeptAt src (ImportFree src i) (fun _ => True) t p)
    (he : Ensures src p fun o => ∀ e ∈ o, e.importPath? = none) :
    Triple src (fun r => r.index = i ∧ t = src.peekAt r.index 0) p
      (fun o r => Announced src i (o.toList.filterMap Element.importPath?) r) fun _ _ => True := by
  refine ((hk.and_ensures he).strengthen fun r h => ⟨ImportFree.start h.1, h.2.symm⟩).mono
    (fun _ h => h) (fun o r h => ?_) fun _ _ _ => trivial
  have hnone : o.toList.filterMap Element.importPath? = [] := by
    cases o with
    | none => rfl
    | some e => simp [h.2 e rfl]
  rw [hnone]
  exact h.1.announced

theorem element_announced (hs : src.EndsOnce) : ∀ fuel i,
    Triple src (fun r => r.index = i) (element fuel)
      (fun o r => Announced src i (o.toList.filterMap Element.importPath?) r) fun _ _ => True
  | 0, _ => Triple.exhausted
  | fuel + 1, i => by
    rw [element]
    refine Triple.peek.bind fun t => ?_
    have D := importFree src i
    split
    next line hkind =>
      exact announced_of_keptAt (D.bump_bind (by rw [hkind]; rfl) fun _ =>
          (kept_directiveElement D trivial).bind fun _ => Kept.pure _)
        ((Ensures.trivial _).bind fun _ _ => (ensures_directiveElement_importPath _ _).bind
          fun e he => Ensures.pure fun e' h => by cases h; exact he)
    next =>
      refine ((importElement_announced hs i).strengthen fun r h => h.1).bind fun e =>
        Triple.pure fun r h => ?_
      have hpaths : [e].filterMap Element.importPath? = e.importPath?.toList := by
        cases hp : e.importPath? <;> simp [hp]
      rwa [Option.toList_some, hpaths]
    next hkind =>
      exact announced_of_keptAt (D.bump_bind (by rw [hkind]; rfl) fun _ => Kept.pure _)
        ((Ensures.trivial _).bind fun _ _ => Ensures.pure fun e h => by cases h)
    next =>
      exact announced_of_keptAt (.of (((D.rules (fun _ hr => hr) fuel).declarationElement).bind
        fun _ =>
          Kept.pure _))
        ((ensures_declarationElement_importPath fuel).bind fun e he =>
          Ensures.pure fun e' h => by cases h; exact he)

theorem elements_announced (hs : src.EndsOnce) : ∀ fuel i,
    Triple src (fun r => r.index = i) (elements fuel)
      (fun es _ => es.filterMap Element.importPath? = surveyImports (src.tokens.toList.drop i))
      fun _ _ => True
  | 0, _ => Triple.exhausted
  | fuel + 1, i => by
    rw [elements]
    refine Triple.peek.bind fun t => ?_
    split
    next heof =>
      refine Triple.pure fun r h => ?_
      rw [hs.surveyImports_drop (h.1 ▸ h.2 ▸ heof)]
      rfl
    next =>
      refine ((element_announced hs fuel i).strengthen fun r h => h.1).bind fun o r₁ hr₁ => ?_
      refine ((elements_announced hs fuel r₁.index).bind fun es =>
        Triple.pure fun r₂ hes => ?_) r₁ rfl
      rw [List.filterMap_append, hes, hr₁]

end Parse

/-- A module parsed from a token stream that has no end of input before its last token imports
exactly the paths that the survey of the stream lists, in order. -/
theorem Module.ofTokens_importPaths {tokens : List Token} {names : TypeNames} {path : String}
    {m : Module} (hts : ∀ t ∈ tokens.dropLast, t.isEof = false)
    (h : Module.ofTokens tokens names path = .ok m) :
    m.elements.filterMap Element.importPath? = surveyImports tokens := by
  have hs := Source.ofTokens_endsOnce path hts
  unfold Module.ofTokens at h
  dsimp only at h
  split at h
  next es r hrun =>
    cases h
    have hann := Parse.elements_announced hs
      (Parse.fuelFor (Source.ofTokens tokens path).tokens.size) 0 (Reader.start names) rfl
    rw [hrun] at hann
    rw [List.drop_zero, Source.surveyImports_ofTokens] at hann
    exact hann
  next => cases h

/-- An end of input, then an import. -/
def earlyEof : List Token :=
  [⟨.eof, ⟨1, 1⟩⟩, ⟨.keyword .import_, ⟨2, 1⟩⟩, ⟨.string "p", ⟨2, 8⟩⟩, ⟨.eof, ⟨2, 11⟩⟩]

/-- Without the end of input only last, the survey and the parser part: the parser stops at the
first end of input and builds no import, while the survey reads on to the import after it. -/
theorem earlyEof_importPaths :
    ∃ m, Module.ofTokens earlyEof TypeNames.empty "t.c" = .ok m ∧
      m.elements.filterMap Element.importPath? = [] ∧ surveyImports earlyEof = ["p"] :=
  ⟨⟨Path.moduleName "t.c", "t.c", [], []⟩, rfl, rfl, rfl⟩

theorem tokenize_dropLast_isEof (s : String) : ∀ t ∈ (tokenize s).dropLast, t.isEof = false := by
  obtain ⟨body, p, hbody, hshape⟩ := tokenize_shape s
  intro t ht
  rcases hshape with h | ⟨m, q, h⟩
  · rw [h, List.dropLast_concat] at ht
    exact Token.isEof_of_stops (hbody t ht)
  · have h' : tokenize s = (body ++ [⟨.error m, q⟩]) ++ [⟨.eof, p⟩] := by
      rw [h, List.append_assoc]
      rfl
    rw [h', List.dropLast_concat, List.mem_append, List.mem_singleton] at ht
    rcases ht with ht | rfl
    · exact Token.isEof_of_stops (hbody t ht)
    · rfl

theorem Module.parse_importPaths {source path : String} {names : TypeNames} {m : Module}
    (h : Module.parse source names path = .ok m) :
    m.elements.filterMap Element.importPath? = surveyImports (tokenize source) :=
  Module.ofTokens_importPaths (tokenize_dropLast_isEof source) h

end ModularC
