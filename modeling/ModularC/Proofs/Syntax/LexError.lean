import ModularC.Proofs.Syntax.Grammar

/-!
Lexer errors reach the result of a parse (`Module.parse_lexError`).
-/

namespace ModularC

namespace Parse

variable {src : Source} {k : Nat} {msg : String}

/-- Every rule of the grammar, run with `fuel` from a reader within the token `k`, stays within
it and fails only as `Reported` says; `elements` does not succeed at all. -/
structure GrammarWithin (src : Source) (k : Nat) (msg : String) (fuel : Nat) : Prop where
  qualifiers : Bounded src k msg (qualifiers fuel)
  pointerList : Bounded src k msg (pointerList fuel)
  expr : ∀ floor, Bounded src k msg (expr fuel floor)
  exprRest : ∀ floor lhs, Bounded src k msg (exprRest fuel floor lhs)
  unary : Bounded src k msg (unary fuel)
  parenType : Bounded src k msg (parenType fuel)
  trailers : ∀ e, Bounded src k msg (trailers fuel e)
  callArgs : Bounded src k msg (callArgs fuel)
  atom : Bounded src k msg (atom fuel)
  structMembers : Bounded src k msg (structMembers fuel)
  arrayEntries : Bounded src k msg (arrayEntries fuel)
  typeName : Bounded src k msg (typeName fuel)
  baseParts : ∀ hasBase, Bounded src k msg (baseParts fuel hasBase)
  baseType : Bounded src k msg (baseType fuel)
  record : ∀ t : Token, t.kind.stops = false → BoundedAt src k msg t (record fuel)
  fields : Bounded src k msg (fields fuel)
  enumerators : Bounded src k msg (enumerators fuel)
  declarators : ∀ base f, Bounded src k msg (declarators fuel base f)
  declaratorList : ∀ f, Bounded src k msg (declaratorList fuel f)
  form : ∀ anonymousOk, Bounded src k msg (form fuel anonymousOk)
  modifiers : Bounded src k msg (modifiers fuel)
  params : Bounded src k msg (params fuel)
  paramList : Bounded src k msg (paramList fuel)
  block : Bounded src k msg (block fuel)
  blockItems : Bounded src k msg (blockItems fuel)
  stmt : Bounded src k msg (stmt fuel)
  simpleStmt : Bounded src k msg (simpleStmt fuel)
  condition : Bounded src k msg (condition fuel)
  forStmt : Bounded src k msg (forStmt fuel)
  switchStmt : Bounded src k msg (switchStmt fuel)
  switchCases : ∀ cases, Bounded src k msg (switchCases fuel cases)
  typedefElement : ∀ exported, Bounded src k msg (typedefElement fuel exported)
  recordDefinition : ∀ exported (t : Token), t.kind.stops = false →
    BoundedAt src k msg t (recordDefinition fuel exported)
  recordForward : ∀ t : Token, t.kind.stops = false → BoundedAt src k msg t (recordForward fuel)
  declarationElement : Bounded src k msg (declarationElement fuel)
  element : Bounded src k msg (element fuel)
  elements : Triple src (Within src k) (elements fuel) (fun _ _ => False)
    fun e r => Within src k r ∧ Reported src k msg e

section Rules

variable (hk : src.ErrorAt k msg)
include hk

/-- Within the token `k`: places before it, and the failures `Reported` names. -/
theorem withinDiscipline :
    Discipline src (Within src k) (· < (src.peekAt k 0).pos) (Reported src k msg) where
  step _ hr hgo := ⟨hr.index_lt hk hgo, hr.2⟩
  tokenPos _ hr hgo := hr.pos_lt hk hgo
  namePos _ hr := hr.2
  remember _ _ hr hp := ⟨hr.1, hp⟩
  rewind _ _ _ _ h₀ h := ⟨h₀.1, h.2⟩
  error _ expected hr := reported_error hk hr.1 expected
  redefinition p _ hp := .inr ⟨p, rfl, hp⟩
  pubVariable p _ hp := .inr ⟨p, rfl, hp⟩
  exhaust _ hr := hr

omit hk in
theorem GrammarWithin.rulesKept {fuel : Nat} (g : GrammarWithin src k msg fuel) :
    RulesKept src (Within src k) (Reported src k msg) fuel :=
  { g with elements := g.elements.mono (fun _ h => h) (fun _ _ h => h.elim) fun _ _ h => h }

theorem GrammarWithin.zero : GrammarWithin src k msg 0 :=
  { RulesKept.zero (withinDiscipline hk) with
    elements := (withinDiscipline hk).regime.exhausted_kept (withinDiscipline hk).exhaust }

theorem elements_fails {fuel : Nat} (ih : GrammarWithin src k msg fuel) :
    Triple src (Within src k) (elements (fuel + 1)) (fun _ _ => False)
      fun e r => Within src k r ∧ Reported src k msg e := by
  rw [elements]
  refine Triple.peek.bind fun t => Triple.of_pre (fun _ h => h.2 ▸ h.1.isEof_eq_false hk)
    fun hgo => ?_
  rw [if_neg (by rw [hgo]; decide)]
  exact (ih.element.strengthen fun _ hr => hr.1).bind fun _ => ih.elements.bind fun _ =>
    Triple.pure fun _ h => h

theorem GrammarWithin.succ {fuel : Nat} (ih : GrammarWithin src k msg fuel) :
    GrammarWithin src k msg (fuel + 1) :=
  { RulesKept.succ (withinDiscipline hk) ih.rulesKept with
    elements := elements_fails hk ih }

end Rules

theorem grammarWithin (hk : src.ErrorAt k msg) : ∀ fuel, GrammarWithin src k msg fuel
  | 0 => .zero hk
  | fuel + 1 => (grammarWithin hk fuel).succ hk

end Parse

/-! ### A text with an error token -/

theorem Token.isEof_of_stops {t : Token} (h : t.kind.stops = false) : t.isEof = false := by
  rw [Token.isEof]
  cases hkind : t.kind <;> simp_all [TokenKind.stops]

theorem Source.ofTokens_tokens {tokens : List Token} {t : Token} {file : String}
    (h : tokens.getLast? = some t) (ht : t.isEof = true) :
    (Source.ofTokens tokens file).tokens = tokens.toArray := by
  simp [Source.ofTokens, h, ht]

theorem Source.peekAt_ofTokens {tokens : List Token} {t : Token} {file : String}
    (h : tokens.getLast? = some t) (ht : t.isEof = true) {j : Nat} (hj : j + 1 < tokens.length) :
    (Source.ofTokens tokens file).peekAt j 0 = tokens[j] := by
  rw [Source.peekAt, Source.ofTokens_tokens h ht, List.size_toArray,
    Nat.min_eq_left (by omega), Nat.add_zero, Array.getD_eq_getD_getElem?, List.getElem?_toArray,
    List.getElem?_eq_getElem (by omega), Option.getD_some]

section ErrorToken

variable {s file : String} {body : List Token} {x : Token} {p : Position}
  (h : tokenize s = body ++ [x, ⟨.eof, p⟩])
include h

theorem Source.peekAt_tokenize {j : Nat} (hj : j + 1 < (tokenize s).length) :
    (Source.ofTokens (tokenize s) file).peekAt j 0 = (tokenize s)[j] := by
  have hlast : (tokenize s).getLast? = some ⟨.eof, p⟩ := by simp [h]
  exact Source.peekAt_ofTokens hlast rfl hj

theorem Source.peekAt_tokenize_body {j : Nat} (hj : j < body.length) :
    (Source.ofTokens (tokenize s) file).peekAt j 0 = body[j] := by
  rw [Source.peekAt_tokenize h (by rw [h]; simp; omega), List.getElem_of_eq h,
    List.getElem_append_left hj]

theorem Source.peekAt_tokenize_last :
    (Source.ofTokens (tokenize s) file).peekAt body.length 0 = x := by
  rw [Source.peekAt_tokenize h (by rw [h]; simp), List.getElem_of_eq h]
  simp

theorem Source.ofTokens_errorAt {m : String} (hbody : ∀ t ∈ body, t.kind.stops = false)
    (hm : x.kind = .error m) : (Source.ofTokens (tokenize s) file).ErrorAt body.length m := by
  have hord := tokenize_pos_lt_error h
  refine ⟨?_, fun j hj => ?_, fun j hj => ?_, ?_⟩
  · rw [Source.peekAt_tokenize_last h, hm]
  · rw [Source.peekAt_tokenize_body h hj]
    exact Token.isEof_of_stops (hbody _ (List.getElem_mem hj))
  · rw [Source.peekAt_tokenize_body h hj, Source.peekAt_tokenize_last h]
    exact hord.1 _ (List.getElem_mem hj)
  · rw [Source.peekAt_tokenize_last h]
    exact hord.2

end ErrorToken

/-- An error token of the lexer is never swallowed: the text does not parse, and the error is the
lexer's, with its place and message, or one that names a place before it. Every rule of the
grammar, with any fuel and speculative ones included, keeps the cursor at or before the error
token. -/
theorem Module.parse_lexError {s path : String} {names : TypeNames} {x : Token} {m : String}
    (hx : x ∈ tokenize s) (hm : x.kind = .error m) :
    ∃ k, (tokenize s)[k]? = some x ∧
      (∀ fuel, Parse.GrammarWithin (Source.ofTokens (tokenize s) path) k m fuel) ∧
      ∃ e, Module.parse s names path = .error e ∧
        (e = .lex path x.pos m ∨ ∃ p, e.pos? = some p ∧ p < x.pos) := by
  obtain ⟨body, p, hbody, hshape⟩ := tokenize_shape s
  have hnot : x ∉ body := fun hb => by simpa [hm, TokenKind.stops] using hbody x hb
  have h : tokenize s = body ++ [x, ⟨.eof, p⟩] := by
    rcases hshape with h | ⟨m', q, h⟩
    · rw [h] at hx
      simp [hnot] at hx
      simp [hx] at hm
    · rw [h] at hx
      simp [hnot] at hx
      rcases hx with rfl | rfl
      · exact h
      · simp at hm
  have hk : (Source.ofTokens (tokenize s) path).ErrorAt body.length m :=
    Source.ofTokens_errorAt h hbody hm
  have hlast : (Source.ofTokens (tokenize s) path).peekAt body.length 0 = x :=
    Source.peekAt_tokenize_last h
  refine ⟨body.length, by simp [h], Parse.grammarWithin hk, ?_⟩
  -- the parse starts within the error token, and `elements` cannot succeed
  have hstart : Parse.Within (Source.ofTokens (tokenize s) path) body.length (Reader.start names) :=
    ⟨Nat.zero_le _, hk.origin⟩
  have hrun := (Parse.grammarWithin hk
    (Parse.fuelFor (Source.ofTokens (tokenize s) path).tokens.size)).elements _ hstart
  unfold Module.parse Module.ofTokens
  dsimp only
  split
  next es r hres =>
    rw [hres] at hrun
    exact hrun.elim
  next e r hres =>
    rw [hres] at hrun
    obtain ⟨_, hrep⟩ := hrun
    rw [Parse.Reported, hlast] at hrep
    exact ⟨e, rfl, hrep⟩

/-- A declaration followed by a comment that is never closed. -/
def unclosedCommentSource : String := "int x; /* open"

/-- The lexer's error for `unclosedCommentSource`, where the comment opens. -/
def unclosedCommentError : Token := ⟨.error "unterminated comment", ⟨1, 8⟩⟩

theorem unclosedComment_parse_lexError :
    unclosedCommentError ∈ tokenize unclosedCommentSource ∧
      unclosedCommentError.kind = .error "unterminated comment" ∧
      ∃ k, (tokenize unclosedCommentSource)[k]? = some unclosedCommentError ∧
        (∀ fuel, Parse.GrammarWithin (Source.ofTokens (tokenize unclosedCommentSource) "t.c") k
          "unterminated comment" fuel) ∧
        ∃ e, Module.parse unclosedCommentSource TypeNames.empty "t.c" = .error e ∧
          (e = .lex "t.c" unclosedCommentError.pos "unterminated comment" ∨
            ∃ p, e.pos? = some p ∧ p < unclosedCommentError.pos) := by
  have hx : unclosedCommentError ∈ tokenize unclosedCommentSource := by decide +kernel
  exact ⟨hx, rfl, Module.parse_lexError hx rfl⟩

/-- Two typedefs of one name, each a pointer to a function with a named parameter. -/
def pointerTypedefTwiceSource : String := "typedef int (*h)(int x);\ntypedef int (*h)(int x);\n"

/-- A variable marked `pub` whose array size reads a member. -/
def pubMemberSizeSource : String := "pub int a[x.y];\n"

/-- The place of the last name read is all a declaration error can name, and a declarator reads
names after its own: a parameter's, or a member's in an array size. The second typedef `h` (its
name at 2:15) is a redefinition reported at the parameter `x` (2:22), and the variable `a` (at
1:9) marked `pub` is reported at the member `y` (1:13). -/
theorem declarationError_names_lastWord :
    Module.parse pointerTypedefTwiceSource TypeNames.empty "t.c" =
        .error (.redefinition "t.c" ⟨2, 22⟩ "h") ∧
      ((tokenize pointerTypedefTwiceSource).map fun t => (t.kind, t.pos))[15]? =
        some (.word "h", ⟨2, 15⟩) ∧
      Module.parse pubMemberSizeSource TypeNames.empty "t.c" =
        .error (.pubVariable "t.c" ⟨1, 13⟩ "a") ∧
      ((tokenize pubMemberSizeSource).map fun t => (t.kind, t.pos))[2]? = some (.word "a", ⟨1, 9⟩) := by
  have hredef : (match Module.parse pointerTypedefTwiceSource TypeNames.empty "t.c" with
      | .error e => some e
      | .ok _ => none) = some (.redefinition "t.c" ⟨2, 22⟩ "h") := by
    decide +kernel
  have hpub : (match Module.parse pubMemberSizeSource TypeNames.empty "t.c" with
      | .error e => some e
      | .ok _ => none) = some (.pubVariable "t.c" ⟨1, 13⟩ "a") := by
    decide +kernel
  refine ⟨?_, by decide +kernel, ?_, by decide +kernel⟩
  · revert hredef
    cases Module.parse pointerTypedefTwiceSource TypeNames.empty "t.c" <;> simp
  · revert hpub
    cases Module.parse pubMemberSizeSource TypeNames.empty "t.c" <;> simp

end ModularC
