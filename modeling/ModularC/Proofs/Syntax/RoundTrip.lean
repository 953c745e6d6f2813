import ModularC.Syntax.Parse
import ModularC.Syntax.Print

/-!
Printing a module and reading it back.
-/

namespace ModularC

theorem lineBody_cons {c : Char} {r : List Char} (hc : c ≠ '\n')
    (hb : c = '\\' → r.head? ≠ some '\n') : lineBody (c :: r) = c :: lineBody r :=
  lineBody.eq_4 c r hc fun _ hc' hr => hb hc' (by simp [hr])

/-- A line that ends in a backslash goes on after its newline. -/
theorem lineBody_append_continued {cs r : List Char} (h : '\n' ∉ cs) :
    lineBody (cs ++ '\\' :: '\n' :: r) = cs ++ '\\' :: '\n' :: lineBody r := by
  induction cs with
  | nil => simp [lineBody]
  | cons c cs ih =>
    simp only [List.mem_cons, not_or] at h
    have hnext : c = '\\' → (cs ++ '\\' :: '\n' :: r).head? ≠ some '\n' := by
      intro _
      cases cs with
      | nil => simp
      | cons d ds =>
        simp only [List.mem_cons, not_or] at h
        simpa using Ne.symm h.2.1
    rw [List.cons_append, lineBody_cons (Ne.symm h.1) hnext, ih h.2, List.cons_append]

/-- A line that does not end in a backslash stops at its newline. -/
theorem lineBody_append_newline {cs r : List Char} (h : '\n' ∉ cs)
    (hb : cs.getLast? ≠ some '\\') : lineBody (cs ++ '\n' :: r) = cs := by
  induction cs with
  | nil => simp [lineBody]
  | cons c cs ih =>
    simp only [List.mem_cons, not_or] at h
    have hb' : cs.getLast? ≠ some '\\' := by
      cases cs with
      | nil => simp
      | cons d ds => simpa [List.getLast?_cons_cons] using hb
    -- a backslash here is not the last character, so a character other than a newline follows
    have hnext : c = '\\' → (cs ++ '\n' :: r).head? ≠ some '\n' := by
      intro hc
      cases cs with
      | nil => simp [hc] at hb
      | cons d ds =>
        simp only [List.mem_cons, not_or] at h
        simpa using Ne.symm h.2.1
    rw [List.cons_append, lineBody_cons (Ne.symm h.1) hnext, ih h.2 hb']

/-- A macro line whose last character before the blank at its end is a backslash, then a
variable. -/
def continuedMacroSource : String := "#define A \\ \nint x;\n"

/-- Read, the source gives two elements, the macro with its blank trimmed; printed, the macro's
backslash stands right before its newline, and read again the text gives one element. -/
theorem continuedMacro_reparse :
    ∃ m m', Module.parse continuedMacroSource TypeNames.empty "t.c" = .ok m ∧
      m.elements.length = 2 ∧ Module.parse m.render TypeNames.empty "t.c" = .ok m' ∧
      m'.elements.length = 1 := by
  have hfirst : (Module.parse continuedMacroSource TypeNames.empty "t.c").toOption.map
      (fun m => (m.elements.length, m.render)) = some (2, "#define A \\\nint x;\n") := by
    decide +kernel
  have hsecond : (Module.parse "#define A \\\nint x;\n" TypeNames.empty "t.c").toOption.map
      (·.elements.length) = some 1 := by
    decide +kernel
  cases h : Module.parse continuedMacroSource TypeNames.empty "t.c" with
  | error e => simp [h, Except.toOption] at hfirst
  | ok m =>
    simp only [h, Except.toOption, Option.map_some, Option.some.injEq, Prod.mk.injEq] at hfirst
    obtain ⟨hlen, hrender⟩ := hfirst
    rw [← hrender] at hsecond
    cases h' : Module.parse m.render TypeNames.empty "t.c" with
    | error e => simp [h', Except.toOption] at hsecond
    | ok m' =>
      simp only [h', Except.toOption, Option.map_some, Option.some.injEq] at hsecond
      exact ⟨m, m', rfl, hlen, h', hsecond⟩

/-- An expression read by precedence climbing from the weakest floor over `tokens`, knowing the type
names `names`, and the index of the token where it stops. -/
def Expr.read (tokens : List Token) (names : TypeNames) : Except Error (Expr × Nat) :=
  let src := Source.ofTokens tokens ""
  match (((Parse.expr (Parse.fuelFor src.tokens.size) 0).run src).run).run (Reader.start names) with
  | (.ok e, r) => .ok (e, r.index)
  | (.error e, _) => .error e

/-- The expression read from `1 .b` stops at the end of input and prints as `1.b`, whose only
token before the end of input is a lexer error. -/
theorem numberMember_render_lexError :
    ∃ e, Expr.read (tokenize "1 .b") TypeNames.empty = .ok (e, 3) ∧ e.render = "1.b" ∧
      (tokenize e.render).map Token.kind =
        [.error "invalid suffix `b` on numeric literal `1.`", .eof] := by
  have h : (Expr.read (tokenize "1 .b") TypeNames.empty).toOption.map
      (fun p => (p.2, p.1.render)) = some (3, "1.b") := by
    decide +kernel
  cases hr : Expr.read (tokenize "1 .b") TypeNames.empty with
  | error e => simp [hr, Except.toOption] at h
  | ok p =>
    obtain ⟨e, i⟩ := p
    simp only [hr, Except.toOption, Option.map_some, Option.some.injEq, Prod.mk.injEq] at h
    obtain ⟨rfl, hrender⟩ := h
    refine ⟨e, rfl, hrender, ?_⟩
    rw [hrender]
    decide +kernel

end ModularC
