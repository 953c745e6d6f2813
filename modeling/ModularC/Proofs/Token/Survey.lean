import Mathlib.Data.List.TakeWhile
import ModularC.Token.Survey
import ModularC.Token.Scan
import ModularC.Syntax.Parse

/-!
What the survey reads off a typedef without braces: the last word before its `;`.
-/

namespace ModularC

namespace Survey

/-- A token the statement splitter passes over at any depth: no `;`, brace or end of input. -/
def isPlain (t : Token) : Bool :=
  match t.kind with
  | .symbol .semicolon | .symbol .lBrace | .symbol .rBrace | .eof => false
  | _ => true

theorem isPlain_isSymbol_lBrace {t : Token} (h : isPlain t = true) : t.isSymbol .lBrace = false := by
  unfold isPlain at h
  split at h
  next => cases h
  next => cases h
  next => cases h
  next => cases h
  next _ _ hbrace _ _ =>
    simp only [Token.isSymbol, beq_eq_false_iff_ne, ne_eq]
    exact hbrace

theorem statement_cons_plain {t : Token} {ts : List Token} {d : Nat} (ht : isPlain t = true) :
    statement d (t :: ts) = (t :: (statement d ts).1, (statement d ts).2) := by
  rw [statement.eq_def]
  simp only
  split <;> simp_all [isPlain]

/-- A declaration of plain tokens is split off at its `;`. -/
theorem statement_plain {body rest : List Token} {q : Position} (h : ∀ t ∈ body, isPlain t = true) :
    statement 0 (body ++ ⟨.symbol .semicolon, q⟩ :: rest) = (body, rest) := by
  induction body with
  | nil => simp [statement]
  | cons t body ih =>
    rw [List.cons_append, statement_cons_plain (h t List.mem_cons_self),
      ih fun u hu => h u (List.mem_cons_of_mem _ hu)]

theorem typedefName_array {pre : List Token} {w : String} {p₁ p₂ p₃ : Position}
    (h : ∀ t ∈ pre, isPlain t = true) :
    typedefName (pre ++ [⟨.symbol .lBracket, p₁⟩, ⟨.word w, p₂⟩, ⟨.symbol .rBracket, p₃⟩]) =
      some w := by
  have hnone : (pre ++ ([⟨.symbol .lBracket, p₁⟩, ⟨.word w, p₂⟩, ⟨.symbol .rBracket, p₃⟩] :
      List Token)).dropWhile (fun t => !t.isSymbol .lBrace) = [] := by
    rw [List.dropWhile_eq_nil_iff]
    intro t ht
    simp only [List.mem_append, List.mem_cons, List.not_mem_nil, or_false] at ht
    rcases ht with ht | rfl | rfl | rfl
    · simp [isPlain_isSymbol_lBrace (h t ht)]
    all_goals simp [Token.isSymbol]
  rw [typedefName, hnone]
  simp only [List.reverse_append, List.reverse_cons, List.reverse_nil, List.nil_append,
    List.cons_append, Token.isSymbol]
  rfl

end Survey

open Survey in
/-- A typedef of an array sized by a name, then more tokens: the survey reports the size's name. -/
theorem surveyTypeNames_array {p q p₁ p₂ p₃ : Position} {pre rest : List Token} {w : String}
    (h : ∀ t ∈ pre, isPlain t = true) :
    surveyTypeNames (⟨.keyword .typedef, p⟩ :: pre ++
      ⟨.symbol .lBracket, p₁⟩ :: ⟨.word w, p₂⟩ :: ⟨.symbol .rBracket, p₃⟩ ::
        ⟨.symbol .semicolon, q⟩ :: rest) = w :: surveyTypeNames rest := by
  have hplain : ∀ t ∈ pre ++ [⟨.symbol .lBracket, p₁⟩, ⟨.word w, p₂⟩, ⟨.symbol .rBracket, p₃⟩],
      isPlain t = true := by
    intro t ht
    simp only [List.mem_append, List.mem_cons, List.not_mem_nil, or_false] at ht
    rcases ht with ht | rfl | rfl | rfl
    · exact h t ht
    all_goals rfl
  have hsplit : statement 0 (pre ++ ⟨.symbol .lBracket, p₁⟩ :: ⟨.word w, p₂⟩ ::
      ⟨.symbol .rBracket, p₃⟩ :: ⟨.symbol .semicolon, q⟩ :: rest) =
      (pre ++ [⟨.symbol .lBracket, p₁⟩, ⟨.word w, p₂⟩, ⟨.symbol .rBracket, p₃⟩], rest) := by
    have hplain' : statement 0 ((pre ++ [⟨.symbol .lBracket, p₁⟩, ⟨.word w, p₂⟩,
        ⟨.symbol .rBracket, p₃⟩]) ++ ⟨.symbol .semicolon, q⟩ :: rest) =
        (pre ++ [⟨.symbol .lBracket, p₁⟩, ⟨.word w, p₂⟩, ⟨.symbol .rBracket, p₃⟩], rest) :=
      statement_plain hplain
    simpa using hplain'
  rw [surveyTypeNames.eq_def]
  simp only [List.cons_append] at hsplit ⊢
  rw [hsplit, typedefName_array h]
  rfl

/-- A typedef of an array sized by `N`. -/
def arrayTypedefSource : String := "typedef int arr[N];"

/-- The parser registers `arr`; the survey of the same tokens reports `N`. -/
theorem arrayTypedef_typeNames :
    ∃ m, Module.parse arrayTypedefSource TypeNames.empty "t.c" = .ok m ∧ m.typeNames = ["arr"] ∧
      surveyTypeNames (tokenize arrayTypedefSource) = ["N"] := by
  have hparse : (Module.parse arrayTypedefSource TypeNames.empty "t.c").toOption.map
      Module.typeNames = some ["arr"] := by
    decide +kernel
  have hsurvey : surveyTypeNames (tokenize arrayTypedefSource) = ["N"] := by
    decide +kernel
  cases h : Module.parse arrayTypedefSource TypeNames.empty "t.c" with
  | error e => simp [h, Except.toOption] at hparse
  | ok m =>
    simp only [h, Except.toOption, Option.map_some, Option.some.injEq] at hparse
    exact ⟨m, rfl, hparse, hsurvey⟩

end ModularC
