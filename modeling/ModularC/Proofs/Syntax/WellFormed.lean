import ModularC.Token.Scan
import ModularC.Syntax.Print
import ModularC.Lowering.Order
import ModularC.Proofs.Lowering.Records

/-!
Well-formed modules: what every element the parser builds satisfies.
-/

namespace ModularC

/-- A word of the language that is no keyword: letters, digits and underscores. -/
def isIdentifier (s : String) : Bool :=
  s.toList.all isWordChar && (Keyword.ofWord? s).isNone

/-- The text of a base type starts with a keyword other than `typedef`, a record or an
identifier. -/
def BaseType.startsPlain : BaseType → Bool
  | ⟨[]⟩ => true
  | ⟨.keyword k :: _⟩ => k != .typedef
  | ⟨.record _ :: _⟩ => true
  | ⟨.name n :: _⟩ => isIdentifier n

/-- A typedef names an identifier and has at most one inline record, whose tags are identifiers. -/
def Typedef.WellFormed (t : Typedef) : Prop :=
  (∃ n, t.name? = some n ∧ isIdentifier n = true) ∧
    (t.base.parts.filter TypePart.isInlineRecord).length ≤ 1 ∧
    ∀ r ∈ t.base.parts, ∀ kind tag body, r = .record ⟨kind, some tag, body⟩ → isIdentifier tag = true

mutual

/-- What the parser guarantees of an element, and of the modules its imports resolve to. -/
def Element.WellFormed : Element → Prop
  | .header _ => False
  | .recordForward _ tag => isIdentifier tag = true
  | .typedef t => t.WellFormed
  | .function f => f.form.isFunction = true ∧ f.base.startsPlain = true
  | .import_ i => i.WellFormed
  | _ => True

def Import.WellFormed : Import → Prop
  | ⟨_, _, some m⟩ => m.WellFormed
  | ⟨_, _, none⟩ => True

def Module.WellFormed : Module → Prop
  | ⟨_, _, es, _⟩ => Element.AllWellFormed es

def Element.AllWellFormed : List Element → Prop
  | [] => True
  | e :: es => e.WellFormed ∧ Element.AllWellFormed es

end

@[simp] theorem Element.allWellFormed_iff {es : List Element} :
    Element.AllWellFormed es ↔ ∀ e ∈ es, e.WellFormed := by
  induction es with
  | nil => simp [Element.AllWellFormed]
  | cons e es ih => simp [Element.AllWellFormed, ih]

theorem Module.wellFormed_iff {m : Module} : m.WellFormed ↔ ∀ e ∈ m.elements, e.WellFormed := by
  obtain ⟨_, _, es, _⟩ := m
  simp [Module.WellFormed]

/-! ### Texts of declarations -/

private theorem takeWhile_word {w r : List Char} (hw : ' ' ∉ w) :
    (w ++ ' ' :: r).takeWhile (· != ' ') = w := by
  induction w with
  | nil => simp
  | cons c w ih =>
    simp only [List.mem_cons, not_or] at hw
    simp [Ne.symm hw.1, ih hw.2]

private theorem space_not_mem_of_isIdentifier {n : String} (h : isIdentifier n = true) :
    ' ' ∉ n.toList := by
  intro hc
  simp only [isIdentifier, Bool.and_eq_true, List.all_eq_true] at h
  have := h.1 ' ' hc
  simp [isWordChar] at this

private theorem ne_typedef_of_isIdentifier {n : String} (h : isIdentifier n = true) :
    n.toList ≠ "typedef".toList := by
  intro hn
  have : n = "typedef" := String.ext hn
  subst this
  simp [isIdentifier] at h
  exact absurd h (by decide)

private theorem intercalate_cons_word (t : String) (ts : List String) (fr : String) :
    ∃ rest, (" ".intercalate (t :: ts) ++ " " ++ fr).toList = t.toList ++ ' ' :: rest := by
  cases ts with
  | nil => exact ⟨fr.toList, by simp⟩
  | cons u us =>
    exact ⟨(" ".intercalate (u :: us)).toList ++ ' ' :: fr.toList,
      by simp [String.intercalate_cons_of_ne_nil, List.append_assoc]⟩

theorem BaseType.typed_render_word (b : BaseType) (hb : b.startsPlain = true) {fr : String}
    (hfr : fr ≠ "") :
    ∃ w rest, (Print.typed (b.render 0) fr).toList = w ++ ' ' :: rest ∧ ' ' ∉ w ∧
      w ≠ "typedef".toList := by
  have hfe : fr.isEmpty = false := by simpa [String.isEmpty_iff] using hfr
  obtain ⟨parts⟩ := b
  cases parts with
  | nil =>
    exact ⟨[], fr.toList, by simp [Print.typed, hfe, BaseType.render, TypePart.renderAll], by simp,
      by decide⟩
  | cons p ps =>
    cases p with
    | keyword k =>
      obtain ⟨rest, h⟩ := intercalate_cons_word k.spelling (TypePart.renderAll 0 ps) fr
      refine ⟨k.spelling.toList, rest, by simpa [Print.typed, hfe, BaseType.render,
        TypePart.renderAll] using h, ?_, ?_⟩
      · cases k <;> decide
      · simp only [BaseType.startsPlain, bne_iff_ne, ne_eq] at hb
        cases k <;> first | exact absurd rfl hb | decide
    | name n =>
      simp only [BaseType.startsPlain] at hb
      obtain ⟨rest, h⟩ := intercalate_cons_word n (TypePart.renderAll 0 ps) fr
      exact ⟨n.toList, rest, by simpa [Print.typed, hfe, BaseType.render, TypePart.renderAll] using h,
        space_not_mem_of_isIdentifier hb, ne_typedef_of_isIdentifier hb⟩
    | record r =>
      obtain ⟨rest, h⟩ := intercalate_cons_word (r.render 0) (TypePart.renderAll 0 ps) fr
      have h' : (Print.typed (BaseType.render 0 ⟨.record r :: ps⟩) fr).toList =
          (r.render 0).toList ++ ' ' :: rest := by
        simpa [Print.typed, hfe, BaseType.render, TypePart.renderAll] using h
      obtain ⟨kind, name, body⟩ := r
      have hsp : ' ' ∉ kind.spelling.toList := by cases kind <;> decide
      have hnt : kind.spelling.toList ≠ "typedef".toList := by cases kind <;> decide
      cases name with
      | none =>
        cases body with
        | none => exact ⟨_, rest, by simpa [Record.render] using h', hsp, hnt⟩
        | some b =>
          exact ⟨_, (b.render 0).toList ++ ' ' :: rest, by simpa [Record.render] using h', hsp, hnt⟩
      | some n =>
        cases body with
        | none => exact ⟨_, n.toList ++ ' ' :: rest, by simpa [Record.render] using h', hsp, hnt⟩
        | some b =>
          exact ⟨_, n.toList ++ ' ' :: ((b.render 0).toList ++ ' ' :: rest),
            by simpa [Record.render, List.append_assoc] using h', hsp, hnt⟩

theorem Modifier.renderAll_append_params (ms : List Modifier) (p : Params) :
    Modifier.renderAll (ms ++ [.params p]) = Modifier.renderAll ms ++ ("(" ++ p.render ++ ")") := by
  induction ms with
  | nil => simp [Modifier.renderAll]
  | cons m ms ih =>
    cases m with
    | array size => cases size <;> simp [Modifier.renderAll, ih, String.append_assoc]
    | params q => simp [Modifier.renderAll, ih, String.append_assoc]

theorem Form.render_of_isFunction {fm : Form} (h : fm.isFunction = true) :
    ∃ s, fm.render.toList = s ++ [')'] ∧ '(' ∈ s := by
  obtain ⟨ps, core, mods⟩ := fm
  obtain ⟨ms, p, rfl⟩ : ∃ ms p, mods = ms ++ [.params p] := by
    cases hl : mods.getLast? with
    | none => simp [Form.isFunction, hl] at h
    | some m =>
      cases m with
      | array _ => simp [Form.isFunction, hl] at h
      | params p =>
        obtain ⟨ms, rfl⟩ := List.getLast?_eq_some_iff.mp hl
        exact ⟨ms, p, rfl⟩
  refine ⟨(Print.pointers ps ++ core.render ++ Modifier.renderAll ms ++ "(" ++ p.render).toList,
    ?_, by simp⟩
  simp only [Form.render, Modifier.renderAll_append_params, Text.trimEnd, Text.dropBlankEnd]
  have hb : Text.isBlank ')' = false := by decide
  simp [List.reverse_append, hb, String.append_assoc]

/-- A prototype's text reads like no other declaration's: a text equal to it, if it belongs to a
declaration that deduplication keeps once, belongs to a prototype. -/
theorem Element.eq_prototype_of_render_eq {y : Element} {f : FunctionDef}
    (hy : y.isDeduplicated = true) (htag : ∀ kind tag, y = .recordForward kind tag → isIdentifier tag = true)
    (hf : f.form.isFunction = true) (hb : f.base.startsPlain = true)
    (h : y.render = (Element.function f.forward).render) : ∃ g, y = .function g ∧ g.body = none := by
  obtain ⟨s, hs, hopen⟩ := Form.render_of_isFunction hf
  have hfr : f.form.render ≠ "" := by
    intro he
    simp [he] at hs
  obtain ⟨w, rest, hw, hsp, hnt⟩ := f.base.typed_render_word hb hfr
  have hfe : f.form.render.isEmpty = false := by simpa [String.isEmpty_iff] using hfr
  have hp : (Element.function f.forward).render.toList =
      (f.base.render 0).toList ++ ' ' :: (s ++ [')', ';']) := by
    simp [Element.render, FunctionDef.render, FunctionDef.forward, Print.typed, hfe, hs]
  have hp' : (Element.function f.forward).render.toList = w ++ ' ' :: (rest ++ [';']) := by
    simp [Element.render, FunctionDef.render, FunctionDef.forward, hw]
  have hy' := congrArg String.toList h
  cases y with
  | header n =>
    rw [hp] at hy'
    have := congrArg List.reverse hy'
    simp [Element.render] at this
  | typedef t =>
    rw [hp'] at hy'
    have := congrArg (List.takeWhile (· != ' ')) hy'
    rw [takeWhile_word hsp] at this
    simp only [Element.render, String.toList_append] at this
    rw [show "typedef ".toList = "typedef".toList ++ [' '] by decide] at this
    simp only [List.append_assoc, List.cons_append] at this
    rw [takeWhile_word (w := "typedef".toList) (by decide)] at this
    exact absurd this.symm hnt
  | recordForward kind tag =>
    have hid := htag kind tag rfl
    rw [hp] at hy'
    have hmem : '(' ∈ (Element.recordForward kind tag).render.toList := by
      rw [hy']
      simp [hopen]
    simp only [Element.render, String.toList_append, List.mem_append] at hmem
    rcases hmem with (hk | hk) | hk
    · exact absurd hk (by cases kind <;> decide)
    · simp only [isIdentifier, Bool.and_eq_true, List.all_eq_true] at hid
      have := hid.1 '(' hk
      simp [isWordChar] at this
    · simp at hk
  | recordDef exported kind tag fields =>
    rw [hp] at hy'
    have := congrArg List.reverse hy'
    simp [Element.render, Declaration.renderFields, Print.braced, Print.tabs] at this
  | enumDef exported tag items =>
    rw [hp] at hy'
    have := congrArg List.reverse hy'
    simp [Element.render, Enumerator.renderBlock, Print.enumBraces, Print.tabs] at this
  | function g =>
    refine ⟨g, rfl, ?_⟩
    simpa [Element.isDeduplicated] using hy
  | import_ | directive | typeDirective | link | global => simp [Element.isDeduplicated] at hy

end ModularC
