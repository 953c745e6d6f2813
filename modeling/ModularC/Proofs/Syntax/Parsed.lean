import Mathlib.Data.List.TakeWhile
import ModularC.Syntax.Parse
import ModularC.Proofs.Syntax.WellFormed

/-!
Parsed modules are well-formed (`Module.parse_wellFormed`).
-/

namespace ModularC

/-! ### Words of the lexer -/

/-- Every word a token carries is an identifier. -/
def Token.WordsIdentifiers (t : Token) : Prop := ∀ w, t.kind = .word w → isIdentifier w = true

theorem Token.wordsIdentifiers_eof (pos : Position) : Token.WordsIdentifiers ⟨.eof, pos⟩ := by
  intro w hw
  cases hw

/-- The token a step of the lexer gives, if any. -/
def Step.token? {c : Cursor} : Step c → Option Token
  | .token t _ _ => some t
  | .comment _ _ => none
  | .last t _ => some t

theorem isIdentifier_word {x : Char} {xs : List Char} (hx : (x.isAlpha || x == '_') = true)
    (hk : Keyword.ofWord? (String.ofList (x :: xs.takeWhile isWordChar)) = none) :
    isIdentifier (String.ofList (x :: xs.takeWhile isWordChar)) = true := by
  simp only [isIdentifier, hk, Option.isNone_none, Bool.and_true, String.toList_ofList,
    List.all_cons, Bool.and_eq_true, List.all_eq_true]
  refine ⟨?_, fun c hc => (List.mem_takeWhile_imp hc : isWordChar c = true)⟩
  simp only [isWordChar, Char.isAlphanum, Bool.or_eq_true] at hx ⊢
  rcases hx with hx | hx
  · exact Or.inl (Or.inl hx)
  · exact Or.inr hx

theorem Cursor.step_word (c : Cursor) : ∀ t, c.step.token? = some t → t.WordsIdentifiers := by
  intro t ht w hw
  unfold Cursor.step at ht
  dsimp only at ht
  split at ht
  · simp only [Step.token?, Option.some.injEq] at ht
    subst ht
    cases hw
  split at ht
  · simp only [Step.token?, Option.some.injEq] at ht
    subst ht
    cases hw
  split at ht
  · split at ht <;> simp [Step.token?] at ht
    subst ht
    cases hw
  · simp [Step.token?] at ht
  split at ht
  · split at ht
    · simp only [Step.token?, Option.some.injEq] at ht
      subst ht
      cases hw
    · simp only [Step.token?, Option.some.injEq] at ht
      subst ht
      cases hw
      exact isIdentifier_word (by assumption) (by assumption)
  repeat' split at ht
  all_goals simp [Step.token?] at ht
  all_goals subst ht; cases hw

theorem Cursor.tokens_word (c : Cursor) : ∀ t ∈ c.tokens, t.WordsIdentifiers := by
  fun_induction Cursor.tokens c with
  | case1 c t next _ hstep ih =>
    intro u hu
    rcases List.mem_cons.1 hu with rfl | hu
    · exact c.step_word u (by rw [hstep]; rfl)
    · exact ih u hu
  | case2 c next _ _ ih => exact ih
  | case3 c t next hstep _ =>
    intro u hu
    rw [List.mem_singleton] at hu
    subst hu
    exact c.step_word u (by rw [hstep]; rfl)
  | case4 c t next hstep _ =>
    intro u hu
    simp only [List.mem_cons, List.not_mem_nil, or_false] at hu
    rcases hu with rfl | rfl
    · exact c.step_word u (by rw [hstep]; rfl)
    · exact Token.wordsIdentifiers_eof _

theorem tokenize_word (s : String) : ∀ t ∈ tokenize s, t.WordsIdentifiers :=
  (Cursor.ofString s).tokens_word

/-- Every word among the tokens of a source is an identifier. -/
def Source.WordsIdentifiers (s : Source) : Prop := ∀ t ∈ s.tokens, t.WordsIdentifiers

theorem Source.ofTokens_words {tokens : List Token} {file : String}
    (h : ∀ t ∈ tokens, t.WordsIdentifiers) : (Source.ofTokens tokens file).WordsIdentifiers := by
  intro t ht
  simp only [Source.ofTokens, List.mem_toArray] at ht
  split at ht
  · split at ht
    · exact h t ht
    rcases List.mem_append.1 ht with ht | ht
    · exact h t ht
    rw [List.mem_singleton] at ht
    subst ht
    exact Token.wordsIdentifiers_eof _
  · rw [List.mem_singleton] at ht
    subst ht
    exact Token.wordsIdentifiers_eof _

theorem Source.peekAt_words {s : Source} (hs : s.WordsIdentifiers) (i n : Nat) :
    (s.peekAt i n).WordsIdentifiers := by
  unfold Source.peekAt
  rw [Array.getD_eq_getD_getElem?]
  cases h : s.tokens[min (i + n) (s.tokens.size - 1)]? with
  | none => exact Token.wordsIdentifiers_eof _
  | some t => exact hs t (Array.mem_of_getElem? h)

/-! ### Postconditions of a parse -/

namespace Parse

variable {α β : Type} {src : Source}

/-- Every result `p` gives when it succeeds on `src`, from any reader, satisfies `P`. -/
def Ensures (src : Source) (p : Parse α) (P : α → Prop) : Prop :=
  ∀ r a r', ((p.run src).run.run r) = (.ok a, r') → P a

namespace Ensures

theorem trivial (p : Parse α) : Ensures src p fun _ => True :=
  fun _ _ _ _ => True.intro

theorem pure {a : α} {P : α → Prop} (h : P a) : Ensures src (pure a) P := by
  intro r b r' hr
  cases hr
  exact h

theorem mono {p : Parse α} {P Q : α → Prop} (hp : Ensures src p P) (h : ∀ a, P a → Q a) :
    Ensures src p Q :=
  fun r a r' hr => h a (hp r a r' hr)

theorem bind {x : Parse α} {f : α → Parse β} {Q : α → Prop} {P : β → Prop}
    (hx : Ensures src x Q) (hf : ∀ a, Q a → Ensures src (f a) P) : Ensures src (x >>= f) P := by
  intro r b r'' h
  simp only [ReaderT.run_bind, ExceptT.run_bind, StateT.run_bind] at h
  rcases hrun : (x.run src).run.run r with ⟨_ | a, r'⟩
  · rw [hrun] at h
    cases h
  · rw [hrun] at h
    exact hf a (hx r a r' hrun) r' b r'' h

theorem map {p : Parse α} {g : α → β} {P : β → Prop} (hp : Ensures src p fun a => P (g a)) :
    Ensures src (g <$> p) P := by
  rw [map_eq_pure_bind]
  exact hp.bind fun _ ha => Ensures.pure ha

theorem some {p : Parse α} {P : α → Prop} (hp : Ensures src p P) :
    Ensures src (p >>= fun a => Pure.pure (some a)) fun o => ∀ a, o = some a → P a :=
  hp.bind fun a ha => Ensures.pure fun b hb => by
    cases hb
    exact ha

theorem tryCatch {x : Parse α} {h : Error → Parse α} {P : α → Prop} (hx : Ensures src x P)
    (hh : ∀ e, Ensures src (h e) P) : Ensures src (tryCatch x h) P := by
  intro r a r' hr
  simp only [ReaderT.run, ExceptT.run, StateT.run, MonadExcept.tryCatch, tryCatchThe,
    MonadExceptOf.tryCatch, ExceptT.tryCatch, ExceptT.mk] at hr
  change StateT.run _ r = _ at hr
  rw [StateT.run_bind] at hr
  rcases hrun : x src r with ⟨e | b, s⟩ <;>
    rw [show StateT.run (x src) r = x src r from rfl, hrun] at hr
  · exact hh e s a r' hr
  · cases hr
    exact hx r a _ hrun

end Ensures

theorem ensures_peekAt (n : Nat) : Ensures src (peekAt n) fun t => ∃ i, t = src.peekAt i n := by
  intro r t r' h
  cases h
  exact ⟨r.index, rfl⟩

theorem ensures_fail {expected : String} {P : α → Prop} : Ensures src (fail expected) P := by
  intro r t r' h
  cases h

theorem ensures_exhausted {P : α → Prop} : Ensures src exhausted P := by
  intro r t r' h
  cases h

theorem ensures_attempt {p : Parse α} {P : α → Prop} (hp : Ensures src p P) :
    Ensures src (attempt p) fun o => ∀ a, o = some a → P a := by
  unfold attempt
  refine (Ensures.trivial _).bind fun _ _ => ?_
  dsimp only
  refine Ensures.tryCatch ?_ fun _ =>
    (Ensures.trivial _).bind fun _ _ => Ensures.pure fun a h => by cases h
  rw [map_eq_pure_bind]
  exact hp.some

end Parse

/-! ### Base types -/

/-- What the parser guarantees of the type parts it reads, given whether a base was read before
them: the text starts plainly, no inline record follows a base and at most one comes before it,
and every record tag is an identifier. -/
def PlainParts (hasBase : Bool) (ps : List TypePart) : Prop :=
  (⟨ps⟩ : BaseType).startsPlain = true ∧
    (ps.filter TypePart.isInlineRecord).length ≤ (if hasBase then 0 else 1) ∧
    ∀ r ∈ ps, ∀ kind tag body, r = .record ⟨kind, some tag, body⟩ → isIdentifier tag = true

namespace PlainParts

variable {b : Bool} {ps : List TypePart}

theorem startsPlain {base : BaseType} (h : PlainParts b base.parts) : base.startsPlain = true := by
  cases base
  exact h.1

theorem nil : PlainParts b [] := ⟨rfl, by split <;> simp, by simp⟩

theorem of_base (h : PlainParts true ps) : PlainParts b ps := by
  obtain ⟨hs, hc, ht⟩ := h
  refine ⟨hs, ?_, ht⟩
  simp only [if_true, Nat.le_zero] at hc
  rw [hc]
  exact Nat.zero_le _

theorem keyword {k : Keyword} (hk : k ≠ .typedef) (h : PlainParts b ps) :
    PlainParts b (.keyword k :: ps) := by
  obtain ⟨_, hc, ht⟩ := h
  refine ⟨by simpa [BaseType.startsPlain] using hk, ?_, ?_⟩
  · simpa [List.filter_cons, TypePart.isInlineRecord] using hc
  · intro r hr kind tag body hrt
    rcases List.mem_cons.1 hr with rfl | hr
    · cases hrt
    · exact ht r hr kind tag body hrt

theorem record {r : Record} (hr : ∀ tag, r.name = some tag → isIdentifier tag = true)
    (h : PlainParts true ps) : PlainParts false (.record r :: ps) := by
  obtain ⟨_, hc, ht⟩ := h
  refine ⟨rfl, ?_, ?_⟩
  · simp only [if_true, Nat.le_zero, List.length_eq_zero_iff] at hc
    simp only [List.filter_cons, hc, Bool.false_eq_true, if_false]
    split <;> simp
  · intro r' hr' kind tag body hrt
    rcases List.mem_cons.1 hr' with rfl | hr'
    · cases hrt
      exact hr tag rfl
    · exact ht r' hr' kind tag body hrt

theorem name {w : String} (hw : isIdentifier w = true) (h : PlainParts true ps) :
    PlainParts false (.name w :: ps) := by
  obtain ⟨_, hc, ht⟩ := h
  refine ⟨hw, ?_, ?_⟩
  · simp only [if_true, Nat.le_zero] at hc
    simp [TypePart.isInlineRecord, hc]
  · intro r hr kind tag body hrt
    rcases List.mem_cons.1 hr with rfl | hr
    · cases hrt
    · exact ht r hr kind tag body hrt

end PlainParts

theorem Keyword.ne_typedef_of_isModifier {k : Keyword} (h : k.isModifier = true) :
    k ≠ .typedef := by
  rintro rfl
  cases h

theorem Keyword.ne_typedef_of_isBaseType {k : Keyword} (h : k.isBaseType = true) :
    k ≠ .typedef := by
  rintro rfl
  cases h

/-! ### The rules of the grammar -/

namespace Parse

variable {src : Source}

theorem ensures_recordDefinition : ∀ fuel exported,
    Ensures src (recordDefinition fuel exported) Element.WellFormed
  | 0, _ => ensures_exhausted
  | fuel + 1, exported => by
    rw [recordDefinition]
    refine (Ensures.trivial _).bind fun r _ => (Ensures.trivial _).bind fun _ _ => ?_
    split
    · exact Ensures.pure True.intro
    · exact Ensures.pure True.intro
    · exact ensures_fail

theorem ensures_directiveElement (line : String) (pos : Position) :
    Ensures src (directiveElement line pos) Element.WellFormed := by
  unfold directiveElement
  split
  · exact (Ensures.trivial _).bind fun _ _ => Ensures.pure True.intro
  · exact Ensures.pure True.intro
  · exact Ensures.pure True.intro

theorem ensures_importElement : Ensures src importElement Element.WellFormed := by
  unfold importElement
  refine (Ensures.trivial _).bind fun _ _ => (Ensures.trivial _).bind fun t _ => ?_
  split
  · exact (Ensures.trivial _).bind fun _ _ => (Ensures.trivial _).bind fun _ _ =>
      Ensures.pure True.intro
  · exact ensures_fail

section Words

variable (hs : src.WordsIdentifiers)
include hs

theorem ensures_expectWord : Ensures src expectWord fun w => isIdentifier w = true := by
  unfold expectWord
  refine (ensures_peekAt 0).bind fun t ⟨i, ht⟩ => ?_
  split
  next w hw =>
    refine (Ensures.trivial _).bind fun _ _ => (Ensures.trivial _).bind fun _ _ => Ensures.pure ?_
    subst ht
    exact src.peekAt_words hs i 0 w hw
  next => exact ensures_fail

theorem ensures_record : ∀ fuel,
    Ensures src (record fuel) fun r => ∀ tag, r.name = some tag → isIdentifier tag = true
  | 0 => ensures_exhausted
  | fuel + 1 => by
    rw [record]
    extract_lets +lift jp
    have hjp : ∀ kind, Ensures src (jp kind)
        fun r => ∀ tag, r.name = some tag → isIdentifier tag = true := by
      intro kind
      dsimp -zeta only [jp]
      extract_lets +lift body
      have hbody : ∀ name, (∀ tag, name = some tag → isIdentifier tag = true) →
          Ensures src (body name) fun r => ∀ tag, r.name = some tag → isIdentifier tag = true := by
        intro name hname
        dsimp -zeta only [body]
        refine (Ensures.trivial _).bind fun b _ => ?_
        split
        · split
          · exact (Ensures.trivial _).bind fun _ _ => Ensures.pure hname
          · exact Ensures.pure hname
        · split
          · exact (Ensures.trivial _).bind fun _ _ => Ensures.pure hname
          · exact (Ensures.trivial _).bind fun _ _ => Ensures.pure hname
      refine (Ensures.trivial _).bind fun l _ => ?_
      split
      · refine Ensures.bind (Ensures.map ((ensures_expectWord hs).mono ?_)) hbody
        intro w hw tag htag
        cases htag
        exact hw
      · exact (Ensures.pure fun tag h => by cases h).bind hbody
    refine (Ensures.trivial _).bind fun t _ => ?_
    split <;> exact (Ensures.trivial _).bind fun kind _ => hjp kind

theorem ensures_baseParts : ∀ fuel hasBase,
    Ensures src (baseParts fuel hasBase) fun p => PlainParts hasBase p.1
  | 0, _ => ensures_exhausted
  | fuel + 1, hasBase => by
    rw [baseParts]
    refine (ensures_peekAt 0).bind fun t ⟨i, ht⟩ => ?_
    split
    next k hk =>
      split
      next hmod =>
        refine (Ensures.trivial _).bind fun _ _ =>
          (ensures_baseParts fuel hasBase).bind fun p hp => ?_
        obtain ⟨ps, b⟩ := p
        exact Ensures.pure (hp.keyword (Keyword.ne_typedef_of_isModifier hmod))
      split
      next hbase =>
        refine (Ensures.trivial _).bind fun _ _ => (ensures_baseParts fuel true).bind fun p hp => ?_
        obtain ⟨ps, b⟩ := p
        exact Ensures.pure (hp.of_base.keyword (Keyword.ne_typedef_of_isBaseType hbase))
      split
      next hrec =>
        simp only [Bool.and_eq_true, Bool.not_eq_true'] at hrec
        rw [hrec.2]
        refine (ensures_record hs fuel).bind fun r hr =>
          (ensures_baseParts fuel true).bind fun p hp => ?_
        obtain ⟨ps, b⟩ := p
        exact Ensures.pure (hp.record hr)
      exact Ensures.pure PlainParts.nil
    next w hw =>
      refine (Ensures.trivial _).bind fun rd _ => ?_
      split
      next hname =>
        simp only [Bool.and_eq_true, Bool.not_eq_true'] at hname
        have hid : isIdentifier w = true := by
          subst ht
          exact src.peekAt_words hs i 0 w hw
        rw [hname.1]
        refine (Ensures.trivial _).bind fun _ _ => (ensures_baseParts fuel true).bind fun p hp => ?_
        obtain ⟨ps, b⟩ := p
        exact Ensures.pure (hp.name hid)
      exact Ensures.pure PlainParts.nil
    exact Ensures.pure PlainParts.nil

theorem ensures_baseType : ∀ fuel, Ensures src (baseType fuel) fun b => PlainParts false b.parts
  | 0 => ensures_exhausted
  | fuel + 1 => by
    rw [baseType]
    refine (ensures_baseParts hs fuel false).bind fun p hp => ?_
    obtain ⟨ps, b⟩ := p
    dsimp only
    split
    · exact (Ensures.trivial _).bind fun _ _ => Ensures.pure hp
    · exact Ensures.pure hp

theorem ensures_form : ∀ fuel anonymousOk,
    Ensures src (form fuel anonymousOk) fun f => ∀ n, f.name? = some n → isIdentifier n = true
  | 0, _ => ensures_exhausted
  | fuel + 1, anonymousOk => by
    rw [form]
    refine (Ensures.trivial _).bind fun ps _ => (Ensures.trivial _).bind fun l _ =>
      (Ensures.trivial _).bind fun c _ => (Ensures.trivial _).bind fun t _ => ?_
    extract_lets +lift jp
    have hjp : ∀ core : FormCore, (∀ n, core.name? = some n → isIdentifier n = true) →
        Ensures src (jp core) fun f => ∀ n, f.name? = some n → isIdentifier n = true :=
      fun core hcore => (Ensures.trivial _).bind fun _ _ => Ensures.pure hcore
    split
    · refine Ensures.bind (Ensures.map ((ensures_expectWord hs).mono ?_)) hjp
      intro w hw n hn
      cases hn
      exact hw
    split
    · exact (Ensures.trivial _).bind fun _ _ => (ensures_form fuel anonymousOk).bind fun inner hinner =>
        (Ensures.trivial _).bind fun _ _ => (Ensures.pure hinner).bind hjp
    split
    · exact (Ensures.pure fun n h => by cases h).bind hjp
    · exact ensures_fail.bind hjp

theorem ensures_typedefElement : ∀ fuel exported,
    Ensures src (typedefElement fuel exported) Element.WellFormed
  | 0, _ => ensures_exhausted
  | fuel + 1, exported => by
    rw [typedefElement]
    refine (Ensures.trivial _).bind fun _ _ => (ensures_baseType hs fuel).bind fun base hbase =>
      (ensures_form hs fuel false).bind fun f hf => ?_
    split
    · exact ensures_fail
    next name hname =>
      refine (Ensures.trivial _).bind fun _ _ => (Ensures.trivial _).bind fun _ _ =>
        (Ensures.trivial _).bind fun _ _ => Ensures.pure ?_
      obtain ⟨_, hcount, htags⟩ := hbase
      exact ⟨⟨name, hname, hf name hname⟩, hcount, htags⟩

theorem ensures_recordForward : ∀ fuel, Ensures src (recordForward fuel) Element.WellFormed
  | 0 => ensures_exhausted
  | fuel + 1 => by
    rw [recordForward]
    refine (Ensures.trivial _).bind fun t _ => ?_
    extract_lets +lift jp
    have hjp : ∀ kind, Ensures src (jp kind) Element.WellFormed := fun _ =>
      (ensures_expectWord hs).bind fun _ hname => (Ensures.trivial _).bind fun _ _ => Ensures.pure hname
    split <;> exact (Ensures.trivial _).bind fun kind _ => hjp kind

theorem ensures_declarationElement : ∀ fuel,
    Ensures src (declarationElement fuel) Element.WellFormed
  | 0 => ensures_exhausted
  | fuel + 1 => by
    rw [declarationElement]
    refine (Ensures.trivial _).bind fun exported _ => (Ensures.trivial _).bind fun t _ => ?_
    split
    · exact ensures_typedefElement hs fuel exported
    extract_lets +lift jp
    have hjp : ∀ u, Ensures src (jp u) Element.WellFormed := by
      intro u
      refine (ensures_baseType hs fuel).bind fun base hbase => (Ensures.trivial _).bind fun f _ => ?_
      split
      next hfun =>
        have hplain := hbase.startsPlain
        refine (Ensures.trivial _).bind fun _ _ => ?_
        split
        · exact (Ensures.trivial _).bind fun _ _ => Ensures.pure ⟨hfun, hplain⟩
        · exact (Ensures.trivial _).bind fun _ _ => Ensures.pure ⟨hfun, hplain⟩
      split
      · exact (Ensures.trivial _).bind fun _ _ => (Ensures.trivial _).bind fun _ _ =>
          (Ensures.trivial _).bind fun _ _ => (Ensures.trivial _).bind fun _ _ =>
            Ensures.pure True.intro
      · exact (Ensures.trivial _).bind fun _ _ => Ensures.pure True.intro
    split
    · refine (ensures_attempt (ensures_recordDefinition fuel exported)).bind fun o ho => ?_
      split
      · exact Ensures.pure (ho _ rfl)
      refine (ensures_attempt (ensures_recordForward hs fuel)).bind fun o' ho' => ?_
      split
      · exact Ensures.pure (ho' _ rfl)
      · exact hjp ()
    · exact hjp ()

theorem ensures_element : ∀ fuel,
    Ensures src (element fuel) fun o => ∀ e, o = some e → e.WellFormed
  | 0 => ensures_exhausted
  | fuel + 1 => by
    rw [element]
    refine (Ensures.trivial _).bind fun t _ => ?_
    split
    · exact (Ensures.trivial _).bind fun _ _ => (ensures_directiveElement _ _).some
    · exact ensures_importElement.some
    · exact (Ensures.trivial _).bind fun _ _ => Ensures.pure fun e' h => by cases h
    · exact (ensures_declarationElement hs fuel).some

theorem ensures_elements : ∀ fuel,
    Ensures src (elements fuel) fun es => ∀ e ∈ es, e.WellFormed
  | 0 => ensures_exhausted
  | fuel + 1 => by
    rw [elements]
    refine (Ensures.trivial _).bind fun t _ => ?_
    split
    · exact Ensures.pure fun e h => by cases h
    refine (ensures_element hs fuel).bind fun o ho => (ensures_elements fuel).bind fun es hes => ?_
    refine Ensures.pure fun e he => ?_
    rcases List.mem_append.1 he with he | he
    · exact ho e (Option.mem_toList.1 he)
    · exact hes e he

end Words

end Parse

/-! ### Modules -/

theorem Module.ofTokens_wellFormed {tokens : List Token} {names : TypeNames} {path : String}
    {m : Module} (hw : ∀ t ∈ tokens, t.WordsIdentifiers)
    (h : Module.ofTokens tokens names path = .ok m) : m.WellFormed := by
  unfold Module.ofTokens at h
  dsimp only at h
  split at h
  next es r hrun =>
    cases h
    rw [Module.wellFormed_iff]
    exact Parse.ensures_elements (Source.ofTokens_words hw) _ _ es r hrun
  next => cases h

/-- Every module the parser gives is well-formed. -/
theorem Module.parse_wellFormed {source path : String} {names : TypeNames} {m : Module}
    (h : Module.parse source names path = .ok m) : m.WellFormed :=
  Module.ofTokens_wellFormed (tokenize_word source) h

end ModularC
