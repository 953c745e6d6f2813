import ModularC.Proofs.Syntax.Triple
import ModularC.Proofs.Token.Lookahead

/-!
Properties every rule of the grammar keeps, asked of the few steps that change the reader or
fail.
-/

namespace ModularC

/-- Whether no rule takes a token of this kind, but for imports: an error or the end of input,
and, unless `imports`, an `import` keyword. -/
def TokenKind.blocks (imports : Bool) (k : TokenKind) : Bool :=
  (k == .keyword .import_ && !imports) || k.stops

@[simp] theorem TokenKind.blocks_true (k : TokenKind) : k.blocks true = k.stops := by
  simp [TokenKind.blocks]

theorem TokenKind.blocks_keyword {imports : Bool} {kw : Keyword} (hkw : kw ≠ .import_) :
    (TokenKind.keyword kw).blocks imports = false := by
  simp [TokenKind.blocks, TokenKind.stops, hkw]

theorem Token.blocks_of_isSymbol {imports : Bool} {t : Token} {s : Symbol}
    (h : t.isSymbol s = true) : t.kind.blocks imports = false := by
  rw [Token.isSymbol, beq_iff_eq] at h
  rw [h]
  rfl

theorem Token.blocks_of_isKeyword {imports : Bool} {t : Token} {kw : Keyword}
    (h : t.isKeyword kw = true) (hkw : (TokenKind.keyword kw).blocks imports = false) :
    t.kind.blocks imports = false := by
  rw [Token.isKeyword, beq_iff_eq] at h
  rw [h]
  exact hkw

namespace Parse

variable {α β : Type} {src : Source} {W : Reader → Prop} {G : Position → Prop}
  {Err : Error → Prop}

/-- What the steps that change the reader or fail must keep. -/
structure Discipline (src : Source) (W : Reader → Prop) (G : Position → Prop)
    (Err : Error → Prop) : Prop where
  step : ∀ r, W r → (src.peekAt r.index 0).kind.stops = false → W { r with index := r.index + 1 }
  tokenPos : ∀ r, W r → (src.peekAt r.index 0).kind.stops = false → G (src.peekAt r.index 0).pos
  namePos : ∀ r, W r → G r.namePos
  remember : ∀ r p, W r → G p → W { r with namePos := p }
  rewind : ∀ r₀ r names declared, W r₀ → W r → W { r with index := r₀.index, names, declared }
  error : ∀ r expected, W r → Err (src.error r.index expected)
  redefinition : ∀ p name, G p → Err (.redefinition src.file p name)
  pubVariable : ∀ p name, G p → Err (.pubVariable src.file p name)
  exhaust : ∀ r, W r → W { r with outOfFuel := true }

/-- A discipline whose steps need only keep `W` over tokens that do not `block`: with `imports`
off, no step over an `import` keyword is asked for. -/
structure Regime (src : Source) (imports : Bool) (W : Reader → Prop) (G : Position → Prop)
    (Err : Error → Prop) : Prop where
  step : ∀ r, W r → (src.peekAt r.index 0).kind.blocks imports = false →
    W { r with index := r.index + 1 }
  tokenPos : ∀ r, W r → (src.peekAt r.index 0).kind.blocks imports = false →
    G (src.peekAt r.index 0).pos
  namePos : ∀ r, W r → G r.namePos
  remember : ∀ r p, W r → G p → W { r with namePos := p }
  rewind : ∀ r₀ r names declared, W r₀ → W r → W { r with index := r₀.index, names, declared }
  error : ∀ r expected, W r → Err (src.error r.index expected)
  redefinition : ∀ p name, G p → Err (.redefinition src.file p name)
  pubVariable : ∀ p name, G p → Err (.pubVariable src.file p name)

theorem Discipline.regime (D : Discipline src W G Err) : Regime src true W G Err where
  step r hr h := D.step r hr (by rwa [TokenKind.blocks_true] at h)
  tokenPos r hr h := D.tokenPos r hr (by rwa [TokenKind.blocks_true] at h)
  namePos := D.namePos
  remember := D.remember
  rewind := D.rewind
  error := D.error
  redefinition := D.redefinition
  pubVariable := D.pubVariable

/-- From a reader that `W` accepts, `p` ends in one and fails only with an error `Err` accepts. -/
def Kept (src : Source) (W : Reader → Prop) (Err : Error → Prop) (p : Parse α) : Prop :=
  Triple src W p (fun _ => W) fun e r => W r ∧ Err e

/-- `Kept` from a reader with the token `t` under its cursor. -/
def KeptAt (src : Source) (W : Reader → Prop) (Err : Error → Prop) (t : Token) (p : Parse α) :
    Prop :=
  Triple src (fun r => W r ∧ src.peekAt r.index 0 = t) p (fun _ => W) fun e r => W r ∧ Err e

namespace Kept

variable {p x : Parse α} {f : α → Parse β}

theorem bind (hx : Kept src W Err x) (hf : ∀ a, Kept src W Err (f a)) :
    Kept src W Err (x >>= f) :=
  Triple.bind hx hf

protected theorem pure (a : α) : Kept src W Err (pure a : Parse α) := Triple.pure fun _ hr => hr

theorem map {g : α → β} (h : Kept src W Err p) : Kept src W Err (g <$> p) := Triple.map h

theorem peek_bind {f : Token → Parse β} (h : ∀ t, KeptAt src W Err t (f t)) :
    Kept src W Err (peek >>= f) :=
  Triple.peek.bind fun t => (h t).strengthen fun _ ⟨hr, ht⟩ => ⟨hr, ht.symm⟩

theorem peekAt_bind {n : Nat} {f : Token → Parse β} (h : ∀ t, Kept src W Err (f t)) :
    Kept src W Err (peekAt n >>= f) :=
  (Triple.peekAt n).bind fun t => (h t).strengthen fun _ hr => hr.1

theorem check_bind {s : Symbol} {f : Bool → Parse β} (h : ∀ b, Kept src W Err (f b)) :
    Kept src W Err (check s >>= f) :=
  (Triple.check s).bind fun b => (h b).strengthen fun _ hr => hr.1

theorem get_bind {f : Reader → Parse β} (h : ∀ rd, Kept src W Err (f rd)) :
    Kept src W Err (get >>= f) :=
  Triple.get.bind fun rd => (h rd).strengthen fun _ hr => hr.1

theorem read_bind {f : Source → Parse β} (h : ∀ s, Kept src W Err (f s)) :
    Kept src W Err (read >>= f) :=
  Triple.read.bind fun s => (h s).strengthen fun _ hr => hr.1

theorem startsType_bind {t : Token} {f : Bool → Parse β} (h : ∀ b, Kept src W Err (f b)) :
    Kept src W Err (startsType t >>= f) :=
  (Triple.startsType t).bind h

end Kept

namespace KeptAt

variable {t : Token} {p x : Parse α} {f : α → Parse β}

theorem of (h : Kept src W Err p) : KeptAt src W Err t p := h.strengthen fun _ hr => hr.1

theorem bind (hx : KeptAt src W Err t x) (hf : ∀ a, Kept src W Err (f a)) :
    KeptAt src W Err t (x >>= f) :=
  Triple.bind hx hf

theorem peek_bind {f : Token → Parse β} (h : KeptAt src W Err t (f t)) :
    KeptAt src W Err t (peek >>= f) :=
  Triple.peek.bind fun u => Triple.of_pre (fun _ ⟨⟨_, hrt⟩, hu⟩ => hu.trans hrt) fun hu => by
    subst hu
    exact h.strengthen fun _ hr => hr.1

theorem peekAt_bind {n : Nat} {f : Token → Parse β} (h : ∀ u, KeptAt src W Err t (f u)) :
    KeptAt src W Err t (peekAt n >>= f) :=
  (Triple.peekAt n).bind fun u => (h u).strengthen fun _ hr => hr.1

theorem check_bind {s : Symbol} {f : Bool → Parse β} (h : KeptAt src W Err t (f (t.isSymbol s))) :
    KeptAt src W Err t (check s >>= f) :=
  (Triple.check s).bind fun b => Triple.of_pre (fun _ ⟨⟨_, hrt⟩, hb⟩ => hrt ▸ hb) fun hb => by
    subst hb
    exact h.strengthen fun _ hr => hr.1

theorem get_bind {f : Reader → Parse β} (h : ∀ rd, KeptAt src W Err t (f rd)) :
    KeptAt src W Err t (get >>= f) :=
  Triple.get.bind fun rd => (h rd).strengthen fun _ hr => hr.1

theorem startsType_bind {u : Token} {f : Bool → Parse β} (h : ∀ b, KeptAt src W Err t (f b)) :
    KeptAt src W Err t (startsType u >>= f) :=
  (Triple.startsType u).bind h

end KeptAt

namespace Regime

variable {imports : Bool} (D : Regime src imports W G Err)
include D

theorem names (r : Reader) (names : TypeNames) (declared : Array String) (hr : W r) :
    W { r with names, declared } :=
  D.rewind r r names declared hr hr

theorem fail_kept {Q : α → Reader → Prop} (expected : String) :
    Triple src W (fail expected) Q fun e r => W r ∧ Err e := by
  unfold fail
  refine Triple.read.bind fun s => Triple.get.bind fun rd => Triple.throw ?_
  rintro r ⟨⟨hr, rfl⟩, rfl⟩
  exact ⟨hr, D.error _ expected hr⟩

theorem kept_fail (expected : String) : Kept src W Err (fail expected : Parse α) :=
  D.fail_kept expected

theorem exhausted_kept {Q : α → Reader → Prop} (hx : ∀ r, W r → W { r with outOfFuel := true }) :
    Triple src W exhausted Q fun e r => W r ∧ Err e := by
  unfold exhausted
  exact (Triple.modify (Q := fun _ => W) hx).bind fun _ => D.fail_kept _

theorem bump_going {E : Error → Reader → Prop} :
    Triple src (fun r => W r ∧ (src.peekAt r.index 0).kind.blocks imports = false) bump
      (fun t r => W r ∧ G t.pos) E := by
  unfold bump
  refine (Triple.peekAt 0).bind fun t => ?_
  dsimp only
  split
  · refine (Triple.modify (Q := fun _ r => W r ∧ G t.pos) ?_).bind fun _ =>
      Triple.pure fun _ hr => hr
    rintro r ⟨⟨hr, hgo⟩, rfl⟩
    exact ⟨D.step r hr hgo, D.tokenPos r hr hgo⟩
  · exact Triple.pure fun r ⟨⟨hr, hgo⟩, ht⟩ => ⟨hr, ht ▸ D.tokenPos r hr hgo⟩

theorem kept_consume (s : Symbol) : Kept src W Err (consume s) := by
  unfold consume
  refine (Triple.check s).bind fun b => ?_
  split
  next hb =>
    refine (Triple.modify (Q := fun _ => W) ?_).bind fun _ => Triple.pure fun _ hr => hr
    rintro r ⟨hr, rfl⟩
    exact D.step r hr (Token.blocks_of_isSymbol hb)
  next => exact Triple.pure fun _ hr => hr.1

theorem kept_consumeKeyword (kw : Keyword) (hkw : (TokenKind.keyword kw).blocks imports = false) :
    Kept src W Err (consumeKeyword kw) := by
  unfold consumeKeyword
  refine Triple.peek.bind fun t => ?_
  split
  next ht =>
    refine (Triple.modify (Q := fun _ => W) ?_).bind fun _ => Triple.pure fun _ hr => hr
    rintro r ⟨hr, rfl⟩
    exact D.step r hr (Token.blocks_of_isKeyword ht hkw)
  next => exact Triple.pure fun _ hr => hr.1

theorem kept_expect (s : Symbol) : Kept src W Err (expect s) := by
  unfold expect
  refine (Triple.check s).bind fun b => ?_
  split
  next hb =>
    refine (D.bump_going.strengthen ?_).bind fun t => Triple.pure fun _ hr => hr.1
    rintro r ⟨hr, rfl⟩
    exact ⟨hr, Token.blocks_of_isSymbol hb⟩
  next => exact (D.kept_fail _).strengthen fun _ hr => hr.1

theorem kept_expectKeyword (kw : Keyword) (hkw : (TokenKind.keyword kw).blocks imports = false) :
    Kept src W Err (expectKeyword kw) := by
  unfold expectKeyword
  refine Triple.peek.bind fun t => ?_
  split
  next ht =>
    refine (D.bump_going.strengthen ?_).bind fun t => Triple.pure fun _ hr => hr.1
    rintro r ⟨hr, rfl⟩
    exact ⟨hr, Token.blocks_of_isKeyword ht hkw⟩
  next => exact (D.kept_fail _).strengthen fun _ hr => hr.1

theorem kept_expectWord : Kept src W Err expectWord := by
  unfold expectWord
  refine Triple.peek.bind fun t => ?_
  split
  next w hw =>
    have hbump := (D.bump_going (E := fun e r => W r ∧ Err e)).strengthen
      (S := fun r => W r ∧ t = src.peekAt r.index 0) fun _ ⟨hr, ht⟩ =>
        ⟨hr, by rw [← ht, hw]; rfl⟩
    refine hbump.bind fun u => ?_
    refine (Triple.modify (Q := fun _ => W) ?_).bind fun _ => Triple.pure fun _ hr => hr
    rintro r ⟨hr, hu⟩
    exact D.remember r u.pos hr hu
  next => exact (D.kept_fail _).strengthen fun _ hr => hr.1

theorem kept_register {name : String} {pos : Position} (hpos : G pos) :
    Kept src W Err (register name pos) := by
  unfold register
  refine Triple.get.bind fun rd => ?_
  split
  · refine Triple.set fun r ⟨hr, hrd⟩ => ?_
    subst hrd
    exact D.names _ _ _ hr
  · refine Triple.read.bind fun _ => Triple.throw ?_
    rintro r ⟨⟨hr, -⟩, rfl⟩
    exact ⟨hr, D.redefinition pos name hpos⟩

omit D in
theorem attempt_kept {P : Reader → Prop} {p : Parse α} {E : Error → Reader → Prop}
    (hp : Triple src P p (fun _ => W) fun _ => W) (hP : ∀ r, P r → W r)
    (hrewind : ∀ r₀ r names declared, P r₀ → W r →
      P { r with index := r₀.index, names, declared }) :
    Triple src P (attempt p) (fun o r => W r ∧ (o = none → P r)) E := by
  unfold attempt
  refine Triple.get.bind fun r₀ => ?_
  refine Triple.of_pre (φ := P r₀) (fun _ ⟨hr, h⟩ => h ▸ hr) fun hr₀ => ?_
  refine Triple.tryCatch (F := fun _ => W) ?_ fun _ => ?_
  · refine Triple.map (hp.mono (fun _ ⟨hr, _⟩ => hr) ?_ fun _ _ h => h)
    intro a r hr
    exact ⟨hr, fun h => by cases h⟩
  · refine (Triple.modify (Q := fun _ r => W r ∧ P r) ?_).bind fun _ =>
      Triple.pure fun r hr => ⟨hr.1, fun _ => hr.2⟩
    intro r hr
    have hback := hrewind r₀ r (r.names.rollback r₀.names.checkpoint)
      (r.declared.extract 0 r₀.declared.size) hr₀ hr
    exact ⟨hP _ hback, hback⟩

theorem kept_attempt {p : Parse α} (hp : Kept src W Err p) : Kept src W Err (attempt p) :=
  (attempt_kept (hp.mono (fun _ h => h) (fun _ _ h => h) fun _ _ h => h.1) (fun _ h => h)
    fun _ _ _ _ h₀ h => D.rewind _ _ _ _ h₀ h).mono (fun _ h => h) (fun _ _ h => h.1)
    fun _ _ h => h

theorem attempt_bind {t : Token} {p : Parse α} {f : Option α → Parse β}
    (hp : KeptAt src W Err t p) (hsome : ∀ a, Kept src W Err (f (some a)))
    (hnone : KeptAt src W Err t (f none)) : KeptAt src W Err t (attempt p >>= f) := by
  refine (attempt_kept (hp.mono (fun _ h => h) (fun _ _ h => h) fun _ _ h => h.1)
    (fun _ h => h.1) fun _ _ _ _ h₀ h => ⟨D.rewind _ _ _ _ h₀.1 h, h₀.2⟩).bind fun o => ?_
  cases o with
  | none => exact hnone.strengthen fun _ hr => hr.2 rfl
  | some a => exact (hsome a).strengthen fun _ hr => hr.1

theorem before {t : Token} {p : Parse α} (ht : t.kind.blocks imports = false)
    (h : G t.pos → KeptAt src W Err t p) : KeptAt src W Err t p :=
  Triple.of_pre (fun _ ⟨hr, hrt⟩ => hrt ▸ D.tokenPos _ hr (hrt ▸ ht)) h

theorem bump_bind {t : Token} {f : Token → Parse β} (ht : t.kind.blocks imports = false)
    (hf : ∀ u, Kept src W Err (f u)) : KeptAt src W Err t (bump >>= f) :=
  (D.bump_going.strengthen fun _ ⟨hr, hrt⟩ => ⟨hr, hrt ▸ ht⟩).bind fun u =>
    (hf u).strengthen fun _ hr => hr.1

theorem get_namePos_bind {f : Reader → Parse β}
    (h : ∀ rd : Reader, G rd.namePos → Kept src W Err (f rd)) : Kept src W Err (get >>= f) :=
  Triple.get.bind fun rd => Triple.of_pre (fun _ ⟨hr, hrd⟩ => hrd ▸ D.namePos _ hr) fun hpos =>
    (h rd hpos).strengthen fun _ hr => hr.1

end Regime

end Parse

end ModularC
