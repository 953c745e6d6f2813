import ModularC.Proofs.Syntax.Same

/-!
Parses that never run out of fuel.
-/

namespace ModularC

namespace Parse

variable {α β : Type} {src : Source}

/-- A reader that no chain of calls has run out of fuel on. -/
def Fresh (r : Reader) : Prop := r.outOfFuel = false

theorem fresh (src : Source) : Regime src true Fresh (fun _ => True) fun _ => True where
  step _ hr _ := hr
  tokenPos _ _ _ := trivial
  namePos _ _ := trivial
  remember _ _ hr _ := hr
  rewind _ _ _ _ _ hr := hr
  error _ _ _ := trivial
  redefinition _ _ _ := trivial
  pubVariable _ _ _ := trivial

/-- Once a chain of calls has run out of fuel, no step clears the mark. -/
theorem marked (src : Source) :
    Discipline src (fun r => r.outOfFuel = true) (fun _ => True) fun _ => True where
  step _ hr _ := hr
  tokenPos _ _ _ := trivial
  namePos _ _ := trivial
  remember _ _ hr _ := hr
  rewind _ _ _ _ _ hr := hr
  error _ _ _ := trivial
  redefinition _ _ _ := trivial
  pubVariable _ _ _ := trivial
  exhaust _ _ := rfl

/-- From an unmarked reader that `P` accepts, `p` ends in an unmarked reader. -/
def Spares (src : Source) (P : Reader → Prop) (p : Parse α) : Prop :=
  Triple src (fun r => P r ∧ Fresh r) p (fun _ => Fresh) fun _ => Fresh

namespace Spares

variable {P P' : Reader → Prop} {p x : Parse α} {f : α → Parse β}

theorem of_kept {Err : Error → Prop} (h : Kept src Fresh Err p) : Spares src P p :=
  h.mono (fun _ hr => hr.2) (fun _ _ hr => hr) fun _ _ hr => hr.1

theorem exec_fresh (h : Spares src P p) {r : Reader} (hP : P r) (hr : Fresh r) :
    Fresh (exec src p r).2 := by
  have hp := h r ⟨hP, hr⟩
  unfold exec
  revert hp
  rcases (p.run src).run.run r with ⟨_ | a, r'⟩
  · exact id
  · exact id

theorem strengthen (h : Spares src P p) (hP : ∀ r, P' r → P r) : Spares src P' p :=
  Triple.strengthen h fun _ hr => ⟨hP _ hr.1, hr.2⟩

theorem of_pre {φ : Prop} (hφ : ∀ r, P r → φ) (h : φ → Spares src P p) : Spares src P p :=
  Triple.of_pre (fun r hr => hφ r hr.1) h

theorem bind {R : α → Reader → Prop} (hx : Spares src P x) (hT : Triple src P x R fun _ _ => True)
    (hf : ∀ a, Spares src (R a) (f a)) : Spares src P (x >>= f) :=
  (hx.and (hT.strengthen fun _ hr => hr.1)).bind fun a =>
    Triple.strengthen (hf a) fun _ hr => ⟨hr.2, hr.1⟩

theorem next (hx : Spares src P x) (hf : ∀ a, Spares src (fun _ => True) (f a)) :
    Spares src P (x >>= f) :=
  hx.bind (Triple.top x) hf

theorem attempt (h : Spares src P p) : Spares src P (Parse.attempt p) := by
  unfold Parse.attempt
  refine Triple.get.bind fun r₀ => ?_
  refine Triple.tryCatch (F := fun _ => Fresh) ?_ fun _ => ?_
  · exact Triple.map (Triple.strengthen h fun _ hr => hr.1)
  · refine (Triple.modify (Q := fun _ => Fresh) ?_).bind fun _ => Triple.pure fun _ hr => hr
    exact fun _ hr => hr

theorem of_reading {Q : α → Reader → Prop}
    (h : Triple src (fun r => P r ∧ Fresh r) p (fun a r => (P r ∧ Fresh r) ∧ Q a r)
      fun _ => Fresh) : Spares src P p :=
  h.mono (fun _ hr => hr) (fun _ _ hr => hr.1.2) fun _ _ hr => hr

end Spares

/-! ### The steps of reading spare -/

section Steps

variable {P : Reader → Prop}

theorem spares_pure {a : α} : Spares src P (pure a : Parse α) := Triple.pure fun _ hr => hr.2

theorem spares_bump : Spares src P bump := by
  unfold bump
  refine (Triple.peekAt 0).bind fun t => ?_
  dsimp only
  split
  · exact (Triple.modify (Q := fun _ => Fresh) fun _ hr => hr.1.2).bind fun _ =>
      Triple.pure fun _ hr => hr
  · exact Triple.pure fun _ hr => hr.1.2

theorem spares_consume {sym : Symbol} : Spares src P (consume sym) :=
  .of_kept ((fresh src).kept_consume sym)

theorem spares_consumeKeyword {kw : Keyword} : Spares src P (consumeKeyword kw) :=
  .of_kept ((fresh src).kept_consumeKeyword kw (by rw [TokenKind.blocks_true]; rfl))

theorem spares_expect {sym : Symbol} : Spares src P (expect sym) :=
  .of_kept ((fresh src).kept_expect sym)

theorem spares_expectKeyword {kw : Keyword} : Spares src P (expectKeyword kw) :=
  .of_kept ((fresh src).kept_expectKeyword kw (by rw [TokenKind.blocks_true]; rfl))

theorem spares_expectWord : Spares src P expectWord := .of_kept (fresh src).kept_expectWord

theorem spares_fail {expected : String} : Spares src P (fail expected : Parse α) :=
  .of_kept ((fresh src).kept_fail expected)

theorem spares_throw {e : Error} : Spares src P (throw e : Parse α) :=
  Triple.throw fun _ hr => hr.2

theorem spares_register {name : String} {pos : Position} : Spares src P (register name pos) :=
  .of_kept ((fresh src).kept_register trivial)

/-- A rule that ends with a closing symbol and gives what it read. -/
theorem spares_expect_pure {sym : Symbol} {a : α} :
    Spares src P (expect sym >>= fun _ => (pure a : Parse α)) :=
  spares_expect.next fun _ => spares_pure

/-- A rule that takes the token it has looked at and gives what it saw. -/
theorem spares_bump_pure {a : α} : Spares src P (bump >>= fun _ => (pure a : Parse α)) :=
  spares_bump.next fun _ => spares_pure

end Steps

/-! ### Comparisons that also spare -/

/-- From a reader that `P` accepts, `p` ends as `q` does, and does not run out of fuel. -/
def Fits (src : Source) (P : Reader → Prop) (p q : Parse α) : Prop :=
  Same src P p q ∧ Spares src P p

namespace Fits

variable {P P' : Reader → Prop} {p q x y : Parse α} {f g : α → Parse β}

theorem refl (h : Spares src P p) : Fits src P p p := ⟨Same.refl p, h⟩

theorem unreachable : Fits src (fun _ => False) p q := ⟨fun _ h => h.elim, fun _ h => h.1.elim⟩

theorem strengthen (h : Fits src P p q) (hP : ∀ r, P' r → P r) : Fits src P' p q :=
  ⟨h.1.strengthen hP, h.2.strengthen hP⟩

theorem of_pre {φ : Prop} (hφ : ∀ r, P r → φ) (h : φ → Fits src P p q) : Fits src P p q :=
  ⟨Same.of_pre hφ fun hp => (h hp).1, Spares.of_pre hφ fun hp => (h hp).2⟩

theorem bind {R : α → Reader → Prop} (hxy : Fits src P x y) (hx : Triple src P x R fun _ _ => True)
    (hf : ∀ a, Fits src (R a) (f a) (g a)) : Fits src P (x >>= f) (y >>= g) :=
  ⟨hxy.1.bind hx fun a => (hf a).1, hxy.2.bind hx fun a => (hf a).2⟩

theorem bind_right {R : α → Reader → Prop} (hx : Triple src P x R fun _ _ => True)
    (sx : Spares src P x) (hf : ∀ a, Fits src (R a) (f a) (g a)) :
    Fits src P (x >>= f) (x >>= g) :=
  (refl sx).bind hx hf

theorem map {h : α → β} (hpq : Fits src P p q) : Fits src P (h <$> p) (h <$> q) :=
  ⟨hpq.1.map, Triple.map hpq.2⟩

theorem attempt (h : Fits src P p q) : Fits src P (attempt p) (attempt q) :=
  ⟨h.1.attempt, h.2.attempt⟩

section Reading

variable {f g : Token → Parse β} {k l : Bool → Parse β}

theorem peek_bind (h : ∀ t, Fits src (fun r => P r ∧ t = src.peekAt r.index 0) (f t) (g t)) :
    Fits src P (peek >>= f) (peek >>= g) :=
  bind_right Triple.peek (.of_reading Triple.peek) h

theorem peekAt_bind {i : Nat} (h : ∀ t, Fits src P (f t) (g t)) :
    Fits src P (peekAt i >>= f) (peekAt i >>= g) :=
  bind_right (Triple.peekAt i) (.of_reading (Triple.peekAt i)) fun t =>
    (h t).strengthen fun _ hr => hr.1

theorem check_bind {sym : Symbol} (h : ∀ b, Fits src P (k b) (l b)) :
    Fits src P (check sym >>= k) (check sym >>= l) :=
  bind_right (Triple.check sym) (.of_reading (Triple.check sym)) fun b =>
    (h b).strengthen fun _ hr => hr.1

theorem check_bind_seen {t : Token} {sym : Symbol}
    (h : Fits src (fun r => P r ∧ t = src.peekAt r.index 0) (k (t.isSymbol sym))
      (l (t.isSymbol sym))) :
    Fits src (fun r => P r ∧ t = src.peekAt r.index 0) (check sym >>= k) (check sym >>= l) := by
  refine bind_right (Triple.check sym) (.of_reading (Triple.check sym)) fun b =>
    of_pre (fun _ ⟨⟨_, ht⟩, hb⟩ => ht ▸ hb) fun hb => ?_
  subst hb
  exact h.strengthen fun _ hr => hr.1

theorem startsType_bind {t : Token} (h : ∀ b, Fits src P (k b) (l b)) :
    Fits src P (startsType t >>= k) (startsType t >>= l) :=
  bind_right (Triple.startsType t)
    ((Triple.startsType t).mono (fun _ h => h) (fun _ _ h => h.2) fun _ _ h => h) h

theorem get_bind {f g : Reader → Parse β} (h : ∀ rd, Fits src P (f rd) (g rd)) :
    Fits src P (get >>= f) (get >>= g) :=
  bind_right Triple.get (.of_reading Triple.get) fun rd => (h rd).strengthen fun _ hr => hr.1

theorem fail_bind {expected : String} {f g : α → Parse β} :
    Fits src P (fail expected >>= f) (fail expected >>= g) :=
  bind_right (Triple.fail (Q := fun _ _ => False) expected) spares_fail fun _ => unreachable

end Reading

theorem pure_bind {a : α} {f g : α → Parse β} (h : ∀ b, Fits src P (f b) (g b)) :
    Fits src P (pure a >>= f) (pure a >>= g) :=
  bind_right (Triple.pure fun _ hr => hr) spares_pure h

/-! The steps that take a token, `j` tokens past `s`. -/

section Past

variable (hs : src.EndsInEof) (s j : Nat)
include hs

theorem bump_seen_bind {t : Token} (ht : t.isEof = false) {f g : Token → Parse β}
    (h : ∀ u, Fits src (Past src s (j + 1)) (f u) (g u)) :
    Fits src (fun r => Past src s j r ∧ t = src.peekAt r.index 0) (bump >>= f) (bump >>= g) :=
  bind_right (triple_bump_seen hs s j ht) spares_bump h

theorem consume_bind {sym : Symbol} {k l : Bool → Parse β}
    (h : ∀ b, Fits src (fun r => Past src s j r ∧ (b = true → Past src s (j + 1) r)) (k b) (l b)) :
    Fits src (Past src s j) (consume sym >>= k) (consume sym >>= l) :=
  bind_right (triple_consume hs s j sym) spares_consume h

theorem consumeKeyword_bind {kw : Keyword} {k l : Bool → Parse β}
    (h : ∀ b, Fits src (fun r => Past src s j r ∧ (b = true → Past src s (j + 1) r)) (k b) (l b)) :
    Fits src (Past src s j) (consumeKeyword kw >>= k) (consumeKeyword kw >>= l) :=
  bind_right (triple_consumeKeyword hs s j kw) spares_consumeKeyword h

theorem expect_bind {sym : Symbol} {f g : Position → Parse β}
    (h : ∀ u, Fits src (Past src s (j + 1)) (f u) (g u)) :
    Fits src (Past src s j) (expect sym >>= f) (expect sym >>= g) :=
  bind_right (triple_expect hs s j sym) spares_expect h

end Past

theorem of_past {s j : Nat} (h : s + j < src.tokens.size → Fits src (Past src s j) p q) :
    Fits src (Past src s j) p q :=
  of_pre (fun _ hr => Nat.lt_of_le_of_lt hr.1 hr.2) h

end Fits

end Parse

end ModularC
