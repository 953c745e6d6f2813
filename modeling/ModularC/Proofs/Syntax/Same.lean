import ModularC.Proofs.Syntax.Imports

/-!
Two parses that end alike, and a parse run one step at a time.
-/

namespace ModularC

/-- The last token of the source is an end of input. -/
def Source.EndsInEof (src : Source) : Prop := (src.peekAt (src.tokens.size - 1) 0).isEof = true

namespace Source

variable {src : Source}

theorem EndsInEof.lt {j : Nat} (hs : src.EndsInEof) (hj : (src.peekAt j 0).isEof = false) :
    j + 1 < src.tokens.size := by
  by_contra hlt
  rw [peekAt_of_le (by omega), hs] at hj
  cases hj

theorem endsInEof_of_toList {pre : List Token} {t : Token} (h : src.tokens.toList = pre ++ [t])
    (ht : t.isEof = true) : src.EndsInEof := by
  have hsize : src.tokens.size = pre.length + 1 := by
    rw [← Array.length_toList, h, List.length_append, List.length_singleton]
  rw [EndsInEof, hsize, Nat.add_sub_cancel, peekAt_of_lt (by omega), ← Array.getElem_toList,
    List.getElem_of_eq h, List.getElem_append_right (Nat.le_refl _)]
  simpa using ht

theorem ofTokens_endsInEof (tokens : List Token) (file : String) :
    (ofTokens tokens file).EndsInEof := by
  unfold ofTokens
  split
  next t ht =>
    obtain ⟨pre, rfl⟩ := List.getLast?_eq_some_iff.1 ht
    split
    next heof => exact endsInEof_of_toList (show _ = pre ++ [t] from rfl) heof
    next => exact endsInEof_of_toList (show _ = (pre ++ [t]) ++ [⟨.eof, t.pos⟩] from rfl) rfl
  next => exact endsInEof_of_toList (show _ = [] ++ [⟨.eof, ⟨0, 0⟩⟩] from rfl) rfl

end Source

theorem Token.isEof_of_isSymbol {t : Token} {s : Symbol} (h : t.isSymbol s = true) :
    t.isEof = false := by
  rw [Token.isSymbol, beq_iff_eq] at h
  rw [Token.isEof, h]
  rfl

theorem Token.isEof_of_isKeyword {t : Token} {k : Keyword} (h : t.isKeyword k = true) :
    t.isEof = false := by
  rw [Token.isKeyword, beq_iff_eq] at h
  rw [Token.isEof, h]
  rfl

/-- Whether `t` can begin a type when `names` are the type names. -/
def Token.beginsType (names : TypeNames) (t : Token) : Bool :=
  match t.kind with
  | .keyword k => k.startsType
  | .word w => names.contains w
  | _ => false

namespace Parse

variable {α β : Type} {src : Source}

/-- What `p` does on `src` from the reader `r`: its result or its error, and the reader it ends
with. -/
def exec (src : Source) (p : Parse α) (r : Reader) : Except Error α × Reader :=
  ((p.run src).run).run r

/-- From a reader that `P` accepts, `p` and `q` end alike. -/
def Same (src : Source) (P : Reader → Prop) (p q : Parse α) : Prop :=
  ∀ r, P r → exec src p r = exec src q r

/-! ### Running a parse step by step -/

section Exec

variable {r r' : Reader} {p : Parse α} {f : α → Parse β}

@[simp] theorem exec_pure (a : α) : exec src (pure a : Parse α) r = (.ok a, r) := rfl

theorem exec_bind_of_ok {a : α} (h : exec src p r = (.ok a, r')) :
    exec src (p >>= f) r = exec src (f a) r' := by
  unfold exec at h ⊢
  simp only [ReaderT.run_bind, ExceptT.run_bind, StateT.run_bind, h]
  rfl

theorem exec_bind_of_error {e : Error} (h : exec src p r = (.error e, r')) :
    exec src (p >>= f) r = (.error e, r') := by
  unfold exec at h ⊢
  simp only [ReaderT.run_bind, ExceptT.run_bind, StateT.run_bind, h]
  rfl

theorem exec_peekAt (i : Nat) : exec src (peekAt i) r = (.ok (src.peekAt r.index i), r) := rfl

theorem exec_peek_bind {f : Token → Parse β} :
    exec src (peek >>= f) r = exec src (f (src.peekAt r.index 0)) r :=
  exec_bind_of_ok rfl

theorem exec_peekAt_bind {i : Nat} {f : Token → Parse β} :
    exec src (peekAt i >>= f) r = exec src (f (src.peekAt r.index i)) r :=
  exec_bind_of_ok rfl

theorem exec_check_bind {sym : Symbol} {f : Bool → Parse β} :
    exec src (check sym >>= f) r = exec src (f ((src.peekAt r.index 0).isSymbol sym)) r :=
  exec_bind_of_ok rfl

theorem exec_peek : exec src peek r = (.ok (src.peekAt r.index 0), r) := rfl

theorem exec_check (sym : Symbol) :
    exec src (check sym) r = (.ok ((src.peekAt r.index 0).isSymbol sym), r) := rfl

theorem exec_bump (h : (src.peekAt r.index 0).isEof = false) :
    exec src bump r = (.ok (src.peekAt r.index 0), { r with index := r.index + 1 }) := by
  unfold bump
  rw [exec_bind_of_ok exec_peek, h]
  rfl

theorem exec_consume_of_isSymbol {sym : Symbol} (h : (src.peekAt r.index 0).isSymbol sym = true) :
    exec src (consume sym) r = (.ok true, { r with index := r.index + 1 }) := by
  unfold consume
  rw [exec_bind_of_ok (exec_check sym), h]
  rfl

theorem exec_consume_of_not {sym : Symbol} (h : (src.peekAt r.index 0).isSymbol sym = false) :
    exec src (consume sym) r = (.ok false, r) := by
  unfold consume
  rw [exec_bind_of_ok (exec_check sym), h]
  rfl

theorem exec_bump_bind {f : Token → Parse β} (h : (src.peekAt r.index 0).isEof = false) :
    exec src (bump >>= f) r = exec src (f (src.peekAt r.index 0)) { r with index := r.index + 1 } :=
  exec_bind_of_ok (exec_bump h)

theorem exec_consume_bind_of_isSymbol {sym : Symbol} {f : Bool → Parse β}
    (h : (src.peekAt r.index 0).isSymbol sym = true) :
    exec src (consume sym >>= f) r = exec src (f true) { r with index := r.index + 1 } :=
  exec_bind_of_ok (exec_consume_of_isSymbol h)

theorem exec_consume_bind_of_not {sym : Symbol} {f : Bool → Parse β}
    (h : (src.peekAt r.index 0).isSymbol sym = false) :
    exec src (consume sym >>= f) r = exec src (f false) r :=
  exec_bind_of_ok (exec_consume_of_not h)

theorem exec_bind_congr {q : Parse α} (h : exec src p r = exec src q r') :
    exec src (p >>= f) r = exec src (q >>= f) r' := by
  unfold exec at h ⊢
  simp only [ReaderT.run_bind, ExceptT.run_bind, StateT.run_bind, h]

theorem exec_fail {e : String} : exec src (fail e : Parse α) r = (.error (src.error r.index e), r) :=
  rfl

theorem exec_expect_of_not {sym : Symbol} (h : (src.peekAt r.index 0).isSymbol sym = false) :
    ∃ e, exec src (expect sym) r = (.error e, r) := by
  unfold expect
  rw [exec_check_bind, h]
  exact ⟨_, rfl⟩

theorem exec_expect_bind_of_isSymbol {sym : Symbol} {f : Position → Parse β}
    (h : (src.peekAt r.index 0).isSymbol sym = true) :
    exec src (expect sym >>= f) r =
      exec src (f (src.peekAt r.index 0).pos) { r with index := r.index + 1 } := by
  unfold expect
  rw [bind_assoc, exec_check_bind, h, if_pos rfl, bind_assoc,
    exec_bump_bind (Token.isEof_of_isSymbol h)]
  rfl

theorem exec_startsType_bind {t : Token} {f : Bool → Parse β} :
    exec src (startsType t >>= f) r = exec src (f (t.beginsType r.names)) r := by
  obtain ⟨kind, _⟩ := t
  cases kind <;> rfl

theorem exec_tryCatch_of_error {x : Parse α} {h : Error → Parse α} {e : Error}
    (hx : exec src x r = (.error e, r')) : exec src (tryCatch x h) r = exec src (h e) r' := by
  simp only [exec, ReaderT.run, ExceptT.run, StateT.run, MonadExcept.tryCatch, tryCatchThe,
    MonadExceptOf.tryCatch, ExceptT.tryCatch, ExceptT.mk] at hx ⊢
  change StateT.run (x src >>= _) r = _
  rw [StateT.run_bind, show StateT.run (x src) r = x src r from rfl, hx]
  rfl

theorem exec_attempt_of_error {e : Error} (h : exec src p r = (.error e, r')) :
    exec src (attempt p) r = (.ok none, { r' with
      index := r.index
      names := r'.names.rollback r.names.checkpoint
      declared := r'.declared.extract 0 r.declared.size }) := by
  unfold attempt
  rw [exec_bind_of_ok (rfl : exec src get r = (.ok r, r))]
  dsimp only
  rw [exec_tryCatch_of_error (by rw [map_eq_pure_bind, exec_bind_of_error h])]
  rfl

end Exec

/-! ### Triples read off runs -/

section Runs

variable {P : Reader → Prop} {p : Parse α} {Q : α → Reader → Prop} {E : Error → Reader → Prop}

theorem Triple.top (p : Parse α) : Triple src P p (fun _ _ => True) fun _ _ => True :=
  fun _ _ => by split <;> trivial

theorem Triple.and {Q' : α → Reader → Prop} {E' : Error → Reader → Prop}
    (h₁ : Triple src P p Q E) (h₂ : Triple src P p Q' E') :
    Triple src P p (fun a r => Q a r ∧ Q' a r) E := by
  intro r hr
  have h₁ := h₁ r hr
  have h₂ := h₂ r hr
  revert h₁ h₂
  rcases (p.run src).run.run r with ⟨_ | a, r'⟩
  · exact fun h _ => h
  · exact fun h₁ h₂ => ⟨h₁, h₂⟩

theorem Triple.of_exec {q : Parse α} {r r' : Reader} (h : exec src p r = exec src q r')
    (hq : Triple src P q Q E) (hr : P r') : Triple src (· = r) p Q E := by
  rintro _ rfl
  have hq := hq r' hr
  unfold exec at h
  rw [h]
  exact hq

end Runs

namespace Same

variable {P P' : Reader → Prop} {p q p' : Parse α}

theorem refl (p : Parse α) : Same src P p p := fun _ _ => rfl

theorem symm (h : Same src P p q) : Same src P q p := fun r hr => (h r hr).symm

theorem trans (h : Same src P p q) (h' : Same src P q p') : Same src P p p' :=
  fun r hr => (h r hr).trans (h' r hr)

theorem strengthen (h : Same src P p q) (hP : ∀ r, P' r → P r) : Same src P' p q :=
  fun r hr => h r (hP r hr)

theorem of_pre {φ : Prop} (hφ : ∀ r, P r → φ) (h : φ → Same src P p q) : Same src P p q :=
  fun r hr => h (hφ r hr) r hr

/-- The second parses go on from what the first leaves, which `R` describes. -/
theorem bind {f g : α → Parse β} {R : α → Reader → Prop}
    (hpq : Same src P p q) (hp : Triple src P p R fun _ _ => True) (hf : ∀ a, Same src (R a) (f a) (g a)) :
    Same src P (p >>= f) (q >>= g) := by
  intro r hr
  have hrun : (p.run src).run.run r = (q.run src).run.run r := hpq r hr
  simp only [exec, ReaderT.run_bind, ExceptT.run_bind, StateT.run_bind]
  rw [← hrun]
  have h := hp r hr
  rcases hrun : (p.run src).run.run r with ⟨_ | a, r'⟩ <;> rw [hrun] at h
  · rfl
  · exact hf a r' h

theorem bind_right {f g : α → Parse β} {R : α → Reader → Prop}
    (hp : Triple src P p R fun _ _ => True) (hf : ∀ a, Same src (R a) (f a) (g a)) :
    Same src P (p >>= f) (p >>= g) :=
  (refl p).bind hp hf

theorem map {g : α → β} (h : Same src P p q) : Same src P (g <$> p) (g <$> q) := by
  intro r hr
  have hrun : exec src p r = exec src q r := h r hr
  simp only [exec, ReaderT.run_map, ExceptT.run_map, StateT.run_map] at hrun ⊢
  rw [hrun]

theorem tryCatch {x y : Parse α} {h : Error → Parse α} (hxy : Same src P x y) :
    Same src P (tryCatch x h) (tryCatch y h) := by
  intro r hr
  have hrun := hxy r hr
  simp only [exec, ReaderT.run, ExceptT.run, StateT.run, MonadExcept.tryCatch, tryCatchThe,
    MonadExceptOf.tryCatch, ExceptT.tryCatch, ExceptT.mk] at hrun ⊢
  change StateT.run (x src >>= _) r = StateT.run (y src >>= _) r
  rw [StateT.run_bind, StateT.run_bind]
  exact congrArg (· >>= _) hrun

theorem attempt (h : Same src P p q) : Same src P (attempt p) (attempt q) := by
  unfold Parse.attempt
  refine bind_right (Triple.get : Triple src P get (fun a r => P r ∧ a = r) fun _ _ => True)
    fun r₀ => ?_
  dsimp only
  exact (map h |>.strengthen fun _ hr => hr.1).tryCatch

/-! Steps that read without moving the cursor, taken on both sides. -/

section Reading

variable {f g : Token → Parse β} {k l : Bool → Parse β}

theorem peek_bind (h : ∀ t, Same src (fun r => P r ∧ t = src.peekAt r.index 0) (f t) (g t)) :
    Same src P (peek >>= f) (peek >>= g) :=
  bind_right Triple.peek h

theorem peekAt_bind {i : Nat} (h : ∀ t, Same src P (f t) (g t)) :
    Same src P (peekAt i >>= f) (peekAt i >>= g) :=
  bind_right (Triple.peekAt i) fun t => (h t).strengthen fun _ hr => hr.1

theorem check_bind {sym : Symbol} (h : ∀ b, Same src P (k b) (l b)) :
    Same src P (check sym >>= k) (check sym >>= l) :=
  bind_right (Triple.check sym) fun b => (h b).strengthen fun _ hr => hr.1

theorem check_bind_seen {t : Token} {sym : Symbol}
    (h : Same src (fun r => P r ∧ t = src.peekAt r.index 0) (k (t.isSymbol sym)) (l (t.isSymbol sym))) :
    Same src (fun r => P r ∧ t = src.peekAt r.index 0) (check sym >>= k) (check sym >>= l) := by
  refine bind_right (Triple.check sym) fun b => of_pre (fun _ ⟨⟨_, ht⟩, hb⟩ => ht ▸ hb) fun hb => ?_
  subst hb
  exact h.strengthen fun _ hr => hr.1

theorem startsType_bind {t : Token} (h : ∀ b, Same src P (k b) (l b)) :
    Same src P (startsType t >>= k) (startsType t >>= l) :=
  bind_right (Triple.startsType t) h

theorem get_bind {f g : Reader → Parse β} (h : ∀ rd, Same src P (f rd) (g rd)) :
    Same src P (get >>= f) (get >>= g) :=
  bind_right Triple.get fun rd => (h rd).strengthen fun _ hr => hr.1

theorem fail_bind {expected : String} {f g : α → Parse β} :
    Same src P (fail expected >>= f) (fail expected >>= g) :=
  bind_right (Triple.fail (Q := fun _ _ => False) expected) fun _ _ h => h.elim

end Reading

end Same

/-! ### How far a reader has gone -/

/-- A reader at least `j` tokens past `s`, before the end of the tokens. -/
def Past (src : Source) (s j : Nat) (r : Reader) : Prop :=
  s + j ≤ r.index ∧ r.index < src.tokens.size

theorem Past.shift {s j : Nat} {r : Reader} (h : Past src s j r) : Past src (s + j) 0 r :=
  ⟨h.1, h.2⟩

theorem Past.mono {s j k : Nat} {r : Reader} (h : Past src s j r) (hk : k ≤ j) : Past src s k r :=
  ⟨by have := h.1; omega, h.2⟩

theorem Same.of_past {s j : Nat} {p q : Parse α}
    (h : s + j < src.tokens.size → Same src (Past src s j) p q) : Same src (Past src s j) p q :=
  Same.of_pre (fun _ hr => Nat.lt_of_le_of_lt hr.1 hr.2) h

section Past

variable (hs : src.EndsInEof) (s j : Nat)
include hs

/-- Every rule keeps a reader as far as it was: its steps only move forward, and a speculative parse
is rewound to where it began. -/
theorem past : Discipline src (Past src s j) (fun _ => True) fun _ => True where
  step _ hr hgo := ⟨Nat.le_succ_of_le hr.1, hs.lt (Token.isEof_of_stops hgo)⟩
  tokenPos _ _ _ := trivial
  namePos _ _ := trivial
  remember _ _ hr _ := hr
  rewind _ _ _ _ h₀ _ := ⟨h₀.1, h₀.2⟩
  error _ _ _ := trivial
  redefinition _ _ _ := trivial
  pubVariable _ _ _ := trivial
  exhaust _ hr := hr

theorem past_succ {r : Reader} (hr : Past src s j r) (ht : (src.peekAt r.index 0).isEof = false) :
    Past src s (j + 1) { r with index := r.index + 1 } :=
  ⟨Nat.succ_le_succ hr.1, hs.lt ht⟩

theorem triple_bump :
    Triple src (Past src s j) bump
      (fun t r => Past src s j r ∧ (t.isEof = false → Past src s (j + 1) r)) fun _ _ => True := by
  unfold bump
  refine (Triple.peekAt 0).bind fun t => ?_
  dsimp only
  split
  next ht =>
    refine (Triple.modify (Q := fun _ r => Past src s j r ∧ (t.isEof = false →
      Past src s (j + 1) r)) ?_).bind fun _ => Triple.pure fun _ hr => hr
    rintro r ⟨hr, rfl⟩
    have heof : (src.peekAt r.index 0).isEof = false := by simpa using ht
    exact ⟨(past_succ hs s j hr heof).mono (Nat.le_succ j), fun _ => past_succ hs s j hr heof⟩
  next ht => exact Triple.pure fun r ⟨hr, htr⟩ => ⟨hr, fun h => by simp_all⟩

theorem triple_bump_going :
    Triple src (fun r => Past src s j r ∧ (src.peekAt r.index 0).isEof = false) bump
      (fun _ => Past src s (j + 1)) fun _ _ => True := by
  unfold bump
  refine (Triple.peekAt 0).bind fun t => ?_
  dsimp only
  split
  next =>
    refine (Triple.modify (Q := fun _ => Past src s (j + 1)) ?_).bind fun _ =>
      Triple.pure fun _ hr => hr
    rintro r ⟨⟨hr, heof⟩, rfl⟩
    exact past_succ hs s j hr heof
  next ht =>
    refine Triple.of_pre (fun r ⟨⟨_, heof⟩, htr⟩ => htr ▸ heof) fun heof => ?_
    simp [heof] at ht

theorem triple_bump_seen {t : Token} (ht : t.isEof = false) :
    Triple src (fun r => Past src s j r ∧ t = src.peekAt r.index 0) bump
      (fun _ => Past src s (j + 1)) fun _ _ => True :=
  (triple_bump_going hs s j).strengthen fun _ ⟨hr, htr⟩ => ⟨hr, htr ▸ ht⟩

theorem triple_consume (sym : Symbol) :
    Triple src (Past src s j) (consume sym)
      (fun b r => Past src s j r ∧ (b = true → Past src s (j + 1) r)) fun _ _ => True := by
  unfold consume
  refine (Triple.check sym).bind fun b => ?_
  split
  next hb =>
    refine (Triple.modify (Q := fun _ => Past src s (j + 1)) ?_).bind fun _ =>
      Triple.pure fun _ hr => ⟨hr.mono (Nat.le_succ j), fun _ => hr⟩
    rintro r ⟨hr, rfl⟩
    exact past_succ hs s j hr (Token.isEof_of_isSymbol hb)
  next => exact Triple.pure fun _ hr => ⟨hr.1, fun h => by simp at h⟩

theorem triple_consumeKeyword (kw : Keyword) :
    Triple src (Past src s j) (consumeKeyword kw)
      (fun b r => Past src s j r ∧ (b = true → Past src s (j + 1) r)) fun _ _ => True := by
  unfold consumeKeyword
  refine Triple.peek.bind fun t => ?_
  split
  next ht =>
    refine (Triple.modify (Q := fun _ => Past src s (j + 1)) ?_).bind fun _ =>
      Triple.pure fun _ hr => ⟨hr.mono (Nat.le_succ j), fun _ => hr⟩
    rintro r ⟨hr, rfl⟩
    exact past_succ hs s j hr (Token.isEof_of_isKeyword ht)
  next => exact Triple.pure fun _ hr => ⟨hr.1, fun h => by simp at h⟩

theorem triple_expect (sym : Symbol) :
    Triple src (Past src s j) (expect sym) (fun _ => Past src s (j + 1)) fun _ _ => True := by
  unfold expect
  refine (Triple.check sym).bind fun b => ?_
  split
  next hb =>
    refine ((triple_bump_going hs s j).strengthen ?_).bind fun _ => Triple.pure fun _ hr => hr
    rintro r ⟨hr, rfl⟩
    exact ⟨hr, Token.isEof_of_isSymbol hb⟩
  next => exact Triple.fail _

theorem triple_expectWord :
    Triple src (Past src s j) expectWord (fun _ => Past src s (j + 1)) fun _ _ => True := by
  unfold expectWord
  refine Triple.peek.bind fun t => ?_
  split
  next w hw =>
    refine ((triple_bump_going hs s j).strengthen ?_).bind fun _ =>
      (Triple.modify (Q := fun _ => Past src s (j + 1)) fun _ hr => ⟨hr.1, hr.2⟩).bind fun _ =>
        Triple.pure fun _ hr => hr
    rintro r ⟨hr, rfl⟩
    exact ⟨hr, by rw [Token.isEof, hw]; rfl⟩
  next => exact Triple.fail _

omit hs in
theorem triple_attempt {p : Parse α} {Q : α → Reader → Prop}
    (hp : Triple src (Past src s j) p Q fun _ _ => True) :
    Triple src (Past src s j) (attempt p)
      (fun o r => match o with
        | some a => Q a r
        | none => Past src s j r) fun _ _ => True := by
  unfold attempt
  refine Triple.get.bind fun r₀ => ?_
  refine Triple.of_pre (φ := Past src s j r₀) (fun _ ⟨hr, h⟩ => h ▸ hr) fun hr₀ => ?_
  refine Triple.tryCatch (F := fun _ _ => True) ?_ fun _ => ?_
  · exact Triple.map (hp.strengthen fun _ ⟨hr, _⟩ => hr)
  · refine (Triple.modify (Q := fun _ => Past src s j) ?_).bind fun _ => Triple.pure fun _ hr => hr
    exact fun _ _ => ⟨hr₀.1, hr₀.2⟩

end Past

end Parse

end ModularC
