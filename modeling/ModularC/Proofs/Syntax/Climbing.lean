import ModularC.Proofs.Syntax.Fuel

/-!
The steps of precedence climbing, and the two laws of folding that follow from them.
-/

namespace ModularC

namespace BinaryOp

theorem one_le_strength (op : BinaryOp) : 1 ≤ op.strength := by
  cases op <;> decide

theorem strength_ne_ternary (op : BinaryOp) : op.strength ≠ ternaryStrength := by
  cases op <;> decide

theorem strength_le_of_ne_member {op : BinaryOp} (h : op.strength ≠ memberStrength) :
    op.strength ≤ 12 := by
  revert h
  cases op <;> decide

theorem isMember_eq (op : BinaryOp) :
    (op == .member || op == .ptrMember) = decide (op.strength = memberStrength) := by
  cases op <;> rfl

end BinaryOp

/-- The binary operator a token stands for. -/
def Token.binaryOp? (t : Token) : Option BinaryOp :=
  match t.kind with
  | .symbol s => BinaryOp.ofSymbol? s
  | _ => none

/-- Whether the operators after an operand go on at `t` above the floor `floor`: `t` is a `?` while
conditionals bind more tightly than the floor, or an operator that does. -/
def Token.continues (floor : Nat) (t : Token) : Bool :=
  (t.isSymbol .question && decide (floor < ternaryStrength)) ||
    t.binaryOp?.any fun op => decide (floor < op.strength)

namespace Token

variable {t : Token} {op : BinaryOp} {floor : Nat}

theorem binaryOp?_eq_some :
    t.binaryOp? = some op ↔ ∃ sym, t.kind = .symbol sym ∧ BinaryOp.ofSymbol? sym = some op := by
  unfold binaryOp?
  split
  next sym hkind => simp [hkind]
  next hkind => simpa using fun sym h => absurd h (hkind sym)

theorem isEof_of_binaryOp? (h : t.binaryOp? = some op) : t.isEof = false := by
  obtain ⟨_, hkind, _⟩ := binaryOp?_eq_some.1 h
  rw [isEof, hkind]
  rfl

theorem isSymbol_question_of_binaryOp? (h : t.binaryOp? = some op) :
    t.isSymbol .question = false := by
  unfold binaryOp? at h
  split at h
  next sym hkind =>
    have hne : sym ≠ .question := by
      rintro rfl
      cases h
    simpa [isSymbol, hkind] using hne
  next => cases h

theorem binaryOp?_of_question (h : t.isSymbol .question = true) : t.binaryOp? = none := by
  rw [isSymbol, beq_iff_eq] at h
  rw [binaryOp?, h]
  rfl

theorem continues_of_binaryOp? (h : t.binaryOp? = some op) :
    t.continues floor = decide (floor < op.strength) := by
  simp [continues, h, isSymbol_question_of_binaryOp? h]

theorem continues_of_question (h : t.isSymbol .question = true) :
    t.continues floor = decide (floor < ternaryStrength) := by
  simp [continues, h, binaryOp?_of_question h]

theorem continues_of_none (h : t.binaryOp? = none) (hq : t.isSymbol .question = false) :
    t.continues floor = false := by
  simp [continues, h, hq]

theorem continues_eq_false (hq : floor < ternaryStrength → t.isSymbol .question = false)
    (hop : ∀ op, t.binaryOp? = some op → op.strength ≤ floor) : t.continues floor = false := by
  cases h : t.binaryOp? with
  | none =>
    by_cases hf : floor < ternaryStrength
    · exact continues_of_none h (hq hf)
    · simp [continues, h, hf]
  | some op => simpa [continues_of_binaryOp? h] using hop op h

theorem strength_le_of_continues (hc : t.continues floor = false) (h : t.binaryOp? = some op) :
    op.strength ≤ floor := by
  simpa [continues_of_binaryOp? h] using hc

theorem not_question_of_continues (hc : t.continues floor = false)
    (hf : floor < ternaryStrength) : t.isSymbol .question = false := by
  cases hq : t.isSymbol .question
  · rfl
  · simp [continues_of_question hq, hf] at hc

end Token

theorem TypeNames.rollback_checkpoint (names : TypeNames) :
    names.rollback names.checkpoint = names := by
  simp [TypeNames.rollback, TypeNames.checkpoint, TypeNames.size]

namespace Parse

variable {α β : Type} {src : Source} {r : Reader} {n floor : Nat} {lhs : Expr} {op : BinaryOp}

/-- The right operand of `op`: a member name and its trailers after `.` and `->`, operators one
step weaker after an assignment, and operators stronger than `op` after any other. -/
def operand (fuel : Nat) (op : BinaryOp) : Parse Expr :=
  if op == .member || op == .ptrMember then do
    let name ← expectWord
    trailers fuel (.ident name)
  else if op.isRightAssoc then expr fuel (op.strength - 1)
  else expr fuel op.strength

theorem operand_of_member (h : op.strength = memberStrength) :
    operand n op = (expectWord >>= fun name => trailers n (.ident name)) := by
  rw [operand, BinaryOp.isMember_eq, h]
  rfl

theorem operand_of_assignment (h : op.strength = assignStrength) : operand n op = expr n 0 := by
  rw [operand, BinaryOp.isMember_eq, h, BinaryOp.isRightAssoc, h]
  rfl

theorem operand_of_left (h₁ : op.strength ≠ assignStrength) (h₂ : op.strength ≠ memberStrength) :
    operand n op = expr n op.strength := by
  simp [operand, BinaryOp.isMember_eq, BinaryOp.isRightAssoc, h₁, h₂]

/-! ### One step of `exprRest` -/

theorem exec_exprRest_stop (h : (src.peekAt r.index 0).continues floor = false) :
    exec src (exprRest (n + 1) floor lhs) r = (.ok lhs, r) := by
  rw [exprRest]
  suffices hB : exec src ((fun (_ : Unit) => _) ()) r = (.ok lhs, r) by
    split
    next hf =>
      rw [exec_consume_bind_of_not (Token.not_question_of_continues h hf)]
      simp only [Bool.false_eq_true, ↓reduceIte]
      exact hB
    · exact hB
  dsimp only
  rw [exec_peek_bind]
  split
  next sym hkind =>
    split
    next op hop =>
      have hbin : (src.peekAt r.index 0).binaryOp? = some op := by
        rw [Token.binaryOp?, hkind]
        exact hop
      rw [Token.continues_of_binaryOp? hbin, decide_eq_false_iff_not, Nat.not_lt] at h
      rw [if_pos h]
      rfl
    next => rfl
  next => rfl

theorem exec_exprRest_question (hq : (src.peekAt r.index 0).isSymbol .question = true)
    (hf : floor < ternaryStrength) :
    exec src (exprRest (n + 1) floor lhs) r =
      exec src (do
        let yes ← expr n 0
        let _ ← expect .colon
        let no ← expr n assignStrength
        exprRest n floor (.conditional lhs yes no)) { r with index := r.index + 1 } := by
  rw [exprRest, if_pos hf, exec_consume_bind_of_isSymbol hq]
  rfl

theorem exec_exprRest_operator (hop : (src.peekAt r.index 0).binaryOp? = some op)
    (hf : floor < op.strength) :
    exec src (exprRest (n + 1) floor lhs) r =
      exec src (operand n op >>= fun rhs => exprRest n floor (.binary op lhs rhs))
        { r with index := r.index + 1 } := by
  rw [exprRest]
  suffices hB : exec src ((fun (_ : Unit) => _) ()) r =
      exec src (operand n op >>= fun rhs => exprRest n floor (.binary op lhs rhs))
        { r with index := r.index + 1 } by
    split
    · rw [exec_consume_bind_of_not (Token.isSymbol_question_of_binaryOp? hop)]
      simp only [Bool.false_eq_true, ↓reduceIte]
      exact hB
    · exact hB
  obtain ⟨sym, hkind, hsym⟩ := Token.binaryOp?_eq_some.1 hop
  dsimp only
  rw [exec_peek_bind, hkind]
  dsimp only
  rw [hsym]
  dsimp only
  rw [if_neg (by omega), exec_bump_bind (by rw [Token.isEof, hkind]; rfl)]
  unfold operand
  split
  · simp only [bind_assoc]
  split
  · rfl
  · rfl

/-- The token under the cursor ends the operators above `floor`. -/
def Stops (src : Source) (floor : Nat) (r : Reader) : Prop :=
  (src.peekAt r.index 0).continues floor = false

theorem triple_exprRest_stops : ∀ n floor lhs,
    Triple src (fun _ => True) (exprRest n floor lhs) (fun _ => Stops src floor) fun _ _ => True
  | 0, _, _ => Triple.exhausted
  | n + 1, floor, lhs => by
    intro r _
    cases hc : (src.peekAt r.index 0).continues floor
    · exact Triple.of_exec ((exec_exprRest_stop hc).trans (exec_pure lhs).symm)
        (Triple.pure fun _ h => h) hc r rfl
    cases hq : (src.peekAt r.index 0).isSymbol .question
    · cases hop : (src.peekAt r.index 0).binaryOp? with
      | none => rw [Token.continues_of_none hop hq] at hc; cases hc
      | some op =>
        rw [Token.continues_of_binaryOp? hop, decide_eq_true_eq] at hc
        exact Triple.of_exec (P := fun _ => True) (exec_exprRest_operator hop hc)
          ((Triple.top _).bind fun _ => triple_exprRest_stops n floor _) trivial r rfl
    · rw [Token.continues_of_question hq, decide_eq_true_eq] at hc
      exact Triple.of_exec (P := fun _ => True) (exec_exprRest_question hq hc)
        ((Triple.top _).bind fun _ => (Triple.top _).bind fun _ => (Triple.top _).bind fun _ =>
          triple_exprRest_stops n floor _) trivial r rfl

theorem triple_expr_stops : ∀ n floor,
    Triple src (fun _ => True) (expr n floor) (fun _ => Stops src floor) fun _ _ => True
  | 0, _ => Triple.exhausted
  | n + 1, floor => by
    rw [expr]
    exact (Triple.top _).bind fun _ => triple_exprRest_stops n floor _

theorem same_exprRest_stopped {s j n floor : Nat} (lhs : Expr) (hn : need src 1 s ≤ n + 4 * j) :
    Same src (fun r => Past src s j r ∧ Stops src floor r) (exprRest n floor lhs) (pure lhs) := by
  rintro r ⟨hr, hstop⟩
  obtain ⟨n, rfl⟩ : ∃ k, n = k + 1 :=
    ⟨n - 1, by have := hr.1; have := hr.2; unfold need at hn; omega⟩
  rw [exec_exprRest_stop hstop, exec_pure]

section Split

variable (hsrc : src.EndsInEof)
include hsrc

theorem triple_operand (s j n : Nat) (op : BinaryOp) :
    Triple src (Past src s j) (operand n op) (fun _ => Past src s j) fun _ _ => True := by
  have K := (past hsrc s j).rulesKept n
  unfold operand
  split
  · refine ((triple_expectWord hsrc s j).mono (fun _ h => h) (fun _ _ h => h.mono (Nat.le_succ j))
      fun _ _ h => h).bind fun _ => (K.trailers _).triple
  split
  · exact (K.expr _).triple
  · exact (K.expr _).triple

theorem triple_expr_past (s j n floor : Nat) :
    Triple src (Past src s j) (expr n floor) (fun _ r => Past src s j r ∧ Stops src floor r)
      fun _ _ => True :=
  (((past hsrc s j).rulesKept n).expr floor).triple.and
    ((triple_expr_stops n floor).strengthen fun _ _ => trivial)

theorem same_operand {s j n n' : Nat} (op : BinaryOp) (hn : need src 3 s ≤ n + 4 * j)
    (hn' : need src 3 s ≤ n' + 4 * j) : Same src (Past src s j) (operand n op) (operand n' op) := by
  unfold operand
  split
  · refine Same.bind_right (triple_expectWord hsrc s j) fun _ => ?_
    exact Settles.same (fun n => (sufficient hsrc n).trailers _) (by unfold need at *; omega)
      (by unfold need at *; omega)
  split
  · exact Settles.same (fun n => (sufficient hsrc n).expr _) hn hn'
  · exact Settles.same (fun n => (sufficient hsrc n).expr _) hn hn'

/-- The operators above `f` folded first, and those above `g ≤ f` after them, are those above `g`
folded at once: an operator stronger than `f` is taken by both, with the same operand, and at the
first token that does not go on above `f` the second fold starts where the first stopped. -/
theorem same_exprRest_split {f g : Nat} (hgf : g ≤ f) : ∀ n₁ n₂ n₃ s j x,
    need src 1 s ≤ n₁ + 4 * j → need src 1 s ≤ n₂ + 4 * j → need src 1 s ≤ n₃ + 4 * j →
    Same src (Past src s j) (exprRest n₁ f x >>= exprRest n₂ g) (exprRest n₃ g x)
  | 0, _, _, s, j, _, h₁, _, _ => fun r hr =>
    absurd h₁ (by have := hr.1; have := hr.2; unfold need; omega)
  | n₁ + 1, n₂, n₃, s, j, x, h₁, h₂, h₃ => Same.of_past fun hlt => by
    obtain ⟨n₃, rfl⟩ : ∃ k, n₃ = k + 1 := ⟨n₃ - 1, by unfold need at h₃; omega⟩
    have K := fun d => (past hsrc s (j + d)).rulesKept n₁
    -- after the first operator or `?`, the folds go on from further on
    have hrest : ∀ d y, 1 ≤ d →
        Same src (Past src s (j + d)) (exprRest n₁ f y >>= exprRest n₂ g) (exprRest n₃ g y) :=
      fun d y hd => same_exprRest_split hgf n₁ n₂ n₃ s (j + d) y
        (by unfold need at *; omega) (by unfold need at *; omega) (by unfold need at *; omega)
    intro r hr
    cases hc : (src.peekAt r.index 0).continues f
    · rw [exec_bind_of_ok (exec_exprRest_stop hc)]
      exact Settles.same (fun n => (sufficient hsrc n).exprRest g x) h₂ h₃ r hr
    cases hq : (src.peekAt r.index 0).isSymbol .question
    · cases hop : (src.peekAt r.index 0).binaryOp? with
      | none => rw [Token.continues_of_none hop hq] at hc; cases hc
      | some op =>
        rw [Token.continues_of_binaryOp? hop, decide_eq_true_eq] at hc
        rw [exec_bind_congr (exec_exprRest_operator hop hc), exec_exprRest_operator hop (by omega),
          bind_assoc]
        refine ((same_operand hsrc op (by unfold need at *; omega) (by unfold need at *; omega)).bind
          (triple_operand hsrc s (j + 1) n₁ op) fun _ => hrest 1 _ le_rfl) _
          (past_succ hsrc s j hr (Token.isEof_of_binaryOp? hop))
    · rw [Token.continues_of_question hq, decide_eq_true_eq] at hc
      rw [exec_bind_congr (exec_exprRest_question hq hc), exec_exprRest_question hq (by omega)]
      simp only [bind_assoc]
      refine (Same.bind (Settles.same (fun n => (sufficient hsrc n).expr 0)
        (by unfold need at *; omega) (by unfold need at *; omega))
        ((K 1).expr 0).triple fun _ => ?_) _
        (past_succ hsrc s j hr (Token.isEof_of_isSymbol hq))
      refine Same.bind_right (triple_expect hsrc s (j + 1) _) fun _ => ?_
      exact Same.bind (Settles.same (fun n => (sufficient hsrc n).expr _)
        (by unfold need at *; omega) (by unfold need at *; omega))
        ((K 2).expr _).triple fun _ => hrest 2 _ (by omega)

/-- Reading above `g` is reading above `f ≥ g` and folding the rest above `g`. -/
theorem same_expr_split {f g s j n : Nat} (hgf : g ≤ f) (hn : need src 3 s ≤ n + 4 * j) :
    Same src (Past src s j) (expr n f >>= exprRest n g) (expr n g) := by
  refine Same.of_past fun hlt => ?_
  obtain ⟨n, rfl⟩ : ∃ k, n = k + 1 := ⟨n - 1, by unfold need at hn; omega⟩
  rw [expr, expr, bind_assoc]
  exact Same.bind_right ((past hsrc s j).rulesKept n).unary.triple fun u =>
    same_exprRest_split hsrc hgf n (n + 1) n s j u (by unfold need at *; omega)
      (by unfold need at *; omega) (by unfold need at *; omega)

end Split

section Guard

variable (hb : (src.peekAt r.index 0).beginsType r.names = false)
include hb

theorem exec_baseParts_of_not_beginsType (n : Nat) :
    exec src (baseParts (n + 1) false) r = (.ok ([], false), r) := by
  rw [baseParts, exec_peek_bind]
  unfold Token.beginsType at hb
  split
  next k hkind =>
    rw [hkind] at hb
    simp only [Keyword.startsType, Bool.or_eq_false_iff] at hb
    rw [if_neg (by simp [hb.1.2]), if_neg (by simp [hb.1.1]), if_neg (by simp [hb.2])]
    rfl
  next w hkind =>
    rw [hkind] at hb
    rw [exec_bind_of_ok (rfl : exec src get r = (.ok r, r))]
    dsimp only
    rw [if_neg (by simp [hb])]
    rfl
  next => rfl

theorem exec_typeName_of_not_beginsType (n : Nat) :
    ∃ e, exec src (typeName (n + 3)) r = (.error e, r) := by
  rw [typeName, baseType, bind_assoc, exec_bind_of_ok (exec_baseParts_of_not_beginsType hb n)]
  exact ⟨_, rfl⟩

end Guard

/-- Where the unary rule does not try a cast, trying one gives nothing and leaves the reader as it
was: the parenthesis is missing or no type can begin after it. -/
theorem exec_attempt_parenType (n : Nat)
    (hg : ((src.peekAt r.index 0).isSymbol .lParen &&
      (src.peekAt r.index 1).beginsType r.names) = false) :
    exec src (attempt (parenType (n + 4))) r = (.ok none, r) := by
  obtain ⟨e, k, h⟩ :
      ∃ e k, exec src (parenType (n + 4)) r = (.error e, { r with index := k }) := by
    rw [parenType]
    cases hl : (src.peekAt r.index 0).isSymbol .lParen
    · obtain ⟨e, he⟩ := exec_expect_of_not hl
      exact ⟨e, r.index, exec_bind_of_error he⟩
    · rw [hl, Bool.true_and] at hg
      rw [exec_expect_bind_of_isSymbol hl]
      obtain ⟨e, he⟩ := exec_typeName_of_not_beginsType (r := { r with index := r.index + 1 }) hg n
      exact ⟨e, r.index + 1, exec_bind_of_error he⟩
  rw [exec_attempt_of_error h, TypeNames.rollback_checkpoint, Array.extract_size]

section Guarded

variable (hsrc : src.EndsInEof)
include hsrc

/-- The unary rule tries a cast only under a parenthesis before a token that can begin a type; the
layered rule tries one everywhere, which comes to the same, since elsewhere the attempt gives
nothing and leaves the reader where it was. -/
theorem same_guarded_attempt {s j n m : Nat} {k k' : Option CType → Parse β}
    (hn : need src 1 s ≤ n + 4 * j) (hm : need src 1 s ≤ m + 4 * j)
    (hsome : ∀ t, Same src (Past src s (j + 1)) (k (some t)) (k' (some t)))
    (hnone : Same src (Past src s j) (k none) (k' none)) :
    Same src (Past src s j)
      (check .lParen >>= fun c => peekAt 1 >>= fun v => startsType v >>= fun d =>
        if (c && d) = true then attempt (parenType n) >>= k else k none)
      (attempt (parenType m) >>= k') := by
  intro r hr
  rw [exec_check_bind, exec_peekAt_bind, exec_startsType_bind]
  cases hg : ((src.peekAt r.index 0).isSymbol .lParen && (src.peekAt r.index 1).beginsType r.names)
  · -- a token is left from `s + j` on, so the fuel covers the attempt's base type
    obtain ⟨m, rfl⟩ : ∃ k, m = k + 4 :=
      ⟨m - 4, by have := hr.1; have := hr.2; unfold need at hm; omega⟩
    rw [if_neg Bool.false_ne_true, exec_bind_of_ok (exec_attempt_parenType _ hg)]
    exact hnone r hr
  · rw [if_pos rfl]
    refine ((Settles.same (fun n => (sufficient hsrc n).parenType) hn hm).attempt.bind
      (triple_attempt s j (triple_parenType hsrc s j n)) fun o => ?_) r hr
    cases o with
    | none => exact hnone
    | some t => exact hsome t

end Guarded

end Parse

end ModularC
