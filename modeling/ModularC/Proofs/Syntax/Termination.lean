import ModularC.Proofs.Syntax.Precedence

/-!
The parser ends on every stream of tokens and stays within it: from `fuelFor` on no chain of calls
runs out of fuel, no rule passes the first end of input, and every loop body takes a token.
-/

namespace ModularC

namespace Parse

variable {α : Type} {src : Source}

/-- From a reader `j` tokens past `s`, `p` ends one more token past it when it succeeds. -/
def Advances (src : Source) (p : Parse α) : Prop :=
  ∀ s j, Triple src (Past src s j) p (fun _ => Past src s (j + 1)) fun _ _ => True

/-! ### Statements and elements take a token whenever they succeed

Each of these rules takes a token first, or calls a rule that does; what follows keeps the reader
past that token. -/

section Progress

theorem advance_bind {β : Type} {P : Reader → Prop} {s j : Nat} {x : Parse α} {f : α → Parse β}
    (hx : Triple src P x (fun _ => Past src s (j + 1)) fun _ _ => True)
    (hf : ∀ a, Kept src (Past src s (j + 1)) (fun _ => True) (f a)) :
    Triple src P (x >>= f) (fun _ => Past src s (j + 1)) fun _ _ => True :=
  hx.bind fun a => (hf a).triple

variable (hsrc : src.EndsInEof) (s j : Nat)
include hsrc

theorem triple_expectKeyword (kw : Keyword) :
    Triple src (Past src s j) (expectKeyword kw) (fun _ => Past src s (j + 1)) fun _ _ => True := by
  unfold expectKeyword
  refine Triple.peek.bind fun t => ?_
  split
  next ht =>
    refine ((triple_bump_going hsrc s j).strengthen ?_).bind fun _ => Triple.pure fun _ hr => hr
    rintro r ⟨hr, rfl⟩
    exact ⟨hr, Token.isEof_of_isKeyword ht⟩
  next => exact Triple.fail _

theorem triple_block : ∀ fuel,
    Triple src (Past src s j) (block fuel) (fun _ => Past src s (j + 1)) fun _ _ => True
  | 0 => Triple.exhausted
  | fuel + 1 => by
    rw [block]
    exact (triple_expect hsrc s j _).bind fun _ =>
      ((past hsrc s (j + 1)).rulesKept fuel).blockItems.triple

theorem triple_simpleStmt : ∀ fuel,
    Triple src (Past src s j) (simpleStmt fuel) (fun _ => Past src s (j + 1)) fun _ _ => True
  | 0 => Triple.exhausted
  | fuel + 1 => by
    have K := (past hsrc s j).rulesKept fuel
    rw [simpleStmt]
    refine Triple.peek.bind fun t => (Triple.startsType t).bind fun b => ?_
    split
    · exact (K.baseType.triple.strengthen fun _ hr => hr.1).bind fun base =>
        (K.form false).triple.bind fun f =>
          (triple_declarators hsrc s j fuel base f).bind fun _ => Triple.pure fun _ hr => hr
    · exact ((K.expr 0).triple.strengthen fun _ hr => hr.1).bind fun _ =>
        (triple_expect hsrc s j _).bind fun _ => Triple.pure fun _ hr => hr

theorem triple_forStmt : ∀ fuel,
    Triple src (Past src s j) (forStmt fuel) (fun _ => Past src s (j + 1)) fun _ _ => True
  | 0 => Triple.exhausted
  | fuel + 1 => by
    obtain ⟨rest, hfor, hrest⟩ := forStmt_after_keyword (past hsrc s (j + 1)).regime
      ((past hsrc s (j + 1)).rulesKept fuel).rules
    rw [hfor]
    exact advance_bind (triple_expectKeyword hsrc s j _) hrest

theorem triple_switchStmt : ∀ fuel,
    Triple src (Past src s j) (switchStmt fuel) (fun _ => Past src s (j + 1)) fun _ _ => True
  | 0 => Triple.exhausted
  | fuel + 1 => by
    have D := (past hsrc s (j + 1)).regime
    have K := (past hsrc s (j + 1)).rulesKept fuel
    rw [switchStmt]
    exact advance_bind (triple_expectKeyword hsrc s j _) fun _ =>
      K.condition.bind fun _ => (D.kept_expect _).bind fun _ =>
        (K.switchCases _).bind fun _ => Kept.pure _

theorem triple_stmt : ∀ fuel,
    Triple src (Past src s j) (stmt fuel) (fun _ => Past src s (j + 1)) fun _ _ => True
  | 0 => Triple.exhausted
  | fuel + 1 => by
    have D := (past hsrc s (j + 1)).regime
    have K := (past hsrc s (j + 1)).rulesKept fuel
    rw [stmt]
    refine Triple.peek.bind fun t => ?_
    split
    next hkind =>
      refine advance_bind (triple_bump_seen hsrc s j (by rw [Token.isEof, hkind]; rfl))
        fun _ => ?_
      refine K.condition.bind fun _ => K.stmt.bind fun _ =>
        (D.kept_consumeKeyword .else_ rfl).bind fun b => ?_
      dsimp only
      split
      · exact K.stmt.map.bind fun _ => Kept.pure _
      · exact (Kept.pure _).bind fun _ => Kept.pure _
    next hkind =>
      exact advance_bind (triple_bump_seen hsrc s j (by rw [Token.isEof, hkind]; rfl))
        fun _ => K.condition.bind fun _ => K.stmt.bind fun _ => Kept.pure _
    next hkind =>
      exact advance_bind (triple_bump_seen hsrc s j (by rw [Token.isEof, hkind]; rfl))
        fun _ => K.stmt.bind fun _ => (D.kept_expectKeyword .while_ rfl).bind fun _ =>
          K.condition.bind fun _ => (D.kept_expect _).bind fun _ => Kept.pure _
    next => exact (triple_forStmt hsrc s j fuel).strengthen fun _ hr => hr.1
    next => exact (triple_switchStmt hsrc s j fuel).strengthen fun _ hr => hr.1
    next hkind =>
      refine advance_bind (triple_bump_seen hsrc s j (by rw [Token.isEof, hkind]; rfl))
        fun _ => Kept.check_bind fun c => ?_
      extract_lets +lift jp
      have hjp : ∀ value, Kept src (Past src s (j + 1)) (fun _ => True) (jp value) := fun _ =>
        (D.kept_expect _).bind fun _ => Kept.pure _
      split
      · exact (Kept.pure _).bind hjp
      · exact (K.expr 0).map.bind hjp
    next hkind =>
      exact advance_bind (triple_bump_seen hsrc s j (by rw [Token.isEof, hkind]; rfl))
        fun _ => (K.expr 0).bind fun _ => (D.kept_expect _).bind fun _ => Kept.pure _
    next hkind =>
      exact advance_bind (triple_bump_seen hsrc s j (by rw [Token.isEof, hkind]; rfl))
        fun _ => (D.kept_expect _).bind fun _ => Kept.pure _
    next hkind =>
      exact advance_bind (triple_bump_seen hsrc s j (by rw [Token.isEof, hkind]; rfl))
        fun _ => (D.kept_expect _).bind fun _ => Kept.pure _
    next => exact (triple_simpleStmt hsrc s j fuel).strengthen fun _ hr => hr.1
    next =>
      refine (Triple.check _).bind fun c => ?_
      split
      · exact ((triple_block hsrc s j fuel).strengthen fun _ hr => hr.1.1).bind fun _ =>
          Triple.pure fun _ hr => hr
      refine ((triple_consume hsrc s j _).strengthen fun _ hr => hr.1.1).bind fun d => ?_
      split
      · exact Triple.pure fun _ hr => hr.2 ‹_›
      · exact (triple_simpleStmt hsrc s j fuel).strengthen fun _ hr => hr.1

theorem triple_typedefElement : ∀ fuel exported,
    Triple src (Past src s j) (typedefElement fuel exported) (fun _ => Past src s (j + 1))
      fun _ _ => True
  | 0, _ => Triple.exhausted
  | fuel + 1, exported => by
    have D := (past hsrc s (j + 1)).regime
    have K := (past hsrc s (j + 1)).rulesKept fuel
    rw [typedefElement]
    refine advance_bind (triple_expectKeyword hsrc s j _) fun _ => ?_
    refine K.baseType.bind fun _ => (K.form false).bind fun f => ?_
    split
    · exact D.kept_fail _
    · exact (D.kept_expect _).bind fun _ => D.get_namePos_bind fun _ hpos =>
        (D.kept_register hpos).bind fun _ => Kept.pure _

theorem triple_recordDefinition : ∀ fuel exported,
    Triple src (Past src s j) (recordDefinition fuel exported) (fun _ => Past src s (j + 1))
      fun _ _ => True
  | 0, _ => Triple.exhausted
  | fuel + 1, exported => by
    have D := (past hsrc s (j + 1)).regime
    rw [recordDefinition]
    refine advance_bind (triple_record hsrc s j fuel) fun r => ?_
    refine (D.kept_expect _).bind fun _ => ?_
    split
    · exact Kept.pure _
    · exact Kept.pure _
    · exact D.kept_fail _

theorem triple_recordForward : ∀ fuel,
    Triple src (Past src s j) (recordForward fuel) (fun _ => Past src s (j + 1)) fun _ _ => True
  | 0 => Triple.exhausted
  | fuel + 1 => by
    have D := (past hsrc s (j + 1)).regime
    rw [recordForward]
    refine (triple_bump hsrc s j).bind fun t => ?_
    extract_lets +lift jp
    have hjp : ∀ kind, Triple src (Past src s (j + 1)) (jp kind) (fun _ => Past src s (j + 1))
        fun _ _ => True := fun _ =>
      (D.kept_expectWord.bind fun _ => (D.kept_expect _).bind fun _ => Kept.pure _).triple
    split
    next hkind => exact (Triple.pure fun _ hr => hr.2 (by rw [Token.isEof, hkind]; rfl)).bind hjp
    next hkind => exact (Triple.pure fun _ hr => hr.2 (by rw [Token.isEof, hkind]; rfl)).bind hjp
    next => exact (Triple.fail _).bind hjp

theorem triple_declarationElement : ∀ fuel,
    Triple src (Past src s j) (declarationElement fuel) (fun _ => Past src s (j + 1))
      fun _ _ => True
  | 0 => Triple.exhausted
  | fuel + 1 => by
    have K := (past hsrc s j).rulesKept fuel
    rw [declarationElement]
    refine ((past hsrc s j).regime.kept_consumeKeyword .pub rfl).triple.bind fun exported =>
      Triple.peek.bind fun t => ?_
    split
    · exact (triple_typedefElement hsrc s j fuel exported).strengthen fun _ hr => hr.1
    extract_lets +lift jp
    have hjp : ∀ u, Triple src (Past src s j) (jp u) (fun _ => Past src s (j + 1))
        fun _ _ => True := by
      intro u
      dsimp -zeta only [jp]
      refine K.baseType.triple.bind fun base => (K.form false).triple.bind fun f => ?_
      extract_lets +lift jbody jglobal
      have hbody : ∀ body, Triple src (Past src s (j + 1)) (jbody body)
          (fun _ => Past src s (j + 1)) fun _ _ => True := fun _ => Triple.pure fun _ hr => hr
      have hglobal : ∀ u, Triple src (Past src s j) (jglobal u) (fun _ => Past src s (j + 1))
          fun _ _ => True := fun _ =>
        (triple_declarators hsrc s j fuel base f).bind fun _ => Triple.pure fun _ hr => hr
      split
      · refine (triple_consume hsrc s j _).bind fun b => ?_
        split
        · exact (Triple.pure fun _ hr => hr.2 ‹_›).bind hbody
        · exact (Triple.map (Q := fun _ => Past src s (j + 1))
            ((triple_block hsrc s j fuel).strengthen fun _ hr => hr.1)).bind hbody
      split
      · exact Triple.read.bind fun _ => Triple.get.bind fun _ =>
          (Triple.throw fun _ _ => trivial).bind hglobal
      · exact hglobal ()
    split
    · refine ((triple_attempt s j (triple_recordDefinition hsrc s j fuel exported)).strengthen
        fun _ hr => hr.1).bind fun o => ?_
      cases o with
      | some _ => exact Triple.pure fun _ hr => hr
      | none =>
        refine (triple_attempt s j (triple_recordForward hsrc s j fuel)).bind fun o => ?_
        cases o with
        | some _ => exact Triple.pure fun _ hr => hr
        | none => exact hjp ()
    · exact (hjp ()).strengthen fun _ hr => hr.1

theorem triple_importElement :
    Triple src (Past src s j) importElement (fun _ => Past src s (j + 1)) fun _ _ => True := by
  have D := (past hsrc s (j + 1)).regime
  rw [importElement]
  refine advance_bind (triple_expectKeyword hsrc s j _) fun _ => Kept.peek_bind fun t => ?_
  split
  next hkind =>
    exact D.bump_bind (by rw [hkind]; rfl) fun _ => (D.kept_consume _).bind fun _ => Kept.pure _
  next => exact .of (D.kept_fail _)

theorem triple_element : ∀ fuel,
    Triple src (Past src s j) (element fuel) (fun _ => Past src s (j + 1)) fun _ _ => True
  | 0 => Triple.exhausted
  | fuel + 1 => by
    have D := (past hsrc s (j + 1)).regime
    rw [element]
    refine Triple.peek.bind fun t => ?_
    split
    next hkind =>
      exact advance_bind (triple_bump_seen hsrc s j (by rw [Token.isEof, hkind]; rfl))
        fun _ => (kept_directiveElement D trivial).bind fun _ => Kept.pure _
    next =>
      exact ((triple_importElement hsrc s j).strengthen fun _ hr => hr.1).bind fun _ =>
        Triple.pure fun _ hr => hr
    next hkind =>
      exact (triple_bump_seen hsrc s j (by rw [Token.isEof, hkind]; rfl)).bind fun _ =>
        Triple.pure fun _ hr => hr
    next =>
      exact ((triple_declarationElement hsrc s j fuel).strengthen fun _ hr => hr.1).bind fun _ =>
        Triple.pure fun _ hr => hr

end Progress

/-! ### Every statement and element rule settles -/

/-- Every rule of the statement and element grammar, given fuel `n`, ends as with any more fuel
once `n` covers what it needs. -/
structure SufficientModule (src : Source) (n : Nat) : Prop where
  block : Settles src 5 n block
  blockItems : Settles src 7 n blockItems
  stmt : Settles src 6 n stmt
  simpleStmt : Settles src 4 n simpleStmt
  condition : Settles src 1 n condition
  forStmt : Settles src 1 n forStmt
  switchStmt : Settles src 1 n switchStmt
  switchCases : ∀ cases, Settles src 7 n (switchCases · cases)
  typedefElement : ∀ exported, Settles src 1 n (typedefElement · exported)
  recordDefinition : ∀ exported, Settles src 2 n (recordDefinition · exported)
  recordForward : Settles src 1 n recordForward
  declarationElement : Settles src 6 n declarationElement
  element : Settles src 7 n element
  elements : Settles src 8 n elements

theorem SufficientModule.zero : SufficientModule src 0 where
  block := .zero (by decide)
  blockItems := .zero (by decide)
  stmt := .zero (by decide)
  simpleStmt := .zero (by decide)
  condition := .zero (by decide)
  forStmt := .zero (by decide)
  switchStmt := .zero (by decide)
  switchCases _ := .zero (by decide)
  typedefElement _ := .zero (by decide)
  recordDefinition _ := .zero (by decide)
  recordForward := .zero (by decide)
  declarationElement := .zero (by decide)
  element := .zero (by decide)
  elements := .zero (by decide)

/-! ### One more unit of fuel

As for the expression and type grammar: each rule with `n + 1` is compared with itself with
`m + 1`, and its calls with `n` and `m`, which `ih` compares for these rules and `sufficient` for
the others. -/

section Succ

variable (hsrc : src.EndsInEof) {n : Nat} (ih : SufficientModule src n)
include hsrc ih

theorem settles_block : Settles src 5 (n + 1) block := .succ fun m s hm hs => by
  rw [block, block]
  exact Fits.expect_bind hsrc s 0 fun _ => ih.blockItems.call hm hs (by omega)

theorem settles_blockItems : Settles src 7 (n + 1) blockItems := .succ fun m s hm hs => by
  rw [blockItems, blockItems]
  refine Fits.consume_bind hsrc s 0 fun b => ?_
  split
  · exact Fits.refl spares_pure
  refine Fits.strengthen ?_ fun _ hr => hr.1
  -- the statement takes a token, which pays for the statements after it
  refine (ih.stmt.call hm hs (by omega)).bind (triple_stmt hsrc s 0 n) fun _ => ?_
  exact ih.blockItems.bind hm hs (by omega) ((past hsrc s 1).rulesKept n).blockItems fun _ =>
    Fits.refl spares_pure

theorem settles_stmt : Settles src 6 (n + 1) stmt := .succ fun m s hm hs => by
  have K := fun j => (past hsrc s j).rulesKept n
  have E := sufficient hsrc n
  rw [stmt, stmt]
  refine Fits.peek_bind fun t => ?_
  split
  next hkind =>
    refine Fits.bump_seen_bind hsrc s 0 (by rw [Token.isEof, hkind]; rfl)
      fun _ => ?_
    refine ih.condition.bind hm hs (by omega) (K 1).condition fun _ => ?_
    refine ih.stmt.bind hm hs (by omega) (K 1).stmt fun _ => ?_
    refine Fits.consumeKeyword_bind hsrc s 1 fun b => ?_
    dsimp only
    split
    · exact ((ih.stmt.call hm hs (by omega)).map.bind (Triple.top _) fun _ => Fits.refl spares_pure)
        |>.strengthen fun _ hr => hr.1
    · exact Fits.refl spares_pure
  next hkind =>
    refine Fits.bump_seen_bind hsrc s 0 (by rw [Token.isEof, hkind]; rfl)
      fun _ => ?_
    exact ih.condition.bind hm hs (by omega) (K 1).condition fun _ =>
      ih.stmt.bind hm hs (by omega) (K 1).stmt fun _ => Fits.refl spares_pure
  next hkind =>
    refine Fits.bump_seen_bind hsrc s 0 (by rw [Token.isEof, hkind]; rfl)
      fun _ => ?_
    refine ih.stmt.bind hm hs (by omega) (K 1).stmt fun _ => ?_
    exact Fits.bind_right (triple_expectKeyword hsrc s 1 _) spares_expectKeyword fun _ =>
      ih.condition.bind hm hs (by omega) (K 2).condition fun _ => Fits.refl spares_expect_pure
  next => exact (ih.forStmt.call hm hs (by omega)).strengthen fun _ hr => hr.1
  next => exact (ih.switchStmt.call hm hs (by omega)).strengthen fun _ hr => hr.1
  next hkind =>
    refine Fits.bump_seen_bind hsrc s 0 (by rw [Token.isEof, hkind]; rfl)
      fun _ => Fits.check_bind fun c => ?_
    extract_lets +lift jp
    have hjp : ∀ value, Fits src (Past src s 1) (jp value) (jp value)
      := fun _ => Fits.refl spares_expect_pure
    split
    · exact Fits.pure_bind hjp
    · exact ((E.expr 0).call hm hs (by omega)).map.bind
        (Triple.map (Q := fun _ => Past src s 1) ((K 1).expr 0).triple) hjp
  next hkind =>
    refine Fits.bump_seen_bind hsrc s 0 (by rw [Token.isEof, hkind]; rfl)
      fun _ => ?_
    exact (E.expr 0).bind hm hs (by omega) ((K 1).expr 0) fun _ => Fits.refl spares_expect_pure
  next => exact Fits.refl (spares_bump.next fun _ => spares_expect_pure)
  next => exact Fits.refl (spares_bump.next fun _ => spares_expect_pure)
  next => exact (ih.simpleStmt.call hm hs (by omega)).strengthen fun _ hr => hr.1
  next =>
    refine Fits.strengthen ?_ fun _ hr => hr.1
    refine Fits.check_bind fun c => ?_
    split
    · exact ih.block.bind hm hs (by omega) (K 0).block fun _ => Fits.refl spares_pure
    refine Fits.consume_bind hsrc s 0 fun d => ?_
    split
    · exact Fits.refl spares_pure
    · exact (ih.simpleStmt.call hm hs (by omega)).strengthen fun _ hr => hr.1

omit ih in
theorem settles_simpleStmt : Settles src 4 (n + 1) simpleStmt := .succ fun m s hm hs => by
  have K := (past hsrc s 0).rulesKept n
  have E := sufficient hsrc n
  rw [simpleStmt, simpleStmt]
  refine Fits.peek_bind fun t => Fits.startsType_bind fun b => ?_
  refine Fits.strengthen ?_ fun _ hr => hr.1
  split
  · refine E.baseType.bind hm hs (by omega) K.baseType fun base => ?_
    refine (E.form false).bind hm hs (by omega) (K.form false) fun f => ?_
    exact (E.declarators base f).bind hm hs (by omega) (K.declarators base f) fun _ =>
      Fits.refl spares_pure
  · exact (E.expr 0).bind hm hs (by omega) (K.expr 0) fun _ => Fits.refl spares_expect_pure

omit ih in
theorem settles_condition : Settles src 1 (n + 1) condition := .succ fun m s hm hs => by
  rw [condition, condition]
  exact Fits.expect_bind hsrc s 0 fun _ =>
    ((sufficient hsrc n).expr 0).bind hm hs (by omega) (((past hsrc s 1).rulesKept n).expr 0)
      fun _ => Fits.refl spares_expect_pure

theorem settles_forStmt : Settles src 1 (n + 1) forStmt := .succ fun m s hm hs => by
  have D := (past hsrc s 2).regime
  have K := (past hsrc s 2).rulesKept n
  have E := sufficient hsrc n
  rw [forStmt, forStmt]
  refine Fits.bind_right (triple_expectKeyword hsrc s 0 _) spares_expectKeyword fun _ =>
    Fits.expect_bind hsrc s 1 fun _ => ?_
  refine Fits.bind_right (D.kept_consume _).triple spares_consume fun b => Fits.peek_bind fun t =>
    Fits.startsType_bind fun c => ?_
  refine Fits.strengthen ?_ fun _ hr => hr.1
  extract_lets +lift jinit₁ jinit₂
  have hinit : ∀ init, Fits src (Past src s 2) (jinit₁ init) (jinit₂ init) := by
    intro init
    dsimp -zeta only [jinit₁, jinit₂]
    extract_lets +lift jcond₁ jcond₂
    have hcond : ∀ cond, Fits src (Past src s 2) (jcond₁ cond) (jcond₂ cond) := by
      intro cond
      dsimp -zeta only [jcond₁, jcond₂]
      extract_lets +lift jstep₁ jstep₂
      have hstep : ∀ step, Fits src (Past src s 2) (jstep₁ step) (jstep₂ step) := fun _ =>
        Fits.bind_right (D.kept_expect _).triple spares_expect fun _ =>
          ih.stmt.bind hm hs (by omega) K.stmt fun _ => Fits.refl spares_pure
      refine Fits.bind_right (D.kept_expect _).triple spares_expect fun _ => Fits.check_bind
        fun e => ?_
      split
      · exact Fits.pure_bind hstep
      · exact ((E.expr 0).call hm hs (by omega)).map.bind
          (Triple.map (Q := fun _ => Past src s 2) (K.expr 0).triple) hstep
    refine Fits.check_bind fun d => ?_
    split
    · exact Fits.pure_bind hcond
    · exact ((E.expr 0).call hm hs (by omega)).map.bind
        (Triple.map (Q := fun _ => Past src s 2) (K.expr 0).triple) hcond
  split
  · exact Fits.pure_bind hinit
  split
  · refine E.baseType.bind hm hs (by omega) K.baseType fun base => ?_
    refine (E.form false).bind hm hs (by omega) (K.form false) fun f => ?_
    exact (E.declarators base f).bind hm hs (by omega) (K.declarators base f) fun _ =>
      Fits.pure_bind hinit
  · refine (E.expr 0).bind hm hs (by omega) (K.expr 0) fun _ => ?_
    exact Fits.bind_right (D.kept_expect _).triple spares_expect fun _ =>
      Fits.pure_bind hinit

theorem settles_switchStmt : Settles src 1 (n + 1) switchStmt := .succ fun m s hm hs => by
  have K := fun j => (past hsrc s j).rulesKept n
  rw [switchStmt, switchStmt]
  refine Fits.bind_right (triple_expectKeyword hsrc s 0 _) spares_expectKeyword fun _ => ?_
  refine ih.condition.bind hm hs (by omega) (K 1).condition fun _ => ?_
  exact Fits.expect_bind hsrc s 1 fun _ =>
    (ih.switchCases _).bind hm hs (by omega) ((K 2).switchCases _) fun _ => Fits.refl spares_pure

theorem settles_switchCases (cases : Array Case) :
    Settles src 7 (n + 1) (switchCases · cases) := .succ fun m s hm hs => by
  have D := (past hsrc s 1).regime
  rw [switchCases, switchCases]
  refine Fits.consume_bind hsrc s 0 fun b => ?_
  split
  · exact Fits.refl spares_pure
  refine Fits.strengthen ?_ fun _ hr => hr.1
  refine Fits.consumeKeyword_bind hsrc s 0 fun c => ?_
  split
  · refine Fits.strengthen ?_ fun _ hr => hr.2 ‹_›
    refine ((sufficient hsrc n).expr 0).bind hm hs (by omega)
      (((past hsrc s 1).rulesKept n).expr 0) fun _ => ?_
    exact Fits.bind_right (D.kept_expect _).triple spares_expect fun _ =>
      (ih.switchCases _).call hm hs (by omega)
  refine Fits.strengthen ?_ fun _ hr => hr.1
  refine Fits.consumeKeyword_bind hsrc s 0 fun d => ?_
  split
  · refine Fits.strengthen ?_ fun _ hr => hr.2 ‹_›
    exact Fits.bind_right (D.kept_expect _).triple spares_expect fun _ =>
      (ih.switchCases _).call hm hs (by omega)
  refine Fits.strengthen ?_ fun _ hr => hr.1
  split
  · exact Fits.refl spares_fail
  · -- the statement takes a token, which pays for the cases after it
    exact (ih.stmt.call hm hs (by omega)).bind (triple_stmt hsrc s 0 n) fun _ =>
      (ih.switchCases _).call hm hs (by omega)

omit ih in
theorem settles_typedefElement (exported : Bool) :
    Settles src 1 (n + 1) (typedefElement · exported) := .succ fun m s hm hs => by
  have K := (past hsrc s 1).rulesKept n
  have E := sufficient hsrc n
  rw [typedefElement, typedefElement]
  refine Fits.bind_right (triple_expectKeyword hsrc s 0 _) spares_expectKeyword fun _ => ?_
  refine E.baseType.bind hm hs (by omega) K.baseType fun _ => ?_
  refine (E.form false).bind hm hs (by omega) (K.form false) fun _ => Fits.refl ?_
  split
  · exact spares_fail
  · exact spares_expect.next fun _ => (Spares.of_reading Triple.get).next fun _ =>
      spares_register.next fun _ => spares_pure

omit ih in
theorem settles_recordDefinition (exported : Bool) :
    Settles src 2 (n + 1) (recordDefinition · exported) := .succ fun m s hm hs => by
  rw [recordDefinition, recordDefinition]
  refine ((sufficient hsrc n).record.call hm hs (by omega)).bind (Triple.top _) fun _ =>
    Fits.refl (spares_expect.next fun _ => ?_)
  split
  · exact spares_pure
  · exact spares_pure
  · exact spares_fail

omit hsrc ih in
theorem settles_recordForward : Settles src 1 (n + 1) recordForward := .succ fun m _ _ _ => by
  rw [recordForward, recordForward]
  refine Fits.refl (spares_bump.next fun _ => ?_)
  extract_lets +lift jp
  have hjp : ∀ kind, Spares src (fun _ => True) (jp kind) := fun _ =>
    spares_expectWord.next fun _ => spares_expect_pure
  split
  · exact spares_pure.next hjp
  · exact spares_pure.next hjp
  · exact spares_fail.next hjp

theorem settles_declarationElement : Settles src 6 (n + 1) declarationElement :=
  .succ fun m s hm hs => by
  have K := (past hsrc s 0).rulesKept n
  have E := sufficient hsrc n
  rw [declarationElement, declarationElement]
  refine Fits.bind_right ((past hsrc s 0).regime.kept_consumeKeyword .pub rfl).triple
    spares_consumeKeyword
    fun exported => Fits.peek_bind fun t => Fits.strengthen ?_ fun _ hr => hr.1
  split
  · exact (ih.typedefElement exported).call hm hs (by omega)
  extract_lets +lift jp₁ jp₂
  have hjp : ∀ u, Fits src (Past src s 0) (jp₁ u) (jp₂ u) := by
    intro u
    dsimp -zeta only [jp₁, jp₂]
    refine E.baseType.bind hm hs (by omega) K.baseType fun base => ?_
    refine (E.form false).bind hm hs (by omega) (K.form false) fun f => ?_
    extract_lets +lift jbody jglobal₁ jglobal₂
    have hbody : ∀ body, Fits src (Past src s 0) (jbody body) (jbody body)
      := fun _ => Fits.refl spares_pure
    have hglobal : ∀ u, Fits src (Past src s 0) (jglobal₁ u) (jglobal₂ u) := by
      intro u
      dsimp -zeta only [jglobal₁, jglobal₂]
      exact (E.declarators base f).bind hm hs (by omega) (K.declarators base f) fun _ =>
        Fits.refl spares_pure
    split
    · refine Fits.consume_bind hsrc s 0 fun b => ?_
      refine Fits.strengthen ?_ fun _ hr => hr.1
      split
      · exact Fits.pure_bind hbody
      · exact (ih.block.call hm hs (by omega)).map.bind
          (Triple.map (Q := fun _ => Past src s 0) K.block.triple) hbody
    split
    · refine Fits.bind_right Triple.read (.of_reading Triple.read) fun _ => Fits.get_bind
        fun _ => ?_
      exact Fits.bind_right (Triple.throw (Q := fun _ _ => False) fun _ _ => trivial) spares_throw
        fun _ => Fits.unreachable
    · exact hglobal ()
  split
  · refine ((ih.recordDefinition exported).call hm hs (by omega)).attempt.bind
      (triple_attempt s 0 (Triple.top _)) fun o => ?_
    cases o with
    | some _ => exact Fits.refl spares_pure
    | none =>
      refine (ih.recordForward.call hm hs (by omega)).attempt.bind
        (triple_attempt s 0 (Triple.top _)) fun o => ?_
      cases o with
      | some _ => exact Fits.refl spares_pure
      | none => exact hjp ()
  · exact hjp ()

omit hsrc in
theorem settles_element : Settles src 7 (n + 1) element := .succ fun m s hm hs => by
  rw [element, element]
  refine Fits.peek_bind fun t => Fits.strengthen ?_ fun _ hr => hr.1
  split
  · exact Fits.refl (spares_bump.next fun _ =>
      (Spares.of_kept (kept_directiveElement (fresh src) trivial)).next fun _ => spares_pure)
  · exact Fits.refl ((Spares.of_kept (kept_importElement (fresh src))).next fun _ => spares_pure)
  · exact Fits.refl (spares_bump_pure)
  · exact (ih.declarationElement.call hm hs (by omega)).bind (Triple.top _) fun _ =>
      Fits.refl spares_pure

theorem settles_elements : Settles src 8 (n + 1) elements := .succ fun m s hm hs => by
  rw [elements, elements]
  refine Fits.peek_bind fun t => Fits.strengthen ?_ fun _ hr => hr.1
  split
  · exact Fits.refl spares_pure
  -- the element takes a token, which pays for the elements after it
  refine (ih.element.call hm hs (by omega)).bind (triple_element hsrc s 0 n) fun _ => ?_
  exact ih.elements.bind hm hs (by omega) ((past hsrc s 1).rulesKept n).elements fun _ =>
    Fits.refl spares_pure

theorem SufficientModule.succ : SufficientModule src (n + 1) where
  block := settles_block hsrc ih
  blockItems := settles_blockItems hsrc ih
  stmt := settles_stmt hsrc ih
  simpleStmt := settles_simpleStmt hsrc
  condition := settles_condition hsrc
  forStmt := settles_forStmt hsrc ih
  switchStmt := settles_switchStmt hsrc ih
  switchCases := settles_switchCases hsrc ih
  typedefElement := settles_typedefElement hsrc
  recordDefinition := settles_recordDefinition hsrc
  recordForward := settles_recordForward
  declarationElement := settles_declarationElement hsrc ih
  element := settles_element ih
  elements := settles_elements hsrc ih

end Succ

theorem sufficientModule (hsrc : src.EndsInEof) : ∀ n, SufficientModule src n
  | 0 => .zero
  | n + 1 => (sufficientModule hsrc n).succ hsrc

/-! ### The cursor stays before the end of input -/

/-- No token before the cursor ends the input or is a lexer error: the cursor stands at the first
such token at the latest. -/
def Clear (src : Source) (r : Reader) : Prop :=
  ∀ i < r.index, (src.peekAt i 0).kind.stops = false

theorem clear (src : Source) : Discipline src (Clear src) (fun _ => True) fun _ => True where
  step r hr hgo i hi := by
    rcases Nat.lt_succ_iff_lt_or_eq.mp hi with hi | rfl
    · exact hr i hi
    · exact hgo
  tokenPos _ _ _ := trivial
  namePos _ _ := trivial
  remember _ _ hr _ := hr
  rewind _ _ _ _ h₀ _ := h₀
  error _ _ _ := trivial
  redefinition _ _ _ := trivial
  pubVariable _ _ _ := trivial
  exhaust _ hr := hr

theorem Clear.lt_size {r : Reader} (hsrc : src.EndsInEof) (hsize : 0 < src.tokens.size)
    (hr : Clear src r) : r.index < src.tokens.size := by
  by_contra hge
  have hlast := hr (src.tokens.size - 1) (by omega)
  rw [Source.EndsInEof] at hsrc
  cases hkind : (src.peekAt (src.tokens.size - 1) 0).kind <;>
    simp_all [Token.isEof, TokenKind.stops]

/-! ### Loop bodies -/

/-- What a loop of the grammar runs before it goes round again takes a token whenever it
succeeds. The statements of a block and the cases of a switch run `stmt`, the elements of a module
`element`, the fields of a record end with `declarators`, the modifiers of a declarator run
`params`, the parts of a base type a `record` or a `bump` of a keyword or word, postfix chains,
declarators and parameters go on after a `consume`, and enumerators begin with `expectWord`. -/
structure LoopBodies (src : Source) : Prop where
  stmt : ∀ fuel, Advances src (stmt fuel)
  element : ∀ fuel, Advances src (element fuel)
  declarators : ∀ fuel base f, Advances src (declarators fuel base f)
  record : ∀ fuel, Advances src (record fuel)
  params : ∀ fuel, Advances src (params fuel)
  expectWord : Advances src expectWord
  consume : ∀ sym s j, Triple src (Past src s j) (consume sym)
    (fun b r => b = true → Past src s (j + 1) r) fun _ _ => True
  consumeKeyword : ∀ kw s j, Triple src (Past src s j) (consumeKeyword kw)
    (fun b r => b = true → Past src s (j + 1) r) fun _ _ => True
  bump : ∀ s j, Triple src (Past src s j) bump
    (fun t r => t.isEof = false → Past src s (j + 1) r) fun _ _ => True

theorem loopBodies (hsrc : src.EndsInEof) : LoopBodies src where
  stmt fuel s j := triple_stmt hsrc s j fuel
  element fuel s j := triple_element hsrc s j fuel
  declarators fuel base f s j := triple_declarators hsrc s j fuel base f
  record fuel s j := triple_record hsrc s j fuel
  params fuel s j := triple_params hsrc s j fuel
  expectWord s j := triple_expectWord hsrc s j
  consume sym s j := (triple_consume hsrc s j sym).mono (fun _ h => h) (fun _ _ h => h.2)
    fun _ _ h => h
  consumeKeyword kw s j := (triple_consumeKeyword hsrc s j kw).mono (fun _ h => h)
    (fun _ _ h => h.2) fun _ _ h => h
  bump s j := (triple_bump hsrc s j).mono (fun _ h => h) (fun _ _ h => h.2) fun _ _ h => h

/-! ### The whole parse -/

/-- The parser ends on every stream of tokens and stays within it. The run that parses a module,
from `fuelFor`, never reaches a rule with no fuel left: it ends with the reader unmarked, and a
mark, once made, stays to the end of every rule. More fuel parses the same module, stops at the
same token or fails alike. Every rule, from a cursor that has passed no end of input or lexer
error, ends at such a cursor again, which stands within the tokens; and every loop body takes a
token whenever it succeeds. -/
theorem parse_terminates_within_tokens (tokens : List Token) (names : TypeNames)
    (path : String) :
    let src := Source.ofTokens tokens path
    (exec src (elements (fuelFor src.tokens.size)) (Reader.start names)).2.outOfFuel = false ∧
    (∀ fuel, RulesKept src (fun r => r.outOfFuel = true) (fun _ => True) fuel) ∧
    (∀ m, fuelFor src.tokens.size ≤ m →
      exec src (elements m) (Reader.start names) =
        exec src (elements (fuelFor src.tokens.size)) (Reader.start names)) ∧
    (∀ fuel, RulesKept src (Clear src) (fun _ => True) fuel) ∧
    (∀ r, Clear src r → r.index < src.tokens.size) ∧
    LoopBodies src := by
  intro src
  have hsrc : src.EndsInEof := Source.ofTokens_endsInEof tokens path
  have hsize : 0 < src.tokens.size := Source.ofTokens_size_pos tokens path
  -- the first token needs the height of `elements` and four units for every token
  have hneed : need src 8 0 ≤ fuelFor src.tokens.size := by unfold need fuelFor; omega
  have hfits : ∀ m, fuelFor src.tokens.size ≤ m →
      Fits src (Past src 0 0) (elements (fuelFor src.tokens.size)) (elements m) :=
    fun m hm => (sufficientModule hsrc _).elements m 0 hm hneed
  have hstart : Past src 0 0 (Reader.start names) := ⟨Nat.le_refl _, hsize⟩
  refine ⟨(hfits _ (Nat.le_refl _)).2.exec_fresh hstart rfl, (marked src).rulesKept,
    fun m hm => ((hfits m hm).1 _ hstart).symm, (clear src).rulesKept,
    fun _ hr => hr.lt_size hsrc hsize, loopBodies hsrc⟩

end Parse

end ModularC
