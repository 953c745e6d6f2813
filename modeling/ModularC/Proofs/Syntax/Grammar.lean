import ModularC.Proofs.Syntax.Discipline
import ModularC.Proofs.Syntax.Within

/-!
Every rule of the grammar keeps every discipline (`Discipline.rulesKept`).
-/

namespace ModularC

namespace Parse

variable {src : Source} {W : Reader → Prop} {G : Position → Prop} {Err : Error → Prop}

/-- Every rule below `element`, run with `fuel` from a reader that `W` accepts, ends in one and
fails only with an error that `Err` accepts; the rules that take the token under the cursor do so
from a token that does not block. -/
structure Rules (src : Source) (imports : Bool) (W : Reader → Prop) (Err : Error → Prop)
    (fuel : Nat) : Prop where
  qualifiers : Kept src W Err (qualifiers fuel)
  pointerList : Kept src W Err (pointerList fuel)
  expr : ∀ floor, Kept src W Err (expr fuel floor)
  exprRest : ∀ floor lhs, Kept src W Err (exprRest fuel floor lhs)
  unary : Kept src W Err (unary fuel)
  parenType : Kept src W Err (parenType fuel)
  trailers : ∀ e, Kept src W Err (trailers fuel e)
  callArgs : Kept src W Err (callArgs fuel)
  atom : Kept src W Err (atom fuel)
  structMembers : Kept src W Err (structMembers fuel)
  arrayEntries : Kept src W Err (arrayEntries fuel)
  typeName : Kept src W Err (typeName fuel)
  baseParts : ∀ hasBase, Kept src W Err (baseParts fuel hasBase)
  baseType : Kept src W Err (baseType fuel)
  record : ∀ t : Token, t.kind.blocks imports = false → KeptAt src W Err t (record fuel)
  fields : Kept src W Err (fields fuel)
  enumerators : Kept src W Err (enumerators fuel)
  declarators : ∀ base f, Kept src W Err (declarators fuel base f)
  declaratorList : ∀ f, Kept src W Err (declaratorList fuel f)
  form : ∀ anonymousOk, Kept src W Err (form fuel anonymousOk)
  modifiers : Kept src W Err (modifiers fuel)
  params : Kept src W Err (params fuel)
  paramList : Kept src W Err (paramList fuel)
  block : Kept src W Err (block fuel)
  blockItems : Kept src W Err (blockItems fuel)
  stmt : Kept src W Err (stmt fuel)
  simpleStmt : Kept src W Err (simpleStmt fuel)
  condition : Kept src W Err (condition fuel)
  forStmt : Kept src W Err (forStmt fuel)
  switchStmt : Kept src W Err (switchStmt fuel)
  switchCases : ∀ cases, Kept src W Err (switchCases fuel cases)
  typedefElement : ∀ exported, Kept src W Err (typedefElement fuel exported)
  recordDefinition : ∀ exported (t : Token), t.kind.blocks imports = false →
    KeptAt src W Err t (recordDefinition fuel exported)
  recordForward : ∀ t : Token, t.kind.blocks imports = false → KeptAt src W Err t (recordForward fuel)
  declarationElement : Kept src W Err (declarationElement fuel)

/-- Every rule of the grammar, run with `fuel` from a reader that `W` accepts, ends in one and
fails only with an error that `Err` accepts. -/
structure RulesKept (src : Source) (W : Reader → Prop) (Err : Error → Prop) (fuel : Nat) : Prop where
  qualifiers : Kept src W Err (qualifiers fuel)
  pointerList : Kept src W Err (pointerList fuel)
  expr : ∀ floor, Kept src W Err (expr fuel floor)
  exprRest : ∀ floor lhs, Kept src W Err (exprRest fuel floor lhs)
  unary : Kept src W Err (unary fuel)
  parenType : Kept src W Err (parenType fuel)
  trailers : ∀ e, Kept src W Err (trailers fuel e)
  callArgs : Kept src W Err (callArgs fuel)
  atom : Kept src W Err (atom fuel)
  structMembers : Kept src W Err (structMembers fuel)
  arrayEntries : Kept src W Err (arrayEntries fuel)
  typeName : Kept src W Err (typeName fuel)
  baseParts : ∀ hasBase, Kept src W Err (baseParts fuel hasBase)
  baseType : Kept src W Err (baseType fuel)
  record : ∀ t : Token, t.kind.stops = false → KeptAt src W Err t (record fuel)
  fields : Kept src W Err (fields fuel)
  enumerators : Kept src W Err (enumerators fuel)
  declarators : ∀ base f, Kept src W Err (declarators fuel base f)
  declaratorList : ∀ f, Kept src W Err (declaratorList fuel f)
  form : ∀ anonymousOk, Kept src W Err (form fuel anonymousOk)
  modifiers : Kept src W Err (modifiers fuel)
  params : Kept src W Err (params fuel)
  paramList : Kept src W Err (paramList fuel)
  block : Kept src W Err (block fuel)
  blockItems : Kept src W Err (blockItems fuel)
  stmt : Kept src W Err (stmt fuel)
  simpleStmt : Kept src W Err (simpleStmt fuel)
  condition : Kept src W Err (condition fuel)
  forStmt : Kept src W Err (forStmt fuel)
  switchStmt : Kept src W Err (switchStmt fuel)
  switchCases : ∀ cases, Kept src W Err (switchCases fuel cases)
  typedefElement : ∀ exported, Kept src W Err (typedefElement fuel exported)
  recordDefinition : ∀ exported (t : Token), t.kind.stops = false →
    KeptAt src W Err t (recordDefinition fuel exported)
  recordForward : ∀ t : Token, t.kind.stops = false → KeptAt src W Err t (recordForward fuel)
  declarationElement : Kept src W Err (declarationElement fuel)
  element : Kept src W Err (element fuel)
  elements : Kept src W Err (elements fuel)

section Rules

variable {imports : Bool} (D : Regime src imports W G Err)
include D

theorem kept_directiveElement {line : String} {p : Position} (hp : G p) :
    Kept src W Err (directiveElement line p) := by
  rw [directiveElement]
  split
  · exact (D.kept_register hp).bind fun _ => Kept.pure _
  · exact Kept.pure _
  · exact Kept.pure _

theorem Rules.zero (hx : ∀ r, W r → W { r with outOfFuel := true }) :
    Rules src imports W Err 0 where
  qualifiers := D.exhausted_kept hx
  pointerList := D.exhausted_kept hx
  expr _ := D.exhausted_kept hx
  exprRest _ _ := D.exhausted_kept hx
  unary := D.exhausted_kept hx
  parenType := D.exhausted_kept hx
  trailers _ := D.exhausted_kept hx
  callArgs := D.exhausted_kept hx
  atom := D.exhausted_kept hx
  structMembers := D.exhausted_kept hx
  arrayEntries := D.exhausted_kept hx
  typeName := D.exhausted_kept hx
  baseParts _ := D.exhausted_kept hx
  baseType := D.exhausted_kept hx
  record _ _ := .of (D.exhausted_kept hx)
  fields := D.exhausted_kept hx
  enumerators := D.exhausted_kept hx
  declarators _ _ := D.exhausted_kept hx
  declaratorList _ := D.exhausted_kept hx
  form _ := D.exhausted_kept hx
  modifiers := D.exhausted_kept hx
  params := D.exhausted_kept hx
  paramList := D.exhausted_kept hx
  block := D.exhausted_kept hx
  blockItems := D.exhausted_kept hx
  stmt := D.exhausted_kept hx
  simpleStmt := D.exhausted_kept hx
  condition := D.exhausted_kept hx
  forStmt := D.exhausted_kept hx
  switchStmt := D.exhausted_kept hx
  switchCases _ := D.exhausted_kept hx
  typedefElement _ := D.exhausted_kept hx
  recordDefinition _ _ _ := .of (D.exhausted_kept hx)
  recordForward _ _ := .of (D.exhausted_kept hx)
  declarationElement := D.exhausted_kept hx

/-! ### One more unit of fuel

Each rule with `fuel + 1` calls the rules with `fuel`, which `ih` bounds. -/

variable {fuel : Nat} (ih : Rules src imports W Err fuel)
include ih

theorem kept_qualifiers : Kept src W Err (qualifiers (fuel + 1)) := by
  rw [qualifiers]
  refine Kept.peek_bind fun t => ?_
  split
  next kw hkind =>
    split
    next hq =>
      have hkw : kw ≠ .import_ := by
        rintro rfl
        simp at hq
      exact D.bump_bind (by rw [hkind]; exact TokenKind.blocks_keyword hkw) fun _ =>
        ih.qualifiers.bind fun _ => Kept.pure _
    · exact .of (Kept.pure _)
  next => exact .of (Kept.pure _)

theorem kept_pointerList : Kept src W Err (pointerList (fuel + 1)) := by
  rw [pointerList]
  refine (D.kept_consume _).bind fun b => ?_
  split
  · exact ih.qualifiers.bind fun _ => ih.pointerList.bind fun _ => Kept.pure _
  · exact Kept.pure _

omit D in
theorem kept_expr (floor : Nat) : Kept src W Err (expr (fuel + 1) floor) := by
  rw [expr]
  exact ih.unary.bind fun lhs => ih.exprRest floor lhs

theorem kept_exprRest (floor : Nat) (lhs : Expr) :
    Kept src W Err (exprRest (fuel + 1) floor lhs) := by
  rw [exprRest]
  suffices hB : Kept src W Err ((fun (_ : Unit) => _) ()) by
    split
    · refine (D.kept_consume _).bind fun b => ?_
      split
      · exact (ih.expr 0).bind fun _ => (D.kept_expect _).bind fun _ =>
          (ih.expr _).bind fun _ => ih.exprRest floor _
      · exact hB
    · exact hB
  refine Kept.peek_bind fun t => ?_
  split
  next s hkind =>
    split
    next op _ =>
      split
      · exact .of (Kept.pure _)
      refine D.bump_bind (by rw [hkind]; rfl) fun _ => ?_
      extract_lets +lift jp
      have hjp : ∀ rhs, Kept src W Err (jp rhs) := fun _ => ih.exprRest floor _
      split
      · exact (D.kept_expectWord).bind fun _ => (ih.trailers _).bind hjp
      split
      · exact (ih.expr _).bind hjp
      · exact (ih.expr _).bind hjp
    next => exact .of (Kept.pure _)
  next => exact .of (Kept.pure _)

theorem kept_unary : Kept src W Err (unary (fuel + 1)) := by
  rw [unary]
  refine Kept.peek_bind fun t => ?_
  extract_lets +lift jsize jatom jp
  have hsize : ∀ u, Kept src W Err (jsize u) := fun _ =>
    (ih.expr _).bind fun _ => Kept.pure _
  have hatom : ∀ u, Kept src W Err (jatom u) := fun _ => ih.atom.bind fun a => ih.trailers a
  have hjp : ∀ u, Kept src W Err (jp u) := by
    intro u
    dsimp -zeta only [jp]
    refine (D.kept_consumeKeyword .sizeof rfl).bind fun b => ?_
    split
    · refine Kept.check_bind fun c => Kept.peekAt_bind fun v => Kept.startsType_bind
        fun d => ?_
      split
      · refine (D.kept_attempt ih.parenType).bind fun o => ?_
        split
        · exact Kept.pure _
        · exact hsize ()
      · exact hsize ()
    · refine Kept.check_bind fun c => Kept.peekAt_bind fun v => Kept.startsType_bind
        fun d => ?_
      split
      · refine (D.kept_attempt ih.parenType).bind fun o => ?_
        split
        · exact (ih.expr _).bind fun _ => Kept.pure _
        · exact hatom ()
      · exact hatom ()
  split
  next s hkind =>
    split
    · exact D.bump_bind (by rw [hkind]; rfl) fun _ =>
        (ih.expr _).bind fun _ => Kept.pure _
    · exact .of (hjp ())
  next => exact .of (hjp ())

theorem kept_parenType : Kept src W Err (parenType (fuel + 1)) := by
  rw [parenType]
  exact (D.kept_expect _).bind fun _ => ih.typeName.bind fun _ =>
    (D.kept_expect _).bind fun _ => Kept.pure _

theorem kept_trailers (e : Expr) : Kept src W Err (trailers (fuel + 1) e) := by
  rw [trailers]
  refine (D.kept_consume _).bind fun b => ?_
  split
  · refine (D.kept_consume _).bind fun c => ?_
    extract_lets +lift jp
    have hjp : ∀ args, Kept src W Err (jp args) := fun _ => ih.trailers _
    split
    · exact (Kept.pure _).bind hjp
    · exact ih.callArgs.bind hjp
  refine (D.kept_consume _).bind fun c => ?_
  split
  · exact (ih.expr 0).bind fun _ => (D.kept_expect _).bind fun _ => ih.trailers _
  refine (D.kept_consume _).bind fun d => ?_
  split
  · exact ih.trailers _
  refine (D.kept_consume _).bind fun d => ?_
  split
  · exact ih.trailers _
  · exact Kept.pure _

theorem kept_callArgs : Kept src W Err (callArgs (fuel + 1)) := by
  rw [callArgs]
  refine (ih.expr 0).bind fun _ => (D.kept_consume _).bind fun b => ?_
  split
  · exact ih.callArgs.bind fun _ => Kept.pure _
  · exact (D.kept_expect _).bind fun _ => Kept.pure _

theorem kept_atom : Kept src W Err (atom (fuel + 1)) := by
  rw [atom]
  refine Kept.peek_bind fun t => ?_
  split
  next w hkind => exact D.bump_bind (by rw [hkind]; rfl) fun _ => Kept.pure _
  next n hkind => exact D.bump_bind (by rw [hkind]; rfl) fun _ => Kept.pure _
  next s hkind => exact D.bump_bind (by rw [hkind]; rfl) fun _ => Kept.pure _
  next c hkind => exact D.bump_bind (by rw [hkind]; rfl) fun _ => Kept.pure _
  next hkind =>
    exact D.bump_bind (by rw [hkind]; rfl) fun _ => (ih.expr 0).bind fun _ =>
      (D.kept_expect _).bind fun _ => Kept.pure _
  next hkind =>
    refine D.bump_bind (by rw [hkind]; rfl) fun _ => Kept.peek_bind fun u => ?_
    split
    · exact .of (ih.structMembers.bind fun _ => Kept.pure _)
    · exact .of (ih.arrayEntries.bind fun _ => Kept.pure _)
  next => exact .of (D.kept_fail _)

theorem kept_structMembers : Kept src W Err (structMembers (fuel + 1)) := by
  rw [structMembers]
  refine (D.kept_consume _).bind fun b => ?_
  split
  · exact Kept.pure _
  refine (D.kept_expect _).bind fun _ => (D.kept_expectWord).bind fun _ =>
    (D.kept_expect _).bind fun _ => (ih.expr 0).bind fun _ =>
      (D.kept_consume _).bind fun c => ?_
  split
  · exact ih.structMembers.bind fun _ => Kept.pure _
  · exact (D.kept_expect _).bind fun _ => Kept.pure _

theorem kept_arrayEntries : Kept src W Err (arrayEntries (fuel + 1)) := by
  rw [arrayEntries]
  refine (D.kept_consume _).bind fun b => ?_
  split
  · exact Kept.pure _
  refine (D.kept_consume _).bind fun c => ?_
  extract_lets +lift jp
  have hjp : ∀ index, Kept src W Err (jp index) := by
    intro index
    dsimp -zeta only [jp]
    refine (ih.expr 0).bind fun _ => (D.kept_consume _).bind fun d => ?_
    split
    · exact ih.arrayEntries.bind fun _ => Kept.pure _
    · exact (D.kept_expect _).bind fun _ => Kept.pure _
  split
  · exact (ih.expr 0).bind fun _ => (D.kept_expect _).bind fun _ =>
      (D.kept_expect _).bind fun _ => (Kept.pure _).bind hjp
  · exact (Kept.pure _).bind hjp

omit D in
theorem kept_typeName : Kept src W Err (typeName (fuel + 1)) := by
  rw [typeName]
  exact ih.baseType.bind fun _ => (ih.form true).bind fun _ => Kept.pure _

theorem kept_baseParts (hasBase : Bool) : Kept src W Err (baseParts (fuel + 1) hasBase) := by
  rw [baseParts]
  refine Kept.peek_bind fun t => ?_
  split
  next kw hkind =>
    -- a modifier, a base type keyword or a record keyword is no `import`
    have ht : kw ≠ .import_ → t.kind.blocks imports = false := fun hkw => by
      rw [hkind]
      exact TokenKind.blocks_keyword hkw
    split
    next hmod =>
      refine D.bump_bind (ht ?_) fun _ => (ih.baseParts _).bind fun ⟨_, _⟩ => Kept.pure _
      rintro rfl
      cases hmod
    split
    next hbase =>
      refine D.bump_bind (ht ?_) fun _ => (ih.baseParts _).bind fun ⟨_, _⟩ => Kept.pure _
      rintro rfl
      cases hbase
    split
    next hrec =>
      refine (ih.record t (ht ?_)).bind fun _ => (ih.baseParts _).bind fun ⟨_, _⟩ => Kept.pure _
      rintro rfl
      cases hrec
    · exact .of (Kept.pure _)
  next w hkind =>
    refine KeptAt.get_bind fun rd => ?_
    split
    · exact D.bump_bind (by rw [hkind]; rfl) fun _ =>
        (ih.baseParts _).bind fun ⟨_, _⟩ => Kept.pure _
    · exact .of (Kept.pure _)
  next => exact .of (Kept.pure _)

theorem kept_baseType : Kept src W Err (baseType (fuel + 1)) := by
  rw [baseType]
  refine (ih.baseParts false).bind fun ⟨parts, hasBase⟩ => ?_
  dsimp only
  split
  · exact (D.kept_fail _).bind fun _ => Kept.pure _
  · exact Kept.pure _

theorem kept_record {t : Token} (ht : t.kind.blocks imports = false) :
    KeptAt src W Err t (record (fuel + 1)) := by
  rw [record]
  extract_lets +lift jp
  have hjp : ∀ kind, Kept src W Err (jp kind) := by
    intro kind
    dsimp -zeta only [jp]
    extract_lets +lift jbody
    have hbody : ∀ name, Kept src W Err (jbody name) := by
      intro name
      dsimp -zeta only [jbody]
      refine (D.kept_consume _).bind fun b => ?_
      split
      · dsimp only
        split
        · exact (D.kept_fail _).bind fun _ => Kept.pure _
        · exact Kept.pure _
      split
      · exact ih.enumerators.bind fun _ => Kept.pure _
      · exact ih.fields.bind fun _ => Kept.pure _
    refine Kept.peek_bind fun u => ?_
    split
    · exact .of ((D.kept_expectWord).map.bind hbody)
    · exact .of ((Kept.pure _).bind hbody)
  refine D.bump_bind ht fun u => ?_
  split
  · exact (Kept.pure _).bind hjp
  · exact (Kept.pure _).bind hjp
  · exact (Kept.pure _).bind hjp
  · exact (D.kept_fail _).bind hjp

theorem kept_fields : Kept src W Err (fields (fuel + 1)) := by
  rw [fields]
  refine (D.kept_consume _).bind fun b => ?_
  split
  · exact Kept.pure _
  · exact ih.baseType.bind fun base => (ih.form false).bind fun f =>
      (ih.declarators base f).bind fun _ => ih.fields.bind fun _ => Kept.pure _

theorem kept_enumerators : Kept src W Err (enumerators (fuel + 1)) := by
  rw [enumerators]
  refine (D.kept_consume _).bind fun b => ?_
  split
  · exact Kept.pure _
  refine (D.kept_expectWord).bind fun _ => (D.kept_consume _).bind fun c => ?_
  extract_lets +lift jp
  have hjp : ∀ value, Kept src W Err (jp value) := by
    intro value
    dsimp -zeta only [jp]
    refine (D.kept_consume _).bind fun d => ?_
    split
    · exact ih.enumerators.bind fun _ => Kept.pure _
    · exact (D.kept_expect _).bind fun _ => Kept.pure _
  split
  · exact (ih.expr 0).map.bind hjp
  · exact (Kept.pure _).bind hjp

theorem kept_declarators (base : BaseType) (f : Form) :
    Kept src W Err (declarators (fuel + 1) base f) := by
  rw [declarators]
  exact (ih.declaratorList f).bind fun _ => (D.kept_expect _).bind fun _ => Kept.pure _

theorem kept_declaratorList (f : Form) : Kept src W Err (declaratorList (fuel + 1) f) := by
  rw [declaratorList]
  refine (D.kept_consume _).bind fun b => ?_
  extract_lets +lift jp
  have hjp : ∀ init, Kept src W Err (jp init) := by
    intro init
    dsimp -zeta only [jp]
    refine (D.kept_consume _).bind fun c => ?_
    split
    · exact (ih.form false).bind fun next => (ih.declaratorList next).bind fun _ => Kept.pure _
    · exact Kept.pure _
  split
  · exact (ih.expr 0).map.bind hjp
  · exact (Kept.pure _).bind hjp

theorem kept_form (anonymousOk : Bool) : Kept src W Err (form (fuel + 1) anonymousOk) := by
  rw [form]
  refine ih.pointerList.bind fun ps => Kept.peek_bind fun t => KeptAt.check_bind ?_
  refine KeptAt.peekAt_bind fun u => ?_
  extract_lets +lift jp
  have hjp : ∀ core, Kept src W Err (jp core) := fun _ =>
    ih.modifiers.bind fun _ => Kept.pure _
  split
  · exact .of ((D.kept_expectWord).map.bind hjp)
  split
  next hnest =>
    have ht : t.kind.blocks imports = false := by
      rw [Bool.and_eq_true] at hnest
      exact Token.blocks_of_isSymbol hnest.1
    exact D.bump_bind ht fun _ => (ih.form _).bind fun _ =>
      (D.kept_expect _).bind fun _ => (Kept.pure _).bind hjp
  split
  · exact .of ((Kept.pure _).bind hjp)
  · exact .of ((D.kept_fail _).bind hjp)

theorem kept_modifiers : Kept src W Err (modifiers (fuel + 1)) := by
  rw [modifiers]
  refine (D.kept_consume _).bind fun b => ?_
  split
  · refine Kept.check_bind fun c => ?_
    extract_lets +lift jp
    have hjp : ∀ size, Kept src W Err (jp size) := fun _ =>
      (D.kept_expect _).bind fun _ => ih.modifiers.bind fun _ => Kept.pure _
    split
    · exact (Kept.pure _).bind hjp
    · exact (ih.expr 0).map.bind hjp
  · refine Kept.check_bind fun c => ?_
    split
    · exact ih.params.bind fun _ => ih.modifiers.bind fun _ => Kept.pure _
    · exact Kept.pure _

theorem kept_params : Kept src W Err (params (fuel + 1)) := by
  rw [params]
  refine (D.kept_expect _).bind fun _ => (D.kept_consume _).bind fun b => ?_
  split
  · exact Kept.pure _
  · exact ih.paramList

theorem kept_paramList : Kept src W Err (paramList (fuel + 1)) := by
  rw [paramList]
  refine (D.kept_consume _).bind fun b => ?_
  split
  · exact (D.kept_expect _).bind fun _ => Kept.pure _
  refine ih.baseType.bind fun _ => (ih.form true).bind fun _ =>
    (D.kept_consume _).bind fun c => ?_
  split
  · exact ih.paramList.bind fun _ => Kept.pure _
  · exact (D.kept_expect _).bind fun _ => Kept.pure _

theorem kept_block : Kept src W Err (block (fuel + 1)) := by
  rw [block]
  exact (D.kept_expect _).bind fun _ => ih.blockItems

theorem kept_blockItems : Kept src W Err (blockItems (fuel + 1)) := by
  rw [blockItems]
  refine (D.kept_consume _).bind fun b => ?_
  split
  · exact Kept.pure _
  · exact ih.stmt.bind fun _ => ih.blockItems.bind fun _ => Kept.pure _

theorem kept_stmt : Kept src W Err (stmt (fuel + 1)) := by
  rw [stmt]
  refine Kept.peek_bind fun t => ?_
  split
  next hkind =>
    refine D.bump_bind (by rw [hkind]; rfl) fun _ => ih.condition.bind fun _ =>
      ih.stmt.bind fun _ => (D.kept_consumeKeyword .else_ rfl).bind fun b => ?_
    dsimp only
    split
    · exact ih.stmt.map.bind fun _ => Kept.pure _
    · exact (Kept.pure _).bind fun _ => Kept.pure _
  next hkind =>
    exact D.bump_bind (by rw [hkind]; rfl) fun _ => ih.condition.bind fun _ =>
      ih.stmt.bind fun _ => Kept.pure _
  next hkind =>
    exact D.bump_bind (by rw [hkind]; rfl) fun _ => ih.stmt.bind fun _ =>
      (D.kept_expectKeyword .while_ rfl).bind fun _ => ih.condition.bind fun _ =>
        (D.kept_expect _).bind fun _ => Kept.pure _
  next => exact .of ih.forStmt
  next => exact .of ih.switchStmt
  next hkind =>
    refine D.bump_bind (by rw [hkind]; rfl) fun _ => Kept.check_bind fun c => ?_
    extract_lets +lift jp
    have hjp : ∀ value, Kept src W Err (jp value) := fun _ =>
      (D.kept_expect _).bind fun _ => Kept.pure _
    split
    · exact (Kept.pure _).bind hjp
    · exact (ih.expr 0).map.bind hjp
  next hkind =>
    exact D.bump_bind (by rw [hkind]; rfl) fun _ => (ih.expr 0).bind fun _ =>
      (D.kept_expect _).bind fun _ => Kept.pure _
  next hkind =>
    exact D.bump_bind (by rw [hkind]; rfl) fun _ =>
      (D.kept_expect _).bind fun _ => Kept.pure _
  next hkind =>
    exact D.bump_bind (by rw [hkind]; rfl) fun _ =>
      (D.kept_expect _).bind fun _ => Kept.pure _
  next => exact .of ih.simpleStmt
  next =>
    refine .of (Kept.check_bind fun c => ?_)
    split
    · exact ih.block.bind fun _ => Kept.pure _
    refine (D.kept_consume _).bind fun d => ?_
    split
    · exact Kept.pure _
    · exact ih.simpleStmt

theorem kept_simpleStmt : Kept src W Err (simpleStmt (fuel + 1)) := by
  rw [simpleStmt]
  refine Kept.peek_bind fun t => .of (Kept.startsType_bind fun b => ?_)
  split
  · exact ih.baseType.bind fun base => (ih.form false).bind fun f =>
      (ih.declarators base f).bind fun _ => Kept.pure _
  · exact (ih.expr 0).bind fun _ => (D.kept_expect _).bind fun _ => Kept.pure _

theorem kept_condition : Kept src W Err (condition (fuel + 1)) := by
  rw [condition]
  exact (D.kept_expect _).bind fun _ => (ih.expr 0).bind fun _ =>
    (D.kept_expect _).bind fun _ => Kept.pure _

theorem forStmt_after_keyword :
    ∃ rest, forStmt (fuel + 1) = expectKeyword .for_ >>= rest ∧ ∀ a, Kept src W Err (rest a) := by
  refine ⟨_, by rw [forStmt], fun _ => ?_⟩
  refine (D.kept_expect _).bind fun _ => (D.kept_consume _).bind fun b => Kept.peek_bind fun t =>
    .of (Kept.startsType_bind fun c => ?_)
  extract_lets +lift jinit
  have hinit : ∀ init, Kept src W Err (jinit init) := by
    intro init
    dsimp -zeta only [jinit]
    extract_lets +lift jcond
    have hcond : ∀ cond, Kept src W Err (jcond cond) := by
      intro cond
      dsimp -zeta only [jcond]
      extract_lets +lift jstep
      have hstep : ∀ step, Kept src W Err (jstep step) := fun _ =>
        (D.kept_expect _).bind fun _ => ih.stmt.bind fun _ => Kept.pure _
      refine (D.kept_expect _).bind fun _ => Kept.check_bind fun e => ?_
      split
      · exact (Kept.pure _).bind hstep
      · exact (ih.expr 0).map.bind hstep
    refine Kept.check_bind fun d => ?_
    split
    · exact (Kept.pure _).bind hcond
    · exact (ih.expr 0).map.bind hcond
  split
  · exact (Kept.pure _).bind hinit
  split
  · exact ih.baseType.bind fun base => (ih.form false).bind fun f =>
      (ih.declarators base f).bind fun _ => (Kept.pure _).bind hinit
  · exact (ih.expr 0).bind fun _ => (D.kept_expect _).bind fun _ =>
      (Kept.pure _).bind hinit

theorem kept_forStmt : Kept src W Err (forStmt (fuel + 1)) := by
  obtain ⟨rest, hfor, hrest⟩ := forStmt_after_keyword D ih
  rw [hfor]
  exact (D.kept_expectKeyword .for_ rfl).bind hrest

theorem kept_switchStmt : Kept src W Err (switchStmt (fuel + 1)) := by
  rw [switchStmt]
  exact (D.kept_expectKeyword .switch rfl).bind fun _ => ih.condition.bind fun _ =>
    (D.kept_expect _).bind fun _ => (ih.switchCases _).bind fun _ => Kept.pure _

theorem kept_switchCases (cases : Array Case) :
    Kept src W Err (switchCases (fuel + 1) cases) := by
  rw [switchCases]
  refine (D.kept_consume _).bind fun b => ?_
  split
  · exact Kept.pure _
  refine (D.kept_consumeKeyword .case rfl).bind fun c => ?_
  split
  · exact (ih.expr 0).bind fun _ => (D.kept_expect _).bind fun _ => ih.switchCases _
  refine (D.kept_consumeKeyword .default rfl).bind fun d => ?_
  split
  · exact (D.kept_expect _).bind fun _ => ih.switchCases _
  split
  · exact D.kept_fail _
  · exact ih.stmt.bind fun _ => ih.switchCases _

theorem kept_typedefElement (exported : Bool) :
    Kept src W Err (typedefElement (fuel + 1) exported) := by
  rw [typedefElement]
  refine (D.kept_expectKeyword .typedef rfl).bind fun _ => ih.baseType.bind fun _ =>
    (ih.form false).bind fun f => ?_
  split
  · exact D.kept_fail _
  · exact (D.kept_expect _).bind fun _ => D.get_namePos_bind fun _ hpos =>
      (D.kept_register hpos).bind fun _ => Kept.pure _

theorem kept_recordDefinition (exported : Bool) {t : Token} (ht : t.kind.blocks imports = false) :
    KeptAt src W Err t (recordDefinition (fuel + 1) exported) := by
  rw [recordDefinition]
  refine (ih.record t ht).bind fun r => (D.kept_expect _).bind fun _ => ?_
  split
  · exact Kept.pure _
  · exact Kept.pure _
  · exact D.kept_fail _

omit ih in
theorem kept_recordForward {t : Token} (ht : t.kind.blocks imports = false) :
    KeptAt src W Err t (recordForward (fuel + 1)) := by
  rw [recordForward]
  refine D.bump_bind ht fun u => ?_
  extract_lets +lift jp
  have hjp : ∀ kind, Kept src W Err (jp kind) := fun _ =>
    (D.kept_expectWord).bind fun _ => (D.kept_expect _).bind fun _ => Kept.pure _
  split
  · exact (Kept.pure _).bind hjp
  · exact (Kept.pure _).bind hjp
  · exact (D.kept_fail _).bind hjp

theorem kept_declarationElement : Kept src W Err (declarationElement (fuel + 1)) := by
  rw [declarationElement]
  refine (D.kept_consumeKeyword .pub rfl).bind fun exported => Kept.peek_bind fun t => ?_
  split
  · exact .of (ih.typedefElement exported)
  extract_lets +lift jp
  have hjp : ∀ u, Kept src W Err (jp u) := by
    intro u
    dsimp -zeta only [jp]
    refine ih.baseType.bind fun base => (ih.form false).bind fun f => ?_
    extract_lets +lift jbody jglobal
    have hbody : ∀ body, Kept src W Err (jbody body) := fun _ => Kept.pure _
    have hglobal : ∀ u, Kept src W Err (jglobal u) := fun _ =>
      (ih.declarators base f).bind fun _ => Kept.pure _
    split
    · refine (D.kept_consume _).bind fun b => ?_
      split
      · exact (Kept.pure _).bind hbody
      · exact ih.block.map.bind hbody
    split
    · refine Triple.read.bind fun s => Triple.of_pre (fun _ h => h.2) fun hs => ?_
      subst hs
      refine (D.get_namePos_bind fun _ hpos => ?_).strengthen fun _ hr => hr.1
      exact (Triple.throw fun _ hr => ⟨hr, D.pubVariable _ _ hpos⟩).bind hglobal
    · exact hglobal ()
  split
  next hrec =>
    have ht : t.kind.blocks imports = false := by
      simp only [Bool.or_eq_true] at hrec
      rcases hrec with (h | h) | h <;> exact Token.blocks_of_isKeyword h rfl
    refine D.attempt_bind (ih.recordDefinition exported t ht) (fun _ => Kept.pure _) ?_
    refine D.attempt_bind (ih.recordForward t ht) (fun _ => Kept.pure _) ?_
    exact .of (hjp ())
  · exact .of (hjp ())

theorem Rules.succ : Rules src imports W Err (fuel + 1) where
  qualifiers := kept_qualifiers D ih
  pointerList := kept_pointerList D ih
  expr := kept_expr ih
  exprRest := kept_exprRest D ih
  unary := kept_unary D ih
  parenType := kept_parenType D ih
  trailers := kept_trailers D ih
  callArgs := kept_callArgs D ih
  atom := kept_atom D ih
  structMembers := kept_structMembers D ih
  arrayEntries := kept_arrayEntries D ih
  typeName := kept_typeName ih
  baseParts := kept_baseParts D ih
  baseType := kept_baseType D ih
  record _ := kept_record D ih
  fields := kept_fields D ih
  enumerators := kept_enumerators D ih
  declarators := kept_declarators D ih
  declaratorList := kept_declaratorList D ih
  form := kept_form D ih
  modifiers := kept_modifiers D ih
  params := kept_params D ih
  paramList := kept_paramList D ih
  block := kept_block D ih
  blockItems := kept_blockItems D ih
  stmt := kept_stmt D ih
  simpleStmt := kept_simpleStmt D ih
  condition := kept_condition D ih
  forStmt := kept_forStmt D ih
  switchStmt := kept_switchStmt D ih
  switchCases := kept_switchCases D ih
  typedefElement := kept_typedefElement D ih
  recordDefinition exported _ := kept_recordDefinition D ih exported
  recordForward _ := kept_recordForward D
  declarationElement := kept_declarationElement D ih

end Rules

/-- Every rule below `element` keeps every regime. -/
theorem Regime.rules {imports : Bool} (D : Regime src imports W G Err)
    (hx : ∀ r, W r → W { r with outOfFuel := true }) : ∀ fuel, Rules src imports W Err fuel
  | 0 => .zero D hx
  | fuel + 1 => (D.rules hx fuel).succ D

theorem RulesKept.rules {fuel : Nat} (h : RulesKept src W Err fuel) : Rules src true W Err fuel :=
  { h with
    record := fun t ht => h.record t (by rwa [TokenKind.blocks_true] at ht)
    recordDefinition := fun exported t ht =>
      h.recordDefinition exported t (by rwa [TokenKind.blocks_true] at ht)
    recordForward := fun t ht => h.recordForward t (by rwa [TokenKind.blocks_true] at ht) }

theorem Rules.rulesKept {fuel : Nat} (h : Rules src true W Err fuel)
    (helement : Kept src W Err (element fuel)) (helements : Kept src W Err (elements fuel)) :
    RulesKept src W Err fuel :=
  { h with
    record := fun t ht => h.record t (by rwa [TokenKind.blocks_true])
    recordDefinition := fun exported t ht =>
      h.recordDefinition exported t (by rwa [TokenKind.blocks_true])
    recordForward := fun t ht => h.recordForward t (by rwa [TokenKind.blocks_true])
    element := helement
    elements := helements }

section Elements

variable (D : Regime src true W G Err)
include D

theorem kept_importElement : Kept src W Err importElement := by
  rw [importElement]
  refine (D.kept_expectKeyword .import_ rfl).bind fun _ => Kept.peek_bind fun t => ?_
  split
  next hkind =>
    exact D.bump_bind (by rw [hkind]; rfl) fun _ =>
      (D.kept_consume _).bind fun _ => Kept.pure _
  next => exact .of (D.kept_fail _)

variable {fuel : Nat} (ih : RulesKept src W Err fuel)
include ih

theorem kept_element : Kept src W Err (element (fuel + 1)) := by
  rw [element]
  refine Kept.peek_bind fun t => ?_
  split
  next line hkind =>
    -- a directive registers its name at its own place, the place of its token
    have ht : t.kind.blocks true = false := by rw [hkind]; rfl
    refine D.before ht fun hpos => ?_
    exact D.bump_bind ht fun _ =>
      (kept_directiveElement D hpos).bind fun _ => Kept.pure _
  next => exact .of ((kept_importElement D).bind fun _ => Kept.pure _)
  next hkind => exact D.bump_bind (by rw [hkind]; rfl) fun _ => Kept.pure _
  next => exact .of (ih.declarationElement.bind fun _ => Kept.pure _)

omit D in
theorem kept_elements : Kept src W Err (elements (fuel + 1)) := by
  rw [elements]
  refine Kept.peek_bind fun t => ?_
  split
  · exact .of (Kept.pure _)
  · exact .of (ih.element.bind fun _ => ih.elements.bind fun _ => Kept.pure _)

end Elements

theorem RulesKept.zero (D : Discipline src W G Err) : RulesKept src W Err 0 :=
  (Rules.zero D.regime D.exhaust).rulesKept (D.regime.exhausted_kept D.exhaust)
    (D.regime.exhausted_kept D.exhaust)

theorem RulesKept.succ (D : Discipline src W G Err) {fuel : Nat} (ih : RulesKept src W Err fuel) :
    RulesKept src W Err (fuel + 1) :=
  (ih.rules.succ D.regime).rulesKept (kept_element D.regime ih) (kept_elements ih)

theorem Discipline.rulesKept (D : Discipline src W G Err) : ∀ fuel, RulesKept src W Err fuel
  | 0 => .zero D
  | fuel + 1 => (D.rulesKept fuel).succ D

theorem positioned (src : Source) :
    Discipline src (fun _ => True) (fun _ => True) fun e => e.pos?.isSome = true where
  step _ _ _ := trivial
  tokenPos _ _ _ := trivial
  namePos _ _ := trivial
  remember _ _ _ _ := trivial
  rewind _ _ _ _ _ _ := trivial
  error _ _ _ := by
    unfold Source.error
    dsimp only
    split <;> rfl
  redefinition _ _ _ := rfl
  pubVariable _ _ _ := rfl
  exhaust _ _ := trivial

end Parse

/-- A module that does not parse fails with an error that names a place. -/
theorem Module.ofTokens_pos? {tokens : List Token} {names : TypeNames} {path : String} {e : Error}
    (h : Module.ofTokens tokens names path = .error e) : e.pos?.isSome = true := by
  have hrun := ((Parse.positioned (Source.ofTokens tokens path)).rulesKept
    (Parse.fuelFor (Source.ofTokens tokens path).tokens.size)).elements (Reader.start names) trivial
  unfold Module.ofTokens at h
  dsimp only at h
  split at h
  next => cases h
  next e' r hres =>
    cases h
    rw [hres] at hrun
    exact hrun.2

end ModularC
