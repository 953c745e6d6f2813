import ModularC.Proofs.Syntax.Fresh

/-!
The fuel a rule of the expression and type grammar needs: its height, and four units for every
token left.
-/

namespace ModularC

namespace Parse

variable {α β : Type} {src : Source}

theorem Kept.triple {W : Reader → Prop} {Err : Error → Prop} {p : Parse α}
    (h : Kept src W Err p) : Triple src W p (fun _ => W) fun _ _ => True :=
  h.mono (fun _ h => h) (fun _ _ h => h) fun _ _ _ => trivial

/-- The fuel a rule of height `h` needs from the token `s` on. -/
def need (src : Source) (h s : Nat) : Nat := h + 4 * (src.tokens.size - s)

/-- Run with fuel `n` from a reader at `s` or past it, the rule `R` of height `h` ends as with any
more fuel and does not run out, once `n` covers what it needs from `s`. -/
def Settles (src : Source) (h n : Nat) (R : Nat → Parse α) : Prop :=
  ∀ m s, n ≤ m → need src h s ≤ n → Fits src (Past src s 0) (R n) (R m)

namespace Settles

variable {R : Nat → Parse α} {h hR n m s j : Nat}

theorem zero (hh : 1 ≤ h) : Settles src h 0 R :=
  fun _ _ _ hs => absurd hs (by unfold need; omega)

theorem succ (hR : ∀ m s, n ≤ m → need src h s ≤ n + 1 →
    Fits src (Past src s 0) (R (n + 1)) (R (m + 1))) : Settles src h (n + 1) R := by
  rintro (_ | m) s hm hs
  · omega
  · exact hR m s (by omega) hs

theorem call (hS : Settles src h n R) (hm : n ≤ m) (hs : need src hR s ≤ n + 1)
    (hh : h + 1 ≤ hR + 4 * j) : Fits src (Past src s j) (R n) (R m) := by
  refine Fits.of_past fun hlt => (hS m (s + j) hm ?_).strengthen fun _ hr => hr.shift
  unfold need at *
  omega

theorem bind {f g : α → Parse β} (hS : Settles src h n R) (hm : n ≤ m)
    (hs : need src hR s ≤ n + 1) (hh : h + 1 ≤ hR + 4 * j)
    (hK : Kept src (Past src s j) (fun _ => True) (R n))
    (hf : ∀ a, Fits src (Past src s j) (f a) (g a)) :
    Fits src (Past src s j) (R n >>= f) (R m >>= g) :=
  (hS.call hm hs hh).bind hK.triple hf

theorem same (hS : ∀ n, Settles src h n R) {n' : Nat} (hn : need src h s ≤ n + 4 * j)
    (hn' : need src h s ≤ n' + 4 * j) : Same src (Past src s j) (R n) (R n') := by
  refine Same.of_past fun hlt => ?_
  have hn : need src h (s + j) ≤ n := by unfold need at *; omega
  have hn' : need src h (s + j) ≤ n' := by unfold need at *; omega
  refine Same.strengthen ?_ fun _ hr => hr.shift
  rcases le_total n n' with hle | hle
  · exact (hS n n' (s + j) hle hn).1
  · exact (hS n' n (s + j) hle hn').1.symm

end Settles

/-! ### Rules that take a token whenever they succeed -/

section Progress

variable (hsrc : src.EndsInEof) (s j : Nat)
include hsrc

theorem triple_parenType : ∀ fuel,
    Triple src (Past src s j) (parenType fuel) (fun _ => Past src s (j + 1)) fun _ _ => True
  | 0 => Triple.exhausted
  | fuel + 1 => by
    rw [parenType]
    refine (triple_expect hsrc s j _).bind fun _ => ?_
    refine ((past hsrc s (j + 1)).rulesKept fuel).typeName.triple.bind fun _ => ?_
    exact (triple_expect hsrc s (j + 1) _).bind fun _ =>
      Triple.pure fun _ hr => hr.mono (Nat.le_succ _)

theorem triple_declarators : ∀ fuel base f,
    Triple src (Past src s j) (declarators fuel base f) (fun _ => Past src s (j + 1))
      fun _ _ => True
  | 0, _, _ => Triple.exhausted
  | fuel + 1, base, f => by
    rw [declarators]
    exact (((past hsrc s j).rulesKept fuel).declaratorList f).triple.bind fun _ =>
      (triple_expect hsrc s j _).bind fun _ => Triple.pure fun _ hr => hr

theorem triple_params : ∀ fuel,
    Triple src (Past src s j) (params fuel) (fun _ => Past src s (j + 1)) fun _ _ => True
  | 0 => Triple.exhausted
  | fuel + 1 => by
    rw [params]
    refine (triple_expect hsrc s j _).bind fun _ => (triple_consume hsrc s (j + 1) _).bind
      fun b => ?_
    split
    · exact Triple.pure fun _ hr => hr.1
    · exact ((past hsrc s (j + 1)).rulesKept fuel).paramList.triple.strengthen fun _ hr => hr.1

theorem triple_record : ∀ fuel,
    Triple src (Past src s j) (record fuel) (fun _ => Past src s (j + 1)) fun _ _ => True
  | 0 => Triple.exhausted
  | fuel + 1 => by
    have K := (past hsrc s (j + 1)).rulesKept fuel
    rw [record]
    extract_lets +lift jp
    have hjp : ∀ kind, Triple src (Past src s (j + 1)) (jp kind) (fun _ => Past src s (j + 1))
        fun _ _ => True := by
      intro kind
      dsimp -zeta only [jp]
      extract_lets +lift jbody
      have hbody : ∀ name, Triple src (Past src s (j + 1)) (jbody name)
          (fun _ => Past src s (j + 1)) fun _ _ => True := by
        intro name
        dsimp -zeta only [jbody]
        refine (triple_consume hsrc s (j + 1) _).bind fun b => ?_
        split
        · dsimp only
          split
          · exact Triple.fail _
          · exact Triple.pure fun _ hr => hr.1
        split
        · exact (K.enumerators.triple.strengthen fun _ hr => hr.1).bind fun _ =>
            Triple.pure fun _ hr => hr
        · exact (K.fields.triple.strengthen fun _ hr => hr.1).bind fun _ =>
            Triple.pure fun _ hr => hr
      have hword : Triple src (Past src s (j + 1)) expectWord (fun _ => Past src s (j + 1))
          fun _ _ => True :=
        (triple_expectWord hsrc s (j + 1)).mono (fun _ h => h) (fun _ _ h => h.mono (Nat.le_succ _))
          fun _ _ h => h
      refine Triple.peek.bind fun u => ?_
      split
      · exact ((Triple.map (Q := fun _ => Past src s (j + 1)) hword).strengthen
          fun _ hr => hr.1).bind hbody
      · exact (Triple.pure fun _ hr => hr.1).bind hbody
    -- a record keyword is no end of input, so the bump took it
    refine (triple_bump hsrc s j).bind fun t => ?_
    split
    next hkind => exact (Triple.pure fun _ hr => hr.2 (by rw [Token.isEof, hkind]; rfl)).bind hjp
    next hkind => exact (Triple.pure fun _ hr => hr.2 (by rw [Token.isEof, hkind]; rfl)).bind hjp
    next hkind => exact (Triple.pure fun _ hr => hr.2 (by rw [Token.isEof, hkind]; rfl)).bind hjp
    next => exact Triple.fail _

end Progress

/-! ### Every rule settles -/

/-- Every rule of the expression and type grammar, given fuel `n`, ends as with any more fuel once
`n` covers what it needs. -/
structure Sufficient (src : Source) (n : Nat) : Prop where
  qualifiers : Settles src 1 n qualifiers
  pointerList : Settles src 1 n pointerList
  expr : ∀ floor, Settles src 3 n (expr · floor)
  exprRest : ∀ floor lhs, Settles src 1 n (exprRest · floor lhs)
  unary : Settles src 2 n unary
  parenType : Settles src 1 n parenType
  trailers : ∀ e, Settles src 1 n (trailers · e)
  callArgs : Settles src 4 n callArgs
  atom : Settles src 1 n atom
  structMembers : Settles src 1 n structMembers
  arrayEntries : Settles src 4 n arrayEntries
  typeName : Settles src 4 n typeName
  baseParts : ∀ hasBase, Settles src 2 n (baseParts · hasBase)
  baseType : Settles src 3 n baseType
  record : Settles src 1 n record
  fields : Settles src 4 n fields
  enumerators : Settles src 1 n enumerators
  declarators : ∀ base f, Settles src 2 n (declarators · base f)
  declaratorList : ∀ f, Settles src 1 n (declaratorList · f)
  form : ∀ anonymousOk, Settles src 3 n (form · anonymousOk)
  modifiers : Settles src 2 n modifiers
  params : Settles src 1 n params
  paramList : Settles src 4 n paramList

theorem Sufficient.zero : Sufficient src 0 where
  qualifiers := .zero (by decide)
  pointerList := .zero (by decide)
  expr _ := .zero (by decide)
  exprRest _ _ := .zero (by decide)
  unary := .zero (by decide)
  parenType := .zero (by decide)
  trailers _ := .zero (by decide)
  callArgs := .zero (by decide)
  atom := .zero (by decide)
  structMembers := .zero (by decide)
  arrayEntries := .zero (by decide)
  typeName := .zero (by decide)
  baseParts _ := .zero (by decide)
  baseType := .zero (by decide)
  record := .zero (by decide)
  fields := .zero (by decide)
  enumerators := .zero (by decide)
  declarators _ _ := .zero (by decide)
  declaratorList _ := .zero (by decide)
  form _ := .zero (by decide)
  modifiers := .zero (by decide)
  params := .zero (by decide)
  paramList := .zero (by decide)

/-! ### One more unit of fuel

Each rule with `n + 1` is compared with itself with `m + 1`: the same steps, and calls with `n` and
`m`, which `ih` compares. `K j` says that the calls keep the reader `j` tokens past the start. -/

section Succ

variable (hsrc : src.EndsInEof) {n : Nat} (ih : Sufficient src n)
include hsrc ih

theorem settles_qualifiers : Settles src 1 (n + 1) qualifiers := .succ fun m s hm hs => by
  have K := fun j => (past hsrc s j).rulesKept n
  rw [qualifiers, qualifiers]
  refine Fits.peek_bind fun t => ?_
  split
  next kw hkind =>
    split
    · refine Fits.bump_seen_bind hsrc s 0 (by rw [Token.isEof, hkind]; rfl)
        fun _ => ?_
      exact ih.qualifiers.bind hm hs (by omega) (K 1).qualifiers fun _ => Fits.refl spares_pure
    · exact Fits.refl spares_pure
  next => exact Fits.refl spares_pure

theorem settles_pointerList : Settles src 1 (n + 1) pointerList := .succ fun m s hm hs => by
  have K := fun j => (past hsrc s j).rulesKept n
  rw [pointerList, pointerList]
  refine Fits.consume_bind hsrc s 0 fun b => ?_
  split
  · refine Fits.strengthen ?_ fun _ hr => hr.2 ‹_›
    exact ih.qualifiers.bind hm hs (by omega) (K 1).qualifiers fun _ =>
      ih.pointerList.bind hm hs (by omega) (K 1).pointerList fun _ => Fits.refl spares_pure
  · exact Fits.refl spares_pure

theorem settles_expr (floor : Nat) : Settles src 3 (n + 1) (expr · floor) :=
  .succ fun m s hm hs => by
  have K := fun j => (past hsrc s j).rulesKept n
  rw [expr, expr]
  exact ih.unary.bind hm hs (by omega) (K 0).unary fun _ =>
    (ih.exprRest _ _).call hm hs (by omega)

theorem settles_exprRest (floor : Nat) (lhs : Expr) :
    Settles src 1 (n + 1) (exprRest · floor lhs) := .succ fun m s hm hs => by
  have K := fun j => (past hsrc s j).rulesKept n
  rw [exprRest, exprRest]
  suffices hB : Fits src (Past src s 0) ((fun (_ : Unit) => _) ()) ((fun (_ : Unit) => _) ()) by
    split
    · refine Fits.consume_bind hsrc s 0 fun b => ?_
      split
      · refine Fits.strengthen ?_ fun _ hr => hr.2 ‹_›
        refine (ih.expr 0).bind hm hs (by omega) ((K 1).expr 0) fun _ => ?_
        refine Fits.expect_bind hsrc s 1 fun _ => ?_
        refine (ih.expr _).bind hm hs (by omega) ((K 2).expr _) fun _ => ?_
        exact (ih.exprRest _ _).call hm hs (by omega)
      · exact hB.strengthen fun _ hr => hr.1
    · exact hB
  refine Fits.peek_bind fun t => ?_
  split
  next sym hkind =>
    split
    next op _ =>
      split
      · exact Fits.refl spares_pure
      refine Fits.bump_seen_bind hsrc s 0 (by rw [Token.isEof, hkind]; rfl)
        fun _ => ?_
      extract_lets +lift jp₁ jp₂
      have hjp : ∀ j rhs, Fits src (Past src s (j + 1)) (jp₁ rhs) (jp₂ rhs) := fun _ _ =>
        (ih.exprRest _ _).call hm hs (by omega)
      split
      · refine Fits.bind_right (triple_expectWord hsrc s _) spares_expectWord fun _ => ?_
        exact (ih.trailers _).bind hm hs (by omega) ((K _).trailers _) (hjp _)
      split
      · exact (ih.expr _).bind hm hs (by omega) ((K _).expr _) (hjp _)
      · exact (ih.expr _).bind hm hs (by omega) ((K _).expr _) (hjp _)
    next => exact Fits.refl spares_pure
  next => exact Fits.refl spares_pure

theorem settles_unary : Settles src 2 (n + 1) unary := .succ fun m s hm hs => by
  have K := fun j => (past hsrc s j).rulesKept n
  rw [unary, unary]
  refine Fits.peek_bind fun t => ?_
  extract_lets +lift jsize₁ jatom₁ jp₁ jsize₂ jatom₂ jp₂
  have hsize : ∀ j u, Fits src (Past src s (j + 1)) (jsize₁ u) (jsize₂ u) := fun _ _ =>
    (ih.expr _).bind hm hs (by omega) ((K _).expr _) fun _ => Fits.refl spares_pure
  have hatom : ∀ u, Fits src (Past src s 0) (jatom₁ u) (jatom₂ u) := fun _ =>
    ih.atom.bind hm hs (by omega) (K 0).atom fun a => (ih.trailers a).call hm hs (by omega)
  have hjp : ∀ u, Fits src (Past src s 0) (jp₁ u) (jp₂ u) := by
    intro u
    dsimp -zeta only [jp₁, jp₂]
    refine Fits.consumeKeyword_bind hsrc s 0 fun b => ?_
    split
    · refine Fits.strengthen ?_ fun _ hr => hr.2 ‹_›
      refine Fits.check_bind fun c => Fits.peekAt_bind fun v => Fits.startsType_bind fun d => ?_
      split
      · refine (ih.parenType.call hm hs (by omega)).attempt.bind
          (triple_attempt s 1 (K 1).parenType.triple) fun o => ?_
        cases o with
        | some => exact Fits.refl spares_pure
        | none => exact hsize 0 ()
      · exact hsize 0 ()
    · refine Fits.strengthen ?_ fun _ hr => hr.1
      refine Fits.check_bind fun c => Fits.peekAt_bind fun v => Fits.startsType_bind fun d => ?_
      split
      · refine (ih.parenType.call hm hs (by omega)).attempt.bind
          (triple_attempt s 0 (triple_parenType hsrc s 0 n)) fun o => ?_
        cases o with
        | some => exact (ih.expr _).bind hm hs (by omega) ((K 1).expr _)
                    fun _ => Fits.refl spares_pure
        | none => exact hatom ()
      · exact hatom ()
  split
  next sym hkind =>
    split
    · refine Fits.bump_seen_bind hsrc s 0 (by rw [Token.isEof, hkind]; rfl)
        fun _ => ?_
      exact (ih.expr _).bind hm hs (by omega) ((K 1).expr _) fun _ => Fits.refl spares_pure
    · exact (hjp ()).strengthen fun _ hr => hr.1
  next => exact (hjp ()).strengthen fun _ hr => hr.1

theorem settles_parenType : Settles src 1 (n + 1) parenType := .succ fun m s hm hs => by
  have K := fun j => (past hsrc s j).rulesKept n
  rw [parenType, parenType]
  refine Fits.expect_bind hsrc s 0 fun _ => ?_
  exact ih.typeName.bind hm hs (by omega) (K 1).typeName fun _ =>
    Fits.expect_bind hsrc s 1 fun _ => Fits.refl spares_pure

theorem settles_trailers (e : Expr) : Settles src 1 (n + 1) (trailers · e) :=
  .succ fun m s hm hs => by
  have K := fun j => (past hsrc s j).rulesKept n
  rw [trailers, trailers]
  refine Fits.consume_bind hsrc s 0 fun b => ?_
  split
  · refine Fits.strengthen ?_ fun _ hr => hr.2 ‹_›
    refine Fits.consume_bind hsrc s 1 fun c => ?_
    extract_lets +lift jp₁ jp₂
    have hjp : ∀ args, Fits src (Past src s 1) (jp₁ args) (jp₂ args) := fun _ =>
      (ih.trailers _).call hm hs (by omega)
    split
    · exact Fits.bind_right (Triple.pure fun _ hr => hr.1) spares_pure hjp
    · exact ih.callArgs.bind hm hs (by omega) (K 1).callArgs hjp |>.strengthen fun _ hr => hr.1
  refine Fits.strengthen ?_ fun _ hr => hr.1
  refine Fits.consume_bind hsrc s 0 fun c => ?_
  split
  · refine Fits.strengthen ?_ fun _ hr => hr.2 ‹_›
    refine (ih.expr 0).bind hm hs (by omega) ((K 1).expr 0) fun _ => ?_
    exact Fits.expect_bind hsrc s 1 fun _ => (ih.trailers _).call hm hs (by omega)
  refine Fits.strengthen ?_ fun _ hr => hr.1
  refine Fits.consume_bind hsrc s 0 fun d => ?_
  split
  · exact (ih.trailers _).call hm hs (by omega) |>.strengthen fun _ hr => hr.2 ‹_›
  refine Fits.strengthen ?_ fun _ hr => hr.1
  refine Fits.consume_bind hsrc s 0 fun d => ?_
  split
  · exact (ih.trailers _).call hm hs (by omega) |>.strengthen fun _ hr => hr.2 ‹_›
  · exact Fits.refl spares_pure

theorem settles_callArgs : Settles src 4 (n + 1) callArgs := .succ fun m s hm hs => by
  have K := fun j => (past hsrc s j).rulesKept n
  rw [callArgs, callArgs]
  refine (ih.expr 0).bind hm hs (by omega) ((K 0).expr 0) fun _ => ?_
  refine Fits.consume_bind hsrc s 0 fun b => ?_
  split
  · exact ih.callArgs.bind hm hs (by omega) (K 1).callArgs (fun _ => Fits.refl spares_pure)
      |>.strengthen fun _ hr => hr.2 ‹_›
  · exact Fits.refl spares_expect_pure

theorem settles_atom : Settles src 1 (n + 1) atom := .succ fun m s hm hs => by
  have K := fun j => (past hsrc s j).rulesKept n
  rw [atom, atom]
  refine Fits.peek_bind fun t => ?_
  split
  next => exact Fits.refl (spares_bump_pure)
  next => exact Fits.refl (spares_bump_pure)
  next => exact Fits.refl (spares_bump_pure)
  next => exact Fits.refl (spares_bump_pure)
  next hkind =>
    refine Fits.bump_seen_bind hsrc s 0 (by rw [Token.isEof, hkind]; rfl)
      fun _ => ?_
    exact (ih.expr 0).bind hm hs (by omega) ((K 1).expr 0) fun _ => Fits.refl spares_expect_pure
  next hkind =>
    refine Fits.bump_seen_bind hsrc s 0 (by rw [Token.isEof, hkind]; rfl)
      fun _ => Fits.peek_bind fun u => ?_
    split
    · exact ih.structMembers.bind hm hs (by omega) (K 1).structMembers
        (fun _ => Fits.refl spares_pure)
        |>.strengthen fun _ hr => hr.1
    · exact ih.arrayEntries.bind hm hs (by omega) (K 1).arrayEntries
        (fun _ => Fits.refl spares_pure)
        |>.strengthen fun _ hr => hr.1
  next => exact Fits.refl spares_fail

theorem settles_structMembers : Settles src 1 (n + 1) structMembers := .succ fun m s hm hs => by
  have K := fun j => (past hsrc s j).rulesKept n
  rw [structMembers, structMembers]
  refine Fits.consume_bind hsrc s 0 fun b => ?_
  split
  · exact Fits.refl spares_pure
  refine Fits.strengthen ?_ fun _ hr => hr.1
  refine Fits.expect_bind hsrc s 0 fun _ => ?_
  refine Fits.bind_right ((triple_expectWord hsrc s 1).mono (fun _ h => h)
    (fun _ _ h => h.mono (Nat.le_succ _)) fun _ _ h => h) spares_expectWord fun _ => ?_
  refine Fits.expect_bind hsrc s 1 fun _ => ?_
  refine (ih.expr 0).bind hm hs (by omega) ((K 2).expr 0) fun _ => ?_
  refine Fits.consume_bind hsrc s 2 fun c => ?_
  split
  · exact ih.structMembers.bind hm hs (by omega) (K 2).structMembers
      (fun _ => Fits.refl spares_pure)
      |>.strengthen fun _ hr => hr.1
  · exact Fits.refl spares_expect_pure

theorem settles_arrayEntries : Settles src 4 (n + 1) arrayEntries := .succ fun m s hm hs => by
  have K := fun j => (past hsrc s j).rulesKept n
  rw [arrayEntries, arrayEntries]
  refine Fits.consume_bind hsrc s 0 fun b => ?_
  split
  · exact Fits.refl spares_pure
  refine Fits.strengthen ?_ fun _ hr => hr.1
  refine Fits.consume_bind hsrc s 0 fun c => ?_
  extract_lets +lift jp₁ jp₂
  have hjp : ∀ j index, Fits src (Past src s j) (jp₁ index) (jp₂ index) := by
    intro j index
    dsimp -zeta only [jp₁, jp₂]
    refine (ih.expr 0).bind hm hs (by omega) ((K j).expr 0) fun _ => ?_
    refine Fits.consume_bind hsrc s j fun d => ?_
    split
    · exact ih.arrayEntries.bind hm hs (by omega) (K (j + 1)).arrayEntries
        (fun _ => Fits.refl spares_pure) |>.strengthen fun _ hr => hr.2 ‹_›
    · exact Fits.refl spares_expect_pure
  split
  · refine Fits.strengthen ?_ fun _ hr => hr.2 ‹_›
    refine (ih.expr 0).bind hm hs (by omega) ((K 1).expr 0) fun _ => ?_
    refine Fits.expect_bind hsrc s 1 fun _ => ?_
    refine Fits.expect_bind hsrc s 2 fun _ => ?_
    exact Fits.pure_bind (hjp 3)
  · exact Fits.bind_right (Triple.pure fun _ hr => hr.1) spares_pure (hjp 0)

theorem settles_typeName : Settles src 4 (n + 1) typeName := .succ fun m s hm hs => by
  have K := fun j => (past hsrc s j).rulesKept n
  rw [typeName, typeName]
  exact ih.baseType.bind hm hs (by omega) (K 0).baseType fun _ =>
    (ih.form true).bind hm hs (by omega) ((K 0).form true) fun _ => Fits.refl spares_pure

theorem settles_baseParts (hasBase : Bool) : Settles src 2 (n + 1) (baseParts · hasBase) :=
  .succ fun m s hm hs => by
  have K := fun j => (past hsrc s j).rulesKept n
  rw [baseParts, baseParts]
  refine Fits.peek_bind fun t => ?_
  split
  next kw hkind =>
    have ht : t.isEof = false := by rw [Token.isEof, hkind]; rfl
    split
    · refine Fits.bump_seen_bind hsrc s 0 ht fun _ => ?_
      exact (ih.baseParts _).bind hm hs (by omega) ((K 1).baseParts _)
        fun _ => Fits.refl spares_pure
    split
    · refine Fits.bump_seen_bind hsrc s 0 ht fun _ => ?_
      exact (ih.baseParts _).bind hm hs (by omega) ((K 1).baseParts _)
        fun _ => Fits.refl spares_pure
    split
    · -- the record takes its keyword, which pays for the parts after it
      refine Fits.strengthen ?_ fun _ hr => hr.1
      refine (ih.record.call hm hs (by omega)).bind (triple_record hsrc s 0 n) fun _ => ?_
      exact (ih.baseParts _).bind hm hs (by omega) ((K 1).baseParts _)
        fun _ => Fits.refl spares_pure
    · exact Fits.refl spares_pure
  next w hkind =>
    refine Fits.get_bind fun rd => ?_
    split
    · refine Fits.bump_seen_bind hsrc s 0 (by rw [Token.isEof, hkind]; rfl)
        fun _ => ?_
      exact (ih.baseParts _).bind hm hs (by omega) ((K 1).baseParts _)
        fun _ => Fits.refl spares_pure
    · exact Fits.refl spares_pure
  next => exact Fits.refl spares_pure

theorem settles_baseType : Settles src 3 (n + 1) baseType := .succ fun m s hm hs => by
  have K := fun j => (past hsrc s j).rulesKept n
  rw [baseType, baseType]
  refine (ih.baseParts false).bind hm hs (by omega) ((K 0).baseParts false) fun x => ?_
  obtain ⟨parts, hasBase⟩ := x
  refine Fits.refl ?_
  dsimp only
  split
  · exact spares_fail.next fun _ => spares_pure
  · exact spares_pure

theorem settles_record : Settles src 1 (n + 1) record := .succ fun m s hm hs => by
  have K := fun j => (past hsrc s j).rulesKept n
  rw [record, record]
  extract_lets +lift jp₁ jp₂
  have hjp : ∀ kind, Fits src (Past src s 1) (jp₁ kind) (jp₂ kind) := by
    intro kind
    dsimp -zeta only [jp₁, jp₂]
    extract_lets +lift jbody₁ jbody₂
    have hbody : ∀ name, Fits src (Past src s 1) (jbody₁ name) (jbody₂ name) := by
      intro name
      dsimp -zeta only [jbody₁, jbody₂]
      refine Fits.consume_bind hsrc s 1 fun b => ?_
      split
      · refine Fits.refl ?_
        split
        · exact spares_fail.next fun _ => spares_pure
        · exact spares_pure
      next hb =>
        refine Fits.strengthen ?_ fun _ hr => hr.2 (by simpa using hb)
        split
        · exact ih.enumerators.bind hm hs (by omega) (K 2).enumerators
            fun _ => Fits.refl spares_pure
        · exact ih.fields.bind hm hs (by omega) (K 2).fields fun _ => Fits.refl spares_pure
    refine Fits.peek_bind fun u => ?_
    split
    · exact Fits.bind_right (Triple.map (Q := fun _ => Past src s 1)
        ((triple_expectWord hsrc s 1).mono (fun _ h => h.1) (fun _ _ h => h.mono (Nat.le_succ _))
          fun _ _ h => h)) (Triple.map spares_expectWord) hbody
    · exact Fits.bind_right (Triple.pure fun _ hr => hr.1) spares_pure hbody
  refine Fits.bind_right (triple_bump hsrc s 0) spares_bump fun t => ?_
  split
  next hkind => exact Fits.bind_right (Triple.pure fun _ hr => hr.2 (by
    rw [Token.isEof, hkind]; rfl)) spares_pure hjp
  next hkind => exact Fits.bind_right (Triple.pure fun _ hr => hr.2 (by
    rw [Token.isEof, hkind]; rfl)) spares_pure hjp
  next hkind => exact Fits.bind_right (Triple.pure fun _ hr => hr.2 (by
    rw [Token.isEof, hkind]; rfl)) spares_pure hjp
  next => exact Fits.fail_bind

theorem settles_fields : Settles src 4 (n + 1) fields := .succ fun m s hm hs => by
  have K := fun j => (past hsrc s j).rulesKept n
  rw [fields, fields]
  refine Fits.consume_bind hsrc s 0 fun b => ?_
  split
  · exact Fits.refl spares_pure
  refine Fits.strengthen ?_ fun _ hr => hr.1
  refine ih.baseType.bind hm hs (by omega) (K 0).baseType fun base => ?_
  refine (ih.form false).bind hm hs (by omega) ((K 0).form false) fun f => ?_
  -- the declarators end with their `;`, which pays for the fields after them
  refine ((ih.declarators base f).call hm hs (by omega)).bind
    (triple_declarators hsrc s 0 n base f) fun _ => ?_
  exact ih.fields.bind hm hs (by omega) (K 1).fields fun _ => Fits.refl spares_pure

theorem settles_enumerators : Settles src 1 (n + 1) enumerators := .succ fun m s hm hs => by
  have K := fun j => (past hsrc s j).rulesKept n
  rw [enumerators, enumerators]
  refine Fits.consume_bind hsrc s 0 fun b => ?_
  split
  · exact Fits.refl spares_pure
  refine Fits.strengthen ?_ fun _ hr => hr.1
  refine Fits.bind_right (triple_expectWord hsrc s 0) spares_expectWord fun _ => ?_
  refine Fits.consume_bind hsrc s 1 fun c => ?_
  extract_lets +lift jp₁ jp₂
  have hjp : ∀ value, Fits src (Past src s 1) (jp₁ value) (jp₂ value) := by
    intro value
    dsimp -zeta only [jp₁, jp₂]
    refine Fits.consume_bind hsrc s 1 fun d => ?_
    split
    · exact ih.enumerators.bind hm hs (by omega) (K 2).enumerators (fun _ => Fits.refl spares_pure)
        |>.strengthen fun _ hr => hr.2 ‹_›
    · exact Fits.refl spares_expect_pure
  split
  · refine Fits.strengthen ?_ fun _ hr => hr.1
    exact ((ih.expr 0).call hm hs (by omega)).map.bind
      (Triple.map (Q := fun _ => Past src s 1) ((K 1).expr 0).triple) hjp
  · exact Fits.bind_right (Triple.pure fun _ hr => hr.1) spares_pure hjp

theorem settles_declarators (base : BaseType) (f : Form) :
    Settles src 2 (n + 1) (declarators · base f) := .succ fun m s hm hs => by
  have K := fun j => (past hsrc s j).rulesKept n
  rw [declarators, declarators]
  exact (ih.declaratorList f).bind hm hs (by omega) ((K 0).declaratorList f)
    fun _ => Fits.refl spares_expect_pure

theorem settles_declaratorList (f : Form) : Settles src 1 (n + 1) (declaratorList · f) :=
  .succ fun m s hm hs => by
  have K := fun j => (past hsrc s j).rulesKept n
  rw [declaratorList, declaratorList]
  refine Fits.consume_bind hsrc s 0 fun b => ?_
  extract_lets +lift jp₁ jp₂
  have hjp : ∀ init, Fits src (Past src s 0) (jp₁ init) (jp₂ init) := by
    intro init
    dsimp -zeta only [jp₁, jp₂]
    refine Fits.consume_bind hsrc s 0 fun c => ?_
    split
    · refine Fits.strengthen ?_ fun _ hr => hr.2 ‹_›
      refine (ih.form false).bind hm hs (by omega) ((K 1).form false) fun next => ?_
      exact (ih.declaratorList next).bind hm hs (by omega) ((K 1).declaratorList next)
        fun _ => Fits.refl spares_pure
    · exact Fits.refl spares_pure
  split
  · refine Fits.strengthen ?_ fun _ hr => hr.2 ‹_›
    exact ((ih.expr 0).call hm hs (by omega)).map.bind
      (Triple.map (Q := fun _ => Past src s 0) (((K 1).expr 0).triple.mono (fun _ h => h)
        (fun _ _ h => h.mono (Nat.zero_le _)) fun _ _ h => h)) hjp
  · exact Fits.bind_right (Triple.pure fun _ hr => hr.1) spares_pure hjp

theorem settles_form (anonymousOk : Bool) : Settles src 3 (n + 1) (form · anonymousOk) :=
  .succ fun m s hm hs => by
  have K := fun j => (past hsrc s j).rulesKept n
  rw [form, form]
  refine ih.pointerList.bind hm hs (by omega) (K 0).pointerList fun ps => ?_
  refine Fits.peek_bind fun t => Fits.check_bind_seen ?_
  refine Fits.peekAt_bind fun u => ?_
  extract_lets +lift jp₁ jp₂
  have hjp : ∀ j core, Fits src (Past src s j) (jp₁ core) (jp₂ core) := fun j _ =>
    ih.modifiers.bind hm hs (by omega) (K j).modifiers fun _ => Fits.refl spares_pure
  split
  · exact Fits.bind_right (Triple.map (Q := fun _ => Past src s 1)
      ((triple_expectWord hsrc s 0).strengthen fun _ hr => hr.1)) (Triple.map spares_expectWord)
        (hjp 1)
  split
  next hnest =>
    have ht : t.isEof = false := Token.isEof_of_isSymbol (Bool.and_eq_true _ _ ▸ hnest).1
    refine Fits.bump_seen_bind hsrc s 0 ht fun _ => ?_
    refine (ih.form _).bind hm hs (by omega) ((K 1).form _) fun _ => ?_
    refine Fits.expect_bind hsrc s 1 fun _ => ?_
    exact Fits.pure_bind (hjp 2)
  split
  · exact Fits.bind_right (Triple.pure fun _ hr => hr.1) spares_pure (hjp 0)
  · exact Fits.fail_bind

theorem settles_modifiers : Settles src 2 (n + 1) modifiers := .succ fun m s hm hs => by
  have K := fun j => (past hsrc s j).rulesKept n
  rw [modifiers, modifiers]
  refine Fits.consume_bind hsrc s 0 fun b => ?_
  split
  · refine Fits.strengthen ?_ fun _ hr => hr.2 ‹_›
    refine Fits.check_bind fun c => ?_
    extract_lets +lift jp₁ jp₂
    have hjp : ∀ size, Fits src (Past src s 1) (jp₁ size) (jp₂ size) := fun _ =>
      Fits.expect_bind hsrc s 1 fun _ =>
        ih.modifiers.bind hm hs (by omega) (K 2).modifiers fun _ => Fits.refl spares_pure
    split
    · exact Fits.pure_bind hjp
    · exact ((ih.expr 0).call hm hs (by omega)).map.bind
        (Triple.map (Q := fun _ => Past src s 1) ((K 1).expr 0).triple) hjp
  · refine Fits.strengthen ?_ fun _ hr => hr.1
    refine Fits.check_bind fun c => ?_
    split
    · -- the parameters take their parenthesis, which pays for the modifiers after them
      refine (ih.params.call hm hs (by omega)).bind (triple_params hsrc s 0 n) fun _ => ?_
      exact ih.modifiers.bind hm hs (by omega) (K 1).modifiers fun _ => Fits.refl spares_pure
    · exact Fits.refl spares_pure

theorem settles_params : Settles src 1 (n + 1) params := .succ fun m s hm hs => by
  rw [params, params]
  refine Fits.expect_bind hsrc s 0 fun _ =>
    Fits.consume_bind hsrc s 1 fun b => ?_
  split
  · exact Fits.refl spares_pure
  · exact (ih.paramList.call hm hs (by omega)).strengthen fun _ hr => hr.1

theorem settles_paramList : Settles src 4 (n + 1) paramList := .succ fun m s hm hs => by
  have K := fun j => (past hsrc s j).rulesKept n
  rw [paramList, paramList]
  refine Fits.consume_bind hsrc s 0 fun b => ?_
  split
  · exact Fits.refl spares_expect_pure
  refine Fits.strengthen ?_ fun _ hr => hr.1
  refine ih.baseType.bind hm hs (by omega) (K 0).baseType fun _ => ?_
  refine (ih.form true).bind hm hs (by omega) ((K 0).form true) fun _ => ?_
  refine Fits.consume_bind hsrc s 0 fun c => ?_
  split
  · exact ih.paramList.bind hm hs (by omega) (K 1).paramList (fun _ => Fits.refl spares_pure)
      |>.strengthen fun _ hr => hr.2 ‹_›
  · exact Fits.refl spares_expect_pure

theorem Sufficient.succ : Sufficient src (n + 1) where
  qualifiers := settles_qualifiers hsrc ih
  pointerList := settles_pointerList hsrc ih
  expr := settles_expr hsrc ih
  exprRest := settles_exprRest hsrc ih
  unary := settles_unary hsrc ih
  parenType := settles_parenType hsrc ih
  trailers := settles_trailers hsrc ih
  callArgs := settles_callArgs hsrc ih
  atom := settles_atom hsrc ih
  structMembers := settles_structMembers hsrc ih
  arrayEntries := settles_arrayEntries hsrc ih
  typeName := settles_typeName hsrc ih
  baseParts := settles_baseParts hsrc ih
  baseType := settles_baseType hsrc ih
  record := settles_record hsrc ih
  fields := settles_fields hsrc ih
  enumerators := settles_enumerators hsrc ih
  declarators := settles_declarators hsrc ih
  declaratorList := settles_declaratorList hsrc ih
  form := settles_form hsrc ih
  modifiers := settles_modifiers hsrc ih
  params := settles_params hsrc ih
  paramList := settles_paramList hsrc ih

end Succ

theorem sufficient (hsrc : src.EndsInEof) : ∀ n, Sufficient src n
  | 0 => .zero
  | n + 1 => (sufficient hsrc n).succ hsrc

/-- From the first token, `fuelFor` covers what an expression needs: any more fuel reads the same
expression, stops at the same token, or fails alike. -/
theorem expr_fuelFor (hsrc : src.EndsInEof) (hsize : 0 < src.tokens.size) (floor : Nat)
    (names : TypeNames) {m : Nat} (hm : fuelFor src.tokens.size ≤ m) :
    exec src (expr m floor) (Reader.start names) =
      exec src (expr (fuelFor src.tokens.size) floor) (Reader.start names) :=
  ((sufficient hsrc _).expr floor m 0 hm (by unfold need fuelFor; omega)).1 _
    ⟨Nat.le_refl _, hsize⟩ |>.symm

end Parse

end ModularC
