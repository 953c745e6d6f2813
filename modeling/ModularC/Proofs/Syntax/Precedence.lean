import ModularC.Proofs.Syntax.Climbing
import ModularC.Proofs.Syntax.RoundTrip
import ModularC.Syntax.Layered

/-!
The layered grammar reads as the precedence-climbing parser (`Expr.read_eq_readLayered`).
-/

namespace ModularC

namespace Parse

variable {α β : Type} {src : Source} {r : Reader} {op : BinaryOp}

/-! ### One step of a layered operator rule -/

theorem exec_operatorOf_bind_of_eq {s : Nat} {f : Option BinaryOp → Parse β}
    (hop : (src.peekAt r.index 0).binaryOp? = some op) (hs : op.strength = s) :
    exec src (operatorOf s >>= f) r = exec src (f (some op)) { r with index := r.index + 1 } := by
  obtain ⟨sym, hkind, hsym⟩ := Token.binaryOp?_eq_some.1 hop
  unfold operatorOf
  rw [bind_assoc, exec_peek_bind, hkind]
  dsimp only
  rw [hsym]
  dsimp only
  rw [if_pos hs, bind_assoc, exec_bump_bind (by rw [Token.isEof, hkind]; rfl)]
  rfl

theorem exec_operatorOf_bind_of_ne {s : Nat} {f : Option BinaryOp → Parse β}
    (h : ∀ op, (src.peekAt r.index 0).binaryOp? = some op → op.strength ≠ s) :
    exec src (operatorOf s >>= f) r = exec src (f none) r := by
  unfold operatorOf
  rw [bind_assoc, exec_peek_bind]
  unfold Token.binaryOp? at h
  split
  next sym hkind =>
    rw [hkind] at h
    split
    next op hop =>
      rw [if_neg (h op hop)]
      rfl
    next => rfl
  next => rfl

/-- The fold above `f` and a layered operator rule of strength `t` take the same step at every
token where the operators that go on above `f` are exactly those of strength `t` and no `?` goes
on: both take the operator and go on alike, or both stop. -/
theorem same_exprRest_operatorOf (hsrc : src.EndsInEof) {P : Reader → Prop} {s j n f t : Nat}
    {x : Expr} {g : BinaryOp → Parse Expr} (hP : ∀ r, P r → Past src s j r)
    (hq : ∀ r, P r → f < ternaryStrength → (src.peekAt r.index 0).isSymbol .question = false)
    (hop : ∀ r op, P r → (src.peekAt r.index 0).binaryOp? = some op →
      (f < op.strength ↔ op.strength = t))
    (hstep : ∀ op, op.strength = t → Same src (Past src s (j + 1))
      (operand n op >>= fun rhs => exprRest n f (.binary op x rhs)) (g op)) :
    Same src P (exprRest (n + 1) f x) (operatorOf t >>= fun o => match o with
      | some op => g op
      | none => pure x) := by
  intro r hr
  by_cases h : ∃ op, (src.peekAt r.index 0).binaryOp? = some op ∧ op.strength = t
  · obtain ⟨op, hbin, hs⟩ := h
    rw [exec_exprRest_operator hbin ((hop r op hr hbin).2 hs), exec_operatorOf_bind_of_eq hbin hs]
    exact hstep op hs _ (past_succ hsrc s j (hP r hr) (Token.isEof_of_binaryOp? hbin))
  · simp only [not_exists, not_and] at h
    have hc : (src.peekAt r.index 0).continues f = false :=
      Token.continues_eq_false (hq r hr) fun op hbin =>
        Nat.le_of_not_lt fun hlt => h op hbin ((hop r op hr hbin).1 hlt)
    rw [exec_exprRest_stop hc, exec_operatorOf_bind_of_ne h]
    rfl

/-! ### The layered grammar reads as the parser -/

/-- The fuel a layered rule of height `h` needs from the token `s` on: seventeen units for every
token left, enough for a token to pass down through every level. -/
def layeredNeed (src : Source) (h s : Nat) : Nat := h + 17 * (src.tokens.size - s)

/-- With layered fuel `m`, the layered rule `L` of height `hL` and the rule `R` of height `hR`, run
with any fuel `n`, end alike from a reader `j` tokens past `s` that `S` accepts, once `m` and `n`
cover what the rules need from `s` less what the `j` tokens pay. -/
def Agrees (src : Source) (hL hR : Nat) (S : Reader → Prop) (L : Parse α) (R : Nat → Parse α)
    (m : Nat) : Prop :=
  ∀ s j n, layeredNeed src hL s ≤ m + 17 * j → need src hR s ≤ n + 4 * j →
    Same src (fun r => Past src s j r ∧ S r) (R n) L

namespace Agrees

variable {hL hR m : Nat} {S : Reader → Prop} {L : Parse α} {R : Nat → Parse α}

theorem zero (hh : 1 ≤ hL) : Agrees src hL hR S L R 0 := by
  intro s j n hm _ r hr
  have := hr.1.1
  have := hr.1.2
  unfold layeredNeed at hm
  omega

theorem succ (h : ∀ s j n, s + j < src.tokens.size → layeredNeed src hL s ≤ m + 1 + 17 * j →
    need src hR s ≤ n + 1 + 4 * j → Same src (fun r => Past src s j r ∧ S r) (R (n + 1)) L) :
    Agrees src hL hR S L R (m + 1) := by
  intro s j n hm hn
  refine Same.of_pre (fun _ hr => Nat.lt_of_le_of_lt hr.1.1 hr.1.2) fun hlt => ?_
  obtain ⟨n, rfl⟩ : ∃ k, n = k + 1 := ⟨n - 1, by unfold need at hn; omega⟩
  exact h s j n hlt hm hn

theorem succ_past (h : ∀ s j n, s + j < src.tokens.size → layeredNeed src hL s ≤ m + 1 + 17 * j →
    need src hR s ≤ n + 1 + 4 * j → Same src (Past src s j) (R (n + 1)) L) :
    Agrees src hL hR (fun _ => True) L R (m + 1) :=
  succ fun s j n hlt hm hn => (h s j n hlt hm hn).strengthen fun _ hr => hr.1

theorem past (hA : Agrees src hL hR (fun _ => True) L R m) {s j n : Nat}
    (hm : layeredNeed src hL s ≤ m + 17 * j) (hn : need src hR s ≤ n + 4 * j) :
    Same src (Past src s j) (R n) L :=
  (hA s j n hm hn).strengthen fun _ hr => ⟨hr, trivial⟩

theorem call (hA : Agrees src hL hR (fun _ => True) L R m) {s j n hL' hR' : Nat} (d : Nat)
    (hm : layeredNeed src hL' s ≤ m + 1 + 17 * j) (hn : need src hR' s ≤ n + 1 + 4 * j)
    (hhL : hL + 1 ≤ hL' + 17 * d) (hhR : hR + 1 ≤ hR' + 4 * d) :
    Same src (Past src s (j + d)) (R n) L :=
  hA.past (by unfold layeredNeed at *; omega) (by unfold need at *; omega)

end Agrees

/-- Every rule of the layered grammar, with fuel `m`, reads as the parser's rule for it: `assign`,
`cond` and the binary levels as `expr` above the floor one below their operators, their tails as
`exprRest` where no stronger operator follows, and the rest as the rules they copy. -/
structure Matches (src : Source) (m : Nat) : Prop where
  assign : Agrees src 16 3 (fun _ => True) (Layered.assign m) (expr · 0) m
  cond : Agrees src 15 3 (fun _ => True) (Layered.cond m) (expr · 1) m
  chain : ∀ k, 2 ≤ k → k ≤ 12 →
    Agrees src (16 - k) 3 (fun _ => True) (Layered.chain m (k + 1)) (expr · k) m
  chainRest : ∀ k x, 2 ≤ k → k ≤ 11 →
    Agrees src 1 1 (Stops src (k + 1)) (Layered.chainRest m (k + 1) x) (exprRest · k x) m
  mem : ∀ f, 12 ≤ f → f ≤ 13 → Agrees src 3 3 (fun _ => True) (Layered.mem m) (expr · f) m
  memRest : ∀ f x, 12 ≤ f → f ≤ 13 →
    Agrees src 1 1 (fun _ => True) (Layered.memRest m x) (exprRest · f x) m
  unary : Agrees src 2 2 (fun _ => True) (Layered.unary m) unary m
  post : ∀ e, Agrees src 1 1 (fun _ => True) (Layered.post m e) (trailers · e) m
  args : Agrees src 17 4 (fun _ => True) (Layered.args m) callArgs m
  atom : Agrees src 1 1 (fun _ => True) (Layered.atom m) atom m
  members : Agrees src 1 1 (fun _ => True) (Layered.members m) structMembers m
  entries : Agrees src 17 4 (fun _ => True) (Layered.entries m) arrayEntries m

theorem Matches.zero : Matches src 0 where
  assign := .zero (by decide)
  cond := .zero (by decide)
  chain _ _ hk := .zero (by omega)
  chainRest _ _ _ _ := .zero (by decide)
  mem _ _ _ := .zero (by decide)
  memRest _ _ _ _ := .zero (by decide)
  unary := .zero (by decide)
  post _ := .zero (by decide)
  args := .zero (by decide)
  atom := .zero (by decide)
  members := .zero (by decide)
  entries := .zero (by decide)

section Succ

variable (hsrc : src.EndsInEof) {m : Nat} (ih : Matches src m)
include hsrc ih

theorem agrees_assign : Agrees src 16 3 (fun _ => True) (Layered.assign (m + 1)) (expr · 0) (m + 1) :=
  .succ_past fun s j n _ hm hn => by
  rw [Layered.assign]
  refine (same_expr_split hsrc (f := 1) (by decide) hn).symm.trans ?_
  refine (ih.cond.past (by unfold layeredNeed at *; omega) hn).bind
    (triple_expr_past hsrc s j (n + 1) 1) fun lhs => ?_
  refine same_exprRest_operatorOf hsrc (fun _ hr => hr.1)
    (fun _ hr _ => Token.not_question_of_continues hr.2 (by decide)) (fun r op hr hop => ?_)
    fun op hs => ?_
  · have := Token.strength_le_of_continues hr.2 hop
    have := op.one_le_strength
    simp only [assignStrength]
    omega
  · rw [operand_of_assignment hs]
    exact (ih.assign.call 1 hm hn (by decide) (by decide)).bind
      (triple_expr_past hsrc s (j + 1) n 0) fun _ =>
        same_exprRest_stopped _ (by unfold need at *; omega)

theorem agrees_cond : Agrees src 15 3 (fun _ => True) (Layered.cond (m + 1)) (expr · 1) (m + 1) :=
  .succ_past fun s j n _ hm hn => by
  rw [Layered.cond]
  refine (same_expr_split hsrc (f := 2) (by decide) hn).symm.trans ?_
  refine ((ih.chain 2 le_rfl (by decide)).past (by unfold layeredNeed at *; omega) hn).bind
    (triple_expr_past hsrc s j (n + 1) 2) fun c => ?_
  rintro r ⟨hr, hstop⟩
  cases hq : (src.peekAt r.index 0).isSymbol .question
  · -- no operator has the strength of `?:`, so the fold above the assignments stops too
    have hc : (src.peekAt r.index 0).continues 1 = false :=
      Token.continues_eq_false (fun _ => hq) fun op hop => by
        have := Token.strength_le_of_continues hstop hop
        have := op.strength_ne_ternary
        simp only [ternaryStrength] at *
        omega
    rw [exec_exprRest_stop hc, exec_consume_bind_of_not hq]
    rfl
  · rw [exec_exprRest_question hq (by decide), exec_consume_bind_of_isSymbol hq]
    refine ((ih.assign.call 1 hm hn (by decide) (by decide)).bind
      (((past hsrc s (j + 1)).rulesKept n).expr 0).triple fun _ => ?_) _
      (past_succ hsrc s j hr (Token.isEof_of_isSymbol hq))
    refine Same.bind_right (triple_expect hsrc s (j + 1) _) fun _ => ?_
    exact (ih.cond.call 2 hm hn (by decide) (by decide)).bind
      (triple_expr_past hsrc s (j + 2) n 1) fun _ =>
        same_exprRest_stopped _ (by unfold need at *; omega)

theorem agrees_chain (k : Nat) (hk₁ : 2 ≤ k) (hk₂ : k ≤ 12) :
    Agrees src (16 - k) 3 (fun _ => True) (Layered.chain (m + 1) (k + 1)) (expr · k) (m + 1) :=
  .succ_past fun s j n _ hm hn => by
  rw [Layered.chain]
  split
  next hlt =>
    have hk : k ≤ 11 := by simp only [unaryStrength] at hlt; omega
    refine (same_expr_split hsrc (f := k + 1) (by omega) hn).symm.trans ?_
    refine ((ih.chain (k + 1) (by omega) (by omega)).past (by unfold layeredNeed at *; omega)
      hn).bind (triple_expr_past hsrc s j (n + 1) (k + 1)) fun x => ?_
    exact ih.chainRest k x hk₁ hk s j (n + 1) (by unfold layeredNeed at *; omega)
      (by unfold need at *; omega)
  next hge =>
    obtain rfl : k = 12 := by simp only [unaryStrength] at hge; omega
    exact (ih.mem 12 le_rfl (by decide)).past (by unfold layeredNeed at *; omega)
      (by unfold need at *; omega)

theorem agrees_chainRest (k : Nat) (x : Expr) (hk₁ : 2 ≤ k) (hk₂ : k ≤ 11) :
    Agrees src 1 1 (Stops src (k + 1)) (Layered.chainRest (m + 1) (k + 1) x) (exprRest · k x)
      (m + 1) :=
  .succ fun s j n _ hm hn => by
  rw [Layered.chainRest]
  -- where no operator stronger than the level follows, those above `k` are the level's
  refine same_exprRest_operatorOf hsrc (fun _ hr => hr.1)
    (fun _ _ hk => by simp only [ternaryStrength] at hk; omega)
    (fun r op hr hop => ?_) fun op hs => ?_
  · have := Token.strength_le_of_continues hr.2 hop
    omega
  · rw [operand_of_left (by simp only [assignStrength]; omega)
      (by simp only [memberStrength]; omega), hs]
    exact ((ih.chain (k + 1) (by omega) (by omega)).call 1 hm hn (by omega) (by decide)).bind
      (triple_expr_past hsrc s (j + 1) n (k + 1)) fun _ => ih.chainRest k _ hk₁ hk₂ s (j + 1) n
        (by unfold layeredNeed at *; omega) (by unfold need at *; omega)

theorem agrees_mem (f : Nat) (hf₁ : 12 ≤ f) (hf₂ : f ≤ 13) :
    Agrees src 3 3 (fun _ => True) (Layered.mem (m + 1)) (expr · f) (m + 1) :=
  .succ_past fun s j n _ hm hn => by
  rw [expr, Layered.mem]
  exact (ih.unary.call 0 hm hn (by decide) (by decide)).bind
    ((past hsrc s j).rulesKept n).unary.triple fun u =>
      (ih.memRest f u hf₁ hf₂).call 0 hm hn (by decide) (by decide)

theorem agrees_memRest (f : Nat) (x : Expr) (hf₁ : 12 ≤ f) (hf₂ : f ≤ 13) :
    Agrees src 1 1 (fun _ => True) (Layered.memRest (m + 1) x) (exprRest · f x) (m + 1) :=
  .succ_past fun s j n _ hm hn => by
  rw [Layered.memRest]
  -- above 12 the only operators are `.` and `->`
  refine same_exprRest_operatorOf hsrc (fun _ hr => hr)
    (fun _ _ hf => by simp only [ternaryStrength] at hf; omega) (fun _ op _ _ => ?_)
    fun op hs => ?_
  · constructor
    · exact fun hlt => by_contra fun hne =>
        absurd ((BinaryOp.strength_le_of_ne_member hne).trans hf₁) (Nat.not_le.2 hlt)
    · intro hs
      rw [hs]
      simp only [memberStrength]
      omega
  · rw [operand_of_member hs, bind_assoc]
    refine Same.bind_right (triple_expectWord hsrc s (j + 1)) fun _ => ?_
    exact ((ih.post _).call 2 hm hn (by decide) (by decide)).bind
      (((past hsrc s (j + 2)).rulesKept n).trailers _).triple fun _ =>
        (ih.memRest f _ hf₁ hf₂).call 2 hm hn (by decide) (by decide)

theorem agrees_unary : Agrees src 2 2 (fun _ => True) (Layered.unary (m + 1)) unary (m + 1) :=
  .succ_past fun s j n _ hm hn => by
  have K := fun d => (past hsrc s (j + d)).rulesKept n
  rw [unary, Layered.unary]
  refine Same.peek_bind fun t => ?_
  extract_lets +lift jsize jatom jp jpL
  have hmem : Same src (Past src s (j + 1)) (expr n unaryStrength) (Layered.mem m) :=
    (ih.mem 13 (by decide) le_rfl).call 1 hm hn (by decide) (by decide)
  have hjp : Same src (Past src s j) (jp ()) (jpL ()) := by
    dsimp -zeta only [jp, jpL]
    refine Same.bind_right (triple_consumeKeyword hsrc s j _) fun b => ?_
    split
    · refine Same.strengthen ?_ fun _ hr => hr.2 ‹_›
      refine same_guarded_attempt hsrc (by unfold need at *; omega)
        (by unfold need layeredNeed at *; omega) (fun _ => Same.refl _) ?_
      dsimp -zeta only [jsize]
      exact hmem.bind ((K 1).expr _).triple fun _ => Same.refl _
    · refine Same.strengthen ?_ fun _ hr => hr.1
      refine same_guarded_attempt hsrc (by unfold need at *; omega)
        (by unfold need layeredNeed at *; omega)
        (fun _ => hmem.bind ((K 1).expr _).triple fun _ => Same.refl _) ?_
      dsimp -zeta only [jatom]
      exact (ih.atom.call 0 hm hn (by decide) (by decide)).bind (K 0).atom.triple fun a =>
        (ih.post a).call 0 hm hn (by decide) (by decide)
  obtain ⟨kind, pos⟩ := t
  cases kind
  case symbol sym =>
    dsimp only
    cases UnaryOp.ofSymbol? sym with
    | some op =>
      refine Same.bind_right (triple_bump_seen hsrc s j (t := ⟨.symbol sym, pos⟩) rfl) fun _ => ?_
      exact hmem.bind ((K 1).expr _).triple fun _ => Same.refl _
    | none => exact hjp.strengthen fun _ => And.left
  all_goals exact hjp.strengthen fun _ => And.left

theorem agrees_post (e : Expr) :
    Agrees src 1 1 (fun _ => True) (Layered.post (m + 1) e) (trailers · e) (m + 1) :=
  .succ_past fun s j n _ hm hn => by
  have K := fun d => (past hsrc s (j + d)).rulesKept n
  rw [trailers, Layered.post]
  refine Same.bind_right (triple_consume hsrc s j _) fun b => ?_
  split
  · refine Same.strengthen ?_ fun _ hr => hr.2 ‹_›
    refine Same.bind_right (triple_consume hsrc s (j + 1) _) fun c => ?_
    extract_lets +lift jp jpL
    have hjp : ∀ xs, Same src (Past src s (j + 1)) (jp xs) (jpL xs) := fun _ =>
      (ih.post _).call 1 hm hn (by decide) (by decide)
    split
    · exact Same.bind_right (Triple.pure fun _ hr => hr.1) hjp
    · exact (ih.args.call 1 hm hn (by decide) (by decide)).bind (K 1).callArgs.triple hjp
        |>.strengthen fun _ hr => hr.1
  refine Same.strengthen ?_ fun _ hr => hr.1
  refine Same.bind_right (triple_consume hsrc s j _) fun c => ?_
  split
  · refine Same.strengthen ?_ fun _ hr => hr.2 ‹_›
    refine (ih.assign.call 1 hm hn (by decide) (by decide)).bind ((K 1).expr 0).triple
      fun _ => ?_
    exact Same.bind_right (triple_expect hsrc s (j + 1) _) fun _ =>
      (ih.post _).call 2 hm hn (by decide) (by decide)
  refine Same.strengthen ?_ fun _ hr => hr.1
  refine Same.bind_right (triple_consume hsrc s j _) fun d => ?_
  split
  · exact (ih.post _).call 1 hm hn (by decide) (by decide) |>.strengthen fun _ hr => hr.2 ‹_›
  refine Same.strengthen ?_ fun _ hr => hr.1
  refine Same.bind_right (triple_consume hsrc s j _) fun d => ?_
  split
  · exact (ih.post _).call 1 hm hn (by decide) (by decide) |>.strengthen fun _ hr => hr.2 ‹_›
  · exact Same.refl _

theorem agrees_args : Agrees src 17 4 (fun _ => True) (Layered.args (m + 1)) callArgs (m + 1) :=
  .succ_past fun s j n _ hm hn => by
  rw [callArgs, Layered.args]
  refine (ih.assign.call 0 hm hn (by decide) (by decide)).bind
    (((past hsrc s j).rulesKept n).expr 0).triple fun _ => ?_
  refine Same.bind_right (triple_consume hsrc s j _) fun b => ?_
  split
  · refine Same.strengthen ?_ fun _ hr => hr.2 ‹_›
    exact (ih.args.call 1 hm hn (by decide) (by decide)).bind
      ((past hsrc s (j + 1)).rulesKept n).callArgs.triple fun _ => Same.refl _
  · exact Same.refl _

theorem agrees_atom : Agrees src 1 1 (fun _ => True) (Layered.atom (m + 1)) atom (m + 1) :=
  .succ_past fun s j n _ hm hn => by
  have K := fun d => (past hsrc s (j + d)).rulesKept n
  rw [atom, Layered.atom]
  refine Same.peek_bind fun t => ?_
  obtain ⟨kind, pos⟩ := t
  cases kind
  case symbol sym =>
    cases sym
    case lParen =>
      refine Same.bind_right (triple_bump_seen hsrc s j (t := ⟨.symbol .lParen, pos⟩) rfl)
        fun _ => ?_
      exact (ih.assign.call 1 hm hn (by decide) (by decide)).bind ((K 1).expr 0).triple
        fun _ => Same.refl _
    case lBrace =>
      refine Same.bind_right (triple_bump_seen hsrc s j (t := ⟨.symbol .lBrace, pos⟩) rfl)
        fun _ => Same.peek_bind fun u => ?_
      split
      · exact (ih.members.call 1 hm hn (by decide) (by decide)).bind (K 1).structMembers.triple
          (fun _ => Same.refl _) |>.strengthen fun _ hr => hr.1
      · exact (ih.entries.call 1 hm hn (by decide) (by decide)).bind (K 1).arrayEntries.triple
          (fun _ => Same.refl _) |>.strengthen fun _ hr => hr.1
    all_goals exact Same.refl _
  all_goals exact Same.refl _

theorem agrees_members :
    Agrees src 1 1 (fun _ => True) (Layered.members (m + 1)) structMembers (m + 1) :=
  .succ_past fun s j n _ hm hn => by
  rw [structMembers, Layered.members]
  refine Same.bind_right (triple_consume hsrc s j _) fun b => ?_
  split
  · exact Same.refl _
  refine Same.strengthen ?_ fun _ hr => hr.1
  refine Same.bind_right (triple_expect hsrc s j _) fun _ => ?_
  refine Same.bind_right (triple_expectWord hsrc s (j + 1)) fun _ => ?_
  refine Same.bind_right (triple_expect hsrc s (j + 2) _) fun _ => ?_
  refine (ih.assign.call 3 hm hn (by decide) (by decide)).bind
    (((past hsrc s (j + 3)).rulesKept n).expr 0).triple fun _ => ?_
  refine Same.bind_right (triple_consume hsrc s (j + 3) _) fun c => ?_
  split
  · exact (ih.members.call 4 hm hn (by decide) (by decide)).bind
      ((past hsrc s (j + 4)).rulesKept n).structMembers.triple (fun _ => Same.refl _)
      |>.strengthen fun _ hr => hr.2 ‹_›
  · exact Same.refl _

theorem agrees_entries :
    Agrees src 17 4 (fun _ => True) (Layered.entries (m + 1)) arrayEntries (m + 1) :=
  .succ_past fun s j n _ hm hn => by
  have K := fun d => (past hsrc s (j + d)).rulesKept n
  rw [arrayEntries, Layered.entries]
  refine Same.bind_right (triple_consume hsrc s j _) fun b => ?_
  split
  · exact Same.refl _
  refine Same.strengthen ?_ fun _ hr => hr.1
  refine Same.bind_right (triple_consume hsrc s j _) fun c => ?_
  extract_lets +lift jp jpL
  have hjp : ∀ d index, Same src (Past src s (j + d)) (jp index) (jpL index) := by
    intro d index
    dsimp -zeta only [jp, jpL]
    refine (ih.assign.call d hm hn (by omega) (by omega)).bind ((K d).expr 0).triple fun _ => ?_
    refine Same.bind_right (triple_consume hsrc s (j + d) _) fun e => ?_
    split
    · exact (ih.entries.past (by unfold layeredNeed at *; omega)
        (by unfold need at *; omega)).bind (K (d + 1)).arrayEntries.triple
        (fun _ => Same.refl _) |>.strengthen fun _ hr => hr.2 ‹_›
    · exact Same.refl _
  split
  · refine Same.strengthen ?_ fun _ hr => hr.2 ‹_›
    refine (ih.assign.call 1 hm hn (by decide) (by decide)).bind ((K 1).expr 0).triple
      fun _ => ?_
    refine Same.bind_right (triple_expect hsrc s (j + 1) _) fun _ => ?_
    refine Same.bind_right (triple_expect hsrc s (j + 1 + 1) _) fun _ => ?_
    exact Same.bind_right (Triple.pure fun _ hr => hr) (hjp 3)
  · exact Same.bind_right (Triple.pure fun _ hr => hr.1) (hjp 0)

theorem Matches.succ : Matches src (m + 1) where
  assign := agrees_assign hsrc ih
  cond := agrees_cond hsrc ih
  chain := agrees_chain hsrc ih
  chainRest := agrees_chainRest hsrc ih
  mem := agrees_mem hsrc ih
  memRest := agrees_memRest hsrc ih
  unary := agrees_unary hsrc ih
  post := agrees_post hsrc ih
  args := agrees_args hsrc ih
  atom := agrees_atom hsrc ih
  members := agrees_members hsrc ih
  entries := agrees_entries hsrc ih

end Succ

theorem matching (hsrc : src.EndsInEof) : ∀ m, Matches src m
  | 0 => .zero
  | m + 1 => (matching hsrc m).succ hsrc

end Parse

theorem Source.ofTokens_size_pos (tokens : List Token) (file : String) :
    0 < (Source.ofTokens tokens file).tokens.size := by
  unfold Source.ofTokens
  split
  next t ht =>
    have hne : tokens ≠ [] := by
      rintro rfl
      cases ht
    split <;> simp [List.length_pos_iff, hne]
  next => simp

/-- The precedence-climbing parser and the layered grammar read the same expression from every
token stream, and stop at the same token, or fail alike. -/
theorem Expr.read_eq_readLayered (tokens : List Token) (names : TypeNames) :
    Expr.read tokens names = Expr.readLayered tokens names := by
  let src := Source.ofTokens tokens ""
  let fuel := Parse.fuelFor src.tokens.size
  have h : Parse.exec src (Parse.expr fuel 0) (Reader.start names) =
      Parse.exec src (Layered.assign fuel) (Reader.start names) :=
    ((Parse.matching (Source.ofTokens_endsInEof tokens "") fuel).assign.past (s := 0) (j := 0)
      (n := fuel) (by unfold Parse.layeredNeed fuel src Parse.fuelFor; omega)
      (by unfold Parse.need fuel src Parse.fuelFor; omega))
      (Reader.start names) ⟨Nat.le_refl _, Source.ofTokens_size_pos tokens ""⟩
  calc Expr.read tokens names
      = match Parse.exec src (Parse.expr fuel 0) (Reader.start names) with
        | (.ok e, r) => .ok (e, r.index)
        | (.error e, _) => .error e := rfl
    _ = match Parse.exec src (Layered.assign fuel) (Reader.start names) with
        | (.ok e, r) => .ok (e, r.index)
        | (.error e, _) => .error e := by rw [h]
    _ = Expr.readLayered tokens names := rfl

end ModularC
