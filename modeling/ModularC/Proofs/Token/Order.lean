import Mathlib.Data.Prod.Lex
import ModularC.Proofs.Token.Lookahead

/-!
Tokens stand in text order (`Cursor.tokens_pos_pairwise`).
-/

namespace ModularC

namespace Position

/-- A place as a pair ordered by line first. -/
def key (p : Position) : ℕ ×ₗ ℕ := toLex (p.line, p.column)

theorem key_injective : Function.Injective key := by
  intro p q h
  simp only [key, toLex_inj, Prod.mk.injEq] at h
  cases p
  cases q
  simp_all

instance : LinearOrder Position := LinearOrder.lift' key key_injective

theorem lt_iff {p q : Position} :
    p < q ↔ p.line < q.line ∨ p.line = q.line ∧ p.column < q.column :=
  Prod.Lex.toLex_lt_toLex

theorem lt_step (p : Position) (c : Char) : p < p.step c := by
  rw [lt_iff]
  unfold step
  split <;> simp

theorem le_foldl_step (p : Position) (cs : List Char) : p ≤ cs.foldl step p := by
  induction cs generalizing p with
  | nil => exact le_rfl
  | cons c cs ih => exact (lt_step p c).le.trans (ih _)

theorem lt_foldl_step (p : Position) (c : Char) (cs : List Char) :
    p < (c :: cs).foldl step p :=
  (lt_step p c).trans_le (le_foldl_step _ cs)

end Position

namespace Cursor

theorem pos_le_advance (c : Cursor) (n : Nat) : c.pos ≤ (c.advance n).pos :=
  Position.le_foldl_step _ _

theorem pos_lt_advance {c : Cursor} {x : Char} {xs : List Char} (h : c.rest = x :: xs) {n : Nat}
    (hn : 0 < n) : c.pos < (c.advance n).pos := by
  obtain ⟨k, rfl⟩ : ∃ k, n = k + 1 := ⟨n - 1, by omega⟩
  simp only [advance, h, List.take_succ_cons]
  exact Position.lt_foldl_step _ _ _

theorem pos_le_skipBlanks (c : Cursor) : c.pos ≤ c.skipBlanks.pos :=
  c.pos_le_advance _

end Cursor

/-- Where a step's token and the cursor after it stand: the token where the blanks before it end,
and the cursor after a token or a comment beyond it. -/
def Step.Ordered {c : Cursor} : Step c → Prop
  | .token t next _ => t.pos = c.skipBlanks.pos ∧ c.skipBlanks.pos < next.pos
  | .comment next _ => c.skipBlanks.pos < next.pos
  | .last t next => t.pos = c.skipBlanks.pos ∧ c.skipBlanks.pos ≤ next.pos

namespace Cursor

theorem step_ordered (c : Cursor) : c.step.Ordered := by
  unfold Cursor.step
  dsimp only
  split
  · exact ⟨rfl, le_rfl⟩
  split
  · exact ⟨rfl, pos_lt_advance ‹_› (Nat.succ_pos _)⟩
  repeat' split
  -- every other token and comment consumes a character after the blanks; the last tokens
  -- consume any number
  all_goals simp only [Step.Ordered, true_and]
  all_goals first
    | exact pos_le_advance _ _
    | exact le_rfl
    | exact pos_lt_advance ‹_› (by simp [Symbol.spelling_length_pos])

theorem pos_le_tokens (c : Cursor) : ∀ u ∈ c.tokens, c.pos ≤ u.pos := by
  fun_induction Cursor.tokens c with
  | case1 c t next _ hstep ih =>
    have hord : t.pos = c.skipBlanks.pos ∧ c.skipBlanks.pos < next.pos := by
      simpa [hstep, Step.Ordered] using c.step_ordered
    intro u hu
    rcases List.mem_cons.1 hu with rfl | hu
    · exact hord.1 ▸ c.pos_le_skipBlanks
    · exact c.pos_le_skipBlanks.trans (hord.2.le.trans (ih u hu))
  | case2 c next _ hstep ih =>
    have hord : c.skipBlanks.pos < next.pos := by simpa [hstep, Step.Ordered] using c.step_ordered
    intro u hu
    exact c.pos_le_skipBlanks.trans (hord.le.trans (ih u hu))
  | case3 c t next hstep _ =>
    have hord : t.pos = c.skipBlanks.pos ∧ c.skipBlanks.pos ≤ next.pos := by
      simpa [hstep, Step.Ordered] using c.step_ordered
    intro u hu
    rw [List.mem_singleton] at hu
    subst hu
    exact hord.1 ▸ c.pos_le_skipBlanks
  | case4 c t next hstep _ =>
    have hord : t.pos = c.skipBlanks.pos ∧ c.skipBlanks.pos ≤ next.pos := by
      simpa [hstep, Step.Ordered] using c.step_ordered
    intro u hu
    simp only [List.mem_cons, List.not_mem_nil, or_false] at hu
    rcases hu with rfl | rfl
    · exact hord.1 ▸ c.pos_le_skipBlanks
    · exact c.pos_le_skipBlanks.trans hord.2

/-- Each token before the final end of input stands strictly before every later one. -/
theorem tokens_pos_pairwise (c : Cursor) :
    c.tokens.dropLast.Pairwise fun a b => a.pos < b.pos := by
  fun_induction Cursor.tokens c with
  | case1 c t next _ hstep ih =>
    have hord : t.pos = c.skipBlanks.pos ∧ c.skipBlanks.pos < next.pos := by
      simpa [hstep, Step.Ordered] using c.step_ordered
    obtain ⟨u, us, hnext⟩ := List.exists_cons_of_ne_nil next.tokens_ne_nil
    rw [hnext, List.dropLast_cons_cons, List.pairwise_cons, ← hnext]
    refine ⟨fun u hu => ?_, ih⟩
    rw [hord.1]
    exact hord.2.trans_le (next.pos_le_tokens u ((List.dropLast_sublist _).subset hu))
  | case2 c next _ _ ih => exact ih
  | case3 => simp
  | case4 => simp

end Cursor

/-- Every token before an error stands before it, and the error stands on a line. -/
theorem tokenize_pos_lt_error {s : String} {body : List Token} {x eof : Token}
    (h : tokenize s = body ++ [x, eof]) :
    (∀ t ∈ body, t.pos < x.pos) ∧ (⟨0, 0⟩ : Position) < x.pos := by
  have hpair := (Cursor.ofString s).tokens_pos_pairwise
  have hstart := (Cursor.ofString s).pos_le_tokens x
  rw [show (Cursor.ofString s).tokens = tokenize s from rfl, h] at hpair hstart
  rw [show body ++ [x, eof] = (body ++ [x]) ++ [eof] by simp, List.dropLast_concat,
    List.pairwise_append] at hpair
  refine ⟨fun t ht => hpair.2.2 t ht x (List.mem_singleton_self x), ?_⟩
  have hx := hstart (by simp)
  exact lt_of_lt_of_le (Position.lt_iff.2 (.inl Nat.zero_lt_one)) hx

end ModularC
