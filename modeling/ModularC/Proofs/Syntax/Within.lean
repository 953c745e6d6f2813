import ModularC.Proofs.Syntax.Triple
import ModularC.Proofs.Token.Order

/-!
Parses that stay before a lexer error.
-/

namespace ModularC

/-- The place an error names, if any. -/
def Error.pos? : Error → Option Position
  | .lex _ pos _ | .unexpected _ pos _ _ _ | .redefinition _ pos _ | .pubVariable _ pos _ => some pos
  | _ => none

/-- The token `k` of `src` is an error with the message `msg`, no token before it ends the input,
and every token before it stands before it. -/
structure Source.ErrorAt (src : Source) (k : Nat) (msg : String) : Prop where
  error : (src.peekAt k 0).kind = .error msg
  going : ∀ j < k, (src.peekAt j 0).isEof = false
  before : ∀ j < k, (src.peekAt j 0).pos < (src.peekAt k 0).pos
  origin : (⟨0, 0⟩ : Position) < (src.peekAt k 0).pos

namespace Parse

variable {α : Type} {src : Source} {k : Nat} {msg : String}

/-- The reader has not passed the token `k`, and the last name it read stands before that
token. -/
def Within (src : Source) (k : Nat) (r : Reader) : Prop :=
  r.index ≤ k ∧ r.namePos < (src.peekAt k 0).pos

/-- The lexer's error at the token `k`, or an error that names a place before that token. -/
def Reported (src : Source) (k : Nat) (msg : String) (e : Error) : Prop :=
  e = .lex src.file (src.peekAt k 0).pos msg ∨ ∃ p, e.pos? = some p ∧ p < (src.peekAt k 0).pos

/-- From a reader within the token `k`, `p` ends within it and fails only as `Reported` says. -/
def Bounded (src : Source) (k : Nat) (msg : String) (p : Parse α) : Prop :=
  Triple src (Within src k) p (fun _ => Within src k) fun e r => Within src k r ∧ Reported src k msg e

/-- The reader is within the token `k` and has the token `t` under its cursor. -/
def At (src : Source) (k : Nat) (t : Token) (r : Reader) : Prop :=
  Within src k r ∧ src.peekAt r.index 0 = t

/-- `Bounded` from a reader with the token `t` under its cursor. -/
def BoundedAt (src : Source) (k : Nat) (msg : String) (t : Token) (p : Parse α) : Prop :=
  Triple src (At src k t) p (fun _ => Within src k) fun e r => Within src k r ∧ Reported src k msg e

section ErrorAt

variable (hk : src.ErrorAt k msg)
include hk

theorem Within.index_lt {r : Reader} (hr : Within src k r)
    (ht : (src.peekAt r.index 0).kind.stops = false) : r.index < k := by
  rcases Nat.lt_or_eq_of_le hr.1 with h | h
  · exact h
  · rw [h, hk.error] at ht
    cases ht

theorem Within.isEof_eq_false {r : Reader} (hr : Within src k r) :
    (src.peekAt r.index 0).isEof = false := by
  rcases Nat.lt_or_eq_of_le hr.1 with h | h
  · exact hk.going _ h
  · rw [h, Token.isEof, hk.error]
    rfl

theorem Within.pos_lt {r : Reader} (hr : Within src k r)
    (ht : (src.peekAt r.index 0).kind.stops = false) :
    (src.peekAt r.index 0).pos < (src.peekAt k 0).pos :=
  hk.before _ (hr.index_lt hk ht)

theorem reported_error {i : Nat} (hi : i ≤ k) (expected : String) :
    Reported src k msg (src.error i expected) := by
  rcases Nat.lt_or_eq_of_le hi with h | rfl
  · refine .inr ⟨(src.peekAt i 0).pos, ?_, hk.before i h⟩
    unfold Source.error
    dsimp only
    split <;> rfl
  · left
    simp [Source.error, hk.error]

end ErrorAt

end Parse

end ModularC
