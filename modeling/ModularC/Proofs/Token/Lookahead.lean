import Mathlib.Data.Stream.Init
import ModularC.Token.Lookahead

/-!
The lexer's queue is invisible (`Lexer.answer_ofString`).
-/

namespace ModularC

/-- The tokens after which scanning stops: the end of input and errors. -/
def TokenKind.stops : TokenKind → Bool
  | .eof | .error _ => true
  | _ => false

/-- What one step of scanning can give: a token after which scanning goes on, a comment, or a
last token, which is an error or the end of input at the place where scanning stopped. -/
def Step.Sound {c : Cursor} : Step c → Prop
  | .token t _ _ => t.kind.stops = false
  | .comment _ _ => True
  | .last t next => t = ⟨.eof, next.pos⟩ ∨ ∃ m, t.kind = .error m

namespace Cursor

theorem step_sound (c : Cursor) : c.step.Sound := by
  unfold Cursor.step
  dsimp only
  split
  · exact .inl rfl
  split
  · rfl
  repeat' split
  all_goals simp [Step.Sound, TokenKind.stops]

theorem tokens_of_nextToken_going {c next : Cursor} {t : Token}
    (h : c.nextToken = (t, next, false)) : c.tokens = t :: next.tokens := by
  induction c using Cursor.nextToken.induct with
  | case1 c t' next' _ hstep =>
    rw [Cursor.nextToken, hstep] at h
    cases h
    rw [Cursor.tokens, hstep]
  | case2 c next' _ hstep ih =>
    rw [Cursor.nextToken, hstep] at h
    rw [Cursor.tokens, hstep]
    exact ih h
  | case3 c t' next' hstep =>
    rw [Cursor.nextToken, hstep] at h
    cases h

theorem tokens_of_nextToken_last {c next : Cursor} {t : Token}
    (h : c.nextToken = (t, next, true)) :
    (t = ⟨.eof, next.pos⟩ ∧ c.tokens = [t]) ∨
      ∃ m, t.kind = .error m ∧ c.tokens = [t, ⟨.eof, next.pos⟩] := by
  induction c using Cursor.nextToken.induct with
  | case1 c t' next' _ hstep =>
    rw [Cursor.nextToken, hstep] at h
    cases h
  | case2 c next' _ hstep ih =>
    rw [Cursor.nextToken, hstep] at h
    rw [Cursor.tokens, hstep]
    exact ih h
  | case3 c t' next' hstep =>
    rw [Cursor.nextToken, hstep] at h
    cases h
    have hlast : t = ⟨.eof, next.pos⟩ ∨ ∃ m, t.kind = .error m := by
      simpa [hstep, Step.Sound] using c.step_sound
    rw [Cursor.tokens, hstep]
    rcases hlast with rfl | ⟨m, hm⟩
    · exact .inl ⟨rfl, rfl⟩
    · have heof : t.isEof = false := by simp [Token.isEof, hm]
      exact .inr ⟨m, hm, by simp [heof]⟩

theorem tokens_shape (c : Cursor) :
    ∃ body p, (∀ t ∈ body, t.kind.stops = false) ∧
      (c.tokens = body ++ [⟨.eof, p⟩] ∨ ∃ m q, c.tokens = body ++ [⟨.error m, q⟩, ⟨.eof, p⟩]) := by
  fun_induction Cursor.tokens c with
  | case1 c t next _ hstep ih =>
    obtain ⟨body, p, hbody, hend⟩ := ih
    have ht : t.kind.stops = false := by simpa [hstep, Step.Sound] using c.step_sound
    refine ⟨t :: body, p, ?_, ?_⟩
    · intro u hu
      rcases List.mem_cons.1 hu with rfl | hu
      · exact ht
      · exact hbody u hu
    · rcases hend with hend | ⟨m, q, hend⟩
      · exact .inl (by rw [hend]; rfl)
      · exact .inr ⟨m, q, by rw [hend]; rfl⟩
  | case2 c next _ _ ih => exact ih
  | case3 c t next hstep heof =>
    have hlast : t = ⟨.eof, next.pos⟩ ∨ ∃ m, t.kind = .error m := by
      simpa [hstep, Step.Sound] using c.step_sound
    rcases hlast with rfl | ⟨m, hm⟩
    · exact ⟨[], next.pos, by simp, .inl rfl⟩
    · simp [Token.isEof, hm] at heof
  | case4 c t next hstep heof =>
    have hlast : t = ⟨.eof, next.pos⟩ ∨ ∃ m, t.kind = .error m := by
      simpa [hstep, Step.Sound] using c.step_sound
    rcases hlast with rfl | ⟨m, hm⟩
    · simp [Token.isEof] at heof
    · obtain ⟨kind, q⟩ := t
      cases hm
      exact ⟨[], next.pos, by simp, .inr ⟨m, q, rfl⟩⟩

theorem tokens_ne_nil (c : Cursor) : c.tokens ≠ [] := by
  obtain ⟨body, p, -, hend | ⟨m, q, hend⟩⟩ := c.tokens_shape <;> simp [hend]

end Cursor

theorem tokenize_shape (s : String) :
    ∃ body p, (∀ t ∈ body, t.kind.stops = false) ∧
      (tokenize s = body ++ [⟨.eof, p⟩] ∨ ∃ m q, tokenize s = body ++ [⟨.error m, q⟩, ⟨.eof, p⟩]) :=
  (Cursor.ofString s).tokens_shape

theorem get_append_stream_of_lt {α : Type} {l : List α} {s : Stream' α} {n : Nat} (d : α)
    (h : n < l.length) : (l ++ₛ s).get n = l.getD n d := by
  induction l generalizing n with
  | nil => cases h
  | cons a l ih =>
    cases n with
    | zero => rfl
    | succ n =>
      rw [Stream'.cons_append_stream, Stream'.get_succ_cons, List.getD_cons_succ]
      exact ih (by simpa using h)

namespace Lexer

/-- The tokens the scanner has still to give, then copies of `final`. -/
def upcoming (l : Lexer) (final : Token) : Stream' Token :=
  if l.finished then Stream'.const final else l.cursor.tokens ++ₛ Stream'.const final

/-- The tokens the lexer has still to give: its queue, then what the scanner gives. -/
def stream (l : Lexer) (final : Token) : Stream' Token := l.pending ++ₛ l.upcoming final

/-- `final` ends the lexer's input: it is the scanner's last token, or, once scanning finished, the
end of input where scanning stopped. -/
def EndsWith (l : Lexer) (final : Token) : Prop :=
  if l.finished then final = ⟨.eof, l.cursor.pos⟩ else l.cursor.tokens.getLast? = some final

variable {l : Lexer} {final : Token}

theorem pull_upcoming (hl : l.EndsWith final) :
    l.upcoming final = Stream'.cons l.pull.1 (l.pull.2.upcoming final) ∧
      l.pull.2.EndsWith final ∧ l.pull.2.pending = l.pending := by
  cases hfin : l.finished with
  | true =>
    have hfinal : final = ⟨.eof, l.cursor.pos⟩ := by simpa [EndsWith, hfin] using hl
    have hpull : l.pull = (final, l) := by simp [pull, hfin, hfinal]
    rw [hpull]
    exact ⟨by simp only [upcoming, hfin, if_true]; exact Stream'.const_eq final, hl, rfl⟩
  | false =>
    have hlast : l.cursor.tokens.getLast? = some final := by simpa [EndsWith, hfin] using hl
    rcases hnext : l.cursor.nextToken with ⟨t, c, fin⟩
    have hpull : l.pull = (t, { l with cursor := c, finished := fin }) := by
      simp [pull, hfin, hnext]
    have hup : l.upcoming final = l.cursor.tokens ++ₛ Stream'.const final := by
      simp [upcoming, hfin]
    rw [hpull, hup]
    cases fin with
    | false =>
      have htokens := Cursor.tokens_of_nextToken_going hnext
      obtain ⟨u, us, hc⟩ := List.exists_cons_of_ne_nil c.tokens_ne_nil
      rw [htokens, hc, List.getLast?_cons_cons, ← hc] at hlast
      refine ⟨?_, by simpa [EndsWith] using hlast, rfl⟩
      rw [htokens, Stream'.cons_append_stream]
      rfl
    | true =>
      rcases Cursor.tokens_of_nextToken_last hnext with ⟨rfl, htokens⟩ | ⟨m, -, htokens⟩
      · rw [htokens, List.getLast?_singleton, Option.some.injEq] at hlast
        subst hlast
        exact ⟨by rw [htokens, Stream'.cons_append_stream, Stream'.nil_append_stream]; rfl, rfl, rfl⟩
      · rw [htokens, List.getLast?_cons_cons, List.getLast?_singleton, Option.some.injEq] at hlast
        subst hlast
        refine ⟨?_, rfl, rfl⟩
        rw [htokens, Stream'.cons_append_stream, Stream'.cons_append_stream,
          Stream'.nil_append_stream, ← Stream'.const_eq]
        rfl

theorem next_stream (hl : l.EndsWith final) :
    l.stream final = Stream'.cons l.next.1 (l.next.2.stream final) ∧ l.next.2.EndsWith final := by
  unfold next
  split
  next t ts hpending => exact ⟨by rw [stream, hpending]; rfl, hl⟩
  next hpending =>
    obtain ⟨hup, hends, hqueue⟩ := pull_upcoming hl
    refine ⟨?_, hends⟩
    rw [stream, stream, hpending, hqueue, hpending, hup]
    rfl

theorem fill_stream (k : Nat) (hl : l.EndsWith final) :
    (fill k l).stream final = l.stream final ∧ (fill k l).EndsWith final ∧
      (fill k l).pending.length = l.pending.length + k := by
  induction k generalizing l with
  | zero => exact ⟨rfl, hl, rfl⟩
  | succ k ih =>
    obtain ⟨hup, hends, hqueue⟩ := pull_upcoming hl
    obtain ⟨hstream, hends', hlength⟩ :=
      ih (l := { l.pull.2 with pending := l.pull.2.pending ++ [l.pull.1] }) hends
    refine ⟨?_, hends', ?_⟩
    · rw [fill, hstream, stream, stream, Stream'.append_append_stream, hqueue, hup]
      rfl
    · rw [fill, hlength]
      simp [hqueue]
      omega

theorem peek_stream (n : Nat) (hl : l.EndsWith final) :
    (l.peek n).1 = (l.stream final).get n ∧ (l.peek n).2.stream final = l.stream final ∧
      (l.peek n).2.EndsWith final := by
  obtain ⟨hstream, hends, hlength⟩ := fill_stream (n + 1 - l.pending.length) hl
  refine ⟨?_, hstream, hends⟩
  simp only [peek]
  rw [← hstream, stream, get_append_stream_of_lt _ (by omega)]

theorem unget_stream (t : Token) : (l.unget t).stream final = Stream'.cons t (l.stream final) := rfl

/-- Answers requests as a plain cursor over the stream `σ` does: `next` takes its head, `peek n`
reads its `n`-th token, and `unget` puts the most recent token `next` gave back on its front. -/
def replay (σ : Stream' Token) (given : List Token) : List Request → List (Option Token)
  | [] => []
  | .next :: rs => some σ.head :: replay σ.tail (σ.head :: given) rs
  | .peek n :: rs => some (σ.get n) :: replay σ given rs
  | .unget :: rs =>
    match given with
    | t :: given => some t :: replay (Stream'.cons t σ) given rs
    | [] => none :: replay σ [] rs

theorem answer_eq_replay (hl : l.EndsWith final) (given : List Token) (rs : List Request) :
    l.answer given rs = replay (l.stream final) given rs := by
  induction rs generalizing l given with
  | nil => rfl
  | cons r rs ih =>
    cases r with
    | next =>
      obtain ⟨hstream, hends⟩ := next_stream hl
      rcases hnext : l.next with ⟨t, l'⟩
      rw [hnext] at hstream hends
      dsimp only at hstream hends
      rw [answer, hnext, replay, hstream, Stream'.head_cons, Stream'.tail_cons, ← ih hends]
    | peek n =>
      obtain ⟨hget, hstream, hends⟩ := peek_stream n hl
      rcases hpeek : l.peek n with ⟨t, l'⟩
      rw [hpeek] at hget hstream hends
      dsimp only at hget hstream hends
      rw [answer, hpeek, replay, ← hget, ← hstream, ← ih hends]
    | unget =>
      cases given with
      | cons t given =>
        rw [answer, replay, ← unget_stream, ih (show (l.unget t).EndsWith final from hl)]
      | nil => rw [answer, replay, ih hl]

/-- A lexer over a text answers every sequence of requests as a plain cursor over the text's tokens
does, with copies of the final end of input after them. The tokens end with one end of input, which
an error, if there is one, directly precedes; they hold no comment, which no token kind stands for. -/
theorem answer_ofString (s : String) :
    ∃ body p, (∀ t ∈ body, t.kind.stops = false) ∧
      (tokenize s = body ++ [⟨.eof, p⟩] ∨ ∃ m q, tokenize s = body ++ [⟨.error m, q⟩, ⟨.eof, p⟩]) ∧
      ∀ rs, (Lexer.ofString s).answer [] rs = replay (tokenize s ++ₛ Stream'.const ⟨.eof, p⟩) [] rs := by
  obtain ⟨body, p, hbody, hend⟩ := tokenize_shape s
  have hl : (Lexer.ofString s).EndsWith ⟨.eof, p⟩ := by
    show (tokenize s).getLast? = some _
    rcases hend with hend | ⟨m, q, hend⟩ <;> simp [hend]
  exact ⟨body, p, hbody, hend, fun rs => answer_eq_replay hl [] rs⟩

end Lexer

end ModularC
