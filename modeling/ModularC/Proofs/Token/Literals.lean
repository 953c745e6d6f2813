import Mathlib
import ModularC.Proofs.Token.Places

/-!
Literals are read as their grammar says (`Cursor.nextToken_literal`).
-/

namespace ModularC

/-! ### Quoted literals -/

/-- The body of a literal closed by `q`: backslashes each with the character after it, and
characters other than `q`, a backslash and a newline. -/
inductive QuotedBody (q : Char) : List Char → Prop
  | nil : QuotedBody q []
  | escape (c : Char) {b : List Char} : QuotedBody q b → QuotedBody q ('\\' :: c :: b)
  | plain {c : Char} {b : List Char} : c ≠ q → c ≠ '\\' → c ≠ '\n' → QuotedBody q b →
      QuotedBody q (c :: b)

section Quoted

variable {q : Char}

theorem quoted_cons_of_ne {c : Char} {r : List Char} (hn : c ≠ '\n') (hb : c ≠ '\\') :
    quoted q (c :: r) =
      if c = q then (some [], 1) else ((quoted q r).1.map (c :: ·), (quoted q r).2 + 1) := by
  rw [quoted.eq_5 q c r hn (fun h => absurd h hb) (fun _ _ h => absurd h hb)]

theorem quoted_complete (hq : q ≠ '\\') (hn : q ≠ '\n') {b : List Char} (hb : QuotedBody q b)
    (r : List Char) : quoted q (b ++ q :: r) = (some b, b.length + 1) := by
  induction hb with
  | nil =>
    rw [List.nil_append, quoted_cons_of_ne hn hq, if_pos rfl]
    rfl
  | escape c hb ih =>
    rw [List.cons_append, List.cons_append, quoted.eq_4, ih]
    simp
  | plain hcq hcb hcn hb ih =>
    rw [List.cons_append, quoted_cons_of_ne hcn hcb, if_neg hcq, ih]
    simp

theorem ne_backslash_of {c : Char} {r : List Char} (h₁ : c = '\\' → r = [] → False)
    (h₂ : ∀ (c' : Char) (r' : List Char), c = '\\' → r = c' :: r' → False) : c ≠ '\\' := by
  intro hc
  cases r with
  | nil => exact h₁ hc rfl
  | cons c' r' => exact h₂ c' r' hc rfl

theorem quoted_sound {cs b : List Char} {n : Nat} (h : quoted q cs = (some b, n)) :
    QuotedBody q b ∧ cs = b ++ q :: cs.drop n ∧ n = b.length + 1 := by
  induction cs using quoted.induct q generalizing b n with
  | case1 => simp [quoted] at h
  | case2 t => simp [quoted] at h
  | case3 => simp [quoted] at h
  | case4 c r body n' hq ih =>
    simp only [quoted, hq, Prod.mk.injEq] at h
    obtain ⟨hbody, rfl⟩ := h
    cases body with
    | none => cases hbody
    | some b' =>
      cases hbody
      obtain ⟨hb, hr, hn⟩ := ih hq
      refine ⟨.escape c hb, ?_, by simp [hn]⟩
      simp only [List.drop_succ_cons, List.cons_append]
      exact congrArg (fun l => '\\' :: c :: l) hr
  | case5 r hn h₁ h₂ =>
    rw [quoted_cons_of_ne hn (ne_backslash_of h₁ h₂), if_pos rfl] at h
    cases h
    exact ⟨.nil, rfl, rfl⟩
  | case6 c r hn h₁ h₂ hc body n' hq ih =>
    have hcb := ne_backslash_of h₁ h₂
    rw [quoted_cons_of_ne hn hcb, if_neg hc, hq] at h
    obtain ⟨hbody, rfl⟩ := Prod.mk.inj h
    cases body with
    | none => cases hbody
    | some b' =>
      cases hbody
      obtain ⟨hb, hr, hn'⟩ := ih hq
      refine ⟨.plain hc hcb hn hb, ?_, by simp [hn']⟩
      simp only [List.drop_succ_cons, List.cons_append]
      exact congrArg (c :: ·) hr

theorem quoted_take {cs b : List Char} {n : Nat} (h : quoted q cs = (some b, n)) :
    cs.take n = b ++ [q] := by
  obtain ⟨-, hcs, hn⟩ := quoted_sound h
  rw [hcs, hn, List.take_append, List.take_of_length_le (by omega), Nat.add_sub_cancel_left]
  rfl

theorem quoted_none (hq : q ≠ '\\') (hn : q ≠ '\n') {cs : List Char} {n : Nat}
    (h : quoted q cs = (none, n)) : ¬∃ b r, QuotedBody q b ∧ cs = b ++ q :: r := by
  rintro ⟨b, r, hb, rfl⟩
  rw [quoted_complete hq hn hb] at h
  cases h

end Quoted

/-- A run of string literals that only blanks separate, read from its first opening quote, and the
bodies of its literals joined: the run goes on while the next character after the blanks is a
quote. -/
inductive StringRun : List Char → List Char → Prop
  | last {b rest : List Char} : QuotedBody '"' b → (rest.dropWhile Text.isBlank).head? ≠ some '"' →
      StringRun ('"' :: (b ++ '"' :: rest)) b
  | more {b w cs text : List Char} : QuotedBody '"' b → (∀ c ∈ w, Text.isBlank c) →
      StringRun ('"' :: cs) text → StringRun ('"' :: (b ++ '"' :: (w ++ '"' :: cs))) (b ++ text)

theorem drop_takeWhile_length {p : Char → Bool} : ∀ l : List Char,
    l.drop (l.takeWhile p).length = l.dropWhile p
  | [] => rfl
  | a :: l => by
    rw [List.takeWhile_cons, List.dropWhile_cons]
    split
    · simp [drop_takeWhile_length l]
    · simp

theorem stringRun_eq_of_quoted {cs body : List Char} {n : Nat}
    (hq : quoted '"' cs = (some body, n)) :
    stringRun cs = match (cs.drop n).dropWhile Text.isBlank with
      | '"' :: more => ((stringRun more).1.map (body ++ ·),
          n + ((cs.drop n).takeWhile Text.isBlank).length + 1 + (stringRun more).2)
      | _ => (some body, n) := by
  rw [stringRun]
  split
  · rename_i heq
    rw [hq] at heq
    cases heq
  · rename_i body' n' heq
    rw [hq] at heq
    cases heq
    dsimp only
    rw [← drop_takeWhile_length]
    split
    · rename_i more hd
      rw [hd]
      rfl
    · rename_i hd
      split
      · rename_i more' hd'
        exact absurd hd' (hd more')
      · rfl

theorem stringRun_sound {cs text : List Char} {n : Nat} (h : stringRun cs = (some text, n)) :
    StringRun ('"' :: cs) text := by
  induction cs using stringRun.induct generalizing text n with
  | case1 cs n' hq =>
    rw [stringRun, hq] at h
    cases h
  | case2 cs body n' hq after blanks more hmore _ tail m =>
    rename_i hrun ih
    simp only [after, blanks] at hmore
    obtain ⟨hb, hcs, -⟩ := quoted_sound hq
    rw [drop_takeWhile_length] at hmore
    rw [stringRun_eq_of_quoted hq, hmore] at h
    simp only [hrun, Prod.mk.injEq] at h
    obtain ⟨htail, -⟩ := h
    cases tail with
    | none => cases htail
    | some t =>
      cases htail
      have hw := (List.takeWhile_append_dropWhile (p := Text.isBlank) (l := cs.drop n')).symm
      rw [hmore] at hw
      rw [hcs, hw]
      exact .more hb (fun c hc => List.mem_takeWhile_imp hc) (ih hrun)
  | case3 cs body n' hq after =>
    rename_i blanks hend
    simp only [after, blanks] at hend
    obtain ⟨hb, hcs, -⟩ := quoted_sound hq
    have hnot : ((cs.drop n').dropWhile Text.isBlank).head? ≠ some '"' := by
      intro hh
      obtain ⟨more, hmore⟩ : ∃ more, (cs.drop n').dropWhile Text.isBlank = '"' :: more := by
        cases hd : (cs.drop n').dropWhile Text.isBlank with
        | nil => rw [hd] at hh; cases hh
        | cons y ys => rw [hd] at hh; cases hh; exact ⟨ys, rfl⟩
      exact hend more (by rw [drop_takeWhile_length]; exact hmore)
    rw [stringRun_eq_of_quoted hq] at h
    split at h
    · rename_i more hmore
      rw [hmore] at hnot
      exact absurd rfl hnot
    · cases h
      rw [hcs]
      exact .last hb hnot

theorem stringRun_complete {cs text : List Char} (h : StringRun ('"' :: cs) text) :
    ∃ n, stringRun cs = (some text, n) := by
  generalize hx : '"' :: cs = x at h
  induction h generalizing cs with
  | @last b rest hb hend =>
    cases hx
    have hq := quoted_complete (by decide) (by decide) hb rest
    refine ⟨b.length + 1, ?_⟩
    have hdrop : (b ++ '"' :: rest).drop (b.length + 1) = rest := by simp
    rw [stringRun_eq_of_quoted hq, hdrop]
    split
    · rename_i more hmore
      rw [hmore] at hend
      exact absurd rfl hend
    · rfl
  | @more b w cs' text' hb hw hnext ih =>
    cases hx
    obtain ⟨m, hm⟩ := ih rfl
    have hq := quoted_complete (by decide) (by decide) hb (w ++ '"' :: cs')
    have hdrop : (b ++ '"' :: (w ++ '"' :: cs')).drop (b.length + 1) = w ++ '"' :: cs' := by simp
    have hblanks : (w ++ '"' :: cs').dropWhile Text.isBlank = '"' :: cs' := by
      rw [List.dropWhile_append_of_pos hw, List.dropWhile_cons_of_neg (by decide)]
    rw [stringRun_eq_of_quoted hq, hdrop, hblanks]
    simp only [hm, Option.map_some]
    exact ⟨_, rfl⟩

/-! ### Numeric literals -/

/-- At most three of `u`, `U`, `l` and `L`. -/
def IntSuffix (cs : List Char) : Prop := cs.length ≤ 3 ∧ ∀ c ∈ cs, isIntSuffix c = true

/-- At most one of `f`, `F`, `l` and `L`. -/
def FloatSuffix (cs : List Char) : Prop := cs.length ≤ 1 ∧ ∀ c ∈ cs, isFloatSuffix c = true

/-- An exponent: `e` or `E`, an optional sign, and at least one decimal digit. -/
def IsExponent (cs : List Char) : Prop :=
  ∃ e sign ds, cs = e :: (sign ++ ds) ∧ (e = 'e' ∨ e = 'E') ∧
    (sign = [] ∨ sign = ['+'] ∨ sign = ['-']) ∧ ds ≠ [] ∧ ∀ d ∈ ds, d.isDigit = true

/-- A fraction: a point, then decimal digits. -/
def IsFraction (cs : List Char) : Prop := ∃ ds, cs = '.' :: ds ∧ ∀ d ∈ ds, d.isDigit = true

/-- What ends a decimal literal: an exponent and at most one of `fFlL`; or no exponent, and then
at most one of `fFlL` when the literal is floating (it has a point) and at most three of `uUlL`
when it is not. -/
inductive ExponentSuffix (floating : Bool) : List Char → Prop
  | exponent {e sfx : List Char} : IsExponent e → FloatSuffix sfx →
      ExponentSuffix floating (e ++ sfx)
  | float {sfx : List Char} : floating = true → FloatSuffix sfx → ExponentSuffix floating sfx
  | int {sfx : List Char} : floating = false → IntSuffix sfx → ExponentSuffix floating sfx

/-- The numeric literals: hexadecimal ones, `0x` or `0X` then hexadecimal digits and at most three
of `uUlL`; integers, digits then `ExponentSuffix false`; and fractions, digits, a point and digits
then `ExponentSuffix true`, with a digit before or right after the point. -/
inductive NumberLiteral : List Char → Prop
  | hex {x : Char} {ds sfx : List Char} : (x = 'x' ∨ x = 'X') → ds ≠ [] →
      (∀ d ∈ ds, isHexDigit d = true) → IntSuffix sfx → NumberLiteral ('0' :: x :: (ds ++ sfx))
  | integer {whole rest : List Char} : whole ≠ [] → (∀ d ∈ whole, d.isDigit = true) →
      ExponentSuffix false rest → NumberLiteral (whole ++ rest)
  | fraction {whole frac rest : List Char} : (∀ d ∈ whole, d.isDigit = true) → IsFraction frac →
      (whole ≠ [] ∨ ∃ d ds, frac = '.' :: d :: ds) → ExponentSuffix true rest →
      NumberLiteral (whole ++ frac ++ rest)

/-- `text` is the longest beginning of `cs` that is a numeric literal. -/
structure LongestLiteral (cs text : List Char) : Prop where
  isPrefix : text <+: cs
  literal : NumberLiteral text
  longest : ∀ p, p <+: cs → NumberLiteral p → p.length ≤ text.length

/-! #### The letters that end a literal

None of them is a digit, a point or an exponent mark, and the integer ones are no hexadecimal
digits either: so a digit run, an exponent or a fraction always ends where a suffix begins. -/

theorem isIntSuffix_spec {a : Char} (h : isIntSuffix a = true) :
    a.isDigit = false ∧ isHexDigit a = false ∧ a ≠ '.' ∧ a ≠ 'e' ∧ a ≠ 'E' := by
  simp only [isIntSuffix, Bool.or_eq_true, beq_iff_eq] at h
  rcases h with ((rfl | rfl) | rfl) | rfl <;> decide

theorem isFloatSuffix_spec {a : Char} (h : isFloatSuffix a = true) :
    a.isDigit = false ∧ a ≠ '.' ∧ a ≠ 'e' ∧ a ≠ 'E' := by
  simp only [isFloatSuffix, Bool.or_eq_true, beq_iff_eq] at h
  rcases h with ((rfl | rfl) | rfl) | rfl <;> decide

theorem IsExponent.ne_nil {e : List Char} (he : IsExponent e) : e ≠ [] := by
  obtain ⟨E, sign, ds, rfl, -⟩ := he
  exact List.cons_ne_nil _ _

theorem ExponentSuffix.head {fl : Bool} {p : List Char} (hp : ExponentSuffix fl p) :
    ∀ a ∈ p.head?, a.isDigit = false ∧ a ≠ '.' := by
  intro a ha
  cases hp with
  | @exponent e sfx he _ =>
    obtain ⟨E, sign, ds, rfl, hE, -⟩ := he
    cases ha
    rcases hE with rfl | rfl <;> decide
  | float _ hsfx =>
    have := isFloatSuffix_spec (hsfx.2 a (List.mem_of_mem_head? ha))
    exact ⟨this.1, this.2.1⟩
  | int _ hsfx =>
    have := isIntSuffix_spec (hsfx.2 a (List.mem_of_mem_head? ha))
    exact ⟨this.1, this.2.2.1⟩

/-! #### Runs at the front of the text -/

section Runs

variable {p : Char → Bool}

theorem drop_of_append_isPrefix {q s l : List Char} (h : q ++ s <+: l) : s <+: l.drop q.length := by
  obtain ⟨u, rfl⟩ := h
  rw [List.append_assoc, List.drop_left]
  exact List.prefix_append _ _

theorem isPrefix_takeWhile {q l : List Char} (h : q <+: l) (hq : ∀ a ∈ q, p a = true) :
    q <+: l.takeWhile p := by
  obtain ⟨u, rfl⟩ := h
  rw [List.takeWhile_append_of_pos hq]
  exact List.prefix_append _ _

theorem head_mem_drop {q s E l : List Char} (hqs : q ++ s <+: l) (hE : E <+: l)
    (hlt : q.length < E.length) : ∀ a ∈ s.head?, a ∈ E.drop q.length := by
  intro a ha
  obtain ⟨s', rfl⟩ : ∃ s', s = a :: s' := by
    cases s with
    | nil => cases ha
    | cons b s' => cases ha; exact ⟨s', rfl⟩
  obtain ⟨u, hu⟩ := hqs
  obtain ⟨v, hv⟩ := hE
  obtain ⟨b, E', hE'⟩ := List.exists_cons_of_ne_nil
    (List.drop_eq_nil_iff.not.2 (Nat.not_le.2 hlt))
  have hdrop := congrArg (List.drop q.length) (hu.trans hv.symm)
  rw [List.append_assoc, List.drop_left, List.drop_append_of_le_length hlt.le, hE'] at hdrop
  rw [hE']
  simp only [List.cons_append, List.cons.injEq] at hdrop
  rw [hdrop.1]
  exact List.mem_cons_self

/-- A part `q` at the front of a longer part `E` of `l`, where `E` goes on after `q` only with
characters of a class, and followed in `l` by `s`, which does not begin with one: `q` is all of
`E`, or nothing follows it. -/
theorem eq_or_nil_of_run {P : Char → Prop} {q s E l : List Char} (hqs : q ++ s <+: l)
    (hE : E <+: l) (hq : q <+: E) (hrun : ∀ a ∈ E.drop q.length, P a)
    (hs : ∀ a ∈ s.head?, ¬P a) : q = E ∨ s = [] := by
  by_cases hlt : q.length < E.length
  · right
    cases hs' : s.head? with
    | none => exact List.head?_eq_none_iff.1 hs'
    | some a => exact absurd (hrun a (head_mem_drop hqs hE hlt a hs')) (hs a hs')
  · exact .inl (hq.eq_of_length_le (Nat.le_of_not_lt hlt))

theorem eq_takeWhile_or_nil {q s l : List Char} (hqs : q ++ s <+: l) (hq : ∀ a ∈ q, p a = true)
    (hs : ∀ a ∈ s.head?, p a = false) : q = l.takeWhile p ∨ s = [] :=
  eq_or_nil_of_run hqs (List.takeWhile_prefix p)
    (isPrefix_takeWhile ((List.prefix_append _ _).trans hqs) hq)
    (fun _ ha => List.mem_takeWhile_imp (List.mem_of_mem_drop ha))
    (fun a ha h => by rw [hs a ha] at h; cases h)

theorem run_append_length_le {q s l rest : List Char} (hqs : q ++ s <+: l)
    (hq : ∀ a ∈ q, p a = true) (hs : ∀ a ∈ s.head?, p a = false)
    (hrest : s <+: l.drop (l.takeWhile p).length → s.length ≤ rest.length) :
    (q ++ s).length ≤ (l.takeWhile p ++ rest).length := by
  rw [List.length_append, List.length_append]
  rcases eq_takeWhile_or_nil hqs hq hs with heq | hnil
  · have := hrest (heq ▸ drop_of_append_isPrefix hqs)
    rw [heq]
    omega
  · subst hnil
    have := (isPrefix_takeWhile ((List.prefix_append q []).trans hqs) hq).length_le
    simp only [List.length_nil]
    omega

end Runs

/-! #### Suffixes and exponents -/

theorem intSuffix_sound (r : List Char) : IntSuffix (intSuffix r) :=
  ⟨List.length_take_le _ _, fun _ hc => List.mem_takeWhile_imp (List.mem_of_mem_take hc)⟩

theorem floatSuffix_sound (r : List Char) : FloatSuffix (floatSuffix r) := by
  unfold floatSuffix
  split
  · split
    · rename_i hc
      exact ⟨Nat.le_refl _, by simpa using hc⟩
    · exact ⟨Nat.zero_le _, by simp⟩
  · exact ⟨Nat.zero_le _, by simp⟩

theorem intSuffix_greatest {r s : List Char} (hs : s <+: r) (hsfx : IntSuffix s) :
    s <+: intSuffix r :=
  List.prefix_take_iff.2 ⟨isPrefix_takeWhile hs hsfx.2, hsfx.1⟩

theorem floatSuffix_greatest {r s : List Char} (hs : s <+: r) (hsfx : FloatSuffix s) :
    s <+: floatSuffix r := by
  rcases s with _ | ⟨c, _ | ⟨c', s⟩⟩
  · exact List.nil_prefix
  · obtain ⟨u, rfl⟩ := hs
    have hc : isFloatSuffix c = true := hsfx.2 c List.mem_cons_self
    simp [floatSuffix, hc]
  · exact absurd hsfx.1 (by simp)

theorem exponent_cons_cons {E s : Char} {r : List Char} (hE : E = 'e' ∨ E = 'E')
    (hs : (s.isDigit || ((s == '+' || s == '-') && startsWithDigit r)) = true) :
    exponent (E :: s :: r) = E :: s :: r.takeWhile Char.isDigit := by
  rw [exponent, if_pos]
  rw [Bool.and_eq_true]
  exact ⟨by rcases hE with rfl | rfl <;> rfl, hs⟩

theorem exponent_cons_of_ne {a : Char} {r : List Char} (he : a ≠ 'e') (hE : a ≠ 'E') :
    exponent (a :: r) = [] := by
  unfold exponent
  split
  · rw [if_neg]
    simp_all
  · rfl

theorem exponent_sound (r : List Char) : exponent r = [] ∨ IsExponent (exponent r) := by
  unfold exponent
  split
  · rename_i E s r
    split
    · rename_i hcond
      simp only [Bool.and_eq_true, Bool.or_eq_true, beq_iff_eq] at hcond
      obtain ⟨hE, hs | ⟨hsign, hd⟩⟩ := hcond
      · refine .inr ⟨E, [], s :: r.takeWhile Char.isDigit, rfl, hE, .inl rfl, List.cons_ne_nil _ _,
          fun d hd' => ?_⟩
        rcases List.mem_cons.1 hd' with rfl | hd'
        · exact hs
        · exact List.mem_takeWhile_imp hd'
      · obtain ⟨d, r', rfl⟩ : ∃ d r', r = d :: r' := by
          cases r with
          | nil => cases hd
          | cons d r' => exact ⟨d, r', rfl⟩
        refine .inr ⟨E, [s], (d :: r').takeWhile Char.isDigit, rfl, hE, ?_, ?_,
          fun _ hd' => List.mem_takeWhile_imp hd'⟩
        · rcases hsign with rfl | rfl <;> simp
        · simpa [startsWithDigit] using hd
    · exact .inl rfl
  · exact .inl rfl

theorem exponent_greatest {e r : List Char} (he : IsExponent e) (hr : e <+: r) :
    e <+: exponent r := by
  obtain ⟨E, sign, ds, rfl, hE, hsign, hds, hdigits⟩ := he
  obtain ⟨u, rfl⟩ := hr
  obtain ⟨d, ds', rfl⟩ := List.exists_cons_of_ne_nil hds
  have hd : d.isDigit = true := hdigits d List.mem_cons_self
  have hrun : d :: ds' <+: (d :: (ds' ++ u)).takeWhile Char.isDigit :=
    isPrefix_takeWhile (List.prefix_append _ _) hdigits
  rcases hsign with rfl | rfl | rfl
  · simp only [List.nil_append, List.cons_append]
    rw [exponent_cons_cons hE (by simp [hd])]
    rw [List.takeWhile_cons_of_pos hd] at hrun
    exact List.cons_prefix_cons.2 ⟨rfl, hrun⟩
  all_goals
    simp only [List.cons_append]
    rw [exponent_cons_cons hE (by simp [startsWithDigit, hd])]
    exact List.cons_prefix_cons.2 ⟨rfl, List.cons_prefix_cons.2 ⟨rfl, hrun⟩⟩

theorem exponent_drop_two (r : List Char) : ∀ a ∈ (exponent r).drop 2, a.isDigit = true := by
  unfold exponent
  split
  · split
    · intro a ha
      exact List.mem_takeWhile_imp ha
    · simp
  · simp

theorem IsExponent.two_le {e : List Char} (he : IsExponent e) : 2 ≤ e.length := by
  obtain ⟨E, sign, ds, rfl, -, hsign, hds, -⟩ := he
  have : ds.length ≠ 0 := by simpa using hds
  rcases hsign with rfl | rfl | rfl <;> simp; omega

theorem exponentAndSuffix_of_nil {fl : Bool} {r : List Char} (h : exponent r = []) :
    exponentAndSuffix fl r = if fl then floatSuffix r else intSuffix r := by
  cases fl <;> simp [exponentAndSuffix, h]

theorem exponentAndSuffix_of_ne_nil {fl : Bool} {r : List Char} (h : exponent r ≠ []) :
    exponentAndSuffix fl r = exponent r ++ floatSuffix (r.drop (exponent r).length) := by
  simp [exponentAndSuffix, h]

theorem exponentAndSuffix_sound (fl : Bool) (r : List Char) :
    ExponentSuffix fl (exponentAndSuffix fl r) := by
  rcases exponent_sound r with h | h
  · rw [exponentAndSuffix_of_nil h]
    cases fl
    · exact .int rfl (intSuffix_sound r)
    · exact .float rfl (floatSuffix_sound r)
  · rw [exponentAndSuffix_of_ne_nil h.ne_nil]
    exact .exponent h (floatSuffix_sound _)

theorem exponentAndSuffix_longest {fl : Bool} {p r : List Char} (hp : ExponentSuffix fl p)
    (hr : p <+: r) : p.length ≤ (exponentAndSuffix fl r).length := by
  cases hp with
  | @exponent e sfx he hsfx =>
    have hE := exponent_greatest he ((List.prefix_append _ _).trans hr)
    have hne : exponent r ≠ [] := fun h => he.ne_nil (List.prefix_nil.1 (h ▸ hE))
    rw [exponentAndSuffix_of_ne_nil hne, List.length_append, List.length_append]
    have hrun : ∀ a ∈ (exponent r).drop e.length, a.isDigit = true := by
      intro a ha
      apply exponent_drop_two r a
      rw [← Nat.sub_add_cancel he.two_le, Nat.add_comm, ← List.drop_drop] at ha
      exact List.mem_of_mem_drop ha
    rcases eq_or_nil_of_run hr (exponent_isPrefix r) hE hrun
      (fun a ha h => by rw [(isFloatSuffix_spec (hsfx.2 a (List.mem_of_mem_head? ha))).1] at h; cases h)
      with heq | hnil
    · have hsfx' := (floatSuffix_greatest (drop_of_append_isPrefix hr) hsfx).length_le
      rw [heq] at hsfx' ⊢
      omega
    · subst hnil
      have := hE.length_le
      simp only [List.length_nil]
      omega
  | float hfl hsfx =>
    -- a suffix right after the digits leaves no room for an exponent
    subst hfl
    rcases p with _ | ⟨a, sfx⟩
    · exact Nat.zero_le _
    obtain ⟨u, rfl⟩ := hr
    have ha := isFloatSuffix_spec (hsfx.2 a List.mem_cons_self)
    rw [List.cons_append, exponentAndSuffix_of_nil (exponent_cons_of_ne ha.2.2.1 ha.2.2.2),
      if_pos rfl, ← List.cons_append]
    exact (floatSuffix_greatest (List.prefix_append _ _) hsfx).length_le
  | int hfl hsfx =>
    subst hfl
    rcases p with _ | ⟨a, sfx⟩
    · exact Nat.zero_le _
    obtain ⟨u, rfl⟩ := hr
    have ha := isIntSuffix_spec (hsfx.2 a List.mem_cons_self)
    rw [List.cons_append, exponentAndSuffix_of_nil (exponent_cons_of_ne ha.2.2.2.1 ha.2.2.2.2),
      if_neg Bool.false_ne_true, ← List.cons_append]
    exact (intSuffix_greatest (List.prefix_append _ _) hsfx).length_le

/-! #### Decimal literals -/

theorem afterWhole_longest_integer {p r : List Char} (hp : ExponentSuffix false p)
    (hr : p <+: r) : p.length ≤ (afterWhole r).length := by
  unfold afterWhole
  split
  · rcases p with _ | ⟨a, p⟩
    · exact Nat.zero_le _
    · exact absurd (List.cons_prefix_cons.1 hr).1 (hp.head a rfl).2
  · exact exponentAndSuffix_longest hp hr

theorem afterWhole_longest_fraction {frac p r : List Char} (hf : IsFraction frac)
    (hp : ExponentSuffix true p) (hr : frac ++ p <+: r) :
    (frac ++ p).length ≤ (afterWhole r).length := by
  obtain ⟨ds, rfl, hds⟩ := hf
  obtain ⟨r', rfl⟩ : ∃ r', r = '.' :: r' := by
    obtain ⟨u, rfl⟩ := hr
    exact ⟨_, rfl⟩
  have hr' : ds ++ p <+: r' := (List.cons_prefix_cons.1 hr).2
  have := run_append_length_le hr' hds (fun a ha => (hp.head a ha).1) (exponentAndSuffix_longest hp)
  simp only [afterWhole, List.cons_append, List.length_cons]
  omega

theorem integer_longest {whole rest cs : List Char} (hw : ∀ d ∈ whole, d.isDigit = true)
    (hrest : ExponentSuffix false rest) (hr : whole ++ rest <+: cs) :
    (whole ++ rest).length ≤ (cs.takeWhile Char.isDigit ++
      afterWhole (cs.drop (cs.takeWhile Char.isDigit).length)).length :=
  run_append_length_le hr hw (fun a ha => (hrest.head a ha).1) (afterWhole_longest_integer hrest)

theorem fraction_longest {whole frac rest cs : List Char} (hw : ∀ d ∈ whole, d.isDigit = true)
    (hf : IsFraction frac) (hrest : ExponentSuffix true rest) (hr : whole ++ frac ++ rest <+: cs) :
    (whole ++ frac ++ rest).length ≤ (cs.takeWhile Char.isDigit ++
      afterWhole (cs.drop (cs.takeWhile Char.isDigit).length)).length := by
  obtain ⟨ds, rfl, hds⟩ := hf
  rw [List.append_assoc] at hr ⊢
  have hpoint : ∀ a ∈ (('.' :: ds) ++ rest).head?, a.isDigit = false := by
    intro a ha
    cases ha
    rfl
  rcases eq_takeWhile_or_nil hr hw hpoint with heq | hnil
  · have := afterWhole_longest_fraction ⟨ds, rfl, hds⟩ hrest (heq ▸ drop_of_append_isPrefix hr)
    simp only [List.length_append] at this ⊢
    rw [heq]
    omega
  · cases hnil

theorem decimal_sound {cs : List Char}
    (hstart : cs.takeWhile Char.isDigit ≠ [] ∨ ∃ d r, cs = '.' :: d :: r ∧ d.isDigit = true) :
    NumberLiteral (cs.takeWhile Char.isDigit ++
      afterWhole (cs.drop (cs.takeWhile Char.isDigit).length)) := by
  have hdigits : ∀ d ∈ cs.takeWhile Char.isDigit, d.isDigit = true :=
    fun _ hd => List.mem_takeWhile_imp hd
  unfold afterWhole
  split
  · rename_i r hr
    dsimp only
    rw [← List.append_assoc]
    refine .fraction hdigits ⟨_, rfl, fun _ hd => List.mem_takeWhile_imp hd⟩ ?_
      (exponentAndSuffix_sound _ _)
    rcases hstart with hW | ⟨d, r', rfl, hd⟩
    · exact .inl hW
    · have hW : ('.' :: d :: r').takeWhile Char.isDigit = [] := List.takeWhile_cons_of_neg (by decide)
      rw [hW, List.length_nil, List.drop_zero, List.cons.injEq] at hr
      rw [← hr.2, List.takeWhile_cons_of_pos hd]
      exact .inr ⟨d, _, rfl⟩
  · rename_i hr
    refine .integer ?_ hdigits (exponentAndSuffix_sound _ _)
    rcases hstart with hW | ⟨d, r', rfl, hd⟩
    · exact hW
    · have hW : ('.' :: d :: r').takeWhile Char.isDigit = [] := List.takeWhile_cons_of_neg (by decide)
      rw [hW, List.length_nil, List.drop_zero] at hr
      exact absurd rfl (hr (d :: r'))

/-! #### Hexadecimal literals -/

theorem hex_longest {ds sfx r : List Char} (hds : ∀ d ∈ ds, isHexDigit d = true)
    (hsfx : IntSuffix sfx) (hr : ds ++ sfx <+: r) :
    (ds ++ sfx).length ≤ (r.takeWhile isHexDigit ++
      intSuffix (r.drop (r.takeWhile isHexDigit).length)).length :=
  run_append_length_le hr hds
    (fun a ha => (isIntSuffix_spec (hsfx.2 a (List.mem_of_mem_head? ha))).2.1)
    (fun h => (intSuffix_greatest h hsfx).length_le)

/-! #### The scanner's numeric literal -/

/-- `0x` or `0X` with no hexadecimal digit after it. -/
def MalformedHex (cs : List Char) : Prop :=
  ∃ x r, cs = '0' :: x :: r ∧ (x = 'x' ∨ x = 'X') ∧ ∀ d ∈ r.head?, isHexDigit d = false

theorem takeWhile_eq_nil_iff_head {p : Char → Bool} {r : List Char} :
    r.takeWhile p = [] ↔ ∀ d ∈ r.head?, p d = false := by
  cases r with
  | nil => simp
  | cons a r => cases h : p a <;> simp [h]

theorem numberTail_hex {x : Char} {r : List Char} (hx : x = 'x' ∨ x = 'X') :
    numberTail '0' (x :: r) = if r.takeWhile isHexDigit = [] then none
      else some (x :: (r.takeWhile isHexDigit ++
        intSuffix (r.drop (r.takeWhile isHexDigit).length))) := by
  have hmark : (x == 'x' || x == 'X') = true := by rcases hx with rfl | rfl <;> rfl
  simp only [numberTail, hmark, if_true, List.isEmpty_iff, List.cons_append]

theorem numberTail_decimal {x : Char} {xs tail : List Char} (h : numberTail x xs = some tail)
    (hx : x.isDigit = true ∨ x = '.')
    (hmark : ¬∃ X r, x = '0' ∧ xs = X :: r ∧ (X = 'x' ∨ X = 'X')) :
    x :: tail = (x :: xs).takeWhile Char.isDigit ++
      afterWhole ((x :: xs).drop ((x :: xs).takeWhile Char.isDigit).length) := by
  unfold numberTail at h
  split at h
  · rename_i X r
    split at h
    · rename_i hX
      exact absurd ⟨X, r, rfl, rfl, by simpa using hX⟩ hmark
    · cases h
      have h0 : ('0' :: X :: r).takeWhile Char.isDigit = '0' :: (X :: r).takeWhile Char.isDigit :=
        List.takeWhile_cons_of_pos (by decide)
      rw [h0]
      rfl
  · cases h
    have h0 : ('.' :: xs).takeWhile Char.isDigit = [] := List.takeWhile_cons_of_neg (by decide)
    rw [h0]
    rfl
  · cases h
    rename_i hpoint _
    rw [List.takeWhile_cons_of_pos (hx.resolve_right hpoint)]
    rfl

theorem numberTail_eq_none_iff {x : Char} {xs : List Char} :
    numberTail x xs = none ↔ MalformedHex (x :: xs) := by
  constructor
  · intro h
    obtain ⟨rfl, X, r, rfl, hX⟩ := numberTail_eq_none h
    rw [numberTail_hex hX] at h
    split at h
    · rename_i hnil
      exact ⟨X, r, rfl, hX, takeWhile_eq_nil_iff_head.1 hnil⟩
    · cases h
  · rintro ⟨X, r, h, hX, hnone⟩
    cases h
    rw [numberTail_hex hX, if_pos (takeWhile_eq_nil_iff_head.2 hnone)]

theorem decimal_at_hexMark {X : Char} {r : List Char} (hX : X = 'x' ∨ X = 'X') :
    ('0' :: X :: r).takeWhile Char.isDigit ++
      afterWhole (('0' :: X :: r).drop (('0' :: X :: r).takeWhile Char.isDigit).length) = ['0'] := by
  have hne : X ≠ 'e' ∧ X ≠ 'E' ∧ X ≠ '.' ∧ X.isDigit = false ∧ isIntSuffix X = false := by
    rcases hX with rfl | rfl <;> decide
  have h0 : ('0' :: X :: r).takeWhile Char.isDigit = ['0'] := by
    rw [List.takeWhile_cons_of_pos (by decide), List.takeWhile_cons_of_neg (by simp [hne.2.2.2.1])]
  have hafter : afterWhole (X :: r) = [] := by
    unfold afterWhole
    split
    · rename_i heq
      exact absurd (List.cons.inj heq).1 hne.2.2.1
    · rw [exponentAndSuffix_of_nil (exponent_cons_of_ne hne.1 hne.2.1), if_neg Bool.false_ne_true,
        intSuffix, List.takeWhile_cons_of_neg (by simp [hne.2.2.2.2]), List.take_nil]
  rw [h0, List.length_singleton, List.drop_one, List.tail_cons, hafter, List.append_nil]

theorem exists_of_startsWithDigit {xs : List Char} (h : startsWithDigit xs = true) :
    ∃ d r, xs = d :: r ∧ d.isDigit = true := by
  cases xs with
  | nil => cases h
  | cons d r => exact ⟨d, r, rfl, h⟩

theorem numberTail_sound {x : Char} {xs tail : List Char} (h : numberTail x xs = some tail)
    (hx : x.isDigit = true ∨ x = '.' ∧ startsWithDigit xs = true) : NumberLiteral (x :: tail) := by
  by_cases hmark : ∃ X r, x = '0' ∧ xs = X :: r ∧ (X = 'x' ∨ X = 'X')
  · obtain ⟨X, r, rfl, rfl, hX⟩ := hmark
    rw [numberTail_hex hX] at h
    split at h
    · cases h
    · rename_i hne
      cases h
      exact .hex hX hne (fun _ hd => List.mem_takeWhile_imp hd) (intSuffix_sound _)
  · rw [numberTail_decimal h (hx.imp_right And.left) hmark]
    apply decimal_sound
    rcases hx with hd | ⟨rfl, hs⟩
    · left
      rw [List.takeWhile_cons_of_pos hd]
      exact List.cons_ne_nil _ _
    · obtain ⟨d, r, rfl, hd⟩ := exists_of_startsWithDigit hs
      exact .inr ⟨d, r, rfl, hd⟩

theorem numberTail_longest {x : Char} {xs tail p : List Char} (h : numberTail x xs = some tail)
    (hx : x.isDigit = true ∨ x = '.') (hp : NumberLiteral p) (hr : p <+: x :: xs) :
    p.length ≤ (x :: tail).length := by
  by_cases hmark : ∃ X r, x = '0' ∧ xs = X :: r ∧ (X = 'x' ∨ X = 'X')
  · obtain ⟨X, r, rfl, rfl, hX⟩ := hmark
    rw [numberTail_hex hX] at h
    split at h
    · cases h
    cases h
    cases hp with
    | hex _ _ hds hsfx =>
      obtain ⟨rfl, hr'⟩ := List.cons_prefix_cons.1 (List.cons_prefix_cons.1 hr).2
      have := hex_longest hds hsfx hr'
      simp only [List.length_cons, List.length_append] at this ⊢
      omega
    | integer _ hw hrest =>
      have := integer_longest hw hrest hr
      rw [decimal_at_hexMark hX] at this
      simp only [List.length_cons, List.length_append, List.length_nil] at this ⊢
      omega
    | fraction hw hf _ hrest =>
      have := fraction_longest hw hf hrest hr
      rw [decimal_at_hexMark hX] at this
      simp only [List.length_cons, List.length_append, List.length_nil] at this ⊢
      omega
  · rw [numberTail_decimal h hx hmark]
    cases hp with
    | hex hX _ _ _ =>
      obtain ⟨h0, u, hu⟩ := List.cons_prefix_cons.1 hr
      exact absurd ⟨_, _, h0.symm, hu.symm, hX⟩ hmark
    | integer _ hw hrest => exact integer_longest hw hrest hr
    | fraction hw hf _ hrest => exact fraction_longest hw hf hrest hr

theorem numberTail_longestLiteral {x : Char} {xs tail : List Char} (h : numberTail x xs = some tail)
    (hx : x.isDigit = true ∨ x = '.' ∧ startsWithDigit xs = true) :
    LongestLiteral (x :: xs) (x :: tail) where
  isPrefix := List.cons_prefix_cons.2 ⟨rfl, numberTail_isPrefix h⟩
  literal := numberTail_sound h hx
  longest _ hr hp := numberTail_longest h (hx.imp_right And.left) hp hr

/-! ### Lexing a literal -/

/-- Where a literal begins: at a digit, at a point before a digit, or at a quote. -/
inductive LiteralStart : List Char → Prop
  | digit {x : Char} {xs : List Char} : x.isDigit = true → LiteralStart (x :: xs)
  | point {d : Char} {xs : List Char} : d.isDigit = true → LiteralStart ('.' :: d :: xs)
  | string (xs : List Char) : LiteralStart ('"' :: xs)
  | char (xs : List Char) : LiteralStart ('\'' :: xs)

/-- The token the grammar of literals gives for a literal at the front of the text. A numeric
literal is the longest one there, and is an error when a word character follows it; a string is a
run of literals, an error when one of them is not closed; a character literal has one body, which
must not be empty. -/
inductive LiteralLexes : List Char → TokenKind → Prop
  | number {cs text : List Char} : ¬MalformedHex cs → LongestLiteral cs text →
      (∀ d ∈ (cs.drop text.length).head?, isWordChar d = false) →
      LiteralLexes cs (.number (String.ofList text))
  | invalidSuffix {cs text r : List Char} {d : Char} : ¬MalformedHex cs → LongestLiteral cs text →
      cs.drop text.length = d :: r → isWordChar d = true →
      LiteralLexes cs (.error ("invalid suffix `" ++ d.toString ++ "` on numeric literal `" ++
        String.ofList text ++ "`"))
  | malformedHex {cs : List Char} : MalformedHex cs →
      LiteralLexes cs (.error "malformed hexadecimal literal")
  | string {cs text : List Char} : StringRun ('"' :: cs) text →
      LiteralLexes ('"' :: cs) (.string (String.ofList text))
  | unterminatedString {cs : List Char} : (¬∃ text, StringRun ('"' :: cs) text) →
      LiteralLexes ('"' :: cs) (.error "unterminated string literal")
  | char {b r : List Char} : QuotedBody '\'' b → b ≠ [] →
      LiteralLexes ('\'' :: (b ++ '\'' :: r)) (.char (String.ofList b))
  | emptyChar (r : List Char) : LiteralLexes ('\'' :: '\'' :: r) (.error "empty character literal")
  | unterminatedChar {cs : List Char} : (¬∃ b r, QuotedBody '\'' b ∧ cs = b ++ '\'' :: r) →
      LiteralLexes ('\'' :: cs) (.error "unterminated character literal")

/-! #### The grammar determines the token -/

theorem NumberLiteral.startsNumber {p : List Char} (h : NumberLiteral p) :
    ∃ x xs, p = x :: xs ∧ (x.isDigit = true ∨ x = '.') := by
  cases h with
  | hex => exact ⟨'0', _, rfl, .inl rfl⟩
  | @integer whole rest hne hw _ =>
    obtain ⟨w, ws, rfl⟩ := List.exists_cons_of_ne_nil hne
    exact ⟨w, ws ++ rest, rfl, .inl (hw w List.mem_cons_self)⟩
  | @fraction whole frac rest hw _ hstart _ =>
    rcases whole with _ | ⟨w, ws⟩
    · obtain ⟨d, ds, rfl⟩ := hstart.resolve_left (fun h => h rfl)
      exact ⟨'.', _, rfl, .inr rfl⟩
    · exact ⟨w, _, rfl, .inl (hw w List.mem_cons_self)⟩

theorem LongestLiteral.startsNumber {x : Char} {xs text : List Char}
    (h : LongestLiteral (x :: xs) text) : x.isDigit = true ∨ x = '.' := by
  obtain ⟨y, ys, rfl, hy⟩ := h.literal.startsNumber
  rw [(List.cons_prefix_cons.1 h.isPrefix).1] at hy
  exact hy

theorem MalformedHex.startsNumber {x : Char} {xs : List Char} (h : MalformedHex (x :: xs)) :
    x = '0' := by
  obtain ⟨_, _, h, -⟩ := h
  exact (List.cons.inj h).1

/-- Two longest numeric literals at the front of one text are the same. -/
theorem LongestLiteral.unique {cs t₁ t₂ : List Char} (h₁ : LongestLiteral cs t₁)
    (h₂ : LongestLiteral cs t₂) : t₁ = t₂ := by
  have hle := h₂.longest t₁ h₁.isPrefix h₁.literal
  have hge := h₁.longest t₂ h₂.isPrefix h₂.literal
  exact (List.prefix_of_prefix_length_le h₁.isPrefix h₂.isPrefix hle).eq_of_length
    (Nat.le_antisymm hle hge)

theorem LongestLiteral.isWordChar_after {cs t₁ t₂ r : List Char} {d : Char}
    (h₁ : LongestLiteral cs t₁) (h₂ : LongestLiteral cs t₂)
    (hw : ∀ x ∈ (cs.drop t₁.length).head?, isWordChar x = false) (hd : cs.drop t₂.length = d :: r) :
    isWordChar d = false := by
  rw [h₁.unique h₂, hd] at hw
  exact hw d rfl

/-- A run of string literals joins to one text only: the reader joins it so. -/
theorem StringRun.unique {cs t₁ t₂ : List Char} (h₁ : StringRun ('"' :: cs) t₁)
    (h₂ : StringRun ('"' :: cs) t₂) : t₁ = t₂ := by
  obtain ⟨n₁, hn₁⟩ := stringRun_complete h₁
  obtain ⟨n₂, hn₂⟩ := stringRun_complete h₂
  rw [hn₁] at hn₂
  exact Option.some.inj (Prod.mk.inj hn₂).1

/-- A closed literal has one body: the reader closes it at its first unescaped quote. -/
theorem QuotedBody.unique {q : Char} (hq : q ≠ '\\') (hn : q ≠ '\n') {b₁ b₂ r₁ r₂ : List Char}
    (hb₁ : QuotedBody q b₁) (hb₂ : QuotedBody q b₂) (h : b₁ ++ q :: r₁ = b₂ ++ q :: r₂) :
    b₁ = b₂ := by
  have h₁ := quoted_complete hq hn hb₁ r₁
  rw [h, quoted_complete hq hn hb₂ r₂] at h₁
  exact (Option.some.inj (Prod.mk.inj h₁).1).symm

theorem LiteralLexes.char_inv {cs : List Char} {k : TokenKind} (h : LiteralLexes ('\'' :: cs) k) :
    (∃ b r, QuotedBody '\'' b ∧ b ≠ [] ∧ cs = b ++ '\'' :: r ∧ k = .char (String.ofList b)) ∨
      (∃ r, cs = '\'' :: r ∧ k = .error "empty character literal") ∨
      ((¬∃ b r, QuotedBody '\'' b ∧ cs = b ++ '\'' :: r) ∧
        k = .error "unterminated character literal") := by
  generalize hl : '\'' :: cs = l at h
  cases h with
  | number _ hlong _ | invalidSuffix _ hlong _ _ =>
    rw [← hl] at hlong
    exact absurd hlong.startsNumber (by decide)
  | malformedHex hm =>
    rw [← hl] at hm
    exact absurd hm.startsNumber (by decide)
  | string _ | unterminatedString _ => exact absurd (List.cons.inj hl).1 (by decide)
  | char hb hne =>
    exact .inl ⟨_, _, hb, hne, (List.cons.inj hl).2, rfl⟩
  | emptyChar r => exact .inr (.inl ⟨r, (List.cons.inj hl).2, rfl⟩)
  | unterminatedChar hno =>
    obtain ⟨-, rfl⟩ := List.cons.inj hl
    exact .inr (.inr ⟨hno, rfl⟩)

/-- The grammar of literals gives one token at most: the numeric literal and what follows it, the
run of string literals, and the body of a character literal are each determined by the text. -/
theorem LiteralLexes.unique {cs : List Char} {k₁ k₂ : TokenKind} (h₁ : LiteralLexes cs k₁)
    (h₂ : LiteralLexes cs k₂) : k₁ = k₂ := by
  cases h₁ with
  | number hm₁ hl₁ hw₁ =>
    cases h₂ with
    | number _ hl₂ _ => rw [hl₁.unique hl₂]
    | invalidSuffix _ hl₂ hd hw =>
      have := hl₁.isWordChar_after hl₂ hw₁ hd
      rw [hw] at this
      cases this
    | malformedHex hm => exact absurd hm hm₁
    | string _ | unterminatedString _ | char _ _ | emptyChar _ | unterminatedChar _ =>
      exact absurd hl₁.startsNumber (by decide)
  | invalidSuffix hm₁ hl₁ hd₁ hw₁ =>
    cases h₂ with
    | number _ hl₂ hw₂ =>
      have := hl₂.isWordChar_after hl₁ hw₂ hd₁
      rw [hw₁] at this
      cases this
    | invalidSuffix _ hl₂ hd₂ _ =>
      obtain rfl := hl₁.unique hl₂
      rw [hd₁] at hd₂
      obtain ⟨rfl, -⟩ := List.cons.inj hd₂
      rfl
    | malformedHex hm => exact absurd hm hm₁
    | string _ | unterminatedString _ | char _ _ | emptyChar _ | unterminatedChar _ =>
      exact absurd hl₁.startsNumber (by decide)
  | malformedHex hm₁ =>
    cases h₂ with
    | number hm₂ _ _ | invalidSuffix hm₂ _ _ _ => exact absurd hm₁ hm₂
    | malformedHex _ => rfl
    | string _ | unterminatedString _ | char _ _ | emptyChar _ | unterminatedChar _ =>
      exact absurd hm₁.startsNumber (by decide)
  | string hr₁ =>
    cases h₂ with
    | number _ hl _ | invalidSuffix _ hl _ _ => exact absurd hl.startsNumber (by decide)
    | malformedHex hm => exact absurd hm.startsNumber (by decide)
    | string hr₂ => rw [hr₁.unique hr₂]
    | unterminatedString hno => exact absurd ⟨_, hr₁⟩ hno
  | unterminatedString hno =>
    cases h₂ with
    | number _ hl _ | invalidSuffix _ hl _ _ => exact absurd hl.startsNumber (by decide)
    | malformedHex hm => exact absurd hm.startsNumber (by decide)
    | string hr₂ => exact absurd ⟨_, hr₂⟩ hno
    | unterminatedString _ => rfl
  | @char b r hb hne =>
    rcases h₂.char_inv with ⟨b', r', hb', -, heq, rfl⟩ | ⟨r', heq, rfl⟩ | ⟨hno, rfl⟩
    · rw [QuotedBody.unique (by decide) (by decide) hb hb' heq]
    · exact absurd (QuotedBody.unique (by decide) (by decide) hb .nil heq) hne
    · exact absurd ⟨b, r, hb, rfl⟩ hno
  | emptyChar r =>
    rcases h₂.char_inv with ⟨b', r', hb', hne', heq, rfl⟩ | ⟨r', heq, rfl⟩ | ⟨hno, rfl⟩
    · exact absurd (QuotedBody.unique (by decide) (by decide) .nil hb' heq).symm hne'
    · rfl
    · exact absurd ⟨[], r, .nil, rfl⟩ hno
  | unterminatedChar hno =>
    rcases h₂.char_inv with ⟨b', r', hb', -, heq, rfl⟩ | ⟨r', heq, rfl⟩ | ⟨-, rfl⟩
    · exact absurd ⟨b', r', hb', heq⟩ hno
    · exact absurd ⟨[], r', .nil, heq⟩ hno
    · rfl

theorem isWordStart_eq_false_of_isDigit {x : Char} (h : x.isDigit = true) :
    (x.isAlpha || x == '_') = false := by
  have hd := Char.isDigit_iff_toNat.1 h
  have hx : x ≠ '_' := by
    rintro rfl
    cases h
  simp only [Char.isAlpha, Char.isUpper, Char.isLower, Bool.or_eq_false_iff, Bool.and_eq_false_iff,
    decide_eq_false_iff_not, beq_eq_false_iff_ne, UInt32.le_iff_toNat_le, Char.toNat_val] at hd ⊢
  refine ⟨?_, hx⟩
  -- the digits, `A` to `Z` and `a` to `z` are three separate ranges of code points
  have : '0'.toNat = 48 := rfl
  have : '9'.toNat = 57 := rfl
  have : 'A'.toNat = 65 := rfl
  have : 'Z'.toNat = 90 := rfl
  have : 'a'.toNat = 97 := rfl
  have : 'z'.toNat = 122 := rfl
  omega

theorem literalStart_cons_iff {x : Char} {xs : List Char} :
    LiteralStart (x :: xs) ↔
      (x.isDigit || (x == '.' && startsWithDigit xs)) = true ∨ x = '"' ∨ x = '\'' := by
  constructor
  · rintro (hd | hd | _ | _)
    · exact .inl (by simp [hd])
    · exact .inl (by simp [startsWithDigit, hd])
    · exact .inr (.inl rfl)
    · exact .inr (.inr rfl)
  · rintro (h | rfl | rfl)
    · simp only [Bool.or_eq_true, Bool.and_eq_true, beq_iff_eq] at h
      rcases h with hd | ⟨rfl, hs⟩
      · exact .digit hd
      · obtain ⟨d, r, rfl, hd⟩ := exists_of_startsWithDigit hs
        exact .point hd
    · exact .string xs
    · exact .char xs

theorem LiteralStart.not_word {x : Char} {xs : List Char} (h : LiteralStart (x :: xs)) :
    (x.isAlpha || x == '_') = false := by
  cases h with
  | digit hd => exact isWordStart_eq_false_of_isDigit hd
  | point _ => decide
  | string _ => decide
  | char _ => decide

/-- What a step from where a literal begins gives: a token the grammar of literals gives, and
never a comment. -/
def Step.Literal {c : Cursor} : Step c → Prop
  | .token t _ _ | .last t _ => LiteralStart c.skipBlanks.rest → LiteralLexes c.skipBlanks.rest t.kind
  | .comment _ _ => ¬LiteralStart c.skipBlanks.rest

namespace Cursor

theorem step_literal (c : Cursor) : c.step.Literal := by
  unfold Cursor.step
  dsimp only
  split
  · -- the end of input
    rename_i hrest
    intro h
    rw [hrest] at h
    cases h
  rename_i x xs hrest
  have lexes : ∀ {k}, LiteralLexes (x :: xs) k →
      LiteralStart c.skipBlanks.rest → LiteralLexes c.skipBlanks.rest k :=
    fun hk _ => hrest ▸ hk
  split
  · -- a preprocessor line begins with `#`
    rename_i hdir
    intro h
    rw [hrest, hdir.1, literalStart_cons_iff] at h
    simp at h
  split
  · -- comments begin with `/`
    split <;>
    · intro h
      rw [hrest, literalStart_cons_iff] at h
      simp at h
  · intro h
    rw [hrest, literalStart_cons_iff] at h
    simp at h
  split
  · -- a word
    rename_i hword
    intro h
    rw [hrest] at h
    rw [h.not_word] at hword
    cases hword
  split
  · -- a numeric literal
    rename_i hnum
    have hx : x.isDigit = true ∨ x = '.' ∧ startsWithDigit xs = true := by simpa using hnum
    split
    · rename_i hnone
      exact lexes (.malformedHex (numberTail_eq_none_iff.1 hnone))
    · rename_i tail htail
      have hmal : ¬MalformedHex (x :: xs) := by
        intro hm
        rw [numberTail_eq_none_iff.2 hm] at htail
        cases htail
      have hlong := numberTail_longestLiteral htail hx
      split
      · rename_i d ds hd
        split
        · exact lexes (.invalidSuffix hmal hlong hd ‹_›)
        · rename_i hw
          exact lexes (.number hmal hlong (by
            rw [List.length_cons, List.drop_succ_cons, hd]
            simpa using hw))
      · rename_i hd
        exact lexes (.number hmal hlong (by rw [List.length_cons, List.drop_succ_cons, hd]; simp))
  split
  · -- a string literal
    rename_i hx
    subst hx
    split
    · rename_i body n h
      exact lexes (.string (stringRun_sound h))
    · rename_i n h
      refine lexes (.unterminatedString fun hrun => ?_)
      obtain ⟨text, hrun⟩ := hrun
      obtain ⟨m, hm⟩ := stringRun_complete hrun
      rw [hm] at h
      cases h
  split
  · -- a character literal
    rename_i hx
    subst hx
    split
    · rename_i n hempty
      obtain ⟨hb, hcs, -⟩ := quoted_sound hempty
      rw [hcs] at lexes
      exact lexes (.emptyChar _)
    · rename_i body n hne h
      obtain ⟨hb, hcs, -⟩ := quoted_sound h
      rw [hcs] at lexes
      exact lexes (.char hb hne)
    · rename_i n h
      exact lexes (.unterminatedChar (quoted_none (by decide) (by decide) h))
  · -- a symbol, or a character that begins nothing
    rename_i hnum hstr hchar
    have hnot : ¬LiteralStart c.skipBlanks.rest := by
      rw [hrest, literalStart_cons_iff]
      rintro (h | h | h)
      · exact hnum h
      · exact hstr h
      · exact hchar h
    split <;> exact fun h => absurd h hnot

/-- Where a literal begins, the next token is the one the grammar of literals gives: the longest
numeric literal, or an error when a word character follows it or `0x` has no digit; the joined
bodies of a run of string literals, or an error when one is not closed; the body of a character
literal, or an error when it is empty or not closed. -/
theorem nextToken_literal (c : Cursor) (h : LiteralStart c.skipBlanks.rest) :
    LiteralLexes c.skipBlanks.rest c.nextToken.1.kind := by
  have hstep := step_literal c
  rw [nextToken]
  split
  · rename_i t next _ hs
    rw [hs] at hstep
    exact hstep h
  · rename_i next _ hs
    rw [hs] at hstep
    exact absurd h hstep
  · rename_i t next hs
    rw [hs] at hstep
    exact hstep h

theorem floatExponent_nextToken_literal :
    LiteralStart (ofString "  1.5e3f;").skipBlanks.rest ∧
      LiteralLexes (ofString "  1.5e3f;").skipBlanks.rest (ofString "  1.5e3f;").nextToken.1.kind :=
  have hstart : LiteralStart (ofString "  1.5e3f;").skipBlanks.rest := by
    have hrest : (ofString "  1.5e3f;").skipBlanks.rest = ['1', '.', '5', 'e', '3', 'f', ';'] := by
      decide
    rw [hrest]
    exact .digit (by decide)
  ⟨hstart, nextToken_literal _ hstart⟩

end Cursor

end ModularC
