import Mathlib.Data.List.Induction
import ModularC.Proofs.Token.Order

/-!
Token places are faithful to the text (`tokenize_places`).
-/

namespace ModularC

/-! ### Places of indices -/

/-- The index just past the last newline of `cs`, or `0` when it has none: where the line of the
character after `cs` begins. -/
def lineBegin (cs : List Char) : Nat := cs.length - (cs.reverse.takeWhile (· != '\n')).length

theorem lineBegin_append_newline (cs : List Char) : lineBegin (cs ++ ['\n']) = cs.length + 1 := by
  simp [lineBegin]

theorem lineBegin_append_of_ne (cs : List Char) {c : Char} (hc : c ≠ '\n') :
    lineBegin (cs ++ [c]) = lineBegin cs := by
  simp [lineBegin, hc]

theorem lineBegin_le (cs : List Char) : lineBegin cs ≤ cs.length := Nat.sub_le _ _

theorem lineBegin_spec (cs : List Char) :
    ('\n' ∉ cs ∧ lineBegin cs = 0) ∨
      ∃ i, lineBegin cs = i + 1 ∧ cs[i]? = some '\n' ∧ '\n' ∉ cs.drop (i + 1) := by
  induction cs using List.reverseRecOn with
  | nil => exact .inl ⟨List.not_mem_nil, rfl⟩
  | append_singleton cs c ih =>
    by_cases hc : c = '\n'
    · subst hc
      exact .inr ⟨cs.length, lineBegin_append_newline cs, by simp, by simp⟩
    · rw [lineBegin_append_of_ne cs hc]
      rcases ih with ⟨hnone, h0⟩ | ⟨i, hi, hnl, hafter⟩
      · refine .inl ⟨?_, h0⟩
        rw [List.mem_append, List.mem_singleton]
        exact fun h => h.elim hnone (fun h => hc h.symm)
      · have hlt : i < cs.length := (List.getElem?_eq_some_iff.1 hnl).1
        refine .inr ⟨i, hi, by rw [List.getElem?_append_left hlt, hnl], ?_⟩
        rw [List.drop_append_of_le_length (by omega), List.mem_append, List.mem_singleton]
        exact fun h => h.elim hafter (fun h => hc h.symm)

namespace Position

theorem foldl_step_start (cs : List Char) :
    cs.foldl step start = ⟨1 + cs.count '\n', cs.length + 1 - lineBegin cs⟩ := by
  induction cs using List.reverseRecOn with
  | nil => rfl
  | append_singleton cs c ih =>
    have hle := lineBegin_le cs
    rw [List.foldl_append, ih, List.foldl_cons, List.foldl_nil]
    by_cases hc : c = '\n'
    · subst hc
      simp only [step, if_true, lineBegin_append_newline, List.count_append, List.count_singleton_self,
        List.length_append, List.length_singleton, Position.mk.injEq]
      omega
    · simp only [step, lineBegin_append_of_ne cs hc, List.count_append,
        List.count_singleton, beq_iff_eq, hc, if_false, List.length_append, List.length_singleton,
        Position.mk.injEq]
      omega

end Position

/-! ### What the text at a token begins with -/

/-- The lexeme an error message reports, as it begins the text at the error's place: an opened
comment, `0x` with no digit after it, a number and the character that may not follow it, an opening
quote, two quotes with nothing between, or a character that begins no token. -/
inductive ErrorLexeme : String → List Char → Prop
  | unterminatedComment (r : List Char) : ErrorLexeme "unterminated comment" ('/' :: '*' :: r)
  | malformedHex (x : Char) (r : List Char) (hx : x = 'x' ∨ x = 'X') :
      ErrorLexeme "malformed hexadecimal literal" ('0' :: x :: r)
  | invalidSuffix (text : List Char) (d : Char) (r : List Char) :
      ErrorLexeme ("invalid suffix `" ++ d.toString ++ "` on numeric literal `" ++
        String.ofList text ++ "`") (text ++ d :: r)
  | unterminatedString (r : List Char) : ErrorLexeme "unterminated string literal" ('"' :: r)
  | emptyChar (r : List Char) : ErrorLexeme "empty character literal" ('\'' :: '\'' :: r)
  | unterminatedChar (r : List Char) : ErrorLexeme "unterminated character literal" ('\'' :: r)
  | unexpected (c : Char) (r : List Char) :
      ErrorLexeme ("unexpected character `" ++ c.toString ++ "`") (c :: r)

/-- What the text at a token's place begins with: the spelling of a keyword, symbol, word or number,
the opening quote of a literal, the whole text of a preprocessor line, the lexeme an error reports;
the end of input stands where nothing is left. -/
def TokenKind.Leads : TokenKind → List Char → Prop
  | .keyword k, cs => k.spelling.toList <+: cs
  | .symbol s, cs => s.spelling.toList <+: cs
  | .word w, cs | .number w, cs | .directive w, cs => w.toList <+: cs
  | .string _, cs => cs.head? = some '"'
  | .char _, cs => cs.head? = some '\''
  | .error m, cs => ErrorLexeme m cs
  | .eof, cs => cs = []

theorem Symbol.spelling_isPrefix {cs : List Char} {s : Symbol} (h : Symbol.ofPrefix? cs = some s) :
    s.spelling.toList <+: cs := by
  unfold Symbol.ofPrefix? at h
  split at h <;> (try cases h) <;> exact ⟨_, rfl⟩

theorem Keyword.spelling_of_ofWord? {w : String} {k : Keyword} (h : Keyword.ofWord? w = some k) :
    k.spelling = w := by
  simpa using List.find?_some h

theorem lineBody_isPrefix (xs : List Char) : lineBody xs <+: xs := by
  induction xs using lineBody.induct with
  | case1 => exact List.prefix_refl _
  | case2 r => exact List.nil_prefix
  | case3 r ih => simpa [lineBody] using ih
  | case4 c r _ _ ih => simpa [lineBody] using ih

theorem Text.dropBlankEnd_isPrefix (cs : List Char) : Text.dropBlankEnd cs <+: cs := by
  have h := List.reverse_prefix.2 (List.dropWhile_suffix Text.isBlank (l := cs.reverse))
  rwa [List.reverse_reverse] at h

theorem intSuffix_isPrefix (cs : List Char) : intSuffix cs <+: cs :=
  (List.take_prefix _ _).trans (List.takeWhile_prefix _)

theorem floatSuffix_isPrefix (cs : List Char) : floatSuffix cs <+: cs := by
  unfold floatSuffix
  split
  · split
    · exact List.cons_prefix_cons.2 ⟨rfl, List.nil_prefix⟩
    · exact List.nil_prefix
  · exact List.nil_prefix

theorem exponent_isPrefix (cs : List Char) : exponent cs <+: cs := by
  unfold exponent
  split
  · split
    · exact List.cons_prefix_cons.2 ⟨rfl, List.cons_prefix_cons.2 ⟨rfl, List.takeWhile_prefix _⟩⟩
    · exact List.nil_prefix
  · exact List.nil_prefix

theorem append_prefix_of {p : List Char} {cs rest : List Char} (hp : p <+: cs)
    (hq : rest <+: cs.drop p.length) : p ++ rest <+: cs := by
  obtain ⟨u, rfl⟩ := hp
  rw [List.drop_left] at hq
  exact List.prefix_append_right_inj _ |>.2 hq

theorem exponentAndSuffix_isPrefix (floating : Bool) (cs : List Char) :
    exponentAndSuffix floating cs <+: cs := by
  unfold exponentAndSuffix
  refine append_prefix_of (exponent_isPrefix cs) ?_
  split
  · exact floatSuffix_isPrefix _
  · exact intSuffix_isPrefix _

theorem afterWhole_isPrefix (cs : List Char) : afterWhole cs <+: cs := by
  unfold afterWhole
  split
  · refine List.cons_prefix_cons.2 ⟨rfl, append_prefix_of (List.takeWhile_prefix _) ?_⟩
    exact exponentAndSuffix_isPrefix _ _
  · exact exponentAndSuffix_isPrefix _ _

theorem numberTail_isPrefix {x : Char} {xs tail : List Char} (h : numberTail x xs = some tail) :
    tail <+: xs := by
  unfold numberTail at h
  split at h
  · split at h
    · dsimp only at h
      split at h
      · cases h
      · cases h
        refine List.cons_prefix_cons.2 ⟨rfl, append_prefix_of (List.takeWhile_prefix _) ?_⟩
        exact intSuffix_isPrefix _
    · cases h
      exact append_prefix_of (List.takeWhile_prefix _) (afterWhole_isPrefix _)
  · cases h
    exact append_prefix_of (List.takeWhile_prefix _) (exponentAndSuffix_isPrefix _ _)
  · cases h
    exact append_prefix_of (List.takeWhile_prefix _) (afterWhole_isPrefix _)

theorem numberTail_eq_none {x : Char} {xs : List Char} (h : numberTail x xs = none) :
    x = '0' ∧ ∃ h r, xs = h :: r ∧ (h = 'x' ∨ h = 'X') := by
  unfold numberTail at h
  split at h
  · rename_i h' r
    split at h
    · rename_i hx
      dsimp only at h
      split at h
      · exact ⟨rfl, h', r, rfl, by simpa using hx⟩
      · cases h
    · simp at h
  · simp at h
  · simp at h

theorem quoted_some_nil {q : Char} {xs : List Char} {n : Nat} (h : quoted q xs = (some [], n)) :
    xs.head? = some q := by
  induction xs using quoted.induct q generalizing n with
  | case1 => simp [quoted] at h
  | case2 t => simp [quoted] at h
  | case3 => simp [quoted] at h
  | case4 c r body n' hq ih =>
    simp only [quoted, hq] at h
    cases body <;> simp at h
  | case5 r _ _ _ => rfl
  | case6 c r _ _ _ hc body n' hq ih =>
    simp only [quoted, hc, ite_false, hq] at h
    cases body <;> simp at h

/-! ### Standing at an index of the text -/

namespace Cursor

/-- The cursor stands at index `k` of the characters `cs`: what is left of them follows index `k`,
at the place the characters before `k` lead to. -/
def At (cs : List Char) (k : Nat) (c : Cursor) : Prop :=
  c.rest = cs.drop k ∧ c.pos = (cs.take k).foldl Position.step Position.start

theorem ofString_at (s : String) : (ofString s).At s.toList 0 := ⟨rfl, rfl⟩

theorem At.advance {cs : List Char} {k : Nat} {c : Cursor} (h : c.At cs k) (n : Nat) :
    (c.advance n).At cs (k + n) := by
  obtain ⟨hrest, hpos⟩ := h
  refine ⟨by rw [advance_rest, hrest, List.drop_drop], ?_⟩
  show (c.rest.take n).foldl Position.step c.pos = _
  rw [hrest, hpos, List.take_add, List.foldl_append]

/-- `d` stands some characters further on than `c`, whatever the line-start flags. -/
def Follows (c d : Cursor) : Prop :=
  ∃ n, d.rest = (c.advance n).rest ∧ d.pos = (c.advance n).pos

theorem At.follows {cs : List Char} {k : Nat} {c d : Cursor} (h : c.At cs k) (hd : c.Follows d) :
    ∃ j, k ≤ j ∧ d.At cs j := by
  obtain ⟨n, hrest, hpos⟩ := hd
  obtain ⟨hrest', hpos'⟩ := h.advance n
  exact ⟨k + n, Nat.le_add_right k n, hrest.trans hrest', hpos.trans hpos'⟩

theorem follows_skipBlanks (c : Cursor) : c.Follows c.skipBlanks := ⟨_, rfl, rfl⟩

theorem follows_advance (c : Cursor) (b : Bool) (n : Nat) :
    c.Follows ({ c with lineStart := b }.advance n) := ⟨n, rfl, rfl⟩

theorem At.skipBlanks {cs : List Char} {k : Nat} {c : Cursor} (h : c.At cs k) :
    ∃ j, k ≤ j ∧ c.skipBlanks.At cs j :=
  h.follows c.follows_skipBlanks

end Cursor

/-! ### One step -/

/-- Where a step's token stands, what the text there begins with, and that the cursor after a token
or comment stands further on. -/
def Step.Placed {c : Cursor} : Step c → Prop
  | .token t next _ =>
    t.pos = c.skipBlanks.pos ∧ t.kind.Leads c.skipBlanks.rest ∧ c.skipBlanks.rest ≠ [] ∧
      c.skipBlanks.Follows next
  | .comment next _ => c.skipBlanks.Follows next
  | .last t _ =>
    t.pos = c.skipBlanks.pos ∧ t.kind.Leads c.skipBlanks.rest ∧
      (t.kind = .eof ∨ c.skipBlanks.rest ≠ [])

namespace Cursor

theorem step_placed (c : Cursor) : c.step.Placed := by
  unfold Cursor.step
  dsimp only
  split
  · -- the end of input
    exact ⟨rfl, ‹_›, .inl rfl⟩
  rename_i x xs hrest
  have hne : c.skipBlanks.rest ≠ [] := by
    rw [hrest]
    exact List.cons_ne_nil _ _
  split
  · -- a preprocessor line
    refine ⟨rfl, ?_, hne, follows_advance _ _ _⟩
    rw [TokenKind.Leads, hrest, String.toList_ofList]
    exact (Text.dropBlankEnd_isPrefix _).trans
      (List.cons_prefix_cons.2 ⟨rfl, lineBody_isPrefix xs⟩)
  split
  · -- a block comment, closed or not
    split
    · exact follows_advance _ _ _
    · exact ⟨rfl, by rw [TokenKind.Leads, hrest]; exact .unterminatedComment _, .inr hne⟩
  · -- a line comment
    exact follows_advance _ _ _
  split
  · -- a keyword or a word
    refine ⟨rfl, ?_, hne, follows_advance _ _ _⟩
    have hword : (String.ofList (x :: xs.takeWhile isWordChar)).toList <+: x :: xs := by
      rw [String.toList_ofList]
      exact List.cons_prefix_cons.2 ⟨rfl, List.takeWhile_prefix _⟩
    split <;> rename_i hk
    · rw [TokenKind.Leads, hrest, Keyword.spelling_of_ofWord? hk]
      exact hword
    · rw [TokenKind.Leads, hrest]
      exact hword
  split
  · -- a numeric literal
    split
    · rename_i hnone
      obtain ⟨rfl, h, r, rfl, hx⟩ := numberTail_eq_none hnone
      exact ⟨rfl, by rw [TokenKind.Leads, hrest]; exact .malformedHex h r hx, .inr hne⟩
    · rename_i tail htail
      obtain ⟨rest, hsplit⟩ := numberTail_isPrefix htail
      have hnumber : (TokenKind.number (String.ofList (x :: tail))).Leads c.skipBlanks.rest := by
        rw [TokenKind.Leads, hrest, String.toList_ofList]
        exact List.cons_prefix_cons.2 ⟨rfl, ⟨rest, hsplit⟩⟩
      split
      · rename_i d ds hd
        split
        · refine ⟨rfl, ?_, .inr hne⟩
          have htext : x :: xs = (x :: tail) ++ d :: ds := by
            rw [← hsplit, List.drop_left] at hd
            rw [← hsplit, hd]
            rfl
          rw [TokenKind.Leads, hrest, htext]
          exact .invalidSuffix _ d ds
        · exact ⟨rfl, hnumber, hne, follows_advance _ _ _⟩
      · exact ⟨rfl, hnumber, hne, follows_advance _ _ _⟩
  split
  · -- a string literal
    rename_i hx
    subst hx
    split
    · exact ⟨rfl, by rw [TokenKind.Leads, hrest]; rfl, hne, follows_advance _ _ _⟩
    · exact ⟨rfl, by rw [TokenKind.Leads, hrest]; exact .unterminatedString _, .inr hne⟩
  split
  · -- a character literal
    rename_i hx
    subst hx
    split
    · rename_i n hempty
      obtain ⟨r, rfl⟩ : ∃ r, xs = '\'' :: r := by
        have hhead := quoted_some_nil hempty
        cases xs with
        | nil => cases hhead
        | cons y r => cases hhead; exact ⟨r, rfl⟩
      exact ⟨rfl, by rw [TokenKind.Leads, hrest]; exact .emptyChar r, .inr hne⟩
    · exact ⟨rfl, by rw [TokenKind.Leads, hrest]; rfl, hne, follows_advance _ _ _⟩
    · exact ⟨rfl, by rw [TokenKind.Leads, hrest]; exact .unterminatedChar _, .inr hne⟩
  · -- a symbol, or a character that begins nothing
    split
    · rename_i s hs
      exact ⟨rfl, by rw [TokenKind.Leads, hrest]; exact Symbol.spelling_isPrefix hs, hne,
        follows_advance _ _ _⟩
    · exact ⟨rfl, by rw [TokenKind.Leads, hrest]; exact .unexpected x xs, .inr hne⟩

theorem tokens_placed {cs : List Char} {k : Nat} {c : Cursor} (h : c.At cs k) :
    ∀ t ∈ c.tokens.dropLast, ∃ j, k ≤ j ∧ j < cs.length ∧
      t.pos = (cs.take j).foldl Position.step Position.start ∧ t.kind.Leads (cs.drop j) := by
  fun_induction Cursor.tokens c generalizing k with
  | case1 c t next _ hstep ih =>
    have hplaced : t.pos = c.skipBlanks.pos ∧ t.kind.Leads c.skipBlanks.rest ∧
        c.skipBlanks.rest ≠ [] ∧ c.skipBlanks.Follows next := by
      simpa [hstep, Step.Placed] using c.step_placed
    obtain ⟨j, hkj, hj⟩ := h.skipBlanks
    obtain ⟨j', hjj', hnext⟩ := hj.follows hplaced.2.2.2
    obtain ⟨u, us, hus⟩ := List.exists_cons_of_ne_nil next.tokens_ne_nil
    rw [hus, List.dropLast_cons_cons, ← hus]
    intro v hv
    rcases List.mem_cons.1 hv with rfl | hv
    · have hlt : j < cs.length := by
        have hne := hplaced.2.2.1
        rw [hj.1, ne_eq, List.drop_eq_nil_iff] at hne
        omega
      exact ⟨j, hkj, hlt, hplaced.1.trans hj.2, hj.1 ▸ hplaced.2.1⟩
    · obtain ⟨i, hji, hi⟩ := ih hnext v hv
      exact ⟨i, by omega, hi⟩
  | case2 c next _ hstep ih =>
    have hfollows : c.skipBlanks.Follows next := by simpa [hstep, Step.Placed] using c.step_placed
    obtain ⟨j, hkj, hj⟩ := h.skipBlanks
    obtain ⟨j', hjj', hnext⟩ := hj.follows hfollows
    intro v hv
    obtain ⟨i, hji, hi⟩ := ih hnext v hv
    exact ⟨i, by omega, hi⟩
  | case3 => simp
  | case4 c t next hstep heof =>
    have hplaced : t.pos = c.skipBlanks.pos ∧ t.kind.Leads c.skipBlanks.rest ∧
        (t.kind = .eof ∨ c.skipBlanks.rest ≠ []) := by
      simpa [hstep, Step.Placed] using c.step_placed
    have hne : c.skipBlanks.rest ≠ [] := by
      refine hplaced.2.2.resolve_left fun hk => heof ?_
      simp [Token.isEof, hk]
    obtain ⟨j, hkj, hj⟩ := h.skipBlanks
    intro v hv
    simp only [List.dropLast_cons_cons, List.dropLast_singleton, List.mem_singleton] at hv
    subst hv
    have hlt : j < cs.length := by
      rw [hj.1, ne_eq, List.drop_eq_nil_iff] at hne
      omega
    exact ⟨j, hkj, hlt, hplaced.1.trans hj.2, hj.1 ▸ hplaced.2.1⟩

theorem pos_le_getLast (c : Cursor) : ∀ t ∈ c.tokens, ∀ e ∈ c.tokens.getLast?, t.pos ≤ e.pos := by
  fun_induction Cursor.tokens c with
  | case1 c t next _ hstep ih =>
    have hord : t.pos = c.skipBlanks.pos ∧ c.skipBlanks.pos < next.pos := by
      simpa [hstep, Step.Ordered] using c.step_ordered
    obtain ⟨u, us, hus⟩ := List.exists_cons_of_ne_nil next.tokens_ne_nil
    intro v hv e he
    rw [hus, List.getLast?_cons_cons, ← hus] at he
    rcases List.mem_cons.1 hv with rfl | hv
    · have hnext : next.pos ≤ e.pos := next.pos_le_tokens e (List.mem_of_getLast? he)
      exact hord.1 ▸ (hord.2.trans_le hnext).le
    · exact ih v hv e he
  | case2 c next _ _ ih => exact ih
  | case3 c t next _ _ =>
    intro v hv e he
    simp only [List.mem_singleton, List.getLast?_singleton, Option.mem_def, Option.some.injEq] at hv he
    rw [hv, he]
  | case4 c t next hstep _ =>
    have hord : t.pos = c.skipBlanks.pos ∧ c.skipBlanks.pos ≤ next.pos := by
      simpa [hstep, Step.Ordered] using c.step_ordered
    intro v hv e he
    simp only [List.getLast?_cons_cons, List.getLast?_singleton, Option.mem_def,
      Option.some.injEq] at he
    subst he
    simp only [List.mem_cons, List.not_mem_nil, or_false] at hv
    rcases hv with rfl | rfl
    · exact hord.1 ▸ hord.2
    · exact le_rfl

end Cursor

/-- Each token before the final end of input stands at the index of the text where its lexeme
begins: on the line after as many newlines as come before that index, and in the column after as
many characters as stand between the last of them and the index. So the tokens stand in strictly
increasing places, and none stands after the final end of input. -/
theorem tokenize_places (s : String) :
    (∀ t ∈ (tokenize s).dropLast, ∃ k < s.length,
      t.pos = ⟨1 + (s.toList.take k).count '\n', k + 1 - lineBegin (s.toList.take k)⟩ ∧
        t.kind.Leads (s.toList.drop k)) ∧
    (tokenize s).dropLast.Pairwise (fun a b => a.pos < b.pos) ∧
    ∀ t ∈ tokenize s, ∀ e ∈ (tokenize s).getLast?, t.pos ≤ e.pos := by
  refine ⟨fun t ht => ?_, (Cursor.ofString s).tokens_pos_pairwise, (Cursor.ofString s).pos_le_getLast⟩
  obtain ⟨k, -, hk, hpos, hleads⟩ := Cursor.tokens_placed (Cursor.ofString_at s) t ht
  have hlen : (s.toList.take k).length = k := List.length_take_of_le (by omega)
  refine ⟨k, by rwa [← String.length_toList], ?_, hleads⟩
  rw [hpos, Position.foldl_step_start, hlen]

example : (tokenize "ab\n  cd e").map Token.pos = [⟨1, 1⟩, ⟨2, 3⟩, ⟨2, 6⟩, ⟨2, 7⟩] := by
  decide +kernel

end ModularC
