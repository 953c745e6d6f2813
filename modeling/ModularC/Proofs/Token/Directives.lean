import ModularC.Proofs.Token.Literals

/-!
Preprocessor lines are recognised where the text says (`tokenize_directives`).
-/

namespace ModularC

open Text (isBlank dropBlankEnd)

/-! ### Blank lines -/

/-- Only blanks stand on the last line of `cs`: after its last newline, or anywhere in it when it
has none. -/
def lineBlank (cs : List Char) : Bool := (cs.drop (lineBegin cs)).all isBlank

theorem lineBlank_append_singleton (cs : List Char) (c : Char) :
    lineBlank (cs ++ [c]) = if c = '\n' then true else lineBlank cs && isBlank c := by
  by_cases hc : c = '\n'
  · subst hc
    simp [lineBlank, lineBegin_append_newline]
  · rw [if_neg hc, lineBlank, lineBegin_append_of_ne cs hc,
      List.drop_append_of_le_length (lineBegin_le cs), List.all_append]
    simp [lineBlank]

theorem lineBlank_append_blanks (cs : List Char) {bs : List Char} (hbs : ∀ b ∈ bs, isBlank b) :
    lineBlank (cs ++ bs) = (lineBlank cs || bs.contains '\n') := by
  induction bs using List.reverseRecOn with
  | nil => simp
  | append_singleton bs b ih =>
    have hb : isBlank b = true := hbs b (by simp)
    rw [← List.append_assoc, lineBlank_append_singleton, ih (fun x hx => hbs x (by simp [hx]))]
    by_cases hn : b = '\n'
    · simp [hn]
    · simp [hn, hb, Ne.symm hn]

theorem lineBlank_append_of_eq_false {cs : List Char} (hcs : lineBlank cs = false)
    {L : List Char} (hL : '\n' ∉ L) : lineBlank (cs ++ L) = false := by
  induction L using List.reverseRecOn with
  | nil => simpa using hcs
  | append_singleton L c ih =>
    have hc : c ≠ '\n' := fun h => hL (by simp [h])
    rw [← List.append_assoc, lineBlank_append_singleton, if_neg hc,
      ih (fun h => hL (List.mem_append_left _ h)), Bool.false_and]

theorem lineBlank_append_eq_false (cs : List Char) {L : List Char} (hL : lineBlank L = false) :
    lineBlank (cs ++ L) = false := by
  induction L using List.reverseRecOn with
  | nil => cases hL
  | append_singleton L c ih =>
    rw [lineBlank_append_singleton] at hL
    rw [← List.append_assoc, lineBlank_append_singleton]
    split at hL
    · cases hL
    · rename_i hn
      rw [if_neg hn]
      rw [Bool.and_eq_false_iff] at hL
      rcases hL with hL | hc
      · rw [ih hL, Bool.false_and]
      · rw [hc, Bool.and_false]

theorem lineBlank_append_last {L : List Char} {c : Char} (hc : isBlank c = false) :
    lineBlank (L ++ [c]) = false := by
  have hn : c ≠ '\n' := by
    rintro rfl
    cases hc
  rw [lineBlank_append_singleton, if_neg hn, hc, Bool.and_false]

theorem lineBlank_cons {x : Char} {L : List Char} (hx : isBlank x = false) (hL : '\n' ∉ L) :
    lineBlank (x :: L) = false :=
  lineBlank_append_of_eq_false (lineBlank_append_last (L := []) hx) hL

/-! ### Where a preprocessor line ends -/

/-- `m` is where a preprocessor line that goes on with `rest` after the character `p` ends: the
index in `rest` of its first newline that no backslash directly precedes, or the length of `rest`
when it has none. -/
structure LineEnd (p : Char) (rest : List Char) (m : Nat) : Prop where
  length_le : m ≤ rest.length
  continued : ∀ i < m, rest[i]? = some '\n' → (p :: rest)[i]? = some '\\'
  stops : m = rest.length ∨ rest[m]? = some '\n' ∧ (p :: rest)[m]? ≠ some '\\'

theorem LineEnd.unique {p : Char} {rest : List Char} {m m' : Nat} (h : LineEnd p rest m)
    (h' : LineEnd p rest m') : m = m' := by
  -- the end that comes first is a newline no backslash precedes, which the other end passes over
  have key : ∀ {a b}, LineEnd p rest a → LineEnd p rest b → a < b → False := by
    intro a b ha hb hab
    rcases ha.stops with hlen | ⟨hnl, hbare⟩
    · have := hb.length_le
      omega
    · exact hbare (hb.continued a hab hnl)
  rcases Nat.lt_trichotomy m m' with hlt | heq | hgt
  · exact (key h h' hlt).elim
  · exact heq
  · exact (key h' h hgt).elim

theorem lineBody_lineEnd {p : Char} {rest : List Char}
    (hp : p = '\\' → rest.head? ≠ some '\n') : LineEnd p rest (lineBody rest).length := by
  induction rest using lineBody.induct generalizing p with
  | case1 => exact ⟨by simp [lineBody], by simp [lineBody], .inl (by simp [lineBody])⟩
  | case2 r =>
    refine ⟨by simp [lineBody], by simp [lineBody], .inr ⟨by simp [lineBody], ?_⟩⟩
    intro h
    simp only [lineBody, List.length_nil, List.getElem?_cons_zero, Option.some.injEq] at h
    exact hp h rfl
  | case3 r ih =>
    have ih' := ih (p := '\n') (by simp)
    simp only [lineBody, List.length_cons]
    obtain ⟨hle, hcont, hstops⟩ := ih'
    refine ⟨by simp; omega, ?_, ?_⟩
    · intro i hi hnl
      rcases i with _ | _ | i
      · cases hnl
      · rfl
      · simpa using hcont i (by omega) (by simpa using hnl)
    · rcases hstops with hlen | ⟨hnl, hbare⟩
      · exact .inl (by simp [hlen])
      · exact .inr ⟨by simpa using hnl, by simpa using hbare⟩
  | case4 c r hn hpair ih =>
    have ih' := ih (p := c) (fun hc hr => by
      cases r with
      | nil => cases hr
      | cons y r' =>
        simp only [List.head?_cons, Option.some.injEq] at hr
        exact hpair r' hc (by rw [hr]))
    simp only [lineBody, List.length_cons]
    obtain ⟨hle, hcont, hstops⟩ := ih'
    refine ⟨by simp; omega, ?_, ?_⟩
    · intro i hi hnl
      rcases i with _ | i
      · exact absurd (by simpa using hnl) hn
      · simpa using hcont i (by omega) (by simpa using hnl)
    · rcases hstops with hlen | ⟨hnl, hbare⟩
      · exact .inl (by simp [hlen])
      · exact .inr ⟨by simpa using hnl, by simpa using hbare⟩

theorem lineBody_stop (rest : List Char) :
    ∀ x ∈ (rest.drop (lineBody rest).length).head?, x = '\n' := by
  induction rest using lineBody.induct with
  | case1 => simp [lineBody]
  | case2 r => simp [lineBody]
  | case3 r ih => simpa [lineBody] using ih
  | case4 c r _ _ ih => simpa [lineBody] using ih

/-! ### What the scanner makes of a `#` -/

/-- Whether a token is a preprocessor line. -/
def TokenKind.isDirective : TokenKind → Bool
  | .directive _ => true
  | _ => false

/-- The token the text `rest` begins with, when the flag says whether only blanks precede it on its
line: at a `#` after only blanks a preprocessor line, up to where it ends and without the blanks at
its end; at any other `#` an error; and anywhere else no preprocessor line. -/
def HashRule (rest : List Char) (lineStart : Bool) (kind : TokenKind) : Prop :=
  match rest with
  | '#' :: body =>
    if lineStart then
      ∃ m, LineEnd '#' body m ∧
        kind = .directive (String.ofList (dropBlankEnd ('#' :: body.take m)))
    else kind = .error "unexpected character `#`"
  | _ => kind.isDirective = false

theorem HashRule.of_ne {x : Char} {xs : List Char} {lineStart : Bool} {kind : TokenKind}
    (hx : x ≠ '#') (hk : kind.isDirective = false) : HashRule (x :: xs) lineStart kind := by
  unfold HashRule
  split
  · rename_i heq
    exact absurd (List.cons.inj heq).1 hx
  · exact hk

theorem isBlank_eq_false_of_isWordChar {x : Char} (h : isWordChar x = true) : isBlank x = false := by
  by_cases hu : x = '_'
  · subst hu
    decide
  simp only [isWordChar, Char.isAlphanum, Char.isAlpha, Char.isUpper, Char.isLower, Char.isDigit,
    Bool.or_eq_true, Bool.and_eq_true, decide_eq_true_eq, UInt32.le_iff_toNat_le, Char.toNat_val,
    beq_iff_eq, hu, or_false] at h
  simp only [isBlank, Bool.or_eq_false_iff, Bool.and_eq_false_iff, decide_eq_false_iff_not,
    beq_eq_false_iff_ne, ne_eq]
  -- letters and digits lie below the first blank past the space and above the space
  have : '0'.toNat = 48 := rfl
  have : '9'.toNat = 57 := rfl
  have : 'A'.toNat = 65 := rfl
  have : 'Z'.toNat = 90 := rfl
  have : 'a'.toNat = 97 := rfl
  have : 'z'.toNat = 122 := rfl
  omega

theorem newline_not_mem_of {P : Char → Bool} (hP : P '\n' = false) {l : List Char}
    (h : ∀ d ∈ l, P d = true) : '\n' ∉ l := fun hn => by
  rw [h _ hn] at hP
  cases hP

theorem IntSuffix.newline_not_mem {sfx : List Char} (h : IntSuffix sfx) : '\n' ∉ sfx :=
  newline_not_mem_of (by decide) h.2

theorem FloatSuffix.newline_not_mem {sfx : List Char} (h : FloatSuffix sfx) : '\n' ∉ sfx :=
  newline_not_mem_of (by decide) h.2

theorem ExponentSuffix.newline_not_mem {fl : Bool} {p : List Char} (h : ExponentSuffix fl p) :
    '\n' ∉ p := by
  cases h with
  | @exponent e sfx he hsfx =>
    obtain ⟨E, sign, ds, rfl, hE, hsign, -, hds⟩ := he
    have hE' : E ≠ '\n' := by rcases hE with rfl | rfl <;> decide
    have hsign' : '\n' ∉ sign := by rcases hsign with rfl | rfl | rfl <;> decide
    simp only [List.cons_append, List.mem_cons, List.mem_append, not_or]
    exact ⟨Ne.symm hE', ⟨hsign', newline_not_mem_of (by decide) hds⟩, hsfx.newline_not_mem⟩
  | float _ hsfx => exact hsfx.newline_not_mem
  | int _ hsfx => exact hsfx.newline_not_mem

theorem NumberLiteral.newline_not_mem {p : List Char} (h : NumberLiteral p) : '\n' ∉ p := by
  cases h with
  | @hex x ds sfx hx _ hds hsfx =>
    have hx' : x ≠ '\n' := by rcases hx with rfl | rfl <;> decide
    simp only [List.mem_cons, List.mem_append, not_or]
    exact ⟨by decide, Ne.symm hx', newline_not_mem_of (by decide) hds, hsfx.newline_not_mem⟩
  | integer _ hw hrest =>
    simp only [List.mem_append, not_or]
    exact ⟨newline_not_mem_of (by decide) hw, hrest.newline_not_mem⟩
  | fraction hw hf _ hrest =>
    obtain ⟨ds, rfl, hds⟩ := hf
    simp only [List.mem_append, List.mem_cons, not_or]
    exact ⟨⟨newline_not_mem_of (by decide) hw, by decide, newline_not_mem_of (by decide) hds⟩,
      hrest.newline_not_mem⟩

theorem Symbol.lineBlank_spelling (s : Symbol) : lineBlank s.spelling.toList = false := by
  cases s <;> decide

theorem commentBody_sound {ys body : List Char} (h : commentBody ys = some body) :
    ys = body ++ '*' :: '/' :: ys.drop (body.length + 2) := by
  induction ys using commentBody.induct generalizing body with
  | case1 => cases h
  | case2 r =>
    simp only [commentBody, Option.some.injEq] at h
    subst h
    rfl
  | case3 c r hne ih =>
    rw [commentBody.eq_3 c r hne] at h
    cases hr : commentBody r with
    | none => rw [hr] at h; cases h
    | some b =>
      rw [hr] at h
      cases h
      simp only [List.cons_append, List.length_cons, List.drop_succ_cons]
      exact congrArg (c :: ·) (ih hr)

theorem stringRun_take {cs text : List Char} {n : Nat} (h : stringRun cs = (some text, n)) :
    ∃ pre, cs.take n = pre ++ ['"'] := by
  induction cs using stringRun.induct generalizing text n with
  | case1 cs n' hq =>
    rw [stringRun, hq] at h
    cases h
  | case2 cs body n' hq after blanks more hmore _ tail m =>
    rename_i hrun ih
    simp only [after, blanks] at hmore
    rw [drop_takeWhile_length] at hmore
    rw [stringRun_eq_of_quoted hq, hmore] at h
    simp only [hrun, Prod.mk.injEq] at h
    obtain ⟨htail, rfl⟩ := h
    cases tail with
    | none => cases htail
    | some t =>
      obtain ⟨pre, hpre⟩ := ih hrun
      have hdrop : cs.drop (n' + ((cs.drop n').takeWhile Text.isBlank).length + 1) = more := by
        rw [← List.drop_drop, ← List.drop_drop, drop_takeWhile_length, hmore]
        rfl
      refine ⟨cs.take (n' + ((cs.drop n').takeWhile Text.isBlank).length + 1) ++ pre, ?_⟩
      rw [List.take_add, hdrop, hpre, List.append_assoc]
  | case3 cs body n' hq after =>
    rename_i blanks hend
    rw [stringRun_eq_of_quoted hq] at h
    split at h
    · rename_i more hmore
      simp only [after, blanks] at hend
      exact absurd (by rw [drop_takeWhile_length]; exact hmore) (hend more)
    · cases h
      exact ⟨body, quoted_take hq⟩

/-! ### One step -/

/-- `d` stands `n` characters on from `c`, and its flag is right about the line: cleared after a
lexeme that leaves its line not blank, or set before a newline or the end of the text. -/
def Closes (c d : Cursor) : Prop :=
  ∃ n, d.rest = c.rest.drop n ∧ d.pos = (c.advance n).pos ∧
    (d.lineStart = false ∧ lineBlank (c.rest.take n) = false ∨
      d.lineStart = true ∧ ∀ x ∈ d.rest.head?, x = '\n')

theorem closes_advance (c : Cursor) (n : Nat) (h : lineBlank (c.rest.take n) = false) :
    Closes c ({ c with lineStart := false }.advance n) :=
  ⟨n, rfl, rfl, .inl ⟨rfl, h⟩⟩

/-- What a step makes of a `#`, and that the cursor after a token or comment keeps its flag right
about the line. -/
def Step.Lines {c : Cursor} : Step c → Prop
  | .token t next _ =>
    HashRule c.skipBlanks.rest c.skipBlanks.lineStart t.kind ∧ Closes c.skipBlanks next
  | .comment next _ => Closes c.skipBlanks next
  | .last t _ => HashRule c.skipBlanks.rest c.skipBlanks.lineStart t.kind

theorem isWordChar_of_wordStart {x : Char} (h : (x.isAlpha || x == '_') = true) :
    isWordChar x = true := by
  simp only [isWordChar, Char.isAlphanum, Bool.or_eq_true] at h ⊢
  tauto

theorem ne_hash_of_isWordChar {x : Char} (h : isWordChar x = true) : x ≠ '#' := by
  rintro rfl
  cases h

theorem isBlank_eq_false_of_numberStart {x : Char} {xs : List Char}
    (h : (x.isDigit || (x == '.' && startsWithDigit xs)) = true) : isBlank x = false ∧ x ≠ '#' := by
  simp only [Bool.or_eq_true, Bool.and_eq_true, beq_iff_eq] at h
  rcases h with hd | ⟨rfl, -⟩
  · have hw : isWordChar x = true := by simp [isWordChar, Char.isAlphanum, hd]
    exact ⟨isBlank_eq_false_of_isWordChar hw, ne_hash_of_isWordChar hw⟩
  · decide

namespace Cursor

theorem step_lines (c : Cursor) : c.step.Lines := by
  unfold Cursor.step
  dsimp only
  split
  · -- the end of input
    rename_i hrest
    show HashRule _ _ _
    rw [hrest]
    rfl
  rename_i x xs hrest
  have rule : ∀ {kind : TokenKind}, x ≠ '#' → kind.isDirective = false →
      HashRule c.skipBlanks.rest c.skipBlanks.lineStart kind :=
    fun hx hk => hrest ▸ HashRule.of_ne hx hk
  have close : ∀ {n : Nat}, lineBlank ((x :: xs).take n) = false →
      Closes c.skipBlanks ({ c.skipBlanks with lineStart := false }.advance n) :=
    fun h => closes_advance _ _ (hrest ▸ h)
  split
  · -- a preprocessor line: its body runs to where the line ends, and the flag stays set
    rename_i hdir
    obtain ⟨rfl, hls⟩ := hdir
    refine ⟨?_, ⟨(lineBody xs).length + 1, rfl, rfl, .inr ⟨hls, ?_⟩⟩⟩
    · show HashRule _ _ _
      rw [hrest, hls]
      refine ⟨(lineBody xs).length, lineBody_lineEnd (fun h => absurd h (by decide)), ?_⟩
      rw [← List.prefix_iff_eq_take.1 (lineBody_isPrefix xs)]
    · rw [advance_rest, hrest, List.drop_succ_cons]
      exact lineBody_stop xs
  split
  · -- a block comment ends with its closing; one not closed is an error
    split
    · rename_i ys _ _ _ _ body hbody
      apply close
      rw [commentBody_sound hbody]
      have hL : ('/' :: '*' :: (body ++ '*' :: '/' :: ys.drop (body.length + 2))).take
          (body.length + 3 + 1) = ('/' :: '*' :: (body ++ ['*'])) ++ ['/'] := by
        rw [show body.length + 3 + 1 = body.length + 2 + 1 + 1 by omega, List.take_succ_cons,
          List.take_succ_cons, List.take_append, List.take_of_length_le (by omega),
          Nat.add_sub_cancel_left]
        simp
      rw [hL]
      exact lineBlank_append_last (by decide)
    · exact rule (by decide) rfl
  · -- a line comment lies on one line
    rename_i ys _ _ _
    apply close
    have hL : ('/' :: '/' :: ys).take ((ys.takeWhile (· != '\n')).length + 1 + 1) =
        '/' :: '/' :: ys.takeWhile (· != '\n') := by
      simp only [List.take_succ_cons, ← List.prefix_iff_eq_take.1 (List.takeWhile_prefix _)]
    rw [hL]
    refine lineBlank_cons (by decide) ?_
    rintro (_ | ⟨_, hn⟩)
    exact absurd (List.mem_takeWhile_imp hn) (by decide)
  split
  · -- a keyword or a word, on one line
    rename_i hword
    have hw := isWordChar_of_wordStart hword
    refine ⟨rule (ne_hash_of_isWordChar hw) ?_, close ?_⟩
    · split <;> rfl
    · rw [List.take_succ_cons, ← List.prefix_iff_eq_take.1 (List.takeWhile_prefix _)]
      exact lineBlank_cons (isBlank_eq_false_of_isWordChar hw)
        (newline_not_mem_of (by decide) fun _ hd => List.mem_takeWhile_imp hd)
  split
  · -- a numeric literal, on one line
    rename_i hnum
    obtain ⟨hxb, hx⟩ := isBlank_eq_false_of_numberStart hnum
    have hx' : x.isDigit = true ∨ x = '.' ∧ startsWithDigit xs = true := by simpa using hnum
    split
    · exact rule hx rfl
    · rename_i tail htail
      have hclose : lineBlank ((x :: xs).take (tail.length + 1)) = false := by
        rw [List.take_succ_cons, ← List.prefix_iff_eq_take.1 (numberTail_isPrefix htail)]
        have hnl := (numberTail_sound htail hx').newline_not_mem
        exact lineBlank_cons hxb (fun h => hnl (List.mem_cons_of_mem _ h))
      split
      · split
        · exact rule hx rfl
        · exact ⟨rule hx rfl, close hclose⟩
      · exact ⟨rule hx rfl, close hclose⟩
  split
  · -- a run of string literals ends with a closing quote
    rename_i hx
    subst hx
    split
    · rename_i body n h
      refine ⟨rule (by decide) rfl, close ?_⟩
      obtain ⟨pre, hpre⟩ := stringRun_take h
      rw [List.take_succ_cons, hpre, ← List.cons_append]
      exact lineBlank_append_last (by decide)
    · exact rule (by decide) rfl
  split
  · -- a character literal ends with a closing quote
    rename_i hx
    subst hx
    split
    · exact rule (by decide) rfl
    · rename_i body n _ h
      refine ⟨rule (by decide) rfl, close ?_⟩
      rw [List.take_succ_cons, quoted_take h, ← List.cons_append]
      exact lineBlank_append_last (by decide)
    · exact rule (by decide) rfl
  · -- a symbol, or a character that begins nothing: a `#` after something else on its line
    have hdir : ¬(x = '#' ∧ c.skipBlanks.lineStart = true) := ‹_›
    split
    · rename_i s hs
      have hx : x ≠ '#' := by
        rintro rfl
        rw [show Symbol.ofPrefix? ('#' :: xs) = none from rfl] at hs
        cases hs
      refine ⟨rule hx rfl, close ?_⟩
      rw [← String.length_toList, ← List.prefix_iff_eq_take.1 (Symbol.spelling_isPrefix hs)]
      exact s.lineBlank_spelling
    · by_cases hx : x = '#'
      · subst hx
        have hls : c.skipBlanks.lineStart = false := by simpa using hdir
        show HashRule _ _ _
        rw [hrest, hls]
        show TokenKind.error ("unexpected character `" ++ '#'.toString ++ "`") =
          .error "unexpected character `#`"
        decide
      · exact rule hx rfl

/-! ### The token loop -/

/-- Scanning stands at index `k` of `cs`, and its flag is right about the line there: it says
whether only blanks stand on the line before `k`, or it is set and a newline or the end of the text
comes next. -/
structure LineInv (cs : List Char) (k : Nat) (c : Cursor) : Prop where
  place : c.At cs k
  flag : c.lineStart = lineBlank (cs.take k) ∨
    c.lineStart = true ∧ ∀ x ∈ (cs.drop k).head?, x = '\n'

theorem ofString_lineInv (s : String) : LineInv s.toList 0 (ofString s) :=
  ⟨ofString_at s, .inl rfl⟩

theorem LineInv.skipBlanks {cs : List Char} {k : Nat} {c : Cursor} (h : LineInv cs k c) :
    ∃ j, k ≤ j ∧ c.skipBlanks.At cs j ∧
      (c.skipBlanks.rest ≠ [] → c.skipBlanks.lineStart = lineBlank (cs.take j)) := by
  have hblank : ∀ b ∈ c.rest.takeWhile isBlank, isBlank b = true :=
    fun _ hb => List.mem_takeWhile_imp hb
  have htake : cs.take (k + (c.rest.takeWhile isBlank).length) =
      cs.take k ++ c.rest.takeWhile isBlank := by
    rw [List.take_add, ← h.place.1, ← List.prefix_iff_eq_take.1 (List.takeWhile_prefix _)]
  refine ⟨k + (c.rest.takeWhile isBlank).length, Nat.le_add_right _ _, h.place.advance _, ?_⟩
  intro hne
  show (c.lineStart || (c.rest.takeWhile isBlank).contains '\n') = _
  rw [htake, lineBlank_append_blanks _ hblank]
  rcases h.flag with hls | ⟨hls, hhead⟩
  · rw [hls]
  · obtain ⟨r, hr⟩ : ∃ r, c.rest = '\n' :: r := by
      cases hc : c.rest with
      | nil =>
        refine (hne ?_).elim
        show c.rest.drop _ = []
        rw [hc, List.drop_nil]
      | cons y r =>
        rw [← h.place.1, hc] at hhead
        exact ⟨r, by rw [hhead y rfl]⟩
    have hnl : (c.rest.takeWhile isBlank).contains '\n' = true := by
      rw [hr, List.takeWhile_cons_of_pos (by decide)]
      simp
    rw [hls, hnl, Bool.or_true, Bool.or_true]

theorem At.closes_lineInv {cs : List Char} {j : Nat} {c d : Cursor} (hc : c.At cs j)
    (h : Closes c d) : ∃ j', j ≤ j' ∧ LineInv cs j' d := by
  obtain ⟨n, hrest, hpos, hflag⟩ := h
  have hat : d.At cs (j + n) := ⟨hrest.trans (hc.advance n).1, hpos.trans (hc.advance n).2⟩
  refine ⟨j + n, Nat.le_add_right _ _, hat, ?_⟩
  rcases hflag with ⟨hls, hL⟩ | ⟨hls, hhead⟩
  · left
    rw [hls, List.take_add, ← hc.1, lineBlank_append_eq_false _ hL]
  · exact .inr ⟨hls, hat.1 ▸ hhead⟩

theorem tokens_lines {cs : List Char} {k : Nat} {c : Cursor} (h : LineInv cs k c) :
    ∀ t ∈ c.tokens.dropLast, ∃ j, k ≤ j ∧ j < cs.length ∧
      t.pos = (cs.take j).foldl Position.step Position.start ∧
        HashRule (cs.drop j) (lineBlank (cs.take j)) t.kind := by
  fun_induction Cursor.tokens c generalizing k with
  | case1 c t next _ hstep ih =>
    have hplaced : t.pos = c.skipBlanks.pos ∧ t.kind.Leads c.skipBlanks.rest ∧
        c.skipBlanks.rest ≠ [] ∧ c.skipBlanks.Follows next := by
      simpa [hstep, Step.Placed] using c.step_placed
    have hlines : HashRule c.skipBlanks.rest c.skipBlanks.lineStart t.kind ∧
        Closes c.skipBlanks next := by
      simpa [hstep, Step.Lines] using c.step_lines
    obtain ⟨j, hkj, hat, hflag⟩ := h.skipBlanks
    obtain ⟨j', hjj', hnext⟩ := hat.closes_lineInv hlines.2
    obtain ⟨u, us, hus⟩ := List.exists_cons_of_ne_nil next.tokens_ne_nil
    rw [hus, List.dropLast_cons_cons, ← hus]
    intro v hv
    rcases List.mem_cons.1 hv with rfl | hv
    · have hlt : j < cs.length := by
        have hne := hplaced.2.2.1
        rw [hat.1, ne_eq, List.drop_eq_nil_iff] at hne
        omega
      refine ⟨j, hkj, hlt, hplaced.1.trans hat.2, ?_⟩
      rw [← hat.1, ← hflag hplaced.2.2.1]
      exact hlines.1
    · obtain ⟨i, hji, hi⟩ := ih hnext v hv
      exact ⟨i, by omega, hi⟩
  | case2 c next _ hstep ih =>
    have hcloses : Closes c.skipBlanks next := by simpa [hstep, Step.Lines] using c.step_lines
    obtain ⟨j, hkj, hat, -⟩ := h.skipBlanks
    obtain ⟨j', hjj', hnext⟩ := hat.closes_lineInv hcloses
    intro v hv
    obtain ⟨i, hji, hi⟩ := ih hnext v hv
    exact ⟨i, by omega, hi⟩
  | case3 => simp
  | case4 c t next hstep heof =>
    have hplaced : t.pos = c.skipBlanks.pos ∧ t.kind.Leads c.skipBlanks.rest ∧
        (t.kind = .eof ∨ c.skipBlanks.rest ≠ []) := by
      simpa [hstep, Step.Placed] using c.step_placed
    have hrule : HashRule c.skipBlanks.rest c.skipBlanks.lineStart t.kind := by
      simpa [hstep, Step.Lines] using c.step_lines
    have hne : c.skipBlanks.rest ≠ [] := by
      refine hplaced.2.2.resolve_left fun hk => heof ?_
      simp [Token.isEof, hk]
    obtain ⟨j, hkj, hat, hflag⟩ := h.skipBlanks
    intro v hv
    simp only [List.dropLast_cons_cons, List.dropLast_singleton, List.mem_singleton] at hv
    subst hv
    have hlt : j < cs.length := by
      rw [hat.1, ne_eq, List.drop_eq_nil_iff] at hne
      omega
    refine ⟨j, hkj, hlt, hplaced.1.trans hat.2, ?_⟩
    rw [← hat.1, ← hflag hne]
    exact hrule

end Cursor

/-- A `#` that begins a lexeme begins a preprocessor line exactly when only blanks precede it on
its line, since the last newline or the start of the text. Each token before the final end of
input stands at an index `k` of the text, on the line and in the column of `k`; where the text at
`k` is a `#` that only blanks precede on its line, the token is the preprocessor line from it to
the first newline that no backslash directly precedes, without the blanks at its end; where it is
any other `#`, the token is an error; and no other token is a preprocessor line. -/
theorem tokenize_directives (s : String) :
    ∀ t ∈ (tokenize s).dropLast, ∃ k < s.length,
      t.pos = ⟨1 + (s.toList.take k).count '\n', k + 1 - lineBegin (s.toList.take k)⟩ ∧
        HashRule (s.toList.drop k) (lineBlank (s.toList.take k)) t.kind := by
  intro t ht
  obtain ⟨k, -, hk, hpos, hrule⟩ := Cursor.tokens_lines (Cursor.ofString_lineInv s) t ht
  have hlen : (s.toList.take k).length = k := List.length_take_of_le (by omega)
  refine ⟨k, by rwa [← String.length_toList], ?_, hrule⟩
  rw [hpos, Position.foldl_step_start, hlen]

theorem hashLines_tokenize_directives :
    (⟨.directive "#x", ⟨1, 2⟩⟩ : Token) ∈ (tokenize " #x\ny #").dropLast ∧
      ∃ k < " #x\ny #".length,
        (⟨1, 2⟩ : Position) = ⟨1 + (" #x\ny #".toList.take k).count '\n',
          k + 1 - lineBegin (" #x\ny #".toList.take k)⟩ ∧
        HashRule (" #x\ny #".toList.drop k) (lineBlank (" #x\ny #".toList.take k))
          (.directive "#x") :=
  have h : (⟨.directive "#x", ⟨1, 2⟩⟩ : Token) ∈ (tokenize " #x\ny #").dropLast := by
    decide +kernel
  ⟨h, tokenize_directives _ _ h⟩

example : (tokenize "  #a \\\n b  \nx # y").map Token.kind =
    [.directive "#a \\\n b", .word "x", .error "unexpected character `#`", .eof] := by
  decide +kernel

end ModularC
