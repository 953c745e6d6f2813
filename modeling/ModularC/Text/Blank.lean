/-!
Blank characters: the code points with the Unicode `White_Space` property. Source text is trimmed
and split into words by this class, so a no-break space separates words as a plain space does.
-/

namespace ModularC.Text

/-- The Unicode `White_Space` property: tab to carriage return, space, next line, no-break space,
ogham space mark, the spaces from en quad to hair space, the line and paragraph separators, narrow
no-break space, medium mathematical space and ideographic space. -/
def isBlank (c : Char) : Bool :=
  let n := c.toNat
  (0x09 ≤ n && n ≤ 0x0D) || n == 0x20 || n == 0x85 || n == 0xA0 || n == 0x1680 ||
    (0x2000 ≤ n && n ≤ 0x200A) || n == 0x2028 || n == 0x2029 || n == 0x202F ||
    n == 0x205F || n == 0x3000

/-- Every character core calls whitespace is blank. -/
theorem isBlank_of_isWhitespace {c : Char} (h : c.isWhitespace = true) : isBlank c = true := by
  simp only [Char.isWhitespace, Bool.or_eq_true, decide_eq_true_eq] at h
  rcases h with ((h | h) | h) | h <;> subst h <;> decide

/-- The characters of `cs` without the blanks at its end. -/
def dropBlankEnd (cs : List Char) : List Char :=
  (cs.reverse.dropWhile isBlank).reverse

/-- The text without the blanks at its end. -/
def trimEnd (s : String) : String :=
  String.ofList (dropBlankEnd s.toList)

/-- The maximal runs of non-blank characters, in order. -/
def wordsOf : List Char → List (List Char)
  | [] => []
  | c :: cs =>
    if isBlank c then wordsOf cs
    else
      let word := (c :: cs).takeWhile (fun x => !isBlank x)
      word :: wordsOf (cs.dropWhile (fun x => !isBlank x))
termination_by cs => cs.length
decreasing_by
  all_goals simp_wf
  · have := (List.dropWhile_suffix (fun x => !isBlank x) (l := cs)).length_le
    omega

/-- The words of a text: its maximal runs of non-blank characters. -/
def words (s : String) : List String :=
  (wordsOf s.toList).map String.ofList

example : words " #type　T  x\n" = ["#type", "T", "x"] := by decide +kernel
example : trimEnd "a b  \t" = "a b" := by decide +kernel

end ModularC.Text
